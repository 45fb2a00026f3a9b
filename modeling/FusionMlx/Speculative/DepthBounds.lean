import FusionMlx.Speculative.DepthController
import Mathlib.Tactic.Linarith
import Mathlib.Tactic.Positivity
import Mathlib.Tactic.FieldSimp

/-!
# Bounds of the draft depth

Estimates stay between what was measured, so no division is by zero, and every
depth that is picked is at most one beyond the frontier.
-/
namespace FusionMlx.DraftDepth

open OrderedDict

theorem clamp_bounds {limit x : ℚ} (hl : 0 ≤ limit) :
    -limit ≤ CostModel.clamp limit x ∧ CostModel.clamp limit x ≤ limit ∧ min 0 x ≤ CostModel.clamp limit x ∧
      CostModel.clamp limit x ≤ max 0 x := by
  unfold CostModel.clamp
  split_ifs with h₁ h₂
  · exact ⟨by linarith, le_refl _, by rw [min_eq_left (by linarith)]; exact hl, by rw [max_eq_right (by linarith)]; linarith⟩
  · exact ⟨le_refl _, by linarith, by rw [min_eq_right (by linarith)]; linarith, by rw [max_eq_left (by linarith)]; linarith⟩
  · exact ⟨by linarith, by linarith, min_le_right _ _, le_max_right _ _⟩

/-- An update stays between the estimate and the sample, and above zero. -/
theorem update_bounds {prev w : ℚ} (hprev : 0 < prev) :
    min prev w ≤ CostModel.update prev w ∧ CostModel.update prev w ≤ max prev w ∧ 0 < CostModel.update prev w := by
  have hlimit : 0 ≤ costClampFraction * prev := by unfold costClampFraction; positivity
  obtain ⟨h₁, -, h₃, h₄⟩ := @clamp_bounds (costClampFraction * prev) (w - prev) hlimit
  unfold CostModel.update costEwmaAlpha
  generalize hc : CostModel.clamp (costClampFraction * prev) (w - prev) = c at *
  refine ⟨?_, ?_, ?_⟩
  · rcases le_total prev w with h | h
    · rw [min_eq_left h]
      rw [min_eq_left (by linarith)] at h₃
      linarith
    · rw [min_eq_right h]
      rw [min_eq_right (by linarith)] at h₃
      linarith
  · rcases le_total prev w with h | h
    · rw [max_eq_right h]
      rw [max_eq_right (by linarith)] at h₄
      linarith
    · rw [max_eq_left h]
      rw [max_eq_left (by linarith)] at h₄
      linarith
  · unfold costClampFraction at h₁
    linarith

/-- Sampled depths in order, each with a positive estimate. -/
structure CostModel.Sound (m : CostModel) : Prop where
  sorted : m.depths.Pairwise (· < ·)
  mem_depths : ∀ d, d ∈ m.depths ↔ ∃ v, m.ewma.get? d = some v
  positive : ∀ d v, m.ewma.get? d = some v → 0 < v

namespace CostModel

variable {m : CostModel} {d k : Nat} {w : ℚ}

theorem mem_insort {ds : List Nat} {x : Nat} : x ∈ insort ds d ↔ x = d ∨ x ∈ ds := by
  conv_rhs => rw [← List.takeWhile_append_dropWhile (p := fun x => decide (x ≤ d)) (l := ds)]
  simp only [insort, List.mem_append, List.mem_cons]
  tauto

theorem insort_sorted {ds : List Nat} (h : ds.Pairwise (· < ·)) (hd : d ∉ ds) : (insort ds d).Pairwise (· < ·) := by
  induction ds with
  | nil => simp [insort]
  | cons x ds ih =>
    rw [List.pairwise_cons] at h
    simp only [List.mem_cons, not_or] at hd
    by_cases hx : x ≤ d
    · have hstep : insort (x :: ds) d = x :: insort ds d := by simp [insort, hx]
      rw [hstep, List.pairwise_cons]
      refine ⟨?_, ih h.2 hd.2⟩
      intro y hy
      rcases mem_insort.1 hy with rfl | hy
      · omega
      · exact h.1 y hy
    · have hstep : insort (x :: ds) d = d :: x :: ds := by simp [insort, hx]
      rw [hstep, List.pairwise_cons, List.pairwise_cons]
      refine ⟨?_, h⟩
      intro y hy
      rcases List.mem_cons.1 hy with rfl | hy
      · omega
      · have := h.1 y hy
        omega

/-- The estimate of an observed depth, and of the others. -/
theorem get?_observe (hw : 0 < w) : (m.observe d w).ewma.get? k =
    if k = d then some (match m.ewma.get? d with | none => w | some prev => update prev w) else m.ewma.get? k := by
  rw [observe, if_neg (by linarith)]
  exact Dict.get?_set _ _ _ _

theorem Sound.observe (h : m.Sound) (d : Nat) (w : ℚ) : (m.observe d w).Sound := by
  by_cases hw : 0 < w
  · have hget := fun k => @get?_observe m d k w hw
    refine ⟨?_, ?_, ?_⟩
    · rw [CostModel.observe, if_neg (by linarith)]
      cases hd : m.ewma.get? d with
      | none =>
        refine insort_sorted h.sorted ?_
        rw [h.mem_depths, hd]
        rintro ⟨v, hv⟩
        cases hv
      | some v => exact h.sorted
    · intro k
      rw [hget k]
      rw [CostModel.observe, if_neg (by linarith)]
      by_cases hk : k = d
      · rw [if_pos hk]
        cases hd : m.ewma.get? d with
        | none => simp [mem_insort, hk]
        | some v =>
          dsimp only
          rw [h.mem_depths, hk, hd]
          simp
      · rw [if_neg hk, ← h.mem_depths]
        cases hd : m.ewma.get? d with
        | none => simp [mem_insort, hk]
        | some v => rfl
    · intro k v hv
      rw [hget k] at hv
      split_ifs at hv with hk
      · obtain rfl := Option.some.inj hv
        cases hd : m.ewma.get? d with
        | none => exact hw
        | some prev => exact (update_bounds (h.positive d prev hd)).2.2
      · exact h.positive k v hv
  · rw [CostModel.observe, if_pos (by linarith)]
    exact h

theorem Sound.estimate (h : m.Sound) (hd : d ∈ m.depths) : ∃ v, m.estimate d = .ok v ∧ 0 < v := by
  obtain ⟨v, hv⟩ := (h.mem_depths d).1 hd
  exact ⟨v, by rw [CostModel.estimate, hv], h.positive d v hv⟩

/-- A point between two positive values is positive. -/
theorem interpolated_pos {a b t : ℚ} (ha : 0 < a) (hb : 0 < b) (h₀ : 0 ≤ t) (h₁ : t ≤ 1) : 0 < a + t * (b - a) := by
  rcases le_total a b with h | h
  · have := mul_nonneg h₀ (sub_nonneg.2 h)
    linarith
  · have := mul_le_mul_of_nonneg_right h₁ (sub_nonneg.2 h)
    linarith

theorem Sound.between (h : m.Sound) {ds : List Nat} (hsub : ∀ d ∈ ds, d ∈ m.depths) (hsorted : ds.Pairwise (· < ·))
    (hne : ds ≠ []) (hk : ∀ d, ds.head? = some d → d ≤ k) : ∃ v, m.between k ds = .ok v ∧ 0 < v := by
  fun_induction CostModel.between m k ds with
  | case1 => exact absurd rfl hne
  | case2 last => exact h.estimate (hsub last (by simp))
  | case3 lo hi ds hle =>
    obtain ⟨a, ha, hapos⟩ := h.estimate (hsub lo (by simp))
    obtain ⟨b, hb, hbpos⟩ := h.estimate (hsub hi (by simp))
    have hlt : lo < hi := (List.pairwise_cons.1 hsorted).1 hi (by simp)
    have hlo : lo ≤ k := hk lo rfl
    have hpos : (0 : ℚ) < (hi : ℚ) - lo := by
      have : (lo : ℚ) < hi := by exact_mod_cast hlt
      linarith
    have hnum : (0 : ℚ) ≤ (k : ℚ) - lo := by
      have : (lo : ℚ) ≤ k := by exact_mod_cast hlo
      linarith
    have hden : (k : ℚ) - lo ≤ (hi : ℚ) - lo := by
      have : (k : ℚ) ≤ hi := by exact_mod_cast hle
      linarith
    have hdiv : divide ((k : ℚ) - lo) ((hi : ℚ) - lo) = .ok (((k : ℚ) - lo) / ((hi : ℚ) - lo)) := by
      rw [divide, if_neg hpos.ne']
    refine ⟨_, ?_, interpolated_pos hapos hbpos (div_nonneg hnum hpos.le) ((div_le_one hpos).2 hden)⟩
    rw [hdiv, ha, hb]
    rfl
  | case4 lo hi ds hle ih =>
    refine ih (fun d hd => hsub d (by simp [hd])) (List.pairwise_cons.1 hsorted).2 (List.cons_ne_nil _ _) ?_
    intro d hd
    obtain rfl : hi = d := by simpa using hd
    omega

/-- Once something is sampled every cost is there and positive. -/
theorem Sound.cost (h : m.Sound) (hne : m.depths ≠ []) (k : Nat) : ∃ v, m.cost k = .ok v ∧ 0 < v := by
  rw [CostModel.cost]
  cases hds : m.depths with
  | nil => exact absurd hds hne
  | cons d ds =>
    dsimp only
    have hall : ∀ x ∈ d :: ds, x ∈ m.depths := by rw [hds]; simp
    split_ifs with h₁ h₂
    · exact h.estimate (hall d (by simp))
    · exact h.estimate (hall _ (List.getLast_mem _))
    · refine h.between hall (hds ▸ h.sorted) (List.cons_ne_nil d ds) ?_
      intro x hx
      obtain rfl : d = x := by simpa using hx
      omega

theorem Sound.depths_ne_nil (h : m.Sound) (hready : m.ready = true) : m.depths ≠ [] := by
  intro hnil
  have hlen : 2 ≤ m.ewma.entries.length := by simpa [ready] using hready
  obtain ⟨⟨k, v⟩, es, he⟩ : ∃ e es, m.ewma.entries = e :: es := by
    cases hes : m.ewma.entries with
    | nil => rw [hes] at hlen; simp at hlen
    | cons e es => exact ⟨e, es, rfl⟩
  have hk : k ∈ m.ewma.keys := by simp [Dict.keys, he]
  have hmem := (h.mem_depths k).2 ((Dict.mem_keys_iff _ _).1 hk)
  rw [hnil] at hmem
  cases hmem

end CostModel

namespace AcceptanceModel

variable {m : AcceptanceModel} {i n : Nat}

/-- Every rate is a fraction of one. -/
def Sound (m : AcceptanceModel) : Prop := ∀ r ∈ m.rate, 0 ≤ r ∧ r ≤ 1

theorem Sound.getD (h : m.Sound) (i : Nat) : 0 ≤ m.rate.getD i 0 ∧ m.rate.getD i 0 ≤ 1 := by
  rw [List.getD_eq_getElem?_getD]
  cases hi : m.rate[i]? with
  | none => simp
  | some r => exact h r (List.mem_of_getElem? hi)

theorem Sound.grow (h : m.Sound) (i : Nat) : (m.grow i).Sound := by
  intro r hr
  rcases List.mem_append.1 hr with hr | hr
  · exact h r hr
  · rw [(List.mem_replicate.1 hr).2]
    norm_num

theorem Sound.observeAt (h : m.Sound) (i : Nat) (accepted : Bool) : (m.observeAt i accepted).Sound := by
  intro r hr
  rcases List.mem_or_eq_of_mem_set hr with hr | rfl
  · exact h.grow i r hr
  · obtain ⟨h₀, h₁⟩ := (h.grow i).getD i
    unfold acceptanceEwmaAlpha
    cases accepted <;> simp only [Bool.false_eq_true, if_true, if_false] <;> split_ifs <;> constructor <;> linarith

theorem Sound.observe (h : m.Sound) (drafted accepted : Nat) : (m.observe drafted accepted).Sound := by
  unfold AcceptanceModel.observe
  generalize List.range' 1 drafted = is
  induction is generalizing m with
  | nil => exact h
  | cons i is ih =>
    unfold observeLoop
    split_ifs
    · exact h
    · exact ih (h.observeAt i _)

theorem Sound.acceptance (h : m.Sound) (i : Nat) : 0 ≤ m.acceptance i ∧ m.acceptance i ≤ 1 := by
  unfold AcceptanceModel.acceptance
  split_ifs
  · exact h.getD i
  · cases (List.range' 1 (i - 1)).reverse.find? m.sampled with
    | none => norm_num
    | some j => exact h.getD j

theorem Sound.committed (h : m.Sound) (n : Nat) : 0 ≤ (m.committed n).2 ∧ (m.committed n).2 ≤ 1 := by
  induction n with
  | zero => simp [AcceptanceModel.committed]
  | succ n ih =>
    obtain ⟨h₀, h₁⟩ := h.acceptance (n + 1)
    exact ⟨mul_nonneg ih.1 h₀, mul_le_one₀ ih.2 h₀ h₁⟩

theorem Sound.expected_succ (h : m.Sound) (n : Nat) :
    m.expectedCommitted n ≤ m.expectedCommitted (n + 1) ∧ m.expectedCommitted (n + 1) ≤ m.expectedCommitted n + 1 := by
  have hn := h.committed (n + 1)
  have hstep : m.expectedCommitted (n + 1) = m.expectedCommitted n + (m.committed (n + 1)).2 := rfl
  rw [hstep]
  constructor <;> linarith [hn.1, hn.2]

theorem Sound.expected_mono (h : m.Sound) : Monotone m.expectedCommitted :=
  monotone_nat_of_le_succ (fun n => (h.expected_succ n).1)

theorem Sound.expected_le (h : m.Sound) (n : Nat) : m.expectedCommitted n ≤ n + 1 := by
  induction n with
  | zero => simp [expectedCommitted, AcceptanceModel.committed]
  | succ n ih =>
    have := (h.expected_succ n).2
    push_cast
    linarith

end AcceptanceModel

namespace DepthController

variable {c : DepthController} {maxK : Nat}

theorem divide_pos {a b : ℚ} (hb : 0 < b) : divide a b = .ok (a / b) := by
  rw [divide, if_neg hb.ne']

theorem selectLoop_ok (h : c.cost.Sound) (hne : c.cost.depths ≠ []) {l : Nat} (ns : List Nat) (hns : ∀ n ∈ ns, n ≤ l)
    (best : Nat) (hbest : best ≤ l) (bestEv : ℚ) : ∃ sel, c.selectLoop ns best bestEv = .ok sel ∧ sel ≤ l := by
  induction ns generalizing best bestEv with
  | nil => exact ⟨best, rfl, hbest⟩
  | cons n ns ih =>
    have ih := ih (fun x hx => hns x (by simp [hx]))
    obtain ⟨v, hv, hpos⟩ := h.cost hne n
    have hstep : c.selectLoop (n :: ns) best bestEv =
        if bestEv < c.acc.expectedCommitted n / v then c.selectLoop ns n (c.acc.expectedCommitted n / v)
        else c.selectLoop ns best bestEv := by
      rw [selectLoop, hv]
      change (if v ≤ 0 then _ else _) = _
      rw [if_neg (by linarith), divide_pos hpos]
      rfl
    rw [hstep]
    split_ifs
    · exact ih n (hns n (by simp)) _
    · exact ih best hbest _

theorem selected_ok (h : c.cost.Sound) : ∃ sel, c.selected = .ok sel ∧ sel ≤ c.limit := by
  unfold selected
  by_cases hready : c.cost.ready = true
  · have hne := h.depths_ne_nil hready
    obtain ⟨v, hv, hpos⟩ := h.cost hne 0
    rw [if_pos hready, hv]
    change ∃ sel, (divide _ v >>= _) = _ ∧ _
    rw [divide_pos hpos]
    refine selectLoop_ok h hne _ ?_ 0 (Nat.zero_le _) _
    intro n hn
    have := List.mem_range'_1.1 hn
    omega
  · rw [if_neg hready]
    exact ⟨0, rfl, Nat.zero_le _⟩

theorem leastUsed_le (window : List Nat) (l : Nat) : leastUsed window l ≤ l := by
  unfold leastUsed
  have h : ∀ ns : List Nat, (∀ n ∈ ns, n ≤ l) → ∀ best, best ≤ l →
      ns.foldl (fun best n => if window.count n < window.count best then n else best) best ≤ l := by
    intro ns
    induction ns with
    | nil => exact fun _ best hbest => hbest
    | cons n ns ih =>
      intro hns best hbest
      rw [List.foldl_cons]
      refine ih (fun x hx => hns x (by simp [hx])) _ ?_
      split_ifs
      · exact hns n (by simp)
      · exact hbest
  refine h _ ?_ 0 (Nat.zero_le l)
  intro n hn
  have := List.mem_range.1 hn
  omega

structure SameModels (c c' : DepthController) : Prop where
  cost : c'.cost = c.cost
  acc : c'.acc = c.acc
  maxK : c'.maxK = c.maxK
  roundCount : c'.roundCount = c.roundCount
  parkCount : c'.parkCount = c.parkCount
  kHistogram : c'.kHistogram = c.kHistogram

theorem SameModels.trans {c c' c'' : DepthController} (h : SameModels c c') (h' : SameModels c' c'') :
    SameModels c c'' :=
  ⟨h'.cost.trans h.cost, h'.acc.trans h.acc, h'.maxK.trans h.maxK, h'.roundCount.trans h.roundCount,
    h'.parkCount.trans h.parkCount, h'.kHistogram.trans h.kHistogram⟩

theorem SameModels.limit {c c' : DepthController} (h : SameModels c c') : c'.limit = c.limit := by
  rw [DepthController.limit, DepthController.limit, frontier, frontier, h.acc, h.maxK]

theorem noteSelected_same (c : DepthController) (sel : Nat) : SameModels c (c.noteSelected sel) := by
  unfold noteSelected
  split_ifs <;> exact ⟨rfl, rfl, rfl, rfl, rfl, rfl⟩

theorem outwardProbe_same (c : DepthController) (sel : Nat) : SameModels c (c.outwardProbe sel).2 := by
  unfold outwardProbe
  dsimp only
  split_ifs <;> exact ⟨rfl, rfl, rfl, rfl, rfl, rfl⟩

theorem outwardProbe_le (c : DepthController) (sel k : Nat) (h : (c.outwardProbe sel).1 = some k) : k ≤ c.limit := by
  unfold outwardProbe at h
  dsimp only at h
  split_ifs at h
  · obtain rfl := Option.some.inj h
    exact Nat.min_le_right _ _

theorem applyStarvationProbe_same (c : DepthController) (sel depth : Nat) :
    SameModels c (c.applyStarvationProbe sel depth).2 := by
  unfold applyStarvationProbe
  dsimp only
  split_ifs <;> exact ⟨rfl, rfl, rfl, rfl, rfl, rfl⟩

theorem applyStarvationProbe_le (c : DepthController) (sel depth : Nat) (h : depth ≤ c.limit) :
    (c.applyStarvationProbe sel depth).1 ≤ c.limit := by
  unfold applyStarvationProbe
  dsimp only
  split_ifs <;> first | exact h | exact leastUsed_le _ _

theorem costSeedDepth_le (c : DepthController) {n : Nat} (h : c.costSeedDepth = some n) : n ≤ c.limit := by
  have := List.mem_range.1 (List.mem_of_find?_eq_some h)
  omega

theorem depthFor_le (c : DepthController) {sel : Nat} {probe : Option Nat} (hsel : sel ≤ c.limit)
    (hprobe : ∀ k, probe = some k → k ≤ c.limit) : c.depthFor sel probe ≤ c.limit := by
  cases probe with
  | some k => exact hprobe k rfl
  | none =>
    refine Nat.le_trans (Nat.min_le_left _ _) ?_
    cases hseed : c.costSeedDepth with
    | none => exact hsel
    | some n => exact costSeedDepth_le c hseed

/-- A pick answers, within the limit, and touches no estimate. -/
theorem pickK_spec (h : c.cost.Sound) : ∃ k c', c.pickK = .ok (k, c') ∧ k ≤ c.limit ∧ SameModels c c' := by
  obtain ⟨sel, hsel, hle⟩ := selected_ok h
  have hnote := noteSelected_same c sel
  have hprobe := hnote.trans (outwardProbe_same (c.noteSelected sel) sel)
  let probed := (c.noteSelected sel).outwardProbe sel
  let starved := probed.2.applyStarvationProbe sel (probed.2.depthFor sel probed.1)
  have hstarved : SameModels c starved.2 := hprobe.trans (applyStarvationProbe_same _ sel _)
  have hdepth : probed.2.depthFor sel probed.1 ≤ probed.2.limit := by
    refine depthFor_le _ (by rwa [hprobe.limit]) (fun k hk => ?_)
    rw [hprobe.limit, ← hnote.limit]
    exact outwardProbe_le _ sel k hk
  refine ⟨starved.1, { starved.2 with scheduled := starved.1 }, ?_, ?_, ?_⟩
  · rw [pickK, hsel]
    rfl
  · have hlimit := applyStarvationProbe_le _ sel _ hdepth
    rwa [hprobe.limit] at hlimit
  · exact ⟨hstarved.cost, hstarved.acc, hstarved.maxK, hstarved.roundCount, hstarved.parkCount, hstarved.kHistogram⟩

end DepthController

/-- What a sequence of calls keeps. -/
structure Kept (maxK : Nat) (h : List Call) (c : DepthController) : Prop where
  cost : c.cost.Sound
  acc : c.acc.Sound
  maxK : c.maxK = maxK
  estimates : ∀ d v, c.cost.ewma.get? d = some v →
    (∃ w ∈ walls d h, 0 < w ∧ w ≤ v) ∧ (∃ w ∈ walls d h, v ≤ w)
  rounds : c.roundCount = c.kHistogram.total id
  parks : c.parkCount = (c.kHistogram.get? 0).getD 0

variable {maxK : Nat} {h : List Call} {c c' : DepthController}

theorem walls_append (k : Nat) (h h' : List Call) : walls k (h ++ h') = walls k h ++ walls k h' :=
  List.filterMap_append

theorem Kept.start : Kept maxK [] { maxK := maxK } where
  cost := ⟨List.Pairwise.nil, by simp, by simp⟩
  acc := by
    intro r hr
    obtain rfl : r = 0 := by simpa using hr
    norm_num
  maxK := rfl
  estimates := by simp
  rounds := rfl
  parks := rfl

theorem Kept.same (hk : Kept maxK h c) (hs : DepthController.SameModels c c') (k : Nat) :
    Kept maxK (h ++ [.pick k]) c' where
  cost := hs.cost ▸ hk.cost
  acc := hs.acc ▸ hk.acc
  maxK := hs.maxK.trans hk.maxK
  estimates := by
    intro d v hv
    rw [hs.cost] at hv
    have hwalls : walls d (h ++ [.pick k]) = walls d h := by rw [walls_append]; simp [walls]
    rw [hwalls]
    exact hk.estimates d v hv
  rounds := by rw [hs.roundCount, hs.kHistogram, hk.rounds]
  parks := by rw [hs.parkCount, hs.kHistogram, hk.parks]

theorem Kept.record (hk : Kept maxK h c) (k : Nat) (w : ℚ) (accepts : List Bool) :
    Kept maxK (h ++ [.record k w accepts]) (c.record k w accepts) where
  cost := by
    unfold DepthController.record
    dsimp only
    split_ifs
    · exact hk.cost.observe k w
    · exact hk.cost
  acc := by
    unfold DepthController.record
    dsimp only
    split_ifs
    · exact hk.acc
    · exact hk.acc.observe _ _
  maxK := hk.maxK
  estimates := by
    intro d v hv
    have hold : ∀ {v}, c.cost.ewma.get? d = some v → (∃ x ∈ walls d (h ++ [.record k w accepts]), 0 < x ∧ x ≤ v) ∧
        (∃ x ∈ walls d (h ++ [.record k w accepts]), v ≤ x) := by
      intro v hv
      obtain ⟨⟨x, hx, hxv⟩, ⟨y, hy, hyv⟩⟩ := hk.estimates d v hv
      rw [walls_append]
      exact ⟨⟨x, by simp [hx], hxv⟩, ⟨y, by simp [hy], hyv⟩⟩
    change (if 0 < w then c.cost.observe k w else c.cost).ewma.get? d = some v at hv
    split_ifs at hv with hw
    · rw [CostModel.get?_observe hw] at hv
      split_ifs at hv with hd
      · have hnew : w ∈ walls d (h ++ [.record k w accepts]) := by rw [walls_append]; simp [walls, hd]
        obtain rfl := Option.some.inj hv
        cases hprev : c.cost.ewma.get? k with
        | none => exact ⟨⟨w, hnew, hw, le_refl w⟩, ⟨w, hnew, le_refl w⟩⟩
        | some prev =>
          obtain ⟨hlow, hhigh, -⟩ := @update_bounds prev w (hk.cost.positive k prev hprev)
          obtain ⟨⟨x, hx, hx₀, hxv⟩, ⟨y, hy, hyv⟩⟩ := hold (hd ▸ hprev)
          dsimp only
          constructor
          · rcases min_le_iff.1 hlow with h' | h'
            · exact ⟨x, hx, hx₀, hxv.trans h'⟩
            · exact ⟨w, hnew, hw, h'⟩
          · rcases le_max_iff.1 hhigh with h' | h'
            · exact ⟨y, hy, h'.trans hyv⟩
            · exact ⟨w, hnew, h'⟩
      · exact hold hv
    · exact hold hv
  rounds := by
    have htotal := Dict.total_set id c.kHistogram k ((c.kHistogram.get? k).getD 0 + 1)
    change c.roundCount + 1 = (c.kHistogram.set k ((c.kHistogram.get? k).getD 0 + 1)).total id
    rw [htotal, hk.rounds]
    cases hcount : c.kHistogram.get? k with
    | none =>
      rw [Dict.total_erase_of_none id hcount]
      exact Nat.add_comm _ _
    | some n =>
      rw [Dict.total_of_get id hcount]
      simp only [id_eq, Option.getD_some]
      omega
  parks := by
    change (if k = 0 then c.parkCount + 1 else c.parkCount) =
      ((c.kHistogram.set k ((c.kHistogram.get? k).getD 0 + 1)).get? 0).getD 0
    rw [Dict.get?_set, hk.parks]
    split_ifs with h₁ h₂ h₂
    · rw [h₁]; rfl
    · exact absurd h₁.symm h₂
    · exact absurd h₂.symm h₁
    · rfl

theorem Reached.kept (hc : Reached maxK h c) : Kept maxK h c := by
  induction hc with
  | start => exact .start
  | @pick h c c' k hc hk ih =>
    obtain ⟨k', c'', hpick, -, hsame⟩ := DepthController.pickK_spec ih.cost
    rw [hpick] at hk
    obtain ⟨rfl, rfl⟩ : k' = k ∧ c'' = c' := by simpa using hk
    exact ih.same hsame k'
  | record hc hk w accepts ih => exact ih.record _ w accepts

/-- In every state that is reached a pick divides by no zero and stays within a position of the frontier, each
estimate is positive and between two wall times of its depth, and the counters tell the rounds. -/
theorem Reached.safe (hc : Reached maxK h c) :
    (∃ k c', c.pickK = .ok (k, c') ∧ k ≤ min (c.frontier + 1) maxK) ∧
    (∀ d v, c.cost.ewma.get? d = some v →
      0 < v ∧ (∃ w ∈ walls d h, 0 < w ∧ w ≤ v) ∧ ∃ w ∈ walls d h, v ≤ w) ∧
    (∀ d, c.cost.depths ≠ [] → ∃ v, c.cost.cost d = .ok v ∧ 0 < v) ∧
    (∀ r ∈ c.acc.rate, 0 ≤ r ∧ r ≤ 1) ∧ (∀ i, 0 ≤ c.acc.acceptance i ∧ c.acc.acceptance i ≤ 1) ∧
    Monotone c.acc.expectedCommitted ∧ (∀ n : Nat, c.acc.expectedCommitted n ≤ n + 1) ∧
    c.roundCount = c.kHistogram.total id ∧ c.parkCount = (c.kHistogram.get? 0).getD 0 := by
  have hk := hc.kept
  obtain ⟨k, c', hpick, hle, -⟩ := DepthController.pickK_spec hk.cost
  refine ⟨⟨k, c', hpick, ?_⟩, ?_, fun d hne => hk.cost.cost hne d, hk.acc, hk.acc.acceptance, hk.acc.expected_mono,
    hk.acc.expected_le, hk.rounds, hk.parks⟩
  · rw [← hk.maxK]
    exact hle
  · intro d v hv
    exact ⟨hk.cost.positive d v hv, hk.estimates d v hv⟩

theorem Reached.round {maxK k : Nat} {h : List Call} {c c' : DepthController} (hc : Reached maxK h c)
    (hk : c.pickK = .ok (k, c')) (wallMs : ℚ) (accepts : List Bool) :
    Reached maxK ((h ++ [.pick k]) ++ [.record k wallMs accepts]) (c'.record k wallMs accepts) :=
  .record (.pick hc hk) (by simp) wallMs accepts

def twoDepths : List Call :=
  [.pick 0, .record 0 3 [], .pick 0, .record 0 3 [], .pick 0, .record 0 3 [], .pick 1, .record 1 4 [true]]

/-- Three parked rounds, and one with a draft that is accepted. -/
theorem Reached.safe_twoDepths : ∃ c : DepthController, Reached 3 twoDepths c ∧ c.roundCount = 4 ∧
    c.roundCount = c.kHistogram.total id ∧ c.parkCount = (c.kHistogram.get? 0).getD 0 := by
  obtain ⟨c, c₁, c₂, c₃, h₀, h₁, h₂, h₃, hrounds⟩ : ∃ c c₁ c₂ c₃, ({ maxK := 3 } : DepthController).pickK = .ok (0, c) ∧
      (c.record 0 3 []).pickK = .ok (0, c₁) ∧ (c₁.record 0 3 []).pickK = .ok (0, c₂) ∧
      (c₂.record 0 3 []).pickK = .ok (1, c₃) ∧ c₃.roundCount = 3 :=
    ⟨_, _, _, _, rfl, rfl, rfl, rfl, rfl⟩
  have hrun : Reached 3 twoDepths (c₃.record 1 4 [true]) :=
    (((Reached.start.round h₀ 3 []).round h₁ 3 []).round h₂ 3 []).round h₃ 4 [true]
  have hsafe := Reached.safe hrun
  exact ⟨_, hrun, congrArg (· + 1) hrounds, hsafe.2.2.2.2.2.2.2.1, hsafe.2.2.2.2.2.2.2.2⟩

end FusionMlx.DraftDepth
