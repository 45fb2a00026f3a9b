import FusionMlx.Kernels.MergedCacheView

/-!
# The rows of the merged view are the histories of its requests

Between its padding and the common index a row holds what its request had
before it joined, followed by what was written while it was in the batch. Every
operation keeps that, except a join of a view with a buffer and one without,
and a join of a single request whose padded buffer is wider than the batch.
-/
namespace FusionMlx.MergedCacheView

open BlockHashing (PyError)

variable {α : Type}

variable {lo : Nat}

theorem segment_assign_self {cells vals : List α} (h : lo ≤ cells.length) :
    segment (assign cells lo vals) lo (lo + vals.length) = vals := by
  have htake : (cells.take lo).length = lo := by simp [h]
  simp [segment, assign, List.take_append, htake]

theorem segment_assign_after {cells vals : List α} {hi : Nat} (hlo : lo ≤ hi)
    (h : hi ≤ cells.length) :
    segment (assign cells hi vals) lo (hi + vals.length) = segment cells lo hi ++ vals := by
  have htake : (cells.take hi).length = hi := by simp [h]
  have hall : (cells.take hi).take (hi + vals.length) = cells.take hi :=
    List.take_of_length_le (by omega)
  have hzero : lo - hi = 0 := by omega
  simp only [segment, assign, List.append_assoc]
  rw [List.take_append, hall, htake, Nat.add_sub_cancel_left, List.take_left, List.drop_append,
    htake, hzero, List.drop_zero]

theorem length_assign {cells vals : List α} (h : lo + vals.length ≤ cells.length) :
    (assign cells lo vals).length = cells.length := by
  simp only [assign, List.length_append, List.length_take, List.length_drop]
  omega

theorem segment_append_left {xs ys : List α} {hi : Nat} (h : hi ≤ xs.length) :
    segment (xs ++ ys) lo hi = segment xs lo hi := by
  simp [segment, List.take_append_of_le_length h]

theorem segment_take {xs : List α} {hi n : Nat} (h : hi ≤ n) :
    segment (xs.take n) lo hi = segment xs lo hi := by
  simp [segment, List.take_take, Nat.min_eq_left h]

theorem segment_drop {xs : List α} {hi n : Nat} (hlo : n ≤ lo) :
    segment (xs.drop n) (lo - n) (hi - n) = segment xs lo hi := by
  have hsum : n + (lo - n) = lo := by omega
  simp only [segment, List.take_drop, List.drop_drop, hsum]
  by_cases hhi : n ≤ hi
  · rw [Nat.add_sub_cancel' hhi]
  · have h1 : (xs.take hi).drop lo = [] := by simp; omega
    have h2 : (xs.take (n + (hi - n))).drop lo = [] := by simp; omega
    rw [h1, h2]

theorem segment_shift (a : α) (xs : List α) (n lo hi : Nat) :
    segment (List.replicate n a ++ xs) (lo + n) (hi + n) = segment xs lo hi := by
  have htake : (List.replicate n a ++ xs).take (hi + n) = List.replicate n a ++ xs.take hi := by
    rw [Nat.add_comm hi n, List.take_append, List.take_of_length_le (by simp), List.length_replicate]
    simp
  have hdrop : (List.replicate n a ++ xs.take hi).drop (lo + n) = (xs.take hi).drop lo := by
    rw [Nat.add_comm lo n, ← List.drop_drop, List.drop_left' (by simp)]
  rw [segment, htake, hdrop, segment]

theorem le_roundUp (n : Nat) : n ≤ roundUp n := by
  simp only [roundUp, bstep]
  omega

/-- The buffer holds the positions up to the offset. -/
def RequestCache.Fits (c : RequestCache α) : Prop := c.offset ≤ c.flat.length

instance (c : RequestCache α) : Decidable c.Fits := inferInstanceAs (Decidable (_ ≤ _))

variable {c : RequestCache α}

theorem RequestCache.Fits.length_content (h : c.Fits) :
    c.content.length = c.offset := by
  simp only [content, List.length_take]
  exact Nat.min_eq_left h

def CacheOf (c : RequestCache α) (h : List α) : Prop := c.Fits ∧ c.content = h

/-- A step writes its positions behind the ones there are. -/
theorem RequestCache.Fits.update [Zero α] (h : c.Fits) (vals : List α) :
    CacheOf (c.update vals) (c.content ++ vals) := by
  have hlt : c.offset ≤ c.flat.length := h
  have hround := le_roundUp vals.length
  -- a buffer that is too short keeps its positions and gets the zeros behind them
  obtain ⟨grown, hgrown, hroom, hkept⟩ : ∃ grown : List α,
      c.update vals = ⟨assign grown c.offset vals, c.offset + vals.length⟩ ∧
        c.offset + vals.length ≤ grown.length ∧ grown.take c.offset = c.content := by
    refine ⟨_, rfl, ?_⟩
    split
    · have htake : (c.flat.take c.offset).length = c.offset := by
        rw [List.length_take, Nat.min_eq_left hlt]
      refine ⟨?_, ?_⟩
      · rw [List.length_append, htake, List.length_replicate]
        omega
      · rw [content]
        exact List.take_left' htake
    · exact ⟨by omega, rfl⟩
  rw [hgrown]
  refine ⟨?_, ?_⟩
  · rw [Fits, length_assign hroom]
    exact hroom
  · have htake : (grown.take c.offset).length = c.offset := by
      rw [List.length_take, Nat.min_eq_left (by omega)]
    rw [content, assign, List.take_left' (by rw [List.length_append, htake]), hkept]

inductive RequestCache.Written [Zero α] : RequestCache α → List α → Prop
  | new : Written ⟨[], 0⟩ []
  | update {c : RequestCache α} {h : List α} (hc : Written c h) (vals : List α) :
      Written (c.update vals) (h ++ vals)
  | trim {c : RequestCache α} {h : List α} (hc : Written c h) (n : Nat) :
      Written { c with offset := c.offset - min c.offset n } (h.take (c.offset - min c.offset n))

/-- Its flat buffer always holds these positions, so that it fits when it joins. -/
theorem RequestCache.Written.cacheOf [Zero α] {h : List α} (hc : Written c h) : CacheOf c h := by
  induction hc with
  | new => exact ⟨Nat.le_refl _, rfl⟩
  | update _ vals ih => exact ih.2 ▸ ih.1.update vals
  | trim _ n ih =>
    refine ⟨Nat.le_trans (Nat.sub_le _ _) ih.1, ?_⟩
    rw [← ih.2, content, content, List.take_take, Nat.min_eq_left (Nat.sub_le _ _)]

structure RowOf (width idx : Nat) (r : Row α) (h : List α) : Prop where
  padding : r.padding ≤ idx
  width : r.cells.length = width
  history : segment r.cells r.padding idx = h

structure BatchOf (b : Batch α) (hist : List (List α)) : Prop where
  room : b.idx ≤ b.width
  rows : List.Forall₂ (RowOf b.width b.idx) b.rows hist

/-- What each operation keeps. -/
structure Holds (v : View α) (hist : List (List α)) : Prop where
  count : v.constituents.length = hist.length
  unbuilt : v.batch = none → List.Forall₂ CacheOf v.constituents hist
  built : ∀ b, v.batch = some b → BatchOf b hist

variable {cs : List (RequestCache α)} {hist : List (List α)}

theorem Holds.of_unbuilt (h : List.Forall₂ CacheOf cs hist) : Holds ⟨cs, none⟩ hist :=
  ⟨h.length_eq, fun _ => h, nofun⟩

variable {b : Batch α}

theorem Holds.of_built
    (hcount : cs.length = hist.length) (h : BatchOf b hist) : Holds ⟨cs, some b⟩ hist := by
  constructor
  · exact hcount
  · intro hnone
    cases hnone
  · intro b' hb'
    cases hb'
    exact h

theorem forall₂_start (h : ∀ c ∈ cs, c.Fits) :
    List.Forall₂ CacheOf cs (cs.map RequestCache.content) := by
  induction cs with
  | nil => exact .nil
  | cons c cs ih =>
    apply List.Forall₂.cons
    · exact ⟨h c (by simp), rfl⟩
    · exact ih fun c hc => h c (by simp [hc])

theorem forall₂_filterMap {β : Type} {R : β → List α → Prop} {xs : List β}
    (h : List.Forall₂ R xs hist) (keep : List Nat) :
    List.Forall₂ R (keep.filterMap (xs[·]?)) (keep.filterMap (hist[·]?)) := by
  have hlen := h.length_eq
  induction keep with
  | nil => exact .nil
  | cons i keep ih =>
    by_cases hi : i < xs.length
    · have hi' : i < hist.length := by omega
      rw [List.filterMap_cons_some (List.getElem?_eq_getElem hi),
        List.filterMap_cons_some (List.getElem?_eq_getElem hi')]
      exact .cons (h.get hi hi') ih
    · rw [List.filterMap_cons_none (List.getElem?_eq_none (by omega)),
        List.filterMap_cons_none (List.getElem?_eq_none (by omega))]
      exact ih

variable [Zero α]

theorem le_foldl_max (ns : List Nat) (m : Nat) : m ≤ ns.foldl max m ∧ ∀ n ∈ ns, n ≤ ns.foldl max m := by
  induction ns generalizing m with
  | nil => simp
  | cons n ns ih =>
    obtain ⟨hm, hns⟩ := ih (max m n)
    constructor
    · exact (Nat.le_max_left m n).trans hm
    · intro k hk
      rcases List.mem_cons.mp hk with rfl | hk
      · exact (Nat.le_max_right m k).trans hm
      · exact hns k hk

omit [Zero α] in
theorem offset_le_max (hc : c ∈ cs) :
    c.offset ≤ (cs.map RequestCache.offset).foldl max 0 :=
  (le_foldl_max _ 0).2 _ (List.mem_map_of_mem hc)

/-- A row built for a cache is padded up to the longest. -/
theorem rowOf_build (hc : c.Fits) {top cap : Nat} (htop : c.offset ≤ top)
    (hcap : top ≤ cap) :
    RowOf cap top
      ⟨top - c.offset,
        if c.offset > 0 then assign (List.replicate cap 0) (top - c.offset) c.content
        else List.replicate cap 0⟩ c.content := by
  have hlen := hc.length_content
  constructor
  · exact Nat.sub_le top c.offset
  · by_cases hpos : c.offset > 0
    · simp only [if_pos hpos]
      rw [length_assign] <;> simp
      omega
    · simp [hpos]
  · by_cases hpos : c.offset > 0
    · simp only [if_pos hpos]
      have hle : top - c.offset ≤ (List.replicate cap (0 : α)).length := by
        rw [List.length_replicate]
        omega
      have hend : top = top - c.offset + c.content.length := by omega
      nth_rewrite 3 [hend]
      exact segment_assign_self hle
    · have hzero : c.offset = 0 := by omega
      have hnil : c.content = [] := List.length_eq_zero_iff.mp (by omega)
      simp [segment, hzero, hnil]

theorem batchOf_build
    (h : List.Forall₂ CacheOf cs hist) (add : Nat) : BatchOf (View.build cs add) hist := by
  constructor
  · simp only [View.build]
    exact (Nat.le_add_right _ add).trans (le_roundUp _)
  · simp only [View.build, List.forall₂_map_left_iff]
    have hall : List.Forall₂ (fun c h => c ∈ cs ∧ CacheOf c h) cs hist :=
      (List.forall₂_and_left _ _).mpr ⟨fun c hc => hc, h⟩
    apply hall.imp
    intro c h hc
    obtain ⟨hmem, hfits, rfl⟩ := hc
    exact rowOf_build hfits (offset_le_max hmem)
      ((Nat.le_add_right _ add).trans (le_roundUp _))

theorem BatchOf.grow (h : BatchOf b hist) {need : Nat}
    (hneed : b.idx ≤ need) : BatchOf (View.grow b need) hist := by
  have hcap : b.idx ≤ roundUp need := hneed.trans (le_roundUp need)
  constructor
  · exact hcap
  · simp only [View.grow, List.forall₂_map_left_iff]
    apply h.rows.imp
    intro r h' hr
    have hidx : b.idx ≤ r.cells.length := by
      rw [hr.width]
      exact h.room
    have htake : (r.cells.take b.idx).length = b.idx := by simp [hidx]
    constructor
    · exact hr.padding
    · rw [List.length_append, htake, List.length_replicate]
      exact Nat.add_sub_cancel' hcap
    · rw [segment_append_left (by omega), segment_take (Nat.le_refl _)]
      exact hr.history

variable {keys : List (List α)}

omit [Zero α] in
/-- Writing at the index appends to every history. -/
theorem forall₂_assign {width idx add : Nat} {rows : List (Row α)}
    (h : List.Forall₂ (RowOf width idx) rows hist) (hroom : idx + add ≤ width)
    (hkeys : ∀ k ∈ keys, k.length = add) :
    List.Forall₂ (RowOf width (idx + add))
      (List.zipWith (fun r k => { r with cells := assign r.cells idx k }) rows keys)
      (List.zipWith (· ++ ·) hist keys) := by
  induction h generalizing keys with
  | nil => exact .nil
  | @cons r h' rows hist hr hrows ih =>
    cases keys with
    | nil => exact .nil
    | cons k keys =>
      have hk : k.length = add := hkeys k (by simp)
      have hwidth := hr.width
      apply List.Forall₂.cons
      · constructor
        · exact hr.padding.trans (Nat.le_add_right idx add)
        · rw [length_assign (by omega)]
          exact hwidth
        · rw [← hk, segment_assign_after hr.padding (by omega), hr.history]
      · exact ih fun k hk => hkeys k (by simp [hk])

omit [Zero α] in
theorem assignRows_eq {rows : List (Row α)} (h : rows.length = keys.length)
    (idx : Nat) :
    View.assignRows rows idx keys =
      .ok (List.zipWith (fun r k => { r with cells := assign r.cells idx k }) rows keys) := by
  unfold View.assignRows
  split
  · obtain ⟨r, rfl⟩ := List.length_eq_one_iff.mp h
    rfl
  · rw [if_neg (not_not_intro h)]

variable {v : View α}

theorem Holds.getD_build (h : Holds v hist) (add : Nat) :
    BatchOf (v.batch.getD (View.build v.constituents add)) hist := by
  cases hb : v.batch with
  | none => exact batchOf_build (h.unbuilt hb) add
  | some b => exact h.built b hb

theorem Holds.build (h : Holds v hist) (add : Nat)
    (hb : v.batch = none) :
    Holds { v with batch := some (View.build v.constituents add) } hist :=
  .of_built h.count (batchOf_build (h.unbuilt hb) add)

/-- A write reaches every row, or the numbers of rows differ and nothing changes. -/
theorem Holds.updateAndFetch (h : Holds v hist)
    {add : Nat} (hkeys : ∀ k ∈ keys, k.length = add) :
    Holds (v.updateAndFetch add keys).2
      (if v.constituents.length = keys.length then List.zipWith (· ++ ·) hist keys else hist) := by
  unfold View.updateAndFetch
  by_cases hlen : v.constituents.length = keys.length
  · simp only [ne_eq, hlen, not_true_eq_false, if_false, if_true]
    set b := v.batch.getD (View.build v.constituents add) with hb
    have hbatch : BatchOf b hist := h.getD_build add
    set g := if b.width < b.idx + add then View.grow b (b.idx + add) else b with hg
    have hgrown : BatchOf g hist ∧ g.idx + add ≤ g.width := by
      rw [hg]
      by_cases hlt : b.width < b.idx + add
      · rw [if_pos hlt]
        exact ⟨hbatch.grow (Nat.le_add_right _ _), le_roundUp _⟩
      · rw [if_neg hlt]
        exact ⟨hbatch, by omega⟩
    obtain ⟨hg, hroom⟩ := hgrown
    have hcount := h.count
    have hrows := hg.rows.length_eq
    rw [assignRows_eq (by omega)]
    apply Holds.of_built
    · simp only [List.length_zipWith]
      omega
    · exact ⟨hroom, forall₂_assign hg.rows hroom hkeys⟩
  · simp only [ne_eq, hlen, not_false_eq_true, if_true, if_false]
    exact h

omit [Zero α] in
theorem BatchOf.dropCommon (h : BatchOf b hist) {n : Nat}
    (hn : ∀ r ∈ b.rows, n ≤ r.padding) : BatchOf (View.dropCommon b n) hist := by
  constructor
  · exact Nat.sub_le_sub_right h.room n
  · simp only [View.dropCommon, List.forall₂_map_left_iff]
    have hall : List.Forall₂ (fun r h => r ∈ b.rows ∧ RowOf b.width b.idx r h) b.rows hist :=
      (List.forall₂_and_left _ _).mpr ⟨fun r hr => hr, h.rows⟩
    apply hall.imp
    intro r h' hr
    obtain ⟨hmem, hr⟩ := hr
    constructor
    · exact Nat.sub_le_sub_right hr.padding n
    · rw [List.length_drop, hr.width]
    · rw [segment_drop (hn r hmem)]
      exact hr.history

def keptHistories (v : View α) (keep : List Nat) (hist : List (List α)) : List (List α) :=
  if ∃ i ∈ keep, v.constituents.length ≤ i then hist else keep.filterMap (hist[·]?)

omit [Zero α] in
theorem length_filterMap_getElem? {β : Type} (xs : List β) {keep : List Nat}
    (h : ∀ i ∈ keep, i < xs.length) : (keep.filterMap (xs[·]?)).length = keep.length := by
  induction keep with
  | nil => rfl
  | cons i keep ih =>
    have hi : i < xs.length := h i (by simp)
    rw [List.filterMap_cons_some (List.getElem?_eq_getElem hi), List.length_cons, List.length_cons,
      ih fun i hi => h i (by simp [hi])]

omit [Zero α] in
theorem Holds.filter (h : Holds v hist) (keep : List Nat) :
    Holds (v.filter keep).2 (keptHistories v keep hist) := by
  unfold View.filter keptHistories
  by_cases hclear : keep = [] ∧ v.constituents ≠ []
  · have hnone : (if ∃ i ∈ keep, v.constituents.length ≤ i then hist
        else keep.filterMap (hist[·]?)) = [] := by simp [hclear.1]
    rw [hnone, if_pos hclear]
    exact .of_unbuilt .nil
  · simp only [if_neg hclear]
    by_cases hout : ∃ i ∈ keep, v.constituents.length ≤ i
    · simp only [if_pos hout]
      exact h
    · simp only [if_neg hout]
      push Not at hout
      have hcount : (keep.filterMap (v.constituents[·]?)).length =
          (keep.filterMap (hist[·]?)).length := by
        rw [length_filterMap_getElem? _ hout, length_filterMap_getElem? _ (h.count ▸ hout)]
      cases hb : v.batch with
      | none => exact .of_unbuilt (forall₂_filterMap (h.unbuilt hb) keep)
      | some b =>
        have hkept : BatchOf { b with rows := keep.filterMap (b.rows[·]?) }
            (keep.filterMap (hist[·]?)) :=
          ⟨(h.built b hb).room, forall₂_filterMap (h.built b hb).rows keep⟩
        dsimp only
        cases hmin : ((keep.filterMap (b.rows[·]?)).map Row.padding).min? with
        | none => exact .of_built hcount hkept
        | some n =>
          apply Holds.of_built hcount
          apply hkept.dropCommon
          intro r hr
          exact (List.min?_eq_some_iff.mp hmin).2 _ (List.mem_map_of_mem hr)

/-- Shifting a row to a greater index and fitting it to a wider buffer keeps its history. -/
theorem rowOf_shift {r : Row α} {h : List α} {width idx left size : Nat}
    (hr : RowOf width idx r h) (hidx : idx ≤ width) (hsize : idx + left ≤ size) :
    RowOf size (idx + left)
      ⟨r.padding + left,
        List.replicate left 0 ++ (if size < width + left then r.cells.take (size - left) else r.cells) ++
          List.replicate (size - width - left) 0⟩ h := by
  have hlen := hr.width
  have hpadding := hr.padding
  set kept := if size < width + left then r.cells.take (size - left) else r.cells with hkept
  have hkept' : idx ≤ kept.length ∧ left + kept.length + (size - width - left) = size ∧
      segment kept r.padding idx = h := by
    by_cases hlt : size < width + left
    · simp only [hkept, if_pos hlt]
      refine ⟨?_, ?_, ?_⟩
      · simp only [List.length_take]
        omega
      · simp only [List.length_take]
        omega
      · rw [segment_take (by omega)]
        exact hr.history
    · simp only [hkept, if_neg hlt]
      exact ⟨by omega, by omega, hr.history⟩
  obtain ⟨hroom, htotal, hseg⟩ := hkept'
  constructor
  · exact Nat.add_le_add_right hpadding left
  · simpa [Nat.add_assoc] using htotal
  · rw [List.append_assoc, segment_shift, segment_append_left hroom, hseg]

theorem forall₂_padBuf (h : BatchOf b hist) {top size : Nat}
    (htop : b.idx ≤ top) (hsize : top ≤ size) :
    List.Forall₂ (RowOf size top) (View.padBuf b top size) hist := by
  have hsum : b.idx + (top - b.idx) = top := Nat.add_sub_cancel' htop
  simp only [View.padBuf, List.forall₂_map_left_iff]
  apply h.rows.imp
  intro r h' hr
  have hfit : b.idx + (top - b.idx) ≤ size := by omega
  have hrow := rowOf_shift hr h.room hfit
  rwa [hsum] at hrow

theorem BatchOf.extendBatched {a : Batch α} {hist' : List (List α)} (ha : BatchOf a hist)
    (hb : BatchOf b hist') : BatchOf (View.extendBatched a b) (hist ++ hist') := by
  have hra := ha.room
  have hrb := hb.room
  have hsize : max a.idx b.idx ≤ max a.width b.width := by omega
  constructor
  · exact hsize
  · exact List.rel_append
      (forall₂_padBuf ha (Nat.le_max_left _ _) hsize)
      (forall₂_padBuf hb (Nat.le_max_right _ _) hsize)

/-- The whole buffer of a single request, shifted to the index of the batch, is not wider than the
batch becomes. -/
def FitsBatch (b : Batch α) (c : RequestCache α) : Prop :=
  c.flat = [] ∨ b.idx - c.offset + c.flat.length ≤ max b.width c.flat.length

theorem length_buildOther (hroom : b.idx ≤ b.width)
    (hc : c.Fits) :
    (View.buildOther c (max b.idx c.offset)
        (max (max b.width (max b.idx c.offset)) c.flat.length)).cells.length =
      max (max b.width (max b.idx c.offset)) c.flat.length ↔ FitsBatch b c := by
  have hfits : c.offset ≤ c.flat.length := hc
  simp only [View.buildOther, FitsBatch]
  by_cases hpos : c.flat.length > 0
  · have hne : c.flat ≠ [] := List.ne_nil_of_length_pos hpos
    simp only [if_pos hpos, List.length_append, List.length_replicate, hne, false_or]
    omega
  · have hnil : c.flat = [] := List.length_eq_zero_iff.mp (by omega)
    simp [hnil]

/-- A row built for a joining request holds what the request had. -/
theorem rowOf_buildOther (hroom : b.idx ≤ b.width)
    (hc : c.Fits) (h : FitsBatch b c) :
    RowOf (max (max b.width (max b.idx c.offset)) c.flat.length) (max b.idx c.offset)
      (View.buildOther c (max b.idx c.offset)
        (max (max b.width (max b.idx c.offset)) c.flat.length)) c.content := by
  have hlen := (length_buildOther hroom hc).mpr h
  have hle : c.offset ≤ max b.idx c.offset := Nat.le_max_right _ _
  have hfits : c.offset ≤ c.flat.length := hc
  set top := max b.idx c.offset
  set size := max (max b.width top) c.flat.length
  constructor
  · exact Nat.sub_le top c.offset
  · exact hlen
  · have hsum : 0 + (top - c.offset) = top - c.offset ∧ c.offset + (top - c.offset) = top := by omega
    by_cases hpos : c.flat.length > 0
    · simp only [View.buildOther, if_pos hpos, List.append_assoc]
      have hshift := segment_shift (0 : α)
        (c.flat ++ List.replicate (size - c.flat.length - (top - c.offset)) 0) (top - c.offset) 0
        c.offset
      rw [hsum.1, hsum.2, segment_append_left hfits] at hshift
      exact hshift
    · have hzero : c.offset = 0 := by omega
      simp [View.buildOther, segment, RequestCache.content, hpos, hzero]

theorem extendSingle_eq_ok (hb : BatchOf b hist) (hc : c.Fits) (h : FitsBatch b c) :
    ∃ b', View.extendSingle b c = .ok b' ∧ BatchOf b' (hist ++ [c.content]) := by
  have hlen := (length_buildOther hb.room hc).mpr h
  refine ⟨_, if_neg (not_not_intro hlen), ?_⟩
  have hsize : max b.idx c.offset ≤ max (max b.width (max b.idx c.offset)) c.flat.length := by omega
  constructor
  · exact hsize
  · apply List.rel_append
    · exact forall₂_padBuf hb (Nat.le_max_left _ _) hsize
    · exact .cons (rowOf_buildOther hb.room hc h) .nil

theorem extendSingle_eq_error (hroom : b.idx ≤ b.width)
    (hc : c.Fits) (h : ¬ FitsBatch b c) : View.extendSingle b c = .error .valueError :=
  if_pos fun hlen => h ((length_buildOther hroom hc).mp hlen)

omit [Zero α] in
theorem Holds.rows_length (h : Holds v hist)
    (hb : v.batch = some b) : b.rows.length = v.constituents.length :=
  (h.built b hb).rows.length_eq.trans h.count.symm

/-- Of two joined views, one without a buffer has no requests if the other has a buffer. -/
def JoinsView (v w : View α) : Prop :=
  (v.batch = none → w.batch ≠ none → v.constituents = []) ∧
    (v.batch ≠ none → w.batch = none → w.constituents = [])

/-- A request joining a view with a buffer fits it. -/
def JoinsCache (v : View α) (c : RequestCache α) : Prop :=
  ∀ b, v.batch = some b → FitsBatch b c

instance (b : Batch α) (c : RequestCache α) : Decidable (FitsBatch b c) :=
  inferInstanceAs (Decidable (_ ∨ _))

instance (v : View α) (c : RequestCache α) : Decidable (JoinsCache v c) :=
  decidable_of_iff (∀ b ∈ v.batch, FitsBatch b c) Iff.rfl

/-- A join of two views keeps every history exactly when both have a buffer, neither has, or the
one without has no requests. -/
theorem Holds.extendView_iff {w : View α} {hist' : List (List α)} (hv : Holds v hist)
    (hw : Holds w hist') : Holds (v.extendView w) (hist ++ hist') ↔ JoinsView v w := by
  have hcount : (v.constituents ++ w.constituents).length = (hist ++ hist').length := by
    rw [List.length_append, List.length_append, hv.count, hw.count]
  unfold View.extendView
  cases hbv : v.batch with
  | none =>
    cases hbw : w.batch with
    | none =>
      constructor
      · intro h
        simp [JoinsView, hbv, hbw]
      · intro h
        exact .of_unbuilt (List.rel_append (hv.unbuilt hbv) (hw.unbuilt hbw))
    | some b =>
      have hrows := hw.rows_length hbw
      constructor
      · intro h
        have hall := h.rows_length (b := b) rfl
        have hnil : v.constituents.length = 0 := by
          simp only [List.length_append] at hall
          omega
        exact ⟨fun _ _ => List.length_eq_zero_iff.mp hnil, fun hne => absurd hbv hne⟩
      · intro h
        have hnil : v.constituents = [] := h.1 hbv (by simp [hbw])
        have hnone : hist = [] := by
          rw [← List.length_eq_zero_iff, ← hv.count, hnil, List.length_nil]
        rw [hnone, List.nil_append] at hcount ⊢
        exact .of_built hcount (hw.built b hbw)
  | some a =>
    cases hbw : w.batch with
    | none =>
      have hrows := hv.rows_length hbv
      constructor
      · intro h
        have hall := h.rows_length (b := a) rfl
        have hnil : w.constituents.length = 0 := by
          simp only [List.length_append] at hall
          omega
        refine ⟨fun hnone => ?_, fun _ _ => List.length_eq_zero_iff.mp hnil⟩
        rw [hbv] at hnone
        cases hnone
      · intro h
        have hnil : w.constituents = [] := h.2 (by simp [hbv]) hbw
        have hnone : hist' = [] := by
          rw [← List.length_eq_zero_iff, ← hw.count, hnil, List.length_nil]
        rw [hnone, List.append_nil] at hcount ⊢
        exact .of_built hcount (hv.built a hbv)
    | some b =>
      constructor
      · intro h
        simp [JoinsView, hbv, hbw]
      · intro h
        exact .of_built hcount ((hv.built a hbv).extendBatched (hw.built b hbw))

/-- A single request joins a view exactly when it fits; otherwise the call raises. -/
theorem Holds.extendCache_iff (hv : Holds v hist) (hc : c.Fits) :
    Holds (v.extendCache c).2 (hist ++ [c.content]) ↔ JoinsCache v c := by
  have hcount : (v.constituents ++ [c]).length = (hist ++ [c.content]).length := by
    rw [List.length_append, List.length_append, hv.count]
    rfl
  unfold View.extendCache
  cases hb : v.batch with
  | none =>
    constructor
    · intro h b hsome
      rw [hb] at hsome
      cases hsome
    · intro h
      exact .of_unbuilt (List.rel_append (hv.unbuilt hb) (.cons ⟨hc, rfl⟩ .nil))
  | some b =>
    by_cases hfits : FitsBatch b c
    · obtain ⟨b', hext, hb'⟩ := extendSingle_eq_ok (hv.built b hb) hc hfits
      simp only [hext]
      constructor
      · intro h b'' hsome
        rw [hb] at hsome
        cases hsome
        exact hfits
      · intro h
        exact .of_built hcount hb'
    · simp only [extendSingle_eq_error (hv.built b hb).room hc hfits]
      constructor
      · intro h
        have hcount' := h.count
        have hcount'' := hv.count
        simp only [List.length_append, List.length_singleton] at hcount'
        omega
      · intro h
        exact absurd (h b hb) hfits

omit [Zero α] in
/-- The request handed back has exactly the history of its row. -/
theorem Holds.extract_eq (hv : Holds v hist) {i : Nat}
    {h : List α} (hi : hist[i]? = some h) :
    ∃ c, (v.extract i).1 = .ok c ∧ c.Fits ∧ c.content = h ∧ Holds (v.extract i).2 hist := by
  obtain ⟨hlt, hget⟩ := List.getElem?_eq_some_iff.mp hi
  have hlt' : i < v.constituents.length := hv.count ▸ hlt
  simp only [View.extract, List.getElem?_eq_getElem hlt']
  cases hb : v.batch with
  | none =>
    have hcache : CacheOf v.constituents[i] hist[i] := (hv.unbuilt hb).get hlt' hlt
    exact ⟨v.constituents[i], rfl, hcache.1, hcache.2.trans hget, hv⟩
  | some b =>
    have hbatch := hv.built b hb
    have hlt'' : i < b.rows.length := by rwa [hv.rows_length hb]
    have hrow : RowOf b.width b.idx b.rows[i] hist[i] := hbatch.rows.get hlt'' hlt
    simp only [List.getElem?_eq_getElem hlt'']
    have hroom := hbatch.room
    have hwidth := hrow.width
    have hlen : (segment b.rows[i].cells b.rows[i].padding b.idx).length =
        b.idx - b.rows[i].padding := by
      simp only [segment, List.length_drop, List.length_take]
      omega
    refine ⟨_, rfl, ?_, ?_, ?_⟩
    · exact Nat.le_of_eq hlen.symm
    · rw [RequestCache.content, List.take_of_length_le (Nat.le_of_eq hlen), hrow.history, hget]
    · apply Holds.of_built
      · rw [List.length_set]
        exact hv.count
      · exact hbatch

omit [Zero α] in
theorem Holds.extract (hv : Holds v hist) (i : Nat) :
    Holds (v.extract i).2 hist := by
  by_cases hlt : i < hist.length
  · obtain ⟨_, _, _, _, h⟩ := hv.extract_eq (List.getElem?_eq_getElem hlt)
    exact h
  · have hnone : v.constituents[i]? = none := List.getElem?_eq_none (by rw [hv.count]; omega)
    simp only [View.extract, hnone]
    exact hv

/-- A view reached from new requests, with what each of them had and was given since. -/
inductive Run (joinsView : View α → View α → Prop) (joinsCache : View α → RequestCache α → Prop) :
    View α → List (List α) → Prop
  | start {cs : List (RequestCache α)} (h : ∀ c ∈ cs, c.Fits) :
      Run joinsView joinsCache ⟨cs, none⟩ (cs.map RequestCache.content)
  | build {v : View α} {hist : List (List α)} (add : Nat) (h : Run joinsView joinsCache v hist)
      (hb : v.batch = none) :
      Run joinsView joinsCache { v with batch := some (View.build v.constituents add) } hist
  | update {v : View α} {hist keys : List (List α)} {add : Nat}
      (h : Run joinsView joinsCache v hist) (hkeys : ∀ k ∈ keys, k.length = add) :
      Run joinsView joinsCache (v.updateAndFetch add keys).2
        (if v.constituents.length = keys.length then List.zipWith (· ++ ·) hist keys else hist)
  | filter {v : View α} {hist : List (List α)} (keep : List Nat)
      (h : Run joinsView joinsCache v hist) :
      Run joinsView joinsCache (v.filter keep).2 (keptHistories v keep hist)
  | extendView {v w : View α} {hist hist' : List (List α)} (h : Run joinsView joinsCache v hist)
      (h' : Run joinsView joinsCache w hist') (hj : joinsView v w) :
      Run joinsView joinsCache (v.extendView w) (hist ++ hist')
  | extendCache {v : View α} {c : RequestCache α} {hist : List (List α)}
      (h : Run joinsView joinsCache v hist) (hc : c.Fits) (hj : joinsCache v c) :
      Run joinsView joinsCache (v.extendCache c).2 (hist ++ [c.content])
  | extract {v : View α} {hist : List (List α)} (i : Nat) (h : Run joinsView joinsCache v hist) :
      Run joinsView joinsCache (v.extract i).2 hist

theorem Run.holds (h : Run JoinsView JoinsCache v hist) :
    Holds v hist := by
  induction h with
  | start h => exact .of_unbuilt (forall₂_start h)
  | build add _ hb ih => exact ih.build add hb
  | update _ hkeys ih => exact ih.updateAndFetch hkeys
  | filter keep _ ih => exact ih.filter keep
  | extendView _ _ hj ih ih' => exact (ih.extendView_iff ih').mpr hj
  | extendCache _ hc hj ih => exact (ih.extendCache_iff hc).mpr hj
  | extract i _ ih => exact ih.extract i

/-- The rows of the buffer are as many as the requests, all as wide as the buffer, and hold
exactly the histories; a request read back has its history. -/
structure Represents (v : View α) (hist : List (List α)) : Prop where
  requests : v.constituents.length = hist.length
  rows : ∀ b, v.batch = some b → b.rows.length = v.constituents.length
  width : ∀ b, v.batch = some b → ∀ r ∈ b.rows, r.cells.length = b.width
  segments : ∀ b, v.batch = some b →
    b.rows.map (fun r => segment r.cells r.padding b.idx) = hist
  extract : ∀ (i : Nat) (h : List α), hist[i]? = some h →
    ∃ c, (v.extract i).1 = .ok c ∧ c.content = h

omit [Zero α] in
theorem Holds.represents (h : Holds v hist) :
    Represents v hist := by
  constructor
  · exact h.count
  · intro b hb
    exact h.rows_length hb
  · intro b hb
    have hwidth : List.Forall₂ (fun r _ => r.cells.length = b.width ∧ True) b.rows hist :=
      (h.built b hb).rows.imp fun r _ hr => ⟨hr.width, trivial⟩
    exact ((List.forall₂_and_left _ _).mp hwidth).1
  · intro b hb
    have hseg := (h.built b hb).rows.imp fun r _ hr => hr.history
    rwa [← List.forall₂_map_left_iff (R := Eq), List.forall₂_eq_eq_eq] at hseg
  · intro i h' hi
    obtain ⟨c, hc, _, hcontent, _⟩ := h.extract_eq hi
    exact ⟨c, hc, hcontent⟩

/-- In a run whose joins all match, the merged view is its requests' histories. -/
theorem run_represents {v : View α} {hist : List (List α)} (h : Run JoinsView JoinsCache v hist) :
    Represents v hist :=
  h.holds.represents

/-- Two requests written to once, then joined by a third. -/
theorem run_represents_three :
    Represents
      (((⟨[⟨[1, 2], 2⟩, ⟨[3], 1⟩], none⟩ : View Nat).updateAndFetch 1 [[4], [5]]).2.extendCache
        ⟨[6], 1⟩).2 [[1, 2, 4], [3, 5], [6]] := by
  have hstart : Run JoinsView JoinsCache (⟨[⟨[1, 2], 2⟩, ⟨[3], 1⟩], none⟩ : View Nat)
      [[1, 2], [3]] :=
    .start (by decide)
  have hupdate : Run JoinsView JoinsCache
      ((⟨[⟨[1, 2], 2⟩, ⟨[3], 1⟩], none⟩ : View Nat).updateAndFetch 1 [[4], [5]]).2
      [[1, 2, 4], [3, 5]] :=
    .update hstart (by decide)
  exact run_represents (.extendCache hupdate (by decide) (by decide +kernel))

/-- A view with a buffer joined by one without has fewer rows than requests, and a request whose
position is not in its flat buffer gets a row of zeros. -/
theorem mixed_join_loses_a_row :
    (¬ ∀ (v : View Nat) (hist : List (List Nat)),
      Run (fun _ _ => True) (fun _ _ => True) v hist → Represents v hist) ∧
    (View.build [(⟨[], 1⟩ : RequestCache Nat)] 1).rows.map (fun r => segment r.cells r.padding 1) =
      [[0]] := by
  refine ⟨fun h => ?_, by decide +kernel⟩
  have hstart : Run (fun _ _ => True) (fun _ _ => True) (⟨[⟨[1], 1⟩], none⟩ : View Nat) [[1]] :=
    .start (by decide)
  have hbuilt : Run (fun _ _ => True) (fun _ _ => True)
      (View.updateAndFetch ⟨[⟨[1], 1⟩], none⟩ 1 [[2]]).2 [[1, 2]] :=
    .update hstart (by decide)
  have hrows := (h _ _ (.extendView hbuilt hstart trivial)).rows _ rfl
  exact absurd hrows (by decide)

end FusionMlx.MergedCacheView
