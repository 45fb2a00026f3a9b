import FusionMlx.Cache.ReclaimOrder

/-!
# Copy-on-write, construction and the resets

A private copy comes from the queue, else from growth, else from one reclaimed
block; only the last can orphan anything.
-/
namespace FusionMlx.CopyRefinement

open BlockHashing BlockHashMap FreeBlockQueue BlockPool ResourceLedger PoolRefinement
open LookupRefinement EvictRefinement ReclaimOrder
open ResourceLedger.Ledger (Evicted)

variable {κ : Type} {P : Params κ} {R : Rules BlockHash}
variable {s : Pool} {a a' : Ledger Nat BlockHash}

def room (P : Params κ) (s : Pool) : Nat :=
  s.freeBlockQueue.numFreeBlocks.toNat + (P.maxBlocks - s.currentAllocatedCount)

theorem room_eq (h : Refines P s a) :
    room P s = a.free.length + (P.maxBlocks - s.currentAllocatedCount) := by
  rw [room, h.numFree, Int.toNat_natCast]

theorem growBlocks_count (s : Pool) (n : Nat) :
    (s.growBlocks P n).1 = min n (P.maxBlocks - s.currentAllocatedCount) ∧
      (s.growBlocks P n).2.currentAllocatedCount = s.currentAllocatedCount + (s.growBlocks P n).1 := by
  by_cases hz : min n (P.maxBlocks - s.currentAllocatedCount) = 0 <;> simp [Pool.growBlocks, hz]

theorem growBlocks_none {s : Pool} {n : Nat} (hz : (s.growBlocks P n).1 = 0) :
    (s.growBlocks P n).2 = s := by
  have hmin : min n (P.maxBlocks - s.currentAllocatedCount) = 0 := by
    rw [← (growBlocks_count s n).1]
    exact hz
  simp only [Pool.growBlocks, hmin, if_true]

theorem growBlocks_unthinned (h : Refines P s a) (hs : a.Sound 0) (n : Nat) :
    Unthinned s (s.growBlocks P n).2 := by
  by_cases hz : min n (P.maxBlocks - s.currentAllocatedCount) = 0
  · simp only [Pool.growBlocks, hz, if_true]
    exact .of_same (by rw [List.filter_true]) (fun _ _ => rfl)
  · simp only [Pool.growBlocks, hz, if_false]
    refine .of_same (by rw [List.filter_true]) (fun b hb => ?_)
    have hlt : b < s.currentAllocatedCount :=
      (h.made b).mp ((hs.placed b).mpr (Or.inr (Or.inl ((h.held b).mpr hb))))
    dsimp only
    rw [if_neg (by omega)]

theorem orderly_extend (hs : a.Sound 0) {new bs : List Nat} (hnew : ∀ b ∈ new, b ∉ a.made)
    (hbs : ∀ b ∈ bs, b ∈ a.held) (ho : a.Orderly bs) : (a.extend new).Orderly bs := by
  have hout : ∀ b ∈ a.held, b ∉ new := fun b hb hm =>
    hnew b hm ((hs.placed b).mpr (Or.inr (Or.inl hb)))
  intro l b r heq k hk k' c he hp hr
  have hbb := hout b (hbs b (by rw [heq]; simp))
  have hcc := hout c (hs.listed k' c he).1
  simp only [Ledger.extend, hbb, hcc, if_false] at hk hp hr
  exact ho l b r heq k hk k' c he hp hr

theorem reclaimOne_count (s : Pool) (b : Nat) :
    (s.reclaimOne b).currentAllocatedCount = s.currentAllocatedCount := by
  simp only [Pool.reclaimOne, Pool.stripBlock]
  cases (s.blocks b).blockHash <;> dsimp only <;> split <;> rfl

variable {s' : Pool} {b : Nat}

theorem candidates_evicted (h : Refines P s a) (h' : Refines P s' a')
    (hev : Evicted a a') (hb : b ∈ s'.evictionCandidates) : b ∈ s.evictionCandidates := by
  rw [mem_evictionCandidates h'] at hb
  rw [mem_evictionCandidates h]
  obtain ⟨hh, hr, hne, hk⟩ := hb
  refine ⟨hev.held hh, hev.refs ▸ hr, hne, ?_⟩
  rcases hev.key b with hkey | hkey
  · exact hkey.1 ▸ hk
  · exact absurd hkey.1 hk

structure Roomy (P : Params κ) (s s' : Pool) (a a' : Ledger Nat BlockHash) : Prop where
  loose : a'.loose = a.loose
  held : ∀ b ∈ a'.held, b ∈ a.held ∧ a'.refs b = a.refs b
  kept : ∀ b ∈ a.held, 0 < a.refs b → b ∈ a'.held
  spare : 0 < room P s → room P s' = room P s ∧ a'.free ≠ []
  candidates : ∀ b ∈ s'.evictionCandidates, b ∈ s.evictionCandidates
  orderly : ∀ k, OrderlyIds s (s.evictionCandidates.take (k + 1 - room P s)) →
    OrderlyIds s' (s'.evictionCandidates.take (k + 1 - room P s'))
  pending : 0 < room P s ∨ s.evictionCandidates = [] → a'.pending = a.pending
  supply : OrderlyIds s (s.evictionCandidates.take (1 - room P s)) →
    room P s' + s'.evictionCandidates.length =
        room P s + s.evictionCandidates.length ∧
      (0 < room P s + s.evictionCandidates.length → a'.free ≠ [])

/-- Reclaiming the first candidate of a full pool, when that orphans nothing. -/
theorem reclaimFirst (h : Refines P s a) (hs : a.Sound 0) (hroom : room P s = 0)
    (hfree : a.free = []) {x : Nat} {xs : List Nat} (hc : s.evictionCandidates = x :: xs)
    (ho : OrderlyIds s [x]) :
    (s.evictCachedBlocksLocked 1).2 = s.reclaimOne x ∧
      (s.reclaimOne x).evictionCandidates = xs ∧ room P (s.reclaimOne x) = 1 ∧ x ∉ xs ∧
      ∃ a₁, Refines P (s.reclaimOne x) a₁ ∧ Reclaimed a a₁ x := by
  have hx := (mem_evictionCandidates h x).mp (by rw [hc]; simp)
  have hnd : x ∉ xs ∧ xs.Nodup := List.nodup_cons.mp (hc ▸ evictionCandidates_nodup h)
  obtain ⟨a₁, h₁, -, hrec⟩ := reclaimOne_refines h hs (R := Rules.any) trivial hx.1 hx.2.2.1 hx.2.1
  refine ⟨evictCachedBlocksLocked_one h hs hc ((orderlyIds_iff h _).mp ho), ?_, ?_, hnd.1, a₁, h₁,
    hrec⟩
  · rw [(reclaimOne_thinned ((h.held x).mp hx.1)).candidates, hc, List.filter_cons_of_neg
      (by simp), List.filter_eq_self]
    intro b hb
    rw [decide_eq_true_eq]
    rintro rfl
    exact hnd.1 hb
  · have h₂ := room_eq h₁
    have h₃ := room_eq h
    rw [hrec.free, hfree, reclaimOne_count] at h₂
    rw [hfree, hroom] at h₃
    simp only [List.length_nil, List.nil_append, List.length_singleton] at h₂ h₃
    omega

/-- The last resort: one cached block is reclaimed. -/
theorem reclaimRoom_refines (h : Refines P s a) (hs : a.Sound 0) (hN : R.notify)
    (hroom : room P s = 0) (hfree : a.free = [])
    (hR : R.orphan ∨ OrderlyIds s (s.evictionCandidates.take 1)) :
    ∃ a', Refines P (s.evictCachedBlocksLocked 1).2 a' ∧ Moves R 0 a a' ∧
      Roomy P s (s.evictCachedBlocksLocked 1).2 a a' := by
  obtain ⟨a', h', hm, hev, -⟩ := evictCachedBlocksLocked_refines h hs hN 1
    (hR.imp_right (orderlyIds_iff h _).mp)
  have hnil : s.evictionCandidates = [] → (s.evictCachedBlocksLocked 1).2 = s := by
    intro hc
    simp only [Pool.evictCachedBlocksLocked, hc, Pool.evictCachedLoop]
    rw [if_neg (by omega)]
  refine ⟨a', h', hm, hev.loose, fun b hb => ⟨hev.held hb, by rw [hev.refs]⟩, ?_, by omega,
    fun b hb => candidates_evicted h h' hev hb, ?_, ?_, ?_⟩
  · intro b hb hr
    refine (Moves.sound hm hs).held_of_refs (Moves.made hm ((hs.placed b).mpr
      (Or.inr (Or.inl hb)))) ?_
    rw [hev.refs]
    exact hr
  · intro k ho
    rw [hroom, Nat.sub_zero] at ho
    cases hc : s.evictionCandidates with
    | nil =>
      rw [hnil hc, hc, List.take_nil]
      rintro l b r hbs
      simp at hbs
    | cons x xs =>
      rw [hc, List.take_succ_cons] at ho
      obtain ⟨hstep, hcands, hone, hnot, a₁, h₁, hrec⟩ := reclaimFirst h hs hroom hfree hc
        (ho.initial ⟨xs.take k, rfl⟩)
      rw [hstep, hcands, hone, Nat.add_sub_cancel]
      exact (orderlyIds_iff h₁ _).mpr (hrec.orderly (fun hm => hnot (List.mem_of_mem_take hm))
        ((orderlyIds_iff h _).mp ho)).2
  · rintro (hpos | hc)
    · omega
    · rw [← h'.pending, hnil hc, h.pending]
  · intro ho
    rw [hroom, Nat.sub_zero] at ho
    cases hc : s.evictionCandidates with
    | nil =>
      rw [hnil hc, hc, hroom]
      exact ⟨rfl, fun hpos => absurd hpos (by simp)⟩
    | cons x xs =>
      rw [hc, List.take_succ_cons, List.take_zero] at ho
      obtain ⟨hstep, hcands, hone, -, a₁, h₁, hrec⟩ := reclaimFirst h hs hroom hfree hc ho
      rw [hstep, hcands, hone, hroom]
      refine ⟨by rw [List.length_cons]; omega, fun _ he => ?_⟩
      have hnum := h'.numFree
      rw [hstep, h₁.numFree, hrec.free, hfree, he] at hnum
      simp at hnum

theorem makeRoom_refines (h : Refines P s a) (hs : a.Sound 0) (hN : R.notify)
    (hR : R.orphan ∨ 0 < room P s ∨ OrderlyIds s (s.evictionCandidates.take 1)) :
    ∃ a', Refines P (s.makeRoom P) a' ∧ Moves R 0 a a' ∧ Roomy P s (s.makeRoom P) a a' := by
  by_cases hz : s.freeBlockQueue.numFreeBlocks = 0
  · obtain ⟨bs, hg, hnd, hnew, hlen⟩ := growBlocks_refines h hs
      (min 256 (P.maxBlocks - s.currentAllocatedCount))
    obtain ⟨hcount₁, hcount₂⟩ := growBlocks_count (P := P) s
      (min 256 (P.maxBlocks - s.currentAllocatedCount))
    have hnum := h.numFree
    have hnumg := hg.numFree
    have hfree : a.free = [] := List.length_eq_zero_iff.mp (by omega)
    have hout : ∀ b ∈ a.held, b ∉ bs := fun b hb hm =>
      hnew b hm ((hs.placed b).mpr (Or.inr (Or.inl hb)))
    have hflen : (a.extend bs).free.length = bs.length := by simp [Ledger.extend, hfree]
    have hroomg := room_eq hg
    have hroom := room_eq h
    rw [hfree, List.length_nil] at hroom
    by_cases hz' : (s.growBlocks P (min 256 (P.maxBlocks - s.currentAllocatedCount))).2.freeBlockQueue.numFreeBlocks = 0
    · have hno : room P s = 0 := by omega
      have hsame : s.makeRoom P = (s.evictCachedBlocksLocked 1).2 := by
        simp only [Pool.makeRoom]
        rw [if_pos hz, if_pos hz', growBlocks_none (by omega)]
      rw [hsame]
      exact reclaimRoom_refines h hs hN hno hfree
        (hR.imp_right (fun hR => hR.resolve_left (by omega)))
    · have hsame : s.makeRoom P =
          (s.growBlocks P (min 256 (P.maxBlocks - s.currentAllocatedCount))).2 := by
        simp only [Pool.makeRoom]
        rw [if_pos hz, if_neg hz']
      have hcands := (growBlocks_unthinned h hs
        (min 256 (P.maxBlocks - s.currentAllocatedCount))).candidates_eq
      have hrooms : room P (s.growBlocks P
          (min 256 (P.maxBlocks - s.currentAllocatedCount))).2 = room P s := by omega
      rw [hsame]
      have hne : (a.extend bs).free ≠ [] := by
        intro he
        rw [he, List.length_nil] at hnumg
        exact hz' hnumg
      refine ⟨a.extend bs, hg, .single (.extend bs hnd hnew), rfl, ?_, fun b hb _ => hb,
        fun _ => ⟨hrooms, hne⟩, ?_, ?_, fun _ => rfl, fun _ => ⟨by rw [hrooms, hcands],
          fun _ => hne⟩⟩
      · exact fun b hb => ⟨hb, by simp [Ledger.extend, hout b hb]⟩
      · exact fun b hb => hcands ▸ hb
      · intro k ho
        rw [hcands, hrooms, orderlyIds_iff hg]
        refine orderly_extend hs hnew (fun b hb => ?_) ((orderlyIds_iff h _).mp ho)
        exact ((mem_evictionCandidates h b).mp (List.mem_of_mem_take hb)).1
  · have hsame : s.makeRoom P = s := by simp only [Pool.makeRoom, hz, if_false]
    have hne : a.free ≠ [] := by
      intro he
      have := h.numFree
      rw [he] at this
      exact hz this
    rw [hsame]
    exact ⟨a, h, .refl, rfl, fun b hb => ⟨hb, rfl⟩, fun b hb _ => hb, fun _ => ⟨rfl, hne⟩,
      fun _ => id, fun _ => id, fun _ => rfl, fun _ => ⟨rfl, fun _ => hne⟩⟩

/-- A copy of `b` takes one block of the room and one reference of `b`. -/
structure Copied (P : Params κ) (s s' : Pool) (a a' : Ledger Nat BlockHash) (b : Nat) : Prop where
  loose : a'.loose = a.loose
  shared : ∀ d ∈ a'.held, 1 < a'.refs d →
    d ∈ a.held ∧ a'.refs d = if d = b then a.refs d - 1 else a.refs d
  spare : 0 < room P s → room P s' + 1 = room P s
  candidates : ∀ d ∈ s'.evictionCandidates, d ∈ s.evictionCandidates
  orderly : ∀ k, OrderlyIds s (s.evictionCandidates.take (k + 1 - room P s)) →
    OrderlyIds s' (s'.evictionCandidates.take (k - room P s'))
  supply : OrderlyIds s (s.evictionCandidates.take (1 - room P s)) →
    room P s' + s'.evictionCandidates.length + 1 =
      room P s + s.evictionCandidates.length

/-- Turning a popped block into a copy: it is held once, without key, and the source loses
a reference. -/
theorem copyPopped_refines {c : Nat} (h : Refines P s a) (hs : a.Sound 0) (hc : c ∈ a.loose) :
    Refines P (Pool.copyPopped P s c b)
        (((a.forget c).adopt c 1).setRefs b (((a.forget c).adopt c 1).refs b - 1)) ∧
      (Pool.copyPopped P s c b).freeBlockQueue = s.freeBlockQueue ∧
      (Pool.copyPopped P s c b).currentAllocatedCount = s.currentAllocatedCount := by
  have hl : ∀ k, (k, c) ∉ a.entries := hs.not_listed_of_free (Or.inr hc)
  have hpop : Refines P (s.popOwnHash P c) a := by
    simp only [Pool.popOwnHash]
    split
    · next k _ _ =>
      have := h.popHash k c
      rwa [show a.unlist k c = a by
        simp only [Ledger.unlist, Set.sdiff_singleton_eq_self (hl k)]] at this
    · exact h
  have hqueue : (s.popOwnHash P c).freeBlockQueue = s.freeBlockQueue ∧
      (s.popOwnHash P c).currentAllocatedCount = s.currentAllocatedCount := by
    simp only [Pool.popOwnHash]
    split <;> exact ⟨rfl, rfl⟩
  have h₁ := ((((hpop.setRef c (f := fun d => d.setRef 1) rfl).touchBlock c).addAllocated c).same
    (.modify _ c (fun d => { d with
      tokenCount := (((((s.popOwnHash P c).modify c (·.setRef 1)).touchBlock P c).addAllocated
        c).blocks b).tokenCount }) rfl rfl rfl rfl)).resetHash c
  have h₂ := h₁.setRef b (f := fun d => d.setRef (d.refCount - 1)) (by rw [h₁.refs])
  simp only [Pool.copyPopped]
  split
  · exact ⟨h₂.bump _, hqueue⟩
  · exact ⟨h₂, hqueue⟩

/-- Neither the copy nor its source is idle, before or after. -/
theorem copyPopped_unthinned {c : Nat} (hc : c ∉ s.allocatedBlocks) (hcb : c ≠ b)
    (hb : 1 < (s.blocks b).refCount) : Unthinned s (Pool.copyPopped P s c b) := by
  have hpop : (s.popOwnHash P c).allocatedBlocks = s.allocatedBlocks ∧
      (s.popOwnHash P c).blocks = s.blocks := by
    simp only [Pool.popOwnHash]
    split <;> exact ⟨rfl, rfl⟩
  have halloc : (Pool.copyPopped P s c b).allocatedBlocks = s.allocatedBlocks ++ [c] := by
    simp only [Pool.copyPopped]
    split <;> simp [Pool.modify, Pool.bump, Pool.touchBlock, Pool.addAllocated, hpop.1, hc]
  have hother : ∀ d, d ≠ c → d ≠ b → (Pool.copyPopped P s c b).blocks d = s.blocks d := by
    intro d hdc hdb
    simp only [Pool.copyPopped]
    split <;> simp [Pool.modify, Pool.bump, Pool.touchBlock, Pool.addAllocated, hpop.2, hdc, hdb]
  have hcopy : ((Pool.copyPopped P s c b).blocks c).refCount = 1 := by
    simp only [Pool.copyPopped]
    split <;> simp [Pool.modify, Pool.bump, Pool.touchBlock, Pool.addAllocated,
      CacheBlock.setRef, CacheBlock.resetHash, hcb]
  have hsource : ((Pool.copyPopped P s c b).blocks b).refCount = (s.blocks b).refCount - 1 := by
    simp only [Pool.copyPopped]
    split <;> simp [Pool.modify, Pool.bump, Pool.touchBlock, Pool.addAllocated,
      CacheBlock.setRef, hpop.2, Ne.symm hcb]
  have hidle : idleIds (Pool.copyPopped P s c b) = idleIds s := by
    rw [idleIds, idleIds, halloc, List.filter_append, List.filter_cons_of_neg (by simp [hcopy]),
      List.filter_nil, List.append_nil]
    refine List.filter_congr (fun d hd => ?_)
    have hdc : d ≠ c := by
      rintro rfl
      exact hc hd
    by_cases hdb : d = b
    · subst hdb
      rw [hsource, decide_eq_decide]
      constructor
      · rintro ⟨hr, -⟩
        omega
      · rintro ⟨hr, -⟩
        omega
    · rw [hother d hdc hdb]
  refine ⟨by rw [hidle, List.filter_true], fun d hd => ?_⟩
  rw [hidle] at hd
  obtain ⟨hd, hi⟩ := List.mem_filter.mp hd
  have hdc : d ≠ c := by
    rintro rfl
    exact hc hd
  have hdb : d ≠ b := by
    rintro rfl
    rw [decide_eq_true_eq] at hi
    omega
  rw [hother d hdc hdb]

/-- Handing out `c` as a copy of `b` leaves orderly blocks orderly. -/
theorem orderly_copied (hs : a.Sound 0) {c : Nat} {rest bs : List Nat} {n : Int}
    (hc : c ∈ a.free) (hn : 0 < n) (hbs : ∀ d ∈ bs, d ∈ a.held) (ho : a.Orderly bs) :
    ((((a.take rest c).forget c).adopt c 1).setRefs b n).Orderly bs := by
  have hout : ∀ d ∈ a.held, d ≠ c := by
    rintro d hd rfl
    exact hs.freeHeld d hc hd
  intro l d r heq k hk k' x he hp hr
  have hdc := hout d (hbs d (by rw [heq]; simp))
  have hxc := hout x (hs.listed k' x he).1
  have hxb : x ≠ b := by
    rintro rfl
    simp [Ledger.setRefs] at hr
    omega
  refine ho l d r heq k ?_ k' x he ?_ ?_
  · simpa [Ledger.setRefs, Ledger.adopt, Ledger.forget, Ledger.take, hdc] using hk
  · simpa [Ledger.setRefs, Ledger.adopt, Ledger.forget, Ledger.take, hxc] using hp
  · simpa [Ledger.setRefs, Ledger.adopt, Ledger.forget, Ledger.take, hxc, hxb] using hr

theorem cowCopy_refines (h : Refines P s a) (hs : a.Sound 0) (hN : R.notify)
    (hR : R.orphan ∨ 0 < room P s ∨ OrderlyIds s (s.evictionCandidates.take 1))
    (hb : b ∈ a.held) (hshared : 1 < a.refs b) :
    ∃ a', Refines P (s.cowCopy P b).2 a' ∧ Moves R 0 a a' ∧ a'.loose = a.loose ∧
      (0 < room P s ∨ s.evictionCandidates = [] → a'.pending = a.pending) ∧
      (OrderlyIds s (s.evictionCandidates.take (1 - room P s)) →
        0 < room P s + s.evictionCandidates.length → ∃ c, (s.cowCopy P b).1 = .ok c) ∧
      ∀ c, (s.cowCopy P b).1 = .ok c → Copied P s (s.cowCopy P b).2 a a' b := by
  obtain ⟨a₁, h₁, hm₁, hroomy⟩ := makeRoom_refines h hs hN hR
  have hs₁ := Moves.sound hm₁ hs
  have hnum := h₁.numFree
  by_cases hz : (s.makeRoom P).freeBlockQueue.numFreeBlocks = 0
  · refine ⟨a₁, ?_, hm₁, hroomy.loose, hroomy.pending, ?_, ?_⟩
    · simp only [Pool.cowCopy]
      rw [if_pos hz]
      exact h₁
    · intro ho hpos
      exact absurd (List.length_eq_zero_iff.mp (by omega)) ((hroomy.supply ho).2 hpos)
    · intro c hc
      simp only [Pool.cowCopy] at hc
      rw [if_pos hz] at hc
      cases hc
  · obtain ⟨c, rest, hf⟩ : ∃ c rest, a₁.free = c :: rest :=
      List.exists_cons_of_ne_nil (by rintro he; rw [he] at hnum; exact hz hnum)
    obtain ⟨q, hpop, h₂⟩ := h₁.popleft hf
    have hb₁ : b ∈ a₁.held := hroomy.kept b hb (by omega)
    have hr₁ : a₁.refs b = a.refs b := (hroomy.held b hb₁).2
    have hcf : c ∈ a₁.free := by rw [hf]; simp
    have hcb : c ≠ b := by
      rintro rfl
      exact hs₁.freeHeld c hcf hb₁
    have hc₁ : c ∉ a₁.held := hs₁.freeHeld c hcf
    have htake : Move R 0 a₁ (a₁.take rest c) := .take [] rest c hf
    have hs₂ := htake.sound hs₁
    obtain ⟨hbody, hq, hcount⟩ := copyPopped_refines (b := b) h₂ hs₂ (Set.mem_insert c _)
    have hrefs : (((a₁.take rest c).forget c).adopt c 1).refs b = a.refs b := by
      simp [Ledger.adopt, Ledger.forget, Ledger.take, Ne.symm hcb, hr₁]
    rw [hrefs] at hbody
    have hmoves : Moves R 0 a₁ ((((a₁.take rest c).forget c).adopt c 1).setRefs b (a.refs b - 1)) :=
      .head htake (.head (.forget c hc₁) (.head (.adopt c 1 (Set.mem_insert c _) (by omega))
        (.single (.hold b _ (Set.mem_insert_of_mem c hb₁) (by omega)))))
    have hval : ∀ d, ((((a₁.take rest c).forget c).adopt c 1).setRefs b (a.refs b - 1)).refs d =
        if d = b then a.refs b - 1 else if d = c then 1 else a₁.refs d := by
      intro d
      simp only [Ledger.setRefs, Ledger.adopt, Ledger.forget, Ledger.take, Function.update_apply]
    have hthin : Unthinned (s.makeRoom P)
        (Pool.copyPopped P { s.makeRoom P with freeBlockQueue := q } c b) := by
      have := copyPopped_unthinned (P := P) (s := { s.makeRoom P with freeBlockQueue := q })
        (fun hm => hc₁ ((h₁.held c).mpr hm)) hcb (by rw [h₂.refs]; exact hr₁ ▸ hshared)
      exact ⟨this.idle, this.access⟩
    have hres : s.cowCopy P b = (.ok c, (s.cowCopy P b).2) ∧ Refines P (s.cowCopy P b).2
        ((((a₁.take rest c).forget c).adopt c 1).setRefs b (a.refs b - 1)) ∧
        (s.cowCopy P b).2.freeBlockQueue = q ∧
        (s.cowCopy P b).2.currentAllocatedCount = (s.makeRoom P).currentAllocatedCount ∧
        Unthinned (s.makeRoom P) (s.cowCopy P b).2 := by
      simp only [Pool.cowCopy]
      rw [if_neg hz, hpop]
      exact ⟨rfl, hbody.bump (fun t => { t with cowCopies := t.cowCopies + 1 }), hq, hcount,
        hthin.idle, hthin.access⟩
    obtain ⟨hok, h₃, -, hcount₃, hthin₃⟩ := hres
    have hcands := hthin₃.candidates_eq
    have hloose : ((((a₁.take rest c).forget c).adopt c 1).setRefs b (a.refs b - 1)).loose =
        a.loose := by
      rw [← hroomy.loose]
      ext d
      have hout : d = c → d ∉ a₁.loose := fun hd => hd ▸ hs₁.freeLoose c hcf
      simp only [Ledger.setRefs, Ledger.adopt, Ledger.forget, Ledger.take, Set.mem_sdiff,
        Set.mem_insert_iff, Set.mem_singleton_iff]
      exact ⟨fun hd => hd.1.resolve_left hd.2, fun hd => ⟨.inr hd, fun heq => hout heq hd⟩⟩
    have hroom₃ : room P (s.cowCopy P b).2 + 1 = room P (s.makeRoom P) := by
      have hroom₁ := room_eq h₁
      have hroom₂ := room_eq h₃
      rw [hcount₃] at hroom₂
      have hlen : a₁.free.length = rest.length + 1 := by rw [hf]; rfl
      have hfree₂ : ((((a₁.take rest c).forget c).adopt c 1).setRefs b (a.refs b - 1)).free.length =
          rest.length := rfl
      omega
    refine ⟨_, h₃, hm₁.trans hmoves, hloose, hroomy.pending, fun _ _ => ⟨c, by rw [hok]⟩,
      fun _ _ => ⟨hloose, ?_, ?_, ?_, ?_, ?_⟩⟩
    · intro d hd hr
      rw [hval] at hr ⊢
      by_cases hdb : d = b
      · rw [if_pos hdb, if_pos hdb]
        exact ⟨hdb ▸ hb, by rw [hdb]⟩
      · rw [if_neg hdb] at hr ⊢
        have hdc : d ≠ c := by
          rintro rfl
          rw [if_pos rfl] at hr
          omega
        rw [if_neg hdc] at hr ⊢
        rw [if_neg hdb]
        exact hroomy.held d ((Set.mem_insert_iff.mp hd).resolve_left hdc)
    · intro hpos
      have := (hroomy.spare hpos).1
      omega
    · exact fun d hd => hroomy.candidates d (hcands ▸ hd)
    · intro k ho
      have ho₁ := hroomy.orderly k ho
      rw [show k + 1 - room P (s.makeRoom P) = k - room P (s.cowCopy P b).2 by omega,
        orderlyIds_iff h₁] at ho₁
      rw [hcands, orderlyIds_iff h₃]
      refine orderly_copied hs₁ hcf (by omega) (fun d hd => ?_) ho₁
      exact ((mem_evictionCandidates h₁ d).mp (List.mem_of_mem_take hd)).1
    · intro ho
      have := (hroomy.supply ho).1
      rw [hcands]
      omega

def copiesIn (s : Pool) : List Nat → Nat
  | [] => 0
  | b :: rest =>
    if b ∈ s.allocatedBlocks ∧ (s.blocks b).isShared = true then
      copiesIn (s.modify b (fun c => c.setRef (c.refCount - 1))) rest + 1
    else copiesIn s rest

theorem isShared_iff (h : Refines P s a) (b : Nat) :
    (s.blocks b).isShared = true ↔ 1 < a.refs b := by
  rw [CacheBlock.isShared, decide_eq_true_eq, h.refs]

theorem copiesIn_mono {s : Pool} (hsub : ∀ b ∈ s'.allocatedBlocks, 1 < (s'.blocks b).refCount →
      b ∈ s.allocatedBlocks ∧ (s'.blocks b).refCount ≤ (s.blocks b).refCount) (ids : List Nat) :
    copiesIn s' ids ≤ copiesIn s ids := by
  have hdec : ∀ (t : Pool) (b d : Nat), ((t.modify b (fun c => c.setRef (c.refCount - 1))).blocks
      d).refCount = if d = b then (t.blocks d).refCount - 1 else (t.blocks d).refCount := by
    intro t b d
    by_cases hd : d = b <;> simp [Pool.modify, CacheBlock.setRef, hd]
  have hshared : ∀ (t : Pool) (b : Nat), (t.blocks b).isShared = true ↔ 1 < (t.blocks b).refCount :=
    fun t b => by rw [CacheBlock.isShared, decide_eq_true_eq]
  induction ids generalizing s s' with
  | nil => exact Nat.le_refl 0
  | cons b ids ih =>
    simp only [copiesIn]
    by_cases hb' : b ∈ s'.allocatedBlocks ∧ (s'.blocks b).isShared = true
    · have hb := hsub b hb'.1 ((hshared s' b).mp hb'.2)
      have hbs : (s.blocks b).isShared = true := by
        have := (hshared s' b).mp hb'.2
        rw [hshared]
        omega
      rw [if_pos hb', if_pos ⟨hb.1, hbs⟩]
      refine Nat.succ_le_succ (ih (fun d hd hr => ?_))
      rw [hdec] at hr ⊢
      have hrd : 1 < (s'.blocks d).refCount := by
        by_cases hdb : d = b
        · rw [if_pos hdb] at hr
          omega
        · rwa [if_neg hdb] at hr
      have := hsub d hd hrd
      rw [hdec]
      refine ⟨this.1, ?_⟩
      split
      · omega
      · exact this.2
    · rw [if_neg hb']
      by_cases hb : b ∈ s.allocatedBlocks ∧ (s.blocks b).isShared = true
      · rw [if_pos hb]
        refine Nat.le_succ_of_le (ih (fun d hd hr => ?_))
        have := hsub d hd hr
        have hdb : d ≠ b := by
          rintro rfl
          exact hb' ⟨hd, (hshared s' d).mpr hr⟩
        rw [hdec, if_neg hdb]
        exact this
      · rw [if_neg hb]
        exact ih hsub

/-- The private copies of a table fit into the room, or reclaiming the
candidates for the missing ones orphans nothing. -/
def Copyable (P : Params κ) (s : Pool) (ids : List Nat) : Prop :=
  copiesIn s ids ≤ room P s ∨ ((∀ b ∈ ids, b ∉ s.evictionCandidates) ∧
    OrderlyIds s (s.evictionCandidates.take (copiesIn s ids - room P s)))

theorem touchBlock_unthinned (hb : b ∉ s.evictionCandidates) :
    Unthinned s (s.touchBlock P b) := by
  have hblock : ∀ d, ((s.touchBlock P b).blocks d).refCount = (s.blocks d).refCount ∧
      ((s.touchBlock P b).blocks d).isNull = (s.blocks d).isNull ∧
      ((s.touchBlock P b).blocks d).blockHash = (s.blocks d).blockHash ∧
      (d ≠ b → ((s.touchBlock P b).blocks d).lastAccess = (s.blocks d).lastAccess) := by
    intro d
    by_cases hd : d = b <;> simp [Pool.touchBlock, Pool.modify, hd]
  have hidle : idleIds (s.touchBlock P b) = idleIds s := by
    refine List.filter_congr (fun d _ => ?_)
    rw [(hblock d).1, (hblock d).2.1, (hblock d).2.2.1]
  refine ⟨by rw [hidle, List.filter_true], fun d hd => (hblock d).2.2.2 ?_⟩
  rintro rfl
  rw [hidle] at hd
  exact hb (by rwa [evictionCandidates_eq, List.mem_insertionSort])

theorem copiesIn_touch {l : List Nat} (h : Refines P s a)
    (hb : ¬ (b ∈ s.allocatedBlocks ∧ (s.blocks b).isShared = true)) :
    copiesIn (s.touchBlock P b) l ≤ copiesIn s (b :: l) := by
  simp only [copiesIn]
  rw [if_neg hb]
  refine copiesIn_mono (fun d hd hr => ?_) l
  rw [(h.touchBlock b).refs, ← h.refs] at hr ⊢
  exact ⟨hd, Int.le_refl _⟩

theorem noCandidates_touch (h : Refines P s a) (hc : s.evictionCandidates = []) :
    (s.touchBlock P b).evictionCandidates = [] := by
  rw [List.eq_nil_iff_forall_not_mem] at hc ⊢
  intro d hd
  rw [mem_evictionCandidates (h.touchBlock b), ← mem_evictionCandidates h] at hd
  exact hc d hd

variable {ids : List Nat}

/-- Moving on to the next id of a table, whose block is not copied. -/
theorem Copyable.touch (h : Refines P s a)
    (hb : ¬ (b ∈ s.allocatedBlocks ∧ (s.blocks b).isShared = true))
    (hc : Copyable P s (b :: ids)) : Copyable P (s.touchBlock P b) ids := by
  have hcount := copiesIn_touch (l := ids) h hb
  have hroom : room P (s.touchBlock P b) = room P s := rfl
  rcases hc with hle | ⟨hout, ho⟩
  · exact Or.inl (hroom ▸ hcount.trans hle)
  · have hcands := (touchBlock_unthinned (P := P) (hout b (by simp))).candidates_eq
    refine Or.inr ⟨fun d hd => hcands ▸ hout d (by simp [hd]), ?_⟩
    rw [hcands, hroom, orderlyIds_iff (h.touchBlock b), ← orderlyIds_iff h]
    exact ho.initial (List.take_prefix_take_left (by omega))

theorem Copied.copiesIn_lt {l : List Nat} (hcp : Copied P s s' a a' b)
    (h : Refines P s a) (h' : Refines P s' a')
    (hb : b ∈ s.allocatedBlocks ∧ (s.blocks b).isShared = true) :
    copiesIn (s'.touchBlock P b) l + 1 ≤ copiesIn s (b :: l) := by
  have ht : Refines P (s'.touchBlock P b) a' := h'.touchBlock b
  simp only [copiesIn]
  rw [if_pos hb]
  refine Nat.succ_le_succ (copiesIn_mono (fun d hd hr => ?_) l)
  rw [ht.refs] at hr ⊢
  obtain ⟨hda, hrd⟩ := hcp.shared d ((ht.held d).mpr hd) hr
  refine ⟨(h.held d).mp hda, ?_⟩
  rw [hrd]
  by_cases hdb : d = b <;> simp [Pool.modify, CacheBlock.setRef, hdb, h.refs]

theorem Copied.fewer (hcp : Copied P s s' a a' b)
    (h : Refines P s a) (h' : Refines P s' a')
    (hb : b ∈ s.allocatedBlocks ∧ (s.blocks b).isShared = true)
    (hle : copiesIn s (b :: ids) ≤ room P s) :
    copiesIn (s'.touchBlock P b) ids ≤ room P (s'.touchBlock P b) := by
  have hroom : room P (s'.touchBlock P b) = room P s' := rfl
  have hlt := hcp.copiesIn_lt (l := ids) h h' hb
  have := hcp.spare (by omega)
  omega

theorem Copied.noCandidates (hcp : Copied P s s' a a' b)
    (h' : Refines P s' a') (hc : s.evictionCandidates = []) :
    (s'.touchBlock P b).evictionCandidates = [] := by
  refine noCandidates_touch h' ?_
  rw [List.eq_nil_iff_forall_not_mem] at hc ⊢
  exact fun d hd => hc d (hcp.candidates d hd)

/-- Moving on to the next id after a block was copied. -/
theorem Copyable.copied (h : Refines P s a)
    (h' : Refines P s' a') (hb : b ∈ s.allocatedBlocks ∧ (s.blocks b).isShared = true)
    (hcp : Copied P s s' a a' b) (hc : Copyable P s (b :: ids)) :
    Copyable P (s'.touchBlock P b) ids := by
  have ht : Refines P (s'.touchBlock P b) a' := h'.touchBlock b
  have hroom : room P (s'.touchBlock P b) = room P s' := rfl
  have hcount := hcp.copiesIn_lt (l := ids) h h' hb
  rcases hc with hle | ⟨hout, ho⟩
  · exact Or.inl (hcp.fewer h h' hb hle)
  · have hbout : b ∉ s'.evictionCandidates := fun hm => hout b (by simp) (hcp.candidates b hm)
    have hcands := (touchBlock_unthinned (P := P) hbout).candidates_eq
    refine Or.inr ⟨fun d hd hm => hout d (by simp [hd]) (hcp.candidates d (hcands ▸ hm)), ?_⟩
    rw [hcands, hroom, orderlyIds_iff ht, ← orderlyIds_iff h']
    refine hcp.orderly _ (ho.initial (List.take_prefix_take_left ?_))
    omega

theorem Copyable.first
    (hb : b ∈ s.allocatedBlocks ∧ (s.blocks b).isShared = true) (hc : Copyable P s (b :: ids)) :
    OrderlyIds s (s.evictionCandidates.take (1 - room P s)) := by
  have hpos : 0 < copiesIn s (b :: ids) := by
    simp only [copiesIn]
    rw [if_pos hb]
    omega
  rcases hc with hle | ⟨-, ho⟩
  · rw [show 1 - room P s = 0 by omega]
    rintro l b r hbs
    simp at hbs
  · exact ho.initial (List.take_prefix_take_left (by omega))

def Supplied (P : Params κ) (s : Pool) (ids : List Nat) : Prop :=
  Copyable P s ids ∧ copiesIn s ids ≤ room P s + s.evictionCandidates.length

theorem Supplied.touch (hsup : Supplied P s (b :: ids))
    (h : Refines P s a) (hb : ¬ (b ∈ s.allocatedBlocks ∧ (s.blocks b).isShared = true)) :
    Supplied P (s.touchBlock P b) ids := by
  refine ⟨hsup.1.touch h hb, (copiesIn_touch h hb).trans (hsup.2.trans ?_)⟩
  have hperm : (s.touchBlock P b).evictionCandidates.Perm s.evictionCandidates := by
    refine (List.perm_ext_iff_of_nodup (evictionCandidates_nodup (h.touchBlock b))
      (evictionCandidates_nodup h)).mpr (fun d => ?_)
    rw [mem_evictionCandidates (h.touchBlock b), ← mem_evictionCandidates h]
  rw [hperm.length_eq]
  rfl

theorem Supplied.copied (hsup : Supplied P s (b :: ids))
    (h : Refines P s a) (h' : Refines P s' a')
    (hb : b ∈ s.allocatedBlocks ∧ (s.blocks b).isShared = true) (hcp : Copied P s s' a a' b) :
    Supplied P (s'.touchBlock P b) ids := by
  have hroom : room P (s'.touchBlock P b) = room P s' := rfl
  have hperm : (s'.touchBlock P b).evictionCandidates.Perm s'.evictionCandidates := by
    refine (List.perm_ext_iff_of_nodup (evictionCandidates_nodup (h'.touchBlock b))
      (evictionCandidates_nodup h')).mpr (fun d => ?_)
    rw [mem_evictionCandidates (h'.touchBlock b), ← mem_evictionCandidates h']
  refine ⟨hsup.1.copied h h' hb hcp, ?_⟩
  rw [hperm.length_eq, hroom]
  have hlt := hcp.copiesIn_lt (l := ids) h h' hb
  have hle := hsup.2
  have := hcp.supply (hsup.1.first hb)
  omega

theorem generationLoop_refines (h : Refines P s a) (hs : a.Sound 0) (hN : R.notify)
    (ids : List Nat) (hR : R.orphan ∨ Copyable P s ids) :
    ∃ a', Refines P (Pool.generationLoop P ids s).pool a' ∧ Moves R 0 a a' ∧
      a'.loose = a.loose ∧
      (copiesIn s ids ≤ room P s ∨ s.evictionCandidates = [] → a'.pending = a.pending) ∧
      (Supplied P s ids → ∃ r, (Pool.generationLoop P ids s).outcome = .ok r) := by
  induction ids generalizing s a with
  | nil => exact ⟨a, h, .refl, rfl, fun _ => rfl, fun _ => ⟨_, rfl⟩⟩
  | cons b ids ih =>
    by_cases hb : b ∈ s.allocatedBlocks
    · have hheld : b ∈ a.held := (h.held b).mpr hb
      by_cases hsh : (s.blocks b).isShared = true
      · have hbs := And.intro hb hsh
        have hcount : copiesIn s (b :: ids) =
            copiesIn (s.modify b (fun c => c.setRef (c.refCount - 1))) ids + 1 := by
          simp only [copiesIn]
          rw [if_pos hbs]
        have hone : R.orphan ∨ 0 < room P s ∨ OrderlyIds s (s.evictionCandidates.take 1) := by
          refine hR.imp_right (fun hR => ?_)
          by_cases hroom : 0 < room P s
          · exact Or.inl hroom
          · have := hR.first hbs
            rw [show 1 - room P s = 1 by omega] at this
            exact Or.inr this
        obtain ⟨a₁, h₁, hm₁, hl₁, hpend₁, hok₁, hcopied⟩ := cowCopy_refines h hs hN hone hheld
          ((isShared_iff h b).mp hsh)
        cases hcow : s.cowCopy P b with
        | mk r t =>
          rw [hcow] at h₁ hcopied hok₁
          cases r with
          | error e =>
            refine ⟨a₁, ?_, hm₁, hl₁, ?_, ?_⟩
            · simp only [Pool.generationLoop, hb, not_true_eq_false, if_false, hsh, if_true, hcow]
              exact h₁
            · exact fun hle => hpend₁ (hle.imp_left (fun hle => by omega))
            · rintro ⟨hc, hle⟩
              obtain ⟨c, hc'⟩ := hok₁ (hc.first hbs) (by omega)
              cases hc'
          | ok c =>
            have hcp := hcopied c rfl
            obtain ⟨a₂, h₂, hm₂, hl₂, hpend₂, hok₂⟩ := ih (h₁.touchBlock b) (hm₁.sound hs)
              (hR.imp_right (Copyable.copied h h₁ hbs hcp))
            refine ⟨a₂, ?_, hm₁.trans hm₂, hl₂.trans hl₁, ?_, ?_⟩
            · simp only [Pool.generationLoop, hb, not_true_eq_false, if_false, hsh, if_true, hcow]
              exact h₂
            · intro hle
              refine (hpend₂ ?_).trans (hpend₁ (hle.imp_left (fun hle => by omega)))
              exact hle.imp (fun hle => hcp.fewer h h₁ hbs hle) (hcp.noCandidates h₁)
            · intro hsup
              obtain ⟨o, ho⟩ := hok₂ (hsup.copied h h₁ hbs hcp)
              refine ⟨(c :: o.1, true), ?_⟩
              simp only [Pool.generationLoop, hb, not_true_eq_false, if_false, hsh, if_true, hcow,
                ho, Except.map]
      · have hns : ¬ (b ∈ s.allocatedBlocks ∧ (s.blocks b).isShared = true) := fun hc => hsh hc.2
        obtain ⟨a₂, h₂, hm₂, hl₂, hpend₂, hok₂⟩ := ih (h.touchBlock b) hs
          (hR.imp_right (Copyable.touch h hns))
        refine ⟨a₂, ?_, hm₂, hl₂, ?_, ?_⟩
        · simp only [Pool.generationLoop, hb, not_true_eq_false, if_false, hsh]
          exact h₂
        · exact fun hle => hpend₂ (hle.imp (copiesIn_touch h hns).trans (noCandidates_touch h))
        · intro hsup
          obtain ⟨o, ho⟩ := hok₂ (hsup.touch h hns)
          refine ⟨(b :: o.1, o.2), ?_⟩
          simp only [Pool.generationLoop, hb, not_true_eq_false, if_false, hsh, ho, Except.map]
          rfl
    · have hcount : copiesIn s (b :: ids) = copiesIn s ids := by
        simp only [copiesIn]
        rw [if_neg (fun hc => hb hc.1)]
      have htail : Copyable P s (b :: ids) → Copyable P s ids := by
        intro hc
        rw [Copyable, hcount] at hc
        exact hc.imp_right (And.imp_left (fun hout d hd => hout d (by simp [hd])))
      obtain ⟨a₂, h₂, hm₂, hl₂, hpend₂, hok₂⟩ := ih h hs (hR.imp_right htail)
      refine ⟨a₂, ?_, hm₂, hl₂, ?_, ?_⟩
      · simp only [Pool.generationLoop, hb, not_false_eq_true, if_true]
        exact h₂
      · rwa [hcount]
      · rintro ⟨hc, hle⟩
        obtain ⟨o, ho⟩ := hok₂ ⟨htail hc, hcount ▸ hle⟩
        refine ⟨o, ?_⟩
        simp only [Pool.generationLoop, hb, not_false_eq_true, if_true, ho]

/-- Both exits of `get_blocks_for_generation`. -/
theorem getBlocksForGeneration_refines (h : Refines P s a) (hs : a.Sound 0) (hN : R.notify)
    (r : TableRef)
    (hR : R.orphan ∨ ∀ t, s.readTable r = some t → Copyable P s t.blockIds) :
    ∃ a', Refines P (s.getBlocksForGeneration P r).2 a' ∧ Moves R 0 a a' ∧
      a'.loose = a.loose ∧
      ((∀ t, s.readTable r = some t → copiesIn s t.blockIds ≤ room P s ∨
        s.evictionCandidates = [] ∨ Supplied P s t.blockIds) →
          a'.pending = a.pending ∨ ∃ o, (s.getBlocksForGeneration P r).1 = .ok o) := by
  cases ht : s.readTable r with
  | none =>
    refine ⟨a, ?_, .refl, rfl, fun _ => Or.inl rfl⟩
    simpa only [Pool.getBlocksForGeneration, ht] using h
  | some t =>
    obtain ⟨a', h', hm, hl, hpend, hok⟩ := generationLoop_refines h hs hN t.blockIds
      (hR.imp_right (fun hR => hR t ht))
    refine ⟨a', ?_, hm, hl, fun hall => ?_⟩
    · simp only [Pool.getBlocksForGeneration, ht]
      exact h'.same (writeTable_same _ _ r)
    · simp only [Pool.getBlocksForGeneration, ht]
      rcases hall t rfl with hle | hc | hsup
      · exact Or.inl (hpend (Or.inl hle))
      · exact Or.inl (hpend (Or.inr hc))
      · exact Or.inr (hok hsup)

def freshLedger (n : Nat) (pending : List Nat) : Ledger Nat BlockHash where
  made := {b | b < n}
  free := List.range' 1 (n - 1)
  held := {0}
  loose := ∅
  refs := fun b => if b = 0 then 1 else 0
  key := fun _ => none
  parent := fun _ => none
  entries := ∅
  pending := pending

theorem freshLedger_sound {n : Nat} (hn : 0 < n) (pending : List Nat) :
    (freshLedger n pending).Sound 0 where
  freeNodup := List.nodup_range'
  placed := fun b => by
    simp only [freshLedger, Set.mem_ofPred_eq, List.mem_range'_1, Set.mem_singleton_iff,
      Set.mem_empty_iff_false, or_false]
    omega
  freeHeld := fun b hb => by
    simp only [freshLedger, List.mem_range'_1, Set.mem_singleton_iff] at hb ⊢
    omega
  freeLoose := fun _ _ => id
  heldLoose := fun _ _ => id
  rootHeld := rfl
  rootRefs := by simp [freshLedger]
  idle := fun b hb => by
    simp only [freshLedger, List.mem_range'_1, Set.mem_empty_iff_false, or_false] at hb ⊢
    rw [if_neg (by omega)]
  heldRefs := fun b _ => by
    simp only [freshLedger]
    split <;> omega
  listed := fun _ _ he => absurd he (Set.notMem_empty _)
  orphanless := fun _ _ => rfl

theorem init_refines (P : Params κ) (hpos : 0 < min P.initialBlocks P.maxBlocks) :
    ∃ s, Pool.init P = .ok s ∧
      Refines P s (freshLedger (min P.initialBlocks P.maxBlocks) []) := by
  have hrange : List.range (min P.initialBlocks P.maxBlocks) =
      0 :: List.range' 1 (min P.initialBlocks P.maxBlocks - 1) := by
    obtain ⟨n, hn⟩ := Nat.exists_eq_succ_of_ne_zero hpos.ne'
    rw [hn, List.range_eq_range', List.range'_succ]
    rfl
  have hinit := FreeKVCacheBlockQueue.holds_init (min P.initialBlocks P.maxBlocks)
  rw [hrange] at hinit
  obtain ⟨q, hpop, hq⟩ := hinit.popleft_cons
  refine ⟨_, by simp only [Pool.init, hpop]; rfl, ?_⟩
  refine { queue := hq, nodup := List.nodup_singleton 0, bound := Nat.min_le_right _ _,
           made := fun _ => Iff.rfl, held := fun b => ?_, refs := fun b => rfl,
           key := fun _ => rfl, parent := fun _ => rfl, null := fun b => by simp,
           entries := fun k b => ?_, pending := rfl }
  · simp [freshLedger]
  · exact ⟨fun he => absurd he (Set.notMem_empty _),
      fun hr => absurd hr (BlockHashToBlockMap.registered_empty k b)⟩

/-- `clear` starts over and leaves every held block but the null block pending. -/
theorem clear_refines (h : Refines P s a) (hpos : 0 < min P.initialBlocks P.maxBlocks) :
    ∃ stale, Refines P (s.clear P).2
        (freshLedger (min P.initialBlocks P.maxBlocks) (a.pending ++ stale)) ∧
      ∀ b, b ∈ stale ↔ b ∈ a.held ∧ b ≠ 0 := by
  obtain ⟨t, ht, hr⟩ := init_refines { P with clock := fun n => P.clock (s.ticks + n) } hpos
  refine ⟨s.allocatedBlocks.filter (fun b => ¬ (s.blocks b).isNull), ?_, ?_⟩
  · simp only [Pool.clear, ht]
    exact { queue := hr.queue, nodup := hr.nodup, bound := hr.bound, made := hr.made,
            held := hr.held, refs := hr.refs, key := hr.key, parent := hr.parent,
            null := hr.null, entries := hr.entries,
            pending := congrArg (· ++ _) h.pending }
  · intro b
    rw [List.mem_filter, decide_eq_true_eq, h.null, h.held]

/-- A reset that goes through finds nothing held but the null block. -/
theorem resetPrefixCache_refines (h : Refines P s a) (hs : a.Sound 0) :
    ∃ a', Refines P (s.resetPrefixCache P).2 a' ∧ a'.Sound 0 ∧ a'.loose = a.loose ∧
      a'.pending = a.pending ∧ (a' = a ∨ ((∀ b ∈ a'.held, b = 0) ∧
        (∀ b ∈ a'.made, a'.key b = none) ∧ a'.entries = ∅ ∧ a'.made = a.made)) := by
  by_cases hc : (P.maxBlocks : Int) - s.freeBlockQueue.numFreeBlocks > 1
  · refine ⟨a, ?_, hs, rfl, rfl, Or.inl rfl⟩
    simp only [Pool.resetPrefixCache]
    rw [if_pos hc]
    exact h
  · have honly : ∀ b ∈ a.held, b = 0 := by
      intro b hb
      by_contra hne
      have hmem : ∀ x ∈ b :: 0 :: a.free, x ∈ List.range s.currentAllocatedCount := by
        intro x hx
        rw [List.mem_range, ← h.made, hs.placed]
        rcases List.mem_cons.mp hx with rfl | hx
        · exact Or.inr (Or.inl hb)
        · rcases List.mem_cons.mp hx with rfl | hx
          · exact Or.inr (Or.inl hs.rootHeld)
          · exact Or.inl hx
      have hnd : (b :: 0 :: a.free).Nodup := by
        rw [List.nodup_cons, List.nodup_cons]
        refine ⟨?_, fun hm => hs.freeHeld 0 hm hs.rootHeld, hs.freeNodup⟩
        intro hm
        rcases List.mem_cons.mp hm with rfl | hm
        · exact hne rfl
        · exact hs.freeHeld b hm hb
      have hlen := (List.subperm_of_subset hnd hmem).length_le
      rw [List.length_range, List.length_cons, List.length_cons] at hlen
      have hnum := h.numFree
      have hbound := h.bound
      omega
    refine ⟨{ a with
        entries := ∅
        key := fun b => if b < s.currentAllocatedCount then none else a.key b
        parent := fun b => if b < s.currentAllocatedCount then none else a.parent b },
      ?_, ?_, rfl, rfl, Or.inr ⟨honly, ?_, rfl, rfl⟩⟩
    · simp only [Pool.resetPrefixCache]
      rw [if_neg hc]
      refine { h with refs := ?_, key := ?_, parent := ?_, null := ?_, entries := ?_ }
      · intro b
        dsimp only
        split
        · exact h.refs b
        · exact h.refs b
      · intro b
        dsimp only
        split
        · rfl
        · exact h.key b
      · intro b
        dsimp only
        split
        · rfl
        · exact h.parent b
      · intro b
        dsimp only
        split
        · exact h.null b
        · exact h.null b
      · intro k b
        exact ⟨fun he => absurd he (Set.notMem_empty _),
          fun hr => absurd hr (BlockHashToBlockMap.registered_empty k b)⟩
    · refine { hs with listed := fun _ _ he => absurd he (Set.notMem_empty _), orphanless := ?_ }
      intro b hb
      dsimp only at hb ⊢
      split
      · rfl
      · next hlt =>
        rw [if_neg hlt] at hb
        exact hs.orphanless b hb
    · intro b hb
      exact if_pos ((h.made b).mp hb)

end FusionMlx.CopyRefinement
