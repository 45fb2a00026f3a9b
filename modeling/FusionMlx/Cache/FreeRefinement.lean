import FusionMlx.Cache.PoolRefinement

/-!
# Freeing and touching as ledger moves

The orphan cascade, the free paths, `touch` and the reference counters.
-/
namespace FusionMlx.FreeRefinement

open BlockHashing BlockHashMap BlockPool ResourceLedger PoolRefinement
open ResourceLedger.Ledger (Purged)

variable {κ : Type} {P : Params κ} {R : Rules BlockHash}
variable {s : Pool} {a a' : Ledger Nat BlockHash}

theorem mem_orphansOf (s : Pool) (ph h : BlockHash) (b : Nat) :
    (h, b) ∈ s.orphansOf ph ↔ s.cachedBlockHashToBlock.Registered h b ∧
      (s.blocks b).parentHash = some ph ∧ (s.blocks b).refCount ≤ 0 := by
  simp only [Pool.orphansOf, List.mem_flatMap, List.mem_map, List.mem_filter, decide_eq_true_eq,
    Prod.mk.injEq, BlockHashToBlockMap.Registered, OrderedDict.Dict.get?_eq_some_iff]
  constructor
  · rintro ⟨⟨h', e⟩, he, c, ⟨hc, hp⟩, rfl, rfl⟩
    exact ⟨⟨e, he, hc⟩, hp⟩
  · rintro ⟨⟨e, he, hc⟩, hp⟩
    exact ⟨(h, e), he, b, ⟨hc, hp⟩, rfl, rfl⟩

variable {k : BlockHash}

theorem orphansOf_eq_nil (h : Refines P s a) (hno : a.NoOrphans k) :
    s.orphansOf k = [] := by
  rw [List.eq_nil_iff_forall_not_mem]
  rintro ⟨k', b⟩ hm
  rw [mem_orphansOf, h.parent, h.refs, ← h.entries] at hm
  have := hno k' b hm.1 hm.2.1
  omega

variable {b : Nat}

/-- Clearing one orphan of the snapshot: a listed one loses its entry and key, one met a
second time is only reported again. -/
theorem clearOrphan_move (hO : R.orphan) (hN : R.notify) (hs : a.Sound 0)
    (hr : a.refs b ≤ 0) (hk : (k, b) ∈ a.entries ∨ a.key b = none) :
    Move R 0 a (((a.unlist k b).forget b).notify b) ∧
      Purged a (((a.unlist k b).forget b).notify b) := by
  by_cases he : (k, b) ∈ a.entries
  · refine ⟨.orphan k b he hr hO hN, rfl, rfl, rfl, rfl, rfl, Set.sdiff_subset, ?_⟩
    intro c
    by_cases hc : c = b
    · subst hc
      exact Or.inr ⟨by simp [Ledger.notify, Ledger.forget], by simp [Ledger.notify, Ledger.forget],
        hr, k, he⟩
    · exact Or.inl (by simp [Ledger.notify, Ledger.forget, Ledger.unlist, hc])
  · have hkey := hk.resolve_left he
    have hpar := hs.orphanless b hkey
    have heq : (a.unlist k b).forget b = a := by
      have h₁ : Function.update a.key b none = a.key := by rw [← hkey, Function.update_eq_self]
      have h₂ : Function.update a.parent b none = a.parent := by rw [← hpar, Function.update_eq_self]
      have h₃ : a.entries \ {(k, b)} = a.entries := Set.sdiff_singleton_eq_self he
      simp only [Ledger.forget, Ledger.unlist, h₁, h₂, h₃]
    rw [heq]
    exact ⟨.notify b hN, rfl, rfl, rfl, rfl, rfl, subset_rfl, fun _ => Or.inl ⟨rfl, rfl⟩⟩

theorem clearOrphans_refines (hO : R.orphan) (hN : R.notify) (h : Refines P s a)
    (hs : a.Sound 0) (work : List BlockHash) {L : List (BlockHash × Nat)}
    (hL : ∀ o ∈ L, a.refs o.2 ≤ 0 ∧ (o ∈ a.entries ∨ a.key o.2 = none)) :
    ∃ a', Refines P (Pool.clearOrphans s work L).1 a' ∧ Moves R 0 a a' ∧ Purged a a' := by
  induction L generalizing s a work with
  | nil => exact ⟨a, h, .refl, .refl a⟩
  | cons o L ih =>
    obtain ⟨k, b⟩ := o
    obtain ⟨hr, hk⟩ := hL (k, b) (by simp)
    obtain ⟨hmove, hpurge⟩ := clearOrphan_move hO hN hs hr hk
    have hpos : ¬ (s.blocks b).refCount > 0 := by
      rw [h.refs]
      exact Int.not_lt.mpr hr
    have h₁ := ((h.popHash k b).resetHash b).notify b
    have hL' : ∀ o ∈ L, (((a.unlist k b).forget b).notify b).refs o.2 ≤ 0 ∧
        (o ∈ (((a.unlist k b).forget b).notify b).entries ∨
          (((a.unlist k b).forget b).notify b).key o.2 = none) := by
      rintro ⟨k', c⟩ ho
      obtain ⟨hr', hk'⟩ := hL (k', c) (by simp [ho])
      refine ⟨hr', ?_⟩
      simp only [Ledger.notify, Ledger.forget, Ledger.unlist, Set.mem_sdiff,
        Set.mem_singleton_iff, Prod.mk.injEq, Function.update_apply]
      by_cases hc : c = b
      · simp [hc]
      · simp only [hc, and_false, not_false_eq_true, and_true, if_false]
        exact hk'
    obtain ⟨a', ha', hm, hp⟩ := ih h₁ (hmove.sound hs)
      ((s.blocks b).blockHash.toList ++ work) hL'
    refine ⟨a', ?_, .head hmove hm, hpurge.trans hp⟩
    simp only [Pool.clearOrphans, hpos, if_false]
    exact ha'

theorem cascadeLoop_refines (hO : R.orphan) (hN : R.notify) (n : Nat) (work : List BlockHash)
    (h : Refines P s a) (hs : a.Sound 0) :
    ∃ a', Refines P (Pool.cascadeLoop n work s).2 a' ∧ Moves R 0 a a' ∧ Purged a a' := by
  induction n generalizing s a work with
  | zero => exact ⟨a, h, .refl, .refl a⟩
  | succ n ih =>
    cases work with
    | nil => exact ⟨a, h, .refl, .refl a⟩
    | cons ph work =>
      have hL : ∀ o ∈ s.orphansOf ph, a.refs o.2 ≤ 0 ∧ (o ∈ a.entries ∨ a.key o.2 = none) := by
        rintro ⟨k, b⟩ ho
        rw [mem_orphansOf, h.refs, ← h.entries] at ho
        exact ⟨ho.2.2, Or.inl ho.1⟩
      obtain ⟨a₁, h₁, hm₁, hp₁⟩ := clearOrphans_refines hO hN h hs work hL
      obtain ⟨a₂, h₂, hm₂, hp₂⟩ := ih (Pool.clearOrphans s work (s.orphansOf ph)).2.1 h₁
        (hm₁.sound hs)
      exact ⟨a₂, h₂, hm₁.trans hm₂, hp₁.trans hp₂⟩

theorem cascade_of_noOrphans (h : Refines P s a) (hno : a.NoOrphans k) :
    s.cascadeEvictOrphansLocked k = (0, s) := by
  simp [Pool.cascadeEvictOrphansLocked, Pool.cascadeLoop, orphansOf_eq_nil h hno,
    Pool.clearOrphans]

theorem cascade_refines (h : Refines P s a) (hs : a.Sound 0)
    (hR : (R.orphan ∧ R.notify) ∨ a.NoOrphans k) :
    ∃ a', Refines P (s.cascadeEvictOrphansLocked k).2 a' ∧ Moves R 0 a a' ∧ Purged a a' := by
  rcases hR with ⟨hO, hN⟩ | hno
  · exact cascadeLoop_refines hO hN 256 [k] h hs
  · rw [cascade_of_noOrphans h hno]
    exact ⟨a, h, .refl, .refl a⟩

/-! The cascade neither reads nor writes the allocation dictionary. -/

def withAllocated (s : Pool) (l : List Nat) : Pool := { s with allocatedBlocks := l }

theorem clearOrphans_withAllocated (s : Pool) (l : List Nat) (work : List BlockHash)
    (L : List (BlockHash × Nat)) : Pool.clearOrphans (withAllocated s l) work L =
      (withAllocated (Pool.clearOrphans s work L).1 l, (Pool.clearOrphans s work L).2) := by
  induction L generalizing s work with
  | nil => rfl
  | cons o L ih =>
    obtain ⟨k, b⟩ := o
    have hblk : (withAllocated s l).blocks = s.blocks := rfl
    by_cases hr : (s.blocks b).refCount > 0
    · simp only [Pool.clearOrphans, hblk, hr, if_true]
      exact ih s work
    · simp only [Pool.clearOrphans, hblk, hr, if_false]
      have := ih (((s.popHash k (some b)).modify b
        CacheBlock.resetHash).notifyBlockContentInvalidated b) ((s.blocks b).blockHash.toList ++ work)
      exact congrArg (fun r => (r.1, r.2.1, r.2.2 + 1)) this

theorem cascadeLoop_withAllocated (s : Pool) (l : List Nat) (n : Nat) (work : List BlockHash) :
    Pool.cascadeLoop n work (withAllocated s l) =
      ((Pool.cascadeLoop n work s).1, withAllocated (Pool.cascadeLoop n work s).2 l) := by
  induction n generalizing s work with
  | zero => rfl
  | succ n ih =>
    cases work with
    | nil => rfl
    | cons ph work =>
      have horph : (withAllocated s l).orphansOf ph = s.orphansOf ph := rfl
      simp only [Pool.cascadeLoop, horph, clearOrphans_withAllocated, ih]

theorem cascade_allocated (s : Pool) (k : BlockHash) :
    (s.cascadeEvictOrphansLocked k).2.allocatedBlocks = s.allocatedBlocks := by
  have := cascadeLoop_withAllocated s s.allocatedBlocks 256 [k]
  exact congrArg (fun r => r.2.allocatedBlocks) this

theorem cascade_delAllocated (s : Pool) (k : BlockHash) (b : Nat) :
    (s.cascadeEvictOrphansLocked k).2.delAllocated b =
      ((s.delAllocated b).cascadeEvictOrphansLocked k).2 := by
  have h := cascadeLoop_withAllocated s (s.allocatedBlocks.filter (· ≠ b)) 256 [k]
  have hdel : ((s.delAllocated b).cascadeEvictOrphansLocked k).2 =
      withAllocated (s.cascadeEvictOrphansLocked k).2 (s.allocatedBlocks.filter (· ≠ b)) :=
    congrArg Prod.snd h
  rw [hdel, ← cascade_allocated s k]
  rfl

/-- What freeing `b` needs from the rules, should its last reference go. -/
structure MayFree (R : Rules BlockHash) (a : Ledger Nat BlockHash) (b : Nat) : Prop where
  drop : R.drop (a.key b)
  told : a.key b ≠ none → R.notify
  orphan : ∀ k, a.key b = some k → R.orphan ∨ a.NoOrphans k

theorem mayFree_any (a : Ledger Nat BlockHash) (b : Nat) : MayFree Rules.any a b :=
  ⟨trivial, fun _ => trivial, fun _ _ => Or.inl trivial⟩

/-- From `a` to `a'` the block `b` lost one reference, and its place if it was the last. -/
structure FreeStep (a a' : Ledger Nat BlockHash) (b : Nat) (freed : Bool) : Prop where
  free : a'.free = a.free
  loose : a'.loose = if freed then insert b a.loose else a.loose
  held : a'.held = if freed then a.held \ {b} else a.held
  refs : ∀ c, a'.refs c = if c = b ∧ b ≠ 0 then a.refs c - 1 else a.refs c
  freed_iff : freed = true ↔ b ≠ 0 ∧ a.refs b ≤ 1
  entries : a'.entries ⊆ a.entries
  unlisted : freed = true → ∀ k, (k, b) ∉ a'.entries
  key : ∀ c, (a'.key c = a.key c ∧ a'.parent c = a.parent c) ∨
    (a'.key c = none ∧ a'.parent c = none ∧ c ≠ b ∧ a.refs c ≤ 0)

theorem FreeStep.noOrphans {freed : Bool} (h : FreeStep a a' b freed)
    (hno : a.NoOrphans k) : a'.NoOrphans k := by
  intro k' c he hp
  have hpos : 0 < a.refs c := by
    rcases h.key c with hc | hc
    · exact hno k' c (h.entries he) (hc.2 ▸ hp)
    · rw [hc.2.1] at hp
      cases hp
  have hfreed := h.freed_iff
  have hun := h.unlisted
  rw [h.refs]
  split
  · next hc =>
    obtain ⟨rfl, hne⟩ := hc
    have : ¬ a.refs c ≤ 1 := fun hle => hun (hfreed.mpr ⟨hne, hle⟩) k' he
    omega
  · exact hpos

theorem FreeStep.mayFree {c : Nat} {freed : Bool} (h : FreeStep a a' b freed)
    (hc : MayFree R a c) : MayFree R a' c := by
  rcases h.key c with hk | hk
  · refine ⟨hk.1 ▸ hc.drop, hk.1 ▸ hc.told, fun k hkk => ?_⟩
    exact (hc.orphan k (hk.1 ▸ hkk)).imp_right h.noOrphans
  · refine ⟨hk.1 ▸ R.drop_none, fun hne => absurd hk.1 hne, fun k hkk => ?_⟩
    rw [hk.1] at hkk
    cases hkk

/-- Giving up an entry before the last reference goes. -/
theorem unlist_moves (hs : a.Sound 0) (hN : R.notify) (k : BlockHash) (b : Nat)
    (hk : a.key b = some k) :
    Move R 0 a ((a.unlist k b).notify b) ∧ ∀ k', (k', b) ∉ ((a.unlist k b).notify b).entries := by
  constructor
  · by_cases he : (k, b) ∈ a.entries
    · exact .unlist k b he hN
    · have heq : a.unlist k b = a := by
        simp only [Ledger.unlist, Set.sdiff_singleton_eq_self he]
      rw [heq]
      exact .notify b hN
  · rintro k' ⟨he, hne⟩
    have := (hs.listed k' b he).2
    rw [hk, Option.some.injEq] at this
    exact hne (by rw [this]; rfl)

theorem freeBlockLocked_refines (h : Refines P s a) (hs : a.Sound 0) (hb : b ∈ a.held)
    (hmay : b ≠ 0 → a.refs b ≤ 1 → MayFree R a b) :
    ∃ a' freed, (s.freeBlockLocked b).1 = .ok freed ∧ Refines P (s.freeBlockLocked b).2 a' ∧
      Moves R 0 a a' ∧ FreeStep a a' b freed := by
  have hdec : Refines P (s.modify b (fun c => c.setRef (c.refCount - 1)))
      (a.setRefs b (a.refs b - 1)) := h.setRef b (by rw [h.refs])
  have hrefs : ∀ c, (a.setRefs b (a.refs b - 1)).refs c =
      if c = b then a.refs c - 1 else a.refs c := by
    intro c
    by_cases hc : c = b <;> simp [Ledger.setRefs, hc]
  by_cases h0 : b = 0
  · refine ⟨a, false, ?_, ?_, .refl, rfl, rfl, rfl, ?_, by simp [h0], subset_rfl, by simp,
      fun _ => Or.inl ⟨rfl, rfl⟩⟩
    · simp [Pool.freeBlockLocked, h.isNull_eq, h0]
    · simpa [Pool.freeBlockLocked, h.isNull_eq, h0] using h
    · simp [h0]
  have hnull : (s.blocks b).isNull = false := by simp [h.isNull_eq, h0]
  have hval : ((s.modify b (fun c => c.setRef (c.refCount - 1))).blocks b).refCount =
      a.refs b - 1 := by
    rw [hdec.refs, hrefs, if_pos rfl]
  by_cases hgt : a.refs b - 1 > 0
  · refine ⟨_, false, ?_, ?_, .single (.hold b _ hb hgt), rfl, rfl, rfl, ?_, ?_, subset_rfl,
      by simp, fun _ => Or.inl ⟨rfl, rfl⟩⟩
    · simp only [Pool.freeBlockLocked, hnull, Bool.false_eq_true, if_false, hval, hgt, if_true]
    · simp only [Pool.freeBlockLocked, hnull, Bool.false_eq_true, if_false, hval, hgt, if_true]
      exact hdec
    · intro c
      rw [hrefs]
      simp [h0]
    · simp only [Bool.false_eq_true, ne_eq, false_iff, not_and]
      omega
  have hle : a.refs b ≤ 1 := by omega
  obtain ⟨hdrop, htold, horph⟩ := hmay h0 hle
  have hheld : b ∈ s.allocatedBlocks := (h.held b).mp hb
  cases hk : a.key b with
  | none =>
    have hkey : ((s.modify b (fun c => c.setRef (c.refCount - 1))).blocks b).blockHash = none :=
      (hdec.key b).trans hk
    have hl : ∀ k, (k, b) ∉ a.entries := by
      intro k he
      have := (hs.listed k b he).2
      rw [hk] at this
      cases this
    have hmem : b ∈ (s.modify b (fun c => c.setRef (c.refCount - 1))).allocatedBlocks := hheld
    refine ⟨a.drop b (a.refs b - 1), true, ?_, ?_, .single (.drop b _ hb h0 hl (by omega) hdrop),
      rfl, rfl, rfl, ?_, by simp [h0, hle], subset_rfl, fun _ => hl,
      fun _ => Or.inl ⟨rfl, rfl⟩⟩
    · simp only [Pool.freeBlockLocked, hnull, Bool.false_eq_true, if_false, hval, hgt,
        Pool.dropContent, hkey, hmem, if_true]
    · simp only [Pool.freeBlockLocked, hnull, Bool.false_eq_true, if_false, hval, hgt,
        Pool.dropContent, hkey, hmem, if_true]
      exact (hdec.delAllocated b).bump _
    · intro c
      rw [show (a.drop b (a.refs b - 1)).refs c = _ from hrefs c]
      simp [h0]
  | some k =>
    have hkey : ((s.modify b (fun c => c.setRef (c.refCount - 1))).blocks b).blockHash = some k :=
      (hdec.key b).trans hk
    obtain ⟨hmv, hl⟩ := unlist_moves hs (htold (by simp [hk])) k b hk
    have hdropMove : Move R 0 ((a.unlist k b).notify b)
        (((a.unlist k b).notify b).drop b (a.refs b - 1)) :=
      .drop b _ hb h0 hl (by omega) hdrop
    have hs₂ := hdropMove.sound (hmv.sound hs)
    have h₂ : Refines P ((((s.modify b (fun c => c.setRef (c.refCount - 1))).popHash k
        (some b)).notifyBlockContentInvalidated b).delAllocated b)
        (((a.unlist k b).notify b).drop b (a.refs b - 1)) :=
      ((hdec.popHash k b).notify b).delAllocated b
    have hno₂ : a.NoOrphans k → (((a.unlist k b).notify b).drop b (a.refs b - 1)).NoOrphans k := by
      intro hno k' c he hp
      have hcb : c ≠ b := by
        rintro rfl
        exact hl k' he
      have := hno k' c he.1 hp
      simpa [Ledger.drop, Ledger.notify, Ledger.unlist, hcb] using this
    have hR₂ : (R.orphan ∧ R.notify) ∨
        (((a.unlist k b).notify b).drop b (a.refs b - 1)).NoOrphans k :=
      (horph k hk).imp (fun hO => ⟨hO, htold (by simp [hk])⟩) hno₂
    obtain ⟨a', ha', hm', hp'⟩ := cascade_refines h₂ hs₂ hR₂
    have hmem : b ∈ ((((s.modify b (fun c => c.setRef (c.refCount - 1))).popHash k
        (some b)).notifyBlockContentInvalidated b).cascadeEvictOrphansLocked
          k).2.allocatedBlocks := by
      rw [cascade_allocated]
      exact hheld
    refine ⟨a', true, ?_, ?_, .head hmv (.head hdropMove hm'), hp'.free, ?_, ?_, ?_,
      by simp [h0, hle], ?_, ?_, ?_⟩
    · simp only [Pool.freeBlockLocked, hnull, Bool.false_eq_true, if_false, hval, hgt,
        Pool.dropContent, hkey, hmem, if_true]
    · simp only [Pool.freeBlockLocked, hnull, Bool.false_eq_true, if_false, hval, hgt,
        Pool.dropContent, hkey, hmem, if_true, cascade_delAllocated]
      exact ha'.bump _
    · exact hp'.loose
    · exact hp'.held
    · intro c
      rw [hp'.refs, show (((a.unlist k b).notify b).drop b (a.refs b - 1)).refs c = _ from hrefs c]
      simp [h0]
    · exact fun o ho => (hp'.entries ho).1
    · exact fun _ k' he => hl k' (hp'.entries he)
    · intro c
      rcases hp'.key c with hc | ⟨hc₁, hc₂, hc₃, k', hc₄⟩
      · exact Or.inl hc
      · have hcb : c ≠ b := by
          rintro rfl
          exact hl k' hc₄
        refine Or.inr ⟨hc₁, hc₂, hcb, ?_⟩
        simpa [Ledger.drop, Ledger.notify, Ledger.unlist, hcb] using hc₃

/-- `free_block` of a held block: the freed block goes to the back of the queue. -/
theorem freeBlock_refines (h : Refines P s a) (hs : a.Sound 0) (hb : b ∈ a.held)
    (hmay : b ≠ 0 → a.refs b ≤ 1 → MayFree R a b) :
    ∃ a₁ a' freed, (s.freeBlock b).1 = .ok freed ∧ Refines P (s.freeBlock b).2 a' ∧
      Moves R 0 a a' ∧ FreeStep a a₁ b freed ∧ (a' = if freed then a₁.place [b] else a₁) ∧
      a'.loose = a.loose := by
  obtain ⟨a₁, freed, hres, h₁, hm, hf⟩ := freeBlockLocked_refines h hs hb hmay
  have hheld : b ∈ s.allocatedBlocks := (h.held b).mp hb
  have hout := hs.heldLoose b hb
  cases hlock : s.freeBlockLocked b with
  | mk r t =>
    rw [hlock] at hres h₁
    simp only at hres h₁
    subst hres
    cases freed with
    | false =>
      refine ⟨a₁, a₁, false, ?_, ?_, hm, hf, rfl, hf.loose⟩
      · simp only [Pool.freeBlock, hheld, if_true, hlock]
      · simpa only [Pool.freeBlock, hheld, if_true, hlock] using h₁
    | true =>
      have hin : b ∈ a₁.loose := by
        rw [hf.loose]
        exact Set.mem_insert b _
      have hfree : b ∉ a₁.free := fun hm' => (Moves.sound hm hs).freeLoose b hm' hin
      refine ⟨a₁, a₁.place [b], true, ?_, ?_, hm.tail (.place [b] (by simp) ?_), hf, rfl, ?_⟩
      · simp only [Pool.freeBlock, hheld, if_true, hlock]
      · simp only [Pool.freeBlock, hheld, if_true, hlock]
        exact h₁.enqueue hfree
      · intro c hc
        rw [List.mem_singleton] at hc
        exact hc ▸ hin
      · ext c
        simp only [Ledger.place, hf.loose, if_true, List.mem_singleton, Set.mem_sdiff,
          Set.mem_insert_iff, Set.mem_ofPred_eq]
        constructor
        · rintro ⟨hc | hc, hne⟩
          · exact absurd hc hne
          · exact hc
        · intro hc
          exact ⟨Or.inr hc, fun he => hout (he ▸ hc)⟩

variable {bs : List Nat}

theorem freeEach_refines (h : Refines P s a) (hs : a.Sound 0) (hnd : bs.Nodup)
    (hb : ∀ b ∈ bs, b ∈ a.held) (hmay : ∀ b ∈ bs, b ≠ 0 → a.refs b ≤ 1 → MayFree R a b) :
    ∃ a' toFree, (s.freeEach bs).1 = .ok toFree ∧ Refines P (s.freeEach bs).2 a' ∧
      Moves R 0 a a' ∧ toFree.Nodup ∧ (∀ b ∈ toFree, b ∈ bs) ∧ a'.free = a.free ∧
      ∀ c, c ∈ a'.loose ↔ c ∈ toFree ∨ c ∈ a.loose := by
  induction bs generalizing s a with
  | nil => exact ⟨a, [], rfl, h, .refl, List.nodup_nil, by simp, rfl, by simp⟩
  | cons b bs ih =>
    obtain ⟨hnot, hnd'⟩ := List.nodup_cons.mp hnd
    obtain ⟨a₁, freed, hres, h₁, hm₁, hf⟩ :=
      freeBlockLocked_refines h hs (hb b (by simp)) (hmay b (by simp))
    have hb₁ : ∀ c ∈ bs, c ∈ a₁.held := by
      intro c hc
      have hcb : c ≠ b := by
        rintro rfl
        exact hnot hc
      have := hb c (by simp [hc])
      rw [hf.held]
      cases freed <;> simp [this, hcb]
    have hmay₁ : ∀ c ∈ bs, c ≠ 0 → a₁.refs c ≤ 1 → MayFree R a₁ c := by
      intro c hc h0 hle
      have hcb : c ≠ b := by
        rintro rfl
        exact hnot hc
      rw [hf.refs, if_neg (fun hx => hcb hx.1)] at hle
      exact hf.mayFree (hmay c (by simp [hc]) h0 hle)
    obtain ⟨a₂, toFree, hres₂, h₂, hm₂, hnd₂, hsub, hfree, hloose⟩ :=
      ih h₁ (hm₁.sound hs) hnd' hb₁ hmay₁
    cases hlock : s.freeBlockLocked b with
    | mk r t =>
      rw [hlock] at hres h₁ hres₂ h₂
      simp only at hres h₁ hres₂ h₂
      subst hres
      cases hrest : t.freeEach bs with
      | mk r' t' =>
        rw [hrest] at hres₂ h₂
        simp only at hres₂ h₂
        subst hres₂
        refine ⟨a₂, if freed then b :: toFree else toFree, ?_, ?_, hm₁.trans hm₂, ?_, ?_,
          hfree.trans hf.free, ?_⟩
        · simp only [Pool.freeEach, hlock, hrest]
        · simpa only [Pool.freeEach, hlock, hrest] using h₂
        · cases freed
          · exact hnd₂
          · exact List.nodup_cons.mpr ⟨fun hm => hnot (hsub b hm), hnd₂⟩
        · intro c hc
          cases freed
          · exact List.mem_cons_of_mem b (hsub c hc)
          · rcases List.mem_cons.mp hc with rfl | hc
            · exact List.mem_cons_self
            · exact List.mem_cons_of_mem b (hsub c hc)
        · intro c
          rw [hloose, hf.loose]
          cases freed
          · rfl
          · simp only [if_true, Set.mem_insert_iff, List.mem_cons]
            tauto

theorem freeBlocksBatch_refines (h : Refines P s a) (hs : a.Sound 0)
    (hnd : bs.Nodup) (hb : ∀ b ∈ bs, b ∈ a.held)
    (hmay : ∀ b ∈ bs, b ≠ 0 → a.refs b ≤ 1 → MayFree R a b) :
    ∃ a', (s.freeBlocksBatch bs).1 = .ok () ∧ Refines P (s.freeBlocksBatch bs).2 a' ∧
      Moves R 0 a a' ∧ a'.loose = a.loose := by
  obtain ⟨a₁, toFree, hres, h₁, hm, hnd', hsub, -, hloose⟩ := freeEach_refines h hs hnd hb hmay
  have hin : ∀ b ∈ toFree, b ∈ a₁.loose := fun b hb' => (hloose b).mpr (Or.inl hb')
  cases hlock : s.freeEach bs with
  | mk r t =>
    rw [hlock] at hres h₁
    simp only at hres h₁
    subst hres
    refine ⟨a₁.place toFree, ?_, ?_, hm.tail (.place toFree hnd' hin), ?_⟩
    · simp only [Pool.freeBlocksBatch, hlock]
    · simp only [Pool.freeBlocksBatch, hlock]
      exact { h₁ with
        queue := h₁.queue.appendN hnd' (fun b hb' hf =>
          (Moves.sound hm hs).freeLoose b hf (hin b hb')) }
    · ext c
      have hout : c ∈ toFree → c ∉ a.loose := fun hc => hs.heldLoose c (hb c (hsub c hc))
      simp only [Ledger.place, Set.mem_sdiff, hloose, Set.mem_ofPred_eq]
      tauto

theorem addRef_refines (h : Refines P s a) (hs : a.Sound 0) (hb : b ∈ a.held) :
    Refines P (s.addRef P b) (a.setRefs b (a.refs b + 1)) ∧
      Move R 0 a (a.setRefs b (a.refs b + 1)) := by
  have h₁ := (h.setRef b (f := fun c => c.setRef (c.refCount + 1)) (by rw [h.refs])).touchBlock b
  have hpos := hs.heldRefs b hb
  refine ⟨?_, .hold b _ hb (by omega)⟩
  simp only [Pool.addRef]
  split
  · exact h₁.bump _
  · exact h₁

theorem touchOne_refines (h : Refines P s a) (hs : a.Sound 0)
    (hb : b ∈ a.free ∨ b ∈ a.held) :
    ∃ a', Refines P (Pool.touchOne P s b) a' ∧ Moves R 0 a a' ∧ a'.loose = a.loose ∧
      a'.made = a.made := by
  have hraise : ∀ {t : Pool} {c : Ledger Nat BlockHash}, Refines P t c →
      Refines P ((t.modify b (fun d => d.setRef (d.refCount + 1))).touchBlock P b)
        (c.setRefs b (c.refs b + 1)) := fun ht => (ht.setRef b (by rw [ht.refs])).touchBlock b
  by_cases hz : a.refs b = 0 ∧ b ≠ 0
  · have hcond : (s.blocks b).refCount = 0 ∧ ¬ (s.blocks b).isNull = true := by
      rw [h.refs, h.null]
      exact hz
    rcases hb with hb | hb
    · obtain ⟨l, r, hf⟩ := List.append_of_mem hb
      have hq := h.queue
      rw [hf] at hq
      obtain ⟨q, hrem, hq'⟩ := hq.remove_mem
      have h₁ : Refines P { s with freeBlockQueue := q } (a.take (l ++ r) b) :=
        { h with queue := hq' }
      have h₂ := hraise ((h₁.bump (fun t => { t with
        freeBlocks := t.freeBlocks - 1, allocatedBlocks := t.allocatedBlocks + 1 })).addAllocated b)
      have hadopt : (a.take (l ++ r) b).adopt b 1 =
          (a.take (l ++ r) b).adopt b ((a.take (l ++ r) b).refs b + 1) := by
        simp [Ledger.take, hz.1]
      refine ⟨(a.take (l ++ r) b).adopt b 1, ?_, .head (.take l r b hf) (.single (.adopt b 1
        (Set.mem_insert b _) (by omega))), ?_, rfl⟩
      · simp only [Pool.touchOne]
        rw [if_pos hcond, hrem, hadopt]
        exact h₂
      · ext c
        have hout : c = b → c ∉ a.loose := fun hc => hc ▸ hs.freeLoose b hb
        simp only [Ledger.adopt, Ledger.take, Set.mem_sdiff, Set.mem_insert_iff,
          Set.mem_singleton_iff]
        tauto
    · have hfree : b ∉ a.free := fun hm => hs.freeHeld b hm hb
      refine ⟨a, ?_, .refl, rfl, rfl⟩
      simp only [Pool.touchOne]
      rw [if_pos hcond, h.queue.remove_notMem hfree]
      exact h.bump _
  · have hcond : ¬ ((s.blocks b).refCount = 0 ∧ ¬ (s.blocks b).isNull = true) := by
      rw [h.refs, h.null]
      exact hz
    refine ⟨a.setRefs b (a.refs b + 1), ?_, ?_, rfl, rfl⟩
    · simp only [Pool.touchOne, hcond, if_false]
      exact hraise h
    · rcases hb with hb | hb
      · have hle := hs.idle b (Or.inl hb)
        have hne : b ≠ 0 := by
          rintro rfl
          exact hs.freeHeld 0 hb hs.rootHeld
        have : a.refs b ≠ 0 := fun h0 => hz ⟨h0, hne⟩
        exact .single (.graze b _ hb (by omega))
      · have := hs.heldRefs b hb
        exact .single (.hold b _ hb (by omega))

theorem touch_refines (h : Refines P s a) (hs : a.Sound 0) (hloose : a.loose = ∅)
    (hb : ∀ b ∈ bs, b ∈ a.made) :
    ∃ a', Refines P (s.touch P bs) a' ∧ Moves R 0 a a' ∧ a'.loose = a.loose := by
  induction bs generalizing s a with
  | nil => exact ⟨a, h, .refl, rfl⟩
  | cons b bs ih =>
    have hplace := (hs.placed b).mp (hb b (by simp))
    rw [hloose] at hplace
    obtain ⟨a₁, h₁, hm₁, hl₁, hmade⟩ := touchOne_refines h hs (R := R) (by simpa using hplace)
    obtain ⟨a₂, h₂, hm₂, hl₂⟩ := ih h₁ (hm₁.sound hs) (hl₁.trans hloose)
      (fun c hc => hmade ▸ hb c (by simp [hc]))
    exact ⟨a₂, h₂, hm₁.trans hm₂, hl₂.trans hl₁⟩

/-- One release: the count of a referenced held block goes down, to rest at zero if it was one. -/
theorem releaseOne_refines (h : Refines P s a)
    (hrest : b ∈ a.held → b ≠ 0 → a.refs b = 1 → R.rest (a.key b)) :
    ∃ a', Refines P (s.releaseOne b).2 a' ∧ Moves R 0 a a' ∧
      (a' = a ∨ (a' = a.setRefs b (a.refs b - 1) ∧ 0 < a.refs b)) ∧
      (b ∈ a.held → b ≠ 0 → 0 < a.refs b → a'.refs b = a.refs b - 1) := by
  by_cases hc : b ∈ a.held ∧ b ≠ 0 ∧ 0 < a.refs b
  · have hcond : b ∈ s.allocatedBlocks ∧ ¬ (s.blocks b).isNull = true ∧ (s.blocks b).refCount > 0 := by
      rw [← h.held, h.null, h.refs]
      exact hc
    obtain ⟨hb, hne, hpos⟩ := hc
    have h₁ : Refines P (s.modify b (fun c => c.setRef (c.refCount - 1)))
        (a.setRefs b (a.refs b - 1)) := h.setRef b (by rw [h.refs])
    refine ⟨a.setRefs b (a.refs b - 1), ?_, ?_, Or.inr ⟨rfl, hpos⟩, ?_⟩
    · simp only [Pool.releaseOne]
      rw [if_pos hcond]
      dsimp only
      split
      · exact h₁.bump _
      · exact h₁
    · by_cases h1 : a.refs b = 1
      · rw [h1]
        exact .single (.rest b hb hne (hrest hb hne h1))
      · exact .single (.hold b _ hb (by omega))
    · intro _ _ _
      simp [Ledger.setRefs]
  · have hcond : ¬ (b ∈ s.allocatedBlocks ∧ ¬ (s.blocks b).isNull = true ∧
        (s.blocks b).refCount > 0) := by
      rw [← h.held, h.null, h.refs]
      exact hc
    refine ⟨a, ?_, .refl, Or.inl rfl, fun h₁ h₂ h₃ => absurd ⟨h₁, h₂, h₃⟩ hc⟩
    simp only [Pool.releaseOne, hcond, if_false]
    exact h

theorem releaseForEviction_refines (h : Refines P s a) (hs : a.Sound 0)
    (hrest : ∀ b ∈ bs, b ∈ a.held → b ≠ 0 → 0 < a.refs b → a.refs b ≤ bs.count b →
      R.rest (a.key b)) :
    ∃ a', Refines P (s.releaseForEviction bs).2 a' ∧ Moves R 0 a a' ∧ a'.loose = a.loose := by
  induction bs generalizing s a with
  | nil => exact ⟨a, h, .refl, rfl⟩
  | cons b bs ih =>
    have hone : b ∈ a.held → b ≠ 0 → a.refs b = 1 → R.rest (a.key b) := by
      intro hb hne h1
      refine hrest b (by simp) hb hne (by omega) ?_
      rw [List.count_cons_self]
      omega
    obtain ⟨a₁, h₁, hm₁, hshape, hdec⟩ := releaseOne_refines h hone
    have hkeep : a₁.held = a.held ∧ a₁.key = a.key ∧ a₁.loose = a.loose := by
      rcases hshape with rfl | ⟨rfl, -⟩ <;> exact ⟨rfl, rfl, rfl⟩
    have hothers : ∀ c, c ≠ b → a₁.refs c = a.refs c := by
      intro c hc
      rcases hshape with rfl | ⟨rfl, -⟩
      · rfl
      · simp [Ledger.setRefs, hc]
    have hrest₁ : ∀ c ∈ bs, c ∈ a₁.held → c ≠ 0 → 0 < a₁.refs c → a₁.refs c ≤ bs.count c →
        R.rest (a₁.key c) := by
      intro c hc hheld hne hpos hle
      rw [hkeep.1] at hheld
      rw [hkeep.2.1]
      by_cases hcb : c = b
      · subst hcb
        have hpos₀ : 0 < a.refs c := by
          rcases hshape with rfl | ⟨-, hp⟩
          · exact hpos
          · exact hp
        have hval := hdec hheld hne hpos₀
        refine hrest c (by simp) hheld hne hpos₀ ?_
        rw [List.count_cons_self]
        omega
      · rw [hothers c hcb] at hpos hle
        refine hrest c (by simp [hc]) hheld hne hpos ?_
        rw [List.count_cons_of_ne (Ne.symm hcb)]
        exact hle
    obtain ⟨a₂, h₂, hm₂, hl₂⟩ := ih h₁ (hm₁.sound hs) hrest₁
    exact ⟨a₂, h₂, hm₁.trans hm₂, hl₂.trans hkeep.2.2⟩

end FusionMlx.FreeRefinement
