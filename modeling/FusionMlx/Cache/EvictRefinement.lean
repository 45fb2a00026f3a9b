import FusionMlx.Cache.LookupRefinement

/-!
# Eviction and copy-on-write as ledger moves
-/
namespace FusionMlx.EvictRefinement

open BlockHashing BlockPool ResourceLedger PoolRefinement FreeRefinement LookupRefinement
open ResourceLedger.Ledger (Purged Faded Evicted)

variable {κ : Type} {P : Params κ} {R : Rules BlockHash}
variable {s : Pool} {a a' : Ledger Nat BlockHash}

/-- The walk over the queue meets the free blocks in order. -/
theorem queueIds_eq (h : Refines P s a) (hs : a.Sound 0) : s.queueIds = a.free := by
  have hlen : a.free.length < s.currentAllocatedCount + 1 := by
    have hsub : a.free ⊆ List.range s.currentAllocatedCount := by
      intro b hb
      rw [List.mem_range, ← h.made]
      exact (hs.placed b).mpr (Or.inl hb)
    have := (List.subperm_of_subset hs.freeNodup hsub).length_le
    rw [List.length_range] at this
    omega
  have hwalk := (h.queue.threads).walk_eq (l := []) (n := s.currentAllocatedCount + 1)
    (by rw [List.length_map]; exact hlen)
  rw [Pool.queueIds, hwalk, List.filterMap_map]
  exact List.filterMap_some

variable {b : Nat}

/-- Stripping a free block forgets its key. -/
theorem stripBlock_free (h : Refines P s a) (hb : b ∉ a.held) :
    Refines P (s.stripBlock b) ((a.forget b).notify b) := by
  have hout : b ∉ s.allocatedBlocks := fun hm => hb ((h.held b).mpr hm)
  simp only [Pool.stripBlock]
  split
  · next hm => exact absurd hm hout
  · exact (((h.bump _).resetHash b).notify b).same (.modify _ b _ rfl rfl rfl rfl)

/-- Stripping a held block also takes it out of the held ones. -/
theorem stripBlock_held (h : Refines P s a) (hb : b ∈ a.held) :
    Refines P (s.stripBlock b) (((a.notify b).drop b (a.refs b)).forget b) := by
  have hin : b ∈ s.allocatedBlocks := (h.held b).mp hb
  have heq : (a.notify b).drop b (a.refs b) =
      { a.notify b with held := a.held \ {b}, loose := insert b a.loose } := by
    simp only [Ledger.drop, Ledger.notify, Function.update_eq_self]
  simp only [Pool.stripBlock]
  split
  · rw [heq]
    exact (((((h.bump _).resetHash b).notify b).same
      (.modify _ b _ rfl rfl rfl rfl)).delAllocated b).bump _
  · next hm => exact absurd hin hm

theorem evictLruOne_refines (h : Refines P s a) (hs : a.Sound 0) (hN : R.notify)
    (hb : b ∈ a.free) (hno : ∀ k, a.key b = some k → R.orphan ∨ a.NoOrphans k) :
    ∃ a', Refines P (s.evictLruOne b) a' ∧ Moves R 0 a a' ∧ Faded a a' := by
  have hheld : b ∉ a.held := hs.freeHeld b hb
  have hmv : Moves R 0 a ((a.forget b).notify b) :=
    .head (.forget b hheld) (.single (.notify b hN))
  have hfade : Faded a ((a.forget b).notify b) := by
    refine ⟨rfl, rfl, rfl, rfl, rfl, subset_rfl, ?_⟩
    intro c
    by_cases hc : c = b
    · subst hc
      exact Or.inr ⟨by simp [Ledger.notify, Ledger.forget], by simp [Ledger.notify, Ledger.forget],
        hs.idle c (Or.inl hb)⟩
    · exact Or.inl (by simp [Ledger.notify, Ledger.forget, hc])
  cases hk : (s.blocks b).blockHash with
  | none =>
    refine ⟨_, ?_, hmv, hfade⟩
    simp only [Pool.evictLruOne, hk]
    exact (stripBlock_free h hheld).bump _
  | some k =>
    have h₁ := (stripBlock_free (h.popHash_none k) hheld).bump
      (fun t => { t with evictions := t.evictions + 1 })
    have hR : (R.orphan ∧ R.notify) ∨ ((a.forget b).notify b).NoOrphans k :=
      (hno k ((h.key b).symm.trans hk)).imp (fun hO => ⟨hO, hN⟩) hfade.evicted.noOrphans
    obtain ⟨a', ha', hm', hp'⟩ := cascade_refines h₁ (hmv.sound hs) hR
    refine ⟨a', ?_, hmv.trans hm', hfade.trans hp'.faded⟩
    simp only [Pool.evictLruOne, hk]
    exact ha'

/-- The loop skips no free block. -/
theorem evictable_of_free (h : Refines P s a) (hs : a.Sound 0) (hb : b ∈ a.free) :
    ¬ ((s.blocks b).refCount > 0 ∨ (s.blocks b).isNull = true) := by
  rw [h.refs, h.null]
  rintro (hr | rfl)
  · have := hs.idle b (Or.inl hb)
    omega
  · exact hs.freeHeld 0 hb hs.rootHeld

variable {bs : List Nat}

theorem evictLruLoop_refines (h : Refines P s a) (hs : a.Sound 0) (hN : R.notify) (num e : Int)
    (hb : ∀ b ∈ bs, b ∈ a.free)
    (hno : ∀ b ∈ bs.take (num - e).toNat, ∀ k, a.key b = some k → R.orphan ∨ a.NoOrphans k) :
    ∃ a', Refines P (Pool.evictLruLoop num bs e s).2 a' ∧ Moves R 0 a a' ∧ Faded a a' := by
  induction bs generalizing s a e with
  | nil => exact ⟨a, h, .refl, .refl a⟩
  | cons b bs ih =>
    by_cases he : e ≥ num
    · refine ⟨a, ?_, .refl, .refl a⟩
      simpa only [Pool.evictLruLoop, he, if_true] using h
    · have hfree := hb b (by simp)
      have hsucc : (num - e).toNat = (num - (e + 1)).toNat + 1 := by omega
      rw [hsucc, List.take_succ_cons] at hno
      obtain ⟨a₁, h₁, hm₁, hf₁⟩ := evictLruOne_refines h hs hN hfree (hno b (by simp))
      have hno₁ : ∀ c ∈ bs.take (num - (e + 1)).toNat, ∀ k, a₁.key c = some k →
          R.orphan ∨ a₁.NoOrphans k := by
        intro c hc k hk
        rcases hf₁.key c with hkey | hkey
        · exact (hno c (by simp [hc]) k (hkey.1 ▸ hk)).imp_right hf₁.evicted.noOrphans
        · rw [hkey.1] at hk
          cases hk
      obtain ⟨a₂, h₂, hm₂, hf₂⟩ := ih h₁ (hm₁.sound hs) (e + 1)
        (fun c hc => hf₁.free ▸ hb c (by simp [hc])) hno₁
      refine ⟨a₂, ?_, hm₁.trans hm₂, hf₁.trans hf₂⟩
      simp only [Pool.evictLruLoop, he, if_false]
      rw [if_neg (evictable_of_free h hs hfree)]
      exact h₂

theorem evictLruBlocksLocked_refines (h : Refines P s a) (hs : a.Sound 0) (hN : R.notify)
    (num : Int) (hno : ∀ b ∈ a.free.take num.toNat, ∀ k, a.key b = some k →
      R.orphan ∨ a.NoOrphans k) :
    ∃ a', Refines P (s.evictLruBlocksLocked num).2 a' ∧ Moves R 0 a a' ∧ Faded a a' := by
  rw [Pool.evictLruBlocksLocked, queueIds_eq h hs]
  exact evictLruLoop_refines h hs hN num 0 (fun _ hb => hb) (by simpa using hno)

/-! Where nothing is orphaned, only the evicted blocks change. -/

theorem evictLruOne_some (h : Refines P s a) (hs : a.Sound 0) (hb : b ∈ a.free) {k : BlockHash}
    (hk : (s.blocks b).blockHash = some k) (hno : a.NoOrphans k) :
    s.evictLruOne b = ((s.popHash k none).stripBlock b).bump (fun t => { t with evictions := t.evictions + 1 }) := by
  have hout : b ∉ a.held := hs.freeHeld b hb
  have h₁ := (stripBlock_free (h.popHash_none k) hout).bump (fun t => { t with evictions := t.evictions + 1 })
  have hno₁ : ((a.forget b).notify b).NoOrphans k := by
    intro k' c he hp
    have hcb : c ≠ b := by
      rintro rfl
      exact hout (hs.listed k' c he).1
    exact hno k' c he (by simpa [Ledger.notify, Ledger.forget, hcb] using hp)
  simp only [Pool.evictLruOne, hk, cascade_of_noOrphans h₁ hno₁]

/-- What holds of one eviction after another holds of the loop. -/
theorem evictLruLoop_along {T : Pool → List Nat → Pool → Prop} (hnil : ∀ s, T s [] s)
    (hcons : ∀ {s : Pool} {a : Ledger Nat BlockHash} {b : Nat} {ids : List Nat} {s' : Pool}, Refines P s a →
      a.Sound 0 → b ∈ a.free → (∀ k, a.key b = some k → a.NoOrphans k) → T (s.evictLruOne b) ids s' → T s (b :: ids) s')
    (h : Refines P s a) (hs : a.Sound 0) (num e : Int) (hb : ∀ b ∈ bs, b ∈ a.free)
    (hno : ∀ b ∈ bs.take (num - e).toNat, ∀ k, a.key b = some k → a.NoOrphans k) :
    T s (bs.take (num - e).toNat) (Pool.evictLruLoop num bs e s).2 := by
  induction bs generalizing s a e with
  | nil =>
    rw [List.take_nil]
    exact hnil s
  | cons b bs ih =>
    by_cases he : e ≥ num
    · rw [show (num - e).toNat = 0 by omega, List.take_zero]
      simp only [Pool.evictLruLoop, he, if_true]
      exact hnil s
    · have hfree := hb b (by simp)
      have hsucc : (num - e).toNat = (num - (e + 1)).toNat + 1 := by omega
      rw [hsucc, List.take_succ_cons] at hno ⊢
      obtain ⟨a₁, h₁, hm₁, hf₁⟩ := evictLruOne_refines h hs (R := Rules.any) trivial hfree
        (fun k hk => Or.inr (hno b (by simp) k hk))
      have hrest := ih h₁ (hm₁.sound hs) (e + 1) (fun c hc => hf₁.free ▸ hb c (by simp [hc])) (by
        intro c hc k hk
        rcases hf₁.key c with hkey | hkey
        · exact hf₁.evicted.noOrphans (hno c (by simp [hc]) k (hkey.1 ▸ hk))
        · rw [hkey.1] at hk
          cases hk)
      simp only [Pool.evictLruLoop, he, if_false]
      rw [if_neg (evictable_of_free h hs hfree)]
      exact hcons h hs hfree (hno b (by simp)) hrest

/-- From `a` to `a'` the block `b` went from the held ones to the back of the
queue, without key or entry. -/
structure Reclaimed (a a' : Ledger Nat BlockHash) (b : Nat) : Prop where
  free : a'.free = a.free ++ [b]
  held : a'.held = a.held \ {b}
  loose : a'.loose = a.loose
  refs : a'.refs = a.refs
  entries : a'.entries ⊆ a.entries
  unlisted : ∀ k, (k, b) ∉ a'.entries
  key : ∀ c, c ≠ b → a'.key c = a.key c ∧ a'.parent c = a.parent c
  gone : a'.key b = none ∧ a'.parent b = none

theorem Reclaimed.evicted (h : Reclaimed a a' b) : Evicted a a' := by
  refine ⟨h.loose, h.refs, h.held ▸ Set.sdiff_subset, h.entries, ?_⟩
  intro c
  by_cases hc : c = b
  · exact Or.inr (hc ▸ h.gone)
  · exact Or.inl (h.key c hc)

/-- Moving an unlisted held block without references to the queue. -/
theorem reclaim_moves (hs : a.Sound 0) (hb : b ∈ a.held) (hne : b ≠ 0)
    (hr : a.refs b ≤ 0) (hl : ∀ k, (k, b) ∉ a.entries) :
    Moves R 0 a (((a.drop b (a.refs b)).forget b).place [b]) ∧
      Reclaimed a (((a.drop b (a.refs b)).forget b).place [b]) b := by
  constructor
  · refine .head (.reclaim b hb hne hl hr) (.single (.place [b] (by simp) ?_))
    intro c hc
    rw [List.mem_singleton] at hc
    subst hc
    exact Set.mem_insert c _
  · refine ⟨rfl, rfl, ?_, ?_, subset_rfl, hl, ?_, ?_⟩
    · ext c
      have hout : c = b → c ∉ a.loose := fun hc => hc ▸ hs.heldLoose b hb
      simp only [Ledger.place, Ledger.forget, Ledger.drop, List.mem_singleton, Set.mem_sdiff,
        Set.mem_insert_iff, Set.mem_ofPred_eq]
      tauto
    · exact Function.update_eq_self b a.refs
    · intro c hc
      simp [Ledger.place, Ledger.forget, Ledger.drop, hc]
    · simp [Ledger.place, Ledger.forget, Ledger.drop]

/-- The ledger after a block gave up its entry, was told about and was reclaimed. -/
theorem unlist_reclaim (hs : a.Sound 0) (hN : R.notify) (hb : b ∈ a.held) (hne : b ≠ 0)
    (hr : a.refs b ≤ 0) {k : BlockHash} (hk : a.key b = some k) :
    Moves R 0 a (((((a.unlist k b).notify b).drop b (a.refs b)).forget b).place [b]) ∧
      Reclaimed a (((((a.unlist k b).notify b).drop b (a.refs b)).forget b).place [b]) b := by
  obtain ⟨hmv, hl⟩ := unlist_moves hs hN k b hk
  obtain ⟨hm, hrec⟩ := reclaim_moves (R := R) (hmv.sound hs) hb hne hr hl
  exact ⟨.head hmv hm, hrec.free, hrec.held, hrec.loose, hrec.refs,
    fun o ho => (hrec.entries ho).1, hrec.unlisted, hrec.key, hrec.gone⟩

theorem reclaimOne_refines (h : Refines P s a) (hs : a.Sound 0) (hN : R.notify)
    (hb : b ∈ a.held) (hne : b ≠ 0) (hr : a.refs b ≤ 0) :
    ∃ a', Refines P (s.reclaimOne b) a' ∧ Moves R 0 a a' ∧ Reclaimed a a' b := by
  have hfree : b ∉ a.free := fun hm => hs.freeHeld b hm hb
  cases hk : (s.blocks b).blockHash with
  | none =>
    have hkey := (h.key b).symm.trans hk
    have hmv : Move R 0 a (a.notify b) := .notify b hN
    obtain ⟨hm, hrec⟩ := reclaim_moves (R := R) (hmv.sound hs) hb hne hr
      (not_listed_of_key_none (a := a) hs hkey)
    refine ⟨_, ?_, .head hmv hm, hrec.free, hrec.held, hrec.loose, hrec.refs, hrec.entries,
      hrec.unlisted, hrec.key, hrec.gone⟩
    simp only [Pool.reclaimOne, hk]
    exact (((stripBlock_held h hb).bump _).enqueue hfree).bump _
  | some k =>
    obtain ⟨hm, hrec⟩ := unlist_reclaim hs hN hb hne hr ((h.key b).symm.trans hk)
    refine ⟨_, ?_, hm, hrec⟩
    simp only [Pool.reclaimOne, hk]
    exact (((stripBlock_held (h.popHash k b) hb).bump _).enqueue hfree).bump _

/-- After the head of an orderly list is reclaimed nothing hangs below it, and
the rest is orderly. -/
theorem Reclaimed.orderly (h : Reclaimed a a' b) (hnot : b ∉ bs)
    (ho : a.Orderly (b :: bs)) :
    (∀ k, a.key b = some k → a'.NoOrphans k) ∧ a'.Orderly bs := by
  have hcb : ∀ k' c, (k', c) ∈ a'.entries → c ≠ b := by
    rintro k' c he rfl
    exact h.unlisted k' he
  constructor
  · intro k hk k' c he hp
    have hne := hcb k' c he
    by_contra hle
    rw [h.refs] at hle
    rcases ho [] b bs rfl k hk k' c (h.entries he) ((h.key c hne).2 ▸ hp) (by omega) with hm | hm
    · cases hm
    · exact hne hm
  · intro l d r hbs k hk k' c he hp hr
    have hdb : d ≠ b := by
      rintro rfl
      exact hnot (hbs ▸ List.mem_append_right _ List.mem_cons_self)
    have hne := hcb k' c he
    rw [h.refs] at hr
    have := ho (b :: l) d r (by rw [hbs]; rfl) k ((h.key d hdb).1 ▸ hk) k' c (h.entries he)
      ((h.key c hne).2 ▸ hp) hr
    rcases this with hm | hm
    · exact Or.inl ((List.mem_cons.mp hm).resolve_left hne)
    · exact Or.inr hm

/-- Without orphans exactly the first candidates are reclaimed, one for each block
asked for. -/
theorem evictCachedLoop_refines (h : Refines P s a) (hs : a.Sound 0) (hN : R.notify) (num e : Int)
    (hnd : bs.Nodup) (hb : ∀ b ∈ bs, b ∈ a.held ∧ b ≠ 0 ∧ a.refs b ≤ 0)
    (ho : R.orphan ∨ a.Orderly (bs.take (num - e).toNat)) :
    ∃ a', Refines P (Pool.evictCachedLoop num bs e s).2 a' ∧ Moves R 0 a a' ∧ Evicted a a' ∧
      (a.Orderly (bs.take (num - e).toNat) → a'.free = a.free ++ bs.take (num - e).toNat) := by
  induction bs generalizing s a e with
  | nil => exact ⟨a, h, .refl, .refl a, by simp⟩
  | cons b bs ih =>
    by_cases he : e ≥ num
    · refine ⟨a, ?_, .refl, .refl a, ?_⟩
      · simpa only [Pool.evictCachedLoop, he, if_true] using h
      · intro _
        rw [show (num - e).toNat = 0 by omega]
        simp
    · obtain ⟨hnot, hnd'⟩ := List.nodup_cons.mp hnd
      obtain ⟨hheld, hne, hr⟩ := hb b (by simp)
      have hsucc : (num - e).toNat = (num - (e + 1)).toNat + 1 := by omega
      rw [hsucc, List.take_succ_cons] at ho ⊢
      have hnot' : b ∉ bs.take (num - (e + 1)).toNat := fun hm => hnot (List.mem_of_mem_take hm)
      obtain ⟨a₁, h₁, hm₁, hrec⟩ := reclaimOne_refines h hs hN hheld hne hr
      have hb₁ : ∀ c ∈ bs, c ∈ a₁.held ∧ c ≠ 0 ∧ a₁.refs c ≤ 0 := by
        intro c hc
        obtain ⟨hch, hc0, hcr⟩ := hb c (by simp [hc])
        rw [hrec.held, hrec.refs]
        refine ⟨⟨hch, ?_⟩, hc0, hcr⟩
        rintro rfl
        exact hnot hc
      cases hk : (s.blocks b).blockHash with
      | none =>
        obtain ⟨a₂, h₂, hm₂, hev₂, hfree⟩ := ih h₁ (hm₁.sound hs) (e + 1) hnd' hb₁
          (ho.imp_right (fun ho => (hrec.orderly hnot' ho).2))
        refine ⟨a₂, ?_, hm₁.trans hm₂, hrec.evicted.trans hev₂, ?_⟩
        · simp only [Pool.evictCachedLoop, he, if_false, hk]
          exact h₂
        · intro ho'
          rw [hfree (hrec.orderly hnot' ho').2, hrec.free]
          simp
      | some k =>
        have hkey := (h.key b).symm.trans hk
        by_cases hord : a.Orderly (b :: bs.take (num - (e + 1)).toNat)
        · have hcasc := cascade_of_noOrphans h₁ ((hrec.orderly hnot' hord).1 k hkey)
          obtain ⟨a₂, h₂, hm₂, hev₂, hfree⟩ := ih h₁ (hm₁.sound hs) (e + 1) hnd' hb₁
            (Or.inr (hrec.orderly hnot' hord).2)
          refine ⟨a₂, ?_, hm₁.trans hm₂, hrec.evicted.trans hev₂, ?_⟩
          · simp only [Pool.evictCachedLoop, he, if_false, hk, hcasc, Nat.cast_zero, add_zero]
            exact h₂
          · intro _
            rw [hfree (hrec.orderly hnot' hord).2, hrec.free]
            simp
        · have hO : R.orphan := ho.resolve_right hord
          obtain ⟨a₂, h₂, hm₂, hp₂⟩ := cascade_refines h₁ (hm₁.sound hs) (k := k)
            (Or.inl ⟨hO, hN⟩)
          have hb₂ : ∀ c ∈ bs, c ∈ a₂.held ∧ c ≠ 0 ∧ a₂.refs c ≤ 0 := by
            intro c hc
            rw [hp₂.held, hp₂.refs]
            exact hb₁ c hc
          obtain ⟨a₃, h₃, hm₃, hev₃, -⟩ := ih h₂ (hm₂.sound (hm₁.sound hs))
            (e + 1 + ((s.reclaimOne b).cascadeEvictOrphansLocked k).1) hnd' hb₂ (Or.inl hO)
          refine ⟨a₃, ?_, hm₁.trans (hm₂.trans hm₃),
            hrec.evicted.trans (hp₂.faded.evicted.trans hev₃), fun ho' => absurd ho' hord⟩
          simp only [Pool.evictCachedLoop, he, if_false, hk]
          exact h₃

theorem mem_evictionCandidates (h : Refines P s a) (b : Nat) :
    b ∈ s.evictionCandidates ↔ b ∈ a.held ∧ a.refs b ≤ 0 ∧ b ≠ 0 ∧ a.key b ≠ none := by
  rw [Pool.evictionCandidates, List.mem_insertionSort, List.mem_filter, ← h.held,
    decide_eq_true_eq, h.refs, h.null, h.key]

theorem evictionCandidates_nodup (h : Refines P s a) : s.evictionCandidates.Nodup :=
  (List.perm_insertionSort _ _).nodup_iff.mpr (h.nodup.filter _)

theorem evictCachedBlocksLocked_refines (h : Refines P s a) (hs : a.Sound 0) (hN : R.notify)
    (num : Int) (ho : R.orphan ∨ a.Orderly (s.evictionCandidates.take num.toNat)) :
    ∃ a', Refines P (s.evictCachedBlocksLocked num).2 a' ∧ Moves R 0 a a' ∧ Evicted a a' ∧
      (a.Orderly (s.evictionCandidates.take num.toNat) →
        a'.free = a.free ++ s.evictionCandidates.take num.toNat) := by
  by_cases hz : num ≤ 0
  · refine ⟨a, ?_, .refl, .refl a, ?_⟩
    · simpa only [Pool.evictCachedBlocksLocked, hz, if_true] using h
    · intro _
      rw [show num.toNat = 0 by omega]
      simp
  · have hb : ∀ b ∈ s.evictionCandidates, b ∈ a.held ∧ b ≠ 0 ∧ a.refs b ≤ 0 := by
      intro b hb
      obtain ⟨hh, hr, hne, -⟩ := (mem_evictionCandidates h b).mp hb
      exact ⟨hh, hne, hr⟩
    simp only [Pool.evictCachedBlocksLocked, hz, if_false]
    simpa using evictCachedLoop_refines h hs hN num 0 (evictionCandidates_nodup h) hb
      (by simpa using ho)

/-- The two stages of `handle_memory_pressure`; the answer is whether the queue is long
enough in the end. -/
theorem handleMemoryPressure_refines (h : Refines P s a) (hs : a.Sound 0) (hN : R.notify)
    (n : Int)
    (hlru : ∀ b ∈ a.free.take (n - a.free.length).toNat, ∀ k, a.key b = some k →
      R.orphan ∨ a.NoOrphans k)
    (hord : ∀ a₁, Refines P (s.evictLruBlocksLocked (n - a.free.length)).2 a₁ → Faded a a₁ →
      R.orphan ∨ a₁.Orderly ((s.evictLruBlocksLocked
        (n - a.free.length)).2.evictionCandidates.take (n - a.free.length).toNat)) :
    ∃ a', Refines P (s.handleMemoryPressure n).2 a' ∧ Moves R 0 a a' ∧ Evicted a a' ∧
      ((s.handleMemoryPressure n).1 = true ↔ n ≤ a'.free.length) ∧
      (n ≤ a.free.length ∨ ∃ a₁, Refines P (s.evictLruBlocksLocked (n - a.free.length)).2 a₁ ∧
        Faded a a₁ ∧ (a₁.Orderly ((s.evictLruBlocksLocked
          (n - a.free.length)).2.evictionCandidates.take (n - a.free.length).toNat) →
            a'.free = a.free ++ (s.evictLruBlocksLocked
              (n - a.free.length)).2.evictionCandidates.take (n - a.free.length).toNat)) := by
  have hnum := h.numFree
  by_cases hge : (a.free.length : Int) ≥ n
  · refine ⟨a, ?_, .refl, .refl a, ?_, Or.inl hge⟩
    · simp only [Pool.handleMemoryPressure, hnum]
      rw [if_pos hge]
      exact h
    · simp only [Pool.handleMemoryPressure, hnum]
      rw [if_pos hge]
      simpa using hge
  · obtain ⟨a₁, h₁, hm₁, hf₁⟩ := evictLruBlocksLocked_refines h hs hN (n - a.free.length) hlru
    have hnum₁ := h₁.numFree
    rw [hf₁.free] at hnum₁
    have hlt : ((a.free.length : Int) < n) := by omega
    obtain ⟨a₂, h₂, hm₂, hev₂, hfree⟩ := evictCachedBlocksLocked_refines h₁ (hm₁.sound hs) hN
      (n - a.free.length) (hord a₁ h₁ hf₁)
    have hnum₂ := h₂.numFree
    refine ⟨a₂, ?_, hm₁.trans hm₂, hf₁.evicted.trans hev₂, ?_, Or.inr ⟨a₁, h₁, hf₁, ?_⟩⟩
    · simp only [Pool.handleMemoryPressure, hnum]
      rw [if_neg hge]
      simp only [hnum₁]
      rw [if_pos hlt]
      exact h₂
    · simp only [Pool.handleMemoryPressure, hnum]
      rw [if_neg hge]
      simp only [hnum₁]
      rw [if_pos hlt, hnum₂]
      simp
    · intro ho
      rw [hfree ho, hf₁.free]

theorem dropEntry_refines (h : Refines P s a) (hs : a.Sound 0) (hN : R.notify) (b : Nat) :
    ∃ a', Refines P (s.dropEntry b) a' ∧ Moves R 0 a a' ∧ (∀ k, (k, b) ∉ a'.entries) ∧
      a'.free = a.free ∧ a'.held = a.held ∧ a'.refs = a.refs ∧ a'.loose = a.loose := by
  cases hk : (s.blocks b).blockHash with
  | none =>
    refine ⟨a, ?_, .refl, not_listed_of_key_none hs ((h.key b).symm.trans hk), rfl, rfl, rfl, rfl⟩
    simpa only [Pool.dropEntry, hk] using h
  | some k =>
    obtain ⟨hmv, hl⟩ := unlist_moves hs hN k b ((h.key b).symm.trans hk)
    refine ⟨_, ?_, .single hmv, hl, rfl, rfl, rfl, rfl⟩
    simp only [Pool.dropEntry, hk]
    exact (h.popHash k b).notify b

theorem requeue_free (h : Refines P s a) (hs : a.Sound 0) (hb : b ∈ a.free) :
    Refines P (s.requeue b) a := by
  have hout : b ∉ s.allocatedBlocks := fun hm => hs.freeHeld b hb ((h.held b).mpr hm)
  have hq : s.freeBlockQueue.isInQueue b = true := (h.queue.isInQueue_iff b).mpr hb
  simp only [Pool.requeue]
  rw [if_neg hout, if_pos hq]
  exact h

theorem requeue_held (h : Refines P s a) (hs : a.Sound 0) (hb : b ∈ a.held) :
    Refines P (s.requeue b) ((a.drop b (a.refs b)).place [b]) := by
  have hin : b ∈ s.allocatedBlocks := (h.held b).mp hb
  have hfree : b ∉ a.free := fun hm => hs.freeHeld b hm hb
  have hq : ¬ s.freeBlockQueue.isInQueue b = true := fun hm =>
    hfree ((h.queue.isInQueue_iff b).mp hm)
  have heq : a.drop b (a.refs b) = { a with held := a.held \ {b}, loose := insert b a.loose } := by
    simp only [Ledger.drop, Function.update_eq_self]
  simp only [Pool.requeue]
  rw [if_pos hin]
  split
  · next hm => exact absurd hm hq
  · rw [heq]
    exact (((h.delAllocated b).bump _).enqueue hfree).bump _

/-- `evict_block_permanently`, from a state with nothing in transit. -/
theorem evictBlockPermanently_refines (h : Refines P s a) (hs : a.Sound 0) (hN : R.notify)
    (hloose : a.loose = ∅) (b : Nat) :
    ∃ a', Refines P (s.evictBlockPermanently b).2 a' ∧ Moves R 0 a a' ∧ a'.loose = a.loose := by
  by_cases hc : ¬ b < s.currentAllocatedCount ∨ (s.blocks b).refCount > 0 ∨
      (s.blocks b).isNull = true
  · refine ⟨a, ?_, .refl, rfl⟩
    simp only [Pool.evictBlockPermanently]
    rw [if_pos hc]
    exact h
  simp only [Pool.evictBlockPermanently]
  rw [if_neg hc]
  rw [h.refs, h.null, ← h.made] at hc
  push Not at hc
  obtain ⟨hmade, hr, hne⟩ := hc
  have hplace := (hs.placed b).mp hmade
  rw [hloose] at hplace
  obtain ⟨c, hcr, hcm, hcl, hcf, hch, hcrefs, hcloose⟩ := dropEntry_refines h hs hN b
  have hsc := hcm.sound hs
  have hreset : Refines P ((s.dropEntry b).modify b
      (fun c => { c.resetHash with tokenCount := 0 })) (c.forget b) := hcr.reset b rfl rfl rfl rfl
  have hsf : (c.forget b).Sound 0 := hsc.forget hcl
  rcases hplace with hfree | hheld | hl
  · have hout : b ∉ c.held := hch ▸ hs.freeHeld b hfree
    have hin : b ∈ (c.forget b).free := hcf ▸ hfree
    refine ⟨c.forget b, ?_, hcm.tail (.forget b hout), hcloose⟩
    exact (requeue_free hreset hsf hin).bump (fun t => { t with evictions := t.evictions + 1 })
  · have hin : b ∈ c.held := hch ▸ hheld
    obtain ⟨hm, hrec⟩ := reclaim_moves (R := R) hsc hin hne (hcrefs ▸ hr) hcl
    refine ⟨_, ?_, hcm.trans hm, hrec.loose.trans hcloose⟩
    exact (requeue_held hreset hsf hin).bump (fun t => { t with evictions := t.evictions + 1 })
  · cases hl

end FusionMlx.EvictRefinement
