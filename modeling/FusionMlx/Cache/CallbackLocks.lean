import FusionMlx.Cache.InvalidationDelivery

/-!
# Locks held during a callback

Every public operation flushes after it has released its locks, except
`delete_block_table`, which calls the public `free_block` while it holds all
three.
-/
namespace FusionMlx.CallbackLocks

open BlockHashing BlockPool ResourceLedger FreeRefinement
open LookupRefinement PagedCacheManager ManagerRuns InvalidationDelivery Runs

variable {κ : Type} {P : Params κ} {m m' : Manager} {a a' : Ledger Nat BlockHash} {s : Pool}

structure Unlocked (m : Manager) : Prop where
  holds : m.holds = .none
  trace : ∀ d ∈ m.trace, d.holds = .none

theorem deliveries_holds {n : Nat} {l : LockHolds} {pending : List Nat} {d : Delivery}
    (hd : d ∈ deliveries n l pending) : d.holds = l := by
  obtain ⟨b, -, hd⟩ := List.mem_flatMap.mp hd
  obtain ⟨c, -, rfl⟩ := List.mem_map.mp hd
  rfl

theorem unlocked_flush (h : Unlocked m) : Unlocked m.flushContentInvalidated := by
  simp only [Manager.flushContentInvalidated]
  split
  · exact h
  · refine ⟨h.holds, fun d hd => ?_⟩
    rcases List.mem_append.mp hd with hd | hd
    · exact h.trace d hd
    · exact (deliveries_holds hd).trans h.holds

theorem unlocked_ends (h : Unlocked m) (he : Ends m s m') : Unlocked m' := by
  have hplain : Unlocked { m with pool := s } := ⟨h.holds, h.trace⟩
  cases he with
  | plain => exact hplain
  | flushed => exact unlocked_flush hplain

/-- `delete_block_table` has something to tell while it holds the locks. -/
def TellsUnderLocks (m : Manager) : Op κ → Prop
  | .deleteBlockTable r => 0 < m.callbacks ∧ ∃ t, m.pool.requestTables.get? r = some t ∧
      ((m.pool.pendingContentInvalidated ≠ [] ∧ ∃ b ∈ t.blockIds, b ∈ m.pool.allocatedBlocks) ∨
        ∃ b ∈ t.blockIds, b ∈ m.pool.allocatedBlocks ∧ b ≠ 0 ∧
          (m.pool.blocks b).refCount ≤ t.blockIds.count b ∧ (m.pool.blocks b).blockHash ≠ none)
  | _ => False

structure SameTrace (m m' : Manager) : Prop where
  holds : m'.holds = m.holds
  callbacks : m'.callbacks = m.callbacks
  trace : m'.trace = m.trace

theorem sameTrace_ends (he : Ends m s m')
    (hq : m.callbacks = 0 ∨ s.pendingContentInvalidated = []) : SameTrace m m' := by
  cases he with
  | plain => exact ⟨rfl, rfl, rfl⟩
  | flushed =>
    simp only [Manager.flushContentInvalidated]
    split
    · exact ⟨rfl, rfl, rfl⟩
    · next hn => exact absurd hq hn

theorem freeBlock_ends (m : Manager) (b : Nat) : ∃ s, Ends m s (m.freeBlock b).2 := by
  simp only [Manager.freeBlock]
  split
  · exact ⟨_, ends_thenFlush .all (fun s => s.freeBlock b) m⟩
  · exact ⟨m.pool, .plain⟩

theorem freeLoop_uncalled (ids : List Nat) (hc : m.callbacks = 0) :
    SameTrace m (ids.foldl (fun m b => (m.freeBlock b).2) m) := by
  induction ids generalizing m with
  | nil => exact ⟨rfl, rfl, rfl⟩
  | cons b ids ih =>
    obtain ⟨s, he⟩ := freeBlock_ends m b
    have h₁ := sameTrace_ends he (Or.inl hc)
    have h₂ := ih (m := (m.freeBlock b).2) (h₁.callbacks.trans hc)
    exact ⟨h₂.holds.trans h₁.holds, h₂.callbacks.trans h₁.callbacks, h₂.trace.trans h₁.trace⟩

theorem freeLoop_unknown {ids : List Nat} (hno : ∀ b ∈ ids, b ∉ m.pool.allocatedBlocks) :
    ids.foldl (fun m b => (m.freeBlock b).2) m = m := by
  induction ids with
  | nil => rfl
  | cons b ids ih =>
    rw [List.foldl_cons, freeBlock_unknown (hno b (by simp))]
    exact ih (fun c hc => hno c (by simp [hc]))

/-- Freeing blocks that carry no hash when their last reference goes makes nothing pending. -/
theorem freeLoop_silent {ids : List Nat} (h : Stands P m a)
    (hp : m.pool.pendingContentInvalidated = [])
    (hok : ∀ b ∈ ids, b ∈ a.held → b ≠ 0 → a.refs b ≤ ids.count b → MayFree silentRules a b) :
    SameTrace m (ids.foldl (fun m b => (m.freeBlock b).2) m) := by
  induction ids generalizing m a with
  | nil => exact ⟨rfl, rfl, rfl⟩
  | cons b ids ih =>
    rw [List.foldl_cons]
    by_cases hb : b ∈ m.pool.allocatedBlocks
    · obtain ⟨a₂, hends, hr₂, hm₂, hl₂, hok₂⟩ := freeBlock_step h hb hok
      have hp₂ : (m.pool.freeBlock b).2.pendingContentInvalidated = [] := by
        rw [hr₂.pending, hm₂.silent id, ← h.refines.pending, hp]
      have h₁ := sameTrace_ends hends (Or.inr hp₂)
      have hpool : (m.freeBlock b).2.pool = (m.pool.freeBlock b).2 := by
        generalize (m.freeBlock b).2 = m' at hends ⊢
        cases hends with
        | plain => rfl
        | flushed =>
          simp only [Manager.flushContentInvalidated]
          rw [if_pos (Or.inr hp₂)]
      have hst : Stands P (m.freeBlock b).2 a₂ :=
        ⟨hpool ▸ hr₂, hm₂.sound h.sound, hl₂.trans h.settled⟩
      have h₂ := ih hst (hpool ▸ hp₂) hok₂
      exact ⟨h₂.holds.trans h₁.holds, h₂.callbacks.trans h₁.callbacks, h₂.trace.trans h₁.trace⟩
    · rw [freeBlock_unknown hb]
      exact ih h hp (mayFree_tail h hb hok)

theorem deleteBlockTable_unlocked (h : Stands P m a) (hu : Unlocked m) (r : String)
    (hno : ¬ TellsUnderLocks m (.deleteBlockTable r : Op κ)) : Unlocked (m.deleteBlockTable r) := by
  have hst : Stands P { m with
      holds := m.holds.acquire .all, pool := (m.pool.detachRequestTable r).2 } a :=
    ⟨h.refines.same (detachRequestTable_same _ r), h.sound, h.settled⟩
  simp only [Manager.deleteBlockTable, Manager.withLocks, Manager.onPool, Pool.detachRequestTable]
  cases ht : m.pool.requestTables.get? r with
  | none => exact ⟨by simp only [LockHolds.release_acquire]; exact hu.holds, hu.trace⟩
  | some t =>
    have hsame : SameTrace { m with
        holds := m.holds.acquire .all, pool := (m.pool.detachRequestTable r).2 }
        (t.blockIds.foldl (fun m b => (m.freeBlock b).2) { m with
          holds := m.holds.acquire .all, pool := (m.pool.detachRequestTable r).2 }) := by
      by_cases hc : 0 < m.callbacks
      · by_cases hp : m.pool.pendingContentInvalidated = []
        · refine freeLoop_silent hst hp (fun b hb hheld hne hle => ?_)
          have hk : a.key b = none := by
            by_contra hk
            refine hno ⟨hc, t, ht, Or.inr ⟨b, hb, (h.refines.held b).mp hheld, hne, ?_, ?_⟩⟩
            · rw [h.refines.refs]
              exact hle
            · rw [h.refines.key]
              exact hk
          exact ⟨trivial, fun hne' => absurd hk hne', fun k hk' => by rw [hk] at hk'; cases hk'⟩
        · have hun : ∀ b ∈ t.blockIds, b ∉ m.pool.allocatedBlocks := fun b hb hm =>
            hno ⟨hc, t, ht, Or.inl ⟨hp, b, hb, hm⟩⟩
          have heq := freeLoop_unknown (m := { m with
            holds := m.holds.acquire .all, pool := (m.pool.detachRequestTable r).2 }) hun
          rw [heq]
          exact ⟨rfl, rfl, rfl⟩
      · exact freeLoop_uncalled t.blockIds (by dsimp only; omega)
    refine ⟨?_, fun d hd => hu.trace d (hsame.trace ▸ hd)⟩
    have hh := congrArg (fun l => LockHolds.release l .all) hsame.holds
    simp only [LockHolds.release_acquire] at hh
    exact hh.trans hu.holds

theorem exec_unlocked (h : Stands P m a) (hu : Unlocked m) (op : Op κ) (hwf : op.WellFormed m)
    (hno : ¬ TellsUnderLocks m op) : Unlocked (exec P m op) := by
  rcases exec_moves h op hwf (allowed_any P m a op) with ⟨s, a', he, -⟩ | rfl | ⟨r, rfl⟩ | rfl | rfl
  · exact unlocked_ends hu he
  · exact ⟨hu.holds, hu.trace⟩
  · exact deleteBlockTable_unlocked h hu r hno
  · exact unlocked_ends hu (ends_locked ⟨0, 1, 1⟩ (fun s => s.resetPrefixCache P) m)
  · exact unlocked_ends hu (ends_locked .all (fun s => s.clear P) m)

/-- As long as no `delete_block_table` has anything to tell, no callback ever
ran while the calling thread held one of the locks. -/
theorem callbacks_unlocked (h : Reachable P (fun m op => ¬ TellsUnderLocks m op) m) :
    m.holds = .none ∧ ∀ d ∈ m.trace, d.holds = .none := by
  have hinv := h.invariant (I := fun m => 0 < min P.initialBlocks P.maxBlocks ∧
      (∃ a, Stands P m a) ∧ Unlocked m) ?_ ?_
  · exact ⟨hinv.2.2.holds, hinv.2.2.trace⟩
  · intro m hm
    refine ⟨(stands_init hm).2, ⟨_, (stands_init hm).1⟩, ?_⟩
    simp only [Manager.init] at hm
    cases hs : Pool.init P with
    | error e =>
      rw [hs] at hm
      cases hm
    | ok s =>
      rw [hs] at hm
      cases hm
      exact ⟨rfl, fun d hd => by cases hd⟩
  · rintro m op - ⟨hpos, ⟨a, hst⟩, hu⟩ ⟨hwf, hno⟩
    obtain ⟨a', hst', -⟩ := exec_keeps (steady_true Rules.any) hpos hst trivial op hwf
      (allowed_any P m a op)
    exact ⟨hpos, ⟨a', hst'⟩, exec_unlocked hst hu op hwf hno⟩

def tabled : List (Op Int) :=
  [.registerBlockFreedCallback, .allocateBlock, .createBlockTable "r",
    .addBlockToTable (.tracked "r") 1 1, .cacheFullBlocks [1] [7] 0 1 none]

theorem callbacks_unlocked_tabled :
    ((tinyRun 1 tabled).freeBlock 1).2.holds = .none ∧
      ∀ d ∈ ((tinyRun 1 tabled).freeBlock 1).2.trace, d.holds = .none := by
  have hrun := reachable_tinyRun (C := fun m op => ¬ TellsUnderLocks m op) 1 tabled
    ⟨⟨trivial, id⟩, ⟨trivial, id⟩, ⟨trivial, id⟩, ⟨trivial, id⟩,
      ⟨show ∀ b ∈ [1], b ∈ _ by decide +kernel, id⟩, trivial⟩
  have hstep := Reached.step (.freeBlock 1 : Op Int) hrun ⟨trivial, id⟩
  exact callbacks_unlocked hstep

/-- Deleting that table calls back with all three locks held. -/
theorem delete_calls_back_locked :
    Reachable (tiny 1) (fun _ _ => True) (tinyRun 1 tabled) ∧
    (tinyRun 1 tabled).holds = .none ∧
    ((tinyRun 1 tabled).deleteBlockTable "r").trace = [⟨0, 1, ⟨1, 1, 1⟩⟩] := by
  refine ⟨reachable_tinyRun 1 tabled ?_, by decide +kernel, by decide +kernel⟩
  exact ⟨⟨trivial, trivial⟩, ⟨trivial, trivial⟩, ⟨trivial, trivial⟩, ⟨trivial, trivial⟩,
    ⟨show ∀ b ∈ [1], b ∈ _ by decide +kernel, trivial⟩, trivial⟩

end FusionMlx.CallbackLocks
