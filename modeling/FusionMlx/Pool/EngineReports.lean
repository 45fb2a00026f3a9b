import FusionMlx.Pool.EngineAccounts
import Mathlib.Algebra.Ring.Int.Defs

/-!
# What the enforcer is told, what is removed, what is admitted

The other promises of the engine pool's accounts, each under its own condition,
and all of them together.
-/
namespace FusionMlx.EngineMemory

open OrderedDict Runs

variable {cfg : Config}

namespace Pool

/-- The enforcer has been told what is counted. -/
def Agrees (s : Pool) : Prop := s.currentModelMemory = s.deltas.sum

variable {s s' : Pool}

theorem Agrees.frame (h : Agrees s) (hm : s'.currentModelMemory = s.currentModelMemory)
    (hd : s'.deltas = s.deltas) : Agrees s' := by
  unfold Agrees
  rw [hm, hd]
  exact h

/-- What is added to the counter is told. -/
theorem Agrees.tell (h : Agrees s) {d : Int} (hm : s'.currentModelMemory = s.currentModelMemory + d)
    (hd : s'.deltas = s.deltas ++ [d]) : Agrees s' := by
  unfold Agrees at h ⊢
  rw [hm, hd, List.sum_append, h, List.sum_singleton]

theorem Agrees.update (h : Agrees s) (k : Key) (f : Entry → Entry) : Agrees (s.update k f) :=
  h.frame (update_fields s k f).2.2.1 (update_fields s k f).2.1

variable {k : Key}

theorem Agrees.teardown (h : Agrees s) (hw : ¬ s.Weighs k) : Agrees (s.teardown k) := by
  refine h.frame ?_ (teardown_fields s k).2.1
  unfold Pool.teardown
  split
  · rfl
  · rename_i e he
    split
    · rfl
    · rename_i x hx
      have hzero : e.estimatedSize = 0 := by
        by_contra hne
        exact hw ⟨e, x, he, hx, hne⟩
      dsimp only
      rw [hzero]
      omega

theorem Agrees.unloadEngineAsync (h : Agrees s) (hw : s.defers k = false → ¬ s.Weighs k) :
    Agrees (s.unloadEngineAsync k) := by
  unfold Pool.unloadEngineAsync
  split
  · exact h.update k _
  · rename_i hd
    exact h.teardown (hw (Bool.eq_false_iff.mpr hd))

theorem weighs_returnLease (h : (s.returnLease k).Weighs k) : s.Weighs k := by
  obtain ⟨v, x, hget, hx, hne⟩ := h
  unfold Pool.returnLease at hget
  rw [get?_update, if_pos rfl] at hget
  obtain ⟨e, he, rfl⟩ := Option.map_eq_some_iff.mp hget
  exact ⟨e, x, he, hx, hne⟩

theorem Agrees.reconcile (h : Agrees s) (activeMem phys : Nat) : Agrees (s.reconcile activeMem phys) := by
  unfold Pool.reconcile
  dsimp only
  split
  · exact h
  · refine h.tell ?_ rfl
    dsimp only
    omega

theorem reconcile_entries (s : Pool) (activeMem phys : Nat) : (s.reconcile activeMem phys).entries = s.entries ∧
    (s.reconcile activeMem phys).running = s.running ∧ (s.reconcile activeMem phys).removed = s.removed ∧
      (s.reconcile activeMem phys).started = s.started := by
  unfold Pool.reconcile
  dsimp only
  split <;> exact ⟨rfl, rfl, rfl, rfl⟩

/-- A request changes nothing that is counted, told, removed or started. -/
theorem getEngine_fields (s : Pool) (c : Call) : (s.getEngine c).currentModelMemory = s.currentModelMemory ∧
    (s.getEngine c).deltas = s.deltas ∧ (s.getEngine c).removed = s.removed ∧ (s.getEngine c).started = s.started := by
  have hsame : s.currentModelMemory = s.currentModelMemory ∧ s.deltas = s.deltas ∧ s.removed = s.removed ∧
      s.started = s.started := ⟨rfl, rfl, rfl, rfl⟩
  unfold Pool.getEngine
  split
  · split <;> exact hsame
  · split
    · exact hsame
    · split
      · exact hsame
      · split
        · split <;> exact hsame
        · split
          · exact ⟨(update_fields ..).2.2.1, (update_fields ..).2.1, (update_fields ..).2.2.2.1,
              (update_fields ..).2.2.2.2⟩
          · exact hsame

theorem Agrees.prepare (h : Agrees s) {ceiling : Nat}
    (hw : ∀ k, s.tornDown (.prepare ceiling) = some k → ¬ s.Weighs k) : Agrees (s.prepare cfg ceiling) := by
  unfold Pool.prepare
  split
  · rename_i k v victims lease hstage
    have hunloaded : Agrees (s.unloadEngineAsync v) :=
      h.unloadEngineAsync fun hd => hw v (by simp [tornDown, hstage, hd])
    exact hunloaded.frame rfl rfl
  · split
    · exact h.frame rfl rfl
    · exact h.frame rfl rfl
  · exact h

variable {victim : Option Key}

theorem Agrees.admission (h : Agrees s) {activeMem phys : Nat}
    (hw : ∀ k, s.tornDown (.admission activeMem phys victim) = some k → ¬ s.Weighs k) :
    Agrees (s.admission activeMem phys victim) := by
  have hreconciled := h.reconcile activeMem phys
  unfold Pool.admission
  split
  · rename_i k left needed ceiling lease hstage
    dsimp only
    split
    · exact hreconciled.frame rfl rfl
    · rename_i habove
      split
      · rename_i v
        split
        · rename_i hv
          have hlt : (ceiling : Int) < s.currentUsage activeMem phys + needed := by omega
          have hno : ¬ (s.reconcile activeMem phys).Weighs v := by
            unfold Weighs
            rw [(reconcile_entries s activeMem phys).1]
            exact hw v (by simp [tornDown, evicts, hstage, hv, hlt])
          split
          · exact (hreconciled.teardown hno).frame rfl rfl
          · exact (hreconciled.teardown hno).frame rfl rfl
        · exact h
      · exact hreconciled.frame rfl rfl
  · exact h

theorem Agrees.next (h : Agrees s) {op : Operation} (hc : s.Told op) : Agrees (s.next cfg op) := by
  obtain ⟨hw, hop⟩ := hc
  unfold Pool.next
  split
  · exact h
  · rename_i hopen
    cases op with
    | register k x size =>
      have hzero := hop (idle_of_open hopen rfl)
      refine h.frame ?_ rfl
      simp only [perform, registerEntry]
      rw [hzero]
      omega
    | registerAudio k => exact h.frame rfl rfl
    | unload k stop =>
      dsimp only [perform]
      unfold Pool.unloadEngine
      split
      · exact h
      · split
        · exact h
        · exact h.tell (by dsimp only; omega) rfl
    | unregister k stop =>
      dsimp only [perform]
      unfold Pool.unregisterEngine
      split
      · exact h
      · split
        · exact h.frame rfl rfl
        · exact h.tell (by dsimp only; omega) rfl
    | unloadAsync k =>
      have hidle := idle_of_open hopen rfl
      exact h.unloadEngineAsync fun hd => hw k (by simp [tornDown, hidle, hd])
    | release k =>
      have hidle := idle_of_open hopen rfl
      dsimp only [perform]
      unfold Pool.releaseEngine
      split
      · rename_i hdrains
        apply Agrees.teardown (h.update k _)
        exact fun hweighs => hw k (by simp [tornDown, hidle, hdrains]) (weighs_returnLease hweighs)
      · exact h.update k _
    | unloadIfIdle k | unloadPending k | evict k =>
      have hidle := idle_of_open hopen rfl
      dsimp only [perform, Pool.unloadIfIdleUnpinned, Pool.unloadPendingIfIdle, Pool.evict]
      split
      · rename_i hunload
        exact h.teardown (hw k (by simp [tornDown, hidle, hunload]))
      · exact h
    | discover found removeStale => cases removeStale <;> exact h.frame rfl rfl
    | removeEntry k =>
      dsimp only [perform]
      split
      · exact h.frame rfl rfl
      · exact h
    | getEngine c => exact h.frame (getEngine_fields s c).1 (getEngine_fields s c).2.1
    | project activeMem phys => exact h.reconcile activeMem phys
    | prepare ceiling => exact h.prepare hw
    | admission activeMem phys victim => exact h.admission hw
    | unloadOther k =>
      dsimp only [perform]
      unfold Pool.unloadOtherDflash
      split
      · rename_i hother
        exact h.unloadEngineAsync fun hd => hw k (by simp [tornDown, hother, hd])
      · exact h
    | load outcome =>
      dsimp only [perform]
      unfold Pool.loadEngine
      split
      · split
        · exact h.frame rfl rfl
        · cases outcome with
          | loaded observed dflash => exact h.tell rfl rfl
          | rejected => exact h.frame rfl rfl
          | failed =>
            dsimp only
            split <;> exact h.frame rfl rfl
          | failedLate => exact h.frame rfl rfl
      · exact h
    | pin k pinned anePinned | markPending k => exact h.update k _
    | engine x running active dead => exact h.frame rfl rfl

def NoneLive (s : Pool) : Prop := ∀ r ∈ s.removed, r.live = false

theorem NoneLive.frame (h : NoneLive s) (hr : s'.removed = s.removed) : NoneLive s' := by
  unfold NoneLive
  rw [hr]
  exact h

theorem NoneLive.append (h : NoneLive s) {more : List Removal} (hr : s'.removed = s.removed ++ more)
    (hmore : ∀ r ∈ more, r.live = false) : NoneLive s' := by
  intro r hmem
  rw [hr] at hmem
  rcases List.mem_append.mp hmem with hold | hnew
  · exact h r hold
  · exact hmore r hnew

theorem live_of_free (h : ∀ e, s.entries.get? k = some e → e.engine = none) : s.live k = false := by
  unfold live
  split
  · rfl
  · rename_i e he
    rw [h e he]
    rfl

theorem NoneLive.drop (h : NoneLive s) (hk : s.live k = false) : NoneLive (s.drop k) :=
  h.append rfl fun r hr => by
    rw [List.mem_singleton.mp hr]
    exact hk

theorem NoneLive.teardown (h : NoneLive s) (hk : ¬ s.RunningAdapter k) :
    NoneLive (s.teardown k) := by
  unfold Pool.teardown
  split
  · exact h
  · rename_i e he
    split
    · exact h
    · rename_i x hx
      refine h.append rfl fun r hr => ?_
      obtain ⟨k', hk', rfl⟩ := List.mem_map.mp hr
      have hstale := (List.mem_filter.mp hk').2
      dsimp only
      unfold live
      dsimp only
      rw [Dict.get?_mapValues]
      cases he' : s.entries.get? k' with
      | none => rfl
      | some e' =>
        simp only [Option.map_some]
        unfold clearEngine
        split
        · rfl
        · split
          · rfl
          · rename_i hne
            cases hy : e'.engine with
            | none => rfl
            | some y =>
              have hyx : y ≠ x := fun heq => hne (by rw [hy, heq])
              have hidle : s.running y = false := by
                rw [Bool.eq_false_iff]
                exact fun hrun => hk ⟨e, x, k', e', y, he, hx, hstale, he', hy, hyx, hrun⟩
              simp [hyx, hidle]

theorem NoneLive.unloadEngineAsync (h : NoneLive s)
    (hk : s.defers k = false → ¬ s.RunningAdapter k) : NoneLive (s.unloadEngineAsync k) := by
  unfold Pool.unloadEngineAsync
  split
  · exact h.frame (update_fields ..).2.2.2.1
  · rename_i hd
    exact h.teardown (hk (Bool.eq_false_iff.mpr hd))

theorem runningAdapter_returnLease (h : (s.returnLease k).RunningAdapter k) :
    s.RunningAdapter k := by
  have hback : ∀ k' v, (s.returnLease k).entries.get? k' = some v → ∃ e', s.entries.get? k' = some e' ∧
      e'.engine = v.engine := by
    intro k' v hget
    unfold Pool.returnLease at hget
    rw [get?_update] at hget
    split at hget
    · rename_i hk
      obtain ⟨e', he', rfl⟩ := Option.map_eq_some_iff.mp hget
      exact ⟨e', by rw [hk]; exact he', rfl⟩
    · exact ⟨v, hget, rfl⟩
  obtain ⟨v, x, k', v', y, hv, hx, hstale, hv', hy, hne, hrun⟩ := h
  obtain ⟨e, he, hengine⟩ := hback k v hv
  obtain ⟨e', he', hengine'⟩ := hback k' v' hv'
  have hrunning : (s.returnLease k).running = s.running := by
    unfold Pool.returnLease Pool.update
    split <;> rfl
  exact ⟨e, x, k', e', y, he, hengine.trans hx, hstale, he', hengine'.trans hy, hne, by rw [← hrunning]; exact hrun⟩

theorem live_stopEngine {e : Entry} {x : Nat} (he : s.entries.get? k = some e)
    (hx : e.engine = some x) {stop : Stop} (h : stop = .done ∨ s.live k = false) :
    (s.stopEngine x stop).live k = false := by
  have hlive : s.live k = s.running x := by simp [live, he, hx]
  rcases h with rfl | h
  · simp [live, stopEngine, he, hx]
  · rw [hlive] at h
    cases stop <;> simp [live, stopEngine, he, hx, h]

theorem NoneLive.mergeDiscovered (h : NoneLive s) (found : List Found) (removeStale : Bool) :
    NoneLive (s.mergeDiscovered found removeStale) := by
  unfold Pool.mergeDiscovered
  dsimp only
  split
  · refine h.append rfl fun r hr => ?_
    obtain ⟨k, hk, rfl⟩ := List.mem_map.mp hr
    exact live_of_free fun e he => stale_free he (List.mem_filter.mp hk).2
  · exact h.frame rfl

theorem NoneLive.prepare (h : NoneLive s) {ceiling : Nat}
    (hk : ∀ k, s.tornDown (.prepare ceiling) = some k → ¬ s.RunningAdapter k) : NoneLive (s.prepare cfg ceiling) := by
  unfold Pool.prepare
  split
  · rename_i k v victims lease hstage
    have hunloaded : NoneLive (s.unloadEngineAsync v) :=
      h.unloadEngineAsync fun hd => hk v (by simp [tornDown, hstage, hd])
    exact hunloaded.frame rfl
  · split
    · exact h.frame rfl
    · exact h.frame rfl
  · exact h

theorem NoneLive.admission (h : NoneLive s) {activeMem phys : Nat}
    (hk : ∀ k, s.tornDown (.admission activeMem phys victim) = some k → ¬ s.RunningAdapter k) :
    NoneLive (s.admission activeMem phys victim) := by
  obtain ⟨hentries, hrunning, hremoved, -⟩ := reconcile_entries s activeMem phys
  have hreconciled : NoneLive (s.reconcile activeMem phys) := h.frame hremoved
  unfold Pool.admission
  split
  · rename_i k left needed ceiling lease hstage
    dsimp only
    split
    · exact hreconciled.frame rfl
    · rename_i habove
      split
      · rename_i v
        split
        · rename_i hv
          have hlt : (ceiling : Int) < s.currentUsage activeMem phys + needed := by omega
          have hno : ¬ (s.reconcile activeMem phys).RunningAdapter v := by
            unfold RunningAdapter
            rw [hentries, hrunning]
            exact hk v (by simp [tornDown, evicts, hstage, hv, hlt])
          split
          · exact (hreconciled.teardown hno).frame rfl
          · exact (hreconciled.teardown hno).frame rfl
        · exact h
      · exact hreconciled.frame rfl
  · exact h

theorem NoneLive.next (h : NoneLive s) {op : Operation} (hc : s.Quiet op) : NoneLive (s.next cfg op) := by
  obtain ⟨hk, hop⟩ := hc
  unfold Pool.next
  split
  · exact h
  · rename_i hopen
    cases op with
    | register k x size | registerAudio k => exact h.frame rfl
    | unload k stop =>
      dsimp only [perform]
      unfold Pool.unloadEngine
      split
      · exact h
      · split
        · exact h
        · exact h.frame (stopEngine_fields ..).2.2.2
    | unregister k stop =>
      have hstop := hop (idle_of_open hopen rfl)
      dsimp only [perform]
      unfold Pool.unregisterEngine
      split
      · exact h
      · rename_i e he
        split
        · rename_i hx
          exact h.drop (live_of_free fun e' he' => by rw [he] at he'; cases he'; exact hx)
        · rename_i x hx
          have hstopped : NoneLive (s.stopEngine x stop) := h.frame (stopEngine_fields ..).2.2.2
          exact (hstopped.drop (live_stopEngine he hx hstop)).frame rfl
    | unloadAsync k =>
      have hidle := idle_of_open hopen rfl
      exact h.unloadEngineAsync fun hd => hk k (by simp [tornDown, hidle, hd])
    | release k =>
      have hidle := idle_of_open hopen rfl
      have hleased : NoneLive (s.returnLease k) := h.frame (update_fields ..).2.2.2.1
      dsimp only [perform]
      unfold Pool.releaseEngine
      split
      · rename_i hdrains
        apply hleased.teardown
        exact fun hrun => hk k (by simp [tornDown, hidle, hdrains]) (runningAdapter_returnLease hrun)
      · exact hleased
    | unloadIfIdle k | unloadPending k | evict k =>
      have hidle := idle_of_open hopen rfl
      dsimp only [perform, Pool.unloadIfIdleUnpinned, Pool.unloadPendingIfIdle, Pool.evict]
      split
      · rename_i hunload
        exact h.teardown (hk k (by simp [tornDown, hidle, hunload]))
      · exact h
    | discover found removeStale => exact h.mergeDiscovered found removeStale
    | removeEntry k =>
      dsimp only [perform]
      split
      · exact h.drop (hop (idle_of_open hopen rfl))
      · exact h
    | getEngine c => exact h.frame (getEngine_fields s c).2.2.1
    | project activeMem phys => exact h.frame (reconcile_entries ..).2.2.1
    | prepare ceiling => exact h.prepare hk
    | admission activeMem phys victim => exact h.admission hk
    | unloadOther k =>
      dsimp only [perform]
      unfold Pool.unloadOtherDflash
      split
      · rename_i hother
        exact h.unloadEngineAsync fun hd => hk k (by simp [tornDown, hother, hd])
      · exact h
    | load outcome =>
      dsimp only [perform]
      unfold Pool.loadEngine
      split
      · split
        · exact h.frame rfl
        · rename_i e he
          cases outcome with
          | loaded observed dflash => exact h.frame rfl
          | rejected => exact h.frame rfl
          | failed =>
            dsimp only
            split
            · rename_i hshell
              simp only [Bool.and_eq_true] at hshell
              have hfree : e.engine = none := by simpa using hshell.1.2
              exact (h.drop (live_of_free fun e' he' => by rw [he] at he'; cases he'; exact hfree)).frame rfl
            · exact h.frame rfl
          | failedLate => exact h.frame rfl
      · exact h
    | pin k pinned anePinned | markPending k => exact h.frame (update_fields ..).2.2.2.1
    | engine x running active dead => exact h.frame rfl

/-- Every load was started with its last projection below the ceiling. -/
def Fits (s : Pool) : Prop := ∀ a ∈ s.started, a.projected ≤ a.ceiling

theorem Fits.frame (h : Fits s) (hs : s'.started = s.started) : Fits s' := by
  unfold Fits
  rw [hs]
  exact h

theorem Fits.startLoad (h : Fits s) (k : Key) (lease : Bool) {a : Option Admission}
    (ha : ∀ b, a = some b → b.projected ≤ b.ceiling) : Fits (s.startLoad k lease a) := by
  intro b hb
  rcases List.mem_append.mp hb with hold | hnew
  · exact h b hold
  · exact ha b (Option.mem_toList.mp hnew)

theorem unloadEngineAsync_started (s : Pool) (k : Key) : (s.unloadEngineAsync k).started = s.started := by
  unfold Pool.unloadEngineAsync
  split
  · exact (update_fields ..).2.2.2.2
  · exact (teardown_fields s k).2.2

theorem Fits.admission (h : Fits s) {activeMem phys : Nat}
    (hc : s.Admitted (.admission activeMem phys victim)) : Fits (s.admission activeMem phys victim) := by
  have hreconciled : Fits (s.reconcile activeMem phys) := h.frame (reconcile_entries s activeMem phys).2.2.2
  unfold Pool.admission
  split
  · rename_i k left needed ceiling lease hstage
    dsimp only
    split
    · rename_i hbelow
      apply hreconciled.startLoad
      intro b hb
      cases hb
      exact hbelow
    · rename_i habove
      split
      · rename_i v
        split
        · rename_i hv
          have hlt : (ceiling : Int) < s.currentUsage activeMem phys + needed := by omega
          have hleft : 1 < left := hc (by simp [evicts, hstage, hv, hlt]) k left needed ceiling lease hstage
          rw [if_neg (by omega)]
          exact hreconciled.frame (teardown_fields ..).2.2
        · exact h
      · exact hreconciled.frame rfl
  · exact h

theorem Fits.next (h : Fits s) {op : Operation} (hc : s.Admitted op) : Fits (s.next cfg op) := by
  unfold Pool.next
  split
  · exact h
  · cases op with
    | register k x size | registerAudio k => exact h.frame rfl
    | unload k stop =>
      dsimp only [perform]
      unfold Pool.unloadEngine
      split
      · exact h
      · split
        · exact h
        · exact h.frame (by cases stop <;> rfl)
    | unregister k stop =>
      dsimp only [perform]
      unfold Pool.unregisterEngine
      split
      · exact h
      · split
        · exact h.frame rfl
        · exact h.frame (by cases stop <;> rfl)
    | unloadAsync k => exact h.frame (unloadEngineAsync_started s k)
    | release k =>
      have hleased : Fits (s.returnLease k) := h.frame (update_fields ..).2.2.2.2
      dsimp only [perform]
      unfold Pool.releaseEngine
      split
      · exact hleased.frame (teardown_fields ..).2.2
      · exact hleased
    | unloadIfIdle k | unloadPending k | evict k =>
      dsimp only [perform, Pool.unloadIfIdleUnpinned, Pool.unloadPendingIfIdle, Pool.evict]
      split
      · exact h.frame (teardown_fields ..).2.2
      · exact h
    | discover found removeStale => cases removeStale <;> exact h.frame rfl
    | removeEntry k =>
      dsimp only [perform]
      split
      · exact h.frame rfl
      · exact h
    | getEngine c => exact h.frame (getEngine_fields s c).2.2.2
    | project activeMem phys => exact h.frame (reconcile_entries ..).2.2.2
    | prepare ceiling =>
      dsimp only [perform]
      unfold Pool.prepare
      split
      · exact h.frame (unloadEngineAsync_started ..)
      · split
        · exact h.startLoad _ _ (by rintro _ ⟨⟩)
        · exact h.frame rfl
      · exact h
    | admission activeMem phys victim => exact h.admission hc
    | unloadOther k =>
      dsimp only [perform]
      unfold Pool.unloadOtherDflash
      split
      · exact h.frame (unloadEngineAsync_started s k)
      · exact h
    | load outcome =>
      dsimp only [perform]
      unfold Pool.loadEngine
      split
      · split
        · exact h.frame rfl
        · cases outcome with
          | loaded observed dflash => exact h.frame rfl
          | rejected => exact h.frame rfl
          | failed =>
            dsimp only
            split <;> exact h.frame rfl
          | failedLate => exact h.frame rfl
      · exact h
    | pin k pinned anePinned | markPending k => exact h.frame (update_fields ..).2.2.2.2
    | engine x running active dead => exact h.frame rfl

theorem exact_empty : Exact {} where
  counter := rfl
  seen _ _ _ hget := nomatch hget

/-- Each promise holds in every state of every run whose operations meet its condition. -/
theorem accounts (cfg : Config) (s : Pool) :
    (Reached (· = {}) Counted (next cfg) s → s.currentModelMemory = s.attachedSize ∧ 0 ≤ s.currentModelMemory) ∧
    (Reached (· = {}) Told (next cfg) s → s.currentModelMemory = s.deltas.sum) ∧
    (Reached (· = {}) Quiet (next cfg) s → ∀ r ∈ s.removed, r.live = false) ∧
    (Reached (· = {}) Admitted (next cfg) s → ∀ a ∈ s.started, a.projected ≤ a.ceiling) := by
  refine ⟨fun h => ?_, fun h => ?_, fun h => ?_, fun h => ?_⟩
  · have hexact : Exact s ∧ Ready s := h.invariant (I := fun s => Exact s ∧ Ready s)
      (fun _ hs => by rw [hs]; exact ⟨exact_empty, trivial⟩)
      fun _ _ _ hi hc => hi.1.next hi.2 hc
    refine ⟨hexact.1.counter, ?_⟩
    rw [hexact.1.counter]
    exact Int.natCast_nonneg _
  · exact h.invariant (I := Agrees) (fun _ hs => by rw [hs]; rfl) fun _ _ _ hi hc => hi.next hc
  · exact h.invariant (I := NoneLive) (fun _ hs => by rw [hs]; exact fun r hr => nomatch hr)
      fun _ _ _ hi hc => hi.next hc
  · exact h.invariant (I := Fits) (fun _ hs => by rw [hs]; exact fun a ha => nomatch ha)
      fun _ _ _ hi hc => hi.next hc

def swapping : List Operation :=
  [.discover [⟨['m'], 8, false⟩, ⟨['n'], 12, false⟩] true, .getEngine { key := ['m'], lease := true }, .prepare 100,
    .admission 10 20 none, .load (.loaded 9 false), .release ['m'], .unload ['m'] .done, .getEngine { key := ['n'] },
    .prepare 100, .admission 10 20 none, .load (.loaded 0 false)]

theorem swapping_conditions : AllOk (fun s op => Counted s op ∧ Told s op ∧ Quiet s op ∧ Admitted s op)
    (next ⟨fun _ => 4⟩) {} swapping := by
  refine ⟨?_, ?_, ?_, ?_, ?_, ?_, ⟨⟨fun k hk => (nomatch hk), fun _ e p he hp => ?_⟩, ?_⟩, ?_, ?_, ?_, ?_, trivial⟩
  case refine_7 =>
    refine .inr fun hother => ?_
    rw [heldElsewhere_iff] at hother
    exact nomatch hother
  all_goals
    first
    | exact ⟨⟨fun k hk => (nomatch hk), trivial⟩, ⟨fun k hk => (nomatch hk), trivial⟩,
        ⟨fun k hk => (nomatch hk), trivial⟩, trivial⟩
    | exact ⟨⟨fun k hk => (nomatch hk), trivial⟩, ⟨fun k hk => (nomatch hk), trivial⟩, trivial⟩

/-- One model is loaded, unloaded and followed by another: the counter, the attached engine and the enforcer agree. -/
theorem accounts_swapping :
    (runList (next ⟨fun _ => 4⟩) {} swapping).deltas = [8, -8, 12] ∧
    (runList (next ⟨fun _ => 4⟩) {} swapping).started = [⟨100, 32⟩, ⟨100, 36⟩] ∧
    ((runList (next ⟨fun _ => 4⟩) {} swapping).currentModelMemory =
        (runList (next ⟨fun _ => 4⟩) {} swapping).attachedSize ∧
      0 ≤ (runList (next ⟨fun _ => 4⟩) {} swapping).currentModelMemory) ∧
    (runList (next ⟨fun _ => 4⟩) {} swapping).currentModelMemory =
      (runList (next ⟨fun _ => 4⟩) {} swapping).deltas.sum ∧
    (∀ r ∈ (runList (next ⟨fun _ => 4⟩) {} swapping).removed, r.live = false) ∧
    ∀ a ∈ (runList (next ⟨fun _ => 4⟩) {} swapping).started, a.projected ≤ a.ceiling := by
  have hstart : Reached (fun s : Pool => s = {}) (fun s op => Counted s op ∧ Told s op ∧ Quiet s op ∧ Admitted s op)
      (next ⟨fun _ => 4⟩) {} := .start rfl
  have hall := hstart.runList swapping_conditions
  obtain ⟨hcounted, htold, hquiet, hadmitted⟩ := accounts ⟨fun _ => 4⟩ (runList (next ⟨fun _ => 4⟩) {} swapping)
  exact ⟨rfl, rfl, hcounted (hall.mono fun _ _ h => h.1), htold (hall.mono fun _ _ h => h.2.1),
    hquiet (hall.mono fun _ _ h => h.2.2.1), hadmitted (hall.mono fun _ _ h => h.2.2.2)⟩

/-- An engine is registered over another one of eight bytes: the counter says sixteen, and the enforcer nothing. -/
theorem register_over : ∃ s : Pool, Reached (· = {}) (fun _ _ => True) (next ⟨fun _ => 4⟩) s ∧
    s.currentModelMemory = 16 ∧ s.attachedSize = 8 ∧ s.deltas.sum = 0 := by
  refine ⟨_, .step (.register ['m'] 1 8) (.step (.register ['m'] 0 8) (.start rfl) trivial) trivial, ?_⟩
  decide

end Pool

end FusionMlx.EngineMemory
