import FusionMlx.Pool.EngineMemory

/-!
# When the accounts of the engine pool are exact

The counter is the weight of the attached engines as long as no operation meets
an engine that is counted elsewhere, or replaces or removes one that is not
subtracted. What the enforcer is told is the same only while nothing is
registered with a size and nothing is unloaded asynchronously.
-/
namespace FusionMlx.EngineMemory

open OrderedDict SharedHoldings

variable {cfg : Config}

namespace Pool

def HeldElsewhere (s : Pool) (k : Key) (p : Nat × Nat) : Prop :=
  ∃ k' e', k' ≠ k ∧ s.entries.get? k' = some e' ∧ e'.hold = some p

def Weightless (s : Pool) (k : Key) : Prop :=
  ∀ e p, s.entries.get? k = some e → e.hold = some p → p.2 = 0 ∨ s.HeldElsewhere k p

def Sole (s : Pool) (k : Key) : Prop :=
  ∀ e p, s.entries.get? k = some e → e.hold = some p → p.2 = 0 ∨ ¬ s.HeldElsewhere k p

def Registrable (s : Pool) (k : Key) (x size : Nat) : Prop :=
  ((s.entries.get? k).getD { estimatedSize := size }).estimatedSize = 0 ∨
    (s.Weightless k ∧ ¬ s.HeldElsewhere k (x, ((s.entries.get? k).getD { estimatedSize := size }).estimatedSize))

/-- The aliases of a torn down entry have its size or none, and the adapters that go with it hold
nothing that weighs, or nothing that is not held by an entry that stays. -/
def Clean (s : Pool) (k : Key) : Prop :=
  ∀ e x, s.entries.get? k = some e → e.engine = some x →
    (∀ k' e', s.entries.get? k' = some e' → e'.engine = some x → e'.estimatedSize = 0 ∨ e'.estimatedSize = e.estimatedSize) ∧
    ∀ k' e' y, staleAdapter k k' = true → s.entries.get? k' = some e' → e'.engine = some y → y ≠ x →
      e'.estimatedSize = 0 ∨
        ∃ k'' e'', staleAdapter k k'' = false ∧ s.entries.get? k'' = some e'' ∧ e''.hold = some (y, e'.estimatedSize)

def RunningAdapter (s : Pool) (k : Key) : Prop :=
  ∃ e x k' e' y, s.entries.get? k = some e ∧ e.engine = some x ∧ staleAdapter k k' = true ∧
    s.entries.get? k' = some e' ∧ e'.engine = some y ∧ y ≠ x ∧ s.running y = true

def Weighs (s : Pool) (k : Key) : Prop :=
  ∃ e x, s.entries.get? k = some e ∧ e.engine = some x ∧ e.estimatedSize ≠ 0

def evicts (s : Pool) (activeMem phys : Nat) (v : Key) : Bool :=
  match s.stage with
  | .admitting _ _ needed ceiling _ => s.currentUsage activeMem phys + needed > ceiling && s.evictable v
  | _ => false

def tornDown (s : Pool) : Operation → Option Key
  | .unloadAsync k => if s.stage = .idle && !s.defers k then some k else none
  | .release k => if s.stage = .idle && (s.returnLease k).drains k then some k else none
  | .unloadIfIdle k => if s.stage = .idle && s.idleUnpinned k then some k else none
  | .unloadPending k => if s.stage = .idle && s.drains k then some k else none
  | .evict k => if s.stage = .idle && s.idleUnpinned k then some k else none
  | .prepare _ =>
    match s.stage with
    | .preparing _ (v :: _) _ => if s.defers v then none else some v
    | _ => none
  | .admission activeMem phys (some v) => if s.evicts activeMem phys v then some v else none
  | .unloadOther k => if s.otherDflash k && !s.defers k then some k else none
  | _ => none

/-- The counter stays exact. -/
def Counted (s : Pool) (op : Operation) : Prop :=
  (∀ k, s.tornDown op = some k → s.Clean k) ∧
  match op with
  | .register k x size => s.stage = .idle → s.Registrable k x size
  | .unload k _ | .unregister k _ => s.stage = .idle → s.Sole k
  | .removeEntry k => s.stage = .idle → s.Weightless k
  | .load .failedLate => ∀ k lease e, s.stage = .loading k lease → s.entries.get? k = some e → e.estimatedSize = 0
  | _ => True

/-- The enforcer is told what is counted. -/
def Told (s : Pool) (op : Operation) : Prop :=
  (∀ k, s.tornDown op = some k → ¬ s.Weighs k) ∧
  match op with
  | .register k _ size => s.stage = .idle → ((s.entries.get? k).getD { estimatedSize := size }).estimatedSize = 0
  | _ => True

/-- Nothing that runs is removed. -/
def Quiet (s : Pool) (op : Operation) : Prop :=
  (∀ k, s.tornDown op = some k → ¬ s.RunningAdapter k) ∧
  match op with
  | .unregister k stop => s.stage = .idle → stop = .done ∨ s.live k = false
  | .removeEntry k => s.stage = .idle → s.live k = false
  | _ => True

/-- The rounds of an admission do not run out. -/
def Admitted (s : Pool) : Operation → Prop
  | .admission activeMem phys (some v) => s.evicts activeMem phys v = true →
    ∀ k left needed ceiling lease, s.stage = .admitting k left needed ceiling lease → 1 < left
  | _ => True

variable {e : Entry} {p : Nat × Nat}

theorem hold_eq_some :
    e.hold = some p ↔ e.engine = some p.1 ∧ e.estimatedSize = p.2 := by
  obtain ⟨x, z⟩ := p
  simp [Entry.hold]

variable {x : Nat}

theorem hold_of_engine (h : e.engine = some x) : e.hold = some (x, e.estimatedSize) :=
  hold_eq_some.mpr ⟨h, rfl⟩

theorem hold_of_free (h : e.engine = none) : e.hold = none := by
  simp [Entry.hold, h]

/-- The counter is the weight of what is attached, and no engine is yet to come. -/
structure Exact (s : Pool) : Prop where
  counter : s.currentModelMemory = s.attachedSize
  seen : ∀ k e x, s.entries.get? k = some e → e.engine = some x → x < s.nextEngine

variable {s : Pool} {k : Key}

theorem get?_teardown (hk : s.entries.get? k = some e)
    (hx : e.engine = some x) (k' : Key) : (s.teardown k).entries.get? k' =
      if staleAdapter k k' then none else (s.entries.get? k').map (clearEngine x k k') := by
  simp only [teardown, hk, hx]
  rw [Dict.get?_filterKeys, Dict.get?_mapValues]
  cases staleAdapter k k' <;> rfl

theorem teardown_of_free (h : ∀ e, s.entries.get? k = some e → e.engine = none) :
    s.teardown k = s := by
  unfold teardown
  cases hk : s.entries.get? k with
  | none => rfl
  | some e => simp only [h e hk]

variable {k' : Key}

theorem clearEngine_hold {e' : Entry}
    (h : (clearEngine x k k' e').hold = some p) : e'.hold = some p ∧ p.1 ≠ x := by
  unfold clearEngine at h
  split at h
  · exact nomatch h
  · split at h
    · exact nomatch h
    · rename_i hne
      refine ⟨h, ?_⟩
      rintro rfl
      exact hne (hold_eq_some.mp h).1

theorem hold_clearEngine {e' : Entry} (h : e'.hold = some p)
    (hne : p.1 ≠ x) (hk : k' = k → e'.engine = some x) : (clearEngine x k k' e').hold = some p := by
  have hengine := (hold_eq_some.mp h).1
  have hx : e'.engine ≠ some x := by
    rw [hengine]
    exact fun he => hne (Option.some.inj he)
  have hkey : k' ≠ k := fun he => hx (hk he)
  unfold clearEngine
  rw [if_neg hkey, if_neg hx]
  exact h

/-- What is still held after a teardown: the other engines of the entries that stay. -/
theorem mem_holdings_teardown (hk : s.entries.get? k = some e)
    (hx : e.engine = some x) : p ∈ holdings Entry.hold (s.teardown k).entries ↔
      p.1 ≠ x ∧ ∃ k' e', staleAdapter k k' = false ∧ s.entries.get? k' = some e' ∧ e'.hold = some p := by
  rw [mem_holdings]
  constructor
  · rintro ⟨k', v, hget, hv⟩
    rw [get?_teardown hk hx] at hget
    split at hget
    · cases hget
    · rename_i hstale
      obtain ⟨e', he', rfl⟩ := Option.map_eq_some_iff.mp hget
      obtain ⟨hhold, hne⟩ := clearEngine_hold hv
      exact ⟨hne, k', e', Bool.eq_false_iff.mpr hstale, he', hhold⟩
  · rintro ⟨hne, k', e', hstale, he', hhold⟩
    refine ⟨k', clearEngine x k k' e', ?_, hold_clearEngine hhold hne ?_⟩
    · rw [get?_teardown hk hx, hstale, he']
      rfl
    · rintro rfl
      rw [hk] at he'
      cases he'
      exact hx

theorem Exact.teardown (h : Exact s) (hclean : s.Clean k) : Exact (s.teardown k) := by
  by_cases hfree : ∀ e, s.entries.get? k = some e → e.engine = none
  · rw [teardown_of_free hfree]
    exact h
  · obtain ⟨e, hk, hengine⟩ : ∃ e, s.entries.get? k = some e ∧ e.engine ≠ none := by
      by_contra hno
      exact hfree fun e he => by_contra fun hne => hno ⟨e, he, hne⟩
    obtain ⟨x, hx⟩ := Option.ne_none_iff_exists'.mp hengine
    obtain ⟨halias, hadapters⟩ := hclean e x hk hx
    have hmem : (x, e.estimatedSize) ∈ holdings Entry.hold s.entries :=
      mem_holdings.mpr ⟨k, e, hk, hold_of_engine hx⟩
    have hsub : holdings Entry.hold (s.teardown k).entries ⊆ holdings Entry.hold s.entries := by
      intro p hp
      obtain ⟨_, k', e', _, he', hhold⟩ := (mem_holdings_teardown hk hx).mp hp
      exact mem_holdings.mpr ⟨k', e', he', hhold⟩
    have hgone : (x, e.estimatedSize) ∉ holdings Entry.hold (s.teardown k).entries := by
      intro hp
      exact ((mem_holdings_teardown hk hx).mp hp).1 rfl
    have hweight : weight Entry.hold s.entries = e.estimatedSize + weight Entry.hold (s.teardown k).entries := by
      apply weight_drop hmem hsub (.inr hgone)
      rintro ⟨y, z⟩ hq hno
      obtain ⟨k', e', he', hhold⟩ := mem_holdings.mp hq
      obtain ⟨hy, rfl⟩ := hold_eq_some.mp hhold
      dsimp only at hy ⊢
      by_cases hyx : y = x
      · subst hyx
        rcases halias k' e' he' hy with hzero | hsame
        · exact .inr hzero
        · exact .inl (by rw [hsame])
      · right
        cases hstale : staleAdapter k k' with
        | false => exact absurd ((mem_holdings_teardown hk hx).mpr ⟨hyx, k', e', hstale, he', hhold⟩) hno
        | true =>
          rcases hadapters k' e' y hstale he' hy hyx with hzero | ⟨k'', e'', hstays, he'', hhold''⟩
          · exact hzero
          · exact absurd ((mem_holdings_teardown hk hx).mpr ⟨hyx, k'', e'', hstays, he'', hhold''⟩) hno
    constructor
    · have hcounter := h.counter
      unfold attachedSize at hcounter ⊢
      have hmemory : (s.teardown k).currentModelMemory = s.currentModelMemory - e.estimatedSize := by
        simp only [Pool.teardown, hk, hx]
      rw [hmemory, hcounter, hweight]
      omega
    · intro k' v y hget hy
      have hnext : (s.teardown k).nextEngine = s.nextEngine := by simp only [Pool.teardown, hk, hx]
      obtain ⟨k'', e'', he'', hhold⟩ := mem_holdings.mp (hsub (mem_holdings.mpr ⟨k', v, hget, hold_of_engine hy⟩))
      rw [hnext]
      exact h.seen k'' e'' y he'' (hold_eq_some.mp hhold).1

theorem heldElsewhere_iff :
    s.HeldElsewhere k p ↔ p ∈ holdings Entry.hold (s.entries.erase k) := mem_holdings_erase.symm

theorem weight_of_weightless (h : s.Weightless k) :
    weight Entry.hold (s.entries.erase k) = s.attachedSize :=
  weight_erase fun e p he hp => (h e p he hp).imp_right heldElsewhere_iff.mp

theorem weight_of_sole (h : s.Sole k) (he : s.entries.get? k = some e)
    (hx : e.engine = some x) : s.attachedSize = e.estimatedSize + weight Entry.hold (s.entries.erase k) :=
  weight_of_get he (hold_of_engine hx)
    ((h e _ he (hold_of_engine hx)).imp_right fun hno hmem => hno (heldElsewhere_iff.mpr hmem))

/-- An entry without an engine weighs nothing. -/
theorem weightless_of_free (h : ∀ e, s.entries.get? k = some e → e.engine = none) :
    s.Weightless k := by
  intro e p he hp
  rw [hold_of_free (h e he)] at hp
  exact nomatch hp

theorem seen_erase (h : Exact s) (k : Key)
    (he : (s.entries.erase k).get? k' = some e) (hx : e.engine = some x) : x < s.nextEngine :=
  h.seen k' e x (Dict.get?_of_erase he) hx

/-- One entry changes, and the counter by as much as its weight does. -/
theorem Exact.set {s' : Pool} (h : Exact s) (he : s'.entries = s.entries.set k e)
    (hcounter : s'.currentModelMemory = weight Entry.hold (s.entries.set k e))
    (hnext : s.nextEngine ≤ s'.nextEngine) (hseen : ∀ x, e.engine = some x → x < s'.nextEngine) : Exact s' where
  counter := by
    unfold attachedSize
    rw [hcounter, he]
  seen k' v x hget hx := by
    rw [he, Dict.get?_set] at hget
    split at hget
    · cases hget
      exact hseen x hx
    · exact Nat.lt_of_lt_of_le (h.seen k' v x hget hx) hnext

theorem Exact.erase {s' : Pool} (h : Exact s) (he : s'.entries = s.entries.erase k)
    (hcounter : s'.currentModelMemory = weight Entry.hold (s.entries.erase k))
    (hnext : s.nextEngine ≤ s'.nextEngine) : Exact s' where
  counter := by
    unfold attachedSize
    rw [hcounter, he]
  seen k' v x hget hx := by
    rw [he] at hget
    exact Nat.lt_of_lt_of_le (seen_erase h k hget hx) hnext

/-- The registry, the counter and the seen engines stay. -/
theorem Exact.frame {s' : Pool} (h : Exact s) (he : s'.entries = s.entries)
    (hm : s'.currentModelMemory = s.currentModelMemory) (hn : s'.nextEngine = s.nextEngine) : Exact s' := by
  refine ⟨?_, ?_⟩
  · unfold attachedSize
    rw [hm, he]
    exact h.counter
  · rw [he, hn]
    exact h.seen

/-- A change that leaves an entry's engine and size alone. -/
theorem Exact.update (h : Exact s) (k : Key) {f : Entry → Entry}
    (hf : ∀ e, (f e).engine = e.engine ∧ (f e).estimatedSize = e.estimatedSize) : Exact (s.update k f) := by
  unfold Pool.update
  split
  · exact h
  · rename_i e he
    have hhold : (f e).hold = e.hold := by simp only [Entry.hold, (hf e).1, (hf e).2]
    refine h.set rfl ?_ (Nat.le_refl _) fun x hx => h.seen k e x he (by rw [← (hf e).1]; exact hx)
    dsimp only
    rw [h.counter]
    have hsame : holdings Entry.hold (s.entries.set k (f e)) = holdings Entry.hold s.entries := by
      ext p
      rw [mem_holdings_set, mem_holdings_of_get he, hhold]
    unfold attachedSize weight
    rw [hsame]

theorem Exact.registerEntry (h : Exact s) {size : Nat} (hr : s.Registrable k x size) :
    Exact (s.registerEntry k (some x) size) := by
  unfold Registrable at hr
  generalize he : (s.entries.get? k).getD { estimatedSize := size } = e at hr
  have hnew : (e.estimatedSize = 0 ∨ (x, e.estimatedSize) ∉ holdings Entry.hold (s.entries.erase k)) ∧ s.Weightless k := by
    rcases hr with hzero | ⟨hweightless, hno⟩
    · refine ⟨.inl hzero, fun e' p he' hp => .inl ?_⟩
      rw [he'] at he
      rw [← (hold_eq_some.mp hp).2, show e' = e from he]
      exact hzero
    · exact ⟨.inr fun hmem => hno (heldElsewhere_iff.mpr hmem), hweightless⟩
  have hweight := weight_set (v := { e with engine := some x }) (p := (x, e.estimatedSize)) rfl hnew.1
  unfold Pool.registerEntry
  simp only [he]
  refine h.set rfl ?_ (Nat.le_max_left ..) fun y hy => ?_
  · dsimp only at hweight ⊢
    rw [hweight, weight_of_weightless hnew.2, h.counter]
    omega
  · cases hy
    dsimp only
    omega

theorem Exact.registerAudio (h : Exact s) (k : Key) : Exact (s.registerEntry k none 0) := by
  unfold Pool.registerEntry
  dsimp only
  cases he : s.entries.get? k with
  | none =>
    have hweightless : s.Weightless k := fun e p hget _ => by rw [he] at hget; exact nomatch hget
    refine h.set rfl ?_ (Nat.le_refl _) fun x hx => nomatch hx
    rw [weight_set_free rfl, weight_of_weightless hweightless]
    exact h.counter
  | some e =>
    refine h.set rfl ?_ (Nat.le_refl _) fun x hx => h.seen k e x he hx
    have hsame : holdings Entry.hold (s.entries.set k e) = holdings Entry.hold s.entries := by
      ext p
      rw [mem_holdings_set, mem_holdings_of_get he]
    have hcounter := h.counter
    unfold attachedSize weight at hcounter
    unfold weight
    rw [Option.getD_some, hsame]
    exact hcounter

theorem stopEngine_fields (s : Pool) (x : Nat) (stop : Stop) : (s.stopEngine x stop).entries = s.entries ∧
    (s.stopEngine x stop).currentModelMemory = s.currentModelMemory ∧
      (s.stopEngine x stop).nextEngine = s.nextEngine ∧ (s.stopEngine x stop).removed = s.removed := by
  cases stop <;> exact ⟨rfl, rfl, rfl, rfl⟩

theorem Exact.unloadEngine (h : Exact s) (stop : Stop) (hsole : s.Sole k) :
    Exact (s.unloadEngine k stop) := by
  unfold Pool.unloadEngine
  split
  · exact h
  · rename_i e he
    split
    · exact h
    · rename_i x hx
      obtain ⟨-, -, hnext, -⟩ := stopEngine_fields s x stop
      refine h.set rfl ?_ (Nat.le_of_eq hnext.symm) fun y hy => nomatch hy
      dsimp only
      rw [weight_set_free rfl, h.counter, weight_of_sole hsole he hx]
      omega

theorem Exact.drop (h : Exact s) (hw : s.Weightless k) : Exact (s.drop k) :=
  h.erase rfl (by rw [weight_of_weightless hw]; exact h.counter) (Nat.le_refl _)

theorem Exact.unregisterEngine (h : Exact s) (stop : Stop) (hsole : s.Sole k) :
    Exact (s.unregisterEngine k stop) := by
  unfold Pool.unregisterEngine
  split
  · exact h
  · rename_i e he
    split
    · rename_i hx
      exact h.drop (weightless_of_free fun e' he' => by rw [he] at he'; cases he'; exact hx)
    · rename_i x hx
      obtain ⟨hentries, -, hnext, -⟩ := stopEngine_fields s x stop
      refine h.erase (k := k) ?_ ?_ ?_
      · simp only [Pool.drop, hentries]
      · dsimp only
        rw [h.counter, weight_of_sole hsole he hx]
        omega
      · simp only [Pool.drop, hnext]
        exact Nat.le_refl _

theorem Exact.unloadEngineAsync (h : Exact s) (hclean : s.defers k = false → s.Clean k) :
    Exact (s.unloadEngineAsync k) := by
  unfold Pool.unloadEngineAsync
  split
  · refine h.update k fun e => ?_
    split <;> exact ⟨rfl, rfl⟩
  · rename_i hdefers
    exact h.teardown (hclean (Bool.eq_false_iff.mpr hdefers))

theorem Exact.returnLease (h : Exact s) (k : Key) : Exact (s.returnLease k) :=
  h.update k fun _ => ⟨rfl, rfl⟩

theorem get?_update {f : Entry → Entry} (k' : Key) :
    (s.update k f).entries.get? k' = if k' = k then (s.entries.get? k).map f else s.entries.get? k' := by
  unfold Pool.update
  cases he : s.entries.get? k with
  | none =>
    dsimp only
    split
    · rename_i hk
      rw [hk]
      exact he
    · rfl
  | some e =>
    dsimp only
    rw [Dict.get?_set]
    rfl

theorem Clean.returnLease (h : s.Clean k) : (s.returnLease k).Clean k := by
  have hback : ∀ k' v, (s.returnLease k).entries.get? k' = some v → ∃ e', s.entries.get? k' = some e' ∧
      e'.engine = v.engine ∧ e'.estimatedSize = v.estimatedSize := by
    intro k' v hget
    unfold Pool.returnLease at hget
    rw [get?_update] at hget
    split at hget
    · rename_i hk
      obtain ⟨e', he', rfl⟩ := Option.map_eq_some_iff.mp hget
      exact ⟨e', by rw [hk]; exact he', rfl, rfl⟩
    · exact ⟨v, hget, rfl, rfl⟩
  have hforth : ∀ k' e', s.entries.get? k' = some e' → ∃ v, (s.returnLease k).entries.get? k' = some v ∧
      v.hold = e'.hold := by
    intro k' e' hget
    unfold Pool.returnLease
    rw [get?_update]
    split
    · rename_i hk
      rw [hk] at hget
      exact ⟨{ e' with inUse := e'.inUse - 1 }, by rw [hget]; rfl, rfl⟩
    · exact ⟨e', hget, rfl⟩
  intro v x hv hx
  obtain ⟨e, he, hengine, hsize⟩ := hback k v hv
  obtain ⟨halias, hadapters⟩ := h e x he (by rw [hengine]; exact hx)
  refine ⟨fun k' v' hv' hx' => ?_, fun k' v' y hstale hv' hy hne => ?_⟩
  · obtain ⟨e', he', hengine', hsize'⟩ := hback k' v' hv'
    rw [← hsize, ← hsize']
    exact halias k' e' he' (by rw [hengine']; exact hx')
  · obtain ⟨e', he', hengine', hsize'⟩ := hback k' v' hv'
    rw [← hsize']
    rcases hadapters k' e' y hstale he' (by rw [hengine']; exact hy) hne with hzero | ⟨k'', e'', hstays, he'', hhold⟩
    · exact .inl hzero
    · obtain ⟨v'', hv'', hhold''⟩ := hforth k'' e'' he''
      exact .inr ⟨k'', v'', hstays, hv'', hhold''.trans hhold⟩

/-- A scan changes no entry that holds an engine, and gives none to the others. -/
theorem mergeOne_holdings (d : Dict Key Entry) (f : Found) :
    holdings Entry.hold (mergeOne d f) = holdings Entry.hold d := by
  ext p
  unfold mergeOne
  cases he : d.get? f.key with
  | none =>
    dsimp only
    rw [mem_holdings_set, mem_holdings_erase, mem_holdings]
    constructor
    · rintro (h | ⟨k, v, _, hget, hv⟩)
      · exact nomatch h
      · exact ⟨k, v, hget, hv⟩
    · rintro ⟨k, v, hget, hv⟩
      refine .inr ⟨k, v, ?_, hget, hv⟩
      rintro rfl
      rw [he] at hget
      exact nomatch hget
  | some e =>
    dsimp only
    split
    · rw [mem_holdings_set, mem_holdings_of_get he]
      rfl
    · rename_i hfree
      have hnone : e.hold = none := hold_of_free (by simpa using hfree)
      rw [mem_holdings_set, mem_holdings_of_get he, hnone]
      rfl

theorem merge_holdings (found : List Found) (d : Dict Key Entry) :
    holdings Entry.hold (found.foldl mergeOne d) = holdings Entry.hold d := by
  induction found generalizing d with
  | nil => rfl
  | cons f rest ih => rw [List.foldl_cons, ih, mergeOne_holdings]

/-- Entries without an engine may go. -/
theorem filterKeys_holdings {d : Dict Key Entry} {p : Key → Bool}
    (h : ∀ k e, d.get? k = some e → p k = false → e.engine = none) :
    holdings Entry.hold (d.filterKeys p) = holdings Entry.hold d := by
  ext q
  rw [mem_holdings, mem_holdings]
  constructor
  · rintro ⟨k, v, hget, hv⟩
    rw [Dict.get?_filterKeys] at hget
    split at hget
    · exact ⟨k, v, hget, hv⟩
    · cases hget
  · rintro ⟨k, v, hget, hv⟩
    refine ⟨k, v, ?_, hv⟩
    rw [Dict.get?_filterKeys]
    cases hp : p k with
    | true => exact hget
    | false =>
      rw [hold_of_free (h k v hget hp)] at hv
      cases hv

/-- Another registry with the same engines in it. -/
theorem Exact.holdings {s' : Pool} (h : Exact s)
    (he : holdings Entry.hold s'.entries = holdings Entry.hold s.entries)
    (hm : s'.currentModelMemory = s.currentModelMemory) (hn : s'.nextEngine = s.nextEngine) : Exact s' := by
  refine ⟨?_, fun k e x hget hx => ?_⟩
  · have hcounter := h.counter
    unfold attachedSize weight at hcounter ⊢
    rw [hm, he]
    exact hcounter
  · have hmem : (x, e.estimatedSize) ∈ SharedHoldings.holdings Entry.hold s.entries := by
      rw [← he]
      exact mem_holdings.mpr ⟨k, e, hget, hold_of_engine hx⟩
    obtain ⟨k', e', he', hhold⟩ := mem_holdings.mp hmem
    rw [hn]
    exact h.seen k' e' x he' (hold_eq_some.mp hhold).1

theorem stale_free {found : List Found} {d : Dict Key Entry} (he : d.get? k = some e)
    (hs : stale found d k = true) : e.engine = none := by
  unfold stale at hs
  rw [he] at hs
  simp only [Option.any_some, Bool.and_eq_true] at hs
  simpa using hs.1

theorem Exact.mergeDiscovered (h : Exact s) (found : List Found) (removeStale : Bool) :
    Exact (s.mergeDiscovered found removeStale) := by
  unfold Pool.mergeDiscovered
  dsimp only
  split
  · refine h.holdings ?_ rfl rfl
    dsimp only
    rw [filterKeys_holdings, merge_holdings]
    intro k e he hp
    exact stale_free he (by simpa using hp)
  · exact h.holdings (merge_holdings found s.entries) rfl rfl

/-- With no engine attached the counter is 0 and never above the live gauges. -/
theorem Exact.reconcile (h : Exact s) (activeMem phys : Nat) : s.reconcile activeMem phys = s := by
  unfold Pool.reconcile
  dsimp only
  split
  · rfl
  · rename_i hstale
    exfalso
    simp only [Bool.or_eq_true, decide_eq_true_eq, not_or, hasLoaded, List.any_eq_true, not_exists, not_and] at hstale
    have hzero : s.attachedSize = 0 := by
      apply weight_of_free
      intro k e hget
      have hno := hstale.1 (k, e) ((Dict.get?_eq_some_iff ..).mp hget)
      exact hold_of_free (by simpa using hno)
    have hcounter := h.counter
    rw [hzero] at hcounter
    omega

/-- The entry of the running `get_engine` has no engine, or that engine is unloaded next. -/
def Ready (s : Pool) : Prop :=
  match s.stage with
  | .idle => True
  | .preparing k victims _ => (∀ e, s.entries.get? k = some e → e.engine = none) ∨ victims = [k]
  | .admitting k _ _ _ _ | .loading k _ => ∀ e, s.entries.get? k = some e → e.engine = none

/-- A teardown gives no entry an engine. -/
theorem free_teardown (k : Key) (h : ∀ e, s.entries.get? k' = some e → e.engine = none) :
    ∀ e, (s.teardown k).entries.get? k' = some e → e.engine = none := by
  intro v hget
  cases hk : s.entries.get? k with
  | none =>
    rw [teardown_of_free fun e he => by rw [hk] at he; exact nomatch he] at hget
    exact h v hget
  | some e =>
    cases hx : e.engine with
    | none =>
      rw [teardown_of_free fun e' he => by rw [hk] at he; cases he; exact hx] at hget
      exact h v hget
    | some x =>
      rw [get?_teardown hk hx] at hget
      split at hget
      · exact nomatch hget
      · obtain ⟨e', he', rfl⟩ := Option.map_eq_some_iff.mp hget
        have hfree := h e' he'
        unfold clearEngine
        split
        · rfl
        · split
          · rfl
          · exact hfree

/-- A torn down entry has no engine. -/
theorem teardown_free (s : Pool) (k : Key) : ∀ e, (s.teardown k).entries.get? k = some e → e.engine = none := by
  by_cases hfree : ∀ e, s.entries.get? k = some e → e.engine = none
  · exact free_teardown k hfree
  · intro v hget
    obtain ⟨e, hk, hengine⟩ : ∃ e, s.entries.get? k = some e ∧ e.engine ≠ none := by
      by_contra hno
      exact hfree fun e he => by_contra fun hne => hno ⟨e, he, hne⟩
    obtain ⟨x, hx⟩ := Option.ne_none_iff_exists'.mp hengine
    rw [get?_teardown hk hx] at hget
    split at hget
    · cases hget
    · obtain ⟨e', he', rfl⟩ := Option.map_eq_some_iff.mp hget
      unfold clearEngine
      rw [if_pos rfl]

theorem update_fields (s : Pool) (k : Key) (f : Entry → Entry) : (s.update k f).stage = s.stage ∧
    (s.update k f).deltas = s.deltas ∧ (s.update k f).currentModelMemory = s.currentModelMemory ∧
      (s.update k f).removed = s.removed ∧ (s.update k f).started = s.started := by
  unfold Pool.update
  split <;> exact ⟨rfl, rfl, rfl, rfl, rfl⟩

theorem teardown_fields (s : Pool) (k : Key) : (s.teardown k).stage = s.stage ∧
    (s.teardown k).deltas = s.deltas ∧ (s.teardown k).started = s.started := by
  unfold Pool.teardown
  split
  · exact ⟨rfl, rfl, rfl⟩
  · split <;> exact ⟨rfl, rfl, rfl⟩

theorem unloadEngineAsync_stage (s : Pool) (k : Key) : (s.unloadEngineAsync k).stage = s.stage := by
  unfold Pool.unloadEngineAsync
  split
  · exact (update_fields ..).1
  · exact (teardown_fields s k).1

theorem free_unloadEngineAsync (k : Key)
    (h : ∀ e, s.entries.get? k' = some e → e.engine = none) :
    ∀ e, (s.unloadEngineAsync k).entries.get? k' = some e → e.engine = none := by
  unfold Pool.unloadEngineAsync
  split
  · intro v hget
    unfold Pool.markPendingUnload at hget
    rw [get?_update] at hget
    split at hget
    · rename_i hk
      obtain ⟨e, he, rfl⟩ := Option.map_eq_some_iff.mp hget
      have hfree := h e (by rw [hk]; exact he)
      split
      · exact hfree
      · exact hfree
    · exact h v hget
  · exact free_teardown k h

/-- The entry that is reloaded is not asked for its leases. -/
theorem defers_of_loading (h : s.isLoading k = true) : s.defers k = false := by
  unfold Pool.defers
  split
  · rfl
  · rw [h]
    rfl

theorem ready_idle (h : s.stage = .idle) : Ready s := by
  unfold Ready
  rw [h]
  trivial

theorem Exact.prepare (h : Exact s) (hready : Ready s) {ceiling : Nat}
    (hclean : ∀ k, s.tornDown (.prepare ceiling) = some k → s.Clean k) :
    Exact (s.prepare cfg ceiling) ∧ Ready (s.prepare cfg ceiling) := by
  unfold Ready at hready
  unfold Pool.prepare
  split
  · rename_i k v victims lease hstage
    have hunloaded : Exact (s.unloadEngineAsync v) :=
      h.unloadEngineAsync fun hd => hclean v (by simp [tornDown, hstage, hd])
    refine ⟨hunloaded.frame rfl rfl rfl, ?_⟩
    simp only [hstage] at hready
    unfold Ready
    dsimp only
    rcases hready with hfree | hself
    · exact .inl (free_unloadEngineAsync v hfree)
    · obtain ⟨rfl, rfl⟩ := List.cons.inj hself
      left
      have hd : s.defers v = false := defers_of_loading (by simp [Pool.isLoading, hstage])
      unfold Pool.unloadEngineAsync
      rw [hd]
      exact teardown_free s v
  · rename_i k lease hstage
    simp only [hstage] at hready
    have hfree : ∀ e, s.entries.get? k = some e → e.engine = none := by
      rcases hready with hfree | hself
      · exact hfree
      · cases hself
    split
    · exact ⟨h.frame rfl rfl rfl, hfree⟩
    · exact ⟨h.frame rfl rfl rfl, hfree⟩
  · exact ⟨h, by unfold Ready; exact hready⟩

theorem Exact.admission (h : Exact s) (hready : Ready s) {activeMem phys : Nat} {victim : Option Key}
    (hclean : ∀ k, s.tornDown (.admission activeMem phys victim) = some k → s.Clean k) :
    Exact (s.admission activeMem phys victim) ∧ Ready (s.admission activeMem phys victim) := by
  unfold Ready at hready
  unfold Pool.admission
  split
  · rename_i k left needed ceiling lease hstage
    simp only [hstage] at hready
    dsimp only
    rw [h.reconcile]
    split
    · exact ⟨h.frame rfl rfl rfl, hready⟩
    · rename_i habove
      split
      · rename_i v
        split
        · rename_i hv
          have htorn : Exact (s.teardown v) := by
            apply h.teardown (hclean v _)
            have hlt : (ceiling : Int) < s.currentUsage activeMem phys + needed := by omega
            simp [tornDown, evicts, hstage, hv, hlt]
          split
          · exact ⟨htorn.frame rfl rfl rfl, free_teardown v hready⟩
          · exact ⟨htorn.frame rfl rfl rfl, free_teardown v hready⟩
        · exact ⟨h, by unfold Ready; rw [hstage]; exact hready⟩
      · exact ⟨h.frame rfl rfl rfl, trivial⟩
  · exact ⟨h, by unfold Ready; exact hready⟩

theorem Exact.unloadOther (h : Exact s) (hready : Ready s)
    (hclean : ∀ k', s.tornDown (.unloadOther k) = some k' → s.Clean k') :
    Exact (s.unloadOtherDflash k) ∧ Ready (s.unloadOtherDflash k) := by
  unfold Pool.unloadOtherDflash
  split
  · rename_i hother
    refine ⟨h.unloadEngineAsync fun hd => hclean k (by simp [tornDown, hother, hd]), ?_⟩
    unfold Ready at hready ⊢
    rw [unloadEngineAsync_stage]
    unfold otherDflash at hother
    split at hother
    · rename_i key lease hstage
      simp only [hstage] at hready ⊢
      exact free_unloadEngineAsync k hready
    · cases hother
  · exact ⟨h, hready⟩

theorem Exact.loadEngine (h : Exact s) (hready : Ready s) {outcome : Outcome}
    (hlate : outcome = .failedLate → ∀ k lease e, s.stage = .loading k lease → s.entries.get? k = some e →
      e.estimatedSize = 0) :
    Exact (s.loadEngine outcome) ∧ Ready (s.loadEngine outcome) := by
  unfold Ready at hready
  unfold Pool.loadEngine
  split
  · rename_i k lease hstage
    simp only [hstage] at hready
    cases he : s.entries.get? k with
    | none => exact ⟨h.frame rfl rfl rfl, trivial⟩
    | some e =>
      have hweightless : s.Weightless k := weightless_of_free hready
      have hfresh : ∀ z, (s.nextEngine, z) ∉ SharedHoldings.holdings Entry.hold (s.entries.erase k) := by
        intro z hmem
        obtain ⟨k', v, _, hget, hv⟩ := mem_holdings_erase.mp hmem
        exact Nat.lt_irrefl _ (h.seen k' v _ hget (hold_eq_some.mp hv).1)
      have hattached : ∀ e' : Entry, e'.estimatedSize = e.estimatedSize → weight Entry.hold (s.entries.set k
          { e' with engine := some s.nextEngine }) = e.estimatedSize + s.attachedSize := by
        intro e' hsize
        rw [weight_set (p := (s.nextEngine, e.estimatedSize)) (by simp [Entry.hold, hsize]) (.inr (hfresh _)),
          weight_of_weightless hweightless]
      have hlt : ∀ x, some s.nextEngine = some x → x < s.nextEngine + 1 := by
        intro x hx
        cases hx
        exact Nat.lt_succ_self _
      cases outcome with
      | loaded observed dflash =>
        have hweight := hattached { e with
          lastObservedSize := if observed = 0 then e.estimatedSize else observed
          inUse := if lease then e.inUse + 1 else e.inUse } rfl
        refine ⟨h.set rfl ?_ (Nat.le_succ _) hlt, trivial⟩
        dsimp only at hweight ⊢
        rw [hweight, h.counter]
        omega
      | rejected => exact ⟨h.frame rfl rfl rfl, trivial⟩
      | failed =>
        dsimp only
        split
        · exact ⟨(h.drop hweightless).frame rfl rfl rfl, trivial⟩
        · exact ⟨h.frame rfl rfl rfl, trivial⟩
      | failedLate =>
        refine ⟨h.set rfl ?_ (Nat.le_succ _) hlt, trivial⟩
        rw [hattached e rfl, hlate rfl k lease e hstage he]
        dsimp only [Pool.attach]
        rw [h.counter]
        omega
  · exact ⟨h, by unfold Ready; exact hready⟩

theorem Exact.getEngine (h : Exact s) (hidle : s.stage = .idle) (c : Call) :
    Exact (s.getEngine c) ∧ Ready (s.getEngine c) := by
  have hready := ready_idle hidle
  unfold Pool.getEngine
  cases he : s.entries.get? c.key with
  | none =>
    have hno : ∀ e, s.entries.get? c.key = some e → e.engine = none := by
      intro e hget
      rw [he] at hget
      exact nomatch hget
    dsimp only
    split
    · exact ⟨h, hready⟩
    · rename_i base _
      refine ⟨h.set rfl ?_ (Nat.le_refl _) fun x hx => (nomatch hx), .inl ?_⟩
      · dsimp only
        rw [weight_set_free rfl, weight_of_weightless (weightless_of_free hno)]
        exact h.counter
      · intro e hget
        rw [Dict.get?_set_self] at hget
        cases hget
        rfl
  | some e =>
    dsimp only
    split
    · rename_i hx
      refine ⟨h.frame rfl rfl rfl, .inl ?_⟩
      intro e' hget
      dsimp only at hget
      rw [he] at hget
      cases hget
      exact hx
    · split
      · exact ⟨h.frame rfl rfl rfl, .inr rfl⟩
      · split
        · split
          · exact ⟨h, hready⟩
          · exact ⟨h.frame rfl rfl rfl, .inr rfl⟩
        · split
          · exact ⟨h.update c.key fun _ => ⟨rfl, rfl⟩, ready_idle ((update_fields ..).1.trans hidle)⟩
          · exact ⟨h, hready⟩

/-- An operation that is not a step of `get_engine` finds none running. -/
theorem idle_of_open {op : Operation} (h : ¬ (s.stage ≠ .idle ∧ op.internal = false))
    (hop : op.internal = false) : s.stage = .idle := by
  by_contra hstage
  exact h ⟨hstage, hop⟩

theorem Exact.next (h : Exact s) (hready : Ready s) {op : Operation} (hc : s.Counted op) :
    Exact (s.next cfg op) ∧ Ready (s.next cfg op) := by
  obtain ⟨hclean, hop⟩ := hc
  unfold Pool.next
  split
  · exact ⟨h, hready⟩
  · rename_i hopen
    cases op with
    | prepare ceiling => exact h.prepare hready hclean
    | admission activeMem phys victim => exact h.admission hready hclean
    | unloadOther k => exact h.unloadOther hready hclean
    | load outcome =>
      apply h.loadEngine hready
      rintro rfl
      exact hop
    | engine x running active dead => exact ⟨h.frame rfl rfl rfl, hready⟩
    | project activeMem phys =>
      rw [perform, h.reconcile]
      exact ⟨h, hready⟩
    | register k x size =>
      have hidle := idle_of_open hopen rfl
      exact ⟨h.registerEntry (hop hidle), ready_idle hidle⟩
    | registerAudio k =>
      have hidle := idle_of_open hopen rfl
      exact ⟨h.registerAudio k, ready_idle hidle⟩
    | unload k stop =>
      have hidle := idle_of_open hopen rfl
      refine ⟨h.unloadEngine stop (hop hidle), ready_idle ?_⟩
      dsimp only [perform]
      unfold Pool.unloadEngine
      split
      · exact hidle
      · split
        · exact hidle
        · cases stop <;> exact hidle
    | unregister k stop =>
      have hidle := idle_of_open hopen rfl
      refine ⟨h.unregisterEngine stop (hop hidle), ready_idle ?_⟩
      dsimp only [perform]
      unfold Pool.unregisterEngine
      split
      · exact hidle
      · split
        · exact hidle
        · cases stop <;> exact hidle
    | unloadAsync k =>
      have hidle := idle_of_open hopen rfl
      exact ⟨h.unloadEngineAsync fun hd => hclean k (by simp [tornDown, hidle, hd]),
        ready_idle ((unloadEngineAsync_stage s k).trans hidle)⟩
    | release k =>
      have hidle := idle_of_open hopen rfl
      have hleased : (s.returnLease k).stage = .idle := (update_fields ..).1.trans hidle
      dsimp only [perform]
      unfold Pool.releaseEngine
      split
      · rename_i hdrains
        exact ⟨(h.returnLease k).teardown (hclean k (by simp [tornDown, hidle, hdrains])).returnLease,
          ready_idle ((teardown_fields ..).1.trans hleased)⟩
      · exact ⟨h.returnLease k, ready_idle hleased⟩
    | unloadIfIdle k | unloadPending k | evict k =>
      have hidle := idle_of_open hopen rfl
      dsimp only [perform, Pool.unloadIfIdleUnpinned, Pool.unloadPendingIfIdle, Pool.evict]
      split
      · rename_i hunload
        exact ⟨h.teardown (hclean k (by simp [tornDown, hidle, hunload])), ready_idle ((teardown_fields ..).1.trans hidle)⟩
      · exact ⟨h, hready⟩
    | discover found removeStale =>
      have hidle := idle_of_open hopen rfl
      refine ⟨h.mergeDiscovered found removeStale, ready_idle ?_⟩
      cases removeStale <;> exact hidle
    | removeEntry k =>
      have hidle := idle_of_open hopen rfl
      dsimp only [perform]
      split
      · exact ⟨h.drop (hop hidle), ready_idle hidle⟩
      · exact ⟨h, hready⟩
    | getEngine c =>
      have hidle := idle_of_open hopen rfl
      exact h.getEngine hidle c
    | pin k pinned anePinned =>
      have hidle := idle_of_open hopen rfl
      exact ⟨h.update k fun _ => ⟨rfl, rfl⟩, ready_idle ((update_fields ..).1.trans hidle)⟩
    | markPending k =>
      have hidle := idle_of_open hopen rfl
      refine ⟨h.update k fun e => ?_, ready_idle ((update_fields ..).1.trans hidle)⟩
      split <;> exact ⟨rfl, rfl⟩

end Pool

end FusionMlx.EngineMemory
