import FusionMlx.Cache.SnapshotWriter

/-!
# The snapshot store is a map

In every run whose steps are orderly, loads answer with the current snapshot,
swept requests leave no file, and no mark outlives the items it counts.
-/
namespace FusionMlx.SnapshotStore

open Runs

variable {ρ α : Type} [DecidableEq ρ] {s s' : State ρ α} {hasTensors : α → Bool}

theorem Inv.callerStep (h : Inv s) : Inv (callerStep s) := by
  have htoIdle : ∀ {c : Caller ρ α}, s.caller = c → (c = .releasingAll ∨ ∃ k, c = .loading k) →
      Inv { s with caller := .idle } := by
    intro c hc hor
    refine h.caller .idle ?_ (by simp) ?_ ?_ (by simp [Caller.cleans]) (by simp [Caller.cleansAll])
      (by simp [Caller.holds]) (by simp) ?_ (by simp) (by simp) (by simp)
    all_goals rw [hc]; rcases hor with rfl | ⟨k, rfl⟩ <;>
      simp [Caller.saves, Caller.wipes, Caller.sweeps, Caller.clearsMarks]
  have htoDropping : ∀ {c : Caller ρ α} {k v}, s.caller = c → (c = .saving k v ∨ c = .putting k v) →
      Inv { s with caller := .dropping k } := by
    intro c k v hc hor
    refine h.caller (.dropping k) ?_ (by simp) ?_ ?_ (by simp [Caller.cleans]) (by simp [Caller.cleansAll])
      (by simp [Caller.holds]) (by simp) ?_ (by simp) (by simp) (by simp)
    all_goals rw [hc]; rcases hor with rfl | rfl <;>
      simp [Caller.saves, Caller.wipes, Caller.sweeps, Caller.clearsMarks]
  unfold SnapshotStore.callerStep
  split
  · next k v hc =>
    split
    · exact htoDropping hc (.inl rfl)
    · refine h.caller (.putting k v) ?_ ?_ ?_ ?_ (by simp [Caller.cleans]) (by simp [Caller.cleansAll])
        (by simp [Caller.holds]) (by simp) ?_ (by simp) (by simp) (by simp)
      all_goals rw [hc]; simp [Caller.saves, Caller.wipes, Caller.sweeps, Caller.clearsMarks]
  · next k v hc =>
    split
    · exact h.put hc
    · exact htoDropping hc (.inr rfl)
  · next k hc => exact h.drop hc
  · next k hc => exact (htoIdle hc (.inr ⟨k, rfl⟩)).loaded k _
  · next rid acquired hc => exact h.remove hc
  · next rid hc =>
    refine h.caller (.unmarking rid) ?_ (by simp) ?_ ?_ ?_ (by simp [Caller.cleansAll])
      (by simp [Caller.holds]) (by simp) ?_ ?_ (by simp) (by simp)
    · rw [hc]; simp [Caller.saves]
    · rw [hc]; simp [Caller.wipes]
    · rw [hc]; simp [Caller.sweeps]
    · rw [hc]; simp [Caller.cleans]
    · rw [hc]; simp [Caller.clearsMarks]
    · rintro r (hr | hr)
      · cases hr
      · cases hr
        exact h.quiet rid (.inr (.inl hc))
  · next rid hc => exact h.unmark hc
  · next hc =>
    split
    · next hqueue =>
      refine h.caller .waitingAll ?_ (by simp) ?_ ?_ (by simp [Caller.cleans]) ?_ (by simp [Caller.holds])
        (fun _ => hqueue) ?_ (by simp) (by simp) (by simp)
      all_goals rw [hc]; simp [Caller.saves, Caller.wipes, Caller.sweeps, Caller.clearsMarks, Caller.cleansAll]
    · next i rest hqueue => exact h.drain hc hqueue
  · next acquired hc => exact h.clear hc
  · next acquired hc => exact h.unmarkAll hc
  · next acquired hc => exact h.removeAll hc
  · next hc => exact htoIdle hc (.inl rfl)
  · exact h
  · exact h
  · exact h

theorem Inv.acquire (h : Inv s) : Inv (next hasTensors s .acquire) := by
  rw [next]
  split
  · next rid hc =>
    split
    · exact h
    · next hfree =>
      refine h.caller (.removing rid true) ?_ (by simp) ?_ ?_ ?_ (by simp [Caller.cleansAll])
        (fun _ => by simpa using hfree) (by simp) ?_ (by simp) (by simp) (by simp)
      all_goals rw [hc]; simp [Caller.saves, Caller.wipes, Caller.sweeps, Caller.clearsMarks, Caller.cleans]
  · next hc =>
    split
    · exact h
    · next hfree =>
      refine h.caller (.clearing true) ?_ (by simp) ?_ ?_ (by simp [Caller.cleans]) ?_
        (fun _ => by simpa using hfree) (fun _ => h.drained (.inl hc)) ?_ (by simp) (by simp) (by simp)
      all_goals rw [hc]; simp [Caller.saves, Caller.wipes, Caller.sweeps, Caller.clearsMarks, Caller.cleansAll]
  · exact h

theorem Inv.timeout (h : Inv s) (hok : Orderly s .timeout) : Inv (next hasTensors s .timeout) := by
  rw [next]
  split
  · next rid hc =>
    split
    · refine h.caller (.removing rid false) ?_ (by simp) ?_ ?_ ?_ (by simp [Caller.cleansAll])
        (by simp [Caller.holds]) (by simp) ?_ (by simp) (by simp) (by simp)
      · rw [hc]; simp [Caller.saves]
      · rw [hc]; simp [Caller.wipes]
      · rw [hc]; simp [Caller.sweeps]
      · rw [hc]; simp [Caller.cleans]
      · intro r hr
        rw [hc] at hr
        obtain rfl : rid = r := hr
        simp only [Orderly, hc] at hok
        exact .inr hok
    · exact h
  · next hc =>
    simp only [Orderly, hc] at hok
    split
    · next hbusy =>
      refine h.caller (.clearing false) ?_ (by simp) ?_ ?_ (by simp [Caller.cleans]) ?_
        (by simp [Caller.holds]) (fun _ => h.drained (.inl hc)) ?_ (by simp) ?_ (by simp)
      · rw [hc]; simp [Caller.saves]
      · rw [hc]; simp [Caller.wipes]
      · rw [hc]; simp [Caller.sweeps]
      · rw [hc]; simp [Caller.cleansAll]
      · exact fun r _ => .inr (hok.1 r)
      · intro _
        refine ⟨fun i hi => ?_, hok.2⟩
        rw [hi] at hbusy
        cases hbusy
    · exact h
  · exact h

theorem Inv.load (h : Inv s) (hidle : s.caller = .idle) (k : Key ρ) : Inv (loadPending hasTensors s k) := by
  have hloading : (∀ c, s.pending.get? k ≠ some ⟨c, true⟩) → Inv { s with caller := .loading k } := by
    intro hnot
    refine h.caller (.loading k) ?_ (by simp) ?_ ?_ (by simp [Caller.cleans]) (by simp [Caller.cleansAll])
      (by simp [Caller.holds]) (by simp) ?_ (by simp) (by simp) ?_
    · rw [hidle]; simp [Caller.saves]
    · rw [hidle]; simp [Caller.wipes]
    · rw [hidle]; simp [Caller.sweeps]
    · rw [hidle]; simp [Caller.clearsMarks]
    · intro k' c hk
      cases hk
      exact hnot c
  unfold loadPending
  split
  · next e he =>
    split
    · exact h.loaded k _
    · next hraw =>
      refine hloading fun c hc => hraw ?_
      obtain rfl := Option.some.inj (hc.symm.trans he)
      rfl
  · next he => exact hloading fun c hc => by cases he.symm.trans hc

/-- An orderly step keeps the books. -/
theorem Inv.next (h : Inv s) (a : Act ρ α) (hok : Orderly s a) : Inv (next hasTensors s a) := by
  cases a with
  | tick time => exact h.tick time
  | save k c =>
    rw [SnapshotStore.next]
    split
    · next hidle => exact h.begin_save hidle (hok hidle)
    · exact h
  | load k =>
    rw [SnapshotStore.next]
    split
    · next hidle => exact h.load hidle k
    · exact h
  | cleanupRequest rid =>
    rw [SnapshotStore.next]
    split
    · next hidle => exact h.mark hidle rfl
    · exact h
  | cleanupAll =>
    rw [SnapshotStore.next]
    split
    · next hidle => exact h.begin_cleanupAll hidle
    · exact h
  | caller => exact h.callerStep
  | acquire => exact h.acquire
  | timeout => exact h.timeout hok
  | take =>
    rw [SnapshotStore.next]
    split
    · next i rest hw hqueue => exact h.take hw hqueue
    · exact h
  | writer ok left =>
    rw [SnapshotStore.next]
    split
    · next i hw =>
      split
      · exact h
      · next hfree => exact h.acquired hw (by simpa using hfree)
    · next i stage hw => exact h.process hw ok left (hok i stage hw)
    · exact h
  | evict k =>
    rw [SnapshotStore.next]
    split
    · next i c hw hf => exact h.evict hw hf
    · exact h

theorem Inv.start : Inv ({} : State ρ α) where
  keys := List.nodup_nil
  buffered := by simp
  apart := by simp [Caller.saves]
  content := by simp [State.touching, Writer.touching]
  kept := by simp
  fifo := List.Pairwise.nil
  lock := by simp [Caller.holds]
  drained := by simp
  marks := by simp
  stage := by simp
  temps := by simp
  known := by simp
  gone := by simp [State.touching, Writer.touching]
  leftover := by simp
  file := by simp
  older := by simp
  cur := by simp [current]
  fresh := by simp
  written := by simp
  cleaning := by simp [Caller.cleans]
  cleanedAll := by simp [Caller.cleansAll]
  quiet := by simp [sweptLast]
  timedOut := by simp
  loading := by simp

def Answers (s : State ρ α) : Prop :=
  ∀ key result past, s.events = .loaded key result :: past →
    (result = none ∨ result = current key past) ∧
      (current key past ≠ none → lost key past = false → result = current key past)

theorem Answers.same (h : Answers s) (heq : s'.events = s.events) : Answers s' := by
  intro key result past hp
  exact h key result past (heq.symm.trans hp)

theorem Answers.other {e : Event ρ α} (hne : ∀ key result, e ≠ .loaded key result) (heq : s'.events = e :: s.events) :
    Answers s' := by
  intro key result past hp
  rw [heq, List.cons.injEq] at hp
  exact absurd hp.1 (hne key result)

theorem Answers.loaded {key : Key ρ} {result : Option α} (heq : s'.events = .loaded key result :: s.events)
    (hresult : result = none ∨ result = current key s.events)
    (hcur : ∀ c, current key s.events = some c → lost key s.events = false → result = some c) : Answers s' := by
  intro key' result' past hp
  rw [heq, List.cons.injEq, Event.loaded.injEq] at hp
  obtain ⟨⟨rfl, rfl⟩, rfl⟩ := hp
  refine ⟨hresult, fun hne hl => ?_⟩
  obtain ⟨c, hc⟩ := Option.ne_none_iff_exists'.1 hne
  rw [hc]
  exact hcur c hc hl

theorem Inv.answers_load (h : Inv s) (ha : Answers s) (hidle : s.caller = .idle) (k : Key ρ) :
    Answers (loadPending hasTensors s k) := by
  have hnosave : ¬ s.caller.saves k := by rw [hidle]; exact id
  have hnowipe : ¬ s.caller.wipes := by rw [hidle]; exact id
  unfold loadPending
  split
  · next e he =>
    have hk : current k s.events = some e.content := by
      rcases h.known k e he with hk | hs | hw
      · exact hk
      · exact absurd hs hnosave
      · exact absurd hw hnowipe
    split
    · exact Answers.loaded (s := s) rfl (.inr hk.symm) fun c hc _ => hk.symm.trans hc
    · exact ha.same rfl
  · exact ha.same rfl

/-- The file that a load reads holds the current snapshot. -/
theorem Inv.answers_loading (h : Inv s) {k : Key ρ} (hloading : s.caller = .loading k) :
    Answers (State.log { s with caller := .idle } (.loaded k (s.files k))) := by
  have hnosave : ¬ s.caller.saves k := by rw [hloading]; exact id
  have hnosweep : ¬ s.caller.sweeps k.1 := by rw [hloading]; exact id
  refine Answers.loaded (s := s) rfl ?_ ?_
  · cases hf : s.files k with
    | none => exact .inl rfl
    | some c =>
      rcases h.file k c hf with hl | hc | hs
      · obtain ⟨⟨v, extracted⟩, he⟩ := live_iff.1 hl
        cases extracted with
        | true => exact absurd he (h.loading k v hloading)
        | false => cases (h.leftover k v he).symm.trans hf
      · exact .inr hc.symm
      · exact absurd hs hnosweep
  · intro c hc hl
    rcases h.cur k c hc hl with ⟨hp, -⟩ | ⟨hf, -⟩
    · exact absurd hp (h.loading k c hloading)
    · exact hf

theorem branch_events (s : State ρ α) (i : Item ρ α) (yes no : Stage) : (s.branch i yes no).events = s.events := by
  rw [branch_eq]
  split <;> rfl

theorem Answers.process (ha : Answers s) (i : Item ρ α) (ok left : Bool) (st : Stage) :
    Answers (processWriteItem s i ok left st) := by
  cases st with
  | clearedCheck | check | checkTemp | checkFile | failedCheck => exact ha.same (branch_events s i _ _)
  | write =>
    rw [processWriteItem]
    split <;> exact ha.same rfl
  | rename =>
    rw [processWriteItem]
    split
    · exact .other (e := .written i.key) (by simp) rfl
    · exact ha.same rfl
  | failed => exact .other (e := .failed i.key) (by simp) rfl
  | dec final =>
    rw [processWriteItem, decCancelled_eq]
    exact ha.same rfl
  | finish =>
    rw [processWriteItem]
    split
    · exact ha.same rfl
    · split <;> exact ha.same rfl
  | _ => exact ha.same rfl

theorem Answers.next (h : Inv s) (ha : Answers s) (a : Act ρ α) : Answers (next hasTensors s a) := by
  cases a with
  | tick time => exact ha.same rfl
  | save k c =>
    rw [SnapshotStore.next]
    split
    · exact .other (e := .begun k) (by simp) rfl
    · exact ha
  | load k =>
    rw [SnapshotStore.next]
    split
    · next hidle => exact h.answers_load ha hidle k
    · exact ha
  | cleanupRequest rid =>
    rw [SnapshotStore.next]
    split
    · refine .other (s := s) (e := .cleaned rid) (by simp) ?_
      exact congrArg (List.cons _) (markCancelled_rest s rid).2.2.2.2
    · exact ha
  | cleanupAll =>
    rw [SnapshotStore.next]
    split
    · exact .other (e := .cleanedAll) (by simp) rfl
    · exact ha
  | caller =>
    rw [SnapshotStore.next, SnapshotStore.callerStep]
    split
    · split <;> exact ha.same rfl
    · next k c _ =>
      split
      · exact .other (e := .saved k c) (by simp) rfl
      · exact ha.same rfl
    · exact ha.same rfl
    · next k hc => exact h.answers_loading hc
    · exact ha.same rfl
    · exact ha.same rfl
    · next rid _ => exact .other (e := .swept rid) (by simp) rfl
    · split <;> exact ha.same rfl
    all_goals exact ha.same rfl
  | acquire | timeout =>
    rw [SnapshotStore.next]
    split
    · split <;> exact ha.same rfl
    · split <;> exact ha.same rfl
    · exact ha
  | take =>
    rw [SnapshotStore.next]
    split <;> exact ha.same rfl
  | writer ok left =>
    rw [SnapshotStore.next]
    split
    · split <;> exact ha.same rfl
    · exact ha.process _ ok left _
    · exact ha
  | evict k =>
    rw [SnapshotStore.next]
    split
    · exact .other (e := .evicted k) (by simp) rfl
    · exact ha

/-- With nothing queued and nothing in hand, nothing is owed. -/
theorem Inv.settled (h : Inv s) (hqueue : s.queue = []) (hidle : s.writer = .idle) (rid : ρ)
    (hm : s.cancelled rid ≠ none) : s.caller.clearsMarks rid := by
  obtain ⟨⟨n, t⟩, hm⟩ := Option.ne_none_iff_exists'.1 hm
  obtain ⟨hpos, hor⟩ := h.marks rid n t hm
  refine hor.resolve_left fun hle => ?_
  simp only [State.owed, State.owing, hqueue, hidle, Writer.due, Writer.owing, List.append_nil, List.countP_nil] at hle
  omega

/-- In every run whose steps are orderly the store is a map. -/
theorem snapshots_mapLike (hasTensors : α → Bool) (s : State ρ α)
    (h : Reached (· = ({} : State ρ α)) Orderly (next hasTensors) s) : MapLike s := by
  have hboth : Inv s ∧ Answers s := by
    refine h.invariant (I := fun s => Inv s ∧ Answers s) ?_ ?_
    · rintro _ rfl
      refine ⟨.start, fun key result past hp => ?_⟩
      cases hp
    · exact fun s a _ hboth hok => ⟨hboth.1.next a hok, Answers.next hboth.1 hboth.2 a⟩
  refine ⟨hboth.2, fun rid tc hswept => ?_, fun rid hqueue hidle hm => hboth.1.settled hqueue hidle rid hm⟩
  exact (hboth.1.quiet rid (.inl hswept)).1 (rid, tc) rfl |>.2

/-- Two saves of one request, each written by its item, a cleanup that waits for the writer, and two loads. -/
theorem snapshots_mapLike_saved :
    MapLike (runList (next fun _ : Nat => true) ({} : State Bool Nat)
      ([.save (true, 1) 7, .caller, .caller, .take] ++ List.replicate 10 (.writer true false) ++
        [.load (true, 1), .caller, .save (true, 2) 8, .caller, .caller, .take, .cleanupRequest true, .acquire, .caller,
          .caller, .caller, .load (true, 2), .caller])) := by
  have hstart : Reached (· = ({} : State Bool Nat)) Orderly (next fun _ => true) {} := .start rfl
  have hwriter : ∀ s : State Bool Nat, (∀ r, s.expired r = false) → Orderly s (.writer true false) := by
    intro s hx i stage _ _ hexpired
    cases (hx i.key.1).symm.trans hexpired
  have hnone : ∀ {s : State Bool Nat} {k c}, s.touching = [] → Orderly s (.save k c) := by
    intro s k c ht _ i hi
    rw [ht] at hi
    cases hi
  refine snapshots_mapLike _ _ (hstart.runList ⟨hnone rfl, trivial, trivial, trivial, ?_⟩)
  refine ⟨hwriter _ fun _ => rfl, hwriter _ fun _ => rfl, hwriter _ fun _ => rfl, hwriter _ fun _ => rfl,
    hwriter _ fun _ => rfl, ?_⟩
  refine ⟨hwriter _ fun _ => rfl, hwriter _ fun _ => rfl, hwriter _ fun _ => rfl, hwriter _ fun _ => rfl,
    hwriter _ fun _ => rfl, ?_⟩
  exact ⟨trivial, trivial, hnone rfl, trivial, trivial, trivial, trivial, trivial, trivial, trivial, trivial, trivial,
    trivial, trivial⟩

/-- (a) The item of an earlier save writes its own bytes, and takes the later one out of the buffer.
(b) A cleanup times out behind the last test of the marks: its mark stays. (c) The wait of
`cleanup_all` times out while an item is being written: its file comes back. -/
theorem items_taken_for_others :
    (¬ MapLike (runList (next fun _ : Nat => true) ({} : State Bool Nat)
      ([.save (true, 1) 7, .caller, .caller, .save (true, 1) 8, .caller, .caller, .take] ++
        List.replicate 10 (.writer true false) ++ [.load (true, 1), .caller]))) ∧
    (¬ MapLike (runList (next fun _ : Nat => true) ({} : State Bool Nat)
      ([.save (true, 1) 7, .caller, .caller, .take] ++ List.replicate 8 (.writer true false) ++
        [.cleanupRequest true, .timeout, .caller, .writer true false, .writer true false]))) ∧
    ¬ MapLike (runList (next fun _ : Nat => true) ({} : State Bool Nat)
      ([.save (true, 1) 7, .caller, .caller, .take, .writer true false, .writer true false, .cleanupAll, .caller, .timeout,
        .caller, .caller, .caller] ++ List.replicate 8 (.writer true false) ++ [.load (true, 1), .caller])) := by
  refine ⟨?_, ?_, ?_⟩
  · intro h
    have hload := (h.1 (true, 1) (some 7) _ rfl).1
    exact absurd hload (by decide)
  · intro h
    exact absurd (h.2.2 true rfl rfl (by decide)) id
  · intro h
    have hload := (h.1 (true, 1) (some 7) _ rfl).1
    exact absurd hload (by decide)

end FusionMlx.SnapshotStore
