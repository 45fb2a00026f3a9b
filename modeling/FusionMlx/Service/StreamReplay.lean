import FusionMlx.Service.StreamSession

/-!
# Replaying a session

What each operation does to the buffer, to the event and to its waiters, and
what a consumer has put out by then.
-/
namespace FusionMlx.StreamSessions

variable {P : Type} {limits : Limits} {s s' : StreamSession P} {c : Consumer}

def bytes (events : List String) : Nat := (events.map String.length).sum

namespace StreamSession

def Closed (s : StreamSession P) : Prop := s.complete = true ∨ s.producerFinished = true

def inPhase (s : StreamSession P) (phase : TaskPhase) : Prop := ∃ task, s.producerTask = some task ∧ task.phase = phase

structure Ok (limits : Limits) (s : StreamSession P) : Prop where
  buffered : s.bufferedBytes = bytes s.events
  capped : s.events.dropLast.length ≤ limits.maxEvents ∧ bytes s.events.dropLast ≤ limits.maxBufferBytes
  room : s.complete = false → s.events.length ≤ limits.maxEvents ∧ bytes s.events ≤ limits.maxBufferBytes
  resolved : s.newData.value = true → s.newData.waiters = []
  woken : s.complete = true → s.newData.waiters = []
  gone : s.inPhase .done → s.newData.waiters = []
  marked : s.inPhase .releasing → s.complete = true

structure Evolves (s s' : StreamSession P) : Prop where
  principal : s'.principal = s.principal
  createdAt : s'.createdAt = s.createdAt
  events : s.events <+: s'.events
  closed : s.Closed → s'.events = s.events ∧ s'.Closed

theorem producerFinished_iff (s : StreamSession P) : s.producerFinished = true ↔ s.inPhase .done := by
  simp [producerFinished, inPhase, Option.any_eq_true]

theorem Evolves.refl (s : StreamSession P) : Evolves s s :=
  ⟨rfl, rfl, List.prefix_refl _, fun h => ⟨rfl, h⟩⟩

theorem Evolves.trans {s'' : StreamSession P} (h : Evolves s s') (h' : Evolves s' s'') : Evolves s s'' where
  principal := h'.principal.trans h.principal
  createdAt := h'.createdAt.trans h.createdAt
  events := h.events.trans h'.events
  closed := fun hclosed => by
    obtain ⟨hsame, hclosed'⟩ := h.closed hclosed
    obtain ⟨hsame', hclosed''⟩ := h'.closed hclosed'
    exact ⟨hsame'.trans hsame, hclosed''⟩

end StreamSession

theorem Event.set_waiters {e : Event} (h : e.value = true → e.waiters = []) : e.set.waiters = [] := by
  unfold Event.set
  split
  · rename_i hvalue
    exact h hvalue
  · rfl

namespace StreamSession

variable {phase : TaskPhase}

theorem inPhase_cancelProducer : s.cancelProducer.inPhase phase ↔ s.inPhase phase := by
  unfold inPhase cancelProducer
  cases s.producerTask with
  | none => simp
  | some task =>
    simp only [Option.map_some, Option.some.injEq, exists_eq_left']
    split <;> rfl

theorem inPhase_setPhase {phase' : TaskPhase} :
    (s.setPhase phase').inPhase phase ↔ s.producerTask ≠ none ∧ phase' = phase := by
  unfold inPhase setPhase
  cases s.producerTask <;> simp

theorem Ok.cancelProducer (h : s.Ok limits) : s.cancelProducer.Ok limits where
  buffered := h.buffered
  capped := h.capped
  room := h.room
  resolved := h.resolved
  woken := h.woken
  gone := fun hdone => h.gone (inPhase_cancelProducer.1 hdone)
  marked := fun hreleasing => h.marked (inPhase_cancelProducer.1 hreleasing)

theorem evolves_cancelProducer (s : StreamSession P) : Evolves s s.cancelProducer where
  principal := rfl
  createdAt := rfl
  events := List.prefix_refl _
  closed := fun h => ⟨rfl, h.imp id fun hdone =>
    (producerFinished_iff _).2 (inPhase_cancelProducer.2 ((producerFinished_iff _).1 hdone))⟩

theorem Ok.markError (h : s.Ok limits) (err : String) : (s.markError err).Ok limits where
  buffered := h.buffered
  capped := h.capped
  room := fun hopen => by cases hopen
  resolved := fun _ => Event.set_waiters h.resolved
  woken := fun _ => Event.set_waiters h.resolved
  gone := fun _ => Event.set_waiters h.resolved
  marked := fun _ => rfl

theorem evolves_markError (s : StreamSession P) (err : String) : Evolves s (s.markError err) where
  principal := rfl
  createdAt := rfl
  events := List.prefix_refl _
  closed := fun _ => ⟨rfl, .inl rfl⟩

theorem Ok.markComplete (h : s.Ok limits) (reason : Option String) : (s.markComplete reason).Ok limits where
  buffered := h.buffered
  capped := h.capped
  room := fun hopen => by cases hopen
  resolved := fun _ => Event.set_waiters h.resolved
  woken := fun _ => Event.set_waiters h.resolved
  gone := fun _ => Event.set_waiters h.resolved
  marked := fun _ => rfl

theorem evolves_markComplete (s : StreamSession P) (reason : Option String) : Evolves s (s.markComplete reason) where
  principal := rfl
  createdAt := rfl
  events := List.prefix_refl _
  closed := fun _ => ⟨rfl, .inl rfl⟩

theorem Ok.setPhase (h : s.Ok limits) (hdone : phase = .done → s.newData.waiters = [])
    (hreleasing : phase = .releasing → s.complete = true) : (s.setPhase phase).Ok limits where
  buffered := h.buffered
  capped := h.capped
  room := h.room
  resolved := h.resolved
  woken := h.woken
  gone := fun hin => hdone (inPhase_setPhase.1 hin).2
  marked := fun hin => hreleasing (inPhase_setPhase.1 hin).2

theorem evolves_setPhase (phase : TaskPhase) (hnot : ¬ s.inPhase .done) : Evolves s (s.setPhase phase) where
  principal := rfl
  createdAt := rfl
  events := List.prefix_refl _
  closed := fun h => ⟨rfl, h.imp id fun hdone => absurd ((producerFinished_iff s).1 hdone) hnot⟩

/-- The buffer takes one chunk over a cap at most. -/
theorem Ok.append (h : s.Ok limits) (chunk : String) : (s.append limits chunk).Ok limits := by
  unfold StreamSession.append
  split
  · exact h
  · rename_i hopen
    have hroom := h.room (Bool.not_eq_true _ ▸ hopen)
    have hbytes : s.bufferedBytes + chunk.length = bytes (s.events ++ [chunk]) := by
      rw [h.buffered]
      simp [bytes]
    have hcapped : (s.events ++ [chunk]).dropLast.length ≤ limits.maxEvents ∧
        bytes (s.events ++ [chunk]).dropLast ≤ limits.maxBufferBytes := by
      rw [List.dropLast_concat]
      exact hroom
    have hset := Event.set_waiters h.resolved
    simp only
    split
    · have hagain : s.newData.set.set.waiters = [] := Event.set_waiters fun _ => hset
      exact Ok.cancelProducer
        ⟨hbytes, hcapped, (fun hopen => by cases hopen), fun _ => hagain, fun _ => hagain, fun _ => hagain, fun _ => rfl⟩
    · rename_i hin
      rw [not_or, Nat.not_lt, Nat.not_lt] at hin
      exact ⟨hbytes, hcapped, fun _ => ⟨hin.1, by rw [← hbytes]; exact hin.2⟩, fun _ => hset, fun _ => hset, fun _ => hset,
        h.marked⟩

theorem evolves_append (limits : Limits) (chunk : String) (hnot : ¬ s.inPhase .done) :
    Evolves s (s.append limits chunk) := by
  unfold StreamSession.append
  split
  · exact Evolves.refl s
  · rename_i hopen
    have hclosed : ¬ s.Closed := fun h => h.elim hopen fun hdone => hnot ((producerFinished_iff s).1 hdone)
    simp only
    split
    · exact ⟨rfl, rfl, List.prefix_append _ _, fun h => absurd h hclosed⟩
    · exact ⟨rfl, rfl, List.prefix_append _ _, fun h => absurd h hclosed⟩

theorem Ok.finalize (h : s.Ok limits) : s.finalize.Ok limits := by
  unfold StreamSession.finalize
  split
  · rename_i hcomplete
    exact h.setPhase (fun hne => by cases hne) fun _ => hcomplete
  · exact (h.markError _).setPhase (fun hne => by cases hne) fun _ => rfl

theorem evolves_finalize (hnot : ¬ s.inPhase .done) : Evolves s s.finalize := by
  unfold StreamSession.finalize
  split
  · exact evolves_setPhase _ hnot
  · exact (evolves_markError s _).trans (evolves_setPhase _ hnot)

/-- A step of the producer keeps a session in order, unless it ends a task that was cancelled before it ran
while somebody waits. -/
theorem Ok.produce (h : s.Ok limits) {next : ProducerStep}
    (hfirst : ∀ task, next = .first → s.producerTask = some task → task.phase = .created → task.cancelRequested = true →
      s.newData.waiters = []) : (s.produce limits next).Ok limits := by
  unfold StreamSession.produce
  cases htask : s.producerTask with
  | none => exact h
  | some task =>
    simp only
    split
    · rename_i hphase
      split
      · rename_i hcancel
        exact h.setPhase (fun _ => hfirst task rfl htask hphase hcancel) fun hne => by cases hne
      · exact h.setPhase (fun hne => by cases hne) fun hne => by cases hne
    · exact h.append _
    · exact (h.markError _).finalize
    · exact (h.markComplete _).finalize
    · exact h.finalize
    · rename_i hphase
      have hcomplete := h.marked ⟨task, htask, hphase⟩
      exact h.setPhase (fun _ => h.woken hcomplete) fun hne => by cases hne
    · exact h

theorem evolves_produce (limits : Limits) (s : StreamSession P) (next : ProducerStep) :
    Evolves s (s.produce limits next) := by
  unfold StreamSession.produce
  cases htask : s.producerTask with
  | none => exact Evolves.refl s
  | some task =>
    have hnot : task.phase ≠ .done → ¬ s.inPhase .done := by
      rintro hne ⟨task', htask', hdone⟩
      rw [htask, Option.some.injEq] at htask'
      exact hne (htask' ▸ hdone)
    simp only
    split
    · rename_i hphase
      have hnot := hnot (by rw [hphase]; decide)
      split
      · exact evolves_setPhase _ hnot
      · exact evolves_setPhase _ hnot
    · rename_i hphase
      exact evolves_append _ _ (hnot (by rw [hphase]; decide))
    · rename_i hphase
      exact (evolves_markError s _).trans (evolves_finalize (hnot (by rw [hphase]; decide)))
    · rename_i hphase
      exact (evolves_markComplete s _).trans (evolves_finalize (hnot (by rw [hphase]; decide)))
    · rename_i hphase
      exact evolves_finalize (hnot (by rw [hphase]; decide))
    · rename_i hphase
      exact evolves_setPhase _ (hnot (by rw [hphase]; decide))
    · exact Evolves.refl s

end StreamSession

structure Consumer.Ok (s : StreamSession P) (c : Consumer) : Prop where
  output : c.output <+: s.events
  standing : c.phase = .ready ∨ c.phase = .waiting → c.output.length = c.idx
  yielding : c.phase = .yielding → c.output.length = c.idx + 1
  returned : c.phase = .returned → c.output = s.events ∧ s.Closed

theorem Consumer.Ok.evolves (h : c.Ok s) (he : StreamSession.Evolves s s') : c.Ok s' where
  output := h.output.trans he.events
  standing := h.standing
  yielding := h.yielding
  returned := fun hphase => by
    obtain ⟨hall, hclosed⟩ := h.returned hphase
    obtain ⟨hsame, hclosed'⟩ := he.closed hclosed
    exact ⟨hall.trans hsame.symm, hclosed'⟩

/-- One run of the loop up to its next suspension. -/
theorem resumeFrom_ok (hs : s.Ok limits) (id : Nat) (hout : c.output <+: s.events) :
    (resumeFrom s id c.output.length c).1.Ok limits ∧
      StreamSession.Evolves s (resumeFrom s id c.output.length c).1 ∧
      (resumeFrom s id c.output.length c).2.Ok (resumeFrom s id c.output.length c).1 ∧
      (resumeFrom s id c.output.length c).2.session = c.session ∧
      (resumeFrom s id c.output.length c).1.producerTask = s.producerTask := by
  unfold resumeFrom
  have htake := List.prefix_iff_eq_take.1 hout
  cases hevent : s.events[c.output.length]? with
  | some event =>
    refine ⟨hs, .refl s, ⟨?_, fun h => ?_, fun _ => List.length_append, fun h => ?_⟩, rfl, rfl⟩
    · have hnext : c.output ++ [event] = s.events.take (c.output.length + 1) := by
        rw [List.take_add_one, hevent, ← htake]
        rfl
      change c.output ++ [event] <+: s.events
      rw [hnext]
      exact List.take_prefix _ _
    · obtain h | h := h <;> cases h
    · cases h
  | none =>
    have hall : c.output = s.events := by
      rw [htake]
      exact List.take_of_length_le (List.getElem?_eq_none_iff.1 hevent)
    simp only
    split
    · rename_i hcomplete
      refine ⟨hs, .refl s, ⟨hout, fun h => ?_, fun h => ?_, fun _ => ⟨hall, .inl hcomplete⟩⟩, rfl, rfl⟩
      · obtain h | h := h <;> cases h
      · cases h
    · split
      · rename_i hfinished
        refine ⟨hs, .refl s, ⟨hout, fun h => ?_, fun h => ?_, fun _ => ⟨hall, .inr hfinished⟩⟩, rfl, rfl⟩
        · obtain h | h := h <;> cases h
        · cases h
      · rename_i hopen hrunning
        have hnot : ¬ s.inPhase .done := fun h => hrunning ((StreamSession.producerFinished_iff s).2 h)
        refine ⟨⟨hs.buffered, hs.capped, hs.room, fun h => ?_, fun h => absurd h hopen, fun h => absurd h hnot, hs.marked⟩,
          ⟨rfl, rfl, List.prefix_refl _, fun h => ⟨rfl, h⟩⟩, ⟨hout, fun _ => rfl, fun h => ?_, fun h => ?_⟩, rfl, rfl⟩
        · simp [Event.clear, Event.wait] at h
        · cases h
        · cases h

/-- A consumer that goes on leaves the session in order. -/
theorem resume_ok (hs : s.Ok limits) (hc : c.Ok s) (id : Nat) :
    (resume s id c).1.Ok limits ∧ StreamSession.Evolves s (resume s id c).1 ∧ (resume s id c).2.Ok (resume s id c).1 ∧
      (resume s id c).2.session = c.session ∧ (resume s id c).1.producerTask = s.producerTask := by
  have hrun := resumeFrom_ok hs id hc.output
  have hstay : s.Ok limits ∧ StreamSession.Evolves s s ∧ c.Ok s ∧ c.session = c.session ∧ s.producerTask = s.producerTask :=
    ⟨hs, .refl s, hc, rfl, rfl⟩
  unfold resume
  split
  · rename_i hphase
    rwa [hc.standing (.inl hphase)] at hrun
  · rename_i hphase
    rwa [hc.yielding hphase] at hrun
  · rename_i hphase
    split
    · exact hstay
    · rwa [hc.standing (.inr hphase)] at hrun
  · exact hstay
  · exact hstay

/-- On a closed session a consumer yields or returns, and leaves the session as it is. -/
theorem resume_closed (hs : s.Ok limits) (hc : c.Ok s) (hclosed : s.Closed) (hopen : c.phase ≠ .closed) (id : Nat) :
    (resume s id c).1 = s ∧ (resume s id c).2.phase ≠ .closed ∧
      ((resume s id c).2.phase = .returned ∨ (resume s id c).2.output.length = c.output.length + 1) := by
  have hnobody : s.newData.waiters = [] :=
    hclosed.elim hs.woken fun hdone => hs.gone ((StreamSession.producerFinished_iff s).1 hdone)
  have hrun : (resumeFrom s id c.output.length c).1 = s ∧ (resumeFrom s id c.output.length c).2.phase ≠ .closed ∧
      ((resumeFrom s id c.output.length c).2.phase = .returned ∨
        (resumeFrom s id c.output.length c).2.output.length = c.output.length + 1) := by
    unfold resumeFrom
    cases s.events[c.output.length]? with
    | some event => exact ⟨rfl, by simp, .inr List.length_append⟩
    | none =>
      obtain hcomplete | hfinished := hclosed
      · simp [hcomplete]
      · simp only [hfinished, if_true]
        split <;> simp
  generalize hn : c.output.length = n at hrun ⊢
  unfold resume
  split
  · rename_i hphase
    rwa [← hc.standing (.inl hphase), hn]
  · rename_i hphase
    rwa [← hc.yielding hphase, hn]
  · rename_i hphase
    rwa [hnobody, if_neg List.not_mem_nil, ← hc.standing (.inr hphase), hn]
  · rename_i hphase
    exact ⟨rfl, hopen, .inl hphase⟩
  · rename_i hphase
    exact absurd hphase hopen

end FusionMlx.StreamSessions
