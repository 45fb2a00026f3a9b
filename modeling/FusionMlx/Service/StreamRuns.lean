import FusionMlx.Service.StreamReplay
import FusionMlx.Support.Runs

/-!
# Runs over all sessions

What a step keeps of the sessions and their consumers, and what the store
counts against what was started, dropped and rejected.
-/
namespace FusionMlx.StreamSessions

variable {P : Type} {limits : Limits} {s s' : State P}

structure Sound (limits : Limits) (s : State P) : Prop where
  sessions : ∀ (id : Nat) (session : StreamSession P), s.sessions[id]? = some session → session.Ok limits
  consumers : ∀ (i : Nat) (c : Consumer), s.consumers[i]? = some c →
    ∃ session, s.sessions[c.session]? = some session ∧ c.Ok session
  pending : ∀ id ∈ s.pending, ∃ session, s.sessions[id]? = some session ∧ session.producerTask = none

structure GoesOn (limits : Limits) (s s' : State P) : Prop where
  length : s'.sessions.length = s.sessions.length
  sessions : ∀ (id : Nat) (session session' : StreamSession P),
    s.sessions[id]? = some session → s'.sessions[id]? = some session' → session.Ok limits →
      session'.Ok limits ∧ StreamSession.Evolves session session' ∧
        (id ∈ s'.pending → session.producerTask = none → session'.producerTask = none)
  consumers : s'.consumers = s.consumers
  pending : s'.pending ⊆ s.pending

namespace GoesOn

variable {id : Nat} {session session' : StreamSession P}

theorem get (h : GoesOn limits s s') (hget : s.sessions[id]? = some session) :
    ∃ session', s'.sessions[id]? = some session' := by
  have hlt := (List.getElem?_eq_some_iff.1 hget).1
  rw [← h.length] at hlt
  exact ⟨_, List.getElem?_eq_getElem hlt⟩

theorem back (h : GoesOn limits s s') (hget : s'.sessions[id]? = some session') :
    ∃ session, s.sessions[id]? = some session := by
  have hlt := (List.getElem?_eq_some_iff.1 hget).1
  rw [h.length] at hlt
  exact ⟨_, List.getElem?_eq_getElem hlt⟩

theorem refl (limits : Limits) (s : State P) : GoesOn limits s s where
  length := rfl
  sessions := fun id session session' h h' hok => by
    rw [h, Option.some.injEq] at h'
    subst h'
    exact ⟨hok, .refl session, fun _ hnone => hnone⟩
  consumers := rfl
  pending := List.Subset.refl _

theorem trans {s'' : State P} (h : GoesOn limits s s') (h' : GoesOn limits s' s'') : GoesOn limits s s'' where
  length := h'.length.trans h.length
  sessions := fun id session session'' hold hnew hok => by
    obtain ⟨session', hmid⟩ := h.get hold
    obtain ⟨hok', hevolves, hnone⟩ := h.sessions id session session' hold hmid hok
    obtain ⟨hok'', hevolves', hnone'⟩ := h'.sessions id session' session'' hmid hnew hok'
    exact ⟨hok'', hevolves.trans hevolves', fun hid htask => hnone' hid (hnone (h'.pending hid) htask)⟩
  consumers := h'.consumers.trans h.consumers
  pending := List.Subset.trans h'.pending h.pending

theorem sound (h : GoesOn limits s s') (hs : Sound limits s) : Sound limits s' where
  sessions := fun id session' hget => by
    obtain ⟨session, hold⟩ := h.back hget
    exact (h.sessions id session session' hold hget (hs.sessions id session hold)).1
  consumers := fun i c hc => by
    rw [h.consumers] at hc
    obtain ⟨session, hold, hok⟩ := hs.consumers i c hc
    obtain ⟨session', hget⟩ := h.get hold
    exact ⟨session', hget, hok.evolves (h.sessions _ _ _ hold hget (hs.sessions _ _ hold)).2.1⟩
  pending := fun id hid => by
    obtain ⟨session, hold, hnone⟩ := hs.pending id (h.pending hid)
    obtain ⟨session', hget⟩ := h.get hold
    exact ⟨session', hget, (h.sessions _ _ _ hold hget (hs.sessions _ _ hold)).2.2 hid hnone⟩

end GoesOn

/-- One session is changed, and maybe a start is settled. -/
theorem goesOn_update (limits : Limits) (s : State P) (id : Nat) (f : StreamSession P → StreamSession P) {pending : List Nat}
    (hpending : pending ⊆ s.pending)
    (hf : ∀ session, s.sessions[id]? = some session → session.Ok limits →
      (f session).Ok limits ∧ StreamSession.Evolves session (f session) ∧
        (id ∈ pending → session.producerTask = none → (f session).producerTask = none)) :
    GoesOn limits s { s.updateSession id f with pending := pending } where
  length := List.length_modify ..
  sessions := fun j session session' hold hget hs => by
    change (s.sessions.modify id f)[j]? = some session' at hget
    rw [List.getElem?_modify, hold] at hget
    by_cases hj : id = j
    · subst hj
      simp only [Option.map_eq_map, Option.map_some, if_true, Option.some.injEq] at hget
      subst hget
      exact hf session hold hs
    · simp only [Option.map_eq_map, Option.map_some, if_neg hj, Option.some.injEq] at hget
      subst hget
      exact ⟨hs, .refl session, fun _ h => h⟩
  consumers := rfl
  pending := hpending

theorem goesOn_updateSession (limits : Limits) (s : State P) (id : Nat) (f : StreamSession P → StreamSession P)
    (hf : ∀ session, s.sessions[id]? = some session → session.Ok limits →
      (f session).Ok limits ∧ StreamSession.Evolves session (f session) ∧
        (session.producerTask = none → (f session).producerTask = none)) : GoesOn limits s (s.updateSession id f) :=
  goesOn_update limits s id f (List.Subset.refl _) fun session hget hok =>
    ⟨(hf session hget hok).1, (hf session hget hok).2.1, fun _ => (hf session hget hok).2.2⟩

theorem goesOn_cancelProducer (limits : Limits) (s : State P) (id : Nat) :
    GoesOn limits s (s.updateSession id StreamSession.cancelProducer) :=
  goesOn_updateSession limits s id _ fun session _ hok =>
    ⟨hok.cancelProducer, StreamSession.evolves_cancelProducer session, fun hnone => by
      rw [StreamSession.cancelProducer, hnone, Option.map_none]⟩

theorem goesOn_cancelAll (limits : Limits) (s : State P) (ids : List Nat) : GoesOn limits s (s.cancelAll ids) := by
  induction ids generalizing s with
  | nil => exact .refl limits s
  | cons id ids ih => exact (goesOn_cancelProducer limits s id).trans (ih _)

/-- The keys of the store and the time do not matter to the sessions. -/
theorem GoesOn.books (h : GoesOn limits s s') (now : Nat) (store dropped rejected : List Nat) :
    GoesOn limits s { s' with now := now, store := store, dropped := dropped, rejected := rejected } where
  length := h.length
  sessions := h.sessions
  consumers := h.consumers
  pending := h.pending

theorem goesOn_reapExpired (limits : Limits) (s : State P) : GoesOn limits s (s.reapExpired limits) :=
  (goesOn_cancelAll limits s _).books ..

theorem goesOn_drop (limits : Limits) (s : State P) (id : Nat) : GoesOn limits s (s.drop id) := by
  unfold State.drop
  split
  · exact (goesOn_cancelProducer limits s id).books ..
  · exact .refl limits s

theorem goesOn_get (limits : Limits) (s : State P) (id : Nat) : GoesOn limits s (s.get limits id).1 := by
  unfold State.get
  split
  · split
    · exact (goesOn_cancelProducer limits s id).books ..
    · exact .refl limits s
  · exact .refl limits s

theorem GoesOn.settle (h : GoesOn limits s s') {pending : List Nat} (hpending : pending ⊆ s'.pending) (rejected : List Nat) :
    GoesOn limits s { s' with pending := pending, rejected := rejected } where
  length := h.length
  sessions := fun j session session' hold hget hok => by
    obtain ⟨hok', hevolves, hnone⟩ := h.sessions j session session' hold hget hok
    exact ⟨hok', hevolves, fun hj => hnone (hpending hj)⟩
  consumers := h.consumers
  pending := List.Subset.trans hpending h.pending

theorem drop_pending (s : State P) (id : Nat) : (s.drop id).pending = s.pending := by
  unfold State.drop
  split <;> rfl

theorem goesOn_resolveRaises (limits : Limits) (s : State P) (id : Nat) : GoesOn limits s (s.resolveRaises id) := by
  unfold State.resolveRaises
  split
  · exact (GoesOn.refl limits s).settle (List.filter_subset_self _) _
  · exact .refl limits s

theorem goesOn_resolveNone (limits : Limits) (s : State P) (modelName : String) (id : Nat) :
    GoesOn limits s (s.resolveNone modelName id).1 := by
  unfold State.resolveNone
  split
  · refine (goesOn_drop limits s id).settle ?_ _
    rw [drop_pending]
    exact List.filter_subset_self _
  · exact .refl limits s

theorem Sound.attach (h : Sound limits s) {id : Nat} {session : StreamSession P} (hget : s.sessions[id]? = some session) :
    Sound limits (s.attach id) where
  sessions := h.sessions
  consumers := fun i c hc => by
    rw [State.attach, List.getElem?_append] at hc
    split at hc
    · exact h.consumers i c hc
    · rw [List.getElem?_singleton] at hc
      split at hc
      case isFalse => cases hc
      cases hc
      exact ⟨session, hget, List.nil_prefix, fun _ => rfl, fun h => (by cases h), fun h => (by cases h)⟩
  pending := h.pending

/-- A consumer is changed, in keeping with its session. -/
theorem Sound.setConsumer (h : Sound limits s) {i : Nat} {c : Consumer}
    (hc : i < s.consumers.length → ∃ session, s.sessions[c.session]? = some session ∧ c.Ok session) :
    Sound limits { s with consumers := s.consumers.set i c } where
  sessions := h.sessions
  consumers := fun j c' hc' => by
    rw [List.getElem?_set] at hc'
    split at hc'
    · split at hc'
      · rename_i hlt
        cases hc'
        exact hc (by simpa using hlt)
      · cases hc'
    · exact h.consumers j c' hc'
  pending := h.pending

theorem newSession_ok (limits : Limits) (principal : Option P) (now : Nat) :
    StreamSession.Ok limits { principal := principal, createdAt := now } where
  buffered := rfl
  capped := ⟨Nat.zero_le _, Nat.zero_le _⟩
  room := fun _ => ⟨Nat.zero_le _, Nat.zero_le _⟩
  resolved := fun _ => rfl
  woken := fun _ => rfl
  gone := fun _ => rfl
  marked := fun ⟨_, htask, _⟩ => by cases htask

theorem cancelAll_pending (s : State P) (ids : List Nat) : (s.cancelAll ids).pending = s.pending := by
  induction ids generalizing s with
  | nil => rfl
  | cons id ids ih => exact ih (s.updateSession id StreamSession.cancelProducer)

theorem getElem?_append_of_some {α : Type} {l l' : List α} {i : Nat} {a : α} (h : l[i]? = some a) : (l ++ l')[i]? = some a := by
  rw [List.getElem?_append_left (List.getElem?_eq_some_iff.1 h).1, h]

/-- A new session, whose start is then pending. -/
theorem Sound.create (h : Sound limits s) (principal : Option P) :
    Sound limits { s.create limits principal with pending := s.pending ++ [s.sessions.length] } := by
  have hreap := goesOn_reapExpired limits s
  have hs := hreap.sound h
  refine ⟨fun id session hget => ?_, fun i c hc => ?_, fun id hid => ?_⟩
  · change ((s.reapExpired limits).sessions ++ [_])[id]? = some session at hget
    rw [List.getElem?_append] at hget
    split at hget
    · exact hs.sessions id session hget
    · rw [List.getElem?_singleton] at hget
      split at hget
      case isFalse => cases hget
      cases hget
      exact newSession_ok limits principal _
  · obtain ⟨session, hget, hok⟩ := hs.consumers i c hc
    exact ⟨session, getElem?_append_of_some hget, hok⟩
  · rw [List.mem_append, List.mem_singleton] at hid
    obtain hid | rfl := hid
    · have hid' : id ∈ (s.reapExpired limits).pending := by
        rwa [State.reapExpired, cancelAll_pending]
      obtain ⟨session, hget, hnone⟩ := hs.pending id hid'
      exact ⟨session, getElem?_append_of_some hget, hnone⟩
    · refine ⟨{ principal := principal, createdAt := (s.reapExpired limits).now }, ?_, rfl⟩
      change ((s.reapExpired limits).sessions ++ [_])[_]? = some _
      rw [← hreap.length, List.getElem?_concat_length]

theorem Sound.launch (h : Sound limits s) (id : Nat) (returnSessionOnly : Bool) :
    Sound limits (s.launch id returnSessionOnly).1 := by
  unfold State.launch
  split
  case isFalse => exact h
  rename_i hid
  obtain ⟨session, hget, hnone⟩ := h.pending id hid
  have hnew : GoesOn limits s
      { s.updateSession id (fun session => { session with producerTask := some {} }) with
        pending := s.pending.filter (· ≠ id) } := by
    refine goesOn_update limits s id _ (List.filter_subset_self _) fun session' hget' hok => ?_
    rw [hget, Option.some.injEq] at hget'
    subst hget'
    have hphase : ∀ phase, phase ≠ TaskPhase.created →
        ¬ StreamSession.inPhase { session with producerTask := some {} } phase := by
      rintro phase hne ⟨task, htask, rfl⟩
      cases htask
      exact hne rfl
    refine ⟨⟨hok.buffered, hok.capped, hok.room, hok.resolved, hok.woken, fun hin => absurd hin (hphase _ (by decide)),
      fun hin => absurd hin (hphase _ (by decide))⟩, ⟨rfl, rfl, List.prefix_refl _, fun hclosed => ⟨rfl, ?_⟩⟩, fun hin => ?_⟩
    · obtain hcomplete | hfinished := hclosed
      · exact .inl hcomplete
      · rw [StreamSession.producerFinished, hnone] at hfinished
        cases hfinished
    · simp at hin
  have hs := hnew.sound h
  obtain ⟨session', hget'⟩ := hnew.get hget
  simp only
  split
  · exact hs
  · exact hs.attach hget'

theorem Sound.consume (h : Sound limits s) (i : Nat) : Sound limits (s.consume i) := by
  unfold State.consume
  cases hc : s.consumers[i]? with
  | none => exact h
  | some c =>
    obtain ⟨session, hget, hok⟩ := h.consumers i c hc
    simp only [hget]
    obtain ⟨hok', hevolves, hcok, hsame, htask⟩ := resume_ok (h.sessions _ _ hget) hok i
    have hgoes := goesOn_updateSession limits s c.session (fun _ => (resume session i c).1) fun session' hget' _ => by
      rw [hget, Option.some.injEq] at hget'
      subst hget'
      exact ⟨hok', hevolves, fun hnone => htask.trans hnone⟩
    refine (hgoes.sound h).setConsumer fun _ => ?_
    obtain ⟨session', hget'⟩ := hgoes.get hget
    have hnew : session' = (resume session i c).1 := by
      rw [State.updateSession, List.getElem?_modify, hget] at hget'
      simpa using hget'.symm
    rw [hsame]
    exact ⟨session', hget', hnew ▸ hcok⟩

theorem Sound.disconnect (h : Sound limits s) (i : Nat) : Sound limits (s.disconnect i) := by
  unfold State.disconnect
  cases hc : s.consumers[i]? with
  | none => exact h
  | some c =>
    obtain ⟨session, hget, hok⟩ := h.consumers i c hc
    have hleave : ∀ {e : Event}, e.waiters = [] → (e.leave i).waiters = [] := fun he => by
      rw [Event.leave, he, List.filter_nil]
    have hgoes := goesOn_updateSession limits s c.session
      (fun session => { session with newData := session.newData.leave i }) fun session _ hsession =>
        ⟨⟨hsession.buffered, hsession.capped, hsession.room, fun hvalue => hleave (hsession.resolved hvalue),
            fun hcomplete => hleave (hsession.woken hcomplete), fun hin => hleave (hsession.gone hin), hsession.marked⟩,
          ⟨rfl, rfl, List.prefix_refl _, fun hclosed => ⟨rfl, hclosed⟩⟩, fun hnone => hnone⟩
    obtain ⟨session', hget'⟩ := hgoes.get hget
    have hok' := hok.evolves (hgoes.sessions _ _ _ hget hget' (h.sessions _ _ hget)).2.1
    refine (hgoes.sound h).setConsumer fun _ => ⟨session', hget', ?_⟩
    split
    · rename_i hreturned
      rwa [← hreturned]
    · exact ⟨hok'.output, fun hphase => by simp at hphase, fun hphase => (by cases hphase), fun hphase => (by cases hphase)⟩

theorem Sound.lookup [DecidableEq P] (h : Sound limits s) (id : Nat) (principal : Option P) :
    Sound limits (s.lookup limits id principal).1 := by
  have hs := (goesOn_get limits s id).sound h
  unfold State.lookup
  cases hfound : s.get limits id with
  | mk s' found =>
    rw [hfound] at hs
    cases found with
    | none => exact hs
    | some session =>
      simp only
      split
      · exact hs
      · have hget : s'.sessions[id]? = some session := by
          unfold State.get at hfound
          split at hfound
          · split at hfound
            · cases hfound
            · rw [Prod.mk.injEq] at hfound
              rw [← hfound.1]
              exact hfound.2
          · cases hfound
        exact hs.attach hget

/-- A producer that was cancelled before its first step ends only while nobody waits; a start fails by an
exception only when its session is no more in the store or has expired. -/
def Meets (limits : Limits) (s : State P) : Action P → Prop
  | .resolveRaises id => id ∈ s.pending → id ∈ s.store → s.expiredKey limits id = true
  | .produce id .first => ∀ session task, s.sessions[id]? = some session → session.producerTask = some task →
      task.phase = .created → task.cancelRequested = true → session.newData.waiters = []
  | _ => True

theorem Sound.step [DecidableEq P] (h : Sound limits s) {a : Action P} (ha : Meets limits s a) :
    Sound limits (step limits s a) := by
  cases a with
  | tick time => exact ⟨h.sessions, h.consumers, h.pending⟩
  | start principal =>
    have hs := (goesOn_reapExpired limits s).sound h
    unfold StreamSessions.step State.start State.countForPrincipal
    simp only
    split
    · exact hs
    · exact hs.create principal
  | resolveRaises id => exact (goesOn_resolveRaises limits s id).sound h
  | resolveNone modelName id => exact (goesOn_resolveNone limits s modelName id).sound h
  | launch id returnSessionOnly => exact h.launch id returnSessionOnly
  | produce id next =>
    refine (goesOn_updateSession limits s id _ fun session hget hok => ⟨hok.produce ?_, ?_, ?_⟩).sound h
    · rintro task rfl htask hphase hcancel
      exact ha session task hget htask hphase hcancel
    · exact StreamSession.evolves_produce limits session next
    · intro hnone
      rw [StreamSession.produce, hnone]
      exact hnone
  | cancelTask id => exact (goesOn_cancelProducer limits s id).sound h
  | lookup id principal => exact h.lookup id principal
  | drop id => exact (goesOn_drop limits s id).sound h
  | consume i => exact h.consume i
  | disconnect i => exact h.disconnect i

end FusionMlx.StreamSessions
