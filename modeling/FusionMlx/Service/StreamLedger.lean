import FusionMlx.Service.StreamRuns

/-!
# What the store counts

The ledger tells who started a session and when, and what has become of it. It
balances when the unexpired keys of the store are the sessions that are neither
dropped nor rejected nor expired.
-/
namespace FusionMlx.StreamSessions

open Runs

variable {P : Type} {limits : Limits}

structure Ledger (P : Type) where
  now : Nat
  cards : List (Option P × Nat)
  store : List Nat
  dropped : List Nat
  rejected : List Nat

def StreamSession.card (s : StreamSession P) : Option P × Nat := (s.principal, s.createdAt)

def State.ledger (s : State P) : Ledger P where
  now := s.now
  cards := s.sessions.map StreamSession.card
  store := s.store
  dropped := s.dropped
  rejected := s.rejected

variable {id : Nat}

namespace Ledger

variable {l : Ledger P}

def expired (limits : Limits) (l : Ledger P) (id : Nat) : Bool := l.cards[id]?.any fun card => limits.ttl < l.now - card.2

def standing (l : Ledger P) : List Nat := (List.range l.cards.length).filter fun id => id ∉ l.dropped ∧ id ∉ l.rejected

def live (limits : Limits) (l : Ledger P) : List Nat := l.standing.filter fun id => !l.expired limits id

structure Balanced (limits : Limits) (l : Ledger P) : Prop where
  live : (l.store.filter fun id => !l.expired limits id) = l.live limits
  stored : ∀ id ∈ l.store, id < l.cards.length
  ended : ∀ id, id ∈ l.dropped ∨ id ∈ l.rejected → id < l.cards.length

theorem filter_swap {α : Type} (p q : α → Bool) (xs : List α) : (xs.filter p).filter q = (xs.filter q).filter p := by
  rw [List.filter_filter, List.filter_filter]
  exact List.filter_congr fun _ _ => Bool.and_comm ..

theorem expired_tick (time : Nat) (h : l.expired limits id = true) :
    expired limits { l with now := l.now + time } id = true := by
  simp only [expired, Option.any_eq_true, decide_eq_true_eq] at h ⊢
  obtain ⟨card, hcard, hold⟩ := h
  exact ⟨card, hcard, by omega⟩

/-- Time only makes more sessions expire. -/
theorem Balanced.tick (h : l.Balanced limits) (time : Nat) : Balanced limits { l with now := l.now + time } where
  live := by
    have hfilter : ∀ ids : List Nat, (ids.filter fun id => !expired limits { l with now := l.now + time } id) =
        (ids.filter fun id => !l.expired limits id).filter fun id => !expired limits { l with now := l.now + time } id := by
      intro ids
      rw [List.filter_filter]
      refine List.filter_congr fun id _ => ?_
      cases hold : l.expired limits id with
      | false => simp
      | true => simp [expired_tick time hold]
    change (l.store.filter _) = l.standing.filter _
    rw [hfilter, hfilter l.standing]
    exact congrArg _ h.live
  stored := h.stored
  ended := h.ended

/-- Keys of expired sessions may go. -/
theorem Balanced.take (h : l.Balanced limits) {keep : Nat → Bool} (hkeep : ∀ id, l.expired limits id = false → keep id = true) :
    Balanced limits { l with store := l.store.filter keep } where
  live := by
    change ((l.store.filter keep).filter fun id => !l.expired limits id) = l.live limits
    rw [← h.live, List.filter_filter]
    refine List.filter_congr fun id _ => ?_
    cases hold : l.expired limits id with
    | false => simp [hkeep id hold]
    | true => simp
  stored := fun id hid => h.stored id (List.mem_of_mem_filter hid)
  ended := h.ended

theorem Balanced.create (h : l.Balanced limits) (principal : Option P) :
    Balanced limits { l with cards := l.cards ++ [(principal, l.now)], store := l.store ++ [l.cards.length] } := by
  have hexpired : ∀ id < l.cards.length,
      expired limits { l with cards := l.cards ++ [(principal, l.now)], store := l.store ++ [l.cards.length] } id =
        l.expired limits id := by
    intro id hid
    simp only [expired, List.getElem?_append_left hid]
  have hnew : expired limits { l with cards := l.cards ++ [(principal, l.now)], store := l.store ++ [l.cards.length] }
      l.cards.length = false := by
    simp [expired]
  refine ⟨?_, fun id hid => ?_, fun id hid => ?_⟩
  · have hstore : (l.store.filter fun id => !expired limits
        { l with cards := l.cards ++ [(principal, l.now)], store := l.store ++ [l.cards.length] } id) = l.live limits := by
      rw [← h.live]
      exact List.filter_congr fun id hid => by rw [hexpired id (h.stored id hid)]
    have hout : l.cards.length ∉ l.dropped ∧ l.cards.length ∉ l.rejected :=
      ⟨fun hin => Nat.lt_irrefl _ (h.ended _ (.inl hin)), fun hin => Nat.lt_irrefl _ (h.ended _ (.inr hin))⟩
    have hstanding : standing { l with cards := l.cards ++ [(principal, l.now)], store := l.store ++ [l.cards.length] } =
        l.standing ++ [l.cards.length] := by
      simp [standing, List.range_succ, hout]
    have hlive : (l.standing.filter fun id => !expired limits
        { l with cards := l.cards ++ [(principal, l.now)], store := l.store ++ [l.cards.length] } id) = l.live limits :=
      List.filter_congr fun id hid => by rw [hexpired id (List.mem_range.1 (List.mem_of_mem_filter hid))]
    rw [Ledger.live, hstanding, List.filter_append, List.filter_append, hstore, hlive]
  · rw [List.mem_append, List.mem_singleton] at hid
    rw [List.length_append, List.length_singleton]
    obtain hid | rfl := hid
    · exact Nat.lt_succ_of_lt (h.stored id hid)
    · exact Nat.lt_succ_self _
  · rw [List.length_append, List.length_singleton]
    exact Nat.lt_succ_of_lt (h.ended id hid)

/-- A session leaves the store and is dropped. -/
theorem Balanced.drop (h : l.Balanced limits) (hid : id ∈ l.store) :
    Balanced limits { l with store := l.store.filter (· ≠ id), dropped := l.dropped ++ [id] } where
  live := by
    have hstanding : standing { l with store := l.store.filter (· ≠ id), dropped := l.dropped ++ [id] } =
        l.standing.filter (· ≠ id) := by
      rw [standing, standing, List.filter_filter]
      refine List.filter_congr fun j _ => ?_
      by_cases hj : j = id <;> simp [hj]
    have hlive : l.store.filter (fun id => !l.expired limits id) = l.standing.filter fun id => !l.expired limits id := h.live
    change ((l.store.filter (· ≠ id)).filter fun id => !l.expired limits id) =
      (standing { l with store := l.store.filter (· ≠ id), dropped := l.dropped ++ [id] }).filter fun id => !l.expired limits id
    rw [hstanding, filter_swap, hlive, filter_swap]
  stored := fun j hj => h.stored j (List.mem_of_mem_filter hj)
  ended := fun j hj => by
    simp only [List.mem_append, List.mem_singleton] at hj
    obtain (hj | rfl) | hj := hj
    · exact h.ended j (.inl hj)
    · exact h.stored j hid
    · exact h.ended j (.inr hj)

/-- A start is rejected whose session is not in the store any more, or has expired. -/
theorem Balanced.reject (h : l.Balanced limits) (hlt : id < l.cards.length)
    (hout : id ∈ l.store → l.expired limits id = true) : Balanced limits { l with rejected := l.rejected ++ [id] } where
  live := by
    have hnot : id ∉ l.live limits := by
      rw [← h.live, List.mem_filter]
      rintro ⟨hid, hnew⟩
      simp [hout hid] at hnew
    have hstanding : standing { l with rejected := l.rejected ++ [id] } = l.standing.filter (· ≠ id) := by
      rw [standing, standing, List.filter_filter]
      refine List.filter_congr fun j _ => ?_
      by_cases hj : j = id <;> simp [hj]
    change (l.store.filter fun id => !l.expired limits id) =
      (standing { l with rejected := l.rejected ++ [id] }).filter fun id => !l.expired limits id
    rw [hstanding, filter_swap]
    refine h.live.trans (List.filter_eq_self.2 fun j hj => ?_).symm
    exact decide_eq_true fun heq => hnot (heq ▸ hj)
  stored := h.stored
  ended := fun j hj => by
    simp only [List.mem_append, List.mem_singleton] at hj
    obtain hj | hj | rfl := hj
    · exact h.ended j (.inl hj)
    · exact h.ended j (.inr hj)
    · exact hlt

end Ledger

variable {s : State P}

theorem expiredKey_eq (limits : Limits) (s : State P) : s.expiredKey limits = s.ledger.expired limits := by
  funext id
  simp only [State.expiredKey, Ledger.expired, State.ledger, List.getElem?_map, Option.any_map]
  rfl

theorem ledger_updateSession {f : StreamSession P → StreamSession P}
    (hf : ∀ session, s.sessions[id]? = some session → (f session).card = session.card) :
    (s.updateSession id f).ledger = s.ledger := by
  have hcards : (s.sessions.modify id f).map StreamSession.card = s.sessions.map StreamSession.card := by
    refine List.ext_getElem? fun j => ?_
    rw [List.getElem?_map, List.getElem?_map, List.getElem?_modify]
    cases hget : s.sessions[j]? with
    | none => rfl
    | some session =>
      by_cases hj : id = j
      · subst hj
        simp [hf session hget]
      · simp [hj]
  simp only [State.ledger, State.updateSession, hcards]

theorem ledger_cancelProducer (s : State P) (id : Nat) :
    (s.updateSession id StreamSession.cancelProducer).ledger = s.ledger :=
  ledger_updateSession fun _ _ => rfl

theorem ledger_cancelAll (s : State P) (ids : List Nat) : (s.cancelAll ids).ledger = s.ledger := by
  induction ids generalizing s with
  | nil => rfl
  | cons id ids ih => exact (ih _).trans (ledger_cancelProducer s id)

theorem ledger_reapExpired (limits : Limits) (s : State P) :
    (s.reapExpired limits).ledger = { s.ledger with store := s.store.filter fun id => !s.ledger.expired limits id } := by
  have hcancel := ledger_cancelAll s (s.store.filter (s.expiredKey limits))
  rw [← expiredKey_eq, ← hcancel]
  rfl

theorem card_resumeFrom (session : StreamSession P) (i idx : Nat) (c : Consumer) :
    (resumeFrom session i idx c).1.card = session.card := by
  unfold resumeFrom
  split
  · rfl
  · split
    · rfl
    · split <;> rfl

theorem card_resume (session : StreamSession P) (i : Nat) (c : Consumer) : (resume session i c).1.card = session.card := by
  unfold resume
  split
  · exact card_resumeFrom ..
  · exact card_resumeFrom ..
  · split
    · rfl
    · exact card_resumeFrom ..
  · rfl
  · rfl

theorem Balanced.congr {s' : State P} (h : s.ledger.Balanced limits) (hsame : s'.ledger = s.ledger) :
    s'.ledger.Balanced limits := by
  rw [hsame]
  exact h

theorem balanced_reapExpired (h : s.ledger.Balanced limits) : (s.reapExpired limits).ledger.Balanced limits := by
  rw [ledger_reapExpired]
  exact h.take fun id hid => by simp [hid]

theorem balanced_drop (h : s.ledger.Balanced limits) (id : Nat) : (s.drop id).ledger.Balanced limits := by
  unfold State.drop
  split
  · rename_i hid
    have hcancel := ledger_cancelProducer s id
    have hdrop := h.drop hid
    rw [← hcancel] at hdrop
    exact hdrop
  · exact h

theorem balanced_get (h : s.ledger.Balanced limits) (id : Nat) : (s.get limits id).1.ledger.Balanced limits := by
  unfold State.get
  split
  · split
    · rename_i hexpired
      have htake := @Ledger.Balanced.take _ _ _ h (fun j => decide (j ≠ id)) fun j hj => by
        rw [expiredKey_eq] at hexpired
        refine decide_eq_true fun heq => ?_
        rw [heq, hexpired] at hj
        cases hj
      rw [← ledger_cancelProducer s id] at htake
      exact htake
    · exact h
  · exact h

theorem balanced_create (h : s.ledger.Balanced limits) (principal : Option P) :
    (s.create limits principal).ledger.Balanced limits := by
  have hcreate := (balanced_reapExpired h).create principal
  have hledger : (s.create limits principal).ledger =
      { (s.reapExpired limits).ledger with
        cards := (s.reapExpired limits).ledger.cards ++ [(principal, (s.reapExpired limits).ledger.now)]
        store := (s.reapExpired limits).ledger.store ++ [(s.reapExpired limits).ledger.cards.length] } := by
    simp [State.ledger, State.create, StreamSession.card]
  rw [hledger]
  exact hcreate

/-- A start is rejected after its session has left the store, or has expired. -/
theorem balanced_reject (h : s.ledger.Balanced limits) (hlt : id < s.sessions.length)
    (hout : id ∈ s.store → s.expiredKey limits id = true) (pending : List Nat) :
    ({ s with pending := pending, rejected := s.rejected ++ [id] } : State P).ledger.Balanced limits := by
  rw [expiredKey_eq] at hout
  exact h.reject (by rwa [State.ledger, List.length_map]) hout

theorem Sound.pending_lt (hs : Sound limits s) (hid : id ∈ s.pending) : id < s.sessions.length := by
  obtain ⟨session, hget, -⟩ := hs.pending id hid
  exact (List.getElem?_eq_some_iff.1 hget).1

theorem not_mem_drop (s : State P) (id : Nat) : id ∉ (s.drop id).store := by
  unfold State.drop
  split
  · simp
  · assumption

theorem drop_rejected (s : State P) (id : Nat) : (s.drop id).rejected = s.rejected := by
  unfold State.drop
  split <;> rfl

theorem ledger_consume (s : State P) (i : Nat) : (s.consume i).ledger = s.ledger := by
  unfold State.consume
  split
  · rfl
  · rename_i c hc
    split
    · rfl
    · rename_i session hget
      have hsame : (s.updateSession c.session fun _ => (resume session i c).1).ledger = s.ledger := by
        refine ledger_updateSession fun session' hget' => ?_
        rw [hget, Option.some.injEq] at hget'
        rw [← hget', card_resume]
      exact hsame

theorem ledger_disconnect (s : State P) (i : Nat) : (s.disconnect i).ledger = s.ledger := by
  unfold State.disconnect
  split
  · rfl
  · rename_i c hc
    have hsame : (s.updateSession c.session fun session => { session with newData := session.newData.leave i }).ledger =
        s.ledger := ledger_updateSession fun _ _ => rfl
    exact hsame

/-- Every step keeps the ledger balanced. -/
theorem balanced_step [DecidableEq P] (h : s.ledger.Balanced limits) (hs : Sound limits s) {a : Action P}
    (ha : Meets limits s a) :
    (step limits s a).ledger.Balanced limits := by
  cases a with
  | tick time => exact h.tick time
  | start principal =>
    unfold step State.start State.countForPrincipal
    simp only
    split
    · exact balanced_reapExpired h
    · exact balanced_create (balanced_reapExpired h) principal
  | resolveRaises id =>
    unfold step State.resolveRaises
    simp only
    split
    · rename_i hid
      exact balanced_reject h (hs.pending_lt hid) (ha hid) _
    · exact h
  | resolveNone modelName id =>
    unfold step State.resolveNone
    simp only
    split
    · rename_i hid
      have hlt : id < (s.drop id).sessions.length := by
        rw [(goesOn_drop limits s id).length]
        exact hs.pending_lt hid
      rw [← drop_rejected s id]
      exact balanced_reject (balanced_drop h id) hlt (fun hin => absurd hin (not_mem_drop s id)) _
    · exact h
  | launch id returnSessionOnly =>
    have hlaunch : (s.updateSession id fun session => { session with producerTask := some {} }).ledger.Balanced limits :=
      Balanced.congr h (ledger_updateSession fun _ _ => rfl)
    unfold step State.launch
    simp only
    split
    · split <;> exact hlaunch
    · exact h
  | produce id next =>
    refine Balanced.congr h (ledger_updateSession fun session _ => ?_)
    have hevolves := StreamSession.evolves_produce limits session next
    exact Prod.ext hevolves.principal hevolves.createdAt
  | cancelTask id => exact Balanced.congr h (ledger_cancelProducer s id)
  | lookup id principal =>
    have hget := balanced_get h id
    unfold step State.lookup
    simp only
    split
    · rename_i hfound
      rw [hfound] at hget
      exact hget
    · rename_i hfound
      rw [hfound] at hget
      split <;> exact hget
  | drop id => exact balanced_drop h id
  | consume i => exact Balanced.congr h (ledger_consume s i)
  | disconnect i => exact Balanced.congr h (ledger_disconnect s i)

/-- The number of own steps is bounded by what is left of the buffer. -/
theorem consumer_returns [DecidableEq P] {i : Nat} {c : Consumer} {session : StreamSession P} (hs : Sound limits s)
    (hc : s.consumers[i]? = some c) (hget : s.sessions[c.session]? = some session) (hclosed : session.Closed)
    (hopen : c.phase ≠ .closed) :
    ∃ n, ((runList (step limits) s (List.replicate n (.consume i))).consumers[i]?).map Consumer.phase = some .returned := by
  obtain ⟨session', hget', hok⟩ := hs.consumers i c hc
  rw [hget, Option.some.injEq] at hget'
  subst hget'
  generalize hm : session.events.length - c.output.length = m
  induction m using Nat.strongRecOn generalizing s c with
  | _ m ih =>
    obtain ⟨hsession, hopen', hnext⟩ := resume_closed (hs.sessions _ _ hget) hok hclosed hopen i
    obtain ⟨-, -, hok', hsame, -⟩ := resume_ok (hs.sessions _ _ hget) hok i
    rw [hsession] at hok'
    have hs' : Sound limits (s.consume i) := hs.consume i
    have hstep : s.consume i =
        { s.updateSession c.session (fun _ => session) with consumers := s.consumers.set i (resume session i c).2 } := by
      simp only [State.consume, hc, hget, hsession]
    have hc' : (s.consume i).consumers[i]? = some (resume session i c).2 := by
      rw [hstep]
      exact List.getElem?_set_self (List.getElem?_eq_some_iff.1 hc).1
    have hget' : (s.consume i).sessions[(resume session i c).2.session]? = some session := by
      rw [hstep, hsame]
      change (s.sessions.modify c.session fun _ => session)[c.session]? = some session
      rw [List.getElem?_modify, hget]
      simp
    obtain hreturned | hmore := hnext
    · refine ⟨1, ?_⟩
      change ((s.consume i).consumers[i]?).map Consumer.phase = _
      rw [hc', Option.map_some, hreturned]
    · have hle := hok'.output.length_le
      obtain ⟨n, hn⟩ := ih _ (by omega) hs' hc' hget' hopen' hok' rfl
      exact ⟨n + 1, hn⟩

/-- Before the first request. -/
def Fresh (s : State P) : Prop := ∃ now, s = { now := now }

theorem fresh_sound (h : Fresh s) : Sound limits s ∧ s.ledger.Balanced limits := by
  obtain ⟨now, rfl⟩ := h
  refine ⟨⟨fun id session hget => ?_, fun i c hc => ?_, fun id hid => ?_⟩, rfl, fun id hid => ?_, fun id hid => ?_⟩
  · simp at hget
  · simp at hc
  · cases hid
  · cases hid
  · obtain hid | hid := hid <;> cases hid

variable [DecidableEq P]

def State.liveOf (limits : Limits) (s : State P) (principal : Option P) : List Nat :=
  (s.ledger.live limits).filter fun id => s.sessions[id]?.any fun session => session.principal = principal

/-- Consumers replay in order and come to an end, buffers are capped, and the store counts what is live. -/
structure Replays (limits : Limits) (s : State P) : Prop where
  prefixes : ∀ (i : Nat) (c : Consumer), s.consumers[i]? = some c → ∃ session, s.sessions[c.session]? = some session ∧
    c.output <+: session.events ∧ (c.phase = .returned → c.output = session.events)
  ends : ∀ (i : Nat) (c : Consumer) (session : StreamSession P), s.consumers[i]? = some c →
    s.sessions[c.session]? = some session → session.complete = true ∨ session.producerFinished = true →
      i ∉ session.newData.waiters ∧ (c.phase ≠ .closed → ∃ n,
        ((runList (step limits) s (List.replicate n (.consume i))).consumers[i]?).map Consumer.phase = some .returned)
  caps : ∀ (id : Nat) (session : StreamSession P), s.sessions[id]? = some session →
    session.events.dropLast.length ≤ limits.maxEvents ∧ bytes session.events.dropLast ≤ limits.maxBufferBytes
  counts : ∀ principal, (s.countForPrincipal limits principal).2 = (s.liveOf limits principal).length
  rejected : ∀ id ∈ s.rejected, id ∈ s.store → s.expiredKey limits id = true

theorem keysOf_reapExpired (hs : Sound limits s) (h : s.ledger.Balanced limits) (principal : Option P) :
    (s.countForPrincipal limits principal).2 = (s.liveOf limits principal).length := by
  have hprincipal : ∀ id : Nat, (s.reapExpired limits).sessions[id]?.any (fun session => decide (session.principal = principal)) =
      s.sessions[id]?.any fun session => decide (session.principal = principal) := by
    intro id
    have hgoes := goesOn_reapExpired limits s
    cases hget : s.sessions[id]? with
    | none =>
      cases hget' : (s.reapExpired limits).sessions[id]? with
      | none => rfl
      | some session' =>
        obtain ⟨session, hold⟩ := hgoes.back hget'
        rw [hget] at hold
        cases hold
    | some session =>
      obtain ⟨session', hget'⟩ := hgoes.get hget
      have hevolves := (hgoes.sessions id session session' hget hget' (hs.sessions id session hget)).2.1
      rw [hget', Option.any_some, Option.any_some, hevolves.principal]
  have hstore : (s.reapExpired limits).store = s.ledger.live limits := by
    rw [← h.live, ← expiredKey_eq]
    rfl
  simp only [State.countForPrincipal, State.keysOf, State.liveOf, hstore, hprincipal]

theorem Sound.replays (hs : Sound limits s) (h : s.ledger.Balanced limits) : Replays limits s where
  prefixes := fun i c hc => by
    obtain ⟨session, hget, hok⟩ := hs.consumers i c hc
    exact ⟨session, hget, hok.output, fun hreturned => (hok.returned hreturned).1⟩
  ends := fun i c session hc hget hclosed => by
    have hsession := hs.sessions _ _ hget
    have hnobody : session.newData.waiters = [] :=
      hclosed.elim hsession.woken fun hdone => hsession.gone ((StreamSession.producerFinished_iff session).1 hdone)
    exact ⟨by rw [hnobody]; exact List.not_mem_nil, fun hopen => consumer_returns hs hc hget hclosed hopen⟩
  caps := fun id session hget => (hs.sessions id session hget).capped
  counts := keysOf_reapExpired hs h
  rejected := fun id hid hin => by
    by_contra hfresh
    have hlive : id ∈ s.ledger.live limits := by
      rw [← h.live, ← expiredKey_eq]
      exact List.mem_filter.2 ⟨hin, by simpa using hfresh⟩
    have hstanding := (List.mem_filter.1 (List.mem_filter.1 hlive).1).2
    simp only [decide_eq_true_eq] at hstanding
    exact hstanding.2 hid

/-- In every run whose steps all meet the condition, streams replay. -/
theorem streams_replay (limits : Limits) {s : State P} (h : Reached Fresh (Meets limits) (step limits) s) :
    Replays limits s := by
  have hboth : Sound limits s ∧ s.ledger.Balanced limits :=
    h.invariant (fun s hs => fresh_sound hs) fun s a _ hs ha => ⟨hs.1.step ha, balanced_step hs.2 hs.1 ha⟩
  exact hboth.1.replays hboth.2

/-- A stream with two consumers, one of them late; another start fails for want of an engine. -/
theorem streams_replay_two :
    Replays {} (runList (step {}) ({} : State Nat)
      [.start (some 1), .launch 0 false, .consume 0, .produce 0 .first, .produce 0 (.chunk "a"), .consume 0, .start (some 1),
        .resolveNone "m" 1, .produce 0 .ends, .lookup 0 (some 1), .consume 1, .consume 1, .consume 0]) := by
  refine streams_replay {} (Reached.runList (.start ⟨0, rfl⟩) ⟨trivial, trivial, trivial, ?_, ?_⟩)
  · intro session task hget htask _ hcancel
    cases hget
    cases htask
    cases hcancel
  · exact ⟨trivial, trivial, trivial, trivial, trivial, trivial, trivial, trivial, trivial, trivial⟩

/-- The resolution of the engine raises, and the session is left. It takes an hour, and the sweep of another
start cancels the producer before its first step, when a consumer waits already. -/
theorem streams_go_wrong :
    (¬ Replays {} (runList (step {}) ({} : State Nat) [.start (some 1), .resolveRaises 0])) ∧
      ¬ Replays {} (runList (step {}) ({} : State Nat)
        [.start (some 1), .tick 3601, .launch 0 false, .consume 0, .start (some 2), .produce 0 .first]) := by
  constructor
  · intro h
    have := h.counts (some 1)
    revert this
    decide
  · intro h
    have hends := (h.ends 0 { session := 0, phase := .waiting } _ rfl rfl (.inr rfl)).1
    revert hends
    decide

end FusionMlx.StreamSessions
