import FusionMlx.Service.BodySize

/-!
# When the body guard answers correctly

Until a receive times out before the terminal body frame, everything the
application sends goes out; after it only its next response message counts.
-/
namespace FusionMlx.BodySize

open Runs

variable {cfg : Config} {events before after : List Event} {ending : Ending} {advertised : Option Int}

def BodyRead (cfg : Config) (events : List Event) : Prop :=
  ∃ before body after, events = before ++ .receive (some (.request body false)) :: after ∧
    (cfg.limit = 0 ∨ received before + body.length ≤ cfg.limit)

theorem worldAfter_concat (cfg : Config) (events : List Event) (e : Event) :
    worldAfter cfg (events ++ [e]) = step cfg (worldAfter cfg events) e := by
  simp [worldAfter, runList]

theorem received_append (l l' : List Event) : received (l ++ l') = received l + received l' := by
  simp [received]

theorem sends_append (l l' : List Event) : sends (l ++ l') = sends l ++ sends l' := List.filterMap_append

theorem statuses_append (l l' : List Sent) : statuses (l ++ l') = statuses l ++ statuses l' := List.filterMap_append

theorem terminals_append (l l' : List Sent) : terminals (l ++ l') = terminals l + terminals l' := List.countP_append

/-- A splitting at one event, with one more event at the end. -/
theorem concat_split {e e' : Event} (h : events ++ [e'] = before ++ e :: after) :
    (after = [] ∧ before = events ∧ e = e') ∨ ∃ rest, after = rest ++ [e'] ∧ events = before ++ e :: rest := by
  cases after using List.reverseRecOn with
  | nil =>
    obtain ⟨h₁, h₂⟩ := List.append_inj' h rfl
    exact .inl ⟨rfl, h₁.symm, (List.cons.inj h₂).1.symm⟩
  | append_singleton rest x =>
    rw [← List.cons_append, ← List.append_assoc] at h
    obtain ⟨h₁, h₂⟩ := List.append_inj' h rfl
    exact .inr ⟨rest, by rw [(List.cons.inj h₂).1], h₁⟩

theorem BodyRead.concat {e : Event} :
    BodyRead cfg (events ++ [e]) ↔ BodyRead cfg events ∨
      ∃ body, e = .receive (some (.request body false)) ∧ (cfg.limit = 0 ∨ received events + body.length ≤ cfg.limit) := by
  constructor
  · rintro ⟨before, body, after, h, hle⟩
    rcases concat_split h with ⟨-, rfl, he⟩ | ⟨rest, -, h⟩
    · exact .inr ⟨body, he.symm, hle⟩
    · exact .inl ⟨before, body, rest, h, hle⟩
  · rintro (⟨before, body, after, rfl, hle⟩ | ⟨body, rfl, hle⟩)
    · exact ⟨before, body, after ++ [e], by simp, hle⟩
    · exact ⟨events, body, [], rfl, hle⟩

theorem forward_receives (s : Flags) (m : Sent) :
    (forward s m).1.total = s.total ∧ (forward s m).1.bodyComplete = s.bodyComplete := by
  unfold forward
  split <;> exact ⟨rfl, rfl⟩

theorem guardedSend_receives (cfg : Config) (s : Flags) (m : Sent) :
    (guardedSend cfg s m).1.total = s.total ∧ (guardedSend cfg s m).1.bodyComplete = s.bodyComplete := by
  unfold guardedSend
  split
  · exact ⟨rfl, rfl⟩
  · split
    · exact ⟨rfl, rfl⟩
    · exact ⟨rfl, rfl⟩
    · exact forward_receives s _

/-- The two flags of the receiving side, told by what came in. -/
theorem receives_known (cfg : Config) (events : List Event) :
    (worldAfter cfg events).flags.total = received events ∧
      ((worldAfter cfg events).flags.bodyComplete = true ↔ BodyRead cfg events) := by
  induction events using List.reverseRecOn with
  | nil =>
    refine ⟨rfl, fun h => (by cases h), ?_⟩
    rintro ⟨before, body, after, h, -⟩
    simp at h
  | append_singleton events e ih =>
    obtain ⟨htotal, hread⟩ := ih
    rw [worldAfter_concat, received_append, BodyRead.concat]
    cases e with
    | send m =>
      obtain ⟨h₁, h₂⟩ := guardedSend_receives cfg (worldAfter cfg events).flags m
      refine ⟨?_, ?_⟩
      · rw [step, h₁, htotal]
        rfl
      · rw [step, h₂, hread]
        simp
    | receive inbound =>
      cases inbound with
      | none =>
        have hsame : (boundedReceive cfg (worldAfter cfg events).flags none).1.total = (worldAfter cfg events).flags.total ∧
            (boundedReceive cfg (worldAfter cfg events).flags none).1.bodyComplete =
              (worldAfter cfg events).flags.bodyComplete := by
          simp only [boundedReceive]
          split <;> exact ⟨rfl, rfl⟩
        refine ⟨?_, ?_⟩
        · rw [step, hsame.1, htotal]
          rfl
        · rw [step, hsame.2, hread]
          simp
      | some m =>
        cases m with
        | other => simpa [step, boundedReceive, htotal, received] using hread
        | request body moreBody =>
          have hlen : received [.receive (some (.request body moreBody))] = body.length := by simp [received]
          rw [hlen]
          unfold step boundedReceive
          simp only [htotal]
          split
          · rename_i hover
            refine ⟨rfl, ?_⟩
            rw [hread]
            refine ⟨.inl, fun h => h.resolve_right ?_⟩
            rintro ⟨b, hb, hle⟩
            cases hb
            omega
          · rename_i hin
            cases moreBody with
            | true =>
              refine ⟨rfl, ?_⟩
              simp [hread]
            | false =>
              refine ⟨rfl, fun _ => .inr ⟨body, rfl, by omega⟩, fun _ => rfl⟩

/-- No chunk over the limit is delivered. -/
theorem delivered_within {body : List UInt8} {moreBody : Bool}
    (h : ∃ m, outcomeAt cfg before (some (.request body moreBody)) = .delivered m) :
    cfg.limit = 0 ∨ received before + body.length ≤ cfg.limit := by
  obtain ⟨m, hm⟩ := h
  unfold outcomeAt boundedReceive at hm
  simp only [(receives_known cfg before).1] at hm
  split at hm
  · cases hm
  · omega

def Premature (cfg : Config) (before : List Event) : Prop :=
  cfg.timed = true ∧ ¬ BodyRead cfg before ∧ terminals (sends before) = 0

def Calm (cfg : Config) (events : List Event) : Prop :=
  ∀ before after, events = before ++ .receive none :: after → ¬ Premature cfg before

theorem timeout_iff (cfg : Config) (before : List Event) :
    (cfg.timed = true ∧ (worldAfter cfg before).flags.bodyComplete = false) ↔ cfg.timed = true ∧ ¬ BodyRead cfg before := by
  rw [← (receives_known cfg before).2, Bool.not_eq_true]

theorem raised_timeout {inbound : Option Received} {e : Raised} (h : outcomeAt cfg before inbound = .raised e)
    (he : isTimeout e = true) : inbound = none ∧ cfg.timed = true ∧ ¬ BodyRead cfg before := by
  unfold outcomeAt boundedReceive at h
  cases inbound with
  | none =>
    simp only at h
    split at h
    · rename_i ht
      exact ⟨rfl, (timeout_iff cfg before).1 ht⟩
    · cases h
  | some m =>
    cases m with
    | other => cases h
    | request body moreBody =>
      simp only at h
      split at h
      · cases h
        cases he
      · cases h

theorem Calm.front {e : Event} (h : Calm cfg (events ++ [e])) : Calm cfg events :=
  fun before after heq => h before (after ++ [e]) (by rw [heq]; simp)

/-- Every run is calm, or calm up to the first premature timeout. -/
theorem calm_or_premature (cfg : Config) (events : List Event) : Calm cfg events ∨
    ∃ before after, events = before ++ .receive none :: after ∧ Calm cfg before ∧ Premature cfg before := by
  induction events using List.reverseRecOn with
  | nil => exact .inl (fun before after h => by simp at h)
  | append_singleton events e ih =>
    rcases ih with hcalm | ⟨before, after, rfl, hcalm, hpre⟩
    · by_cases h : e = .receive none ∧ Premature cfg events
      · exact .inr ⟨events, [], by rw [h.1], hcalm, h.2⟩
      · refine .inl (fun before after heq hpre => ?_)
        rcases concat_split heq with ⟨-, rfl, he⟩ | ⟨rest, -, heq⟩
        · exact h ⟨he.symm, hpre⟩
        · exact hcalm before rest heq hpre
    · exact .inr ⟨before, after ++ [e], by simp, hcalm, hpre⟩

structure Open (w : World) (sent : List Sent) : Prop where
  client : w.client = sent
  started : w.flags.downstreamStartedResponse = true ↔ statuses sent ≠ []
  completed : w.flags.downstreamCompletedResponse = true ↔ 0 < terminals sent
  replaced : w.flags.responseReplaced = false

variable {w : World}

theorem forward_open {sent : List Sent} (h : Open w sent) (m : Sent) :
    Open { flags := (forward w.flags m).1, client := w.client ++ (forward w.flags m).2 } (sent ++ [m]) := by
  obtain ⟨hclient, hstarted, hcompleted, hreplaced⟩ := h
  cases m with
  | start status headers =>
    exact ⟨by rw [hclient]; rfl, by simp [forward, statuses], by
      rw [terminals_append]
      simpa [forward, terminals, isTerminal] using hcompleted, hreplaced⟩
  | other =>
    exact ⟨by rw [hclient]; rfl, by simpa [forward, statuses_append, statuses] using hstarted, by
      rw [terminals_append]
      simpa [forward, terminals, isTerminal] using hcompleted, hreplaced⟩
  | body b moreBody =>
    cases moreBody with
    | true =>
      exact ⟨by rw [hclient]; rfl, by simpa [forward, statuses_append, statuses] using hstarted, by
        rw [terminals_append]
        simpa [forward, terminals, isTerminal] using hcompleted, hreplaced⟩
    | false =>
      exact ⟨by rw [hclient]; rfl, by simpa [forward, statuses_append, statuses] using hstarted, by
        rw [terminals_append]
        simp [forward, terminals, isTerminal], hreplaced⟩

theorem receive_open {sent : List Sent} (h : Open w sent) (inbound : Option Received) :
    Open (step cfg w (.receive inbound)) sent := by
  obtain ⟨hclient, hstarted, hcompleted, hreplaced⟩ := h
  have hsame : (boundedReceive cfg w.flags inbound).1.downstreamStartedResponse = w.flags.downstreamStartedResponse ∧
      (boundedReceive cfg w.flags inbound).1.downstreamCompletedResponse = w.flags.downstreamCompletedResponse ∧
      (boundedReceive cfg w.flags inbound).1.responseReplaced = w.flags.responseReplaced := by
    unfold boundedReceive
    split
    · split <;> exact ⟨rfl, rfl, rfl⟩
    · exact ⟨rfl, rfl, rfl⟩
    · simp only
      split
      · exact ⟨rfl, rfl, rfl⟩
      · split <;> exact ⟨rfl, rfl, rfl⟩
  exact ⟨hclient, by rw [step, hsame.1]; exact hstarted, by rw [step, hsame.2.1]; exact hcompleted, by
    rw [step, hsame.2.2]; exact hreplaced⟩

/-- Without a premature timeout. -/
theorem calm_open (h : Calm cfg events) : Open (worldAfter cfg events) (sends events) ∧
    ((worldAfter cfg events).flags.timeoutTripped ≠ none → 0 < terminals (sends events)) := by
  induction events using List.reverseRecOn with
  | nil => exact ⟨⟨rfl, by simp [worldAfter, runList, statuses, sends], by simp [worldAfter, runList, terminals, sends], rfl⟩,
      by simp [worldAfter, runList]⟩
  | append_singleton events e ih =>
    obtain ⟨hopen, htripped⟩ := ih h.front
    rw [worldAfter_concat, sends_append]
    cases e with
    | receive inbound =>
      have hnone : sends [.receive inbound] = [] := rfl
      rw [hnone, List.append_nil]
      refine ⟨receive_open hopen inbound, fun ht => ?_⟩
      cases inbound with
      | some m =>
        apply htripped
        unfold step boundedReceive at ht
        cases m with
        | other => exact ht
        | request body moreBody =>
          simp only at ht
          split at ht
          · exact ht
          · split at ht <;> exact ht
      | none =>
        by_cases hout : cfg.timed = true ∧ (worldAfter cfg events).flags.bodyComplete = false
        · have hnot := h events [] rfl
          rw [timeout_iff] at hout
          rw [Premature, ← and_assoc, not_and] at hnot
          have := hnot hout
          omega
        · rw [step, boundedReceive, if_neg hout] at ht
          exact htripped ht
    | send m =>
      have hone : sends [.send m] = [m] := rfl
      have hsend : guardedSend cfg (worldAfter cfg events).flags m = forward (worldAfter cfg events).flags m := by
        unfold guardedSend
        rw [hopen.replaced, if_neg (by simp)]
        cases ht : (worldAfter cfg events).flags.timeoutTripped with
        | none => rfl
        | some streamed =>
          have := hopen.completed.2 (htripped (by rw [ht]; simp))
          rw [this]
      rw [hone, step, hsend]
      refine ⟨forward_open hopen m, fun ht => ?_⟩
      have hsame : (forward (worldAfter cfg events).flags m).1.timeoutTripped = (worldAfter cfg events).flags.timeoutTripped := by
        unfold forward
        split <;> rfl
      rw [terminals_append]
      have := htripped (by rw [← hsame]; exact ht)
      omega

def firstResponse (l : List Sent) : Option Sent := l.find? isResponse

theorem firstResponse_concat (l : List Sent) (m : Sent) : firstResponse (l ++ [m]) =
    (firstResponse l).or (if isResponse m then some m else none) := by
  rw [firstResponse, List.find?_append]
  congr 1
  simp [List.find?_cons]
  split <;> simp_all

def Tripped (w : World) (codes : List Nat) (started : Bool) : Option Sent → Prop
  | some (.start ..) => w.flags.responseReplaced = true ∧ w.flags.downstreamCompletedResponse = true ∧
      statuses w.client = codes ++ [408] ∧ terminals w.client = 1
  | some (.body ..) => w.flags.responseReplaced = true ∧ w.flags.downstreamCompletedResponse = false ∧
      w.flags.downstreamStartedResponse = started ∧ statuses w.client = codes ∧ terminals w.client = 0
  | _ => w.flags.responseReplaced = false ∧ w.flags.timeoutTripped ≠ none ∧
      w.flags.downstreamCompletedResponse = false ∧ w.flags.downstreamStartedResponse = started ∧
      statuses w.client = codes ∧ terminals w.client = 0

variable {first : Option Sent}

theorem receive_tripped {codes : List Nat} {started : Bool}
    (h : Tripped w codes started first) (inbound : Option Received) :
    Tripped (step cfg w (.receive inbound)) codes started first := by
  have hsame : (boundedReceive cfg w.flags inbound).1.downstreamStartedResponse = w.flags.downstreamStartedResponse ∧
      (boundedReceive cfg w.flags inbound).1.downstreamCompletedResponse = w.flags.downstreamCompletedResponse ∧
      (boundedReceive cfg w.flags inbound).1.responseReplaced = w.flags.responseReplaced ∧
      (w.flags.timeoutTripped ≠ none → (boundedReceive cfg w.flags inbound).1.timeoutTripped ≠ none) := by
    unfold boundedReceive
    split
    · split
      · exact ⟨rfl, rfl, rfl, fun _ => by simp⟩
      · exact ⟨rfl, rfl, rfl, id⟩
    · exact ⟨rfl, rfl, rfl, id⟩
    · simp only
      split
      · exact ⟨rfl, rfl, rfl, id⟩
      · split <;> exact ⟨rfl, rfl, rfl, id⟩
  obtain ⟨h₁, h₂, h₃, h₄⟩ := hsame
  unfold Tripped at h ⊢
  simp only [step, h₁, h₂, h₃]
  split at h
  · exact h
  · exact h
  · exact ⟨h.1, h₄ h.2.1, h.2.2⟩

theorem send_muted (h : w.flags.responseReplaced = true) (m : Sent) : step cfg w (.send m) = w := by
  have hsend : guardedSend cfg w.flags m = (w.flags, []) := by
    unfold guardedSend
    rw [if_pos h]
  rw [step, hsend, List.append_nil]

theorem send_tripped {codes : List Nat} {started : Bool} (h : Tripped w codes started first)
    (hfirst : ∀ m, first = some m → isResponse m = true) (m : Sent) :
    Tripped (step cfg w (.send m)) codes started (first.or (if isResponse m then some m else none)) := by
  cases first with
  | some f =>
    have hmuted : w.flags.responseReplaced = true := by
      cases f with
      | start => exact h.1
      | body => exact h.1
      | other => exact absurd (hfirst _ rfl) (by simp [isResponse])
    rw [send_muted hmuted]
    exact h
  | none =>
    obtain ⟨hreplaced, htripped, hcompleted, hstarted, hcodes, hends⟩ := h
    obtain ⟨streamed, hstreamed⟩ := Option.ne_none_iff_exists'.1 htripped
    rw [Option.none_or]
    rw [step]
    cases m with
    | start status headers =>
      have hsend : guardedSend cfg w.flags (.start status headers) =
          ({ w.flags with
              downstreamStartedResponse := true
              downstreamCompletedResponse := true
              responseReplaced := true }, send408 cfg streamed) := by
        simp [guardedSend, hreplaced, hstreamed, hcompleted]
      rw [hsend]
      refine ⟨rfl, rfl, ?_, ?_⟩
      · simp only
        rw [statuses_append, hcodes]
        rfl
      · simp only
        rw [terminals_append, hends]
        rfl
    | body b moreBody =>
      have hsend : guardedSend cfg w.flags (.body b moreBody) =
          ({ w.flags with responseReplaced := true }, []) := by
        simp [guardedSend, hreplaced, hstreamed, hcompleted]
      rw [hsend]
      exact ⟨rfl, hcompleted, hstarted, by simpa using hcodes, by simpa using hends⟩
    | other =>
      have hsend : guardedSend cfg w.flags .other = forward w.flags .other := by
        simp [guardedSend, hreplaced, hstreamed, hcompleted]
      rw [hsend]
      refine ⟨hreplaced, by simp [forward, hstreamed], hcompleted, hstarted, ?_, ?_⟩
      · simp only
        rw [statuses_append, hcodes]
        simp [forward, statuses]
      · simp only
        rw [terminals_append, hends]
        rfl

theorem tripped_after (hcalm : Calm cfg before) (hpre : Premature cfg before) (after : List Event) :
    Tripped (worldAfter cfg (before ++ .receive none :: after)) (statuses (sends before))
      (decide (statuses (sends before) ≠ [])) (firstResponse (sends after)) := by
  induction after using List.reverseRecOn with
  | nil =>
    obtain ⟨⟨hclient, hstarted, hcompleted, hreplaced⟩, -⟩ := calm_open hcalm
    have hout : cfg.timed = true ∧ (worldAfter cfg before).flags.bodyComplete = false :=
      (timeout_iff cfg before).2 ⟨hpre.1, hpre.2.1⟩
    rw [worldAfter_concat, step, boundedReceive, if_pos hout]
    refine ⟨hreplaced, by simp, ?_, ?_, by rw [hclient], by rw [hclient]; exact hpre.2.2⟩
    · rw [← Bool.not_eq_true, hcompleted, hpre.2.2]
      exact Nat.lt_irrefl 0
    · rw [Bool.eq_iff_iff, hstarted, decide_eq_true_iff]
  | append_singleton after e ih =>
    rw [← List.cons_append, ← List.append_assoc, worldAfter_concat, sends_append]
    cases e with
    | receive inbound =>
      have hnone : sends [.receive inbound] = [] := rfl
      rw [hnone, List.append_nil]
      exact receive_tripped ih inbound
    | send m =>
      have hone : sends [.send m] = [m] := rfl
      rw [hone, firstResponse_concat]
      exact send_tripped ih (fun f hf => List.find?_some hf) m

def MeetsCalm (cfg : Config) (events : List Event) (ending : Ending) : Prop :=
  (statuses (sends events)).length ≤ 1 ∧
  (statuses (sends events) ≠ [] → ending = .returned → terminals (sends events) = 1) ∧
  (statuses (sends events) ≠ [] → (∃ e, ending = .propagated e) → terminals (sends events) ≤ 1) ∧
  (RaisedEarly cfg events false → statuses (sends events) = [413] ∨
    statuses (sends events) = [] ∧ terminals (sends events) = 0 ∧ ∃ streamed, ending = .propagated (.tooLarge streamed)) ∧
  (RaisedEarly cfg events true → statuses (sends events) = [408])

def MeetsTimedOut (cfg : Config) (events before after : List Event) (ending : Ending) : Prop :=
  (statuses (sends before)).length ≤ 1 ∧
  (statuses (sends before) ≠ [] →
    (∀ status headers, firstResponse (sends after) ≠ some (.start status headers)) ∧ ending ≠ .returned ∧
      (RaisedEarly cfg events false → statuses (sends before) = [413])) ∧
  (statuses (sends before) = [] → ¬ RaisedEarly cfg events false ∧
    ((∃ status headers, firstResponse (sends after) = some (.start status headers)) ∨
      ∃ streamed, ending = .propagated (.timeout streamed)))

def Meets (cfg : Config) (events : List Event) (ending : Ending) : Prop :=
  (Calm cfg events ∧ MeetsCalm cfg events ending) ∨
    ∃ before after, events = before ++ .receive none :: after ∧ Calm cfg before ∧ Premature cfg before ∧
      MeetsTimedOut cfg events before after ending

/-- The guard answers at once. -/
def Rejected (cfg : Config) (advertised : Option Int) : Prop :=
  0 < cfg.limit ∧ advertised.any (fun n => (cfg.limit : Int) < n) = true

theorem handle_completed {s : Flags} (h : s.downstreamCompletedResponse = true) (ending : Ending) :
    handle cfg s ending = [] := by
  cases ending with
  | propagated e => simp [handle, h]
  | returned => rfl
  | failed => rfl

theorem handle_started {s : Flags} (h : s.downstreamCompletedResponse = false) (h' : s.downstreamStartedResponse = true)
    (e : Raised) : handle cfg s (.propagated e) = [.body "" false] := by
  simp [handle, h, h']

theorem handle_fresh {s : Flags} (h : s.downstreamCompletedResponse = false) (h' : s.downstreamStartedResponse = false)
    (e : Raised) : statuses (handle cfg s (.propagated e)) = [if isTimeout e then 408 else 413] ∧
      terminals (handle cfg s (.propagated e)) = 1 := by
  cases e <;> simp [handle, h, h', isTimeout, send408, send413, statuses, terminals, isTerminal]

theorem early_calm (hcalm : Calm cfg events) (h : RaisedEarly cfg events true) : 0 < terminals (sends events) := by
  obtain ⟨before, inbound, after, e, rfl, hout, he, -⟩ := h
  obtain ⟨rfl, htimed, hread⟩ := raised_timeout hout he
  have hnot := hcalm before after rfl
  have hpos : 0 < terminals (sends before) := by
    by_contra hzero
    exact hnot ⟨htimed, hread, by omega⟩
  rw [sends_append, terminals_append]
  omega

theorem correct_calm (hcalm : Calm cfg events) (hnot : ¬ Rejected cfg advertised) :
    Correct cfg (exchange cfg advertised events ending) ↔ MeetsCalm cfg events ending := by
  obtain ⟨⟨hclient, hstarted, hcompleted, -⟩, -⟩ := calm_open hcalm
  have hx : exchange cfg advertised events ending =
      { events := events, client := sends events ++ handle cfg (worldAfter cfg events).flags ending,
        returned := ending ≠ .failed } := by
    unfold exchange
    rw [if_neg (show ¬ (0 < cfg.limit ∧ advertised.any (fun n => (cfg.limit : Int) < n) = true) from hnot), hclient]
  rw [hx]
  generalize hs : (worldAfter cfg events).flags = s at hstarted hcompleted
  by_cases hends : 0 < terminals (sends events)
  · -- The response is complete; the handlers add nothing.
    rw [handle_completed (hcompleted.2 hends), List.append_nil]
    constructor
    · intro h
      refine ⟨h.one_start, fun hne hr => h.one_end (by simp [hr]) hne, ?_, fun hr => .inl (h.too_large hr), h.timed_out⟩
      rintro hne ⟨e, rfl⟩
      exact Nat.le_of_eq (h.one_end (by simp) hne)
    · rintro ⟨hone, hret, hprop, hlarge, htime⟩
      refine ⟨hone, fun hret' hne => ?_, fun _ _ _ _ _ hdel => delivered_within hdel, fun hr => ?_, htime⟩
      · cases ending with
        | returned => exact hret hne rfl
        | propagated e => exact Nat.le_antisymm (hprop hne ⟨e, rfl⟩) hends
        | failed => simp at hret'
      · refine (hlarge hr).resolve_right (fun h => ?_)
        omega
  · have hzero : terminals (sends events) = 0 := by omega
    have hopen : s.downstreamCompletedResponse = false := by rw [← Bool.not_eq_true, hcompleted]; exact hends
    have hnever : ¬ RaisedEarly cfg events true := fun h => hends (early_calm hcalm h)
    by_cases hstart : statuses (sends events) = []
    · have hfresh : s.downstreamStartedResponse = false := by rw [← Bool.not_eq_true, hstarted]; simp [hstart]
      constructor
      · intro h
        refine ⟨by simp [hstart], fun hne => absurd hstart hne, fun hne => absurd hstart hne, fun hr => ?_,
          fun hr => absurd hr hnever⟩
        have hcode := h.too_large hr
        rw [statuses_append, hstart, List.nil_append] at hcode
        refine .inr ⟨hstart, hzero, ?_⟩
        cases ending with
        | returned => cases hcode
        | failed => cases hcode
        | propagated e =>
          rw [(handle_fresh hopen hfresh e).1] at hcode
          cases e with
          | timeout streamed => cases hcode
          | tooLarge streamed => exact ⟨streamed, rfl⟩
      · rintro ⟨-, -, -, hlarge, -⟩
        cases ending with
        | propagated e =>
          obtain ⟨hcode, hend⟩ := @handle_fresh cfg s hopen hfresh e
          refine ⟨?_, fun _ _ => ?_, fun _ _ _ _ _ hdel => delivered_within hdel, fun hr => ?_, fun hr => absurd hr hnever⟩
          · rw [statuses_append, hstart, hcode]
            simp
          · rw [terminals_append, hzero, hend]
          · rw [statuses_append, hstart, hcode]
            rcases hlarge hr with h | ⟨-, -, streamed, h⟩
            · rw [hstart] at h
              cases h
            · cases h
              rfl
        | returned =>
          refine ⟨by simp [handle, hstart], fun _ hne => ?_, fun _ _ _ _ _ hdel => delivered_within hdel, fun hr => ?_,
            fun hr => absurd hr hnever⟩
          · simp [handle, hstart] at hne
          · rcases hlarge hr with h | ⟨-, -, streamed, h⟩
            · rw [hstart] at h
              cases h
            · cases h
        | failed =>
          refine ⟨by simp [handle, hstart], fun hr => ?_, fun _ _ _ _ _ hdel => delivered_within hdel, fun hr => ?_,
            fun hr => absurd hr hnever⟩
          · simp at hr
          · rcases hlarge hr with h | ⟨-, -, streamed, h⟩
            · rw [hstart] at h
              cases h
            · cases h
    · have hbegun : s.downstreamStartedResponse = true := hstarted.2 hstart
      have hcodes : statuses (sends events ++ handle cfg s ending) = statuses (sends events) := by
        rw [statuses_append]
        cases ending with
        | propagated e =>
          rw [handle_started hopen hbegun]
          simp [statuses]
        | returned => simp [handle, statuses]
        | failed => simp [handle, statuses]
      constructor
      · intro h
        refine ⟨hcodes ▸ h.one_start, fun hne hr => ?_, fun _ _ => by omega, fun hr => .inl (hcodes ▸ h.too_large hr),
          fun hr => absurd hr hnever⟩
        have := h.one_end (by simp [hr]) (by rw [hcodes]; exact hne)
        rw [hr] at this
        simpa [handle] using this
      · rintro ⟨hone, hret, -, hlarge, -⟩
        refine ⟨by rw [hcodes]; exact hone, fun hr _ => ?_, fun _ _ _ _ _ hdel => delivered_within hdel, fun hr => ?_,
          fun hr => absurd hr hnever⟩
        · cases ending with
          | propagated e =>
            rw [handle_started hopen hbegun, terminals_append, hzero]
            rfl
          | returned =>
            have := hret hstart rfl
            omega
          | failed => simp at hr
        · rw [hcodes]
          exact (hlarge hr).resolve_right (fun h => hstart h.1)

theorem client_grows (cfg : Config) (l l' : List Event) :
    ∃ more, (worldAfter cfg (l ++ l')).client = (worldAfter cfg l).client ++ more := by
  induction l' using List.reverseRecOn with
  | nil => exact ⟨[], by simp⟩
  | append_singleton l' e ih =>
    obtain ⟨more, hmore⟩ := ih
    rw [← List.append_assoc, worldAfter_concat]
    cases e with
    | receive inbound => exact ⟨more, hmore⟩
    | send m => exact ⟨more ++ _, by rw [step, hmore, List.append_assoc]⟩

theorem early_premature (hcalm : Calm cfg before) (hpre : Premature cfg before) (after : List Event) :
    RaisedEarly cfg (before ++ .receive none :: after) true ↔ statuses (sends before) = [] := by
  have hclient := (calm_open hcalm).1.client
  constructor
  · rintro ⟨b, inbound, a, e, heq, hout, he, hseen⟩
    obtain ⟨rfl, htimed, hread⟩ := raised_timeout hout he
    by_contra hne
    rcases List.append_eq_append_iff.1 heq with ⟨m, hb, hrest⟩ | ⟨m, hb, hrest⟩
    · -- A later timeout comes after the start that went out before.
      obtain ⟨more, hmore⟩ := client_grows cfg before m
      rw [← hb] at hmore
      rw [hmore, statuses_append, hclient] at hseen
      exact hne (List.append_eq_nil_iff.1 hseen).1
    · cases m with
      | nil =>
        rw [List.append_nil] at hb
        rw [← hb, hclient] at hseen
        exact hne hseen
      | cons x m =>
        -- An earlier one would have had a terminal frame before it.
        rw [List.cons_append] at hrest
        obtain ⟨rfl, -⟩ := List.cons.inj hrest
        have hnot := hcalm b m hb
        have hends := hpre.2.2
        rw [hb, sends_append, terminals_append] at hends
        exact hnot ⟨htimed, hread, by omega⟩
  · intro hnil
    have hout : cfg.timed = true ∧ (worldAfter cfg before).flags.bodyComplete = false :=
      (timeout_iff cfg before).2 ⟨hpre.1, hpre.2.1⟩
    refine ⟨before, none, after, .timeout (worldAfter cfg before).flags.total, rfl, ?_, rfl, by rw [hclient]; exact hnil⟩
    rw [outcomeAt, boundedReceive, if_pos hout]

/-- Unless it is a start that comes next, nothing more of the application goes out. -/
theorem Tripped.unanswered {codes : List Nat} {started : Bool}
    (h : Tripped w codes started first) (hno : ∀ status headers, first ≠ some (.start status headers)) :
    w.flags.downstreamCompletedResponse = false ∧ w.flags.downstreamStartedResponse = started ∧
      statuses w.client = codes ∧ terminals w.client = 0 := by
  unfold Tripped at h
  split at h
  · exact absurd rfl (hno _ _)
  · exact ⟨h.2.1, h.2.2.1, h.2.2.2.1, h.2.2.2.2⟩
  · exact ⟨h.2.2.1, h.2.2.2.1, h.2.2.2.2.1, h.2.2.2.2.2⟩

theorem correct_timedOut (hcalm : Calm cfg before) (hpre : Premature cfg before) (after : List Event)
    (hnot : ¬ Rejected cfg advertised) :
    Correct cfg (exchange cfg advertised (before ++ .receive none :: after) ending) ↔
      MeetsTimedOut cfg (before ++ .receive none :: after) before after ending := by
  have htripped := tripped_after hcalm hpre after
  have hearly := early_premature hcalm hpre after
  generalize hevents : before ++ .receive none :: after = events at htripped hearly ⊢
  have hx : exchange cfg advertised events ending =
      { events := events
        client := (worldAfter cfg events).client ++ handle cfg (worldAfter cfg events).flags ending
        returned := ending ≠ .failed } := by
    unfold exchange
    rw [if_neg (show ¬ (0 < cfg.limit ∧ advertised.any (fun n => (cfg.limit : Int) < n) = true) from hnot)]
  rw [hx]
  generalize worldAfter cfg events = w at htripped
  unfold MeetsTimedOut
  generalize hpreSends : statuses (sends before) = codes at htripped hearly ⊢
  by_cases hfirst : ∃ status headers, firstResponse (sends after) = some (.start status headers)
  · obtain ⟨status, headers, hstart⟩ := hfirst
    rw [hstart] at htripped ⊢
    obtain ⟨-, hcompleted, hcodes, hends⟩ := htripped
    rw [handle_completed hcompleted, List.append_nil]
    constructor
    · intro h
      have hone := h.one_start
      simp only [hcodes, List.length_append, List.length_singleton] at hone
      have hnil : codes = [] := List.eq_nil_of_length_eq_zero (by omega)
      refine ⟨by omega, fun hne => absurd hnil hne, fun _ => ⟨fun hr => ?_, .inl ⟨status, headers, rfl⟩⟩⟩
      have := h.too_large hr
      rw [hcodes, hnil] at this
      cases this
    · rintro ⟨-, hbegun, hfresh⟩
      have hnil : codes = [] := by
        by_contra hne
        exact (hbegun hne).1 status headers rfl
      have hout : statuses w.client = [408] := by rw [hcodes, hnil]; rfl
      refine ⟨by simp [hout], fun _ _ => hends, fun _ _ _ _ _ hdel => delivered_within hdel,
        fun hr => absurd hr (hfresh hnil).1, fun _ => hout⟩
  · have hno : ∀ status headers, firstResponse (sends after) ≠ some (.start status headers) :=
      fun status headers h => hfirst ⟨status, headers, h⟩
    obtain ⟨hopen, hstarted, hcodes, hends⟩ := htripped.unanswered hno
    by_cases hnil : codes = []
    · subst hnil
      have hfresh : w.flags.downstreamStartedResponse = false := by simpa using hstarted
      have hr := hearly.2 rfl
      constructor
      · intro h
        have hcode := h.timed_out hr
        rw [statuses_append, hcodes, List.nil_append] at hcode
        refine ⟨by simp, fun hne => absurd rfl hne, fun _ => ⟨fun hl => ?_, .inr ?_⟩⟩
        · have hcode' := h.too_large hl
          rw [statuses_append, hcodes, List.nil_append, hcode] at hcode'
          cases hcode'
        · cases ending with
          | returned => cases hcode
          | failed => cases hcode
          | propagated e =>
            rw [(handle_fresh hopen hfresh e).1] at hcode
            cases e with
            | timeout streamed => exact ⟨streamed, rfl⟩
            | tooLarge streamed => cases hcode
      · rintro ⟨-, -, hmeets⟩
        obtain ⟨hlarge, hend⟩ := hmeets rfl
        obtain ⟨streamed, rfl⟩ := hend.resolve_left hfirst
        obtain ⟨hcode, hone⟩ := @handle_fresh cfg w.flags hopen hfresh (.timeout streamed)
        have hout : statuses (w.client ++ handle cfg w.flags (.propagated (.timeout streamed))) = [408] := by
          rw [statuses_append, hcodes, hcode]
          rfl
        exact ⟨by simp [hout], fun _ _ => by rw [terminals_append, hends, hone], fun _ _ _ _ _ hdel => delivered_within hdel,
          fun hl => absurd hl hlarge, fun _ => hout⟩
    · have hbegun : w.flags.downstreamStartedResponse = true := by rw [hstarted]; simp [hnil]
      have hnever : ¬ RaisedEarly cfg events true := fun h => hnil (hearly.1 h)
      have hout : statuses (w.client ++ handle cfg w.flags ending) = codes := by
        rw [statuses_append, hcodes]
        cases ending with
        | propagated e =>
          rw [handle_started hopen hbegun]
          simp [statuses]
        | returned => simp [handle, statuses]
        | failed => simp [handle, statuses]
      constructor
      · intro h
        refine ⟨hout ▸ h.one_start, fun _ => ⟨hno, ?_, fun hl => hout ▸ h.too_large hl⟩, fun h => absurd h hnil⟩
        rintro rfl
        have := h.one_end (by simp) (by rw [hout]; exact hnil)
        simp only [handle, List.append_nil] at this
        omega
      · rintro ⟨hone, hmeets, -⟩
        obtain ⟨-, hend, hlarge⟩ := hmeets hnil
        refine ⟨by rw [hout]; exact hone, fun hret _ => ?_, fun _ _ _ _ _ hdel => delivered_within hdel,
          fun hl => by rw [hout]; exact hlarge hl, fun hr => absurd hr hnever⟩
        cases ending with
        | propagated e =>
          rw [handle_started hopen hbegun, terminals_append, hends]
          rfl
        | returned => exact absurd rfl hend
        | failed => simp at hret

theorem correct_rejected (h : Rejected cfg advertised) : Correct cfg (exchange cfg advertised events ending) := by
  unfold exchange
  rw [if_pos (show 0 < cfg.limit ∧ advertised.any (fun n => (cfg.limit : Int) < n) = true from h)]
  have hnone : ∀ t, ¬ RaisedEarly cfg [] t := by
    rintro t ⟨before, inbound, after, e, heq, -⟩
    simp at heq
  refine ⟨by simp [send413, statuses], fun _ _ => rfl, ?_, fun hr => absurd hr (hnone _), fun hr => absurd hr (hnone _)⟩
  intro before body moreBody after heq
  simp at heq

/-- The guard answers as it should exactly when it answers at once or the application does its part. -/
theorem guard_correct_iff (cfg : Config) (advertised : Option Int) (events : List Event) (ending : Ending) :
    Correct cfg (exchange cfg advertised events ending) ↔ Rejected cfg advertised ∨ Meets cfg events ending := by
  by_cases hrej : Rejected cfg advertised
  · exact ⟨fun _ => .inl hrej, fun _ => correct_rejected hrej⟩
  · refine ⟨fun h => .inr ?_, fun h => ?_⟩
    · rcases calm_or_premature cfg events with hcalm | ⟨before, after, rfl, hcalm, hpre⟩
      · exact .inl ⟨hcalm, (correct_calm hcalm hrej).1 h⟩
      · exact .inr ⟨before, after, rfl, hcalm, hpre, (correct_timedOut hcalm hpre after hrej).1 h⟩
    · rcases h.resolve_left hrej with ⟨hcalm, hmeets⟩ | ⟨before, after, rfl, hcalm, hpre, hmeets⟩
      · exact (correct_calm hcalm hrej).2 hmeets
      · exact (correct_timedOut hcalm hpre after hrej).2 hmeets

def oneByte : Config := ⟨1, true, "15.0"⟩

def caughtTimeout : List Event :=
  [.send (.start 200 []), .send (.body "a" true), .receive none, .send (.body "b" false)]

def caughtTooLarge : List Event :=
  [.receive (some (.request [0, 0] false)), .send (.start 400 []), .send (.body "" false)]

/-- The first client never sees the response end, and the second sees 400. -/
theorem guard_goes_wrong :
    (¬ Correct oneByte (exchange oneByte none caughtTimeout .returned) ∧
      (exchange oneByte none caughtTimeout .returned).client = [.start 200 [], .body "a" true]) ∧
    (¬ Correct oneByte (exchange oneByte none caughtTooLarge .returned) ∧
      (exchange oneByte none caughtTooLarge .returned).client = [.start 400 [], .body "" false]) := by
  have h₁ : (exchange oneByte none caughtTimeout .returned).client = [.start 200 [], .body "a" true] := by decide
  have h₂ : (exchange oneByte none caughtTooLarge .returned).client = [.start 400 [], .body "" false] := by decide
  refine ⟨⟨fun h => ?_, h₁⟩, ⟨fun h => ?_, h₂⟩⟩
  · have hend := h.one_end (by decide) (by rw [h₁]; decide)
    rw [h₁] at hend
    exact absurd hend (by decide)
  · have hr : RaisedEarly oneByte (exchange oneByte none caughtTooLarge .returned).events false :=
      ⟨[], some (.request [0, 0] false), [.send (.start 400 []), .send (.body "" false)], .tooLarge 2, by decide, by decide,
        rfl, rfl⟩
    have hcode := h.too_large hr
    rw [h₂] at hcode
    exact absurd hcode (by decide)

end FusionMlx.BodySize
