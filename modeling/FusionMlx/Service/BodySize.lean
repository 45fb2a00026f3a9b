import FusionMlx.Support.Runs
import Mathlib.Data.List.Induction
import Mathlib.Algebra.GroupWithZero.Nat

/-!
# The cap on the size of request bodies

`RequestBodyLimitMiddleware`: the application behind it receives and sends
through two wrapped callables that share six flags, and ends by returning, by
one of the two exceptions of the guard or by another one. The limit and the
timeout, read from the environment for each request, come with the call, and
so does the number in the Content-Length header. The functions that write the
two error bodies are kept; sends do not fail.
-/
namespace FusionMlx.BodySize

open Runs

inductive Received where
  | request (body : List UInt8) (moreBody : Bool)
  | other
  deriving DecidableEq

inductive Sent where
  | start (status : Nat) (headers : List (String × String))
  | body (body : String) (moreBody : Bool)
  | other
  deriving DecidableEq

inductive Raised where
  | timeout (streamed : Nat)
  | tooLarge (streamed : Nat)
  deriving DecidableEq

/-- `limit` is 0 where no limit applies; `timed` says that `receive_timeout` is positive, and
`timeoutText` is its number with one decimal. -/
structure Config where
  limit : Nat
  timed : Bool
  timeoutText : String

def errorBody (message code : String) : String :=
  "\x7b\"error\": \x7b\"message\": \"" ++ message ++ "\", \"type\": \"invalid_request_error\", \"code\": \"" ++ code ++
    "\", \"param\": null\x7d\x7d"

def formatMessage (advertised : Option Int) (limit : Nat) (streaming : Bool) (streamed : Option Nat) : String :=
  if streaming then
    "Request body too large: streamed " ++ toString (streamed.getD 0) ++ " bytes exceeded the " ++ toString limit ++
      "-byte server cap."
  else
    "Request body too large: Content-Length " ++ (advertised.elim "None" toString) ++ " bytes exceeds the " ++
      toString limit ++ "-byte server cap."

def format408Body (cfg : Config) (streamed : Nat) : String :=
  errorBody ("Request timed out: no body bytes received for " ++ cfg.timeoutText ++ "s (streamed=" ++ toString streamed ++
    " bytes).") "request_timeout"

def send408 (cfg : Config) (streamed : Nat) : List Sent :=
  let body := format408Body cfg streamed
  [.start 408 [("content-type", "application/json"), ("content-length", toString body.length), ("connection", "close")],
    .body body false]

def send413 (advertised : Option Int) (limit : Nat) (streaming : Bool) (streamed : Option Nat) : List Sent :=
  let body := errorBody (formatMessage advertised limit streaming streamed) "request_too_large"
  [.start 413 [("content-type", "application/json"), ("content-length", toString body.length)], .body body false]

structure Flags where
  total : Nat := 0
  downstreamStartedResponse : Bool := false
  downstreamCompletedResponse : Bool := false
  bodyComplete : Bool := false
  timeoutTripped : Option Nat := none
  responseReplaced : Bool := false

inductive Outcome where
  | delivered (message : Received)
  | raised (e : Raised)
  | pending
  deriving DecidableEq

def boundedReceive (cfg : Config) (s : Flags) : Option Received → Flags × Outcome
  | none =>
    if cfg.timed ∧ s.bodyComplete = false then
      ({ s with timeoutTripped := some s.total }, .raised (.timeout s.total))
    else (s, .pending)
  | some .other => (s, .delivered .other)
  | some (.request body moreBody) =>
    let s := { s with total := s.total + body.length }
    if 0 < cfg.limit ∧ cfg.limit < s.total then (s, .raised (.tooLarge s.total))
    else (if moreBody then s else { s with bodyComplete := true }, .delivered (.request body moreBody))

def forward (s : Flags) (message : Sent) : Flags × List Sent :=
  match message with
  | .start .. => ({ s with downstreamStartedResponse := true }, [message])
  | .body _ false => ({ s with downstreamCompletedResponse := true }, [message])
  | _ => (s, [message])

def guardedSend (cfg : Config) (s : Flags) (message : Sent) : Flags × List Sent :=
  if s.responseReplaced then (s, [])
  else
    match s.timeoutTripped, s.downstreamCompletedResponse, message with
    | some streamed, false, .start .. =>
      ({ s with downstreamStartedResponse := true, downstreamCompletedResponse := true, responseReplaced := true },
        send408 cfg streamed)
    | some _, false, .body .. => ({ s with responseReplaced := true }, [])
    | _, _, message => forward s message

inductive Event where
  | receive (inbound : Option Received)
  | send (message : Sent)
  deriving DecidableEq

inductive Ending where
  | returned
  | propagated (e : Raised)
  | failed
  deriving DecidableEq

structure World where
  flags : Flags := {}
  client : List Sent := []

def step (cfg : Config) (w : World) : Event → World
  | .receive inbound => { w with flags := (boundedReceive cfg w.flags inbound).1 }
  | .send message =>
    { flags := (guardedSend cfg w.flags message).1, client := w.client ++ (guardedSend cfg w.flags message).2 }

def worldAfter (cfg : Config) (events : List Event) : World := runList (step cfg) {} events

def handle (cfg : Config) (s : Flags) : Ending → List Sent
  | .returned => []
  | .failed => []
  | .propagated e =>
    if s.downstreamCompletedResponse then []
    else if s.downstreamStartedResponse then [.body "" false]
    else
      match e with
      | .timeout streamed => send408 cfg streamed
      | .tooLarge streamed => send413 none cfg.limit true (some streamed)

structure Exchange where
  events : List Event
  client : List Sent
  returned : Bool

def exchange (cfg : Config) (advertised : Option Int) (events : List Event) (ending : Ending) : Exchange :=
  if 0 < cfg.limit ∧ advertised.any (fun n => (cfg.limit : Int) < n) then
    { events := [], client := send413 advertised cfg.limit false none, returned := true }
  else
    { events := events
      client := (worldAfter cfg events).client ++ handle cfg (worldAfter cfg events).flags ending
      returned := ending ≠ .failed }

def isTerminal : Sent → Bool
  | .body _ moreBody => !moreBody
  | _ => false

def isResponse : Sent → Bool
  | .other => false
  | _ => true

def statuses (l : List Sent) : List Nat :=
  l.filterMap (fun m => match m with | .start status _ => some status | _ => none)

def terminals (l : List Sent) : Nat := l.countP isTerminal

def received (events : List Event) : Nat :=
  (events.map (fun e => match e with | .receive (some (.request body _)) => body.length | _ => 0)).sum

def sends (events : List Event) : List Sent :=
  events.filterMap (fun e => match e with | .send message => some message | _ => none)

def outcomeAt (cfg : Config) (before : List Event) (inbound : Option Received) : Outcome :=
  (boundedReceive cfg (worldAfter cfg before).flags inbound).2

def isTimeout : Raised → Bool
  | .timeout _ => true
  | .tooLarge _ => false

def RaisedEarly (cfg : Config) (events : List Event) (timeout : Bool) : Prop :=
  ∃ before inbound after e, events = before ++ .receive inbound :: after ∧ outcomeAt cfg before inbound = .raised e ∧
    isTimeout e = timeout ∧ statuses (worldAfter cfg before).client = []

structure Correct (cfg : Config) (x : Exchange) : Prop where
  one_start : (statuses x.client).length ≤ 1
  one_end : x.returned = true → statuses x.client ≠ [] → terminals x.client = 1
  within : ∀ before body moreBody after, x.events = before ++ .receive (some (.request body moreBody)) :: after →
    (∃ m, outcomeAt cfg before (some (.request body moreBody)) = .delivered m) →
    cfg.limit = 0 ∨ received before + body.length ≤ cfg.limit
  too_large : RaisedEarly cfg x.events false → statuses x.client = [413]
  timed_out : RaisedEarly cfg x.events true → statuses x.client = [408]

end FusionMlx.BodySize
