import FusionMlx.Support.PyText
import FusionMlx.Support.StepTransducers
import Mathlib.Data.Finset.Card

/-!
# The tool-choice filter and the parallel cap

A batch of streamed tool-call deltas first goes through
`_apply_forced_tool_choice_filter`, then through `_apply_parallel_cap`. The two
share one flag, the last anchor having been dropped.
-/
namespace FusionMlx.Service.ToolCallGate

open JsonText PyText Transducers

inductive ToolChoice where
  | mode (word : Text)
  | function (name : Option Text)

structure Request where
  toolChoice : Option ToolChoice := none
  parallelToolCalls : Option Bool := none

namespace Request

def forcedToolChoiceName (req : Request) : Option Text :=
  match req.toolChoice with
  | some (.function (some name)) => if name = [] then none else some name
  | _ => none

def isToolChoiceRequired (req : Request) : Bool :=
  match req.toolChoice with
  | some (.mode word) => word = "required".toList
  | _ => false

def parallelToolCallsAllowed (req : Request) : Bool := req.parallelToolCalls ≠ some false

end Request

structure FunctionDelta where
  name : Option Text := none
  arguments : Option Text := none

/-- A tool-call delta; a key of another type than the code asks for is as good as absent. `rest`
stands for the keys neither filter looks at. -/
structure ToolCallDelta (α : Type) where
  index : Option Int := none
  id : Option Text := none
  function : Option FunctionDelta := none
  name : Option Text := none
  arguments : Option Text := none
  rest : α

namespace ToolCallDelta

variable {α : Type} (tc : ToolCallDelta α)

def wrappedName : Option Text := tc.function.bind FunctionDelta.name

def anchorName : Option Text :=
  match tc.wrappedName with
  | some (c :: n) => some (c :: n)
  | _ => tc.name

def argsStr : Option Text :=
  match tc.function.bind FunctionDelta.arguments with
  | some a => some a
  | none => tc.arguments

def anchorId : Text := tc.id.getD []

def hasWrappedName : Bool := tc.wrappedName.getD [] ≠ []

def hasFlatName : Bool := tc.name.getD [] ≠ []

def hasId : Bool := tc.id.getD [] ≠ []

def isAnchor : Bool := tc.hasWrappedName || tc.hasFlatName || tc.hasId

def deltaName : Option Text :=
  if tc.hasWrappedName then tc.wrappedName else if tc.hasFlatName then tc.name else none

def deltaId : Option Text := if tc.hasId then tc.id else none

end ToolCallDelta

def forcedToolChoiceArgumentsViolateObjectRoot : Option Text → Bool
  | none => false
  | some args =>
    if strip args = [] then false
    else
      match loads args with
      | none => ¬ args.count '{' > args.count '}'
      | some parsed => !parsed.isObj

def continuationArgumentsDefinitivelyNonObject : Option Text → Bool
  | none => false
  | some args =>
    if strip args = [] then false
    else
      match loads args with
      | none => false
      | some parsed => !parsed.isObj

structure Gate where
  admittedToolCallIndices : Finset Int := ∅
  structuredToolCallCount : Nat := 0
  noIndexCallAdmitted : Bool := false
  noIndexAdmittedId : Option Text := none
  noIndexAdmittedName : Option Text := none
  noIndexLastDropped : Bool := false
  forcedAnchorAdmittedId : Option Text := none

variable {α : Type} (req : Request)

def filterStep (s : Gate) (tc : ToolCallDelta α) : Gate × List (ToolCallDelta α) :=
  let dropped : Gate × List (ToolCallDelta α) := ({ s with noIndexLastDropped := true }, [])
  match tc.anchorName with
  | none => if continuationArgumentsDefinitivelyNonObject tc.argsStr then dropped else (s, [tc])
  | some anchorName =>
    match req.forcedToolChoiceName with
    | none => if forcedToolChoiceArgumentsViolateObjectRoot tc.argsStr then dropped else (s, [tc])
    | some forcedName =>
      if anchorName ≠ forcedName then dropped
      else if forcedToolChoiceArgumentsViolateObjectRoot tc.argsStr then dropped
      else
        match s.forcedAnchorAdmittedId with
        | some admitted => if tc.anchorId ≠ admitted then dropped else (s, [tc])
        | none => ({ s with forcedAnchorAdmittedId := some tc.anchorId }, [tc])

def applyForcedToolChoiceFilter (s : Gate) (toolCalls : List (ToolCallDelta α)) :
    Gate × List (ToolCallDelta α) :=
  if req.forcedToolChoiceName = none ∧ req.isToolChoiceRequired = false then (s, toolCalls)
  else feed (filterStep req) s toolCalls

def capStep (s : Gate) (tc : ToolCallDelta α) : Gate × List (ToolCallDelta α) :=
  -- A continuation of the admitted indexed call.
  if tc.index.any (· ∈ s.admittedToolCallIndices) then ({ s with noIndexLastDropped := false }, [tc])
  -- The admitted index-free call again.
  else if tc.index = none ∧ tc.isAnchor ∧ s.noIndexCallAdmitted ∧
      ((tc.deltaId ≠ none ∧ s.noIndexAdmittedId ≠ none ∧ tc.deltaId = s.noIndexAdmittedId) ∨
        (tc.deltaId = none ∧ tc.deltaName ≠ none ∧ s.noIndexAdmittedName ≠ none ∧
          tc.deltaName = s.noIndexAdmittedName)) then
    ({ s with noIndexLastDropped := false }, [tc])
  -- A bare fragment goes where the last anchor went.
  else if tc.index = none ∧ ¬ tc.isAnchor ∧
      (s.admittedToolCallIndices ≠ ∅ ∨ s.noIndexCallAdmitted) then
    if s.noIndexLastDropped then (s, []) else (s, [tc])
  -- A new call.
  else if s.admittedToolCallIndices.card + (if s.noIndexCallAdmitted then 1 else 0) ≥ 1 then
    ({ s with noIndexLastDropped := true }, [])
  else
    let s : Gate :=
      match tc.index with
      | some idx =>
        { s with
          admittedToolCallIndices := insert idx s.admittedToolCallIndices
          noIndexLastDropped := false }
      | none =>
        { s with
          noIndexCallAdmitted := true
          noIndexLastDropped := false
          noIndexAdmittedId := if tc.hasId then tc.id else s.noIndexAdmittedId
          noIndexAdmittedName :=
            if tc.hasWrappedName then tc.wrappedName
            else if tc.hasFlatName then tc.name else s.noIndexAdmittedName }
    ({ s with
      structuredToolCallCount :=
        max s.structuredToolCallCount
          (s.admittedToolCallIndices.card + (if s.noIndexCallAdmitted then 1 else 0)) }, [tc])

def applyParallelCap (s : Gate) (toolCalls : List (ToolCallDelta α)) :
    Gate × List (ToolCallDelta α) :=
  if req.parallelToolCallsAllowed then
    let indices := s.admittedToolCallIndices ∪ (toolCalls.filterMap ToolCallDelta.index).toFinset
    ({ s with
      admittedToolCallIndices := indices
      structuredToolCallCount := max s.structuredToolCallCount indices.card }, toolCalls)
  else feed capStep s toolCalls

def gate (s : Gate) (toolCalls : List (ToolCallDelta α)) : Gate × List (ToolCallDelta α) :=
  let f := applyForcedToolChoiceFilter req s toolCalls
  applyParallelCap req f.1 f.2

end FusionMlx.Service.ToolCallGate
