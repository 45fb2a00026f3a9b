import FusionMlx.Support.PyText
import FusionMlx.Support.TextSearch
import FusionMlx.Support.StepTransducers

/-!
# The Mistral tool parser

A text is content and then tool calls, each behind a `[TOOL_CALLS]` marker: in
the new format a name and the arguments as a JSON object, in the old format one
JSON array of named items. The parser reads it whole, or delta by delta with a
state machine over the characters behind the first marker.
-/
namespace FusionMlx.ToolParsers.Mistral

open JsonText PyText TextSearch Transducers

def botToken : Text := ['[', 'T', 'O', 'O', 'L', '_', 'C', 'A', 'L', 'L', 'S', ']']

def argsTag : Text := ['[', 'A', 'R', 'G', 'S', ']']

/-- A tool call without its random identifier. An array item may have any value for a name. -/
structure ToolCall where
  name : Json
  arguments : Text

def quoted (t : Text) : Json := .str (t.map Char.toNat)

structure ExtractedToolCallInformation where
  toolsCalled : Bool
  toolCalls : List ToolCall
  content : Option Text

section Whole

-- `json.dumps` and `str` of a parsed value.
variable (dumps str : Json → Text)

def namedItems : Json → List ToolCall
  | .arr items =>
    items.filterMap (fun item =>
      (item.get? ("name".toList.map Char.toNat)).map (fun name =>
        let args := (item.get? ("arguments".toList.map Char.toNat)).getD (.obj [])
        { name, arguments := if args.isObj then dumps args else str args }))
  | _ => []

def toolCallRegexSearch (t : Text) : Option Text :=
  match partition ['[', '{'] t with
  | none => none
  | some (_, t) => (rpartition ['}', ']'] t).map (fun r => ['[', '{'] ++ r.1 ++ ['}', ']'])

def extractRaw (acc : Text × List ToolCall) (rawToolCall : Text) : Text × List ToolCall :=
  let raw := strip rawToolCall
  if raw = [] then acc
  else if raw.head? ≠ some '[' ∧ '{' ∈ raw then
    let toolName := strip (replace argsTag [] (raw.takeWhile (· ≠ '{')))
    let argsStr := raw.dropWhile (· ≠ '{')
    if toolName = [] then acc else (acc.1, acc.2 ++ [{ name := quoted toolName, arguments := argsStr }])
  else
    match loads raw with
    | some parsed => (acc.1, acc.2 ++ namedItems dumps str parsed)
    | none =>
      match toolCallRegexSearch raw with
      | none => acc
      | some group =>
        match loads group with
        | some parsed => (acc.1, acc.2 ++ namedItems dumps str parsed)
        | none => (if acc.1 = [] then raw else strip (acc.1 ++ [' '] ++ raw), acc.2)

def extractToolCalls (modelOutput : Text) : ExtractedToolCallInformation :=
  if ¬ contains botToken modelOutput then ⟨false, [], some modelOutput⟩
  else
    match split botToken modelOutput with
    | [] => ⟨false, [], some modelOutput⟩
    | head :: rawToolCalls =>
      let r := rawToolCalls.foldl (extractRaw dumps str) (strip head, [])
      if r.2 = [] then ⟨false, [], some modelOutput⟩
      else ⟨true, r.2, if r.1 = [] then none else some r.1⟩

end Whole

inductive StreamFormat where
  | old
  | new

structure Segment where
  name : Text := []
  nameBuffer : Text := []
  nameEmitted : Bool := false
  needsNameEmit : Bool := false
  sawSeparator : Bool := false
  argsBuffer : Text := []
  argsEmitted : Nat := 0
  argsStarted : Bool := false
  argsClosed : Bool := false
  /-- `json_depth`, `in_string` and `escape_next`. -/
  json : Walk := {}

structure MistralToolParser where
  streamFormat : Option StreamFormat := none
  streamOldEmitted : Bool := false
  parsedBodyLen : Nat := 0
  toolSegments : List Segment := []
  curSegIdx : Nat := 0
  interBuffer : Text := []

structure ToolCallDelta where
  index : Nat
  name : Option Json := none
  arguments : Option Text := none

/-- What a delta gives the client; nothing at all stands for `None`. -/
structure Delta where
  content : Text := []
  toolCalls : List ToolCallDelta := []

def safeContentPrefix (t : Text) : Text := safePrefix [botToken] t

def flushHeldContent (fullText : Text) : Text :=
  if contains botToken fullText then [] else fullText.drop (safeContentPrefix fullText).length

def emitSafeContent (previousText currentText : Text) : Delta :=
  let safePrev := safeContentPrefix previousText
  let safeCur := safeContentPrefix currentText
  if safeCur.length ≤ safePrev.length then {} else { content := safeCur.drop safePrev.length }

def trimToSentinelPrefix (buf : Text) : Text := buf.drop (buf.length - held botToken buf)

namespace Segment

def named (seg : Segment) (name : Text) : Segment :=
  { seg with name, sawSeparator := true, needsNameEmit := seg.needsNameEmit || !seg.nameEmitted }

def walk (seg : Segment) (ch : Char) : Segment :=
  if ¬ seg.sawSeparator then
    let seg := { seg with nameBuffer := seg.nameBuffer ++ [ch] }
    if argsTag.isSuffixOf seg.nameBuffer then
      let name := strip (seg.nameBuffer.take (seg.nameBuffer.length - argsTag.length))
      if name = [] then seg else seg.named name
    else if ch = '{' then
      let name := strip seg.nameBuffer.dropLast
      if name = [] then seg
      else { seg.named name with argsBuffer := ['{'], json := seg.json.step '{', argsStarted := true }
    else seg
  else
    let seg := { seg with argsBuffer := seg.argsBuffer ++ [ch], json := seg.json.step ch }
    if seg.json.depth > 0 ∨ seg.json.inString then { seg with argsStarted := true }
    else if seg.argsStarted then { seg with argsClosed := true }
    else seg

def emit (i : Nat) (seg : Segment) : Segment × List ToolCallDelta :=
  let named := seg.nameEmitted || seg.needsNameEmit
  let more := named ∧ seg.argsBuffer.length > seg.argsEmitted
  let delta := if more then some (seg.argsBuffer.drop seg.argsEmitted) else none
  ({ seg with
      nameEmitted := named
      needsNameEmit := false
      argsEmitted := if more then seg.argsBuffer.length else seg.argsEmitted },
    if seg.needsNameEmit then [{ index := i, name := some (quoted seg.name), arguments := delta }]
    else if more then [{ index := i, arguments := delta }] else [])

end Segment

def walkChar (s : MistralToolParser) (ch : Char) : MistralToolParser :=
  let segments := s.toolSegments ++ List.replicate (s.curSegIdx + 1 - s.toolSegments.length) ({} : Segment)
  let seg := segments.getD s.curSegIdx {}
  if seg.argsClosed then
    let interBuffer := s.interBuffer ++ [ch]
    if contains botToken interBuffer then
      { s with toolSegments := segments, curSegIdx := s.curSegIdx + 1, interBuffer := [] }
    else { s with toolSegments := segments, interBuffer := trimToSentinelPrefix interBuffer }
  else { s with toolSegments := segments.set s.curSegIdx (seg.walk ch) }

def streamNewFormat (s : MistralToolParser) (body : Text) (result : Delta) : MistralToolParser × Delta :=
  let newBytes := body.drop s.parsedBodyLen
  let s := { s with parsedBodyLen := body.length }
  if newBytes = [] then (s, result)
  else
    let s := newBytes.foldl walkChar s
    ({ s with toolSegments := s.toolSegments.mapIdx (fun i seg => (seg.emit i).1) },
      { result with toolCalls := (s.toolSegments.mapIdx (fun i seg => (seg.emit i).2)).flatten })

section Stream

variable (dumps str : Json → Text)

def streamOldFormat (s : MistralToolParser) (body : Text) (result : Delta) : MistralToolParser × Delta :=
  if s.streamOldEmitted then (s, result)
  else if ']' ∉ body then (s, result)
  else
    let info := extractToolCalls dumps str (botToken ++ body)
    if ¬ info.toolsCalled then (s, result)
    else
      ({ s with streamOldEmitted := true },
        { result with
          toolCalls := info.toolCalls.mapIdx (fun i tc =>
            { index := i, name := some tc.name, arguments := some tc.arguments }) })

def classify (s : MistralToolParser) (body : Text) : Option StreamFormat :=
  match s.streamFormat with
  | some f => some f
  | none =>
    match lstrip body with
    | [] => none
    | c :: _ => some (if c = '[' then .old else .new)

def streamBody (s : MistralToolParser) (body : Text) (result : Delta) : MistralToolParser × Delta :=
  match s.streamFormat with
  | none => (s, result)
  | some .old => streamOldFormat dumps str s body result
  | some .new => streamNewFormat s body result

def extractToolCallsStreaming (s : MistralToolParser) (previousText currentText : Text) : MistralToolParser × Delta :=
  match partition botToken currentText with
  | none => (s, emitSafeContent previousText currentText)
  | some (head, body) =>
    let result : Delta :=
      if contains botToken previousText then {}
      else { content := head.drop (safeContentPrefix previousText).length }
    streamBody dumps str { s with streamFormat := classify s body } body result

def streamStep (s : MistralToolParser × Text) (delta : Text) : (MistralToolParser × Text) × List Delta :=
  let r := extractToolCallsStreaming dumps str s.1 s.2 (s.2 ++ delta)
  ((r.1, s.2 ++ delta), [r.2])

def stream (deltas : List Text) : (MistralToolParser × Text) × List Delta :=
  feed (streamStep dumps str) ({}, []) deltas

end Stream

end FusionMlx.ToolParsers.Mistral
