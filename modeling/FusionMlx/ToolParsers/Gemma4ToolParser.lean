import FusionMlx.ToolParsers.HarmonyToolParser
import FusionMlx.Support.OrderedDict

/-!
# The Gemma 4 tool parser

A call is `call:NAME{key:value,...}`, with or without the tokens around it. One
regular expression takes the body up to a closing brace, a second one hides
the quoted strings behind placeholders and a third one reads the pairs. The
stream searches the text so far again with every delta.
-/
namespace FusionMlx.ToolParsers.Gemma4

open JsonText PyText TextSearch OrderedDict
open Harmony (isWord after takeSome)

def toolCallToken : Text := ['<', '|', 't', 'o', 'o', 'l', '_', 'c', 'a', 'l', 'l', '>']

def toolCallEnd : Text := ['<', 't', 'o', 'o', 'l', '_', 'c', 'a', 'l', 'l', '|', '>']

def quoteToken : Text := ['<', '|', '\x22', '|', '>']

def callWord : Text := ['c', 'a', 'l', 'l', ':']

inductive Arguments where
  | dumped (args : Dict Text Json)
  | raw (t : Text)

/-- A tool call without its random identifier. -/
structure ToolCall where
  name : Text
  arguments : Arguments

structure ExtractedToolCallInformation where
  toolsCalled : Bool
  toolCalls : List ToolCall
  content : Option Text

section Patterns

-- `str.isalnum` of the characters beyond ASCII.
variable (isAlnum : Char → Bool)

def opener (t : Text) : Option (Text × Text) := do
  let t ← after callWord t
  let (name, t) ← takeSome (isWord isAlnum) t
  let t ← after ['\x7b'] t
  some (name, t)

def callBody (t : Text) : Option ((Text × Text) × Text) := do
  let (name, t) ← opener isAlnum t
  let (args, t) ← partition ['\x7d'] t
  some ((name, args), (after toolCallEnd t).getD t)

def toolPattern (t : Text) : Option ((Text × Text) × Text) :=
  ((after toolCallToken t).bind (callBody isAlnum)).or (callBody isAlnum t)

/-- `GEMMA4_KV_BARE_PATTERN`: the key and the stripped value. The value is lazy, so it ends where only
white space is left before a comma or the end. -/
def bareKv (t : Text) : Option ((Text × Text) × Text) := do
  let (key, t) ← takeSome (isWord isAlnum) t
  let t ← after [':'] (lstrip t)
  let segment := t.takeWhile (· ≠ ',')
  if segment = [] then none
  else some ((key, strip segment), t.drop (segment.length - (lstrip segment).length + (strip segment).length))

end Patterns

section Arguments

variable (isAlnum : Char → Bool)
-- The decimal value of the characters beyond ASCII.
variable (beyond : Char → Option Nat)

def decimal (c : Char) : Option Nat :=
  if isDigit c then some (c.toNat - '0'.toNat) else if 128 ≤ c.toNat then beyond c else none

def moreDigits (n : Nat) : Text → Option Nat
  | [] => some n
  | '_' :: c :: t => (decimal beyond c).bind (fun d => moreDigits (10 * n + d) t)
  | c :: t => (decimal beyond c).bind (fun d => moreDigits (10 * n + d) t)

def numeral : Text → Option Nat
  | [] => none
  | c :: t => (decimal beyond c).bind (fun d => moreDigits beyond d t)

def pyInt (t : Text) : Option Int :=
  match strip t with
  | '-' :: t => (numeral beyond t).map (fun n => -(n : Int))
  | '+' :: t => (numeral beyond t).map Int.ofNat
  | t => (numeral beyond t).map Int.ofNat

def item (stashed : List Text) (i : Int) : Option Text :=
  if 0 ≤ i then stashed[i.toNat]?
  else if (-i).toNat ≤ stashed.length then stashed[stashed.length - (-i).toNat]?
  else none

def placeholderStart : Text := ['_', '_', 'Q']

def placeholderEnd : Text := ['_', '_']

def placeholder (n : Nat) : Text := placeholderStart ++ Nat.toDigits 10 n ++ placeholderEnd

/-- The quoted strings of a text that is split at its quote tokens, from the `n`-th on, and the text
with placeholders in their stead; a token without a second one stays. -/
def stash (n : Nat) : List Text → List Text × Text
  | t :: s :: u :: pieces =>
    let rest := stash (n + 1) (u :: pieces)
    (s :: rest.1, t ++ placeholder n ++ rest.2)
  | [t, u] => ([], t ++ quoteToken ++ u)
  | [t] => ([], t)
  | [] => ([], [])

def codes (t : Text) : List Nat := t.map Char.toNat

def restored (stashed : List Text) (rawVal : Text) : Option Text :=
  if placeholderStart.isPrefixOf rawVal ∧ placeholderEnd.isSuffixOf rawVal then
    (pyInt beyond ((rawVal.drop 3).take (rawVal.length - 5))).bind (item stashed)
  else none

def argValue (stashed : List Text) (rawVal : Text) : Json :=
  match restored beyond stashed rawVal with
  | some s => .str (codes s)
  | none => (loads rawVal).getD (.str (codes rawVal))

def parseGemma4Args (argsStr : Text) : Dict Text Json :=
  let (stashed, cleaned) := stash 0 (split quoteToken argsStr)
  (findAll (bareKv isAlnum) cleaned).foldl (fun result kv => result.set kv.1 (argValue beyond stashed kv.2)) Dict.empty

end Arguments

section TextFormat

variable (isAlnum : Char → Bool)

def callingWord : Text := ['[', 'C', 'a', 'l', 'l', 'i', 'n', 'g']

def toolWord : Text := ['t', 'o', 'o', 'l']

def textToolCallAny (t : Text) : Option Unit := do
  let t ← after callingWord t
  let (_, t) ← takeSome isSpace t
  let t ← after toolWord t
  if t.head? = some '=' ∨ t.head? = some ':' then some () else none

def jsonArgs : Text → Option (Text × Text)
  | [] => none
  | c :: t =>
    match if c = '\x7d' then (after [')'] t).bind (fun t => after [']'] (lstrip t)) else none with
    | some rest => some (['\x7d'], rest)
    | none => if c = '\n' then none else (jsonArgs t).map (fun r => (c :: r.1, r.2))

def textToolCallFn (t : Text) : Option ((Text × Text) × Text) := do
  let t ← after callingWord t
  let (_, t) ← takeSome isSpace t
  let t ← after (toolWord ++ [':']) t
  let (name, t) ← takeSome (isWord isAlnum) (lstrip t)
  let t ← after ['(', '\x7b'] t
  let (args, t) ← jsonArgs t
  some ((name, '\x7b' :: args), t)

end TextFormat

section Parser

variable (isAlnum : Char → Bool) (beyond : Char → Option Nat)
-- The search for a call in prose, for the tools of the request.
variable (proseSearch : Text → Option ToolCall)

def tryProseRecoverToolCall (t : Text) : Option ToolCall := if t = [] then none else proseSearch t

def extractToolCalls (modelOutput : Text) : ExtractedToolCallInformation :=
  let found := findAll (toolPattern isAlnum) modelOutput
  if found = [] then
    match tryProseRecoverToolCall proseSearch modelOutput with
    | some recovered => ⟨true, [recovered], none⟩
    | none => ⟨false, [], some modelOutput⟩
  else
    let content := strip (removeAll (toolPattern isAlnum) modelOutput)
    ⟨true, found.map (fun m => ⟨m.1, .dumped (parseGemma4Args isAlnum beyond m.2)⟩),
      if content = [] then none else some content⟩

/-- What a delta gives the client; nothing at all stands for `None`. -/
structure Delta where
  content : Text := []
  toolCalls : List (Nat × ToolCall) := []

def numbered (count : Nat) (newCalls : List ToolCall) : List (Nat × ToolCall) :=
  newCalls.mapIdx (fun i tc => (count - newCalls.length + i, tc))

/-- The end of `extract_tool_calls_streaming`: calls in the text format, or plain content. -/
def textFormatStreaming (emitted : Nat) (currentText deltaText : Text) : Nat × Delta :=
  if (search textToolCallAny currentText).isSome then
    let found := findAll (textToolCallFn isAlnum) currentText
    let newMatches := (found.drop emitted).map (fun m => (⟨m.1, .raw m.2⟩ : ToolCall))
    if newMatches = [] then (emitted, {}) else (found.length, { toolCalls := numbered found.length newMatches })
  else (emitted, { content := deltaText })

def extractToolCallsStreaming (emitted : Nat) (currentText deltaText : Text) : Nat × Delta :=
  if contains toolCallToken currentText ∨ (search (opener isAlnum) currentText).isSome then
    let completed := (findAll (toolPattern isAlnum) currentText).length
    let openCount := (findAll (opener isAlnum) currentText).length
    if completed < openCount then (emitted, {})
    else if completed ≤ emitted then (emitted, {})
    else
      let result := extractToolCalls isAlnum beyond proseSearch currentText
      let newCalls := result.toolCalls.drop emitted
      if result.toolsCalled ∧ newCalls ≠ [] then
        (result.toolCalls.length, { toolCalls := numbered result.toolCalls.length newCalls })
      else
        textFormatStreaming isAlnum (if result.toolsCalled then result.toolCalls.length else emitted) currentText deltaText
  else textFormatStreaming isAlnum emitted currentText deltaText

def streamFrom (emitted : Nat) (previousText : Text) : List Text → List Delta
  | [] => []
  | deltaText :: deltas =>
    let currentText := previousText ++ deltaText
    let r := extractToolCallsStreaming isAlnum beyond proseSearch emitted currentText deltaText
    r.2 :: streamFrom r.1 currentText deltas

def streamedCalls (deltas : List Text) : List (Nat × ToolCall) :=
  (streamFrom isAlnum beyond proseSearch 0 [] deltas).flatMap Delta.toolCalls

end Parser

end FusionMlx.ToolParsers.Gemma4
