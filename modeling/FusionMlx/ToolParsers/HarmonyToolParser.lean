import FusionMlx.Reasoning.HarmonyText

/-!
# The Harmony tool parser

Tool calls are commentary messages that name a function, either in the header
or in front of the channel token. The whole text is searched with one regular
expression; the stream searches it again whenever another call is complete.
-/
namespace FusionMlx.ToolParsers.Harmony

open JsonText PyText TextSearch
open Reasoning.Harmony (channelToken messageToken endToken returnToken callToken startToken Channel
  matchOpening Message textOf spoken)

def constrainToken : Text := ['<', '|', 'c', 'o', 'n', 's', 't', 'r', 'a', 'i', 'n', '|', '>']

def recipient : Text := ['t', 'o', '=', 'f', 'u', 'n', 'c', 't', 'i', 'o', 'n', 's', '.']

def jsonWord : Text := ['j', 's', 'o', 'n']

/-- A tool call without its random identifier. -/
structure ToolCall where
  name : Text
  arguments : Text

structure ExtractedToolCallInformation where
  toolsCalled : Bool
  toolCalls : List ToolCall
  content : Option Text

section Patterns

-- `str.isalnum` of the characters beyond ASCII.
variable (isAlnum : Char → Bool)

def isWord (c : Char) : Bool := c.isAlphanum || c = '_' || (128 ≤ c.toNat && isAlnum c && !isSpace c)

def isNameChar (c : Char) : Bool := isWord isAlnum c || c = '-'

def after (literal t : Text) : Option Text :=
  if literal.isPrefixOf t then some (t.drop literal.length) else none

def takeSome (p : Char → Bool) (t : Text) : Option (Text × Text) :=
  if t.takeWhile p = [] then none else some (t.takeWhile p, t.dropWhile p)

def untilStop : Text → Text × Text
  | [] => ([], [])
  | c :: t =>
    match [callToken, channelToken, startToken, endToken, returnToken].find? (fun tok => tok.isPrefixOf (c :: t)) with
    | some tok => ([], (c :: t).drop tok.length)
    | none =>
      -- `$` stands before a newline at the end.
      if c :: t = ['\n'] then ([], ['\n'])
      else (c :: (untilStop t).1, (untilStop t).2)

def contentType (t : Text) : Option Text :=
  match after messageToken t with
  | some t => some t
  | none => do
    let (_, t) ← takeSome isSpace t
    let (_, t) ← takeSome (isWord isAlnum) t
    after messageToken t

def realBlock (t : Text) : Option ((Text × Text) × Text) := do
  let t ← after recipient t
  let (name, t) ← takeSome (isNameChar isAlnum) t
  let t ← after (channelToken ++ Channel.commentary.name) t
  let t ← contentType isAlnum t
  some ((name, (untilStop t).1), (untilStop t).2)

def legacyBlock (t : Text) : Option ((Text × Text) × Text) := do
  let t ← after (channelToken ++ Channel.commentary.name) t
  let (_, t) ← takeSome isSpace t
  let t ← after recipient t
  let (name, t) ← takeSome (isNameChar isAlnum) t
  let t :=
    match (after constrainToken (lstrip t)).bind (takeSome (isWord isAlnum)) with
    | some (_, t) => t
    | none => t
  let t ← after messageToken (lstrip t)
  some ((name, (untilStop t).1), (untilStop t).2)

def commentaryBlock (t : Text) : Option ((Text × Text) × Text) :=
  (realBlock isAlnum t).or (legacyBlock isAlnum t)

def finalBlock (t : Text) : Option Text :=
  (matchOpening Channel.final.name t).bind (fun rest =>
    match partition endToken rest, partition returnToken rest with
    | some (a, _), some (b, _) => some (if a.length < b.length then a else b)
    | some (a, _), none => some a
    | none, some (b, _) => some b
    | none, none => none)

def strippedControlTokens : List Text :=
  [startToken, endToken, messageToken, channelToken, constrainToken, returnToken, callToken]

def wordPattern (words : List Text) (t : Text) : Option (Text × Text) :=
  (words.find? (fun w => w.isPrefixOf t)).map (fun w => (w, lstrip (t.drop w.length)))

def recipientPattern (t : Text) : Option (Text × Text) := do
  let t ← after recipient t
  let (name, t) ← takeSome (isWord isAlnum) t
  some (name, lstrip t)

def stripControlTokensInner (t : Text) : Text :=
  let result := strippedControlTokens.foldl (fun t tok => replace tok [] t) t
  let result := removeAll (wordPattern [Channel.analysis.name, Channel.commentary.name, Channel.final.name]) result
  let result := removeAll (recipientPattern isAlnum) result
  removeAll (wordPattern [jsonWord]) result

end Patterns

section Parser

variable (isAlnum : Char → Bool)
-- `json.dumps` and `str` of a parsed value.
variable (dumps str : Json → Text)

def toolCallOf (block : Text × Text) : ToolCall :=
  let argsStr := strip block.2
  match loads argsStr with
  | some arguments => { name := block.1, arguments := if arguments.isObj then dumps arguments else str arguments }
  | none => { name := block.1, arguments := argsStr }

def extractToolCalls (modelOutput : Text) : ExtractedToolCallInformation :=
  let toolCalls := (findAll (commentaryBlock isAlnum) modelOutput).map (toolCallOf dumps str)
  let content := (search finalBlock modelOutput).map strip
  if toolCalls ≠ [] then ⟨true, toolCalls, content⟩
  else ⟨false, [], some (content.getD (strip (stripControlTokensInner isAlnum modelOutput)))⟩

structure ToolCallDelta where
  index : Nat
  name : Text
  arguments : Text
  deriving DecidableEq

/-- What a delta gives the client; nothing at all stands for `None`. -/
structure Delta where
  content : Text := []
  toolCalls : List ToolCallDelta := []

def streamingSentinels : List Text :=
  [channelToken, messageToken, callToken, startToken, endToken, returnToken, constrainToken]

def safeContentPrefix (t : Text) : Text := safePrefix streamingSentinels t

def emitSafeContent (previousText currentText : Text) : Delta :=
  let safeCurrent := safeContentPrefix currentText
  let safePrevious := safeContentPrefix previousText
  if safeCurrent.length ≤ safePrevious.length then {} else { content := safeCurrent.drop safePrevious.length }

def flushHeldContent (fullText : Text) : Text := fullText.drop (safeContentPrefix fullText).length

def finalOpening : Text := Channel.final.opening

def cleanFinal (t : Text) : Option Text :=
  (rpartition finalOpening t).bind (fun r =>
    (partition messageToken (finalOpening ++ r.2)).map (fun p =>
      safeContentPrefix (stripControlTokensInner isAlnum p.2)))

def contentStreaming (previousText currentText : Text) : Delta :=
  if contains finalOpening currentText then
    match cleanFinal isAlnum currentText with
    | none => {}
    | some clean => { content := clean.drop ((cleanFinal isAlnum previousText).getD []).length }
  else if ¬ contains channelToken currentText then emitSafeContent previousText currentText
  else {}

def extractToolCallsStreaming (previousText currentText : Text) : Delta :=
  let result := extractToolCalls isAlnum dumps str currentText
  if count callToken previousText < count callToken currentText ∧ result.toolsCalled then
    { toolCalls := result.toolCalls.mapIdx (fun i tc => { index := i, name := tc.name, arguments := tc.arguments }) }
  else contentStreaming isAlnum previousText currentText

def stream (prev : Text) : List Text → List (Text × Delta)
  | [] => []
  | d :: ds => (prev ++ d, extractToolCallsStreaming isAlnum dumps str prev (prev ++ d)) :: stream (prev ++ d) ds

def finalContent (l : List (Text × Delta)) : Text :=
  (l.filter (fun p => contains finalOpening p.1)).flatMap (fun p => p.2.content)

end Parser

end FusionMlx.ToolParsers.Harmony
