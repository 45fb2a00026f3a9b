import FusionMlx.Reasoning.Base
import FusionMlx.Support.PatternSearch
import FusionMlx.Support.StepTransducers

/-!
# The Gemma 4 reasoning parser

Thoughts and answers stand in channels, from an opener to a closer. The whole
text is read with regular expressions, with branches for thoughts that no
closer ends; the stream keeps two flags that it sets by what the text so far
contains, and takes the marker words out of every delta.
-/
namespace FusionMlx.Reasoning.Gemma4

open JsonText (Text)
open PyText TextSearch Transducers

def opener : Text := ['<', '|', 'c', 'h', 'a', 'n', 'n', 'e', 'l', '>']

def closer : Text := ['<', 'c', 'h', 'a', 'n', 'n', 'e', 'l', '|', '>']

def turnOpener : Text := ['<', '|', 't', 'u', 'r', 'n', '>']

def turnEnd : Text := ['<', 't', 'u', 'r', 'n', '|', '>']

def thoughtWord : Text := ['t', 'h', 'o', 'u', 'g', 'h', 't']

def contentWord : Text := ['c', 'o', 'n', 't', 'e', 'n', 't']

def finalWord : Text := ['f', 'i', 'n', 'a', 'l']

def thoughtOpener : Text := opener ++ thoughtWord

def contentOpener : Text := opener ++ contentWord

def finalOpener : Text := opener ++ finalWord

structure Gemma4ReasoningParser where
  inThought : Bool := false
  inContent : Bool := false
  sawAnyChannel : Bool := false

def orNone (t : Text) : Option Text := if t = [] then none else some t

def thoughtBlock (t : Text) : Option (Text × Text) :=
  if (thoughtOpener ++ ['\n']).isPrefixOf t then
    match partition closer (t.drop (thoughtOpener ++ ['\n']).length) with
    | none => none
    | some (body, after) =>
      if contains opener body then none
      else some (thoughtOpener ++ ['\n'] ++ body ++ closer ++ after.takeWhile isSpace, after.dropWhile isSpace)
  else none

def dropNewline (t : Text) : Text := if t.head? = some '\n' then t.tail else t

def contentStart (t : Text) : Option (Text × Text) :=
  if contentOpener.isPrefixOf t then some (contentOpener, dropNewline (t.drop contentOpener.length))
  else if finalOpener.isPrefixOf t then some (finalOpener, dropNewline (t.drop finalOpener.length))
  else none

def channelSegment (t : Text) : Option ((Text × Text) × Text) :=
  if opener.isPrefixOf t then
    let rest := t.drop opener.length
    let letter := fun (c : Char) => c.isAlphanum || c = '_' || c = '-'
    let type := rest.takeWhile letter
    if type = [] then none
    else
      let after := dropNewline (rest.dropWhile letter)
      some ((type, after), after)
  else none

def withoutEnds (t : Text) : Text := strip (replace turnEnd [] (replace closer [] t))

def innerOf (block : Text) : Text :=
  strip (replace closer [] (replace (thoughtOpener ++ ['\n']) [] block))

def isOpenInThink (accumulatedText : Text) : Bool :=
  thoughtOpener.isPrefixOf (lstrip accumulatedText) &&
    !(contains contentOpener accumulatedText || contains finalOpener accumulatedText) &&
    match rpartition thoughtOpener accumulatedText with
    | none => false
    | some (_, after) => !contains closer (thoughtOpener ++ after)

def extractOpen (modelOutput : Text) : Option Text × Option Text :=
  match rpartition thoughtOpener modelOutput with
  | none => (none, none)
  | some (before, after) =>
    let priorReasoning := ((findAll thoughtBlock before).map innerOf).flatten
    let trailingReasoning := strip (after.dropWhile (· = '\n'))
    (orNone (['\n'].intercalate ([priorReasoning, trailingReasoning].filter (· ≠ []))), none)

def downstreamParts (downstream : Text) : List Text × List Text :=
  let start := withoutEnds ((beforeMatch channelSegment downstream).getD downstream)
  let segments := (findAll channelSegment downstream).filterMap (fun (type, after) =>
    let body := withoutEnds (((partition opener after).map Prod.fst).getD after)
    if body = [] then none else some (type, body))
  let isContent := fun (p : Text × Text) => decide (p.1 = contentWord ∨ p.1 = finalWord)
  ((segments.filter (fun p => !isContent p)).map Prod.snd,
    [start].filter (· ≠ []) ++ (segments.filter isContent).map Prod.snd)

/-- The branch for a thought that another channel or the end of the text follows without a closer:
what stands before its opener and what stands behind. -/
def extractUnterminated (before trailing : Text) : Option Text × Option Text :=
  let preCleaned := withoutEnds (removeAll contentStart before)
  match find opener trailing with
  | none => (orNone (strip trailing), orNone preCleaned)
  | some nextOpener =>
    let reasoningBody := strip (trailing.take nextOpener)
    let (reasoningParts, contentParts) := downstreamParts (trailing.drop nextOpener)
    let downstreamContent := strip ([' '].intercalate contentParts)
    let reasoningFull := strip (reasoningBody ++
      if reasoningParts = [] then [] else (if reasoningBody = [] then [] else ['\n']) ++ ['\n'].intercalate reasoningParts)
    let contentOut := if preCleaned ≠ [] ∧ downstreamContent ≠ [] then strip (preCleaned ++ [' '] ++ downstreamContent)
      else if preCleaned ≠ [] then preCleaned else downstreamContent
    (orNone reasoningFull, orNone contentOut)

def unterminated (trailing : Text) : Bool :=
  match find closer trailing, find opener trailing with
  | none, _ => true
  | some nextCloser, some nextOpener => nextOpener < nextCloser
  | some _, none => false

def extractReasoning (modelOutput : Text) : Option Text × Option Text :=
  if modelOutput = [] then (none, some modelOutput)
  else if isOpenInThink modelOutput then extractOpen modelOutput
  else
    let thoughtBlocks := findAll thoughtBlock modelOutput
    if thoughtBlocks = [] then
      let cleaned := (none, some (withoutEnds (removeAll contentStart modelOutput)))
      match partition thoughtOpener modelOutput with
      | none => cleaned
      | some (before, after) =>
        let trailing := dropNewline after
        if unterminated trailing then extractUnterminated before trailing else cleaned
    else
      (orNone (thoughtBlocks.flatMap innerOf),
        orNone (withoutEnds (removeAll contentStart (removeAll thoughtBlock modelOutput))))

def markers : List Text :=
  [opener, closer, turnOpener, turnEnd, thoughtWord ++ ['\n'], contentWord ++ ['\n'], finalWord ++ ['\n']]

def clean (deltaText : Text) : Text := markers.foldl (fun t marker => replace marker [] t) deltaText

def trackChannel (s : Gemma4ReasoningParser) (currentText : Text) : Gemma4ReasoningParser :=
  let s := if contains thoughtOpener currentText ∧ s.inContent = false then
    { s with inThought := true, sawAnyChannel := true } else s
  let hasContent := contains contentOpener currentText || contains finalOpener currentText
  let s := if hasContent then { s with inThought := false, inContent := true } else s
  if s.inThought ∧ contains closer currentText ∧
      count thoughtOpener currentText ≤ count closer currentText then
    { s with inThought := false, inContent := s.inContent || !hasContent }
  else s

def flipPos (deltaText : Text) : Option Nat :=
  [closer, contentOpener, finalOpener].foldl (fun flip marker =>
    match find marker deltaText, flip with
    | some i, none => some i
    | some i, some j => if i < j then some i else some j
    | none, flip => flip) none

def whole (s : Gemma4ReasoningParser) (deltaText : Text) : Option DeltaMessage :=
  let t := clean deltaText
  if t = [] then none
  else if s.inThought then some { reasoning := some t }
  else if s.inContent then some { content := some t }
  else if s.sawAnyChannel = false then some { content := some t }
  else some { reasoning := some t }

def extractReasoningStreaming (s : Gemma4ReasoningParser) (currentText deltaText : Text) :
    Gemma4ReasoningParser × Option DeltaMessage :=
  if deltaText = [] then (s, none)
  else
    let s' := trackChannel s currentText
    if s.inThought ∧ s'.inThought = false then
      match flipPos deltaText with
      | none => (s', whole s' deltaText)
      | some i =>
        let pre := clean (deltaText.take i)
        let post := clean (deltaText.drop i)
        if pre ≠ [] ∨ post ≠ [] then (s', some { reasoning := orNone pre, content := orNone post })
        else (s', whole s' deltaText)
    else (s', whole s' deltaText)

def streamStep (s : Gemma4ReasoningParser × Text) (delta : Text) :
    (Gemma4ReasoningParser × Text) × List DeltaMessage :=
  let r := extractReasoningStreaming s.1 (s.2 ++ delta) delta
  ((r.1, s.2 ++ delta), r.2.toList)

def stream (deltas : List Text) : (Gemma4ReasoningParser × Text) × List DeltaMessage :=
  feed streamStep ({}, []) deltas

end FusionMlx.Reasoning.Gemma4
