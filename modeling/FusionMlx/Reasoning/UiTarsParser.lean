import FusionMlx.Reasoning.Base
import FusionMlx.Support.FirstBoundary
import FusionMlx.Support.StepTransducers

/-!
# The UI-TARS reasoning parser

A text that begins with one of the preamble openers is reasoning up to the
first exit predicate. The stream holds an opener back until it is whole, and
counts from the texts how much of the end it has held back before an exit.
-/
namespace FusionMlx.Reasoning.UiTars

open JsonText (Text)
open PyText TextSearch Transducers

def preambleOpeners : List Text :=
  [['T', 'h', 'o', 'u', 'g', 'h', 't', ':'],
    ['R', 'e', 'f', 'l', 'e', 'c', 't', 'i', 'o', 'n', ':'],
    ['A', 'c', 't', 'i', 'o', 'n', '_', 'S', 'u', 'm', 'm', 'a', 'r', 'y', ':']]

def thinkOpen : Text := ['<', 't', 'h', 'i', 'n', 'k', '>']

def thinkClose : Text := ['<', '/', 't', 'h', 'i', 'n', 'k', '>']

def actionWord : Text := ['A', 'c', 't', 'i', 'o', 'n', ':']

def answerWord : Text := ['A', 'n', 's', 'w', 'e', 'r', ':']

def blankLine : Text := ['\n', '\n']

def exitPredicates : List Text := [actionWord, thinkClose, answerWord, blankLine]

def maxBoundaryPrefix : Nat := (exitPredicates.map (fun t => t.length - 1)).foldl max 0

structure UiTarsReasoningParser where
  inReasoning : Bool := false
  inContent : Bool := false
  enableThinking : Option Bool := none

def orNone (t : Text) : Option Text := if t = [] then none else some t

def slice (t : Text) (i j : Nat) : Text := (t.take j).drop i

def betterExit (buffer : Text) (best : Option (Nat × Text)) (tok : Text) : Option (Nat × Text) :=
  match find tok buffer, best with
  | none, best => best
  | some pos, none => some (pos, tok)
  | some pos, some (bestPos, bestTok) =>
    if pos < bestPos then some (pos, tok)
    else if pos = bestPos ∧ bestTok.length < tok.length then some (bestPos, tok)
    else some (bestPos, bestTok)

def findFirstExit (buffer : Text) : Option (Nat × Text) := exitPredicates.foldl (betterExit buffer) none

def structural (exitTok : Text) : Bool := exitTok = thinkClose || exitTok = blankLine

def contentAfterExit (buffer : Text) (exitPos : Nat) (exitTok : Text) : Text :=
  if structural exitTok then buffer.drop (exitPos + exitTok.length) else buffer.drop exitPos

def partialExitHold (currentText : Text) : Nat → Nat
  | 0 => 0
  | k + 1 =>
    if k + 1 ≤ currentText.length ∧
        exitPredicates.any (fun tok => (currentText.drop (currentText.length - (k + 1))).isPrefixOf tok) then k + 1
    else partialExitHold currentText k

def computePartialExitHold (currentText : Text) : Nat := partialExitHold currentText maxBoundaryPrefix

def withinReasoning (s : UiTarsReasoningParser) (previousText currentText : Text) :
    UiTarsReasoningParser × Option DeltaMessage :=
  let emittedSoFar := previousText.length - computePartialExitHold previousText
  match findFirstExit currentText with
  | none =>
    let safeEnd := currentText.length - computePartialExitHold currentText
    if safeEnd ≤ emittedSoFar then (s, none)
    else (s, some { reasoning := some (slice currentText emittedSoFar safeEnd) })
  | some (exitPos, exitTok) =>
    let reasoningPart := if emittedSoFar < exitPos then slice currentText emittedSoFar exitPos else []
    ({ s with inContent := true },
      some { reasoning := orNone reasoningPart, content := orNone (contentAfterExit currentText exitPos exitTok) })

def thinkOpened (s : UiTarsReasoningParser) (previousText currentText : Text) :
    UiTarsReasoningParser × Option DeltaMessage :=
  let afterOpen := (find thinkOpen currentText).getD 0 + thinkOpen.length
  if currentText.length ≤ afterOpen then (s, none)
  else
    let reasonStart := max afterOpen previousText.length
    let noExit :=
      let safeEnd := currentText.length - computePartialExitHold currentText
      if safeEnd ≤ reasonStart then (s, none)
      else (s, some { reasoning := some (slice currentText reasonStart safeEnd) })
    match findFirstExit currentText with
    | none => noExit
    | some (exitPos, exitTok) =>
      if reasonStart ≤ exitPos then
        ({ s with inContent := true },
          some { reasoning := orNone (slice currentText reasonStart exitPos),
                 content := orNone (contentAfterExit currentText exitPos exitTok) })
      else noExit

def extractReasoningStreaming (s : UiTarsReasoningParser) (previousText currentText deltaText : Text) :
    UiTarsReasoningParser × Option DeltaMessage :=
  if deltaText = [] then (s, none)
  else if s.enableThinking = some false then ({ s with inContent := true }, some { content := some deltaText })
  else if s.inContent then (s, some { content := some deltaText })
  else if s.inReasoning then withinReasoning s previousText currentText
  else
    let stripped := lstrip currentText
    let content := ({ s with inContent := true }, some { content := some (previousText ++ deltaText) })
    if stripped = [] then (s, none)
    else if preambleOpeners.any (fun p => p.isPrefixOf stripped) then
      -- What was held back comes out with the delta; neither is searched for an exit.
      if previousText ≠ [] then
        ({ s with inReasoning := true }, some { reasoning := some (previousText ++ deltaText) })
      else withinReasoning { s with inReasoning := true } previousText currentText
    else if thinkOpen.isPrefixOf stripped then thinkOpened { s with inReasoning := true } previousText currentText
    else if actionWord.isPrefixOf stripped then content
    else if (preambleOpeners ++ [actionWord, thinkOpen]).any (fun op => stripped.isPrefixOf op) then (s, none)
    else content

def finalizeStreaming (s : UiTarsReasoningParser) (accumulatedText : Text) :
    UiTarsReasoningParser × Option DeltaMessage :=
  if s.inReasoning ∨ s.inContent then (s, none)
  else if accumulatedText = [] then (s, none)
  else ({ s with inContent := true }, some { content := some accumulatedText })

def streamStep (s : UiTarsReasoningParser × Text) (delta : Text) :
    (UiTarsReasoningParser × Text) × List DeltaMessage :=
  let r := extractReasoningStreaming s.1 s.2 (s.2 ++ delta) delta
  ((r.1, s.2 ++ delta), r.2.toList)

def messagesFrom (s : UiTarsReasoningParser × Text) (deltas : List Text) : List DeltaMessage :=
  let r := feed streamStep s deltas
  r.2 ++ (finalizeStreaming r.1.1 r.1.2).2.toList

def streamed (enableThinking : Option Bool) (deltas : List Text) : Text × Text :=
  let messages := messagesFrom ({ enableThinking := enableThinking }, []) deltas
  (reasoningOf messages, contentOf messages)

end FusionMlx.Reasoning.UiTars
