import FusionMlx.Reasoning.Base
import FusionMlx.Support.PatternSearch
import FusionMlx.Support.StepTransducers

/-!
# The Harmony reasoning parser

A text is a sequence of channel messages. The whole text is read with three
regular expressions; the stream keeps the channel it is in and looks for tokens
in each delta.
-/
namespace FusionMlx.Reasoning.Harmony

open JsonText (Text)
open PyText TextSearch Transducers

def channelToken : Text := ['<', '|', 'c', 'h', 'a', 'n', 'n', 'e', 'l', '|', '>']

def messageToken : Text := ['<', '|', 'm', 'e', 's', 's', 'a', 'g', 'e', '|', '>']

def endToken : Text := ['<', '|', 'e', 'n', 'd', '|', '>']

def returnToken : Text := ['<', '|', 'r', 'e', 't', 'u', 'r', 'n', '|', '>']

def callToken : Text := ['<', '|', 'c', 'a', 'l', 'l', '|', '>']

def startToken : Text := ['<', '|', 's', 't', 'a', 'r', 't', '|', '>']

inductive Channel where
  | analysis
  | final
  | commentary
  deriving DecidableEq

def Channel.name : Channel → Text
  | .analysis => ['a', 'n', 'a', 'l', 'y', 's', 'i', 's']
  | .final => ['f', 'i', 'n', 'a', 'l']
  | .commentary => ['c', 'o', 'm', 'm', 'e', 'n', 't', 'a', 'r', 'y']

structure HarmonyReasoningParser where
  currentChannel : Option Channel := none
  inMessage : Bool := false

def matchOpening (name t : Text) : Option Text :=
  if (channelToken ++ name).isPrefixOf t then
    let rest := lstrip (t.drop (channelToken ++ name).length)
    if messageToken.isPrefixOf rest then some (rest.drop messageToken.length) else none
  else none

def analysisPattern (t : Text) : Option (Text × Text) := (matchOpening Channel.analysis.name t).bind (partition endToken)

def finalPatternReturn (t : Text) : Option Text :=
  (matchOpening Channel.final.name t).bind (fun rest => (partition returnToken rest).map Prod.fst)

def finalPatternEnd (t : Text) : Option Text :=
  (matchOpening Channel.final.name t).bind (fun rest => (rpartition endToken rest).map Prod.fst)

def extractReasoning (modelOutput : Text) : Option Text × Option Text :=
  let analysisBlocks := findAll analysisPattern modelOutput
  let reasoning := ['\n'].intercalate (analysisBlocks.map strip)
  let finalMatch := (search finalPatternReturn modelOutput).or (search finalPatternEnd modelOutput)
  (if reasoning = [] then none else some reasoning, finalMatch.map strip)

def namedIn (deltaText : Text) : Option Channel :=
  if contains Channel.analysis.name deltaText then some .analysis
  else if contains Channel.final.name deltaText then some .final
  else if contains Channel.commentary.name deltaText then some .commentary
  else none

def switchIn (deltaText : Text) : Option Channel :=
  if contains channelToken deltaText then namedIn deltaText else none

def channelOf (currentText : Text) : Option Channel :=
  match rpartition channelToken currentText with
  | none => none
  | some (_, after) =>
    if Channel.analysis.name.isPrefixOf after then some .analysis
    else if Channel.final.name.isPrefixOf after then some .final
    else if Channel.commentary.name.isPrefixOf after then some .commentary
    else none

def controlLike (deltaText : Text) : Bool :=
  ['<', '|'].isPrefixOf (strip deltaText) && ['|', '>'].isSuffixOf (strip deltaText)

def extractReasoningStreaming (s : HarmonyReasoningParser) (currentText deltaText : Text) :
    HarmonyReasoningParser × Option DeltaMessage :=
  match switchIn deltaText with
  | some .commentary =>
    ({ currentChannel := some .commentary, inMessage := false }, some { content := some deltaText })
  | some c => ({ currentChannel := some c, inMessage := false }, none)
  | none =>
    let s := if s.currentChannel = none then { s with currentChannel := channelOf currentText } else s
    if s.currentChannel = some .commentary then (s, some { content := some deltaText })
    else if contains messageToken deltaText then ({ s with inMessage := true }, none)
    else if [endToken, returnToken, callToken, startToken].any (fun token => contains token deltaText) then
      ({ s with inMessage := false }, none)
    else if controlLike deltaText then (s, none)
    else if s.inMessage ∧ s.currentChannel = some .analysis then (s, some { reasoning := some deltaText })
    else if s.inMessage ∧ s.currentChannel = some .final then (s, some { content := some deltaText })
    else (s, none)

def streamStep (s : HarmonyReasoningParser × Text) (delta : Text) :
    (HarmonyReasoningParser × Text) × List DeltaMessage :=
  let r := extractReasoningStreaming s.1 (s.2 ++ delta) delta
  ((r.1, s.2 ++ delta), r.2.toList)

def stream (deltas : List Text) : (HarmonyReasoningParser × Text) × List DeltaMessage :=
  feed streamStep ({}, []) deltas

end FusionMlx.Reasoning.Harmony
