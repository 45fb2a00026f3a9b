import FusionMlx.Support.PyText

/-!
# What a reasoning parser says

A delta of reasoning, of content, or of both at the turn from one to the other.
-/
namespace FusionMlx.Reasoning

open JsonText (Text)

/-- `DeltaMessage`, without the role, which no parser sets. -/
structure DeltaMessage where
  content : Option Text := none
  reasoning : Option Text := none

def reasoningOf (l : List DeltaMessage) : Text := l.flatMap (fun d => d.reasoning.getD [])

def contentOf (l : List DeltaMessage) : Text := l.flatMap (fun d => d.content.getD [])

theorem reasoningOf_append (l l' : List DeltaMessage) : reasoningOf (l ++ l') = reasoningOf l ++ reasoningOf l' :=
  List.flatMap_append

theorem contentOf_append (l l' : List DeltaMessage) : contentOf (l ++ l') = contentOf l ++ contentOf l' :=
  List.flatMap_append

end FusionMlx.Reasoning
