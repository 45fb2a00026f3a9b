import FusionMlx.Reasoning.Gemma4Text

/-!
# Thoughts and an answer

A text of closed thoughts and then an answer, cut so that the flags of the
stream turn where the channels do.
-/
namespace FusionMlx.Reasoning.Gemma4

open JsonText (Text)
open PyText TextSearch

structure Thought where
  body : Text
  gap : Text
  body_free : Free body
  gap_blank : Blank gap

namespace Thought

variable (t : Thought)

def segments : List Segment := [(.thought, t.body), (.close, t.gap)]

def text : Text := t.segments.flatMap segmentText

theorem text_eq : t.text = Head.thought.text ++ t.body ++ closer ++ t.gap := by
  simp [text, segments, segmentText, Head.text]

end Thought

abbrev Labelled := List (Bool × Char)

def spoken (t : Text) : Labelled := t.map (fun c => (true, c))

def hidden (t : Text) : Labelled := t.map (fun c => (false, c))

def textOf (l : Labelled) : Text := l.map Prod.snd

def saidOf (l : Labelled) : Text := (l.filter Prod.fst).map Prod.snd

def Thought.labelled (t : Thought) : Labelled :=
  hidden Head.thought.text ++ spoken t.body ++ hidden closer ++ spoken t.gap

structure AnswerChannel where
  isFinal : Bool
  body : Text
  after : Option Text
  body_free : Free body
  after_free : ∀ t ∈ after, Free t

namespace AnswerChannel

variable (a : AnswerChannel)

def head : Head := if a.isFinal then .final else .content

def segments : List Segment := (a.head, a.body) :: (a.after.map (fun t => (.close, t))).toList

def labelled : Labelled :=
  hidden a.head.text ++ spoken a.body ++ (a.after.map (fun t => hidden closer ++ spoken t)).getD []

end AnswerChannel

structure Answer where
  plain : Text
  channels : List AnswerChannel
  plain_free : Free plain

namespace Answer

variable (a : Answer)

def segments : List Segment := a.channels.flatMap AnswerChannel.segments

def labelled : Labelled := spoken a.plain ++ a.channels.flatMap AnswerChannel.labelled

def said : Text := saidOf a.labelled

end Answer

@[simp] theorem textOf_append (l l' : Labelled) : textOf (l ++ l') = textOf l ++ textOf l' := by simp [textOf]

@[simp] theorem saidOf_append (l l' : Labelled) : saidOf (l ++ l') = saidOf l ++ saidOf l' := by simp [saidOf]

@[simp] theorem textOf_spoken (t : Text) : textOf (spoken t) = t := by simp [textOf, spoken, Function.comp_def]

@[simp] theorem saidOf_spoken (t : Text) : saidOf (spoken t) = t := by
  simp [saidOf, spoken, List.filter_map, Function.comp_def]

@[simp] theorem textOf_hidden (t : Text) : textOf (hidden t) = t := by simp [textOf, hidden, Function.comp_def]

@[simp] theorem saidOf_hidden (t : Text) : saidOf (hidden t) = [] := by
  simp [saidOf, hidden, List.filter_map, Function.comp_def]

@[simp] theorem textOf_nil : textOf [] = [] := rfl

@[simp] theorem saidOf_nil : saidOf [] = [] := rfl

theorem AnswerChannel.textOf_labelled (a : AnswerChannel) : textOf a.labelled = a.segments.flatMap segmentText := by
  obtain ⟨f, b, after, -, -⟩ := a
  cases after <;> simp [AnswerChannel.labelled, AnswerChannel.segments, segmentText, Head.text]

theorem Answer.textOf_labelled (a : Answer) : textOf a.labelled = a.plain ++ a.segments.flatMap segmentText := by
  have hrest : textOf (a.channels.flatMap AnswerChannel.labelled) = a.segments.flatMap segmentText := by
    unfold Answer.segments
    induction a.channels with
    | nil => rfl
    | cons c cs ih => rw [List.flatMap_cons, List.flatMap_cons, List.flatMap_append, textOf_append, ih, c.textOf_labelled]
  rw [Answer.labelled, textOf_append, textOf_spoken, hrest]

def thoughtsSaid (ts : List Thought) : Text := ts.flatMap (fun t => t.body ++ t.gap)

def thoughtsText (ts : List Thought) : Text := ts.flatMap Thought.text

def thoughtsLabelled (ts : List Thought) : Labelled := ts.flatMap Thought.labelled

theorem textOf_thoughts (ts : List Thought) : textOf (thoughtsLabelled ts) = thoughtsText ts := by
  induction ts with
  | nil => rfl
  | cons t ts ih =>
    rw [thoughtsLabelled, List.flatMap_cons, textOf_append, ← thoughtsLabelled, ih]
    simp [thoughtsText, Thought.labelled, Thought.text_eq]

theorem saidOf_thoughts (ts : List Thought) : saidOf (thoughtsLabelled ts) = thoughtsSaid ts := by
  induction ts with
  | nil => rfl
  | cons t ts ih =>
    rw [thoughtsLabelled, List.flatMap_cons, saidOf_append, ← thoughtsLabelled, ih]
    simp [thoughtsSaid, Thought.labelled]

inductive Stage where
  /-- Within the first opener, its word not complete. -/
  | start (p : Text)
  | thought (t : Thought) (rest : Text)
  | answer

/-- Cuts of a text at whose ends the flags of the stream are right: from the first thought to the
last there is always one open, the last closes in a delta that closes every thought it opens, and
taking the markers out of a delta, or out of its two parts at that closer, leaves the text between
them. Without such thoughts a first delta may close all those that it opens. -/
inductive Cut : Stage → List Thought → Labelled → List Text → Prop
  | done : Cut .answer [] [] []
  | wait {p ts tail ds} (d : Text) (hd : clean d = []) (hp : p ++ d <+: thoughtOpener) (hne : p ++ d ≠ thoughtOpener) :
      Cut (.start (p ++ d)) ts tail ds → Cut (.start p) ts tail (d :: ds)
  | first {p ts tail ds} (d : Text) (past : List Thought) (t : Thought) (b rest : Text)
      (ht : t.body = b ++ rest) (htext : p ++ d = thoughtsText past ++ (Head.thought.text ++ b))
      (hd : clean d = thoughtsSaid past ++ b) :
      Cut (.thought t rest) ts tail ds → Cut (.start p) (past ++ t :: ts) tail (d :: ds)
  | stay {t ts tail ds} (d rest : Text) (hd : clean d = d) :
      Cut (.thought t rest) ts tail ds → Cut (.thought t (d ++ rest)) ts tail (d :: ds)
  | next {t ts tail ds} (rest : Text) (past : List Thought) (t' : Thought) (b rest' : Text)
      (ht : t'.body = b ++ rest')
      (hd : clean (rest ++ closer ++ t.gap ++ thoughtsText past ++ (Head.thought.text ++ b)) =
        rest ++ t.gap ++ thoughtsSaid past ++ b) :
      Cut (.thought t' rest') ts tail ds →
        Cut (.thought t rest) (past ++ t' :: ts) tail
          ((rest ++ closer ++ t.gap ++ thoughtsText past ++ (Head.thought.text ++ b)) :: ds)
  | last {t tail tail' ds} (rest : Text) (y : Labelled) (hy : spoken t.gap ++ tail = y ++ tail')
      (hcount : count thoughtOpener (textOf y) ≤ count closer (textOf y))
      (hrest : clean rest = rest) (hd : clean (closer ++ textOf y) = saidOf y) :
      Cut .answer [] tail' ds → Cut (.thought t rest) [] tail ((rest ++ closer ++ textOf y) :: ds)
  | closed {p tail ds} (d : Text) (y : Labelled) (htext : p ++ d = textOf y)
      (hin : thoughtOpener <:+: textOf y) (hcount : count thoughtOpener (textOf y) ≤ count closer (textOf y))
      (hd : clean d = saidOf y) :
      Cut .answer [] tail ds → Cut (.start p) [] (y ++ tail) (d :: ds)
  | answer {tail ds} (y : Labelled) (hd : clean (textOf y) = saidOf y) :
      Cut .answer [] tail ds → Cut .answer [] (y ++ tail) (textOf y :: ds)

def Stage.initial (ts : List Thought) : Stage := if ts = [] then .answer else .start []

theorem Cut.flatten {stage : Stage} {ts : List Thought} {tail : Labelled} {ds : List Text}
    (h : Cut stage ts tail ds) :
    match stage with
    | .start p => p ++ ds.flatten = thoughtsText ts ++ textOf tail
    | .thought t rest => ds.flatten = rest ++ closer ++ t.gap ++ thoughtsText ts ++ textOf tail
    | .answer => ds.flatten = thoughtsText ts ++ textOf tail := by
  induction h with
  | done => rfl
  | wait d _ _ _ _ ih => simpa using ih
  | first d past t b rest ht htext _ _ ih =>
    have h := congrArg (· ++ (rest ++ closer ++ t.gap)) htext
    simp only [List.flatten_cons, ← List.append_assoc] at h ih ⊢
    rw [htext, List.append_assoc _ _ (List.flatten _), ih]
    simp [thoughtsText, Thought.text_eq, ht]
  | stay d rest _ _ ih => simp [ih]
  | next rest past t' b rest' ht _ _ ih => simp [ih, thoughtsText, Thought.text_eq, ht]
  | last rest y hy _ _ _ _ ih =>
    have h := congrArg textOf hy
    simp only [textOf_append, textOf_spoken] at h
    simp [ih, thoughtsText, h]
  | closed d y htext _ _ _ _ ih =>
    simp only [List.flatten_cons, ih, ← List.append_assoc, htext]
    simp [thoughtsText]
  | answer y _ _ ih => simp [ih, thoughtsText]

end FusionMlx.Reasoning.Gemma4
