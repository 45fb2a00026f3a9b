import FusionMlx.Reasoning.HarmonyText

/-!
# Deltas that keep the tokens

The stream follows the channels of a text as long as no delta hides a token
from it. Commentary goes through as it is, for the tool parser.
-/
namespace FusionMlx.Reasoning.Harmony

open JsonText (Text)

inductive Stage where
  /-- Before an opening, after a message of this channel. -/
  | between (old : Option Channel) (gap : Text)
  /-- Within an opening. -/
  | naming (m : Message) (rest : Text)
  | header (m : Message) (rest : Text)
  | body (m : Message) (rest : Text)
  /-- In commentary, up to the next opening of another channel. -/
  | raw (m : Message) (rest : Text)

inductive Front : Stage → Option Channel → Text → Prop
  | between (old : Option Channel) (gap : Text) : Front (.between old gap) old gap
  | body (m : Message) : Front (.body m []) (some m.channel) m.margin
  | raw (m : Message) (rest : Text) : Front (.raw m rest) (some .commentary) rest

def Stage.Bare : Stage → Prop
  | .raw m rest => rest <:+ m.margin
  | _ => True

/-- Cuts of the rest of a text that leave its tokens visible: no delta has text of an analysis or
final message and anything else, an opening and its message token, a part of a message token or of
a terminator, or a part of an opening that is not the first and switches the channel. -/
inductive Cut : Stage → List Message → List Text → Prop
  | done {s old} (hs : Front s old []) : Cut s [] []
  | gap {old ms ds} (d gap : Text) : Cut (.between old gap) ms ds → Cut (.between old (d ++ gap)) ms (d :: ds)
  | stop {m : Message} {ms ds} (g gap : Text) (hgap : m.gap = g ++ gap) :
      Cut (.between (some m.channel) gap) ms ds → Cut (.body m []) ms ((m.stop.token ++ g) :: ds)
  /-- A whole opening is in the delta, and it names no other channel. -/
  | opening {s old front ms ds} (m : Message) (h rest : Text) (hs : Front s old front) (hbare : s.Bare)
      (hc : m.channel ≠ .commentary) (hh : m.header = h ++ rest)
      (hname : namedIn (front ++ m.channel.opening ++ h) = some m.channel) :
      Cut (.header m rest) ms ds → Cut s (m :: ms) ((front ++ m.channel.opening ++ h) :: ds)
  /-- The opening comes in parts; the channel is the first or the one the stream is in. -/
  | spelling {s old front ms ds} (m : Message) (p q : Text) (hs : Front s old front)
      (hold : old = none ∨ old = some m.channel) (hc : m.channel ≠ .commentary)
      (hp : p ≠ []) (hq : q ≠ []) (hpq : m.channel.opening = p ++ q)
      (hname : switchIn (front ++ p) = none) :
      Cut (.naming m q) ms ds → Cut s (m :: ms) ((front ++ p) :: ds)
  | spelled {m ms ds} (d q : Text) (hq : q ≠ []) : Cut (.naming m q) ms ds → Cut (.naming m (d ++ q)) ms (d :: ds)
  | named {m ms ds} (q h rest : Text) (hh : m.header = h ++ rest) :
      Cut (.header m rest) ms ds → Cut (.naming m q) ms ((q ++ h) :: ds)
  | namedMessage {m ms ds} (q : Text) :
      Cut (.body m m.body) ms ds → Cut (.naming m q) ms ((q ++ m.header ++ messageToken) :: ds)
  | header {m ms ds} (d rest : Text) : Cut (.header m rest) ms ds → Cut (.header m (d ++ rest)) ms (d :: ds)
  | message {m ms ds} (rest : Text) :
      Cut (.body m m.body) ms ds → Cut (.header m rest) ms ((rest ++ messageToken) :: ds)
  /-- A part of a message that does not look like a token itself. -/
  | body {m ms ds} (d rest : Text) (hd : controlLike d = false) :
      Cut (.body m rest) ms ds → Cut (.body m (d ++ rest)) ms (d :: ds)
  /-- The first delta of a run of commentary messages has its whole opening and names no other channel. -/
  | commentary {s old front ms ds} (m : Message) (more : List Message) (p rest : Text) (hs : Front s old front)
      (hc : ∀ m' ∈ m :: more, m'.channel = .commentary)
      (hp : (m :: more).flatMap Message.text = p ++ rest) (ho : m.channel.opening <+: p)
      (hname : namedIn (front ++ p) = some .commentary) :
      Cut (.raw (more.getLastD m) rest) ms ds → Cut s (m :: more ++ ms) ((front ++ p) :: ds)
  | raw {m ms ds} (d rest : Text) (hd : switchIn d = none ∨ switchIn d = some .commentary) :
      Cut (.raw m rest) ms ds → Cut (.raw m (d ++ rest)) ms (d :: ds)

def Stage.rest : Stage → Text
  | .between _ gap => gap
  | .naming m q => q ++ m.tail
  | .header m h => h ++ messageToken ++ m.body ++ m.margin
  | .body m b => b ++ m.margin
  | .raw _ rest => rest

theorem Front.rest_eq {s : Stage} {old : Option Channel} {front : Text} (h : Front s old front) :
    s.rest = front := by
  cases h <;> rfl

variable {ms : List Message}

/-- The deltas of a cut are the text. -/
theorem Cut.flatten {s : Stage} {ds : List Text} (h : Cut s ms ds) :
    ds.flatten = s.rest ++ ms.flatMap Message.text := by
  induction h with
  | done hs => simp [hs.rest_eq]
  | gap d gap _ ih => simp [ih, Stage.rest]
  | stop g gap hgap _ ih => simp [ih, Stage.rest, Message.margin, hgap]
  | opening m h rest hs _ _ hh _ _ ih =>
    rw [List.flatten_cons, ih, hs.rest_eq]
    simp [Stage.rest, Message.text, Message.tail, hh]
  | spelling m p q hs _ _ _ _ hpq _ _ ih =>
    rw [List.flatten_cons, ih, hs.rest_eq]
    simp [Stage.rest, Message.text, hpq]
  | spelled d q _ _ ih => simp [ih, Stage.rest]
  | named q h rest hh _ ih => simp [ih, Stage.rest, Message.tail, hh]
  | namedMessage q _ ih => simp [ih, Stage.rest, Message.tail]
  | header d rest _ ih => simp [ih, Stage.rest]
  | message rest _ ih => simp [ih, Stage.rest]
  | body d rest _ _ ih => simp [ih, Stage.rest]
  | commentary m more p rest hs _ hp _ _ _ ih =>
    rw [List.flatMap_append, hp, List.flatten_cons, ih, hs.rest_eq]
    simp [Stage.rest]
  | raw d rest _ _ ih => simp [ih, Stage.rest]

/-- The content of messages behind some control text: the text of the final messages, and commentary
as it is, up to the control text around it. -/
inductive Carries : Text → List Message → Text → Prop
  | nil (before : Text) : Carries before [] []
  | spoken {before ms c} (m : Message) (hc : m.channel ≠ .commentary) (h : Carries m.margin ms c) :
      Carries before (m :: ms) ((if m.channel = .final then m.body else []) ++ c)
  | commentary {before ms c} (m : Message) (a b rest : Text) (hc : m.channel = .commentary)
      (ha : a <:+ before) (hb : m.margin = b ++ rest) (h : Carries rest ms c) :
      Carries before (m :: ms) (a ++ (m.channel.opening ++ m.header ++ messageToken ++ m.body) ++ b ++ c)

theorem Carries.mono {before before' c : Text} (h : Carries before ms c)
    (hsuf : before <:+ before') : Carries before' ms c := by
  cases h with
  | nil => exact .nil _
  | spoken m hc h => exact .spoken m hc h
  | commentary m a b rest hc ha hb h => exact .commentary m a b rest hc (ha.trans hsuf) hb h

/-- Without commentary the content is the text of the final messages. -/
theorem Carries.eq_final {before c : Text} (h : Carries before ms c)
    (hms : ∀ m ∈ ms, m.channel ≠ .commentary) : c = Harmony.spoken .final ms := by
  induction h with
  | nil => rfl
  | spoken m hc h ih => rw [spoken_cons, ih (fun m' hm' => hms m' (by simp [hm']))]
  | commentary m a b rest hc ha hb h ih => exact absurd hc (hms m (by simp))

theorem margin_suffix (m : Message) (more : List Message) :
    (more.getLastD m).margin <:+ (m :: more).flatMap Message.text := by
  induction more generalizing m with
  | nil => exact ⟨m.channel.opening ++ m.header ++ messageToken ++ m.body, by simp [Message.text, Message.tail]⟩
  | cons m' more ih =>
    rw [List.flatMap_cons, List.getLastD_cons]
    exact (ih m').trans (List.suffix_append _ _)

/-- A run of commentary messages up to a part of its last margin. -/
theorem carries_block {m : Message} {more : List Message} {x rest c a before : Text}
    (hc : ∀ m' ∈ m :: more, m'.channel = .commentary) (hx : (m :: more).flatMap Message.text = x ++ rest)
    (hrest : rest <:+ (more.getLastD m).margin) (h : Carries rest ms c) (ha : a <:+ before) :
    Carries before (m :: more ++ ms) (a ++ x ++ c) := by
  induction more generalizing m x a before with
  | nil =>
    obtain ⟨b, hb⟩ := hrest
    have hcore : x = m.channel.opening ++ m.header ++ messageToken ++ m.body ++ b := by
      refine (List.append_left_inj rest).1 ?_
      rw [← hx, List.append_assoc _ b, hb]
      simp [Message.text, Message.tail]
    rw [hcore, show a ++ (m.channel.opening ++ m.header ++ messageToken ++ m.body ++ b) ++ c =
      a ++ (m.channel.opening ++ m.header ++ messageToken ++ m.body) ++ b ++ c by simp]
    exact .commentary m a b rest (hc m (by simp)) ha hb.symm h
  | cons m' more ih =>
    rw [List.getLastD_cons] at hrest
    obtain ⟨x', hx'⟩ := hrest.trans (margin_suffix m' more)
    rw [List.flatMap_cons, ← hx', ← List.append_assoc] at hx
    have hcore := List.append_cancel_right hx
    have hnext := @ih _ _ [] [] (fun n hn => hc n (by simp at hn ⊢; tauto)) hx'.symm hrest
      List.suffix_rfl
    have := Carries.commentary m a m.margin [] (hc m (by simp)) ha (by simp) hnext
    rw [← hcore]
    simpa [Message.text, Message.tail] using this

end FusionMlx.Reasoning.Harmony
