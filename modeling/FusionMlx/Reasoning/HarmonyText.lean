import FusionMlx.Reasoning.HarmonyParser

/-!
# Harmony texts

A text is what stands before the first channel token and a list of messages,
each with its opening, a header, the message text, a terminator and what stands
between it and the next opening. The parts have no tokens but their own.
-/
namespace FusionMlx.Reasoning.Harmony

open JsonText (Text)
open PyText TextSearch

inductive Stop where
  | ended
  | returned
  | called
  deriving DecidableEq

def Stop.token : Stop → Text
  | .ended => endToken
  | .returned => returnToken
  | .called => callToken

/-- `<|` and `|>` around letters. -/
def Token (t : Text) : Prop :=
  t ∈ [channelToken, messageToken, endToken, returnToken, callToken, startToken]

def Channel.opening (c : Channel) : Text := channelToken ++ c.name

variable {t a b tok : Text}

/-- No token that structures a message. -/
def Free (t : Text) : Prop :=
  ∀ tok ∈ [channelToken, messageToken, endToken, returnToken, callToken], ¬ tok <:+: t

theorem nil_free : Free [] := by unfold Free; decide

theorem Free.part (h : Free t) (ha : a <:+: t) : Free a :=
  fun tok htok hin => h tok htok (hin.trans ha)

theorem token_parts (h : Token tok) :
    Sharp tok ∧ Sharp tok.reverse ∧ tok.head? = some '<' ∧ tok.getLast? = some '>' := by
  simp only [Token, List.mem_cons, List.not_mem_nil, or_false] at h
  rcases h with rfl | rfl | rfl | rfl | rfl | rfl <;>
    exact ⟨⟨'<', _, rfl, by decide⟩, ⟨'>', _, rfl, by decide⟩, rfl, rfl⟩

theorem token_cons (h : Token tok) : ∃ xs, tok = '<' :: xs := by
  obtain ⟨⟨x, xs, rfl, -⟩, -, hhead, -⟩ := token_parts h
  obtain rfl : x = '<' := by simpa using hhead
  exact ⟨xs, rfl⟩

/-- A text with no `<` has no token. -/
theorem token_absent (h : Token tok) (ht : '<' ∉ t) : ¬ tok <:+: t := by
  obtain ⟨xs, rfl⟩ := token_cons h
  exact fun hin => ht (hin.subset (by simp))

theorem token_infix_append (h : Token tok) (ha : '<' ∉ a) : tok <:+: a ++ b ↔ tok <:+: b := by
  obtain ⟨xs, rfl⟩ := token_cons h
  exact infix_append_of_head ha

theorem blank_no_open (h : Blank t) : '<' ∉ t := h.not_mem (by decide)

/-- Two different tokens do not meet at the front of a text. -/
theorem token_prefix (h : Token tok) {tok' : Text} (h' : Token tok') (hne : tok ≠ tok') :
    ¬ tok <+: tok' ++ t := by
  simp only [Token, List.mem_cons, List.not_mem_nil, or_false] at h h'
  rcases h with rfl | rfl | rfl | rfl | rfl | rfl <;>
    rcases h' with rfl | rfl | rfl | rfl | rfl | rfl <;>
      first
      | exact absurd rfl hne
      | (simp [channelToken, messageToken, endToken, returnToken, callToken, startToken])

/-- Behind another token a token comes later. -/
theorem token_infix_token (h : Token tok) {tok' : Text} (h' : Token tok') (hne : tok ≠ tok') :
    tok <:+: tok' ++ t ↔ tok <:+: t := by
  obtain ⟨xs, hxs⟩ := token_cons h
  obtain ⟨⟨y, ys, hys, hy⟩, -, hhead, -⟩ := token_parts h'
  obtain rfl : y = '<' := by rw [hys] at hhead; simpa using hhead
  have hpre := token_prefix (t := t) h h' hne
  rw [hys, List.cons_append] at hpre ⊢
  rw [List.infix_cons_iff, or_iff_right hpre, hxs]
  exact infix_append_of_head hy

structure Message where
  channel : Channel
  header : Text
  body : Text
  stop : Stop
  gap : Text
  header_blank : channel ≠ .commentary → Blank header
  header_free : Free header
  body_free : Free body
  body_start : ¬ startToken <:+: body
  gap_free : Free gap

namespace Message

variable (m : Message)

def margin : Text := m.stop.token ++ m.gap

def tail : Text := m.header ++ messageToken ++ m.body ++ m.margin

def text : Text := m.channel.opening ++ m.tail

end Message

def textOf (lead : Text) (ms : List Message) : Text := lead ++ ms.flatMap Message.text

def spoken (c : Channel) (ms : List Message) : Text :=
  (ms.filter (fun m => m.channel = c)).flatMap Message.body

@[simp] theorem spoken_nil (c : Channel) : spoken c [] = [] := rfl

theorem spoken_cons (c : Channel) (m : Message) (ms : List Message) :
    spoken c (m :: ms) = (if m.channel = c then m.body else []) ++ spoken c ms := by
  by_cases h : m.channel = c <;> simp [spoken, h]

theorem spoken_commentary {c : Channel} (hc : c ≠ .commentary) {l : List Message}
    (hl : ∀ m ∈ l, m.channel = .commentary) (ms : List Message) : spoken c (l ++ ms) = spoken c ms := by
  have hnil : l.filter (fun m => m.channel = c) = [] := by
    rw [List.filter_eq_nil_iff]
    intro m hm
    simp [hl m hm, hc.symm]
  rw [spoken, List.filter_append, hnil, List.nil_append]
  rfl

theorem stop_token (s : Stop) : Token s.token := by
  cases s <;> simp [Stop.token, Token]

theorem message_token : Token messageToken := by simp [Token]

theorem channel_token : Token channelToken := by simp [Token]

theorem Channel.name_no_open (c : Channel) : '<' ∉ c.name := by cases c <;> decide

end FusionMlx.Reasoning.Harmony
