import FusionMlx.Reasoning.HarmonyAgreement
import FusionMlx.ToolParsers.HarmonyToolParser
import Mathlib

/-!
# Calls in a Harmony text

What the pattern of a call takes at the front of a text, and from it the calls
of a whole text and of each of its beginnings.
-/
namespace FusionMlx.ToolParsers.Harmony

open JsonText PyText TextSearch Reasoning.Harmony

variable (isAlnum : Char → Bool) {t u a b before name header : Text} {x : (Text × Text) × Text} {m : Message}
  {ms : List Message}

variable {c : Char}

theorem isNameChar_of_isWord (h : isWord isAlnum c = true) : isNameChar isAlnum c = true := by
  simp [isNameChar, h]

theorem isSpace_of_isAlphanum (h : c.isAlphanum = true) : isSpace c = false := by
  simp only [Char.isAlphanum, Char.isAlpha, Char.isUpper, Char.isLower, Char.isDigit, Bool.or_eq_true,
    Bool.and_eq_true, decide_eq_true_eq, UInt32.le_iff_toNat_le] at h
  have hval : c.toNat = c.val.toNat := rfl
  simp only [isSpace, decide_eq_false_iff_not, hval]
  simp at h
  omega

theorem isSpace_of_isWord (h : isWord isAlnum c = true) : isSpace c = false := by
  simp only [isWord, Bool.or_eq_true, Bool.and_eq_true, Bool.not_eq_true', decide_eq_true_eq] at h
  rcases h with (h | rfl) | h
  · exact isSpace_of_isAlphanum h
  · decide
  · exact h.2

theorem after_some {literal : Text} : after literal t = some u ↔ t = literal ++ u := by
  rw [after]
  split
  · rename_i h
    obtain ⟨r, rfl⟩ := List.isPrefixOf_iff_prefix.1 h
    simp
  · rename_i h
    simp only [reduceCtorEq, false_iff]
    rintro rfl
    exact h (List.isPrefixOf_iff_prefix.2 (List.prefix_append _ _))

@[simp] theorem after_append (literal t : Text) : after literal (literal ++ t) = some t := after_some.2 rfl

theorem takeSome_some {p : Char → Bool} (h : takeSome p t = some (a, b)) :
    t = a ++ b ∧ a ≠ [] ∧ ∀ c ∈ a, p c = true := by
  rw [takeSome] at h
  split at h
  · cases h
  · rename_i hne
    cases h
    exact ⟨(List.takeWhile_append_dropWhile).symm, hne, fun c hc => List.mem_takeWhile_imp hc⟩

theorem takeSome_append {p : Char → Bool} (hne : a ≠ []) (ha : ∀ c ∈ a, p c = true)
    (hb : ∀ c, b.head? = some c → p c = false) : takeSome p (a ++ b) = some (a, b) := by
  have hstop : b.takeWhile p = [] ∧ b.dropWhile p = b := by
    cases b with
    | nil => exact ⟨rfl, rfl⟩
    | cons c b => simp [hb c rfl]
  rw [takeSome, List.takeWhile_append_of_pos ha, List.dropWhile_append_of_pos ha, hstop.1, hstop.2,
    List.append_nil, if_neg hne]

def Named (name : Text) : Prop := name ≠ [] ∧ ∀ c ∈ name, isNameChar isAlnum c = true

def ContentType (header : Text) : Prop :=
  header = [] ∨ ∃ ws w, header = ws ++ w ∧ ws ≠ [] ∧ Blank ws ∧ w ≠ [] ∧ ∀ c ∈ w, isWord isAlnum c = true

def Constrained (tail : Text) : Prop :=
  Blank tail ∨ ∃ ws w ws', tail = ws ++ constrainToken ++ w ++ ws' ∧ Blank ws ∧ w ≠ [] ∧
    (∀ c ∈ w, isWord isAlnum c = true) ∧ Blank ws'

variable {isAlnum}

theorem Named.not_mem (h : Named isAlnum name) (hc : isNameChar isAlnum c = false) : c ∉ name :=
  fun hmem => by simp [h.2 c hmem] at hc

theorem isWord_ascii (hc : c.toNat < 128) :
    isWord isAlnum c = (c.isAlphanum || decide (c = '_')) := by
  have : ¬ 128 ≤ c.toNat := by omega
  simp [isWord, this]

theorem isNameChar_ascii (hc : c.toNat < 128) :
    isNameChar isAlnum c = (c.isAlphanum || decide (c = '_') || decide (c = '-')) := by
  rw [isNameChar, isWord_ascii hc]

theorem ContentType.not_mem (h : ContentType isAlnum header) (hs : isSpace c = false)
    (hw : isWord isAlnum c = false) : c ∉ header := by
  rcases h with rfl | ⟨ws, w, rfl, -, hws, -, hword⟩
  · simp
  · intro hmem
    rcases List.mem_append.1 hmem with hmem | hmem
    · exact hws.not_mem hs hmem
    · simp [hword c hmem] at hw

theorem contentType_some (h : contentType isAlnum t = some u) :
    ∃ header, t = header ++ messageToken ++ u ∧ ContentType isAlnum header := by
  rw [contentType] at h
  split at h
  · rename_i v hv
    cases h
    exact ⟨[], by simp [after_some.1 hv], .inl rfl⟩
  · obtain ⟨⟨ws, t₁⟩, h₁, h'⟩ := Option.bind_eq_some_iff.1 h
    obtain ⟨⟨w, t₂⟩, h₂, h₃⟩ := Option.bind_eq_some_iff.1 h'
    have ht₂ := after_some.1 h₃
    obtain ⟨rfl, hws, hblank⟩ := takeSome_some h₁
    obtain ⟨rfl, hw, hword⟩ := takeSome_some h₂
    exact ⟨ws ++ w, by simp [ht₂], .inr ⟨ws, w, rfl, hws, hblank, hw, hword⟩⟩

theorem realBlock_some (h : realBlock isAlnum t = some x) :
    ∃ header u, t = recipient ++ x.1.1 ++ Channel.commentary.opening ++ header ++ messageToken ++ u ∧
      Named isAlnum x.1.1 ∧ ContentType isAlnum header ∧ x.2 = (untilStop u).2 := by
  obtain ⟨t₁, h₁, h⟩ := Option.bind_eq_some_iff.1 h
  obtain ⟨⟨name, t₂⟩, h₂, h⟩ := Option.bind_eq_some_iff.1 h
  obtain ⟨t₃, h₃, h⟩ := Option.bind_eq_some_iff.1 h
  obtain ⟨t₄, h₄, h⟩ := Option.bind_eq_some_iff.1 h
  obtain rfl := Option.some.inj h
  rw [after_some] at h₁ h₃
  obtain ⟨rfl, hname⟩ := takeSome_some h₂
  obtain ⟨header, rfl, hheader⟩ := contentType_some h₄
  exact ⟨header, t₄, by simp [h₁, h₃, Channel.opening], hname, hheader, rfl⟩

theorem lstrip_length_le (t : Text) : (lstrip t).length ≤ t.length :=
  (List.dropWhile_suffix isSpace).length_le

theorem legacyBlock_some (h : legacyBlock isAlnum t = some x) :
    ∃ u v, t = Channel.commentary.opening ++ u ∧ v.length ≤ u.length ∧ x.2 = (untilStop v).2 := by
  obtain ⟨t₁, h₁, h⟩ := Option.bind_eq_some_iff.1 h
  obtain ⟨⟨ws, t₂⟩, h₂, h⟩ := Option.bind_eq_some_iff.1 h
  obtain ⟨t₃, h₃, h⟩ := Option.bind_eq_some_iff.1 h
  obtain ⟨⟨name, t₄⟩, h₄, h⟩ := Option.bind_eq_some_iff.1 h
  obtain ⟨t₅, h₅, h⟩ := Option.bind_eq_some_iff.1 h
  obtain rfl := Option.some.inj h
  refine ⟨t₁, t₅, after_some.1 h₁, ?_, rfl⟩
  have e₂ := congrArg List.length (takeSome_some h₂).1
  have e₃ := congrArg List.length (after_some.1 h₃)
  have e₄ := congrArg List.length (takeSome_some h₄).1
  have hle : t₅.length ≤ t₄.length := by
    have hstrip := lstrip_length_le
    split at h₅
    · rename_i w t hbind
      obtain ⟨t₆, h₆, h₇⟩ := Option.bind_eq_some_iff.1 hbind
      have e₅ := congrArg List.length (after_some.1 h₅)
      have e₆ := congrArg List.length (after_some.1 h₆)
      have e₇ := congrArg List.length (takeSome_some h₇).1
      have hs₁ := hstrip t
      have hs₂ := hstrip t₄
      simp only [List.length_append] at e₅ e₆ e₇
      omega
    · have e₅ := congrArg List.length (after_some.1 h₅)
      have hs := hstrip t₄
      rw [List.length_append] at e₅
      omega
  simp only [List.length_append] at e₂ e₃ e₄
  omega

/-- A match has no bracket before its opening. -/
theorem commentaryBlock_some (h : commentaryBlock isAlnum t = some x) :
    ∃ pre u, t = pre ++ Channel.commentary.opening ++ u ∧ '<' ∉ pre ∧ '>' ∉ pre := by
  rcases Option.or_eq_some_iff.1 h with h | ⟨-, h⟩
  · obtain ⟨header, u, ht, hname, -, -⟩ := realBlock_some h
    refine ⟨recipient ++ x.1.1, header ++ messageToken ++ u, by simp [ht], ?_, ?_⟩
    · rw [List.mem_append]
      exact fun hmem => hmem.elim (by decide) (hname.not_mem (by rw [isNameChar_ascii (by decide)]; decide))
    · rw [List.mem_append]
      exact fun hmem => hmem.elim (by decide) (hname.not_mem (by rw [isNameChar_ascii (by decide)]; decide))
  · obtain ⟨u, -, ht, -⟩ := legacyBlock_some h
    exact ⟨[], u, by simp [ht], by simp, by simp⟩

/-- Two texts that agree up to their first bracket. -/
theorem bracket_align {s s' : Text} (ha : c ∉ a) (hb : c ∉ b) (h : a ++ c :: s = b ++ c :: s') :
    a = b ∧ s = s' := by
  rcases List.append_eq_append_iff.1 h with ⟨w, rfl, hw⟩ | ⟨w, rfl, hw⟩
  · cases w with
    | nil => simpa using hw
    | cons d w =>
      obtain rfl : c = d := (List.cons.inj hw).1
      simp at hb
  · cases w with
    | nil => simpa using hw.symm
    | cons d w =>
      obtain rfl : c = d := (List.cons.inj hw).1
      simp at ha

theorem commentary_opening : Channel.commentary.opening = '<' :: (Channel.commentary.opening).tail := rfl

/-- In front of a token a match reaches up to it. -/
theorem block_open (ha : ¬ channelToken <:+: a) (hne : a ≠ []) (hu : u = [] ∨ u.head? = some '<')
    (h : commentaryBlock isAlnum (a ++ u) = some x) : '<' ∉ a ∧ Channel.commentary.opening <+: u := by
  obtain ⟨pre, v, hv, hopen, -⟩ := commentaryBlock_some h
  rw [List.append_assoc] at hv
  rcases List.append_eq_append_iff.1 hv with ⟨w, rfl, hw⟩ | ⟨w, rfl, hw⟩
  · cases w with
    | nil => exact ⟨fun hmem => hopen (by simpa using hmem), ⟨v, by simpa using hw.symm⟩⟩
    | cons d w =>
      rcases hu with rfl | hu
      · exact absurd hw (by simp [Channel.opening, channelToken])
      · rw [hw] at hu
        obtain rfl : d = '<' := by simpa using hu
        exact absurd (List.mem_append_right _ (List.mem_cons_self)) hopen
  · cases w with
    | nil => exact ⟨fun hmem => hopen (by simpa using hmem), ⟨v, by simpa using hw⟩⟩
    | cons d w =>
      refine absurd ?_ ((token_parts channel_token).1.not_prefix_append
        (fun hin => ha (List.infix_append_of_infix_right hin)) (List.cons_ne_nil d w) hu)
      rw [← hw, Channel.opening, List.append_assoc]
      exact List.prefix_append _ _

/-- Text that ends with a token starts no match, whatever stands behind. -/
theorem block_closed (ha : ¬ channelToken <:+: a) (hlast : a.getLast? = some '>') (u : Text) :
    commentaryBlock isAlnum (a ++ u) = none := by
  cases hx : commentaryBlock isAlnum (a ++ u) with
  | none => rfl
  | some x =>
    exfalso
    obtain ⟨pre, v, hv, -, hclose⟩ := commentaryBlock_some hx
    rw [List.append_assoc] at hv
    rcases List.append_eq_append_iff.1 hv with ⟨w, rfl, -⟩ | ⟨w, rfl, hw⟩
    · exact hclose (List.mem_append_left _ (List.mem_of_getLast? hlast))
    · cases w with
      | nil =>
        rw [List.append_nil] at hlast
        exact hclose (List.mem_of_getLast? hlast)
      | cons d w =>
        rw [List.getLast?_append_of_ne_nil _ (List.cons_ne_nil d w)] at hlast
        have hpre : channelToken <+: (d :: w) ++ u :=
          ⟨Channel.commentary.name ++ v, by rw [← hw]; simp [Channel.opening]⟩
        exact ha ((@prefix_of_last _ _ _ ('>') channelToken.dropLast (by decide) hlast hpre).isInfix.trans
          (List.suffix_append pre _).isInfix)

theorem legacyBlock_none (hc : c ≠ '<') : legacyBlock isAlnum (c :: t) = none := by
  cases hx : legacyBlock isAlnum (c :: t) with
  | none => rfl
  | some x =>
    obtain ⟨u, -, hu, -⟩ := legacyBlock_some hx
    exact absurd (List.cons.inj hu).1 hc

/-- The first form in front of an opening. -/
theorem realBlock_opening (ha : '<' ∉ a) (h : realBlock isAlnum (a ++ (Channel.commentary.opening ++ u)) = some x) :
    a = recipient ++ x.1.1 ∧ Named isAlnum x.1.1 ∧
      ∃ header v, u = header ++ messageToken ++ v ∧ ContentType isAlnum header := by
  obtain ⟨header, v, hv, hname, hheader, -⟩ := realBlock_some h
  have hno : '<' ∉ recipient ++ x.1.1 := by
    rw [List.mem_append]
    exact fun hmem => hmem.elim (by decide) (hname.not_mem (by rw [isNameChar_ascii (by decide)]; decide))
  rw [commentary_opening, List.append_assoc, List.append_assoc, List.append_assoc, List.cons_append,
    List.cons_append] at hv
  obtain ⟨hpre, hrest⟩ := bracket_align ha hno hv
  refine ⟨hpre, hname, header, v, ?_, hheader⟩
  rw [List.append_cancel_left_eq] at hrest
  rw [hrest, List.append_assoc]

/-- The arguments end with the first token. -/
theorem untilStop_call (hfree : ∀ tok, Token tok → ¬ tok <:+: a) (u : Text) :
    untilStop (a ++ callToken ++ u) = (a, u) := by
  have htokens : ∀ tok ∈ [callToken, channelToken, startToken, endToken, returnToken], Token tok := by
    simp [Token]
  induction a with
  | nil => rfl
  | cons c a ih =>
    have hmiss : [callToken, channelToken, startToken, endToken, returnToken].find?
        (fun tok => tok.isPrefixOf (c :: (a ++ callToken ++ u))) = none := by
      rw [List.find?_eq_none]
      intro tok htok hpre
      have hsharp := (token_parts (htokens tok htok)).1
      have hhead := (token_parts (htokens tok htok)).2.2.1
      refine hsharp.not_prefix_append (b := callToken ++ u) (hfree tok (htokens tok htok)) (List.cons_ne_nil c a)
        (.inr (by rw [hhead]; rfl)) ?_
      simpa using List.isPrefixOf_iff_prefix.1 hpre
    have hlong : c :: (a ++ callToken ++ u) ≠ ['\n'] := by simp [callToken]
    rw [List.cons_append, List.cons_append, untilStop, hmiss]
    dsimp only
    rw [if_neg hlong, ih (fun tok htok hin => hfree tok htok (List.infix_cons hin))]

theorem contentType_append (h : ContentType isAlnum header) (u : Text) :
    contentType isAlnum (header ++ messageToken ++ u) = some u := by
  rcases h with rfl | ⟨ws, w, rfl, hws, hblank, hw, hword⟩
  · rw [contentType, List.nil_append, after_append]
  · have hmiss : after messageToken (ws ++ w ++ messageToken ++ u) = none := by
      cases hafter : after messageToken (ws ++ w ++ messageToken ++ u) with
      | none => rfl
      | some v =>
        obtain ⟨c, ws, rfl⟩ := List.exists_cons_of_ne_nil hws
        obtain rfl : c = '<' := (List.cons.inj (after_some.1 hafter)).1
        exact absurd (hblank '<' (by simp)) (by decide)
    have hspace : takeSome isSpace (ws ++ w ++ messageToken ++ u) = some (ws, w ++ messageToken ++ u) := by
      obtain ⟨c, w, rfl⟩ := List.exists_cons_of_ne_nil hw
      rw [List.append_assoc, List.append_assoc]
      refine (takeSome_append hws hblank ?_).trans (by simp)
      intro d hd
      obtain rfl : c = d := by simpa using hd
      exact isSpace_of_isWord isAlnum (hword c (by simp))
    have hrest : takeSome (isWord isAlnum) (w ++ messageToken ++ u) = some (w, messageToken ++ u) := by
      rw [List.append_assoc]
      refine takeSome_append hw hword ?_
      intro d hd
      obtain rfl : '<' = d := by simpa [messageToken] using hd
      rw [isWord_ascii (by decide)]
      decide
    rw [contentType, hmiss]
    dsimp only
    rw [hspace, Option.bind_eq_bind, Option.bind_some]
    dsimp only
    rw [hrest, Option.bind_some]
    exact after_append _ _

theorem realBlock_append (hname : Named isAlnum name) (hheader : ContentType isAlnum header) (u : Text) :
    realBlock isAlnum (recipient ++ name ++ (Channel.commentary.opening ++ (header ++ messageToken ++ u))) =
      some ((name, (untilStop u).1), (untilStop u).2) := by
  have htake : takeSome (isNameChar isAlnum)
      (name ++ (Channel.commentary.opening ++ (header ++ messageToken ++ u))) =
        some (name, Channel.commentary.opening ++ (header ++ messageToken ++ u)) := by
    refine takeSome_append hname.1 hname.2 ?_
    intro d hd
    obtain rfl : '<' = d := by simpa [Channel.opening, channelToken] using hd
    rw [isNameChar_ascii (by decide)]
    decide
  rw [realBlock, List.append_assoc, after_append, Option.bind_eq_bind, Option.bind_some, htake,
    Option.bind_eq_bind, Option.bind_some]
  dsimp only
  rw [show channelToken ++ Channel.commentary.name = Channel.commentary.opening from rfl, after_append,
    Option.bind_some, contentType_append hheader, Option.bind_some]

theorem isNameChar_of_isSpace (h : isSpace c = true) : isNameChar isAlnum c = false := by
  have hword : isWord isAlnum c = false := by
    by_contra hw
    rw [Bool.not_eq_false] at hw
    rw [isSpace_of_isWord isAlnum hw] at h
    cases h
  rw [isNameChar, hword, Bool.false_or, decide_eq_false_iff_not]
  rintro rfl
  exact absurd h (by decide)

/-- What stands behind a name does not go on with it. -/
theorem Constrained.head {tail : Text} (h : Constrained isAlnum tail) (u : Text) {d : Char}
    (hd : (tail ++ messageToken ++ u).head? = some d) : isNameChar isAlnum d = false := by
  have hopen : isNameChar isAlnum '<' = false := by
    rw [isNameChar_ascii (by decide)]
    decide
  have hblank : ∀ {ws v : Text}, Blank ws → (ws ++ '<' :: v).head? = some d → isNameChar isAlnum d = false := by
    intro ws v hws hd
    cases ws with
    | nil =>
      obtain rfl : '<' = d := by simpa using hd
      exact hopen
    | cons c ws =>
      obtain rfl : c = d := by simpa using hd
      exact isNameChar_of_isSpace (hws c (by simp))
  rcases h with h | ⟨ws, w, ws', rfl, hws, -, -, -⟩
  · rw [List.append_assoc] at hd
    exact hblank h hd
  · rw [List.append_assoc, List.append_assoc, List.append_assoc, List.append_assoc] at hd
    exact hblank hws hd

theorem legacyBlock_append {ws tail : Text} (hws : ws ≠ []) (hblank : Blank ws) (hname : Named isAlnum name)
    (htail : Constrained isAlnum tail) (u : Text) :
    legacyBlock isAlnum
        (Channel.commentary.opening ++ (ws ++ recipient ++ name ++ tail ++ messageToken ++ u)) =
      some ((name, (untilStop u).1), (untilStop u).2) := by
  have hspace : takeSome isSpace (ws ++ (recipient ++ (name ++ (tail ++ messageToken ++ u)))) =
      some (ws, recipient ++ (name ++ (tail ++ messageToken ++ u))) := by
    refine takeSome_append hws hblank ?_
    intro d hd
    obtain rfl : 't' = d := by simpa [recipient] using hd
    decide
  have htake : takeSome (isNameChar isAlnum) (name ++ (tail ++ messageToken ++ u)) =
      some (name, tail ++ messageToken ++ u) :=
    takeSome_append hname.1 hname.2 (fun d hd => htail.head u hd)
  rw [legacyBlock, show channelToken ++ Channel.commentary.name = Channel.commentary.opening from rfl,
    after_append, Option.bind_eq_bind, Option.bind_some, List.append_assoc, List.append_assoc,
    List.append_assoc, List.append_assoc, ← List.append_assoc tail, hspace, Option.bind_eq_bind,
    Option.bind_some]
  dsimp only
  rw [after_append, Option.bind_some, htake, Option.bind_some]
  dsimp only
  have hmessage : lstrip (messageToken ++ u) = messageToken ++ u := lstrip_eq_self (by decide) _
  rcases htail with htail | ⟨ws₁, w, ws₂, rfl, hws₁, hw, hword, hws₂⟩
  · have hstrip : lstrip (tail ++ messageToken ++ u) = messageToken ++ u := by
      rw [List.append_assoc, lstrip_blank_append htail, hmessage]
    have hmiss : after constrainToken (messageToken ++ u) = none := rfl
    rw [hstrip, hmiss, Option.bind_none]
    dsimp only
    rw [hstrip, after_append, Option.bind_some]
  · have hstrip : lstrip (ws₁ ++ constrainToken ++ w ++ ws₂ ++ messageToken ++ u) =
        constrainToken ++ (w ++ (ws₂ ++ (messageToken ++ u))) := by
      rw [List.append_assoc, List.append_assoc, List.append_assoc, List.append_assoc, lstrip_blank_append hws₁]
      exact lstrip_eq_self (by decide) _
    have hword' : takeSome (isWord isAlnum) (w ++ (ws₂ ++ (messageToken ++ u))) =
        some (w, ws₂ ++ (messageToken ++ u)) := by
      refine takeSome_append hw hword ?_
      intro d hd
      have hend : Constrained isAlnum ws₂ := .inl hws₂
      have hnot := hend.head u (d := d) (by rwa [List.append_assoc])
      by_contra hc
      rw [isNameChar_of_isWord isAlnum (by simpa using hc)] at hnot
      cases hnot
    rw [hstrip, after_append, Option.bind_some, hword']
    dsimp only
    rw [lstrip_blank_append hws₂, hmessage, after_append, Option.bind_some]

variable (isAlnum) in
/-- The function that a commentary message calls is named behind what stands before the message, or
in its header. -/
inductive Addressed (before : Text) (m : Message) (name : Text) : Prop
  | front (b : Text) (hname : Named isAlnum name) (hbefore : before = b ++ recipient ++ name)
      (hheader : ContentType isAlnum m.header)
  | header (ws tail : Text) (hname : Named isAlnum name) (hws : ws ≠ []) (hblank : Blank ws)
      (hheader : m.header = ws ++ recipient ++ name ++ tail) (htail : Constrained isAlnum tail)

variable (isAlnum) in
/-- The calls of messages behind some text: each commentary message is one, and only these end with
the call token. -/
inductive Calls : Text → List Message → List (Text × Text) → Prop
  | nil (before : Text) : Calls before [] []
  | other {before ms l} (m : Message) (hc : m.channel ≠ .commentary) (hs : m.stop ≠ .called)
      (h : Calls m.gap ms l) : Calls before (m :: ms) l
  | call {before ms l} (m : Message) (name : Text) (hc : m.channel = .commentary) (hs : m.stop = .called)
      (ha : Addressed isAlnum before m name) (h : Calls m.gap ms l) : Calls before (m :: ms) ((name, m.body) :: l)

def core (m : Message) : Text := m.channel.opening ++ (m.header ++ messageToken ++ m.body ++ m.stop.token)

theorem text_eq (m : Message) : m.text = core m ++ m.gap := by
  simp [core, Message.text, Message.tail, Message.margin]

theorem body_no_token (m : Message) : ∀ tok, Token tok → ¬ tok <:+: m.body :=
  fun _ h => token_not_body m h

theorem core_last (m : Message) : (core m).getLast? = some '>' := by
  have hne : m.stop.token ≠ [] := (token_parts (stop_token m.stop)).1.ne_nil
  have hlast := (token_parts (stop_token m.stop)).2.2.2
  rw [core, ← List.append_assoc, List.getLast?_append_of_ne_nil _ hne, hlast]

theorem untilStop_length (t : Text) : (untilStop t).2.length ≤ t.length := by
  induction t with
  | nil => exact le_refl 0
  | cons c t ih =>
    rw [untilStop]
    split
    · simp
    · split
      · rename_i h
        simp [h]
      · exact ih.trans (Nat.le_succ _)

theorem commentaryBlock_takes : Takes (commentaryBlock isAlnum) := by
  intro t y rest h
  rcases Option.or_eq_some_iff.1 h with h | ⟨-, h⟩
  · obtain ⟨header, u, ht, -, -, hrest⟩ := realBlock_some h
    have hle := untilStop_length u
    have hlen := congrArg List.length ht
    simp only [List.length_append, recipient, List.length_cons] at hlen
    change rest = _ at hrest
    rw [hrest]
    omega
  · obtain ⟨u, v, ht, hv, hrest⟩ := legacyBlock_some h
    have hle := untilStop_length v
    have hlen := congrArg List.length ht
    rw [commentary_opening, List.cons_append, List.length_cons, List.length_append] at hlen
    change rest = _ at hrest
    rw [hrest]
    omega

theorem block_head (h : commentaryBlock isAlnum ('<' :: t) = some x) : Channel.commentary.opening <+: '<' :: t := by
  obtain ⟨pre, v, hv, hopen, -⟩ := commentaryBlock_some h
  cases pre with
  | nil => exact ⟨v, by simpa using hv.symm⟩
  | cons c pre =>
    obtain rfl : '<' = c := (List.cons.inj hv).1
    simp at hopen

theorem opening_other (hc : m.channel ≠ .commentary) (u : Text) : ¬ Channel.commentary.opening <+: core m ++ u := by
  rw [core, Channel.opening, Channel.opening, List.append_assoc, List.append_assoc, List.prefix_append_right_inj]
  cases hm : m.channel with
  | commentary => exact absurd hm hc
  | analysis => simp [Channel.name]
  | final => simp [Channel.name]

theorem core_cons (m : Message) :
    ∃ l, core m = '<' :: l ∧ ¬ channelToken <:+: l ∧ l.getLast? = some '>' := by
  obtain ⟨l, hl, hhidden⟩ := behind_hidden m
  rw [text_eq] at hl
  obtain ⟨o, ho, -⟩ := opening_cons m.channel
  obtain ⟨l', hl'⟩ : ∃ l', core m = '<' :: l' := ⟨_, by rw [core, ho]; rfl⟩
  have hlast := core_last m
  rw [hl', List.cons_append] at hl
  refine ⟨l', hl', fun hin => hhidden ?_, ?_⟩
  · rw [← (List.cons.inj hl).2]
    exact List.infix_append_of_infix_left hin
  · rw [hl'] at hlast
    cases l' with
    | nil => simp at hlast
    | cons d l' => simpa using hlast

/-- A message of another channel is passed over. -/
theorem findAll_other (hbefore : ¬ channelToken <:+: before) (hc : m.channel ≠ .commentary) (u : Text) :
    findAll (commentaryBlock isAlnum) (before ++ core m ++ u) = findAll (commentaryBlock isAlnum) u := by
  obtain ⟨l, hl, hhidden, hlast⟩ := core_cons m
  have hno := opening_other hc u
  have hskip : ∀ a₁ a₂, before = a₁ ++ a₂ → a₂ ≠ [] → commentaryBlock isAlnum (a₂ ++ (core m ++ u)) = none := by
    rintro a₁ a₂ rfl hne
    cases hx : commentaryBlock isAlnum (a₂ ++ (core m ++ u)) with
    | none => rfl
    | some x =>
      exact absurd (block_open (fun hin => hbefore (List.infix_append_of_infix_right hin)) hne
        (.inr (by rw [hl]; rfl)) hx).2 hno
  have hopening : commentaryBlock isAlnum ('<' :: (l ++ u)) = none := by
    cases hx : commentaryBlock isAlnum ('<' :: (l ++ u)) with
    | none => rfl
    | some x => exact absurd (block_head hx) (by rwa [hl] at hno)
  have hbehind : ∀ a₁ a₂, l = a₁ ++ a₂ → a₂ ≠ [] → commentaryBlock isAlnum (a₂ ++ u) = none := by
    rintro a₁ a₂ rfl hne
    rw [List.getLast?_append_of_ne_nil _ hne] at hlast
    exact block_closed (fun hin => hhidden (List.infix_append_of_infix_right hin)) hlast u
  rw [List.append_assoc, findAll_append hskip, hl, List.cons_append, findAll_none _ hopening, findAll_append hbehind]

/-- A header with a function name in it is no content type. -/
theorem header_not_contentType {ws tail v w : Text} (hblank : Blank ws) (hheader : ContentType isAlnum header)
    (h : ws ++ recipient ++ name ++ tail ++ messageToken ++ v = header ++ messageToken ++ w) : False := by
  have heq : '=' ∉ header := hheader.not_mem (by decide) (by rw [isWord_ascii (by decide)]; decide)
  have hfront : '<' ∉ ws ++ recipient := by
    rw [List.mem_append]
    exact fun hmem => hmem.elim (hblank.not_mem (by decide)) (by decide)
  have hmem : '=' ∈ ws ++ recipient := List.mem_append_right _ (by decide)
  simp only [List.append_assoc] at h
  rw [← List.append_assoc ws] at h
  rcases List.append_eq_append_iff.1 h with ⟨y, rfl, -⟩ | ⟨y, hy, hy'⟩
  · exact heq (List.mem_append_left _ hmem)
  · cases y with
    | nil => exact heq (by rwa [hy, List.append_nil] at hmem)
    | cons c y =>
      obtain rfl : '<' = c := (List.cons.inj hy').1
      exact hfront (by rw [hy]; simp)

/-- A name with a recipient in front of it starts no earlier. -/
theorem recipient_first {n : Text} (hn : Named isAlnum n) (h : a ++ recipient ++ name = recipient ++ n) : a = [] := by
  have hdot : '.' ∉ n := hn.not_mem (by rw [isNameChar_ascii (by decide)]; decide)
  cases a with
  | nil => rfl
  | cons c a =>
    exfalso
    have hlong : (c :: a) ++ recipient = ((c :: a) ++ recipient.dropLast) ++ ['.'] := by simp [recipient]
    rw [hlong, List.append_assoc] at h
    have hpre : recipient <+: (c :: a) ++ recipient.dropLast := by
      refine List.prefix_of_prefix_length_le ⟨n, rfl⟩ ⟨['.'] ++ name, h⟩ ?_
      simp [recipient]
    obtain ⟨z, hz⟩ := hpre
    rw [← hz, List.append_assoc, List.append_cancel_left_eq] at h
    exact hdot (by rw [← h]; simp)

/-- A call is found, and the search goes on behind it. -/
theorem findAll_call (hbefore : ¬ channelToken <:+: before) (hc : m.channel = .commentary) (hs : m.stop = .called)
    (ha : Addressed isAlnum before m name) (u : Text) :
    findAll (commentaryBlock isAlnum) (before ++ core m ++ u) =
      (name, m.body) :: findAll (commentaryBlock isAlnum) u := by
  have hcore : core m ++ u = Channel.commentary.opening ++ (m.header ++ messageToken ++ (m.body ++ callToken ++ u)) := by
    simp [core, hc, hs, Stop.token]
  have hstop := untilStop_call (body_no_token m) u
  have hopen : core m ++ u = [] ∨ (core m ++ u).head? = some '<' := .inr (by rw [hcore]; rfl)
  -- In front of the opening only the first form can start.
  have hreal : ∀ a₁ a₂, before = a₁ ++ a₂ → a₂ ≠ [] →
      (∀ x, realBlock isAlnum (a₂ ++ (core m ++ u)) ≠ some x) → commentaryBlock isAlnum (a₂ ++ (core m ++ u)) = none := by
    rintro a₁ a₂ rfl hne hno
    cases hx : commentaryBlock isAlnum (a₂ ++ (core m ++ u)) with
    | none => rfl
    | some x =>
      exfalso
      have hopening := (block_open (fun hin => hbefore (List.infix_append_of_infix_right hin)) hne hopen hx).1
      rcases Option.or_eq_some_iff.1 hx with h | ⟨-, h⟩
      · exact hno x h
      · obtain ⟨c, a₂, rfl⟩ := List.exists_cons_of_ne_nil hne
        have hc : c ≠ '<' := fun h => hopening (by simp [h])
        rw [List.cons_append, legacyBlock_none hc] at h
        cases h
  have hclosed : ∀ a₁ a₂, before = a₁ ++ a₂ → a₂ ≠ [] → ∀ x, realBlock isAlnum (a₂ ++ (core m ++ u)) = some x →
      a₂ = recipient ++ x.1.1 ∧ Named isAlnum x.1.1 ∧
        ∃ header v, m.header ++ messageToken ++ (m.body ++ callToken ++ u) = header ++ messageToken ++ v ∧
          ContentType isAlnum header := by
    rintro a₁ a₂ rfl hne x hx
    have hsome : commentaryBlock isAlnum (a₂ ++ (core m ++ u)) = some x := by rw [commentaryBlock, hx]; rfl
    have hopening := (block_open (fun hin => hbefore (List.infix_append_of_infix_right hin)) hne hopen hsome).1
    rw [hcore] at hx
    exact realBlock_opening hopening hx
  cases ha with
  | header ws tail hname hws hblank hheader htail =>
    have hskip : ∀ a₁ a₂, before = a₁ ++ a₂ → a₂ ≠ [] → commentaryBlock isAlnum (a₂ ++ (core m ++ u)) = none := by
      intro a₁ a₂ he hne
      refine hreal a₁ a₂ he hne (fun x hx => ?_)
      obtain ⟨-, -, header, v, hv, htype⟩ := hclosed a₁ a₂ he hne x hx
      rw [hheader] at hv
      exact header_not_contentType hblank htype hv
    have hhit : commentaryBlock isAlnum (core m ++ u) = some ((name, m.body), u) := by
      have hno : realBlock isAlnum (core m ++ u) = none := by rw [hcore]; rfl
      rw [commentaryBlock, hno, Option.none_or, hcore, hheader, legacyBlock_append hws hblank hname htail, hstop]
    rw [List.append_assoc, findAll_append hskip, findAll_some commentaryBlock_takes hhit]
  | front b hname hb hheader =>
    subst hb
    have hskip : ∀ a₁ a₂, b = a₁ ++ a₂ → a₂ ≠ [] →
        commentaryBlock isAlnum (a₂ ++ (recipient ++ name ++ (core m ++ u))) = none := by
      rintro a₁ a₂ rfl hne
      have he : a₁ ++ a₂ ++ recipient ++ name = a₁ ++ (a₂ ++ recipient ++ name) := by simp
      have hne' : a₂ ++ recipient ++ name ≠ [] := by simp [hne]
      have := hreal a₁ (a₂ ++ recipient ++ name) he hne' (fun x hx => by
        obtain ⟨hrec, hnamed, -⟩ := hclosed a₁ _ he hne' x hx
        exact hne (recipient_first hnamed hrec))
      rwa [List.append_assoc, List.append_assoc, ← List.append_assoc recipient] at this
    have hhit : commentaryBlock isAlnum (recipient ++ name ++ (core m ++ u)) = some ((name, m.body), u) := by
      rw [commentaryBlock, hcore, realBlock_append hname hheader, hstop]
      rfl
    rw [show b ++ recipient ++ name ++ core m ++ u = b ++ (recipient ++ name ++ (core m ++ u)) by simp,
      findAll_append hskip, findAll_some commentaryBlock_takes hhit]

end FusionMlx.ToolParsers.Harmony
