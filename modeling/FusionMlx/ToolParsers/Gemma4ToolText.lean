import FusionMlx.ToolParsers.Gemma4ToolParser
import FusionMlx.ToolParsers.HarmonyToolText

/-!
# Arguments in a Gemma 4 call

Calls with arguments as the model writes them, and what the patterns of the
parser make of such a body: the quoted strings come back behind their
placeholders and every pair is read as it was written.
-/
namespace FusionMlx.ToolParsers.Gemma4

open JsonText PyText TextSearch OrderedDict
open Harmony (isWord after takeSome isWord_ascii after_some after_append takeSome_append isSpace_of_isWord)

def intText : Int → Text
  | .ofNat n => Nat.toDigits 10 n
  | .negSucc n => '-' :: Nat.toDigits 10 (n + 1)

inductive ArgValue where
  | str (s : Text)
  | int (i : Int)
  | bool (b : Bool)
  | null

namespace ArgValue

def render : ArgValue → Text
  | str s => quoteToken ++ s ++ quoteToken
  | int i => intText i
  | bool true => ['t', 'r', 'u', 'e']
  | bool false => ['f', 'a', 'l', 's', 'e']
  | null => ['n', 'u', 'l', 'l']

def json : ArgValue → Json
  | str s => .str (codes s)
  | int i => .num (intText i)
  | bool b => .bool b
  | null => .null

def strings : ArgValue → List Text
  | str s => [s]
  | _ => []

def shown (n : Nat) : ArgValue → Text
  | str _ => placeholder n
  | v => v.render

end ArgValue

def Word (isAlnum : Char → Bool) (t : Text) : Prop := t ≠ [] ∧ ∀ c ∈ t, isWord isAlnum c = true

structure Call (isAlnum : Char → Bool) where
  name : Text
  args : List (Text × ArgValue)
  opened : Bool
  closed : Bool
  name_word : Word isAlnum name
  keys_word : ∀ a ∈ args, Word isAlnum a.1
  keys_nodup : (args.map Prod.fst).Nodup
  unquoted : ∀ a ∈ args, ∀ s ∈ a.2.strings, ¬ quoteToken <:+: s

def part (a : Text × ArgValue) : Text := a.1 ++ ':' :: a.2.render

def bodyOf (args : List (Text × ArgValue)) : Text := [','].intercalate (args.map part)

namespace Call

variable {isAlnum : Char → Bool}

def render (c : Call isAlnum) : Text :=
  (if c.opened then toolCallToken else []) ++ callWord ++ c.name ++ '\x7b' :: bodyOf c.args ++
    '\x7d' :: (if c.closed then toolCallEnd else [])

def arguments (c : Call isAlnum) : Dict Text Json :=
  ⟨c.args.map (fun a => (a.1, a.2.json)), by simpa [List.map_map, Function.comp_def] using c.keys_nodup⟩

def toolCall (c : Call isAlnum) : ToolCall := ⟨c.name, .dumped c.arguments⟩

end Call

def textOf {isAlnum : Char → Bool} (calls : List (Call isAlnum)) : Text := calls.flatMap Call.render

variable {isAlnum : Char → Bool} {beyond : Char → Option Nat} {t u a b s : Text} {n : Nat}

variable {c : Char}

theorem digits_isDigit (h : c ∈ Nat.toDigits 10 n) : isDigit c = true := by
  have hd := Nat.isDigit_of_mem_toDigits (by decide) (by decide) h
  simpa [Char.isDigit, isDigit, Char.le_def] using hd

theorem isSpace_of_isDigit (h : isDigit c = true) : isSpace c = false := by
  have h : '0'.toNat ≤ c.toNat ∧ c.toNat ≤ '9'.toNat := by
    simpa [isDigit, Char.le_def, UInt32.le_iff_toNat_le] using h
  have h₀ : '0'.toNat = 48 := rfl
  have h₉ : '9'.toNat = 57 := rfl
  simp only [isSpace, decide_eq_false_iff_not]
  omega

theorem moreDigits_digits (ht : ∀ c ∈ t, isDigit c = true) :
    moreDigits beyond n t = some (Nat.ofDigitChars 10 t n) := by
  induction t generalizing n with
  | nil => simp [moreDigits]
  | cons c t ih =>
    have hc : isDigit c = true := ht c (by simp)
    have hne : c ≠ '_' := by rintro rfl; exact absurd hc (by decide)
    rw [moreDigits.eq_3 _ _ _ _ (fun _ _ h _ => hne h), decimal, if_pos hc, Option.bind_some,
      ih (fun x hx => ht x (by simp [hx])), Nat.ofDigitChars_cons]

theorem numeral_toDigits : numeral beyond (Nat.toDigits 10 n) = some n := by
  have hall : ∀ c ∈ Nat.toDigits 10 n, isDigit c = true := fun c h => digits_isDigit h
  have hvalue := Nat.ofDigitChars_ten_toDigits (n := n)
  cases hd : Nat.toDigits 10 n with
  | nil => exact absurd hd Nat.toDigits_ne_nil
  | cons c t =>
    rw [hd] at hall hvalue
    rw [numeral, decimal, if_pos (hall c (by simp)), Option.bind_some,
      moreDigits_digits (fun x hx => hall x (by simp [hx]))]
    rw [Nat.ofDigitChars_cons] at hvalue
    simpa using hvalue

theorem strip_of_no_space (h : ∀ c ∈ t, isSpace c = false) : strip t = t := by
  have hl : lstrip t = t := by
    cases t with
    | nil => rfl
    | cons c t => exact lstrip_eq_self (h c (by simp)) t
  rw [strip, hl, rstrip, List.rdropWhile_eq_self_iff]
  intro hne
  simp [h _ (List.getLast_mem hne)]

theorem pyInt_toDigits : pyInt beyond (Nat.toDigits 10 n) = some (n : Int) := by
  have hstrip : strip (Nat.toDigits 10 n) = Nat.toDigits 10 n :=
    strip_of_no_space (fun c h => isSpace_of_isDigit (digits_isDigit h))
  rw [pyInt, hstrip]
  cases hd : Nat.toDigits 10 n with
  | nil => exact absurd hd Nat.toDigits_ne_nil
  | cons c t =>
    have hc : isDigit c = true := digits_isDigit (n := n) (by rw [hd]; simp)
    have hminus : c ≠ '-' := by rintro rfl; exact absurd hc (by decide)
    have hplus : c ≠ '+' := by rintro rfl; exact absurd hc (by decide)
    have hvalue : numeral beyond (c :: t) = some n := by rw [← hd]; exact numeral_toDigits
    split
    · rename_i h; exact absurd (List.cons.inj h).1 hminus
    · rename_i h; exact absurd (List.cons.inj h).1 hplus
    · rw [hvalue]; rfl

/-- Only zero is written with a zero in front. -/
theorem toDigits_head {t : Text} (h : Nat.toDigits 10 n = '0' :: t) : t = [] := by
  induction n using Nat.strong_induction_on generalizing t with
  | _ n ih =>
    rw [Nat.toDigits_eq_if (by decide)] at h
    split at h
    · exact (List.cons.inj h).2.symm
    · rename_i hn
      exfalso
      cases hd : Nat.toDigits 10 (n / 10) with
      | nil => exact absurd hd Nat.toDigits_ne_nil
      | cons c l =>
        rw [hd, List.cons_append] at h
        obtain ⟨rfl, -⟩ := List.cons.inj h
        obtain rfl := ih (n / 10) (by omega) hd
        have hval := Nat.ofDigitChars_ten_toDigits (n := n / 10)
        rw [hd] at hval
        simp [Nat.ofDigitChars_cons] at hval
        omega

theorem scanNat_toDigits : scanInt.scanNat (Nat.toDigits 10 n) = some (Nat.toDigits 10 n, []) := by
  have hall : ∀ c ∈ Nat.toDigits 10 n, isDigit c = true := fun c h => digits_isDigit h
  cases hd : Nat.toDigits 10 n with
  | nil => exact absurd hd Nat.toDigits_ne_nil
  | cons c t =>
    rw [hd] at hall
    by_cases hc : c = '0'
    · subst hc
      rw [toDigits_head hd, scanInt.scanNat]
    · rw [scanInt.scanNat.eq_2 _ _ (fun h => hc h), if_pos (hall c (by simp)), takeDigits,
        List.span_eq_takeWhile_dropWhile, List.takeWhile_eq_self_iff.2 hall, List.dropWhile_eq_nil_iff.2 hall]

theorem scanInt_intText (i : Int) : scanInt (intText i) = some (intText i, []) := by
  cases i with
  | ofNat n =>
    have hhead : ∀ t, Nat.toDigits 10 n ≠ '-' :: t := by
      intro t h
      exact absurd (digits_isDigit (c := '-') (n := n) (by rw [h]; simp)) (by decide)
    rw [intText, scanInt.eq_2 _ (fun t h => hhead t h)]
    exact scanNat_toDigits
  | negSucc n =>
    rw [intText, scanInt, scanNat_toDigits]
    rfl

theorem intText_chars {i : Int} (h : c ∈ intText i) : isDigit c = true ∨ c = '-' := by
  cases i with
  | ofNat n => exact .inl (digits_isDigit h)
  | negSucc n =>
    rcases List.mem_cons.1 h with rfl | h
    · exact .inr rfl
    · exact .inl (digits_isDigit h)

theorem intText_ne_nil (i : Int) : intText i ≠ [] := by
  cases i with
  | ofNat n => exact Nat.toDigits_ne_nil
  | negSucc n => simp [intText]

theorem loads_intText (i : Int) : loads (intText i) = some (.num (intText i)) := by
  have hscan := scanInt_intText i
  cases ht : intText i with
  | nil => exact absurd ht (intText_ne_nil i)
  | cons c t =>
    rw [ht] at hscan
    have hc : isDigit c = true ∨ c = '-' := intText_chars (i := i) (by rw [ht]; simp)
    have hne : c ≠ ' ' ∧ c ≠ '\t' ∧ c ≠ '\n' ∧ c ≠ '\r' ∧ c ≠ '\x22' ∧ c ≠ '\x7b' ∧ c ≠ '[' := by
      rcases hc with hc | rfl
      · refine ⟨?_, ?_, ?_, ?_, ?_, ?_, ?_⟩ <;> rintro rfl <;> exact absurd hc (by decide)
      · decide
    have hnum : scanNumber (c :: t) = some (c :: t, []) := by
      rw [scanNumber, hscan]
      simp [scanFrac, scanExp]
    have hws : skipWs (c :: t) = c :: t := by
      rw [skipWs, if_neg (by simp [hne])]
    rw [loads, hws, scanValue.eq_3, if_neg hne.2.2.2.2.1, if_neg hne.2.2.2.2.2.1, if_neg hne.2.2.2.2.2.2, hnum]
    rfl

theorem loads_word (b : Bool) : loads (ArgValue.bool b).render = some (.bool b) := by cases b <;> rfl

variable {v : ArgValue}

/-- Bare values, the strings apart. -/
theorem loads_render (h : v.strings = []) : loads v.render = some v.json := by
  cases v with
  | str s => cases h
  | int i => exact loads_intText i
  | bool b => exact loads_word b
  | null => rfl

theorem render_head (h : v.strings = []) : ∃ c t, v.render = c :: t ∧ c ≠ '_' := by
  cases v with
  | str s => cases h
  | int i =>
    cases ht : intText i with
    | nil => exact absurd ht (intText_ne_nil i)
    | cons c t =>
      refine ⟨c, t, ht, ?_⟩
      rintro rfl
      rcases intText_chars (i := i) (c := '_') (by rw [ht]; simp) with hc | hc
      · exact absurd hc (by decide)
      · exact absurd hc (by decide)
  | bool b => cases b <;> exact ⟨_, _, rfl, by decide⟩
  | null => exact ⟨_, _, rfl, by decide⟩

theorem restored_of_head (hc : c ≠ '_') (stashed : List Text) (t : Text) :
    restored beyond stashed (c :: t) = none := by
  simp [restored, placeholderStart, List.isPrefixOf, Ne.symm hc]

theorem placeholder_length : (placeholder n).length = (Nat.toDigits 10 n).length + 5 := by
  simp [placeholder, placeholderStart, placeholderEnd]

theorem placeholder_digits : ((placeholder n).drop 3).take ((placeholder n).length - 5) = Nat.toDigits 10 n := by
  rw [placeholder_length, Nat.add_sub_cancel, placeholder, List.append_assoc]
  rw [show 3 = placeholderStart.length from rfl, List.drop_left]
  exact List.take_left

theorem restored_placeholder (before more : List Text) (s : Text) :
    restored beyond (before ++ s :: more) (placeholder before.length) = some s := by
  have hstart : placeholderStart.isPrefixOf (placeholder before.length) = true := by
    rw [List.isPrefixOf_iff_prefix, placeholder, List.append_assoc]
    exact List.prefix_append _ _
  have hend : placeholderEnd.isSuffixOf (placeholder before.length) = true := by
    rw [List.isSuffixOf_iff_suffix, placeholder]
    exact List.suffix_append _ _
  rw [restored, if_pos ⟨hstart, hend⟩, placeholder_digits, pyInt_toDigits, Option.bind_some, item,
    if_pos (Int.natCast_nonneg _), Int.toNat_natCast]
  simp

/-- A value comes back from what is shown of it. -/
theorem argValue_shown (before more : List Text) (v : ArgValue) :
    argValue beyond (before ++ (v.strings ++ more)) (v.shown before.length) = v.json := by
  by_cases hv : v.strings = []
  · obtain ⟨c, t, ht, hc⟩ := render_head hv
    have hshown : v.shown before.length = v.render := by cases v <;> first | rfl | cases hv
    rw [argValue, hshown, ht, restored_of_head hc, ← ht]
    simp [loads_render hv]
  · cases v with
    | str s => simp only [argValue, ArgValue.strings, ArgValue.shown, List.singleton_append, restored_placeholder, ArgValue.json]
    | _ => exact absurd rfl hv

theorem quoteToken_sharp : Sharp quoteToken := ⟨'<', ['|', '\x22', '|', '>'], rfl, by decide⟩

def hide (n : Nat) (t : Text) : List Text × Text := stash n (split quoteToken t)

theorem stash_glue (p : Text) (ps : List Text) :
    stash n ((a ++ p) :: ps) = ((stash n (p :: ps)).1, a ++ (stash n (p :: ps)).2) := by
  cases ps with
  | nil => rfl
  | cons s ps =>
    cases ps with
    | nil => simp [stash]
    | cons u ps => simp [stash]

/-- A text without the first letter of the token stays in front. -/
theorem split_glue (h : '<' ∉ a) (t : Text) :
    ∃ p ps, split quoteToken t = p :: ps ∧ split quoteToken (a ++ t) = (a ++ p) :: ps := by
  cases hpart : partition quoteToken t with
  | none =>
    refine ⟨t, [], split_none hpart, split_none ?_⟩
    rw [partition_none quoteToken_sharp.ne_nil] at hpart ⊢
    exact fun hin => hpart ((infix_append_of_head h).1 hin)
  | some r =>
    obtain ⟨x, y⟩ := r
    have hx := partition_free quoteToken_sharp.ne_nil hpart
    have hax : ¬ quoteToken <:+: a ++ x := fun hin => hx ((infix_append_of_head h).1 hin)
    refine ⟨x, split quoteToken y, split_some quoteToken_sharp.ne_nil hpart, ?_⟩
    rw [partition_some hpart, ← List.append_assoc, ← List.append_assoc]
    exact quoteToken_sharp.split_append hax

theorem hide_plain (h : '<' ∉ a) (t : Text) : hide n (a ++ t) = ((hide n t).1, a ++ (hide n t).2) := by
  obtain ⟨p, ps, ht, hat⟩ := split_glue h t
  rw [hide, hide, hat, ht, stash_glue]

theorem hide_nil : hide n [] = ([], []) := rfl

theorem hide_quoted (hs : ¬ quoteToken <:+: s) (t : Text) :
    hide n (quoteToken ++ s ++ quoteToken ++ t) = (s :: (hide (n + 1) t).1, placeholder n ++ (hide (n + 1) t).2) := by
  have hsplit : split quoteToken (quoteToken ++ s ++ quoteToken ++ t) = [] :: s :: split quoteToken t := by
    have h₁ := quoteToken_sharp.split_append (a := []) (b := s ++ quoteToken ++ t) (by decide)
    have h₂ := quoteToken_sharp.split_append (a := s) (b := t) hs
    rw [h₂] at h₁
    simpa [List.append_assoc] using h₁
  have hpos := split_length_pos quoteToken t
  cases ht : split quoteToken t with
  | nil => rw [ht] at hpos; exact absurd hpos (by simp)
  | cons u us => rw [hide, hide, hsplit, ht, stash]; simp

/-- A token without a second one stays. -/
theorem hide_open (hs : ¬ quoteToken <:+: s) : hide n (quoteToken ++ s) = ([], quoteToken ++ s) := by
  have hsplit : split quoteToken (quoteToken ++ s) = [[], s] := by
    have h₁ := quoteToken_sharp.split_append (a := []) (b := s) (by decide)
    rwa [split_none ((partition_none quoteToken_sharp.ne_nil).2 hs)] at h₁
  rw [hide, hsplit]
  rfl

def Special (isAlnum : Char → Bool) (c : Char) : Prop :=
  isDigit c = false ∧ c ≠ '-' ∧ isWord isAlnum c = false

theorem special_ascii (h : (c.toNat < 128 ∧ isDigit c = false ∧ c ≠ '-') ∧ c.isAlphanum = false ∧ c ≠ '_') :
    Special isAlnum c := by
  refine ⟨h.1.2.1, h.1.2.2, ?_⟩
  rw [isWord_ascii h.1.1]
  simp [h.2.1, h.2.2]

theorem comma_special : Special isAlnum ',' := special_ascii (by decide)

theorem word_of_all (hne : t ≠ []) (h : t.all (isWord isAlnum) = true) : Word isAlnum t := ⟨hne, List.all_eq_true.1 h⟩

theorem Word.not_mem (h : Word isAlnum t) (hc : Special isAlnum c) : c ∉ t := by
  intro hmem
  have hw := h.2 c hmem
  rw [hc.2.2] at hw
  cases hw

theorem letters_not_mem (hc : Special isAlnum c) {l : Text}
    (hl : l.all (fun x => x.toNat < 128 && (x.isAlphanum || x == '_')) = true) : c ∉ l := by
  intro hmem
  have hw := hc.2.2
  obtain ⟨hascii, hletter⟩ := Bool.and_eq_true_iff.1 (List.all_eq_true.1 hl c hmem)
  rw [isWord_ascii (of_decide_eq_true hascii)] at hw
  rcases Bool.or_eq_true_iff.1 hletter with h | h
  · simp [h] at hw
  · simp [eq_of_beq h] at hw

theorem digits_not_mem (hc : Special isAlnum c) : c ∉ Nat.toDigits 10 n := by
  intro hmem
  have hd := digits_isDigit hmem
  rw [hc.1] at hd
  cases hd

theorem render_not_mem (hv : v.strings = []) (hc : Special isAlnum c) : c ∉ v.render := by
  cases v with
  | str s => cases hv
  | int i =>
    intro hmem
    rcases intText_chars hmem with h | h
    · rw [hc.1] at h
      cases h
    · exact hc.2.1 h
  | bool b => cases b <;> exact letters_not_mem hc (by decide)
  | null => exact letters_not_mem hc (by decide)

theorem shown_not_mem (hc : Special isAlnum c) : c ∉ v.shown n := by
  cases v with
  | str s =>
    intro hmem
    simp only [ArgValue.shown, placeholder, List.mem_append] at hmem
    rcases hmem with (hmem | hmem) | hmem
    · exact letters_not_mem hc (by decide) hmem
    · exact digits_not_mem hc hmem
    · exact letters_not_mem hc (by decide) hmem
  | int i => exact render_not_mem (v := .int i) rfl hc
  | bool b => exact render_not_mem (v := .bool b) rfl hc
  | null => exact render_not_mem (v := .null) rfl hc

theorem shown_ne_nil (n : Nat) (v : ArgValue) : v.shown n ≠ [] := by
  cases v with
  | str s => simp [ArgValue.shown, placeholder, placeholderStart]
  | int i => exact intText_ne_nil i
  | bool b => cases b <;> simp [ArgValue.shown, ArgValue.render]
  | null => simp [ArgValue.shown, ArgValue.render]

theorem special_space (h : isSpace c = true) : Special isAlnum c := by
  refine ⟨?_, ?_, ?_⟩
  · by_contra hd
    rw [isSpace_of_isDigit (by simpa using hd)] at h
    cases h
  · rintro rfl
    cases h
  · by_contra hw
    rw [isSpace_of_isWord isAlnum (by simpa using hw)] at h
    cases h

theorem strip_shown (n : Nat) (v : ArgValue) : strip (v.shown n) = v.shown n := by
  apply strip_of_no_space
  intro c hc
  by_contra hs
  exact @shown_not_mem (fun _ => false) _ _ _ (special_space (by simpa using hs)) hc

def cleanPart (n : Nat) (a : Text × ArgValue) : Text := a.1 ++ ':' :: a.2.shown n

theorem hide_part {x : Text × ArgValue} (hkey : Word isAlnum x.1) (hx : ∀ s ∈ x.2.strings, ¬ quoteToken <:+: s) (t : Text) :
    hide n (part x ++ t) = (x.2.strings ++ (hide (n + x.2.strings.length) t).1,
      cleanPart n x ++ (hide (n + x.2.strings.length) t).2) := by
  obtain ⟨k, v⟩ := x
  have hlt : Special isAlnum '<' := special_ascii (by decide)
  have hk : '<' ∉ k ++ [':'] := by
    intro hmem
    rcases List.mem_append.1 hmem with hmem | hmem
    · exact hkey.not_mem hlt hmem
    · exact absurd hmem (by decide)
  by_cases hv : v.strings = []
  · have hshown : v.shown n = v.render := by cases v <;> first | rfl | cases hv
    have hplain : '<' ∉ k ++ [':'] ++ v.render := by
      intro hmem
      rcases List.mem_append.1 hmem with hmem | hmem
      · exact hk hmem
      · exact render_not_mem hv hlt hmem
    rw [show part (k, v) ++ t = (k ++ [':'] ++ v.render) ++ t by simp [part], hide_plain hplain]
    simp [hv, cleanPart, hshown]
  · cases v with
    | str s =>
      rw [show part (k, .str s) ++ t = (k ++ [':']) ++ (quoteToken ++ s ++ quoteToken ++ t) by
        simp [part, ArgValue.render], hide_plain hk, hide_quoted (hx s (by simp [ArgValue.strings]))]
      simp [ArgValue.strings, cleanPart, ArgValue.shown]
    | _ => exact absurd rfl hv

theorem bareKv_takes : Takes (bareKv isAlnum) := by
  intro t x rest h
  simp only [bareKv, Option.bind_eq_bind, Option.bind_eq_some_iff] at h
  obtain ⟨⟨k, t₁⟩, hk, t₂, hcolon, h⟩ := h
  split at h
  · cases h
  · cases h
    obtain ⟨ht, hne, -⟩ := Harmony.takeSome_some hk
    have h₁ : (lstrip t₁).length ≤ t₁.length := (List.dropWhile_suffix isSpace).length_le
    have h₂ : (lstrip t₁).length = t₂.length + 1 := by
      rw [show lstrip t₁ = [':'] ++ t₂ from after_some.1 hcolon]
      simp
    rw [ht, List.length_append, List.length_drop]
    refine Nat.lt_of_le_of_lt (Nat.sub_le _ _) ?_
    omega

theorem bareKv_part {k v : Text} (hk : Word isAlnum k) (hv : v ≠ []) (hcomma : ',' ∉ v) (hstrip : strip v = v) :
    bareKv isAlnum (k ++ ':' :: v) = some ((k, v), []) := by
  have hcolon : isWord isAlnum ':' = false := by rw [isWord_ascii (by decide)]; decide
  have htake : takeSome (isWord isAlnum) (k ++ ':' :: v) = some (k, ':' :: v) :=
    takeSome_append hk.1 hk.2 (by intro c hc; cases hc; exact hcolon)
  have hlstrip : lstrip (':' :: v) = [':'] ++ v := lstrip_eq_self (by decide) v
  have hsegment : v.takeWhile (· ≠ ',') = v := by
    rw [List.takeWhile_eq_self_iff]
    intro c hc
    simp only [ne_eq, decide_not, Bool.not_eq_true', decide_eq_false_iff_not]
    rintro rfl
    exact hcomma hc
  have hdrop : v.length - (lstrip v).length + v.length ≥ v.length := by omega
  simp only [bareKv, Option.bind_eq_bind, htake, Option.bind_some, hlstrip, after_append, hsegment, if_neg hv, hstrip,
    List.drop_eq_nil_of_le hdrop]

theorem takeWhile_stop {p : Char → Bool} {x : Char} (hp : p x = false) (a b : Text) :
    (a ++ x :: b).takeWhile p = a.takeWhile p := by
  induction a with
  | nil => simp [hp]
  | cons c a ih => rw [List.cons_append, List.takeWhile_cons, List.takeWhile_cons, ih]

theorem takeSome_stop {p : Char → Bool} {x : Char} (hp : p x = false) (a b : Text) :
    takeSome p (a ++ x :: b) = (takeSome p a).map (fun r => (r.1, r.2 ++ x :: b)) := by
  have hdrop : (a ++ x :: b).dropWhile p = a.dropWhile p ++ x :: b := by
    rw [List.dropWhile_append]
    split <;> simp_all
  rw [takeSome, takeSome, takeWhile_stop hp, hdrop]
  split <;> rfl

theorem after_stop {literal : Text} {x : Char} (hx : x ∉ literal) (a b : Text) :
    after literal (a ++ x :: b) = (after literal a).map (fun t => t ++ x :: b) := by
  cases ha : after literal a with
  | some t =>
    rw [after_some.1 ha, List.append_assoc, after_append]
    rfl
  | none =>
    rw [Option.map_none, Option.eq_none_iff_forall_ne_some]
    intro t ht
    rcases List.append_eq_append_iff.1 (after_some.1 ht).symm with ⟨l, hl, -⟩ | ⟨l, hl, hr⟩
    · rw [hl, after_append] at ha
      cases ha
    · cases l with
      | nil =>
        rw [List.append_nil] at hl
        rw [hl, ← List.append_nil a, ← hl] at ha
        have := after_append literal []
        rw [List.append_nil, hl] at this
        rw [List.append_nil, hl, this] at ha
        cases ha
      | cons y l =>
        obtain ⟨rfl, -⟩ := List.cons.inj hr
        exact hx (by rw [hl]; simp)

/-- A comma ends a pair. -/
theorem bareKv_stop (a b : Text) :
    bareKv isAlnum (a ++ ',' :: b) = (bareKv isAlnum a).map (fun r => (r.1, r.2 ++ ',' :: b)) := by
  have hword : isWord isAlnum ',' = false := comma_special.2.2
  simp only [bareKv, Option.bind_eq_bind, takeSome_stop hword]
  cases takeSome (isWord isAlnum) a with
  | none => rfl
  | some r =>
    obtain ⟨k, t⟩ := r
    have hl : lstrip (t ++ ',' :: b) = lstrip t ++ ',' :: b := lstrip_append_of_head t (.inr ⟨',', b, rfl, by decide⟩)
    simp only [Option.map_some, Option.bind_some, hl, @after_stop [':'] ',' (by decide)]
    cases after [':'] (lstrip t) with
    | none => rfl
    | some u =>
      have hseg : (u ++ ',' :: b).takeWhile (fun c => decide (c ≠ ',')) = u.takeWhile (fun c => decide (c ≠ ',')) :=
        takeWhile_stop (by decide) u b
      simp only [Option.map_some, Option.bind_some, hseg]
      split
      · rfl
      · have h₁ : (strip (u.takeWhile (· ≠ ','))).length ≤ (lstrip (u.takeWhile (· ≠ ','))).length := rstrip_length_le _
        have h₂ : (lstrip (u.takeWhile (· ≠ ','))).length ≤ (u.takeWhile (· ≠ ',')).length :=
          (List.dropWhile_suffix isSpace).length_le
        have h₃ : (u.takeWhile (· ≠ ',')).length ≤ u.length := (List.takeWhile_prefix _).length_le
        rw [List.drop_append_of_le_length (by omega)]
        rfl

theorem bareKv_comma (a b : Text) :
    findAll (bareKv isAlnum) (a ++ ',' :: b) = findAll (bareKv isAlnum) a ++ findAll (bareKv isAlnum) b := by
  rw [findAll_stop bareKv_takes (fun a => bareKv_stop a b)]
  have hnone : bareKv isAlnum (',' :: b) = none := bareKv_stop [] b
  rw [findAll_none ',' hnone]

def stringsOf (args : List (Text × ArgValue)) : List Text := args.flatMap (fun a => a.2.strings)

def keyed (n : Nat) : List (Text × ArgValue) → List (Text × Text)
  | [] => []
  | x :: args => (x.1, x.2.shown n) :: keyed (n + x.2.strings.length) args

def commaParts (args : List (Text × ArgValue)) : Text := args.flatMap (fun x => part x ++ [','])

structure Written (isAlnum : Char → Bool) (args : List (Text × ArgValue)) : Prop where
  words : ∀ x ∈ args, Word isAlnum x.1
  unquoted : ∀ x ∈ args, ∀ s ∈ x.2.strings, ¬ quoteToken <:+: s

theorem Call.written (c : Call isAlnum) : Written isAlnum c.args := ⟨c.keys_word, c.unquoted⟩

variable {args pre post : List (Text × ArgValue)} {x : Text × ArgValue}

theorem Written.left (h : Written isAlnum (pre ++ post)) : Written isAlnum pre :=
  ⟨fun y hy => h.words y (by simp [hy]), fun y hy => h.unquoted y (by simp [hy])⟩

theorem Written.right (h : Written isAlnum (pre ++ post)) : Written isAlnum post :=
  ⟨fun y hy => h.words y (by simp [hy]), fun y hy => h.unquoted y (by simp [hy])⟩

theorem bodyOf_cons_cons (x y : Text × ArgValue) (args : List (Text × ArgValue)) :
    bodyOf (x :: y :: args) = part x ++ ',' :: bodyOf (y :: args) := by
  simp [bodyOf, List.intercalate]

theorem bodyOf_append (pre : List (Text × ArgValue)) (x : Text × ArgValue) (post : List (Text × ArgValue)) :
    bodyOf (pre ++ x :: post) = commaParts pre ++ bodyOf (x :: post) := by
  induction pre with
  | nil => rfl
  | cons y pre ih =>
    have hcons : bodyOf (y :: (pre ++ x :: post)) = part y ++ ',' :: bodyOf (pre ++ x :: post) := by
      cases pre with
      | nil => exact bodyOf_cons_cons y x post
      | cons z pre => exact bodyOf_cons_cons y z _
    rw [List.cons_append, hcons, ih]
    simp [commaParts]

theorem findAll_cleanPart (n : Nat) (hx : Word isAlnum x.1) :
    findAll (bareKv isAlnum) (cleanPart n x) = [(x.1, x.2.shown n)] := by
  rw [cleanPart, findAll_some bareKv_takes (bareKv_part hx (shown_ne_nil n x.2) (shown_not_mem (@comma_special isAlnum))
    (strip_shown n x.2))]
  rfl

/-- Arguments in front are hidden and found on their own. -/
theorem hide_commaParts (h : Written isAlnum pre) (n : Nat) (t : Text) :
    (hide n (commaParts pre ++ t)).1 = stringsOf pre ++ (hide (n + (stringsOf pre).length) t).1 ∧
      findAll (bareKv isAlnum) (hide n (commaParts pre ++ t)).2 =
        keyed n pre ++ findAll (bareKv isAlnum) (hide (n + (stringsOf pre).length) t).2 := by
  induction pre generalizing n with
  | nil => exact ⟨rfl, rfl⟩
  | cons x pre ih =>
    have hx := h.words x (by simp)
    have hrest : Written isAlnum pre := @Written.right _ [x] _ h
    have htext : commaParts (x :: pre) ++ t = part x ++ ([','] ++ (commaParts pre ++ t)) := by simp [commaParts]
    have hhide := hide_part (n := n) hx (h.unquoted x (by simp)) ([','] ++ (commaParts pre ++ t))
    rw [hide_plain (a := [',']) (by decide)] at hhide
    obtain ⟨h₁, h₂⟩ := ih hrest (n + x.2.strings.length)
    have hlen : n + (stringsOf (x :: pre)).length = n + x.2.strings.length + (stringsOf pre).length := by
      simp [stringsOf, Nat.add_assoc]
    constructor
    · rw [htext, hhide, hlen]
      simp [h₁, stringsOf]
    · rw [htext, hhide, hlen]
      simp only [List.singleton_append]
      rw [bareKv_comma, findAll_cleanPart n hx, h₂]
      rfl

/-- What a whole body hides and what is found in it. -/
theorem hide_body (h : Written isAlnum args) (n : Nat) :
    (hide n (bodyOf args)).1 = stringsOf args ∧ findAll (bareKv isAlnum) (hide n (bodyOf args)).2 = keyed n args := by
  rcases List.eq_nil_or_concat args with rfl | ⟨pre, x, rfl⟩
  · exact ⟨rfl, rfl⟩
  · rw [List.concat_eq_append] at h ⊢
    have hx := h.words x (by simp)
    have hlast : bodyOf (pre ++ [x]) = commaParts pre ++ (part x ++ []) := by
      rw [bodyOf_append]
      simp [bodyOf, List.intercalate]
    have hkeyed : ∀ n, keyed n (pre ++ [x]) = keyed n pre ++ [(x.1, x.2.shown (n + (stringsOf pre).length))] := by
      intro n
      clear hlast h hx
      induction pre generalizing n with
      | nil => rfl
      | cons y pre ih => simp [keyed, ih, stringsOf, Nat.add_assoc]
    obtain ⟨h₁, h₂⟩ := hide_commaParts h.left n (part x ++ [])
    have hhide := hide_part (n := n + (stringsOf pre).length) hx (h.unquoted x (by simp)) []
    rw [hide_nil, List.append_nil, List.append_nil] at hhide
    rw [List.append_nil] at h₁ h₂ hlast
    dsimp only at hhide
    rw [List.append_nil] at hhide
    constructor
    · rw [hlast, h₁, hhide]
      simp [stringsOf]
    · rw [hlast, h₂, hhide, findAll_cleanPart _ hx, hkeyed]

/-- The pairs that are found come back as the arguments. -/
theorem keyed_values (before : List Text) (args : List (Text × ArgValue)) (more : List Text) :
    (keyed before.length args).map (fun kv => (kv.1, argValue beyond (before ++ (stringsOf args ++ more)) kv.2)) =
      args.map (fun x => (x.1, x.2.json)) := by
  induction args generalizing before with
  | nil => rfl
  | cons x args ih =>
    have hstashed : before ++ (stringsOf (x :: args) ++ more) = (before ++ x.2.strings) ++ (stringsOf args ++ more) := by
      simp [stringsOf]
    have hhead := @argValue_shown beyond before (stringsOf args ++ more) x.2
    have htail := ih (before ++ x.2.strings)
    rw [List.length_append] at htail
    rw [keyed, List.map_cons, List.map_cons, hstashed, htail]
    rw [List.append_assoc, hhead]

theorem dict_ext {d d' : Dict Text Json} (h : d.entries = d'.entries) : d = d' := by
  cases d
  cases d'
  cases h
  rfl

theorem foldl_set (d : Dict Text Json) (l : List (Text × Json)) (h : (d.keys ++ l.map Prod.fst).Nodup) :
    (l.foldl (fun d kv => d.set kv.1 kv.2) d).entries = d.entries ++ l := by
  induction l generalizing d with
  | nil => simp
  | cons kv l ih =>
    rw [List.map_cons, List.append_cons] at h
    have hnew : kv.1 ∉ d.keys := by
      intro hmem
      have hnodup := (List.nodup_append.1 h).1
      exact (List.nodup_append.1 hnodup).2.2 _ hmem _ (by simp) rfl
    rw [List.foldl_cons, ih _ (by rw [Dict.keys_set_new hnew]; exact h), Dict.entries_set_new hnew]
    simp

/-- A body is read as it was written. -/
theorem parse_body (c : Call isAlnum) : parseGemma4Args isAlnum beyond (bodyOf c.args) = c.arguments := by
  obtain ⟨h₁, h₂⟩ := hide_body c.written 0
  have hvalues := @keyed_values beyond [] c.args []
  rw [List.append_nil, List.nil_append, List.length_nil] at hvalues
  have hfold : parseGemma4Args isAlnum beyond (bodyOf c.args) =
      (c.args.map (fun x => (x.1, x.2.json))).foldl (fun d kv => d.set kv.1 kv.2) Dict.empty := by
    rw [← hvalues, List.foldl_map, ← h₁, ← h₂]
    rfl
  have hentries := foldl_set Dict.empty (c.args.map (fun x => (x.1, x.2.json)))
    (by simpa [Dict.empty, Dict.keys, Function.comp_def] using c.keys_nodup)
  rw [hfold]
  exact dict_ext (by rw [hentries]; rfl)

end FusionMlx.ToolParsers.Gemma4
