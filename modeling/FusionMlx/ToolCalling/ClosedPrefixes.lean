import FusionMlx.Support.JsonTruncations
import FusionMlx.ToolCalling.ToolJsonRepair
import Mathlib.Data.List.TakeWhile

/-!
# Closing the beginning of a document

The scan of `_close_unclosed` follows the decoder through the beginning of a
document, so the quotes and brackets it adds are those the decoder waits for.
The trailing comma is taken away; commas in strings have to be out of the
regular expression's reach.
-/
namespace FusionMlx.ToolJsonRepair

open JsonMachine

variable {w w' : Scan} {s s' : State} {fs : List Frame} {q t u : Str} {v d : Json} {c : Nat}

def opener : Frame → Nat
  | .arr _ => openBracket
  | .obj _ _ => openBrace

theorem closerOf_opener (f : Frame) : closerOf (opener f) = closer f := by cases f <;> rfl

def inString : Mode → Bool
  | .string _ _ => true
  | _ => false

def inEscape : Mode → Bool
  | .string _ .escape => true
  | _ => false

/-- The scan is where the decoder is. -/
structure Follows (w : Scan) (s : State) : Prop where
  stack : w.stack = s.frames.map opener
  inStr : w.inStr = inString s.mode
  escaped : w.escaped = inEscape s.mode

def Dull (c : Nat) : Prop :=
  c ≠ quote ∧ c ≠ openBrace ∧ c ≠ openBracket ∧ c ≠ closeBrace ∧ c ≠ closeBracket

theorem dull_ws (h : isWs c = true) : Dull c := by
  simp only [isWs, Bool.or_eq_true, beq_iff_eq] at h
  rcases h with ((rfl | rfl) | rfl) | rfl <;> exact ⟨by decide, by decide, by decide, by decide, by decide⟩

theorem dull_atomChar (h : isAtomChar c = true) : Dull c := by
  obtain ⟨-, hq, hb, ha, he⟩ := atomChar_plain h
  refine ⟨hq, hb, ha, ?_, he⟩
  rintro rfl
  cases h

theorem Follows.outside {m : Mode} (h : Follows w ⟨fs, m⟩) (hm : inString m = false) :
    w.inStr = false ∧ w.escaped = false := by
  refine ⟨h.inStr.trans hm, h.escaped.trans ?_⟩
  cases m with
  | string => cases hm
  | expect | atom | colon | after => rfl

/-- Outside strings a dull character moves neither. -/
theorem Follows.dull {m m' : Mode} (h : Follows w ⟨fs, m⟩) (hc : Dull c) (hm : inString m = false)
    (hm' : inString m' = false) : Follows (w.step c) ⟨fs, m'⟩ := by
  obtain ⟨hin, hesc⟩ := h.outside hm
  have hstep : w.step c = { w with index := w.index + 1 } := by
    simp [Scan.step, hin, hc.1, hc.2.1, hc.2.2.1, hc.2.2.2.1, hc.2.2.2.2]
  rw [hstep]
  refine ⟨h.stack, hin.trans hm'.symm, hesc.trans ?_⟩
  cases m' with
  | string => cases hm'
  | expect | atom | colon | after => rfl

/-- A bracket that opens. -/
theorem Follows.opens {f : Frame} {b b' : Bool} (h : Follows w ⟨fs, .expect b⟩) :
    Follows (w.step (opener f)) ⟨f :: fs, .expect b'⟩ := by
  obtain ⟨hin, hesc⟩ := h.outside rfl
  have hstack := h.stack
  cases f <;> refine ⟨?_, ?_, ?_⟩ <;> simp [Scan.step, hin, hesc, hstack, inString, inEscape, opener]

/-- A bracket that closes. -/
theorem Follows.closes {f : Frame} {m : Mode} (h : Follows w ⟨f :: fs, m⟩) (hm : inString m = false) (v : Json) :
    Follows (w.step (closer f)) ⟨fs, .after v⟩ := by
  obtain ⟨hin, hesc⟩ := h.outside hm
  have hstack := h.stack
  simp only [List.map_cons] at hstack
  cases f <;> refine ⟨?_, ?_, ?_⟩ <;>
    simp [Scan.step, hin, hesc, hstack, isPair, inString, inEscape, opener, closer]

theorem Follows.after (h : Follows w ⟨fs, .after v⟩) (ha : After fs v c s') : Follows (w.step c) s' := by
  have hcomma : Dull comma := by
    unfold Dull
    decide
  cases ha with
  | ws hw => exact h.dull (dull_ws hw) rfl rfl
  | nextItem | nextMember =>
    have hnext : Follows (w.step comma) ⟨_, .colon⟩ := h.dull hcomma rfl rfl
    exact ⟨hnext.stack, hnext.inStr, hnext.escaped⟩
  | lastItem => exact h.closes (f := .arr _) rfl _
  | lastMember => exact h.closes (f := .obj _ _) rfl _

theorem hexValue_plain {n : Nat} (h : hexValue c = some n) : c ≠ quote ∧ c ≠ backslash := by
  constructor
  · rintro rfl
    cases h
  · rintro rfl
    cases h

/-- A letter of a string, or the one behind a backslash. -/
theorem Follows.letter {ps ps' : List Piece} {lex lex' : Lex} (h : Follows w ⟨fs, .string ps lex⟩)
    (hc : inEscape (.string ps lex) = true ∨ c ≠ quote ∧ c ≠ backslash) (hlex' : inEscape (.string ps' lex') = false) :
    Follows (w.step c) ⟨fs, .string ps' lex'⟩ := by
  have hin : w.inStr = true := h.inStr
  have hesc := h.escaped
  have hstack := h.stack
  cases he : w.escaped with
  | true =>
    refine ⟨?_, ?_, ?_⟩ <;> simp [Scan.step, hin, he, hstack, inString, hlex']
  | false =>
    obtain ⟨hq, hb⟩ := hc.resolve_left (by rw [← hesc, he]; exact Bool.false_ne_true)
    refine ⟨?_, ?_, ?_⟩ <;> simp [Scan.step, hin, he, hstack, inString, hlex', hq, hb]

/-- The quote that ends a string. -/
theorem Follows.closeQuote {ps : List Piece} {gs : List Frame} {m : Mode} (h : Follows w ⟨fs, .string ps .plain⟩)
    (hgs : gs.map opener = fs.map opener) (hm : inString m = false) (hm' : inEscape m = false) :
    Follows (w.step quote) ⟨gs, m⟩ := by
  have hin : w.inStr = true := h.inStr
  have hesc : w.escaped = false := h.escaped
  have hstack := h.stack
  refine ⟨?_, ?_, ?_⟩ <;> simp [Scan.step, hin, hesc, hstack, hgs, hm, hm']

theorem Follows.step (h : Follows w s) (hm : Moves s c s') : Follows (w.step c) s' := by
  cases hm with
  | ws hw => exact h.dull (dull_ws hw) rfl rfl
  | quote =>
    obtain ⟨hin, hesc⟩ := h.outside rfl
    refine ⟨?_, ?_, ?_⟩ <;> simp [Scan.step, hin, hesc, h.stack, inString, inEscape]
  | brace => exact h.opens (f := .obj [] none)
  | bracket => exact h.opens (f := .arr [])
  | atom _ hc => exact h.dull (dull_atomChar hc) rfl rfl
  | endObj => exact h.closes (f := .obj _ none) rfl _
  | endArr => exact h.closes (f := .arr _) rfl _
  | key => exact h.closeQuote rfl rfl rfl
  | str => exact h.closeQuote rfl rfl rfl
  | char hq hb => exact h.letter (.inr ⟨hq, hb⟩) rfl
  | escape =>
    have hin : w.inStr = true := h.inStr
    have hesc : w.escaped = false := h.escaped
    refine ⟨?_, ?_, ?_⟩ <;> simp [Scan.step, hin, hesc, h.stack, inString, inEscape]
  | unicode => exact h.letter (.inl rfl) rfl
  | simple => exact h.letter (.inl rfl) rfl
  | digit hx => exact h.letter (.inr (hexValue_plain hx)) rfl
  | lastDigit hx => exact h.letter (.inr (hexValue_plain hx)) rfl
  | atomChar hc => exact h.dull (dull_atomChar hc) rfl rfl
  | atomEnd _ _ ha => exact Follows.after ⟨h.stack, h.inStr, h.escaped⟩ ha
  | colonWs hw => exact h.dull (dull_ws hw) rfl rfl
  | colon => exact h.dull (by unfold Dull; decide) rfl rfl
  | after ha => exact h.after ha

theorem follows_run (h : Follows w s) (hrun : run s t = some s') : Follows (t.foldl Scan.step w) s' := by
  induction t generalizing w s with
  | nil =>
    cases hrun
    exact h
  | cons c t ih =>
    obtain ⟨s₁, h₁, hrun⟩ := Option.bind_eq_some_iff.1 hrun
    exact ih (h.step (step_moves h₁)) hrun

theorem follows_scan (hrun : run start t = some s) : Follows (scan t) s :=
  follows_run ⟨rfl, rfl, rfl⟩ hrun

theorem subTrailing_length (b : Bool) (t : Str) : (subTrailing b t).length ≤ t.length := by
  induction t generalizing b with
  | nil => exact Nat.le_refl 0
  | cons c t ih =>
    rw [subTrailing, List.length_cons]
    split
    · exact Nat.le_succ_of_le (ih true)
    · split
      · exact Nat.le_succ_of_le (ih true)
      · exact Nat.succ_le_succ (ih false)

/-- In a text that is left as it is no comma trails. -/
theorem sub_cons (h : subTrailingCommas (c :: t) = c :: t) :
    (c == comma && closesNext t) = false ∧ subTrailingCommas t = t := by
  rw [subTrailingCommas, subTrailing, Bool.false_and, if_neg Bool.false_ne_true] at h
  split at h
  · have hle := subTrailing_length true t
    rw [h, List.length_cons] at hle
    omega
  · next hc => exact ⟨Bool.eq_false_iff.2 hc, (List.cons.inj h).2⟩

theorem sub_of_no_comma (h : comma ∉ t) : subTrailingCommas t = t := by
  induction t with
  | nil => rfl
  | cons c t ih =>
    simp only [List.mem_cons, not_or] at h
    have hc : (c == comma) = false := by simpa using fun he => h.1 he.symm
    rw [subTrailingCommas, subTrailing, Bool.false_and, if_neg Bool.false_ne_true, hc, Bool.false_and,
      if_neg Bool.false_ne_true]
    exact congrArg (c :: ·) (ih h.2)

/-- What stands behind white space alone decides. -/
theorem closesNext_append (t u : Str) :
    closesNext (t ++ u) = if t.dropWhile isSpace = [] then closesNext u else closesNext t := by
  unfold closesNext
  rw [List.dropWhile_append]
  by_cases h : t.dropWhile isSpace = []
  · simp [h]
  · obtain ⟨c, t', ht⟩ := List.exists_cons_of_ne_nil h
    simp [ht]

/-- Text behind a text without trailing commas makes none when it does not close, or when neither a comma nor white
space stands in front of it. -/
theorem sub_append (hq : subTrailingCommas q = q) (hu : subTrailingCommas u = u)
    (h : closesNext u = false ∨ ∀ c, q.getLast? = some c → c ≠ comma ∧ isSpace c = false) :
    subTrailingCommas (q ++ u) = q ++ u := by
  induction q with
  | nil => exact hu
  | cons c q ih =>
    obtain ⟨hc, hq'⟩ := sub_cons hq
    have hrest : subTrailingCommas (q ++ u) = q ++ u := by
      refine ih hq' (h.imp id (fun h x hx => h x ?_))
      cases q with
      | nil => cases hx
      | cons => exact hx
    have hc' : (c == comma && closesNext (q ++ u)) = false := by
      rw [closesNext_append]
      split
      · next hblank =>
        rcases h with h | h
        · rw [h, Bool.and_false]
        · cases q with
          | nil =>
            have hne := (h c rfl).1
            simp [hne]
          | cons x q =>
            -- the last character would be white space
            obtain ⟨y, hy⟩ : ∃ y, (x :: q).getLast? = some y := ⟨_, List.getLast?_eq_getLast_of_ne_nil (List.cons_ne_nil x q)⟩
            have hspace := (h y (by simpa using hy)).2
            have hall := List.dropWhile_eq_nil_iff.1 hblank y (List.mem_of_getLast? hy)
            rw [hspace] at hall
            cases hall
      · exact hc
    rw [List.cons_append, subTrailingCommas, subTrailing, Bool.false_and, if_neg Bool.false_ne_true, hc',
      if_neg Bool.false_ne_true]
    exact congrArg (c :: ·) hrest

/-- A comma in front of what closes is taken away. -/
theorem sub_comma (hq : subTrailingCommas (q ++ [comma]) = q ++ [comma]) (hu : subTrailingCommas u = u) {b : Nat}
    (hb : u.head? = some b) (hclose : closesNext u = true) (hspace : isSpace b = false) :
    subTrailingCommas (q ++ comma :: u) = q ++ u := by
  induction q with
  | nil =>
    obtain ⟨u, rfl⟩ : ∃ t, u = b :: t := by
      cases u with
      | nil => cases hb
      | cons x u => exact ⟨u, by rw [Option.some.inj hb]⟩
    rw [List.nil_append, subTrailingCommas, subTrailing, Bool.false_and, if_neg Bool.false_ne_true, hclose,
      Bool.and_true, if_pos (by rfl)]
    rw [subTrailingCommas, subTrailing, Bool.false_and, if_neg Bool.false_ne_true] at hu
    rw [subTrailing, hspace, Bool.and_false, if_neg Bool.false_ne_true]
    exact hu
  | cons c q ih =>
    rw [List.cons_append] at hq
    obtain ⟨hc, hq'⟩ := sub_cons hq
    have hnext : closesNext (q ++ comma :: u) = closesNext (q ++ [comma]) := by
      rw [closesNext_append, closesNext_append]
      rfl
    rw [List.cons_append, subTrailingCommas, subTrailing, Bool.false_and, if_neg Bool.false_ne_true, hnext, hc,
      if_neg Bool.false_ne_true]
    exact congrArg (c :: ·) (ih hq')

theorem closers_no_comma (fs : List Frame) : comma ∉ closers fs := by
  intro h
  obtain ⟨f, -, hf⟩ := List.mem_map.1 h
  cases f with
  | arr => cases hf
  | obj => cases hf

/-- What `_close_unclosed` makes of a text that ends inside a container. -/
theorem closeUnclosed_eq (hrun : run start q = some s) (hne : s.frames ≠ []) :
    closeUnclosed q = subTrailingCommas (q ++ quotes s.mode ++ closers s.frames) := by
  have hplain : ∀ {t : Str}, (scan t).inStr = false → (scan t).stack = s.frames.map opener →
      closeUnclosed t = subTrailingCommas (t ++ closers s.frames) := by
    intro t hin hstack
    have hstack' : (scan t).stack ≠ [] := by
      rw [hstack]
      simpa using hne
    rw [closeUnclosed, hin, if_neg Bool.false_ne_true, if_neg hstack', hstack, List.map_map]
    rw [show closers s.frames = s.frames.map (closerOf ∘ opener) from
      List.map_congr_left (fun f _ => (closerOf_opener f).symm)]
  have hquote : ∀ {t : Str}, (scan t).inStr = true → (scan t).escaped = false → (scan t).stack = s.frames.map opener →
      closeUnclosed t = subTrailingCommas (t ++ [quote] ++ closers s.frames) := by
    intro t hin hesc hstack
    have hscan : scan (t ++ [quote]) = (scan t).step quote := by rw [scan, List.foldl_append]; rfl
    rw [closeUnclosed, if_pos hin]
    exact hplain (by rw [hscan]; simp [Scan.step, hin, hesc]) (by rw [hscan]; simp [Scan.step, hin, hesc, hstack])
  have hf := follows_scan hrun
  obtain ⟨fs, m⟩ := s
  cases m with
  | string ps lex =>
    cases lex with
    | plain => exact hquote hf.inStr hf.escaped hf.stack
    | hex ds => exact hquote hf.inStr hf.escaped hf.stack
    | escape =>
      have hin : (scan q).inStr = true := hf.inStr
      have hesc : (scan q).escaped = true := hf.escaped
      have hscan : scan (q ++ [quote]) = (scan q).step quote := by rw [scan, List.foldl_append]; rfl
      rw [closeUnclosed, if_pos hin]
      rw [hquote (by rw [hscan]; simp [Scan.step, hin, hesc]) (by rw [hscan]; simp [Scan.step, hin, hesc])
        (by rw [hscan]; simp [Scan.step, hin, hesc, hf.stack])]
      simp [quotes]
  | expect | atom | colon | after =>
    rw [hplain hf.inStr hf.stack]
    simp [quotes]

def Keyed (s : State) : Prop := s.mode = .colon → ∃ ms k fs, s.frames = .obj ms (some k) :: fs

theorem Keyed.step (h : Keyed s) (hm : Moves s c s') : Keyed s' := by
  cases hm with
  | key => exact fun _ => ⟨_, _, _, rfl⟩
  | colonWs => exact h
  | atomEnd _ _ ha => cases ha <;> exact fun hc => nomatch hc
  | after ha => cases ha <;> exact fun hc => nomatch hc
  | ws | quote | brace | bracket | atom | endObj | endArr | str | char | escape | unicode | simple | digit | lastDigit
  | atomChar | colon => exact fun hc => nomatch hc

theorem keyed_run (h : run start t = some s) : Keyed s :=
  run_induction (fun _ _ _ hm hs => hs.step hm) h (fun hc => nomatch hc)

theorem isSpace_of_isWs (h : isWs c = true) : isSpace c = true := by
  simp only [isWs, Bool.or_eq_true, beq_iff_eq] at h
  rcases h with ((rfl | rfl) | rfl) | rfl <;> decide

/-- With the value behind a comma waited for, the last character is the comma. -/
theorem behind_comma (hk : Keyed s) (hm : Moves s c s') (hc : isSpace c = false) (hne : c ≠ comma)
    (hs : s'.mode = .expect false) : ∃ ms k fs, s'.frames = .obj ms (some k) :: fs := by
  have hafter : ∀ {fs v}, After fs v c s' → ∃ ms k fs, s'.frames = .obj ms (some k) :: fs := by
    intro fs v ha
    cases ha with
    | ws => cases hs
    | nextItem => exact absurd rfl hne
    | lastItem => cases hs
    | nextMember => exact absurd rfl hne
    | lastMember => cases hs
  cases hm with
  | ws hw =>
    rw [isSpace_of_isWs hw] at hc
    cases hc
  | colon => exact hk rfl
  | atomEnd _ _ ha => exact hafter ha
  | after ha => exact hafter ha
  | quote | brace | bracket | atom | endObj | endArr | key | str | char | escape | unicode | simple | digit | lastDigit
  | atomChar | colonWs => cases hs

/-- What is read of a text that ends in the middle of a document, once it is closed. -/
theorem parse_closeUnclosed (hrun : run start q = some s) (hd : Tends s d) (hne : s.frames ≠ [])
    (hclean : subTrailingCommas q = q) (hlast : ∀ c, q.getLast? = some c → isSpace c = false) :
    parse (closeUnclosed q) = s.shut? := by
  rw [closeUnclosed_eq hrun hne]
  have hclosers := sub_of_no_comma (closers_no_comma s.frames)
  by_cases hstr : inString s.mode = true
  · -- the quote keeps the closers off the text
    have hquotes : closesNext (quotes s.mode ++ closers s.frames) = false ∧ comma ∉ quotes s.mode ++ closers s.frames ∧
        ∀ b, s.mode ≠ .expect b := by
      obtain ⟨fs, m⟩ := s
      cases m with
      | string ps lex =>
        refine ⟨?_, ?_, fun b hb => nomatch hb⟩
        · cases lex <;> rfl
        · rw [List.mem_append, not_or]
          refine ⟨?_, closers_no_comma fs⟩
          cases lex <;> simp [quotes]
      | expect | atom | colon | after => cases hstr
    rw [List.append_assoc, sub_append hclean (sub_of_no_comma hquotes.2.1) (.inl hquotes.1), parse_append hrun]
    exact finish_closing hd hne (fun he => absurd he (hquotes.2.2 false))
  · have hquotes : quotes s.mode = [] := by
      obtain ⟨fs, m⟩ := s
      cases m with
      | string => exact absurd rfl hstr
      | expect | atom | colon | after => rfl
    cases q.eq_nil_or_concat' with
    | inl hq =>
      subst hq
      cases hrun
      exact absurd rfl hne
    | inr hq =>
      obtain ⟨q', c, rfl⟩ := hq
      obtain ⟨s₀, h₀, hrest⟩ := run_prefix hrun
      have hmoves : Moves s₀ c s := by
        obtain ⟨s₁, h₁, hs₁⟩ := Option.bind_eq_some_iff.1 hrest
        cases hs₁
        exact step_moves h₁
      have hspace := hlast c (by simp)
      rw [hquotes, List.append_nil]
      by_cases hc : c = comma
      · subst hc
        obtain ⟨f, fs, hfs⟩ := List.exists_cons_of_ne_nil hne
        have hhead : (closers s.frames).head? = some (closer f) := by rw [hfs]; rfl
        have hclose : closesNext (closers s.frames) = true ∧ isSpace (closer f) = false := by
          rw [hfs]
          cases f <;> exact ⟨rfl, rfl⟩
        rw [List.append_assoc, List.singleton_append, sub_comma hclean hclosers hhead hclose.1 hclose.2, parse_append h₀]
        refine finish_before_comma hmoves hd (fun ps lex hm => hstr ?_)
        rw [hm]
        rfl
      · rw [sub_append hclean hclosers (.inr (fun x hx => ?_)), parse_append hrun]
        · have hclosing := finish_closing hd hne (behind_comma (keyed_run h₀) hmoves hspace hc)
          rwa [hquotes, List.nil_append] at hclosing
        · rw [List.getLast?_concat, Option.some.injEq] at hx
          subst hx
          exact ⟨hc, hspace⟩

end FusionMlx.ToolJsonRepair
