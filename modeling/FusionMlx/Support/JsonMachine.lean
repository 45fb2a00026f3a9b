import Mathlib.Data.List.Basic

/-!
# JSON, one character at a time

The strict grammar of JSON as a machine over code points. A state holds the
containers that are open, innermost first, each with what it has taken so far.
So a text that ends early has a state too, and what closes it is read by the
same machine.
-/
namespace FusionMlx.JsonMachine

abbrev Str := List Nat

def codes (s : String) : Str := s.toList.map Char.toNat

/-- A document as it is written: a number is its literal, and a key may come twice. -/
inductive Json where
  | null
  | bool (b : Bool)
  | num (literal : Str)
  | str (s : Str)
  | arr (items : List Json)
  | obj (members : List (Str × Json))

abbrev quote : Nat := 0x22
abbrev backslash : Nat := 0x5C
abbrev comma : Nat := 0x2C
abbrev colon : Nat := 0x3A
abbrev openBrace : Nat := 0x7B
abbrev closeBrace : Nat := 0x7D
abbrev openBracket : Nat := 0x5B
abbrev closeBracket : Nat := 0x5D

def isWs (c : Nat) : Bool := c == 0x20 || c == 0x9 || c == 0xA || c == 0xD

def isDigit (c : Nat) : Bool := 0x30 ≤ c && c ≤ 0x39

def isAtomChar (c : Nat) : Bool :=
  isDigit c || (0x41 ≤ c && c ≤ 0x5A) || (0x61 ≤ c && c ≤ 0x7A) || c == 0x2B || c == 0x2D || c == 0x2E

def hexValue (c : Nat) : Option Nat :=
  if 0x30 ≤ c ∧ c ≤ 0x39 then some (c - 0x30)
  else if 0x61 ≤ c ∧ c ≤ 0x66 then some (c - 0x57)
  else if 0x41 ≤ c ∧ c ≤ 0x46 then some (c - 0x37)
  else none

def simpleEscape (c : Nat) : Option Nat :=
  if c = quote ∨ c = backslash ∨ c = 0x2F then some c
  else if c = 0x62 then some 8
  else if c = 0x66 then some 12
  else if c = 0x6E then some 10
  else if c = 0x72 then some 13
  else if c = 0x74 then some 9
  else none

/-- A character of a string: written as itself or by one letter, or by a `\u` escape. -/
inductive Piece where
  | char (c : Nat)
  | hex (c : Nat)

namespace Piece

def code : Piece → Nat
  | char c => c
  | hex c => c

def high : Piece → Bool
  | char _ => false
  | hex c => 0xD800 ≤ c && c ≤ 0xDBFF

def low : Piece → Bool
  | char _ => false
  | hex c => 0xDC00 ≤ c && c ≤ 0xDFFF

end Piece

def join : List Piece → Str
  | p :: q :: ps =>
    if p.high && q.low then (0x10000 + (p.code - 0xD800) * 0x400 + (q.code - 0xDC00)) :: join ps
    else p.code :: join (q :: ps)
  | [p] => [p.code]
  | [] => []

def ofHex (digits : List Nat) : Nat := digits.foldl (fun n d => 16 * n + d) 0

def isExponent : Str → Bool
  | [] => true
  | [_] => false
  | e :: c :: t =>
    (e == 0x65 || e == 0x45) &&
      if c == 0x2B || c == 0x2D then !t.isEmpty && t.all isDigit else isDigit c && t.all isDigit

def isFraction : Str → Bool
  | 0x2E :: t =>
    match t with
    | [] => false
    | c :: t => isDigit c && isExponent (t.dropWhile isDigit)
  | t => isExponent t

def isUnsigned : Str → Bool
  | [] => false
  | c :: t => if c = 0x30 then isFraction t else isDigit c && isFraction (t.dropWhile isDigit)

def isNumber : Str → Bool
  | 0x2D :: t => isUnsigned t
  | t => isUnsigned t

def isLiteral (t : Str) : Bool := isNumber t || t == codes "NaN" || t == codes "Infinity" || t == codes "-Infinity"

def readAtom (t : Str) : Option Json :=
  if t = codes "null" then some .null
  else if t = codes "true" then some (.bool true)
  else if t = codes "false" then some (.bool false)
  else if isLiteral t then some (.num t)
  else none

inductive Frame where
  | arr (items : List Json)
  | obj (members : List (Str × Json)) (key : Option Str)

inductive Lex where
  | plain
  | escape
  | hex (digits : List Nat)

inductive Mode where
  /-- A value or a key comes; the container may end if nothing was taken yet. -/
  | expect (first : Bool)
  | string (pieces : List Piece) (lex : Lex)
  | atom (t : Str)
  | colon
  | after (v : Json)

structure State where
  frames : List Frame
  mode : Mode

def start : State := ⟨[], .expect false⟩

def stepValue (fs : List Frame) (c : Nat) : Option State :=
  if c = quote then some ⟨fs, .string [] .plain⟩
  else if c = openBrace then some ⟨.obj [] none :: fs, .expect true⟩
  else if c = openBracket then some ⟨.arr [] :: fs, .expect true⟩
  else if isAtomChar c then some ⟨fs, .atom [c]⟩
  else none

def stepExpect (fs : List Frame) (first : Bool) (c : Nat) : Option State :=
  if isWs c then some ⟨fs, .expect first⟩
  else
    match fs with
    | .obj ms none :: fs =>
      if c = quote then some ⟨.obj ms none :: fs, .string [] .plain⟩
      else if c = closeBrace ∧ first then some ⟨fs, .after (.obj ms)⟩
      else none
    | .arr items :: fs =>
      if c = closeBracket ∧ first then some ⟨fs, .after (.arr items)⟩ else stepValue (.arr items :: fs) c
    | fs => stepValue fs c

def stepString (fs : List Frame) (ps : List Piece) : Lex → Nat → Option State
  | .plain, c =>
    if c = quote then
      match fs with
      | .obj ms none :: fs => some ⟨.obj ms (some (join ps)) :: fs, .colon⟩
      | fs => some ⟨fs, .after (.str (join ps))⟩
    else if c < 0x20 then none
    else if c = backslash then some ⟨fs, .string ps .escape⟩
    else some ⟨fs, .string (ps ++ [.char c]) .plain⟩
  | .escape, c =>
    if c = 0x75 then some ⟨fs, .string ps (.hex [])⟩
    else (simpleEscape c).map (fun n => ⟨fs, .string (ps ++ [.char n]) .plain⟩)
  | .hex ds, c =>
    (hexValue c).map (fun d =>
      if ds.length = 3 then ⟨fs, .string (ps ++ [.hex (ofHex (ds ++ [d]))]) .plain⟩
      else ⟨fs, .string ps (.hex (ds ++ [d]))⟩)

def stepAfter (fs : List Frame) (v : Json) (c : Nat) : Option State :=
  if isWs c then some ⟨fs, .after v⟩
  else
    match fs with
    | .arr items :: fs =>
      if c = comma then some ⟨.arr (items ++ [v]) :: fs, .expect false⟩
      else if c = closeBracket then some ⟨fs, .after (.arr (items ++ [v]))⟩
      else none
    | .obj ms (some k) :: fs =>
      if c = comma then some ⟨.obj (ms ++ [(k, v)]) none :: fs, .expect false⟩
      else if c = closeBrace then some ⟨fs, .after (.obj (ms ++ [(k, v)]))⟩
      else none
    | _ => none

def step (s : State) (c : Nat) : Option State :=
  match s.mode with
  | .expect first => stepExpect s.frames first c
  | .string ps lex => stepString s.frames ps lex c
  | .atom t =>
    if isAtomChar c then some ⟨s.frames, .atom (t ++ [c])⟩
    else (readAtom t).bind (fun v => stepAfter s.frames v c)
  | .colon =>
    if isWs c then some s
    else if c = colon then some ⟨s.frames, .expect false⟩
    else none
  | .after v => stepAfter s.frames v c

def run : State → Str → Option State
  | s, [] => some s
  | s, c :: t => (step s c).bind (fun s => run s t)

def Mode.value? : Mode → Option Json
  | .atom t => readAtom t
  | .after v => some v
  | _ => none

def finish : Option State → Option Json
  | some ⟨[], m⟩ => m.value?
  | _ => none

def parse (t : Str) : Option Json := finish (run start t)

example : (parse (codes "[1, \"a\\n\", null]")).isSome = true := by decide

def InKey : List Frame → Prop
  | .obj _ none :: _ => True
  | _ => False

inductive After : List Frame → Json → Nat → State → Prop
  | ws {fs v c} (h : isWs c = true) : After fs v c ⟨fs, .after v⟩
  | nextItem {items fs v} : After (.arr items :: fs) v comma ⟨.arr (items ++ [v]) :: fs, .expect false⟩
  | lastItem {items fs v} : After (.arr items :: fs) v closeBracket ⟨fs, .after (.arr (items ++ [v]))⟩
  | nextMember {ms k fs v} :
    After (.obj ms (some k) :: fs) v comma ⟨.obj (ms ++ [(k, v)]) none :: fs, .expect false⟩
  | lastMember {ms k fs v} : After (.obj ms (some k) :: fs) v closeBrace ⟨fs, .after (.obj (ms ++ [(k, v)]))⟩

inductive Moves : State → Nat → State → Prop
  | ws {fs b c} (h : isWs c = true) : Moves ⟨fs, .expect b⟩ c ⟨fs, .expect b⟩
  | quote {fs b} : Moves ⟨fs, .expect b⟩ quote ⟨fs, .string [] .plain⟩
  | brace {fs b} (h : ¬ InKey fs) : Moves ⟨fs, .expect b⟩ openBrace ⟨.obj [] none :: fs, .expect true⟩
  | bracket {fs b} (h : ¬ InKey fs) : Moves ⟨fs, .expect b⟩ openBracket ⟨.arr [] :: fs, .expect true⟩
  | atom {fs b c} (h : ¬ InKey fs) (hc : isAtomChar c = true) : Moves ⟨fs, .expect b⟩ c ⟨fs, .atom [c]⟩
  | endObj {ms fs} : Moves ⟨.obj ms none :: fs, .expect true⟩ closeBrace ⟨fs, .after (.obj ms)⟩
  | endArr {items fs} : Moves ⟨.arr items :: fs, .expect true⟩ closeBracket ⟨fs, .after (.arr items)⟩
  | key {ms fs ps} :
    Moves ⟨.obj ms none :: fs, .string ps .plain⟩ JsonMachine.quote ⟨.obj ms (some (join ps)) :: fs, .colon⟩
  | str {fs ps} (h : ¬ InKey fs) : Moves ⟨fs, .string ps .plain⟩ JsonMachine.quote ⟨fs, .after (.str (join ps))⟩
  | char {fs ps c} (hq : c ≠ JsonMachine.quote) (hb : c ≠ backslash) (hlow : ¬ c < 0x20) :
    Moves ⟨fs, .string ps .plain⟩ c ⟨fs, .string (ps ++ [.char c]) .plain⟩
  | escape {fs ps} : Moves ⟨fs, .string ps .plain⟩ backslash ⟨fs, .string ps .escape⟩
  | unicode {fs ps} : Moves ⟨fs, .string ps .escape⟩ 0x75 ⟨fs, .string ps (.hex [])⟩
  | simple {fs ps c n} (hu : c ≠ 0x75) (hn : simpleEscape c = some n) :
    Moves ⟨fs, .string ps .escape⟩ c ⟨fs, .string (ps ++ [.char n]) .plain⟩
  | digit {fs ps ds c d} (hd : hexValue c = some d) (hl : ds.length ≠ 3) :
    Moves ⟨fs, .string ps (.hex ds)⟩ c ⟨fs, .string ps (.hex (ds ++ [d]))⟩
  | lastDigit {fs ps ds c d} (hd : hexValue c = some d) (hl : ds.length = 3) :
    Moves ⟨fs, .string ps (.hex ds)⟩ c ⟨fs, .string (ps ++ [.hex (ofHex (ds ++ [d]))]) .plain⟩
  | atomChar {fs t c} (hc : isAtomChar c = true) : Moves ⟨fs, .atom t⟩ c ⟨fs, .atom (t ++ [c])⟩
  | atomEnd {fs t c v s} (hc : isAtomChar c = false) (hv : readAtom t = some v) (h : After fs v c s) :
    Moves ⟨fs, .atom t⟩ c s
  | colonWs {fs c} (h : isWs c = true) : Moves ⟨fs, .colon⟩ c ⟨fs, .colon⟩
  | colon {fs} : Moves ⟨fs, .colon⟩ JsonMachine.colon ⟨fs, .expect false⟩
  | after {fs v c s} (h : After fs v c s) : Moves ⟨fs, .after v⟩ c s

variable {s s' : State} {fs : List Frame} {t u : Str} {v : Json} {c : Nat}

theorem stepAfter_after (h : stepAfter fs v c = some s) : After fs v c s := by
  unfold stepAfter at h
  split at h
  · next hw =>
    cases h
    exact .ws hw
  · split at h
    · split at h
      · next hc =>
        cases h
        exact hc ▸ .nextItem
      · split at h
        · next hc =>
          cases h
          exact hc ▸ .lastItem
        · cases h
    · split at h
      · next hc =>
        cases h
        exact hc ▸ .nextMember
      · split at h
        · next hc =>
          cases h
          exact hc ▸ .lastMember
        · cases h
    · cases h

theorem stepValue_moves {b : Bool} (hk : ¬ InKey fs) (h : stepValue fs c = some s) : Moves ⟨fs, .expect b⟩ c s := by
  unfold stepValue at h
  split_ifs at h with h₁ h₂ h₃ h₄
  · cases h
    exact h₁ ▸ .quote
  · cases h
    exact h₂ ▸ .brace hk
  · cases h
    exact h₃ ▸ .bracket hk
  · cases h
    exact .atom hk h₄

theorem stepExpect_moves {b : Bool} (h : stepExpect fs b c = some s) : Moves ⟨fs, .expect b⟩ c s := by
  unfold stepExpect at h
  split at h
  · next hw =>
    cases h
    exact .ws hw
  · split at h
    · split_ifs at h with h₁ h₂
      · cases h
        exact h₁ ▸ .quote
      · cases h
        obtain ⟨rfl, rfl⟩ := h₂
        exact .endObj
    · split_ifs at h with h₁
      · cases h
        obtain ⟨rfl, rfl⟩ := h₁
        exact .endArr
      · exact stepValue_moves (by simp [InKey]) h
    · next hobj harr =>
      refine stepValue_moves ?_ h
      match fs, hobj with
      | [], _ => exact id
      | .arr _ :: _, _ => exact id
      | .obj _ (some _) :: _, _ => exact id
      | .obj ms none :: fs, hobj => exact absurd rfl (hobj ms fs)

theorem stepString_moves {ps : List Piece} {lex : Lex} (h : stepString fs ps lex c = some s) :
    Moves ⟨fs, .string ps lex⟩ c s := by
  cases lex with
  | plain =>
    simp only [stepString] at h
    split at h
    · next hq =>
      subst hq
      split at h
      · cases h
        exact .key
      · next hobj =>
        cases h
        refine .str ?_
        match fs, hobj with
        | [], _ => exact id
        | .arr _ :: _, _ => exact id
        | .obj _ (some _) :: _, _ => exact id
        | .obj ms none :: fs, hobj => exact absurd rfl (hobj ms fs)
    · next hq =>
      split_ifs at h with hlow hb
      · cases h
        exact hb ▸ .escape
      · cases h
        exact .char hq hb hlow
  | escape =>
    simp only [stepString] at h
    split at h
    · next hu =>
      cases h
      exact hu ▸ .unicode
    · next hu =>
      obtain ⟨n, hn, rfl⟩ := Option.map_eq_some_iff.1 h
      exact .simple hu hn
  | hex ds =>
    simp only [stepString] at h
    obtain ⟨d, hd, rfl⟩ := Option.map_eq_some_iff.1 h
    split
    · next hl => exact .lastDigit hd hl
    · next hl => exact .digit hd hl

theorem step_moves (h : step s c = some s') : Moves s c s' := by
  obtain ⟨fs, m⟩ := s
  cases m with
  | expect b => exact stepExpect_moves h
  | string ps lex => exact stepString_moves h
  | atom t =>
    simp only [step] at h
    split at h
    · next hc =>
      cases h
      exact .atomChar hc
    · next hc =>
      obtain ⟨v, hv, h⟩ := Option.bind_eq_some_iff.1 h
      exact .atomEnd (by simpa using hc) hv (stepAfter_after h)
  | colon =>
    simp only [step] at h
    split_ifs at h with hw hc
    · cases h
      exact .colonWs hw
    · cases h
      exact hc ▸ .colon
  | after v => exact .after (stepAfter_after h)

/-- Where no key comes, a string is a value. -/
theorem step_quote (h : ¬ InKey fs) (ps : List Piece) :
    step ⟨fs, .string ps .plain⟩ quote = some ⟨fs, .after (.str (join ps))⟩ := by
  match fs, h with
  | [], _ => rfl
  | .arr _ :: _, _ => rfl
  | .obj _ (some _) :: _, _ => rfl
  | .obj _ none :: _, h => exact absurd trivial h

theorem run_append (s : State) (t u : Str) : run s (t ++ u) = (run s t).bind (fun s => run s u) := by
  induction t generalizing s with
  | nil => rfl
  | cons c t ih =>
    rw [List.cons_append, run, run]
    cases step s c with
    | none => rfl
    | some s => exact ih s

theorem run_step (h : step s c = some s') (t : Str) : run s (c :: t) = run s' t := by
  rw [run, h, Option.bind_some]

theorem run_trans (ht : run s t = some s') (u : Str) : run s (t ++ u) = run s' u := by
  rw [run_append, ht, Option.bind_some]

/-- A text that is read on is read up to here. -/
theorem run_prefix (h : run s (t ++ u) = some s') : ∃ s₁, run s t = some s₁ ∧ run s₁ u = some s' := by
  rw [run_append] at h
  exact Option.bind_eq_some_iff.1 h

theorem parse_append (hs : run start t = some s) (u : Str) : parse (t ++ u) = finish (run s u) := by
  rw [parse, run_trans hs]

/-- What every character keeps, a text keeps. -/
theorem run_induction {I : State → Prop} (hstep : ∀ s c s', Moves s c s' → I s → I s') (h : run s t = some s')
    (hs : I s) : I s' := by
  induction t generalizing s with
  | nil =>
    cases h
    exact hs
  | cons c t ih =>
    obtain ⟨s₁, h₁, h⟩ := Option.bind_eq_some_iff.1 h
    exact ih h (hstep s c s₁ (step_moves h₁) hs)

/-- What holds before a character when it holds behind it, holds in front of the text. -/
theorem run_back {I : State → Prop} (hstep : ∀ s c s', Moves s c s' → I s' → I s) (h : run s t = some s')
    (hs : I s') : I s := by
  induction t generalizing s with
  | nil =>
    cases h
    exact hs
  | cons c t ih =>
    obtain ⟨s₁, h₁, h⟩ := Option.bind_eq_some_iff.1 h
    exact hstep s c s₁ (step_moves h₁) (ih h)

end FusionMlx.JsonMachine
