import Mathlib.Data.List.Basic
import Mathlib.Data.List.TakeDrop
import Mathlib.Data.List.TakeWhile

/-!
# JSON texts

The decoder of JSON documents in its strict form, over lists of characters, and
the walk that tracks nesting depth, strings and escapes one character at a
time. A value the decoder takes is balanced: the walk comes back to the depth
it started from, and inside an object or an array it stays above it.
-/
namespace FusionMlx.JsonText

abbrev Text := List Char

/-- Decoded strings are lists of code points, which may be surrogates; a number
keeps its literal. -/
inductive Json where
  | null
  | bool (b : Bool)
  | num (literal : Text)
  | str (codes : List Nat)
  | arr (items : List Json)
  | obj (members : List (List Nat × Json))

namespace Json

def isObj : Json → Bool
  | obj _ => true
  | _ => false

def get? (key : List Nat) : Json → Option Json
  | obj members => (members.reverse.find? (fun m => m.1 = key)).map Prod.snd
  | _ => none

end Json

def skipWs : Text → Text
  | [] => []
  | c :: t => if c = ' ' ∨ c = '\t' ∨ c = '\n' ∨ c = '\r' then skipWs t else c :: t

def isDigit (c : Char) : Bool := '0' ≤ c ∧ c ≤ '9'

def hexValue (c : Char) : Option Nat :=
  if '0' ≤ c ∧ c ≤ '9' then some (c.toNat - '0'.toNat)
  else if 'a' ≤ c ∧ c ≤ 'f' then some (c.toNat - 'a'.toNat + 10)
  else if 'A' ≤ c ∧ c ≤ 'F' then some (c.toNat - 'A'.toNat + 10)
  else none

def hex4 : Text → Option (Nat × Text)
  | a :: b :: c :: d :: t =>
    match hexValue a, hexValue b, hexValue c, hexValue d with
    | some a, some b, some c, some d => some (a * 4096 + b * 256 + c * 16 + d, t)
    | _, _, _, _ => none
  | _ => none

def simpleEscape (c : Char) : Option Nat :=
  if c = '\x22' ∨ c = '\\' ∨ c = '/' then some c.toNat
  else if c = 'b' then some 8
  else if c = 'f' then some 12
  else if c = 'n' then some 10
  else if c = 'r' then some 13
  else if c = 't' then some 9
  else none

/-- The rest of a string literal behind its opening quote; control characters are refused. The
codes come one for each escape, surrogates unpaired. -/
def scanString : Text → Option (List Nat × Text)
  | [] => none
  | c :: t =>
    if c = '\x22' then some ([], t)
    else if c.toNat < 32 then none
    else if c = '\\' then
      match t with
      | [] => none
      | 'u' :: a :: b :: d :: e :: t =>
        match hex4 [a, b, d, e] with
        | some (n, _) => (scanString t).map (fun r => (n :: r.1, r.2))
        | none => none
      | x :: t =>
        match simpleEscape x with
        | some n => (scanString t).map (fun r => (n :: r.1, r.2))
        | none => none
    else (scanString t).map (fun r => (c.toNat :: r.1, r.2))

def pairSurrogates : List Nat → List Nat
  | a :: b :: t =>
    if 0xD800 ≤ a ∧ a ≤ 0xDBFF ∧ 0xDC00 ≤ b ∧ b ≤ 0xDFFF then
      (0x10000 + (a - 0xD800) * 1024 + (b - 0xDC00)) :: pairSurrogates t
    else a :: pairSurrogates (b :: t)
  | t => t

def takeDigits : Text → Text × Text := List.span isDigit

def scanInt : Text → Option (Text × Text)
  | '-' :: t => (scanNat t).map (fun r => ('-' :: r.1, r.2))
  | t => scanNat t
where
  scanNat : Text → Option (Text × Text)
    | '0' :: t => some (['0'], t)
    | c :: t => if isDigit c then some (takeDigits (c :: t)) else none
    | [] => none

def scanFrac : Text → Text × Text
  | '.' :: t => if (takeDigits t).1 = [] then ([], '.' :: t) else ('.' :: (takeDigits t).1, (takeDigits t).2)
  | t => ([], t)

def scanExp : Text → Text × Text
  | [] => ([], [])
  | c :: t =>
    if c = 'e' ∨ c = 'E' then
      match t with
      | [] => ([], [c])
      | s :: u =>
        let sign := s = '+' ∨ s = '-'
        let digits := takeDigits (if sign then u else s :: u)
        if digits.1 = [] then ([], c :: s :: u)
        else (c :: (if sign then [s] else []) ++ digits.1, digits.2)
    else ([], c :: t)

def scanNumber (t : Text) : Option (Text × Text) :=
  (scanInt t).map (fun i =>
    let f := scanFrac i.2
    let e := scanExp f.2
    (i.1 ++ f.1 ++ e.1, e.2))

def words : List (Text × Json) :=
  [("null".toList, .null), ("true".toList, .bool true), ("false".toList, .bool false),
    ("NaN".toList, .num "NaN".toList), ("Infinity".toList, .num "Infinity".toList),
    ("-Infinity".toList, .num "-Infinity".toList)]

def scanWord (t : Text) : Option (Json × Text) :=
  (words.find? (fun w => w.1.isPrefixOf t)).map (fun w => (w.2, t.drop w.1.length))

mutual

def scanValue : Nat → Text → Option (Json × Text)
  | 0, _ => none
  | _ + 1, [] => none
  | n + 1, c :: t =>
    if c = '\x22' then (scanString t).map (fun r => (.str (pairSurrogates r.1), r.2))
    else if c = '{' then
      match skipWs t with
      | '}' :: t => some (.obj [], t)
      | t => (scanMembers n t).map (fun r => (.obj r.1, r.2))
    else if c = '[' then
      match skipWs t with
      | ']' :: t => some (.arr [], t)
      | t => (scanItems n t).map (fun r => (.arr r.1, r.2))
    else
      match scanNumber (c :: t) with
      | some r => some (.num r.1, r.2)
      | none => scanWord (c :: t)

def scanMembers : Nat → Text → Option (List (List Nat × Json) × Text)
  | 0, _ => none
  | n + 1, '\x22' :: t =>
    match scanString t with
    | none => none
    | some (key, t) =>
      match skipWs t with
      | ':' :: t =>
        match scanValue n (skipWs t) with
        | none => none
        | some (v, t) =>
          match skipWs t with
          | '}' :: t => some ([(pairSurrogates key, v)], t)
          | ',' :: t => (scanMembers n (skipWs t)).map (fun r => ((pairSurrogates key, v) :: r.1, r.2))
          | _ => none
      | _ => none
  | _ + 1, _ => none

def scanItems : Nat → Text → Option (List Json × Text)
  | 0, _ => none
  | n + 1, t =>
    match scanValue n t with
    | none => none
    | some (v, t) =>
      match skipWs t with
      | ']' :: t => some ([v], t)
      | ',' :: t => (scanItems n (skipWs t)).map (fun r => (v :: r.1, r.2))
      | _ => none

end

def loads (t : Text) : Option Json :=
  match scanValue (t.length + 1) (skipWs t) with
  | some (v, rest) => if skipWs rest = [] then some v else none
  | none => none

structure Walk where
  depth : Int := 0
  inString : Bool := false
  escape : Bool := false

variable {t u : Text}

namespace Walk

def step (w : Walk) (c : Char) : Walk :=
  if w.escape then { w with escape := false }
  else if w.inString then
    if c = '\\' then { w with escape := true }
    else if c = '\x22' then { w with inString := false }
    else w
  else if c = '\x22' then { w with inString := true }
  else if c = '{' ∨ c = '[' then { w with depth := w.depth + 1 }
  else if c = '}' ∨ c = ']' then { w with depth := w.depth - 1 }
  else w

def run (w : Walk) (t : Text) : Walk := t.foldl step w

@[simp] theorem run_nil (w : Walk) : w.run [] = w := rfl

@[simp] theorem run_cons (w : Walk) (c : Char) (t : Text) : w.run (c :: t) = (w.step c).run t := rfl

@[simp] theorem run_append (w : Walk) (t u : Text) : w.run (t ++ u) = (w.run t).run u :=
  List.foldl_append

def shift (w : Walk) (d : Int) : Walk := { w with depth := w.depth + d }

@[simp] theorem shift_zero (w : Walk) : w.shift 0 = w := by simp [shift]

theorem step_shift (w : Walk) (d : Int) (c : Char) : (w.shift d).step c = (w.step c).shift d := by
  obtain ⟨n, inString, escape⟩ := w
  cases escape <;> cases inString <;> simp only [step, shift, if_true, if_false, Bool.false_eq_true]
  · by_cases hq : c = '\x22'
    · simp [hq]
    by_cases ho : c = '{' ∨ c = '['
    · simp only [hq, ho, if_true, if_false]
      congr 1; omega
    · by_cases hc : c = '}' ∨ c = ']'
      · simp only [hq, ho, hc, if_true, if_false]
        congr 1; omega
      · simp only [hq, ho, hc, if_false]
  · by_cases hb : c = '\\'
    · simp [hb]
    · by_cases hq : c = '\x22' <;> simp [hb, hq]

theorem run_shift (w : Walk) (d : Int) (t : Text) : (w.shift d).run t = (w.run t).shift d := by
  induction t generalizing w with
  | nil => rfl
  | cons c t ih => rw [run_cons, run_cons, step_shift, ih]

def Stays (d : Int) : Walk → Text → Prop
  | w, [] => d ≤ w.depth
  | w, c :: t => d ≤ w.depth ∧ Stays d (w.step c) t

theorem stays_append (d : Int) (w : Walk) (t u : Text) :
    Stays d w (t ++ u) ↔ Stays d w t ∧ Stays d (w.run t) u := by
  induction t generalizing w with
  | nil =>
    cases u with
    | nil => simp [Stays]
    | cons c u => simp [Stays]
  | cons c t ih => simp only [List.cons_append, Stays, ih, run_cons, and_assoc]

theorem Stays.le {d : Int} {w : Walk} (h : Stays d w t) : d ≤ w.depth := by
  cases t with
  | nil => exact h
  | cons c t => exact h.1

/-- Every prefix ends at the depth or above. -/
theorem Stays.of_isPrefix {d : Int} {w : Walk} (h : Stays d w u) (ht : t <+: u) :
    d ≤ (w.run t).depth := by
  obtain ⟨v, rfl⟩ := ht
  exact ((stays_append d w t v).1 h).2.le

theorem stays_shift {d : Int} {w : Walk} (h : Stays d w t) (e : Int) :
    Stays (d + e) (w.shift e) t := by
  induction t generalizing w with
  | nil => exact Int.add_le_add_right h e
  | cons c t ih =>
    refine ⟨Int.add_le_add_right h.1 e, ?_⟩
    rw [step_shift]
    exact ih h.2

end Walk

open Walk

structure Level (t : Text) : Prop where
  back : run {} t = {}
  stays : Stays 0 {} t

/-- A character that moves no walk outside strings. -/
def Plain (c : Char) : Prop := c ≠ '\x22' ∧ c ≠ '{' ∧ c ≠ '[' ∧ c ≠ '}' ∧ c ≠ ']'

variable {c : Char}

theorem Plain.step (h : Plain c) : Walk.step {} c = {} := by
  simp [Walk.step, h.1, h.2.1, h.2.2.1, h.2.2.2.1, h.2.2.2.2]

namespace Level

theorem nil : Level [] := ⟨rfl, Int.le_refl 0⟩

theorem append (ht : Level t) (hu : Level u) : Level (t ++ u) := by
  refine ⟨by rw [run_append, ht.back, hu.back], (stays_append 0 {} t u).2 ⟨ht.stays, ?_⟩⟩
  rw [ht.back]
  exact hu.stays

theorem plain (h : ∀ c ∈ t, Plain c) : Level t := by
  induction t with
  | nil => exact nil
  | cons c t ih =>
    have hc := (h c (by simp)).step
    have ih := ih (fun x hx => h x (by simp [hx]))
    refine ⟨by rw [run_cons, hc, ih.back], Int.le_refl 0, ?_⟩
    rw [hc]
    exact ih.stays

/-- The walk over a balanced text inside brackets. -/
theorem inside (h : Level t) (d : Int) :
    run { depth := d } t = { depth := d } ∧ Stays d { depth := d } t := by
  have hshift : ({} : Walk).shift d = { depth := d } := by simp [shift]
  have hrun := run_shift {} d t
  have hstays := stays_shift h.stays d
  rw [h.back, hshift] at hrun
  rw [hshift, Int.zero_add] at hstays
  exact ⟨hrun, hstays⟩

end Level

def Enclosed (t : Text) : Prop :=
  ∃ o v c, t = o :: v ++ [c] ∧ (o = '{' ∨ o = '[') ∧ (c = '}' ∨ c = ']') ∧ Level v

theorem step_open {o : Char} (h : o = '{' ∨ o = '[') (d : Int) :
    Walk.step { depth := d } o = { depth := d + 1 } := by
  rcases h with rfl | rfl <;> simp [Walk.step]

theorem step_close (h : c = '}' ∨ c = ']') (d : Int) :
    Walk.step { depth := d } c = { depth := d - 1 } := by
  rcases h with rfl | rfl <;> simp [Walk.step]

theorem Enclosed.level (h : Enclosed t) : Level t := by
  obtain ⟨o, v, c, rfl, ho, hc, hv⟩ := h
  obtain ⟨hrun, hstays⟩ := hv.inside 1
  have ho' : Walk.step {} o = { depth := 1 } := step_open ho 0
  have hc' : Walk.step { depth := 1 } c = {} := step_close hc 1
  have hlow : Stays 0 { depth := 1 } v := by
    have hmono : ∀ {w : Walk} {t : Text}, Stays 1 w t → Stays 0 w t := by
      intro w t h
      induction t generalizing w with
      | nil => exact Int.le_trans (by decide) h
      | cons c t ih => exact ⟨Int.le_trans (by decide) h.1, ih h.2⟩
    exact hmono hstays
  refine ⟨?_, Int.le_refl 0, ?_⟩
  · rw [List.cons_append, run_cons, ho', run_append, hrun, run_cons, hc', run_nil]
  · rw [ho']
    refine (stays_append 0 _ v [c]).2 ⟨hlow, ?_⟩
    rw [hrun]
    exact ⟨by decide, by rw [hc']; exact Int.le_refl 0⟩

/-- Of two enclosed texts neither begins with the other. -/
theorem Enclosed.eq_of_prefix (ht : Enclosed t) (hu : Enclosed u) (h : t <+: u) :
    t = u := by
  obtain ⟨o, v, c, rfl, ho, hc, hv⟩ := hu
  have hback := ht.level.back
  obtain ⟨o', v', c', rfl, -⟩ := ht
  obtain ⟨rest, hrest⟩ := h
  have ho' : Walk.step {} o = { depth := 1 } := step_open ho 0
  have hhead : o' = o := (List.cons.inj hrest).1
  subst hhead
  have htail : v' ++ [c'] ++ rest = v ++ [c] := (List.cons.inj hrest).2
  cases hr : rest with
  | nil => simpa [hr] using hrest
  | cons x xs =>
    -- A proper beginning stays inside.
    have hpre : v' ++ [c'] <+: v := by
      rw [hr] at htail
      obtain ⟨ys, y, hxs⟩ : ∃ ys y, x :: xs = ys ++ [y] :=
        ⟨_, _, (List.dropLast_append_getLast (List.cons_ne_nil x xs)).symm⟩
      rw [hxs, ← List.append_assoc] at htail
      exact ⟨ys, (List.append_inj' htail rfl).1⟩
    have hdepth := (hv.inside 1).2.of_isPrefix hpre
    rw [List.cons_append, run_cons, ho'] at hback
    rw [hback] at hdepth
    exact absurd hdepth (by decide)

theorem skipWs_spec (t : Text) : ∃ w, t = w ++ skipWs t ∧
    ∀ c ∈ w, c = ' ' ∨ c = '\t' ∨ c = '\n' ∨ c = '\r' := by
  induction t with
  | nil => exact ⟨[], rfl, by simp⟩
  | cons c t ih =>
    obtain ⟨w, hw, hws⟩ := ih
    unfold skipWs
    split
    · rename_i hc
      refine ⟨c :: w, by rw [List.cons_append, ← hw], ?_⟩
      intro x hx
      rcases List.mem_cons.1 hx with rfl | hx
      · exact hc
      · exact hws x hx
    · exact ⟨[], rfl, by simp⟩

theorem plain_of_ws (h : c = ' ' ∨ c = '\t' ∨ c = '\n' ∨ c = '\r') : Plain c := by
  rcases h with rfl | rfl | rfl | rfl <;> simp [Plain]

theorem skipWs_level (t : Text) : ∃ w, t = w ++ skipWs t ∧ Level w := by
  obtain ⟨w, hw, hws⟩ := skipWs_spec t
  exact ⟨w, hw, .plain (fun c hc => plain_of_ws (hws c hc))⟩

def Inside (t : Text) : Prop :=
  ∀ d, run { depth := d, inString := true } t = { depth := d, inString := true } ∧
    Stays d { depth := d, inString := true } t

namespace Inside

theorem nil : Inside [] := fun d => ⟨rfl, Int.le_refl d⟩

theorem cons (hq : c ≠ '\x22') (hb : c ≠ '\\') (ht : Inside t) : Inside (c :: t) := by
  intro d
  have hstep : Walk.step { depth := d, inString := true } c = { depth := d, inString := true } := by
    simp [Walk.step, hq, hb]
  refine ⟨by rw [run_cons, hstep, (ht d).1], Int.le_refl d, ?_⟩
  rw [hstep]
  exact (ht d).2

theorem escape (x : Char) (ht : Inside t) : Inside ('\\' :: x :: t) := by
  intro d
  have hstep : Walk.step { depth := d, inString := true } '\\' =
      { depth := d, inString := true, escape := true } := by
    simp [Walk.step]
  have hx : Walk.step { depth := d, inString := true, escape := true } x =
      { depth := d, inString := true } := by
    simp [Walk.step]
  refine ⟨by rw [run_cons, run_cons, hstep, hx, (ht d).1], Int.le_refl d, ?_⟩
  rw [hstep]
  refine ⟨Int.le_refl d, ?_⟩
  rw [hx]
  exact (ht d).2

/-- A string literal is balanced. -/
theorem level (ht : Inside t) : Level ('\x22' :: t ++ ['\x22']) := by
  have ho : Walk.step {} '\x22' = { inString := true } := by simp [Walk.step]
  have hc : Walk.step { inString := true } '\x22' = {} := by simp [Walk.step]
  refine ⟨?_, Int.le_refl 0, ?_⟩
  · rw [List.cons_append, run_cons, ho, run_append, (ht 0).1, run_cons, hc, run_nil]
  · rw [ho]
    refine (stays_append 0 _ t ['\x22']).2 ⟨(ht 0).2, ?_⟩
    rw [(ht 0).1]
    exact ⟨Int.le_refl 0, by rw [hc]; exact Int.le_refl 0⟩

end Inside

theorem hexValue_char {n : Nat} (h : hexValue c = some n) : c ≠ '\x22' ∧ c ≠ '\\' := by
  constructor <;> rintro rfl <;> simp [hexValue] at h

theorem hex4_chars {a b d : Char} {r : Nat × Text} (h : hex4 [a, b, c, d] = some r) :
    ∀ x ∈ [a, b, c, d], x ≠ '\x22' ∧ x ≠ '\\' := by
  simp only [List.forall_mem_cons, List.not_mem_nil, false_implies, implies_true, and_true]
  simp only [hex4] at h
  cases ha : hexValue a <;> cases hb : hexValue b <;> cases hc : hexValue c <;>
    cases hd : hexValue d <;> simp [ha, hb, hc, hd] at h
  exact ⟨hexValue_char ha, hexValue_char hb, hexValue_char hc, hexValue_char hd⟩

theorem scanString_spec {r : List Nat × Text} (h : scanString t = some r) :
    ∃ u, t = u ++ '\x22' :: r.2 ∧ Inside u := by
  fun_induction scanString t generalizing r with
  | case1 => cases h
  | case2 t => cases h; exact ⟨[], rfl, .nil⟩
  | case3 => cases h
  | case4 => cases h
  | case5 a b d e t n rest hhex hq hlow ih =>
    obtain ⟨q, hstr, rfl⟩ := Option.map_eq_some_iff.1 h
    obtain ⟨u, rfl, hu⟩ := ih hstr
    refine ⟨'\\' :: 'u' :: a :: b :: d :: e :: u, rfl, .escape 'u' ?_⟩
    have hc := hex4_chars hhex
    simp only [List.forall_mem_cons, List.not_mem_nil, false_implies, implies_true, and_true] at hc
    exact .cons hc.1.1 hc.1.2 (.cons hc.2.1.1 hc.2.1.2 (.cons hc.2.2.1.1 hc.2.2.1.2
      (.cons hc.2.2.2.1 hc.2.2.2.2 hu)))
  | case6 => cases h
  | case7 x t _ n _ _ _ ih =>
    obtain ⟨q, hstr, rfl⟩ := Option.map_eq_some_iff.1 h
    obtain ⟨u, rfl, hu⟩ := ih hstr
    exact ⟨'\\' :: x :: u, rfl, .escape x hu⟩
  | case8 => cases h
  | case9 c t hq _ hb ih =>
    obtain ⟨q, hstr, rfl⟩ := Option.map_eq_some_iff.1 h
    obtain ⟨u, rfl, hu⟩ := ih hstr
    exact ⟨c :: u, rfl, .cons hq hb hu⟩

theorem plain_of_digit (h : isDigit c) : Plain c := by
  unfold isDigit at h
  refine ⟨?_, ?_, ?_, ?_, ?_⟩ <;> rintro rfl <;> simp at h

theorem takeDigits_spec (t : Text) :
    t = (takeDigits t).1 ++ (takeDigits t).2 ∧ ∀ c ∈ (takeDigits t).1, Plain c := by
  unfold takeDigits
  rw [List.span_eq_takeWhile_dropWhile]
  exact ⟨List.takeWhile_append_dropWhile.symm,
    fun c hc => plain_of_digit (List.mem_takeWhile_imp hc)⟩

theorem scanNat_spec {r : Text × Text} (h : scanInt.scanNat t = some r) :
    t = r.1 ++ r.2 ∧ ∀ c ∈ r.1, Plain c := by
  unfold scanInt.scanNat at h
  split at h
  · cases h
    exact ⟨rfl, by simp [Plain]⟩
  · split at h
    · cases h
      exact takeDigits_spec _
    · cases h
  · cases h

theorem scanInt_spec {r : Text × Text} (h : scanInt t = some r) :
    t = r.1 ++ r.2 ∧ ∀ c ∈ r.1, Plain c := by
  unfold scanInt at h
  split at h
  · obtain ⟨q, hq, rfl⟩ := Option.map_eq_some_iff.1 h
    obtain ⟨ht, hp⟩ := scanNat_spec hq
    refine ⟨by rw [ht]; rfl, ?_⟩
    intro c hc
    rcases List.mem_cons.1 hc with rfl | hc
    · simp [Plain]
    · exact hp c hc
  · exact scanNat_spec h

theorem scanFrac_spec (t : Text) :
    t = (scanFrac t).1 ++ (scanFrac t).2 ∧ ∀ c ∈ (scanFrac t).1, Plain c := by
  unfold scanFrac
  split
  · rename_i t
    split
    · exact ⟨rfl, by simp⟩
    · obtain ⟨ht, hp⟩ := takeDigits_spec t
      refine ⟨by rw [List.cons_append, ← ht], ?_⟩
      intro c hc
      rcases List.mem_cons.1 hc with rfl | hc
      · simp [Plain]
      · exact hp c hc
  · exact ⟨rfl, by simp⟩

theorem scanExp_spec (t : Text) :
    t = (scanExp t).1 ++ (scanExp t).2 ∧ ∀ c ∈ (scanExp t).1, Plain c := by
  match t with
  | [] => exact ⟨rfl, by simp [scanExp]⟩
  | [c] =>
    simp only [scanExp]
    split <;> exact ⟨rfl, by simp⟩
  | c :: s :: u =>
    simp only [scanExp]
    split
    · rename_i hc
      have hcp : Plain c := by rcases hc with rfl | rfl <;> simp [Plain]
      by_cases hs : s = '+' ∨ s = '-'
      · have hsp : Plain s := by rcases hs with rfl | rfl <;> simp [Plain]
        obtain ⟨ht, hp⟩ := takeDigits_spec u
        simp only [hs, if_true]
        split
        · exact ⟨rfl, by simp⟩
        · refine ⟨by simp [← ht], ?_⟩
          intro x hx
          simp only [List.cons_append, List.nil_append, List.mem_cons] at hx
          rcases hx with rfl | rfl | hx
          · exact hcp
          · exact hsp
          · exact hp x hx
      · obtain ⟨ht, hp⟩ := takeDigits_spec (s :: u)
        simp only [hs, if_false]
        split
        · exact ⟨rfl, by simp⟩
        · refine ⟨by simp [← ht], ?_⟩
          intro x hx
          simp only [List.cons_append, List.nil_append, List.mem_cons] at hx
          rcases hx with rfl | hx
          · exact hcp
          · exact hp x hx
    · exact ⟨rfl, by simp⟩

theorem scanNumber_spec {r : Text × Text} (h : scanNumber t = some r) :
    t = r.1 ++ r.2 ∧ ∀ c ∈ r.1, Plain c := by
  obtain ⟨i, hi, rfl⟩ := Option.map_eq_some_iff.1 h
  obtain ⟨h₁, p₁⟩ := scanInt_spec hi
  obtain ⟨h₂, p₂⟩ := scanFrac_spec i.2
  obtain ⟨h₃, p₃⟩ := scanExp_spec (scanFrac i.2).2
  refine ⟨by rw [h₁]; simp only [List.append_assoc]; rw [← h₃, ← h₂], ?_⟩
  intro c hc
  simp only [List.mem_append] at hc
  rcases hc with (hc | hc) | hc
  · exact p₁ c hc
  · exact p₂ c hc
  · exact p₃ c hc

theorem scanWord_spec {r : Json × Text} (h : scanWord t = some r) :
    ∃ u, t = u ++ r.2 ∧ ∀ c ∈ u, Plain c := by
  obtain ⟨w, hw, rfl⟩ := Option.map_eq_some_iff.1 h
  have hpre := List.find?_some hw
  have hmem := List.mem_of_find?_eq_some hw
  obtain ⟨v, rfl⟩ := List.isPrefixOf_iff_prefix.1 hpre
  refine ⟨w.1, by simp, ?_⟩
  have hall : ∀ w ∈ words, ∀ c ∈ w.1, Plain c := by
    simp [words, Plain]
  exact hall w hmem

def Taken (t r : Text) : Prop :=
  ∃ u, t = u ++ r ∧ Level u ∧ ((∃ v, t = '{' :: v ∨ t = '[' :: v) → Enclosed u)

theorem Taken.plain {r : Text} (ht : t = u ++ r) (hp : ∀ c ∈ u, Plain c)
    (hn : ¬ ∃ v, t = '{' :: v ∨ t = '[' :: v) : Taken t r :=
  ⟨u, ht, .plain hp, fun h => absurd h hn⟩

theorem Taken.enclosed {o : Char} {w v r : Text} (ho : o = '{' ∨ o = '[') (hc : c = '}' ∨ c = ']')
    (ht : t = w ++ (v ++ c :: r)) (hw : Level w) (hv : Level v) : Taken (o :: t) r := by
  have henc : Enclosed (o :: (w ++ v) ++ [c]) := ⟨o, w ++ v, c, rfl, ho, hc, hw.append hv⟩
  exact ⟨o :: (w ++ v) ++ [c], by simp [ht], henc.level, fun _ => henc⟩

structure Scans (n : Nat) : Prop where
  value : ∀ {t r}, scanValue n t = some r → Taken t r.2
  members : ∀ {t r}, scanMembers n t = some r → ∃ u, t = u ++ '}' :: r.2 ∧ Level u
  items : ∀ {t r}, scanItems n t = some r → ∃ u, t = u ++ ']' :: r.2 ∧ Level u

theorem Scans.value_succ {n : Nat} (ih : Scans n) {r : Json × Text}
    (h : scanValue (n + 1) t = some r) : Taken t r.2 := by
  cases t with
  | nil => simp [scanValue] at h
  | cons c t =>
    rw [scanValue] at h
    split at h
    · rename_i hc
      obtain ⟨q, hq, rfl⟩ := Option.map_eq_some_iff.1 h
      obtain ⟨u, rfl, hu⟩ := scanString_spec hq
      subst hc
      exact ⟨'\x22' :: u ++ ['\x22'], by simp, hu.level, by simp⟩
    split at h
    · rename_i hc
      subst hc
      obtain ⟨w, hw, hlw⟩ := skipWs_level t
      split at h
      · rename_i t' heq
        cases h
        exact .enclosed (.inl rfl) (.inl rfl) (by rw [List.nil_append, ← heq]; exact hw) hlw .nil
      · obtain ⟨q, hq, rfl⟩ := Option.map_eq_some_iff.1 h
        obtain ⟨u, hu, hlu⟩ := ih.members hq
        exact .enclosed (.inl rfl) (.inl rfl) (hu ▸ hw) hlw hlu
    split at h
    · rename_i hc
      subst hc
      obtain ⟨w, hw, hlw⟩ := skipWs_level t
      split at h
      · rename_i t' heq
        cases h
        exact .enclosed (.inr rfl) (.inr rfl) (by rw [List.nil_append, ← heq]; exact hw) hlw .nil
      · obtain ⟨q, hq, rfl⟩ := Option.map_eq_some_iff.1 h
        obtain ⟨u, hu, hlu⟩ := ih.items hq
        exact .enclosed (.inr rfl) (.inr rfl) (hu ▸ hw) hlw hlu
    · rename_i hbrace hbracket
      have hn : ¬ ∃ v, c :: t = '{' :: v ∨ c :: t = '[' :: v := by
        simp [hbrace, hbracket]
      split at h
      · rename_i q hq
        cases h
        obtain ⟨ht, hp⟩ := scanNumber_spec hq
        exact .plain ht hp hn
      · obtain ⟨u, ht, hp⟩ := scanWord_spec h
        exact .plain ht hp hn

/-- A comma or colon between two balanced texts. -/
theorem Level.between (ht : Level t) (hc : Plain c) (hu : Level u) :
    Level (t ++ c :: u) :=
  ht.append ((Level.plain (by simpa using hc)).append hu : Level ([c] ++ u))

theorem Scans.items_succ {n : Nat} (ih : Scans n) {r : List Json × Text}
    (h : scanItems (n + 1) t = some r) : ∃ u, t = u ++ ']' :: r.2 ∧ Level u := by
  rw [scanItems] at h
  split at h
  · cases h
  · rename_i v t' hv
    obtain ⟨u, rfl, hu, -⟩ := ih.value hv
    obtain ⟨w, hw, hlw⟩ := skipWs_level t'
    split at h
    · rename_i t'' heq
      cases h
      rw [heq] at hw
      exact ⟨u ++ w, by simp [hw], hu.append hlw⟩
    · rename_i t'' heq
      obtain ⟨q, hq, rfl⟩ := Option.map_eq_some_iff.1 h
      obtain ⟨x, hx, hlx⟩ := skipWs_level t''
      obtain ⟨y, hy, hly⟩ := ih.items hq
      rw [heq, hx, hy] at hw
      exact ⟨u ++ w ++ ',' :: (x ++ y), by simp [hw],
        (hu.append hlw).between (by simp [Plain]) (hlx.append hly)⟩
    · cases h

theorem Scans.members_succ {n : Nat} (ih : Scans n) {r : List (List Nat × Json) × Text}
    (h : scanMembers (n + 1) t = some r) : ∃ u, t = u ++ '}' :: r.2 ∧ Level u := by
  unfold scanMembers at h
  split at h
  · cases h
  · rename_i n' t' heqn
    cases heqn
    split at h
    · cases h
    · rename_i key t'' hkey
      obtain ⟨k, hk, hlk⟩ := scanString_spec hkey
      obtain ⟨w, hw, hlw⟩ := skipWs_level t''
      split at h
      · rename_i t₁ hcolon
        obtain ⟨x, hx, hlx⟩ := skipWs_level t₁
        split at h
        · cases h
        · rename_i v t₂ hv
          obtain ⟨u, hu, hlu, -⟩ := ih.value hv
          obtain ⟨y, hy, hly⟩ := skipWs_level t₂
          have hlead : Level ('\x22' :: k ++ ['\x22'] ++ w ++ ':' :: (x ++ u ++ y)) :=
            (hlk.level.append hlw).between (by simp [Plain]) ((hlx.append hlu).append hly)
          have ht : '\x22' :: t' = '\x22' :: k ++ ['\x22'] ++ w ++ ':' :: (x ++ u ++ y) ++ skipWs t₂ := by
            rw [hk, hw, hcolon, hx, hu]
            conv_lhs => rw [hy]
            simp
          split at h
          · rename_i t₃ heq
            cases h
            rw [heq] at ht
            exact ⟨_, ht, hlead⟩
          · rename_i t₃ heq
            obtain ⟨q, hq, rfl⟩ := Option.map_eq_some_iff.1 h
            obtain ⟨z, hz, hlz⟩ := skipWs_level t₃
            obtain ⟨m, hm, hlm⟩ := ih.members hq
            rw [heq, hz, hm] at ht
            exact ⟨_ ++ ',' :: (z ++ m), by rw [ht]; simp, hlead.between (by simp [Plain]) (hlz.append hlm)⟩
          · cases h
      · cases h
  · cases h

theorem scans (n : Nat) : Scans n := by
  induction n with
  | zero => exact ⟨by simp [scanValue], by simp [scanMembers], by simp [scanItems]⟩
  | succ n ih => exact ⟨ih.value_succ, ih.members_succ, ih.items_succ⟩

/-- A document without outer white space that starts with a bracket is between its brackets. -/
theorem enclosed_of_loads {v : Json} (h : loads t = some v)
    (ht : ∃ u, t = '{' :: u ∨ t = '[' :: u) : ∃ u w, t = u ++ w ∧ Enclosed u ∧ skipWs w = [] := by
  have hskip : skipWs t = t := by
    obtain ⟨u, rfl | rfl⟩ := ht <;> simp [skipWs]
  unfold loads at h
  rw [hskip] at h
  split at h
  · rename_i w rest hscan
    split at h
    · rename_i hrest
      obtain ⟨u, hu, -, henc⟩ := (scans _).value hscan
      exact ⟨u, rest, hu, henc ht, hrest⟩
    · cases h
  · cases h

/-- With no white space behind it either, the document is between its brackets. -/
theorem enclosed_of_outer {v : Json} (h : loads t = some v)
    (ht : ∃ u, t = '{' :: u ∨ t = '[' :: u) {x : Char} (hx : t.getLast? = some x)
    (hws : ¬ (x = ' ' ∨ x = '\t' ∨ x = '\n' ∨ x = '\r')) : Enclosed t := by
  obtain ⟨u, w, rfl, henc, hw⟩ := enclosed_of_loads h ht
  obtain ⟨ws, hws', hspace⟩ := skipWs_spec w
  rw [hw, List.append_nil] at hws'
  subst hws'
  rcases List.eq_nil_or_concat w with rfl | ⟨l, y, rfl⟩
  · rwa [List.append_nil]
  · rw [List.concat_eq_append, ← List.append_assoc, List.getLast?_concat] at hx
    obtain rfl : y = x := by simpa using hx
    exact absurd (hspace y (by simp)) hws

end FusionMlx.JsonText
