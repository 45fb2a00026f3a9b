import FusionMlx.Support.JsonValues

/-!
# Repairing tool arguments

`repair_tool_call_json` reads the arguments of a tool call as JSON; what does not
read is closed where it ends and read again. What it returns is an object that it
returns unchanged.
-/
namespace FusionMlx.ToolJsonRepair

open JsonMachine

/-- Python's numbers: how they are written, and what `int` and `float` make of a string, by the text that is written. -/
structure Python extends Numbers where
  int : Str → Option Str
  float : Str → Option Str

def isSpace (n : Nat) : Bool :=
  (0x9 ≤ n ∧ n ≤ 0xd) ∨ (0x1c ≤ n ∧ n ≤ 0x20) ∨ n = 0x85 ∨ n = 0xa0 ∨ n = 0x1680 ∨
    (0x2000 ≤ n ∧ n ≤ 0x200a) ∨ n = 0x2028 ∨ n = 0x2029 ∨ n = 0x202f ∨ n = 0x205f ∨ n = 0x3000

def rstrip (t : Str) : Str := (t.reverse.dropWhile isSpace).reverse

def strip (t : Str) : Str := rstrip (t.dropWhile isSpace)

def closesNext (t : Str) : Bool :=
  match t.dropWhile isSpace with
  | [] => false
  | c :: _ => c == closeBrace || c == closeBracket

def subTrailing : Bool → Str → Str
  | _, [] => []
  | skip, c :: t =>
    if skip && isSpace c then subTrailing true t
    else if c == comma && closesNext t then subTrailing true t
    else c :: subTrailing false t

def subTrailingCommas (s : Str) : Str := subTrailing false s

def closeString (s : Str) : Str :=
  let (inStr, _) := s.foldl (fun (w : Bool × Bool) c =>
    if w.2 then (w.1, false)
    else if c = backslash then (w.1, true)
    else if c = quote then (!w.1, false)
    else w) (false, false)
  if inStr then s ++ [quote] else s

structure Scan where
  stack : List Nat := []
  inStr : Bool := false
  escaped : Bool := false
  lastCompleteEnd : Int := -1
  index : Nat := 0

def isPair (opener closer : Nat) : Bool :=
  (opener == openBrace && closer == closeBrace) || (opener == openBracket && closer == closeBracket)

def Scan.step (w : Scan) (c : Nat) : Scan :=
  let w' := { w with index := w.index + 1 }
  if w.inStr then
    if w.escaped then { w' with escaped := false }
    else if c = backslash then { w' with escaped := true }
    else if c = quote then { w' with inStr := false }
    else w'
  else if c = quote then { w' with inStr := true }
  else if c = openBrace ∨ c = openBracket then { w' with stack := c :: w.stack }
  else if c = closeBrace ∨ c = closeBracket then
    match w.stack with
    | [] => w'
    | opener :: stack =>
      if isPair opener c then
        { w' with stack, lastCompleteEnd := if stack = [] then w.index + 1 else w.lastCompleteEnd }
      else w'
  else w'

def scan (s : Str) : Scan := s.foldl Scan.step {}

def closerOf (opener : Nat) : Nat := if opener = openBrace then closeBrace else closeBracket

def Scan.rounds (w : Scan) : Nat := if w.inStr then if w.escaped then 2 else 1 else 0

theorem rounds_quote (w : Scan) (h : w.inStr = true) : (w.step quote).rounds < w.rounds := by
  have hne : quote ≠ backslash := by decide
  cases he : w.escaped <;> simp [Scan.step, Scan.rounds, h, he, hne]

def closeUnclosed (s : Str) : Str :=
  if (scan s).inStr then closeUnclosed (s ++ [quote])
  else if (scan s).stack = [] then
    subTrailingCommas (if (scan s).lastCompleteEnd > 0 then s.take (scan s).lastCompleteEnd.toNat else s)
  else subTrailingCommas (s ++ (scan s).stack.map closerOf)
termination_by (scan s).rounds
decreasing_by
  rename_i h
  rw [scan, List.foldl_append]
  exact rounds_quote (scan s) h

def emptyObject : Str := [openBrace, closeBrace]

def dumpsValue (v : Json) : Str := dumps (.obj [(codes "value", v)])

def lower (t : Str) : Str := t.map (fun c => if 0x41 ≤ c ∧ c ≤ 0x5A then c + 32 else c)

variable (P : Python)

def tryWrapScalar (s : Str) : Option Str :=
  let s := ((strip s).reverse.dropWhile (· = comma)).reverse
  if s = [] then none
  else if lower s = codes "true" then some (dumpsValue (.bool true))
  else if lower s = codes "false" then some (dumpsValue (.bool false))
  else if lower s = codes "null" then some (dumpsValue .null)
  else
    match P.int s with
    | some n => some (dumpsValue (.num n))
    | none =>
      match P.float s with
      | some x => some (dumpsValue (.num x))
      | none => if s.head? = some quote then (loads P.toNumbers (closeString s)).map dumpsValue else none

def repairTruncated (s : Str) : Str :=
  match subTrailingCommas s with
  | [] => emptyObject
  | c :: t =>
    if c = openBrace ∨ c = openBracket then closeUnclosed (c :: t)
    else (tryWrapScalar P (c :: t)).getD emptyObject

def dumpsObject : Json → Str
  | .obj ms => dumps (.obj ms)
  | v => dumpsValue v

def repair (raw : Str) : Str :=
  let s := strip raw
  if s = [] then emptyObject
  else
    match loads P.toNumbers s with
    | some v => dumpsObject v
    | none =>
      match loads P.toNumbers (repairTruncated P s) with
      | some v => dumpsObject v
      | none => emptyObject

variable {P} {t : Str} {v j : Json}

theorem strip_eq_self {c d : Nat} (t : Str) (hc : isSpace c = false) (hd : isSpace d = false) :
    strip (c :: t ++ [d]) = c :: t ++ [d] := by
  have hl : (c :: t ++ [d]).dropWhile isSpace = c :: t ++ [d] := by
    rw [List.cons_append, List.dropWhile_cons_of_neg (by simp [hc])]
  rw [strip, hl, rstrip, List.reverse_append, List.reverse_singleton, List.singleton_append,
    List.dropWhile_cons_of_neg (by simp [hd]), List.reverse_cons, List.reverse_reverse]

theorem dumpsMembers_end (ms : List (Str × Json)) : ∃ t, dumpsMembers ms = t ++ [closeBrace] := by
  induction ms with
  | nil => exact ⟨[], rfl⟩
  | cons m ms ih =>
    obtain ⟨t, ht⟩ := ih
    exact ⟨comma :: 0x20 :: (dumpsString m.1 ++ colon :: 0x20 :: (dumps m.2 ++ t)), by simp [dumpsMembers, ht]⟩

/-- A written object stands between braces. -/
theorem dumps_obj_braces (ms : List (Str × Json)) : ∃ t, dumps (.obj ms) = openBrace :: t ++ [closeBrace] := by
  cases ms with
  | nil => exact ⟨[], rfl⟩
  | cons m ms =>
    obtain ⟨t, ht⟩ := dumpsMembers_end ms
    exact ⟨dumpsString m.1 ++ colon :: 0x20 :: (dumps m.2 ++ t), by simp [dumps, ht]⟩

theorem strip_dumps_obj (ms : List (Str × Json)) : strip (dumps (.obj ms)) = dumps (.obj ms) := by
  obtain ⟨t, ht⟩ := dumps_obj_braces ms
  rw [ht]
  exact strip_eq_self t (by decide) (by decide)

/-- The value of an object, written, is returned as it is. -/
theorem repair_dumps {ms : List (Str × Json)} (h : Proper (.obj ms)) :
    repair P (dumps (value P.toNumbers (.obj ms))) = dumps (value P.toNumbers (.obj ms)) := by
  have hloads : loads P.toNumbers (dumps (value P.toNumbers (.obj ms))) = some (value P.toNumbers (.obj ms)) := loads_dumps h
  rw [value] at hloads ⊢
  obtain ⟨t, ht⟩ := dumps_obj_braces (dictOf (memberValues P.toNumbers ms))
  have hne : dumps (.obj (dictOf (memberValues P.toNumbers ms))) ≠ [] := by
    rw [ht]
    exact List.cons_ne_nil _ _
  rw [repair]
  simp only [strip_dumps_obj, if_neg hne, hloads]
  rfl

/-- A value is returned as an object. -/
theorem dumpsObject_eq (h : Proper j) :
    ∃ ms, Proper (.obj ms) ∧ dumpsObject (value P.toNumbers j) = dumps (value P.toNumbers (.obj ms)) := by
  have hwrap : Proper (.obj [(codes "value", j)]) := by
    refine .obj _ (fun m hm => ?_)
    rw [List.mem_singleton.1 hm]
    exact h
  cases h with
  | obj ms h => exact ⟨ms, .obj ms h, rfl⟩
  | null | bool | num | str | arr => exact ⟨_, hwrap, rfl⟩

/-- Whatever comes in, the value of an object is returned. -/
theorem repair_eq_dumps (P : Python) (raw : Str) :
    ∃ ms, Proper (.obj ms) ∧ repair P raw = dumps (value P.toNumbers (.obj ms)) := by
  have hempty : ∃ ms, Proper (.obj ms) ∧ emptyObject = dumps (value P.toNumbers (.obj ms)) :=
    ⟨[], .obj [] (fun m hm => (nomatch hm)), rfl⟩
  have hloads : ∀ {t v}, loads P.toNumbers t = some v →
      ∃ ms, Proper (.obj ms) ∧ dumpsObject v = dumps (value P.toNumbers (.obj ms)) := by
    intro t v h
    obtain ⟨j, hj, rfl⟩ := Option.map_eq_some_iff.1 h
    exact dumpsObject_eq (parse_proper hj)
  rw [repair]
  split
  · exact hempty
  · split
    · next v h => exact hloads h
    · split
      · next v h => exact hloads h
      · exact hempty

/-- A repaired text is repaired. -/
theorem repair_repair (P : Python) (raw : Str) : repair P (repair P raw) = repair P raw := by
  obtain ⟨ms, hms, h⟩ := repair_eq_dumps P raw
  rw [h]
  exact repair_dumps hms

end FusionMlx.ToolJsonRepair
