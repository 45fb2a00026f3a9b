import Mathlib.Data.List.Sort
import FusionMlx.Support.JsonDocuments

/-!
# Compact JSON

Values written without white space and with sorted keys. A written value is read
off a text whatever follows it, so that a text of several values and separators
has one reading.
-/
namespace FusionMlx.CompactJson

open JsonText (Text)

def numberChars : List Char := "0123456789+-.eENaInfity".toList

def numberHeads : List Char := "0123456789-NI".toList

structure Number where
  text : Text
  chars : ∀ c ∈ text, c ∈ numberChars
  head : ∃ c t, text = c :: t ∧ c ∈ numberHeads

theorem Number.ext {m n : Number} (h : m.text = n.text) : m = n := by
  cases m
  cases n
  cases h
  rfl

inductive Value (κ : Type) where
  | null
  | bool (b : Bool)
  | num (n : Number)
  | str (s : κ)
  | arr (items : List (Value κ))
  | obj (members : List (κ × Value κ))

variable {κ ι : Type}

section Canon

variable (le : κ → κ → Bool) (f : κ → ι)

mutual

def canon : Value κ → Value ι
  | .null => .null
  | .bool b => .bool b
  | .num n => .num n
  | .str s => .str (f s)
  | .arr items => .arr (canonItems items)
  | .obj members => .obj (((canonMembers members).mergeSort (fun a b => le a.1 b.1)).map (fun m => (f m.1, m.2)))

def canonItems : List (Value κ) → List (Value ι)
  | [] => []
  | v :: vs => canon v :: canonItems vs

def canonMembers : List (κ × Value κ) → List (κ × Value ι)
  | [] => []
  | (k, v) :: ms => (k, canon v) :: canonMembers ms

end

end Canon

abbrev CodeUnit := Fin 0x10000

def writeString (s : List CodeUnit) : Text := '\x22' :: s.flatMap (fun u => JsonText.escapeCode u.val) ++ ['\x22']

mutual

def write : Value (List CodeUnit) → Text
  | .null => ['n', 'u', 'l', 'l']
  | .bool true => ['t', 'r', 'u', 'e']
  | .bool false => ['f', 'a', 'l', 's', 'e']
  | .num n => n.text
  | .str s => writeString s
  | .arr [] => ['[', ']']
  | .arr (v :: vs) => '[' :: (write v ++ writeItems vs)
  | .obj [] => ['\x7b', '\x7d']
  | .obj ((k, v) :: ms) => '\x7b' :: (writeString k ++ ':' :: (write v ++ writeMembers ms))

def writeItems : List (Value (List CodeUnit)) → Text
  | [] => [']']
  | v :: vs => ',' :: (write v ++ writeItems vs)

def writeMembers : List (List CodeUnit × Value (List CodeUnit)) → Text
  | [] => ['\x7d']
  | (k, v) :: ms => ',' :: (writeString k ++ ':' :: (write v ++ writeMembers ms))

end

def Stops (r : Text) : Prop := ∀ c u, r = c :: u → c ∉ numberChars

theorem stops_cons {c : Char} (hc : c ∉ numberChars) (t : Text) : Stops (c :: t) := by
  intro x u h
  obtain ⟨rfl, -⟩ := List.cons.inj h
  exact hc

variable {r r' : Text}

/-- A number is what stands in front of the first other character. -/
theorem Number.append_inj {m n : Number} (hr : Stops r) (hr' : Stops r') (h : m.text ++ r = n.text ++ r') :
    m = n ∧ r = r' := by
  have htake : ∀ {n : Number} {r : Text}, Stops r → (n.text ++ r).takeWhile (· ∈ numberChars) = n.text := by
    intro n r hr
    rw [List.takeWhile_append_of_pos (by simpa using n.chars)]
    cases r with
    | nil => simp
    | cons c u => simp [hr c u rfl]
  have htext : m.text = n.text := by
    have := congrArg (List.takeWhile (· ∈ numberChars)) h
    rwa [htake hr, htake hr'] at this
  rw [htext] at h
  exact ⟨Number.ext htext, List.append_cancel_left h⟩

theorem units_codeUnit (s : List CodeUnit) : (s.map Fin.val).flatMap JsonText.units = s.map Fin.val := by
  induction s with
  | nil => rfl
  | cons u s ih =>
    rw [List.map_cons, List.flatMap_cons, ih, JsonText.units, if_pos u.isLt]
    rfl

/-- A string ends at its closing quote. -/
theorem writeString_append_inj {s s' : List CodeUnit} (h : writeString s ++ r = writeString s' ++ r') :
    s = s' ∧ r = r' := by
  have hscan : ∀ (s : List CodeUnit) (r : Text),
      JsonText.scanString (s.flatMap (fun u => JsonText.escapeCode u.val) ++ '\x22' :: r) =
      some (s.map Fin.val, r) := by
    intro s r
    have hlt : ∀ n ∈ s.map Fin.val, n < 0x110000 := by
      intro n hn
      obtain ⟨u, -, rfl⟩ := List.mem_map.1 hn
      omega
    have hread := JsonText.scanString_flatMap hlt r
    rwa [units_codeUnit, List.flatMap_map] at hread
  simp only [writeString, List.cons_append, List.append_assoc, List.nil_append, List.cons.injEq, true_and] at h
  have heq := congrArg JsonText.scanString h
  rw [hscan, hscan, Option.some.injEq, Prod.mk.injEq] at heq
  exact ⟨List.map_injective_iff.2 Fin.val_injective heq.1, heq.2⟩

def kind : Value κ → Fin 8
  | .null => 0
  | .bool true => 1
  | .bool false => 2
  | .num _ => 3
  | .str _ => 4
  | .arr _ => 5
  | .obj _ => 6

def kindOf (c : Char) : Fin 8 :=
  if c = 'n' then 0 else if c = 't' then 1 else if c = 'f' then 2 else if c = '\x22' then 4 else if c = '[' then 5
  else if c = '\x7b' then 6 else if c ∈ numberHeads then 3 else 7

theorem write_head (v : Value (List CodeUnit)) : ∃ c t, write v = c :: t ∧ kindOf c = kind v := by
  cases v with
  | null => exact ⟨_, _, by rw [write], rfl⟩
  | bool b => cases b <;> exact ⟨_, _, by rw [write], rfl⟩
  | num n =>
    obtain ⟨c, t, htext, hc⟩ := n.head
    refine ⟨c, t, by rw [write, htext], ?_⟩
    have hall : numberHeads.all (fun c => decide (kindOf c = 3)) = true := by decide
    exact of_decide_eq_true (List.all_eq_true.1 hall c hc)
  | str s => exact ⟨_, _, by rw [write]; rfl, rfl⟩
  | arr items => cases items <;> exact ⟨_, _, by rw [write], rfl⟩
  | obj members =>
    cases members with
    | nil => exact ⟨_, _, by rw [write], rfl⟩
    | cons m ms => exact ⟨_, _, by rw [write], rfl⟩

theorem kind_eq {v w : Value (List CodeUnit)} (h : write v ++ r = write w ++ r') : kind v = kind w := by
  obtain ⟨c, t, hv, hc⟩ := write_head v
  obtain ⟨d, u, hw, hd⟩ := write_head w
  rw [hv, hw] at h
  rw [← hc, ← hd, (List.cons.inj h).1]

theorem write_ne_close {v : Value (List CodeUnit)} {c : Char} (hc : kindOf c = 7) :
    write v ++ r ≠ c :: r' := by
  intro h
  obtain ⟨d, u, hv, hd⟩ := write_head v
  rw [hv, List.cons_append] at h
  rw [(List.cons.inj h).1, hc] at hd
  cases v with
  | bool b => cases b <;> cases hd
  | null | num | str | arr | obj => cases hd

theorem stops_items (vs : List (Value (List CodeUnit))) (r : Text) : Stops (writeItems vs ++ r) := by
  cases vs with
  | nil => exact stops_cons (by decide) _
  | cons v vs => exact stops_cons (by decide) _

theorem stops_members (ms : List (List CodeUnit × Value (List CodeUnit))) (r : Text) : Stops (writeMembers ms ++ r) := by
  cases ms with
  | nil => exact stops_cons (by decide) _
  | cons m ms => exact stops_cons (by decide) _

mutual

/-- A written value is read off the text in front of what no number goes on with. -/
theorem write_append_inj : ∀ (v w : Value (List CodeUnit)) {r r' : Text}, Stops r → Stops r' →
    write v ++ r = write w ++ r' → v = w ∧ r = r'
  | .null, w, r, r', hr, hr', h => by
    have hkind := kind_eq h
    cases w with
    | null => exact ⟨rfl, List.append_cancel_left h⟩
    | bool b => cases b <;> cases hkind
    | num | str | arr | obj => cases hkind
  | .bool b, w, r, r', hr, hr', h => by
    have hkind := kind_eq h
    cases w with
    | bool c =>
      cases b <;> cases c <;> first | exact ⟨rfl, List.append_cancel_left h⟩ | cases hkind
    | null | num | str | arr | obj => cases b <;> cases hkind
  | .num n, w, r, r', hr, hr', h => by
    have hkind := kind_eq h
    cases w with
    | num m =>
      rw [write, write] at h
      obtain ⟨rfl, hrest⟩ := Number.append_inj hr hr' h
      exact ⟨rfl, hrest⟩
    | bool b => cases b <;> cases hkind
    | null | str | arr | obj => cases hkind
  | .str s, w, r, r', hr, hr', h => by
    have hkind := kind_eq h
    cases w with
    | str s' =>
      rw [write, write] at h
      obtain ⟨rfl, hrest⟩ := writeString_append_inj h
      exact ⟨rfl, hrest⟩
    | bool b => cases b <;> cases hkind
    | null | num | arr | obj => cases hkind
  | .arr [], w, r, r', hr, hr', h => by
    have hkind := kind_eq h
    cases w with
    | arr items =>
      cases items with
      | nil => exact ⟨rfl, List.append_cancel_left h⟩
      | cons w ws =>
        simp only [write, List.cons_append, List.append_assoc, List.cons.injEq, true_and, List.nil_append] at h
        exact absurd h.symm (write_ne_close (by decide))
    | bool b => cases b <;> cases hkind
    | null | num | str | obj => cases hkind
  | .arr (v :: vs), w, r, r', hr, hr', h => by
    have hkind := kind_eq h
    cases w with
    | arr items =>
      cases items with
      | nil =>
        simp only [write, List.cons_append, List.append_assoc, List.cons.injEq, true_and, List.nil_append] at h
        exact absurd h (write_ne_close (by decide))
      | cons w ws =>
        simp only [write, List.cons_append, List.append_assoc, List.cons.injEq, true_and] at h
        obtain ⟨rfl, hitems⟩ := write_append_inj v w (stops_items vs r) (stops_items ws r') h
        obtain ⟨rfl, hrest⟩ := writeItems_append_inj vs ws hitems
        exact ⟨rfl, hrest⟩
    | bool b => cases b <;> cases hkind
    | null | num | str | obj => cases hkind
  | .obj [], w, r, r', hr, hr', h => by
    have hkind := kind_eq h
    cases w with
    | obj members =>
      cases members with
      | nil => exact ⟨rfl, List.append_cancel_left h⟩
      | cons m ms => simp [write, writeString] at h
    | bool b => cases b <;> cases hkind
    | null | num | str | arr => cases hkind
  | .obj ((k, v) :: ms), w, r, r', hr, hr', h => by
    have hkind := kind_eq h
    cases w with
    | obj members =>
      cases members with
      | nil => simp [write, writeString] at h
      | cons m ms' =>
        obtain ⟨k', w⟩ := m
        simp only [write, List.cons_append, List.append_assoc, List.cons.injEq, true_and] at h
        obtain ⟨rfl, hvalue⟩ := writeString_append_inj h
        obtain ⟨rfl, hmembers⟩ := write_append_inj v w (stops_members ms r) (stops_members ms' r') (List.cons.inj hvalue).2
        obtain ⟨rfl, hrest⟩ := writeMembers_append_inj ms ms' hmembers
        exact ⟨rfl, hrest⟩
    | bool b => cases b <;> cases hkind
    | null | num | str | arr => cases hkind

theorem writeItems_append_inj : ∀ (vs ws : List (Value (List CodeUnit))) {r r' : Text},
    writeItems vs ++ r = writeItems ws ++ r' → vs = ws ∧ r = r'
  | [], ws, r, r', h => by
    cases ws with
    | nil => exact ⟨rfl, List.append_cancel_left h⟩
    | cons w ws => simp [writeItems] at h
  | v :: vs, ws, r, r', h => by
    cases ws with
    | nil => simp [writeItems] at h
    | cons w ws =>
      simp only [writeItems, List.cons_append, List.append_assoc, List.cons.injEq, true_and] at h
      obtain ⟨rfl, hitems⟩ := write_append_inj v w (stops_items vs r) (stops_items ws r') h
      obtain ⟨rfl, hrest⟩ := writeItems_append_inj vs ws hitems
      exact ⟨rfl, hrest⟩

theorem writeMembers_append_inj : ∀ (ms ns : List (List CodeUnit × Value (List CodeUnit))) {r r' : Text},
    writeMembers ms ++ r = writeMembers ns ++ r' → ms = ns ∧ r = r'
  | [], ns, r, r', h => by
    cases ns with
    | nil => exact ⟨rfl, List.append_cancel_left h⟩
    | cons n ns => simp [writeMembers] at h
  | (k, v) :: ms, ns, r, r', h => by
    cases ns with
    | nil => simp [writeMembers] at h
    | cons n ns =>
      obtain ⟨k', w⟩ := n
      simp only [writeMembers, List.cons_append, List.append_assoc, List.cons.injEq, true_and] at h
      obtain ⟨rfl, hvalue⟩ := writeString_append_inj h
      obtain ⟨rfl, hmembers⟩ := write_append_inj v w (stops_members ms r) (stops_members ns r') (List.cons.inj hvalue).2
      obtain ⟨rfl, hrest⟩ := writeMembers_append_inj ms ns hmembers
      exact ⟨rfl, hrest⟩

end

abbrev CodePoint := Fin 0x110000

def units (n : CodePoint) : List CodeUnit :=
  if h : n.val < 0x10000 then [⟨n.val, h⟩]
  else [⟨0xD800 + (n.val - 0x10000) / 1024, by omega⟩, ⟨0xDC00 + (n.val - 0x10000) % 1024, by omega⟩]

def utf16 (s : List CodePoint) : List CodeUnit := s.flatMap units

def keyLe : List CodePoint → List CodePoint → Bool
  | [], _ => true
  | _ :: _, [] => false
  | a :: as, b :: bs => decide (a < b) || (decide (a = b) && keyLe as bs)

def json (v : Value (List CodePoint)) : Value (List CodeUnit) := canon keyLe utf16 v

def dumps (v : Value (List CodePoint)) : Text := write (json v)

theorem dumps_append_inj {v w : Value (List CodePoint)} (hr : Stops r) (hr' : Stops r')
    (h : dumps v ++ r = dumps w ++ r') : json v = json w ∧ r = r' :=
  write_append_inj _ _ hr hr' h

end FusionMlx.CompactJson
