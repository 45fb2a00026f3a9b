import FusionMlx.Support.JsonText

/-!
# Written strings

What the decoder reads back from a string that was written, escape by escape.
-/
namespace FusionMlx.JsonText

def hexDigit (n : Nat) : Char := if n < 10 then Char.ofNat (48 + n) else Char.ofNat (87 + n)

def unicodeEscape (n : Nat) : Text :=
  ['\\', 'u', hexDigit (n / 4096 % 16), hexDigit (n / 256 % 16), hexDigit (n / 16 % 16), hexDigit (n % 16)]

def escapeCode (n : Nat) : Text :=
  if n = 0x22 then ['\\', '\x22']
  else if n = 0x5C then ['\\', '\\']
  else if n = 10 then ['\\', 'n']
  else if n = 13 then ['\\', 'r']
  else if n = 9 then ['\\', 't']
  else if n = 12 then ['\\', 'f']
  else if n = 8 then ['\\', 'b']
  else if 0x20 ≤ n ∧ n ≤ 0x7E then [Char.ofNat n]
  else if n < 0x10000 then unicodeEscape n
  else unicodeEscape (0xD800 + (n - 0x10000) / 1024) ++ unicodeEscape (0xDC00 + (n - 0x10000) % 1024)

def units (n : Nat) : List Nat :=
  if n < 0x10000 then [n] else [0xD800 + (n - 0x10000) / 1024, 0xDC00 + (n - 0x10000) % 1024]

variable {t : Text} {cs : List Nat}
variable {n : Nat}

theorem hexValue_hexDigit (hn : n < 16) : hexValue (hexDigit n) = some n := by
  have h : ∀ k : Fin 16, hexValue (hexDigit k) = some k.val := by decide
  exact h ⟨n, hn⟩

theorem hex4_digits (hn : n < 0x10000) (t : Text) :
    hex4 (hexDigit (n / 4096 % 16) :: hexDigit (n / 256 % 16) :: hexDigit (n / 16 % 16) :: hexDigit (n % 16) :: t) =
      some (n, t) := by
  have h₁ : hexValue (hexDigit (n / 4096 % 16)) = some (n / 4096 % 16) := hexValue_hexDigit (by omega)
  have h₂ : hexValue (hexDigit (n / 256 % 16)) = some (n / 256 % 16) := hexValue_hexDigit (by omega)
  have h₃ : hexValue (hexDigit (n / 16 % 16)) = some (n / 16 % 16) := hexValue_hexDigit (by omega)
  have h₄ : hexValue (hexDigit (n % 16)) = some (n % 16) := hexValue_hexDigit (by omega)
  simp only [hex4, h₁, h₂, h₃, h₄, Option.some.injEq, Prod.mk.injEq, and_true]
  omega

theorem scanString_close (t : Text) : scanString ('\x22' :: t) = some ([], t) := by
  rw [scanString.eq_def]
  simp

theorem scanString_plain {c : Char} (hq : c ≠ '\x22') (hlow : ¬ c.toNat < 32) (hb : c ≠ '\\') (t : Text) :
    scanString (c :: t) = (scanString t).map (fun r => (c.toNat :: r.1, r.2)) := by
  rw [scanString.eq_def]
  simp [hq, hlow, hb]

/-- A one-letter escape. -/
theorem scanString_simple {x : Char} (hx : x ≠ 'u') (hn : simpleEscape x = some n) (t : Text) :
    scanString ('\\' :: x :: t) = (scanString t).map (fun r => (n :: r.1, r.2)) := by
  rw [scanString.eq_def]
  simp [hn, hx]

theorem scanString_unicodeEscape (hn : n < 0x10000) (t : Text) :
    scanString (unicodeEscape n ++ t) = (scanString t).map (fun r => (n :: r.1, r.2)) := by
  simp only [unicodeEscape, List.cons_append, List.nil_append]
  rw [scanString]
  simp only [hex4_digits hn []]
  simp

theorem plain_code (h₁ : 0x20 ≤ n) (h₂ : n ≤ 0x7E) : (Char.ofNat n).toNat = n := by
  have h : ∀ k : Fin 0x7F, (Char.ofNat k).toNat = k.val := by decide
  exact h ⟨n, by omega⟩

/-- The decoder reads a written code point back. -/
theorem scanString_escapeCode (hn : n < 0x110000) (t : Text) :
    scanString (escapeCode n ++ t) = (scanString t).map (fun r => (units n ++ r.1, r.2)) := by
  unfold escapeCode
  split_ifs with h₁ h₂ h₃ h₄ h₅ h₆ h₇ hplain hbmp
  · subst h₁; exact scanString_simple (by decide) (by decide) t
  · subst h₂; exact scanString_simple (by decide) (by decide) t
  · subst h₃; exact scanString_simple (by decide) (by decide) t
  · subst h₄; exact scanString_simple (by decide) (by decide) t
  · subst h₅; exact scanString_simple (by decide) (by decide) t
  · subst h₆; exact scanString_simple (by decide) (by decide) t
  · subst h₇; exact scanString_simple (by decide) (by decide) t
  · have hcode := plain_code hplain.1 hplain.2
    have hq : Char.ofNat n ≠ '\x22' := fun h => h₁ (by rw [← hcode, h]; rfl)
    have hb : Char.ofNat n ≠ '\\' := fun h => h₂ (by rw [← hcode, h]; rfl)
    rw [List.singleton_append, scanString_plain hq (by omega) hb, units, if_pos (by omega), hcode]
    rfl
  · rw [scanString_unicodeEscape hbmp, units, if_pos hbmp]
    rfl
  · rw [List.append_assoc, scanString_unicodeEscape (by omega), scanString_unicodeEscape (by omega), units, if_neg hbmp]
    simp [Option.map_map, Function.comp_def]

theorem scanString_flatMap (hcs : ∀ n ∈ cs, n < 0x110000) (r : Text) :
    scanString (cs.flatMap escapeCode ++ '\x22' :: r) = some (cs.flatMap units, r) := by
  induction cs with
  | nil => exact scanString_close r
  | cons n cs ih =>
    rw [List.flatMap_cons, List.append_assoc, scanString_escapeCode (hcs n (by simp)),
      ih (fun m hm => hcs m (by simp [hm]))]
    rfl

end FusionMlx.JsonText
