import FusionMlx.Support.JsonText
import Mathlib.Data.List.DropRight

/-!
# Python strings

The string methods the service is written with, over lists of characters.
-/
namespace FusionMlx.PyText

open JsonText (Text)

def isSpace (c : Char) : Bool :=
  let n := c.toNat
  (0x9 ≤ n ∧ n ≤ 0xd) ∨ (0x1c ≤ n ∧ n ≤ 0x20) ∨ n = 0x85 ∨ n = 0xa0 ∨ n = 0x1680 ∨
    (0x2000 ≤ n ∧ n ≤ 0x200a) ∨ n = 0x2028 ∨ n = 0x2029 ∨ n = 0x202f ∨ n = 0x205f ∨ n = 0x3000

def lstrip (t : Text) : Text := t.dropWhile isSpace

def rstrip (t : Text) : Text := t.rdropWhile isSpace

def strip (t : Text) : Text := rstrip (lstrip t)

/-- White space only. -/
def Blank (t : Text) : Prop := ∀ c ∈ t, isSpace c = true

variable {a b t u : Text}

theorem Blank.nil : Blank [] := by simp [Blank]

theorem Blank.append (ha : Blank a) (hb : Blank b) : Blank (a ++ b) := by
  intro c hc
  rcases List.mem_append.1 hc with hc | hc
  · exact ha c hc
  · exact hb c hc

theorem Blank.not_mem {c : Char} (h : Blank t) (hc : isSpace c = false) : c ∉ t :=
  fun hmem => by simp [h c hmem] at hc

theorem lstrip_blank_append (ha : Blank a) (t : Text) : lstrip (a ++ t) = lstrip t := by
  induction a with
  | nil => rfl
  | cons c a ih =>
    rw [lstrip, List.cons_append, List.dropWhile_cons_of_pos (ha c (by simp))]
    exact ih (fun x hx => ha x (by simp [hx]))

theorem lstrip_eq_self {c : Char} (hc : isSpace c = false) (t : Text) : lstrip (c :: t) = c :: t :=
  List.dropWhile_cons_of_neg (by simp [hc])

theorem rstrip_append_blank (t : Text) (hb : Blank b) : rstrip (t ++ b) = rstrip t := by
  rw [rstrip, rstrip, List.rdropWhile, List.rdropWhile, List.reverse_append]
  have hrev : Blank b.reverse := fun c hc => hb c (List.mem_reverse.1 hc)
  exact congrArg List.reverse (lstrip_blank_append hrev t.reverse)

theorem rstrip_concat {c : Char} (hc : isSpace c = false) (t : Text) : rstrip (t ++ [c]) = t ++ [c] := by
  rw [rstrip, List.rdropWhile_concat_neg _ _ _ (by simp [hc])]

theorem rstrip_append (a : Text) (ht : rstrip t ≠ []) : rstrip (a ++ t) = a ++ rstrip t := by
  have hrev : rstrip t = (lstrip t.reverse).reverse := rfl
  have hne : (lstrip t.reverse) ≠ [] := fun h => ht (by rw [hrev, h]; rfl)
  rw [hrev]
  rw [rstrip, List.rdropWhile, List.reverse_append, List.dropWhile_append]
  rw [if_neg (by simpa [lstrip] using hne)]
  simp [lstrip]

theorem rstrip_length_le (t : Text) : (rstrip t).length ≤ t.length :=
  (List.rdropWhile_prefix isSpace t).length_le

/-- A text whose ends are no white space is what stripping leaves of it with more around it. -/
theorem strip_pad {c d : Char} (ha : Blank a) (hb : Blank b) (hc : isSpace c = false)
    (hd : isSpace d = false) (ht : t.head? = some c) (ht' : t.getLast? = some d) :
    strip (a ++ t ++ b) = t := by
  obtain ⟨u, rfl⟩ : ∃ u, t = c :: u := by
    cases t with
    | nil => cases ht
    | cons x u => exact ⟨u, by simpa using ht⟩
  rw [strip, List.append_assoc, lstrip_blank_append ha, List.cons_append, lstrip_eq_self hc,
    ← List.cons_append, rstrip_append_blank _ hb]
  rw [← List.dropLast_append_getLast? d ht']
  exact rstrip_concat hd _

/-- Stripping the front twice is stripping it once. -/
theorem lstrip_lstrip_append (a b : Text) : lstrip (lstrip a ++ b) = lstrip (a ++ b) := by
  induction a with
  | nil => rfl
  | cons c a ih =>
    by_cases hc : isSpace c = true
    · rw [lstrip, lstrip, List.dropWhile_cons_of_pos hc, List.cons_append, lstrip, List.dropWhile_cons_of_pos hc]
      exact ih
    · rw [lstrip_eq_self (by simpa using hc)]

/-- A front of white space does not stop the stripping. -/
theorem lstrip_append_of_head (a : Text) (hb : b = [] ∨ ∃ c u, b = c :: u ∧ isSpace c = false) :
    lstrip (a ++ b) = lstrip a ++ b := by
  rw [← lstrip_lstrip_append]
  cases ha : lstrip a with
  | nil =>
    rcases hb with rfl | ⟨c, u, rfl, hc⟩
    · rfl
    · exact lstrip_eq_self hc u
  | cons c l =>
    have hc : isSpace c = false := by
      have := List.head?_dropWhile_not isSpace a
      rw [← lstrip, ha] at this
      simpa using this
    exact lstrip_eq_self hc _

theorem strip_blank_append (ha : Blank a) (t : Text) : strip (a ++ t) = strip t := by
  rw [strip, lstrip_blank_append ha, strip]

theorem strip_append_blank (t : Text) (hb : Blank b) : strip (t ++ b) = strip t := by
  rw [strip, strip, ← lstrip_lstrip_append]
  cases ht : lstrip t with
  | nil => rw [List.nil_append, lstrip, List.dropWhile_eq_nil_iff.2 hb]
  | cons c l =>
    have hc : isSpace c = false := by
      have := List.head?_dropWhile_not isSpace t
      rw [← lstrip, ht] at this
      simpa using this
    rw [List.cons_append, lstrip_eq_self hc, ← List.cons_append, rstrip_append_blank _ hb]

theorem head_of_lstrip (h : lstrip t = t) (hne : t ≠ []) :
    ∃ c, t.head? = some c ∧ isSpace c = false := by
  cases t with
  | nil => exact absurd rfl hne
  | cons c u =>
    refine ⟨c, rfl, ?_⟩
    by_contra hc
    have hlen := (List.dropWhile_suffix isSpace (l := u)).length_le
    rw [lstrip, List.dropWhile_cons_of_pos (by simpa using hc)] at h
    rw [h, List.length_cons] at hlen
    omega

/-- A text that stripping leaves alone has no white space at its ends. -/
theorem ends_of_strip (h : strip t = t) (hne : t ≠ []) :
    ∃ c d, t.head? = some c ∧ isSpace c = false ∧ t.getLast? = some d ∧ isSpace d = false := by
  have hl : lstrip t = t := by
    have h₁ := (List.rdropWhile_prefix isSpace (lstrip t)).length_le
    rw [← rstrip, ← strip, h] at h₁
    exact (List.dropWhile_suffix isSpace (l := t)).eq_of_length_le h₁
  have hr : lstrip t.reverse = t.reverse := by
    rw [strip, hl, rstrip, List.rdropWhile] at h
    have := congrArg List.reverse h
    rwa [List.reverse_reverse] at this
  obtain ⟨c, hc, hcs⟩ := head_of_lstrip hl hne
  obtain ⟨d, hd, hds⟩ := head_of_lstrip hr (by simpa using hne)
  exact ⟨c, d, hc, hcs, by rwa [List.head?_reverse] at hd, hds⟩

end FusionMlx.PyText
