import FusionMlx.Support.PatternSearch

/-!
# Occurrences of patterns

Where a pattern stands in a text, by its position, and the search from a
position on. A text that none of several patterns stands in is free of them.
-/
namespace FusionMlx.TextSearch

variable {α : Type} {sep t a b : List α} {seps : List (List α)} {i j start : Nat}

def OccursAt (sep t : List α) (i : Nat) : Prop := sep <+: t.drop i

theorem OccursAt.le (hsep : sep ≠ []) (h : OccursAt sep t i) : i + sep.length ≤ t.length := by
  have hpos := List.length_pos_iff.2 hsep
  have hlen := List.IsPrefix.length_le h
  rw [List.length_drop] at hlen
  omega

/-- An occurrence that ends in front stands there whatever comes behind. -/
theorem occursAt_append (h : i + sep.length ≤ a.length) : OccursAt sep (a ++ b) i ↔ OccursAt sep a i := by
  unfold OccursAt
  rw [List.drop_append_of_le_length (by omega)]
  constructor
  · intro hpre
    exact (List.isPrefix_append_of_length (by rw [List.length_drop]; omega)).1 hpre
  · intro hpre
    exact hpre.trans (List.prefix_append ..)

theorem occursAt_append_left (hsep : sep ≠ []) (h : OccursAt sep a i) (b : List α) : OccursAt sep (a ++ b) i :=
  (occursAt_append (h.le hsep)).2 h

theorem occursAt_drop : OccursAt sep (t.drop start) i ↔ OccursAt sep t (start + i) := by
  rw [OccursAt, OccursAt, List.drop_drop]

theorem OccursAt.of_take (h : OccursAt sep (t.take j) i) : OccursAt sep t i := by
  rw [OccursAt, List.drop_take] at h
  exact h.trans (List.take_prefix ..)

theorem OccursAt.infix (h : OccursAt sep t i) : sep <:+: t :=
  List.IsInfix.trans (List.IsPrefix.isInfix h) (List.drop_suffix i t).isInfix

theorem occursAt_of_eq (h : t = a ++ sep ++ b) : OccursAt sep t a.length := by
  rw [OccursAt, h, List.append_assoc, List.drop_left]
  exact List.prefix_append ..

section Search

variable [DecidableEq α]

instance (sep t : List α) (i : Nat) : Decidable (OccursAt sep t i) := inferInstanceAs (Decidable (sep <+: t.drop i))

def findFrom (sep : List α) (start : Nat) (t : List α) : Option Nat := (find sep (t.drop start)).map (start + ·)

/-- The first occurrence, by its position. -/
theorem find_some_iff (hsep : sep ≠ []) : find sep t = some i ↔ OccursAt sep t i ∧ ∀ j < i, ¬ OccursAt sep t j := by
  have hfirst : ∀ {i}, find sep t = some i → OccursAt sep t i ∧ ∀ j < i, ¬ OccursAt sep t j := by
    intro i h
    obtain ⟨⟨x, y⟩, hpart, rfl⟩ := Option.map_eq_some_iff.1 h
    refine ⟨occursAt_of_eq (partition_some hpart), fun j hj hocc => ?_⟩
    obtain ⟨z, hz⟩ := hocc
    have hsplit : t = t.take j ++ sep ++ z := by rw [List.append_assoc, hz, List.take_append_drop]
    have hle := partition_least hpart hsplit
    rw [List.length_take] at hle
    dsimp only at hj
    omega
  constructor
  · exact hfirst
  · rintro ⟨hocc, hleast⟩
    cases hfind : find sep t with
    | none => exact absurd hocc.infix ((partition_none hsep).1 (Option.map_eq_none_iff.1 hfind))
    | some k =>
      obtain ⟨hk, hkleast⟩ := hfirst hfind
      rcases Nat.lt_trichotomy i k with hlt | heq | hgt
      · exact absurd hocc (hkleast i hlt)
      · rw [heq]
      · exact absurd hk (hleast k hgt)

theorem find_none_iff (hsep : sep ≠ []) : find sep t = none ↔ ∀ i, ¬ OccursAt sep t i := by
  rw [find, Option.map_eq_none_iff, partition_none hsep]
  constructor
  · intro h i hocc
    exact h hocc.infix
  · rintro h ⟨x, y, hxy⟩
    exact h x.length (occursAt_of_eq hxy.symm)

/-- A search from a position on misses nothing when the pattern stands nowhere before it. -/
theorem findFrom_eq_find (hsep : sep ≠ []) (h : ∀ j < start, ¬ OccursAt sep t j) : findFrom sep start t = find sep t := by
  cases hfind : find sep t with
  | none =>
    rw [find_none_iff hsep] at hfind
    rw [findFrom, Option.map_eq_none_iff, find_none_iff hsep]
    intro i hocc
    exact hfind _ (occursAt_drop.1 hocc)
  | some i =>
    obtain ⟨hocc, hleast⟩ := (find_some_iff hsep).1 hfind
    have hle : start ≤ i := by
      by_contra hlt
      exact h i (by omega) hocc
    rw [findFrom, Option.map_eq_some_iff]
    refine ⟨i - start, (find_some_iff hsep).2 ⟨?_, fun j hj => ?_⟩, by omega⟩
    · rw [occursAt_drop, Nat.add_sub_cancel' hle]
      exact hocc
    · rw [occursAt_drop]
      exact hleast _ (by omega)

end Search

def AnyAt (seps : List (List α)) (t : List α) (i : Nat) : Prop := ∃ sep ∈ seps, sep ≠ [] ∧ OccursAt sep t i

def Free (seps : List (List α)) (t : List α) : Prop := ∀ i, ¬ AnyAt seps t i

theorem free_nil (seps : List (List α)) : Free seps [] := by
  rintro i ⟨sep, -, hne, hocc⟩
  have hle := hocc.le hne
  have hpos := List.length_pos_iff.2 hne
  rw [List.length_nil] at hle
  omega

theorem anyAt_cons {sep : List α} : AnyAt (sep :: seps) t i ↔ sep ≠ [] ∧ OccursAt sep t i ∨ AnyAt seps t i := by
  simp [AnyAt]

theorem free_cons {sep : List α} :
    Free (sep :: seps) t ↔ (sep ≠ [] → ∀ i, ¬ OccursAt sep t i) ∧ Free seps t := by
  constructor
  · intro h
    exact ⟨fun hne i hocc => h i (anyAt_cons.2 (.inl ⟨hne, hocc⟩)), fun i hi => h i (anyAt_cons.2 (.inr hi))⟩
  · rintro ⟨hhead, htail⟩ i hi
    rcases anyAt_cons.1 hi with ⟨hne, hocc⟩ | hi
    · exact hhead hne i hocc
    · exact htail i hi

theorem AnyAt.append (h : AnyAt seps a i) (b : List α) : AnyAt seps (a ++ b) i := by
  obtain ⟨sep, hmem, hne, hocc⟩ := h
  exact ⟨sep, hmem, hne, occursAt_append_left hne hocc b⟩

theorem AnyAt.lt (h : AnyAt seps t i) : i < t.length := by
  obtain ⟨sep, -, hne, hocc⟩ := h
  have hle := hocc.le hne
  have hpos := List.length_pos_iff.2 hne
  omega

/-- Cut before the earliest occurrence a text is free. -/
theorem free_take (h : ∀ j < i, ¬ AnyAt seps t j) : Free seps (t.take i) := by
  rintro j ⟨sep, hmem, hne, hocc⟩
  have hle := hocc.le hne
  have hpos := List.length_pos_iff.2 hne
  rw [List.length_take] at hle
  exact h j (by omega) ⟨sep, hmem, hne, hocc.of_take⟩

def CutAtEarliest (seps : List (List α)) (t out : List α) : Prop :=
  Free seps t ∧ out = t ∨ ∃ i, AnyAt seps t i ∧ (∀ j < i, ¬ AnyAt seps t j) ∧ out = t.take i

/-- The cut is not behind any occurrence. -/
theorem CutAtEarliest.length_le {out : List α} (h : CutAtEarliest seps t out) (hi : AnyAt seps t i) : out.length ≤ i := by
  rcases h with ⟨hfree, rfl⟩ | ⟨k, -, hleast, rfl⟩
  · exact absurd hi (hfree i)
  · have hle : k ≤ i := by
      by_contra hlt
      exact hleast i (by omega) hi
    rw [List.length_take]
    omega

end FusionMlx.TextSearch
