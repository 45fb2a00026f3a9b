import FusionMlx.Support.PatternSearch

/-!
# The first of several separators

A text read for whichever separator comes first. When no separator stands
within another, more text does not move the first one, and an end of the text
that may still become a separator starts no later than it.
-/
namespace FusionMlx.TextSearch

variable {α : Type} [DecidableEq α]

/-- What stands before the first separator, the separator and what stands behind; where two begin
together, the one that is listed first. -/
def firstOf (seps : List (List α)) : List α → Option (List α × List α × List α)
  | [] => none
  | c :: t =>
    match seps.find? (fun sep => sep.isPrefixOf (c :: t)) with
    | some sep => some ([], sep, (c :: t).drop sep.length)
    | none => (firstOf seps t).map (fun r => (c :: r.1, r.2))

variable {seps : List (List α)} {sep sep' t u a b a' b' : List α}

/-- No separator stands within another, and none is empty. -/
def Apart (seps : List (List α)) : Prop :=
  ∀ sep ∈ seps, sep ≠ [] ∧ ∀ sep' ∈ seps, sep <:+: sep' → sep = sep'

def Uncut (seps : List (List α)) (t : List α) : Prop := ∀ sep ∈ seps, ¬ sep <:+: t

omit [DecidableEq α] in
theorem Uncut.infix (h : Uncut seps t) (hu : u <:+: t) : Uncut seps u :=
  fun sep hsep hin => h sep hsep (hin.trans hu)

theorem firstOf_some (h : firstOf seps t = some (a, sep, b)) : sep ∈ seps ∧ t = a ++ sep ++ b := by
  induction t generalizing a with
  | nil => cases h
  | cons c t ih =>
    unfold firstOf at h
    split at h
    · rename_i x hx
      have hpre : x.isPrefixOf (c :: t) = true := List.find?_some (p := fun sep : List α => sep.isPrefixOf (c :: t)) hx
      obtain ⟨rest, hrest⟩ := List.isPrefixOf_iff_prefix.1 hpre
      cases h
      refine ⟨List.mem_of_find?_eq_some hx, ?_⟩
      rw [← hrest]
      simp
    · obtain ⟨⟨a, sep, b⟩, hr, he⟩ := Option.map_eq_some_iff.1 h
      cases he
      obtain ⟨hmem, ht⟩ := ih hr
      exact ⟨hmem, by rw [ht]; rfl⟩

/-- No separator begins before the first. -/
theorem firstOf_least (h : firstOf seps t = some (a, sep, b)) (hsep : sep' ∈ seps)
    (ht : t = a' ++ sep' ++ b') : a.length ≤ a'.length := by
  induction t generalizing a a' with
  | nil => cases h
  | cons c t ih =>
    unfold firstOf at h
    split at h
    · cases h
      exact Nat.zero_le _
    · rename_i hnone
      obtain ⟨⟨a, sep, b⟩, hr, he⟩ := Option.map_eq_some_iff.1 h
      cases he
      cases a' with
      | nil =>
        have hpre : sep' <+: c :: t := ⟨b', ht.symm⟩
        exact absurd (List.isPrefixOf_iff_prefix.2 hpre) (List.find?_eq_none.1 hnone _ hsep)
      | cons c' a' => exact Nat.succ_le_succ (ih hr (List.cons.inj ht).2)

theorem firstOf_none (hne : [] ∉ seps) : firstOf seps t = none ↔ Uncut seps t := by
  induction t with
  | nil =>
    refine ⟨fun _ sep hsep hin => hne ?_, fun _ => rfl⟩
    rwa [List.infix_nil.1 hin] at hsep
  | cons c t ih =>
    unfold firstOf
    split
    · rename_i sep hsome
      refine ⟨fun h => (by cases h), fun h => ?_⟩
      have hpre : sep.isPrefixOf (c :: t) = true := List.find?_some (p := fun sep : List α => sep.isPrefixOf (c :: t)) hsome
      exact absurd (List.isPrefixOf_iff_prefix.1 hpre).isInfix (h sep (List.mem_of_find?_eq_some hsome))
    · rename_i hnone
      rw [Option.map_eq_none_iff, ih]
      refine ⟨fun h sep hsep hin => ?_, fun h => h.infix (List.suffix_cons c t).isInfix⟩
      rcases List.infix_cons_iff.1 hin with hpre | hin
      · exact List.find?_eq_none.1 hnone sep hsep (List.isPrefixOf_iff_prefix.2 hpre)
      · exact h sep hsep hin

omit [DecidableEq α] in
theorem Apart.nil_not_mem (h : Apart seps) : [] ∉ seps := fun hmem => (h [] hmem).1 rfl

omit [DecidableEq α] in
/-- Separators that begin together are the same. -/
theorem Apart.eq_of_prefix (h : Apart seps) (hsep : sep ∈ seps) (hsep' : sep' ∈ seps)
    (ht : sep <+: t) (ht' : sep' <+: t) : sep = sep' := by
  rcases List.prefix_or_prefix_of_prefix ht ht' with hp | hp
  · exact (h sep hsep).2 sep' hsep' hp.isInfix
  · exact ((h sep' hsep').2 sep hsep hp.isInfix).symm

/-- The first separator is known by standing before all others. -/
theorem Apart.firstOf_eq (h : Apart seps) (hsep : sep ∈ seps) (ht : t = a ++ sep ++ b)
    (hleast : ∀ a' sep' b', sep' ∈ seps → t = a' ++ sep' ++ b' → a.length ≤ a'.length) :
    firstOf seps t = some (a, sep, b) := by
  cases hfirst : firstOf seps t with
  | none =>
    have hin : sep <:+: t := ht ▸ List.infix_append a sep b
    exact absurd hin ((firstOf_none h.nil_not_mem).1 hfirst sep hsep)
  | some r =>
    obtain ⟨a', sep', b'⟩ := r
    obtain ⟨hsep', ht'⟩ := firstOf_some hfirst
    have hlen : a.length = a'.length :=
      le_antisymm (hleast a' sep' b' hsep' ht') (firstOf_least hfirst hsep ht)
    rw [ht, List.append_assoc, List.append_assoc] at ht'
    obtain ⟨rfl, hrest⟩ := List.append_inj ht' hlen
    obtain rfl : sep = sep' :=
      h.eq_of_prefix hsep hsep' (List.prefix_append sep b) ⟨b', hrest.symm⟩
    rw [List.append_cancel_left hrest]

/-- More text does not move the first separator. -/
theorem Apart.firstOf_append (h : Apart seps) (hfirst : firstOf seps t = some (a, sep, b)) (u : List α) :
    firstOf seps (t ++ u) = some (a, sep, b ++ u) := by
  obtain ⟨hsep, ht⟩ := firstOf_some hfirst
  refine h.firstOf_eq hsep (by rw [ht]; simp) (fun a' sep' b' hsep' htu => ?_)
  by_contra hlt
  rw [not_le] at hlt
  -- A separator that begins earlier either ends in the old text or has the first one within it.
  rcases Nat.lt_or_ge (t.length) (a' ++ sep').length with hlong | hshort
  · have htpre : t <+: a' ++ sep' := List.prefix_of_prefix_length_le ⟨u, rfl⟩ ⟨b', htu.symm⟩ hlong.le
    rw [ht, List.append_assoc] at htpre
    obtain ⟨m, rfl⟩ : a' <+: a := by
      refine List.prefix_of_prefix_length_le (List.prefix_append a' sep') ?_ hlt.le
      exact (List.prefix_append a (sep ++ b)).trans htpre
    rw [List.append_assoc, List.prefix_append_right_inj] at htpre
    have hin : sep <:+: sep' :=
      (List.infix_append' m sep b).trans htpre.isInfix
    have heq := (h sep hsep).2 sep' hsep' hin
    subst heq
    have hle := htpre.length_le
    simp only [List.length_append] at hle hlt
    omega
  · obtain ⟨b'', hb''⟩ := List.prefix_of_prefix_length_le ⟨b', htu.symm⟩ (List.prefix_append t u) hshort
    have := firstOf_least hfirst hsep' hb''.symm
    omega

/-- A front in which no separator begins stays before the first separator. -/
theorem firstOf_skip (h : ∀ u₁ u₂, u = u₁ ++ u₂ → u₂ ≠ [] → ∀ sep ∈ seps, ¬ sep <+: u₂ ++ t) :
    firstOf seps (u ++ t) = (firstOf seps t).map (fun r => (u ++ r.1, r.2)) := by
  induction u with
  | nil => simp
  | cons c u ih =>
    have hnone : seps.find? (fun sep => sep.isPrefixOf (c :: (u ++ t))) = none := by
      refine List.find?_eq_none.2 (fun sep hsep hpre => ?_)
      exact h [] (c :: u) rfl (by simp) sep hsep (List.isPrefixOf_iff_prefix.1 hpre)
    rw [List.cons_append, firstOf, hnone]
    simp only
    rw [ih (fun u₁ u₂ hu hne => h (c :: u₁) u₂ (by rw [hu]; rfl) hne), Option.map_map]
    rfl

def heldOf (seps : List (List α)) (t : List α) : Nat := (seps.map (fun sep => held sep t)).foldr max 0

theorem le_heldOf (hsep : sep ∈ seps) : held sep t ≤ heldOf seps t := by
  induction seps with
  | nil => cases hsep
  | cons x seps ih =>
    simp only [heldOf, List.map_cons, List.foldr_cons]
    rcases List.mem_cons.1 hsep with rfl | hsep
    · exact le_max_left _ _
    · exact le_trans (ih hsep) (le_max_right _ _)

/-- Something is held of a separator, or nothing at all. -/
theorem heldOf_attained : heldOf seps t = 0 ∨ ∃ sep ∈ seps, heldOf seps t = held sep t := by
  induction seps with
  | nil => exact .inl rfl
  | cons x seps ih =>
    simp only [heldOf, List.map_cons, List.foldr_cons] at ih ⊢
    rcases Nat.le_total (List.foldr max 0 (seps.map (fun sep => held sep t))) (held x t) with hm | hm
    · exact .inr ⟨x, by simp, max_eq_left hm⟩
    · rw [max_eq_right hm]
      rcases ih with h | ⟨sep, hsep, h⟩
      · exact .inl h
      · exact .inr ⟨sep, by simp [hsep], h⟩

theorem heldOf_le (seps : List (List α)) (t : List α) : heldOf seps t ≤ t.length := by
  rcases @heldOf_attained _ _ seps t with h | ⟨sep, -, h⟩
  · omega
  · have := held_le sep t
    omega

theorem safePrefix_eq (seps : List (List α)) (t : List α) : safePrefix seps t = t.take (t.length - heldOf seps t) := rfl

/-- What is not held of a text that is not cut stands before the first separator of every longer one. -/
theorem safePrefix_firstOf (ht : Uncut seps t) (h : firstOf seps (t ++ u) = some (a, sep, b)) :
    safePrefix seps t <+: a := by
  obtain ⟨hsep, htu⟩ := firstOf_some h
  have hle := safePrefix_le_partition hsep (ht sep hsep) ⟨u, htu⟩
  have ha : a <+: t ++ u := ⟨sep ++ b, by rw [htu]; simp⟩
  exact List.prefix_of_prefix_length_le ((safePrefix_isPrefix seps t).trans (List.prefix_append t u)) ha hle

end FusionMlx.TextSearch
