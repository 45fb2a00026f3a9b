import Mathlib.Data.List.Infix

/-!
# Searching for separators

The first occurrence of a separator, the pieces between its occurrences, and
the end of a text that may still become one.
-/
namespace FusionMlx.TextSearch

variable {α : Type} [DecidableEq α]

def partition (sep : List α) : List α → Option (List α × List α)
  | [] => none
  | c :: t =>
    if sep.isPrefixOf (c :: t) then some ([], (c :: t).drop sep.length)
    else (partition sep t).map (fun r => (c :: r.1, r.2))

def rpartition (sep t : List α) : Option (List α × List α) :=
  (partition sep.reverse t.reverse).map (fun r => (r.2.reverse, r.1.reverse))

def contains (sep t : List α) : Bool := (partition sep t).isSome

variable {sep t u a b : List α}

attribute [local simp] partition in
theorem partition_none (hsep : sep ≠ []) : partition sep t = none ↔ ¬ sep <:+: t := by
  induction t with
  | nil => simp [hsep]
  | cons c t ih =>
    unfold partition
    split
    · rename_i hpre
      simp [List.infix_cons_iff, List.isPrefixOf_iff_prefix.1 hpre]
    · rename_i hpre
      rw [Option.map_eq_none_iff, ih, List.infix_cons_iff, not_or]
      exact ⟨fun h => ⟨fun hp => hpre (List.isPrefixOf_iff_prefix.2 hp), h⟩, fun h => h.2⟩

theorem partition_some (h : partition sep t = some (a, b)) : t = a ++ sep ++ b := by
  induction t generalizing a b with
  | nil => cases h
  | cons c t ih =>
    unfold partition at h
    split at h
    · rename_i hpre
      obtain ⟨rest, hrest⟩ := List.isPrefixOf_iff_prefix.1 hpre
      cases h
      rw [← hrest]
      simp
    · obtain ⟨r, hr, he⟩ := Option.map_eq_some_iff.1 h
      cases he
      rw [ih hr]
      rfl

theorem rpartition_some (h : rpartition sep t = some (a, b)) : t = a ++ sep ++ b := by
  obtain ⟨r, hr, he⟩ := Option.map_eq_some_iff.1 h
  cases he
  have := congrArg List.reverse (partition_some hr)
  simpa using this

/-- The first occurrence is the first. -/
theorem partition_least {a' b' : List α} (h : partition sep t = some (a, b))
    (ht : t = a' ++ sep ++ b') : a.length ≤ a'.length := by
  induction t generalizing a b a' with
  | nil => cases h
  | cons c t ih =>
    unfold partition at h
    split at h
    · cases h
      exact Nat.zero_le _
    · rename_i hpre
      obtain ⟨r, hr, he⟩ := Option.map_eq_some_iff.1 h
      cases he
      cases a' with
      | nil => exact absurd (List.isPrefixOf_iff_prefix.2 ⟨b', ht.symm⟩) hpre
      | cons c' a' => exact Nat.succ_le_succ (ih hr (List.cons.inj ht).2)

/-- What comes behind does not move the first occurrence. -/
theorem partition_append (h : partition sep t = some (a, b)) (u : List α) :
    partition sep (t ++ u) = some (a, b ++ u) := by
  induction t generalizing a b with
  | nil => cases h
  | cons c t ih =>
    have hlen : sep.length ≤ (c :: t).length := by
      rw [partition_some h, List.length_append, List.length_append]
      omega
    have hpre : sep.isPrefixOf (c :: (t ++ u)) = sep.isPrefixOf (c :: t) := by
      rw [Bool.eq_iff_iff, List.isPrefixOf_iff_prefix, List.isPrefixOf_iff_prefix,
        ← List.cons_append]
      exact List.isPrefix_append_of_length hlen
    rw [List.cons_append]
    unfold partition at h ⊢
    rw [hpre]
    split
    · rename_i hp
      rw [if_pos hp] at h
      cases h
      rw [← List.cons_append, List.drop_append_of_le_length hlen]
    · rename_i hp
      rw [if_neg hp] at h
      obtain ⟨r, hr, he⟩ := Option.map_eq_some_iff.1 h
      cases he
      rw [ih hr]
      rfl

theorem contains_iff (hsep : sep ≠ []) : contains sep t = true ↔ sep <:+: t := by
  rw [contains, Option.isSome_iff_ne_none, ne_eq, partition_none hsep, not_not]

theorem contains_eq_false (hsep : sep ≠ []) : contains sep t = false ↔ ¬ sep <:+: t := by
  rw [← contains_iff hsep, Bool.not_eq_true]

def Sharp (sep : List α) : Prop := ∃ x xs, sep = x :: xs ∧ x ∉ xs

omit [DecidableEq α] in
theorem Sharp.ne_nil (h : Sharp sep) : sep ≠ [] := by
  obtain ⟨x, xs, rfl, -⟩ := h
  simp

theorem Sharp.partition_append (hsep : Sharp sep) (ha : ¬ sep <:+: a) : partition sep (a ++ sep ++ b) = some (a, b) := by
  have hex : partition sep (a ++ sep ++ b) ≠ none := by
    rw [ne_eq, partition_none hsep.ne_nil, not_not]
    exact List.infix_append a sep b
  obtain ⟨⟨a', b'⟩, hpart⟩ := Option.ne_none_iff_exists'.1 hex
  have hle := partition_least hpart rfl
  have heq := partition_some hpart
  rw [List.append_assoc, List.append_assoc] at heq
  rcases List.append_eq_append_iff.1 heq with ⟨m, hm, -⟩ | ⟨m, hm, hm'⟩
  · -- The first occurrence cannot lie behind the given one.
    rw [hm, List.length_append] at hle
    have hnil : m = [] := List.eq_nil_of_length_eq_zero (by omega)
    subst hnil
    rw [List.append_nil] at hm
    subst hm
    rw [hpart, (List.append_cancel_left (List.append_cancel_left heq))]
  · cases m with
    | nil =>
      rw [List.append_nil] at hm
      subst hm
      rw [hpart, (List.append_cancel_left (List.append_cancel_left heq))]
    | cons y m =>
      -- It would have to reach across into the separator, whose first letter comes only once.
      exfalso
      rcases List.append_eq_append_iff.1 hm' with ⟨l, hl, hl'⟩ | ⟨l, hl, hl'⟩
      · exact ha ⟨a', l, by rw [hm, hl]; simp⟩
      · cases l with
        | nil => exact ha ⟨a', [], by rw [hm, hl]; simp⟩
        | cons x l =>
          obtain ⟨z, zs, rfl, hz⟩ := hsep
          have hx : z = x := (List.cons.inj hl').1
          have hzs : zs = m ++ x :: l := (List.cons.inj hl).2
          exact hz (by rw [hzs, hx]; simp)

def splitAtMost (sep : List α) : Nat → List α → List (List α)
  | 0, t => [t]
  | n + 1, t =>
    match partition sep t with
    | none => [t]
    | some (a, b) => a :: splitAtMost sep n b

def split (sep t : List α) : List (List α) := splitAtMost sep t.length t

def replace (sep new t : List α) : List α := new.intercalate (split sep t)

attribute [local simp] splitAtMost in
theorem split_none (h : partition sep t = none) : split sep t = [t] := by
  rw [split]
  cases t.length <;> simp [h]

theorem partition_length (hsep : sep ≠ []) (h : partition sep t = some (a, b)) : b.length < t.length := by
  have hpos := List.length_pos_iff.2 hsep
  rw [partition_some h, List.length_append, List.length_append]
  omega

theorem splitAtMost_eq (hsep : sep ≠ []) {n : Nat} (hn : t.length ≤ n) :
    splitAtMost sep n t = split sep t := by
  induction n using Nat.strong_induction_on generalizing t with
  | _ n ih =>
    cases n with
    | zero => rw [split, show t.length = 0 by omega]
    | succ n =>
      cases hlen : t.length with
      | zero =>
        obtain rfl : t = [] := List.eq_nil_of_length_eq_zero hlen
        rfl
      | succ m =>
        rw [split, hlen, splitAtMost, splitAtMost]
        split
        · rfl
        · rename_i a b hpart
          have hlt := partition_length hsep hpart
          rw [ih n (by omega) (by omega), ih m (by omega) (by omega)]

theorem split_some (hsep : sep ≠ []) (h : partition sep t = some (a, b)) :
    split sep t = a :: split sep b := by
  have hlt := partition_length hsep h
  cases hlen : t.length with
  | zero => omega
  | succ m =>
    rw [split, hlen, splitAtMost, h]
    exact congrArg (a :: ·) (splitAtMost_eq hsep (by omega))

theorem Sharp.split_append (hsep : Sharp sep) (ha : ¬ sep <:+: a) :
    split sep (a ++ sep ++ b) = a :: split sep b :=
  split_some hsep.ne_nil (hsep.partition_append ha)

def heldUpTo (sep t : List α) : Nat → Nat
  | 0 => 0
  | n + 1 => if (sep.take (n + 1)).isSuffixOf t then n + 1 else heldUpTo sep t n

def held (sep t : List α) : Nat := heldUpTo sep t (min t.length (sep.length - 1))

def safePrefix (seps : List (List α)) (t : List α) : List α :=
  t.take (t.length - (seps.map (fun sep => held sep t)).foldr max 0)

attribute [local simp] heldUpTo in
theorem heldUpTo_suffix (sep t : List α) (n : Nat) : sep.take (heldUpTo sep t n) <:+ t := by
  induction n with
  | zero => simp
  | succ n ih =>
    unfold heldUpTo
    split
    · rename_i h
      exact List.isSuffixOf_iff_suffix.1 h
    · exact ih

theorem heldUpTo_le (sep t : List α) (n : Nat) : heldUpTo sep t n ≤ n := by
  induction n with
  | zero => exact le_refl 0
  | succ n ih => unfold heldUpTo; split <;> omega

theorem le_heldUpTo {n k : Nat} (hk : k ≤ n) (h : sep.take k <:+ t) : k ≤ heldUpTo sep t n := by
  induction n with
  | zero => exact hk
  | succ n ih =>
    unfold heldUpTo
    split
    · exact hk
    · rename_i hnot
      rcases Nat.lt_or_ge k (n + 1) with hlt | hge
      · exact ih (by omega)
      · obtain rfl : k = n + 1 := by omega
        exact absurd (List.isSuffixOf_iff_suffix.2 h) hnot

theorem held_le (sep t : List α) : held sep t ≤ t.length ∧ held sep t ≤ sep.length - 1 :=
  Nat.le_min.1 (heldUpTo_le sep t _)

theorem held_suffix (sep t : List α) : sep.take (held sep t) <:+ t := heldUpTo_suffix sep t _

theorem le_held {k : Nat} (hk : k < sep.length) (h : sep.take k <:+ t) : k ≤ held sep t := by
  refine le_heldUpTo (Nat.le_min.2 ⟨?_, by omega⟩) h
  have := h.length_le
  rw [List.length_take, min_eq_left hk.le] at this
  exact this

/-- What is held of a longer text starts no earlier. -/
theorem held_mono (h : t <+: u) : t.length - held sep t ≤ u.length - held sep u := by
  by_contra hlt
  obtain ⟨k, hk⟩ : ∃ k, held sep u = k := ⟨_, rfl⟩
  obtain ⟨v, hv⟩ := held_suffix sep u
  have hle := held_le sep u
  rw [hk] at hv hle hlt
  have hvlen := congrArg List.length hv
  rw [List.length_append, List.length_take] at hvlen
  have htu := h.length_le
  -- The part held of the longer text starts inside the shorter one.
  obtain ⟨w, rfl⟩ : v <+: t := List.prefix_of_prefix_length_le ⟨_, hv⟩ h (by omega)
  rw [List.length_append] at hlt htu
  obtain ⟨d, rfl⟩ := h
  rw [List.append_assoc] at hv
  have hw : w <+: sep.take k := ⟨d, (List.append_cancel_left hv).symm⟩
  have hwlen := hw.length_le
  rw [List.length_take] at hwlen
  have hwsep : w = sep.take w.length := List.prefix_iff_eq_take.1 (hw.trans (List.take_prefix _ _))
  have hpos : 0 < sep.length := by omega
  have := @le_held _ _ sep (v ++ w) w.length (by omega)
    (by rw [← hwsep]; exact List.suffix_append v w)
  omega

theorem safePrefix_isPrefix (seps : List (List α)) (t : List α) : safePrefix seps t <+: t :=
  List.take_prefix _ _

theorem safePrefix_length (seps : List (List α)) (t : List α) :
    (safePrefix seps t).length = t.length - (seps.map (fun sep => held sep t)).foldr max 0 := by
  rw [safePrefix, List.length_take]
  omega

/-- More text makes more of it safe. -/
theorem safePrefix_mono (seps : List (List α)) (h : t <+: u) :
    safePrefix seps t <+: safePrefix seps u := by
  refine List.prefix_of_prefix_length_le ((safePrefix_isPrefix seps t).trans h)
    (safePrefix_isPrefix seps u) ?_
  rw [safePrefix_length, safePrefix_length]
  have htu := h.length_le
  induction seps with
  | nil => simpa using htu
  | cons sep seps ih =>
    have := @held_mono _ _ sep _ _ h
    simp only [List.map_cons, List.foldr_cons]
    omega

/-- Before a separator has come in whole, nothing of it is safe. -/
theorem safePrefix_le_partition {seps : List (List α)} (hmem : sep ∈ seps) (ht : ¬ sep <:+: t)
    (h : t <+: a ++ sep ++ b) : (safePrefix seps t).length ≤ a.length := by
  rcases Nat.lt_or_ge a.length t.length with hlt | hge
  · obtain ⟨m, rfl⟩ : a <+: t :=
      List.prefix_of_prefix_length_le ⟨sep ++ b, by simp⟩ h hlt.le
    rw [List.append_assoc] at h
    have hm : m <+: sep ++ b := (List.prefix_append_right_inj a).1 h
    have hmlen : m.length < sep.length := by
      by_contra hge
      exact ht ((List.prefix_of_prefix_length_le (List.prefix_append sep b) hm
        (by omega)).isInfix.trans (List.suffix_append a m).isInfix)
    have hmsep : m = sep.take m.length := by
      have := List.prefix_iff_eq_take.1 hm
      rwa [List.take_append_of_le_length hmlen.le] at this
    have hheld := @le_held _ _ sep (a ++ m) _ hmlen (by rw [← hmsep]; exact List.suffix_append a m)
    have hmax : held sep (a ++ m) ≤ (seps.map (fun sep => held sep (a ++ m))).foldr max 0 := by
      clear hheld ht h hm
      induction seps with
      | nil => cases hmem
      | cons x seps ih =>
        simp only [List.map_cons, List.foldr_cons]
        rcases List.mem_cons.1 hmem with rfl | hmem
        · omega
        · have := ih hmem; omega
    rw [safePrefix_length, List.length_append]
    omega
  · exact (safePrefix_isPrefix seps t).length_le.trans hge

end FusionMlx.TextSearch
