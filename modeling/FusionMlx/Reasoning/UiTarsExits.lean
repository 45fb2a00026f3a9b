import FusionMlx.Reasoning.UiTarsParser

/-!
# The first exit of a UI-TARS text

The search over the exit predicates finds the first of them, and the part held
back before an exit is the end that may still become one.
-/
namespace FusionMlx.Reasoning.UiTars

open JsonText (Text)
open TextSearch

variable {t u a b tok : Text} {toks : List Text}

theorem exits_apart : Apart exitPredicates := by
  unfold Apart
  decide

def Best (toks : List Text) (t : Text) : Option (Nat × Text) → Prop
  | none => ∀ tok ∈ toks, find tok t = none
  | some (pos, tok) => tok ∈ toks ∧ find tok t = some pos ∧
      ∀ tok' ∈ toks, ∀ pos', find tok' t = some pos' → pos ≤ pos'

theorem betterExit_best {best : Option (Nat × Text)} (h : Best toks t best) (tok : Text) :
    Best (toks ++ [tok]) t (betterExit t best tok) := by
  unfold betterExit
  cases hfind : find tok t with
  | none =>
    cases best with
    | none =>
      intro tok' htok'
      rcases List.mem_append.1 htok' with htok' | htok'
      · exact h tok' htok'
      · rwa [List.mem_singleton.1 htok']
    | some r =>
      obtain ⟨hmem, hpos, hleast⟩ := h
      refine ⟨List.mem_append_left _ hmem, hpos, fun tok' htok' pos' hpos' => ?_⟩
      rcases List.mem_append.1 htok' with htok' | htok'
      · exact hleast tok' htok' pos' hpos'
      · rw [List.mem_singleton.1 htok', hfind] at hpos'
        cases hpos'
  | some pos =>
    cases best with
    | none =>
      refine ⟨by simp, hfind, fun tok' htok' pos' hpos' => ?_⟩
      rcases List.mem_append.1 htok' with htok' | htok'
      · rw [h tok' htok'] at hpos'
        cases hpos'
      · rw [List.mem_singleton.1 htok', hfind] at hpos'
        cases hpos'
        exact le_refl _
    | some r =>
      obtain ⟨bestPos, bestTok⟩ := r
      obtain ⟨hmem, hpos, hleast⟩ := h
      have hall : ∀ p, p ≤ bestPos → p ≤ pos → ∀ tok' ∈ toks ++ [tok], ∀ pos', find tok' t = some pos' → p ≤ pos' := by
        intro p hbest hp tok' htok' pos' hpos'
        rcases List.mem_append.1 htok' with htok' | htok'
        · exact hbest.trans (hleast tok' htok' pos' hpos')
        · rw [List.mem_singleton.1 htok', hfind] at hpos'
          cases hpos'
          exact hp
      simp only
      split
      · rename_i hlt
        exact ⟨by simp, hfind, hall pos hlt.le (le_refl _)⟩
      · rename_i hge
        split
        · rename_i heq
          exact ⟨by simp, by rw [hfind, heq.1], hall bestPos (le_refl _) (by omega)⟩
        · exact ⟨List.mem_append_left _ hmem, hpos, hall bestPos (le_refl _) (by omega)⟩

theorem foldl_betterExit_best {best : Option (Nat × Text)} (h : Best toks t best) (more : List Text) :
    Best (toks ++ more) t (more.foldl (betterExit t) best) := by
  induction more generalizing toks best with
  | nil => simpa using h
  | cons tok more ih =>
    have := ih (betterExit_best h tok)
    simpa using this

theorem findFirstExit_best (t : Text) : Best exitPredicates t (findFirstExit t) := by
  have hnone : Best [] t none := fun tok htok => (by cases htok)
  exact foldl_betterExit_best hnone exitPredicates

/-- The search finds the first exit. -/
theorem findFirstExit_eq (t : Text) :
    findFirstExit t = (firstOf exitPredicates t).map (fun r => (r.1.length, r.2.1)) := by
  have hbest := findFirstExit_best t
  cases hexit : findFirstExit t with
  | none =>
    rw [hexit] at hbest
    have huncut : Uncut exitPredicates t := by
      intro tok htok hin
      have hnone := hbest tok htok
      rw [find, Option.map_eq_none_iff, partition_none (exits_apart tok htok).1] at hnone
      exact hnone hin
    rw [(firstOf_none exits_apart.nil_not_mem).2 huncut]
    rfl
  | some r =>
    obtain ⟨pos, tok⟩ := r
    rw [hexit] at hbest
    obtain ⟨htok, hpos, hleast⟩ := hbest
    obtain ⟨⟨a, b⟩, hpart, hlen⟩ := Option.map_eq_some_iff.1 hpos
    have hfirst : firstOf exitPredicates t = some (a, tok, b) := by
      refine exits_apart.firstOf_eq htok (partition_some hpart) (fun a' tok' b' htok' ht' => ?_)
      cases hpart' : partition tok' t with
      | none =>
        refine absurd ?_ ((partition_none (exits_apart tok' htok').1).1 hpart')
        exact ht' ▸ List.infix_append a' tok' b'
      | some r' =>
        have hle := hleast tok' htok' r'.1.length (by rw [find, hpart']; rfl)
        have := partition_least hpart' ht'
        simp only at hlen
        omega
    rw [hfirst, ← hlen]
    rfl

theorem partialExitHold_spec (t : Text) (n : Nat) : partialExitHold t n = 0 ∨
    partialExitHold t n ≤ t.length ∧
      ∃ tok ∈ exitPredicates, t.drop (t.length - partialExitHold t n) <+: tok := by
  induction n with
  | zero => exact .inl rfl
  | succ n ih =>
    unfold partialExitHold
    split
    · rename_i h
      obtain ⟨tok, htok, hpre⟩ := List.any_eq_true.1 h.2
      exact .inr ⟨h.1, tok, htok, List.isPrefixOf_iff_prefix.1 hpre⟩
    · exact ih

theorem le_partialExitHold {k n : Nat} (hk : k ≤ n) (hlen : k ≤ t.length) (htok : tok ∈ exitPredicates)
    (hpre : t.drop (t.length - k) <+: tok) : k ≤ partialExitHold t n := by
  induction n with
  | zero => exact hk
  | succ n ih =>
    unfold partialExitHold
    split
    · exact hk
    · rename_i hnot
      rcases Nat.lt_or_ge k (n + 1) with hlt | hge
      · exact ih (by omega)
      · obtain rfl : k = n + 1 := by omega
        refine absurd ⟨hlen, List.any_eq_true.2 ⟨tok, htok, ?_⟩⟩ hnot
        exact List.isPrefixOf_iff_prefix.2 hpre

theorem exit_length : ∀ tok ∈ exitPredicates, tok.length - 1 ≤ maxBoundaryPrefix := by decide

/-- Before an exit has come in whole, the part held back is what may still become one. -/
theorem hold_eq (h : Uncut exitPredicates t) : computePartialExitHold t = heldOf exitPredicates t := by
  apply le_antisymm
  · rcases partialExitHold_spec t maxBoundaryPrefix with h0 | ⟨hlen, tok, htok, hpre⟩
    · rw [computePartialExitHold, h0]
      exact Nat.zero_le _
    · rw [← computePartialExitHold] at hlen hpre
      have hdrop : (t.drop (t.length - computePartialExitHold t)).length = computePartialExitHold t := by
        rw [List.length_drop]
        omega
      have hsuf : t.drop (t.length - computePartialExitHold t) <:+ t := List.drop_suffix _ _
      have hle := hpre.length_le
      rw [hdrop] at hle
      have hlt : computePartialExitHold t < tok.length := by
        -- A whole token at the end would be an exit.
        refine lt_of_le_of_ne hle (fun heq => h tok htok ?_)
        rw [← hpre.eq_of_length (by rw [hdrop, heq])]
        exact hsuf.isInfix
      have htake := List.prefix_iff_eq_take.1 hpre
      rw [hdrop] at htake
      exact (le_held hlt (by rw [← htake]; exact hsuf)).trans (le_heldOf htok)
  · rcases @heldOf_attained _ _ exitPredicates t with h0 | ⟨tok, htok, heq⟩
    · omega
    · rw [heq]
      have hle := held_le tok t
      have hlen := exit_length tok htok
      refine le_partialExitHold (by omega) hle.1 htok ?_
      have hsuf := List.suffix_iff_eq_drop.1 (held_suffix tok t)
      rw [List.length_take, min_eq_left (by omega)] at hsuf
      rw [← hsuf]
      exact List.take_prefix _ _

def keptExit (tok : Text) : Text := if structural tok then [] else tok

theorem contentAfterExit_eq (a tok b : Text) : contentAfterExit (a ++ tok ++ b) a.length tok = keptExit tok ++ b := by
  unfold contentAfterExit keptExit
  split
  · rw [← List.length_append, List.drop_left, List.nil_append]
  · rw [List.append_assoc, List.drop_left]

def startsExit (c : Char) : Bool := exitPredicates.any (fun tok => tok.head? = some c)

theorem startsExit_of_start {c : Char} (htok : tok ∈ exitPredicates) (h : tok <+: c :: t) : startsExit c = true := by
  refine List.any_eq_true.2 ⟨tok, htok, ?_⟩
  obtain ⟨x, xs, rfl⟩ := List.exists_cons_of_ne_nil (exits_apart tok htok).1
  simp [(List.cons_prefix_cons.1 h).1]

end FusionMlx.Reasoning.UiTars
