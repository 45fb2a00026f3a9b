import Mathlib.Data.List.Infix
import Mathlib.Data.Set.Insert

/-!
# Sets of paths that branch on a tag

A tree whose children are found by a tag of the edge, not by the whole edge,
holds at most one edge for each tag at a node. Entering a path replaces the
edges in its way and loses what hangs below them. `Clash` says that two paths
part at two edges of one tag; a history of entered paths is retained whole
exactly when no two of its paths clash.
-/
namespace FusionMlx.BranchingPaths

variable {α τ : Type} (tag : α → τ)

/-- The paths part at two different edges of one tag. -/
def Clash (p q : List α) : Prop :=
  ∃ r x y, x ≠ y ∧ tag x = tag y ∧ r ++ [x] <+: p ∧ r ++ [y] <+: q

def enter (S : Set (List α)) (q : List α) : Set (List α) :=
  {p | p <+: q ∨ (p ∈ S ∧ ¬ Clash tag p q)}

def enterEdge (S : Set (List α)) (r : List α) (x : α) : Set (List α) :=
  {p | p = r ++ [x] ∨ (p ∈ S ∧ ∀ y, y ≠ x → tag y = tag x → ¬ r ++ [y] <+: p)}

def recorded (history : List (List α)) : Set (List α) := history.foldl (enter tag) {[]}

variable {tag} {p p' q q' r : List α} {S : Set (List α)} {x : α}

theorem Clash.symm (h : Clash tag p q) : Clash tag q p := by
  obtain ⟨r, x, y, hne, htag, hp, hq⟩ := h
  exact ⟨r, y, x, hne.symm, htag.symm, hq, hp⟩

theorem Clash.mono (h : Clash tag p q) (hp : p <+: p') (hq : q <+: q') : Clash tag p' q' := by
  obtain ⟨r, x, y, hne, htag, hrp, hrq⟩ := h
  exact ⟨r, x, y, hne, htag, hrp.trans hp, hrq.trans hq⟩

/-- Two edges at one place of one path are the same edge. -/
theorem edge_unique {y : α} (hx : r ++ [x] <+: p) (hy : r ++ [y] <+: p) : x = y := by
  obtain ⟨s, hs⟩ := hx
  obtain ⟨t, ht⟩ := hy
  have h : r ++ [x] ++ s = r ++ [y] ++ t := hs.trans ht.symm
  simp only [List.append_assoc, List.cons_append, List.nil_append] at h
  have h' := List.append_cancel_left h
  exact (List.cons.inj h').1

theorem not_clash_of_common (hp : p <+: r) (hq : q <+: r) : ¬ Clash tag p q := by
  rintro ⟨s, x, y, hne, -, hxp, hyq⟩
  exact hne (edge_unique (hxp.trans hp) (hyq.trans hq))

theorem clash_concat : Clash tag p (r ++ [x]) ↔
    Clash tag p r ∨ ∃ y, y ≠ x ∧ tag y = tag x ∧ r ++ [y] <+: p := by
  constructor
  · rintro ⟨s, y, z, hne, htag, hp, hq⟩
    rcases List.prefix_concat_iff.mp hq with heq | hq
    · obtain ⟨rfl, hz⟩ := List.append_inj' heq rfl
      obtain rfl : z = x := by simpa using hz
      exact Or.inr ⟨y, hne, htag, hp⟩
    · exact Or.inl ⟨s, y, z, hne, htag, hp, hq⟩
  · rintro (h | ⟨y, hne, htag, hp⟩)
    · exact h.mono List.prefix_rfl (List.prefix_append r [x])
    · exact ⟨r, y, x, hne, htag, hp, List.prefix_rfl⟩

theorem enter_nil (hS : [] ∈ S) : enter tag S [] = S := by
  ext p
  constructor
  · rintro (hp | ⟨hp, -⟩)
    · rw [List.prefix_nil.mp hp]
      exact hS
    · exact hp
  · intro hp
    refine Or.inr ⟨hp, ?_⟩
    rintro ⟨s, x, y, -, -, -, hy⟩
    have := List.prefix_nil.mp hy
    simp at this

/-- A path is entered edge by edge. -/
theorem enter_concat (S : Set (List α)) (r : List α) (x : α) :
    enter tag S (r ++ [x]) = enterEdge tag (enter tag S r) r x := by
  have hshort : ∀ p y, p <+: r → ¬ r ++ [y] <+: p := by
    intro p y hp hy
    have h₁ := hp.length_le
    have h₂ := hy.length_le
    simp only [List.length_append, List.length_singleton] at h₂
    omega
  ext p
  simp only [enter, enterEdge, Set.mem_ofPred_eq, List.prefix_concat_iff, clash_concat]
  constructor
  · rintro ((hp | hp) | ⟨hp, hc⟩)
    · exact Or.inl hp
    · exact Or.inr ⟨Or.inl hp, fun y _ _ => hshort p y hp⟩
    · push Not at hc
      exact Or.inr ⟨Or.inr ⟨hp, hc.1⟩, hc.2⟩
  · rintro (hp | ⟨hp | ⟨hp, hc⟩, hno⟩)
    · exact Or.inl (Or.inl hp)
    · exact Or.inl (Or.inr hp)
    · refine Or.inr ⟨hp, ?_⟩
      rintro (h | ⟨y, hne, htag, hy⟩)
      · exact hc h
      · exact hno y hne htag hy

theorem enter_consistent (hS : ∀ p ∈ S, ∀ q ∈ S, ¬ Clash tag p q) :
    ∀ p ∈ enter tag S r, ∀ q ∈ enter tag S r, ¬ Clash tag p q := by
  rintro p (hp | ⟨hp, hcp⟩) q (hq | ⟨hq, hcq⟩)
  · exact not_clash_of_common hp hq
  · exact fun h => hcq (h.symm.mono List.prefix_rfl hp)
  · exact fun h => hcp (h.mono List.prefix_rfl hq)
  · exact hS p hp q hq

theorem foldl_consistent (history : List (List α)) (hS : ∀ p ∈ S, ∀ q ∈ S, ¬ Clash tag p q) :
    ∀ p ∈ history.foldl (enter tag) S, ∀ q ∈ history.foldl (enter tag) S, ¬ Clash tag p q := by
  induction history generalizing S with
  | nil => exact hS
  | cons r history ih => exact ih (enter_consistent hS)

theorem foldl_keeps (history : List (List α)) (hp : p ∈ S) (hc : ∀ q ∈ history, ¬ Clash tag p q) :
    p ∈ history.foldl (enter tag) S := by
  induction history generalizing S with
  | nil => exact hp
  | cons r history ih =>
    exact ih (Or.inr ⟨hp, hc r (by simp)⟩) (fun q hq => hc q (by simp [hq]))

theorem foldl_enters (history : List (List α)) (S : Set (List α)) (hp : p ∈ history)
    (hc : ∀ q ∈ history, ¬ Clash tag p q) : p ∈ history.foldl (enter tag) S := by
  induction history generalizing S with
  | nil => cases hp
  | cons r history ih =>
    have hrest : ∀ q ∈ history, ¬ Clash tag p q := fun q hq => hc q (by simp [hq])
    rcases List.mem_cons.mp hp with rfl | hp
    · exact foldl_keeps history (Or.inl List.prefix_rfl) hrest
    · exact ih _ hp hrest

/-- What is left comes from the start or from a path of the history. -/
theorem foldl_sub (history : List (List α)) (hp : p ∈ history.foldl (enter tag) S) :
    p ∈ S ∨ ∃ q ∈ history, p <+: q := by
  induction history generalizing S with
  | nil => exact Or.inl hp
  | cons r history ih =>
    rcases ih hp with (hp | ⟨hp, -⟩) | ⟨q, hq, hpq⟩
    · exact Or.inr ⟨r, by simp, hp⟩
    · exact Or.inl hp
    · exact Or.inr ⟨q, by simp [hq], hpq⟩

theorem recorded_consistent (history : List (List α)) :
    ∀ p ∈ recorded tag history, ∀ q ∈ recorded tag history, ¬ Clash tag p q := by
  refine foldl_consistent history ?_
  rintro p rfl q rfl
  exact not_clash_of_common (r := []) List.prefix_rfl List.prefix_rfl

/-- A history is retained whole exactly when no two of its paths clash. -/
theorem recorded_whole_iff {g : α → τ} (history : List (List α)) :
    (∀ p ∈ history, p ∈ recorded g history) ↔ ∀ p ∈ history, ∀ q ∈ history, ¬ Clash g p q := by
  constructor
  · intro h p hp q hq
    exact recorded_consistent history p (h p hp) q (h q hq)
  · intro h p hp
    exact foldl_enters history _ hp (h p hp)

theorem recorded_sub {history : List (List α)} (hp : p ∈ recorded tag history) :
    p = [] ∨ ∃ q ∈ history, p <+: q :=
  foldl_sub history hp

end FusionMlx.BranchingPaths
