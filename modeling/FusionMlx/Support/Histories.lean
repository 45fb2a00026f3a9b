import FusionMlx.Support.Runs
import Mathlib.Data.List.Induction

/-!
# What happened since

A run as the list of its steps, and the step a fact about the last state goes
back to: it was marked there, and every step after it left it alone.
-/
namespace FusionMlx.Histories

open Runs

variable {σ ι : Type} (next : σ → ι → σ)

def trace : σ → List ι → List (σ × ι)
  | _, [] => []
  | s, i :: is => (s, i) :: trace (next s i) is

/-- Some step was marked, and all the later ones were quiet. -/
def Since (mark quiet : σ → ι → Prop) (s : σ) (is : List ι) : Prop :=
  ∃ is₁ i is₂, is = is₁ ++ i :: is₂ ∧ mark (runList next s is₁) i ∧
    ∀ x ∈ trace next (next (runList next s is₁) i) is₂, quiet x.1 x.2

variable {next} {mark quiet : σ → ι → Prop} {I : σ → Prop} {s : σ} {is : List ι} {i : ι}

theorem runList_concat (s : σ) (is : List ι) (i : ι) :
    runList next s (is ++ [i]) = next (runList next s is) i := by
  simp [runList]

theorem trace_concat (s : σ) (is : List ι) (i : ι) :
    trace next s (is ++ [i]) = trace next s is ++ [(runList next s is, i)] := by
  induction is generalizing s with
  | nil => rfl
  | cons j is ih =>
    simp only [List.cons_append, trace, ih]
    rfl

theorem Since.of_mark (h : mark (runList next s is) i) : Since next mark quiet s (is ++ [i]) :=
  ⟨is, i, [], rfl, h, by simp [trace]⟩

theorem Since.concat (h : Since next mark quiet s is) (hi : quiet (runList next s is) i) :
    Since next mark quiet s (is ++ [i]) := by
  obtain ⟨is₁, j, is₂, rfl, hmark, hquiet⟩ := h
  refine ⟨is₁, j, is₂ ++ [i], by simp, hmark, ?_⟩
  intro x hx
  rw [trace_concat, List.mem_append, List.mem_singleton] at hx
  cases hx with
  | inl hx => exact hquiet x hx
  | inr hx =>
    subst hx
    have hrun : runList next s (is₁ ++ j :: is₂) =
        runList next (next (runList next s is₁) j) is₂ := by
      simp [runList]
    rw [← hrun]
    exact hi

/-- The last step is the marked one, or it is quiet. -/
theorem Since.last (h : Since next mark quiet s (is ++ [i])) :
    mark (runList next s is) i ∨ quiet (runList next s is) i := by
  obtain ⟨is₁, j, is₂, heq, hmark, hquiet⟩ := h
  cases is₂ using List.reverseRecOn with
  | nil =>
    obtain ⟨rfl, hi⟩ := List.append_inj' heq rfl
    cases hi
    exact .inl hmark
  | append_singleton is₂ k =>
    rw [← List.cons_append, ← List.append_assoc] at heq
    obtain ⟨rfl, hi⟩ := List.append_inj' heq rfl
    cases hi
    have hrun : runList next s (is₁ ++ j :: is₂) =
        runList next (next (runList next s is₁) j) is₂ := by
      simp [runList]
    rw [hrun]
    apply Or.inr
    apply hquiet (_, i)
    rw [trace_concat]
    exact List.mem_append_right _ (List.mem_singleton.mpr rfl)

/-- A fact that only a marked step brings about, and that only a step that is not quiet can end,
goes back to a marked step. -/
theorem since_of_step (hstart : ¬ I s)
    (hstep : ∀ s i, I (next s i) → mark s i ∨ I s ∧ quiet s i) :
    I (runList next s is) → Since next mark quiet s is := by
  induction is using List.reverseRecOn with
  | nil => exact fun h => absurd h hstart
  | append_singleton is i ih =>
    intro h
    rw [runList_concat] at h
    cases hstep _ _ h with
    | inl hmark => exact .of_mark hmark
    | inr hkept => exact (ih hkept.1).concat hkept.2

/-- A fact that every quiet step keeps outlasts a quiet run. -/
theorem kept_of_quiet (hstep : ∀ s i, I s → quiet s i → I (next s i)) (h : I s)
    (hquiet : ∀ x ∈ trace next s is, quiet x.1 x.2) : I (runList next s is) := by
  induction is generalizing s with
  | nil => exact h
  | cons i is ih =>
    apply ih (hstep s i h (hquiet (s, i) List.mem_cons_self))
    intro x hx
    exact hquiet x (List.mem_cons_of_mem _ hx)

end FusionMlx.Histories
