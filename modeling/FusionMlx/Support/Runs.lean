/-!
# Runs of a deterministic system under a step condition

`Reached start ok next σ` says that `σ` is reached from a start state by calls
that each meet the condition `ok` in the state they are made in.
-/
namespace FusionMlx.Runs

variable {σ ι : Type}

inductive Reached (start : σ → Prop) (ok : σ → ι → Prop) (next : σ → ι → σ) : σ → Prop
  | start {s : σ} (h : start s) : Reached start ok next s
  | step {s : σ} (i : ι) (h : Reached start ok next s) (hi : ok s i) : Reached start ok next (next s i)

variable {start : σ → Prop} {ok ok' : σ → ι → Prop} {next : σ → ι → σ} {s : σ}

/-- What holds at the start and is kept by every allowed call holds in every reached state. -/
theorem Reached.invariant {I : σ → Prop} (h : Reached start ok next s)
    (hstart : ∀ s, start s → I s)
    (hstep : ∀ s i, Reached start ok next s → I s → ok s i → I (next s i)) : I s := by
  induction h with
  | start h => exact hstart _ h
  | step i h hi ih => exact hstep _ i h ih hi

theorem Reached.mono (h : Reached start ok next s) (hle : ∀ s i, ok s i → ok' s i) :
    Reached start ok' next s := by
  induction h with
  | start h => exact .start h
  | step i _ hi ih => exact .step i ih (hle _ i hi)

def runList (next : σ → ι → σ) (s : σ) (is : List ι) : σ := is.foldl next s

/-- Every call of the list meets the condition in its turn. -/
def AllOk (ok : σ → ι → Prop) (next : σ → ι → σ) : σ → List ι → Prop
  | _, [] => True
  | s, i :: is => ok s i ∧ AllOk ok next (next s i) is

theorem Reached.runList (h : Reached start ok next s) {l : List ι} (hl : AllOk ok next s l) :
    Reached start ok next (runList next s l) := by
  induction l generalizing s with
  | nil => exact h
  | cons i l ih => exact ih (.step i h hl.1) hl.2

end FusionMlx.Runs
