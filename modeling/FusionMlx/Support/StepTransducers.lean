/-!
# Transducers

A machine that answers every input with a list of outputs, and what it has put
out after a list of inputs. Two machines whose steps agree agree on every list.
-/
namespace FusionMlx.Transducers

variable {σ τ ι κ ο : Type}

def feed (step : σ → ι → σ × List ο) : σ → List ι → σ × List ο
  | s, [] => (s, [])
  | s, i :: is => ((feed step (step s i).1 is).1, (step s i).2 ++ (feed step (step s i).1 is).2)

variable {step : σ → ι → σ × List ο}

@[simp] theorem feed_nil (s : σ) : feed step s [] = (s, []) := rfl

@[simp] theorem feed_cons (s : σ) (i : ι) (is : List ι) :
    feed step s (i :: is) =
      ((feed step (step s i).1 is).1, (step s i).2 ++ (feed step (step s i).1 is).2) := rfl

theorem feed_append (s : σ) (is js : List ι) :
    feed step s (is ++ js) =
      ((feed step (feed step s is).1 js).1, (feed step s is).2 ++ (feed step (feed step s is).1 js).2) := by
  induction is generalizing s with
  | nil => rfl
  | cons i is ih => simp only [List.cons_append, feed_cons, ih, List.append_assoc]

/-- Steps that keep a relation of the states and put out the same keep it over every list. -/
theorem feed_related {step' : τ → ι → τ × List ο} {R : σ → τ → Prop} {s : σ} {t : τ} {is : List ι}
    (hs : R s t)
    (hstep : ∀ s t i, i ∈ is → R s t → R (step s i).1 (step' t i).1 ∧ (step s i).2 = (step' t i).2) :
    R (feed step s is).1 (feed step' t is).1 ∧ (feed step s is).2 = (feed step' t is).2 := by
  induction is generalizing s t with
  | nil => exact ⟨hs, rfl⟩
  | cons i is ih =>
    have h := hstep s t i (by simp) hs
    have hi := ih h.1 (fun s t j hj => hstep s t j (by simp [hj]))
    exact ⟨hi.1, by simp only [feed_cons, h.2, hi.2]⟩

/-- If every step puts out what the account of its state lacks, so does every run; the steps are
taken where an invariant of the state and the inputs to come holds. -/
theorem feed_account {β : Type} (I : σ → List ι → Prop) (account : σ → List β) (told : ο → List β)
    (h : ∀ s i is, I s (i :: is) → I (step s i).1 is ∧
      account s ++ (step s i).2.flatMap told = account (step s i).1)
    (s : σ) (is : List ι) (hs : I s is) :
    I (feed step s is).1 [] ∧ account s ++ (feed step s is).2.flatMap told = account (feed step s is).1 := by
  induction is generalizing s with
  | nil => exact ⟨hs, by simp⟩
  | cons i is ih =>
    obtain ⟨hI, hout⟩ := h s i is hs
    obtain ⟨hend, hrun⟩ := ih _ hI
    exact ⟨hend, by rw [feed_cons, List.flatMap_append, ← List.append_assoc, hout, hrun]⟩

end FusionMlx.Transducers
