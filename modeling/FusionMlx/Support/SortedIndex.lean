import Mathlib.Data.List.Nodup
import Mathlib.Order.Lattice

/-!
# Sorted lists searched by bisection

A list searched by halving, as the standard bisection module does it. On a
list that a predicate splits, the search finds the split; on a strictly
increasing list inserting and removing a key keep the order.
-/
namespace FusionMlx.SortedIndex

variable {κ : Type}

def bisectLoop (below : κ → Bool) (xs : List κ) : Nat → Nat → Nat → Nat
  | 0, lo, _ => lo
  | fuel + 1, lo, hi =>
    if lo < hi then
      match xs[(lo + hi) / 2]? with
      | some y =>
        if below y then bisectLoop below xs fuel ((lo + hi) / 2 + 1) hi
        else bisectLoop below xs fuel lo ((lo + hi) / 2)
      | none => lo
    else lo

def bisect (below : κ → Bool) (xs : List κ) : Nat := bisectLoop below xs xs.length 0 xs.length

/-- Everything before `lo` is below, nothing from `hi` on is. -/
structure Splits (below : κ → Bool) (xs : List κ) (lo hi : Nat) : Prop where
  le : lo ≤ hi
  bound : hi ≤ xs.length
  before : ∀ i y, i < lo → xs[i]? = some y → below y
  after : ∀ i y, hi ≤ i → xs[i]? = some y → ¬ below y

variable {below : κ → Bool} {xs : List κ} {lo hi : Nat}

/-- On a list that `below` splits, what is before an element below is below too. -/
theorem below_before (hp : xs.Pairwise (fun a b => below b → below a)) {i j : Nat} {y z : κ}
    (hij : i < j) (hy : xs[i]? = some y) (hz : xs[j]? = some z) (hb : below z) : below y := by
  obtain ⟨hi, rfl⟩ := List.getElem?_eq_some_iff.mp hy
  obtain ⟨hj, rfl⟩ := List.getElem?_eq_some_iff.mp hz
  exact List.pairwise_iff_getElem.mp hp i j hi hj hij hb

theorem bisectLoop_splits (hp : xs.Pairwise (fun a b => below b → below a)) (fuel : Nat)
    (h : Splits below xs lo hi) (hf : hi - lo ≤ fuel) :
    Splits below xs (bisectLoop below xs fuel lo hi) (bisectLoop below xs fuel lo hi) := by
  induction fuel generalizing lo hi with
  | zero =>
    have heq : lo = hi := by have := h.le; omega
    subst heq
    exact h
  | succ fuel ih =>
    rw [bisectLoop]
    split
    · rename_i hlt
      have hm : (lo + hi) / 2 < xs.length := by have := h.bound; omega
      have hy : xs[(lo + hi) / 2]? = some xs[(lo + hi) / 2] := List.getElem?_eq_getElem hm
      rw [hy]
      by_cases hb : below xs[(lo + hi) / 2] = true
      · simp only [hb, if_true]
        refine ih ⟨by omega, h.bound, ?_, h.after⟩ (by omega)
        intro i y hi' hiy
        by_cases heq : i = (lo + hi) / 2
        · subst heq
          rw [hy, Option.some.injEq] at hiy
          rw [← hiy]
          exact hb
        · exact below_before hp (by omega) hiy hy hb
      · simp only [hb]
        refine ih ⟨by omega, by omega, h.before, ?_⟩ (by omega)
        intro i y hi' hiy
        by_cases heq : i = (lo + hi) / 2
        · subst heq
          rw [hy, Option.some.injEq] at hiy
          rw [← hiy]
          exact hb
        · intro hby
          exact hb (below_before hp (by omega) hy hiy hby)
    · have heq : lo = hi := by have := h.le; omega
      subst heq
      exact h

theorem bisect_splits (hp : xs.Pairwise (fun a b => below b → below a)) :
    Splits below xs (bisect below xs) (bisect below xs) := by
  refine bisectLoop_splits hp xs.length ⟨Nat.zero_le _, Nat.le_refl _, ?_, ?_⟩ (by omega)
  · intro i y hi
    omega
  · intro i y hi hy
    have hlt := (List.getElem?_eq_some_iff.mp hy).1
    omega

theorem mem_take_bisect (hp : xs.Pairwise (fun a b => below b → below a)) {y : κ}
    (hy : y ∈ xs.take (bisect below xs)) : below y := by
  obtain ⟨i, hi⟩ := List.mem_iff_getElem?.mp hy
  rw [List.getElem?_take] at hi
  split at hi
  · exact (bisect_splits hp).before i y ‹_› hi
  · simp at hi

theorem mem_drop_bisect (hp : xs.Pairwise (fun a b => below b → below a)) {y : κ}
    (hy : y ∈ xs.drop (bisect below xs)) : ¬ below y := by
  obtain ⟨i, hi⟩ := List.mem_iff_getElem?.mp hy
  rw [List.getElem?_drop] at hi
  exact (bisect_splits hp).after _ y (by omega) hi

variable [LinearOrder κ]

def bisectLeft (xs : List κ) (x : κ) : Nat := bisect (fun y => decide (y < x)) xs

def bisectRight (xs : List κ) (x : κ) : Nat := bisect (fun y => decide (y ≤ x)) xs

def insort (xs : List κ) (x : κ) : List κ :=
  xs.take (bisectRight xs x) ++ x :: xs.drop (bisectRight xs x)

def removeSorted (xs : List κ) (x : κ) : List κ :=
  if xs[bisectLeft xs x]? = some x then xs.eraseIdx (bisectLeft xs x) else xs

variable {x y : κ}

theorem left_splits (h : xs.Pairwise (· < ·)) :
    xs.Pairwise (fun a b => decide (b < x) = true → decide (a < x) = true) :=
  h.imp fun hab hb => by
    rw [decide_eq_true_eq] at hb ⊢
    exact hab.trans hb

theorem right_splits (h : xs.Pairwise (· < ·)) :
    xs.Pairwise (fun a b => decide (b ≤ x) = true → decide (a ≤ x) = true) :=
  h.imp fun hab hb => by
    rw [decide_eq_true_eq] at hb ⊢
    exact hab.le.trans hb

theorem mem_insort : y ∈ insort xs x ↔ y = x ∨ y ∈ xs := by
  have hy : y ∈ xs ↔ y ∈ xs.take (bisectRight xs x) ∨ y ∈ xs.drop (bisectRight xs x) := by
    rw [← List.mem_append, List.take_append_drop]
  rw [insort, List.mem_append, List.mem_cons, hy]
  tauto

theorem insort_sorted (h : xs.Pairwise (· < ·)) (hx : x ∉ xs) : (insort xs x).Pairwise (· < ·) := by
  have hcut : (xs.take (bisectRight xs x) ++ xs.drop (bisectRight xs x)).Pairwise (· < ·) := by
    rwa [List.take_append_drop]
  obtain ⟨hl, hr, hlr⟩ := List.pairwise_append.mp hcut
  have hbefore : ∀ y ∈ xs.take (bisectRight xs x), y < x := by
    intro y hy
    have hle : y ≤ x := of_decide_eq_true (mem_take_bisect (right_splits h) hy)
    refine lt_of_le_of_ne hle ?_
    rintro rfl
    exact hx (List.mem_of_mem_take hy)
  have hafter : ∀ y ∈ xs.drop (bisectRight xs x), x < y := by
    intro y hy
    have hle : ¬ decide (y ≤ x) = true := mem_drop_bisect (right_splits h) hy
    rwa [decide_eq_true_eq, not_le] at hle
  rw [insort, List.pairwise_append]
  refine ⟨hl, List.pairwise_cons.mpr ⟨hafter, hr⟩, ?_⟩
  intro a ha b hb
  cases List.mem_cons.mp hb with
  | inl hb => exact hb ▸ hbefore a ha
  | inr hb => exact hlr a ha b hb

/-- In a strictly increasing list a key is found where the search ends. -/
theorem getElem?_bisectLeft (h : xs.Pairwise (· < ·)) (hx : x ∈ xs) :
    xs[bisectLeft xs x]? = some x := by
  obtain ⟨i, hi⟩ := List.mem_iff_getElem?.mp hx
  have hs := bisect_splits (left_splits (x := x) h)
  have heq : i = bisectLeft xs x := by
    apply Nat.le_antisymm
    · by_contra hgt
      rw [Nat.not_le] at hgt
      have hlt := (List.getElem?_eq_some_iff.mp hi).1
      have hget : xs[bisectLeft xs x]? = some xs[bisectLeft xs x] :=
        List.getElem?_eq_getElem (Nat.lt_trans hgt hlt)
      have hnb := hs.after _ _ (Nat.le_refl _) hget
      have hord := List.pairwise_iff_getElem.mp h _ _ (Nat.lt_trans hgt hlt) hlt hgt
      rw [(List.getElem?_eq_some_iff.mp hi).2] at hord
      exact hnb (decide_eq_true hord)
    · by_contra hlt
      rw [Nat.not_le] at hlt
      have hb := hs.before i x hlt hi
      simp at hb
  rwa [heq] at hi

theorem removeSorted_sublist : (removeSorted xs x).Sublist xs := by
  unfold removeSorted
  split
  · exact List.eraseIdx_sublist _ _
  · exact List.Sublist.refl _

theorem mem_removeSorted (h : xs.Pairwise (· < ·)) :
    y ∈ removeSorted xs x ↔ y ∈ xs ∧ y ≠ x := by
  unfold removeSorted
  split
  · rename_i hget
    have hn : xs.Nodup := h.imp ne_of_lt
    obtain ⟨hlt, hx⟩ := List.getElem?_eq_some_iff.mp hget
    rw [← hn.erase_getElem _ hlt, hx, hn.mem_erase_iff]
    tauto
  · rename_i hget
    refine ⟨fun hy => ⟨hy, ?_⟩, And.left⟩
    rintro rfl
    exact hget (getElem?_bisectLeft h hy)

theorem removeSorted_sorted (h : xs.Pairwise (· < ·)) : (removeSorted xs x).Pairwise (· < ·) :=
  h.sublist removeSorted_sublist

end FusionMlx.SortedIndex
