import Mathlib.Data.List.Sort

/-!
# Insertion sort is stable under filtering

For a total preorder, removing elements before or after sorting gives the same
list, and sorting depends on the order only at the elements of the list.
-/
namespace FusionMlx.StableSort

variable {α : Type} {r : α → α → Prop} [DecidableRel r]

theorem orderedInsert_of_forall {x : α} {l : List α} (h : ∀ y ∈ l, r x y) :
    l.orderedInsert r x = x :: l := by
  cases l with
  | nil => rfl
  | cons y l => exact List.orderedInsert_cons_of_le r l (h y (by simp))

theorem filter_orderedInsert [IsTrans α r] (p : α → Bool) (x : α) {l : List α}
    (hl : l.Pairwise r) : (l.orderedInsert r x).filter p =
      if p x then (l.filter p).orderedInsert r x else l.filter p := by
  induction hl with
  | nil => by_cases hx : p x <;> simp [hx]
  | @cons b l hb hl ih =>
    by_cases hxb : r x b
    · have hall : ∀ y ∈ (b :: l).filter p, r x y := by
        intro y hy
        rcases List.mem_cons.mp (List.mem_filter.mp hy).1 with rfl | hm
        · exact hxb
        · exact IsTrans.trans _ _ _ hxb (hb y hm)
      rw [List.orderedInsert_cons_of_le r l hxb, orderedInsert_of_forall hall, List.filter_cons]
    · rw [List.orderedInsert_of_not_le r l hxb, List.filter_cons, List.filter_cons, ih]
      by_cases hbp : p b <;> by_cases hxp : p x <;> simp [hbp, hxp, hxb]

theorem filter_insertionSort [IsTrans α r] [Std.Total r] (p : α → Bool) (l : List α) :
    (l.insertionSort r).filter p = (l.filter p).insertionSort r := by
  induction l with
  | nil => rfl
  | cons x l ih =>
    rw [List.insertionSort_cons, filter_orderedInsert p x (List.pairwise_insertionSort r l), ih,
      List.filter_cons]
    by_cases hx : p x <;> simp [hx]

theorem insertionSort_congr {r' : α → α → Prop} [DecidableRel r'] {l : List α}
    (h : ∀ x ∈ l, ∀ y ∈ l, r x y ↔ r' x y) : l.insertionSort r = l.insertionSort r' := by
  simpa using List.map_insertionSort (r := r) (s := r') id l h

end FusionMlx.StableSort
