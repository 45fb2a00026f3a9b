import Mathlib.Data.List.Nodup

/-!
# Doubly linked lists held as two pointer maps

`Links` is the pointer store of a set of nodes; `Threads L ys` says that the
nodes `ys` are linked in that order, forwards and backwards, and that every
other node is linked to nothing. The edits are `join` and `detach`; every list
operation is a composition of the two.
-/
namespace FusionMlx.LinkedQueue

variable {ν : Type} [DecidableEq ν]

structure Links (ν : Type) where
  prev : ν → Option ν
  next : ν → Option ν

namespace Links

def join (L : Links ν) (a b : ν) : Links ν :=
  ⟨Function.update L.prev b (some a), Function.update L.next a (some b)⟩

def detach (L : Links ν) (x : ν) : Links ν :=
  ⟨Function.update L.prev x none, Function.update L.next x none⟩

def detachAll (L : Links ν) (xs : List ν) : Links ν := xs.foldl detach L

def joinAll (L : Links ν) (a : ν) : List ν → Links ν × ν
  | [] => (L, a)
  | x :: xs => joinAll (L.join a x) x xs

def walk (L : Links ν) (stop : ν) : Nat → Option ν → List ν
  | 0, _ => []
  | _ + 1, none => []
  | n + 1, some x => if x = stop then [] else x :: walk L stop n (L.next x)

@[simp] theorem join_next_self (L : Links ν) (a b : ν) : (L.join a b).next a = some b := by
  simp [join]

@[simp] theorem join_prev_self (L : Links ν) (a b : ν) : (L.join a b).prev b = some a := by
  simp [join]

theorem join_next_ne (L : Links ν) {a b x : ν} (h : x ≠ a) : (L.join a b).next x = L.next x := by
  simp [join, h]

theorem join_prev_ne (L : Links ν) {a b x : ν} (h : x ≠ b) : (L.join a b).prev x = L.prev x := by
  simp [join, h]

theorem detach_prev (L : Links ν) (x y : ν) :
    (L.detach x).prev y = if y = x then none else L.prev y := by
  by_cases h : y = x <;> simp [detach, h]

theorem detach_next (L : Links ν) (x y : ν) :
    (L.detach x).next y = if y = x then none else L.next y := by
  by_cases h : y = x <;> simp [detach, h]

theorem detachAll_prev (L : Links ν) (xs : List ν) (y : ν) :
    (L.detachAll xs).prev y = if y ∈ xs then none else L.prev y := by
  induction xs generalizing L with
  | nil => simp [detachAll]
  | cons x xs ih =>
    change ((L.detach x).detachAll xs).prev y = _
    rw [ih, detach_prev]
    by_cases h : y = x <;> simp [h]

theorem detachAll_next (L : Links ν) (xs : List ν) (y : ν) :
    (L.detachAll xs).next y = if y ∈ xs then none else L.next y := by
  induction xs generalizing L with
  | nil => simp [detachAll]
  | cons x xs ih =>
    change ((L.detach x).detachAll xs).next y = _
    rw [ih, detach_next]
    by_cases h : y = x <;> simp [h]

end Links

def Chained (L : Links ν) : List ν → Prop
  | x :: y :: rest => L.next x = some y ∧ L.prev y = some x ∧ Chained L (y :: rest)
  | _ => True

omit [DecidableEq ν] in
/-- A chain splits at any of its nodes. -/
theorem chained_append (L : Links ν) (l r : List ν) (x : ν) :
    Chained L (l ++ x :: r) ↔ Chained L (l ++ [x]) ∧ Chained L (x :: r) := by
  induction l with
  | nil => simp [Chained]
  | cons a l ih =>
    cases l with
    | nil => simp only [List.cons_append, List.nil_append, Chained, and_true, and_assoc]
    | cons b l =>
      simp only [List.cons_append, Chained] at ih ⊢
      rw [ih]
      simp only [and_assoc]

variable {L : Links ν}

omit [DecidableEq ν] in
/-- A chain reads the forward pointer of every node but the last and the
backward pointer of every node but the first. -/
theorem Chained.transport {L' : Links ν} {ys : List ν} (h : Chained L ys)
    (hn : ∀ x ∈ ys.dropLast, L'.next x = L.next x) (hp : ∀ x ∈ ys.tail, L'.prev x = L.prev x) :
    Chained L' ys := by
  induction ys with
  | nil => trivial
  | cons a ys ih =>
    cases ys with
    | nil => trivial
    | cons b ys =>
      obtain ⟨h₁, h₂, h₃⟩ := h
      refine ⟨?_, ?_, ih h₃ ?_ ?_⟩
      · rw [hn a (by simp)]; exact h₁
      · rw [hp b (by simp)]; exact h₂
      · intro x hx; exact hn x (by simp [List.dropLast, hx])
      · intro x hx; exact hp x (List.mem_of_mem_tail hx)

/-- Adding a node behind the last one. -/
theorem Chained.join_end {ys : List ν} {a b : ν} (h : Chained L (ys ++ [a]))
    (ha : a ∉ ys) (hb : b ∉ ys ++ [a]) : Chained (L.join a b) (ys ++ [a, b]) := by
  rw [show ys ++ [a, b] = ys ++ a :: [b] from rfl, chained_append]
  refine ⟨h.transport ?_ ?_, by simp [Chained]⟩
  · intro x hx
    rw [List.dropLast_concat] at hx
    exact L.join_next_ne (by rintro rfl; exact ha hx)
  · intro x hx
    exact L.join_prev_ne (by rintro rfl; exact hb (List.mem_of_mem_tail hx))

variable {xs : List ν}

theorem Chained.joinAll {ys : List ν} {a : ν} (h : Chained L (ys ++ [a]))
    (hnd : (ys ++ a :: xs).Nodup) : Chained (L.joinAll a xs).1 (ys ++ a :: xs) := by
  induction xs generalizing L ys a with
  | nil => exact h
  | cons x xs ih =>
    have hstep : Chained (L.join a x) ((ys ++ [a]) ++ [x]) := by
      have hnd' := List.nodup_append.mp hnd
      have ha : a ∉ ys := fun hm => hnd'.2.2 a hm a (by simp) rfl
      have hx : x ∉ ys ++ [a] := by
        intro hm
        rcases List.mem_append.mp hm with hm | hm
        · exact hnd'.2.2 x hm x (by simp) rfl
        · have := (List.nodup_cons.mp hnd'.2.1).1
          simp_all
      simpa using h.join_end ha hx
    have := ih hstep (by simpa using hnd)
    simpa [Links.joinAll] using this

theorem joinAll_last (L : Links ν) (a : ν) (xs : List ν) :
    (L.joinAll a xs).2 = (a :: xs).getLast (by simp) := by
  induction xs generalizing L a with
  | nil => rfl
  | cons x xs ih => simpa [Links.joinAll] using ih (L.join a x) x

theorem joinAll_other (L : Links ν) (a : ν) (xs : List ν) (y : ν) (hy : y ∉ a :: xs) :
    (L.joinAll a xs).1.prev y = L.prev y ∧ (L.joinAll a xs).1.next y = L.next y := by
  induction xs generalizing L a with
  | nil => exact ⟨rfl, rfl⟩
  | cons x xs ih =>
    simp only [List.mem_cons, not_or] at hy
    have h := ih (L.join a x) x (by simp [hy])
    simp only [Links.joinAll]
    rw [h.1, h.2, L.join_prev_ne hy.2.1, L.join_next_ne hy.1]
    exact ⟨rfl, rfl⟩

/-- Joining two nodes of a chain drops the segment between them. -/
theorem Chained.bypass {l mid r : List ν} {a b : ν}
    (h : Chained L (l ++ a :: (mid ++ b :: r))) (hnd : (l ++ a :: (mid ++ b :: r)).Nodup) :
    Chained (L.join a b) (l ++ a :: b :: r) := by
  rw [chained_append] at h
  have hr : Chained L (b :: r) := by
    have := h.2
    rw [← List.cons_append, chained_append] at this
    exact this.2
  have hnd' := List.nodup_append.mp hnd
  have hcons := List.nodup_cons.mp hnd'.2.1
  have hal : a ∉ l := fun hm => hnd'.2.2 a hm a (by simp) rfl
  have hbl : b ∉ l := fun hm => hnd'.2.2 b hm b (by simp) rfl
  have hab : b ≠ a := by rintro rfl; exact hcons.1 (by simp)
  have har : a ∉ b :: r := fun hm => hcons.1 (List.mem_append_right _ hm)
  have hbr : b ∉ r := (List.nodup_cons.mp (List.nodup_append.mp hcons.2).2.1).1
  rw [chained_append]
  refine ⟨h.1.transport ?_ ?_, by simp, by simp, hr.transport ?_ ?_⟩
  · intro x hx
    rw [List.dropLast_concat] at hx
    exact L.join_next_ne (by rintro rfl; exact hal hx)
  · intro x hx
    refine L.join_prev_ne ?_
    rintro rfl
    rcases List.mem_append.mp (List.mem_of_mem_tail hx) with hm | hm
    · exact hbl hm
    · exact hab (List.mem_singleton.mp hm)
  · intro x hx
    exact L.join_next_ne (by rintro rfl; exact har (List.dropLast_subset _ hx))
  · intro x hx
    exact L.join_prev_ne (by rintro rfl; exact hbr hx)

/-- The nodes `ys` are linked in order and no other node is linked. -/
structure Threads (L : Links ν) (ys : List ν) : Prop where
  nodup : ys.Nodup
  chained : Chained L ys
  outside : ∀ x, x ∉ ys → L.prev x = none ∧ L.next x = none

/-- Cutting a segment out: clear its nodes and join its two neighbours. -/
theorem Threads.cut {l mid r : List ν} {a b : ν}
    (h : Threads L (l ++ a :: (mid ++ b :: r))) :
    Threads ((L.detachAll mid).join a b) (l ++ a :: b :: r) := by
  have hnd' := List.nodup_append.mp h.nodup
  have hcons := List.nodup_cons.mp hnd'.2.1
  have hmid := List.nodup_append.mp hcons.2
  have hlm : ∀ x ∈ l, x ∉ mid := fun x hx hm => hnd'.2.2 x hx x (by simp [hm]) rfl
  have ham : a ∉ mid := fun hm => hcons.1 (List.mem_append_left _ hm)
  have hmr : ∀ x ∈ mid, x ∉ b :: r := fun x hx hm => hmid.2.2 x hx x hm rfl
  have hsub : (l ++ a :: b :: r).Sublist (l ++ a :: (mid ++ b :: r)) :=
    List.Sublist.append_left ((List.sublist_append_right mid (b :: r)).cons_cons a) l
  have hchain : Chained (L.join a b) (l ++ a :: b :: r) := h.chained.bypass h.nodup
  have hkeep : ∀ x ∈ l ++ a :: b :: r, x ∉ mid := by
    intro x hx
    rcases List.mem_append.mp hx with hx | hx
    · exact hlm x hx
    · rcases List.mem_cons.mp hx with rfl | hx
      · exact ham
      · exact fun hm => hmr x hm hx
  refine ⟨h.nodup.sublist hsub, hchain.transport ?_ ?_, ?_⟩
  · intro x hx
    by_cases hxa : x = a
    · simp [hxa]
    · rw [Links.join_next_ne _ hxa, Links.join_next_ne _ hxa, Links.detachAll_next,
        if_neg (hkeep x (List.dropLast_subset _ hx))]
  · intro x hx
    by_cases hxb : x = b
    · simp [hxb]
    · rw [Links.join_prev_ne _ hxb, Links.join_prev_ne _ hxb, Links.detachAll_prev,
        if_neg (hkeep x (List.mem_of_mem_tail hx))]
  · intro x hx
    simp only [List.mem_append, List.mem_cons, not_or] at hx
    rw [Links.join_prev_ne _ hx.2.2.1, Links.join_next_ne _ hx.2.1, Links.detachAll_prev,
      Links.detachAll_next]
    by_cases hm : x ∈ mid
    · simp [hm]
    · rw [if_neg hm, if_neg hm]
      exact h.outside x (by simp [hx, hm])

/-- Clearing a node commutes with joining two others. -/
theorem detach_join {a b x : ν} (ha : x ≠ a) (hb : x ≠ b) :
    (L.join a b).detach x = (L.detach x).join a b := by
  simp only [Links.detach, Links.join, Links.mk.injEq]
  exact ⟨Function.update_comm hb.symm _ _ _, Function.update_comm ha.symm _ _ _⟩

/-- Unlinking one node: join its neighbours, then clear it. -/
theorem Threads.unlink {l r : List ν} {a x b : ν}
    (h : Threads L (l ++ a :: x :: b :: r)) :
    Threads ((L.join a b).detach x) (l ++ a :: b :: r) := by
  have hnd := (List.nodup_append.mp h.nodup).2.1
  simp only [List.nodup_cons, List.mem_cons, not_or] at hnd
  rw [detach_join (Ne.symm hnd.1.1) hnd.2.1.1]
  exact @Threads.cut ν _ L l [x] r a b h

/-- Linking a segment of fresh nodes in front of the last node. -/
theorem Threads.splice {l : List ν} {a t : ν} (h : Threads L (l ++ [a, t]))
    (hxs : xs.Nodup) (hfresh : ∀ x ∈ xs, x ∉ l ++ [a, t]) :
    Threads ((L.joinAll a xs).1.join (L.joinAll a xs).2 t) (l ++ a :: (xs ++ [t])) := by
  have hnd : (l ++ a :: (xs ++ [t])).Nodup := by
    have h₀ := List.nodup_append.mp h.nodup
    have h₁ := List.nodup_cons.mp h₀.2.1
    rw [List.nodup_append]
    refine ⟨h₀.1, ?_, ?_⟩
    · rw [List.nodup_cons, List.nodup_append]
      refine ⟨?_, hxs, by simp, ?_⟩
      · intro hm
        rcases List.mem_append.mp hm with hm | hm
        · exact hfresh a hm (by simp)
        · exact h₁.1 hm
      · intro x hx y hy hxy
        subst hxy
        rw [List.mem_singleton] at hy
        exact hfresh x hx (by simp [hy])
    · intro x hx y hy hxy
      subst hxy
      rcases List.mem_cons.mp hy with rfl | hy
      · exact h₀.2.2 x hx x (by simp) rfl
      rcases List.mem_append.mp hy with hy | hy
      · exact hfresh x hy (by simp [hx])
      · rw [List.mem_singleton] at hy
        exact h₀.2.2 x hx x (by simp [hy]) rfl
  have hopen : Chained L (l ++ [a]) := by
    have := h.chained
    rw [chained_append] at this
    exact this.1
  have hnd₁ : (l ++ a :: xs).Nodup := hnd.sublist (by
    simp)
  have hall := hopen.joinAll hnd₁
  have hsplit : a :: xs = (a :: xs).dropLast ++ [(L.joinAll a xs).2] := by
    rw [joinAll_last]
    exact (List.dropLast_append_getLast (by simp)).symm
  refine ⟨hnd, ?_, ?_⟩
  · have hlast : l ++ a :: xs = (l ++ (a :: xs).dropLast) ++ [(L.joinAll a xs).2] := by
      rw [List.append_assoc, ← hsplit]
    rw [hlast] at hall hnd₁
    have ht : t ∉ (l ++ (a :: xs).dropLast) ++ [(L.joinAll a xs).2] := by
      rw [← hlast]
      have h₂ : ((l ++ a :: xs) ++ [t]).Nodup := by simpa using hnd
      exact fun hm => (List.nodup_append.mp h₂).2.2 t hm t (by simp) rfl
    have hlastfresh : (L.joinAll a xs).2 ∉ l ++ (a :: xs).dropLast := fun hm =>
      (List.nodup_append.mp hnd₁).2.2 _ hm _ (by simp) rfl
    have hend := hall.join_end hlastfresh ht
    have he : l ++ (a :: xs).dropLast ++ [(L.joinAll a xs).2, t] = l ++ a :: (xs ++ [t]) := by
      have : l ++ (a :: xs).dropLast ++ [(L.joinAll a xs).2, t] =
          (l ++ (a :: xs).dropLast ++ [(L.joinAll a xs).2]) ++ [t] := by simp
      rw [this, ← hlast]
      simp
    rw [he] at hend
    exact hend
  · intro x hx
    simp only [List.mem_append, List.mem_cons, List.not_mem_nil, or_false, not_or] at hx
    have hne : x ≠ (L.joinAll a xs).2 := by
      rintro rfl
      have : (L.joinAll a xs).2 ∈ a :: xs := by rw [joinAll_last]; exact List.getLast_mem _
      simp [hx] at this
    have h₁ := joinAll_other L a xs x (by simp [hx])
    rw [Links.join_prev_ne _ hx.2.2.2, Links.join_next_ne _ hne, h₁.1, h₁.2]
    exact h.outside x (by simp [hx])

/-- Nodes are linked on both sides exactly when they are inner nodes of the list. -/
theorem Threads.linked_iff {a t x : ν}
    (h : Threads L (a :: (xs ++ [t]))) (ha : x ≠ a) (ht : x ≠ t) :
    (L.prev x ≠ none ∧ L.next x ≠ none) ↔ x ∈ xs := by
  constructor
  · intro hx
    by_contra hm
    exact hx.1 (h.outside x (by simp [ha, ht, hm])).1
  · intro hm
    obtain ⟨p, q, rfl⟩ := List.append_of_mem hm
    have hc := h.chained
    obtain ⟨b, r, hbr⟩ : ∃ b r, q ++ [t] = b :: r := by
      cases q with
      | nil => exact ⟨t, [], rfl⟩
      | cons b q => exact ⟨b, q ++ [t], rfl⟩
    have hnext : L.next x = some b := by
      have : a :: (p ++ x :: q ++ [t]) = (a :: p) ++ x :: b :: r := by simp [← hbr]
      rw [this, chained_append] at hc
      exact hc.2.1
    obtain ⟨l, c, hlc⟩ : ∃ l c, a :: p = l ++ [c] :=
      ⟨(a :: p).dropLast, (a :: p).getLast (by simp), (List.dropLast_append_getLast (by simp)).symm⟩
    have hprev : L.prev x = some c := by
      have : a :: (p ++ x :: q ++ [t]) = l ++ c :: x :: (q ++ [t]) := by
        rw [show a :: (p ++ x :: q ++ [t]) = (a :: p) ++ x :: (q ++ [t]) by simp, hlc]
        simp
      rw [this, chained_append] at hc
      exact hc.2.2.1
    simp [hnext, hprev]

/-- With enough fuel the walk visits the inner nodes in order. -/
theorem Threads.walk_eq {l : List ν} {a t : ν}
    (h : Threads L (l ++ a :: (xs ++ [t]))) {n : Nat} (hn : xs.length < n) :
    L.walk t n (L.next a) = xs := by
  induction xs generalizing l a n with
  | nil =>
    have hc := h.chained
    rw [chained_append] at hc
    obtain ⟨m, rfl⟩ := Nat.exists_eq_add_of_lt hn
    simp [hc.2.1, Links.walk]
  | cons x xs ih =>
    have hc := h.chained
    rw [chained_append] at hc
    have hx : x ≠ t := by
      have hnd := (List.nodup_append.mp h.nodup).2.1
      simp only [List.cons_append, List.nodup_cons, List.mem_append, List.mem_cons,
        not_or] at hnd
      exact hnd.2.1.2.1
    cases n with
    | zero => simp at hn
    | succ n =>
      have hstep := ih (l := l ++ [a]) (a := x) (n := n) (by simpa using h)
        (by simpa using hn)
      rw [hc.2.1]
      simp [Links.walk, hx, hstep]

end FusionMlx.LinkedQueue
