import FusionMlx.Cache.BlockHashing
import FusionMlx.Support.LinkedQueue

/-!
# The free-block queue

`FreeKVCacheBlockQueue` with its two fake sentinels and the pointers that the
source keeps on the blocks themselves. `Holds q xs` says that the queue is the
list `xs`; every method then is the corresponding list operation.
-/
namespace FusionMlx.FreeBlockQueue

open BlockHashing (PyError)
open LinkedQueue

inductive Node where
  | fakeHead
  | fakeTail
  | block (blockId : Nat)
  deriving DecidableEq, Repr

structure FreeKVCacheBlockQueue where
  numFreeBlocks : Int
  links : Links Node

namespace FreeKVCacheBlockQueue

def joinHead (L : Links Node) : Option Node → Links Node
  | some y => L.join .fakeHead y
  | none => ⟨L.prev, Function.update L.next .fakeHead none⟩

def popleft (q : FreeKVCacheBlockQueue) : Except PyError (Nat × FreeKVCacheBlockQueue) :=
  match q.links.next .fakeHead with
  | some .fakeTail => .error .valueError
  | some (.block b) =>
    .ok (b, ⟨q.numFreeBlocks - 1,
      (joinHead q.links (q.links.next (.block b))).detach (.block b)⟩)
  | _ => .error .assertionError

def takeFront : Nat → Option Node → Links Node → Option (List Nat × Option Node × Links Node)
  | 0, curr, L => some ([], curr, L)
  | n + 1, some (.block b), L =>
    (takeFront n (L.next (.block b)) (L.detach (.block b))).map (fun r => (b :: r.1, r.2))
  | _ + 1, _, _ => none

def popleftN (q : FreeKVCacheBlockQueue) (n : Nat) :
    Except PyError (List Nat × FreeKVCacheBlockQueue) :=
  if n = 0 then .ok ([], q)
  else if q.numFreeBlocks < n then .error .assertionError
  else match takeFront n (q.links.next .fakeHead) q.links with
    | some (bs, curr, L) => .ok (bs, ⟨q.numFreeBlocks - n, joinHead L curr⟩)
    | none => .error .assertionError

def remove (q : FreeKVCacheBlockQueue) (b : Nat) : Except PyError FreeKVCacheBlockQueue :=
  match q.links.prev (.block b), q.links.next (.block b) with
  | some p, some n => .ok ⟨q.numFreeBlocks - 1, (q.links.join p n).detach (.block b)⟩
  | _, _ => .error .runtimeError

def appendN (q : FreeKVCacheBlockQueue) (bs : List Nat) : FreeKVCacheBlockQueue :=
  if bs = [] then q
  else match q.links.prev .fakeTail with
    | some last =>
      let r := q.links.joinAll last (bs.map .block)
      ⟨q.numFreeBlocks + bs.length, r.1.join r.2 .fakeTail⟩
    | none => q

def append (q : FreeKVCacheBlockQueue) (b : Nat) : FreeKVCacheBlockQueue :=
  match q.links.prev .fakeTail with
  | some last =>
    ⟨q.numFreeBlocks + 1, (q.links.join last (.block b)).join (.block b) .fakeTail⟩
  | none => q

def isInQueue (q : FreeKVCacheBlockQueue) (b : Nat) : Bool :=
  (q.links.prev (.block b)).isSome && (q.links.next (.block b)).isSome

def init (n : Nat) : FreeKVCacheBlockQueue :=
  appendN ⟨0, (⟨fun _ => none, fun _ => none⟩ : Links Node).join .fakeHead .fakeTail⟩
    (List.range n)

/-- The queue is the list `xs`: forward and backward links agree, nothing else
is linked, and the counter is the length. -/
structure Holds (q : FreeKVCacheBlockQueue) (xs : List Nat) : Prop where
  threads : Threads q.links (.fakeHead :: (xs.map Node.block ++ [.fakeTail]))
  count : q.numFreeBlocks = xs.length

variable {q : FreeKVCacheBlockQueue} {xs : List Nat}

theorem Holds.next_head (h : q.Holds xs) :
    q.links.next .fakeHead = (xs.map Node.block ++ [Node.fakeTail]).head? := by
  have hc := h.threads.chained
  cases xs <;> exact hc.1

theorem Holds.prev_tail (h : q.Holds xs) :
    ∃ l a, Node.fakeHead :: xs.map Node.block = l ++ [a] ∧ q.links.prev .fakeTail = some a := by
  refine ⟨(Node.fakeHead :: xs.map Node.block).dropLast,
    (Node.fakeHead :: xs.map Node.block).getLast (by simp),
    (List.dropLast_append_getLast (by simp)).symm, ?_⟩
  have hc := h.threads.chained
  rw [← List.cons_append, ← List.dropLast_append_getLast (show
    Node.fakeHead :: xs.map Node.block ≠ [] by simp), List.append_assoc, List.singleton_append,
    chained_append] at hc
  exact hc.2.2.1

theorem Holds.popleft_nil (h : q.Holds []) :
    q.popleft = .error .valueError := by
  have hn := h.next_head
  simp only [List.map_nil, List.nil_append, List.head?_cons] at hn
  simp [popleft, hn]

theorem Holds.popleft_cons {b : Nat}
    (h : q.Holds (b :: xs)) : ∃ q', q.popleft = .ok (b, q') ∧ q'.Holds xs := by
  have hn := h.next_head
  simp only [List.map_cons, List.cons_append, List.head?_cons] at hn
  obtain ⟨y, ys, hy⟩ : ∃ y ys, xs.map Node.block ++ [Node.fakeTail] = y :: ys :=
    List.exists_cons_of_ne_nil (by simp)
  have ht : Threads q.links ([] ++ Node.fakeHead :: Node.block b :: y :: ys) := by
    have := h.threads
    rw [List.map_cons, List.cons_append, hy] at this
    exact this
  have hb : q.links.next (.block b) = some y := ht.chained.2.2.1
  refine ⟨_, by simp only [popleft, hn]; rfl, ?_, ?_⟩
  · rw [hb, hy]
    exact ht.unlink
  · have hc := h.count
    simp only [List.length_cons] at hc
    simp only [hc]
    push_cast
    omega

/-- Collecting the first blocks of a chain clears exactly their pointers. -/
theorem takeFront_eq (bs : List Nat) (curr : Option Node) (L : Links Node) (rest : List Node)
    (hnd : (bs.map Node.block ++ rest).Nodup) (hc : Chained L (bs.map Node.block ++ rest))
    (hcurr : curr = (bs.map Node.block ++ rest).head?) (hrest : rest ≠ []) :
    takeFront bs.length curr L =
      some (bs, rest.head?, L.detachAll (bs.map Node.block)) := by
  induction bs generalizing curr L with
  | nil => simpa [takeFront, Links.detachAll] using hcurr
  | cons b bs ih =>
    simp only [List.map_cons, List.cons_append, List.head?_cons] at hcurr
    subst hcurr
    obtain ⟨y, ys, hy⟩ : ∃ y ys, bs.map Node.block ++ rest = y :: ys :=
      List.exists_cons_of_ne_nil (by simp [hrest])
    rw [List.map_cons, List.cons_append] at hnd hc
    have hb := (List.nodup_cons.mp hnd).1
    rw [hy] at hc
    have hnext : L.next (.block b) = (bs.map Node.block ++ rest).head? := by
      rw [hy]
      exact hc.1
    have htail : Chained (L.detach (.block b)) (bs.map Node.block ++ rest) := by
      rw [hy]
      refine hc.2.2.transport ?_ ?_
      · intro x hx
        rw [Links.detach_next, if_neg]
        rintro rfl
        exact hb (hy ▸ List.dropLast_subset _ hx)
      · intro x hx
        rw [Links.detach_prev, if_neg]
        rintro rfl
        exact hb (hy ▸ List.mem_of_mem_tail hx)
    have h := ih (L.next (.block b)) (L.detach (.block b)) (List.nodup_cons.mp hnd).2 htail hnext
    simp [takeFront, h, Links.detachAll]

theorem Holds.popleftN_append {bs : List Nat}
    (h : q.Holds (bs ++ xs)) :
    ∃ q', q.popleftN bs.length = .ok (bs, q') ∧ q'.Holds xs := by
  by_cases hbs : bs = []
  · subst hbs
    exact ⟨q, by simp [popleftN], h⟩
  obtain ⟨y, ys, hy⟩ : ∃ y ys, xs.map Node.block ++ [Node.fakeTail] = y :: ys :=
    List.exists_cons_of_ne_nil (by simp)
  have ht : Threads q.links ([] ++ Node.fakeHead :: (bs.map Node.block ++ y :: ys)) := by
    have := h.threads
    rw [List.map_append, List.append_assoc, hy] at this
    exact this
  have hnd := (List.nodup_cons.mp ht.nodup).2
  have hc : Chained q.links (bs.map Node.block ++ y :: ys) := by
    have := ht.chained
    cases bs with
    | nil => exact absurd rfl hbs
    | cons b bs => exact this.2.2
  have htake := takeFront_eq bs (q.links.next .fakeHead) q.links (y :: ys) hnd hc (by
    rw [h.next_head, List.map_append, List.append_assoc, hy]) (by simp)
  have hcount := h.count
  simp only [List.length_append, Nat.cast_add] at hcount
  refine ⟨⟨q.numFreeBlocks - bs.length,
    (q.links.detachAll (bs.map Node.block)).join .fakeHead y⟩, ?_, ?_, ?_⟩
  · have hlen : bs.length ≠ 0 := by simpa using hbs
    have hlt : ¬ q.numFreeBlocks < bs.length := by omega
    simp [popleftN, hbs, hlt, htake, joinHead]
  · rw [hy]
    exact ht.cut
  · simp only [hcount]
    omega

theorem Holds.remove_mem {l r : List Nat} {b : Nat}
    (h : q.Holds (l ++ b :: r)) : ∃ q', q.remove b = .ok q' ∧ q'.Holds (l ++ r) := by
  obtain ⟨y, ys, hy⟩ : ∃ y ys, r.map Node.block ++ [Node.fakeTail] = y :: ys :=
    List.exists_cons_of_ne_nil (by simp)
  obtain ⟨p, a, ha⟩ : ∃ p a, Node.fakeHead :: l.map Node.block = p ++ [a] :=
    ⟨_, _, (List.dropLast_append_getLast (by simp)).symm⟩
  have hshape : ∀ m : List Node, Node.fakeHead :: (l.map Node.block ++ m) = p ++ a :: m := by
    intro m
    rw [← List.cons_append, ha]
    simp
  have ht : Threads q.links (p ++ a :: .block b :: y :: ys) := by
    have := h.threads
    rw [List.map_append, List.map_cons, List.append_assoc, List.cons_append, hy, hshape] at this
    exact this
  have hc := ht.chained
  rw [chained_append] at hc
  have hprev : q.links.prev (.block b) = some a := hc.2.2.1
  have hnext : q.links.next (.block b) = some y := hc.2.2.2.1
  refine ⟨_, by simp only [remove, hprev, hnext]; rfl, ?_, ?_⟩
  · rw [List.map_append, List.append_assoc, hy, hshape]
    exact ht.unlink
  · have hcount := h.count
    simp only [List.length_append, List.length_cons] at hcount
    simp only [hcount, List.length_append]
    push_cast
    omega

theorem Holds.isInQueue_iff (h : q.Holds xs)
    (b : Nat) : q.isInQueue b = true ↔ b ∈ xs := by
  have hl := h.threads.linked_iff (show Node.block b ≠ .fakeHead by simp)
    (show Node.block b ≠ .fakeTail by simp)
  simp only [isInQueue, Bool.and_eq_true, Option.isSome_iff_ne_none]
  rw [hl]
  simp

theorem Holds.remove_notMem {b : Nat}
    (h : q.Holds xs) (hb : b ∉ xs) : q.remove b = .error .runtimeError := by
  have ho := h.threads.outside (.block b) (by simp [hb])
  simp [remove, ho.1]

theorem Holds.appendN {bs : List Nat} (h : q.Holds xs)
    (hbs : bs.Nodup) (hfresh : ∀ b ∈ bs, b ∉ xs) : (q.appendN bs).Holds (xs ++ bs) := by
  by_cases he : bs = []
  · subst he
    simpa [FreeKVCacheBlockQueue.appendN] using h
  obtain ⟨l, a, ha, hprev⟩ := h.prev_tail
  have hshape : ∀ m : List Node, Node.fakeHead :: (xs.map Node.block ++ m) = l ++ a :: m := by
    intro m
    rw [← List.cons_append, ha]
    simp
  have ht : Threads q.links (l ++ [a, .fakeTail]) := by
    have := h.threads
    rw [hshape] at this
    exact this
  have hdisj : ∀ x ∈ bs.map Node.block, x ∉ l ++ [a, Node.fakeTail] := by
    intro x hx hm
    obtain ⟨b, hb, rfl⟩ := List.mem_map.mp hx
    rw [← hshape] at hm
    simp [hfresh b hb] at hm
  have hs := ht.splice (hbs.map (fun _ _ h => Node.block.inj h)) hdisj
  refine ⟨?_, ?_⟩
  · simp only [FreeKVCacheBlockQueue.appendN, he, if_false, hprev]
    rw [List.map_append, List.append_assoc, hshape]
    exact hs
  · simp only [FreeKVCacheBlockQueue.appendN, he, if_false, hprev, h.count, List.length_append]
    push_cast
    rfl

theorem append_eq_appendN (q : FreeKVCacheBlockQueue) (b : Nat) : q.append b = q.appendN [b] := by
  simp only [append, appendN, List.cons_ne_nil, if_false]
  cases q.links.prev .fakeTail <;> simp [Links.joinAll]

theorem Holds.append {b : Nat} (h : q.Holds xs)
    (hb : b ∉ xs) : (q.append b).Holds (xs ++ [b]) := by
  rw [append_eq_appendN]
  exact h.appendN (by simp) (by simpa using hb)

theorem holds_init (n : Nat) : (init n).Holds (List.range n) := by
  have hempty : Holds ⟨0, (⟨fun _ => none, fun _ => none⟩ : Links Node).join .fakeHead .fakeTail⟩
      [] := by
    refine ⟨⟨by simp, ?_, ?_⟩, rfl⟩
    · simp [Chained, Links.join]
    · intro x hx
      simp only [List.map_nil, List.nil_append, List.mem_cons, List.not_mem_nil, or_false,
        not_or] at hx
      rw [Links.join_prev_ne _ hx.2, Links.join_next_ne _ hx.1]
      exact ⟨rfl, rfl⟩
  simpa [init] using hempty.appendN List.nodup_range (by simp)

end FreeKVCacheBlockQueue

end FusionMlx.FreeBlockQueue
