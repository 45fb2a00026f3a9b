import FusionMlx.Service.BodyDepth
import Mathlib.Algebra.Order.BigOperators.Group.List
import Mathlib.Algebra.Order.Group.Nat

/-!
# How deep a value is nested

The loop over the stack of `_json_nesting_depth_exceeds` against the paths of
containers in a value. Of equal keys of an object only the last value counts.
-/
namespace FusionMlx.BodyDepth

open JsonText (Json)
open OrderedDict OrderedDict.Dict

/-- The value has containers nested `d` deep. -/
inductive Nests : Json → Nat → Prop
  | here {v : Json} (h : isContainer v = true) : Nests v 1
  | child {v w : Json} {d : Nat} (h : w ∈ children v) (hw : Nests w d) : Nests v (d + 1)

theorem Nests.isContainer {v : Json} {d : Nat} (h : Nests v d) : isContainer v = true := by
  cases h with
  | here h => exact h
  | child h _ => cases v <;> first | rfl | simp [children] at h

theorem mem_set {κ ν : Type} [DecidableEq κ] {d : Dict κ ν} {k : κ} {v w : ν}
    (hw : w ∈ (d.set k v).entries.map Prod.snd) : w = v ∨ w ∈ d.entries.map Prod.snd := by
  obtain ⟨⟨k', w'⟩, he, rfl⟩ := List.mem_map.1 hw
  have hget := (get?_eq_some_iff ..).2 he
  rw [get?_set] at hget
  split at hget
  · exact .inl (Option.some.inj hget).symm
  · exact .inr (List.mem_map.2 ⟨(k', w'), (get?_eq_some_iff ..).1 hget, rfl⟩)

theorem mem_children_obj {members : List (List Nat × Json)} {w : Json} (hw : w ∈ children (.obj members)) :
    ∃ m ∈ members, m.2 = w := by
  have hfold : ∀ (l : List (List Nat × Json)) (d : Dict (List Nat) Json),
      w ∈ (l.foldl (fun d m => d.set m.1 m.2) d).entries.map Prod.snd →
        w ∈ d.entries.map Prod.snd ∨ ∃ m ∈ l, m.2 = w := by
    intro l
    induction l with
    | nil => exact fun d hd => .inl hd
    | cons m l ih =>
      intro d hd
      rcases ih (d.set m.1 m.2) hd with hd | ⟨m', hm', rfl⟩
      · rcases mem_set hd with rfl | hd
        · exact .inr ⟨m, List.mem_cons_self, rfl⟩
        · exact .inl hd
      · exact .inr ⟨m', List.mem_cons_of_mem m hm', rfl⟩
  exact (hfold members .empty hw).resolve_left (by simp [Dict.empty])

theorem containersOfItems_eq (items : List Json) : containersOfItems items = (items.map containers).sum := by
  induction items with
  | nil => rfl
  | cons v items ih => rw [containersOfItems, ih, List.map_cons, List.sum_cons]

theorem children_containers {v : Json} (h : isContainer v = true) :
    ((children v).map containers).sum + 1 ≤ containers v := by
  cases v with
  | arr items => rw [children, containers, containersOfItems_eq]
  | obj members =>
    have hfold : ∀ (l : List (List Nat × Json)) (d : Dict (List Nat) Json),
        (l.foldl (fun d m => d.set m.1 m.2) d).total containers ≤ d.total containers + containersOfMembers l := by
      intro l
      induction l with
      | nil => exact fun d => le_rfl
      | cons m l ih =>
        intro d
        have hset : (d.set m.1 m.2).total containers ≤ d.total containers + containers m.2 := by
          rw [total_set]
          cases hget : d.get? m.1 with
          | none =>
            rw [total_erase_of_none _ hget]
            omega
          | some w =>
            rw [total_of_get _ hget]
            omega
        have hrest := ih (d.set m.1 m.2)
        rw [containersOfMembers]
        exact hrest.trans (by omega)
    have hall := hfold members .empty
    rw [total_empty, Nat.zero_add] at hall
    rw [containers, children, List.map_map]
    exact Nat.succ_le_succ hall
  | _ => cases h

/-- The loop finds out whether a value on the stack is nested too deep. -/
theorem exceedsLoop_iff (maxDepth : Int) (n : Nat) (stack : List (Json × Int))
    (hstack : ∀ e ∈ stack, isContainer e.1 = true) (hfuel : (stack.map (fun e => containers e.1)).sum < n) :
    exceedsLoop maxDepth n stack = true ↔ ∃ e ∈ stack, ∃ d : Nat, Nests e.1 d ∧ maxDepth + 1 < e.2 + d := by
  induction n generalizing stack with
  | zero => exact absurd hfuel (Nat.not_lt_zero _)
  | succ n ih =>
    rw [exceedsLoop]
    cases hlast : stack.getLast? with
    | none =>
      rw [List.getLast?_eq_none_iff] at hlast
      simp [hlast]
    | some e =>
      obtain ⟨node, depth⟩ := e
      obtain ⟨front, hfront⟩ := List.getLast?_eq_some_iff.1 hlast
      subst hfront
      have hnode : isContainer node = true := hstack (node, depth) (by simp)
      dsimp only
      by_cases hdeep : maxDepth < depth
      · rw [if_pos hdeep]
        exact iff_of_true rfl ⟨(node, depth), by simp, 1, .here hnode, by dsimp only; omega⟩
      · rw [if_neg hdeep, List.dropLast_concat]
        have hchildren := children_containers hnode
        have hfilter : (((children node).filter isContainer).map containers).sum ≤ ((children node).map containers).sum :=
          (List.filter_sublist.map containers).sum_le_sum (fun _ _ => Nat.zero_le _)
        simp only [List.map_append, List.sum_append, List.map_cons, List.map_nil, List.sum_cons, List.sum_nil] at hfuel
        rw [ih]
        · constructor
          · rintro ⟨e, he, d, hd, hlt⟩
            rcases List.mem_append.1 he with he | he
            · exact ⟨e, List.mem_append_left _ he, d, hd, hlt⟩
            · obtain ⟨w, hw, rfl⟩ := List.mem_map.1 he
              refine ⟨(node, depth), by simp, d + 1, .child (List.mem_of_mem_filter hw) hd, ?_⟩
              dsimp only at hlt ⊢
              push_cast
              omega
          · rintro ⟨e, he, d, hd, hlt⟩
            rcases List.mem_append.1 he with he | he
            · exact ⟨e, List.mem_append_left _ he, d, hd, hlt⟩
            · rw [List.mem_singleton] at he
              subst he
              cases hd with
              | here _ =>
                dsimp only at hlt
                omega
              | @child _ w d hw hd =>
                refine ⟨(w, depth + 1), List.mem_append_right _ (List.mem_map.2
                  ⟨w, List.mem_filter.2 ⟨hw, hd.isContainer⟩, rfl⟩), d, hd, ?_⟩
                dsimp only at hlt ⊢
                push_cast at hlt
                omega
        · intro e he
          rcases List.mem_append.1 he with he | he
          · exact hstack e (List.mem_append_left _ he)
          · obtain ⟨w, hw, rfl⟩ := List.mem_map.1 he
            exact (List.mem_filter.1 hw).2
        · simp only [List.map_append, List.sum_append, List.map_map]
          have hsame : (((children node).filter isContainer).map ((fun e : Json × Int => containers e.1) ∘
              fun v => (v, depth + 1))).sum = (((children node).filter isContainer).map containers).sum := rfl
          omega

theorem exceeds_iff {maxDepth : Int} (hpos : 0 < maxDepth) (v : Json) :
    jsonNestingDepthExceeds v maxDepth = true ↔ ∃ d : Nat, Nests v d ∧ maxDepth < d := by
  rw [jsonNestingDepthExceeds, if_neg (not_le.2 hpos)]
  by_cases hv : isContainer v = true
  · rw [if_neg (by simp [hv]), exceedsLoop_iff maxDepth _ _ (by simpa using hv) (by simp)]
    constructor
    · rintro ⟨e, he, d, hd, hlt⟩
      rw [List.mem_singleton] at he
      subst he
      dsimp only at hlt
      exact ⟨d, hd, by omega⟩
    · rintro ⟨d, hd, hlt⟩
      exact ⟨(v, 1), List.mem_singleton_self _, d, hd, by dsimp only; omega⟩
  · rw [if_pos (by simp [hv])]
    refine iff_of_false (by simp) ?_
    rintro ⟨d, hd, -⟩
    exact hv hd.isContainer

end FusionMlx.BodyDepth
