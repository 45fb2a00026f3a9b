import Mathlib.Data.List.Nodup
import Mathlib.Algebra.GroupWithZero.Nat

/-!
# Insertion-ordered dictionaries

A finite map that remembers the order in which its keys were inserted.
Overwriting a present key keeps its place, a new key goes to the end, and
deleting and re-inserting a key moves it to the end. The keys are distinct by
construction.
-/
namespace FusionMlx.OrderedDict

variable {κ ν : Type}

structure Dict (κ ν : Type) where
  entries : List (κ × ν)
  nodup : (entries.map Prod.fst).Nodup

namespace Dict

def empty : Dict κ ν := ⟨[], List.nodup_nil⟩

def keys (d : Dict κ ν) : List κ := d.entries.map Prod.fst

variable [DecidableEq κ]

def get? (d : Dict κ ν) (k : κ) : Option ν :=
  (d.entries.find? (fun e => e.1 = k)).map Prod.snd

def set (d : Dict κ ν) (k : κ) (v : ν) : Dict κ ν :=
  if h : k ∈ d.keys then
    ⟨d.entries.map (fun e => if e.1 = k then (k, v) else e), by
      have he : (d.entries.map (fun e => if e.1 = k then (k, v) else e)).map Prod.fst =
          d.entries.map Prod.fst := by
        rw [List.map_map]
        apply List.map_congr_left
        intro e _
        by_cases hk : e.1 = k <;> simp [hk]
      rw [he]
      exact d.nodup⟩
  else
    ⟨d.entries ++ [(k, v)], by
      rw [List.map_append, List.nodup_append]
      refine ⟨d.nodup, by simp, ?_⟩
      intro a ha b hb hab
      subst hab
      simp only [List.map_cons, List.map_nil, List.mem_singleton] at hb
      subst hb
      exact h ha⟩

def erase (d : Dict κ ν) (k : κ) : Dict κ ν :=
  ⟨d.entries.filter (fun e => ¬ e.1 = k),
    List.Nodup.sublist ((List.filter_sublist).map _) d.nodup⟩

theorem get?_eq_some_iff (d : Dict κ ν) (k : κ) (v : ν) :
    d.get? k = some v ↔ (k, v) ∈ d.entries := by
  obtain ⟨es, hn⟩ := d
  simp only [get?]
  induction es with
  | nil => simp
  | cons e rest ih =>
    simp only [List.map_cons, List.nodup_cons] at hn
    by_cases he : e.1 = k
    · have hrest : (k, v) ∉ rest := by
        intro hm
        exact hn.1 (he ▸ List.mem_map_of_mem (f := Prod.fst) hm)
      subst he
      simp only [List.find?_cons, decide_true, Option.map_some, Option.some.injEq,
        List.mem_cons, hrest, or_false]
      constructor
      · intro h; rw [← h]
      · intro h; rw [← h]
    · have hne : (k, v) ≠ e := by intro h; exact he (by rw [← h])
      simp only [List.find?_cons, he, decide_false, List.mem_cons, hne, false_or]
      exact ih hn.2

theorem mem_keys_iff (d : Dict κ ν) (k : κ) : k ∈ d.keys ↔ ∃ v, d.get? k = some v := by
  simp only [keys, get?_eq_some_iff, List.mem_map]
  constructor
  · rintro ⟨e, he, rfl⟩
    exact ⟨e.2, he⟩
  · rintro ⟨v, hv⟩
    exact ⟨(k, v), hv, rfl⟩

@[simp] theorem get?_empty (k : κ) : (empty : Dict κ ν).get? k = none := rfl

theorem get?_set (d : Dict κ ν) (k k' : κ) (v : ν) :
    (d.set k v).get? k' = if k' = k then some v else d.get? k' := by
  ext w
  rw [get?_eq_some_iff]
  by_cases h : k ∈ d.keys
  · simp only [set, h, dif_pos, List.mem_map]
    by_cases hk : k' = k
    · subst hk
      obtain ⟨u, hu⟩ := (d.mem_keys_iff k').mp h
      rw [get?_eq_some_iff] at hu
      simp only [if_true, Option.some.injEq]
      constructor
      · rintro ⟨e, he, heq⟩
        by_cases hek : e.1 = k'
        · simp only [hek, if_true, Prod.mk.injEq, true_and] at heq; exact heq
        · simp only [hek, if_false] at heq; exact absurd (by rw [heq]) hek
      · rintro rfl
        exact ⟨(k', u), hu, by simp⟩
    · simp only [hk, if_false, get?_eq_some_iff]
      constructor
      · rintro ⟨e, he, heq⟩
        by_cases hek : e.1 = k
        · simp only [hek, if_true, Prod.mk.injEq] at heq; exact absurd heq.1.symm hk
        · simp only [hek, if_false] at heq; rw [← heq]; exact he
      · intro he
        exact ⟨(k', w), he, by simp [hk]⟩
  · have hno : ∀ u, (k, u) ∉ d.entries := by
      intro u hu
      exact h (List.mem_map_of_mem (f := Prod.fst) hu)
    simp only [set, h, dif_neg, not_false_eq_true, List.mem_append, List.mem_singleton,
      Prod.mk.injEq]
    by_cases hk : k' = k
    · subst hk
      simp [hno, eq_comm]
    · simp [hk, get?_eq_some_iff]

@[simp] theorem get?_set_self (d : Dict κ ν) (k : κ) (v : ν) : (d.set k v).get? k = some v := by
  simp [get?_set]

variable {k k' : κ}

theorem get?_set_ne (d : Dict κ ν) (v : ν) (h : k' ≠ k) :
    (d.set k v).get? k' = d.get? k' := by
  simp [get?_set, h]

theorem get?_erase (d : Dict κ ν) (k k' : κ) :
    (d.erase k).get? k' = if k' = k then none else d.get? k' := by
  ext w
  rw [get?_eq_some_iff]
  by_cases hk : k' = k <;> simp [erase, hk, get?_eq_some_iff]

@[simp] theorem get?_erase_self (d : Dict κ ν) (k : κ) : (d.erase k).get? k = none := by
  simp [get?_erase]

theorem get?_erase_ne (d : Dict κ ν) (h : k' ≠ k) :
    (d.erase k).get? k' = d.get? k' := by
  simp [get?_erase, h]

variable {d : Dict κ ν}

/-- Erasing never adds an entry. -/
theorem get?_of_erase {v : ν} (h : (d.erase k).get? k' = some v) :
    d.get? k' = some v := by
  rw [get?_erase] at h
  by_cases hk : k' = k <;> simp_all

/-- A new key goes to the end. -/
theorem entries_set_new (h : k ∉ d.keys) (v : ν) :
    (d.set k v).entries = d.entries ++ [(k, v)] := by
  simp [set, h]

theorem keys_set_new (h : k ∉ d.keys) (v : ν) :
    (d.set k v).keys = d.keys ++ [k] := by
  rw [keys, entries_set_new h, List.map_append]
  rfl

/-- A present key with its value, and the rest. -/
theorem entries_perm_erase {v : ν} (h : d.get? k = some v) :
    d.entries.Perm ((k, v) :: (d.erase k).entries) := by
  have hm : (k, v) ∈ d.entries := (d.get?_eq_some_iff k v).mp h
  have hn : d.entries.Nodup := List.Nodup.of_map _ d.nodup
  have hmem : ∀ e, e ∈ (k, v) :: (d.erase k).entries ↔ e ∈ d.entries := by
    intro e
    by_cases hk : e.1 = k
    · have hv : e ∈ d.entries ↔ e = (k, v) := by
        constructor
        · intro he
          have hget := (d.get?_eq_some_iff e.1 e.2).mpr he
          rw [hk, h, Option.some.injEq] at hget
          rw [← hk, hget]
        · rintro rfl
          exact hm
      simp [erase, hk, hv]
    · have hv : e ≠ (k, v) := by
        rintro rfl
        exact hk rfl
      simp [erase, hk, hv]
  have hn' : ((k, v) :: (d.erase k).entries).Nodup := by
    refine List.nodup_cons.mpr ⟨?_, hn.sublist List.filter_sublist⟩
    simp [erase]
  exact (List.perm_ext_iff_of_nodup hn hn').mpr fun e => (hmem e).symm

omit [DecidableEq κ] in
theorem mem_keys_of_perm {d' : Dict κ ν} (h : d.entries.Perm d'.entries) (k : κ) :
    k ∈ d.keys ↔ k ∈ d'.keys :=
  (h.map Prod.fst).mem_iff

theorem get?_of_perm {d' : Dict κ ν} (h : d.entries.Perm d'.entries) (k : κ) :
    d.get? k = d'.get? k := by
  ext v
  rw [get?_eq_some_iff, get?_eq_some_iff]
  exact h.mem_iff

theorem mem_keys_erase : k' ∈ (d.erase k).keys ↔ k' ∈ d.keys ∧ k' ≠ k := by
  rw [mem_keys_iff, mem_keys_iff, get?_erase]
  by_cases hk : k' = k <;> simp [hk]

theorem mem_keys_set {v : ν} :
    k' ∈ (d.set k v).keys ↔ k' = k ∨ k' ∈ d.keys := by
  rw [mem_keys_iff, mem_keys_iff, get?_set]
  by_cases hk : k' = k <;> simp [hk]

theorem get?_eq_none_iff : d.get? k = none ↔ k ∉ d.keys := by
  rw [mem_keys_iff]
  cases d.get? k <;> simp

/-- The first key taken out. -/
theorem erase_first {v : ν} {rest : List (κ × ν)} (h : d.entries = (k, v) :: rest) :
    (d.erase k).entries = rest := by
  have hnodup := d.nodup
  rw [h, List.map_cons, List.nodup_cons] at hnodup
  change d.entries.filter _ = rest
  rw [h, List.filter_cons_of_neg (by simp)]
  refine List.filter_eq_self.2 (fun e he => ?_)
  have hmem : e.1 ∈ rest.map Prod.fst := List.mem_map_of_mem he
  have hne : e.1 ≠ k := fun hk => hnodup.1 (hk ▸ hmem)
  simpa using hne

def moveToEnd (d : Dict κ ν) (k : κ) : Dict κ ν :=
  match d.get? k with
  | some v => (d.erase k).set k v
  | none => d

theorem moveToEnd_perm (d : Dict κ ν) (k : κ) : (d.moveToEnd k).entries.Perm d.entries := by
  rw [moveToEnd]
  cases h : d.get? k with
  | none => exact List.Perm.refl _
  | some v =>
    have hnew : k ∉ (d.erase k).keys := fun hk => (mem_keys_erase.1 hk).2 rfl
    dsimp only
    rw [entries_set_new hnew]
    exact List.perm_append_comm.trans (entries_perm_erase h).symm

def mapValues (f : κ → ν → ν) (d : Dict κ ν) : Dict κ ν :=
  ⟨d.entries.map (fun e => (e.1, f e.1 e.2)), by
    rw [List.map_map]
    exact d.nodup⟩

def filterKeys (p : κ → Bool) (d : Dict κ ν) : Dict κ ν :=
  ⟨d.entries.filter (fun e => p e.1), List.Nodup.sublist ((List.filter_sublist).map _) d.nodup⟩

theorem get?_mapValues (f : κ → ν → ν) (d : Dict κ ν) (k : κ) :
    (d.mapValues f).get? k = (d.get? k).map (f k) := by
  ext w
  rw [get?_eq_some_iff, Option.map_eq_some_iff]
  simp only [mapValues, List.mem_map, Prod.mk.injEq]
  constructor
  · rintro ⟨e, he, rfl, rfl⟩
    exact ⟨e.2, (get?_eq_some_iff ..).mpr he, rfl⟩
  · rintro ⟨v, hv, rfl⟩
    exact ⟨(k, v), (get?_eq_some_iff ..).mp hv, rfl, rfl⟩

theorem get?_filterKeys (p : κ → Bool) (d : Dict κ ν) (k : κ) :
    (d.filterKeys p).get? k = if p k then d.get? k else none := by
  ext w
  rw [get?_eq_some_iff]
  by_cases hk : p k <;> simp [filterKeys, hk, get?_eq_some_iff]

def total (f : ν → Nat) (d : Dict κ ν) : Nat := (d.entries.map (fun e => f e.2)).sum

omit [DecidableEq κ] in
@[simp] theorem total_empty (f : ν → Nat) : (empty : Dict κ ν).total f = 0 := rfl

theorem total_of_get {v : ν} (f : ν → Nat) (h : d.get? k = some v) :
    d.total f = f v + (d.erase k).total f := by
  have hp := (entries_perm_erase h).map (fun e => f e.2)
  rw [total, hp.sum_nat, List.map_cons, List.sum_cons, total]

theorem erase_of_not_mem (h : d.get? k = none) :
    (d.erase k).entries = d.entries := by
  rw [get?_eq_none_iff] at h
  simp only [erase]
  apply List.filter_eq_self.mpr
  intro e he
  have hk : e.1 ≠ k := fun hk => h (hk ▸ List.mem_map_of_mem he)
  simpa using hk

theorem total_erase_of_none (f : ν → Nat) (h : d.get? k = none) :
    (d.erase k).total f = d.total f := by
  rw [total, erase_of_not_mem h, total]

theorem erase_set_perm (d : Dict κ ν) (k : κ) (v : ν) :
    ((d.set k v).erase k).entries.Perm (d.erase k).entries := by
  refine (List.perm_ext_iff_of_nodup (List.Nodup.of_map _ (Dict.nodup _))
    (List.Nodup.of_map _ (Dict.nodup _))).mpr ?_
  rintro ⟨k', v'⟩
  rw [← get?_eq_some_iff, ← get?_eq_some_iff, get?_erase, get?_erase]
  split
  · rfl
  · next hk => rw [get?_set_ne d v hk]

theorem total_set (f : ν → Nat) (d : Dict κ ν) (k : κ) (v : ν) :
    (d.set k v).total f = f v + (d.erase k).total f := by
  rw [total_of_get f (get?_set_self d k v)]
  congr 1
  exact ((erase_set_perm d k v).map _).sum_nat

end Dict

end FusionMlx.OrderedDict
