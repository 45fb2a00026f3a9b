import FusionMlx.Support.OrderedDict
import Mathlib.Algebra.BigOperators.Group.Finset.Basic

/-!
# Weights of shared resources

The values of a dictionary may hold a resource of some weight, and several may
hold the same one. The weight of the dictionary counts every held pair of a
resource and a weight once.
-/
namespace FusionMlx.SharedHoldings

open OrderedDict

variable {κ ν ε : Type} [DecidableEq κ] [DecidableEq ε]

def holdings (hold : ν → Option (ε × Nat)) (d : Dict κ ν) : Finset (ε × Nat) :=
  (d.entries.filterMap fun e => hold e.2).toFinset

def weight (hold : ν → Option (ε × Nat)) (d : Dict κ ν) : Nat := ∑ p ∈ holdings hold d, p.2

variable {hold : ν → Option (ε × Nat)} {d d' : Dict κ ν}
variable {p : ε × Nat}

theorem mem_holdings : p ∈ holdings hold d ↔ ∃ k v, d.get? k = some v ∧ hold v = some p := by
  simp only [holdings, List.mem_toFinset, List.mem_filterMap]
  constructor
  · rintro ⟨⟨k, v⟩, hmem, hp⟩
    exact ⟨k, v, (Dict.get?_eq_some_iff ..).mpr hmem, hp⟩
  · rintro ⟨k, v, hget, hp⟩
    exact ⟨(k, v), (Dict.get?_eq_some_iff ..).mp hget, hp⟩

omit [DecidableEq κ] in
/-- Pairs of weight zero may come and go. -/
theorem weight_eq (hsub : holdings hold d' ⊆ holdings hold d)
    (hrest : ∀ p ∈ holdings hold d, p ∉ holdings hold d' → p.2 = 0) : weight hold d' = weight hold d :=
  Finset.sum_subset hsub hrest

omit [DecidableEq κ] in
/-- One pair is no longer held, and whatever else is gone weighs nothing. -/
theorem weight_drop (hp : p ∈ holdings hold d) (hsub : holdings hold d' ⊆ holdings hold d)
    (hgone : p.2 = 0 ∨ p ∉ holdings hold d')
    (hrest : ∀ q ∈ holdings hold d, q ∉ holdings hold d' → q = p ∨ q.2 = 0) :
    weight hold d = p.2 + weight hold d' := by
  rcases hgone with hzero | hgone
  · rw [hzero, Nat.zero_add]
    refine (weight_eq hsub fun q hq hno => ?_).symm
    rcases hrest q hq hno with rfl | h
    · exact hzero
    · exact h
  · have hsub' : holdings hold d' ⊆ (holdings hold d).erase p := by
      intro q hq
      refine Finset.mem_erase.mpr ⟨?_, hsub hq⟩
      rintro rfl
      exact hgone hq
    have hsum : ∑ q ∈ holdings hold d', q.2 = ∑ q ∈ (holdings hold d).erase p, q.2 := by
      refine Finset.sum_subset hsub' fun q hq hno => ?_
      obtain ⟨hne, hmem⟩ := Finset.mem_erase.mp hq
      exact (hrest q hmem hno).resolve_left hne
    unfold weight
    rw [← Finset.add_sum_erase _ _ hp, hsum]

variable {k : κ}

theorem mem_holdings_erase :
    p ∈ holdings hold (d.erase k) ↔ ∃ k' v, k' ≠ k ∧ d.get? k' = some v ∧ hold v = some p := by
  rw [mem_holdings]
  constructor
  · rintro ⟨k', v, hget, hv⟩
    refine ⟨k', v, ?_, Dict.get?_of_erase hget, hv⟩
    rintro rfl
    rw [Dict.get?_erase_self] at hget
    exact nomatch hget
  · rintro ⟨k', v, hne, hget, hv⟩
    exact ⟨k', v, by rw [Dict.get?_erase_ne d hne]; exact hget, hv⟩

theorem mem_holdings_set {v : ν} :
    p ∈ holdings hold (d.set k v) ↔ hold v = some p ∨ p ∈ holdings hold (d.erase k) := by
  rw [mem_holdings, mem_holdings_erase]
  constructor
  · rintro ⟨k', w, hget, hw⟩
    rw [Dict.get?_set] at hget
    split at hget
    · cases hget
      exact .inl hw
    · rename_i hne
      exact .inr ⟨k', w, hne, hget, hw⟩
  · rintro (hv | ⟨k', w, hne, hget, hw⟩)
    · exact ⟨k, v, Dict.get?_set_self d k v, hv⟩
    · exact ⟨k', w, by rw [Dict.get?_set_ne d v hne]; exact hget, hw⟩

theorem mem_holdings_of_get {v : ν} (h : d.get? k = some v) :
    p ∈ holdings hold d ↔ hold v = some p ∨ p ∈ holdings hold (d.erase k) := by
  rw [mem_holdings_erase, mem_holdings]
  constructor
  · rintro ⟨k', w, hget, hw⟩
    by_cases hk : k' = k
    · subst hk
      rw [h] at hget
      cases hget
      exact .inl hw
    · exact .inr ⟨k', w, hk, hget, hw⟩
  · rintro (hv | ⟨k', w, _, hget, hw⟩)
    · exact ⟨k, v, h, hv⟩
    · exact ⟨k', w, hget, hw⟩

/-- A value that holds nothing weighs nothing. -/
theorem weight_set_free {v : ν} (hv : hold v = none) :
    weight hold (d.set k v) = weight hold (d.erase k) := by
  apply weight_eq
  · intro p hp
    rcases mem_holdings_set.mp hp with h | h
    · rw [hv] at h
      exact nomatch h
    · exact h
  · intro p hp hno
    exact absurd (mem_holdings_set.mpr (.inr hp)) hno

/-- A value that holds what is not held by another key, or weighs nothing. -/
theorem weight_set {v : ν} (hv : hold v = some p)
    (hnew : p.2 = 0 ∨ p ∉ holdings hold (d.erase k)) :
    weight hold (d.set k v) = p.2 + weight hold (d.erase k) := by
  apply weight_drop (mem_holdings_set.mpr (.inl hv)) (fun q hq => mem_holdings_set.mpr (.inr hq)) hnew
  intro q hq hno
  rcases mem_holdings_set.mp hq with h | h
  · rw [hv] at h
    exact .inl (Option.some.inj h).symm
  · exact absurd h hno

theorem weight_of_get {v : ν} (h : d.get? k = some v) (hv : hold v = some p)
    (hsole : p.2 = 0 ∨ p ∉ holdings hold (d.erase k)) : weight hold d = p.2 + weight hold (d.erase k) := by
  apply weight_drop ((mem_holdings_of_get h).mpr (.inl hv)) (fun q hq => (mem_holdings_of_get h).mpr (.inr hq)) hsole
  intro q hq hno
  rcases (mem_holdings_of_get h).mp hq with hq | hq
  · rw [hv] at hq
    exact .inl (Option.some.inj hq).symm
  · exact absurd hq hno

/-- A key may go when what it holds weighs nothing or is held by another key. -/
theorem weight_erase (h : ∀ v p, d.get? k = some v → hold v = some p →
    p.2 = 0 ∨ p ∈ holdings hold (d.erase k)) : weight hold (d.erase k) = weight hold d := by
  apply weight_eq
  · intro p hp
    obtain ⟨k', v, _, hget, hv⟩ := mem_holdings_erase.mp hp
    exact mem_holdings.mpr ⟨k', v, hget, hv⟩
  · intro p hp hno
    obtain ⟨k', v, hget, hv⟩ := mem_holdings.mp hp
    by_cases hk : k' = k
    · subst hk
      exact (h v p hget hv).resolve_right hno
    · exact absurd (mem_holdings_erase.mpr ⟨k', v, hk, hget, hv⟩) hno

/-- Nothing is held: no weight. -/
theorem weight_of_free (h : ∀ k v, d.get? k = some v → hold v = none) : weight hold d = 0 := by
  have hnone : holdings hold d = ∅ := by
    apply Finset.eq_empty_of_forall_notMem
    intro p hp
    obtain ⟨k, v, hget, hv⟩ := mem_holdings.mp hp
    rw [h k v hget] at hv
    exact nomatch hv
  unfold weight
  rw [hnone, Finset.sum_empty]

end FusionMlx.SharedHoldings
