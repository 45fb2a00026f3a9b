import FusionMlx.Support.OrderedDict
import FusionMlx.Support.StableSort
import Mathlib.Tactic.Ring

/-!
# The index of the SSD cache

`PagedSSDCacheIndex` and the metadata it lists. Metadata are objects that an
index, the other index and the write queue can share, so an index holds their
numbers and the objects stand in a heap. Of the metadata the fields that
something reads are kept.
-/
namespace FusionMlx.PagedSsdCache

open OrderedDict OrderedDict.Dict

variable {η σ : Type} [DecidableEq η]

structure BlockMetadata (η σ : Type) where
  blockHash : η
  fileSize : Nat
  lastAccess : Nat
  numLayers : Nat
  modelName : String
  blockSize : Nat
  cacheSignature : String
  contentHash : Option σ
  layerCacheTypes : Option (List String)

abbrev Heap (η σ : Type) := Nat → BlockMetadata η σ

structure Index (η : Type) where
  blocks : Dict η Nat := .empty
  totalSize : Nat := 0

namespace Index

variable (ix : Index η) (metas : Heap η σ)

def contains (h : η) : Bool := (ix.blocks.get? h).isSome

def add (i : Nat) : Index η :=
  let h := (metas i).blockHash
  let total := match ix.blocks.get? h with
    | some old => ix.totalSize - (metas old).fileSize
    | none => ix.totalSize
  { blocks := ix.blocks.set h i, totalSize := total + (metas i).fileSize }

def remove (h : η) : Index η :=
  match ix.blocks.get? h with
  | some i => { blocks := ix.blocks.erase h, totalSize := ix.totalSize - (metas i).fileSize }
  | none => ix

def touch (h : η) (now : Nat) : Index η × Heap η σ :=
  match ix.blocks.get? h with
  | some i => ({ ix with blocks := ix.blocks.moveToEnd h },
      Function.update metas i { metas i with lastAccess := now })
  | none => (ix, metas)

def lruEntries : List Nat :=
  (ix.blocks.entries.map Prod.snd).insertionSort (fun i j => (metas i).lastAccess ≤ (metas j).lastAccess)

def getLruEntries (count : Nat) : List Nat := (ix.lruEntries metas).take count

def updateFileSize (h : η) (newSize : Nat) : Index η × Heap η σ :=
  match ix.blocks.get? h with
  | some i => ({ ix with totalSize := ix.totalSize + newSize - (metas i).fileSize },
      Function.update metas i { metas i with fileSize := newSize })
  | none => (ix, metas)

end Index

variable {ix : Index η} {metas metas' : Heap η σ} {made i : Nat} {h k : η}

/-- Each listed object carries the hash it is listed under, and the total is the sum of the sizes. -/
structure Books (metas : Heap η σ) (made : Nat) (ix : Index η) : Prop where
  named : ∀ h i, ix.blocks.get? h = some i → (metas i).blockHash = h ∧ i < made
  exact : ix.totalSize = ix.blocks.total (fun i => (metas i).fileSize)

namespace Index

omit [DecidableEq η] in
theorem total_congr {ν : Type} {d : Dict η ν} {f g : ν → Nat} (hfg : ∀ e ∈ d.entries, f e.2 = g e.2) :
    d.total f = d.total g := by
  rw [total, total, List.map_congr_left hfg]

@[simp] theorem contains_iff : ix.contains h = true ↔ ∃ i, ix.blocks.get? h = some i := Option.isSome_iff_exists

theorem contains_eq_false : ix.contains h = false ↔ ix.blocks.get? h = none := Option.isSome_eq_false_iff.trans
  Option.isNone_iff_eq_none

theorem get?_remove : (ix.remove metas h).blocks.get? k = if k = h then none else ix.blocks.get? k := by
  rw [remove]
  cases hget : ix.blocks.get? h with
  | some i => exact get?_erase ..
  | none =>
    dsimp only
    split
    · next hk => rw [hk, hget]
    · rfl

theorem get?_add : (ix.add metas i).blocks.get? k =
    if k = (metas i).blockHash then some i else ix.blocks.get? k := get?_set ..

theorem get?_touch {now : Nat} : (ix.touch metas h now).1.blocks.get? k = ix.blocks.get? k := by
  rw [touch]
  split
  · exact get?_of_perm (moveToEnd_perm ..) k
  · rfl

theorem get?_updateFileSize {n : Nat} : (ix.updateFileSize metas h n).1.blocks = ix.blocks := by
  rw [updateFileSize]
  split <;> rfl

end Index

namespace Books

theorem empty (metas : Heap η σ) (made : Nat) : Books metas made ({} : Index η) :=
  ⟨fun _ _ h => by simp at h, rfl⟩

/-- The heap may change at objects that are not listed. -/
theorem congr {made' : Nat} (hb : Books metas made ix) (hle : made ≤ made')
    (hsame : ∀ h i, ix.blocks.get? h = some i →
      (metas' i).blockHash = (metas i).blockHash ∧ (metas' i).fileSize = (metas i).fileSize) :
    Books metas' made' ix := by
  refine ⟨fun h i hi => ?_, hb.exact.trans (Index.total_congr (fun e he => ?_))⟩
  · obtain ⟨hname, hlt⟩ := hb.named h i hi
    exact ⟨(hsame h i hi).1.trans hname, hlt.trans_le hle⟩
  · exact (hsame e.1 e.2 ((get?_eq_some_iff ..).2 he)).2.symm

theorem remove (hb : Books metas made ix) (h : η) : Books metas made (ix.remove metas h) := by
  refine ⟨fun k i hi => ?_, ?_⟩
  · rw [Index.get?_remove] at hi
    split at hi
    · cases hi
    · exact hb.named k i hi
  · rw [Index.remove]
    cases hget : ix.blocks.get? h with
    | none => exact hb.exact
    | some i =>
      dsimp only
      rw [hb.exact, total_of_get _ hget, Nat.add_sub_cancel_left]

theorem add (hb : Books metas made ix) (hi : i < made) : Books metas made (ix.add metas i) := by
  refine ⟨fun k j hj => ?_, ?_⟩
  · rw [Index.get?_add] at hj
    split at hj
    · next hk =>
      cases hj
      exact ⟨hk.symm, hi⟩
    · exact hb.named k j hj
  · rw [Index.add]
    dsimp only
    rw [total_set, Nat.add_comm]
    congr 1
    cases hget : ix.blocks.get? (metas i).blockHash with
    | none =>
      dsimp only
      rw [total_erase_of_none _ hget, hb.exact]
    | some j =>
      dsimp only
      rw [hb.exact, total_of_get _ hget, Nat.add_sub_cancel_left]

theorem touch (hb : Books metas made ix) (h : η) (now : Nat) :
    Books (ix.touch metas h now).2 made (ix.touch metas h now).1 := by
  rw [Index.touch]
  cases hget : ix.blocks.get? h with
  | none => exact hb
  | some i =>
    have hperm := moveToEnd_perm ix.blocks h
    have hmoved : Books metas made { ix with blocks := ix.blocks.moveToEnd h } :=
      ⟨fun k j hj => hb.named k j ((get?_of_perm hperm k).symm.trans hj),
        hb.exact.trans (hperm.map _).sum_nat.symm⟩
    refine hmoved.congr le_rfl (fun k j _ => ?_)
    by_cases hj : j = i
    · subst hj
      simp
    · simp [hj]

theorem updateFileSize (hb : Books metas made ix) (h : η) (n : Nat) :
    Books (ix.updateFileSize metas h n).2 made (ix.updateFileSize metas h n).1 := by
  rw [Index.updateFileSize]
  cases hget : ix.blocks.get? h with
  | none => exact hb
  | some i =>
    dsimp only
    have hother : ∀ k j, ix.blocks.get? k = some j → j = i → k = h := by
      rintro k j hj rfl
      exact (hb.named k j hj).1.symm.trans (hb.named h j hget).1
    refine ⟨fun k j hj => ?_, ?_⟩
    · obtain ⟨hname, hlt⟩ := hb.named k j hj
      by_cases hji : j = i
      · subst hji
        simpa using ⟨hname, hlt⟩
      · simpa [hji] using ⟨hname, hlt⟩
    · dsimp only
      rw [hb.exact, total_of_get _ hget, total_of_get _ hget]
      have hrest : (ix.blocks.erase h).total
          (fun j => (Function.update metas i { metas i with fileSize := n } j).fileSize) =
            (ix.blocks.erase h).total (fun j => (metas j).fileSize) := by
        refine Index.total_congr (fun e he => ?_)
        have hget' := (get?_eq_some_iff ..).2 he
        rw [get?_erase] at hget'
        split at hget'
        · cases hget'
        · next hne =>
          have hei : e.2 ≠ i := fun heq => hne (hother e.1 e.2 hget' heq)
          simp [hei]
      rw [hrest]
      simp only [Function.update_self]
      omega

end Books

end FusionMlx.PagedSsdCache
