import FusionMlx.Cache.BlockHashing
import FusionMlx.Support.OrderedDict

/-!
# The hash-to-block map

`BlockHashToBlockMap`: a hash maps to one block or to a dictionary of
duplicates. Blocks are named by their `block_id`. `Registered m h b` says that
the map holds the entry `(h, b)`; `insert` adds exactly that pair and `pop`
removes exactly that pair.
-/
namespace FusionMlx.BlockHashMap

open BlockHashing (BlockHash)
open OrderedDict

inductive MapEntry where
  | one (blockId : Nat)
  | many (blockIds : List Nat)
  deriving DecidableEq, Repr

def MapEntry.ids : MapEntry → List Nat
  | .one b => [b]
  | .many bs => bs

abbrev BlockHashToBlockMap := Dict BlockHash MapEntry

namespace BlockHashToBlockMap

def getBlock (m : BlockHashToBlockMap) (h : BlockHash) : Option Nat :=
  match m.get? h with
  | none => none
  | some (.one b) => some b
  | some (.many bs) => bs.head?

def insert (m : BlockHashToBlockMap) (h : BlockHash) (b : Nat) : BlockHashToBlockMap :=
  match m.get? h with
  | none => m.set h (.one b)
  | some (.one e) => m.set h (.many (if e = b then [e] else [e, b]))
  | some (.many bs) => m.set h (.many (if b ∈ bs then bs else bs ++ [b]))

/-- `pop(block_hash, block_id)`; with `block_id` None nothing ever matches and
the entry is put back. -/
def pop (m : BlockHashToBlockMap) (h : BlockHash) (blockId : Option Nat) :
    BlockHashToBlockMap × Option Nat :=
  match m.get? h with
  | none => (m, none)
  | some (.one b) =>
    if blockId = some b then (m.erase h, some b) else ((m.erase h).set h (.one b), none)
  | some (.many bs) =>
    let left := bs.filter (fun b => ¬ blockId = some b)
    (if left = [] then m.erase h else (m.erase h).set h (.many left),
      bs.find? (fun b => blockId = some b))

/-- The map holds the entry `(h, b)`. -/
def Registered (m : BlockHashToBlockMap) (h : BlockHash) (b : Nat) : Prop :=
  ∃ e, m.get? h = some e ∧ b ∈ e.ids

theorem registered_empty (h : BlockHash) (b : Nat) : ¬ Registered Dict.empty h b := by
  rintro ⟨e, he, -⟩
  simp at he

theorem registered_of_getBlock {m : BlockHashToBlockMap} {h : BlockHash} {b : Nat}
    (hb : getBlock m h = some b) : Registered m h b := by
  simp only [getBlock] at hb
  cases he : m.get? h with
  | none => simp [he] at hb
  | some e =>
    refine ⟨e, he, ?_⟩
    cases e with
    | one c => simp only [he, Option.some.injEq] at hb; simp [MapEntry.ids, hb]
    | many bs => simp only [he] at hb; exact List.mem_of_mem_head? hb

theorem getBlock_isSome {m : BlockHashToBlockMap} {h : BlockHash} {b : Nat}
    (hb : Registered m h b) : ∃ c, getBlock m h = some c := by
  obtain ⟨e, he, hm⟩ := hb
  cases e with
  | one c => exact ⟨c, by simp [getBlock, he]⟩
  | many bs =>
    cases bs with
    | nil => simp [MapEntry.ids] at hm
    | cons c cs => exact ⟨c, by simp [getBlock, he]⟩

theorem registered_set (m : BlockHashToBlockMap) (h h' : BlockHash) (e : MapEntry) (b : Nat) :
    Registered (m.set h e) h' b ↔ if h' = h then b ∈ e.ids else Registered m h' b := by
  by_cases hh : h' = h <;> simp [Registered, Dict.get?_set, hh]

theorem registered_erase (m : BlockHashToBlockMap) (h h' : BlockHash) (b : Nat) :
    Registered (m.erase h) h' b ↔ h' ≠ h ∧ Registered m h' b := by
  by_cases hh : h' = h <;> simp [Registered, Dict.get?_erase, hh]

theorem registered_insert (m : BlockHashToBlockMap) (h h' : BlockHash) (b b' : Nat) :
    Registered (insert m h b) h' b' ↔ Registered m h' b' ∨ (h' = h ∧ b' = b) := by
  cases he : m.get? h with
  | none =>
    simp only [insert, he, registered_set, MapEntry.ids, List.mem_singleton]
    by_cases hh : h' = h <;> simp [hh, Registered, he]
  | some e =>
    cases e with
    | one c =>
      simp only [insert, he, registered_set, MapEntry.ids]
      by_cases hh : h' = h
      · by_cases hcb : c = b <;> simp [hh, hcb, Registered, he, MapEntry.ids]
      · simp [hh]
    | many bs =>
      simp only [insert, he, registered_set, MapEntry.ids]
      by_cases hh : h' = h
      · by_cases hm : b ∈ bs
        · simp only [hh, hm, if_true, Registered, he, Option.some.injEq, exists_eq_left',
            MapEntry.ids, true_and, iff_self_or]
          rintro rfl
          exact hm
        · simp [hh, hm, Registered, he, MapEntry.ids]
      · simp [hh]

/-- Popping with `block_id` None changes no entry. -/
theorem registered_pop_none (m : BlockHashToBlockMap) (h h' : BlockHash) (b : Nat) :
    Registered (pop m h none).1 h' b ↔ Registered m h' b := by
  have hself : ∀ e, m.get? h = some e → h' = h → (Registered m h' b ↔ b ∈ e.ids) := by
    rintro e he rfl
    simp [Registered, he]
  cases he : m.get? h with
  | none => simp [pop, he]
  | some e =>
    cases e with
    | one c =>
      simp only [pop, he, reduceCtorEq, if_false, registered_set, registered_erase]
      by_cases hh : h' = h
      · rw [if_pos hh, hself _ he hh]
      · simp [hh]
    | many bs =>
      simp only [pop, he, reduceCtorEq, not_false_eq_true, decide_true, List.filter_true]
      by_cases hh : h' = h
      · rw [hself _ he hh]
        by_cases hbs : bs = []
        · rw [if_pos hbs, registered_erase]
          simp [hh, hbs, MapEntry.ids]
        · rw [if_neg hbs, registered_set, if_pos hh]
      · by_cases hbs : bs = []
        · rw [if_pos hbs, registered_erase]
          simp [hh]
        · rw [if_neg hbs, registered_set, if_neg hh, registered_erase]
          simp [hh]

theorem pop_none_snd (m : BlockHashToBlockMap) (h : BlockHash) : (pop m h none).2 = none := by
  cases he : m.get? h with
  | none => simp [pop, he]
  | some e => cases e <;> simp [pop, he]

/-- Popping a block removes exactly its entry under that hash. -/
theorem registered_pop (m : BlockHashToBlockMap) (h h' : BlockHash) (b b' : Nat) :
    Registered (pop m h (some b)).1 h' b' ↔ Registered m h' b' ∧ ¬ (h' = h ∧ b' = b) := by
  cases he : m.get? h with
  | none =>
    simp only [pop, he]
    constructor
    · rintro hr
      refine ⟨hr, ?_⟩
      rintro ⟨rfl, -⟩
      obtain ⟨e, hs, -⟩ := hr
      simp [he] at hs
    · exact And.left
  | some e =>
    cases e with
    | one c =>
      by_cases hbc : b = c
      · subst hbc
        simp only [pop, he, if_true, registered_erase]
        by_cases hh : h' = h
        · simp [hh, Registered, he, MapEntry.ids]
        · simp [hh]
      · simp only [pop, he, Option.some.injEq, hbc, if_false, registered_set, registered_erase]
        by_cases hh : h' = h
        · subst hh
          simp only [if_true, MapEntry.ids, List.mem_singleton, Registered, he, Option.some.injEq,
            exists_eq_left', true_and]
          constructor
          · rintro rfl; exact ⟨rfl, fun h => hbc h.symm⟩
          · exact And.left
        · simp [hh]
    | many bs =>
      simp only [pop, he, Option.some.injEq]
      by_cases hh : h' = h
      · subst hh
        have hreg : Registered m h' b' ↔ b' ∈ bs := by simp [Registered, he, MapEntry.ids]
        rw [hreg]
        by_cases hl : bs.filter (fun c => ¬ b = c) = []
        · rw [if_pos hl, registered_erase]
          have := List.filter_eq_nil_iff.mp hl b'
          simp only [ne_eq, not_true_eq_false, false_and, true_and, false_iff, not_and, not_not]
          intro hm
          have hb := this hm
          simp only [decide_eq_true_eq, not_not] at hb
          exact hb.symm
        · rw [if_neg hl, registered_set]
          simp only [if_true, MapEntry.ids, List.mem_filter, decide_eq_true_eq, true_and]
          rw [eq_comm (a := b)]
      · by_cases hl : bs.filter (fun c => ¬ b = c) = []
        · rw [if_pos hl, registered_erase]
          simp [hh]
        · rw [if_neg hl, registered_set, registered_erase]
          simp [hh]

end BlockHashToBlockMap

end FusionMlx.BlockHashMap
