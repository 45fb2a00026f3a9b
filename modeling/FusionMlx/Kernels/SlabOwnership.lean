import FusionMlx.Kernels.PagedKVPool
import FusionMlx.Support.Runs

/-!
# Who owns a slab

The three dictionaries of the pool are read as one record a slab. Every
operation changes the records of single slabs, and freeing a request makes it
give up its share of each. `share_block` of a slab the request owns already
and some calls of `ensure_writable` miscount.
-/
namespace FusionMlx.SlabOwnership

open BlockHashing (PyError)
open OrderedDict PagedKVPool Runs

variable {ρ : Type} {o : SetOrder ρ} {s s' : KVPool ρ} {r v tag : ρ} {os : List ρ} {pb phys : Nat}

/-- Every slab is free or in use, and the dictionaries agree on the owners. -/
structure Owned (s : KVPool ρ) : Prop where
  freeNodup : s.freeList.Nodup
  disjoint : ∀ pb ∈ s.freeList, pb ∉ s.inUse.keys
  placed : ∀ pb, pb < s.numBlocks ↔ pb ∈ s.freeList ∨ pb ∈ s.inUse.keys
  sameKeys : ∀ pb, (pb ∈ s.refcount.keys ↔ pb ∈ s.inUse.keys) ∧
    (pb ∈ s.owners.keys ↔ pb ∈ s.inUse.keys)
  owner : ∀ pb tag, s.inUse.get? pb = some tag → ∃ os, s.owners.get? pb = some os ∧ os.Nodup ∧
    tag ∈ os ∧ s.refcount.get? pb = some (os.length : Int) ∧ 1 ≤ os.length

@[ext] structure Slab (ρ : Type) where
  inUse : Option ρ
  refcount : Option Int
  owners : Option (List ρ)

def slab (s : KVPool ρ) (pb : Nat) : Slab ρ :=
  ⟨s.inUse.get? pb, s.refcount.get? pb, s.owners.get? pb⟩

namespace Slab

def free : Slab ρ := ⟨none, none, none⟩

def held (tag : ρ) (os : List ρ) : Slab ρ := ⟨some tag, some (os.length : Int), some os⟩

@[simp] theorem held_ne_free : held tag os ≠ free := by simp [held, free]

@[simp] theorem free_ne_held : free ≠ held tag os := by simp [held, free]

theorem held_inj {tag' : ρ} {os' : List ρ} (h : held tag os = held tag' os') :
    tag = tag' ∧ os = os' := by
  simp only [held, mk.injEq, Option.some.injEq] at h
  exact ⟨h.1, h.2.2⟩

inductive Sound : Slab ρ → Prop
  | free : Sound free
  | held (tag : ρ) (os : List ρ) (mem : tag ∈ os) (nodup : os.Nodup) : Sound (held tag os)

/-- The record after `r` has given up its share, if it had one. -/
inductive Gives [DecidableEq ρ] (r : ρ) : Slab ρ → Slab ρ → Prop
  | none (x : Slab ρ) (out : ∀ tag os, x = Slab.held tag os → r ∉ os) : Gives r x x
  | last (tag : ρ) (os : List ρ) (left : os.filter (· ≠ r) = []) :
      Gives r (Slab.held tag os) Slab.free
  | share (tag tag' : ρ) (os : List ρ) (mem : r ∈ os) (left : tag' ∈ os.filter (· ≠ r))
      (kept : tag ≠ r → tag' = tag) :
      Gives r (Slab.held tag os) (Slab.held tag' (os.filter (· ≠ r)))

end Slab

open Slab

structure Tidy (s : KVPool ρ) : Prop where
  slabs : ∀ pb, (slab s pb).Sound
  freeNodup : s.freeList.Nodup
  free : ∀ pb, pb ∈ s.freeList ↔ pb < s.numBlocks ∧ slab s pb = .free
  bound : ∀ pb, slab s pb ≠ .free → pb < s.numBlocks

theorem Tidy.cases (h : Tidy s) (pb : Nat) :
    slab s pb = .free ∨ ∃ tag os, slab s pb = .held tag os ∧ tag ∈ os ∧ os.Nodup := by
  have hs := h.slabs pb
  generalize slab s pb = x at hs
  cases hs with
  | free => exact Or.inl rfl
  | held tag os mem nodup => exact Or.inr ⟨tag, os, rfl, mem, nodup⟩

theorem free_of_inUse (h : Tidy s) : slab s pb = .free ↔ s.inUse.get? pb = none := by
  rcases h.cases pb with hf | ⟨tag, os, hh, -⟩
  · have : s.inUse.get? pb = none := congrArg Slab.inUse hf
    simp [hf, this]
  · have : s.inUse.get? pb = some tag := congrArg Slab.inUse hh
    simp [hh, this]

theorem Tidy.owned (h : Tidy s) : Owned s := by
  have hkeys : ∀ pb, pb ∈ s.inUse.keys ↔ slab s pb ≠ .free := by
    intro pb
    rw [Ne, free_of_inUse h, Dict.mem_keys_iff]
    cases s.inUse.get? pb <;> simp
  refine ⟨h.freeNodup, ?_, ?_, ?_, ?_⟩
  · intro pb hpb
    rw [hkeys]
    exact not_not.mpr ((h.free pb).mp hpb).2
  · intro pb
    rw [h.free, hkeys]
    constructor
    · intro hlt
      by_cases hf : slab s pb = .free
      · exact Or.inl ⟨hlt, hf⟩
      · exact Or.inr hf
    · rintro (⟨hlt, -⟩ | hf)
      · exact hlt
      · exact h.bound pb hf
  · intro pb
    rw [hkeys, Dict.mem_keys_iff, Dict.mem_keys_iff]
    rcases h.cases pb with hf | ⟨tag, os, hh, -⟩
    · have h₁ : s.refcount.get? pb = none := congrArg Slab.refcount hf
      have h₂ : s.owners.get? pb = none := congrArg Slab.owners hf
      simp [h₁, h₂, hf]
    · have h₁ : s.refcount.get? pb = some (os.length : Int) := congrArg Slab.refcount hh
      have h₂ : s.owners.get? pb = some os := congrArg Slab.owners hh
      simp [h₁, h₂, hh]
  · intro pb tag htag
    rcases h.cases pb with hf | ⟨tag', os, hh, hm, hn⟩
    · rw [(free_of_inUse h).mp hf] at htag
      cases htag
    · have h₀ : s.inUse.get? pb = some tag' := congrArg Slab.inUse hh
      rw [h₀, Option.some.injEq] at htag
      subst htag
      exact ⟨os, congrArg Slab.owners hh, hn, hm, congrArg Slab.refcount hh,
        List.length_pos_of_mem hm⟩

theorem Owned.tidy (h : Owned s) : Tidy s := by
  have hslab : ∀ pb, slab s pb = .free ∧ pb ∉ s.inUse.keys ∨
      ∃ tag os, slab s pb = .held tag os ∧ tag ∈ os ∧ os.Nodup ∧ pb ∈ s.inUse.keys := by
    intro pb
    cases hu : s.inUse.get? pb with
    | none =>
      have hout : pb ∉ s.inUse.keys := by simp [Dict.mem_keys_iff, hu]
      have hrc : s.refcount.get? pb = none := by
        have := mt (h.sameKeys pb).1.mp hout
        rw [Dict.mem_keys_iff] at this
        exact Option.eq_none_iff_forall_ne_some.mpr (fun x hx => this ⟨x, hx⟩)
      have how : s.owners.get? pb = none := by
        have := mt (h.sameKeys pb).2.mp hout
        rw [Dict.mem_keys_iff] at this
        exact Option.eq_none_iff_forall_ne_some.mpr (fun x hx => this ⟨x, hx⟩)
      exact Or.inl ⟨by simp [slab, Slab.free, hu, hrc, how], hout⟩
    | some tag =>
      obtain ⟨os, how, hn, hm, hrc, -⟩ := h.owner pb tag hu
      exact Or.inr ⟨tag, os, by simp [slab, Slab.held, hu, hrc, how], hm, hn,
        (Dict.mem_keys_iff _ _).mpr ⟨tag, hu⟩⟩
  refine ⟨?_, h.freeNodup, ?_, ?_⟩
  · intro pb
    rcases hslab pb with ⟨hf, -⟩ | ⟨tag, os, hh, hm, hn, -⟩
    · exact hf ▸ .free
    · exact hh ▸ .held tag os hm hn
  · intro pb
    rcases hslab pb with ⟨hf, hout⟩ | ⟨tag, os, hh, -, -, hin⟩
    · simp [h.placed, hf, hout]
    · have : pb ∉ s.freeList := fun hm => h.disjoint pb hm hin
      simp [hh, this]
  · intro pb hne
    rcases hslab pb with ⟨hf, -⟩ | ⟨tag, os, -, -, -, hin⟩
    · exact absurd hf hne
    · exact (h.placed pb).mpr (Or.inr hin)

theorem owned_iff_tidy : Owned s ↔ Tidy s := ⟨Owned.tidy, Tidy.owned⟩

theorem slab_record (rc : Int) (pb' : Nat) :
    slab (s.record pb tag rc os) pb' =
      if pb' = pb then ⟨some tag, some rc, some os⟩ else slab s pb' := by
  by_cases h : pb' = pb <;> simp [slab, KVPool.record, Dict.get?_set, h]

theorem slab_erase (pb' : Nat) :
    slab (s.erase pb) pb' = if pb' = pb then Slab.free else slab s pb' := by
  by_cases h : pb' = pb <;> simp [slab, KVPool.erase, Slab.free, Dict.get?_erase, h]

theorem slab_pushFree (pb' : Nat) : slab (s.pushFree pb) pb' = slab s pb' := rfl

/-- A slab in use gets another sound record. -/
theorem Tidy.edit (h : Tidy s) (pb : Nat) (hn : s'.numBlocks = s.numBlocks)
    (hf : s'.freeList = s.freeList) (hold : slab s pb ≠ .free) (hnew : slab s' pb ≠ .free)
    (hs : (slab s' pb).Sound) (hother : ∀ pb', pb' ≠ pb → slab s' pb' = slab s pb') : Tidy s' := by
  refine ⟨?_, hf ▸ h.freeNodup, ?_, ?_⟩
  · intro pb'
    by_cases he : pb' = pb
    · exact he ▸ hs
    · exact hother pb' he ▸ h.slabs pb'
  · intro pb'
    rw [hf, hn, h.free]
    by_cases he : pb' = pb
    · subst he
      simp [hold, hnew]
    · rw [hother pb' he]
  · intro pb'
    rw [hn]
    by_cases he : pb' = pb
    · exact fun _ => he ▸ h.bound pb hold
    · rw [hother pb' he]
      exact h.bound pb'

/-- A slab in use goes to the free list. -/
theorem Tidy.release (h : Tidy s) (hold : slab s pb ≠ .free) : Tidy ((s.erase pb).pushFree pb) := by
  have hlt := h.bound pb hold
  have hout : pb ∉ s.freeList := fun hm => hold ((h.free pb).mp hm).2
  have hslab : ∀ pb', slab ((s.erase pb).pushFree pb) pb' =
      if pb' = pb then Slab.free else slab s pb' := fun pb' => slab_erase pb'
  refine ⟨?_, List.nodup_cons.mpr ⟨hout, h.freeNodup⟩, ?_, ?_⟩
  · intro pb'
    rw [hslab]
    split
    · exact .free
    · exact h.slabs pb'
  · intro pb'
    rw [hslab]
    change pb' ∈ pb :: s.freeList ↔ pb' < s.numBlocks ∧ _
    rw [List.mem_cons, h.free]
    by_cases he : pb' = pb
    · simp [he, hlt]
    · simp [he]
  · intro pb'
    rw [hslab]
    change _ → pb' < s.numBlocks
    split
    · exact fun hne => absurd rfl hne
    · exact h.bound pb'

variable [DecidableEq ρ]

theorem length_filter_ne (hn : os.Nodup) (hr : r ∈ os) :
    (os.filter (· ≠ r)).length + 1 = os.length := by
  have hpos := List.length_pos_of_mem hr
  have h := List.length_erase_of_mem hr
  have he : os.erase r = os.filter (· ≠ r) := by
    rw [hn.erase_eq_filter]
    exact List.filter_congr (fun x _ => by by_cases hx : x = r <;> simp [hx])
  rw [he] at h
  omega

theorem filter_ne_eq_self (hr : r ∉ os) : os.filter (· ≠ r) = os := by
  refine List.filter_eq_self.mpr (fun x hx => ?_)
  have : x ≠ r := fun he => hr (he ▸ hx)
  simpa using this

theorem freePrimary_gives (h : Tidy s) (hpb : slab s pb = .held r os) :
    Tidy (s.freePrimary o r pb) ∧ Gives r (slab s pb) (slab (s.freePrimary o r pb) pb) ∧
      ∀ pb', pb' ≠ pb → slab (s.freePrimary o r pb) pb' = slab s pb' := by
  have hrc : s.refcount.get? pb = some (os.length : Int) := congrArg Slab.refcount hpb
  have how : s.owners.get? pb = some os := congrArg Slab.owners hpb
  obtain ⟨hr, hnd⟩ : r ∈ os ∧ os.Nodup := by
    rcases h.cases pb with hf | ⟨tag, os', hh, hm, hn⟩
    · rw [hf] at hpb
      exact absurd hpb Slab.free_ne_held
    · obtain ⟨rfl, rfl⟩ := Slab.held_inj (hh.symm.trans hpb)
      exact ⟨hm, hn⟩
  have hne : slab s pb ≠ .free := hpb ▸ Slab.held_ne_free
  simp only [KVPool.freePrimary, how, hrc, Option.getD_some]
  cases ho : o.owners pb (os.filter (· ≠ r)) with
  | nil =>
    have hleft : os.filter (· ≠ r) = [] := by
      rw [List.eq_nil_iff_forall_not_mem]
      intro q hq
      have := (o.mem_owners pb _ q).mpr hq
      rw [ho] at this
      cases this
    refine ⟨h.release hne, ?_, ?_⟩
    · rw [slab_pushFree, slab_erase, if_pos rfl, hpb]
      exact .last r os hleft
    · intro pb' hp
      rw [slab_pushFree, slab_erase, if_neg hp]
  | cons q rest =>
    have hq : q ∈ os.filter (· ≠ r) := (o.mem_owners pb _ q).mp (ho ▸ List.mem_cons_self)
    have hcount := length_filter_ne hnd hr
    have hrec : ∀ pb', slab ((s.erase pb).record pb q
        (max ((os.length : Int) - 1) ((os.filter (· ≠ r)).length : Int)) (os.filter (· ≠ r))) pb' =
        if pb' = pb then Slab.held q (os.filter (· ≠ r)) else slab s pb' := by
      intro pb'
      rw [slab_record, slab_erase]
      split
      · have : max ((os.length : Int) - 1) ((os.filter (· ≠ r)).length : Int) =
            ((os.filter (· ≠ r)).length : Int) := by omega
        rw [this]
        rfl
      · rfl
    refine ⟨?_, ?_, ?_⟩
    · refine h.edit pb rfl rfl hne ?_ ?_ (fun pb' hp => by rw [hrec, if_neg hp])
      · rw [hrec, if_pos rfl]
        exact Slab.held_ne_free
      · rw [hrec, if_pos rfl]
        exact .held q _ hq (hnd.filter _)
    · rw [hrec, if_pos rfl, hpb]
      exact .share r q os hr hq (fun hx => absurd rfl hx)
    · intro pb' hp
      rw [hrec, if_neg hp]

theorem freePrimaries_gives (ids : List Nat) (h : Tidy s) (hnd : ids.Nodup)
    (hids : ∀ pb ∈ ids, ∃ os, slab s pb = .held r os) :
    Tidy (ids.foldl (KVPool.freePrimary o r) s) ∧
      (∀ pb ∈ ids, Gives r (slab s pb) (slab (ids.foldl (KVPool.freePrimary o r) s) pb)) ∧
      ∀ pb, pb ∉ ids → slab (ids.foldl (KVPool.freePrimary o r) s) pb = slab s pb := by
  induction ids generalizing s with
  | nil => exact ⟨h, by simp, fun _ _ => rfl⟩
  | cons pb ids ih =>
    obtain ⟨hpb, hnd⟩ := List.nodup_cons.mp hnd
    obtain ⟨os, hos⟩ := hids pb List.mem_cons_self
    obtain ⟨h₁, hgive, hother⟩ := freePrimary_gives (o := o) h hos
    have hne : ∀ {q}, q ∈ ids → q ≠ pb := fun hq he => hpb (he ▸ hq)
    obtain ⟨h₂, hgives, hrest⟩ := ih h₁ hnd (by
      intro q hq
      rw [hother q (hne hq)]
      exact hids q (List.mem_cons_of_mem _ hq))
    rw [List.foldl_cons]
    refine ⟨h₂, ?_, ?_⟩
    · intro q hq
      rcases List.mem_cons.mp hq with rfl | hq
      · rw [hrest q hpb]
        exact hgive
      · rw [← hother q (hne hq)]
        exact hgives q hq
    · intro q hq
      simp only [List.mem_cons, not_or] at hq
      rw [hrest q hq.2, hother q hq.1]

theorem freeShare_gives {freed : List Nat} (h : Tidy s) (hpb : pb ∉ freed)
    (htag : ∀ os, slab s pb ≠ .held r os) :
    Tidy (s.freeShare r freed pb) ∧ Gives r (slab s pb) (slab (s.freeShare r freed pb) pb) ∧
      ∀ pb', pb' ≠ pb → slab (s.freeShare r freed pb) pb' = slab s pb' := by
  rcases h.cases pb with hf | ⟨tag, os, hh, hm, hn⟩
  · have how : s.owners.get? pb = none := congrArg Slab.owners hf
    have hsame : s.freeShare r freed pb = s := by simp [KVPool.freeShare, how]
    rw [hsame]
    exact ⟨h, .none _ (fun tag os he => by simp [hf] at he), fun _ _ => rfl⟩
  · have hin : s.inUse.get? pb = some tag := congrArg Slab.inUse hh
    have hrc : s.refcount.get? pb = some (os.length : Int) := congrArg Slab.refcount hh
    have how : s.owners.get? pb = some os := congrArg Slab.owners hh
    have hne : slab s pb ≠ .free := hh ▸ Slab.held_ne_free
    by_cases hr : r ∈ os
    · have htr : tag ≠ r := fun he => htag os (he ▸ hh)
      have hleft : tag ∈ os.filter (· ≠ r) := List.mem_filter.mpr ⟨hm, by simpa using htr⟩
      have hnil : os.filter (· ≠ r) ≠ [] := List.ne_nil_of_mem hleft
      have hcount := length_filter_ne hn hr
      have hstep : s.freeShare r freed pb = { s with
          refcount := s.refcount.set pb (((os.filter (· ≠ r)).length : Nat) : Int)
          owners := s.owners.set pb (os.filter (· ≠ r)) } := by
        have hmax : max ((os.length : Int) - 1) ((os.filter (· ≠ r)).length : Int) =
            ((os.filter (· ≠ r)).length : Int) := by omega
        simp only [KVPool.freeShare, how, hrc, Option.getD_some]
        rw [if_pos ⟨hr, hpb⟩, if_neg hnil, hmax]
      have hslab : ∀ pb', slab (s.freeShare r freed pb) pb' =
          if pb' = pb then Slab.held tag (os.filter (· ≠ r)) else slab s pb' := by
        intro pb'
        rw [hstep]
        by_cases he : pb' = pb <;> simp [slab, Slab.held, Dict.get?_set, he, hin]
      refine ⟨?_, ?_, fun pb' he => by rw [hslab, if_neg he]⟩
      · refine h.edit pb (by rw [hstep]) (by rw [hstep]) hne ?_ ?_
          (fun pb' he => by rw [hslab, if_neg he])
        · rw [hslab, if_pos rfl]
          exact Slab.held_ne_free
        · rw [hslab, if_pos rfl]
          exact .held tag _ hleft (hn.filter _)
      · rw [hslab, if_pos rfl, hh]
        exact .share tag tag os hr hleft (fun _ => rfl)
    · have hsame : s.freeShare r freed pb = s := by simp [KVPool.freeShare, how, hr]
      rw [hsame]
      refine ⟨h, .none _ (fun tag' os' he => ?_), fun _ _ => rfl⟩
      rw [hh] at he
      exact (Slab.held_inj he).2 ▸ hr

theorem freeShares_gives (freed ids : List Nat) (h : Tidy s) (hnd : ids.Nodup)
    (hids : ∀ pb ∈ ids, pb ∉ freed → ∀ os, slab s pb ≠ .held r os) :
    Tidy (ids.foldl (KVPool.freeShare r freed) s) ∧
      (∀ pb ∈ ids, pb ∉ freed →
        Gives r (slab s pb) (slab (ids.foldl (KVPool.freeShare r freed) s) pb)) ∧
      ∀ pb, pb ∉ ids ∨ pb ∈ freed →
        slab (ids.foldl (KVPool.freeShare r freed) s) pb = slab s pb := by
  induction ids generalizing s with
  | nil => exact ⟨h, by simp, fun _ _ => rfl⟩
  | cons pb ids ih =>
    obtain ⟨hpb, hnd⟩ := List.nodup_cons.mp hnd
    have hne : ∀ {q}, q ∈ ids → q ≠ pb := fun hq he => hpb (he ▸ hq)
    rw [List.foldl_cons]
    by_cases hfreed : pb ∈ freed
    · have hsame : s.freeShare r freed pb = s := by simp [KVPool.freeShare, hfreed]
      rw [hsame]
      obtain ⟨h₂, hgives, hrest⟩ := ih h hnd (fun q hq => hids q (List.mem_cons_of_mem _ hq))
      refine ⟨h₂, ?_, ?_⟩
      · intro q hq hqf
        rcases List.mem_cons.mp hq with rfl | hq
        · exact absurd hfreed hqf
        · exact hgives q hq hqf
      · rintro q (hq | hq)
        · exact hrest q (Or.inl (fun hm => hq (List.mem_cons_of_mem _ hm)))
        · exact hrest q (Or.inr hq)
    · obtain ⟨h₁, hgive, hother⟩ := freeShare_gives h hfreed (hids pb List.mem_cons_self hfreed)
      obtain ⟨h₂, hgives, hrest⟩ := ih h₁ hnd (by
        intro q hq hqf
        rw [hother q (hne hq)]
        exact hids q (List.mem_cons_of_mem _ hq) hqf)
      refine ⟨h₂, ?_, ?_⟩
      · intro q hq hqf
        rcases List.mem_cons.mp hq with rfl | hq
        · rw [hrest q (Or.inl hpb)]
          exact hgive
        · rw [← hother q (hne hq)]
          exact hgives q hq hqf
      · rintro q (hq | hq)
        · simp only [List.mem_cons, not_or] at hq
          rw [hrest q (Or.inl hq.2), hother q hq.1]
        · have hqp : q ≠ pb := fun he => hfreed (he ▸ hq)
          rw [hrest q (Or.inr hq), hother q hqp]

theorem mem_primaryOf : pb ∈ s.primaryOf r ↔ s.inUse.get? pb = some r := by
  simp only [KVPool.primaryOf, List.mem_map, List.mem_filter, decide_eq_true_eq,
    Dict.get?_eq_some_iff]
  constructor
  · rintro ⟨⟨pb', r'⟩, ⟨he, hr⟩, hp⟩
    simp only at hr hp
    rw [← hr, ← hp]
    exact he
  · exact fun he => ⟨(pb, r), ⟨he, rfl⟩, rfl⟩

/-- Freeing a request makes it give up its share of every slab. -/
theorem freeRequest_gives (h : Tidy s) (o : SetOrder ρ) (r : ρ) :
    Tidy (s.freeRequest o r).2 ∧
      ∀ pb, Gives r (slab s pb) (slab (s.freeRequest o r).2 pb) := by
  have hprim : ∀ pb, pb ∈ s.primaryOf r ↔ ∃ os, slab s pb = .held r os := by
    intro pb
    rw [mem_primaryOf]
    rcases h.cases pb with hf | ⟨tag, os, hh, -⟩
    · have : s.inUse.get? pb = none := congrArg Slab.inUse hf
      simp [this, hf]
    · have hin : s.inUse.get? pb = some tag := congrArg Slab.inUse hh
      rw [hin, hh, Option.some.injEq]
      constructor
      · rintro rfl
        exact ⟨os, rfl⟩
      · rintro ⟨os', he⟩
        exact (Slab.held_inj he).1
  have hnd : (s.primaryOf r).Nodup :=
    List.Nodup.sublist ((List.filter_sublist).map Prod.fst) s.inUse.nodup
  obtain ⟨h₁, hgive₁, hrest₁⟩ := freePrimaries_gives (o := o) (s.primaryOf r) h hnd
    (fun pb hpb => (hprim pb).mp hpb)
  generalize hs₁ : (s.primaryOf r).foldl (KVPool.freePrimary o r) s = s₁ at h₁ hgive₁ hrest₁
  obtain ⟨h₂, hgive₂, hrest₂⟩ := freeShares_gives (r := r) (s.primaryOf r)
    s₁.owners.keys h₁ s₁.owners.nodup (by
      intro pb _ hpb os
      rw [hrest₁ pb hpb]
      exact fun he => hpb ((hprim pb).mpr ⟨os, he⟩))
  have hslab : ∀ pb, slab (s.freeRequest o r).2 pb =
      slab (s₁.owners.keys.foldl (KVPool.freeShare r (s.primaryOf r)) s₁) pb := by
    intro pb
    simp only [KVPool.freeRequest, hs₁]
    split <;> rfl
  refine ⟨?_, fun pb => ?_⟩
  · have hlist : (s.freeRequest o r).2.freeList =
        (s₁.owners.keys.foldl (KVPool.freeShare r (s.primaryOf r)) s₁).freeList ∧
        (s.freeRequest o r).2.numBlocks =
        (s₁.owners.keys.foldl (KVPool.freeShare r (s.primaryOf r)) s₁).numBlocks := by
      simp only [KVPool.freeRequest, hs₁]
      split <;> exact ⟨rfl, rfl⟩
    refine ⟨fun pb => hslab pb ▸ h₂.slabs pb, hlist.1 ▸ h₂.freeNodup, fun pb => ?_, fun pb => ?_⟩
    · rw [hslab, hlist.1, hlist.2]
      exact h₂.free pb
    · rw [hslab, hlist.2]
      exact h₂.bound pb
  · rw [hslab]
    by_cases hp : pb ∈ s.primaryOf r
    · rw [hrest₂ pb (Or.inr hp)]
      exact hgive₁ pb hp
    · by_cases hk : pb ∈ s₁.owners.keys
      · have := hgive₂ pb hk hp
        rwa [hrest₁ pb hp] at this
      · rw [hrest₂ pb (Or.inl hk), hrest₁ pb hp]
        refine .none _ (fun tag os he => ?_)
        have how : s₁.owners.get? pb = some os := by
          have := congrArg Slab.owners ((hrest₁ pb hp).trans he)
          exact this
        exact absurd ((Dict.mem_keys_iff _ _).mpr ⟨os, how⟩) hk

theorem freeRequest_numBlocks (s : KVPool ρ) (o : SetOrder ρ) (r : ρ) :
    (s.freeRequest o r).2.numBlocks = s.numBlocks := by
  have hprim : ∀ (ids : List Nat) (s : KVPool ρ),
      (ids.foldl (KVPool.freePrimary o r) s).numBlocks = s.numBlocks := by
    intro ids
    induction ids with
    | nil => exact fun s => rfl
    | cons pb ids ih =>
      intro s
      rw [List.foldl_cons, ih]
      simp only [KVPool.freePrimary]
      split <;> rfl
  have hshare : ∀ (freed ids : List Nat) (s : KVPool ρ),
      (ids.foldl (KVPool.freeShare r freed) s).numBlocks = s.numBlocks := by
    intro freed ids
    induction ids with
    | nil => exact fun s => rfl
    | cons pb ids ih =>
      intro s
      rw [List.foldl_cons, ih]
      simp only [KVPool.freeShare]
      split
      · split <;> rfl
      · rfl
  simp only [KVPool.freeRequest]
  split <;> exact (hshare _ _ _).trans (hprim _ _)

/-- The record says that `r` is among the owners. -/
def OwnedBy (s : KVPool ρ) (pb : Nat) (r : ρ) : Prop := ∃ os, s.owners.get? pb = some os ∧ r ∈ os

/-- Making room frees at most the victim. -/
theorem makeRoom_gives (active : List ρ) (h : Tidy s) :
    Tidy (s.makeRoom o active).2 ∧
      ((s.makeRoom o active).2 = s ∨ ∃ v, s.freeList = [] ∧ s.victim o active = some v ∧
        (s.makeRoom o active).1 = .ok () ∧
        ∀ pb, Gives v (slab s pb) (slab (s.makeRoom o active).2 pb)) := by
  simp only [KVPool.makeRoom]
  split
  · next hf =>
    cases hv : s.victim o active with
    | none => exact ⟨h, Or.inl rfl⟩
    | some v =>
      obtain ⟨h', hg⟩ := freeRequest_gives h o v
      exact ⟨h', Or.inr ⟨v, hf, rfl, rfl, hg⟩⟩
  · exact ⟨h, Or.inl rfl⟩

omit [DecidableEq ρ] in
theorem handOut_tidy {rest : List Nat} (h : Tidy s) (hf : s.freeList = pb :: rest) (r : ρ) :
    Tidy ({ s with freeList := rest }.record pb r 1 [r]) ∧
      slab ({ s with freeList := rest }.record pb r 1 [r]) pb = .held r [r] ∧ slab s pb = .free ∧
      ∀ pb', pb' ≠ pb → slab ({ s with freeList := rest }.record pb r 1 [r]) pb' = slab s pb' := by
  have hslab : ∀ pb', slab ({ s with freeList := rest }.record pb r 1 [r]) pb' =
      if pb' = pb then .held r [r] else slab s pb' := fun pb' => slab_record 1 pb'
  have hmem : ∀ pb', pb' ∈ s.freeList ↔ pb' = pb ∨ pb' ∈ rest := by
    intro pb'
    rw [hf, List.mem_cons]
  obtain ⟨hlt, hfree⟩ := (h.free pb).mp ((hmem pb).mpr (Or.inl rfl))
  have hnd : pb ∉ rest ∧ rest.Nodup := List.nodup_cons.mp (hf ▸ h.freeNodup)
  refine ⟨⟨?_, hnd.2, ?_, ?_⟩, by rw [hslab, if_pos rfl], hfree,
    fun pb' hp => by rw [hslab, if_neg hp]⟩
  · intro pb'
    rw [hslab]
    split
    · exact .held r [r] (by simp) (by simp)
    · exact h.slabs pb'
  · intro pb'
    rw [hslab]
    change pb' ∈ rest ↔ pb' < s.numBlocks ∧ _
    by_cases he : pb' = pb
    · simp [he, hnd.1]
    · rw [if_neg he, ← h.free, hmem]
      simp [he]
  · intro pb'
    rw [hslab]
    change _ → pb' < s.numBlocks
    split
    · next he => exact fun _ => he ▸ hlt
    · exact h.bound pb'

theorem touch_tidy (h : Tidy s) (r : ρ) : Tidy (s.touch r) := ⟨h.slabs, h.freeNodup, h.free, h.bound⟩

theorem allocBlock_tidy (h : Tidy s) (ids : Option (List ρ)) : Tidy (s.allocBlock o r ids).2 := by
  obtain ⟨h₁, -⟩ := makeRoom_gives (o := o) (s.activeFor r ids) (touch_tidy h r)
  simp only [KVPool.allocBlock]
  cases hroom : (s.touch r).makeRoom o (s.activeFor r ids) with
  | mk e t =>
    rw [hroom] at h₁
    cases e with
    | error e => exact h₁
    | ok u =>
      simp only [KVPool.handOut]
      cases hf : t.freeList with
      | nil => exact h₁
      | cons pb rest => exact (handOut_tidy h₁ hf r).1

/-- Nobody but the evicted request owned a slab that is free once room is made. -/
theorem makeRoom_fresh {t : KVPool ρ} {rest : List Nat} {active : List ρ} (h : Tidy s)
    (hroom : s.makeRoom o active = (.ok (), t)) (hf : t.freeList = pb :: rest) {q : ρ}
    (hq : OwnedBy s pb q) : s.freeList = [] ∧ s.victim o active = some q := by
  obtain ⟨h₁, hcase⟩ := makeRoom_gives (o := o) active h
  rw [hroom] at h₁ hcase
  obtain ⟨-, -, hfree, -⟩ := handOut_tidy h₁ hf q
  obtain ⟨os, how, hmem⟩ := hq
  have hown : (slab s pb).owners = some os := how
  rcases hcase with rfl | ⟨v, hempty, hv, -, hg⟩
  · have hnone : slab t pb = .free := hfree
    rw [hnone] at hown
    cases hown
  · have hgive : Gives v (slab s pb) .free := hfree ▸ hg pb
    refine ⟨hempty, ?_⟩
    rw [hv]
    generalize slab s pb = x at hgive hown
    cases hgive with
    | none => cases hown
    | last tag os' left =>
      cases hown
      have := mt List.mem_filter.mpr (List.eq_nil_iff_forall_not_mem.mp left q)
      simp only [hmem, true_and, decide_eq_true_eq, not_not] at this
      rw [this]

/-- A slab handed out belongs to the caller alone, and nobody but the evicted
request owned it before. -/
theorem allocBlock_fresh (h : Tidy s) {ids : Option (List ρ)}
    (hok : (s.allocBlock o r ids).1 = .ok pb) :
    (s.allocBlock o r ids).2.owners.get? pb = some [r] ∧
      ∀ q, OwnedBy s pb q → s.freeList = [] ∧ (s.touch r).victim o (s.activeFor r ids) = some q := by
  simp only [KVPool.allocBlock] at hok ⊢
  cases hroom : (s.touch r).makeRoom o (s.activeFor r ids) with
  | mk e t =>
    rw [hroom] at hok
    cases e with
    | error e => cases hok
    | ok u =>
      simp only [KVPool.handOut] at hok ⊢
      cases hf : t.freeList with
      | nil =>
        rw [hf] at hok
        cases hok
      | cons pb' rest =>
        rw [hf] at hok
        simp only [Except.ok.injEq] at hok
        subst hok
        exact ⟨Dict.get?_set_self _ _ _, fun q hq => makeRoom_fresh (touch_tidy h r) hroom hf hq⟩

theorem freeBlock_tidy (h : Tidy s) (pb : Nat) (req : Option ρ) : Tidy (s.freeBlock o pb req) := by
  rcases h.cases pb with hf | ⟨tag, os, hh, hm, hn⟩
  · have hrc : s.refcount.get? pb = none := congrArg Slab.refcount hf
    have hsame : s.freeBlock o pb req = s := by simp [KVPool.freeBlock, hrc]
    rw [hsame]
    exact h
  · have hin : s.inUse.get? pb = some tag := congrArg Slab.inUse hh
    have hrc : s.refcount.get? pb = some (os.length : Int) := congrArg Slab.refcount hh
    have how : s.owners.get? pb = some os := congrArg Slab.owners hh
    have hne : slab s pb ≠ .free := hh ▸ Slab.held_ne_free
    have hpos := List.length_pos_of_mem hm
    have hrc0 : ¬ (os.length : Int) ≤ 0 := by omega
    simp only [KVPool.freeBlock, hrc, how, hin, Option.getD_some, if_neg hrc0]
    cases req with
    | none => exact h.release hne
    | some r =>
      simp only
      by_cases hlen : os.length > 1
      · rw [if_pos hlen]
        have hcount : max ((os.length : Int) - 1) ((os.filter (· ≠ r)).length : Int) =
            ((os.filter (· ≠ r)).length : Int) := by
          by_cases hr : r ∈ os
          · have := length_filter_ne hn hr
            omega
          · rw [filter_ne_eq_self hr]
            omega
        rw [hcount]
        have hedit : ∀ d q, q ∈ os.filter (· ≠ r) → d.get? pb = some q →
            (∀ pb', pb' ≠ pb → d.get? pb' = s.inUse.get? pb') → Tidy { s with
              refcount := s.refcount.set pb ((os.filter (· ≠ r)).length : Int)
              owners := s.owners.set pb (os.filter (· ≠ r)), inUse := d } := by
          intro d q hq hget hinUse
          have hslab : ∀ pb', slab { s with
              refcount := s.refcount.set pb ((os.filter (· ≠ r)).length : Int)
              owners := s.owners.set pb (os.filter (· ≠ r)), inUse := d } pb' =
              if pb' = pb then .held q (os.filter (· ≠ r)) else slab s pb' := by
            intro pb'
            by_cases he : pb' = pb
            · simp [slab, Slab.held, he, hget]
            · simp [slab, Dict.get?_set, he, hinUse pb' he]
          refine h.edit pb rfl rfl hne ?_ ?_ (fun pb' he => by rw [hslab, if_neg he])
          · rw [hslab, if_pos rfl]
            exact Slab.held_ne_free
          · rw [hslab, if_pos rfl]
            exact .held q _ hq (hn.filter _)
        by_cases htr : tag = r
        · subst htr
          have hcnt := length_filter_ne hn hm
          obtain ⟨x, hx⟩ := List.exists_mem_of_length_pos
            (show 0 < (os.filter (· ≠ tag)).length by omega)
          rw [if_pos rfl]
          cases ho : o.owners pb (os.filter (· ≠ tag)) with
          | nil =>
            have := (o.mem_owners pb _ x).mpr hx
            rw [ho] at this
            cases this
          | cons q rest =>
            exact hedit _ q ((o.mem_owners pb _ q).mp (ho ▸ List.mem_cons_self))
              (Dict.get?_set_self ..) fun pb' hp => Dict.get?_set_ne _ _ hp
        · rw [if_neg (fun he => htr (Option.some.inj he))]
          exact hedit _ tag (List.mem_filter.mpr ⟨hm, by simpa using htr⟩) hin fun _ _ => rfl
      · rw [if_neg hlen]
        exact h.release hne

/-- Sharing keeps the invariant exactly when the request is not an owner yet. -/
theorem shareBlock_tidy_iff (h : Tidy s) (r : ρ) (phys : Nat) :
    Tidy (s.shareBlock r phys).2 ↔ ¬ OwnedBy s phys r := by
  rcases h.cases phys with hf | ⟨tag, os, hh, hm, hn⟩
  · have hrc : s.refcount.get? phys = none := congrArg Slab.refcount hf
    have how : s.owners.get? phys = none := congrArg Slab.owners hf
    have hsame : (s.shareBlock r phys).2 = s := by simp [KVPool.shareBlock, hrc]
    rw [hsame]
    simp [h, OwnedBy, how]
  · have hin : s.inUse.get? phys = some tag := congrArg Slab.inUse hh
    have hrc : s.refcount.get? phys = some (os.length : Int) := congrArg Slab.refcount hh
    have how : s.owners.get? phys = some os := congrArg Slab.owners hh
    have hpos := List.length_pos_of_mem hm
    have hrc0 : ¬ (os.length : Int) ≤ 0 := by omega
    have hstep : (s.shareBlock r phys).2 = { s with
        refcount := s.refcount.set phys ((os.length : Int) + 1)
        owners := s.owners.set phys (if r ∈ os then os else os ++ [r]) } := by
      simp only [KVPool.shareBlock, hrc, how, Option.getD_some, if_neg hrc0]
    have hslab : ∀ pb', slab (s.shareBlock r phys).2 pb' = if pb' = phys then
        ⟨some tag, some ((os.length : Int) + 1), some (if r ∈ os then os else os ++ [r])⟩
        else slab s pb' := by
      intro pb'
      rw [hstep]
      by_cases he : pb' = phys <;> simp [slab, Dict.get?_set, he, hin]
    by_cases hr : r ∈ os
    · have howned : OwnedBy s phys r := ⟨os, how, hr⟩
      refine ⟨fun h' => ?_, fun hno => absurd howned hno⟩
      rcases h'.cases phys with hf | ⟨tag', os', he, -⟩
      · rw [hslab, if_pos rfl] at hf
        cases congrArg Slab.inUse hf
      · rw [hslab, if_pos rfl, if_pos hr] at he
        have h₁ : os = os' := Option.some.inj (congrArg Slab.owners he)
        have h₂ : (os.length : Int) + 1 = os'.length := Option.some.inj (congrArg Slab.refcount he)
        rw [← h₁] at h₂
        omega
    · have hheld : slab (s.shareBlock r phys).2 phys = .held tag (os ++ [r]) := by
        rw [hslab, if_pos rfl, if_neg hr]
        simp [Slab.held]
      refine ⟨fun _ hno => ?_, fun _ => ?_⟩
      · obtain ⟨os', how', hr'⟩ := hno
        rw [how, Option.some.injEq] at how'
        exact hr (how' ▸ hr')
      · refine h.edit phys (by rw [hstep]) (by rw [hstep]) (hh ▸ Slab.held_ne_free) ?_ ?_
          (fun pb' he => by rw [hslab, if_neg he])
        · rw [hheld]
          exact Slab.held_ne_free
        · rw [hheld]
          refine .held tag _ (List.mem_append_left _ hm) ?_
          exact List.nodup_append.mpr ⟨hn, by simp, fun x hx y hy => by
            rw [List.mem_singleton.mp hy]
            exact fun he => hr (he ▸ hx)⟩

def leaveShared (s : KVPool ρ) (r : ρ) (phys : Nat) (rc : Int) (os : List ρ) : KVPool ρ :=
  { s with
    refcount := s.refcount.set phys (rc - 1)
    owners := if os.filter (· ≠ r) = [] then s.owners.erase phys
      else s.owners.set phys (os.filter (· ≠ r)) }

/-- The shared slab is left in order when the caller was not its primary owner
and the count that was read before agrees with the owners that remain. -/
theorem leaveShared_tidy_iff {rc : Int} (h : Tidy s) (hpb : slab s phys = .held tag os)
    (hm : tag ∈ os) (hn : os.Nodup) :
    Tidy (leaveShared s r phys rc os) ↔ tag ≠ r ∧ rc - 1 = ((os.filter (· ≠ r)).length : Int) := by
  have hin : s.inUse.get? phys = some tag := congrArg Slab.inUse hpb
  have hslab : ∀ pb', slab (leaveShared s r phys rc os) pb' = if pb' = phys then
      ⟨some tag, some (rc - 1), if os.filter (· ≠ r) = [] then none
        else some (os.filter (· ≠ r))⟩ else slab s pb' := by
    intro pb'
    simp only [slab, leaveShared]
    generalize os.filter (· ≠ r) = left
    by_cases hl : left = [] <;> by_cases he : pb' = phys <;>
      simp [Dict.get?_set, Dict.get?_erase, he, hl, hin]
  constructor
  · intro h'
    rcases h'.cases phys with hf | ⟨tag', os', he, hm', -⟩
    · rw [hslab, if_pos rfl] at hf
      cases congrArg Slab.inUse hf
    · rw [hslab, if_pos rfl] at he
      have h₁ : tag = tag' := Option.some.inj (congrArg Slab.inUse he)
      have h₂ : rc - 1 = os'.length := Option.some.inj (congrArg Slab.refcount he)
      have h₃ : (if os.filter (· ≠ r) = [] then none else some (os.filter (· ≠ r))) = some os' :=
        congrArg Slab.owners he
      split at h₃
      · cases h₃
      · rw [Option.some.injEq] at h₃
        rw [h₁, h₂, h₃]
        rw [← h₃] at hm'
        exact ⟨by simpa using (List.mem_filter.mp hm').2, rfl⟩
  · rintro ⟨htr, hrc⟩
    have hleft : tag ∈ os.filter (· ≠ r) := List.mem_filter.mpr ⟨hm, by simpa using htr⟩
    have hheld : slab (leaveShared s r phys rc os) phys = .held tag (os.filter (· ≠ r)) := by
      rw [hslab, if_pos rfl, if_neg (List.ne_nil_of_mem hleft), hrc]
      rfl
    refine h.edit phys rfl rfl (hpb ▸ Slab.held_ne_free) ?_ ?_
      (fun pb' he => by rw [hslab, if_neg he])
    · rw [hheld]
      exact Slab.held_ne_free
    · rw [hheld]
      exact .held tag _ hleft (hn.filter _)

/-- Of the caller and the victim exactly one stops owning the shared slab, and
its primary tag is not the caller. -/
def Balanced (os : List ρ) (tag r : ρ) : Option ρ → Prop
  | none => r ∈ os ∧ tag ≠ r
  | some v => if v = r then r ∈ os else (r ∈ os ∧ tag ≠ r ∧ v ∉ os) ∨ (r ∉ os ∧ v ∈ os)

theorem balanced_none_iff (hn : os.Nodup) (hm : tag ∈ os) :
    Balanced os tag r none ↔
      tag ≠ r ∧ (os.length : Int) - 1 = ((os.filter (· ≠ r)).length : Int) := by
  simp only [Balanced]
  by_cases hr : r ∈ os
  · have := length_filter_ne hn hr
    constructor
    · exact fun hb => ⟨hb.2, by omega⟩
    · exact fun hb => ⟨hr, hb.1⟩
  · rw [filter_ne_eq_self hr]
    have := List.length_pos_of_mem hm
    constructor
    · exact fun hb => absurd hb.1 hr
    · intro hb
      omega

/-- The same after the victim has given up its share. -/
theorem balanced_some_iff {x : Slab ρ} (hn : os.Nodup) (hm : tag ∈ os) (hlen : 1 < os.length)
    (hg : Gives v (.held tag os) x) : ∃ tag₁ os₁, x = .held tag₁ os₁ ∧ tag₁ ∈ os₁ ∧ os₁.Nodup ∧
      (Balanced os tag r (some v) ↔
        tag₁ ≠ r ∧ (os.length : Int) - 1 = ((os₁.filter (· ≠ r)).length : Int)) := by
  generalize hy : (Slab.held tag os : Slab ρ) = y at hg
  cases hg with
  | none _ out =>
    have hv := out tag os hy.symm
    refine ⟨tag, os, hy.symm, hm, hn, ?_⟩
    rw [← balanced_none_iff hn hm]
    simp only [Balanced]
    split
    · next hvr =>
      subst hvr
      simp [hv]
    · simp [hv]
  | last tag' os' left =>
    obtain ⟨rfl, rfl⟩ := Slab.held_inj hy
    -- two owners at least, so somebody else is left
    by_cases hv : v ∈ os
    · have := length_filter_ne hn hv
      rw [left, List.length_nil] at this
      omega
    · rw [filter_ne_eq_self hv] at left
      rw [left] at hm
      cases hm
  | share tag' tag₁ os' mem left kept =>
    obtain ⟨rfl, rfl⟩ := Slab.held_inj hy
    refine ⟨tag₁, _, rfl, left, hn.filter _, ?_⟩
    have hcount := length_filter_ne hn mem
    simp only [Balanced]
    by_cases hr : r ∈ os.filter (· ≠ v)
    · have h₁ := length_filter_ne (hn.filter _) hr
      have h₂ := List.mem_filter.mp hr
      have hvr : v ≠ r := fun he => by simp [he] at h₂
      rw [if_neg hvr]
      constructor
      · rintro (hb | hb)
        · exact absurd mem hb.2.2
        · exact absurd h₂.1 hb.1
      · intro hb
        omega
    · rw [filter_ne_eq_self hr]
      have htr : tag₁ ≠ r := fun he => hr (he ▸ left)
      have hone : r ∉ os ∨ v = r := by
        by_cases hro : r ∈ os
        · by_contra hno
          push Not at hno
          exact hr (List.mem_filter.mpr ⟨hro, by simpa using fun he => hno.2 he.symm⟩)
        · exact Or.inl hro
      refine ⟨fun _ => ⟨htr, by omega⟩, fun _ => ?_⟩
      split
      · next hvr => exact hvr ▸ mem
      · next hvr => exact Or.inr ⟨hone.resolve_right hvr, mem⟩

/-- The call counts the owners of a shared slab wrongly. -/
def Miscounts (o : SetOrder ρ) (s : KVPool ρ) : Op ρ → Prop
  | .shareBlock r phys => OwnedBy s phys r
  | .ensureWritable r phys => ∃ tag os, s.inUse.get? phys = some tag ∧
      s.owners.get? phys = some os ∧ 1 < os.length ∧
      ((s.freeList ≠ [] ∧ ¬ Balanced os tag r none) ∨
        (s.freeList = [] ∧ ∃ v, s.victim o (s.activeFor r none) = some v ∧
          (∃ pb, s.owners.get? pb = some [v]) ∧ ¬ Balanced os tag r (some v)))
  | _ => False

/-- With room made, the copy is in order exactly when the counts agree. -/
theorem copy_tidy_iff {rest : List Nat} {rc : Int} (h : Tidy s) (hf : s.freeList = pb :: rest)
    (hpb : slab s phys = .held tag os) (hm : tag ∈ os) (hn : os.Nodup) :
    Tidy (leaveShared ({ s with freeList := rest }.record pb r 1 [r]) r phys rc os) ↔
      tag ≠ r ∧ rc - 1 = ((os.filter (· ≠ r)).length : Int) := by
  obtain ⟨h', -, hfree, hother⟩ := handOut_tidy h hf r
  have hne : phys ≠ pb := by
    rintro rfl
    rw [hfree] at hpb
    exact absurd hpb Slab.free_ne_held
  exact leaveShared_tidy_iff h' ((hother phys hne).trans hpb) hm hn

/-- With no slab free, freeing the victim frees just the slabs that were its alone. -/
theorem soleOwner_iff {t : KVPool ρ} (h : Tidy s) (hfree : s.freeList = [])
    (hg : ∀ pb, Gives v (slab s pb) (slab t pb)) (pb : Nat) :
    (pb < s.numBlocks ∧ slab t pb = .free) ↔ s.owners.get? pb = some [v] := by
  have hout : pb ∉ s.freeList := by simp [hfree]
  have hgive := hg pb
  rcases h.cases pb with hp | ⟨tag, os, hp, hm, hn⟩
  · have how : s.owners.get? pb = none := congrArg Slab.owners hp
    constructor
    · rintro ⟨hlt, -⟩
      exact absurd ((h.free pb).mpr ⟨hlt, hp⟩) hout
    · rw [how]
      exact fun hx => by cases hx
  · have how : s.owners.get? pb = some os := congrArg Slab.owners hp
    rw [how, Option.some.injEq]
    constructor
    · rintro ⟨-, hf⟩
      rw [hp, hf] at hgive
      generalize hy : (Slab.held tag os : Slab ρ) = y at hgive
      generalize hz : (Slab.free : Slab ρ) = z at hgive
      cases hgive with
      | none => exact absurd (hy.trans hz.symm) Slab.held_ne_free
      | last tag' os' left =>
        obtain ⟨rfl, rfl⟩ := Slab.held_inj hy
        have hall : ∀ q ∈ os, q = v := by
          intro q hq
          by_contra hqv
          exact List.eq_nil_iff_forall_not_mem.mp left q
            (List.mem_filter.mpr ⟨hq, by simpa using hqv⟩)
        cases os with
        | nil => cases hm
        | cons q rest =>
          have hqv := hall q List.mem_cons_self
          subst hqv
          have hrest : rest = [] := by
            rw [List.eq_nil_iff_forall_not_mem]
            intro x hx
            exact (List.nodup_cons.mp hn).1 (hall x (List.mem_cons_of_mem _ hx) ▸ hx)
          rw [hrest]
      | share => exact absurd hz Slab.free_ne_held
    · rintro rfl
      refine ⟨h.bound pb (hp ▸ Slab.held_ne_free), ?_⟩
      rw [hp] at hgive
      generalize hy : (Slab.held tag [v] : Slab ρ) = y at hgive
      generalize slab t pb = z at hgive ⊢
      cases hgive with
      | none _ out => exact absurd List.mem_cons_self (out tag [v] hy.symm)
      | last => rfl
      | share tag' tag₁ os' mem left kept =>
        obtain ⟨-, rfl⟩ := Slab.held_inj hy
        simp at left

theorem ensureWritable_eq {t : KVPool ρ} {rest : List Nat} {rc : Int}
    (hrc : s.refcount.get? phys = some rc) (hgt : ¬ rc ≤ 1)
    (hroom : s.makeRoom o (s.activeFor r none) = (.ok (), t)) (ht : Tidy t)
    (hf : t.freeList = pb :: rest) (hpb : slab t phys = .held tag os) :
    (s.ensureWritable o r phys).2 =
      leaveShared ({ t with freeList := rest }.record pb r 1 [r]) r phys rc os := by
  have hne : phys ≠ pb := by
    rintro rfl
    rw [((ht.free phys).mp (hf ▸ List.mem_cons_self)).2] at hpb
    exact absurd hpb Slab.free_ne_held
  have how : (({ t with freeList := rest }.record pb r 1 [r]).owners.get? phys) = some os :=
    (Dict.get?_set_ne _ _ hne).trans (congrArg Slab.owners hpb)
  simp only [KVPool.ensureWritable, hrc, Option.getD_some, if_neg hgt, hroom, KVPool.handOut, hf,
    how]
  rfl

theorem ensureWritable_tidy_iff (h : Tidy s) (r : ρ) (phys : Nat) :
    Tidy (s.ensureWritable o r phys).2 ↔ ¬ Miscounts o s (.ensureWritable r phys) := by
  rcases h.cases phys with hf | ⟨tag, os, hh, hm, hn⟩
  · have hrc : s.refcount.get? phys = none := congrArg Slab.refcount hf
    have hin : s.inUse.get? phys = none := congrArg Slab.inUse hf
    have hsame : (s.ensureWritable o r phys).2 = s := by simp [KVPool.ensureWritable, hrc]
    rw [hsame]
    simp [h, Miscounts, hin]
  have hin : s.inUse.get? phys = some tag := congrArg Slab.inUse hh
  have hrc : s.refcount.get? phys = some (os.length : Int) := congrArg Slab.refcount hh
  have how : s.owners.get? phys = some os := congrArg Slab.owners hh
  have hmis : Miscounts o s (.ensureWritable r phys) ↔ 1 < os.length ∧
      ((s.freeList ≠ [] ∧ ¬ Balanced os tag r none) ∨
        (s.freeList = [] ∧ ∃ v, s.victim o (s.activeFor r none) = some v ∧
          (∃ pb, s.owners.get? pb = some [v]) ∧ ¬ Balanced os tag r (some v))) := by
    simp [Miscounts, hin, how]
  by_cases hlen : 1 < os.length
  swap
  · have hle : (os.length : Int) ≤ 1 := by omega
    have hsame : (s.ensureWritable o r phys).2 = s := by simp [KVPool.ensureWritable, hrc, hle]
    rw [hsame, hmis]
    simp [h, hlen]
  have hgt : ¬ (os.length : Int) ≤ 1 := by omega
  rw [hmis]
  simp only [hlen, true_and]
  by_cases hfree : s.freeList = []
  · cases hv : s.victim o (s.activeFor r none) with
    | none =>
      have hsame : (s.ensureWritable o r phys).2 = s := by
        simp [KVPool.ensureWritable, KVPool.makeRoom, hrc, hgt, hfree, hv]
      rw [hsame]
      simp [h, hfree]
    | some v =>
      obtain ⟨h₁, hg⟩ := freeRequest_gives h o v
      obtain ⟨tag₁, os₁, hx, hm₁, hn₁, hbal⟩ := balanced_some_iff (r := r) hn hm hlen (hh ▸ hg phys)
      have hroom : s.makeRoom o (s.activeFor r none) = (.ok (), (s.freeRequest o v).2) := by
        simp only [KVPool.makeRoom, hfree, if_true, hv]
      have hsole : ∀ pb, pb ∈ (s.freeRequest o v).2.freeList ↔ s.owners.get? pb = some [v] := by
        intro pb
        rw [h₁.free, freeRequest_numBlocks]
        exact soleOwner_iff h hfree hg pb
      cases hf : (s.freeRequest o v).2.freeList with
      | nil =>
        have hno : ∀ pb, s.owners.get? pb ≠ some [v] := by
          intro pb hp
          have := (hsole pb).mpr hp
          rw [hf] at this
          cases this
        have hstep : (s.ensureWritable o r phys).2 = (s.freeRequest o v).2 := by
          simp [KVPool.ensureWritable, hrc, hgt, hroom, KVPool.handOut, hf]
        rw [hstep]
        simp [h₁, hfree, hno]
      | cons pb rest =>
        have hp : s.owners.get? pb = some [v] := (hsole pb).mp (hf ▸ List.mem_cons_self)
        have hstep := ensureWritable_eq hrc hgt hroom h₁ hf hx
        rw [hstep, copy_tidy_iff h₁ hf hx hm₁ hn₁, ← hbal]
        simp only [hfree, ne_eq, not_true_eq_false, false_and, false_or, true_and,
          Option.some.injEq, exists_eq_left', not_and, not_not]
        exact ⟨fun hb _ => hb, fun hb => hb ⟨pb, hp⟩⟩
  · have hroom : s.makeRoom o (s.activeFor r none) = (.ok (), s) := by
      simp only [KVPool.makeRoom, hfree, if_false]
    obtain ⟨pb, rest, hf⟩ := List.exists_cons_of_ne_nil hfree
    have hstep := ensureWritable_eq hrc hgt hroom h hf hh
    rw [hstep, copy_tidy_iff h hf hh hm hn, ← balanced_none_iff hn hm]
    simp [hfree]

/-- The slab that is returned is the caller's own, or a fresh one. -/
theorem ensureWritable_fresh (h : Tidy s) (hok : (s.ensureWritable o r phys).1 = .ok pb) :
    (pb = phys ∧ (s.ensureWritable o r phys).2 = s) ∨
      ((s.ensureWritable o r phys).2.owners.get? pb = some [r] ∧
        ∀ q, OwnedBy s pb q → s.freeList = [] ∧ s.victim o (s.activeFor r none) = some q) := by
  rcases h.cases phys with hf | ⟨tag, os, hh, hm, hn⟩
  · have hrc : s.refcount.get? phys = none := congrArg Slab.refcount hf
    simp only [KVPool.ensureWritable, hrc, Option.getD_none, zero_le_one, if_true,
      Except.ok.injEq] at hok ⊢
    exact Or.inl ⟨hok.symm, trivial⟩
  have hrc : s.refcount.get? phys = some (os.length : Int) := congrArg Slab.refcount hh
  by_cases hle : (os.length : Int) ≤ 1
  · simp only [KVPool.ensureWritable, hrc, Option.getD_some, if_pos hle, Except.ok.injEq] at hok ⊢
    exact Or.inl ⟨hok.symm, trivial⟩
  cases hroom : s.makeRoom o (s.activeFor r none) with
  | mk e t =>
    -- the shared slab still has an owner once room is made
    obtain ⟨ht, tag₁, os₁, hx⟩ : Tidy t ∧ ∃ tag₁ os₁, slab t phys = .held tag₁ os₁ := by
      obtain ⟨h₁, hcase⟩ := makeRoom_gives (o := o) (s.activeFor r none) h
      rw [hroom] at h₁ hcase
      rcases hcase with rfl | ⟨v, -, -, -, hg⟩
      · exact ⟨h₁, tag, os, hh⟩
      · obtain ⟨tag₁, os₁, hx, -⟩ := balanced_some_iff (r := r) hn hm (by omega) (hh ▸ hg phys)
        exact ⟨h₁, tag₁, os₁, hx⟩
    cases e with
    | error e => simp [KVPool.ensureWritable, hrc, hle, hroom] at hok
    | ok u =>
      cases hfree : t.freeList with
      | nil => simp [KVPool.ensureWritable, hrc, hle, hroom, KVPool.handOut, hfree] at hok
      | cons pb' rest =>
        have hne : phys ≠ pb' := by
          rintro rfl
          rw [((ht.free phys).mp (hfree ▸ List.mem_cons_self)).2] at hx
          exact absurd hx Slab.free_ne_held
        have how : (({ t with freeList := rest }.record pb' r 1 [r]).owners.get? phys) = some os₁ :=
          (Dict.get?_set_ne _ _ hne).trans (congrArg Slab.owners hx)
        have hpb : pb' = pb := by
          simp only [KVPool.ensureWritable, hrc, Option.getD_some, if_neg hle, hroom,
            KVPool.handOut, hfree, how, Except.ok.injEq] at hok
          exact hok
        subst hpb
        refine Or.inr ⟨?_, fun q hq => makeRoom_fresh h hroom hfree hq⟩
        rw [ensureWritable_eq hrc hle hroom ht hfree hx, leaveShared]
        dsimp only
        split
        · exact (Dict.get?_erase_ne _ (Ne.symm hne)).trans (Dict.get?_set_self _ _ _)
        · exact (Dict.get?_set_ne _ _ (Ne.symm hne)).trans (Dict.get?_set_self _ _ _)

theorem touchActive_tidy (h : Tidy s) : Tidy s.touchActive := by
  simp only [KVPool.touchActive]
  split
  · exact h
  · exact ⟨h.slabs, h.freeNodup, h.free, h.bound⟩

/-- A call keeps the invariant exactly when it does not miscount. -/
theorem exec_owned_iff (h : Owned s) (c : SetOrder ρ × Op ρ) :
    Owned (exec s c) ↔ ¬ Miscounts c.1 s c.2 := by
  rw [owned_iff_tidy]
  have ht := h.tidy
  obtain ⟨o, op⟩ := c
  have hkeep : ∀ {t : KVPool ρ}, Tidy t → (Tidy t ↔ ¬ False) := fun ht => by simp [ht]
  cases op with
  | setActiveIds ids => exact hkeep ⟨ht.slabs, ht.freeNodup, ht.free, ht.bound⟩
  | touchActive => exact hkeep (touchActive_tidy ht)
  | touch r => exact hkeep (touch_tidy ht r)
  | allocBlock r ids => exact hkeep (allocBlock_tidy ht ids)
  | shareBlock r phys => exact shareBlock_tidy_iff ht r phys
  | ensureWritable r phys => exact ensureWritable_tidy_iff ht r phys
  | freeRequest r => exact hkeep (freeRequest_gives ht o r).1
  | freeBlock pb req => exact hkeep (freeBlock_tidy ht pb req)

omit [DecidableEq ρ] in
theorem init_tidy {n : Nat} (h : KVPool.init n = .ok s) : Tidy s := by
  simp only [KVPool.init] at h
  split at h
  · cases h
  · cases h
    have hslab : ∀ pb, slab (ρ := ρ) ⟨n, List.range n, Dict.empty, Dict.empty, Dict.empty, 0,
        Dict.empty, none⟩ pb = .free := fun pb => rfl
    refine ⟨fun pb => hslab pb ▸ .free, List.nodup_range, fun pb => ?_, fun pb hne => ?_⟩
    · simp [hslab, List.mem_range]
    · exact absurd (hslab pb) hne

/-- The states that calls meeting `C` reach from construction. -/
abbrev Reachable (C : KVPool ρ → SetOrder ρ × Op ρ → Prop) : KVPool ρ → Prop :=
  Reached (fun s => ∃ n, KVPool.init n = .ok s) C exec

theorem reachable_owned (h : Reachable (fun s c => ¬ Miscounts c.1 s c.2) s) : Owned s := by
  refine h.invariant (I := Owned) ?_ ?_
  · rintro s ⟨n, hn⟩
    exact (init_tidy hn).owned
  · intro s c _ hs hc
    exact (exec_owned_iff hs c).mpr hc

/-- As long as no call miscounts, the free list and the three dictionaries agree,
and a slab that is handed out, also for a copy, had no owner but the request
evicted for it. -/
theorem slabs_owned (h : Reachable (fun s c => ¬ Miscounts c.1 s c.2) s) :
    Owned s ∧
    (∀ (o : SetOrder ρ) (r : ρ) (ids : Option (List ρ)) (pb : Nat),
      (s.allocBlock o r ids).1 = .ok pb →
        (s.allocBlock o r ids).2.owners.get? pb = some [r] ∧ ∀ q, OwnedBy s pb q →
          s.freeList = [] ∧ (s.touch r).victim o (s.activeFor r ids) = some q) ∧
    ∀ (o : SetOrder ρ) (r : ρ) (phys pb : Nat), (s.ensureWritable o r phys).1 = .ok pb →
      (pb = phys ∧ (s.ensureWritable o r phys).2 = s) ∨
        ((s.ensureWritable o r phys).2.owners.get? pb = some [r] ∧ ∀ q, OwnedBy s pb q →
          s.freeList = [] ∧ s.victim o (s.activeFor r none) = some q) := by
  have howned : Owned s := reachable_owned h
  exact ⟨howned, fun o r ids pb hok => allocBlock_fresh howned.tidy hok,
    fun o r phys pb hok => ensureWritable_fresh howned.tidy hok⟩

def twoSlabs (ops : List (Op String)) : KVPool String :=
  runList exec ⟨2, [0, 1], Dict.empty, Dict.empty, Dict.empty, 0, Dict.empty, none⟩
    (ops.map (fun op => (SetOrder.asFilled String, op)))

theorem twoSlabs_reachable {C : KVPool String → SetOrder String × Op String → Prop}
    (ops : List (Op String)) (hok : AllOk C exec (twoSlabs [])
      (ops.map (fun op => (SetOrder.asFilled String, op)))) : Reachable C (twoSlabs ops) := by
  have hstart : Reachable C (twoSlabs []) := .start ⟨2, rfl⟩
  exact Reached.runList hstart hok

/-- A co-owner copies the slab before it writes. -/
theorem slabs_owned_copied :
    (twoSlabs [.allocBlock "a" none, .shareBlock "b" 0]).owners.get? 0 = some ["a", "b"] ∧
      Owned (twoSlabs [.allocBlock "a" none, .shareBlock "b" 0, .ensureWritable "b" 0]) := by
  have hrun : Reachable (fun s c => ¬ Miscounts c.1 s c.2)
      (twoSlabs [.allocBlock "a" none, .shareBlock "b" 0, .ensureWritable "b" 0]) := by
    refine twoSlabs_reachable _ ⟨id, ?_, ?_, trivial⟩
    · rintro ⟨os, how, hm⟩
      have h₁ : (twoSlabs [.allocBlock "a" none]).owners.get? 0 = some ["a"] := by decide +kernel
      cases h₁.symm.trans how
      simp at hm
    · rintro ⟨tag, os, hin, how, -, hbad⟩
      have h₁ : (twoSlabs [.allocBlock "a" none, .shareBlock "b" 0]).owners.get? 0 =
        some ["a", "b"] := by decide +kernel
      have h₂ : (twoSlabs [.allocBlock "a" none, .shareBlock "b" 0]).inUse.get? 0 = some "a" := by
        decide +kernel
      have h₃ : (twoSlabs [.allocBlock "a" none, .shareBlock "b" 0]).freeList = [1] := by
        decide +kernel
      cases h₁.symm.trans how
      cases h₂.symm.trans hin
      rcases hbad with ⟨-, hbad⟩ | ⟨hfree, -⟩
      · exact hbad (by simp [Balanced])
      · cases h₃.symm.trans hfree
  exact ⟨by decide +kernel, (slabs_owned hrun).1⟩

/-- The primary owner copies the slab, and the slab it left keeps its tag. -/
theorem primary_copy_keeps_tag :
    Reachable (fun _ _ => True)
      (twoSlabs [.allocBlock "a" none, .shareBlock "b" 0, .ensureWritable "a" 0]) ∧
    (twoSlabs [.allocBlock "a" none, .shareBlock "b" 0, .ensureWritable "a" 0]).inUse.get? 0 =
      some "a" ∧
    (twoSlabs [.allocBlock "a" none, .shareBlock "b" 0, .ensureWritable "a" 0]).owners.get? 0 =
      some ["b"] ∧
    ¬ Owned (twoSlabs [.allocBlock "a" none, .shareBlock "b" 0, .ensureWritable "a" 0]) := by
  have hin : (twoSlabs [.allocBlock "a" none, .shareBlock "b" 0,
    .ensureWritable "a" 0]).inUse.get? 0 = some "a" := by decide +kernel
  have how : (twoSlabs [.allocBlock "a" none, .shareBlock "b" 0,
    .ensureWritable "a" 0]).owners.get? 0 = some ["b"] := by decide +kernel
  refine ⟨twoSlabs_reachable _ ⟨trivial, trivial, trivial, trivial⟩, hin, how, fun h => ?_⟩
  obtain ⟨os, hos, -, hm, -⟩ := h.owner 0 "a" hin
  cases how.symm.trans hos
  simp at hm

end FusionMlx.SlabOwnership
