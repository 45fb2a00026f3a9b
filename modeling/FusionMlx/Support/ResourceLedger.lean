import Mathlib.Data.List.Nodup
import Mathlib.Data.Set.Insert

/-!
# Ledgers of reference-counted resources

The abstract state of a pool whose resources are free, held or on their way
between the two, with reference counts, content keys and an index from keys to
resources. `Move` is everything a pool operation may do to it. Each invariant
is proved once about a move and then holds along every sequence of moves.
-/
namespace FusionMlx.ResourceLedger

variable {ν η : Type}

/-- `loose` resources have been taken out of one place and not yet put into the
other; `pending` lists the resources whose content was given up and whose
users have not been told. -/
@[ext] structure Ledger (ν η : Type) where
  made : Set ν
  free : List ν
  held : Set ν
  loose : Set ν
  refs : ν → Int
  key : ν → Option η
  parent : ν → Option η
  entries : Set (η × ν)
  pending : List ν

variable {b c : Ledger ν η} {bs : List ν}

namespace Ledger

variable [DecidableEq ν]

def extend (a : Ledger ν η) (bs : List ν) : Ledger ν η :=
  { a with
    made := a.made ∪ {b | b ∈ bs}
    free := a.free ++ bs
    refs := fun b => if b ∈ bs then 0 else a.refs b
    key := fun b => if b ∈ bs then none else a.key b
    parent := fun b => if b ∈ bs then none else a.parent b }

def take (a : Ledger ν η) (rest : List ν) (b : ν) : Ledger ν η :=
  { a with free := rest, loose := insert b a.loose }

def setRefs (a : Ledger ν η) (b : ν) (n : Int) : Ledger ν η :=
  { a with refs := Function.update a.refs b n }

def adopt (a : Ledger ν η) (b : ν) (n : Int) : Ledger ν η :=
  { a with
    loose := a.loose \ {b}, held := insert b a.held, refs := Function.update a.refs b n }

def unlist (a : Ledger ν η) (h : η) (b : ν) : Ledger ν η :=
  { a with entries := a.entries \ {(h, b)} }

def notify (a : Ledger ν η) (b : ν) : Ledger ν η :=
  { a with pending := a.pending ++ [b] }

def forget (a : Ledger ν η) (b : ν) : Ledger ν η :=
  { a with key := Function.update a.key b none, parent := Function.update a.parent b none }

def drop (a : Ledger ν η) (b : ν) (n : Int) : Ledger ν η :=
  { a with
    held := a.held \ {b}, loose := insert b a.loose, refs := Function.update a.refs b n }

def place (a : Ledger ν η) (bs : List ν) : Ledger ν η :=
  { a with free := a.free ++ bs, loose := a.loose \ {b | b ∈ bs} }

def list (a : Ledger ν η) (h : η) (p : Option η) (b : ν) : Ledger ν η :=
  { a with
    key := Function.update a.key b (some h), parent := Function.update a.parent b p
    entries := insert (h, b) a.entries }

theorem extend_nil (a : Ledger ν η) : a.extend [] = a := by
  ext <;> simp [extend]

def takeAll (a : Ledger ν η) (bs rest : List ν) : Ledger ν η :=
  { a with free := rest, loose := a.loose ∪ {b | b ∈ bs} }

omit [DecidableEq ν] in
theorem takeAll_cons (a : Ledger ν η) (b : ν) (bs rest : List ν) :
    a.takeAll (b :: bs) rest = (a.take (bs ++ rest) b).takeAll bs rest := by
  ext c <;> simp [takeAll, take]
  tauto

def adoptAll (a : Ledger ν η) (bs : List ν) : Ledger ν η :=
  { a with
    loose := a.loose \ {b | b ∈ bs}, held := a.held ∪ {b | b ∈ bs}
    refs := fun b => if b ∈ bs then 1 else a.refs b }

theorem adoptAll_cons (a : Ledger ν η) {b : ν} (hb : b ∉ bs) :
    a.adoptAll (b :: bs) = (a.adopt b 1).adoptAll bs := by
  ext c
  · rfl
  · rfl
  · simp only [adoptAll, adopt, Set.mem_union, Set.mem_insert_iff, Set.mem_ofPred_eq,
      List.mem_cons]
    tauto
  · simp only [adoptAll, adopt, Set.mem_sdiff, Set.mem_singleton_iff, Set.mem_ofPred_eq,
      List.mem_cons]
    tauto
  · by_cases hc : c = b
    · simp [adoptAll, adopt, hc, hb]
    · by_cases hm : c ∈ bs <;> simp [adoptAll, adopt, hc, hm]
  · rfl
  · rfl
  · rfl
  · rfl

/-- Every resource is in one place, only held ones are referenced or listed,
and a listed one carries the key it is listed under. -/
structure Sound (root : ν) (a : Ledger ν η) : Prop where
  freeNodup : a.free.Nodup
  placed : ∀ b, b ∈ a.made ↔ b ∈ a.free ∨ b ∈ a.held ∨ b ∈ a.loose
  freeHeld : ∀ b ∈ a.free, b ∉ a.held
  freeLoose : ∀ b ∈ a.free, b ∉ a.loose
  heldLoose : ∀ b ∈ a.held, b ∉ a.loose
  rootHeld : root ∈ a.held
  rootRefs : 0 < a.refs root
  idle : ∀ b, b ∈ a.free ∨ b ∈ a.loose → a.refs b ≤ 0
  heldRefs : ∀ b ∈ a.held, 0 ≤ a.refs b
  listed : ∀ h b, (h, b) ∈ a.entries → b ∈ a.held ∧ a.key b = some h
  orphanless : ∀ b, a.key b = none → a.parent b = none

namespace Sound

variable {root : ν} {a : Ledger ν η}

omit [DecidableEq ν] in
theorem not_listed_of_free (hs : a.Sound root) {b : ν} (hb : b ∈ a.free ∨ b ∈ a.loose) (h : η) :
    (h, b) ∉ a.entries := by
  intro he
  have hheld := (hs.listed h b he).1
  rcases hb with hb | hb
  · exact hs.freeHeld b hb hheld
  · exact hs.heldLoose b hheld hb

theorem extend (hs : a.Sound root) (nodup : bs.Nodup) (new : ∀ b ∈ bs, b ∉ a.made) :
    (a.extend bs).Sound root := by
  have hout : ∀ b ∈ bs, b ∉ a.free ∧ b ∉ a.held ∧ b ∉ a.loose := by
    intro b hb
    have := new b hb
    rw [hs.placed] at this
    grind
  refine { hs with freeNodup := ?_, placed := ?_, freeHeld := ?_, freeLoose := ?_, rootRefs := ?_,
                   idle := ?_, heldRefs := ?_, listed := ?_, orphanless := ?_ }
  · exact List.nodup_append.mpr ⟨hs.freeNodup, nodup, by grind⟩
  · intro b
    have := hs.placed b
    simp only [Ledger.extend, Set.mem_union, Set.mem_ofPred_eq, List.mem_append]
    grind
  · intro b hb
    have := hs.freeHeld b
    simp only [Ledger.extend, List.mem_append] at hb ⊢
    grind
  · intro b hb
    have := hs.freeLoose b
    simp only [Ledger.extend, List.mem_append] at hb ⊢
    grind
  · have := hs.rootHeld
    have := hs.rootRefs
    simp only [Ledger.extend]
    grind
  · intro b hb
    have := hs.idle b
    simp only [Ledger.extend, List.mem_append] at hb ⊢
    grind
  · intro b hb
    have := hs.heldRefs b hb
    simp only [Ledger.extend]
    grind
  · intro h b he
    have := hs.listed h b he
    simp only [Ledger.extend]
    grind
  · intro b hb
    have := hs.orphanless b
    simp only [Ledger.extend] at hb ⊢
    grind

omit [DecidableEq ν] in
theorem take (hs : a.Sound root) {l r : List ν} {b : ν} (hfree : a.free = l ++ b :: r) :
    (a.take (l ++ r) b).Sound root := by
  have hmem : ∀ c, c ∈ a.free ↔ c = b ∨ c ∈ l ++ r := by
    intro c
    rw [hfree]
    simp only [List.mem_append, List.mem_cons]
    exact or_left_comm
  have hnd : b ∉ l ++ r ∧ (l ++ r).Nodup := by
    have := hs.freeNodup
    rw [hfree, List.nodup_middle, List.nodup_cons] at this
    exact this
  refine { hs with freeNodup := hnd.2, placed := ?_, freeHeld := ?_, freeLoose := ?_,
                   heldLoose := ?_, idle := ?_ }
  · intro c
    have := hs.placed c
    have := hmem c
    simp only [Ledger.take, Set.mem_insert_iff]
    grind
  · intro c hc
    exact hs.freeHeld c ((hmem c).mpr (Or.inr hc))
  · intro c hc hm
    rcases hm with rfl | hm
    · exact hnd.1 hc
    · exact hs.freeLoose c ((hmem c).mpr (Or.inr hc)) hm
  · intro c hc hm
    rcases hm with rfl | hm
    · exact hs.freeHeld c ((hmem c).mpr (Or.inl rfl)) hc
    · exact hs.heldLoose c hc hm
  · intro c hc
    have := hmem c
    have := hs.idle c
    simp only [Ledger.take, Set.mem_insert_iff] at hc ⊢
    grind

theorem setRefs (hs : a.Sound root) {b : ν} {n : Int} (hheld : b ∈ a.held → 0 ≤ n)
    (hroot : b = root → 0 < n) (hidle : b ∈ a.free ∨ b ∈ a.loose → n ≤ 0) :
    (a.setRefs b n).Sound root := by
  have hval : ∀ c, (a.setRefs b n).refs c = if c = b then n else a.refs c := by
    intro c
    simp only [Ledger.setRefs, Function.update_apply]
  refine { hs with rootRefs := ?_, idle := ?_, heldRefs := ?_ }
  · have := hs.rootRefs
    rw [hval]
    grind
  · intro c hc
    have := hs.idle c hc
    rw [hval]
    grind [Ledger.setRefs]
  · intro c hc
    have := hs.heldRefs c hc
    rw [hval]
    grind [Ledger.setRefs]

theorem adopt (hs : a.Sound root) {b : ν} {n : Int} (hb : b ∈ a.loose) (hn : 0 < n) :
    (a.adopt b n).Sound root := by
  have hval : ∀ c, (a.adopt b n).refs c = if c = b then n else a.refs c := by
    intro c
    simp only [Ledger.adopt, Function.update_apply]
  have hbfree : b ∉ a.free := fun hm => hs.freeLoose b hm hb
  refine { hs with placed := ?_, freeHeld := ?_, freeLoose := ?_, heldLoose := ?_, rootHeld := ?_,
                   rootRefs := ?_, idle := ?_, heldRefs := ?_, listed := ?_ }
  · intro c
    have := hs.placed c
    simp only [Ledger.adopt, Set.mem_insert_iff, Set.mem_sdiff, Set.mem_singleton_iff]
    grind
  · intro c hc hm
    rcases hm with rfl | hm
    · exact hbfree hc
    · exact hs.freeHeld c hc hm
  · intro c hc hm
    exact hs.freeLoose c hc hm.1
  · intro c hc hm
    rcases hc with rfl | hc
    · exact hm.2 rfl
    · exact hs.heldLoose c hc hm.1
  · exact Set.mem_insert_of_mem _ hs.rootHeld
  · have := hs.rootRefs
    rw [hval]
    grind
  · intro c hc
    have := hs.idle c
    rw [hval]
    simp only [Ledger.adopt, Set.mem_sdiff, Set.mem_singleton_iff] at hc
    grind
  · intro c hc
    have := hs.heldRefs c
    rw [hval]
    simp only [Ledger.adopt, Set.mem_insert_iff] at hc
    grind
  · intro h c he
    exact ⟨Set.mem_insert_of_mem _ (hs.listed h c he).1, (hs.listed h c he).2⟩

omit [DecidableEq ν] in
theorem unlist (hs : a.Sound root) (h : η) (b : ν) : (a.unlist h b).Sound root :=
  { hs with listed := fun h' c he => hs.listed h' c he.1 }

omit [DecidableEq ν] in
theorem notify (hs : a.Sound root) (b : ν) : (a.notify b).Sound root := { hs with }

theorem forget (hs : a.Sound root) {b : ν} (hl : ∀ h, (h, b) ∉ a.entries) :
    (a.forget b).Sound root := by
  refine { hs with listed := ?_, orphanless := ?_ }
  · intro h c he
    have hne : c ≠ b := by rintro rfl; exact hl h he
    simpa [Ledger.forget, hne] using hs.listed h c he
  · intro c hc
    have := hs.orphanless c
    simp only [Ledger.forget, Function.update_apply] at hc ⊢
    grind

theorem drop (hs : a.Sound root) {b : ν} {n : Int} (hb : b ∈ a.held) (hne : b ≠ root)
    (hl : ∀ h, (h, b) ∉ a.entries) (hn : n ≤ 0) : (a.drop b n).Sound root := by
  have hval : ∀ c, (a.drop b n).refs c = if c = b then n else a.refs c := by
    intro c
    simp only [Ledger.drop, Function.update_apply]
  refine { hs with placed := ?_, freeHeld := ?_, freeLoose := ?_, heldLoose := ?_, rootHeld := ?_,
                   rootRefs := ?_, idle := ?_, heldRefs := ?_, listed := ?_ }
  · intro c
    have := hs.placed c
    simp only [Ledger.drop, Set.mem_insert_iff, Set.mem_sdiff, Set.mem_singleton_iff]
    grind
  · intro c hc hm
    exact hs.freeHeld c hc hm.1
  · intro c hc hm
    rcases hm with rfl | hm
    · exact hs.freeHeld c hc hb
    · exact hs.freeLoose c hc hm
  · intro c hc hm
    rcases hm with rfl | hm
    · exact hc.2 rfl
    · exact hs.heldLoose c hc.1 hm
  · exact ⟨hs.rootHeld, Ne.symm hne⟩
  · have := hs.rootRefs
    rw [hval]
    grind
  · intro c hc
    have := hs.idle c
    rw [hval]
    simp only [Ledger.drop, Set.mem_insert_iff] at hc
    grind
  · intro c hc
    have := hs.heldRefs c hc.1
    have hcb : c ≠ b := hc.2
    rw [hval, if_neg hcb]
    exact this
  · intro h c he
    have hcb : c ≠ b := by rintro rfl; exact hl h he
    exact ⟨⟨(hs.listed h c he).1, hcb⟩, (hs.listed h c he).2⟩

omit [DecidableEq ν] in
theorem place (hs : a.Sound root) (nodup : bs.Nodup) (hb : ∀ b ∈ bs, b ∈ a.loose) :
    (a.place bs).Sound root := by
  refine { hs with freeNodup := ?_, placed := ?_, freeHeld := ?_, freeLoose := ?_,
                   heldLoose := ?_, idle := ?_ }
  · refine List.nodup_append.mpr ⟨hs.freeNodup, nodup, ?_⟩
    intro c hc d hd hcd
    subst hcd
    exact hs.freeLoose c hc (hb c hd)
  · intro c
    have := hs.placed c
    have := hb c
    simp only [Ledger.place, List.mem_append, Set.mem_sdiff, Set.mem_ofPred_eq]
    grind
  · intro c hc hm
    rcases List.mem_append.mp hc with hc | hc
    · exact hs.freeHeld c hc hm
    · exact hs.heldLoose c hm (hb c hc)
  · intro c hc hm
    rcases List.mem_append.mp hc with hc | hc
    · exact hs.freeLoose c hc hm.1
    · exact hm.2 hc
  · intro c hc hm
    exact hs.heldLoose c hc hm.1
  · intro c hc
    have := hs.idle c
    have := hb c
    simp only [Ledger.place, List.mem_append, Set.mem_sdiff, Set.mem_ofPred_eq] at hc ⊢
    grind

theorem list (hs : a.Sound root) {h : η} {p : Option η} {b : ν} (hb : b ∈ a.held)
    (hl : ∀ h, (h, b) ∉ a.entries) : (a.list h p b).Sound root := by
  refine { hs with listed := ?_, orphanless := ?_ }
  · intro h' c he
    rcases he with he | he
    · obtain ⟨rfl, rfl⟩ := Prod.mk.inj he
      exact ⟨hb, by simp [Ledger.list]⟩
    · have hne : c ≠ b := by rintro rfl; exact hl h' he
      simpa [Ledger.list, hne] using hs.listed h' c he
  · intro c hc
    have := hs.orphanless c
    simp only [Ledger.list, Function.update_apply] at hc ⊢
    grind

end Sound

/-- No listed resource without references hangs below the key `h`. -/
def NoOrphans (a : Ledger ν η) (h : η) : Prop :=
  ∀ h' b, (h', b) ∈ a.entries → a.parent b = some h → 0 < a.refs b

/-- From `a` to `a'` some listed resources without references lost their entry
and key; nothing else changed but `pending`. -/
structure Purged (a a' : Ledger ν η) : Prop where
  made : a'.made = a.made
  free : a'.free = a.free
  held : a'.held = a.held
  loose : a'.loose = a.loose
  refs : a'.refs = a.refs
  entries : a'.entries ⊆ a.entries
  key : ∀ b, (a'.key b = a.key b ∧ a'.parent b = a.parent b) ∨
    (a'.key b = none ∧ a'.parent b = none ∧ a.refs b ≤ 0 ∧ ∃ h, (h, b) ∈ a.entries)

omit [DecidableEq ν] in
theorem Purged.refl (a : Ledger ν η) : Purged a a :=
  ⟨rfl, rfl, rfl, rfl, rfl, subset_rfl, fun _ => Or.inl ⟨rfl, rfl⟩⟩

omit [DecidableEq ν] in
theorem Purged.trans {a : Ledger ν η} (h : Purged a b) (h' : Purged b c) : Purged a c := by
  refine ⟨h'.made.trans h.made, h'.free.trans h.free, h'.held.trans h.held,
    h'.loose.trans h.loose, h'.refs.trans h.refs, h'.entries.trans h.entries, ?_⟩
  intro x
  have hx := h.key x
  rcases h'.key x with h₁ | ⟨h₁, h₂, h₃, k, hk⟩
  · rwa [h₁.1, h₁.2]
  · rw [h.refs] at h₃
    exact Or.inr ⟨h₁, h₂, h₃, k, h.entries hk⟩

/-- From `a` to `a'` some resources without references lost their key and entry. -/
structure Faded (a a' : Ledger ν η) : Prop where
  made : a'.made = a.made
  free : a'.free = a.free
  held : a'.held = a.held
  loose : a'.loose = a.loose
  refs : a'.refs = a.refs
  entries : a'.entries ⊆ a.entries
  key : ∀ b, (a'.key b = a.key b ∧ a'.parent b = a.parent b) ∨
    (a'.key b = none ∧ a'.parent b = none ∧ a.refs b ≤ 0)

omit [DecidableEq ν] in
theorem Purged.faded {a a' : Ledger ν η} (h : Purged a a') : Faded a a' :=
  ⟨h.made, h.free, h.held, h.loose, h.refs, h.entries,
    fun b => (h.key b).imp_right (fun hb => ⟨hb.1, hb.2.1, hb.2.2.1⟩)⟩

omit [DecidableEq ν] in
theorem Faded.refl (a : Ledger ν η) : Faded a a := (Purged.refl a).faded

omit [DecidableEq ν] in
theorem Faded.trans {a : Ledger ν η} (h : Faded a b) (h' : Faded b c) : Faded a c := by
  refine ⟨h'.made.trans h.made, h'.free.trans h.free, h'.held.trans h.held,
    h'.loose.trans h.loose, h'.refs.trans h.refs, h'.entries.trans h.entries, ?_⟩
  intro x
  rcases h'.key x with h₁ | h₁
  · rw [h₁.1, h₁.2]
    exact h.key x
  · rw [h.refs] at h₁
    exact Or.inr h₁

/-- From `a` to `a'` resources may have left their holders and lost key and entry. -/
structure Evicted (a a' : Ledger ν η) : Prop where
  loose : a'.loose = a.loose
  refs : a'.refs = a.refs
  held : a'.held ⊆ a.held
  entries : a'.entries ⊆ a.entries
  key : ∀ b, (a'.key b = a.key b ∧ a'.parent b = a.parent b) ∨
    (a'.key b = none ∧ a'.parent b = none)

omit [DecidableEq ν] in
theorem Faded.evicted {a a' : Ledger ν η} (h : Faded a a') : Evicted a a' :=
  ⟨h.loose, h.refs, h.held.le, h.entries, fun b => (h.key b).imp_right (fun hb => ⟨hb.1, hb.2.1⟩)⟩

omit [DecidableEq ν] in
theorem Evicted.refl (a : Ledger ν η) : Evicted a a := (Faded.refl a).evicted

omit [DecidableEq ν] in
theorem Evicted.trans {a : Ledger ν η} (h : Evicted a b) (h' : Evicted b c) : Evicted a c := by
  refine ⟨h'.loose.trans h.loose, h'.refs.trans h.refs, h'.held.trans h.held,
    h'.entries.trans h.entries, ?_⟩
  intro x
  rcases h'.key x with h₁ | h₁
  · rw [h₁.1, h₁.2]
    exact h.key x
  · exact Or.inr h₁

omit [DecidableEq ν] in
theorem Evicted.noOrphans {a a' : Ledger ν η} (h : Evicted a a') {k : η} (hno : a.NoOrphans k) :
    a'.NoOrphans k := by
  intro k' b he hp
  rw [h.refs]
  rcases h.key b with ⟨-, hb⟩ | ⟨-, hb⟩
  · exact hno k' b (h.entries he) (hb ▸ hp)
  · rw [hb] at hp
    cases hp

/-- Reclaiming `bs` in this order never orphans a listed resource without
references: whatever hangs below one of them comes before it. -/
def Orderly (a : Ledger ν η) (bs : List ν) : Prop :=
  ∀ l b r, bs = l ++ b :: r → ∀ k, a.key b = some k → ∀ h c, (h, c) ∈ a.entries →
    a.parent c = some k → a.refs c ≤ 0 → c ∈ l ∨ c = b

end Ledger

/-- What a group of operations may do beyond the moves that are always allowed:
let a resource with this key rest unreferenced while held, drop the last
reference of one with this key, clear an orphan, tell the users. -/
structure Rules (η : Type) where
  rest : Option η → Prop
  drop : Option η → Prop
  orphan : Prop
  notify : Prop
  drop_none : drop none

namespace Rules

def any : Rules η := ⟨fun _ => True, fun _ => True, True, True, trivial⟩

/-- `R` allows nothing that `R'` forbids. -/
structure Le (R R' : Rules η) : Prop where
  rest : ∀ k, R.rest k → R'.rest k
  drop : ∀ k, R.drop k → R'.drop k
  orphan : R.orphan → R'.orphan
  notify : R.notify → R'.notify

theorem le_any (R : Rules η) : R.Le any :=
  ⟨fun _ _ => trivial, fun _ _ => trivial, fun _ => trivial, fun _ => trivial⟩

end Rules

section Moves

variable [DecidableEq ν]

open Ledger

inductive Move (R : Rules η) (root : ν) : Ledger ν η → Ledger ν η → Prop
  | extend {a : Ledger ν η} (bs : List ν) (nodup : bs.Nodup) (new : ∀ b ∈ bs, b ∉ a.made) :
      Move R root a (a.extend bs)
  | take {a : Ledger ν η} (l r : List ν) (b : ν) (hfree : a.free = l ++ b :: r) :
      Move R root a (a.take (l ++ r) b)
  | adopt {a : Ledger ν η} (b : ν) (n : Int) (hb : b ∈ a.loose) (hn : 0 < n) :
      Move R root a (a.adopt b n)
  | hold {a : Ledger ν η} (b : ν) (n : Int) (hb : b ∈ a.held) (hn : 0 < n) :
      Move R root a (a.setRefs b n)
  | rest {a : Ledger ν η} (b : ν) (hb : b ∈ a.held) (hne : b ≠ root) (ok : R.rest (a.key b)) :
      Move R root a (a.setRefs b 0)
  | graze {a : Ledger ν η} (b : ν) (n : Int) (hb : b ∈ a.free) (hn : n ≤ 0) :
      Move R root a (a.setRefs b n)
  | notify {a : Ledger ν η} (b : ν) (ok : R.notify) : Move R root a (a.notify b)
  | unlist {a : Ledger ν η} (h : η) (b : ν) (he : (h, b) ∈ a.entries) (ok : R.notify) :
      Move R root a ((a.unlist h b).notify b)
  | orphan {a : Ledger ν η} (h : η) (b : ν) (he : (h, b) ∈ a.entries) (hr : a.refs b ≤ 0)
      (hok : R.orphan) (ok : R.notify) : Move R root a (((a.unlist h b).forget b).notify b)
  | forget {a : Ledger ν η} (b : ν) (hb : b ∉ a.held) : Move R root a (a.forget b)
  | drop {a : Ledger ν η} (b : ν) (n : Int) (hb : b ∈ a.held) (hne : b ≠ root)
      (hl : ∀ h, (h, b) ∉ a.entries) (hn : n ≤ 0) (ok : R.drop (a.key b)) :
      Move R root a (a.drop b n)
  | reclaim {a : Ledger ν η} (b : ν) (hb : b ∈ a.held) (hne : b ≠ root)
      (hl : ∀ h, (h, b) ∉ a.entries) (hr : a.refs b ≤ 0) :
      Move R root a ((a.drop b (a.refs b)).forget b)
  | place {a : Ledger ν η} (bs : List ν) (nodup : bs.Nodup) (hb : ∀ b ∈ bs, b ∈ a.loose) :
      Move R root a (a.place bs)
  | list {a : Ledger ν η} (h : η) (p : Option η) (b : ν) (hb : b ∈ a.held)
      (hl : ∀ h, (h, b) ∉ a.entries) : Move R root a (a.list h p b)

abbrev Moves (R : Rules η) (root : ν) : Ledger ν η → Ledger ν η → Prop :=
  Relation.ReflTransGen (Move R root)

variable {R : Rules η} {root : ν} {a a' : Ledger ν η}

/-- One move keeps the ledger sound. -/
theorem Move.sound (h : Move R root a a') (hs : a.Sound root) : a'.Sound root := by
  cases h with
  | extend bs nodup new => exact hs.extend nodup new
  | take l r b hfree => exact hs.take hfree
  | adopt b n hb hn => exact hs.adopt hb hn
  | hold b n hb hn =>
    refine hs.setRefs (fun _ => by omega) (fun _ => hn) ?_
    rintro (hm | hm)
    · exact absurd hb (hs.freeHeld b hm)
    · exact absurd hm (hs.heldLoose b hb)
  | rest b hb hne ok =>
    exact hs.setRefs (fun _ => Int.le_refl 0) (fun h => absurd h hne) (fun _ => Int.le_refl 0)
  | graze b n hb hn =>
    have hnot := hs.freeHeld b hb
    refine hs.setRefs (fun h => absurd h hnot) ?_ (fun _ => hn)
    rintro rfl
    exact absurd hs.rootHeld hnot
  | notify b ok => exact hs.notify b
  | unlist h b he ok => exact (hs.unlist h b).notify b
  | orphan h b he hr hok ok =>
    refine ((hs.unlist h b).forget ?_).notify b
    intro h' hm
    have h₁ := (hs.listed h b he).2
    have h₂ := (hs.listed h' b hm.1).2
    rw [h₁, Option.some.injEq] at h₂
    exact hm.2 (by rw [h₂]; rfl)
  | forget b hb => exact hs.forget (fun h he => hb (hs.listed h b he).1)
  | drop b n hb hne hl hn ok => exact hs.drop hb hne hl hn
  | reclaim b hb hne hl hr => exact (hs.drop hb hne hl hr).forget hl
  | place bs nodup hb => exact hs.place nodup hb
  | list h p b hb hl => exact hs.list hb hl

theorem Moves.sound (h : Moves R root a a') (hs : a.Sound root) : a'.Sound root := by
  induction h with
  | refl => exact hs
  | tail _ hstep ih => exact hstep.sound ih

theorem Move.made (h : Move R root a a') : a.made ⊆ a'.made := by
  cases h with
  | extend bs nodup new => exact Set.subset_union_left
  | _ => exact subset_rfl

theorem Moves.made (h : Moves R root a a') : a.made ⊆ a'.made := by
  induction h with
  | refl => exact subset_rfl
  | tail _ hstep ih => exact ih.trans hstep.made

omit [DecidableEq ν] in
theorem Ledger.Sound.held_of_refs (hs : a.Sound root) {b : ν} (hb : b ∈ a.made)
    (hr : 0 < a.refs b) : b ∈ a.held := by
  have hidle := hs.idle b
  rcases (hs.placed b).mp hb with hf | hh | hl
  · have := hidle (Or.inl hf)
    omega
  · exact hh
  · have := hidle (Or.inr hl)
    omega

theorem Move.mono {R' : Rules η} (hle : R.Le R') (h : Move R root a a') : Move R' root a a' := by
  cases h with
  | extend bs nodup new => exact .extend bs nodup new
  | take l r b hfree => exact .take l r b hfree
  | adopt b n hb hn => exact .adopt b n hb hn
  | hold b n hb hn => exact .hold b n hb hn
  | rest b hb hne ok => exact .rest b hb hne (hle.rest _ ok)
  | graze b n hb hn => exact .graze b n hb hn
  | notify b ok => exact .notify b (hle.notify ok)
  | unlist h b he ok => exact .unlist h b he (hle.notify ok)
  | orphan h b he hr hok ok => exact .orphan h b he hr (hle.orphan hok) (hle.notify ok)
  | forget b hb => exact .forget b hb
  | drop b n hb hne hl hn ok => exact .drop b n hb hne hl hn (hle.drop _ ok)
  | reclaim b hb hne hl hr => exact .reclaim b hb hne hl hr
  | place bs nodup hb => exact .place bs nodup hb
  | list h p b hb hl => exact .list h p b hb hl

theorem Moves.mono {R' : Rules η} (hle : R.Le R') (h : Moves R root a a') : Moves R' root a a' := by
  induction h with
  | refl => exact .refl
  | tail _ hstep ih => exact ih.tail (hstep.mono hle)

theorem Moves.takeAll {rest : List ν} (hfree : a.free = bs ++ rest) :
    Moves R root a (a.takeAll bs rest) := by
  induction bs generalizing a with
  | nil =>
    have : a.takeAll [] rest = a := by
      rw [List.nil_append] at hfree
      ext <;> simp [Ledger.takeAll, hfree]
    rw [this]
  | cons b bs ih =>
    rw [takeAll_cons]
    exact .head (.take [] (bs ++ rest) b hfree) (ih rfl)

theorem Moves.adoptAll (nodup : bs.Nodup) (hb : ∀ b ∈ bs, b ∈ a.loose) :
    Moves R root a (a.adoptAll bs) := by
  induction bs generalizing a with
  | nil =>
    have : a.adoptAll [] = a := by ext <;> simp [Ledger.adoptAll]
    rw [this]
  | cons b bs ih =>
    obtain ⟨hnot, hnd⟩ := List.nodup_cons.mp nodup
    rw [adoptAll_cons a hnot]
    refine .head (.adopt b 1 (hb b (by simp)) (by omega)) (ih hnd ?_)
    intro c hc
    exact ⟨hb c (by simp [hc]), by rintro rfl; exact hnot hc⟩

/-- Resources that are not held carry no key. -/
def Ledger.Clean (a : Ledger ν η) : Prop :=
  ∀ b, b ∈ a.free ∨ b ∈ a.loose → a.key b = none

theorem Move.clean (hR : ∀ k, R.drop k → k = none) (h : Move R root a a') (hs : a.Sound root)
    (hc : a.Clean) : a'.Clean := by
  have hout : ∀ b c, b ∈ a.held → c ∈ a.free ∨ c ∈ a.loose → c ≠ b := by
    rintro b c hb hm rfl
    rcases hm with hm | hm
    · exact hs.freeHeld c hm hb
    · exact hs.heldLoose c hb hm
  intro c hm
  have hcc := hc c
  cases h with
  | extend bs nodup new =>
    simp only [Ledger.extend, List.mem_append] at hm ⊢
    grind
  | take l r b hfree =>
    have hfc : c ∈ a.free ↔ c = b ∨ c ∈ l ++ r := by
      rw [hfree]
      simp only [List.mem_append, List.mem_cons]
      exact or_left_comm
    simp only [Ledger.take, Set.mem_insert_iff] at hm ⊢
    grind
  | adopt b n hb hn => exact hcc (hm.imp_right And.left)
  | hold b n hb hn => exact hcc hm
  | rest b hb hne ok => exact hcc hm
  | graze b n hb hn => exact hcc hm
  | notify b ok => exact hcc hm
  | unlist h b he ok => exact hcc hm
  | orphan h b he hr hok ok =>
    have := hcc hm
    simp only [Ledger.notify, Ledger.forget, Ledger.unlist, Function.update_apply]
    grind
  | forget b hb =>
    have := hcc hm
    simp only [Ledger.forget, Function.update_apply]
    grind
  | drop b n hb hne hl hn ok =>
    have hkey := hR _ ok
    rcases hm with hm | rfl | hm
    · exact hcc (Or.inl hm)
    · exact hkey
    · exact hcc (Or.inr hm)
  | reclaim b hb hne hl hr =>
    simp only [Ledger.forget, Ledger.drop, Function.update_apply, Set.mem_insert_iff] at hm ⊢
    grind
  | place bs nodup hb =>
    have := hb c
    simp only [Ledger.place, List.mem_append, Set.mem_sdiff, Set.mem_ofPred_eq] at hm ⊢
    grind
  | list h p b hb hl =>
    have hne := hout b c hb hm
    simpa [Ledger.list, hne] using hcc hm

theorem Moves.clean (hR : ∀ k, R.drop k → k = none) (h : Moves R root a a') (hs : a.Sound root)
    (hc : a.Clean) : a'.Clean := by
  induction h with
  | refl => exact hc
  | tail hrun hstep ih => exact hstep.clean hR (Moves.sound hrun hs) ih

/-- Every held resource without references still has a key. -/
def Ledger.Kept (root : ν) (a : Ledger ν η) : Prop :=
  ∀ b ∈ a.held, b ≠ root → a.refs b ≤ 0 → a.key b ≠ none

theorem Move.kept (hR : ∀ k, R.rest k → k ≠ none) (hO : ¬ R.orphan) (h : Move R root a a')
    (hs : a.Sound root) (hk : a.Kept root) : a'.Kept root := by
  intro c hm hne hr
  have hkc := hk c
  cases h with
  | extend bs nodup new =>
    have hmade : c ∈ a.made := (hs.placed c).mpr (Or.inr (Or.inl hm))
    have hout : c ∉ bs := fun hin => new c hin hmade
    simp only [Ledger.extend, hout, if_false] at hr ⊢
    exact hkc hm hne hr
  | take l r b hfree => exact hkc hm hne hr
  | adopt b n hb hn =>
    simp only [Ledger.adopt, Function.update_apply] at hr ⊢
    by_cases hcb : c = b
    · rw [if_pos hcb] at hr
      omega
    · rw [if_neg hcb] at hr
      exact hkc (hm.resolve_left hcb) hne hr
  | hold b n hb hn =>
    simp only [Ledger.setRefs, Function.update_apply] at hr ⊢
    by_cases hcb : c = b
    · rw [if_pos hcb] at hr
      omega
    · rw [if_neg hcb] at hr
      exact hkc hm hne hr
  | rest b hb hne' ok =>
    simp only [Ledger.setRefs, Function.update_apply] at hr ⊢
    by_cases hcb : c = b
    · exact hcb ▸ hR _ ok
    · rw [if_neg hcb] at hr
      exact hkc hm hne hr
  | graze b n hb hn =>
    have hcb : c ≠ b := by
      rintro rfl
      exact hs.freeHeld c hb hm
    simp only [Ledger.setRefs, Function.update_apply, if_neg hcb] at hr ⊢
    exact hkc hm hne hr
  | notify b ok => exact hkc hm hne hr
  | unlist h b he ok => exact hkc hm hne hr
  | orphan h b he hr' hok ok => exact absurd hok hO
  | forget b hb =>
    have hcb : c ≠ b := by
      rintro rfl
      exact hb hm
    simp only [Ledger.forget, Function.update_apply, if_neg hcb]
    exact hkc hm hne hr
  | drop b n hb hne' hl hn ok =>
    have hcb : c ≠ b := hm.2
    simp only [Ledger.drop, Function.update_apply, if_neg hcb] at hr ⊢
    exact hkc hm.1 hne hr
  | reclaim b hb hne' hl hr' =>
    have hcb : c ≠ b := hm.2
    simp only [Ledger.forget, Ledger.drop, Function.update_apply, if_neg hcb] at hr ⊢
    exact hkc hm.1 hne hr
  | place bs nodup hb => exact hkc hm hne hr
  | list h p b hb hl =>
    have := hkc hm hne hr
    simp only [Ledger.list, Function.update_apply]
    grind

theorem Moves.kept (hR : ∀ k, R.rest k → k ≠ none) (hO : ¬ R.orphan) (h : Moves R root a a')
    (hs : a.Sound root) (hk : a.Kept root) : a'.Kept root := by
  induction h with
  | refl => exact hk
  | tail hrun hstep ih => exact hstep.kept hR hO (Moves.sound hrun hs) ih

/-- `pending` grows, and every resource that lost an entry is among the new ones. -/
def Ledger.Told (a a' : Ledger ν η) : Prop :=
  ∃ new, a'.pending = a.pending ++ new ∧ ∀ h b, (h, b) ∈ a.entries → (h, b) ∈ a'.entries ∨ b ∈ new

omit [DecidableEq ν] in
theorem Ledger.Told.trans {a : Ledger ν η} (h : a.Told b) (h' : b.Told c) : a.Told c := by
  obtain ⟨new, hp, he⟩ := h
  obtain ⟨new', hp', he'⟩ := h'
  refine ⟨new ++ new', by rw [hp', hp, List.append_assoc], ?_⟩
  intro k x hx
  rcases he k x hx with hx | hx
  · exact (he' k x hx).imp_right (List.mem_append_right _)
  · exact Or.inr (List.mem_append_left _ hx)

theorem Move.told (h : Move R root a a') : a.Told a' := by
  have hsame : ∀ {b : Ledger ν η}, b.pending = a.pending → a.entries ⊆ b.entries → a.Told b :=
    fun hp he => ⟨[], by rw [hp, List.append_nil], fun k x hx => Or.inl (he hx)⟩
  have hcut : ∀ h b, ∀ k x, (k, x) ∈ a.entries → (k, x) ∈ a.entries \ {(h, b)} ∨ x ∈ [b] := by
    intro h b k x hx
    by_cases hxb : x = b
    · exact Or.inr (by simp [hxb])
    · exact Or.inl ⟨hx, fun he => hxb (Prod.mk.inj he).2⟩
  cases h with
  | notify b ok => exact ⟨[b], rfl, fun k x hx => Or.inl hx⟩
  | unlist h b he ok => exact ⟨[b], rfl, hcut h b⟩
  | orphan h b he hr hok ok => exact ⟨[b], rfl, hcut h b⟩
  | list h p b hb hl => exact hsame rfl (Set.subset_insert _ _)
  | _ => exact hsame rfl subset_rfl

theorem Moves.told (h : Moves R root a a') : a.Told a' := by
  induction h with
  | refl => exact ⟨[], by simp, fun k x hx => Or.inl hx⟩
  | tail _ hstep ih => exact ih.trans hstep.told

/-- Where nobody may be told, nothing becomes pending. -/
theorem Moves.silent (hR : ¬ R.notify) (h : Moves R root a a') : a'.pending = a.pending := by
  induction h with
  | refl => rfl
  | tail _ hstep ih =>
    rw [← ih]
    cases hstep with
    | notify b ok => exact absurd ok hR
    | unlist h b he ok => exact absurd ok hR
    | orphan h b he hr hok ok => exact absurd ok hR
    | _ => rfl

end Moves

end FusionMlx.ResourceLedger
