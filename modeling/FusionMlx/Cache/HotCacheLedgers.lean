import FusionMlx.Cache.SharedHotCache
import Mathlib.Data.Nat.Basic
import Mathlib.Order.Basic

/-!
# Two ledgers of the same entries

As long as no manager clears a hot cache that holds something, or stores after
it is closed, the budget lists just what the open managers hold, and every
total is the sum of its entries.
-/
namespace FusionMlx.SharedHotCache

open OrderedDict.Dict Runs

variable {η : Type} [DecidableEq η]

namespace Budget

variable {b b' b'' : Budget η} {k key : Nat × η} {gone gone' : List (Nat × η)}

/-- The total is that of the entries. -/
def Exact (b : Budget η) : Prop := b.totalBytes = b.entries.total id

structure Less (b : Budget η) (gone : List (Nat × η)) (b' : Budget η) : Prop where
  get : ∀ k, b'.entries.get? k = if k ∈ gone then none else b.entries.get? k
  sum : b.Exact → b'.Exact
  bytes : b'.totalBytes ≤ b.totalBytes
  length : b'.entries.entries.length ≤ b.entries.entries.length
  maxBytes : b'.maxBytes = b.maxBytes
  shuttingDown : b'.shuttingDownOwners = b.shuttingDownOwners

theorem Less.refl (b : Budget η) : Less b [] b := ⟨by simp, id, le_rfl, le_rfl, rfl, rfl⟩

theorem Less.trans (h : Less b gone b') (h' : Less b' gone' b'') : Less b (gone ++ gone') b'' := by
  refine ⟨fun k => ?_, fun he => h'.sum (h.sum he), h'.bytes.trans h.bytes, h'.length.trans h.length,
    h'.maxBytes.trans h.maxBytes, h'.shuttingDown.trans h.shuttingDown⟩
  rw [h'.get, h.get]
  simp only [List.mem_append]
  by_cases h₁ : k ∈ gone <;> by_cases h₂ : k ∈ gone' <;> simp [h₁, h₂]

theorem pop_less (b : Budget η) (k : Nat × η) : Less b [k] (b.pop k) := by
  rw [pop]
  cases hk : b.entries.get? k with
  | none =>
    refine ⟨fun k' => ?_, id, le_rfl, le_rfl, rfl, rfl⟩
    by_cases hk' : k' = k
    · rw [hk', if_pos (List.mem_singleton_self k)]
      exact hk
    · rw [if_neg (by simpa using hk')]
  | some size =>
    have htotal := total_of_get id hk
    refine ⟨fun k' => ?_, fun he => ?_, Nat.sub_le .., List.length_filter_le .., rfl, rfl⟩
    · rw [get?_erase]
      simp only [List.mem_singleton]
    · rw [Exact] at he ⊢
      dsimp only
      rw [he, htotal, id, Nat.add_sub_cancel_left]

theorem foldl_pop_less (ks : List (Nat × η)) (b : Budget η) : Less b ks (ks.foldl pop b) := by
  induction ks generalizing b with
  | nil => exact .refl b
  | cons k ks ih => exact (b.pop_less k).trans (ih (b.pop k))

/-- `forget_owner` takes out what stands under the manager. -/
theorem forgetOwner_less (b : Budget η) (owner : Nat) (h : owner ∉ b.shuttingDownOwners) :
    Less b (b.entries.keys.filter (fun key => key.1 = owner)) (b.forgetOwner owner) := by
  have hpop := foldl_pop_less (b.entries.keys.filter (fun key => key.1 = owner))
    { b with shuttingDownOwners := owner :: b.shuttingDownOwners }
  refine ⟨hpop.get, hpop.sum, hpop.bytes, hpop.length, hpop.maxBytes, ?_⟩
  rw [forgetOwner]
  dsimp only
  rw [hpop.shuttingDown, List.filter_cons_of_neg (by simp)]
  refine List.filter_eq_self.2 (fun o ho => ?_)
  have hne : o ≠ owner := fun he => h (he ▸ ho)
  simpa using hne

theorem putLoop_less (hlast : ∃ pre size, b.entries.entries = pre ++ [(key, size)]) :
    Less b (putLoop key b.entries.entries b).2 (putLoop key b.entries.entries b).1 ∧
      ((putLoop key b.entries.entries b).1.totalBytes ≤ b.maxBytes ∨
        (putLoop key b.entries.entries b).1.entries.entries.length ≤ 1) := by
  generalize hl : b.entries.entries = l at hlast ⊢
  induction l generalizing b with
  | nil =>
    obtain ⟨pre, size, h⟩ := hlast
    simp at h
  | cons e rest ih =>
    obtain ⟨victim, size⟩ := e
    rw [putLoop]
    split
    · next hover =>
      split
      · next hkey =>
        refine ⟨.refl b, .inr ?_⟩
        dsimp only
        rw [hl, hkey.2]
        exact le_rfl
      · next hkey =>
        have hpop := b.pop_less victim
        have hentries : (b.pop victim).entries.entries = rest := by
          have hget : b.entries.get? victim = some size := (get?_eq_some_iff ..).2 (by rw [hl]; simp)
          rw [pop, hget]
          exact erase_first hl
        obtain ⟨pre, size', hpre⟩ := hlast
        cases pre with
        | nil =>
          cases hpre
          exact absurd ⟨rfl, rfl⟩ hkey
        | cons e pre =>
          obtain ⟨rfl, hrest⟩ := List.cons.inj hpre
          obtain ⟨hless, hbound⟩ := ih hentries ⟨pre, size', hrest⟩
          exact ⟨hpop.trans hless, by rwa [hpop.maxBytes] at hbound⟩
    · next hover => exact ⟨.refl b, .inl (not_lt.1 hover)⟩

theorem shrinkLoop_less (targetBytes : Nat) (protectedHashes : List η) (l : List ((Nat × η) × Nat)) (b : Budget η) :
    Less b ((shrinkLoop targetBytes protectedHashes l b).2.map Prod.fst) (shrinkLoop targetBytes protectedHashes l b).1 ∧
      ∀ v ∈ (shrinkLoop targetBytes protectedHashes l b).2, v.1.2 ∉ protectedHashes := by
  induction l generalizing b with
  | nil => exact ⟨.refl b, by simp [shrinkLoop]⟩
  | cons e rest ih =>
    rw [shrinkLoop]
    split
    · split
      · exact ih b
      · next hfree =>
        obtain ⟨hless, hnot⟩ := ih (b.pop e.1)
        refine ⟨(b.pop_less e.1).trans hless, fun v hv => ?_⟩
        rcases List.mem_cons.1 hv with rfl | hv
        · exact hfree
        · exact hnot v hv
    · exact ⟨.refl b, by simp⟩

def Bounded (b : Budget η) : Prop := b.totalBytes ≤ b.maxBytes ∨ b.entries.entries.length ≤ 1

theorem Less.bounded (h : Less b gone b') (hb : b.Bounded) : b'.Bounded :=
  hb.imp (fun hle => by rw [h.maxBytes]; exact h.bytes.trans hle) (fun hle => h.length.trans hle)

end Budget

namespace State

variable {s s' s'' : State η} {entry : HotEntry} {o owner : Nat} {h blockHash : η} {gone gone' : List (Nat × η)}

def resident (s : State η) (o : Nat) (h : η) : Option HotEntry := (s.managers o).hotCache.get? h

/-- Each manager's total is that of its entries. -/
def Books (s : State η) : Prop :=
  ∀ o, (s.managers o).hotCacheTotalBytes = (s.managers o).hotCache.total HotEntry.estimatedBytes

structure Trimmed (s : State η) (gone : List (Nat × η)) (s' : State η) : Prop where
  resident : ∀ o h, s'.resident o h = if (o, h) ∈ gone then none else s.resident o h
  books : s.Books → s'.Books
  shuttingDown : ∀ o, (s'.managers o).shuttingDown = (s.managers o).shuttingDown

theorem Trimmed.trans (ht : Trimmed s gone s') (ht' : Trimmed s' gone' s'') : Trimmed s (gone ++ gone') s'' := by
  refine ⟨fun o h => ?_, fun hb => ht'.books (ht.books hb), fun o => (ht'.shuttingDown o).trans (ht.shuttingDown o)⟩
  rw [ht'.resident, ht.resident]
  simp only [List.mem_append]
  by_cases h₁ : (o, h) ∈ gone <;> by_cases h₂ : (o, h) ∈ gone' <;> simp [h₁, h₂]

omit [DecidableEq η] in
theorem managers_setManager (s : State η) (owner o : Nat) (m : Manager η) :
    (s.setManager owner m).managers o = if o = owner then m else s.managers o := by
  by_cases ho : o = owner
  · subst ho
    simp [setManager]
  · simp [setManager, ho]

/-- A manager replaced by one that has lost one entry. -/
theorem setManager_trimmed (hget : s.resident owner blockHash = some entry) :
    Trimmed s [(owner, blockHash)] (s.setManager owner { s.managers owner with
      hotCache := (s.managers owner).hotCache.erase blockHash
      hotCacheTotalBytes := (s.managers owner).hotCacheTotalBytes - entry.estimatedBytes }) := by
  refine ⟨fun o h => ?_, fun hb o => ?_, fun o => ?_⟩
  · rw [resident, managers_setManager]
    by_cases ho : o = owner
    · subst ho
      rw [if_pos rfl, get?_erase]
      by_cases hh : h = blockHash
      · simp [hh]
      · simp [hh, resident]
    · rw [if_neg ho, if_neg (by simp [ho]), resident]
  · rw [managers_setManager]
    split
    · next ho =>
      rw [hb owner, total_of_get HotEntry.estimatedBytes hget, Nat.add_sub_cancel_left]
    · exact hb o
  · rw [managers_setManager]
    split
    · next ho => rw [ho]
    · rfl

theorem hotCacheRemove_trimmed (s : State η) (owner : Nat) (blockHash : η) (updateBudget : Bool) :
    Trimmed s [(owner, blockHash)] (s.hotCacheRemove owner blockHash updateBudget).1 ∧
      Budget.Less s.budget (if updateBudget ∧ (s.resident owner blockHash).isSome then [(owner, blockHash)] else [])
        (s.hotCacheRemove owner blockHash updateBudget).1.budget := by
  rw [hotCacheRemove]
  dsimp only
  cases hget : (s.managers owner).hotCache.get? blockHash with
  | none =>
    have hres : s.resident owner blockHash = none := hget
    refine ⟨⟨fun o h => ?_, id, fun _ => rfl⟩, by simp [hres, Budget.Less.refl]⟩
    by_cases he : (o, h) = (owner, blockHash)
    · cases he
      rw [if_pos (List.mem_singleton_self _)]
      exact hget
    · rw [if_neg (by simpa using he)]
  | some entry =>
    have hres : s.resident owner blockHash = some entry := hget
    have htrim := setManager_trimmed hres
    dsimp only
    cases updateBudget with
    | false => exact ⟨htrim, by simp [Budget.Less.refl, setManager]⟩
    | true =>
      refine ⟨⟨htrim.resident, htrim.books, htrim.shuttingDown⟩, ?_⟩
      rw [if_pos ⟨rfl, by rw [hres]; rfl⟩]
      exact s.budget.pop_less (owner, blockHash)

theorem hotCacheRemove_budget (s : State η) (owner : Nat) (blockHash : η) :
    (s.hotCacheRemove owner blockHash false).1.budget = s.budget := by
  rw [hotCacheRemove]
  cases (s.managers owner).hotCache.get? blockHash <;> rfl

theorem removeVictims_trimmed (victims : List (Nat × η)) (s : State η) :
    Trimmed s victims (s.removeVictims victims) ∧ (s.removeVictims victims).budget = s.budget := by
  induction victims generalizing s with
  | nil => exact ⟨⟨fun o h => by simp [removeVictims], id, fun _ => rfl⟩, rfl⟩
  | cons v victims ih =>
    obtain ⟨htrim, hsame⟩ := ih (s.hotCacheRemove v.1 v.2 false).1
    exact ⟨(s.hotCacheRemove_trimmed v.1 v.2 false).1.trans htrim, hsame.trans (hotCacheRemove_budget ..)⟩

structure Matched (s : State η) : Prop where
  books : s.Books
  sum : s.budget.Exact
  entered : ∀ o h, (s.budget.entries.get? (o, h)).isSome ↔
    (s.managers o).shuttingDown = false ∧ (s.resident o h).isSome
  idle : s.budget.shuttingDownOwners = []

structure Agree (s : State η) : Prop extends Matched s where
  bounded : s.budget.Bounded

/-- Both sides lose the same entries of open managers. -/
theorem Matched.lose (hm : s.Matched) (ht : Trimmed s gone s') (hl : Budget.Less s.budget gone' s'.budget)
    (hsame : ∀ o h, (s.managers o).shuttingDown = false → (s.resident o h).isSome →
      ((o, h) ∈ gone ↔ (o, h) ∈ gone')) : s'.Matched := by
  refine ⟨ht.books hm.books, hl.sum hm.sum, fun o h => ?_, hl.shuttingDown.trans hm.idle⟩
  have hentered := hm.entered o h
  rw [hl.get, ht.resident, ht.shuttingDown]
  by_cases hopen : (s.managers o).shuttingDown = false ∧ (s.resident o h).isSome
  · have hiff := hsame o h hopen.1 hopen.2
    by_cases hgone : (o, h) ∈ gone
    · simp [hgone, hiff.1 hgone]
    · rw [if_neg hgone, if_neg (fun hg => hgone (hiff.2 hg)), hentered]
  · have hnone : s.budget.entries.get? (o, h) = none := by
      rw [← Option.not_isSome_iff_eq_none, hentered]
      exact hopen
    constructor
    · intro hsome
      split at hsome
      · cases hsome
      · rw [hnone] at hsome
        cases hsome
    · rintro ⟨hlive, hsome⟩
      split at hsome
      · cases hsome
      · exact absurd ⟨hlive, hsome⟩ hopen

theorem Agree.lose (ha : s.Agree) (ht : Trimmed s gone s') (hl : Budget.Less s.budget gone' s'.budget)
    (hsame : ∀ o h, (s.managers o).shuttingDown = false → (s.resident o h).isSome →
      ((o, h) ∈ gone ↔ (o, h) ∈ gone')) : s'.Agree :=
  ⟨ha.toMatched.lose ht hl hsame, hl.bounded ha.bounded⟩

theorem Agree.remove (ha : s.Agree) (owner : Nat) (blockHash : η) : (s.hotCacheRemove owner blockHash true).1.Agree := by
  obtain ⟨htrim, hless⟩ := s.hotCacheRemove_trimmed owner blockHash true
  refine ha.lose htrim hless (fun o h _ hres => ?_)
  split
  · rfl
  · next hno =>
    simp only [List.mem_singleton, List.not_mem_nil, iff_false]
    rintro he
    cases he
    exact hno ⟨rfl, hres⟩

theorem Agree.capLoop (ha : s.Agree) (owner : Nat) (hashes : List η) : (capLoop owner hashes s).Agree := by
  induction hashes generalizing s with
  | nil => exact ha
  | cons blockHash hashes ih =>
    rw [State.capLoop]
    split
    · exact ih (ha.remove owner blockHash)
    · exact ha

theorem hotCacheGet_some (hget : s.resident owner blockHash = some entry) :
    (s.hotCacheGet owner blockHash).1 =
      { s.setManager owner { s.managers owner with hotCache := (s.managers owner).hotCache.moveToEnd blockHash } with
        budget := s.budget.touch owner blockHash } := by
  rw [resident] at hget
  simp only [hotCacheGet, hget]
  rfl

theorem Agree.get (ha : s.Agree) (owner : Nat) (blockHash : η) : (s.hotCacheGet owner blockHash).1.Agree := by
  cases hget : s.resident owner blockHash with
  | none =>
    have hsame : s.hotCacheGet owner blockHash = (s, none) := by
      rw [resident] at hget
      simp only [hotCacheGet, hget]
    rw [hsame]
    exact ha
  | some entry =>
    have hperm := moveToEnd_perm (s.managers owner).hotCache blockHash
    have hbperm := moveToEnd_perm s.budget.entries (owner, blockHash)
    rw [hotCacheGet_some hget]
    refine ⟨⟨fun o => ?_, ?_, fun o h => ?_, ha.idle⟩, ?_⟩
    · dsimp only
      rw [managers_setManager]
      split
      · dsimp only
        rw [ha.books owner]
        exact (hperm.map _).sum_nat.symm
      · exact ha.books o
    · exact Eq.trans ha.sum (hbperm.map _).sum_nat.symm
    · have htouch : (s.budget.touch owner blockHash).entries.get? (o, h) = s.budget.entries.get? (o, h) :=
        get?_of_perm hbperm (o, h)
      rw [resident]
      dsimp only
      rw [htouch, ha.entered o h, managers_setManager]
      split
      · next ho =>
        subst ho
        dsimp only
        rw [get?_of_perm hperm h]
        rfl
      · rfl
    · exact ha.bounded.imp id (fun hle => hbperm.length_eq.trans_le hle)

/-- A manager whose hot cache is emptied. -/
theorem emptied_trimmed (s : State η) (owner : Nat) :
    Trimmed s ((s.managers owner).hotCache.keys.map (Prod.mk owner))
      (s.setManager owner { s.managers owner with hotCache := .empty, hotCacheTotalBytes := 0 }) := by
  have hmem : ∀ o h, (o, h) ∈ (s.managers owner).hotCache.keys.map (Prod.mk owner) ↔
      owner = o ∧ (s.resident o h).isSome := by
    intro o h
    rw [List.mem_map]
    constructor
    · rintro ⟨h', hk, he⟩
      cases he
      obtain ⟨v, hv⟩ := (mem_keys_iff ..).1 hk
      exact ⟨rfl, by rw [resident, hv]; rfl⟩
    · rintro ⟨rfl, hs⟩
      obtain ⟨v, hv⟩ := Option.isSome_iff_exists.1 hs
      exact ⟨h, (mem_keys_iff ..).2 ⟨v, hv⟩, rfl⟩
  refine ⟨fun o h => ?_, fun hb o => ?_, fun o => ?_⟩
  · rw [resident, managers_setManager]
    by_cases ho : o = owner
    · subst ho
      rw [if_pos rfl]
      split
      · rfl
      · next hno =>
        rw [hmem, not_and] at hno
        have hnone := Option.not_isSome_iff_eq_none.1 (hno rfl)
        exact hnone.symm
    · rw [if_neg ho, if_neg (fun hin => ho ((hmem o h).1 hin).1.symm), resident]
  · rw [managers_setManager]
    split
    · rfl
    · exact hb o
  · rw [managers_setManager]
    split
    · next ho => rw [ho]
    · rfl

theorem Agree.clearHotCache (ha : s.Agree) (owner : Nat) : (s.clearHotCache owner).1.Agree := by
  have hemptied := s.emptied_trimmed owner
  have htrim : Trimmed s _ (s.clearHotCache owner).1 := ⟨hemptied.resident, hemptied.books, hemptied.shuttingDown⟩
  refine ha.lose htrim
    (s.budget.forgetOwner_less owner (by rw [ha.idle]; simp)) (fun o h hopen hres => ?_)
  have hkey : (o, h) ∈ s.budget.entries.keys := by
    obtain ⟨v, hv⟩ := Option.isSome_iff_exists.1 ((ha.entered o h).2 ⟨hopen, hres⟩)
    exact (mem_keys_iff ..).2 ⟨v, hv⟩
  obtain ⟨v, hv⟩ := Option.isSome_iff_exists.1 hres
  have hheld : h ∈ (s.managers o).hotCache.keys := (mem_keys_iff ..).2 ⟨v, hv⟩
  simp only [List.mem_map, List.mem_filter, decide_eq_true_eq]
  constructor
  · rintro ⟨h', -, he⟩
    cases he
    exact ⟨hkey, rfl⟩
  · rintro ⟨-, rfl⟩
    exact ⟨h, hheld, rfl⟩

/-- `clear` keeps the ledgers together where there is nothing to forget. -/
theorem Agree.clear (ha : s.Agree) (owner : Nat)
    (hc : (s.managers owner).hotCache.entries = [] ∨ (s.managers owner).shuttingDown = true) : (s.clear owner).Agree := by
  have hnone : (s.managers owner).shuttingDown = false → ∀ h, s.resident owner h = none := by
    intro hopen h
    have hempty := hc.resolve_right (by rw [hopen]; simp)
    rw [resident, get?_eq_none_iff, keys, hempty]
    exact List.not_mem_nil
  refine ha.lose (s.emptied_trimmed owner) (.refl s.budget) (fun o h hopen hres => ?_)
  simp only [List.not_mem_nil, iff_false]
  intro hin
  obtain ⟨h', -, he⟩ := List.mem_map.1 hin
  cases he
  rw [hnone hopen h] at hres
  cases hres

theorem Agree.close (ha : s.Agree) (owner : Nat) : (s.close owner).Agree := by
  have hless := s.budget.forgetOwner_less owner (by rw [ha.idle]; simp)
  refine ⟨⟨fun o => ?_, hless.sum ha.sum, fun o h => ?_, hless.shuttingDown.trans ha.idle⟩, hless.bounded ha.bounded⟩
  · rw [State.close, managers_setManager]
    split
    · exact ha.books owner
    · exact ha.books o
  · change ((s.budget.forgetOwner owner).entries.get? (o, h)).isSome ↔ _
    rw [hless.get, resident, State.close]
    dsimp only
    rw [managers_setManager]
    by_cases ho : o = owner
    · subst ho
      simp only [if_true, Bool.true_eq_false, false_and, iff_false]
      split
      · simp
      · next hno =>
        intro hs
        obtain ⟨v, hv⟩ := Option.isSome_iff_exists.1 hs
        exact hno (List.mem_filter.2 ⟨(mem_keys_iff ..).2 ⟨v, hv⟩, by simp⟩)
    · rw [if_neg ho, if_neg (fun hin => ho (by simpa using (List.mem_filter.1 hin).2))]
      exact ha.entered o h

/-- A manager that stores an entry it does not hold, with the budget's own. -/
theorem Matched.store {b : Budget η} (hm : s.Matched) (entry : HotEntry) (hopen : (s.managers owner).shuttingDown = false)
    (hfree : s.resident owner blockHash = none)
    (hb : b = { s.budget with
      entries := s.budget.entries.set (owner, blockHash) entry.estimatedBytes
      totalBytes := s.budget.totalBytes + entry.estimatedBytes }) :
    State.Matched { s.setManager owner { s.managers owner with
      hotCache := (s.managers owner).hotCache.set blockHash entry
      hotCacheTotalBytes := (s.managers owner).hotCacheTotalBytes + entry.estimatedBytes } with budget := b } := by
  have hnew : s.budget.entries.get? (owner, blockHash) = none := by
    rw [← Option.not_isSome_iff_eq_none, hm.entered, hfree]
    simp
  subst hb
  refine ⟨fun o => ?_, ?_, fun o h => ?_, hm.idle⟩
  · dsimp only
    rw [managers_setManager]
    split
    · dsimp only
      rw [total_set, total_erase_of_none _ hfree, hm.books owner, Nat.add_comm]
    · exact hm.books o
  · have hsum := hm.sum
    rw [Budget.Exact] at hsum ⊢
    dsimp only
    rw [total_set, total_erase_of_none _ hnew, hsum, id, Nat.add_comm]
  · have hentered := hm.entered o h
    rw [resident]
    dsimp only
    rw [get?_set, managers_setManager]
    by_cases ho : o = owner
    · subst ho
      rw [if_pos rfl]
      dsimp only
      rw [get?_set]
      by_cases hh : h = blockHash
      · simp [hh, hopen]
      · rw [if_neg (by simp [hh]), if_neg hh]
        exact hentered
    · rw [if_neg (by simp [ho]), if_neg ho]
      exact hentered

/-- What the budget gives up for its newest entry leaves the managers as well. -/
theorem Matched.putLoop {key : Nat × η} (hm : s.Matched)
    (hlast : ∃ pre size, s.budget.entries.entries = pre ++ [(key, size)]) :
    ({ s with budget := (Budget.putLoop key s.budget.entries.entries s.budget).1 }.removeVictims
      (Budget.putLoop key s.budget.entries.entries s.budget).2).Agree := by
  obtain ⟨hless, hbound⟩ := Budget.putLoop_less hlast
  obtain ⟨htrim, hsame⟩ := removeVictims_trimmed (Budget.putLoop key s.budget.entries.entries s.budget).2
    { s with budget := (Budget.putLoop key s.budget.entries.entries s.budget).1 }
  refine ⟨hm.lose ⟨htrim.resident, htrim.books, htrim.shuttingDown⟩ (hsame ▸ hless) (fun _ _ _ _ => Iff.rfl), ?_⟩
  rw [Budget.Bounded, hsame, hless.maxBytes]
  exact hbound

theorem Agree.put (ha : s.Agree) (owner : Nat) (blockHash : η) (tensorBytes : List Nat)
    (hopen : (s.managers owner).shuttingDown = false) : (s.hotCachePut owner blockHash tensorBytes).Agree := by
  have hremove := (s.hotCacheRemove_trimmed owner blockHash false).1
  have hkeep : (s.hotCacheRemove owner blockHash false).1.budget = s.budget := hotCacheRemove_budget ..
  rw [hotCachePut]
  generalize (s.hotCacheRemove owner blockHash false).1 = s₁ at hremove hkeep ⊢
  dsimp only
  have hpop := s.budget.pop_less (owner, blockHash)
  -- the replaced entry leaves the manager, and the budget with its `pop`
  have hless : Matched { s₁ with budget := s.budget.pop (owner, blockHash) } :=
    ha.toMatched.lose ⟨hremove.resident, hremove.books, hremove.shuttingDown⟩ hpop (fun _ _ _ _ => Iff.rfl)
  have hfree : s₁.resident owner blockHash = none :=
    (hremove.resident owner blockHash).trans (if_pos (List.mem_singleton_self _))
  have hstored := hless.store { tensorBytes, estimatedBytes := tensorBytes.sum }
    ((hremove.shuttingDown owner).trans hopen) hfree rfl
  have hidle : owner ∉ s.budget.shuttingDownOwners := by
    rw [ha.idle]
    exact List.not_mem_nil
  have hnew : (owner, blockHash) ∉ (s.budget.pop (owner, blockHash)).entries.keys := by
    rw [← get?_eq_none_iff, hpop.get, if_pos (List.mem_singleton_self _)]
  rw [show (s₁.setManager owner _).budget = s.budget from hkeep, Budget.put, if_neg hidle]
  exact (hstored.putLoop ⟨_, _, entries_set_new hnew tensorBytes.sum⟩).capLoop owner _

theorem shrinkTo_state (s : State η) (targetBytes : Nat) (protectedHashes : List η) :
    (s.shrinkTo targetBytes protectedHashes).1 =
      { s with budget := (Budget.shrinkLoop targetBytes protectedHashes s.budget.entries.entries s.budget).1 }.removeVictims
        ((Budget.shrinkLoop targetBytes protectedHashes s.budget.entries.entries s.budget).2.map Prod.fst) := by
  have hfold : ∀ (vs : List ((Nat × η) × Nat)) (r : State η × Nat),
      (vs.foldl (fun r v => ((r.1.hotCacheRemove v.1.1 v.1.2 false).1,
        if (r.1.hotCacheRemove v.1.1 v.1.2 false).2.isSome then r.2 + v.2 else r.2)) r).1 =
      r.1.removeVictims (vs.map Prod.fst) := by
    intro vs
    induction vs with
    | nil => exact fun r => rfl
    | cons v vs ih => exact fun r => ih _
  exact hfold _ _

theorem Agree.shrink (ha : s.Agree) (targetBytes : Nat) (protectedHashes : List η) :
    (s.shrinkTo targetBytes protectedHashes).1.Agree := by
  obtain ⟨hless, -⟩ := Budget.shrinkLoop_less targetBytes protectedHashes s.budget.entries.entries s.budget
  rw [shrinkTo_state]
  obtain ⟨htrim, hsame⟩ := removeVictims_trimmed
    ((Budget.shrinkLoop targetBytes protectedHashes s.budget.entries.entries s.budget).2.map Prod.fst)
    { s with budget := (Budget.shrinkLoop targetBytes protectedHashes s.budget.entries.entries s.budget).1 }
  refine ha.lose ⟨htrim.resident, htrim.books, htrim.shuttingDown⟩ ?_ (fun _ _ _ _ => Iff.rfl)
  rw [hsame]
  exact hless

/-- What is protected stays. -/
theorem shrink_keeps (s : State η) (targetBytes : Nat) {protectedHashes : List η} (hp : h ∈ protectedHashes) (o : Nat) :
    (s.shrinkTo targetBytes protectedHashes).1.resident o h = s.resident o h ∧
      (s.shrinkTo targetBytes protectedHashes).1.budget.entries.get? (o, h) = s.budget.entries.get? (o, h) := by
  obtain ⟨hless, hnot⟩ := Budget.shrinkLoop_less targetBytes protectedHashes s.budget.entries.entries s.budget
  rw [shrinkTo_state]
  obtain ⟨htrim, hsame⟩ := removeVictims_trimmed
    ((Budget.shrinkLoop targetBytes protectedHashes s.budget.entries.entries s.budget).2.map Prod.fst)
    { s with budget := (Budget.shrinkLoop targetBytes protectedHashes s.budget.entries.entries s.budget).1 }
  have hno : (o, h) ∉ (Budget.shrinkLoop targetBytes protectedHashes s.budget.entries.entries s.budget).2.map Prod.fst := by
    intro hin
    obtain ⟨v, hv, he⟩ := List.mem_map.1 hin
    exact hnot v hv (by rw [he]; exact hp)
  rw [htrim.resident, if_neg hno, hsame, hless.get, if_neg hno]
  exact ⟨rfl, rfl⟩

end State

/-- No closed manager stores, and `clear` empties only a hot cache the budget does not list. -/
def Meets (s : State η) : Op η → Prop
  | .put owner _ _ => (s.managers owner).shuttingDown = false
  | .clear owner => (s.managers owner).hotCache.entries = [] ∨ (s.managers owner).shuttingDown = true
  | _ => True

/-- What the budget and its managers say of each other. -/
structure Ledgers (s : State η) : Prop where
  entered : ∀ o h, (o, h) ∈ s.budget.entries.keys ↔
    (s.managers o).shuttingDown = false ∧ h ∈ (s.managers o).hotCache.keys
  sum : s.budget.totalBytes = s.budget.entries.total id
  books : ∀ o, (s.managers o).hotCacheTotalBytes = (s.managers o).hotCache.total HotEntry.estimatedBytes
  bounded : s.budget.totalBytes ≤ s.budget.maxBytes ∨ s.budget.entries.entries.length = 1

theorem State.Agree.ledgers {s : State η} (ha : s.Agree) : Ledgers s := by
  refine ⟨fun o h => ?_, ha.sum, ha.books, ?_⟩
  · rw [mem_keys_iff, mem_keys_iff, ← Option.isSome_iff_exists, ← Option.isSome_iff_exists]
    exact ha.entered o h
  · rcases ha.bounded with hle | hlen
    · exact .inl hle
    · rcases Nat.le_one_iff_eq_zero_or_eq_one.1 hlen with hzero | hone
      · have hsum := ha.sum
        rw [Budget.Exact, total, List.eq_nil_of_length_eq_zero hzero] at hsum
        exact .inl (hsum.trans_le (Nat.zero_le _))
      · exact .inr hone

theorem start_agree {s : State η} (h : Start s) : s.Agree := by
  obtain ⟨hnew, maxBytes, hbudget⟩ := h
  refine ⟨⟨fun o => ?_, ?_, fun o h => ?_, ?_⟩, ?_⟩
  · obtain ⟨cap, hm⟩ := hnew o
    rw [hm]
    rfl
  · rw [hbudget]
    rfl
  · obtain ⟨cap, hm⟩ := hnew o
    rw [State.resident, hbudget, hm]
    simp
  · rw [hbudget]
  · rw [hbudget]
    exact .inl (Nat.zero_le _)

theorem next_agree {s : State η} (ha : s.Agree) {op : Op η} (hop : Meets s op) : (next s op).Agree := by
  cases op with
  | put owner blockHash tensorBytes => exact ha.put owner blockHash tensorBytes hop
  | get owner blockHash => exact ha.get owner blockHash
  | remove owner blockHash => exact ha.remove owner blockHash
  | shrink targetBytes protectedHashes => exact ha.shrink targetBytes protectedHashes
  | clear owner => exact ha.clear owner hop
  | clearHotCache owner => exact ha.clearHotCache owner
  | close owner => exact ha.close owner

/-- The ledgers agree in every state of such a run, and a shrink there keeps what it is told to protect. -/
theorem ledgers_agree {s : State η} (hrun : Reached Start Meets next s) :
    Ledgers s ∧ ∀ targetBytes (protectedHashes : List η), ∀ h ∈ protectedHashes, ∀ o,
      (h ∈ ((next s (.shrink targetBytes protectedHashes)).managers o).hotCache.keys ↔
        h ∈ (s.managers o).hotCache.keys) ∧
      ((o, h) ∈ (next s (.shrink targetBytes protectedHashes)).budget.entries.keys ↔ (o, h) ∈ s.budget.entries.keys) := by
  have ha : s.Agree := hrun.invariant (fun _ => start_agree) (fun _ _ _ ha hop => next_agree ha hop)
  refine ⟨ha.ledgers, fun targetBytes protectedHashes h hp o => ?_⟩
  obtain ⟨hres, hget⟩ := s.shrink_keeps targetBytes hp o
  rw [mem_keys_iff, mem_keys_iff, mem_keys_iff, mem_keys_iff]
  constructor
  · change (∃ v, (next s (.shrink targetBytes protectedHashes)).resident o h = some v) ↔ ∃ v, s.resident o h = some v
    rw [next, hres]
  · rw [next, hget]

def fresh : State Nat := { managers := fun _ => {}, budget := { maxBytes := 10 } }

theorem ledgers_agree_two :
    Ledgers (next (next fresh (.put 0 7 [6])) (.put 1 7 [6])) ∧
      (next (next fresh (.put 0 7 [6])) (.put 1 7 [6])).budget.entries.keys = [(1, 7)] := by
  have hstart : Start fresh := ⟨fun _ => ⟨0, rfl⟩, 10, rfl⟩
  have hfirst : Reached Start Meets next (next fresh (.put 0 7 [6])) := .step _ (.start hstart) rfl
  have hboth : Reached Start Meets next (next (next fresh (.put 0 7 [6])) (.put 1 7 [6])) := .step _ hfirst rfl
  exact ⟨(ledgers_agree hboth).1, by decide⟩

/-- An open manager that clears leaves its entry with the budget. -/
theorem cleared_entry_listed :
    ¬ ∀ s : State Nat, Reached Start (fun _ _ => True) next s → Ledgers s := by
  intro hall
  have hstart : Start fresh := ⟨fun _ => ⟨0, rfl⟩, 10, rfl⟩
  have hrun : Reached Start (fun _ _ => True) next (next (next fresh (.put 0 7 [6])) (.clear 0)) :=
    .step _ (.step _ (.start hstart) trivial) trivial
  have hlisted := ((hall _ hrun).entered 0 7).1 (by decide)
  exact absurd hlisted.2 (by decide)

end FusionMlx.SharedHotCache
