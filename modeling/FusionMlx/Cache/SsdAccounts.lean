import FusionMlx.Cache.PagedSsdCache

/-!
# The accounts of the two indexes

As long as no block is saved that the incompatible index lists or that has a
file yet to be unlinked, and no write of a forgotten block changes its size,
the indexes list different blocks, their totals are sums, and no file goes
whose block is listed.
-/
namespace FusionMlx.PagedSsdCache

open OrderedDict OrderedDict.Dict

variable {η β σ : Type} [DecidableEq η] {S : Settings β σ}
variable {s s' : Store η β σ} {h k : η} {i : Nat} {b : Block β}

namespace Store

structure Cooled (s s' : Store η β σ) : Prop where
  rest : ∃ d t, s' = { s with hotCache := d, hotCacheTotalBytes := t }
  sub : ∀ k b, s'.hotCache.get? k = some b → s.hotCache.get? k = some b

theorem Cooled.refl (s : Store η β σ) : Cooled s s := ⟨⟨_, _, rfl⟩, fun _ _ hk => hk⟩

theorem Cooled.trans {s'' : Store η β σ} (hc : Cooled s s') (hc' : Cooled s' s'') : Cooled s s'' := by
  obtain ⟨d, t, rfl⟩ := hc.rest
  obtain ⟨d', t', rfl⟩ := hc'.rest
  exact ⟨⟨d', t', rfl⟩, fun k b hk => hc.sub k b (hc'.sub k b hk)⟩

theorem erase_cooled (s : Store η β σ) (h : η) (t : Nat) :
    Cooled s { s with hotCache := s.hotCache.erase h, hotCacheTotalBytes := t } :=
  ⟨⟨_, _, rfl⟩, fun _ _ hk => get?_of_erase hk⟩

theorem capLoop_cooled (S : Settings β σ) (l : List (η × Block β)) (s : Store η β σ) : Cooled s (capLoop S l s) := by
  induction l generalizing s with
  | nil => exact .refl s
  | cons e l ih =>
    rw [capLoop]
    split
    · exact (erase_cooled s e.1 _).trans (ih _)
    · exact .refl s

theorem hotCacheRemove_cooled (S : Settings β σ) (s : Store η β σ) (h : η) :
    Cooled s (s.hotCacheRemove S h) ∧ (s.hotCacheRemove S h).hotCache.get? h = none := by
  rw [hotCacheRemove]
  cases hget : s.hotCache.get? h with
  | some b => exact ⟨erase_cooled s h _, get?_erase_self ..⟩
  | none => exact ⟨.refl s, hget⟩

def OnlyHot (s s' : Store η β σ) : Prop := ∃ d t, s' = { s with hotCache := d, hotCacheTotalBytes := t }

/-- After a put the hot cache has that block under its hash, if any, and else what it had. -/
theorem hotCachePut_spec (S : Settings β σ) (s : Store η β σ) (h : η) (b : Block β) :
    OnlyHot s (s.hotCachePut S h b) ∧ ∀ k c, (s.hotCachePut S h b).hotCache.get? k = some c →
      (k = h ∧ c = b) ∨ (k ≠ h ∧ s.hotCache.get? k = some c) := by
  have hremove := (s.hotCacheRemove_cooled S h).1
  obtain ⟨d, t, hrest⟩ := hremove.rest
  rw [hotCachePut]
  have hcap := capLoop_cooled S ((s.hotCacheRemove S h).hotCache.set h b).entries
    { s.hotCacheRemove S h with
      hotCache := (s.hotCacheRemove S h).hotCache.set h b
      hotCacheTotalBytes := (s.hotCacheRemove S h).hotCacheTotalBytes + S.tensorBytes b.data }
  obtain ⟨d', t', hcooled⟩ := hcap.rest
  refine ⟨⟨d', t', hcooled.trans (by rw [hrest])⟩, fun k c hk => ?_⟩
  have hset := hcap.sub k c hk
  dsimp only at hset
  rw [get?_set] at hset
  split at hset
  · next hkh => exact .inl ⟨hkh, (Option.some.inj hset).symm⟩
  · next hkh => exact .inr ⟨hkh, hremove.sub k c hset⟩

def items (s : Store η β σ) : List (η × Block β) :=
  s.writeQueue ++ (s.writing.toList.map (fun w => (w.blockHash, w.block)))

def Unlisted (s : Store η β σ) (h : η) : Prop := s.index.contains h = false ∧ s.incompatible.contains h = false

structure Accounted (s : Store η β σ) : Prop where
  index : Books s.metas s.made s.index
  incompatible : Books s.metas s.made s.incompatible
  apart : ∀ h, s.index.contains h = true → s.incompatible.contains h = false
  items : ∀ e ∈ s.items, (s.metas e.2.save).blockHash = e.1 ∧ e.2.save < s.made
  picked : ∀ h ∈ s.unlinking, s.Unlisted h

theorem Accounted.onlyHot (ha : s.Accounted) (ho : OnlyHot s s') : s'.Accounted := by
  obtain ⟨d, t, rfl⟩ := ho
  exact ⟨ha.index, ha.incompatible, ha.apart, ha.items, ha.picked⟩

variable {ix : Index η}

theorem contains_remove {metas : Heap η σ} :
    (ix.remove metas h).contains k = (! decide (k = h) && ix.contains k) := by
  rw [Index.contains, Index.get?_remove, Index.contains]
  by_cases hk : k = h <;> simp [hk]

theorem contains_add {metas : Heap η σ} :
    (ix.add metas i).contains k = (decide (k = (metas i).blockHash) || ix.contains k) := by
  rw [Index.contains, Index.get?_add, Index.contains]
  by_cases hk : k = (metas i).blockHash <;> simp [hk]

theorem Accounted.removeIndex (ha : s.Accounted) (h : η) : (s.removeIndex h).Accounted := by
  refine ⟨ha.index.remove h, ha.incompatible, fun k hk => ha.apart k ?_, ha.items, fun k hk => ?_⟩
  · simp only [Store.removeIndex, contains_remove, Bool.and_eq_true] at hk
    exact hk.2
  · obtain ⟨hindex, hincompatible⟩ := ha.picked k hk
    refine ⟨?_, hincompatible⟩
    simp only [Store.removeIndex, contains_remove, hindex, Bool.and_false]

theorem Accounted.removeIncompatible (ha : s.Accounted) (h : η) : (s.removeIncompatible h).Accounted := by
  refine ⟨ha.index, ha.incompatible.remove h, fun k hk => ?_, ha.items, fun k hk => ?_⟩
  · simp only [Store.removeIncompatible, contains_remove, ha.apart k hk, Bool.and_false]
  · obtain ⟨hindex, hincompatible⟩ := ha.picked k hk
    refine ⟨hindex, ?_⟩
    simp only [Store.removeIncompatible, contains_remove, hincompatible, Bool.and_false]

theorem Accounted.pick (ha : s.Accounted) (hu : s.Unlisted h) : (s.pick h).Accounted := by
  refine ⟨ha.index, ha.incompatible, ha.apart, ha.items, fun k hk => ?_⟩
  rcases List.mem_append.1 hk with hk | hk
  · exact ha.picked k hk
  · rw [List.mem_singleton.1 hk]
    exact hu

/-- An eviction takes out the entry of a block that the other index does not list. -/
theorem Accounted.evictIndex (ha : s.Accounted) (hi : s.incompatible.contains (s.metas i).blockHash = false) :
    (s.evictIndex i).Accounted :=
  (ha.removeIndex _).pick ⟨by simp [Store.removeIndex, contains_remove], hi⟩

theorem Accounted.evictIncompatible (ha : s.Accounted) (hi : s.index.contains (s.metas i).blockHash = false) :
    (s.evictIncompatible i).Accounted :=
  (ha.removeIncompatible _).pick ⟨hi, by simp [Store.removeIncompatible, contains_remove]⟩

theorem Accounted.unlink (ha : s.Accounted) (h : η) : (s.unlink h).Accounted :=
  ⟨ha.index, ha.incompatible, ha.apart, ha.items, ha.picked⟩

theorem Accounted.popPending (ha : s.Accounted) (h : η) : (s.popPending h).Accounted :=
  ⟨ha.index, ha.incompatible, ha.apart, ha.items, ha.picked⟩

/-- A heap that changes neither the listed names and sizes nor the names of the items. -/
theorem Accounted.heap {metas : Heap η σ} (ha : s.Accounted) (hindex : Books metas s.made s.index)
    (hincompatible : Books metas s.made s.incompatible)
    (hname : ∀ j, (metas j).blockHash = (s.metas j).blockHash) : Accounted { s with metas } :=
  ⟨hindex, hincompatible, ha.apart, fun e he => ⟨(hname _).trans (ha.items e he).1, (ha.items e he).2⟩, ha.picked⟩

/-- An object that the one index lists is not listed by the other. -/
theorem Accounted.not_listed (ha : s.Accounted) (hi : s.index.blocks.get? h = some i) :
    ∀ k, s.incompatible.blocks.get? k ≠ some i := by
  intro k hk
  have hname := (ha.index.named h i hi).1
  have hname' := (ha.incompatible.named k i hk).1
  have hlisted : s.index.contains k = true := Index.contains_iff.2 ⟨i, hname'.symm.trans hname ▸ hi⟩
  have hno := Index.contains_eq_false.1 (ha.apart k hlisted)
  rw [hk] at hno
  cases hno

theorem touch_heap (s : Store η β σ) (h : η) (now : Nat) (j : Nat) :
    ((s.index.touch s.metas h now).2 j).blockHash = (s.metas j).blockHash ∧
      ((s.index.touch s.metas h now).2 j).fileSize = (s.metas j).fileSize := by
  rw [Index.touch]
  split
  · next i _ =>
    by_cases hj : j = i
    · subst hj
      simp
    · simp [hj]
  · exact ⟨rfl, rfl⟩

theorem Accounted.touchIndex (ha : s.Accounted) (h : η) (now : Nat) : (s.touchIndex h now).Accounted := by
  refine ⟨ha.index.touch h now, ha.incompatible.congr le_rfl (fun k j _ => s.touch_heap h now j), fun k hk => ?_,
    fun e he => ⟨(s.touch_heap h now _).1.trans (ha.items e he).1, (ha.items e he).2⟩, fun k hk => ?_⟩
  · rw [Store.touchIndex, Index.contains] at hk
    dsimp only at hk
    rw [Index.get?_touch] at hk
    exact ha.apart k hk
  · refine ⟨?_, (ha.picked k hk).2⟩
    rw [Store.touchIndex, Index.contains]
    dsimp only
    rw [Index.get?_touch]
    exact (ha.picked k hk).1

/-- A write may change the size of an object only in the accounts of its index. -/
theorem Accounted.persistBlockFile (ha : s.Accounted) (hitem : (s.metas b.save).blockHash = h) {actualSize : Nat}
    (hw : s.index.contains h = false → s.incompatible.blocks.get? h = some b.save →
      actualSize = (s.metas b.save).fileSize) : (s.persistBlockFile h b actualSize).Accounted := by
  rw [Store.persistBlockFile]
  dsimp only
  by_cases hlisted : s.index.contains h = true
  · rw [if_pos hlisted]
    obtain ⟨i, hi⟩ := Index.contains_iff.1 hlisted
    have hheap : ∀ j, ((s.index.updateFileSize s.metas h actualSize).2 j).blockHash = (s.metas j).blockHash := by
      intro j
      rw [Index.updateFileSize, hi]
      by_cases hj : j = i
      · subst hj
        simp
      · simp [hj]
    refine ⟨ha.index.updateFileSize h actualSize, ha.incompatible.congr le_rfl (fun k j hk => ?_), fun k hk => ?_,
      fun e he => ⟨(hheap _).trans (ha.items e he).1, (ha.items e he).2⟩, fun k hk => ?_⟩
    · have hji : j ≠ i := fun hji => ha.not_listed hi k (hji ▸ hk)
      rw [Index.updateFileSize, hi]
      simp [hji]
    · dsimp only at hk
      rw [Index.contains, Index.get?_updateFileSize] at hk
      exact ha.apart k hk
    · refine ⟨?_, (ha.picked k hk).2⟩
      dsimp only
      rw [Index.contains, Index.get?_updateFileSize]
      exact (ha.picked k hk).1
  · rw [if_neg hlisted]
    rw [Bool.not_eq_true] at hlisted
    have hname : ∀ j, ((Function.update s.metas b.save { s.metas b.save with fileSize := actualSize }) j).blockHash =
        (s.metas j).blockHash := by
      intro j
      by_cases hj : j = b.save
      · subst hj
        simp
      · simp [hj]
    refine Accounted.heap (s := { s with files := Function.update s.files h (some b) })
      ⟨ha.index, ha.incompatible, ha.apart, ha.items, ha.picked⟩ (ha.index.congr le_rfl (fun k j hk => ⟨hname j, ?_⟩))
      (ha.incompatible.congr le_rfl (fun k j hk => ⟨hname j, ?_⟩)) hname
    · have hj : j ≠ b.save := by
        rintro rfl
        have hkh := (ha.index.named k _ hk).1.symm.trans hitem
        rw [← hkh, Index.contains_eq_false, hk] at hlisted
        cases hlisted
      simp [hj]
    · by_cases hj : j = b.save
      · subst hj
        have hkh := (ha.incompatible.named k _ hk).1.symm.trans hitem
        rw [Function.update_self]
        exact hw hlisted (hkh ▸ hk)
      · simp [hj]

structure Evicts (s s' : Store η β σ) : Prop where
  rest : ∃ ix inc u, s' = { s with index := ix, incompatible := inc, unlinking := u }
  index : ∀ k i, s'.index.blocks.get? k = some i → s.index.blocks.get? k = some i
  incompatible : ∀ k i, s'.incompatible.blocks.get? k = some i → s.incompatible.blocks.get? k = some i

theorem Evicts.refl (s : Store η β σ) : Evicts s s := ⟨⟨_, _, _, rfl⟩, fun _ _ hk => hk, fun _ _ hk => hk⟩

theorem Evicts.trans {s'' : Store η β σ} (he : Evicts s s') (he' : Evicts s' s'') : Evicts s s'' := by
  obtain ⟨ix, inc, u, rfl⟩ := he.rest
  obtain ⟨ix', inc', u', rfl⟩ := he'.rest
  exact ⟨⟨ix', inc', u', rfl⟩, fun k i hk => he.index k i (he'.index k i hk),
    fun k i hk => he.incompatible k i (he'.incompatible k i hk)⟩

theorem get?_of_remove {metas : Heap η σ} (hk : (ix.remove metas h).blocks.get? k = some i) :
    ix.blocks.get? k = some i := by
  rw [Index.get?_remove] at hk
  split at hk
  · cases hk
  · exact hk

theorem evict_evicts (s : Store η β σ) (v : Victim) : Evicts s (s.evict v) := by
  cases v with
  | compatible i => exact ⟨⟨_, _, _, rfl⟩, fun _ _ hk => get?_of_remove hk, fun _ _ hk => hk⟩
  | incompatible i => exact ⟨⟨_, _, _, rfl⟩, fun _ _ hk => hk, fun _ _ hk => get?_of_remove hk⟩

/-- The index that the victim is not taken from does not list its block. -/
def Apart (s : Store η β σ) : Victim → Prop
  | .compatible i => s.incompatible.contains (s.metas i).blockHash = false
  | .incompatible i => s.index.contains (s.metas i).blockHash = false

theorem Accounted.evict (ha : s.Accounted) {v : Victim} (hv : s.Apart v) : (s.evict v).Accounted := by
  cases v with
  | compatible i => exact ha.evictIndex hv
  | incompatible i => exact ha.evictIncompatible hv

theorem Evicts.metas (he : Evicts s s') : s'.metas = s.metas := by
  obtain ⟨ix, inc, u, rfl⟩ := he.rest
  rfl

theorem Evicts.apart (he : Evicts s s') {v : Victim} (hv : s.Apart v) : s'.Apart v := by
  cases v with
  | compatible i =>
    rw [Apart, he.metas, Index.contains_eq_false, Option.eq_none_iff_forall_ne_some]
    intro j hj
    rw [Apart, Index.contains_eq_false, he.incompatible _ _ hj] at hv
    cases hv
  | incompatible i =>
    rw [Apart, he.metas, Index.contains_eq_false, Option.eq_none_iff_forall_ne_some]
    intro j hj
    rw [Apart, Index.contains_eq_false, he.index _ _ hj] at hv
    cases hv

theorem mem_lruEntries {metas : Heap η σ} :
    i ∈ ix.lruEntries metas ↔ ∃ h, ix.blocks.get? h = some i := by
  rw [Index.lruEntries, List.mem_insertionSort, List.mem_map]
  constructor
  · rintro ⟨e, he, rfl⟩
    exact ⟨e.1, (get?_eq_some_iff ..).2 he⟩
  · rintro ⟨h, hi⟩
    exact ⟨(h, i), (get?_eq_some_iff ..).1 hi, rfl⟩

theorem Accounted.apart_compatible (ha : s.Accounted) (hi : i ∈ s.index.lruEntries s.metas) :
    s.Apart (.compatible i) := by
  obtain ⟨h, hi⟩ := mem_lruEntries.1 hi
  refine ha.apart _ (Index.contains_iff.2 ⟨i, ?_⟩)
  rwa [(ha.index.named h i hi).1]

theorem Accounted.apart_incompatible (ha : s.Accounted) (hi : i ∈ s.incompatible.lruEntries s.metas) :
    s.Apart (.incompatible i) := by
  obtain ⟨h, hi⟩ := mem_lruEntries.1 hi
  rw [Apart, (ha.incompatible.named h i hi).1, ← Bool.not_eq_true]
  intro hlisted
  have hno := Index.contains_eq_false.1 (ha.apart h hlisted)
  rw [hi] at hno
  cases hno

omit [DecidableEq η] in
theorem mem_reclaimableIncompatible {live : List String} {n : Nat} (hi : i ∈ s.reclaimableIncompatible live n) :
    i ∈ s.incompatible.lruEntries s.metas :=
  List.mem_of_mem_take (List.mem_of_mem_filter hi)

theorem newBlockLoop_evicts (live : List String) (effective n unlinksDone : Nat) (s : Store η β σ) :
    Evicts s (newBlockLoop live effective n unlinksDone s) := by
  induction n generalizing s unlinksDone with
  | zero => exact .refl s
  | succ n ih =>
    rw [newBlockLoop]
    split
    · split
      · next victim _ => exact (s.evict_evicts (.incompatible victim)).trans (ih unlinksDone _)
      · split
        · exact .refl s
        · split
          · exact .refl s
          · next victim _ _ => exact (s.evict_evicts (.compatible victim)).trans (ih (unlinksDone + 1) _)
    · exact .refl s

theorem Accounted.newBlockLoop (ha : s.Accounted) (live : List String) (effective n unlinksDone : Nat) :
    (newBlockLoop live effective n unlinksDone s).Accounted := by
  induction n generalizing s unlinksDone with
  | zero => exact ha
  | succ n ih =>
    rw [Store.newBlockLoop]
    split
    · split
      · next victim hpick =>
        have hv := ha.apart_incompatible (mem_reclaimableIncompatible (List.mem_of_mem_head? hpick))
        exact ih (ha.evictIncompatible hv) unlinksDone
      · split
        · exact ha
        · split
          · exact ha
          · next victim rest hlru =>
            have hmem : victim ∈ s.index.lruEntries s.metas :=
              List.mem_of_mem_take (hlru ▸ List.mem_cons_self : victim ∈ s.index.getLruEntries s.metas 1)
            exact ih (ha.evictIndex (ha.apart_compatible hmem)) (unlinksDone + 1)
    · exact ha

theorem batchLoop_evicts (effective : Nat) (l : List Victim) (s : Store η β σ) :
    Evicts s (batchLoop effective l s).2 := by
  induction l generalizing s with
  | nil => exact .refl s
  | cons v l ih =>
    rw [batchLoop]
    split
    · exact (s.evict_evicts v).trans (ih _)
    · exact .refl s

theorem Accounted.batchLoop (ha : s.Accounted) (effective : Nat) {l : List Victim} (hl : ∀ v ∈ l, s.Apart v) :
    (batchLoop effective l s).2.Accounted := by
  induction l generalizing s with
  | nil => exact ha
  | cons v l ih =>
    rw [Store.batchLoop]
    split
    · exact ih (ha.evict (hl v List.mem_cons_self))
        (fun w hw => (s.evict_evicts v).apart (hl w (List.mem_cons_of_mem v hw)))
    · exact ha

theorem batch_evicts (live : List String) (effective : Nat) (s : Store η β σ) : Evicts s (s.batch live effective).2 := by
  unfold batch
  dsimp only
  exact (batchLoop_evicts effective _ s).trans (batchLoop_evicts effective _ _)

theorem Accounted.batch (ha : s.Accounted) (live : List String) (effective : Nat) :
    (s.batch live effective).2.Accounted := by
  have hfirst := ha.batchLoop effective (l := (s.reclaimableIncompatible live 32).map .incompatible) (by
    intro v hv
    obtain ⟨i, hi, rfl⟩ := List.mem_map.1 hv
    exact ha.apart_incompatible (mem_reclaimableIncompatible hi))
  unfold Store.batch
  dsimp only
  refine hfirst.batchLoop effective (fun v hv => ?_)
  obtain ⟨i, hi, rfl⟩ := List.mem_map.1 hv
  exact hfirst.apart_compatible (List.mem_of_mem_take hi)

theorem enforceLoop_evicts (live : List String) (effective n : Nat) (s : Store η β σ) :
    Evicts s (enforceLoop live effective n s).2 := by
  induction n generalizing s with
  | zero => exact .refl s
  | succ n ih =>
    rw [enforceLoop]
    dsimp only
    split
    · exact .refl s
    · split
      · exact batch_evicts live effective s
      · exact (batch_evicts live effective s).trans (ih _)

theorem Accounted.enforceLoop (ha : s.Accounted) (live : List String) (effective n : Nat) :
    (enforceLoop live effective n s).2.Accounted := by
  induction n generalizing s with
  | zero => exact ha
  | succ n ih =>
    rw [Store.enforceLoop]
    dsimp only
    split
    · exact ha
    · split
      · exact ha.batch live effective
      · exact ih (ha.batch live effective)

theorem registerBlock_eq (S : Settings β σ) (s : Store η β σ) (h : η) (call : SaveCall β) (data : β) :
    ∃ d t, s.registerBlock S h call data = { s with
        metas := Function.update s.metas s.made (newMetadata S h call data)
        made := s.made + 1
        index := s.index.add (Function.update s.metas s.made (newMetadata S h call data)) s.made
        pendingWrites := Function.update s.pendingWrites h (some { data, save := s.made })
        hotCache := d
        hotCacheTotalBytes := t } ∧
      ∀ k c, d.get? k = some c → (k = h ∧ c = { data, save := s.made }) ∨ (k ≠ h ∧ s.hotCache.get? k = some c) := by
  obtain ⟨⟨d, t, hput⟩, hsub⟩ := hotCachePut_spec S
    { s with metas := Function.update s.metas s.made (newMetadata S h call data), made := s.made + 1 } h
    { data, save := s.made }
  rw [hput] at hsub
  refine ⟨d, t, ?_, hsub⟩
  simp only [registerBlock, hput]

theorem Accounted.registerBlock (ha : s.Accounted) (call : SaveCall β) (data : β)
    (hin : s.incompatible.contains h = false) (hpicked : h ∉ s.unlinking) :
    (s.registerBlock S h call data).Accounted := by
  obtain ⟨d, t, heq, -⟩ := s.registerBlock_eq S h call data
  rw [heq]
  have hold : ∀ j, j < s.made →
      (Function.update s.metas s.made (newMetadata S h call data)) j = s.metas j := by
    intro j hj
    exact Function.update_of_ne (Nat.ne_of_lt hj) _ _
  have hnew : ((Function.update s.metas s.made (newMetadata S h call data)) s.made).blockHash = h := by
    rw [Function.update_self]
    rfl
  have hbooks : ∀ {ix : Index η}, Books s.metas s.made ix →
      Books (Function.update s.metas s.made (newMetadata S h call data)) (s.made + 1) ix := by
    intro ix hb
    refine hb.congr (Nat.le_succ _) (fun k j hj => ?_)
    rw [hold j (hb.named k j hj).2]
    exact ⟨rfl, rfl⟩
  refine ⟨(hbooks ha.index).add (Nat.lt_succ_self _), hbooks ha.incompatible, fun k hk => ?_, fun e he => ?_,
    fun k hk => ⟨?_, (ha.picked k hk).2⟩⟩
  · dsimp only at hk ⊢
    rw [contains_add, hnew, Bool.or_eq_true, decide_eq_true_eq] at hk
    rcases hk with rfl | hk
    · exact hin
    · exact ha.apart k hk
  · obtain ⟨hname, hlt⟩ := ha.items e he
    dsimp only
    rw [hold _ hlt]
    exact ⟨hname, Nat.lt_succ_of_lt hlt⟩
  · dsimp only
    rw [contains_add, hnew, Bool.or_eq_false_iff, decide_eq_false_iff_not]
    exact ⟨fun hkh => hpicked (hkh ▸ hk), (ha.picked k hk).1⟩

omit [DecidableEq η] in
theorem mem_items_queue {e : η × Block β} {l : List (η × Block β)}
    (he : e ∈ items { s with writeQueue := s.writeQueue ++ l }) : e ∈ s.items ∨ e ∈ l := by
  simp only [items, List.mem_append] at he ⊢
  rcases he with (he | he) | he
  · exact .inl (.inl he)
  · exact .inr he
  · exact .inl (.inr he)

theorem Accounted.submitBlock (ha : s.Accounted) (hname : (s.metas b.save).blockHash = h) (hlt : b.save < s.made)
    (hlisted : s.index.contains h = true) (call : SaveCall β) : (s.submitBlock h b call).Accounted := by
  rw [Store.submitBlock]
  split
  · refine ⟨ha.index, ha.incompatible, ha.apart, fun e he => ?_, ha.picked⟩
    rcases mem_items_queue he with he | he
    · exact ha.items e he
    · rw [List.mem_singleton.1 he]
      exact ⟨hname, hlt⟩
  · refine Accounted.popPending ?_ h
    cases call.written with
    | some actualSize =>
      refine ha.persistBlockFile hname (fun hno => ?_)
      rw [hlisted] at hno
      cases hno
    | none => exact ha.removeIndex h

theorem Accounted.saveBlock [DecidableEq σ] (ha : s.Accounted) (call : SaveCall β)
    (hok : s.deduped S h call = false → call.data.isSome → s.incompatible.contains h = false ∧ h ∉ s.unlinking) :
    (s.saveBlock S h call).2.Accounted := by
  rw [Store.saveBlock]
  split
  · exact ha.touchIndex h call.now
  · next hnew =>
    cases hdata : call.data with
    | none => exact ha
    | some data =>
      obtain ⟨hin, hpicked⟩ := hok (Bool.not_eq_true _ ▸ hnew) (by rw [hdata]; rfl)
      have hregistered := ha.registerBlock (S := S) call data hin hpicked
      obtain ⟨d, t, heq, -⟩ := s.registerBlock_eq S h call data
      refine (hregistered.submitBlock ?_ ?_ ?_ call).newBlockLoop call.live call.effective _ 0
      · rw [heq]
        simp [newMetadata]
      · rw [heq]
        exact Nat.lt_succ_self _
      · rw [heq]
        simp [contains_add, newMetadata]

theorem Accounted.takeItem (ha : s.Accounted) : s.takeItem.Accounted := by
  rw [Store.takeItem]
  split
  · next hidle hqueue =>
    refine ⟨ha.index, ha.incompatible, ha.apart, fun e he => ha.items e ?_, ha.picked⟩
    simp only [Store.items, Option.toList, List.map_cons, List.map_nil, List.mem_append, List.mem_singleton] at he
    simp only [Store.items, hqueue, List.mem_append, List.mem_cons]
    rcases he with he | he
    · exact .inl (.inr he)
    · exact .inl (.inl he)
  · exact ha

theorem Accounted.writing (ha : s.Accounted) {persisted persisted' : Bool} (hw : s.writing = some ⟨h, b, persisted⟩) :
    Accounted { s with writing := some ⟨h, b, persisted'⟩ } := by
  refine ⟨ha.index, ha.incompatible, ha.apart, fun e he => ha.items e ?_, ha.picked⟩
  simpa only [Store.items, hw, Option.toList, List.map_cons] using he

theorem Accounted.item (ha : s.Accounted) {persisted : Bool} (hw : s.writing = some ⟨h, b, persisted⟩) :
    (s.metas b.save).blockHash = h ∧ b.save < s.made :=
  ha.items (h, b) (by simp [Store.items, hw])

theorem Accounted.persistItem (ha : s.Accounted) {written : Option Nat}
    (hok : ∀ actualSize, written = some actualSize → ∀ h b, s.writing = some ⟨h, b, false⟩ →
      s.index.contains h = false → s.incompatible.blocks.get? h = some b.save →
        actualSize = (s.metas b.save).fileSize) : (s.persistItem written).Accounted := by
  rw [Store.persistItem]
  split
  · next h b hw =>
    cases written with
    | some actualSize => exact (ha.writing hw).persistBlockFile (ha.item hw).1 (hok actualSize rfl h b hw)
    | none => exact (ha.writing hw).removeIndex h
  · exact ha

theorem Accounted.finishItem (ha : s.Accounted) : s.finishItem.Accounted := by
  rw [Store.finishItem]
  split
  · refine ⟨ha.index, ha.incompatible, ha.apart, fun e he => ha.items e ?_, ha.picked⟩
    simp only [Store.items, Store.popPending, Option.toList, List.map_nil, List.append_nil] at he
    exact List.mem_append_left _ he
  · exact ha

theorem Accounted.loadBlock (ha : s.Accounted) (h : η) (now : Nat) (readable unlinked : Bool) :
    (s.loadBlock S h now readable unlinked).2.Accounted := by
  have htouched : (s.hotCacheTouch h).Accounted := ha.onlyHot ⟨_, _, rfl⟩
  rw [Store.loadBlock]
  split
  · exact htouched
  · split
    · exact htouched
    · split
      · split
        · exact ha.removeIndex h
        · next b _ =>
          split
          · exact (ha.onlyHot (hotCachePut_spec S s h b).1).touchIndex h now
          · split
            · exact (ha.unlink h).removeIndex h
            · exact ha.removeIndex h
      · exact ha

theorem Accounted.deleteBlock (ha : s.Accounted) (h : η) (unlinked : Bool) :
    (s.deleteBlock S h unlinked).2.Accounted := by
  rw [Store.deleteBlock]
  split
  · refine Accounted.popPending ?_ h
    refine Accounted.onlyHot (s := if unlinked = true then (s.removeIndex h).unlink h else s.removeIndex h) ?_
      (hotCacheRemove_cooled S _ h).1.rest
    split
    · exact (ha.removeIndex h).unlink h
    · exact ha.removeIndex h
  · exact ha

theorem Accounted.forgetBlock (ha : s.Accounted) (h : η) : (s.forgetBlock h).2.Accounted := by
  rw [Store.forgetBlock]
  cases hget : s.index.blocks.get? h with
  | none => exact ha
  | some i =>
    obtain ⟨hname, hlt⟩ := ha.index.named h i hget
    have hremoved := ha.removeIndex h
    refine ⟨hremoved.index, ha.incompatible.add hlt, fun k hk => ?_, ha.items, fun k hk => ⟨(hremoved.picked k hk).1, ?_⟩⟩
    · dsimp only at hk ⊢
      rw [contains_add, hremoved.apart k hk, Bool.or_false, decide_eq_false_iff_not]
      rintro rfl
      simp [Store.removeIndex, contains_remove, hname] at hk
    · dsimp only
      rw [contains_add, (hremoved.picked k hk).2, Bool.or_false, decide_eq_false_iff_not]
      rintro rfl
      have hno := Index.contains_eq_false.1 (ha.picked _ hk).1
      change s.index.blocks.get? (s.metas i).blockHash = none at hno
      rw [hname, hget] at hno
      cases hno

theorem Accounted.clear (ha : s.Accounted) (kept : List η) : (s.clear kept).Accounted :=
  ⟨.empty _ _, .empty _ _, fun _ hk => by simp [Store.clear, Index.contains] at hk, ha.items,
    fun _ _ => ⟨rfl, rfl⟩⟩

theorem Accounted.unlinkNext (ha : s.Accounted) (unlinked : Bool) : (s.unlinkNext unlinked).Accounted := by
  rw [Store.unlinkNext]
  split
  · exact ha
  · next h rest hrest =>
    have hpopped : Accounted { s with unlinking := rest } :=
      ⟨ha.index, ha.incompatible, ha.apart, ha.items, fun k hk => ha.picked k (hrest ▸ List.mem_cons_of_mem h hk)⟩
    dsimp only
    split
    · exact hpopped.unlink h
    · exact hpopped

theorem foldl_removeIndex {ε : Type} (f : ε → η) (l : List ε) (s : Store η β σ) :
    ∃ ix, l.foldl (fun s e => s.removeIndex (f e)) s = { s with index := ix } ∧
      ∀ k i, ix.blocks.get? k = some i → s.index.blocks.get? k = some i := by
  induction l generalizing s with
  | nil => exact ⟨s.index, rfl, fun _ _ hk => hk⟩
  | cons e l ih =>
    obtain ⟨ix, hix, hsub⟩ := ih (s.removeIndex (f e))
    exact ⟨ix, hix, fun k i hk => get?_of_remove (hsub k i hk)⟩

theorem Accounted.foldl_removeIndex {ε : Type} (ha : s.Accounted) (f : ε → η) (l : List ε) :
    (l.foldl (fun s e => s.removeIndex (f e)) s).Accounted := by
  induction l generalizing s with
  | nil => exact ha
  | cons e l ih => exact ih (ha.removeIndex (f e))

theorem Accounted.invalidate (ha : s.Accounted) : (s.invalidateStaleLayerSignature S).Accounted := by
  rw [invalidateStaleLayerSignature]
  split
  · exact ha
  · exact ha
  · next types _ _ =>
    split
    · exact ha
    · have hswept := ha.foldl_removeIndex Prod.fst (s.index.blocks.entries.filter (fun e => s.stale S types e.2))
      exact ⟨hswept.index, hswept.incompatible, hswept.apart, hswept.items, hswept.picked⟩

structure Scanning (files : η → Option (Block β)) (s : Store η β σ) : Prop extends Accounted s where
  unpicked : s.unlinking = []
  unwritten : s.items = []
  files : s.files = files

theorem Scanning.scanFile {files : η → Option (Block β)} (hs : s.Scanning files) (hu : s.Unlisted h) (header : Header) :
    (s.scanFile S h header).Scanning files ∧ ∀ k, k ≠ h → s.Unlisted k → (s.scanFile S h header).Unlisted k := by
  rw [Store.scanFile]
  dsimp only
  generalize hm : BlockMetadata.mk (η := η) (σ := σ) h header.fileSize header.lastAccess header.numLayers
    header.modelName _ _ none _ = m
  have hname : m.blockHash = h := by rw [← hm]
  have hbooks : ∀ {ix : Index η}, Books s.metas s.made ix → Books (Function.update s.metas s.made m) (s.made + 1) ix := by
    intro ix hb
    refine hb.congr (Nat.le_succ _) (fun k j hj => ?_)
    rw [Function.update_of_ne (Nat.ne_of_lt (hb.named k j hj).2)]
    exact ⟨rfl, rfl⟩
  have hadd : ∀ (ix : Index η) k, (ix.add (Function.update s.metas s.made m) (s.made + 1 - 1)).contains k =
      (decide (k = h) || ix.contains k) := by
    intro ix k
    rw [contains_add, Nat.add_sub_cancel, Function.update_self, hname]
  have hlt : s.made + 1 - 1 < s.made + 1 := Nat.lt_succ_self _
  have hitems : ∀ e ∈ s.items, ((Function.update s.metas s.made m) e.2.save).blockHash = e.1 ∧ e.2.save < s.made + 1 := by
    rw [hs.unwritten]
    simp
  split
  · refine ⟨⟨⟨(hbooks hs.index).add hlt, hbooks hs.incompatible, fun k hk => ?_, hitems, fun k hk => ?_⟩, hs.unpicked,
      hs.unwritten, hs.files⟩, fun k hk hno => ⟨?_, hno.2⟩⟩
    · dsimp only at hk ⊢
      rw [hadd, Bool.or_eq_true, decide_eq_true_eq] at hk
      rcases hk with rfl | hk
      · exact hu.2
      · exact hs.apart k hk
    · have hk' : k ∈ s.unlinking := hk
      rw [hs.unpicked] at hk'
      cases hk'
    · dsimp only
      rw [hadd, hno.1, Bool.or_false, decide_eq_false_iff_not]
      exact hk
  · refine ⟨⟨⟨hbooks hs.index, (hbooks hs.incompatible).add hlt, fun k hk => ?_, hitems, fun k hk => ?_⟩, hs.unpicked,
      hs.unwritten, hs.files⟩, fun k hk hno => ⟨hno.1, ?_⟩⟩
    · have hk' : s.index.contains k = true := hk
      dsimp only
      rw [hadd, hs.apart k hk', Bool.or_false, decide_eq_false_iff_not]
      rintro rfl
      rw [hu.1] at hk'
      cases hk'
    · have hk' : k ∈ s.unlinking := hk
      rw [hs.unpicked] at hk'
      cases hk'
    · dsimp only
      rw [hadd, hno.2, Bool.or_false, decide_eq_false_iff_not]
      exact hk

theorem Scanning.foldl {files : η → Option (Block β)} (hs : s.Scanning files) {l : List (η × Header)}
    (hnodup : (l.map Prod.fst).Nodup) (hu : ∀ e ∈ l, s.Unlisted e.1) :
    (l.foldl (fun s e => s.scanFile S e.1 e.2) s).Scanning files := by
  induction l generalizing s with
  | nil => exact hs
  | cons e l ih =>
    rw [List.map_cons, List.nodup_cons] at hnodup
    obtain ⟨hscanned, hstill⟩ := hs.scanFile (S := S) (hu e List.mem_cons_self) e.2
    refine ih hscanned hnodup.2 (fun e' he' => hstill e'.1 (fun heq => hnodup.1 ?_) (hu e' (List.mem_cons_of_mem e he')))
    rw [← heq]
    exact List.mem_map_of_mem he'

/-- The files that are gone are those of blocks that are not listed. -/
def FilesKept (files : η → Option (Block β)) (s : Store η β σ) : Prop :=
  ∀ h, files h ≠ none → s.files h = none → s.Unlisted h

theorem Unlisted.removeIncompatible (hu : s.Unlisted k) (h : η) : (s.removeIncompatible h).Unlisted k :=
  ⟨hu.1, by simp [Store.removeIncompatible, contains_remove, hu.2]⟩

theorem startupLoop_keeps {files : η → Option (Block β)} (ha : s.Accounted) (hk : s.FilesKept files) (live : List String)
    (effective : Nat) (kept : List η) (n : Nat) :
    (startupLoop live effective kept n s).Accounted ∧ (startupLoop live effective kept n s).FilesKept files := by
  induction n generalizing s with
  | zero => exact ⟨ha, hk⟩
  | succ n ih =>
    rw [startupLoop]
    split
    · cases hpick : s.pickReclaimableIncompatible live with
      | none => exact ⟨ha, hk⟩
      | some victim =>
        have hv := ha.apart_incompatible (mem_reclaimableIncompatible (List.mem_of_mem_head? hpick))
        dsimp only
        split
        · exact ih (ha.removeIncompatible _) (fun k hfile hgone => (hk k hfile hgone).removeIncompatible _)
        · refine ih ((ha.unlink _).removeIncompatible _) (fun k hfile hgone => ?_)
          by_cases hkv : k = (s.metas victim).blockHash
          · subst hkv
            exact ⟨hv, by simp [Store.removeIncompatible, contains_remove]⟩
          · have hgone' : s.files k = none := by
              simpa [Store.removeIncompatible, Store.unlink, hkv] using hgone
            exact (hk k hfile hgone').removeIncompatible (s := s.unlink _) _
    · exact ⟨ha, hk⟩

theorem scan_keeps {s₀ : Store η β σ} (ho : Opened s₀) (found : Dict η Header) (live : List String) (effective : Nat)
    (kept : List η) : (s₀.scanDiskIndex S found live effective kept).Accounted ∧
      (s₀.scanDiskIndex S found live effective kept).FilesKept s₀.files := by
  obtain ⟨metas, files, types, -, rfl⟩ := ho
  have hnone : ∀ h, (opened metas files types).Unlisted h := fun _ => ⟨rfl, rfl⟩
  have hopened : (opened metas files types).Scanning files :=
    ⟨⟨.empty _ _, .empty _ _, fun _ _ => rfl, fun _ he => absurd he List.not_mem_nil,
      fun _ hh => absurd hh List.not_mem_nil⟩, rfl, rfl, rfl⟩
  have hscanned := hopened.foldl (S := S) found.nodup (fun e _ => hnone e.1)
  rw [scanDiskIndex]
  generalize found.entries.foldl (fun s e => s.scanFile S e.1 e.2) (opened metas files types) = s at hscanned ⊢
  have hkept : s.FilesKept files := fun h hfile hgone => absurd (hscanned.files ▸ hgone) hfile
  obtain ⟨ha, hk⟩ := startupLoop_keeps hscanned.toAccounted hkept live effective kept s.incompatible.blocks.entries.length
  generalize startupLoop live effective kept s.incompatible.blocks.entries.length s = s' at ha hk ⊢
  rw [repairIndex]
  refine ⟨ha.foldl_removeIndex id _, ?_⟩
  obtain ⟨ix, heq, hsub⟩ := foldl_removeIndex id (s'.index.blocks.keys.filter (fun h => (s'.files h).isNone)) s'
  have heq' : List.foldl Store.removeIndex s' (s'.index.blocks.keys.filter (fun h => (s'.files h).isNone)) =
      { s' with index := ix } := heq
  rw [heq']
  intro h hfile hgone
  obtain ⟨hindex, hincompatible⟩ := hk h hfile hgone
  refine ⟨?_, hincompatible⟩
  rw [Index.contains_eq_false, Option.eq_none_iff_forall_ne_some] at hindex ⊢
  exact fun i hi => hindex i (hsub h i hi)

theorem Evicts.files (he : Evicts s s') : s'.files = s.files := by
  obtain ⟨ix, inc, u, rfl⟩ := he.rest
  rfl

omit [DecidableEq η] in
theorem OnlyHot.files (ho : OnlyHot s s') : s'.files = s.files := by
  obtain ⟨d, t, rfl⟩ := ho
  rfl

theorem FilesKept.of_files (hsame : ∀ h, s'.files h = none → s.files h = none) : s'.FilesKept s.files :=
  fun h hfile hgone => absurd (hsame h hgone) hfile

theorem persistBlockFile_files (s : Store η β σ) (h : η) (b : Block β) (actualSize : Nat) :
    (s.persistBlockFile h b actualSize).files = Function.update s.files h (some b) := by
  rw [persistBlockFile]
  dsimp only
  split <;> rfl

theorem files_of_update {f : η → Option (Block β)} (hgone : Function.update f h (some b) k = none) : f k = none := by
  by_cases hk : k = h
  · subst hk
    simp at hgone
  · rwa [Function.update_of_ne hk] at hgone

theorem submitBlock_files {call : SaveCall β} (hgone : (s.submitBlock h b call).files k = none) : s.files k = none := by
  rw [submitBlock] at hgone
  split at hgone
  · exact hgone
  · cases hw : call.written with
    | none =>
      rw [hw] at hgone
      exact hgone
    | some actualSize =>
      rw [hw] at hgone
      have hfiles : (s.persistBlockFile h b actualSize).files k = none := hgone
      rw [persistBlockFile_files] at hfiles
      exact files_of_update hfiles

theorem saveBlock_files [DecidableEq σ] {call : SaveCall β} (hgone : (s.saveBlock S h call).2.files k = none) :
    s.files k = none := by
  rw [saveBlock] at hgone
  split at hgone
  · exact hgone
  · split at hgone
    · exact hgone
    · next data _ =>
      obtain ⟨d, t, heq, -⟩ := s.registerBlock_eq S h call data
      rw [enforceSizeLimitForNewBlock, (newBlockLoop_evicts ..).files] at hgone
      have hregistered := submitBlock_files hgone
      rwa [heq] at hregistered

theorem persistItem_files {written : Option Nat} (hgone : (s.persistItem written).files k = none) : s.files k = none := by
  rw [persistItem] at hgone
  split at hgone
  · next h b hw =>
    cases written with
    | none => exact hgone
    | some actualSize =>
      dsimp only at hgone
      rw [persistBlockFile_files] at hgone
      exact files_of_update hgone
  · exact hgone

theorem Unlisted.of_removed (ha : s.Accounted) (hlisted : s.index.contains h = true) : (s.removeIndex h).Unlisted h :=
  ⟨by simp [Store.removeIndex, contains_remove], ha.apart h hlisted⟩

theorem loadBlock_filesKept (ha : s.Accounted) (h : η) (now : Nat) (readable unlinked : Bool) :
    (s.loadBlock S h now readable unlinked).2.FilesKept s.files := by
  rw [loadBlock]
  split
  · exact .of_files (fun _ hgone => hgone)
  · split
    · exact .of_files (fun _ hgone => hgone)
    · split
      · next hlisted =>
        split
        · exact .of_files (fun _ hgone => hgone)
        · next b _ =>
          split
          · refine .of_files (fun k hgone => ?_)
            rwa [← (hotCachePut_spec S s h b).1.files]
          · intro k hfile hgone
            by_cases hk : k = h
            · subst hk
              have hout : (s.removeIndex k).Unlisted k := .of_removed ha hlisted
              cases unlinked <;> exact hout
            · cases unlinked <;> simp [removeIndex, unlink, hk, hfile] at hgone
      · exact .of_files (fun _ hgone => hgone)

theorem deleteBlock_filesKept (ha : s.Accounted) (h : η) (unlinked : Bool) :
    (s.deleteBlock S h unlinked).2.FilesKept s.files := by
  rw [deleteBlock]
  split
  · next hlisted =>
    obtain ⟨d, t, heq⟩ := (hotCacheRemove_cooled S (if unlinked = true then (s.removeIndex h).unlink h
      else s.removeIndex h) h).1.rest
    dsimp only
    rw [heq]
    intro k hfile hgone
    by_cases hk : k = h
    · subst hk
      have hun := Unlisted.of_removed ha hlisted
      cases unlinked <;> exact hun
    · cases unlinked <;> simp [popPending, removeIndex, unlink, hk, hfile] at hgone
  · exact .of_files (fun _ hgone => hgone)

theorem unlinkNext_filesKept (ha : s.Accounted) (unlinked : Bool) : (s.unlinkNext unlinked).FilesKept s.files := by
  rw [unlinkNext]
  split
  · exact .of_files (fun _ hgone => hgone)
  · next h rest hrest =>
    cases unlinked with
    | false => exact .of_files (fun _ hgone => hgone)
    | true =>
      intro k hfile hgone
      by_cases hk : k = h
      · subst hk
        exact ha.picked k (hrest ▸ List.mem_cons_self)
      · simp [unlink, hk, hfile] at hgone

theorem invalidate_files : (s.invalidateStaleLayerSignature S).files = s.files := by
  rw [invalidateStaleLayerSignature]
  split
  · rfl
  · rfl
  · next types _ _ =>
    split
    · rfl
    · obtain ⟨ix, heq, -⟩ := foldl_removeIndex Prod.fst (s.index.blocks.entries.filter (fun e => s.stale S types e.2)) s
      rw [heq]

end Store

/-- No save of a block that the incompatible index lists or whose file is yet to be unlinked, and no write
that changes the size of a forgotten block. -/
def Careful [DecidableEq σ] (S : Settings β σ) (s : Store η β σ) : Op η β → Prop
  | .saveBlock h call => s.deduped S h call = false → call.data.isSome →
      s.incompatible.contains h = false ∧ h ∉ s.unlinking
  | .persistItem written => ∀ actualSize, written = some actualSize → ∀ h b, s.writing = some ⟨h, b, false⟩ →
      s.index.contains h = false → s.incompatible.blocks.get? h = some b.save →
        actualSize = (s.metas b.save).fileSize
  | _ => True

theorem next_accounted [DecidableEq σ] (ha : s.Accounted) {op : Op η β} (hop : Careful S s op) :
    (next S s op).Accounted ∧ (next S s op).FilesKept s.files := by
  cases op with
  | saveBlock h call => exact ⟨ha.saveBlock call hop, .of_files (fun _ => Store.saveBlock_files)⟩
  | takeItem =>
    refine ⟨ha.takeItem, .of_files (fun k hgone => ?_)⟩
    rw [next, Store.takeItem] at hgone
    split at hgone <;> exact hgone
  | persistItem written => exact ⟨ha.persistItem hop, .of_files (fun _ => Store.persistItem_files)⟩
  | finishItem =>
    refine ⟨ha.finishItem, .of_files (fun k hgone => ?_)⟩
    rw [next, Store.finishItem] at hgone
    split at hgone <;> exact hgone
  | loadBlock h now readable unlinked =>
    exact ⟨ha.loadBlock h now readable unlinked, Store.loadBlock_filesKept ha h now readable unlinked⟩
  | deleteBlock h unlinked => exact ⟨ha.deleteBlock h unlinked, Store.deleteBlock_filesKept ha h unlinked⟩
  | forgetBlock h =>
    refine ⟨ha.forgetBlock h, .of_files (fun k hgone => ?_)⟩
    rw [next, Store.forgetBlock] at hgone
    split at hgone <;> exact hgone
  | clear kept => exact ⟨ha.clear kept, fun _ _ _ => ⟨rfl, rfl⟩⟩
  | dropHot h =>
    have hcooled := (s.hotCacheRemove_cooled S h).1.rest
    exact ⟨ha.onlyHot hcooled, .of_files (fun k hgone => Store.OnlyHot.files hcooled ▸ hgone)⟩
  | enforceSizeLimit live effective =>
    exact ⟨ha.enforceLoop live effective 1000,
      .of_files (fun k hgone => (Store.enforceLoop_evicts live effective 1000 s).files ▸ hgone)⟩
  | unlinkNext unlinked => exact ⟨ha.unlinkNext unlinked, Store.unlinkNext_filesKept ha unlinked⟩
  | adoptLayerSignatureIfUnset types =>
    rw [next, Store.adoptLayerSignatureIfUnset]
    split
    · exact ⟨ha, .of_files (fun _ hgone => hgone)⟩
    · exact ⟨⟨ha.index, ha.incompatible, ha.apart, ha.items, ha.picked⟩, .of_files (fun _ hgone => hgone)⟩
  | setExpectedLayerSignature types =>
    rw [next, Store.setExpectedLayerSignature]
    split
    · exact ⟨ha, .of_files (fun _ hgone => hgone)⟩
    · split <;>
        exact ⟨⟨ha.index, ha.incompatible, ha.apart, ha.items, ha.picked⟩, .of_files (fun _ hgone => hgone)⟩
  | invalidateStaleLayerSignature =>
    refine ⟨ha.invalidate, .of_files (fun k hgone => ?_)⟩
    rwa [next, Store.invalidate_files] at hgone

end FusionMlx.PagedSsdCache
