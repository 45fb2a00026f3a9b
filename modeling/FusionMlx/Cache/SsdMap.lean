import FusionMlx.Cache.SsdAccounts

/-!
# The SSD cache as a map

`held` maps a hash to the block of its most recent accepted save, or to nothing
once it is deleted. Queue items carry no generation, and the writer acts by
hash. As long as it persists and ends only items of blocks that are held, or of
deleted hashes, every load that is not a miss returns what is held.
-/
namespace FusionMlx.PagedSsdCache

open OrderedDict.Dict Runs

variable {η β σ : Type} [DecidableEq η] {S : Settings β σ}
variable {s s' : Store η β σ} {held : η → Option (Block β)} {h : η} {b : Block β}

def heldNext [DecidableEq σ] (S : Settings β σ) (s : Store η β σ) (held : η → Option (Block β)) :
    Op η β → η → Option (Block β)
  | .saveBlock h call =>
    match call.data with
    | none => held
    | some data =>
      if s.deduped S h call then Function.update held h ((held h).map (fun c => { c with data }))
      else Function.update held h (some { data, save := s.made })
  | .deleteBlock h unlinked => if (s.deleteBlock S h unlinked).1 then Function.update held h none else held
  | .clear _ => fun _ => none
  | _ => held

def nextHeld [DecidableEq σ] (S : Settings β σ) (w : Store η β σ × (η → Option (Block β))) (op : Op η β) :
    Store η β σ × (η → Option (Block β)) := (next S w.1 op, heldNext S w.1 w.2 op)

/-- At the start the files on disk are what is held. -/
def StartHeld (S : Settings β σ) (w : Store η β σ × (η → Option (Block β))) : Prop := Start S w.1 ∧ w.2 = w.1.files

namespace Store

structure Mapped (s : Store η β σ) (held : η → Option (Block β)) : Prop where
  made : 0 < s.made
  pending : ∀ k c, s.pendingWrites k = some c → held k = some c
  hot : ∀ k c, s.hotCache.get? k = some c → ∃ d, held k = some d ∧ d.data = c.data
  listed : ∀ k i, s.index.blocks.get? k = some i → ∃ d, held k = some d ∧ (d.save = 0 ∨ d.save = i)
  filed : ∀ k i, s.index.blocks.get? k = some i → s.pendingWrites k = none →
    ∀ c d, s.files k = some c → held k = some d → d.data = c.data
  older : ∀ k c, s.files k = some c → c.save < s.made ∧ ∀ d, held k = some d → c.save ≤ d.save
  items : ∀ e ∈ s.items, 0 < e.2.save ∧ e.2.save < s.made ∧ ∀ d, held e.1 = some d → d.save = e.2.save → d = e.2
  done : ∀ k c, s.writing = some ⟨k, c, true⟩ → held k = some c →
    ∀ i, s.index.blocks.get? k = some i → ∀ f, s.files k = some f → f.data = c.data

/-- A load returns what is held. -/
theorem Mapped.load (hm : s.Mapped held) {now : Nat} {readable unlinked : Bool} {data : β}
    (hload : (s.loadBlock S h now readable unlinked).1 = some data) : ∃ d, held h = some d ∧ d.data = data := by
  rw [loadBlock] at hload
  split at hload
  · next c hc =>
    cases hload
    exact ⟨c, hm.pending h c hc, rfl⟩
  · next hnone =>
    split at hload
    · next c hc =>
      cases hload
      exact hm.hot h c hc
    · split at hload
      · next hlisted =>
        obtain ⟨i, hi⟩ := Index.contains_iff.1 hlisted
        split at hload
        · cases hload
        · next c hc =>
          obtain ⟨d, hd, -⟩ := hm.listed h i hi
          split at hload
          · cases hload
            exact ⟨d, hd, hm.filed h i hi hnone c d hc hd⟩
          · cases hload
      · cases hload

structure Loses (s s' : Store η β σ) : Prop where
  made : s'.made = s.made
  pending : s'.pendingWrites = s.pendingWrites
  index : ∀ k i, s'.index.blocks.get? k = some i → s.index.blocks.get? k = some i
  hot : ∀ k c, s'.hotCache.get? k = some c → s.hotCache.get? k = some c
  files : ∀ k c, s'.files k = some c → s.files k = some c
  items : ∀ e ∈ s'.items, e ∈ s.items
  done : ∀ k c, s'.writing = some ⟨k, c, true⟩ →
    s.writing = some ⟨k, c, true⟩ ∨ s'.index.blocks.get? k = none

theorem Mapped.lose (hm : s.Mapped held) (hl : Loses s s') : s'.Mapped held := by
  refine ⟨hl.made ▸ hm.made, fun k c hc => hm.pending k c (hl.pending ▸ hc), fun k c hc => hm.hot k c (hl.hot k c hc),
    fun k i hi => hm.listed k i (hl.index k i hi), fun k i hi hnone c d hc => ?_, fun k c hc => ?_, fun e he => ?_,
    fun k c hw hc i hi f hf => ?_⟩
  · exact hm.filed k i (hl.index k i hi) (hl.pending ▸ hnone) c d (hl.files k c hc)
  · exact hl.made ▸ hm.older k c (hl.files k c hc)
  · exact hl.made ▸ hm.items e (hl.items e he)
  · rcases hl.done k c hw with hw | hnone
    · exact hm.done k c hw hc i (hl.index k i hi) f (hl.files k f hf)
    · rw [hnone] at hi
      cases hi

theorem Loses.refl (s : Store η β σ) : Loses s s :=
  ⟨rfl, rfl, fun _ _ hi => hi, fun _ _ hc => hc, fun _ _ hc => hc, fun _ he => he, fun _ _ hw => .inl hw⟩

theorem Loses.trans {s'' : Store η β σ} (hl : Loses s s') (hl' : Loses s' s'') : Loses s s'' := by
  refine ⟨hl'.made.trans hl.made, hl'.pending.trans hl.pending, fun k i hi => hl.index k i (hl'.index k i hi),
    fun k c hc => hl.hot k c (hl'.hot k c hc), fun k c hc => hl.files k c (hl'.files k c hc),
    fun e he => hl.items e (hl'.items e he), fun k c hw => ?_⟩
  rcases hl'.done k c hw with hw | hnone
  · refine (hl.done k c hw).imp_right (fun hnone => ?_)
    rw [Option.eq_none_iff_forall_ne_some] at hnone ⊢
    exact fun i hi => hnone i (hl'.index k i hi)
  · exact .inr hnone

/-- The queue, the writer and the pending writes are as they were. -/
theorem Loses.of_kept (hmade : s'.made = s.made) (hpending : s'.pendingWrites = s.pendingWrites)
    (hqueue : s'.writeQueue = s.writeQueue) (hwriting : s'.writing = s.writing)
    (hindex : ∀ k i, s'.index.blocks.get? k = some i → s.index.blocks.get? k = some i)
    (hhot : ∀ k c, s'.hotCache.get? k = some c → s.hotCache.get? k = some c)
    (hfiles : ∀ k c, s'.files k = some c → s.files k = some c) : Loses s s' := by
  refine ⟨hmade, hpending, hindex, hhot, hfiles, fun e he => ?_, fun k c hw => .inl (hwriting ▸ hw)⟩
  rw [Store.items, hqueue, hwriting] at he
  exact he

theorem Evicts.loses (he : Evicts s s') : Loses s s' := by
  have hindex := he.index
  obtain ⟨ix, inc, u, rfl⟩ := he.rest
  exact .of_kept rfl rfl rfl rfl hindex (fun _ _ hc => hc) (fun _ _ hc => hc)

theorem Cooled.loses (hc : Cooled s s') : Loses s s' := by
  have hsub := hc.sub
  obtain ⟨d, t, rfl⟩ := hc.rest
  exact .of_kept rfl rfl rfl rfl (fun _ _ hi => hi) hsub (fun _ _ hc => hc)

theorem removeIndex_loses (s : Store η β σ) (h : η) : Loses s (s.removeIndex h) :=
  .of_kept rfl rfl rfl rfl (fun _ _ hi => get?_of_remove hi) (fun _ _ hc => hc) (fun _ _ hc => hc)

theorem get?_of_unlink {k : η} {c : Block β} (hc : (s.unlink h).files k = some c) : s.files k = some c := by
  by_cases hk : k = h
  · subst hk
    simp [unlink] at hc
  · simpa [unlink, hk] using hc

theorem unlink_loses (s : Store η β σ) (h : η) : Loses s (s.unlink h) :=
  .of_kept rfl rfl rfl rfl (fun _ _ hi => hi) (fun _ _ hc => hc) (fun _ _ hc => get?_of_unlink hc)

theorem touchIndex_loses (s : Store η β σ) (h : η) (now : Nat) : Loses s (s.touchIndex h now) := by
  refine .of_kept rfl rfl rfl rfl (fun k i hi => ?_) (fun _ _ hc => hc) (fun _ _ hc => hc)
  rw [touchIndex] at hi
  dsimp only at hi
  rwa [Index.get?_touch] at hi

theorem hotCacheTouch_loses (s : Store η β σ) (h : η) : Loses s (s.hotCacheTouch h) :=
  .of_kept rfl rfl rfl rfl (fun _ _ hi => hi)
    (fun k _ hc => (get?_of_perm (moveToEnd_perm s.hotCache h) k).symm.trans hc) (fun _ _ hc => hc)

theorem takeItem_loses (s : Store η β σ) : Loses s s.takeItem := by
  rw [takeItem]
  split
  · next k c rest hwriting hqueue =>
    refine ⟨rfl, rfl, fun _ _ hi => hi, fun _ _ hc => hc, fun _ _ hc => hc, fun e he => ?_, fun k c hw => ?_⟩
    · simp only [Store.items, hwriting, hqueue, Option.toList_some, Option.toList_none, List.map_cons, List.map_nil,
        List.mem_append, List.mem_cons, List.append_nil, List.not_mem_nil, or_false] at he ⊢
      exact he.symm
    · cases hw
  · exact .refl s

theorem forgetBlock_loses (s : Store η β σ) (h : η) : Loses s (s.forgetBlock h).2 := by
  rw [forgetBlock]
  split
  · exact .of_kept rfl rfl rfl rfl (fun _ _ hi => hi) (fun _ _ hc => hc) (fun _ _ hc => hc)
  · exact .of_kept rfl rfl rfl rfl (fun _ _ hi => get?_of_remove hi) (fun _ _ hc => hc) (fun _ _ hc => hc)

theorem unlinkNext_loses (s : Store η β σ) (unlinked : Bool) : Loses s (s.unlinkNext unlinked) := by
  rw [unlinkNext]
  split
  · exact .refl s
  · next k rest _ =>
    have hpopped : Loses s { s with unlinking := rest } :=
      .of_kept rfl rfl rfl rfl (fun _ _ hi => hi) (fun _ _ hc => hc) (fun _ _ hc => hc)
    dsimp only
    split
    · exact hpopped.trans (unlink_loses _ k)
    · exact hpopped

theorem invalidate_loses (S : Settings β σ) (s : Store η β σ) : Loses s (s.invalidateStaleLayerSignature S) := by
  rw [invalidateStaleLayerSignature]
  split
  · exact .refl s
  · exact .refl s
  · next types _ _ =>
    split
    · exact .refl s
    · obtain ⟨ix, heq, hsub⟩ := foldl_removeIndex Prod.fst (s.index.blocks.entries.filter (fun e => s.stale S types e.2)) s
      rw [heq]
      exact .of_kept rfl rfl rfl rfl hsub (fun _ _ hc => hc) (fun _ _ hc => hc)

structure Writes (s s' : Store η β σ) (h : η) (b : Block β) : Prop where
  made : s'.made = s.made
  pending : s'.pendingWrites = s.pendingWrites
  index : ∀ k, s'.index.blocks.get? k = s.index.blocks.get? k
  hot : s'.hotCache = s.hotCache
  files : s'.files = Function.update s.files h (some b)
  items : s'.items = s.items
  done : ∀ k c, s'.writing = some ⟨k, c, true⟩ → s.writing = some ⟨k, c, true⟩ ∨ k = h

theorem Mapped.write (hm : s.Mapped held) (hw : Writes s s' h b) (hlt : b.save < s.made)
    (hheld : ∀ d, held h = some d → d = b) : s'.Mapped held := by
  refine ⟨hw.made ▸ hm.made, fun k c hc => hm.pending k c (hw.pending ▸ hc), fun k c hc => hm.hot k c (hw.hot ▸ hc),
    fun k i hi => hm.listed k i (hw.index k ▸ hi), fun k i hi hnone c d hc hd => ?_, fun k c hc => ?_,
    fun e he => ?_, fun k c hwriting hc i hi f hf => ?_⟩
  · rw [hw.files] at hc
    by_cases hk : k = h
    · subst hk
      rw [Function.update_self, Option.some.injEq] at hc
      rw [hheld d hd, hc]
    · rw [Function.update_of_ne hk] at hc
      exact hm.filed k i (hw.index k ▸ hi) (hw.pending ▸ hnone) c d hc hd
  · rw [hw.files] at hc
    rw [hw.made]
    by_cases hk : k = h
    · subst hk
      rw [Function.update_self, Option.some.injEq] at hc
      subst hc
      exact ⟨hlt, fun d hd => (congrArg Block.save (hheld d hd)).ge⟩
    · rw [Function.update_of_ne hk] at hc
      exact hm.older k c hc
  · exact hw.made ▸ hm.items e (hw.items ▸ he)
  · rw [hw.files] at hf
    by_cases hk : k = h
    · subst hk
      rw [Function.update_self, Option.some.injEq] at hf
      rw [← hf, hheld c hc]
    · rw [Function.update_of_ne hk] at hf
      exact hm.done k c ((hw.done k c hwriting).resolve_right hk) hc i (hw.index k ▸ hi) f hf

theorem persistBlockFile_writes (s : Store η β σ) (h : η) (b : Block β) (actualSize : Nat) :
    Writes s (s.persistBlockFile h b actualSize) h b := by
  rw [persistBlockFile]
  dsimp only
  split
  · refine ⟨rfl, rfl, fun k => ?_, rfl, rfl, rfl, fun _ _ hw => .inl hw⟩
    dsimp only
    rw [Index.get?_updateFileSize]
  · exact ⟨rfl, rfl, fun _ => rfl, rfl, rfl, rfl, fun _ _ hw => .inl hw⟩

/-- A pending copy may go once the file has what is held. -/
theorem Mapped.popPending (hm : s.Mapped held)
    (hfile : ∀ i, s.index.blocks.get? h = some i → ∀ c d, s.files h = some c → held h = some d → d.data = c.data) :
    (s.popPending h).Mapped held := by
  refine ⟨hm.made, fun k c hc => ?_, hm.hot, hm.listed, fun k i hi hnone => ?_, hm.older, hm.items, hm.done⟩
  · by_cases hk : k = h
    · subst hk
      simp [Store.popPending] at hc
    · exact hm.pending k c (by simpa [Store.popPending, hk] using hc)
  · by_cases hk : k = h
    · subst hk
      exact hfile i hi
    · exact hm.filed k i hi (by simpa [Store.popPending, hk] using hnone)

/-- A hash that nothing but the disk has any more can be deleted from the map. -/
theorem Mapped.erase (hm : s.Mapped held) (hindex : s.index.blocks.get? h = none) (hhot : s.hotCache.get? h = none)
    (hpending : s.pendingWrites h = none) : s.Mapped (Function.update held h none) := by
  have hother : ∀ {k d}, Function.update held h none k = some d → held k = some d := by
    intro k d hd
    by_cases hk : k = h
    · subst hk
      simp at hd
    · simpa [hk] using hd
  have hkeep : ∀ {k} {d : Block β}, k ≠ h → held k = some d → Function.update held h none k = some d :=
    fun hk hd => by simpa [hk] using hd
  refine ⟨hm.made, fun k c hc => hkeep ?_ (hm.pending k c hc), fun k c hc => ?_, fun k i hi => ?_,
    fun k i hi hnone c d hc hd => hm.filed k i hi hnone c d hc (hother hd),
    fun k c hc => ⟨(hm.older k c hc).1, fun d hd => (hm.older k c hc).2 d (hother hd)⟩,
    fun e he => ⟨(hm.items e he).1, (hm.items e he).2.1, fun d hd => (hm.items e he).2.2 d (hother hd)⟩,
    fun k c hw hc => hm.done k c hw (hother hc)⟩
  · rintro rfl
    rw [hpending] at hc
    cases hc
  · obtain ⟨d, hd, hdata⟩ := hm.hot k c hc
    refine ⟨d, hkeep ?_ hd, hdata⟩
    rintro rfl
    rw [hhot] at hc
    cases hc
  · obtain ⟨d, hd, hsave⟩ := hm.listed k i hi
    refine ⟨d, hkeep ?_ hd, hsave⟩
    rintro rfl
    rw [hindex] at hi
    cases hi

theorem Mapped.hotCachePut (hm : s.Mapped held) (hheld : ∃ d, held h = some d ∧ d.data = b.data) :
    (s.hotCachePut S h b).Mapped held := by
  obtain ⟨⟨d, t, heq⟩, hsub⟩ := hotCachePut_spec S s h b
  rw [heq] at hsub ⊢
  refine ⟨hm.made, hm.pending, fun k c hc => ?_, hm.listed, hm.filed, hm.older, hm.items, hm.done⟩
  rcases hsub k c hc with ⟨rfl, rfl⟩ | ⟨-, hold⟩
  · exact hheld
  · exact hm.hot k c hold

theorem Mapped.loadBlock (hm : s.Mapped held) (h : η) (now : Nat) (readable unlinked : Bool) :
    (s.loadBlock S h now readable unlinked).2.Mapped held := by
  rw [Store.loadBlock]
  split
  · exact hm.lose (hotCacheTouch_loses s h)
  · next hnone =>
    split
    · exact hm.lose (hotCacheTouch_loses s h)
    · split
      · next hlisted =>
        obtain ⟨i, hi⟩ := Index.contains_iff.1 hlisted
        split
        · exact hm.lose (removeIndex_loses s h)
        · next c hc =>
          obtain ⟨d, hd, -⟩ := hm.listed h i hi
          split
          · exact (hm.hotCachePut ⟨d, hd, hm.filed h i hi hnone c d hc hd⟩).lose (touchIndex_loses _ h now)
          · split
            · exact hm.lose ((unlink_loses s h).trans (removeIndex_loses _ h))
            · exact hm.lose (removeIndex_loses s h)
      · exact hm

theorem Mapped.registerBlock (hm : s.Mapped held) (call : SaveCall β) (data : β) :
    (s.registerBlock S h call data).Mapped (Function.update held h (some { data, save := s.made })) := by
  obtain ⟨d, t, heq, hsub⟩ := s.registerBlock_eq S h call data
  rw [heq]
  have hother : ∀ {k c}, k ≠ h → Function.update held h (some { data, save := s.made }) k = some c → held k = some c :=
    fun hk hc => by simpa [hk] using hc
  have hkeep : ∀ {k} {c : Block β}, k ≠ h → held k = some c →
      Function.update held h (some { data, save := s.made }) k = some c := fun hk hc => by simpa [hk] using hc
  have hindex : ∀ k, (s.index.add (Function.update s.metas s.made (newMetadata S h call data)) s.made).blocks.get? k =
      if k = h then some s.made else s.index.blocks.get? k := by
    intro k
    rw [Index.get?_add, Function.update_self]
    rfl
  refine ⟨Nat.succ_pos _, fun k c hc => ?_, fun k c hc => ?_, fun k i hi => ?_, fun k i hi hnone c d hc hd => ?_,
    fun k c hc => ⟨Nat.lt_succ_of_lt (hm.older k c hc).1, fun d hd => ?_⟩, fun e he => ?_, fun k c hw hc => ?_⟩
  · by_cases hk : k = h
    · subst hk
      simpa using hc
    · exact hkeep hk (hm.pending k c (by simpa [hk] using hc))
  · rcases hsub k c hc with ⟨rfl, rfl⟩ | ⟨hk, hold⟩
    · exact ⟨_, Function.update_self .., rfl⟩
    · obtain ⟨d, hd, hdata⟩ := hm.hot k c hold
      exact ⟨d, hkeep hk hd, hdata⟩
  · dsimp only at hi
    rw [hindex] at hi
    split at hi
    · next hk =>
      subst hk
      exact ⟨_, Function.update_self .., .inr (Option.some.inj hi)⟩
    · next hk =>
      obtain ⟨d, hd, hsave⟩ := hm.listed k i hi
      exact ⟨d, hkeep hk hd, hsave⟩
  · by_cases hk : k = h
    · subst hk
      simp at hnone
    · dsimp only at hi
      rw [hindex, if_neg hk] at hi
      exact hm.filed k i hi (by simpa [hk] using hnone) c d hc (hother hk hd)
  · by_cases hk : k = h
    · subst hk
      rw [Function.update_self, Option.some.injEq] at hd
      rw [← hd]
      exact (hm.older k c hc).1.le
    · exact (hm.older k c hc).2 d (hother hk hd)
  · obtain ⟨hpos, hlt, hsame⟩ := hm.items e he
    refine ⟨hpos, Nat.lt_succ_of_lt hlt, fun d hd hsave => ?_⟩
    by_cases hk : e.1 = h
    · rw [hk, Function.update_self, Option.some.injEq] at hd
      rw [← hd] at hsave
      exact absurd hsave hlt.ne'
    · exact hsame d (hother hk hd) hsave
  · have hlt : c.save < s.made :=
      (hm.items (k, c) (List.mem_append_right _ (by rw [show s.writing = _ from hw]; simp))).2.1
    have hk : k ≠ h := by
      rintro rfl
      rw [Function.update_self, Option.some.injEq] at hc
      rw [← hc] at hlt
      exact absurd hlt (lt_irrefl _)
    intro i hi
    dsimp only at hi
    rw [hindex, if_neg hk] at hi
    exact hm.done k c hw (hother hk hc) i hi

theorem Mapped.submitBlock (hm : s.Mapped held) (hheld : held h = some b) (hpos : 0 < b.save) (hlt : b.save < s.made)
    (call : SaveCall β) : (s.submitBlock h b call).Mapped held := by
  rw [Store.submitBlock]
  split
  · refine ⟨hm.made, hm.pending, hm.hot, hm.listed, hm.filed, hm.older, fun e he => ?_, hm.done⟩
    rcases mem_items_queue he with he | he
    · exact hm.items e he
    · rw [List.mem_singleton.1 he]
      exact ⟨hpos, hlt, fun d hd _ => Option.some.inj (hd.symm.trans hheld)⟩
  · have hsame : ∀ d, held h = some d → d = b := fun d hd => Option.some.inj (hd.symm.trans hheld)
    cases call.written with
    | some actualSize =>
      have hwrites := persistBlockFile_writes s h b actualSize
      refine (hm.write hwrites hlt hsame).popPending (fun i _ c d hc hd => ?_)
      rw [hwrites.files, Function.update_self, Option.some.injEq] at hc
      rw [hsame d hd, hc]
    | none =>
      refine (hm.lose (removeIndex_loses s h)).popPending (fun i hi => ?_)
      simp [Store.removeIndex, Index.get?_remove] at hi

theorem Mapped.saveBlock [DecidableEq σ] (hm : s.Mapped held) (call : SaveCall β)
    (hsame : s.deduped S h call = true → ∀ data d, call.data = some data → held h = some d → d.data = data) :
    (s.saveBlock S h call).2.Mapped (heldNext S s held (.saveBlock h call)) := by
  rw [Store.saveBlock, heldNext]
  cases hd : call.data with
  | none =>
    dsimp only
    split
    · exact hm.lose (touchIndex_loses s h call.now)
    · exact hm
  | some data =>
    dsimp only
    split
    · next hdeduped =>
      have hmap : (held h).map (fun c : Block β => { c with data }) = held h := by
        cases hheld : held h with
        | none => rfl
        | some d => rw [Option.map_some, ← hsame hdeduped data d hd hheld]
      rw [hmap, Function.update_eq_self]
      exact hm.lose (touchIndex_loses s h call.now)
    · have hregistered := hm.registerBlock (S := S) (h := h) call data
      refine Mapped.lose ?_ (newBlockLoop_evicts ..).loses
      refine hregistered.submitBlock (Function.update_self ..) hm.made ?_ call
      obtain ⟨d, t, heq, -⟩ := s.registerBlock_eq S h call data
      rw [heq]
      exact Nat.lt_succ_self _

omit [DecidableEq η] in
theorem mem_items_writing {persisted : Bool} (hw : s.writing = some ⟨h, b, persisted⟩) : (h, b) ∈ s.items :=
  List.mem_append_right _ (by rw [hw]; simp)

theorem Mapped.persistItem (hm : s.Mapped held) (written : Option Nat)
    (hheld : ∀ k c, s.writing = some ⟨k, c, false⟩ → ∀ d, held k = some d → d.save = c.save) :
    (s.persistItem written).Mapped held := by
  rw [Store.persistItem]
  split
  · next k c hw =>
    obtain ⟨-, hlt, hsame⟩ := hm.items (k, c) (mem_items_writing hw)
    have hitems : Store.items { s with writing := some ⟨k, c, true⟩ } = s.items := by
      simp [Store.items, hw]
    cases written with
    | some actualSize =>
      have hwrites := persistBlockFile_writes { s with writing := some ⟨k, c, true⟩ } k c actualSize
      refine hm.write (h := k) (b := c) ⟨hwrites.made, hwrites.pending, hwrites.index, hwrites.hot, hwrites.files,
        hwrites.items.trans hitems, fun k' c' hw' => ?_⟩ hlt (fun d hd => hsame d hd (hheld k c hw d hd))
      rcases hwrites.done k' c' hw' with hw' | hk
      · cases hw'
        exact .inr rfl
      · exact .inr hk
    | none =>
      refine hm.lose ⟨rfl, rfl, fun _ _ hi => get?_of_remove hi, fun _ _ hc => hc, fun _ _ hc => hc,
        fun e he => hitems ▸ he, fun k' c' hw' => ?_⟩
      cases hw'
      simp [Store.removeIndex, Index.get?_remove]
  · exact hm

theorem Mapped.finishItem (hm : s.Mapped held)
    (hheld : ∀ k c, s.writing = some ⟨k, c, true⟩ → ∀ d, held k = some d → d.save = c.save) :
    s.finishItem.Mapped held := by
  rw [Store.finishItem]
  split
  · next k c hw =>
    obtain ⟨-, -, hsame⟩ := hm.items (k, c) (mem_items_writing hw)
    have hpopped : (s.popPending k).Mapped held := by
      refine hm.popPending (fun i hi f d hf hd => ?_)
      have hdc := hsame d hd (hheld k c hw d hd)
      rw [hdc] at hd ⊢
      exact (hm.done k c hw hd i hi f hf).symm
    refine hpopped.lose ⟨rfl, rfl, fun _ _ hi => hi, fun _ _ hc => hc, fun _ _ hc => hc, fun e he => ?_,
      fun _ _ hw' => by cases hw'⟩
    simp only [Store.items, Store.popPending, Option.toList_none, List.map_nil, List.append_nil] at he ⊢
    exact List.mem_append_left _ he
  · exact hm

theorem Mapped.deleteBlock (hm : s.Mapped held) (h : η) (unlinked : Bool) :
    (s.deleteBlock S h unlinked).2.Mapped
      (if (s.deleteBlock S h unlinked).1 then Function.update held h none else held) := by
  rw [Store.deleteBlock]
  split
  · have hremoved : Loses s (if unlinked = true then (s.removeIndex h).unlink h else s.removeIndex h) := by
      split
      · exact (removeIndex_loses s h).trans (unlink_loses _ h)
      · exact removeIndex_loses s h
    have hindex : (if unlinked = true then (s.removeIndex h).unlink h else s.removeIndex h).index.blocks.get? h = none := by
      split <;> simp [Store.removeIndex, Store.unlink, Index.get?_remove]
    dsimp only
    generalize (if unlinked = true then (s.removeIndex h).unlink h else s.removeIndex h) = s₁ at hremoved hindex ⊢
    obtain ⟨hcooled, hhot⟩ := hotCacheRemove_cooled S s₁ h
    have hindex' : (s₁.hotCacheRemove S h).index.blocks.get? h = none := by
      obtain ⟨d, t, heq⟩ := hcooled.rest
      rw [heq]
      exact hindex
    have hpopped := (hm.lose (hremoved.trans hcooled.loses)).popPending (h := h)
      (fun i hi => absurd (hindex'.symm.trans hi) (by simp))
    exact hpopped.erase hindex' hhot (by simp [Store.popPending])
  · exact hm

theorem Mapped.clear (hm : s.Mapped held) (hpending : ∀ k, s.pendingWrites k = none) (kept : List η) :
    (s.clear kept).Mapped (fun _ => none) := by
  have hno : ∀ k, (s.clear kept).index.blocks.get? k = none := fun _ => rfl
  have hcold : ∀ k, (s.clear kept).hotCache.get? k = none := fun _ => rfl
  refine ⟨hm.made, fun k c hc => ?_, fun k c hc => absurd (hcold k) (by simp [hc]),
    fun k i hi => absurd (hno k) (by simp [hi]), fun k i hi => absurd (hno k) (by simp [hi]),
    fun k c hc => ⟨?_, fun d hd => absurd hd (by simp)⟩,
    fun e he => ⟨(hm.items e he).1, (hm.items e he).2.1, fun d hd => absurd hd (by simp)⟩,
    fun k c _ hc => absurd hc (by simp)⟩
  · exact absurd ((hpending k).symm.trans hc) (by simp)
  · rw [Store.clear] at hc
    dsimp only at hc
    split at hc
    · cases hc
    · exact (hm.older k c hc).1

structure Unused (s : Store η β σ) : Prop where
  made : 0 < s.made
  pending : ∀ k, s.pendingWrites k = none
  hot : ∀ k, s.hotCache.get? k = none
  items : s.items = []
  writing : s.writing = none
  files : ∀ k c, s.files k = some c → c.save = 0

theorem Unused.scanFile (hu : s.Unused) (h : η) (header : Header) : (s.scanFile S h header).Unused := by
  rw [Store.scanFile]
  dsimp only
  split <;> exact ⟨Nat.succ_pos _, hu.pending, hu.hot, hu.items, hu.writing, hu.files⟩

theorem Unused.scanFiles (hu : s.Unused) (l : List (η × Header)) :
    (l.foldl (fun s e => s.scanFile S e.1 e.2) s).Unused := by
  induction l generalizing s with
  | nil => exact hu
  | cons e l ih => exact ih (hu.scanFile e.1 e.2)

theorem Unused.startupLoop (hu : s.Unused) (live : List String) (effective : Nat) (kept : List η) (n : Nat) :
    (Store.startupLoop live effective kept n s).Unused := by
  induction n generalizing s with
  | zero => exact hu
  | succ n ih =>
    rw [Store.startupLoop]
    split
    · split
      · exact hu
      · next victim _ =>
        dsimp only
        split
        · exact ih ⟨hu.made, hu.pending, hu.hot, hu.items, hu.writing, hu.files⟩
        · exact ih ⟨hu.made, hu.pending, hu.hot, hu.items, hu.writing, fun k c hc => hu.files k c (get?_of_unlink hc)⟩
    · exact hu

/-- The repaired index lists only blocks with files. -/
theorem repairIndex_rest (s : Store η β σ) :
    ∃ ix, s.repairIndex = { s with index := ix } ∧ ∀ k i, ix.blocks.get? k = some i → ∃ c, s.files k = some c := by
  have hgone : ∀ (l : List η) (s : Store η β σ) (k : η), k ∈ l → (l.foldl removeIndex s).index.blocks.get? k = none := by
    intro l
    induction l with
    | nil => exact fun _ _ hk => absurd hk List.not_mem_nil
    | cons h l ih =>
      intro s k hk
      by_cases hkl : k ∈ l
      · exact ih (s.removeIndex h) k hkl
      · obtain rfl := (List.mem_cons.1 hk).resolve_right hkl
        obtain ⟨ix, heq, hsub⟩ := foldl_removeIndex id l (s.removeIndex k)
        have heq' : l.foldl removeIndex (s.removeIndex k) = { s.removeIndex k with index := ix } := heq
        rw [List.foldl_cons, heq', Option.eq_none_iff_forall_ne_some]
        intro i hi
        have hold := hsub k i hi
        simp [Store.removeIndex, Index.get?_remove] at hold
  obtain ⟨ix, heq, hsub⟩ := foldl_removeIndex id (s.index.blocks.keys.filter (fun h => (s.files h).isNone)) s
  have heq' : s.repairIndex = { s with index := ix } := heq
  refine ⟨ix, heq', fun k i hi => Option.ne_none_iff_exists'.1 (fun hnone => ?_)⟩
  have hlost := hgone (s.index.blocks.keys.filter (fun h => (s.files h).isNone)) s k
    (List.mem_filter.2 ⟨(mem_keys_iff ..).2 ⟨i, hsub k i hi⟩, by simp [hnone]⟩)
  rw [← repairIndex, heq', hi] at hlost
  cases hlost

theorem Unused.mapped (hu : s.Unused) (hlisted : ∀ k i, s.index.blocks.get? k = some i → ∃ c, s.files k = some c) :
    s.Mapped s.files := by
  refine ⟨hu.made, fun k c hc => ?_, fun k c hc => ?_, fun k i hi => ?_, fun k i _ _ c d hc hd => ?_, fun k c hc => ?_,
    fun e he => ?_, fun k c hw => ?_⟩
  · rw [hu.pending] at hc
    cases hc
  · rw [hu.hot] at hc
    cases hc
  · obtain ⟨c, hc⟩ := hlisted k i hi
    exact ⟨c, hc, .inl (hu.files k c hc)⟩
  · exact congrArg Block.data (Option.some.inj (hd.symm.trans hc))
  · rw [hu.files k c hc]
    exact ⟨hu.made, fun _ _ => Nat.zero_le _⟩
  · rw [hu.items] at he
    cases he
  · rw [hu.writing] at hw
    cases hw

theorem start_mapped (hs : Start S s) : s.Mapped s.files := by
  obtain ⟨s₀, ⟨metas, files, types, hfiles, rfl⟩, found, live, effective, kept, rfl⟩ := hs
  have hopened : (opened metas files types).Unused :=
    ⟨Nat.one_pos, fun _ => rfl, fun _ => rfl, rfl, rfl, hfiles⟩
  have hscanned := (hopened.scanFiles (S := S) found.entries).startupLoop live effective kept
    (found.entries.foldl (fun s e => s.scanFile S e.1 e.2) (opened metas files types)).incompatible.blocks.entries.length
  rw [scanDiskIndex]
  generalize Store.startupLoop live effective kept _ _ = s₁ at hscanned ⊢
  obtain ⟨ix, heq, hlisted⟩ := repairIndex_rest s₁
  rw [heq]
  exact Unused.mapped ⟨hscanned.made, hscanned.pending, hscanned.hot, hscanned.items, hscanned.writing, hscanned.files⟩
    hlisted

/-- Of a newer save of the same hash the entry, the pending copy and the file are as they were. -/
structure Spares (s s' : Store η β σ) (h : η) (b : Block β) : Prop where
  index : ∀ i, s.index.blocks.get? h = some i → b.save < i → s'.index.blocks.get? h = some i
  pending : ∀ c, s.pendingWrites h = some c → b.save < c.save → s'.pendingWrites h = some c
  files : ∀ c, s.files h = some c → b.save < c.save → s'.files h = some c

theorem Mapped.persist_spares (hm : s.Mapped held) (hw : s.writing = some ⟨h, b, false⟩)
    (hheld : ∀ d, held h = some d → d.save = b.save) (written : Option Nat)
    (hleft : held h = none → written.isSome → ∀ c, s.files h = some c → c.save ≤ b.save) :
    Spares s (s.persistItem written) h b := by
  obtain ⟨hpos, -, -⟩ := hm.items (h, b) (mem_items_writing hw)
  refine ⟨fun i hi hlt => ?_, fun c hc hlt => ?_, fun c hc hlt => ?_⟩
  · obtain ⟨d, hd, hsave⟩ := hm.listed h i hi
    have hdb := hheld d hd
    dsimp only at hpos
    omega
  · rw [hheld c (hm.pending h c hc)] at hlt
    exact absurd hlt (lt_irrefl _)
  · cases hd : held h with
    | some d =>
      have hle := (hm.older h c hc).2 d hd
      rw [hheld d hd] at hle
      exact absurd hlt (not_lt.2 hle)
    | none =>
      cases written with
      | some actualSize => exact absurd hlt (not_lt.2 (hleft hd rfl c hc))
      | none =>
        rw [Store.persistItem, hw]
        exact hc

theorem Mapped.finish_spares (hm : s.Mapped held) (hw : s.writing = some ⟨h, b, true⟩)
    (hheld : ∀ d, held h = some d → d.save = b.save) : Spares s s.finishItem h b := by
  rw [Store.finishItem, hw]
  refine ⟨fun _ hi _ => hi, fun c hc hlt => ?_, fun _ hc _ => hc⟩
  rw [hheld c (hm.pending h c hc)] at hlt
  exact absurd hlt (lt_irrefl _)

end Store

variable [DecidableEq σ]

/-- A block that is taken as already there has the data held; the writer persists and ends an item only when its
save is the last of its hash or the hash is deleted, and then writes over no newer file that a failed unlink
left; and nothing is pending at a `clear`. -/
def Orderly (S : Settings β σ) (w : Store η β σ × (η → Option (Block β))) : Op η β → Prop
  | .saveBlock h call => w.1.deduped S h call = true → ∀ data d, call.data = some data → w.2 h = some d → d.data = data
  | .persistItem written => ∀ h b, w.1.writing = some ⟨h, b, false⟩ → (∀ d, w.2 h = some d → d.save = b.save) ∧
      (w.2 h = none → written.isSome → ∀ c, w.1.files h = some c → c.save ≤ b.save)
  | .finishItem => ∀ h b, w.1.writing = some ⟨h, b, true⟩ → ∀ d, w.2 h = some d → d.save = b.save
  | .clear _ => ∀ h, w.1.pendingWrites h = none
  | _ => True

theorem nextHeld_mapped {w : Store η β σ × (η → Option (Block β))} (hm : w.1.Mapped w.2) {op : Op η β}
    (hop : Orderly S w op) : (nextHeld S w op).1.Mapped (nextHeld S w op).2 := by
  obtain ⟨s, held⟩ := w
  cases op with
  | saveBlock h call => exact hm.saveBlock call hop
  | takeItem => exact hm.lose (Store.takeItem_loses s)
  | persistItem written => exact hm.persistItem written (fun k c hw => (hop k c hw).1)
  | finishItem => exact hm.finishItem hop
  | loadBlock h now readable unlinked => exact hm.loadBlock h now readable unlinked
  | deleteBlock h unlinked => exact hm.deleteBlock h unlinked
  | forgetBlock h => exact hm.lose (Store.forgetBlock_loses s h)
  | clear kept => exact hm.clear hop kept
  | dropHot h => exact hm.lose (Store.hotCacheRemove_cooled S s h).1.loses
  | enforceSizeLimit live effective => exact hm.lose (Store.enforceLoop_evicts live effective 1000 s).loses
  | unlinkNext unlinked => exact hm.lose (Store.unlinkNext_loses s unlinked)
  | adoptLayerSignatureIfUnset types =>
    refine hm.lose ?_
    rw [nextHeld, next, Store.adoptLayerSignatureIfUnset]
    split
    · exact .refl s
    · exact .of_kept rfl rfl rfl rfl (fun _ _ hi => hi) (fun _ _ hc => hc) (fun _ _ hc => hc)
  | setExpectedLayerSignature types =>
    refine hm.lose ?_
    rw [nextHeld, next, Store.setExpectedLayerSignature]
    split
    · exact .refl s
    · split <;> exact .of_kept rfl rfl rfl rfl (fun _ _ hi => hi) (fun _ _ hc => hc) (fun _ _ hc => hc)
  | invalidateStaleLayerSignature => exact hm.lose (Store.invalidate_loses S s)

/-- In such a run a load returns the data of the last accepted save or misses, it misses after a delete, and the
writer leaves a newer save of its item's hash alone. -/
theorem loads_held {w : Store η β σ × (η → Option (Block β))}
    (hrun : Reached (StartHeld S) (Orderly S) (nextHeld S) w) :
    (∀ h now readable unlinked data, (w.1.loadBlock S h now readable unlinked).1 = some data →
      ∃ d, w.2 h = some d ∧ d.data = data) ∧
    (∀ h now readable unlinked, w.2 h = none → (w.1.loadBlock S h now readable unlinked).1 = none) ∧
    (∀ h b written, w.1.writing = some ⟨h, b, false⟩ → Orderly S w (.persistItem written) →
      Store.Spares w.1 (next S w.1 (.persistItem written)) h b) ∧
    ∀ h b, w.1.writing = some ⟨h, b, true⟩ → Orderly S w .finishItem →
      Store.Spares w.1 (next S w.1 .finishItem) h b := by
  have hm : w.1.Mapped w.2 := by
    refine hrun.invariant (I := fun w => w.1.Mapped w.2) (fun w hs => ?_) (fun w op _ hm hop => nextHeld_mapped hm hop)
    rw [hs.2]
    exact Store.start_mapped hs.1
  refine ⟨fun h now readable unlinked data hload => hm.load hload, fun h now readable unlinked hnone => ?_,
    fun h b written hw hop => hm.persist_spares hw (hop h b hw).1 written (hop h b hw).2,
    fun h b hw hop => hm.finish_spares hw (hop h b hw)⟩
  rw [Option.eq_none_iff_forall_ne_some]
  intro data hload
  obtain ⟨d, hd, -⟩ := hm.load hload
  rw [hnone] at hd
  cases hd

def sampled : Settings Nat Nat :=
  { tensorBytes := fun _ => 10
    numLayers := fun _ => 1
    contentSignature := fun data => data % 10
    dumps := fun _ _ _ _ => "" }

def bareDisk : Store Nat Nat Nat :=
  (Store.opened (fun _ => ⟨0, 0, 0, 0, "", 0, "", none, none⟩) (fun _ => none) none).scanDiskIndex sampled
    .empty [] 100 []

theorem bareDisk_start : StartHeld sampled (bareDisk, bareDisk.files) :=
  ⟨⟨_, ⟨_, fun _ => none, none, fun _ _ hfile => absurd hfile (by simp), rfl⟩, _, _, _, _, rfl⟩, rfl⟩

def storing (data : Nat) (queued : Bool) : SaveCall Nat :=
  { data := some data, verifyContent := true, now := 1, queued, written := some 10, live := [], effective := 100 }

def savedAgain : List (Op Nat Nat) :=
  [.saveBlock 1 (storing 7 true), .takeItem, .persistItem (some 10), .finishItem, .deleteBlock 1 true,
    .saveBlock 1 (storing 8 true)]

theorem loads_held_again :
    ((runList (nextHeld sampled) (bareDisk, bareDisk.files) savedAgain).1.loadBlock sampled 1 2 true true).1 = some 8 ∧
      ∃ d, (runList (nextHeld sampled) (bareDisk, bareDisk.files) savedAgain).2 1 = some d ∧ d.data = 8 := by
  have hok : AllOk (Orderly sampled) (nextHeld sampled) (bareDisk, bareDisk.files) savedAgain := by
    refine ⟨fun hd => absurd hd (by decide), trivial, fun h b hw => ?_, fun h b hw => ?_, trivial,
      fun hd => absurd hd (by decide), trivial⟩
    · cases hw
      exact ⟨fun d hd => by cases hd; rfl, fun hnone => by cases hnone⟩
    · cases hw
      exact fun d hd => by cases hd; rfl
  have hload :
      ((runList (nextHeld sampled) (bareDisk, bareDisk.files) savedAgain).1.loadBlock sampled 1 2 true true).1 = some 8 := by
    decide
  exact ⟨hload, (loads_held (Reached.runList (.start bareDisk_start) hok)).1 1 2 true true 8 hload⟩

/-- A pending block is still loaded after `clear`; an older item of the queue is written over the file of a newer
save that was written inline; and its failure takes the index entry of the newer save. -/
theorem loads_deleted_and_old :
    (∃ w, Reached (StartHeld sampled) (fun _ _ => True) (nextHeld sampled) w ∧ w.2 1 = none ∧
      (w.1.loadBlock sampled 1 2 true true).1 = some 7) ∧
    (∃ w d, Reached (StartHeld sampled) (fun _ _ => True) (nextHeld sampled) w ∧ w.2 1 = some d ∧ d.data = 8 ∧
      (w.1.loadBlock sampled 1 2 true true).1 = some 7) ∧
    ∃ w b, Reached (StartHeld sampled) (fun _ _ => True) (nextHeld sampled) w ∧ w.1.writing = some ⟨1, b, false⟩ ∧
      ¬ Store.Spares w.1 (next sampled w.1 (.persistItem none)) 1 b := by
  have hreach : ∀ l, Reached (StartHeld sampled) (fun _ _ => True) (nextHeld sampled)
      (runList (nextHeld sampled) (bareDisk, bareDisk.files) l) := by
    intro l
    refine Reached.runList (.start bareDisk_start) ?_
    generalize (bareDisk, bareDisk.files) = w
    induction l generalizing w with
    | nil => trivial
    | cons op l ih => exact ⟨trivial, ih _⟩
  refine ⟨⟨_, hreach [.saveBlock 1 (storing 7 true), .clear []], rfl, by decide⟩,
    ⟨_, ⟨8, 2⟩, hreach [.saveBlock 1 (storing 7 true), .saveBlock 1 (storing 8 false), .dropHot 1, .takeItem,
      .persistItem (some 10), .finishItem], rfl, rfl, by decide⟩,
    ⟨_, ⟨7, 1⟩, hreach [.saveBlock 1 (storing 7 true), .saveBlock 1 (storing 8 true), .takeItem], rfl,
      fun hspares => ?_⟩⟩
  have hkept := hspares.index 2 (by decide) (by decide)
  exact absurd hkept (by decide)

end FusionMlx.PagedSsdCache
