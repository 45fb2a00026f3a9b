import FusionMlx.Cache.MemoryRepresentation
import FusionMlx.Cache.SnapshotSwap

/-!
# From one memory cache to the next

`save_to_disk` writes out the entries of a memory cache, and another cache loads what the
directories hold then.
-/
namespace FusionMlx.SnapshotReload

open MemoryPrefixCache MemoryRepresentation OrderedDict SnapshotSwap
open MemoryCache (loadEntries offsetMismatch readEntry)

variable {κ : Type} {L : LayerOps κ} {g : MemoryCacheConfig} {fs : Fs κ} {a : Attempt κ}

def attempt (persist : List κ → List κ) (types : List κ → List String)
    (outcome : Tokens → Outcome) (indexRaises : Option Bool) (c : MemoryCache κ) : Attempt κ where
  entries := c.entries.entries.map fun p =>
    ⟨p.1, persist p.2.cache, p.2.memoryBytes, types (persist p.2.cache), outcome p.1⟩
  indexRaises := indexRaises

def restored (L : LayerOps κ) (g : MemoryCacheConfig) (e : SavedEntry κ) : Option (CacheEntry κ) :=
  if cacheClassesCompatible e.cacheTypes g ∧ ¬ offsetMismatch L e.tokens e.layers then
    some ⟨e.tokens, e.layers, L.memory e.layers⟩
  else none

theorem restored_tokens {e : SavedEntry κ} {r : CacheEntry κ} (h : restored L g e = some r) :
    r.tokens = e.tokens := by
  unfold restored at h
  split at h <;> cases h
  rfl

theorem readEntry_saved (e : SavedEntry κ) (i : Nat) :
    readEntry L g (diskEntry (e.record i, some (.cache e.layers), some (.tokens e.tokens))) =
      restored L g e := by
  by_cases hc : cacheClassesCompatible e.cacheTypes g <;>
    by_cases ho : offsetMismatch L e.tokens e.layers <;>
      simp [readEntry, MemoryCache.intact, diskEntry, SavedEntry.record, restored, Nat.mul_comm, hc, ho]

/-- What a save has recorded comes back, up to the keys that are there already. -/
theorem newEntries_records {es : List (SavedEntry κ)} (hn : (es.map SavedEntry.tokens).Nodup)
    (keys : List Tokens) (i : Nat) :
    newEntries L g keys ((recordsFrom i es).map fun p =>
      diskEntry (p.1, some (.cache p.2.layers), some (.tokens p.2.tokens))) =
      ((es.filter SavedEntry.saved).filterMap (restored L g)).filter (·.tokens ∉ keys) := by
  induction es generalizing keys i with
  | nil => rfl
  | cons e es ih =>
    obtain ⟨hnew, hn⟩ := List.nodup_cons.mp hn
    rw [recordsFrom]
    cases hs : e.saved with
    | false => simpa [hs] using ih hn keys (i + 1)
    | true =>
      simp only [if_true, List.map_cons, newEntries, readEntry_saved, List.filter_cons, hs,
        List.filterMap_cons]
      cases hr : restored L g e with
      | none => exact ih hn keys (i + 1)
      | some r =>
        dsimp only
        rw [List.filter_cons]
        by_cases hk : r.tokens ∈ keys
        · simpa [hk] using ih hn keys (i + 1)
        · simp only [hk, if_false, not_false_eq_true, decide_true, if_true, List.cons.injEq, true_and]
          rw [ih hn]
          refine List.filter_congr fun r' hr' => ?_
          obtain ⟨e', he', hr'⟩ := List.mem_filterMap.mp hr'
          have hne : r'.tokens ≠ r.tokens := by
            rw [restored_tokens hr, restored_tokens hr']
            exact fun h => hnew (h ▸ List.mem_map_of_mem (List.mem_of_mem_filter he'))
          simp [hne]

theorem recover_eq (fs : Fs κ) : fs.disk.recover = fs.repair.main.bind Dir.snapshot := by
  unfold Disk.recover Fs.repair Fs.disk
  cases hm : fs.main with
  | some d => rfl
  | none =>
    simp only [Option.map_none, hasValidIndex_snapshot]
    split
    · cases fs.new <;> rfl
    · split
      · cases fs.old <;> rfl
      · rw [hm]
        rfl

/-- The old snapshot has been renamed away, if there was one. -/
def Retired (fs : Fs κ) (a : Attempt κ) (stop : Option Stop) : Prop :=
  ∀ t, stop = some t → fs.main = none ∨ a.staging.length + 1 < t.after

/-- Behind the first rename there is no snapshot, or no staging any more. -/
theorem main_of_retired {t : Stop} (hcommits : a.commits = true) (ht : a.staging.length + 1 < t.after) :
    (fs.save a (some t)).main = none ∨ (fs.save a (some t)).new = none := by
  have hcalls : a.calls = a.staging ++ a.swap := by
    simp only [Attempt.commits, Bool.and_eq_true, Bool.not_eq_true', List.isEmpty_eq_false_iff,
      Option.isNone_iff_eq_none] at hcommits
    have hne : a.entries ≠ [] := fun h => hcommits.1 (by simp [Attempt.records, h, recordsFrom])
    rw [Attempt.calls, if_neg hne, if_neg hcommits.1, hcommits.2]
  have hbehind : ∀ fs : Fs κ, fs.main = none → ∀ k,
      (fs.interrupt { t with after := k } [.promote, .rmtree .old]).main = none ∨
        (fs.interrupt { t with after := k } [.promote, .rmtree .old]).new = none := by
    intro fs hmain k
    cases k with
    | zero => exact .inl hmain
    | succ k =>
      have hpromoted : (fs.finish .promote).main = none ∨ (fs.finish .promote).new = none := by
        unfold Fs.finish
        dsimp only
        split
        · exact .inr rfl
        · exact .inl hmain
      rw [Fs.interrupt_cons_succ _ rfl]
      cases k <;> exact hpromoted
  obtain ⟨k, hk⟩ : ∃ k, t.after - a.staging.length = k + 2 := ⟨_, (Nat.sub_add_cancel (by omega)).symm⟩
  rw [Fs.save, hcalls, Fs.interrupt_append, if_neg (by omega), hk, Attempt.swap,
    Fs.interrupt_cons_succ _ rfl, Fs.interrupt_cons_succ _ rfl]
  refine hbehind _ ?_ k
  generalize (fs.complete a.staging).finish (.write .index (.index 2 a.records)) = staged
  unfold Fs.finish
  dsimp only
  split
  · rfl
  · next hno => simpa using hno

/-- The directory that such a save has put in place. -/
theorem repaired_of_done {stop : Option Stop} (hdone : a.indexDone stop) (hretired : Retired fs a stop) :
    ∃ d, (fs.save a stop).repair.main = some d ∧ ∃ version, 2 ≤ version ∧
      d.snapshot = some ⟨version, a.content.map diskEntry⟩ := by
  have hne : a.entries ≠ [] := by
    intro h
    simp [Attempt.indexDone, Attempt.commits, Attempt.records, h, recordsFrom] at hdone
  have hlong : ∀ t, stop = some t → 2 < t.after := fun t ht =>
    Nat.lt_of_le_of_lt (by simp [Attempt.staging]) (hdone.2 t ht)
  rcases save_cases hne fs stop with ⟨t, ht, h, -⟩ | ⟨t, ht, h, -⟩ | ⟨h, -⟩ | ⟨-, d, hread, hvalid, hs⟩
  · exact absurd (hlong t ht) (by omega)
  · exact absurd (hlong t ht) (by omega)
  · exact absurd hdone h
  · refine ⟨d, ?_, ?_⟩
    · rcases hs with ⟨hsome, h | h⟩ | ⟨_, h⟩
      · obtain ⟨t, rfl⟩ := Option.isSome_iff_exists.mp hsome
        have hmain : fs.main = none := by
          rcases hretired t rfl with hmain | ht
          · exact hmain
          · have hgone : (fs.save a (some t)).main = none ∨ _ := main_of_retired hdone.1 ht
            rw [h] at hgone
            exact hgone.resolve_right (by simp)
        rw [h]
        simp [Fs.repair, hmain, hvalid]
      · rw [h]
        simp [Fs.repair, hvalid]
      · rw [h]
        rfl
    · simp only [SnapshotSwap.hasValidIndex, Dir.read, Dir.snapshot] at hvalid hread ⊢
      split at hvalid
      · next hindex =>
        rw [hindex] at hread ⊢
        simp only [Bool.and_eq_true, decide_eq_true_eq] at hvalid
        refine ⟨_, hvalid.1.1, ?_⟩
        rw [← Option.some.inj hread, List.map_map]
        rfl
      · cases hvalid

end FusionMlx.SnapshotReload
