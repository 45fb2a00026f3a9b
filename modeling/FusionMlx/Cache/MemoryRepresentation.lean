import FusionMlx.Cache.MemoryPrefixCache
import FusionMlx.Support.Runs

/-!
# What the memory-aware prefix cache keeps in step

The sorted index lists the keys of the table, the memory counter is the sum of
the entry sizes and stays within the limit, after every call. The number of
entries stays within its limit after every call but a load, which checks the
memory limit only.
-/
namespace FusionMlx.MemoryRepresentation

open BlockHashing (PyError)
open OrderedDict SortedIndex Runs MemoryPrefixCache

variable {κ : Type} {L : LayerOps κ} {c c' : MemoryCache κ} {k : Tokens}

def total (es : List (CacheEntry κ)) : Nat := (es.map CacheEntry.memoryBytes).sum

def held (c : MemoryCache κ) : List (CacheEntry κ) := c.entries.entries.map Prod.snd

structure Indexed (c : MemoryCache κ) : Prop where
  sorted : c.sortedKeys.Pairwise (· < ·)
  keys : ∀ k, k ∈ c.sortedKeys ↔ k ∈ c.entries.keys
  tokens : ∀ k e, c.entries.get? k = some e → e.tokens = k
  memory : c.currentMemory = total (held c)

structure Configured (c : MemoryCache κ) : Prop where
  limit : c.maxMemory = c.config.computeMemoryLimit
  entries : 1 ≤ c.config.maxEntries

structure Within (c : MemoryCache κ) : Prop where
  memory : c.currentMemory ≤ c.maxMemory
  count : (c.entries.keys.length : Int) ≤ c.config.maxEntries

/-- `c'` has what `c` has, in another order of use. -/
structure Reordered (c c' : MemoryCache κ) : Prop where
  config : c'.config = c.config
  maxMemory : c'.maxMemory = c.maxMemory
  currentMemory : c'.currentMemory = c.currentMemory
  sortedKeys : c'.sortedKeys = c.sortedKeys
  entries : c'.entries.entries.Perm c.entries.entries

/-- `c'` has some of what `c` has. -/
structure Shrunk (c c' : MemoryCache κ) : Prop where
  config : c'.config = c.config
  maxMemory : c'.maxMemory = c.maxMemory
  memory : c'.currentMemory ≤ c.currentMemory
  count : c'.entries.keys.length ≤ c.entries.keys.length
  keys : ∀ k, k ∈ c'.entries.keys → k ∈ c.entries.keys

theorem Reordered.refl (c : MemoryCache κ) : Reordered c c := ⟨rfl, rfl, rfl, rfl, .rfl⟩

theorem Shrunk.refl (c : MemoryCache κ) : Shrunk c c :=
  ⟨rfl, rfl, le_refl _, Nat.le_refl _, fun _ => id⟩

theorem Shrunk.trans {c'' : MemoryCache κ} (h : Shrunk c c') (h' : Shrunk c' c'') : Shrunk c c'' where
  config := h'.config.trans h.config
  maxMemory := h'.maxMemory.trans h.maxMemory
  memory := h'.memory.trans h.memory
  count := h'.count.trans h.count
  keys := fun k hk => h.keys k (h'.keys k hk)

theorem Reordered.indexed (h : Reordered c c') (hc : Indexed c) : Indexed c' where
  sorted := by
    rw [h.sortedKeys]
    exact hc.sorted
  keys := by
    intro k
    rw [h.sortedKeys, hc.keys, Dict.mem_keys_of_perm h.entries]
  tokens := by
    intro k e he
    rw [Dict.get?_of_perm h.entries] at he
    exact hc.tokens k e he
  memory := by
    rw [h.currentMemory, hc.memory, total, total, held, held]
    exact congrArg _ (((h.entries.map Prod.snd).map CacheEntry.memoryBytes).sum_eq).symm

theorem Reordered.within (h : Reordered c c') (hc : Within c) : Within c' where
  memory := by
    rw [h.currentMemory, h.maxMemory]
    exact hc.memory
  count := by
    rw [h.config, Dict.keys, (h.entries.map Prod.fst).length_eq]
    exact hc.count

theorem Shrunk.configured (h : Shrunk c c') (hc : Configured c) : Configured c' := by
  constructor
  · rw [h.maxMemory, h.config]
    exact hc.limit
  · rw [h.config]
    exact hc.entries

theorem Shrunk.within (h : Shrunk c c') (hc : Within c) : Within c' := by
  constructor
  · rw [h.maxMemory]
    exact h.memory.trans hc.memory
  · rw [h.config]
    exact (Int.ofNat_le.mpr h.count).trans hc.count

theorem moveToEnd_reordered (c : MemoryCache κ) (k : Tokens) : Reordered c (c.moveToEnd k).2 := by
  unfold MemoryCache.moveToEnd
  split
  · exact .refl c
  · rename_i e he
    refine ⟨rfl, rfl, rfl, rfl, ?_⟩
    have hno : k ∉ (c.entries.erase k).keys := by simp [Dict.mem_keys_erase]
    rw [Dict.entries_set_new hno]
    exact (List.perm_append_singleton _ _).trans (Dict.entries_perm_erase he).symm

theorem moveToEnd_ok (h : k ∈ c.entries.keys) : (c.moveToEnd k).1 = .ok () := by
  obtain ⟨e, he⟩ := (c.entries.mem_keys_iff k).mp h
  simp [MemoryCache.moveToEnd, he]

theorem drop_ok (h : k ∈ c.entries.keys) : (c.drop k).1 = .ok () := by
  obtain ⟨e, he⟩ := (c.entries.mem_keys_iff k).mp h
  simp [MemoryCache.drop, he]

variable {e : CacheEntry κ}

/-- The memory of the entries, one of them apart. -/
theorem total_held (he : c.entries.get? k = some e) :
    total (held c) = e.memoryBytes + ((c.entries.erase k).entries.map (fun p => p.2.memoryBytes)).sum := by
  rw [total, held, List.map_map]
  exact ((Dict.entries_perm_erase he).map _).sum_eq

theorem drop_indexed (h : Indexed c) (k : Tokens) : Indexed (c.drop k).2 := by
  unfold MemoryCache.drop
  split
  · rename_i hno
    rw [Dict.get?_eq_none_iff] at hno
    refine ⟨removeSorted_sorted h.sorted, ?_, h.tokens, h.memory⟩
    intro k'
    rw [mem_removeSorted h.sorted, h.keys]
    constructor
    · exact And.left
    · intro hk
      refine ⟨hk, ?_⟩
      rintro rfl
      exact hno hk
  · rename_i e he
    refine ⟨removeSorted_sorted h.sorted, ?_, ?_, ?_⟩
    · intro k'
      rw [mem_removeSorted h.sorted, h.keys, Dict.mem_keys_erase]
    · intro k' e' he'
      exact h.tokens k' e' (Dict.get?_of_erase he')
    · have hm := h.memory
      rw [total_held he] at hm
      simp only [total, held, List.map_map]
      rw [hm]
      push_cast
      exact add_sub_cancel_left _ _

theorem drop_shrunk (c : MemoryCache κ) (k : Tokens) : Shrunk c (c.drop k).2 := by
  unfold MemoryCache.drop
  split
  · exact ⟨rfl, rfl, le_refl _, Nat.le_refl _, fun _ => id⟩
  · refine ⟨rfl, rfl, ?_, ?_, ?_⟩
    · exact Int.sub_le_self _ (Int.natCast_nonneg _)
    · exact (List.Sublist.map _ List.filter_sublist).length_le
    · intro k' hk'
      exact (Dict.mem_keys_erase.mp hk').1

theorem insert_indexed (h : Indexed c) (hno : e.tokens ∉ c.entries.keys) :
    Indexed (c.insert e) where
  sorted := insort_sorted h.sorted (by rwa [h.keys])
  keys := by
    intro k
    simp only [MemoryCache.insert]
    rw [mem_insort, h.keys, Dict.mem_keys_set]
  tokens := by
    intro k e' he'
    simp only [MemoryCache.insert] at he'
    rw [Dict.get?_set] at he'
    split at he'
    · rename_i heq
      rw [Option.some.injEq] at he'
      rw [← he', heq]
    · exact h.tokens k e' he'
  memory := by
    have hentries : held (c.insert e) = held c ++ [e] := by
      simp only [held, MemoryCache.insert, Dict.entries_set_new hno, List.map_append, List.map_cons,
        List.map_nil]
    have hm := h.memory
    rw [hentries]
    simp only [total, List.map_append, List.sum_append, List.map_cons, List.map_nil,
      List.sum_cons, List.sum_nil] at hm ⊢
    simp only [MemoryCache.insert]
    omega

theorem insert_count (hno : e.tokens ∉ c.entries.keys) :
    (c.insert e).entries.keys.length = c.entries.keys.length + 1 := by
  simp only [MemoryCache.insert]
  rw [Dict.keys_set_new hno, List.length_append]
  rfl

theorem hit_reordered (c : MemoryCache κ) (m : Match κ) : Reordered c (c.hit m).2 := by
  have h := moveToEnd_reordered c m.entry.tokens
  unfold MemoryCache.hit
  split <;> simp_all

theorem matchLcp_reordered (c : MemoryCache κ) (tokens : Tokens) :
    Reordered c (c.matchLcp L tokens).2 := by
  unfold MemoryCache.matchLcp
  split
  · exact .refl c
  · exact .refl c
  · split
    · exact hit_reordered c _
    · exact .refl c

theorem matchLocked_reordered (c : MemoryCache κ) (tokens : Tokens) :
    Reordered c (c.matchLocked L tokens).2 := by
  unfold MemoryCache.matchLocked
  split
  · exact moveToEnd_reordered c tokens
  · simp only
    split
    · exact .refl c
    · exact .refl c
    · split
      · exact hit_reordered c _
      · exact hit_reordered c _
      · exact matchLcp_reordered c tokens

theorem fetch_reordered (c : MemoryCache κ) (tokens : Tokens) : Reordered c (c.fetch L tokens).2 := by
  have h := matchLocked_reordered (L := L) c tokens
  unfold MemoryCache.fetch
  split
  · exact .refl c
  · split <;> simp_all

theorem dropAll_indexed (h : Indexed c) (keys : List Tokens) :
    Indexed (MemoryCache.dropAll keys c).2 ∧ Shrunk c (MemoryCache.dropAll keys c).2 := by
  induction keys generalizing c with
  | nil => exact ⟨h, .refl c⟩
  | cons key rest ih =>
    have hi := drop_indexed h key
    have hs := drop_shrunk c key
    rw [MemoryCache.dropAll]
    split <;> rename_i heq <;> rw [heq] at hi hs
    · exact ⟨hi, hs⟩
    · exact ⟨(ih hi).1, hs.trans (ih hi).2⟩

/-- Distinct keys that are present are all dropped. -/
theorem dropAll_ok {keys : List Tokens} (hn : keys.Nodup) (hk : ∀ k ∈ keys, k ∈ c.entries.keys) :
    (MemoryCache.dropAll keys c).1 = .ok () := by
  induction keys generalizing c with
  | nil => rfl
  | cons key rest ih =>
    rw [List.nodup_cons] at hn
    have hkey := hk key (List.mem_cons_self ..)
    have hok := drop_ok hkey
    rw [MemoryCache.dropAll]
    split <;> rename_i heq
    · rw [heq] at hok
      simp at hok
    · apply ih hn.2
      intro k hkr
      have hmem := hk k (List.mem_cons_of_mem _ hkr)
      obtain ⟨e, he⟩ := (c.entries.mem_keys_iff key).mp hkey
      simp only [MemoryCache.drop, he, Prod.mk.injEq, true_and] at heq
      rw [← heq]
      refine Dict.mem_keys_erase.mpr ⟨hmem, ?_⟩
      rintro rfl
      exact hn.1 hkr

theorem evictLru_ok (c : MemoryCache κ) : c.evictLru.1 = .ok () := by
  unfold MemoryCache.evictLru
  split
  · rfl
  · rename_i key rest hk
    apply drop_ok
    rw [hk]
    exact List.mem_cons_self ..

/-- An eviction takes out one entry. -/
theorem evictLru_indexed (h : Indexed c) (hne : c.entries.keys ≠ []) :
    Indexed c.evictLru.2 ∧ Shrunk c c.evictLru.2 ∧
      c.evictLru.2.entries.keys.length + 1 = c.entries.keys.length := by
  cases hk : c.entries.keys with
  | nil => exact absurd hk hne
  | cons key rest =>
    have heq : c.evictLru = c.drop key := by
      simp only [MemoryCache.evictLru]
      rw [hk]
    have hmem : key ∈ c.entries.keys := by
      rw [hk]
      exact List.mem_cons_self ..
    obtain ⟨e, he⟩ := (c.entries.mem_keys_iff key).mp hmem
    have hlen := (Dict.entries_perm_erase he).length_eq
    rw [heq]
    refine ⟨drop_indexed h key, drop_shrunk c key, ?_⟩
    rw [← hk]
    simp only [MemoryCache.drop, he, Dict.keys, List.length_map, List.length_cons] at hlen ⊢
    omega

theorem evictUntilRoom_indexed (h : Indexed c) (size fuel : Nat) :
    (MemoryCache.evictUntilRoom size fuel c).1 = .ok () ∧
      Indexed (MemoryCache.evictUntilRoom size fuel c).2 ∧
      Shrunk c (MemoryCache.evictUntilRoom size fuel c).2 := by
  induction fuel generalizing c with
  | zero => exact ⟨rfl, h, .refl c⟩
  | succ fuel ih =>
    rw [MemoryCache.evictUntilRoom]
    split
    · rename_i hcr
      obtain ⟨hi, hs, -⟩ := evictLru_indexed h hcr.2
      have hok := evictLru_ok c
      split <;> rename_i heq <;> rw [heq] at hi hs hok
      · simp at hok
      · obtain ⟨hok', hi', hs'⟩ := ih hi
        exact ⟨hok', hi', hs.trans hs'⟩
    · exact ⟨rfl, h, .refl c⟩

/-- As many rounds as there are entries make room, or empty the cache. -/
theorem evictUntilRoom_room (h : Indexed c) {n fuel : Nat} (hf : c.entries.keys.length ≤ fuel) :
    ¬ (MemoryCache.evictUntilRoom n fuel c).2.crowded n := by
  induction fuel generalizing c with
  | zero =>
    rintro ⟨-, hne⟩
    exact hne (List.eq_nil_of_length_eq_zero (Nat.le_zero.mp hf))
  | succ fuel ih =>
    rw [MemoryCache.evictUntilRoom]
    split
    · rename_i hcr
      obtain ⟨hi, -, hlen⟩ := evictLru_indexed h hcr.2
      have hok := evictLru_ok c
      split <;> rename_i heq <;> rw [heq] at hi hlen hok
      · simp at hok
      · simp only at hlen
        exact ih hi (by omega)
    · assumption

/-- Where there is room, a new entry of an admissible size fits. -/
theorem insert_within (h : Indexed c) (hg : Configured c)
    (hno : e.tokens ∉ c.entries.keys) (hfit : (e.memoryBytes : Int) ≤ c.maxMemory)
    (hroom : ¬ c.crowded e.memoryBytes) : Within (c.insert e) := by
  have hcases : (c.currentMemory + e.memoryBytes ≤ c.maxMemory ∧
      (c.entries.keys.length : Int) < c.config.maxEntries) ∨ c.entries.keys = [] := by
    unfold MemoryCache.crowded at hroom
    by_cases hne : c.entries.keys = []
    · exact .inr hne
    · left
      simp only [ne_eq, hne, not_false_eq_true, and_true, not_or, not_lt, not_le] at hroom
      exact hroom
  have hmem : (c.insert e).currentMemory = c.currentMemory + e.memoryBytes := rfl
  have hmax : (c.insert e).maxMemory = c.maxMemory := rfl
  have hcount : (c.insert e).config = c.config := rfl
  constructor
  · rw [hmem, hmax]
    cases hcases with
    | inl hin => exact hin.1
    | inr hnil =>
      have hzero : c.currentMemory = 0 := by
        rw [h.memory, held, List.map_eq_nil_iff.mp hnil]
        rfl
      omega
  · rw [hcount, insert_count hno]
    have hone := hg.entries
    cases hcases with
    | inl hin =>
      push_cast
      omega
    | inr hnil =>
      rw [hnil]
      simpa using hone

theorem prefixKeys_sublist (tokens : Tokens) (keys : List Tokens) :
    (MemoryCache.prefixKeys tokens keys).Sublist keys := by
  induction keys with
  | nil => exact .slnil
  | cons key rest ih =>
    rw [MemoryCache.prefixKeys]
    split
    · exact ih.cons key
    · split
      · exact ih.cons_cons key
      · split
        · exact List.nil_sublist _
        · exact ih.cons key

/-- The keys that the prefix scan finds are distinct and present. -/
theorem prefixKeys_present (h : Indexed c) (tokens : Tokens) (evictPrefixes : Bool) (n : Nat) :
    ((if evictPrefixes then MemoryCache.prefixKeys tokens (c.sortedKeys.take n).reverse
      else []).Nodup) ∧
    ∀ k ∈ (if evictPrefixes then MemoryCache.prefixKeys tokens (c.sortedKeys.take n).reverse
      else []), k ∈ c.entries.keys := by
  have hn : c.sortedKeys.Nodup := h.sorted.imp ne_of_lt
  have hsub := prefixKeys_sublist tokens (c.sortedKeys.take n).reverse
  cases evictPrefixes with
  | false => simp
  | true =>
    simp only [if_true]
    refine ⟨(List.nodup_reverse.mpr (hn.sublist (List.take_sublist _ _))).sublist hsub, ?_⟩
    intro k hk
    rw [← h.keys]
    exact List.mem_of_mem_take (List.mem_reverse.mp (hsub.subset hk))

/-- A store of an entry marks a present key as used, or makes room and inserts. -/
theorem storeEntry_spec (h : Indexed c) (e : CacheEntry κ) (evictPrefixes : Bool) :
    (c.storeEntry e evictPrefixes).1 = .ok true ∧
      (Reordered c (c.storeEntry e evictPrefixes).2 ∨
        ∃ c₁, (c.storeEntry e evictPrefixes).2 = c₁.insert e ∧ Indexed c₁ ∧ Shrunk c c₁ ∧
          e.tokens ∉ c₁.entries.keys ∧ ¬ c₁.crowded e.memoryBytes) := by
  unfold MemoryCache.storeEntry
  split
  · rename_i hmem
    rw [moveToEnd_ok hmem]
    exact ⟨rfl, .inl (moveToEnd_reordered c e.tokens)⟩
  · rename_i hno
    obtain ⟨hn, hk⟩ := prefixKeys_present h e.tokens evictPrefixes
      (bisectLeft c.sortedKeys e.tokens)
    have hdok := dropAll_ok hn hk
    have hd := dropAll_indexed h (if evictPrefixes then MemoryCache.prefixKeys e.tokens
      (c.sortedKeys.take (bisectLeft c.sortedKeys e.tokens)).reverse else [])
    simp only
    split <;> rename_i hdrop <;> rw [hdrop] at hd hdok
    · simp at hdok
    · rename_i c₁
      obtain ⟨heok, hi, hs⟩ := evictUntilRoom_indexed hd.1 e.memoryBytes c₁.entries.keys.length
      have hroom := evictUntilRoom_room hd.1 (n := e.memoryBytes) (Nat.le_refl _)
      simp only at hroom
      split <;> rename_i hevict <;> rw [hevict] at heok hi hs hroom
      · simp at heok
      · have hall := hd.2.trans hs
        exact ⟨rfl, .inr ⟨_, rfl, hi, hall, fun hk' => hno (hall.keys _ hk'), hroom⟩⟩

/-- The invariant of the calls that are not loads. -/
structure Kept (c c' : MemoryCache κ) : Prop where
  config : c'.config = c.config
  maxMemory : c'.maxMemory = c.maxMemory
  indexed : Indexed c'
  within : Within c → Within c'

theorem Reordered.kept (h : Reordered c c') (hc : Indexed c) : Kept c c' :=
  ⟨h.config, h.maxMemory, h.indexed hc, h.within⟩

theorem store_kept (h : Indexed c) (hg : Configured c) (tokens : Tokens) (cache : List κ)
    (evictPrefixes : Bool) : Kept c (c.store L tokens cache evictPrefixes).2 := by
  unfold MemoryCache.store
  split
  · exact (Reordered.refl c).kept h
  · split
    · exact (moveToEnd_reordered c tokens).kept h
    · simp only
      split
      · exact (Reordered.refl c).kept h
      · rename_i hfit
        obtain ⟨-, hr | ⟨c₁, heq, hi, hs, hno, hroom⟩⟩ := storeEntry_spec h
          ⟨tokens, MemoryCache.compress L c.config tokens cache,
            L.memory (MemoryCache.compress L c.config tokens cache)⟩ evictPrefixes
        · exact hr.kept h
        · rw [heq]
          refine ⟨hs.config, hs.maxMemory, insert_indexed hi hno, fun _ => ?_⟩
          refine insert_within hi (hs.configured hg) hno ?_ hroom
          rw [hs.maxMemory]
          exact Int.not_lt.mp hfit

theorem remove_kept (h : Indexed c) (tokens : Tokens) : Kept c (c.remove tokens).2 := by
  unfold MemoryCache.remove
  split
  · have hs := drop_shrunk c tokens
    exact ⟨hs.config, hs.maxMemory, drop_indexed h tokens, hs.within⟩
  · exact (Reordered.refl c).kept h

theorem clear_indexed (c : MemoryCache κ) : Indexed c.clear where
  sorted := List.Pairwise.nil
  keys := fun k => by simp [MemoryCache.clear, Dict.keys, Dict.empty]
  tokens := fun k e he => by simp [MemoryCache.clear] at he
  memory := rfl

local instance instLawfulBEqTokens : LawfulBEq (List Int) := inferInstance

def newEntries (L : LayerOps κ) (g : MemoryCacheConfig) :
    List Tokens → List (DiskEntry κ) → List (CacheEntry κ)
  | _, [] => []
  | keys, d :: ds =>
    match MemoryCache.readEntry L g d with
    | none => newEntries L g keys ds
    | some e =>
      if e.tokens ∈ keys then newEntries L g keys ds
      else e :: newEntries L g (e.tokens :: keys) ds

def Overfills (L : LayerOps κ) (c : MemoryCache κ) (d : Disk κ) : Prop :=
  ∃ s taken, d.recover = some s ∧ 2 ≤ s.version ∧
    taken <+: newEntries L c.config c.entries.keys s.entries ∧
    c.currentMemory + total taken ≤ c.maxMemory ∧
    c.config.maxEntries < c.entries.keys.length + taken.length

theorem newEntries_congr {keys keys' : List Tokens} (h : ∀ k, k ∈ keys ↔ k ∈ keys')
    (g : MemoryCacheConfig) (ds : List (DiskEntry κ)) :
    newEntries L g keys ds = newEntries L g keys' ds := by
  induction ds generalizing keys keys' with
  | nil => rfl
  | cons d ds ih =>
    rw [newEntries, newEntries]
    split
    · exact ih h
    · rename_i e _
      simp only [h e.tokens]
      split
      · exact ih h
      · congr 1
        apply ih
        intro k
        rw [List.mem_cons, List.mem_cons, h]

/-- `c'` is `c` with the entries `taken` put in, within the memory limit. -/
structure Loaded (c c' : MemoryCache κ) (taken : List (CacheEntry κ)) : Prop where
  indexed : Indexed c'
  config : c'.config = c.config
  maxMemory : c'.maxMemory = c.maxMemory
  memory : c'.currentMemory = c.currentMemory + total taken
  fits : c.currentMemory + total taken ≤ c.maxMemory
  count : c'.entries.keys.length = c.entries.keys.length + taken.length

theorem total_cons (e : CacheEntry κ) (es : List (CacheEntry κ)) :
    total (e :: es) = e.memoryBytes + total es := by
  simp [total]

theorem loadEntries_indexed (h : Indexed c) (ds : List (DiskEntry κ)) :
    Indexed (MemoryCache.loadEntries L ds c).2 := by
  induction ds generalizing c with
  | nil => exact h
  | cons d ds ih =>
    rw [MemoryCache.loadEntries]
    split
    · exact ih h
    · split
      · exact ih h
      · next hno =>
        split
        · exact h
        · exact ih (insert_indexed h hno)

theorem loadEntries_limits (ds : List (DiskEntry κ)) (c : MemoryCache κ) :
    (MemoryCache.loadEntries L ds c).2.config = c.config ∧
      (MemoryCache.loadEntries L ds c).2.maxMemory = c.maxMemory := by
  induction ds generalizing c with
  | nil => exact ⟨rfl, rfl⟩
  | cons d ds ih =>
    rw [MemoryCache.loadEntries]
    split
    · exact ih c
    · split
      · exact ih c
      · split
        · exact ⟨rfl, rfl⟩
        · exact ih (c.insert _)

/-- A load puts a beginning of the new entries behind those held, as far as they fit into memory. -/
theorem loadEntries_held (ds : List (DiskEntry κ)) (c : MemoryCache κ) :
    ∃ taken rest, newEntries L c.config c.entries.keys ds = taken ++ rest ∧
      (MemoryCache.loadEntries L ds c).1 = taken.length ∧
      held (MemoryCache.loadEntries L ds c).2 = held c ++ taken ∧
      (MemoryCache.loadEntries L ds c).2.currentMemory = c.currentMemory + total taken ∧
      (taken = [] ∨ c.currentMemory + total taken ≤ c.maxMemory) ∧
      ∀ e ∈ rest.head?, c.maxMemory < c.currentMemory + total taken + e.memoryBytes := by
  induction ds generalizing c with
  | nil => exact ⟨[], [], rfl, rfl, by simp [MemoryCache.loadEntries], by simp [MemoryCache.loadEntries, total],
      .inl rfl, by simp⟩
  | cons d ds ih =>
    rw [MemoryCache.loadEntries, newEntries]
    cases MemoryCache.readEntry L c.config d with
    | none => exact ih c
    | some e =>
      by_cases hmem : e.tokens ∈ c.entries.keys
      · simp only [hmem, if_true]
        exact ih c
      · simp only [hmem, if_false]
        by_cases hbig : c.maxMemory < c.currentMemory + e.memoryBytes
        · simp only [hbig, if_true]
          refine ⟨[], _, rfl, rfl, by simp, by simp [total], .inl rfl, ?_⟩
          intro e' he'
          cases he'
          simpa [total] using hbig
        · simp only [hbig, if_false]
          obtain ⟨taken, rest, hnew, hcount, hheld, hmemory, hfits, hnext⟩ := ih (c.insert e)
          have hkeys : newEntries L c.config (e.tokens :: c.entries.keys) ds = taken ++ rest := by
            refine Eq.trans ?_ hnew
            apply newEntries_congr
            intro k
            simp only [MemoryCache.insert]
            rw [List.mem_cons, Dict.mem_keys_set]
          have hins : (c.insert e).currentMemory = c.currentMemory + e.memoryBytes := rfl
          have hmax : (c.insert e).maxMemory = c.maxMemory := rfl
          have htotal : (total (e :: taken) : Int) = e.memoryBytes + total taken := by
            rw [total_cons, Nat.cast_add]
          rw [hins] at hmemory hfits
          refine ⟨e :: taken, rest, by rw [hkeys, List.cons_append], by simp [hcount], ?_, ?_, .inr ?_, ?_⟩
          · rw [hheld]
            simp [held, MemoryCache.insert, Dict.entries_set_new hmem]
          · omega
          · rcases hfits with rfl | hfits
            · simpa [total] using hbig
            · omega
          · intro e' he'
            have hgt := hnext e' he'
            rw [hins, hmax] at hgt
            omega

theorem loadEntries_taken (h : Indexed c) (hm : c.currentMemory ≤ c.maxMemory)
    (ds : List (DiskEntry κ)) :
    ∃ taken rest, newEntries L c.config c.entries.keys ds = taken ++ rest ∧
      Loaded c (MemoryCache.loadEntries L ds c).2 taken ∧
      ∀ e ∈ rest.head?, c.maxMemory < c.currentMemory + total taken + e.memoryBytes := by
  obtain ⟨taken, rest, hnew, -, hheld, hmemory, hfits, hnext⟩ := loadEntries_held (L := L) ds c
  obtain ⟨hconf, hmax⟩ := loadEntries_limits (L := L) ds c
  refine ⟨taken, rest, hnew, ⟨loadEntries_indexed h ds, hconf, hmax, hmemory, ?_, ?_⟩, hnext⟩
  · rcases hfits with rfl | hfits
    · simpa [total] using hm
    · exact hfits
  · simpa [held, Dict.keys] using congrArg List.length hheld

theorem total_append (es es' : List (CacheEntry κ)) :
    total (es ++ es') = total es + total es' := by
  simp [total]

/-- What a load does, when it reads a snapshot at all. -/
theorem loadFromDisk_cases (c : MemoryCache κ) (d : Disk κ) :
    ((∀ s, d.recover = some s → s.version < 2) ∧ (c.loadFromDisk L d).2 = c) ∨
    ∃ s, d.recover = some s ∧ 2 ≤ s.version ∧
      (c.loadFromDisk L d).2 = (MemoryCache.loadEntries L s.entries c).2 := by
  unfold MemoryCache.loadFromDisk
  cases d.recover with
  | none =>
    left
    simp
  | some s =>
    by_cases hv : s.version < 2
    · left
      constructor
      · intro s' hs'
        cases hs'
        exact hv
      · simp only [if_pos hv]
    · right
      refine ⟨s, rfl, Nat.le_of_not_lt hv, ?_⟩
      simp only [if_neg hv]

/-- A load keeps everything in step, and the number of entries within its
limit exactly when the snapshot does not overfill the cache. -/
theorem loadFromDisk_within_iff (h : Indexed c) (hw : Within c) (d : Disk κ) :
    Indexed (c.loadFromDisk L d).2 ∧ (c.loadFromDisk L d).2.config = c.config ∧
      (c.loadFromDisk L d).2.maxMemory = c.maxMemory ∧
      (Within (c.loadFromDisk L d).2 ↔ ¬ Overfills L c d) := by
  rcases loadFromDisk_cases (L := L) c d with ⟨hnone, heq⟩ | ⟨s, hs, hv, heq⟩
  · rw [heq]
    refine ⟨h, rfl, rfl, fun _ => ?_, fun _ => hw⟩
    rintro ⟨s, taken, hs, hv, -⟩
    have := hnone s hs
    omega
  · obtain ⟨taken, rest, hnew, hload, hnext⟩ := loadEntries_taken (L := L) h hw.memory s.entries
    rw [heq]
    refine ⟨hload.indexed, hload.config, hload.maxMemory, ?_, ?_⟩
    · rintro hw' ⟨s', taken', hs', -, hpre, hfits, hmany⟩
      rw [hs] at hs'
      cases hs'
      rw [hnew] at hpre
      have hcount := hw'.count
      rw [hload.config, hload.count] at hcount
      -- what fits beyond the entries taken would contradict the one that did not fit
      have hlt : taken.length < taken'.length := by
        push_cast at hcount
        omega
      obtain ⟨more, rfl⟩ := List.prefix_of_prefix_length_le (List.prefix_append taken rest) hpre hlt.le
      cases more with
      | nil => simp at hlt
      | cons e more =>
        rw [List.prefix_append_right_inj] at hpre
        obtain ⟨tail, rfl⟩ := hpre
        have hgt := hnext e rfl
        rw [total_append, total_cons] at hfits
        push_cast at hfits
        omega
    · intro hno
      constructor
      · rw [hload.memory, hload.maxMemory]
        exact hload.fits
      · by_contra hmany
        rw [hload.count, hload.config, not_le] at hmany
        refine hno ⟨s, taken, hs, hv, ?_, hload.fits, by exact_mod_cast hmany⟩
        rw [hnew]
        exact List.prefix_append _ _

theorem lookup_ok (h : Indexed c) (hk : k ∈ c.sortedKeys) :
    ∃ e, c.lookup k = .ok e ∧ c.entries.get? k = some e := by
  obtain ⟨e, he⟩ := (c.entries.mem_keys_iff k).mp ((h.keys k).mp hk)
  exact ⟨e, by simp [MemoryCache.lookup, he], he⟩

theorem scanPrefix_ok (h : Indexed c) (tokens : Tokens) {l : List Tokens}
    (hk : ∀ k ∈ l, k ∈ c.sortedKeys) :
    ∃ r, c.scanPrefix tokens l = .ok r ∧ ∀ e ∈ r, c.entries.get? e.tokens = some e := by
  induction l with
  | nil => exact ⟨none, rfl, by simp⟩
  | cons key rest ih =>
    have hrest := ih fun k hkr => hk k (List.mem_cons_of_mem _ hkr)
    rw [MemoryCache.scanPrefix]
    split
    · exact hrest
    · split
      · split
        · obtain ⟨e, hlook, he⟩ := lookup_ok h (hk key (List.mem_cons_self ..))
          refine ⟨some e, by rw [hlook]; rfl, ?_⟩
          intro e' he'
          cases he'
          rwa [h.tokens key e he]
        · exact ⟨none, rfl, by simp⟩
      · split
        · exact ⟨none, rfl, by simp⟩
        · exact hrest

theorem scanSuper_ok (h : Indexed c) (tokens : Tokens) {b : Option (CacheEntry κ)}
    {l : List Tokens} (hb : ∀ e ∈ b, c.entries.get? e.tokens = some e)
    (hk : ∀ k ∈ l, k ∈ c.sortedKeys) :
    ∃ r, c.scanSuper tokens b l = .ok r ∧ ∀ e ∈ r, c.entries.get? e.tokens = some e := by
  induction l generalizing b with
  | nil => exact ⟨b, by rw [MemoryCache.scanSuper], hb⟩
  | cons key rest ih =>
    have hkr : ∀ k ∈ rest, k ∈ c.sortedKeys := fun k hkr => hk k (List.mem_cons_of_mem _ hkr)
    rw [MemoryCache.scanSuper]
    split
    · exact ih hb hkr
    · split
      · split
        · obtain ⟨e, hlook, he⟩ := lookup_ok h (hk key (List.mem_cons_self ..))
          rw [hlook]
          refine ih ?_ hkr
          intro e' he'
          cases he'
          rwa [h.tokens key e he]
        · exact ih hb hkr
      · exact ⟨b, rfl, hb⟩

theorem scanLcp_ok (h : Indexed c) (tokens : Tokens) {b : Option (CacheEntry κ) × Nat}
    {l : List Tokens} (hb : ∀ e ∈ b.1, c.entries.get? e.tokens = some e)
    (hk : ∀ k ∈ l, k ∈ c.sortedKeys) :
    ∃ r, c.scanLcp tokens b l = .ok r ∧ ∀ e ∈ r.1, c.entries.get? e.tokens = some e := by
  induction l generalizing b with
  | nil => exact ⟨b, by rw [MemoryCache.scanLcp], hb⟩
  | cons key rest ih =>
    have hkr : ∀ k ∈ rest, k ∈ c.sortedKeys := fun k hkr => hk k (List.mem_cons_of_mem _ hkr)
    rw [MemoryCache.scanLcp]
    split
    · exact ih hb hkr
    · split
      · exact ih hb hkr
      · split
        · obtain ⟨e, hlook, he⟩ := lookup_ok h (hk key (List.mem_cons_self ..))
          rw [hlook]
          refine ih ?_ hkr
          intro e' he'
          cases he'
          rwa [h.tokens key e he]
        · exact ih hb hkr

theorem hit_ok {m : Match κ} (hm : c.entries.get? m.entry.tokens = some m.entry) :
    (c.hit m).1 = .ok (some m) := by
  have hmem : m.entry.tokens ∈ c.entries.keys := (c.entries.mem_keys_iff _).mpr ⟨_, hm⟩
  have hok := moveToEnd_ok hmem
  unfold MemoryCache.hit
  split
  · rename_i heq
    rw [heq] at hok
    simp at hok
  · rfl

theorem neighbours_sorted (c : MemoryCache κ) (n : Nat) :
    ∀ k ∈ MemoryCache.neighbours c.sortedKeys n, k ∈ c.sortedKeys := by
  intro k hk
  rw [MemoryCache.neighbours, List.mem_append, Option.mem_toList, Option.mem_toList] at hk
  cases hk with
  | inl hk => exact List.mem_of_mem_take (List.mem_of_getLast? hk)
  | inr hk => exact List.mem_of_mem_drop (List.mem_of_mem_head? hk)

/-- What every reachable cache has. -/
structure Represented (c : MemoryCache κ) : Prop where
  configured : Configured c
  indexed : Indexed c
  within : Within c

theorem init_represented {g : MemoryCacheConfig} (h : MemoryCache.init g = .ok c)
    (hg : ∀ mb, g.maxMemoryMb = some mb → 0 ≤ mb) : Represented c := by
  have hone : 1 ≤ g.maxEntries ∧ c = ⟨g, Dict.empty, [], g.computeMemoryLimit, 0⟩ := by
    unfold MemoryCache.init MemoryCacheConfig.validate at h
    by_cases hp : g.percentInRange = false
    · simp [hp] at h
      exact absurd h (by intro h; cases h)
    · by_cases hn : g.maxEntries < 1
      · simp [hp, hn] at h
        exact absurd h (by intro h; cases h)
      · by_cases hq : g.kvMinQuantizeTokens < 0
        · simp [hp, hn, hq] at h
          exact absurd h (by intro h; cases h)
        · simp only [hp, hn, hq, if_false] at h
          refine ⟨by omega, ?_⟩
          cases h
          rfl
  obtain ⟨hone, rfl⟩ := hone
  have hlimit : 0 ≤ g.computeMemoryLimit := by
    unfold MemoryCacheConfig.computeMemoryLimit
    split
    · rename_i mb hmb
      exact Int.mul_nonneg (hg mb hmb) (Int.natCast_nonneg _)
    · split <;> exact Int.natCast_nonneg _
  refine ⟨⟨rfl, hone⟩, ⟨List.Pairwise.nil, ?_, ?_, rfl⟩, ⟨hlimit, ?_⟩⟩
  · intro k
    simp [Dict.keys, Dict.empty]
  · intro k e he
    simp at he
  · simp only [Dict.keys, Dict.empty, List.map_nil, List.length_nil]
    omega

/-- A load is the only call that asks for a condition. -/
def Fits (L : LayerOps κ) (c : MemoryCache κ) : Op κ → Prop
  | .loadFromDisk d => ¬ Overfills L c d
  | _ => True

theorem Kept.represented (h : Kept c c') (hc : Represented c) : Represented c' where
  configured := by
    constructor
    · rw [h.maxMemory, h.config]
      exact hc.configured.limit
    · rw [h.config]
      exact hc.configured.entries
  indexed := h.indexed
  within := h.within hc.within

theorem clear_within (hc : Represented c) (hmax : 0 ≤ c.maxMemory) : Kept c c.clear := by
  refine ⟨rfl, rfl, clear_indexed c, fun _ => ⟨hmax, ?_⟩⟩
  have hone := hc.configured.entries
  simp only [MemoryCache.clear, Dict.keys, Dict.empty, List.map_nil, List.length_nil]
  omega

theorem exec_represented (hc : Represented c) (op : Op κ) (hok : Fits L c op) :
    Represented (exec L c op) := by
  have hsum : 0 ≤ c.currentMemory := by
    rw [hc.indexed.memory]
    exact Int.natCast_nonneg _
  cases op with
  | store tokens cache evictPrefixes =>
    exact (store_kept hc.indexed hc.configured tokens cache evictPrefixes).represented hc
  | fetch tokens => exact ((fetch_reordered c tokens).kept hc.indexed).represented hc
  | remove tokens => exact (remove_kept hc.indexed tokens).represented hc
  | clear => exact (clear_within hc (hsum.trans hc.within.memory)).represented hc
  | loadFromDisk d =>
    obtain ⟨hi, hconf, hmax, hiff⟩ := loadFromDisk_within_iff (L := L) hc.indexed hc.within d
    exact Kept.represented ⟨hconf, hmax, hi, fun _ => hiff.mpr hok⟩ hc

/-- The caches that calls meeting `C` reach from construction, with a memory
limit that is not negative. -/
abbrev Reachable (L : LayerOps κ) (C : MemoryCache κ → Op κ → Prop) : MemoryCache κ → Prop :=
  Reached (fun c => ∃ g, MemoryCache.init g = .ok c ∧ ∀ mb, g.maxMemoryMb = some mb → 0 ≤ mb) C
    (exec L)

/-- As long as no load overfills the cache, the index, the counter and the
limits agree with the entries. -/
theorem representation (h : Reachable L (Fits L) c) : Represented c := by
  refine h.invariant ?_ ?_
  · rintro c ⟨g, hg, hmb⟩
    exact init_represented hg hmb
  · intro c op _ hc hok
    exact exec_represented hc op hok

def sizedLayers : LayerOps Nat where
  trimmable := fun _ => true
  offset := fun _ => none
  memory := List.sum
  trimToOffset := id
  turboquant := id
  quantize := id
  trimBy := fun cache _ => cache
  decompress := id

def oneMegabyte (maxEntries : Int) (ops : List (Op Nat)) : MemoryCache Nat :=
  runList (exec sizedLayers)
    { config := ⟨some 1, 0, id, true, maxEntries, false, false, 256⟩
      entries := Dict.empty
      sortedKeys := []
      maxMemory := 1048576
      currentMemory := 0 } ops

def saved (token : Int) : DiskEntry Nat := ⟨1, true, ["KVCache"], 4, true, [token], some [8]⟩

def savedDisk (tokens : List Int) : Disk Nat := ⟨some (some ⟨2, tokens.map saved⟩), none, none⟩

theorem oneMegabyte_reachable {C : MemoryCache Nat → Op Nat → Prop} {maxEntries : Int}
    (hn : 1 ≤ maxEntries) {ops : List (Op Nat)}
    (hok : AllOk C (exec sizedLayers) (oneMegabyte maxEntries []) ops) :
    Reachable sizedLayers C (oneMegabyte maxEntries ops) := by
  have hstart : Reachable sizedLayers C (oneMegabyte maxEntries []) := by
    refine .start ⟨⟨some 1, 0, id, true, maxEntries, false, false, 256⟩, ?_, ?_⟩
    · have hlt : ¬ maxEntries < 1 := by omega
      simp only [MemoryCache.init, MemoryCacheConfig.validate, hlt]
      rfl
    · intro mb hmb
      cases hmb
      decide
  exact Reached.runList hstart hok

/-- Two entries at most: one is stored, one loaded. -/
theorem representation_loaded :
    Represented (oneMegabyte 2 [.store [1, 2] [5] true, .loadFromDisk (savedDisk [7])]) := by
  refine representation (L := sizedLayers) (oneMegabyte_reachable (by decide) ⟨trivial, ?_, trivial⟩)
  rintro ⟨s, taken, hs, -, hpre, -, hmany⟩
  have hsnap : s = ⟨2, [saved 7]⟩ := by
    cases hs
    rfl
  subst hsnap
  have hone : (newEntries sizedLayers
      (exec sizedLayers (oneMegabyte 2 []) (.store [1, 2] [5] true)).config
      (exec sizedLayers (oneMegabyte 2 []) (.store [1, 2] [5] true)).entries.keys
      [saved 7]).length = 1 := by decide +kernel
  have hheld : (exec sizedLayers (oneMegabyte 2 []) (.store [1, 2] [5] true)).entries.keys.length =
      1 := by decide +kernel
  have hlimit : (exec sizedLayers (oneMegabyte 2 []) (.store [1, 2] [5] true)).config.maxEntries =
      2 := by decide +kernel
  have hle := hpre.length_le
  rw [hone] at hle
  rw [hlimit, hheld] at hmany
  omega

/-- A snapshot of two entries is loaded into a cache for one. -/
theorem load_exceeds_max_entries :
    Reachable sizedLayers (fun _ _ => True) (oneMegabyte 1 [.loadFromDisk (savedDisk [7, 8])]) ∧
    (oneMegabyte 1 [.loadFromDisk (savedDisk [7, 8])]).entries.keys = [[7], [8]] ∧
    (oneMegabyte 1 [.loadFromDisk (savedDisk [7, 8])]).config.maxEntries = 1 ∧
    ¬ Represented (oneMegabyte 1 [.loadFromDisk (savedDisk [7, 8])]) := by
  have hkeys : (oneMegabyte 1 [.loadFromDisk (savedDisk [7, 8])]).entries.keys = [[7], [8]] := by
    decide +kernel
  have hlimit : (oneMegabyte 1 [.loadFromDisk (savedDisk [7, 8])]).config.maxEntries = 1 := by
    decide +kernel
  refine ⟨oneMegabyte_reachable (by decide) ⟨trivial, trivial⟩, hkeys, hlimit, fun h => ?_⟩
  have hcount := h.within.count
  rw [hkeys, hlimit] at hcount
  simp at hcount

end FusionMlx.MemoryRepresentation
