import FusionMlx.Cache.RadixPaths
import FusionMlx.Cache.ManagerRuns

/-!
# What the radix cache finds

A lookup returns the ids along the longest path of usable nodes that the
request's blocks spell. After stores alone, the paths are the stored ones
unless two of them clash: then the later store has dropped the earlier one.
-/
namespace FusionMlx.RadixLookup

open BlockHashing BlockPool PagedCacheManager PrefixCache RadixTrie RadixPaths BranchingPaths ManagerRuns
open PrefixCache.BlockAwarePrefixCache (tokensOf)
open RadixTrie.RadixPrefixCache

variable {κ : Type} {P : Params κ} {c c' : RadixPrefixCache}

theorem onKv_kvCache {α : Type} (call : BlockAwarePrefixCache → α × BlockAwarePrefixCache)
    (c : RadixPrefixCache) : (c.onKv call).2.kvCache = (call c.kvCache).2 := rfl

theorem onKv_trims {α : Type} (call : BlockAwarePrefixCache → α × BlockAwarePrefixCache)
    (c : RadixPrefixCache) : Trims c.trie (c.onKv call).2.trie :=
  trims_foldl _ trims_onBlockFreed _ _

theorem incrementRef_allocated (P : Params κ) (s : Pool) (b : Nat) :
    (s.incrementRef P b).2.allocatedBlocks = s.allocatedBlocks := by
  simp only [Pool.incrementRef]
  split
  · simp only [Pool.addRef]
    split <;> rfl
  · rfl

/-- Taking references leaves the set of allocated blocks. -/
theorem claims_allocated (ids : List Nat) (c : RadixPrefixCache) :
    (ids.foldl (fun c b => (c.onKv (fun k => k.onPaged (fun m => m.incrementRef P b))).2)
      c).pool.allocatedBlocks = c.pool.allocatedBlocks := by
  induction ids generalizing c with
  | nil => rfl
  | cons b ids ih =>
    rw [List.foldl_cons, ih]
    simp only [RadixPrefixCache.pool, onKv_kvCache, BlockAwarePrefixCache.pool,
      BlockAwarePrefixCache.onPaged_pagedCache, Manager.incrementRef, locked_eq]
    exact incrementRef_allocated P _ b

def found (P : Params κ) (c : RadixPrefixCache) (u : List Int) : List Nat :=
  c.trie.walk (usable c.pool) (blockSlices P.blockSize u) 0

theorem found_spec (c : RadixPrefixCache) (u : List Int) (i b : Nat)
    (hi : (found P c u)[i]? = some b) :
    usable c.pool b = true ∧ i < (blockSlices P.blockSize u).length ∧
      ∃ n, At c.trie ((blockSlices P.blockSize u).take (i + 1)) n ∧
        (c.trie.nodes n).blockId = some b := by
  have h := walk_sound (usable c.pool) (blockSlices P.blockSize u) At.root i b hi
  simpa only [List.nil_append] using h

/-- The table a lookup returns lists exactly the ids found. -/
theorem fetchCache_found (c : RadixPrefixCache) (r : String) (u : List Int) (args : KeyArgs κ) :
    (∀ t rest, (c.fetchCache P r u args).1 = .ok (some t, rest) →
      t.blockIds = found P c u ∧ found P c u ≠ []) ∧
    (found P c u ≠ [] → ∃ t rest, (c.fetchCache P r u args).1 = .ok (some t, rest)) := by
  by_cases hu : u = []
  · subst hu
    simp [fetchCache, found, blockSlices, Trie.walk]
  by_cases hb : P.blockSize = 0
  · simp [fetchCache, found, blockSlices, hu, hb, Trie.walk]
  by_cases hf : found P c u = []
  · have hw := hf
    simp only [found] at hw
    simp [fetchCache, hu, hb, hf, hw]
  · have hw := hf
    simp only [found] at hw
    simp only [fetchCache, if_neg hu, if_neg hb, if_neg hw]
    refine ⟨fun t rest ht => ?_, fun _ => ⟨_, _, rfl⟩⟩
    simp only [Except.ok.injEq, Prod.mk.injEq, Option.some.injEq] at ht
    obtain ⟨rfl, -⟩ := ht
    refine ⟨List.filter_eq_self.mpr (fun b hb => ?_), hf⟩
    obtain ⟨i, hi⟩ := List.mem_iff_getElem?.mp hb
    have hus := (found_spec c u i b hi).1
    rw [claims_allocated]
    simp only [usable, decide_eq_true_eq] at hus
    simp only [RadixPrefixCache.pool, onKv_kvCache, BlockAwarePrefixCache.pool,
      BlockAwarePrefixCache.createBlockTable_pagedCache, Manager.createBlockTable, locked_eq,
      decide_eq_true_eq]
    exact hus.1

def matchedBlocks (P : Params κ) (c : RadixPrefixCache) (r : String) (u : List Int)
    (args : KeyArgs κ) : Nat :=
  match (c.fetchCache P r u args).1 with
  | .ok (some t, _) => t.blockIds.length
  | _ => 0

theorem matchedBlocks_eq (c : RadixPrefixCache) (r : String) (u : List Int) (args : KeyArgs κ) :
    matchedBlocks P c r u args = (found P c u).length := by
  obtain ⟨hsome, hhit⟩ := fetchCache_found (P := P) c r u args
  simp only [matchedBlocks]
  split
  · next t rest ht => rw [(hsome t rest ht).1]
  · next hno =>
    by_cases hf : found P c u = []
    · rw [hf, List.length_nil]
    · obtain ⟨t, rest, ht⟩ := hhit hf
      exact absurd ht (hno t rest)

theorem length_blockSlices (n : Nat) (tokens : List Int) :
    (blockSlices n tokens).length = tokens.length / n := by
  simp only [blockSlices, List.length_map, List.length_range]

theorem covers_iff (hb : P.blockSize ≠ 0) (tokens : List Int) (t : BlockTable) :
    covers P tokens t = true ↔
      t.blockIds ≠ [] ∧ t.blockIds.length = (blockSlices P.blockSize tokens).length := by
  have hfull : tokens.length - tokens.length % P.blockSize =
      tokens.length / P.blockSize * P.blockSize := by
    have := Nat.div_add_mod' tokens.length P.blockSize
    omega
  rw [length_blockSlices]
  simp only [covers, decide_eq_true_eq, hfull]
  rw [Nat.mul_left_inj hb]

def Indexes (P : Params κ) (tokens : List Int) (t : BlockTable) : Prop :=
  P.blockSize ≠ 0 ∧ covers P tokens t = true

instance (tokens : List Int) (t : BlockTable) : Decidable (Indexes P tokens t) :=
  inferInstanceAs (Decidable (_ ∧ _))

/-- The trie after a store: what its callback left of it, indexed if the table covers the
tokens. -/
theorem storeCache_trie (c : RadixPrefixCache) (tier : StoreTier) (r : String) (tokens : List Int)
    (args : KeyArgs κ) (t : BlockTable) (hok : (c.storeCache P tier r tokens args).1 = .ok (some t)) :
    (c.storeCache P tier r tokens args).2.trie =
      (if Indexes P tokens t then Trie.index (blockSlices P.blockSize tokens) t.blockIds 0 else id)
        (c.onKv (fun k => k.storeCache P tier r tokens args)).2.trie := by
  simp only [storeCache] at hok ⊢
  split at hok
  · cases hok
  · next hne =>
    rw [if_neg hne]
    generalize c.onKv (fun k => k.storeCache P tier r tokens args) = k at hok ⊢
    obtain ⟨res, c'⟩ := k
    obtain _ | _ | t' := res
    · cases hok
    · cases hok
    · dsimp only at hok ⊢
      by_cases hnil : t'.blockIds = []
      · rw [if_pos hnil] at hok ⊢
        simp only [Except.ok.injEq, Option.some.injEq] at hok
        subst hok
        have : ¬ Indexes P tokens t' := by simp [Indexes, covers, hnil]
        rw [if_neg this]
        rfl
      · rw [if_neg hnil] at hok ⊢
        by_cases hb : P.blockSize = 0
        · rw [if_pos hb] at hok
          cases hok
        · rw [if_neg hb] at hok ⊢
          by_cases hc : covers P tokens t' = true
          · rw [if_pos hc] at hok ⊢
            simp only [Except.ok.injEq, Option.some.injEq] at hok
            subst hok
            rw [if_pos ⟨hb, hc⟩]
            rfl
          · rw [if_neg hc] at hok ⊢
            simp only [Except.ok.injEq, Option.some.injEq] at hok
            subst hok
            rw [if_neg (fun h => hc h.2)]
            rfl

/-- A store that returns no table leaves of the trie what its callback left. -/
theorem storeCache_none (c : RadixPrefixCache) (tier : StoreTier) (r : String) (tokens : List Int)
    (args : KeyArgs κ) (hno : ∀ t, (c.storeCache P tier r tokens args).1 ≠ .ok (some t)) :
    Trims c.trie (c.storeCache P tier r tokens args).2.trie := by
  have htrims := onKv_trims (fun k => k.storeCache P tier r tokens args) c
  simp only [storeCache] at hno ⊢
  split
  · exact .refl _
  · next hne =>
    rw [if_neg hne] at hno
    generalize c.onKv (fun k => k.storeCache P tier r tokens args) = k at hno htrims ⊢
    obtain ⟨res, c'⟩ := k
    obtain _ | _ | t' := res
    · exact htrims
    · exact htrims
    · dsimp only at hno htrims ⊢
      split
      · exact htrims
      · split
        · exact htrims
        · next hnil hb =>
          rw [if_neg hnil, if_neg hb] at hno
          split at hno
          · exact absurd rfl (hno t')
          · exact absurd rfl (hno t')

theorem storeCache_kvCache (c : RadixPrefixCache) (tier : StoreTier) (r : String)
    (tokens : List Int) (args : KeyArgs κ) (h : tokens ≠ []) :
    (c.storeCache P tier r tokens args).2.kvCache =
      (c.kvCache.storeCache P tier r tokens args).2 := by
  have hkv := onKv_kvCache (fun k => k.storeCache P tier r tokens args) c
  simp only [storeCache, if_neg h]
  generalize c.onKv (fun k => k.storeCache P tier r tokens args) = k at hkv ⊢
  obtain ⟨res, c'⟩ := k
  obtain _ | _ | t' := res
  · exact hkv
  · exact hkv
  · dsimp only at hkv ⊢
    split
    · exact hkv
    · split
      · exact hkv
      · split <;> exact hkv

/-- The state after successful stores during which no block was freed, with the token lists stored
and the blocks of their tables. A store succeeds when it returns a block for every full block of
its tokens. -/
inductive Stored (P : Params κ) : RadixPrefixCache → List (List Int) → List Nat → Prop
  | start (m : Manager) : Stored P (init m) [] []
  | store {c : RadixPrefixCache} {history : List (List Int)} {blocks : List Nat} {t : BlockTable}
      (h : Stored P c history blocks) (tier : StoreTier) (r : String) (tokens : List Int)
      (args : KeyArgs κ) (hok : (c.storeCache P tier r tokens args).1 = .ok (some t))
      (hfull : t.blockIds.length = tokens.length / P.blockSize)
      (hfree : (c.storeCache P tier r tokens args).2.kvCache.pagedCache.trace =
        c.kvCache.pagedCache.trace) :
      Stored P (c.storeCache P tier r tokens args).2 (history ++ [tokens]) (blocks ++ t.blockIds)

/-- The first `k` full blocks of the two token lists are the same. -/
def SharesBlocks (P : Params κ) (k : Nat) (t u : List Int) : Prop :=
  k ≤ t.length / P.blockSize ∧ k ≤ u.length / P.blockSize ∧
    (blockSlices P.blockSize t).take k = (blockSlices P.blockSize u).take k

/-- Every lookup matches all blocks it shares with a stored list, and no more than it shares with
some stored list. -/
def Complete (P : Params κ) (c : RadixPrefixCache) (history : List (List Int)) : Prop :=
  ∀ r u args, (∀ t ∈ history, ∀ k, SharesBlocks P k t u → k ≤ matchedBlocks P c r u args) ∧
    (matchedBlocks P c r u args = 0 ∨
      ∃ t ∈ history, SharesBlocks P (matchedBlocks P c r u args) t u)

/-- What the trie holds after stores alone. -/
structure Holds (P : Params κ) (c : RadixPrefixCache) (history : List (List Int))
    (blocks : List Nat) : Prop where
  wf : Wf c.trie
  paths : paths c.trie = recorded firstToken (history.map (blockSlices P.blockSize))
  full : Full c.trie
  stored : Labelled c.trie (fun _ b => b ∈ blocks)

theorem onKv_silent {α : Type} {call : BlockAwarePrefixCache → α × BlockAwarePrefixCache}
    (h : (call c.kvCache).2.pagedCache.trace = c.kvCache.pagedCache.trace) :
    (c.onKv call).2.trie = c.trie := by
  simp only [onKv, h, List.drop_length, BlockAwarePrefixCache.toldTo, List.filter_nil,
    List.map_nil, List.foldl_nil]

theorem stored_holds {history : List (List Int)} {blocks : List Nat}
    (h : Stored P c history blocks) : Holds P c history blocks := by
  induction h with
  | start m =>
    refine ⟨wf_empty, paths_empty, ?_, ?_⟩
    · rintro p n hp hn
      have hmem : p ∈ paths Trie.empty := ⟨n, hn⟩
      rw [paths_empty] at hmem
      exact absurd hmem hp
    · intro p n b _ hb
      cases hb
  | @store c history blocks t _ tier r tokens args hok hfull hfree ih =>
    have hne : tokens ≠ [] := by
      rintro rfl
      simp [storeCache] at hok
    rw [storeCache_kvCache c tier r tokens args hne] at hfree
    have htrie := storeCache_trie c tier r tokens args t hok
    rw [onKv_silent hfree] at htrie
    have hlen : t.blockIds.length = (blockSlices P.blockSize tokens).length := by
      rw [length_blockSlices, hfull]
    -- a table without blocks leaves the trie as it is, and so does indexing it
    have hindex : (c.storeCache P tier r tokens args).2.trie =
        Trie.index (blockSlices P.blockSize tokens) t.blockIds 0 c.trie := by
      rw [htrie]
      split
      · rfl
      · next hno =>
        have hnil : t.blockIds = [] := by
          by_contra hnil
          have hb : P.blockSize ≠ 0 := by
            intro hz
            rw [hz, Nat.div_zero, List.length_eq_zero_iff] at hfull
            exact hnil hfull
          exact hno ⟨hb, (covers_iff hb tokens t).mpr ⟨hnil, hlen⟩⟩
        have hslices : blockSlices P.blockSize tokens = [] := by
          rw [← List.length_eq_zero_iff, ← hlen, hnil, List.length_nil]
        rw [hslices, hnil]
        rfl
    obtain ⟨hwf, hpaths, hlab, hfull'⟩ := index_spec (blockSlices P.blockSize tokens) t.blockIds
      hlen ih.wf
    rw [← hindex] at hwf hpaths hlab hfull'
    refine ⟨hwf, ?_, hfull' ih.full, ?_⟩
    · rw [hpaths, ih.paths]
      simp only [recorded, List.map_append, List.foldl_append, List.map_cons, List.map_nil,
        List.foldl_cons, List.foldl_nil]
    · refine hlab _ (ih.stored.mono fun _ b hb => List.mem_append_left _ hb) ?_
      intro i b hi
      exact List.mem_append_right _ (List.mem_of_getElem? hi)

/-- The blocks a lookup matches are the longest path of the trie along its tokens, if every
stored block is usable. -/
theorem matched_iff {history : List (List Int)} {blocks : List Nat} (h : Holds P c history blocks)
    (hkept : ∀ b ∈ blocks, usable c.pool b = true) (r : String) (u : List Int) (args : KeyArgs κ)
    (k : Nat) (hk : k ≤ u.length / P.blockSize) :
    k ≤ matchedBlocks P c r u args ↔ (blockSlices P.blockSize u).take k ∈ paths c.trie := by
  rw [matchedBlocks_eq]
  constructor
  · intro hle
    cases k with
    | zero => exact ⟨0, .root⟩
    | succ k =>
      have hb := List.getElem?_eq_getElem (l := found P c u) hle
      obtain ⟨-, -, n, hn, -⟩ := found_spec c u k _ hb
      exact ⟨n, hn⟩
  · rintro ⟨n, hn⟩
    refine walk_complete (usable c.pool) (blockSlices P.blockSize u) At.root k ?_ ?_
    · rw [length_blockSlices]
      exact hk
    · intro j hj
      rw [List.nil_append]
      have hpre : (blockSlices P.blockSize u).take (j + 1) <+:
          (blockSlices P.blockSize u).take k := List.take_prefix_take_left (by omega)
      obtain ⟨m, hm⟩ := hn.prefix hpre
      have hne : (blockSlices P.blockSize u).take (j + 1) ≠ [] := by
        rw [Ne, ← List.length_eq_zero_iff, List.length_take, length_blockSlices]
        omega
      obtain ⟨b, hb⟩ := Option.ne_none_iff_exists'.mp (h.full _ m hne hm)
      exact ⟨m, b, hm, hb, hkept b (h.stored _ m b hm hb)⟩

/-- After stores during which nothing was freed, with every stored block still usable, lookups are
complete exactly when no two stored lists part at two blocks that begin with one token. -/
theorem lookups_complete_iff {history : List (List Int)} {blocks : List Nat}
    (h : Stored P c history blocks) (hkept : ∀ b ∈ blocks, usable c.pool b = true) :
    Complete P c history ↔ ∀ t ∈ history, ∀ u ∈ history,
      ¬ Clash firstToken (blockSlices P.blockSize t) (blockSlices P.blockSize u) := by
  have hh := stored_holds h
  have hmatch := matched_iff hh hkept
  have hwhole := recorded_whole_iff (g := firstToken) (history.map (blockSlices P.blockSize))
  simp only [List.mem_map, forall_exists_index, and_imp, forall_apply_eq_imp_iff₂] at hwhole
  rw [← hwhole, ← hh.paths]
  have htake : ∀ t : List Int, (blockSlices P.blockSize t).take (t.length / P.blockSize) =
      blockSlices P.blockSize t := by
    intro t
    rw [← length_blockSlices, List.take_length]
  constructor
  · intro hc t ht
    have hle := (hc "" t {}).1 t ht (t.length / P.blockSize) ⟨Nat.le_refl _, Nat.le_refl _, rfl⟩
    have := (hmatch "" t {} _ (Nat.le_refl _)).mp hle
    rwa [htake] at this
  · intro hall r u args
    refine ⟨?_, ?_⟩
    · rintro t ht k ⟨hkt, hku, hshare⟩
      rw [hmatch r u args k hku, ← hshare]
      obtain ⟨n, hn⟩ := hall t ht
      exact hn.prefix (List.take_prefix _ _)
    · have hlen : matchedBlocks P c r u args ≤ u.length / P.blockSize := by
        rw [matchedBlocks_eq]
        by_contra hlt
        push Not at hlt
        obtain ⟨b, hb⟩ : ∃ b, (found P c u)[u.length / P.blockSize]? = some b :=
          ⟨_, List.getElem?_eq_getElem hlt⟩
        have := (found_spec c u _ b hb).2.1
        rw [length_blockSlices] at this
        omega
      have hpath := (hmatch r u args _ hlen).mp (Nat.le_refl _)
      rw [hh.paths] at hpath
      rcases recorded_sub hpath with hnil | ⟨q, hq, hpre⟩
      · left
        have hzero := congrArg List.length hnil
        rw [List.length_take, length_blockSlices, List.length_nil] at hzero
        omega
      · right
        obtain ⟨t, ht, rfl⟩ := List.mem_map.mp hq
        have hle := hpre.length_le
        rw [List.length_take, length_blockSlices, length_blockSlices] at hle
        refine ⟨t, ht, by omega, hlen, ?_⟩
        have := List.prefix_iff_eq_take.mp hpre
        rw [List.length_take, length_blockSlices, Nat.min_eq_left hlen] at this
        exact this.symm

def pairs : Params Int := { tiny 3 with blockSize := 2 }

def pairsStored (calls : List (String × List Int)) : RadixPrefixCache :=
  calls.foldl (fun c s => (c.storeCache pairs {} s.1 s.2 {}).2)
    (init (started pairs (by simp [pairs, tiny])))

theorem stored_two {u : List Int}
    (hok : ((pairsStored [("a", [1, 2])]).storeCache pairs {} "b" u {}).1 =
      .ok (some ⟨"b", [2], 2⟩)) (hlen : u.length = 2)
    (hfree : (pairsStored [("a", [1, 2]), ("b", u)]).kvCache.pagedCache.trace =
      (pairsStored [("a", [1, 2])]).kvCache.pagedCache.trace) :
    Stored pairs (pairsStored [("a", [1, 2]), ("b", u)]) [[1, 2], u] [1, 2] := by
  have h₁ : Stored pairs (pairsStored [("a", [1, 2])]) [[1, 2]] [1] :=
    .store (t := ⟨"a", [1], 2⟩) (.start _) {} "a" [1, 2] {} (by decide +kernel) rfl
      (by decide +kernel)
  have hfull : [2].length = u.length / pairs.blockSize := by rw [hlen]; rfl
  exact h₁.store {} "b" u {} hok hfull hfree

theorem lookups_complete_pairs :
    Complete pairs (pairsStored [("a", [1, 2]), ("b", [3, 4])]) [[1, 2], [3, 4]] := by
  have h := stored_two (u := [3, 4]) (by decide +kernel) rfl (by decide +kernel)
  refine (lookups_complete_iff h (by decide +kernel)).mpr ?_
  have hone : ∀ x y : List Int, (firstToken x = firstToken y → x = y) → ¬ Clash firstToken [x] [y] := by
    rintro x y heq ⟨r, v, w, hne, htag, hv, hw⟩
    have hnil : r = [] := by
      have := hv.length_le
      simpa using this
    subst hnil
    simp only [List.nil_append] at hv hw
    have hvx := (List.cons_prefix_cons.mp hv).1
    have hwy := (List.cons_prefix_cons.mp hw).1
    subst hvx hwy
    exact hne (heq htag)
  have hslices : ∀ t ∈ [[1, 2], [3, 4]], blockSlices pairs.blockSize t = [t] := by decide
  intro t ht u hu
  rw [hslices t ht, hslices u hu]
  refine hone t u ?_
  revert t u
  decide

/-- Storing a list that begins with the same token takes the stored one out of reach. -/
theorem stored_list_lost :
    Stored pairs (pairsStored [("a", [1, 2]), ("b", [1, 3])]) [[1, 2], [1, 3]] [1, 2] ∧
      (∀ b ∈ [1, 2], usable (pairsStored [("a", [1, 2]), ("b", [1, 3])]).pool b = true) ∧
      ¬ Complete pairs (pairsStored [("a", [1, 2]), ("b", [1, 3])]) [[1, 2], [1, 3]] := by
  refine ⟨stored_two (by decide +kernel) rfl (by decide +kernel), by decide +kernel, fun h => ?_⟩
  have hle := (h "c" [1, 2] {}).1 [1, 2] (by simp) 1 ⟨by decide, by decide, rfl⟩
  have hzero : matchedBlocks pairs (pairsStored [("a", [1, 2]), ("b", [1, 3])]) "c" [1, 2] {} = 0 := by
    decide +kernel
  omega

end FusionMlx.RadixLookup
