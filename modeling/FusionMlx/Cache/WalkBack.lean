import Mathlib.Data.List.Basic

/-!
# The truncation point of a walk back

Every loaded block holds one state for each layer. A layer whose cache cannot be
sliced holds a placeholder in most blocks, and `findWalkBackTruncationPoint`
looks for the latest earlier block without one. It looks only at the layers that
are placeholders in the last block.
-/
namespace FusionMlx.WalkBack

inductive CacheType where
  | kvcache | rotatingKvcache | batchKvcache | batchRotatingKvcache | arraysCache | quantizedKvcache
  | cacheList | poolingCache | batchPoolingCache | minimaxM3Kvcache | minimaxM3BatchKvcache
  deriving DecidableEq

structure CacheTypeHandler where
  supportsBlockSlicing : Bool
  deriving DecidableEq

def classNameMap : List (String × CacheType) :=
  [("KVCache", .kvcache), ("RotatingKVCache", .rotatingKvcache),
    ("PrefillReadyRotatingKVCache", .rotatingKvcache), ("BatchKVCache", .batchKvcache),
    ("BatchRotatingKVCache", .batchRotatingKvcache), ("ArraysCache", .arraysCache),
    ("QuantizedKVCache", .quantizedKvcache), ("CacheList", .cacheList),
    ("TurboQuantKVCache", .kvcache), ("BatchTurboQuantKVCache", .kvcache),
    ("PoolingCache", .poolingCache), ("BatchPoolingCache", .batchPoolingCache),
    ("MiniMaxM3KVCache", .minimaxM3Kvcache), ("MiniMaxM3BatchKVCache", .minimaxM3BatchKvcache)]

def defaultHandler : CacheTypeHandler := ⟨true⟩

/-- The registered handlers. Patches add to them; the one of plain KV caches slices. -/
structure CacheTypeRegistry where
  handlers : CacheType → Option CacheTypeHandler
  kvcache_slices : ∀ h ∈ handlers .kvcache, h.supportsBlockSlicing = true

namespace CacheTypeRegistry

def getHandler (r : CacheTypeRegistry) (t : CacheType) : CacheTypeHandler :=
  (r.handlers t).getD defaultHandler

def getHandlerByClassName (r : CacheTypeRegistry) (className : String) : CacheTypeHandler :=
  if className = "SizedArraysCache" then r.getHandler .arraysCache
  else match classNameMap.lookup className with
    | none => defaultHandler
    | some t => r.getHandler t

def initial : CacheTypeRegistry where
  handlers
    | .kvcache | .minimaxM3Kvcache => some ⟨true⟩
    | .rotatingKvcache | .arraysCache | .cacheList | .minimaxM3BatchKvcache => some ⟨false⟩
    | _ => none
  kvcache_slices := by simp

theorem kvcache (r : CacheTypeRegistry) :
    (r.getHandlerByClassName "KVCache").supportsBlockSlicing = true := by
  have hname : r.getHandlerByClassName "KVCache" = r.getHandler .kvcache := rfl
  rw [hname, getHandler]
  cases h : r.handlers .kvcache with
  | none => rfl
  | some handler => exact r.kvcache_slices handler h

end CacheTypeRegistry

/-- What a block holds of a layer. The items of a tuple are told by their `shape`, where they have one. -/
inductive LayerData where
  | list
  | tuple (items : List (Option (List Nat)))
  | other
  deriving DecidableEq

def isPlaceholderState : LayerData → Bool
  | .tuple [first, _] => first = some [1]
  | _ => false

section Search
variable (r : CacheTypeRegistry) (allBlockData : List (List LayerData))
  (layerCacheTypes : Option (List String))

def numLayers : Nat := (allBlockData.headD []).length

def lastIdx : Nat := allBlockData.length - 1

def placeholderAt (blockIdx layerIdx : Nat) : Bool :=
  match (allBlockData.getD blockIdx [])[layerIdx]? with
  | some data => isPlaceholderState data
  | none => false

def layerHandler (layerIdx : Nat) : CacheTypeHandler :=
  r.getHandlerByClassName ((layerCacheTypes.getD []).getD layerIdx "KVCache")

def problematicLayers : List Nat :=
  (List.range (numLayers allBlockData)).filter fun layerIdx =>
    !(layerHandler r layerCacheTypes layerIdx).supportsBlockSlicing &&
      placeholderAt allBlockData (lastIdx allBlockData) layerIdx

def allValid (layers : List Nat) (blockIdx : Nat) : Bool :=
  layers.all fun layerIdx => !placeholderAt allBlockData blockIdx layerIdx

def walkBack (valid : Nat → Bool) : Nat → Option Nat
  | 0 => none
  | n + 1 => if valid n then some n else walkBack valid n

def findWalkBackTruncationPoint : Option Nat :=
  if allBlockData = [] ∨ layerCacheTypes.getD [] = [] then none
  else
    let problematic := problematicLayers r allBlockData layerCacheTypes
    if problematic = [] then none
    else walkBack (allValid allBlockData problematic) (lastIdx allBlockData)

def CarriesReal (blockIdx : Nat) : Prop :=
  ∀ layerIdx < numLayers allBlockData,
    (layerHandler r layerCacheTypes layerIdx).supportsBlockSlicing = false →
    placeholderAt allBlockData blockIdx layerIdx = false

/-- The latest earlier block that carries real states, unless the last block or none does. -/
def LatestReal (found : Option Nat) : Prop :=
  (∀ k, found = some k → k < lastIdx allBlockData ∧ CarriesReal r allBlockData layerCacheTypes k ∧
    ∀ j, k < j → j < lastIdx allBlockData → ¬ CarriesReal r allBlockData layerCacheTypes j) ∧
  (found = none → CarriesReal r allBlockData layerCacheTypes (lastIdx allBlockData) ∨
    ∀ j < lastIdx allBlockData, ¬ CarriesReal r allBlockData layerCacheTypes j)

def Stale (layerIdx : Nat) : Prop :=
  layerIdx < numLayers allBlockData ∧
    (layerHandler r layerCacheTypes layerIdx).supportsBlockSlicing = false ∧
    placeholderAt allBlockData (lastIdx allBlockData) layerIdx = true

def Supplies (blockIdx : Nat) : Prop :=
  ∀ layerIdx, Stale r allBlockData layerCacheTypes layerIdx →
    placeholderAt allBlockData blockIdx layerIdx = false

/-- Where a layer is stale, the latest earlier block that supplies the stale layers has a state, too,
for those that the last block has one of. -/
def KeepsOthers : Prop :=
  ∀ k < lastIdx allBlockData, (∃ layerIdx, Stale r allBlockData layerCacheTypes layerIdx) →
    Supplies r allBlockData layerCacheTypes k →
    (∀ j, k < j → j < lastIdx allBlockData → ¬ Supplies r allBlockData layerCacheTypes j) →
    ∀ layerIdx < numLayers allBlockData,
      (layerHandler r layerCacheTypes layerIdx).supportsBlockSlicing = false →
      placeholderAt allBlockData (lastIdx allBlockData) layerIdx = false →
      placeholderAt allBlockData k layerIdx = false

end Search

theorem walkBack_eq_some {valid : Nat → Bool} {n k : Nat} : walkBack valid n = some k ↔
    k < n ∧ valid k = true ∧ ∀ j, k < j → j < n → valid j = false := by
  induction n with
  | zero => simp [walkBack]
  | succ n ih =>
    unfold walkBack
    split
    · next hn =>
      rw [Option.some.injEq]
      constructor
      · rintro rfl
        exact ⟨Nat.lt_succ_self _, hn, fun j hj hj' => by omega⟩
      · rintro ⟨hk, -, hafter⟩
        by_contra hne
        have := hafter n (by omega) (Nat.lt_succ_self n)
        rw [hn] at this
        cases this
    · next hn =>
      rw [ih]
      constructor
      · rintro ⟨hk, hv, hafter⟩
        refine ⟨by omega, hv, fun j hj hj' => ?_⟩
        rcases Nat.lt_succ_iff_lt_or_eq.mp hj' with h | rfl
        · exact hafter j hj h
        · exact Bool.eq_false_iff.mpr hn
      · rintro ⟨hk, hv, hafter⟩
        have hkn : k ≠ n := fun h => hn (h ▸ hv)
        exact ⟨by omega, hv, fun j hj hj' => hafter j hj (by omega)⟩

theorem walkBack_eq_none {valid : Nat → Bool} {n : Nat} :
    walkBack valid n = none ↔ ∀ j < n, valid j = false := by
  induction n with
  | zero => simp [walkBack]
  | succ n ih =>
    unfold walkBack
    split
    · next hn => simp only [reduceCtorEq, false_iff]; intro h; simpa [hn] using h n (Nat.lt_succ_self n)
    · next hn =>
      rw [ih, Nat.forall_lt_succ_right]
      simp [hn]

section Correct
variable {r : CacheTypeRegistry} {allBlockData : List (List LayerData)}
  {layerCacheTypes : Option (List String)}

theorem mem_problematicLayers {layerIdx : Nat} :
    layerIdx ∈ problematicLayers r allBlockData layerCacheTypes ↔
      Stale r allBlockData layerCacheTypes layerIdx := by
  simp [problematicLayers, Stale]

theorem allValid_iff {blockIdx : Nat} :
    allValid allBlockData (problematicLayers r allBlockData layerCacheTypes) blockIdx = true ↔
      Supplies r allBlockData layerCacheTypes blockIdx := by
  simp [allValid, Supplies, mem_problematicLayers]

theorem CarriesReal.supplies {blockIdx : Nat} (h : CarriesReal r allBlockData layerCacheTypes blockIdx) :
    Supplies r allBlockData layerCacheTypes blockIdx :=
  fun layerIdx hs => h layerIdx hs.1 hs.2.1

/-- Without a stale layer there is nothing to look for. -/
theorem find_of_not_stale (h : ∀ layerIdx, ¬ Stale r allBlockData layerCacheTypes layerIdx) :
    findWalkBackTruncationPoint r allBlockData layerCacheTypes = none := by
  have hnone : problematicLayers r allBlockData layerCacheTypes = [] :=
    List.eq_nil_iff_forall_not_mem.mpr fun x hx => h x (mem_problematicLayers.mp hx)
  simp [findWalkBackTruncationPoint, hnone]

theorem find_of_stale {layerIdx : Nat} (h : Stale r allBlockData layerCacheTypes layerIdx) :
    findWalkBackTruncationPoint r allBlockData layerCacheTypes =
      walkBack (allValid allBlockData (problematicLayers r allBlockData layerCacheTypes))
        (lastIdx allBlockData) := by
  have hsome : problematicLayers r allBlockData layerCacheTypes ≠ [] :=
    List.ne_nil_of_mem (mem_problematicLayers.mpr h)
  have hblocks : allBlockData ≠ [] := by
    rintro rfl
    exact Nat.not_lt_zero _ h.1
  have htypes : layerCacheTypes.getD [] ≠ [] := by
    intro he
    have hkv := h.2.1
    simp [layerHandler, he, r.kvcache] at hkv
  simp [findWalkBackTruncationPoint, hsome, hblocks, htypes]

theorem carriesReal_last (h : ∀ layerIdx, ¬ Stale r allBlockData layerCacheTypes layerIdx) :
    CarriesReal r allBlockData layerCacheTypes (lastIdx allBlockData) := by
  intro layerIdx hl hs
  by_contra hp
  exact h layerIdx ⟨hl, hs, by simpa using hp⟩

/-- The walk finds the latest block with real states if and only if the latest block that supplies the
stale layers keeps the others. -/
theorem findWalkBackTruncationPoint_latestReal_iff (r : CacheTypeRegistry) (first : List LayerData)
    (rest : List (List LayerData)) (layerCacheTypes : Option (List String)) :
    LatestReal r (first :: rest) layerCacheTypes
        (findWalkBackTruncationPoint r (first :: rest) layerCacheTypes) ↔
      KeepsOthers r (first :: rest) layerCacheTypes := by
  by_cases hstale : ∃ layerIdx, Stale r (first :: rest) layerCacheTypes layerIdx
  · obtain ⟨layerIdx, hs⟩ := hstale
    rw [find_of_stale hs]
    constructor
    · intro hlatest k hk _ hsupplies hafter
      have hfound := walkBack_eq_some.mpr ⟨hk, allValid_iff.mpr hsupplies, fun j hj hj' =>
        Bool.eq_false_iff.mpr fun h => hafter j hj hj' (allValid_iff.mp h)⟩
      exact fun l hl hn _ => (hlatest.1 k hfound).2.1 l hl hn
    · intro hkeeps
      constructor
      · intro k hfound
        obtain ⟨hk, hvalid, hafter⟩ := walkBack_eq_some.mp hfound
        have hsupplies := allValid_iff.mp hvalid
        have hnone : ∀ j, k < j → j < lastIdx (first :: rest) →
            ¬ Supplies r (first :: rest) layerCacheTypes j := by
          intro j hj hj' h
          simpa [allValid_iff.mpr h] using hafter j hj hj'
        refine ⟨hk, fun l hl hn => ?_, fun j hj hj' h => hnone j hj hj' h.supplies⟩
        -- a stale layer is supplied, any other one is kept
        cases hlast : placeholderAt (first :: rest) (lastIdx (first :: rest)) l with
        | true => exact hsupplies l ⟨hl, hn, hlast⟩
        | false => exact hkeeps k hk ⟨layerIdx, hs⟩ hsupplies hnone l hl hn hlast
      · intro hfound
        refine Or.inr fun j hj h => ?_
        simpa [allValid_iff.mpr h.supplies] using walkBack_eq_none.mp hfound j hj
  · have hnone : ∀ layerIdx, ¬ Stale r (first :: rest) layerCacheTypes layerIdx :=
      fun l h => hstale ⟨l, h⟩
    rw [find_of_not_stale hnone]
    exact iff_of_true ⟨by simp, fun _ => Or.inl (carriesReal_last hnone)⟩
      fun _ _ h => absurd h hstale

/-- Two recurrent layers. The first block lacks the first one, the second lacks the second one and is
returned because the last block lacks only the first. -/
theorem walk_back_into_placeholder :
    ¬ LatestReal .initial
      [[.tuple [some [1], some [1]], .tuple [some [2, 3], some [4]]],
        [.tuple [some [2, 3], some [4]], .tuple [some [1], some [1]]],
        [.tuple [some [1], some [1]], .tuple [some [2, 3], some [4]]]]
      (some ["ArraysCache", "ArraysCache"])
      (findWalkBackTruncationPoint .initial
        [[.tuple [some [1], some [1]], .tuple [some [2, 3], some [4]]],
          [.tuple [some [2, 3], some [4]], .tuple [some [1], some [1]]],
          [.tuple [some [1], some [1]], .tuple [some [2, 3], some [4]]]]
        (some ["ArraysCache", "ArraysCache"])) := by
  intro h
  have hreal := (h.1 1 (by decide)).2.1 1 (by decide) (by decide)
  exact absurd hreal (by decide)

end Correct

end FusionMlx.WalkBack
