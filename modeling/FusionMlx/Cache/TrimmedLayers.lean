import FusionMlx.Cache.MatchScan

/-!
# What the layers of a hit cover

The layers a cache may hold, by the attributes that decide whether and how
they are trimmed. Which layers a hit admits for a trim is asked of the layer;
how it is trimmed is decided by its class and attributes, and a layer that
passes the first test but not the second is copied as it is.
-/
namespace FusionMlx.TrimmedLayers

open BlockHashing (PyError)
open OrderedDict Runs MemoryPrefixCache MemoryRepresentation MatchScan CommonPrefix

/-- A layer; `keys` are its rows, each named by the token it was computed for.
The rows behind the offset are allocated but unused. `other` is a layer of any
class not named here, `values` says that it has `values_compressed` and
`array` that it has an offset and keys that are no list or tuple. -/
inductive Layer where
  | absent
  | kv (keys : Tokens) (offset : Nat)
  | quantized (keys : Tokens) (offset : Nat)
  | turboQuant (keys : Tokens)
  | rotating (keys : Tokens) (offset maxSize : Nat)
  | cacheList (caches : List Layer)
  | other (trimmable values array : Bool) (keys : Tokens)

namespace Layer

mutual

def isTrimmable : Layer → Bool
  | absent => false
  | kv _ _ | quantized _ _ | turboQuant _ => true
  | rotating _ offset maxSize => offset < maxSize
  | cacheList caches => allTrimmable caches
  | other trimmable _ _ _ => trimmable

def allTrimmable : List Layer → Bool
  | [] => true
  | l :: ls => l.isTrimmable && allTrimmable ls

end

def trimOffset (trimBy : Nat) : Layer → Layer
  | absent => absent
  | quantized keys offset => quantized keys (offset - trimBy)
  | turboQuant keys => turboQuant (keys.take (keys.length - trimBy))
  | kv keys offset => kv keys (offset - trimBy)
  | rotating keys offset _ => kv keys (offset - trimBy)
  | cacheList caches => cacheList caches
  | other trimmable values array keys =>
    if values then other trimmable values array (keys.take (keys.length - trimBy))
    else if array then kv keys (keys.length - trimBy)
    else other trimmable values array keys

def offset? : Layer → Option Int
  | kv _ offset | quantized _ offset | rotating _ offset _ => some offset
  | turboQuant keys => some keys.length
  | other _ _ array keys => if array then some keys.length else none
  | absent | cacheList _ => none

def trimToOffset : Layer → Layer
  | kv keys offset => if 0 < offset ∧ offset < keys.length then kv (keys.take offset) offset
    else kv keys offset
  | l => l

def quantize : Layer → Layer
  | kv keys offset => quantized keys offset
  | l => l

def dequantize : Layer → Layer
  | quantized keys offset => kv keys offset
  | l => l

def turboquantCompress : Layer → Layer
  | kv keys offset => turboQuant (keys.take offset)
  | l => l

def turboquantDecompress : Layer → Layer
  | turboQuant keys => kv keys keys.length
  | l => l

mutual

def Covers (tokens : Tokens) : Layer → Prop
  | absent => True
  | kv keys offset | quantized keys offset => offset ≤ keys.length ∧ keys.take offset = tokens
  | rotating keys offset maxSize =>
    offset ≤ maxSize ∧ offset ≤ keys.length ∧ keys.take offset = tokens
  | turboQuant keys | other _ _ _ keys => keys = tokens
  | cacheList caches => caches ≠ [] ∧ AllCover tokens caches

def AllCover (tokens : Tokens) : List Layer → Prop
  | [] => True
  | l :: ls => l.Covers tokens ∧ AllCover tokens ls

end

def isCut : Layer → Bool
  | absent | cacheList _ => false
  | kv _ _ | quantized _ _ | turboQuant _ | rotating _ _ _ => true
  | other _ values array _ => values || array

end Layer

def decompress (g : MemoryCacheConfig) (l : Layer) : Layer :=
  if g.kvTurboquant then l.turboquantDecompress
  else if g.kvQuantize then l.dequantize
  else l

def layerOps (g : MemoryCacheConfig) (memory : List Layer → Nat) : LayerOps Layer where
  trimmable := Layer.isTrimmable
  offset := Layer.offset?
  memory := memory
  trimToOffset := List.map Layer.trimToOffset
  turboquant := List.map Layer.turboquantCompress
  quantize := List.map Layer.quantize
  trimBy := fun cache n => cache.map (Layer.trimOffset n)
  decompress := List.map (decompress g)

variable {tokens : Tokens}

namespace Layer

mutual

/-- A layer that can be trimmed covers one list of tokens only. -/
theorem covers_unique {tokens tokens' : Tokens} :
    (l : Layer) → l.isTrimmable → l.Covers tokens → l.Covers tokens' → tokens = tokens'
  | kv _ _, _, h, h' => h.2.symm.trans h'.2
  | quantized _ _, _, h, h' => h.2.symm.trans h'.2
  | rotating _ _ _, _, h, h' => h.2.2.symm.trans h'.2.2
  | turboQuant _, _, h, h' => Eq.trans (Eq.symm h) h'
  | other _ _ _ _, _, h, h' => Eq.trans (Eq.symm h) h'
  | cacheList caches, htrim, h, h' => allCover_unique caches h.1 htrim h.2 h'.2

theorem allCover_unique {tokens tokens' : Tokens} :
    (ls : List Layer) → ls ≠ [] → allTrimmable ls → AllCover tokens ls → AllCover tokens' ls →
      tokens = tokens'
  | [], hne, _, _, _ => absurd rfl hne
  | l :: _, _, htrim, h, h' =>
    covers_unique l (Bool.and_eq_true_iff.mp htrim).1 h.1 h'.1

end

theorem take_sub {keys : Tokens} {offset m : Nat} (hle : offset ≤ keys.length) (n : Nat)
    (hn : n = offset - m) (hm : m ≤ offset) :
    offset - n ≤ keys.length ∧ keys.take (offset - n) = (keys.take offset).take m := by
  subst hn
  rw [List.take_take]
  have heq : offset - (offset - m) = min m offset := by omega
  rw [heq]
  exact ⟨by omega, rfl⟩

variable {l : Layer}

/-- A copy that is cut covers what is left. -/
theorem trimOffset_covers {m : Nat} (hm : m ≤ tokens.length)
    (h : l.Covers tokens) (hcut : l.isCut) :
    (l.trimOffset (tokens.length - m)).Covers (tokens.take m) := by
  cases l with
  | absent => cases hcut
  | cacheList caches => cases hcut
  | kv keys offset =>
    obtain ⟨hle, rfl⟩ := h
    rw [List.length_take, Nat.min_eq_left hle] at hm ⊢
    exact take_sub hle _ rfl hm
  | quantized keys offset =>
    obtain ⟨hle, rfl⟩ := h
    rw [List.length_take, Nat.min_eq_left hle] at hm ⊢
    exact take_sub hle _ rfl hm
  | rotating keys offset maxSize =>
    obtain ⟨-, hle, rfl⟩ := h
    rw [List.length_take, Nat.min_eq_left hle] at hm ⊢
    exact take_sub hle _ rfl hm
  | turboQuant keys =>
    cases h
    have heq : tokens.length - (tokens.length - m) = m := by omega
    rw [trimOffset, heq]
    exact rfl
  | other trimmable values array keys =>
    cases h
    have heq : tokens.length - (tokens.length - m) = m := by omega
    cases values with
    | true =>
      rw [trimOffset, heq]
      exact rfl
    | false =>
      cases array with
      | true =>
        rw [trimOffset, heq]
        exact ⟨hm, rfl⟩
      | false => cases hcut

/-- A copy that is not cut is the layer itself. -/
theorem trimOffset_uncut (hcut : l.isCut = false) (n : Nat) : l.trimOffset n = l := by
  cases l with
  | absent => rfl
  | cacheList caches => rfl
  | kv keys offset => cases hcut
  | quantized keys offset => cases hcut
  | turboQuant keys => cases hcut
  | rotating keys offset maxSize => cases hcut
  | other trimmable values array keys =>
    rw [isCut, Bool.or_eq_false_iff] at hcut
    rw [trimOffset, hcut.1, hcut.2]
    rfl

theorem trimToOffset_covers (h : l.Covers tokens) :
    l.trimToOffset.Covers tokens := by
  cases l with
  | kv keys offset =>
    rw [trimToOffset]
    split
    · refine ⟨?_, ?_⟩
      · rw [List.length_take]
        exact le_min (le_refl _) h.1
      · rw [List.take_take, Nat.min_self]
        exact h.2
    · exact h
  | _ => exact h

theorem quantize_covers (h : l.Covers tokens) :
    l.quantize.Covers tokens := by
  cases l with
  | _ => exact h

theorem turboquantCompress_covers (h : l.Covers tokens) :
    l.turboquantCompress.Covers tokens := by
  cases l with
  | kv keys offset => exact h.2
  | _ => exact h

theorem decompress_covers_iff (g : MemoryCacheConfig) :
    (decompress g l).Covers tokens ↔ l.Covers tokens := by
  unfold decompress
  split
  · cases l with
    | turboQuant keys => simp [turboquantDecompress, Covers]
    | _ => exact Iff.rfl
  · split
    · cases l with
      | _ => exact Iff.rfl
    · exact Iff.rfl

end Layer

section
variable {κ : Type} {L : LayerOps κ} {P : CacheEntry κ → Prop} {c : MemoryCache κ}

def Everywhere (P : CacheEntry κ → Prop) (c : MemoryCache κ) : Prop :=
  ∀ k e, c.entries.get? k = some e → P e

theorem Everywhere.reordered {c' : MemoryCache κ} (h : Everywhere P c) (hr : Reordered c c') :
    Everywhere P c' := by
  intro k e he
  rw [Dict.get?_of_perm hr.entries] at he
  exact h k e he

theorem Everywhere.drop (h : Everywhere P c) (k : Tokens) : Everywhere P (c.drop k).2 := by
  unfold MemoryCache.drop
  split
  · exact h
  · intro k' e he
    exact h k' e (Dict.get?_of_erase he)

theorem Everywhere.insert {e : CacheEntry κ} (h : Everywhere P c) (he : P e) :
    Everywhere P (c.insert e) := by
  intro k e' he'
  simp only [MemoryCache.insert] at he'
  rw [Dict.get?_set] at he'
  split at he'
  · cases he'
    exact he
  · exact h k e' he'

theorem Everywhere.dropAll (h : Everywhere P c) (keys : List Tokens) :
    Everywhere P (MemoryCache.dropAll keys c).2 := by
  induction keys generalizing c with
  | nil => exact h
  | cons key rest ih =>
    have hd := h.drop key
    rw [MemoryCache.dropAll]
    split
    · next heq =>
      rw [heq] at hd
      exact hd
    · next heq =>
      rw [heq] at hd
      exact ih hd

theorem Everywhere.evictLru (h : Everywhere P c) : Everywhere P c.evictLru.2 := by
  unfold MemoryCache.evictLru
  split
  · exact h
  · exact h.drop _

theorem Everywhere.evictUntilRoom (h : Everywhere P c) (size fuel : Nat) :
    Everywhere P (MemoryCache.evictUntilRoom size fuel c).2 := by
  induction fuel generalizing c with
  | zero => exact h
  | succ fuel ih =>
    have he := h.evictLru
    rw [MemoryCache.evictUntilRoom]
    split
    · split
      · next heq =>
        rw [heq] at he
        exact he
      · next heq =>
        rw [heq] at he
        exact ih he
    · exact h

theorem Everywhere.storeEntry {e : CacheEntry κ} (h : Everywhere P c) (he : P e)
    (evictPrefixes : Bool) : Everywhere P (c.storeEntry e evictPrefixes).2 := by
  unfold MemoryCache.storeEntry
  split
  · exact h.reordered (moveToEnd_reordered c e.tokens)
  · have hd := h.dropAll (if evictPrefixes then MemoryCache.prefixKeys e.tokens
      (c.sortedKeys.take (SortedIndex.bisectLeft c.sortedKeys e.tokens)).reverse else [])
    simp only
    split
    · next hdrop =>
      rw [hdrop] at hd
      exact hd
    · next c₁ hdrop =>
      rw [hdrop] at hd
      have hev := hd.evictUntilRoom e.memoryBytes c₁.entries.keys.length
      split
      · next hevict =>
        rw [hevict] at hev
        exact hev
      · next hevict =>
        rw [hevict] at hev
        exact hev.insert he

theorem Everywhere.store (h : Everywhere P c) (tokens : Tokens) (cache : List κ)
    (he : ∀ n, P ⟨tokens, MemoryCache.compress L c.config tokens cache, n⟩) (evictPrefixes : Bool) :
    Everywhere P (c.store L tokens cache evictPrefixes).2 := by
  unfold MemoryCache.store
  split
  · exact h
  · split
    · exact h.reordered (moveToEnd_reordered c tokens)
    · simp only
      split
      · exact h
      · exact h.storeEntry (he _) evictPrefixes

theorem Everywhere.remove (h : Everywhere P c) (tokens : Tokens) :
    Everywhere P (c.remove tokens).2 := by
  unfold MemoryCache.remove
  split
  · exact h.drop tokens
  · exact h

theorem Everywhere.loadEntries (h : Everywhere P c) (ds : List (DiskEntry κ))
    (hds : ∀ d ∈ ds, ∀ e, MemoryCache.readEntry L c.config d = some e → P e) :
    Everywhere P (MemoryCache.loadEntries L ds c).2 := by
  induction ds generalizing c with
  | nil => exact h
  | cons d ds ih =>
    have hrest : ∀ d' ∈ ds, ∀ e, MemoryCache.readEntry L c.config d' = some e → P e :=
      fun d' hd' => hds d' (List.mem_cons_of_mem _ hd')
    rw [MemoryCache.loadEntries]
    split
    · exact ih h hrest
    · next e he =>
      split
      · exact ih h hrest
      · split
        · exact h
        · exact ih (h.insert (hds d (List.mem_cons_self ..) e he)) hrest

theorem Everywhere.loadFromDisk (h : Everywhere P c) (d : Disk κ)
    (hd : ∀ s, d.recover = some s →
      ∀ en ∈ s.entries, ∀ e, MemoryCache.readEntry L c.config en = some e → P e) :
    Everywhere P (c.loadFromDisk L d).2 := by
  rcases loadFromDisk_cases (L := L) c d with ⟨-, heq⟩ | ⟨s, hs, -, heq⟩ <;> rw [heq]
  · exact h
  · exact h.loadEntries s.entries (hd s hs)

def trimmedEntry (L : LayerOps κ) (es : List (CacheEntry κ)) (tokens : Tokens) :
    Option (CacheEntry κ) :=
  match es.find? (fun e => e.tokens = tokens) with
  | some _ => none
  | none =>
    match (longestExtension tokens es).filter (trimmable L), longestPrefix tokens es with
    | some e, _ => some e
    | none, some _ => none
    | none, none => (mostShared tokens es).filter (trimmable L)

/-- A match that is trimmed keeps `n` of more positions. -/
structure Trims (L : LayerOps κ) (es : List (CacheEntry κ)) (tokens : Tokens) (e : CacheEntry κ)
    (n : Nat) : Prop where
  entry : trimmedEntry L es tokens = some e
  result : matchByScan L es tokens = some ⟨e, .trim, e.tokens.length - n, tokens.drop n⟩
  mem : e ∈ es
  trimmable : trimmable L e
  lt : n < e.tokens.length
  le : n ≤ tokens.length
  shared : e.tokens.take n = tokens.take n

structure Copies (L : LayerOps κ) (es : List (CacheEntry κ)) (tokens : Tokens) : Prop where
  entry : trimmedEntry L es tokens = none
  result : ∀ m ∈ matchByScan L es tokens, m.kind = .copy ∧ m.entry ∈ es ∧
    ∃ n ≤ tokens.length, m.remaining = tokens.drop n ∧ m.entry.tokens = tokens.take n

theorem trims_or_copies (L : LayerOps κ) (es : List (CacheEntry κ)) (tokens : Tokens) :
    (∃ e n, Trims L es tokens e n) ∨ Copies L es tokens := by
  cases hfind : es.find? (fun e => e.tokens = tokens) with
  | some e =>
    right
    refine ⟨by simp only [trimmedEntry, hfind], ?_⟩
    intro m hm
    simp only [matchByScan, hfind, Option.mem_def, Option.some.injEq] at hm
    subst hm
    have htok : e.tokens = tokens := by simpa using List.find?_some hfind
    exact ⟨rfl, List.mem_of_find?_eq_some hfind, tokens.length, le_refl _, by simp, by simp [htok]⟩
  | none =>
    have hne : ∀ e ∈ es, e.tokens ≠ tokens := by simpa using hfind
    cases hext : (longestExtension tokens es).filter (trimmable L) with
    | some e =>
      left
      obtain ⟨hlong, htrim⟩ := Option.filter_eq_some_iff.mp hext
      have hmem := List.mem_filter.mp (List.argmax_mem hlong)
      have hpre : tokens <+: e.tokens := of_decide_eq_true hmem.2
      have hlen : tokens.length ≠ e.tokens.length :=
        fun heq => hne e hmem.1 (hpre.eq_of_length heq).symm
      refine ⟨e, tokens.length, ?_, ?_, hmem.1, htrim, ?_, le_refl _, ?_⟩
      · simp only [trimmedEntry, hfind, hext]
      · simp only [matchByScan, hfind, hext, List.drop_length]
      · exact lt_of_le_of_ne hpre.length_le hlen
      · rw [List.take_length]
        exact (List.prefix_iff_eq_take.mp hpre).symm
    | none =>
      cases hlong : longestPrefix tokens es with
      | some e =>
        right
        refine ⟨by simp only [trimmedEntry, hfind, hext, hlong], ?_⟩
        intro m hm
        simp only [matchByScan, hfind, hext, hlong, Option.mem_def, Option.some.injEq] at hm
        subst hm
        have hmem := List.mem_filter.mp (List.argmax_mem hlong)
        have hpre := (of_decide_eq_true hmem.2).2
        exact ⟨rfl, hmem.1, e.tokens.length, hpre.length_le, rfl, List.prefix_iff_eq_take.mp hpre⟩
      | none =>
        cases hmost : (mostShared tokens es).filter (trimmable L) with
        | none =>
          right
          refine ⟨by simp only [trimmedEntry, hfind, hext, hlong, hmost], ?_⟩
          intro m hm
          simp [matchByScan, hfind, hext, hlong, hmost] at hm
        | some e =>
          left
          obtain ⟨hshared, htrim⟩ := Option.filter_eq_some_iff.mp hmost
          have hmem := List.mem_filter.mp (List.argmax_mem hshared)
          have hpos : 0 < lcp e.tokens tokens := of_decide_eq_true hmem.2
          have hlen : lcp e.tokens tokens ≠ e.tokens.length := by
            intro heq
            have hnil : e.tokens ≠ [] := by
              intro hnil
              rw [hnil] at hpos
              simp at hpos
            have hin : e ∈ es.filter fun e => e.tokens ≠ [] ∧ e.tokens <+: tokens :=
              List.mem_filter.mpr ⟨hmem.1, decide_eq_true ⟨hnil, lcp_eq_left_iff.mp heq⟩⟩
            rw [longestPrefix, List.argmax_eq_none] at hlong
            rw [hlong] at hin
            cases hin
          refine ⟨e, lcp e.tokens tokens, ?_, ?_, hmem.1, htrim, ?_, lcp_le_right _ _, take_lcp _ _⟩
          · simp only [trimmedEntry, hfind, hext, hlong, hmost]
          · simp only [matchByScan, hfind, hext, hlong, hmost, Option.map_some]
          · exact lt_of_le_of_ne (lcp_le_left _ _) hlen

def handOut (L : LayerOps κ) (tokens : Tokens) : Option (Match κ) → Option (List κ) × Tokens
  | none => (none, tokens)
  | some m =>
    (some (L.decompress (match m.kind with
      | .trim => L.trimBy m.entry.cache m.excess
      | .copy => m.entry.cache)), m.remaining)

theorem fetch_eq (h : Indexed c) (hne : tokens ≠ []) :
    (c.fetch L tokens).1 = .ok (handOut L tokens (matchByScan L (held c) tokens)) := by
  have hmatch := matchLocked_eq (L := L) h tokens
  unfold MemoryCache.fetch
  rw [if_neg hne]
  cases hres : c.matchLocked L tokens with
  | mk answer c' =>
    rw [hres] at hmatch
    have hanswer : answer = .ok (matchByScan L (held c) tokens) := hmatch
    subst hanswer
    cases matchByScan L (held c) tokens with
    | none => rfl
    | some m => rfl

end

variable {g : MemoryCacheConfig} {memory : List Layer → Nat} {c : MemoryCache Layer}

/-- What is stored or read from disk covers its tokens. -/
def Faithful (_ : MemoryCache Layer) : Op Layer → Prop
  | .store tokens cache _ => ∀ l ∈ cache, l.Covers tokens
  | .loadFromDisk d => ∀ s, d.recover = some s → ∀ en ∈ s.entries, ∀ cache,
      en.promptCache = some cache → ∀ l ∈ cache, l.Covers (en.tokensBin.take en.numTokens)
  | .fetch _ | .remove _ | .clear => True

/-- The caches of a configuration after calls that hand in such layers only. -/
abbrev Covering (g : MemoryCacheConfig) (memory : List Layer → Nat) : MemoryCache Layer → Prop :=
  Reached (fun c => MemoryCache.init g = .ok c) Faithful (exec (layerOps g memory))

def CoversKey (e : CacheEntry Layer) : Prop := ∀ l ∈ e.cache, l.Covers e.tokens

theorem compress_covers {cache : List Layer} (g' : MemoryCacheConfig)
    (h : ∀ l ∈ cache, l.Covers tokens) :
    ∀ l ∈ MemoryCache.compress (layerOps g memory) g' tokens cache, l.Covers tokens := by
  have htrim : ∀ l ∈ cache.map Layer.trimToOffset, l.Covers tokens := by
    intro l hl
    obtain ⟨l', hl', rfl⟩ := List.mem_map.mp hl
    exact Layer.trimToOffset_covers (h l' hl')
  unfold MemoryCache.compress
  split
  · intro l hl
    obtain ⟨l', hl', rfl⟩ := List.mem_map.mp hl
    exact Layer.turboquantCompress_covers (htrim l' hl')
  · split
    · intro l hl
      obtain ⟨l', hl', rfl⟩ := List.mem_map.mp hl
      exact Layer.quantize_covers (htrim l' hl')
    · exact htrim

theorem exec_covers (h : Everywhere CoversKey c) (op : Op Layer) (hop : Faithful c op) :
    Everywhere CoversKey (exec (layerOps g memory) c op) := by
  cases op with
  | store tokens cache evictPrefixes =>
    exact h.store tokens cache (fun _ => compress_covers c.config hop) evictPrefixes
  | fetch tokens => exact h.reordered (fetch_reordered c tokens)
  | remove tokens => exact h.remove tokens
  | clear =>
    intro k e he
    simp [exec, MemoryCache.clear] at he
  | loadFromDisk d =>
    apply h.loadFromDisk d
    intro s hs en hen e he
    unfold MemoryCache.readEntry at he
    split at he
    · cases hcache : en.promptCache with
      | none =>
        rw [hcache] at he
        cases he
      | some cache =>
        simp only [hcache] at he
        split at he
        · cases he
        · cases he
          exact hop s hs en hen cache hcache
    · cases he

theorem covering_covers (h : Covering g memory c) :
    (Configured c ∧ Indexed c) ∧ Everywhere CoversKey c := by
  refine h.invariant (I := fun c => (Configured c ∧ Indexed c) ∧ Everywhere CoversKey c) ?_ ?_
  · intro c hc
    have hindexed := init_indexed hc
    refine ⟨hindexed, ?_⟩
    intro k e he
    have hnil : c.entries = Dict.empty := by
      unfold MemoryCache.init at hc
      cases hv : g.validate with
      | error x =>
        rw [hv] at hc
        cases hc
      | ok u =>
        rw [hv] at hc
        cases hc
        rfl
    rw [hnil] at he
    simp at he
  · intro c op _ hc hop
    exact ⟨exec_indexed hc.1.1 hc.1.2 op, exec_covers hc.2 op hop⟩

/-- The layers that a fetch hands out cover the tokens it takes off the
request, and what is stored stays what it was. -/
def ReusesExactly (L : LayerOps Layer) (c : MemoryCache Layer) (tokens : Tokens) : Prop :=
  (∀ cache remaining, (c.fetch L tokens).1 = .ok (some cache, remaining) →
    ∀ l ∈ cache, l.Covers (tokens.take (tokens.length - remaining.length))) ∧
  (held (c.fetch L tokens).2).Perm (held c)

/-- Every layer of the entry that the request trims is one whose copy is cut. -/
def CutsAll (L : LayerOps Layer) (c : MemoryCache Layer) (tokens : Tokens) : Prop :=
  tokens ≠ [] → ∀ e ∈ trimmedEntry L (held c) tokens, ∀ l ∈ e.cache, l.isCut

theorem handOut_trim_iff {e : CacheEntry Layer} {n : Nat}
    (hcov : CoversKey e) (h : Trims (layerOps g memory) (held c) tokens e n) :
    (∀ l ∈ ((layerOps g memory).decompress ((layerOps g memory).trimBy e.cache
      (e.tokens.length - n))), l.Covers (tokens.take n)) ↔ ∀ l ∈ e.cache, l.isCut := by
  constructor
  · intro hall l hl
    by_contra hcut
    rw [Bool.not_eq_true] at hcut
    have hsame : l.Covers (tokens.take n) := by
      have hout := hall (decompress g (l.trimOffset (e.tokens.length - n)))
        (List.mem_map_of_mem (List.mem_map_of_mem hl))
      rwa [Layer.decompress_covers_iff, Layer.trimOffset_uncut hcut] at hout
    have htrim := List.all_eq_true.mp h.trimmable l hl
    have heq := congrArg List.length (Layer.covers_unique l htrim (hcov l hl) hsame)
    rw [List.length_take, Nat.min_eq_left h.le] at heq
    exact absurd heq (Nat.ne_of_gt h.lt)
  · intro hcut l hl
    obtain ⟨l₁, hl₁, rfl⟩ := List.mem_map.mp hl
    obtain ⟨l₂, hl₂, rfl⟩ := List.mem_map.mp hl₁
    rw [Layer.decompress_covers_iff, ← h.shared]
    exact Layer.trimOffset_covers h.lt.le (hcov l₂ hl₂) (hcut l₂ hl₂)

theorem drop_take_length {n : Nat} (hn : n ≤ tokens.length) :
    tokens.take (tokens.length - (tokens.drop n).length) = tokens.take n := by
  rw [List.length_drop]
  have heq : tokens.length - (tokens.length - n) = n := by omega
  rw [heq]

/-- A fetch reuses exactly the tokens it takes off the request if and only if
the entry that it trims, if it trims one, has no layer that is only copied. -/
theorem reuses_exactly_iff (h : Covering g memory c) (tokens : Tokens) :
    ReusesExactly (layerOps g memory) c tokens ↔ CutsAll (layerOps g memory) c tokens := by
  obtain ⟨⟨-, hindexed⟩, hcovers⟩ := covering_covers h
  have hkey : ∀ e ∈ held c, CoversKey e := fun e he => hcovers _ e ((mem_held hindexed).mp he)
  have hperm : (held (c.fetch (layerOps g memory) tokens).2).Perm (held c) :=
    (fetch_reordered c tokens).entries.map Prod.snd
  by_cases hne : tokens = []
  · subst hne
    refine ⟨fun _ hn => absurd rfl hn, fun _ => ⟨?_, hperm⟩⟩
    intro cache remaining hres
    cases hres
  · have hfetch := fetch_eq (L := layerOps g memory) hindexed hne
    rcases trims_or_copies (layerOps g memory) (held c) tokens with ⟨e, n, ht⟩ | hc
    · have hiff := handOut_trim_iff (c := c) (hkey e ht.mem) ht
      rw [ht.result] at hfetch
      constructor
      · rintro ⟨hall, -⟩ - e' he'
        rw [ht.entry] at he'
        cases he'
        apply hiff.mp
        rw [← drop_take_length ht.le]
        exact hall _ _ hfetch
      · intro hcut
        refine ⟨?_, hperm⟩
        intro cache remaining hres
        rw [hfetch] at hres
        cases hres
        rw [drop_take_length ht.le]
        exact hiff.mpr (hcut hne e ht.entry)
    · constructor
      · intro _ _ e he
        rw [hc.entry] at he
        cases he
      · intro _
        refine ⟨?_, hperm⟩
        intro cache remaining hres
        rw [hfetch] at hres
        cases hm : matchByScan (layerOps g memory) (held c) tokens with
        | none =>
          rw [hm] at hres
          cases hres
        | some m =>
          obtain ⟨hkind, hmem, n, hle, hrem, htok⟩ := hc.result m hm
          rw [hm] at hres
          simp only [handOut, hkind, hrem, Except.ok.injEq, Prod.mk.injEq, Option.some.injEq] at hres
          obtain ⟨rfl, rfl⟩ := hres
          intro l hl
          obtain ⟨l', hl', rfl⟩ := List.mem_map.mp hl
          rw [Layer.decompress_covers_iff, drop_take_length hle, ← htok]
          exact hkey _ hmem l' hl'

def plainConfig : MemoryCacheConfig := ⟨some 1, 0, id, true, 4, false, false, 256⟩

def plainCache (ops : List (Op Layer)) : MemoryCache Layer :=
  runList (exec (layerOps plainConfig List.length))
    { config := plainConfig
      entries := Dict.empty
      sortedKeys := []
      maxMemory := 1048576
      currentMemory := 0 } ops

theorem plainCache_covering {ops : List (Op Layer)}
    (hok : AllOk Faithful (exec (layerOps plainConfig List.length)) (plainCache []) ops) :
    Covering plainConfig List.length (plainCache ops) := by
  have hstart : Covering plainConfig List.length (plainCache []) := .start rfl
  exact Reached.runList hstart hok

/-- A rotating layer within its window and a plain one are cut. -/
theorem reuses_exactly_window :
    let c := plainCache [.store [1, 2, 3] [.kv [1, 2, 3, 0] 3, .rotating [1, 2, 3] 3 8] true]
    ReusesExactly (layerOps plainConfig List.length) c [1, 2] ↔
      CutsAll (layerOps plainConfig List.length) c [1, 2] := by
  intro c
  have hlayers : ∀ l ∈ [Layer.kv [1, 2, 3, 0] 3, .rotating [1, 2, 3] 3 8], l.Covers [1, 2, 3] := by
    intro l hl
    rcases List.mem_pair.mp hl with rfl | rfl
    · exact ⟨by decide, rfl⟩
    · exact ⟨by decide, by decide, rfl⟩
  have hcov : Covering plainConfig List.length c := plainCache_covering ⟨hlayers, trivial⟩
  exact reuses_exactly_iff hcov [1, 2]

/-- A list of layers for three tokens is handed out whole for two. -/
theorem nested_layers_uncut :
    ¬ ∀ g memory c, Covering g memory c → ∀ tokens, ReusesExactly (layerOps g memory) c tokens := by
  intro hall
  let e : CacheEntry Layer := ⟨[1, 2, 3], [.cacheList [.kv [1, 2, 3] 3]], 1⟩
  let c := plainCache [.store e.tokens e.cache true]
  have hlayers : ∀ l ∈ e.cache, l.Covers e.tokens := by
    intro l hl
    cases List.mem_singleton.mp hl
    exact ⟨by simp, ⟨by decide, rfl⟩, trivial⟩
  have hcov : Covering plainConfig List.length c := plainCache_covering ⟨hlayers, trivial⟩
  have hheld : held c = [e] := rfl
  have hmatch : matchByScan (layerOps plainConfig List.length) [e] [1, 2] = some ⟨e, .trim, 1, []⟩ :=
    rfl
  have hfetch := fetch_eq (L := layerOps plainConfig List.length)
    (covering_covers hcov).1.2 (List.cons_ne_nil 1 [2])
  rw [hheld, hmatch] at hfetch
  obtain ⟨-, ⟨-, hkv⟩, -⟩ := (hall _ _ c hcov [1, 2]).1 _ _ hfetch _ (List.mem_singleton.mpr rfl)
  exact absurd hkv (by decide)

end FusionMlx.TrimmedLayers
