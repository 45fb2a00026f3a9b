import FusionMlx.Cache.MemoryRepresentation
import FusionMlx.Support.CommonPrefix
import Mathlib.Data.Prod.Lex
import Mathlib.Data.Sum.Order

/-!
# A lookup finds what a scan of all entries finds

The lookup looks at the neighbours of the insertion point and runs along the
index from there. A scan of all entries, each measured against the request,
chooses the same entry: the exact one, the longest extension if it can be
trimmed, the longest prefix, the one that shares most if it can be trimmed.
-/
namespace FusionMlx.MatchScan

open BlockHashing (PyError)
open OrderedDict SortedIndex Runs MemoryPrefixCache MemoryRepresentation CommonPrefix

variable {κ : Type} {L : LayerOps κ} {c : MemoryCache κ} {tokens k : Tokens}

deriving instance DecidableEq for CacheEntry, MatchKind, Match

def extensionRank (key : Tokens) : ℕ ×ₗ Tokensᵒᵈ := toLex (key.length, OrderDual.toDual key)

def side (tokens key : Tokens) : Tokensᵒᵈ ⊕ₗ Tokens :=
  if key < tokens then toLex (.inr key) else toLex (.inl (OrderDual.toDual key))

def sharedRank (tokens key : Tokens) : ℕ ×ₗ (Tokensᵒᵈ ⊕ₗ Tokens) :=
  toLex (lcp key tokens, side tokens key)

def longestExtension (tokens : Tokens) (es : List (CacheEntry κ)) : Option (CacheEntry κ) :=
  (es.filter fun e => tokens <+: e.tokens).argmax fun e => extensionRank e.tokens

def longestPrefix (tokens : Tokens) (es : List (CacheEntry κ)) : Option (CacheEntry κ) :=
  (es.filter fun e => e.tokens ≠ [] ∧ e.tokens <+: tokens).argmax fun e => e.tokens.length

def mostShared (tokens : Tokens) (es : List (CacheEntry κ)) : Option (CacheEntry κ) :=
  (es.filter fun e => 0 < lcp e.tokens tokens).argmax fun e => sharedRank tokens e.tokens

def trimmable (L : LayerOps κ) (e : CacheEntry κ) : Bool := e.cache.all L.trimmable

def matchByScan (L : LayerOps κ) (es : List (CacheEntry κ)) (tokens : Tokens) : Option (Match κ) :=
  match es.find? (fun e => e.tokens = tokens) with
  | some e => some ⟨e, .copy, 0, []⟩
  | none =>
    match (longestExtension tokens es).filter (trimmable L), longestPrefix tokens es with
    | some e, _ => some ⟨e, .trim, e.tokens.length - tokens.length, []⟩
    | none, some e => some ⟨e, .copy, 0, tokens.drop e.tokens.length⟩
    | none, none =>
      ((mostShared tokens es).filter (trimmable L)).map fun e =>
        ⟨e, .trim, e.tokens.length - lcp e.tokens tokens, tokens.drop (lcp e.tokens tokens)⟩

theorem lcp_eq (as bs : Tokens) : MemoryCache.lcp as bs = lcp as bs := by
  induction as generalizing bs with
  | nil => simp [MemoryCache.lcp]
  | cons a as ih =>
    cases bs with
    | nil => simp [MemoryCache.lcp]
    | cons b bs => rw [MemoryCache.lcp, lcp_cons_cons, ih]

theorem mem_held (h : Indexed c) {e : CacheEntry κ} :
    e ∈ held c ↔ c.entries.get? e.tokens = some e := by
  constructor
  · intro he
    obtain ⟨⟨k, e'⟩, hp, rfl⟩ := List.mem_map.mp he
    have hget := (Dict.get?_eq_some_iff c.entries k e').mpr hp
    rwa [h.tokens k e' hget]
  · intro he
    exact List.mem_map.mpr ⟨_, (Dict.get?_eq_some_iff c.entries _ e).mp he, rfl⟩

theorem held_unique (h : Indexed c) {e e' : CacheEntry κ} (he : e ∈ held c) (he' : e' ∈ held c)
    (heq : e.tokens = e'.tokens) : e = e' := by
  rw [mem_held h] at he he'
  rw [heq, he'] at he
  cases he
  rfl

theorem mem_sortedKeys (h : Indexed c) : k ∈ c.sortedKeys ↔ ∃ e ∈ held c, e.tokens = k := by
  rw [h.keys, Dict.mem_keys_iff]
  constructor
  · rintro ⟨e, he⟩
    have ht := h.tokens k e he
    exact ⟨e, (mem_held h).mpr (ht ▸ he), ht⟩
  · rintro ⟨e, he, rfl⟩
    exact ⟨e, (mem_held h).mp he⟩

variable {r : Option (CacheEntry κ)}

/-- The entry of a greatest key is the greatest entry. -/
theorem greatest_held {β : Type} [LinearOrder β] {p : Tokens → Prop} [DecidablePred p]
    {f : Tokens → β} (h : Indexed c)
    (hr : ∀ e ∈ r, c.entries.get? e.tokens = some e)
    (hg : Greatest p f c.sortedKeys (r.map CacheEntry.tokens))
    (hinj : ∀ k k', p k → p k' → f k = f k' → k = k') :
    ((held c).filter fun e => p e.tokens).argmax (fun e => f e.tokens) = r := by
  have hheld : Greatest (fun e : CacheEntry κ => p e.tokens) (fun e => f e.tokens) (held c) r := by
    constructor
    · intro e he
      exact ⟨(mem_held h).mpr (hr e he), (hg.1 e.tokens (Option.mem_map_of_mem _ he)).2⟩
    · intro a ha hp
      obtain ⟨k, hk, hle⟩ := hg.2 a.tokens ((mem_sortedKeys h).mpr ⟨a, ha, rfl⟩) hp
      obtain ⟨e, he, rfl⟩ := Option.mem_map.mp hk
      exact ⟨e, he, hle⟩
  apply hheld.argmax
  intro a ha b hb hpa hpb heq
  exact held_unique h ha hb (hinj _ _ hpa hpb heq)

theorem take_eq_iff {as bs : Tokens} : bs.take as.length = as ↔ as <+: bs := by
  rw [List.prefix_iff_eq_take]
  exact eq_comm

theorem head?_eq_of_lcp {as bs : Tokens} (h : 0 < lcp as bs) : as.head? = bs.head? := by
  cases as with
  | nil => simp at h
  | cons a as =>
    cases bs with
    | nil => simp at h
    | cons b bs =>
      rw [lcp_cons_cons] at h
      split at h
      · next hab => simp [hab]
      · simp at h

/-- Backwards, the first prefix is the longest. -/
theorem scanPrefix_greatest (h : Indexed c) {l : List Tokens}
    (hl : l.Pairwise (· > ·)) (hbelow : ∀ k ∈ l, k < tokens) (hk : ∀ k ∈ l, k ∈ c.sortedKeys)
    (hr : c.scanPrefix tokens l = .ok r) :
    Greatest (fun k => k ≠ [] ∧ k <+: tokens) List.length l (r.map CacheEntry.tokens) := by
  induction l with
  | nil =>
    cases hr
    exact .nil
  | cons key rest ih =>
    rw [List.pairwise_cons] at hl
    have hkey := hbelow key (List.mem_cons_self ..)
    have ihr := ih hl.2 (fun k hkr => hbelow k (List.mem_cons_of_mem _ hkr))
      (fun k hkr => hk k (List.mem_cons_of_mem _ hkr))
    rw [MemoryCache.scanPrefix] at hr
    split at hr
    · next hlen =>
      refine (ihr hr).skip fun hp => ?_
      exact absurd (hp.2.eq_of_length_le hlen) (ne_of_lt hkey)
    · split at hr
      · next htake =>
        have hpre := take_eq_iff.mp htake
        split at hr
        · next hpos =>
          obtain ⟨e, hlook, he⟩ := lookup_ok h (hk key (List.mem_cons_self ..))
          rw [hlook] at hr
          cases hr
          have htok := h.tokens key e he
          constructor
          · intro k hke
            cases hke
            rw [htok]
            exact ⟨List.mem_cons_self .., List.ne_nil_of_length_pos hpos, hpre⟩
          · intro a ha hp
            refine ⟨e.tokens, rfl, ?_⟩
            rw [htok]
            cases List.mem_cons.mp ha with
            | inl ha => rw [ha]
            | inr ha =>
              by_contra hlt
              have hka := List.prefix_of_prefix_length_le hpre hp.2 (Nat.le_of_not_le hlt)
              exact absurd (hl.1 a ha) (not_lt_of_ge (prefix_le hka))
        · next hpos =>
          cases hr
          have hnil : key = [] := List.eq_nil_of_length_eq_zero (Nat.eq_zero_of_not_pos hpos)
          subst hnil
          constructor
          · simp
          · intro a ha hp
            cases List.mem_cons.mp ha with
            | inl ha => exact absurd ha hp.1
            | inr ha => exact absurd (hl.1 a ha) (List.not_lt_nil a)
      · next hno =>
        split at hr
        · next hhead =>
          cases hr
          constructor
          · simp
          · intro a ha hp
            cases List.mem_cons.mp ha with
            | inl ha => exact absurd (take_eq_iff.mpr (ha ▸ hp.2)) hno
            | inr ha =>
              have hmono := lcp_mono_below (hl.1 a ha).le hkey.le
              rw [lcp_eq_left_iff.mpr hp.2] at hmono
              have hpos := List.length_pos_of_ne_nil hp.1
              exact absurd (head?_eq_of_lcp (hpos.trans_le hmono)) hhead
        · exact (ihr hr).skip fun hp => absurd (take_eq_iff.mpr hp.2) hno

/-- Forwards, the extensions come first and the first longest is kept. -/
theorem scanSuper_greatest (h : Indexed c) {l before : List Tokens} {b : Option (CacheEntry κ)}
    (hb : Greatest (fun k => tokens <+: k) extensionRank before (b.map CacheEntry.tokens))
    (hl : l.Pairwise (· < ·)) (habove : ∀ k ∈ l, tokens ≤ k)
    (hlater : ∀ e ∈ b, ∀ k ∈ l, e.tokens ≤ k) (hk : ∀ k ∈ l, k ∈ c.sortedKeys)
    (hr : c.scanSuper tokens b l = .ok r) :
    Greatest (fun k => tokens <+: k) extensionRank (l.reverseAux before)
      (r.map CacheEntry.tokens) := by
  induction l generalizing b before with
  | nil =>
    rw [MemoryCache.scanSuper] at hr
    cases hr
    exact hb
  | cons key rest ih =>
    rw [List.pairwise_cons] at hl
    have hrest : ∀ k ∈ rest, k ∈ key :: rest := fun k hkr => List.mem_cons_of_mem _ hkr
    have ihr : ∀ {b' : Option (CacheEntry κ)},
        Greatest (fun k => tokens <+: k) extensionRank (key :: before) (b'.map CacheEntry.tokens) →
        (∀ e ∈ b', ∀ k ∈ rest, e.tokens ≤ k) → c.scanSuper tokens b' rest = .ok r →
        Greatest (fun k => tokens <+: k) extensionRank (List.reverseAux (key :: rest) before)
          (r.map CacheEntry.tokens) :=
      fun hb' hlat => ih hb' hl.2 (fun k hkr => habove k (hrest k hkr)) hlat
        (fun k hkr => hk k (hrest k hkr))
    have hkeep : ∀ e ∈ b, ∀ k ∈ rest, e.tokens ≤ k := fun e he k hkr => hlater e he k (hrest k hkr)
    rw [MemoryCache.scanSuper] at hr
    split at hr
    · next hlen =>
      exact ihr (hb.skip fun hp => absurd hp.length_le (Nat.not_le.mpr hlen)) hkeep hr
    · split at hr
      · next htake =>
        have hext := take_eq_iff.mp htake
        split at hr
        · next hall =>
          obtain ⟨e, hlook, he⟩ := lookup_ok h (hk key (List.mem_cons_self ..))
          rw [hlook] at hr
          have htok := h.tokens key e he
          refine ihr ?_ ?_ hr
          · rw [Option.map_some, htok]
            refine hb.take hext fun k hkb => ?_
            obtain ⟨e', he', rfl⟩ := Option.mem_map.mp hkb
            have hlt := Option.all_eq_true _ _ |>.mp hall e' he'
            exact (Prod.Lex.toLex_lt_toLex.mpr (.inl (of_decide_eq_true hlt))).le
          · intro e' he' k hkr
            cases he'
            rw [htok]
            exact (hl.1 k hkr).le
        · next hall =>
          refine ihr (hb.skip fun _ => ?_) hkeep hr
          cases b with
          | none => simp at hall
          | some e =>
            refine ⟨e.tokens, rfl, Prod.Lex.toLex_le_toLex.mpr ?_⟩
            simp only [Option.all_some, decide_eq_true_eq, Nat.not_lt] at hall
            cases Nat.lt_or_eq_of_le hall with
            | inl hlt => exact .inl hlt
            | inr heq => exact .inr ⟨heq, hlater e rfl key (List.mem_cons_self ..)⟩
      · next hno =>
        cases hr
        refine hb.widen (fun a ha => List.mem_reverseAux.mpr (.inr ha)) fun a ha hp => ?_
        cases List.mem_reverseAux.mp ha with
        | inr ha => exact ⟨a, ha, hp, le_refl _⟩
        | inl ha =>
          have hle : key ≤ a := by
            cases List.mem_cons.mp ha with
            | inl ha => exact ha.ge
            | inr ha => exact (hl.1 a ha).le
          have hpre := prefix_of_between (habove key (List.mem_cons_self ..)) hle hp
          exact absurd (take_eq_iff.mpr hpre) hno

def Shares (tokens : Tokens) (b : Option (CacheEntry κ) × Nat) : Prop :=
  b.2 = (b.1.map fun e => lcp e.tokens tokens).getD 0

variable {k' : Tokens}

theorem sharedRank_le {k : Tokens} (hle : lcp k tokens ≤ lcp k' tokens)
    (hside : side tokens k ≤ side tokens k') : sharedRank tokens k ≤ sharedRank tokens k' := by
  rw [sharedRank, sharedRank, Prod.Lex.toLex_le_toLex]
  cases Nat.lt_or_eq_of_le hle with
  | inl hlt => exact .inl hlt
  | inr heq => exact .inr ⟨heq, hside⟩

theorem scanLcp_greatest (h : Indexed c) {l before : List Tokens}
    {b r : Option (CacheEntry κ) × Nat} (hs : Shares tokens b)
    (hb : Greatest (fun k => 0 < lcp k tokens) (sharedRank tokens) before
      (b.1.map CacheEntry.tokens))
    (hl : l.Pairwise (fun k k' => side tokens k' ≤ side tokens k)) (hne : tokens ∉ l)
    (hlater : ∀ e ∈ b.1, ∀ k ∈ l, side tokens k ≤ side tokens e.tokens)
    (hk : ∀ k ∈ l, k ∈ c.sortedKeys) (hr : c.scanLcp tokens b l = .ok r) :
    Shares tokens r ∧ Greatest (fun k => 0 < lcp k tokens) (sharedRank tokens)
      (l.reverseAux before) (r.1.map CacheEntry.tokens) := by
  induction l generalizing b before with
  | nil =>
    rw [MemoryCache.scanLcp] at hr
    cases hr
    exact ⟨hs, hb⟩
  | cons key rest ih =>
    rw [List.pairwise_cons] at hl
    have hrest : ∀ k ∈ rest, k ∈ key :: rest := fun k hkr => List.mem_cons_of_mem _ hkr
    -- an entry that shares no more than the best so far is passed over
    have hskip : lcp key tokens ≤ b.2 → 0 < lcp key tokens →
        ∃ k ∈ b.1.map CacheEntry.tokens, sharedRank tokens key ≤ sharedRank tokens k := by
      intro hle hpos
      obtain ⟨best, n⟩ := b
      cases best with
      | none =>
        simp only [Shares, Option.map_none, Option.getD_none] at hs
        omega
      | some e =>
        simp only [Shares, Option.map_some, Option.getD_some] at hs
        refine ⟨e.tokens, rfl, sharedRank_le (hs ▸ hle) ?_⟩
        exact hlater e rfl key (List.mem_cons_self ..)
    have hpass : lcp key tokens ≤ b.2 → c.scanLcp tokens b rest = .ok r →
        Shares tokens r ∧ Greatest (fun k => 0 < lcp k tokens) (sharedRank tokens)
          (List.reverseAux (key :: rest) before) (r.1.map CacheEntry.tokens) := by
      intro hle hr
      exact ih hs (hb.skip (hskip hle)) hl.2 (fun hmem => hne (hrest _ hmem))
        (fun e he k hkr => hlater e he k (hrest k hkr)) (fun k hkr => hk k (hrest k hkr)) hr
    rw [MemoryCache.scanLcp, lcp_eq] at hr
    split at hr
    · next heq => exact absurd (heq ▸ List.mem_cons_self ..) hne
    · split at hr
      · next hmin =>
        exact hpass ((le_min (lcp_le_left key tokens) (lcp_le_right key tokens)).trans hmin) hr
      · split at hr
        · next hlt =>
          obtain ⟨e, hlook, he⟩ := lookup_ok h (hk key (List.mem_cons_self ..))
          rw [hlook] at hr
          have htok := h.tokens key e he
          refine ih ?_ ?_ hl.2 (fun hmem => hne (hrest _ hmem)) ?_
            (fun k hkr => hk k (hrest k hkr)) hr
          · simp [Shares, htok]
          · rw [Option.map_some, htok]
            refine hb.take (Nat.zero_lt_of_lt hlt) fun k hkb => ?_
            obtain ⟨e', he', rfl⟩ := Option.mem_map.mp hkb
            have hs' : b.2 = lcp e'.tokens tokens := by
              rw [Shares, Option.mem_def.mp he'] at hs
              exact hs
            rw [hs'] at hlt
            exact (Prod.Lex.toLex_lt_toLex.mpr (.inl hlt)).le
          · intro e' he' k hkr
            cases he'
            rw [htok]
            exact hl.1 k hkr
        · next hge => exact hpass (Nat.le_of_not_lt hge) hr

theorem side_below {k : Tokens} (hle : k ≤ k') (hlt : k' < tokens) :
    side tokens k ≤ side tokens k' := by
  rw [side, side, if_pos hlt, if_pos (hle.trans_lt hlt)]
  exact Sum.Lex.inr_le_inr_iff.mpr hle

theorem side_above {k : Tokens} (hlt : tokens < k') (hle : k' ≤ k) :
    side tokens k ≤ side tokens k' := by
  have hk : ¬ k < tokens := (hlt.trans_le hle).not_gt
  have hk' : ¬ k' < tokens := hlt.not_gt
  simp only [side, hk, hk', if_false]
  exact Sum.Lex.inl_le_inl_iff.mpr hle

theorem side_across {k : Tokens} (hlt : k' < tokens) (hgt : tokens < k) :
    side tokens k ≤ side tokens k' := by
  have hk : ¬ k < tokens := hgt.not_gt
  simp only [side, hlt, hk, if_true, if_false]
  exact Sum.Lex.inl_le_inr _ _

theorem side_injective : Function.Injective (side tokens) := by
  intro k k' heq
  unfold side at heq
  split at heq <;> split at heq <;> simp at heq <;> exact heq

theorem below_request (h : Indexed c) :
    ∀ k ∈ c.sortedKeys.take (bisectLeft c.sortedKeys tokens), k < tokens := by
  intro k hk
  simpa using mem_take_bisect (left_splits h.sorted) hk

theorem above_request (h : Indexed c) (hne : tokens ∉ c.sortedKeys) :
    ∀ k ∈ c.sortedKeys.drop (bisectLeft c.sortedKeys tokens), tokens < k := by
  intro k hk
  have hge : tokens ≤ k := by simpa using mem_drop_bisect (left_splits h.sorted) hk
  exact lt_of_le_of_ne hge fun heq => hne (heq ▸ List.mem_of_mem_drop hk)

theorem neighbours_sides (h : Indexed c) (hne : tokens ∉ c.sortedKeys) :
    (MemoryCache.neighbours c.sortedKeys (bisectLeft c.sortedKeys tokens)).Pairwise
      fun k k' => side tokens k' ≤ side tokens k := by
  rw [MemoryCache.neighbours, List.pairwise_append]
  refine ⟨?_, ?_, ?_⟩
  · cases (c.sortedKeys.take (bisectLeft c.sortedKeys tokens)).getLast? <;> simp
  · cases (c.sortedKeys.drop (bisectLeft c.sortedKeys tokens)).head? <;> simp
  · intro k hk k' hk'
    rw [Option.mem_toList] at hk hk'
    exact side_across (below_request h k (List.mem_of_getLast? hk))
      (above_request h hne k' (List.mem_of_mem_head? hk'))

/-- Every key has a neighbour of the insertion point on its side that shares as much. -/
theorem neighbours_dominate (h : Indexed c) (hne : tokens ∉ c.sortedKeys) {a : Tokens}
    (ha : a ∈ c.sortedKeys) :
    ∃ b ∈ MemoryCache.neighbours c.sortedKeys (bisectLeft c.sortedKeys tokens),
      lcp a tokens ≤ lcp b tokens ∧ sharedRank tokens a ≤ sharedRank tokens b := by
  have hbelow := @below_request _ c tokens h
  have habove := above_request h hne
  have hcut := List.take_append_drop (bisectLeft c.sortedKeys tokens) c.sortedKeys
  have hsorted := h.sorted
  rw [← hcut, List.pairwise_append] at hsorted
  rw [← hcut, List.mem_append] at ha
  simp only [MemoryCache.neighbours, List.mem_append, Option.mem_toList]
  cases ha with
  | inl ha =>
    obtain ⟨init, b, heq⟩ := List.eq_nil_or_concat _ |>.resolve_left (List.ne_nil_of_mem ha)
    rw [heq, List.concat_eq_append] at hsorted hbelow ha ⊢
    have hlast : a ≤ b := by
      cases List.mem_append.mp ha with
      | inl hin => exact ((List.pairwise_append.mp hsorted.1).2.2 a hin b (by simp)).le
      | inr hin => exact (List.mem_singleton.mp hin).le
    have hb := hbelow b (by simp)
    have hmono := lcp_mono_below hlast hb.le
    exact ⟨b, .inl (by simp), hmono, sharedRank_le hmono (side_below hlast hb)⟩
  | inr ha =>
    cases hrest : c.sortedKeys.drop (bisectLeft c.sortedKeys tokens) with
    | nil =>
      rw [hrest] at ha
      cases ha
    | cons b rest =>
      rw [hrest] at hsorted habove ha
      have hfirst : b ≤ a := by
        cases List.mem_cons.mp ha with
        | inl hin => exact hin.ge
        | inr hin => exact ((List.pairwise_cons.mp hsorted.2.1).1 a hin).le
      have hb := habove b (List.mem_cons_self ..)
      have hmono := lcp_mono_above hb.le hfirst
      exact ⟨b, .inr rfl, hmono, sharedRank_le hmono (side_above hb hfirst)⟩

theorem mostShared_eq (h : Indexed c) (hne : tokens ∉ c.sortedKeys)
    {r : Option (CacheEntry κ) × Nat}
    (hr : c.scanLcp tokens (none, 0)
      (MemoryCache.neighbours c.sortedKeys (bisectLeft c.sortedKeys tokens)) = .ok r)
    (hget : ∀ e ∈ r.1, c.entries.get? e.tokens = some e) :
    Shares tokens r ∧ mostShared tokens (held c) = r.1 := by
  have hkeys := neighbours_sorted c (bisectLeft c.sortedKeys tokens)
  obtain ⟨hs, hg⟩ := scanLcp_greatest h (b := (none, 0)) rfl .nil (neighbours_sides h hne)
    (fun hmem => hne (hkeys _ hmem)) (by simp) hkeys hr
  refine ⟨hs, ?_⟩
  have hall : Greatest (fun k => 0 < lcp k tokens) (sharedRank tokens) c.sortedKeys
      (r.1.map CacheEntry.tokens) := by
    refine hg.widen ?_ ?_
    · intro k hk
      cases List.mem_reverseAux.mp hk with
      | inl hk => exact hkeys k hk
      | inr hk => cases hk
    · intro a ha hp
      obtain ⟨b, hb, hle, hrank⟩ := neighbours_dominate h hne ha
      exact ⟨b, List.mem_reverseAux.mpr (.inl hb), hp.trans_le hle, hrank⟩
  refine greatest_held h hget hall fun k k' _ _ heq => ?_
  exact side_injective (Prod.mk.inj (toLex_inj.mp heq)).2

theorem longestPrefix_eq (h : Indexed c) (hne : tokens ∉ c.sortedKeys)
    (hr : c.scanPrefix tokens (c.sortedKeys.take (bisectLeft c.sortedKeys tokens)).reverse = .ok r)
    (hget : ∀ e ∈ r, c.entries.get? e.tokens = some e) :
    longestPrefix tokens (held c) = r := by
  have hg := scanPrefix_greatest h (List.pairwise_reverse.mpr (h.sorted.sublist (List.take_sublist ..)))
    (fun k hk => below_request h k (List.mem_reverse.mp hk))
    (fun k hk => List.mem_of_mem_take (List.mem_reverse.mp hk)) hr
  have hall : Greatest (fun k => k ≠ [] ∧ k <+: tokens) List.length c.sortedKeys
      (r.map CacheEntry.tokens) := by
    refine hg.widen (fun k hk => List.mem_of_mem_take (List.mem_reverse.mp hk)) ?_
    intro a ha hp
    have hlt : a < tokens := prefix_lt hp.2 fun heq => hne (heq ▸ ha)
    refine ⟨a, List.mem_reverse.mpr ?_, hp, le_refl _⟩
    rw [← List.take_append_drop (bisectLeft c.sortedKeys tokens) c.sortedKeys] at ha
    cases List.mem_append.mp ha with
    | inl ha => exact ha
    | inr ha => exact absurd hlt (above_request h hne a ha).not_gt
  refine greatest_held h hget hall fun k k' hp hp' heq => ?_
  exact (List.prefix_of_prefix_length_le hp.2 hp'.2 heq.le).eq_of_length heq

theorem longestExtension_eq (h : Indexed c) (hne : tokens ∉ c.sortedKeys)

    (hr : c.scanSuper tokens none (c.sortedKeys.drop (bisectLeft c.sortedKeys tokens)) = .ok r)
    (hget : ∀ e ∈ r, c.entries.get? e.tokens = some e) :
    longestExtension tokens (held c) = r := by
  have hg := scanSuper_greatest h (b := none) .nil (h.sorted.sublist (List.drop_sublist ..))
    (fun k hk => (above_request h hne k hk).le) (by simp) (fun k hk => List.mem_of_mem_drop hk) hr
  have hall : Greatest (fun k => tokens <+: k) extensionRank c.sortedKeys
      (r.map CacheEntry.tokens) := by
    refine hg.widen ?_ ?_
    · intro k hk
      cases List.mem_reverseAux.mp hk with
      | inl hk => exact List.mem_of_mem_drop hk
      | inr hk => cases hk
    · intro a ha hp
      refine ⟨a, List.mem_reverseAux.mpr (.inl ?_), hp, le_refl _⟩
      rw [← List.take_append_drop (bisectLeft c.sortedKeys tokens) c.sortedKeys] at ha
      cases List.mem_append.mp ha with
      | inl ha => exact absurd (below_request h a ha) (not_lt_of_ge (prefix_le hp))
      | inr ha => exact ha
  refine greatest_held h hget hall fun k k' _ _ heq => ?_
  exact OrderDual.toDual.injective (Prod.mk.inj (toLex_inj.mp heq)).2

theorem hasNonTrimmable_eq (e : CacheEntry κ) :
    MemoryCache.hasNonTrimmable L e.cache = !trimmable L e := by
  rw [MemoryCache.hasNonTrimmable, trimmable, List.not_all_eq_any_not]

theorem matchLcp_eq (h : Indexed c) (hne : tokens ∉ c.sortedKeys) :
    (c.matchLcp L tokens).1 =
      .ok (((mostShared tokens (held c)).filter (trimmable L)).map fun e =>
        ⟨e, .trim, e.tokens.length - lcp e.tokens tokens, tokens.drop (lcp e.tokens tokens)⟩) := by
  obtain ⟨⟨best, n⟩, hscan, hget⟩ := scanLcp_ok h tokens (b := (none, 0)) (by simp)
    (neighbours_sorted c (bisectLeft c.sortedKeys tokens))
  obtain ⟨hs, hmost⟩ := mostShared_eq h hne hscan hget
  unfold MemoryCache.matchLcp
  rw [hscan, hmost]
  cases best with
  | none => rfl
  | some e =>
    have hpos : 0 < lcp e.tokens tokens := by
      have hmem := List.argmax_mem hmost
      simpa using (List.mem_filter.mp hmem).2
    have hn : n = lcp e.tokens tokens := hs
    subst hn
    simp only [hasNonTrimmable_eq, hpos, true_and]
    cases htrim : trimmable L e with
    | true =>
      simp only [Bool.not_true, if_true]
      rw [hit_ok (hget e rfl), Option.filter_some_pos htrim]
      rfl
    | false => simp [Option.filter_some_neg htrim]

/-- On every cache and for every request the lookup answers as the scan of all entries does. -/
theorem matchLocked_eq (h : Indexed c) (tokens : Tokens) :
    (c.matchLocked L tokens).1 = .ok (matchByScan L (held c) tokens) := by
  unfold MemoryCache.matchLocked matchByScan
  cases hget : c.entries.get? tokens with
  | some e =>
    have htok := h.tokens tokens e hget
    have hfind : (held c).find? (fun e => e.tokens = tokens) = some e := by
      cases hf : (held c).find? (fun e => e.tokens = tokens) with
      | none =>
        have hno := List.find?_eq_none.mp hf e ((mem_held h).mpr (htok ▸ hget))
        simp [htok] at hno
      | some e' =>
        have htok' : e'.tokens = tokens := by simpa using List.find?_some hf
        have heq := held_unique h (List.mem_of_find?_eq_some hf)
          ((mem_held h).mpr (htok ▸ hget)) (htok'.trans htok.symm)
        rw [heq]
    simp only [hfind]
    rw [moveToEnd_ok ((c.entries.mem_keys_iff _).mpr ⟨_, hget⟩)]
    rfl
  | none =>
    have hne : tokens ∉ c.sortedKeys := by
      rw [h.keys]
      exact Dict.get?_eq_none_iff.mp hget
    have hfind : (held c).find? (fun e => e.tokens = tokens) = none := by
      rw [List.find?_eq_none]
      intro e he
      have htok : e.tokens ≠ tokens := fun heq => hne ((mem_sortedKeys h).mpr ⟨e, he, heq⟩)
      simpa using htok
    obtain ⟨best, hpre, hbest⟩ := scanPrefix_ok h tokens
      (l := (c.sortedKeys.take (bisectLeft c.sortedKeys tokens)).reverse)
      (fun k hk => List.mem_of_mem_take (List.mem_reverse.mp hk))
    obtain ⟨super, hsup, hsuper⟩ := scanSuper_ok h tokens (b := none)
      (l := c.sortedKeys.drop (bisectLeft c.sortedKeys tokens)) (by simp)
      (fun k hk => List.mem_of_mem_drop hk)
    have hext := longestExtension_eq h hne hsup hsuper
    simp only [hpre, hsup, hfind, longestPrefix_eq h hne hpre hbest, hext]
    have hlong : ∀ e ∈ super, 0 < e.tokens.length - tokens.length := by
      intro e he
      have hmem := List.mem_filter.mp (List.argmax_mem (hext.trans he))
      have hpre : tokens <+: e.tokens := of_decide_eq_true hmem.2
      have hlen : tokens.length ≠ e.tokens.length := fun heq =>
        hne ((mem_sortedKeys h).mpr ⟨e, hmem.1, (hpre.eq_of_length heq).symm⟩)
      have hle := hpre.length_le
      omega
    cases super with
    | none =>
      cases best with
      | none => exact matchLcp_eq h hne
      | some e => exact hit_ok (hbest e rfl)
    | some e =>
      have hpos := hlong e rfl
      simp only [Option.map_some, Option.getD_some, hpos, decide_true, Bool.true_and,
        hasNonTrimmable_eq, Bool.not_not]
      cases htrim : trimmable L e with
      | true =>
        simp only [Option.filter_some_pos htrim, if_true]
        exact hit_ok (hsuper e rfl)
      | false =>
        simp only [Option.filter_some_neg htrim]
        cases best with
        | none => exact matchLcp_eq h hne
        | some e => exact hit_ok (hbest e rfl)

/-- The caches that any calls at all reach from construction. -/
abbrev Run (L : LayerOps κ) : MemoryCache κ → Prop :=
  Reached (fun c => ∃ g, MemoryCache.init g = .ok c) (fun _ _ => True) (exec L)

theorem init_indexed {g : MemoryCacheConfig} (h : MemoryCache.init g = .ok c) :
    Configured c ∧ Indexed c := by
  unfold MemoryCache.init MemoryCacheConfig.validate at h
  by_cases hp : g.percentInRange = false
  · simp only [hp, if_true] at h
    cases h
  · by_cases hn : g.maxEntries < 1
    · simp only [hp, hn, if_true] at h
      cases h
    · by_cases hq : g.kvMinQuantizeTokens < 0
      · simp only [hp, hn, hq, if_true, if_false] at h
        cases h
      · simp only [hp, hn, hq, if_false] at h
        cases h
        refine ⟨⟨rfl, Int.not_lt.mp hn⟩, ⟨List.Pairwise.nil, ?_, ?_, rfl⟩⟩
        · intro k
          simp [Dict.keys, Dict.empty]
        · intro k e he
          simp at he

theorem exec_indexed (hg : Configured c) (h : Indexed c) (op : Op κ) :
    Configured (exec L c op) ∧ Indexed (exec L c op) := by
  have hkept : ∀ {c' : MemoryCache κ}, Kept c c' → Configured c' ∧ Indexed c' := by
    intro c' hk
    refine ⟨⟨?_, ?_⟩, hk.indexed⟩
    · rw [hk.maxMemory, hk.config]
      exact hg.limit
    · rw [hk.config]
      exact hg.entries
  cases op with
  | store tokens cache evictPrefixes => exact hkept (store_kept h hg tokens cache evictPrefixes)
  | fetch tokens => exact hkept ((fetch_reordered c tokens).kept h)
  | remove tokens => exact hkept (remove_kept h tokens)
  | clear => exact ⟨⟨hg.limit, hg.entries⟩, clear_indexed c⟩
  | loadFromDisk d =>
    rcases loadFromDisk_cases (L := L) c d with ⟨-, heq⟩ | ⟨s, -, -, heq⟩ <;> rw [exec, heq]
    · exact ⟨hg, h⟩
    · obtain ⟨hconf, hmax⟩ := loadEntries_limits (L := L) s.entries c
      refine ⟨⟨?_, ?_⟩, loadEntries_indexed h s.entries⟩
      · rw [hmax, hconf]
        exact hg.limit
      · rw [hconf]
        exact hg.entries

theorem run_indexed (h : Run L c) : Configured c ∧ Indexed c := by
  refine h.invariant (I := fun c => Configured c ∧ Indexed c) ?_ ?_
  · rintro c ⟨g, hg⟩
    exact init_indexed hg
  · intro c op _ hc _
    exact exec_indexed hc.1 hc.2 op

/-- Whatever was stored, removed, evicted and loaded, no lookup raises and each
answers as the scan of all entries does. -/
theorem lookup_scans (h : Run L c) (tokens : Tokens) :
    (c.matchLocked L tokens).1 = .ok (matchByScan L (held c) tokens) :=
  matchLocked_eq (run_indexed h).2 tokens

theorem oneMegabyte_run {maxEntries : Int} (hn : 1 ≤ maxEntries) (ops : List (Op Nat)) :
    Run sizedLayers (oneMegabyte maxEntries ops) := by
  have hok : AllOk (fun _ _ => True) (exec sizedLayers) (oneMegabyte maxEntries []) ops := by
    generalize oneMegabyte maxEntries [] = c
    induction ops generalizing c with
    | nil => trivial
    | cons op ops ih => exact ⟨trivial, ih _⟩
  refine (oneMegabyte_reachable hn hok).invariant ?_ ?_
  · rintro c ⟨g, hg, -⟩
    exact .start ⟨g, hg⟩
  · intro c op _ hc _
    exact .step op hc trivial

/-- Two conversations in the cache, a third one asks. -/
theorem lookup_scans_branches :
    let c := oneMegabyte 3 [.store [1, 2, 3] [5] true, .store [1, 4] [5] true]
    (c.matchLocked sizedLayers [1, 2, 9]).1 =
      .ok (matchByScan sizedLayers (held c) [1, 2, 9]) :=
  lookup_scans (oneMegabyte_run (by decide) _) _

def reused (tokens : Tokens) (m : Option (Match κ)) : Nat :=
  (m.map fun m => tokens.length - m.remaining.length).getD 0

/-- A stored prefix of one token hides a trimmable entry that shares three. -/
theorem prefix_before_shared :
    ¬ ∀ c, Run sizedLayers c → ∀ tokens m, (c.matchLocked sizedLayers tokens).1 = .ok m →
      ∀ e ∈ held c, trimmable sizedLayers e = true → lcp e.tokens tokens ≤ reused tokens m := by
  intro hall
  let c := oneMegabyte 2 [.store [1] [5] true, .store [1, 2, 3, 9] [5] false]
  have hrun : Run sizedLayers c := oneMegabyte_run (by decide) _
  have hheld : held c = [⟨[1], [5], 5⟩, ⟨[1, 2, 3, 9], [5], 5⟩] := by decide +kernel
  have hmatch : matchByScan sizedLayers (held c) [1, 2, 3, 4] =
      some ⟨⟨[1], [5], 5⟩, .copy, 0, [2, 3, 4]⟩ := by decide +kernel
  have hle := hall c hrun [1, 2, 3, 4] _ (hmatch ▸ lookup_scans hrun [1, 2, 3, 4])
    ⟨[1, 2, 3, 9], [5], 5⟩ (by simp [hheld]) rfl
  exact absurd hle (by decide)

end FusionMlx.MatchScan
