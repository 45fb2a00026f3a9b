import FusionMlx.Cache.FreeRefinement
import FusionMlx.Cache.PagedCache

/-!
# Caching, lookups and tables as ledger moves

A lookup returns only blocks listed under the hash it computed.
-/
namespace FusionMlx.LookupRefinement

open BlockHashing BlockHashMap BlockPool ResourceLedger PoolRefinement FreeRefinement

variable {κ : Type} {P : Params κ} {R : Rules BlockHash}
variable {s : Pool} {a a' : Ledger Nat BlockHash}

def resolvedSalt (P : Params κ) (args : KeyArgs κ) (i : Nat) : Option (List κ) :=
  match resolveBlockExtraKeys ((i + 1) * P.blockSize) args with
  | .ok salt => salt
  | .error _ => none

def chainAt (P : Params κ) (tokens : List Int) (salt : Nat → Option (List κ)) (i : Nat) :
    BlockHash :=
  chainHash P.hash P.blockSize tokens salt i

def parentAt (P : Params κ) (tokens : List Int) (salt : Nat → Option (List κ)) (i : Nat) :
    Option BlockHash :=
  chainParent P.hash P.blockSize tokens salt i

theorem chainAt_eq (P : Params κ) (tokens : List Int) (salt : Nat → Option (List κ)) (i : Nat) :
    P.hash (parentAt P tokens salt i) (blockTokens P.blockSize tokens i) (salt i) =
      chainAt P tokens salt i :=
  (chainHash_eq P.hash P.blockSize tokens salt i).symm

variable {b : Nat}

theorem getBlock_listed (h : Refines P s a) {k : BlockHash}
    (hg : s.cachedBlockHashToBlock.getBlock k = some b) : (k, b) ∈ a.entries :=
  (h.entries k b).mpr (BlockHashToBlockMap.registered_of_getBlock hg)

theorem not_listed_of_key_none (hs : a.Sound 0) (hk : a.key b = none) (k : BlockHash) :
    (k, b) ∉ a.entries := by
  intro he
  have := (hs.listed k b he).2
  rw [hk] at this
  cases this

theorem cacheFullLoop_refines (blocks : List Nat) (tokens : List Int) (salt : Option (List κ))
    (n i : Nat) (parent : Option BlockHash) (h : Refines P s a) (hs : a.Sound 0)
    (hb : ∀ b ∈ blocks, b ∈ a.held) :
    ∃ a', Refines P (Pool.cacheFullLoop P blocks tokens salt n i parent s).2 a' ∧
      Moves R 0 a a' ∧ a'.loose = a.loose := by
  induction n generalizing i parent s a with
  | zero => exact ⟨a, h, .refl, rfl⟩
  | succ n ih =>
    cases hi : blocks[i]? with
    | none =>
      refine ⟨a, ?_, .refl, rfl⟩
      simpa only [Pool.cacheFullLoop, hi] using h
    | some b =>
      have hheld := hb b (List.mem_of_getElem? hi)
      cases hk : (s.blocks b).blockHash with
      | some k =>
        simp only [Pool.cacheFullLoop, hi, hk]
        exact ih (i + 1) (some k) h hs hb
      | none =>
        have hl := not_listed_of_key_none hs ((h.key b).symm.trans hk)
        have hmove : Move R 0 a (a.list (P.hash parent (blockTokens P.blockSize tokens i) salt)
            parent b) := .list _ parent b hheld hl
        have h₁ := h.list b (f := fun c => { c with
          blockHash := some (P.hash parent (blockTokens P.blockSize tokens i) salt)
          parentHash := parent, tokenCount := (blockTokens P.blockSize tokens i).length })
          rfl rfl rfl rfl
        obtain ⟨a', ha', hm, hloose⟩ := ih (i + 1)
          (some (P.hash parent (blockTokens P.blockSize tokens i) salt)) h₁ (hmove.sound hs) hb
        refine ⟨a', ?_, .head hmove hm, hloose⟩
        simp only [Pool.cacheFullLoop, hi, hk]
        exact ha'

theorem cacheFullBlocks_refines (h : Refines P s a) (hs : a.Sound 0) {blocks : List Nat}
    (hb : ∀ b ∈ blocks, b ∈ a.held) (tokens : List Int) (nc nf : Nat) (salt : Option (List κ)) :
    ∃ a', Refines P (s.cacheFullBlocks P blocks tokens nc nf salt).2 a' ∧ Moves R 0 a a' ∧
      a'.loose = a.loose := by
  simp only [Pool.cacheFullBlocks]
  split
  · exact ⟨a, h, .refl, rfl⟩
  · split
    · exact cacheFullLoop_refines blocks tokens salt _ _ _ h hs hb
    · split
      · exact ⟨a, h, .refl, rfl⟩
      · exact cacheFullLoop_refines blocks tokens salt _ _ _ h hs hb

/-- Setting only the hash keeps the parent. -/
theorem setHash_refines (h : Refines P s a) (hb : b ∈ a.held)
    (hl : ∀ k, (k, b) ∉ a.entries) (k : BlockHash) :
    Refines P ((s.modify b (fun c => { c with blockHash := some k })).insertHash k b)
        (a.list k (a.parent b) b) ∧ Move R 0 a (a.list k (a.parent b) b) :=
  ⟨h.list b rfl rfl (h.parent b) rfl, .list k _ b hb hl⟩

theorem registerBlockHash_refines (h : Refines P s a) (hb : b ∈ a.held)
    (hl : ∀ k, (k, b) ∉ a.entries) (tokens : List Int) (parent : Option BlockHash)
    (salt : Option (List κ)) :
    ∃ a', Refines P (s.registerBlockHash P b tokens parent salt) a' ∧ Moves R 0 a a' ∧
      a'.loose = a.loose := by
  simp only [Pool.registerBlockHash]
  split
  · obtain ⟨h₁, hm⟩ := setHash_refines h hb hl (P.hash parent tokens salt) (R := R)
    exact ⟨_, h₁, .single hm, rfl⟩
  · exact ⟨a, h, .refl, rfl⟩

theorem getCachedBlock_refines (h : Refines P s a) (k : BlockHash) :
    Refines P (s.getCachedBlock P k).2 a ∧
      ∀ b, (s.getCachedBlock P k).1 = some b → (k, b) ∈ a.entries := by
  simp only [Pool.getCachedBlock]
  split
  · cases hg : s.cachedBlockHashToBlock.getBlock k with
    | none =>
      dsimp only
      exact ⟨h.bump _, by simp⟩
    | some c =>
      dsimp only
      refine ⟨h.bump _, fun b hb => ?_⟩
      rw [← Option.some.inj hb]
      exact getBlock_listed h hg
  · exact ⟨h, by simp⟩

theorem findCachedBlock_refines (h : Refines P s a) (tokens : List Int)
    (parent : Option BlockHash) (salt : Option (List κ)) :
    Refines P (s.findCachedBlock P tokens parent salt).2 a ∧
      ∀ b, (s.findCachedBlock P tokens parent salt).1 = some b →
        (P.hash parent tokens salt, b) ∈ a.entries := by
  simp only [Pool.findCachedBlock]
  split
  · cases hg : s.cachedBlockHashToBlock.getBlock (P.hash parent tokens salt) with
    | none =>
      dsimp only
      exact ⟨h.bump _, by simp⟩
    | some c =>
      dsimp only
      refine ⟨(h.touchBlock c).bump _, fun b hb => ?_⟩
      rw [← Option.some.inj hb]
      exact getBlock_listed h hg
  · exact ⟨h, by simp⟩

/-- From `a` to `a'` blocks may have been handed out and listed and references
taken; what was held stays held, and no entry was removed. -/
structure Gained (a a' : Ledger Nat BlockHash) : Prop where
  loose : a'.loose = a.loose
  held : a.held ⊆ a'.held
  entries : a.entries ⊆ a'.entries
  refs : ∀ b ∈ a.held, a.refs b ≤ a'.refs b
  key : ∀ b ∈ a.held, a'.key b = a.key b ∧ a'.parent b = a.parent b

theorem Gained.refl (a : Ledger Nat BlockHash) : Gained a a :=
  ⟨rfl, subset_rfl, subset_rfl, fun _ _ => Int.le_refl _, fun _ _ => ⟨rfl, rfl⟩⟩

theorem Gained.trans {a b c : Ledger Nat BlockHash} (h : Gained a b) (h' : Gained b c) :
    Gained a c := by
  refine ⟨h'.loose.trans h.loose, h.held.trans h'.held, h.entries.trans h'.entries, ?_, ?_⟩
  · intro x hx
    exact Int.le_trans (h.refs x hx) (h'.refs x (h.held hx))
  · intro x hx
    have h₁ := h.key x hx
    have h₂ := h'.key x (h.held hx)
    exact ⟨h₂.1.trans h₁.1, h₂.2.trans h₁.2⟩

theorem Gained.of_setRefs {n : Int} (hn : a.refs b ≤ n) : Gained a (a.setRefs b n) := by
  refine ⟨rfl, subset_rfl, subset_rfl, ?_, fun _ _ => ⟨rfl, rfl⟩⟩
  intro c _
  by_cases hc : c = b <;> simp [Ledger.setRefs, hc, hn]

/-- A freshly handed block is listed under `k`. -/
theorem Gained.of_handed {k : BlockHash} {p : Option BlockHash}
    (h : Handed a a' [b]) : Gained a (a'.list k p b) := by
  refine ⟨h.loose, ?_, ?_, ?_, ?_⟩
  · intro c hc
    exact (h.held c).mpr (Or.inr hc)
  · intro o ho
    exact Or.inr (h.entries ▸ ho)
  · intro c hc
    exact ((h.others c hc).1).ge
  · intro c hc
    have hcb : c ≠ b := by
      rintro rfl
      exact h.fresh c (by simp) hc
    simpa [Ledger.list, hcb] using (h.others c hc).2

theorem lookupOrRestore_refines (h : Refines P s a) (hs : a.Sound 0)
    (ssd : Option (BlockHash → Bool)) (claim : Bool) (k : BlockHash) (parent : Option BlockHash) :
    ∃ a', Refines P (s.lookupOrRestore P ssd claim k parent).2 a' ∧ Moves R 0 a a' ∧ Gained a a' ∧
      ∀ b f, (s.lookupOrRestore P ssd claim k parent).1 = .ok (some b, f) →
        (k, b) ∈ a'.entries ∧ (f = true → b ∉ a.held ∧ a'.parent b = parent) ∧
          (f = false → a' = a) := by
  cases hg : s.cachedBlockHashToBlock.getBlock k with
  | some c =>
    refine ⟨a, ?_, .refl, .refl a, ?_⟩
    · simpa only [Pool.lookupOrRestore, hg] using h
    · intro b f hb
      simp only [Pool.lookupOrRestore, hg, Except.ok.injEq, Prod.mk.injEq, Option.some.injEq] at hb
      obtain ⟨rfl, rfl⟩ := hb
      exact ⟨getBlock_listed h hg, by simp, fun _ => rfl⟩
  | none =>
    by_cases hc : claim = true ∧ ssd.any (fun hasBlock => hasBlock k) = true
    · obtain ⟨a₁, h₁, hm, hcase⟩ := allocateBlockInternal_refines h hs (R := R)
      cases halloc : s.allocateBlockInternal P with
      | mk r t =>
        rw [halloc] at h₁ hcase
        simp only at h₁ hcase
        rcases hcase with ⟨rfl, rfl⟩ | ⟨b, rfl, hh⟩
        · refine ⟨a₁, ?_, hm, .refl a₁, ?_⟩
          · simp only [Pool.lookupOrRestore, hg]
            rw [if_pos hc, halloc]
            exact h₁
          · intro b f hb
            simp only [Pool.lookupOrRestore, hg] at hb
            rw [if_pos hc, halloc] at hb
            simp at hb
        · have hheld : b ∈ a₁.held := (hh.held b).mpr (Or.inl (by simp))
          have hl : ∀ k', (k', b) ∉ a₁.entries := by
            intro k' he
            rw [hh.entries] at he
            exact hh.fresh b (by simp) (hs.listed k' b he).1
          refine ⟨a₁.list k parent b, ?_, hm.tail (.list k parent b hheld hl), .of_handed hh, ?_⟩
          · simp only [Pool.lookupOrRestore, hg]
            rw [if_pos hc, halloc]
            exact h₁.list b rfl rfl rfl rfl
          · intro b' f hb
            simp only [Pool.lookupOrRestore, hg] at hb
            rw [if_pos hc, halloc] at hb
            simp only [Except.ok.injEq, Prod.mk.injEq, Option.some.injEq] at hb
            obtain ⟨rfl, rfl⟩ := hb
            exact ⟨Or.inl rfl, fun _ => ⟨hh.fresh b (by simp), by simp [Ledger.list]⟩, by simp⟩
    · refine ⟨a, ?_, .refl, .refl a, ?_⟩
      · simp only [Pool.lookupOrRestore, hg]
        rw [if_neg hc]
        exact h
      · intro b f hb
        simp only [Pool.lookupOrRestore, hg] at hb
        rw [if_neg hc] at hb
        simp at hb

/-- The lookup loop returns, for each matched block, one listed under its chain hash. -/
theorem computedLoop_refines (ssd : Option (BlockHash → Bool)) (claim : Bool) (tokens : List Int)
    (args : KeyArgs κ) (n i : Nat) (restored : List Nat) (h : Refines P s a) (hs : a.Sound 0) :
    ∃ a', Refines P (Pool.computedLoop P ssd claim tokens args n i
        (parentAt P tokens (resolvedSalt P args) i) restored s).2 a' ∧
      Moves R 0 a a' ∧ Gained a a' ∧
      ∀ bs, (Pool.computedLoop P ssd claim tokens args n i
          (parentAt P tokens (resolvedSalt P args) i) restored s).1 = .ok bs →
        bs.length ≤ n ∧ ∀ j b, bs[j]? = some b →
          (chainAt P tokens (resolvedSalt P args) (i + j), b) ∈ a'.entries := by
  induction n generalizing i restored s a with
  | zero =>
    refine ⟨a, h, .refl, .refl a, ?_⟩
    intro bs hbs
    simp only [Pool.computedLoop, Except.ok.injEq] at hbs
    subst hbs
    simp
  | succ n ih =>
    cases hr : resolveBlockExtraKeys ((i + 1) * P.blockSize) args with
    | error e =>
      refine ⟨a, ?_, .refl, .refl a, ?_⟩
      · simpa only [Pool.computedLoop, hr] using h
      · intro bs hbs
        simp only [Pool.computedLoop, hr] at hbs
        cases hbs
    | ok salt =>
      have hsalt : resolvedSalt P args i = salt := by simp only [resolvedSalt, hr]
      have hhash : P.hash (parentAt P tokens (resolvedSalt P args) i)
          (blockTokens P.blockSize tokens i) salt = chainAt P tokens (resolvedSalt P args) i := by
        rw [← hsalt]
        exact chainAt_eq P tokens (resolvedSalt P args) i
      obtain ⟨a₁, h₁, hm₁, hg₁, hres₁⟩ := lookupOrRestore_refines h hs (R := R) ssd claim
        (chainAt P tokens (resolvedSalt P args) i) (parentAt P tokens (resolvedSalt P args) i)
      have hs₁ := hm₁.sound hs
      cases hlk : s.lookupOrRestore P ssd claim (chainAt P tokens (resolvedSalt P args) i)
          (parentAt P tokens (resolvedSalt P args) i) with
      | mk r t =>
        rw [hlk] at h₁ hres₁
        simp only at h₁ hres₁
        rcases r with e | ⟨_ | b, f⟩
        · refine ⟨a₁, ?_, hm₁, hg₁, ?_⟩
          · simpa only [Pool.computedLoop, hr, hhash, hlk] using h₁
          · intro bs hbs
            simp only [Pool.computedLoop, hr, hhash, hlk] at hbs
            cases hbs
        · refine ⟨a₁, ?_, hm₁, hg₁, ?_⟩
          · simp only [Pool.computedLoop, hr, hhash, hlk]
            exact h₁.bump _
          · intro bs hbs
            simp only [Pool.computedLoop, hr, hhash, hlk, Except.ok.injEq] at hbs
            subst hbs
            simp
        · obtain ⟨hlisted, -, -⟩ := hres₁ b f rfl
          have hheld : b ∈ a₁.held := (hs₁.listed _ b hlisted).1
          obtain ⟨a₂, h₂, hm₂, hg₂⟩ : ∃ a₂, Refines P
              (if claim = true ∧ b ∉ (if f = true then b :: restored else restored) then
                t.addRef P b else t) a₂ ∧ Moves R 0 a₁ a₂ ∧ Gained a₁ a₂ := by
            by_cases hclaim : claim = true ∧ b ∉ (if f = true then b :: restored else restored)
            · rw [if_pos hclaim]
              obtain ⟨hr₂, hmv⟩ := addRef_refines h₁ hs₁ hheld (R := R)
              exact ⟨_, hr₂, .single hmv, .of_setRefs (by omega)⟩
            · rw [if_neg hclaim]
              exact ⟨a₁, h₁, .refl, .refl a₁⟩
          obtain ⟨a₃, h₃, hm₃, hg₃, hres₃⟩ := ih (i + 1)
            (if f = true then b :: restored else restored)
            (h₂.bump (fun t => { t with hits := t.hits + 1 })) (hm₂.sound hs₁)
          have hpar : some (chainAt P tokens (resolvedSalt P args) i) =
            parentAt P tokens (resolvedSalt P args) (i + 1) := rfl
          simp only [Pool.computedLoop, hr, hhash, hlk, hpar]
          cases hrest : Pool.computedLoop P ssd claim tokens args n (i + 1)
              (parentAt P tokens (resolvedSalt P args) (i + 1))
              (if f = true then b :: restored else restored)
              ((if claim = true ∧ b ∉ (if f = true then b :: restored else restored) then
                t.addRef P b else t).bump (fun t => { t with hits := t.hits + 1 })) with
          | mk r' t' =>
            rw [hrest] at h₃ hres₃
            simp only at h₃ hres₃
            cases r' with
            | error e =>
              exact ⟨a₃, h₃, hm₁.trans (hm₂.trans hm₃), hg₁.trans (hg₂.trans hg₃), by simp⟩
            | ok rest =>
              refine ⟨a₃, h₃, hm₁.trans (hm₂.trans hm₃), hg₁.trans (hg₂.trans hg₃), ?_⟩
              intro bs hbs
              simp only [Except.ok.injEq] at hbs
              subst hbs
              obtain ⟨hlen, hall⟩ := hres₃ rest rfl
              refine ⟨by simpa using hlen, ?_⟩
              intro j c hc
              cases j with
              | zero =>
                simp only [List.getElem?_cons_zero, Option.some.injEq] at hc
                subst hc
                exact hg₃.entries (hg₂.entries hlisted)
              | succ j =>
                have := hall j c (by simpa using hc)
                rwa [show i + 1 + j = i + (j + 1) by omega] at this

theorem getComputedBlocks_refines (h : Refines P s a) (hs : a.Sound 0)
    (ssd : Option (BlockHash → Bool)) (tokens : List Int) (args : KeyArgs κ) (claim : Bool) :
    ∃ a', Refines P (s.getComputedBlocks P ssd tokens args claim).2 a' ∧ Moves R 0 a a' ∧
      Gained a a' ∧ ∀ bs m, (s.getComputedBlocks P ssd tokens args claim).1 = .ok (bs, m) →
        m = bs.length * P.blockSize ∧ m ≤ tokens.length ∧ ∀ j b, bs[j]? = some b →
          (chainAt P tokens (resolvedSalt P args) j, b) ∈ a'.entries := by
  simp only [Pool.getComputedBlocks]
  split
  · refine ⟨a, h, .refl, .refl a, ?_⟩
    intro bs m hbs
    simp only [Except.ok.injEq, Prod.mk.injEq] at hbs
    obtain ⟨rfl, rfl⟩ := hbs
    simp
  · obtain ⟨a', h', hm, hg, hres⟩ := computedLoop_refines ssd claim tokens args (R := R)
      (tokens.length / P.blockSize) 0 [] h hs
    have hnone : parentAt P tokens (resolvedSalt P args) 0 = none := rfl
    rw [hnone] at h' hres
    cases hloop : Pool.computedLoop P ssd claim tokens args (tokens.length / P.blockSize) 0 none []
        s with
    | mk r t =>
      rw [hloop] at h' hres
      cases r with
      | error e => exact ⟨a', h', hm, hg, by simp⟩
      | ok bs =>
        refine ⟨a', h', hm, hg, ?_⟩
        intro bs' m hbs
        simp only [Except.ok.injEq, Prod.mk.injEq] at hbs
        obtain ⟨rfl, rfl⟩ := hbs
        obtain ⟨hlen, hall⟩ := hres bs rfl
        refine ⟨rfl, ?_, ?_⟩
        · exact (Nat.mul_le_mul_right _ hlen).trans (Nat.div_mul_le_self _ _)
        · intro j b hb
          simpa using hall j b hb

theorem writeTable_same (s : Pool) (t : BlockTable) (r : TableRef) : Same s (s.writeTable t r) := by
  cases r with
  | tracked _ => exact .setTable s t
  | detached _ => exact .refl s

theorem getOrCreateBlockTable_same (s : Pool) (r : String) :
    Same s (s.getOrCreateBlockTable r).2 := by
  simp only [Pool.getOrCreateBlockTable]
  split
  · exact .refl s
  · exact .setTable s _

theorem detachRequestTable_same (s : Pool) (r : String) : Same s (s.detachRequestTable r).2 :=
  ⟨rfl, rfl, rfl, fun _ => rfl, fun _ => rfl, fun _ => rfl, fun _ => rfl, rfl, rfl⟩

theorem addBlockToTable_same (s : Pool) (r : TableRef) (b n : Nat) :
    Same s (s.addBlockToTable r b n) := by
  simp only [Pool.addBlockToTable]
  split
  · exact .refl s
  · exact ((Same.modify s b _ rfl rfl rfl rfl).trans (.bump _ _)).trans (writeTable_same _ _ r)

theorem forkBlockTable_refines (h : Refines P s a) (hs : a.Sound 0) (t : BlockTable)
    (r : String) : ∃ a', Refines P (s.forkBlockTable P t r) a' ∧ Moves R 0 a a' ∧
      a'.loose = a.loose := by
  have hfold : ∀ (ids : List Nat) (s : Pool) (a : Ledger Nat BlockHash), Refines P s a →
      a.Sound 0 → ∃ a', Refines P (ids.foldl (fun s b =>
        if b ∈ s.allocatedBlocks then s.addRef P b else s) s) a' ∧ Moves R 0 a a' ∧
        a'.loose = a.loose := by
    intro ids
    induction ids with
    | nil => exact fun s a h _ => ⟨a, h, .refl, rfl⟩
    | cons b ids ih =>
      intro s a h hs
      rw [List.foldl_cons]
      by_cases hb : b ∈ s.allocatedBlocks
      · obtain ⟨h₁, hmv⟩ := addRef_refines h hs ((h.held b).mpr hb) (R := R)
        rw [if_pos hb]
        obtain ⟨a', h', hm', hl'⟩ := ih _ _ h₁ (hmv.sound hs)
        exact ⟨a', h', .head hmv hm', hl'⟩
      · rw [if_neg hb]
        exact ih s a h hs
  obtain ⟨a', h', hm, hl⟩ := hfold t.blockIds s a h hs
  exact ⟨a', h'.setTable _, hm, hl⟩

end FusionMlx.LookupRefinement
