import FusionMlx.Cache.IntactCalls

/-!
# What a lookup serves

In a run of undisturbed calls every table and every index entry is linked, so
that a lookup serves the chain of the request's own tokens. A deeper entry that
lists a block taken and filled anew breaks this.
-/
namespace FusionMlx.ServedPrefixes

open BlockHashing BlockPool OrderedDict ResourceLedger PoolRefinement LookupRefinement
open FreeRefinement PagedCacheManager ManagerRuns PoolInvariant ReferenceBooks Runs
open InvalidationDelivery StandingCalls FetchReferences LinkedBlocks IntactIndex IntactCalls
open PrefixCache PrefixCache.BlockAwarePrefixCache
open PinnedBlocks (Starts tinyRun tinyRun_reached)

variable {κ : Type} {P : Params κ} {m : Manager} {s : Pool} {a : Ledger Nat BlockHash}
variable {c c' : BlockAwarePrefixCache} {told : List Nat} {tokens : List Int} {args : KeyArgs κ}

/-- A restored block was free, and starts with one reference. -/
theorem lookupOrRestore_fresh (h : Refines P s a) (hs : a.Sound 0) (ssd : Option (BlockHash → Bool))
    (claim : Bool) (k : BlockHash) (parent : Option BlockHash) {b : Nat}
    (hb : (s.lookupOrRestore P ssd claim k parent).1 = .ok (some b, true)) :
    b ∉ a.held ∧ 0 < ((s.lookupOrRestore P ssd claim k parent).2.blocks b).refCount := by
  revert hb
  unfold Pool.lookupOrRestore
  split
  · exact fun hb => by cases hb
  · split
    · obtain ⟨a', hr', -, hcase⟩ := allocateBlockInternal_refines h hs (R := Rules.any)
      generalize s.allocateBlockInternal P = q at hr' hcase
      obtain ⟨answer, t⟩ := q
      cases hcase with
      | inl hnone =>
        obtain ⟨rfl, -⟩ := hnone
        exact fun hb => by cases hb
      | inr hsome =>
        obtain ⟨x, rfl, hh⟩ := hsome
        intro hb
        cases hb
        have hone : (t.blocks b).refCount = 1 := by rw [hr'.refs, hh.refs b (by simp)]
        refine ⟨hh.fresh b (by simp), ?_⟩
        simp only [Pool.insertHash, Pool.modify, Function.update_self, hone]
        decide
    · exact fun hb => by cases hb

/-- Every block the lookup loop claims is referenced when it ends, and one that was held before by
one reference more. -/
theorem computedLoop_claimed (ssd : Option (BlockHash → Bool)) (tokens : List Int)
    (args : KeyArgs κ) (n i : Nat) {restored : List Nat} {A : Set Nat} (h : Refines P s a)
    (hs : a.Sound 0) (hA : A ⊆ a.held)
    (hres : ∀ b ∈ restored, b ∈ a.held ∧ 0 < a.refs b ∧ b ∉ A) :
    ∀ bs, (Pool.computedLoop P ssd true tokens args n i (parentAt P tokens (resolvedSalt P args) i)
        restored s).1 = .ok bs → ∀ b ∈ bs,
      0 < ((Pool.computedLoop P ssd true tokens args n i
        (parentAt P tokens (resolvedSalt P args) i) restored s).2.blocks b).refCount ∧
      (b ∈ A → a.refs b < ((Pool.computedLoop P ssd true tokens args n i
        (parentAt P tokens (resolvedSalt P args) i) restored s).2.blocks b).refCount) := by
  induction n generalizing i restored s a with
  | zero =>
    intro bs hbs
    cases hbs
    simp
  | succ n ih =>
    rw [Pool.computedLoop]
    cases hr : resolveBlockExtraKeys ((i + 1) * P.blockSize) args with
    | error e => rintro _ ⟨⟩
    | ok salt =>
      have hsalt : resolvedSalt P args i = salt := by simp only [resolvedSalt, hr]
      have hhash : P.hash (parentAt P tokens (resolvedSalt P args) i)
          (blockTokens P.blockSize tokens i) salt = chainAt P tokens (resolvedSalt P args) i :=
        hsalt ▸ chainAt_eq P tokens (resolvedSalt P args) i
      dsimp only
      rw [hhash]
      obtain ⟨a₁, h₁, hm₁, hg₁, hlisted⟩ := lookupOrRestore_refines h hs (R := Rules.any) ssd true
        (chainAt P tokens (resolvedSalt P args) i) (parentAt P tokens (resolvedSalt P args) i)
      have hs₁ := hm₁.sound hs
      have hfresh := fun b => lookupOrRestore_fresh (b := b) h hs ssd true
        (chainAt P tokens (resolvedSalt P args) i) (parentAt P tokens (resolvedSalt P args) i)
      generalize s.lookupOrRestore P ssd true (chainAt P tokens (resolvedSalt P args) i)
        (parentAt P tokens (resolvedSalt P args) i) = q at h₁ hlisted hfresh
      obtain ⟨answer, t⟩ := q
      rcases answer with e | ⟨_ | b, f⟩
      · rintro _ ⟨⟩
      · intro bs hbs
        cases hbs
        simp
      · have hheld : b ∈ a₁.held := (hs₁.listed _ b (hlisted b f rfl).1).1
        have hA₁ : A ⊆ a₁.held := fun x hx => hg₁.held (hA hx)
        have hres₁ : ∀ x ∈ (if f = true then b :: restored else restored),
            x ∈ a₁.held ∧ 0 < a₁.refs x ∧ x ∉ A := by
          intro x hx
          have hold : x ∈ restored → x ∈ a₁.held ∧ 0 < a₁.refs x ∧ x ∉ A := fun hx =>
            ⟨hg₁.held (hres x hx).1, Int.lt_of_lt_of_le (hres x hx).2.1 (hg₁.refs x (hres x hx).1),
              (hres x hx).2.2⟩
          cases f with
          | false => exact hold hx
          | true =>
            cases hx with
            | head =>
              obtain ⟨hout, hpos⟩ := hfresh b rfl
              exact ⟨hheld, h₁.refs b ▸ hpos, fun hin => hout (hA hin)⟩
            | tail _ hx => exact hold hx
        dsimp only
        generalize (if f = true then b :: restored else restored) = restored' at hres₁
        obtain ⟨a₂, h₂, hs₂, hheld₂, hpos, hres₂, hA₂, hgain⟩ : ∃ a₂, Refines P
            (if true = true ∧ b ∉ restored' then t.addRef P b else t) a₂ ∧ a₂.Sound 0 ∧ b ∈ a₂.held ∧
              0 < a₂.refs b ∧ (∀ x ∈ restored', x ∈ a₂.held ∧ 0 < a₂.refs x ∧ x ∉ A) ∧
              A ⊆ a₂.held ∧
              ∀ x ∈ A, a₁.refs x ≤ a₂.refs x ∧ (x = b → a₁.refs x < a₂.refs x) := by
          by_cases hclaim : b ∈ restored'
          · rw [if_neg (fun hcon => hcon.2 hclaim)]
            exact ⟨a₁, h₁, hs₁, hheld, (hres₁ b hclaim).2.1, hres₁, hA₁, fun x hx =>
              ⟨Int.le_refl _, fun hxb => absurd (hxb ▸ hx) (hres₁ b hclaim).2.2⟩⟩
          · rw [if_pos ⟨rfl, hclaim⟩]
            obtain ⟨hr₂, hmv⟩ := addRef_refines h₁ hs₁ hheld (R := Rules.any)
            have hnonneg := hs₁.heldRefs b hheld
            refine ⟨_, hr₂, hmv.sound hs₁, hheld, ?_, fun x hx => ?_, hA₁, fun x hx => ?_⟩
            · simp only [Ledger.setRefs, Function.update_self]
              omega
            · refine ⟨(hres₁ x hx).1, ?_, (hres₁ x hx).2.2⟩
              have hxb : x ≠ b := fun hxb => hclaim (hxb ▸ hx)
              simp only [Ledger.setRefs, Function.update_of_ne hxb]
              exact (hres₁ x hx).2.1
            · by_cases hxb : x = b
              · subst hxb
                simp only [Ledger.setRefs, Function.update_self]
                omega
              · simp only [Ledger.setRefs, Function.update_of_ne hxb]
                exact ⟨Int.le_refl _, fun h => absurd h hxb⟩
        have h₂' := h₂.bump (fun u => { u with hits := u.hits + 1 })
        obtain ⟨a₃, h₃, -, hg₃, -⟩ := computedLoop_refines ssd true tokens args (R := Rules.any) n
          (i + 1) restored' h₂' hs₂
        have hrest := ih (i + 1) h₂' hs₂ hA₂ hres₂
        rw [show some (chainAt P tokens (resolvedSalt P args) i) =
          parentAt P tokens (resolvedSalt P args) (i + 1) from rfl]
        generalize Pool.computedLoop P ssd true tokens args n (i + 1)
          (parentAt P tokens (resolvedSalt P args) (i + 1)) restored' _ = q at h₃ hrest
        obtain ⟨found, u⟩ := q
        cases found with
        | error e => rintro _ ⟨⟩
        | ok rest =>
          intro bs hbs
          cases hbs
          intro x hx
          have hmono : x ∈ A → a.refs x ≤ a₁.refs x := fun hxA => hg₁.refs x (hA hxA)
          cases hx with
          | head =>
            rw [h₃.refs]
            have hle := hg₃.refs b hheld₂
            refine ⟨Int.lt_of_lt_of_le hpos hle, fun hxA => ?_⟩
            have hone := (hgain b hxA).2 rfl
            have hfirst := hmono hxA
            omega
          | tail _ hx =>
            refine ⟨(hrest rest rfl x hx).1, fun hxA => ?_⟩
            have hlater := (hrest rest rfl x hx).2 hxA
            have hone := (hgain x hxA).1
            have hfirst := hmono hxA
            dsimp only at hlater ⊢
            omega

/-- A flush of nothing. -/
theorem ends_quiet {s : Pool} {m' : Manager} (he : Ends m s m')
    (hp : s.pendingContentInvalidated = []) : m' = { m with pool := s } := by
  cases he with
  | plain => rfl
  | flushed =>
    unfold Manager.flushContentInvalidated
    rw [if_pos (.inr hp)]

theorem lookupOrRestore_tables (s : Pool) (ssd : Option (BlockHash → Bool)) (claim : Bool)
    (k : BlockHash) (parent : Option BlockHash) :
    (s.lookupOrRestore P ssd claim k parent).2.requestTables = s.requestTables := by
  have halloc := Books.allocateBlockInternal_tables (P := P) s
  unfold Pool.lookupOrRestore
  split
  · rfl
  · split
    · generalize s.allocateBlockInternal P = q at halloc
      obtain ⟨answer, t⟩ := q
      match answer with
      | .error e => exact halloc
      | .ok none => exact halloc
      | .ok (some b) => exact halloc
    · rfl

theorem computedLoop_tables (ssd : Option (BlockHash → Bool)) (claim : Bool) (tokens : List Int)
    (args : KeyArgs κ) (n i : Nat) (parent : Option BlockHash) (restored : List Nat) (s : Pool) :
    (Pool.computedLoop P ssd claim tokens args n i parent restored s).2.requestTables =
      s.requestTables := by
  induction n generalizing i parent restored s with
  | zero => rfl
  | succ n ih =>
    rw [Pool.computedLoop]
    split
    · rfl
    · next salt _ =>
      have hlook := lookupOrRestore_tables (P := P) s ssd claim
        (P.hash parent (blockTokens P.blockSize tokens i) salt) parent
      dsimp only
      generalize s.lookupOrRestore P ssd claim
        (P.hash parent (blockTokens P.blockSize tokens i) salt) parent = q at hlook
      obtain ⟨answer, t⟩ := q
      rcases answer with e | ⟨_ | b, f⟩
      · exact hlook
      · exact hlook
      · dsimp only
        generalize (if f = true then b :: restored else restored) = restored'
        have hclaim : (if claim = true ∧ b ∉ restored' then t.addRef P b else t).requestTables =
            s.requestTables := by
          refine Eq.trans ?_ hlook
          split
          · simp only [Pool.addRef]
            split <;> rfl
          · rfl
        have hrest := (ih (i + 1) (some (P.hash parent (blockTokens P.blockSize tokens i) salt))
          restored' ((if claim = true ∧ b ∉ restored' then t.addRef P b else t).bump (fun u =>
            { u with hits := u.hits + 1 }))).trans hclaim
        generalize Pool.computedLoop P ssd claim tokens args n (i + 1) _ restored' _ = q at hrest
        obtain ⟨found, u⟩ := q
        cases found <;> exact hrest

theorem getComputedBlocks_tables (s : Pool) (ssd : Option (BlockHash → Bool)) (tokens : List Int)
    (args : KeyArgs κ) (claim : Bool) :
    (s.getComputedBlocks P ssd tokens args claim).2.requestTables = s.requestTables := by
  have hloop := computedLoop_tables (P := P) ssd claim tokens args (tokens.length / P.blockSize) 0 none
    [] s
  unfold Pool.getComputedBlocks
  split
  · rfl
  · generalize Pool.computedLoop P ssd claim tokens args (tokens.length / P.blockSize) 0 none [] s = q
      at hloop
    obtain ⟨found, t⟩ := q
    cases found <;> exact hloop

/-- What the hash map answers: blocks under the chain digests of the leading chunks, a reference
taken for each. -/
structure Claimed (P : Params κ) (m : Manager) (tokens : List Int) (args : KeyArgs κ)
    (bs : List Nat) : Prop where
  chain : ∀ j b, bs[j]? = some b → Holds m.pool b (chainAt P tokens (resolvedSalt P args) j)
  refs : ∀ b ∈ bs, 0 < (m.pool.blocks b).refCount
  full : bs.length * P.blockSize ≤ tokens.length

theorem getComputedBlocks_tells {n : Nat} (h : Standing P m)
    (hp : m.pool.pendingContentInvalidated = []) (ssd : Option (BlockHash → Bool))
    (tokens : List Int) (args : KeyArgs κ) :
    Tells n m (m.getComputedBlocks P ssd tokens args true).2 [] ∧
      (m.getComputedBlocks P ssd tokens args true).2.pool.requestTables = m.pool.requestTables ∧
      (m.getComputedBlocks P ssd tokens args true).2.trace = m.trace ∧
      (∀ x ∈ m.pool.allocatedBlocks, (m.pool.blocks x).refCount ≤
        ((m.getComputedBlocks P ssd tokens args true).2.pool.blocks x).refCount) ∧
      ∀ bs k, (m.getComputedBlocks P ssd tokens args true).1 = .ok (bs, k) →
        Claimed P (m.getComputedBlocks P ssd tokens args true).2 tokens args bs ∧
        ∀ x ∈ bs, x ∈ m.pool.allocatedBlocks → (m.pool.blocks x).refCount <
          ((m.getComputedBlocks P ssd tokens args true).2.pool.blocks x).refCount := by
  obtain ⟨a, hst⟩ := h.stands
  obtain ⟨hanswer, he⟩ := getComputedBlocks_result P m ssd tokens args true
  obtain ⟨a', hr', hm', hg', hall⟩ := getComputedBlocks_refines (R := silentRules) hst.refines
    hst.sound ssd tokens args true
  have hpending : (m.pool.getComputedBlocks P ssd tokens args true).2.pendingContentInvalidated = [] := by
    rw [hr'.pending, hm'.silent id, ← hst.refines.pending, hp]
  have hkept : ∀ x k, Holds m.pool x k →
      Holds (m.pool.getComputedBlocks P ssd tokens args true).2 x k := by
    intro x k hk
    have hx := (hst.refines.held x).mpr hk.1
    refine ⟨(hr'.held x).mp (hg'.held hx), ?_⟩
    rw [hr'.key, (hg'.key x hx).1, ← hst.refines.key]
    exact hk.2
  have hparent : ∀ x k, Holds m.pool x k →
      ((m.pool.getComputedBlocks P ssd tokens args true).2.blocks x).parentHash ≠ none →
        (m.pool.blocks x).parentHash ≠ none := by
    intro x k hk
    rw [hr'.parent, (hg'.key x ((hst.refines.held x).mpr hk.1)).2, ← hst.refines.parent]
    exact id
  rw [ends_quiet he hpending, hanswer]
  refine ⟨.quiet rfl rfl hpending hkept hparent, getComputedBlocks_tables _ ssd tokens args true,
    rfl, fun x hx => ?_, fun bs k hbs => ?_⟩
  · rw [hst.refines.refs]
    exact (hr'.refs x).symm ▸ hg'.refs x ((hst.refines.held x).mpr hx)
  obtain ⟨hcount, hlen, hchain⟩ := hall bs k hbs
  have hrefs : ∀ x ∈ bs,
      0 < ((m.pool.getComputedBlocks P ssd tokens args true).2.blocks x).refCount ∧
      (x ∈ a.held → a.refs x <
        ((m.pool.getComputedBlocks P ssd tokens args true).2.blocks x).refCount) := by
    have hclaimed := @computedLoop_claimed κ P m.pool a ssd tokens args
      (tokens.length / P.blockSize) 0 [] a.held hst.refines hst.sound (fun _ hx => hx) (by simp)
    revert hbs
    simp only [Pool.getComputedBlocks]
    split
    · intro hbs
      cases hbs
      simp
    · rw [show parentAt P tokens (resolvedSalt P args) 0 = none from rfl] at hclaimed
      generalize Pool.computedLoop P ssd true tokens args (tokens.length / P.blockSize) 0 none []
        m.pool = q at hclaimed
      obtain ⟨found, u⟩ := q
      cases found with
      | error e => rintro ⟨⟩
      | ok rest =>
        intro hbs
        cases hbs
        exact hclaimed bs rfl
  refine ⟨⟨fun j b hj => ?_, fun b hb => (hrefs b hb).1, hcount ▸ hlen⟩, fun x hx hin => ?_⟩
  · have hunder := foundUnder_of_listed hr' (hm'.sound hst.sound) (hchain j b hj)
    exact ⟨hunder.allocated, hunder.hash⟩
  · rw [hst.refines.refs]
    exact (hrefs x hx).2 ((hst.refines.held x).mpr hin)

variable {salt : Nat → Option (List κ)}

/-- Blocks under the chain digests of full chunks are linked. -/
theorem linked_of_chain {bs : List Nat}
    (h : ∀ j b, bs[j]? = some b → Holds s b (chainAt P tokens salt j))
    (hfull : bs.length * P.blockSize ≤ tokens.length) :
    Linked P s none bs ∧ lastKey s none bs = parentAt P tokens salt bs.length := by
  induction bs using List.reverseRecOn with
  | nil => exact ⟨trivial, rfl⟩
  | append_singleton bs b ih =>
    rw [List.length_append, List.length_singleton, Nat.succ_mul] at hfull
    obtain ⟨hlinked, hlast⟩ := ih (fun j x hj => h j x (by
      rw [List.getElem?_append_left (List.getElem?_eq_some_iff.mp hj).1]
      exact hj)) (by omega)
    have hb := h bs.length b (by simp)
    refine ⟨Linked.snoc_iff.mpr ⟨hlinked, blockTokens P.blockSize tokens bs.length,
      salt bs.length, ?_, ?_⟩, ?_⟩
    · simp only [blockTokens, List.length_take, List.length_drop]
      omega
    · rw [hlast, chainAt_eq]
      exact hb
    · rw [lastKey_snoc, hb.2, List.length_append]
      rfl

/-- Such blocks are distinct. -/
theorem nodup_of_chain (ideal : IdealDigest P.sha256) {bs : List Nat}
    (h : ∀ j b, bs[j]? = some b → Holds s b (chainAt P tokens salt j)) : bs.Nodup := by
  rw [List.nodup_iff_injective_getElem]
  intro i j hij
  have hi := h i bs[i] (List.getElem?_eq_getElem i.2)
  have hj := h j bs[j] (List.getElem?_eq_getElem j.2)
  rw [show bs[j] = bs[i] from hij.symm] at hj
  exact Fin.ext (chainAt_injective ideal (hi.unique hj))

/-- The walk of the index looks for the chain under one salt. -/
theorem walkDigest_chain (P : Params κ) (tokens : List Int) (salt : Option (List κ)) (i : Nat) :
    walkDigest P tokens salt (i + 1) = chainAt P tokens (fun _ => salt) i := by
  induction i with
  | zero => rfl
  | succ i ih =>
    rw [walkDigest, ih]
    exact chainAt_eq P tokens (fun _ => salt) (i + 1)

/-- What the index walk finds is entered under the digest of some leading chunks. -/
theorem matchLoop_some {salt : Option (List κ)} {e : IndexEntry} (n i : Nat)
    {best : Option IndexEntry} (he : c.matchLoop P tokens salt n i (walkDigest P tokens salt i)
      (walkLen P tokens i) best = some e) :
    best = some e ∨ ∃ j, i ≤ j ∧ j < i + n ∧
      c.prefixIndex.get? (walkDigest P tokens salt (j + 1)) = some e ∧
      e.prefixLen = walkLen P tokens (j + 1) := by
  induction n generalizing i best with
  | zero => exact .inl he
  | succ n ih =>
    cases ih (i + 1) he with
    | inr hlater =>
      obtain ⟨j, hij, hj, hget⟩ := hlater
      exact .inr ⟨j, by omega, by omega, hget⟩
    | inl hhere =>
      split at hhere
      · next e' he' =>
        split at hhere
        · next hlen =>
          cases hhere
          exact .inr ⟨i, by omega, by omega, he', hlen⟩
        · exact .inl hhere
      · exact .inl hhere

theorem match_some {salt : Option (List κ)} {e : IndexEntry}
    (he : c.findBestPrefixMatch P tokens salt = some e) :
    ∃ i < (tokens.length + P.blockSize - 1) / P.blockSize,
      c.prefixIndex.get? (walkDigest P tokens salt (i + 1)) = some e ∧
      e.prefixLen = walkLen P tokens (i + 1) := by
  unfold findBestPrefixMatch at he
  split at he
  · cases he
  · cases matchLoop_some _ 0 he with
    | inl hnone => cases hnone
    | inr hfound =>
      obtain ⟨i, -, hi, hget⟩ := hfound
      exact ⟨i, by omega, hget⟩

theorem freeAll_pagedCache (bs : List Nat) (c : BlockAwarePrefixCache) :
    (bs.foldl freeBlock c).pagedCache = bs.foldl (fun m b => (m.freeBlock b).2) c.pagedCache := by
  induction bs generalizing c with
  | nil => rfl
  | cons b bs ih =>
    rw [List.foldl_cons, ih, List.foldl_cons, BlockAwarePrefixCache.freeBlock, onPaged_pagedCache]

/-- Freeing a list in the cache tells what it tells in the manager. -/
theorem freeAll_follows (bs : List Nat) (h : Stood P c) (hp : c.pool.pendingContentInvalidated = [])
    (hreg : c.callback < c.pagedCache.callbacks) :
    ∃ told, Follows c (bs.foldl freeBlock c) told ∧ FreesTold c.pagedCache bs told := by
  obtain ⟨told, hfollows⟩ : ∃ told, Follows c (bs.foldl freeBlock c) told := by
    induction bs generalizing c with
    | nil => exact ⟨[], .refl hp⟩
    | cons b bs ih =>
      obtain ⟨told, htold, -⟩ := freeBlock_tells h hp hreg b
      have hone : Follows c (c.freeBlock b) told := Follows.onPaged htold
      obtain ⟨told', hrest⟩ := ih (h.freeBlock b) hone.tells.pending
        (by rw [hone.callback, hone.tells.callbacks]; exact hreg)
      exact ⟨told ++ told', hone.trans hrest⟩
  obtain ⟨told', htold', hfrees⟩ := freeAll_tells bs h hp hreg
  rw [← freeAll_pagedCache] at htold'
  exact ⟨told, hfollows, hfollows.tells.unique htold' ▸ hfrees⟩

/-- Blocks that all carry a digest are all claimed. -/
theorem claimIndexed_all (bs : List Nat) (h : Stood P c) (hp : c.pool.pendingContentInvalidated = [])
    (hbs : ∀ b ∈ bs, ∃ k, Holds c.pool b k) :
    (claimIndexed P bs c).1 = bs ∧ Follows c (claimIndexed P bs c).2 [] ∧
      SameTables c (claimIndexed P bs c).2 ∧ ∀ x, (c.pool.blocks x).refCount + bs.count x ≤
        ((claimIndexed P bs c).2.pool.blocks x).refCount := by
  induction bs generalizing c with
  | nil => exact ⟨rfl, .refl hp, .refl c, by simp [claimIndexed]⟩
  | cons b bs ih =>
    obtain ⟨k, hk⟩ := hbs b List.mem_cons_self
    obtain ⟨htells, hmono⟩ := incrementRef_tells (P := P) (n := c.callback) hp b
    have hone : Follows c (c.onPaged (fun m => m.incrementRef P b)).2 [] := Follows.onPaged htells
    obtain ⟨hids, hrest, htables, hrefs⟩ := ih (h.incrementRef b) hone.tells.pending fun x hx =>
      (hbs x (List.mem_cons_of_mem _ hx)).imp fun k' hk' => hone.tells.kept x List.not_mem_nil k' hk'
    rw [claimIndexed, if_pos ⟨hk.1, by rw [hk.2]; exact Option.some_ne_none k⟩]
    refine ⟨congrArg (b :: ·) hids, hone.trans hrest,
      (SameTables.onPaged (incrementRef_tables _ b)).trans htables, fun x => ?_⟩
    have hstep : ((c.onPaged (fun m => m.incrementRef P b)).2.pool.blocks x).refCount =
        (c.pool.blocks x).refCount + if x = b then 1 else 0 := by
      have hpool : (c.onPaged (fun m => m.incrementRef P b)).2.pool =
          (c.pagedCache.incrementRef P b).2.pool := by rw [pool, onPaged_pagedCache]
      rw [hpool, Manager.incrementRef, locked_eq]
      simp only [Pool.incrementRef]
      rw [if_pos (show b ∈ c.pagedCache.pool.allocatedBlocks from hk.1)]
      exact ReturnedReferences.addRef_counts _ b x
    have hle := hrefs x
    rw [hstep] at hle
    rw [List.count_cons]
    by_cases hxb : x = b
    · simp only [hxb, if_true, beq_self_eq_true] at hle ⊢
      omega
    · simp only [hxb, if_false, beq_iff_eq, Ne.symm hxb] at hle ⊢
      omega

def Spells (P : Params κ) (s : Pool) (tokens : List Int) (salt : Nat → Option (List κ))
    (ids : List Nat) : Prop :=
  ∀ j b, ids[j]? = some b → Holds s b (chainAt P tokens salt j)

theorem Spells.mono {s' : Pool} {ids : List Nat}
    (h : Spells P s tokens salt ids) (hkept : ∀ b ∈ ids, ∀ k, Holds s b k → Holds s' b k) :
    Spells P s' tokens salt ids :=
  fun j b hj => hkept b (List.mem_of_getElem? hj) _ (h j b hj)

/-- A new table changes no block and no entry. -/
theorem createBlockTable_follows (c : BlockAwarePrefixCache) (r : String)
    (hp : c.pool.pendingContentInvalidated = []) :
    Follows c (c.createBlockTable r) [] ∧ (c.createBlockTable r).prefixIndex = c.prefixIndex ∧
      (c.createBlockTable r).pool.blocks = c.pool.blocks ∧
      (c.createBlockTable r).pool.requestTables = c.pool.requestTables.set r { requestId := r } := by
  obtain ⟨T, hT⟩ := createBlockTable_eq c r
  rw [hT]
  exact ⟨(Follows.refl hp).edited rfl rfl rfl rfl rfl rfl hp (fun b _ k hk => hk)
    fun b _ k _ hx => hx, rfl, rfl, rfl⟩

theorem fetchShared_served (h : Sound P [] c) {shared : List Nat}
    (hclaimed : Claimed P c.pagedCache tokens args shared) (r : String) :
    Sound P [] (c.fetchShared r tokens shared).2 ∧
      ∀ t rest, (c.fetchShared r tokens shared).1 = (some t, rest) →
        Spells P (c.fetchShared r tokens shared).2.pool tokens (resolvedSalt P args) t.blockIds := by
  unfold fetchShared
  split
  · exact ⟨h, by simp⟩
  · have hcreated := createBlockTable_sound h r
    obtain ⟨hf, -⟩ := createBlockTable_follows c r h.pending
    have hspells : Spells P (c.createBlockTable r).pool tokens (resolvedSalt P args) shared :=
      fun j b hj => hf.tells.kept b List.not_mem_nil _ (hclaimed.chain j b hj)
    clear hf
    generalize c.createBlockTable r = d at hcreated hspells ⊢
    refine ⟨hcreated.setTable _ fun _ => (linked_of_chain hspells hclaimed.full).1,
      fun t rest ht => ?_⟩
    cases ht
    exact hspells

/-- A lookup by the index serves the whole entry it finds. -/
theorem fetchIndexed_served (ideal : IdealDigest P.sha256) (h : Sound P [] c) {shared : List Nat}
    (hclaimed : Claimed P c.pagedCache tokens args shared) {salt : Option (List κ)} {i : Nat}
    {e : IndexEntry} (he : c.prefixIndex.get? (chainAt P tokens (fun _ => salt) i) = some e)
    (r : String) :
    (∃ told, Within P c told (c.fetchIndexed P r tokens shared e).2 ∧
        (∀ x ∈ told, (∃ k, Holds c.pool x k) →
          (c.pool.blocks x).refCount + e.blockIds.count x ≤ shared.count x ∧
          (x ∈ shared ∨ (c.pool.blocks x).parentHash ≠ none)) ∧
        ∀ r' t, (c.fetchIndexed P r tokens shared e).2.pool.requestTables.get? r' = some t →
          c.pool.requestTables.get? r' = some t ∨
            Linked P (c.fetchIndexed P r tokens shared e).2.pool none t.blockIds) ∧
      ∀ t rest, (c.fetchIndexed P r tokens shared e).1 = (some t, rest) →
        t.blockIds.length = i + 1 ∧
        Spells P (c.fetchIndexed P r tokens shared e).2.pool tokens (fun _ => salt) t.blockIds := by
  have hst := h.stood.fetchIndexed r tokens shared e
  obtain ⟨hcount, b, hlast, hb, -⟩ := h.entered _ _ he
  have hlinked := h.entries _ _ he fun _ _ => List.not_mem_nil
  have hlastKey : lastKey c.pool none e.blockIds = some (chainAt P tokens (fun _ => salt) i) := by
    rw [lastKey, hlast]
    exact hb.2
  obtain ⟨hlen, hspells⟩ := hlinked.spells ideal hlastKey
  have hcreated := createBlockTable_sound h r
  obtain ⟨hf₀, -, hblocks, htab₀⟩ := createBlockTable_follows c r h.pending
  have hids : ∀ b ∈ e.blockIds, ∃ k, Holds (c.createBlockTable r).pool b k := by
    intro b hb
    obtain ⟨k, hk⟩ := hlinked.holds b hb
    exact ⟨k, hf₀.tells.kept b List.not_mem_nil k hk⟩
  obtain ⟨hall, hf₁, htab₁, hrefs⟩ := claimIndexed_all (P := P) e.blockIds hcreated.stood
    hcreated.pending hids
  revert hst
  unfold fetchIndexed
  rw [hcount, List.take_length]
  have hstood₁ := hcreated.stood.claimIndexed (P := P) e.blockIds
  generalize claimIndexed P e.blockIds (c.createBlockTable r) = w at hall hf₁ htab₁ hrefs hstood₁
  obtain ⟨ids, d⟩ := w
  obtain rfl : ids = e.blockIds := hall
  have hne : e.blockIds ≠ [] := by
    intro hnil
    rw [hnil] at hlast
    cases hlast
  dsimp only
  rw [if_neg hne]
  intro hst
  have hd : Sound P [] d := hcreated.step hf₁ hstood₁ fun r' t hget => by rwa [htab₁.paged] at hget
  have hf₂ : Follows c (d.setTable ⟨r, e.blockIds, tokensOf d.pool e.blockIds⟩) [] :=
    (hf₀.trans hf₁).edited rfl rfl rfl rfl rfl rfl hd.pending (hf₀.trans hf₁).tells.kept
      (hf₀.trans hf₁).tells.parents
  have hset := hd.setTable ⟨r, e.blockIds, tokensOf d.pool e.blockIds⟩ fun _ =>
    hlinked.mono fun b _ => hf₂.tells.kept b List.not_mem_nil
  obtain ⟨told, hfreed, hfrees⟩ := freeAll_follows shared hset.stood hset.pending hset.registered
  have hf := hf₂.trans hfreed
  have htold : ∀ x ∈ told, (∃ k, Holds c.pool x k) →
      (c.pool.blocks x).refCount + e.blockIds.count x ≤ shared.count x ∧
      (x ∈ shared ∨ (c.pool.blocks x).parentHash ≠ none) := by
    rintro x hx ⟨k, hk⟩
    have hk₂ := hf₂.tells.kept x List.not_mem_nil k hk
    have hle : (d.pool.blocks x).refCount ≤ shared.count x := hfrees.idle x hx ⟨k, hk₂⟩
    have hgain : (c.pool.blocks x).refCount + e.blockIds.count x ≤ (d.pool.blocks x).refCount :=
      hblocks ▸ hrefs x
    exact ⟨hgain.trans hle, (hfrees.own x hx ⟨k, hk₂⟩).imp_right
      (hf₂.tells.parents x List.not_mem_nil k hk)⟩
  have hspare : ∀ x ∈ e.blockIds, x ∉ told := by
    intro x hx hm
    have hheld := hlinked.holds x hx
    have hle := (htold x hm hheld).1
    have hin : 0 < e.blockIds.count x := List.count_pos_iff.mpr hx
    have hown : (shared.count x : Int) ≤ (c.pool.blocks x).refCount := by
      by_cases hxs : x ∈ shared
      · have hone := List.nodup_iff_count_le_one.mp (nodup_of_chain ideal hclaimed.chain) x
        have hpos : 0 < (c.pool.blocks x).refCount := hclaimed.refs x hxs
        omega
      · obtain ⟨k, hk⟩ := hheld
        rw [List.count_eq_zero_of_not_mem hxs]
        exact ReturnedReferences.refs_nonneg h.stood hk.1
    omega
  have hkept : ∀ x ∈ e.blockIds, ∀ k, Holds c.pool x k →
      Holds (shared.foldl freeBlock
        (d.setTable ⟨r, e.blockIds, tokensOf d.pool e.blockIds⟩)).pool x k :=
    fun x hx => hf.tells.kept x (hspare x hx)
  have htables := (freeAll_tables shared
    (d.setTable ⟨r, e.blockIds, tokensOf d.pool e.blockIds⟩)).paged
  refine ⟨⟨told, ⟨hf, hset.step hfreed hst fun r' t hget => htables ▸ hget⟩, htold,
    fun r' t hget => ?_⟩, fun t rest ht => ?_⟩
  · rw [htables, show (d.setTable ⟨r, e.blockIds, tokensOf d.pool e.blockIds⟩).pool.requestTables =
      d.pool.requestTables.set r ⟨r, e.blockIds, tokensOf d.pool e.blockIds⟩ from rfl,
      Dict.get?_set] at hget
    split at hget
    · cases hget
      exact .inr (hlinked.mono hkept)
    · next hr =>
      rw [htab₁.paged, htab₀, Dict.get?_set, if_neg hr] at hget
      exact .inl hget
  · cases ht
    exact ⟨hlen, Spells.mono (fun j b hj => (hspells j b hj).1) hkept⟩

def IndexHit (P : Params κ) (c : BlockAwarePrefixCache) (tokens : List Int)
    (salt : Option (List κ)) (i : Nat) : Prop :=
  ∃ e, c.prefixIndex.get? (walkDigest P tokens salt (i + 1)) = some e ∧
    e.prefixLen = walkLen P tokens (i + 1)

theorem findBestPrefixMatch_congr {d : BlockAwarePrefixCache} (h : d.prefixIndex = c.prefixIndex)
    (tokens : List Int) (salt : Option (List κ)) :
    d.findBestPrefixMatch P tokens salt = c.findBestPrefixMatch P tokens salt := by
  have hloop : ∀ n i k len best,
      d.matchLoop P tokens salt n i k len best = c.matchLoop P tokens salt n i k len best := by
    intro n
    induction n with
    | zero => exact fun _ _ _ _ => rfl
    | succ n ih =>
      intro i k len best
      rw [matchLoop, matchLoop, h]
      exact ih _ _ _ _
  unfold findBestPrefixMatch
  rw [hloop]

theorem fetchCache_served (ideal : IdealDigest P.sha256) (h : Sound P [] c)
    (ssd : Option (BlockHash → Bool)) (now : Clocks) (r : String) (tokens : List Int)
    (args : KeyArgs κ) :
    (Spares P c (.fetchCache ssd now r tokens args) →
        Sound P [] (c.fetchCache P ssd now r tokens args).2) ∧
      ∀ t rest, (c.fetchCache P ssd now r tokens args).1 = .ok (some t, rest) →
        Spells P (c.fetchCache P ssd now r tokens args).2.pool tokens (resolvedSalt P args)
            t.blockIds ∨
          ∃ i, IndexHit P c tokens args.extraKeys i ∧ t.blockIds.length = i + 1 ∧
            Spells P (c.fetchCache P ssd now r tokens args).2.pool tokens
              (fun _ => args.extraKeys) t.blockIds := by
  unfold fetchCache
  split
  · exact ⟨fun _ => h, by rintro _ _ ⟨⟩⟩
  · have hsweep : c.maybeExpirePinnedBlocks now = c := by
      rw [maybeExpirePinnedBlocks, if_pos h.unpinned]
    obtain ⟨htells, htab, htrace, hmono, hanswer⟩ := getComputedBlocks_tells (P := P) (n := c.callback)
      h.stood h.pending ssd tokens args
    have hf : Follows c (c.onPaged (fun m => m.getComputedBlocks P ssd tokens args true)).2 [] :=
      Follows.onPaged htells
    have htables : (c.onPaged (fun m => m.getComputedBlocks P ssd tokens args true)).2.pool.requestTables =
        c.pool.requestTables := by rw [pool, onPaged_pagedCache, htab]
    have hnext : Sound P [] (c.onPaged (fun m => m.getComputedBlocks P ssd tokens args true)).2 :=
      h.step hf (h.stood.paged (.getComputedBlocks ssd tokens args true) rfl trivial)
        fun r' t hget => htables ▸ hget
    have hindex : (c.onPaged (fun m => m.getComputedBlocks P ssd tokens args true)).2.prefixIndex =
        c.prefixIndex := by rw [onPaged_quiet _ htrace]
    rw [← onPaged_pagedCache c (fun m => m.getComputedBlocks P ssd tokens args true)] at hmono hanswer
    rw [show (c.pagedCache.getComputedBlocks P ssd tokens args true).1 =
      (c.onPaged (fun m => m.getComputedBlocks P ssd tokens args true)).1 from rfl] at hanswer
    rw [hsweep]
    generalize c.onPaged (fun m => m.getComputedBlocks P ssd tokens args true) = q
      at hf htables hnext hindex hmono hanswer
    obtain ⟨answer, d⟩ := q
    cases answer with
    | error e => exact ⟨fun _ => hnext, by rintro _ _ ⟨⟩⟩
    | ok found =>
      obtain ⟨hclaimed, hgain⟩ : Claimed P d.pagedCache tokens args found.1 ∧ ∀ x ∈ found.1,
          x ∈ c.pool.allocatedBlocks → (c.pool.blocks x).refCount < (d.pool.blocks x).refCount :=
        hanswer found.1 found.2 rfl
      replace hmono : ∀ x ∈ c.pool.allocatedBlocks,
          (c.pool.blocks x).refCount ≤ (d.pool.blocks x).refCount := hmono
      have hpos : ∀ x ∈ found.1, 0 < (d.pool.blocks x).refCount := hclaimed.refs
      have hshared := fetchShared_served hnext hclaimed r
      have hserve : (Spares P c (.fetchCache ssd now r tokens args) →
          Sound P [] (d.fetchShared r tokens found.1).2) ∧
          ∀ t rest, (Except.ok (d.fetchShared r tokens found.1).1 : Except PyError _) =
            .ok (some t, rest) → Spells P (d.fetchShared r tokens found.1).2.pool tokens
              (resolvedSalt P args) t.blockIds :=
        ⟨fun _ => hshared.1, fun t rest ht => hshared.2 t rest (Except.ok.inj ht)⟩
      dsimp only
      cases he : d.findBestPrefixMatch P tokens args.extraKeys with
      | none => exact ⟨hserve.1, fun t rest ht => .inl (hserve.2 t rest ht)⟩
      | some e =>
        dsimp only
        split
        · obtain ⟨i, -, hget, hlen⟩ := match_some he
          have hhit : d.prefixIndex.get? (chainAt P tokens (fun _ => args.extraKeys) i) = some e := by
            rw [← walkDigest_chain]
            exact hget
          rw [hindex] at hget
          have hbest : c.findBestPrefixMatch P tokens args.extraKeys = some e := by
            rw [← findBestPrefixMatch_congr hindex, he]
          obtain ⟨⟨told, hwithin, htold, hlisted⟩, hspells⟩ :=
            fetchIndexed_served ideal hnext hclaimed hhit r
          refine ⟨fun hs => ?_, fun t rest ht =>
            .inr ⟨i, ⟨e, hget, hlen⟩, hspells t rest (Except.ok.inj ht)⟩⟩
          have hwhole : Within P c told (d.fetchIndexed P r tokens found.1 e).2 :=
            ⟨hf.trans hwithin.follows, hwithin.sound⟩
          refine hwhole.finish (hs.unlisted h hwhole.follows (fun _ hdrop => hdrop.elim)
            (fun _ hfree => hfree.elim) fun b hb hx => .inr ⟨⟨e, hbest, fun hin => ?_⟩, ?_⟩)
            fun r' t hget' => htables ▸ hlisted r' t hget'
          all_goals
            obtain ⟨k, hk⟩ := hx
            have hk' : Holds d.pool b k := hf.tells.kept b List.not_mem_nil k hk
            obtain ⟨hle, hwhy⟩ : (d.pool.blocks b).refCount + e.blockIds.count b ≤ found.1.count b ∧
              (b ∈ found.1 ∨ (d.pool.blocks b).parentHash ≠ none) := htold b hb ⟨k, hk'⟩
            have hone : (found.1.count b : Int) ≤ 1 := by
              exact_mod_cast List.nodup_iff_count_le_one.mp (nodup_of_chain ideal hclaimed.chain) b
          -- the blocks of the entry were claimed before the others were given up
          · have hin : 0 < e.blockIds.count b := List.count_pos_iff.mpr hin
            have hnonneg : 0 ≤ (d.pool.blocks b).refCount :=
              ReturnedReferences.refs_nonneg hnext.stood hk'.1
            have hnone : b ∉ found.1 := by
              intro hshare
              have hone := hpos b hshare
              omega
            rw [List.count_eq_zero_of_not_mem hnone] at hle
            omega
          · have hidle : (c.pool.blocks b).refCount ≤ 0 := by
              by_cases hshare : b ∈ found.1
              · have hmore := hgain b hshare hk.1
                omega
              · have hmore := hmono b hk.1
                rw [List.count_eq_zero_of_not_mem hshare] at hle
                omega
            refine hwhy.imp (fun hshare => ?_) fun hparent => ?_
            · obtain ⟨j, hj⟩ := List.mem_iff_getElem?.mp hshare
              refine ⟨idle_of_holds hk hidle, j, ?_⟩
              rw [hk.2, hk'.unique (hclaimed.chain j b hj)]
            · exact ⟨idle_of_holds hk hidle, hf.tells.parents b List.not_mem_nil k hk hparent⟩
        · exact ⟨hserve.1, fun t rest ht => .inl (hserve.2 t rest ht)⟩

/-- Stores, lookups, ends of requests and evictions, each of which spares what is listed. -/
def Undisturbing (P : Params κ) (c : BlockAwarePrefixCache) (call : Call κ) : Prop :=
  (match call with
    | .storeCache _ _ _ _ => True
    | .fetchCache _ _ _ _ _ => True
    | .releaseCache _ => True
    | .clearRequestEntry _ => True
    | .clearRequestEntryNoFree _ => True
    | .retire _ => True
    | .paged op => Takes op
    | _ => False) ∧ Spares P c call

theorem sound_init (h : Starts P c) : Sound P [] c := by
  obtain ⟨m, hm, rfl⟩ := h
  obtain ⟨hst, -⟩ := stands_init hm
  have htables : ∀ r, (BlockAwarePrefixCache.init m).pool.requestTables.get? r = none := by
    intro r
    rw [show (BlockAwarePrefixCache.init m).pool.requestTables = m.pool.requestTables from rfl,
      init_tables hm, Dict.get?_empty]
  refine { stood := init_stood hm, pending := ?_, registered := Nat.lt_succ_self _, unpinned := rfl
           keyed := fun r t hget => ?_, tables := fun r t hget => ?_, entered := fun k e hget => ?_
           entries := fun k e hget => ?_ }
  · exact hst.refines.pending
  · rw [htables] at hget
    cases hget
  · rw [htables] at hget
    cases hget
  · cases hget
  · cases hget

theorem sound_step (ideal : IdealDigest P.sha256) (h : Sound P [] c) {call : Call κ}
    (hok : Undisturbing P c call) : Sound P [] (step P c call) := by
  obtain ⟨hcall, hs⟩ := hok
  cases call with
  | storeCache tier r tokens args => exact storeCache_sound ideal h tier r tokens args hs
  | fetchCache ssd now r tokens args =>
    exact (fetchCache_served ideal h ssd now r tokens args).1 hs
  | releaseCache r => exact releaseCache_sound h r hs
  | clearRequestEntry r => exact releaseCache_sound h r hs
  | clearRequestEntryNoFree r => exact clearRequestEntryNoFree_sound h r
  | retire r => exact retire_sound h r
  | paged op => exact paged_sound h hcall hs
  | _ => exact hcall.elim

/-- In every run of undisturbing calls everything listed is linked. -/
theorem sound_run (ideal : IdealDigest P.sha256)
    (h : Reached (Starts P) (Undisturbing P) (step P) c) : Sound P [] c :=
  h.invariant (fun _ => sound_init) fun _ _ _ h hok => sound_step ideal h hok

def markedDigest (x : Bytes) : Bytes :=
  List.replicate 16 0 ++ (x.flatMap (fun b => [1, b]) ++ [0])

theorem marked_free (x y : Bytes)
    (h : x.flatMap (fun b => [1, b]) ++ [0] <+: y.flatMap (fun b => [(1 : UInt8), b]) ++ [0]) :
    x = y := by
  induction x generalizing y with
  | nil =>
    cases y with
    | nil => rfl
    | cons b y => simp [List.cons_prefix_cons] at h
  | cons a x ih =>
    cases y with
    | nil => simp [List.cons_prefix_cons] at h
    | cons b y =>
      simp only [List.flatMap_cons, List.cons_append, List.nil_append, List.cons_prefix_cons,
        true_and] at h
      rw [h.1, ih y h.2]

theorem markedDigest_free {x y : Bytes} (h : markedDigest x <+: markedDigest y) : x = y :=
  marked_free x y ((List.prefix_append_right_inj _).mp h)

theorem ideal_marked : IdealDigest markedDigest where
  injective x y h := markedDigest_free (h ▸ List.prefix_refl _)
  prefixFree x y h := congrArg markedDigest (markedDigest_free h)
  long x := by simp [markedDigest, rootSeed]
  notSeed x h := by
    simp [markedDigest, rootSeed, List.replicate, List.cons_prefix_cons] at h

def marked (n : Nat) : Params Int := { tiny n with sha256 := markedDigest }

def markedRun (n : Nat) (calls : List (Call Int)) : BlockAwarePrefixCache :=
  runList (step (marked n)) (BlockAwarePrefixCache.init (started (marked n) (by simp [marked, tiny])))
    calls

theorem markedRun_reached {ok : BlockAwarePrefixCache → Call Int → Prop} (n : Nat)
    (calls : List (Call Int)) (hok : AllOk ok (step (marked n)) (markedRun n []) calls) :
    Reached (Starts (marked n)) ok (step (marked n)) (markedRun n calls) :=
  Reached.runList (.start ⟨_, init_started _ _, rfl⟩) hok

/-- In every run of undisturbing calls, whatever a lookup without keys returns names allocated
blocks under the chain digests of the request's leading chunks. -/
theorem lookup_serves_chain (ideal : IdealDigest P.sha256)
    (h : Reached (Starts P) (Undisturbing P) (step P) c) (ssd : Option (BlockHash → Bool))
    (now : Clocks) (r : String) (tokens : List Int) (args : KeyArgs κ) (t : BlockTable)
    (rest : List Int) (hkeys : args.extraKeys = none ∧ args.extraKeyRanges = [])
    (hserved : (c.fetchCache P ssd now r tokens args).1 = .ok (some t, rest)) :
    ∀ i b, t.blockIds[i]? = some b →
      b ∈ (c.fetchCache P ssd now r tokens args).2.pool.allocatedBlocks ∧
      ((c.fetchCache P ssd now r tokens args).2.pool.blocks b).blockHash =
        some (chainAt P tokens (fun _ => none) i) := by
  have hsalt : resolvedSalt P args = fun _ => none := by
    funext i
    simp [resolvedSalt, resolveBlockExtraKeys, hkeys.1, hkeys.2]
  have hspells := (fetchCache_served ideal (sound_run ideal h) ssd now r tokens args).2 t rest hserved
  rw [hsalt, hkeys.1] at hspells
  cases hspells with
  | inl hmap => exact hmap
  | inr hindex =>
    obtain ⟨-, -, -, hindex⟩ := hindex
    exact hindex

/-- A store that finds room, where no block names a parent. -/
theorem spares_store {tier : StoreTier} {r : String}
    (hbare : ∀ b ∈ c.pool.allocatedBlocks, (c.pool.blocks b).parentHash = none)
    (hroom : ¬ CopyRefinement.room P c.pool < newBlocks P c r tokens) :
    Spares P c (.storeCache tier r tokens args) := by
  rintro b (hfree | ⟨-, hshort⟩ | ⟨hidle, hparent⟩)
  · exact hfree.elim
  · exact absurd hshort hroom
  · exact absurd (hbare b hidle.1) hparent

/-- Memory pressure that reclaims blocks of their own, where no block names a parent. -/
theorem spares_pressure {n : Int}
    (hbare : ∀ b ∈ c.pool.allocatedBlocks, (c.pool.blocks b).parentHash = none)
    (htab : c.pool.requestTables.keys = [])
    (hends : ∀ b ∈ PoolAccounting.reclaimable c.pool n, ∀ k ∈ c.prefixIndex.keys,
      ∀ e ∈ c.prefixIndex.get? k, b ∈ e.blockIds → e.blockIds.getLast? = some b) :
    Spares P c (.paged (.handleMemoryPressure n)) := by
  rintro b (hfree | hreclaim | ⟨hidle, hparent⟩)
  · exact hfree.elim
  · refine ⟨fun r t _ hget => ?_, fun k e l hget hin hlast => .inl ?_⟩
    · have hkey := (Dict.mem_keys_iff _ r).mpr ⟨t, hget⟩
      rw [htab] at hkey
      cases hkey
    · have hown := hends b hreclaim k ((Dict.mem_keys_iff _ k).mpr ⟨e, hget⟩) e hget hin
      exact Option.some.inj (hlast.symm.trans hown)
  · exact absurd (hbare b hidle.1) hparent

/-- Nothing to spare. -/
theorem spares_retire (r : String) : Spares P c (.retire r) := by
  rintro b (hfree | hevict)
  · exact hfree.elim
  · exact hevict.elim

/-- Two requests come and go, and memory pressure takes the block of the first. -/
theorem lookup_serves_chain_pair :
    let c := markedRun 3 [.storeCache {} "x" [9] {}, .retire "x", .storeCache {} "a" [1, 2] {},
      .retire "a", .paged (.handleMemoryPressure 1)]
    let d := (c.fetchCache (marked 3) none {} "b" [1, 2] {}).2
    3 ∈ d.pool.allocatedBlocks ∧
      (d.pool.blocks 3).blockHash = some (chainAt (marked 3) [1, 2] (fun _ => none) 1) := by
  refine lookup_serves_chain ideal_marked (markedRun_reached 3 [.storeCache {} "x" [9] {},
    .retire "x", .storeCache {} "a" [1, 2] {}, .retire "a", .paged (.handleMemoryPressure 1)]
    ⟨⟨trivial, spares_store ?_ ?_⟩, ⟨trivial, spares_retire "x"⟩, ⟨trivial, spares_store ?_ ?_⟩,
      ⟨trivial, spares_retire "a"⟩, ⟨trivial, spares_pressure ?_ ?_ ?_⟩, trivial⟩) none {} "b" [1, 2] {}
    ⟨"b", [2, 3], 2⟩ [] ⟨rfl, rfl⟩ ?_ 1 3 rfl
  all_goals decide +kernel

/-- A deeper entry outlives its first block, which is taken and filled with other content. -/
theorem stale_entry_served :
    let c := markedRun 2 [.storeCache {} "a" [1, 2] {}, .retire "a",
      .paged (.handleMemoryPressure 1), .storeCache {} "b" [9] {}]
    let q := c.fetchCache (marked 2) none {} "c" [1, 2] {}
    q.1 = .ok (some ⟨"c", [1, 2], 2⟩, []) ∧
      (q.2.pool.blocks 1).blockHash = some (chainAt (marked 2) [9] (fun _ => none) 0) ∧
      (q.2.pool.blocks 1).blockHash ≠ some (chainAt (marked 2) [1, 2] (fun _ => none) 0) := by
  decide +kernel

/-- The block carries the digest of the request's chunk `j` and of nothing else: whatever parent,
tokens and salt its digest was made of are those of the request, the salt as it prints. -/
def OwnContent (P : Params κ) (s : Pool) (tokens : List Int) (args : KeyArgs κ) (j b : Nat) : Prop :=
  Holds s b (chainAt P tokens (resolvedSalt P args) j) ∧
    ∀ p ts salt, IsParent P.sha256 p → (s.blocks b).blockHash = some (P.hash p ts salt) →
      p = parentAt P tokens (resolvedSalt P args) j ∧ ts = blockTokens P.blockSize tokens j ∧
        saltBytes P.repr salt = saltBytes P.repr (resolvedSalt P args j)

theorem Spells.ownContent (ideal : IdealDigest P.sha256) {ids : List Nat}
    (h : Spells P s tokens (resolvedSalt P args) ids) :
    ∀ j b, ids[j]? = some b → OwnContent P s tokens args j b := by
  intro j b hj
  have hb := h j b hj
  refine ⟨hb, fun p ts salt hp hk => ?_⟩
  have hsame : P.hash p ts salt = chainAt P tokens (resolvedSalt P args) j :=
    Option.some.inj (hk.symm.trans hb.2)
  rw [← chainAt_eq] at hsame
  exact computeBlockHash_injective ideal hp (chainAt_isParent P tokens (resolvedSalt P args) j) hsame

/-- Wherever the index has an entry for leading chunks of the request under its bare keys, the
arguments resolve to these keys at the end of each of the chunks. -/
def BareKeys (P : Params κ) (c : BlockAwarePrefixCache) (tokens : List Int) (args : KeyArgs κ) :
    Prop :=
  ∀ i, IndexHit P c tokens args.extraKeys i → ∀ j ≤ i, ∃ salt,
    resolveBlockExtraKeys ((j + 1) * P.blockSize) args = .ok salt ∧
      saltBytes P.repr salt = saltBytes P.repr args.extraKeys

/-- In every run of undisturbing calls, a lookup whose bare keys are what its arguments resolve to
wherever the index could answer serves its own content only. -/
theorem served_salts (ideal : IdealDigest P.sha256)
    (h : Reached (Starts P) (Undisturbing P) (step P) c) (ssd : Option (BlockHash → Bool))
    (now : Clocks) (r : String) (tokens : List Int) (args : KeyArgs κ) (t : BlockTable)
    (rest : List Int) (hkeys : BareKeys P c tokens args)
    (hserved : (c.fetchCache P ssd now r tokens args).1 = .ok (some t, rest)) :
    ∀ j b, t.blockIds[j]? = some b →
      OwnContent P (c.fetchCache P ssd now r tokens args).2.pool tokens args j b := by
  have hspells := (fetchCache_served ideal (sound_run ideal h) ssd now r tokens args).2 t rest hserved
  cases hspells with
  | inl hmap => exact hmap.ownContent ideal
  | inr hindex =>
    obtain ⟨i, hhit, hlen, hspells⟩ := hindex
    refine Spells.ownContent ideal fun j b hj => ?_
    have hji : j ≤ i := by
      have hlt := (List.getElem?_eq_some_iff.mp hj).1
      omega
    have hcongr : chainAt P tokens (resolvedSalt P args) j =
        chainAt P tokens (fun _ => args.extraKeys) j := by
      refine chainAt_congr fun l hl => ?_
      obtain ⟨salt, hsalt, hprint⟩ := hkeys i hhit l (hl.trans hji)
      rw [resolvedSalt, hsalt]
      exact hprint
    rw [hcongr]
    exact hspells j b hj

theorem served_salts_image :
    let c := markedRun 2 [.storeCache {} "a" [5] { extraKeys := some [7] }]
    let args : KeyArgs Int := { extraKeys := some [7] }
    OwnContent (marked 2) (c.fetchCache (marked 2) none {} "b" [5] args).2.pool [5] args 0 1 := by
  refine served_salts ideal_marked (markedRun_reached 2
    [.storeCache {} "a" [5] { extraKeys := some [7] }] ⟨⟨trivial, ?_⟩, trivial⟩) none {} "b" [5]
    { extraKeys := some [7] } ⟨"b", [1], 1⟩ [] (fun i _ j _ => ⟨some [7], rfl, rfl⟩)
    (by decide +kernel) 0 1 rfl
  exact spares_store (by decide +kernel) (by decide +kernel)

/-- The index walk salts every chunk with the bare keys: a lookup that salts its block by a range
is served one stored without a salt, and one that salts none is served one stored with. -/
theorem other_salt_served :
    (let c := markedRun 2 [.storeCache {} "a" [5] {}]
      let args : KeyArgs Int := { extraKeyRanges := [(0, [7])] }
      let q := c.fetchCache (marked 2) none {} "b" [5] args
      q.1 = .ok (some ⟨"b", [1], 1⟩, []) ∧
        (q.2.pool.blocks 1).blockHash = some ((marked 2).hash none [5] none) ∧
        resolveBlockExtraKeys 1 args = .ok (some [7])) ∧
    (let c := markedRun 2 [.storeCache {} "a" [5] { extraKeys := some [7] }]
      let args : KeyArgs Int := { extraKeys := some [7], extraKeyTokenStart := some 1 }
      let q := c.fetchCache (marked 2) none {} "b" [5] args
      q.1 = .ok (some ⟨"b", [1], 1⟩, []) ∧
        (q.2.pool.blocks 1).blockHash = some ((marked 2).hash none [5] (some [7])) ∧
        resolveBlockExtraKeys 1 args = .ok none) := by
  decide +kernel

end FusionMlx.ServedPrefixes
