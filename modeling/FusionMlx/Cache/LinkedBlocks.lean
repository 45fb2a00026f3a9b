import FusionMlx.Cache.StandingCalls

/-!
# Blocks linked by their digests

A list of blocks is linked when each carries the digest of a full chunk behind
the digest of its predecessor. Under an ideal digest the last digest of a
linked list determines all of them.
-/
namespace FusionMlx.LinkedBlocks

open BlockHashing BlockPool LookupRefinement PagedCacheManager

variable {κ : Type} {P : Params κ} {m m' m'' : Manager} {s s' s'' : Pool} {n : Nat}

/-- The block is allocated under this digest. -/
def Holds (s : Pool) (b : Nat) (k : BlockHash) : Prop :=
  b ∈ s.allocatedBlocks ∧ (s.blocks b).blockHash = some k

theorem Holds.unique {b : Nat} {k k' : BlockHash} (h : Holds s b k) (h' : Holds s b k') : k = k' :=
  Option.some.inj (h.2.symm.trans h'.2)

def Linked (P : Params κ) (s : Pool) : Option BlockHash → List Nat → Prop
  | _, [] => True
  | p, b :: rest => ∃ ts salt, ts.length = P.blockSize ∧ Holds s b (P.hash p ts salt) ∧
      Linked P s (some (P.hash p ts salt)) rest

def lastKey (s : Pool) (p : Option BlockHash) (ids : List Nat) : Option BlockHash :=
  match ids.getLast? with
  | none => p
  | some b => (s.blocks b).blockHash

@[simp] theorem lastKey_nil (s : Pool) (p : Option BlockHash) : lastKey s p [] = p := rfl

@[simp] theorem lastKey_snoc (s : Pool) (p : Option BlockHash) (ids : List Nat) (b : Nat) :
    lastKey s p (ids ++ [b]) = (s.blocks b).blockHash := by
  simp [lastKey]

theorem lastKey_cons {b : Nat} {k : BlockHash} (hb : Holds s b k) (p : Option BlockHash)
    (ids : List Nat) : lastKey s p (b :: ids) = lastKey s (some k) ids := by
  cases hlast : ids.getLast? with
  | none =>
    rw [List.getLast?_eq_none_iff] at hlast
    simp [hlast, lastKey, hb.2]
  | some x => simp [lastKey, List.getLast?_cons, hlast]

namespace Linked

variable {p : Option BlockHash} {ids : List Nat}

theorem mono (h : Linked P s p ids) (hkept : ∀ b ∈ ids, ∀ k, Holds s b k → Holds s' b k) :
    Linked P s' p ids := by
  induction ids generalizing p with
  | nil => trivial
  | cons b ids ih =>
    obtain ⟨ts, salt, hlen, hb, hrest⟩ := h
    exact ⟨ts, salt, hlen, hkept b List.mem_cons_self _ hb,
      ih hrest fun x hx => hkept x (List.mem_cons_of_mem _ hx)⟩

theorem take (h : Linked P s p ids) (n : Nat) : Linked P s p (ids.take n) := by
  induction ids generalizing p n with
  | nil => simp [Linked]
  | cons b ids ih =>
    cases n with
    | zero => trivial
    | succ n =>
      obtain ⟨ts, salt, hlen, hb, hrest⟩ := h
      exact ⟨ts, salt, hlen, hb, ih hrest n⟩

theorem holds (h : Linked P s p ids) : ∀ b ∈ ids, ∃ k, Holds s b k := by
  induction ids generalizing p with
  | nil => simp
  | cons b ids ih =>
    obtain ⟨ts, salt, -, hb, hrest⟩ := h
    intro x hx
    cases hx with
    | head => exact ⟨_, hb⟩
    | tail _ hx => exact ih hrest x hx

/-- A list is linked up to its last block and at it. -/
theorem snoc_iff {b : Nat} : Linked P s p (ids ++ [b]) ↔ Linked P s p ids ∧
    ∃ ts salt, ts.length = P.blockSize ∧ Holds s b (P.hash (lastKey s p ids) ts salt) := by
  induction ids generalizing p with
  | nil => simp [Linked]
  | cons x ids ih =>
    rw [List.cons_append]
    simp only [Linked, ih]
    constructor
    · rintro ⟨ts, salt, hlen, hx, hrest, hlast⟩
      rw [lastKey_cons hx]
      exact ⟨⟨ts, salt, hlen, hx, hrest⟩, hlast⟩
    · rintro ⟨⟨ts, salt, hlen, hx, hrest⟩, hlast⟩
      rw [lastKey_cons hx] at hlast
      exact ⟨ts, salt, hlen, hx, hrest, hlast⟩

end Linked

theorem hash_isParent (P : Params κ) (p : Option BlockHash) (ts : List Int)
    (salt : Option (List κ)) : IsParent P.sha256 (some (P.hash p ts salt)) := by
  intro h hh
  cases hh
  exact ⟨_, rfl⟩

theorem none_isParent (sha256 : Bytes → Bytes) : IsParent sha256 none := nofun

/-- The digest behind a linked list is none, or a digest. -/
theorem Linked.lastKey_isParent {ids : List Nat} (h : Linked P s none ids) :
    IsParent P.sha256 (lastKey s none ids) := by
  cases ids using List.reverseRecOn with
  | nil => exact none_isParent _
  | append_singleton ids b =>
    obtain ⟨-, ts, salt, -, hb⟩ := Linked.snoc_iff.mp h
    rw [lastKey_snoc, hb.2]
    exact hash_isParent P _ ts salt

theorem chainAt_isParent (P : Params κ) (tokens : List Int) (salt : Nat → Option (List κ))
    (i : Nat) : IsParent P.sha256 (parentAt P tokens salt i) := by
  cases i with
  | zero => exact none_isParent _
  | succ i =>
    rw [show parentAt P tokens salt (i + 1) = some (chainAt P tokens salt i) from rfl, ← chainAt_eq]
    exact hash_isParent P _ _ _

variable {tokens : List Int} {salt : Nat → Option (List κ)}

/-- A linked list whose last digest is the chain digest of `i + 1` chunks has `i + 1` blocks, each
under the chain digest of its place, and the chunks are full. -/
theorem Linked.spells (ideal : IdealDigest P.sha256)
    {ids : List Nat} {i : Nat} (h : Linked P s none ids)
    (hlast : lastKey s none ids = some (chainAt P tokens salt i)) :
    ids.length = i + 1 ∧ ∀ j b, ids[j]? = some b → Holds s b (chainAt P tokens salt j) ∧
      (blockTokens P.blockSize tokens j).length = P.blockSize := by
  induction ids using List.reverseRecOn generalizing i with
  | nil => cases hlast
  | append_singleton ids b ih =>
    obtain ⟨hids, ts, salt', hlen, hb⟩ := Linked.snoc_iff.mp h
    rw [lastKey_snoc] at hlast
    have hkey : P.hash (lastKey s none ids) ts salt' = chainAt P tokens salt i :=
      Option.some.inj (hb.2.symm.trans hlast)
    rw [← chainAt_eq] at hkey
    obtain ⟨hparent, htokens, -⟩ := computeBlockHash_injective ideal hids.lastKey_isParent
      (chainAt_isParent P tokens salt i) hkey
    have hlastBlock : Holds s b (chainAt P tokens salt i) ∧
        (blockTokens P.blockSize tokens i).length = P.blockSize :=
      ⟨⟨hb.1, hlast⟩, htokens ▸ hlen⟩
    cases i with
    | zero =>
      have hnil : ids = [] := by
        cases ids using List.reverseRecOn with
        | nil => rfl
        | append_singleton ids x =>
          obtain ⟨-, ts', salt'', -, hx⟩ := Linked.snoc_iff.mp hids
          rw [lastKey_snoc, hx.2] at hparent
          cases hparent
      subst hnil
      refine ⟨rfl, fun j x hx => ?_⟩
      cases j with
      | zero =>
        cases hx
        exact hlastBlock
      | succ j => simp at hx
    | succ i =>
      obtain ⟨hcount, hall⟩ := ih hids hparent
      refine ⟨by simp [hcount], fun j x hx => ?_⟩
      rw [List.getElem?_append] at hx
      split at hx
      · exact hall j x hx
      · next hj =>
        have hji : j = i + 1 := by
          have := List.getElem?_eq_some_iff.mp hx
          simp at this
          omega
        subst hji
        simp only [hcount, Nat.sub_self, List.getElem?_cons_zero, Option.some.injEq] at hx
        exact hx ▸ hlastBlock

/-- Different places of a chain have different digests. -/
theorem chainAt_injective (ideal : IdealDigest P.sha256) {tokens' : List Int}
    {salt' : Nat → Option (List κ)} {i j : Nat}
    (h : chainAt P tokens salt i = chainAt P tokens' salt' j) : i = j := by
  induction i generalizing j with
  | zero =>
    cases j with
    | zero => rfl
    | succ j =>
      have hparent := (computeBlockHash_injective ideal (none_isParent _)
        (chainAt_isParent P tokens' salt' (j + 1)) h).1
      cases hparent
  | succ i ih =>
    cases j with
    | zero =>
      have hparent := (computeBlockHash_injective ideal (chainAt_isParent P tokens salt (i + 1))
        (none_isParent _) h).1
      cases hparent
    | succ j =>
      have hparent := (computeBlockHash_injective ideal (chainAt_isParent P tokens salt (i + 1))
        (chainAt_isParent P tokens' salt' (j + 1)) h).1
      exact congrArg (· + 1) (ih (Option.some.inj hparent))

/-- Salts that print alike give the same chain. -/
theorem chainAt_congr {salt' : Nat → Option (List κ)} {i : Nat}
    (h : ∀ j ≤ i, saltBytes P.repr (salt j) = saltBytes P.repr (salt' j)) :
    chainAt P tokens salt i = chainAt P tokens salt' i := by
  have hhash : ∀ p ts k k', saltBytes P.repr k = saltBytes P.repr k' →
      P.hash p ts k = P.hash p ts k' := by
    intro p ts k k' hk
    simp only [Params.hash, computeBlockHash, hk]
  induction i with
  | zero => exact hhash _ _ _ _ (h 0 (Nat.le_refl 0))
  | succ i ih =>
    have hi := ih fun j hj => h j (Nat.le_succ_of_le hj)
    unfold chainAt at hi ⊢
    rw [chainHash, chainHash, hi]
    exact hhash _ _ _ _ (h (i + 1) (Nat.le_refl _))

end FusionMlx.LinkedBlocks
