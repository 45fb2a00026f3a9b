import FusionMlx.Kernels.SlabOwnership

/-!
# Request caches over the slab pool

Every `FusionPagedRequestCache` keeps a table of the slabs it was given, and
`CoWPagedRequestCache` shares slabs and copies them before it writes. An
eviction empties the request's entries in the pool and leaves the tables as
they are, and `free_block` of a slab with one owner frees it whoever asks.
-/
namespace FusionMlx.RequestSlabs

open BlockHashing (PyError)
open OrderedDict PagedKVPool SlabOwnership Runs

structure RequestCache (ρ : Type) where
  requestId : ρ
  blockTable : List Nat := []
  offset : Nat := 0

/-- The pool and the caches over it; `cowEnabled` is the pool's `_cow_enabled`. -/
structure System (ρ : Type) where
  pool : KVPool ρ
  blockSize : Nat
  cowEnabled : Bool
  caches : Nat → RequestCache ρ

variable {ρ : Type} [DecidableEq ρ]

def grow (o : SetOrder ρ) (r : ρ) : Nat → KVPool ρ → List Nat →
    Except PyError Unit × KVPool ρ × List Nat
  | 0, s, table => (.ok (), s, table)
  | n + 1, s, table =>
    match s.allocBlock o r none with
    | (.error e, s) => (.error e, s, table)
    | (.ok pb, s) => grow o r n s (table ++ [pb])

def freeEach (o : SetOrder ρ) (r : ρ) (s : KVPool ρ) (pbs : List Nat) : KVPool ρ :=
  pbs.foldl (fun s pb => s.freeBlock o pb (some r)) s

def rollback (o : SetOrder ρ) (r : ρ) (allocated : List Nat) : List Nat → KVPool ρ →
    KVPool ρ × List Nat
  | [], s => (s, [])
  | pb :: rest, s =>
    if pb ∈ allocated then rollback o r allocated rest (s.freeBlock o pb (some r))
    else (s, (pb :: rest).reverse)

def adopt (r : ρ) : List Nat → KVPool ρ → List Nat → Except PyError Unit × KVPool ρ × List Nat
  | [], s, table => (.ok (), s, table)
  | phys :: rest, s, table =>
    match s.shareBlock r phys with
    | (.error e, s) => (.error e, s, table)
    | (.ok (), s) => adopt r rest s (table ++ [phys])

/-- `ensure_writable` of the table's places in turn, each answer filed in the table. -/
def copyShared (o : SetOrder ρ) (r : ρ) : List Nat → KVPool ρ → List Nat →
    Except PyError Unit × KVPool ρ × List Nat
  | [], s, table => (.ok (), s, table)
  | lb :: rest, s, table =>
    match s.ensureWritable o r (table.getD lb 0) with
    | (.error e, s) => (.error e, s, table)
    | (.ok pb, s) => copyShared o r rest s (table.set lb pb)

def tableLength (blockSize start stop : Nat) : Nat :=
  let last := if stop = 0 then 0 else (stop - 1) / blockSize + 1
  if start / blockSize < last then last else 0

namespace System

def setCache (y : System ρ) (i : Nat) (c : RequestCache ρ) : System ρ :=
  { y with caches := Function.update y.caches i c }

/-- `update_and_fetch` of `numSteps` positions; `fails` when a write to a slab raises. -/
def updateAndFetch (o : SetOrder ρ) (y : System ρ) (i numSteps : Nat) (fails : Bool) : System ρ :=
  let c := y.caches i
  let stop := c.offset + numSteps
  if y.cowEnabled then
    let need := tableLength y.blockSize c.offset stop
    match grow o c.requestId (need - c.blockTable.length) y.pool c.blockTable with
    | (.ok (), s, table) =>
      if fails then
        let back := rollback o c.requestId (table.drop c.blockTable.length) table.reverse s
        { y with pool := back.1 }.setCache i { c with blockTable := back.2 }
      else { y with pool := s }.setCache i { c with blockTable := table, offset := stop }
    | (.error _, s, table) =>
      let back := rollback o c.requestId (table.drop c.blockTable.length) table.reverse s
      { y with pool := back.1 }.setCache i { c with blockTable := back.2 }
  else y.setCache i { c with offset := stop }

def adoptDonated (y : System ρ) (i : Nat) (physBlocks : List Nat) : System ρ :=
  let c := y.caches i
  if physBlocks = [] then y
  else match adopt c.requestId physBlocks y.pool c.blockTable with
    | (.ok (), s, table) => { y with pool := s }.setCache i
        { c with blockTable := table, offset := table.length * y.blockSize }
    | (.error _, s, table) => { y with pool := s }.setCache i { c with blockTable := table }

/-- `CoWPagedRequestCache.update_and_fetch`; with `fails` the write to that one of the written
slabs raises. -/
def cowUpdateAndFetch (o : SetOrder ρ) (y : System ρ) (i numSteps : Nat) (fails : Option Nat) :
    System ρ :=
  let c := y.caches i
  let stop := c.offset + numSteps
  let need := tableLength y.blockSize c.offset stop
  match grow o c.requestId (need - c.blockTable.length) y.pool c.blockTable with
  | (.error _, s, table) =>
    let back := rollback o c.requestId (table.drop c.blockTable.length) table.reverse s
    { y with pool := back.1 }.setCache i { c with blockTable := back.2 }
  | (.ok (), s, grown) =>
    let places := if numSteps = 0 then [] else (List.range need).drop (c.offset / y.blockSize)
    match copyShared o c.requestId (places.take ((fails.map (· + 1)).getD places.length)) s grown,
        fails with
    | (.ok (), s, table), none =>
      { y with pool := s }.setCache i { c with blockTable := table, offset := stop }
    | (_, s, table), _ =>
      let back := rollback o c.requestId (grown.drop c.blockTable.length) table.reverse s
      { y with pool := back.1 }.setCache i { c with blockTable := back.2 }

def trim (o : SetOrder ρ) (y : System ρ) (i n : Nat) : System ρ :=
  let c := y.caches i
  let offset := c.offset - min c.offset n
  let keep := (offset + y.blockSize - 1) / y.blockSize
  { y with pool := freeEach o c.requestId y.pool (c.blockTable.drop keep).reverse }.setCache i
    { c with blockTable := c.blockTable.take keep, offset := offset }

def setState (o : SetOrder ρ) (y : System ρ) (i length : Nat) : System ρ :=
  let c := y.caches i
  let s := freeEach o c.requestId y.pool c.blockTable
  match grow o c.requestId ((length + y.blockSize - 1) / y.blockSize) s [] with
  | (.ok (), s, table) =>
    { y with pool := s }.setCache i { c with blockTable := table, offset := length }
  | (.error _, s, table) =>
    { y with pool := s }.setCache i { c with blockTable := table, offset := 0 }

def clear (o : SetOrder ρ) (y : System ρ) (i : Nat) : System ρ :=
  let c := y.caches i
  { y with pool := freeEach o c.requestId y.pool c.blockTable }.setCache i
    { c with blockTable := [], offset := 0 }

def freeAll (o : SetOrder ρ) (y : System ρ) (i : Nat) : System ρ := y.clear o i

def deepcopy (y : System ρ) (i j : Nat) : System ρ := y.setCache j (y.caches i)

end System

inductive SysOp (ρ : Type) where
  | create (i : Nat) (r : ρ)
  | updateAndFetch (i numSteps : Nat) (fails : Bool)
  | adoptDonated (i : Nat) (physBlocks : List Nat)
  | cowUpdateAndFetch (i numSteps : Nat) (fails : Option Nat)
  | trim (i n : Nat)
  | setState (i length : Nat)
  | clear (i : Nat)
  | freeAll (i : Nat)
  | deepcopy (i j : Nat)
  | pool (op : Op ρ)

def exec (y : System ρ) (c : SetOrder ρ × SysOp ρ) : System ρ :=
  match c.2 with
  | .create i r => y.setCache i { requestId := r }
  | .updateAndFetch i n fails => y.updateAndFetch c.1 i n fails
  | .adoptDonated i physBlocks => y.adoptDonated i physBlocks
  | .cowUpdateAndFetch i n fails => y.cowUpdateAndFetch c.1 i n fails
  | .trim i n => y.trim c.1 i n
  | .setState i n => y.setState c.1 i n
  | .clear i => y.clear c.1 i
  | .freeAll i => y.freeAll c.1 i
  | .deepcopy i j => y.deepcopy i j
  | .pool op => { y with pool := PagedKVPool.exec y.pool (c.1, op) }

/-- A fresh pool and caches with empty tables. -/
def Start (y : System ρ) : Prop :=
  (∃ n, KVPool.init n = .ok y.pool) ∧ 1 ≤ y.blockSize ∧ ∀ i, (y.caches i).blockTable = []

abbrev Reachable : System ρ → Prop := Reached Start (fun _ _ => True) exec

variable {o : SetOrder ρ} {s s' t : KVPool ρ} {r tag : ρ} {os : List ρ} {pb : Nat}

/-- Nothing the pool records about the slab changed. -/
structure Untouched (s s' : KVPool ρ) (pb : Nat) : Prop where
  inUse : s'.inUse.get? pb = s.inUse.get? pb
  owners : s'.owners.get? pb = s.owners.get? pb
  refcount : s'.refcount.get? pb = s.refcount.get? pb
  free : pb ∈ s'.freeList ↔ pb ∈ s.freeList

omit [DecidableEq ρ] in
theorem Untouched.refl (s : KVPool ρ) (pb : Nat) : Untouched s s pb := ⟨rfl, rfl, rfl, .rfl⟩

omit [DecidableEq ρ] in
theorem Untouched.trans (h : Untouched s s' pb) (h' : Untouched s' t pb) : Untouched s t pb :=
  ⟨h'.inUse.trans h.inUse, h'.owners.trans h.owners, h'.refcount.trans h.refcount,
    h'.free.trans h.free⟩

omit [DecidableEq ρ] in
theorem erase_pushFree_untouched {q : Nat} (hne : pb ≠ q) :
    Untouched s ((s.erase q).pushFree q) pb :=
  ⟨Dict.get?_erase_ne _ hne, Dict.get?_erase_ne _ hne, Dict.get?_erase_ne _ hne,
    by simp [KVPool.pushFree, KVPool.erase, hne]⟩

/-- Freeing a slab of the request's touches no other slab. -/
theorem freePrimary_untouched {q : Nat} (hne : pb ≠ q) :
    Untouched s (KVPool.freePrimary o r s q) pb := by
  unfold KVPool.freePrimary
  dsimp only
  split
  · exact erase_pushFree_untouched hne
  · exact ⟨(Dict.get?_set_ne _ _ hne).trans (Dict.get?_erase_ne _ hne),
      (Dict.get?_set_ne _ _ hne).trans (Dict.get?_erase_ne _ hne),
      (Dict.get?_set_ne _ _ hne).trans (Dict.get?_erase_ne _ hne), .rfl⟩

/-- The slab passes to another owner, or to nobody. -/
theorem freePrimary_retags : (KVPool.freePrimary o r s pb).inUse.get? pb ≠ some r ∧
    r ∉ ((KVPool.freePrimary o r s pb).owners.get? pb).getD [] := by
  unfold KVPool.freePrimary
  dsimp only
  split
  · exact ⟨by simp [KVPool.pushFree, KVPool.erase], by simp [KVPool.pushFree, KVPool.erase]⟩
  · next remaining rest ho =>
    have hmem := (o.mem_owners pb _ remaining).mp (ho ▸ List.mem_cons_self)
    have hne : remaining ≠ r := by simpa using (List.mem_filter.mp hmem).2
    exact ⟨by simpa [KVPool.record, KVPool.erase] using hne, by simp [KVPool.record, KVPool.erase]⟩

theorem freePrimaries_untouched {freed : List Nat} (hpb : pb ∉ freed) :
    Untouched s (freed.foldl (KVPool.freePrimary o r) s) pb := by
  induction freed generalizing s with
  | nil => exact .refl s pb
  | cons q freed ih =>
    rw [List.mem_cons, not_or] at hpb
    exact (freePrimary_untouched hpb.1).trans (ih hpb.2)

theorem freePrimaries_retag {freed : List Nat} (hpb : pb ∈ freed) :
    (freed.foldl (KVPool.freePrimary o r) s).inUse.get? pb ≠ some r ∧
      r ∉ ((freed.foldl (KVPool.freePrimary o r) s).owners.get? pb).getD [] := by
  induction freed generalizing s with
  | nil => cases hpb
  | cons q freed ih =>
    by_cases hmem : pb ∈ freed
    · exact ih hmem
    · obtain rfl : pb = q := (List.mem_cons.mp hpb).resolve_right hmem
      have hrest := freePrimaries_untouched (o := o) (r := r)
        (s := KVPool.freePrimary o r s pb) hmem
      rw [List.foldl_cons, hrest.inUse, hrest.owners]
      exact freePrimary_retags

/-- The second loop passes over the slabs that the request does not own. -/
theorem freeShares_untouched (freed ids : List Nat) (hr : r ∉ (s.owners.get? pb).getD []) :
    Untouched s (ids.foldl (KVPool.freeShare r freed) s) pb := by
  induction ids generalizing s with
  | nil => exact .refl s pb
  | cons q ids ih =>
    have hone : Untouched s (KVPool.freeShare r freed s q) pb := by
      unfold KVPool.freeShare
      dsimp only
      split
      · next hq =>
        have hne : pb ≠ q := fun he => hr (he ▸ hq.1)
        split
        · exact erase_pushFree_untouched hne
        · exact ⟨rfl, Dict.get?_set_ne _ _ hne, Dict.get?_set_ne _ _ hne, .rfl⟩
      · exact .refl s pb
    exact hone.trans (ih (by rwa [hone.owners]))

omit [DecidableEq ρ] in
theorem getD_owners (hno : ¬ OwnedBy s pb r) : r ∉ (s.owners.get? pb).getD [] := by
  cases how : s.owners.get? pb with
  | none => simp
  | some os => exact fun hr => hno ⟨os, how, hr⟩

/-- Freeing a request leaves a slab of others alone unless it carries the request's tag. -/
theorem freeRequest_untouched_iff (hno : ¬ OwnedBy s pb r) :
    Untouched s (s.freeRequest o r).2 pb ↔ s.inUse.get? pb ≠ some r := by
  have hlast : Untouched s (s.freeRequest o r).2 pb ↔ Untouched s
      (((s.primaryOf r).foldl (KVPool.freePrimary o r) s).owners.keys.foldl
        (KVPool.freeShare r (s.primaryOf r)) ((s.primaryOf r).foldl (KVPool.freePrimary o r) s)) pb := by
    simp only [KVPool.freeRequest]
    split
    · rfl
    · exact ⟨fun h => ⟨h.inUse, h.owners, h.refcount, h.free⟩,
        fun h => ⟨h.inUse, h.owners, h.refcount, h.free⟩⟩
  rw [hlast]
  constructor
  · intro hu htag
    obtain ⟨htag', hout⟩ := freePrimaries_retag (o := o) (s := s) (mem_primaryOf.mpr htag)
    rw [← hu.inUse, (freeShares_untouched _ _ hout).inUse] at htag
    exact htag' htag
  · intro htag
    have hfirst := freePrimaries_untouched (o := o) (r := r) (s := s) (mt mem_primaryOf.mp htag)
    refine hfirst.trans (freeShares_untouched _ _ ?_)
    rw [hfirst.owners]
    exact getD_owners hno

/-- The slab has no count; or it has several owners, its count is their number, and the request
is not its tag. -/
def Spares (s : KVPool ρ) (pb : Nat) (r : ρ) : Prop :=
  (s.refcount.get? pb).getD 0 ≤ 0 ∨
    (1 < ((s.owners.get? pb).getD []).length ∧
      s.refcount.get? pb = some (((s.owners.get? pb).getD []).length : Int) ∧
      s.inUse.get? pb ≠ some r)

theorem freeBlock_untouched_iff (hno : ¬ OwnedBy s pb r) :
    Untouched s (s.freeBlock o pb (some r)) pb ↔ Spares s pb r := by
  by_cases hrc : (s.refcount.get? pb).getD 0 ≤ 0
  · have hsame : s.freeBlock o pb (some r) = s := by simp [KVPool.freeBlock, hrc]
    rw [hsame]
    exact ⟨fun _ => Or.inl hrc, fun _ => .refl s pb⟩
  obtain ⟨rc, hget⟩ : ∃ rc, s.refcount.get? pb = some rc := by
    cases hget : s.refcount.get? pb with
    | none => simp [hget] at hrc
    | some rc => exact ⟨rc, rfl⟩
  rw [Spares, or_iff_right hrc, hget]
  rw [hget, Option.getD_some] at hrc
  by_cases hlen : 1 < ((s.owners.get? pb).getD []).length
  · obtain ⟨os, how⟩ : ∃ os, s.owners.get? pb = some os := by
      cases how : s.owners.get? pb with
      | none => simp [how] at hlen
      | some os => exact ⟨os, rfl⟩
    have hout : r ∉ os := fun hr => hno ⟨os, how, hr⟩
    rw [how, Option.getD_some] at hlen ⊢
    have hcount : (s.freeBlock o pb (some r)).refcount.get? pb = some (max (rc - 1) os.length) := by
      simp only [KVPool.freeBlock, hget, how, Option.getD_some, if_neg hrc, gt_iff_lt, if_pos hlen,
        filter_ne_eq_self hout, Dict.get?_set_self]
    have howners : (s.freeBlock o pb (some r)).owners.get? pb = some os := by
      simp only [KVPool.freeBlock, hget, how, Option.getD_some, if_neg hrc, gt_iff_lt, if_pos hlen,
        filter_ne_eq_self hout, Dict.get?_set_self]
    constructor
    · intro hu
      have hsame := hu.refcount
      rw [hcount, hget, Option.some.injEq] at hsame
      refine ⟨hlen, congrArg some (by omega), fun htag => ?_⟩
      have htag' := hu.inUse.trans htag
      -- the tag passes to one of the owners
      cases ho : o.owners pb os with
      | nil =>
        obtain ⟨x, hx⟩ := List.exists_mem_of_length_pos (show 0 < os.length by omega)
        have := (o.mem_owners pb os x).mpr hx
        rw [ho] at this
        cases this
      | cons q rest =>
        simp only [KVPool.freeBlock, hget, how, Option.getD_some, if_neg hrc, gt_iff_lt, if_pos hlen,
          filter_ne_eq_self hout, if_pos htag, ho, Dict.get?_set_self, Option.some.injEq] at htag'
        exact hout (htag' ▸ (o.mem_owners pb os q).mp (ho ▸ List.mem_cons_self))
    · rintro ⟨-, hrc', htag⟩
      rw [Option.some.injEq] at hrc'
      refine ⟨?_, howners.trans how.symm, ?_, ?_⟩
      · simp [KVPool.freeBlock, hget, how, if_neg hrc, if_pos hlen, if_neg htag]
      · rw [hcount, hget, Option.some.injEq]
        omega
      · simp [KVPool.freeBlock, hget, how, if_neg hrc, if_pos hlen]
  · have hstep : s.freeBlock o pb (some r) = (s.erase pb).pushFree pb := by
      simp only [KVPool.freeBlock, hget, Option.getD_some, if_neg hrc, gt_iff_lt, if_neg hlen]
    rw [hstep]
    refine ⟨fun hu => ?_, fun hs => absurd hs.1 hlen⟩
    have hcount := hu.refcount
    simp [KVPool.pushFree, KVPool.erase, hget] at hcount

/-- In every state of the pool, freeing a request leaves a slab that it does not own alone exactly
when the slab does not carry its tag, and freeing the slab for it exactly when the slab has no
count or several owners, rightly counted, and another tag. -/
theorem gives_back_own (o : SetOrder ρ) (s : KVPool ρ) (pb : Nat) (r : ρ)
    (hno : ¬ OwnedBy s pb r) :
    (Untouched s (s.freeRequest o r).2 pb ↔ s.inUse.get? pb ≠ some r) ∧
      (Untouched s (s.freeBlock o pb (some r)) pb ↔ Spares s pb r) :=
  ⟨freeRequest_untouched_iff hno, freeBlock_untouched_iff hno⟩

def oneSlab (ops : List (SysOp String)) : System String :=
  runList exec
    { pool := ⟨1, [0], Dict.empty, Dict.empty, Dict.empty, 0, Dict.empty, none⟩
      blockSize := 1
      cowEnabled := true
      caches := fun i => { requestId := if i = 0 then "a" else "b" } }
    (ops.map (fun op => (SetOrder.asFilled String, op)))

theorem oneSlab_reachable (ops : List (SysOp String)) : Reachable (oneSlab ops) := by
  have hstart : Reachable (oneSlab []) := .start ⟨⟨1, rfl⟩, by decide, fun i => rfl⟩
  refine Reached.runList hstart ?_
  generalize oneSlab [] = y
  induction ops generalizing y with
  | nil => trivial
  | cons op ops ih => exact ⟨trivial, ih _⟩

/-- A slab of "a" is shared with "b", and "c" asks for both kinds of freeing. -/
theorem gives_back_own_shared :
    let s := (oneSlab [.updateAndFetch 0 1 false, .adoptDonated 1 [0]]).pool
    s.owners.get? 0 = some ["a", "b"] ∧
      Untouched s (s.freeRequest (SetOrder.asFilled String) "c").2 0 ∧
      Untouched s (s.freeBlock (SetOrder.asFilled String) 0 (some "c")) 0 := by
  intro s
  have how : s.owners.get? 0 = some ["a", "b"] := by decide +kernel
  have hin : s.inUse.get? 0 = some "a" := by decide +kernel
  have hrc : s.refcount.get? 0 = some 2 := by decide +kernel
  have hno : ¬ OwnedBy s 0 "c" := by
    rintro ⟨os, hos, hm⟩
    cases how.symm.trans hos
    simp at hm
  obtain ⟨hreq, hblock⟩ := gives_back_own (SetOrder.asFilled String) s 0 "c" hno
  exact ⟨how, hreq.mpr (by simp [hin]), hblock.mpr (Or.inr (by simp [how, hin, hrc]))⟩

/-- A request whose slab was evicted and handed on trims, and frees the slab of
its new owner. -/
theorem stale_trim_frees :
    Reachable (oneSlab [.updateAndFetch 0 1 false, .updateAndFetch 1 1 false]) ∧
    (oneSlab [.updateAndFetch 0 1 false, .updateAndFetch 1 1 false]).pool.owners.get? 0 =
      some ["b"] ∧
    ((oneSlab [.updateAndFetch 0 1 false, .updateAndFetch 1 1 false, .trim 0 1]).caches
      1).blockTable = [0] ∧
    (oneSlab [.updateAndFetch 0 1 false, .updateAndFetch 1 1 false, .trim 0 1]).pool.owners.get? 0 =
      none ∧
    (oneSlab [.updateAndFetch 0 1 false, .updateAndFetch 1 1 false, .trim 0 1]).pool.freeList =
      [0] := by
  refine ⟨oneSlab_reachable _, ?_, ?_, ?_, ?_⟩ <;> decide +kernel

end FusionMlx.RequestSlabs
