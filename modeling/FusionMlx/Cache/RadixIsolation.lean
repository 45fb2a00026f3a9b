import FusionMlx.Cache.RadixLookup

/-!
# Salts and the radix cache

The trie knows tokens only. A run is logged: which stores indexed which ids
and which lookups were served which ids. As long as no lookup meets an indexed
store with the same leading blocks and another salt for them, every served
block was indexed under the salts of the lookup.
-/
namespace FusionMlx.RadixIsolation

open BlockHashing BlockPool RadixTrie RadixPaths RadixLookup Runs
open PrefixCache hiding Call step
open RadixTrie.RadixPrefixCache

variable {κ : Type} {P : Params κ}

deriving instance DecidableEq for KeyArgs

structure Entry (κ : Type) where
  tokens : List Int
  args : KeyArgs κ
  blockIds : List Nat
  deriving DecidableEq

structure Log (κ : Type) where
  indexed : List (Entry κ) := []
  served : List (Entry κ) := []

def logged (P : Params κ) (c : RadixPrefixCache) (log : Log κ) : Call κ → Log κ
  | .storeCache tier r tokens args =>
    match (c.storeCache P tier r tokens args).1 with
    | .ok (some t) =>
      if Indexes P tokens t then { log with indexed := log.indexed ++ [⟨tokens, args, t.blockIds⟩] }
      else log
    | _ => log
  | .fetchCache r tokens args =>
    match (c.fetchCache P r tokens args).1 with
    | .ok (some t, _) => { log with served := log.served ++ [⟨tokens, args, t.blockIds⟩] }
    | _ => log
  | _ => log

def next (P : Params κ) (s : RadixPrefixCache × Log κ) (call : Call κ) : RadixPrefixCache × Log κ :=
  (step P s.1 call, logged P s.1 s.2 call)

def saltOf (P : Params κ) (args : KeyArgs κ) (i : Nat) : Except PyError (Option (List κ)) :=
  resolveBlockExtraKeys ((i + 1) * P.blockSize) args

/-- Both token lists have a full block `i`, and the blocks up to it are the same. -/
def SameBlocks (P : Params κ) (t u : List Int) (i : Nat) : Prop :=
  i < (blockSlices P.blockSize t).length ∧ i < (blockSlices P.blockSize u).length ∧
    (blockSlices P.blockSize t).take (i + 1) = (blockSlices P.blockSize u).take (i + 1)

/-- Every store that indexed the leading blocks of `tokens` resolved the same salts for them. -/
def SaltsAgree (P : Params κ) (log : Log κ) (tokens : List Int) (args : KeyArgs κ) : Prop :=
  ∀ e ∈ log.indexed, ∀ i, SameBlocks P e.tokens tokens i → saltOf P e.args i = saltOf P args i

/-- What a lookup must meet. -/
def Agrees (P : Params κ) (s : RadixPrefixCache × Log κ) : Call κ → Prop
  | .fetchCache _ tokens args => SaltsAgree P s.2 tokens args
  | _ => True

/-- The states and logs reached from a new cache by calls that meet `C`. -/
abbrev LoggedRun (P : Params κ) (C : RadixPrefixCache × Log κ → Call κ → Prop) :
    RadixPrefixCache × Log κ → Prop :=
  Reached (fun s => ∃ m, s = (init m, {})) C (next P)

/-- The served block `i` of `f` was indexed by `e`, for the same leading blocks under the same salts. -/
structure Backed (P : Params κ) (e f : Entry κ) (i : Nat) : Prop where
  same : SameBlocks P e.tokens f.tokens i
  salts : ∀ j ≤ i, saltOf P e.args j = saltOf P f.args j
  blockId : e.blockIds[i]? = f.blockIds[i]?

/-- Every served block was indexed for the request's own blocks and salts, and requests with equal
tokens share a block only if their salts agree up to it. -/
structure Isolated (P : Params κ) (log : Log κ) : Prop where
  backed : ∀ f ∈ log.served, ∀ i b, f.blockIds[i]? = some b → ∃ e ∈ log.indexed, Backed P e f i
  apart : ∀ f ∈ log.served, ∀ g ∈ log.served, f.tokens = g.tokens → ∀ i j b,
    f.blockIds[i]? = some b → g.blockIds[j]? = some b →
    ∀ l, l ≤ i → l ≤ j → saltOf P f.args l = saltOf P g.args l

/-- The id `b` was indexed for the path `p`. -/
def IndexedFor (P : Params κ) (log : Log κ) (p : List (List Int)) (b : Nat) : Prop :=
  ∃ e ∈ log.indexed, ∃ i, i < (blockSlices P.blockSize e.tokens).length ∧
    p = (blockSlices P.blockSize e.tokens).take (i + 1) ∧ e.blockIds[i]? = some b

def Tracked (P : Params κ) (s : RadixPrefixCache × Log κ) : Prop :=
  Wf s.1.trie ∧ Labelled s.1.trie (IndexedFor P s.2)

theorem trims_onKv_fold (ids : List Nat) (c : RadixPrefixCache) :
    Trims c.trie (ids.foldl (fun c b =>
      (c.onKv (fun k => k.onPaged (fun m => m.incrementRef P b))).2) c).trie := by
  induction ids generalizing c with
  | nil => exact .refl _
  | cons b ids ih => exact (onKv_trims _ c).trans (ih _)

/-- Only a store that returns a table adds to the trie. -/
theorem step_trims (c : RadixPrefixCache) (call : Call κ) (hcall : call ≠ .clear) :
    Trims c.trie (step P c call).trie ∨ ∃ tier r tokens args t,
      call = .storeCache tier r tokens args ∧
        (c.storeCache P tier r tokens args).1 = .ok (some t) := by
  cases call with
  | storeCache tier r tokens args =>
    by_cases hno : ∃ t, (c.storeCache P tier r tokens args).1 = .ok (some t)
    · obtain ⟨t, ht⟩ := hno
      exact Or.inr ⟨tier, r, tokens, args, t, rfl, ht⟩
    · exact Or.inl (storeCache_none c tier r tokens args (fun t ht => hno ⟨t, ht⟩))
  | fetchCache r tokens args =>
    left
    simp only [step, fetchCache]
    split
    · exact .refl _
    · split
      · exact .refl _
      · split
        · exact .refl _
        · have hcreate := onKv_trims (fun k => ((), k.createBlockTable r)) c
          generalize (c.onKv (fun k => ((), k.createBlockTable r))).2 = c' at hcreate ⊢
          have hclaims := hcreate.trans (trims_onKv_fold (P := P)
            (c.trie.walk (usable c.pool) (blockSlices P.blockSize tokens) 0) c')
          generalize List.foldl _ c' _ = c'' at hclaims ⊢
          dsimp only
          rw [addRequest_trie]
          exact hclaims.trans (onKv_trims _ c'')
  | blockFreed b => exact Or.inl (trims_onBlockFreed _ b)
  | releaseCache r =>
    left
    simp only [step, releaseCache, dropRequest_trie]
    exact onKv_trims _ c
  | clearRequestEntry r =>
    left
    simp only [step, clearRequestEntry, dropRequest_trie]
    exact (onKv_trims _ c).trans (onKv_trims _ _)
  | forkCache source new =>
    left
    have htrims := onKv_trims (fun k => k.forkCache P source new) c
    simp only [step, forkCache]
    generalize c.onKv (fun k => k.forkCache P source new) = k at htrims ⊢
    obtain ⟨_ | t, c'⟩ := k
    · exact htrims
    · exact htrims
  | clear => exact absurd rfl hcall
  | rebuildFromKeys => exact Or.inl (trims_foldl _ (trims_dropStale _) _ _)
  | paged op => exact Or.inl (onKv_trims _ c)

theorem logged_indexed_mono (c : RadixPrefixCache) (log : Log κ) (call : Call κ) (e : Entry κ)
    (he : e ∈ log.indexed) : e ∈ (logged P c log call).indexed := by
  cases call with
  | storeCache tier r tokens args =>
    simp only [logged]
    split
    · split
      · exact List.mem_append_left _ he
      · exact he
    · exact he
  | fetchCache r tokens args =>
    simp only [logged]
    split <;> exact he
  | _ => exact he

variable {c : RadixPrefixCache}

theorem indexedFor_mono {log : Log κ} {call : Call κ}
    (p : List (List Int)) (b : Nat) (h : IndexedFor P log p b) :
    IndexedFor P (logged P c log call) p b := by
  obtain ⟨e, he, hrest⟩ := h
  exact ⟨e, logged_indexed_mono c log call e he, hrest⟩

theorem tracked_step (s : RadixPrefixCache × Log κ) (call : Call κ) (h : Tracked P s) :
    Tracked P (next P s call) := by
  obtain ⟨c, log⟩ := s
  obtain ⟨hw, hl⟩ := h
  by_cases hclear : call = .clear
  · subst hclear
    have htrims := onKv_trims (fun k => ((), k.clear P))
      { c with trie := Trie.empty, requestTables := [] }
    exact ⟨htrims.wf wf_empty, Labelled.trims (fun p n b _ hb => by cases hb) htrims⟩
  · rcases step_trims c call hclear with htrims | ⟨tier, r, tokens, args, t, rfl, hok⟩
    · exact ⟨htrims.wf hw, (hl.mono indexedFor_mono).trims htrims⟩
    · have htrims := onKv_trims (fun k => k.storeCache P tier r tokens args) c
      have htrie := storeCache_trie c tier r tokens args t hok
      have hw' := htrims.wf hw
      have hl' : Labelled _ (IndexedFor P (logged P c log (.storeCache tier r tokens args))) :=
        (hl.mono indexedFor_mono).trims htrims
      simp only [Tracked, next, step, htrie]
      split
      · next hix =>
        have hlen := ((covers_iff hix.1 tokens t).mp hix.2).2
        obtain ⟨hw'', -, hlab, -⟩ := index_spec (blockSlices P.blockSize tokens) t.blockIds hlen hw'
        refine ⟨hw'', hlab _ hl' (fun i b hi => ?_)⟩
        have hlt := (List.getElem?_eq_some_iff.mp hi).1
        refine ⟨⟨tokens, args, t.blockIds⟩, ?_, i, hlen ▸ hlt, rfl, hi⟩
        simp only [logged, hok, if_pos hix, List.mem_append, List.mem_singleton, or_true]
      · exact ⟨hw', hl'⟩

/-- What a lookup that meets the condition is served is backed by a store. -/
theorem served_backed {log : Log κ} (h : Tracked P (c, log)) {r : String}
    {tokens : List Int} {args : KeyArgs κ} (hagree : SaltsAgree P log tokens args) {t : BlockTable}
    {rest : List Int} (ht : (c.fetchCache P r tokens args).1 = .ok (some t, rest)) (i b : Nat)
    (hi : t.blockIds[i]? = some b) :
    ∃ e ∈ log.indexed, Backed P e ⟨tokens, args, t.blockIds⟩ i := by
  rw [((fetchCache_found c r tokens args).1 t rest ht).1] at hi ⊢
  obtain ⟨-, hlt, n, hn, hb⟩ := found_spec c tokens i b hi
  obtain ⟨e, he, j, hj, hpath, hid⟩ := h.2 _ n b hn hb
  have hij : i = j := by
    have := congrArg List.length hpath
    rw [List.length_take, List.length_take] at this
    omega
  subst hij
  refine ⟨e, he, ⟨hj, hlt, hpath.symm⟩, fun k hk => hagree e he k ⟨by omega, by omega, ?_⟩,
    hid.trans hi.symm⟩
  have hcut := congrArg (List.take (k + 1)) hpath
  rw [List.take_take, List.take_take, Nat.min_eq_left (by omega)] at hcut
  exact hcut.symm

/-- A lookup is added to the log with the table it returned. -/
theorem served_cases {log : Log κ} {call : Call κ} {f : Entry κ}
    (hf : f ∈ (logged P c log call).served) : f ∈ log.served ∨ ∃ r rest t,
      call = .fetchCache r f.tokens f.args ∧
        (c.fetchCache P r f.tokens f.args).1 = .ok (some t, rest) ∧ f.blockIds = t.blockIds := by
  cases call with
  | storeCache tier r tokens args =>
    simp only [logged] at hf
    split at hf
    · split at hf <;> exact Or.inl hf
    · exact Or.inl hf
  | fetchCache r tokens args =>
    simp only [logged] at hf
    split at hf
    · next t rest ht =>
      rcases List.mem_append.mp hf with hf | hf
      · exact Or.inl hf
      · rw [List.mem_singleton] at hf
        subst hf
        exact Or.inr ⟨r, rest, t, rfl, ht, rfl⟩
    · exact Or.inl hf
  | _ => exact Or.inl hf

/-- In a run every lookup of which meets the condition, each served block is backed by a store, and
the stores logged at the time agreed with the lookup. -/
theorem run_backed {s : RadixPrefixCache × Log κ} (h : LoggedRun P (Agrees P) s) :
    Tracked P s ∧ ∀ f ∈ s.2.served, ∀ i b, f.blockIds[i]? = some b →
      ∃ e ∈ s.2.indexed, Backed P e f i := by
  refine h.invariant (I := fun s => Tracked P s ∧ ∀ f ∈ s.2.served, ∀ i b,
    f.blockIds[i]? = some b → ∃ e ∈ s.2.indexed, Backed P e f i) ?_ ?_
  · rintro s ⟨m, rfl⟩
    refine ⟨⟨wf_empty, fun p n b _ hb => by cases hb⟩, fun f hf => by cases hf⟩
  · rintro ⟨c, log⟩ call - ⟨ht, hback⟩ hok
    refine ⟨tracked_step (c, log) call ht, fun f hf i b hi => ?_⟩
    rcases served_cases hf with hf | ⟨r, rest, t, rfl, hfetch, hids⟩
    · obtain ⟨e, he, hb⟩ := hback f hf i b hi
      exact ⟨e, logged_indexed_mono c log call e he, hb⟩
    · rw [hids] at hi
      obtain ⟨e, he, hb⟩ := served_backed ht hok hfetch i b hi
      refine ⟨e, logged_indexed_mono c log _ e he, ?_⟩
      rw [← hids] at hb
      exact hb

/-- The salts of two lookups of one token list agree at every block both are served. -/
theorem run_salts {s : RadixPrefixCache × Log κ} (h : LoggedRun P (Agrees P) s) :
    ∀ f ∈ s.2.served, ∀ g ∈ s.2.served, f.tokens = g.tokens → ∀ l, l < f.blockIds.length →
      l < g.blockIds.length → saltOf P f.args l = saltOf P g.args l := by
  induction h with
  | start h =>
    obtain ⟨m, rfl⟩ := h
    intro f hf
    cases hf
  | @step s call hrun hok ih =>
    obtain ⟨c, log⟩ := s
    have hback := (run_backed hrun).2
    have ht := (run_backed hrun).1
    -- an old lookup's store is still logged when a new lookup is made
    have hnew : ∀ f ∈ log.served, ∀ r t rest (g : Entry κ), call = .fetchCache r g.tokens g.args →
        (c.fetchCache P r g.tokens g.args).1 = .ok (some t, rest) → f.tokens = g.tokens →
        ∀ l, l < f.blockIds.length → saltOf P f.args l = saltOf P g.args l := by
      rintro f hf r t rest g rfl - htok l hl
      obtain ⟨e, he, hb⟩ := hback f hf l _ (List.getElem?_eq_getElem hl)
      rw [← hb.salts l (Nat.le_refl l)]
      exact hok e he l (htok ▸ hb.same)
    intro f hf g hg htok l hlf hlg
    rcases served_cases hf with hf | ⟨r, rest, t, hcall, hfetch, hids⟩
    · rcases served_cases hg with hg | ⟨r, rest, t, hcall, hfetch, hids⟩
      · exact ih f hf g hg htok l hlf hlg
      · exact hnew f hf r t rest g hcall hfetch htok l hlf
    · rcases served_cases hg with hg | ⟨r', rest', t', hcall', hfetch', hids'⟩
      · exact (hnew g hg r t rest f hcall hfetch htok.symm l hlg).symm
      · rw [hcall] at hcall'
        simp only [RadixTrie.Call.fetchCache.injEq] at hcall'
        rw [hcall'.2.2]

/-- In a run in which no lookup meets an indexed store with the same leading blocks and another
salt for them, every served block was indexed for the blocks and salts of its request. -/
theorem radix_isolated {s : RadixPrefixCache × Log κ} (h : LoggedRun P (Agrees P) s) :
    Isolated P s.2 := by
  refine ⟨(run_backed h).2, fun f hf g hg htok i j b hi hj l hli hlj => ?_⟩
  have hlf := (List.getElem?_eq_some_iff.mp hi).1
  have hlg := (List.getElem?_eq_some_iff.mp hj).1
  exact run_salts h f hf g hg htok l (by omega) (by omega)

def lookedUp (args : KeyArgs Int) : RadixPrefixCache × Log Int :=
  runList (next pairs) (pairsStored [], {})
    [.storeCache {} "a" [1, 2] { extraKeys := some [7] }, .fetchCache "b" [1, 2] args]

theorem lookedUp_run {C : RadixPrefixCache × Log Int → Call Int → Prop} (args : KeyArgs Int)
    (hok : C (pairsStored [], {}) (.storeCache {} "a" [1, 2] { extraKeys := some [7] }) ∧
      C (next pairs (pairsStored [], {}) (.storeCache {} "a" [1, 2] { extraKeys := some [7] }))
        (.fetchCache "b" [1, 2] args)) : LoggedRun pairs C (lookedUp args) :=
  Reached.runList (.start ⟨_, rfl⟩) ⟨hok.1, hok.2, trivial⟩

theorem indexed_salted : (next pairs (pairsStored [], {})
    (.storeCache {} "a" [1, 2] { extraKeys := some [7] })).2.indexed =
      [⟨[1, 2], { extraKeys := some [7] }, [1]⟩] := by decide +kernel

theorem radix_isolated_salted :
    (lookedUp { extraKeys := some [7] }).2.served = [⟨[1, 2], { extraKeys := some [7] }, [1]⟩] ∧
      Isolated pairs (lookedUp { extraKeys := some [7] }).2 := by
  refine ⟨by decide +kernel, radix_isolated (lookedUp_run _ ⟨trivial, ?_⟩)⟩
  intro e he i _
  rw [indexed_salted, List.mem_singleton] at he
  rw [he]

/-- A lookup without a salt is served the block stored under one. -/
theorem salted_block_served_unsalted :
    LoggedRun pairs (fun _ _ => True) (lookedUp {}) ∧
      (lookedUp {}).2.served = [⟨[1, 2], {}, [1]⟩] ∧ ¬ Isolated pairs (lookedUp {}).2 := by
  have hserved : (lookedUp {}).2.served = [⟨[1, 2], {}, [1]⟩] := by decide +kernel
  refine ⟨lookedUp_run _ ⟨trivial, trivial⟩, hserved, fun h => ?_⟩
  obtain ⟨e, he, hb⟩ := h.backed ⟨[1, 2], {}, [1]⟩ (by rw [hserved]; simp) 0 1 rfl
  have hindexed : (lookedUp {}).2.indexed = [⟨[1, 2], { extraKeys := some [7] }, [1]⟩] := by
    decide +kernel
  rw [hindexed, List.mem_singleton] at he
  subst he
  have hsalt := hb.salts 0 (Nat.le_refl 0)
  revert hsalt
  decide

end FusionMlx.RadixIsolation
