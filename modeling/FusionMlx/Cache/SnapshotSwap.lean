import FusionMlx.Cache.MemoryPrefixCache
import FusionMlx.Support.Runs

/-!
# The snapshot on disk

`save_to_disk` as the list of its file-system calls on a directory and its
`.new` and `.old` siblings, and the repair at the head of `load_from_disk`. A
save may stop before, between or amid its calls: amid the removal of a
directory any of the files may be left, amid a write the file is torn. Loads
run to their end. No other process touches the directories, so the checks
that the staged files are still there pass.
-/
namespace FusionMlx.SnapshotSwap

open MemoryPrefixCache (Tokens DiskEntry Snapshot Disk)

variable {κ : Type}

inductive File where
  | index
  | cache (i : Nat)
  | tokens (i : Nat)
  deriving DecidableEq

structure Record where
  index : Nat
  numTokens : Nat
  memoryBytes : Nat
  cacheTypes : List String

inductive Content (κ : Type) where
  | torn
  | index (version : Nat) (records : List Record)
  | cache (layers : List κ)
  | tokens (tokens : Tokens)

abbrev Dir (κ : Type) := File → Option (Content κ)

namespace Dir

def empty : Dir κ := fun _ => none

def keep (kept : File → Bool) (d : Dir κ) : Dir κ := fun f => if kept f then d f else none

def read (d : Dir κ) : Option (List (Record × Option (Content κ) × Option (Content κ))) :=
  match d .index with
  | some (.index _ records) =>
    some (records.map fun r => (r, d (.cache r.index), d (.tokens r.index)))
  | _ => none

end Dir

def hasValidIndex : Option (Dir κ) → Bool
  | none => false
  | some d =>
    match d .index with
    | some (.index version (r :: _)) =>
      version ≥ 2 && (d (.cache r.index)).isSome && (d (.tokens r.index)).isSome
    | _ => false

structure Fs (κ : Type) where
  main : Option (Dir κ)
  new : Option (Dir κ)
  old : Option (Dir κ)

inductive Sibling where
  | new | old

/-- A call of `save_to_disk` that changes the file system. `retire` moves `cache_dir` to `.old` when
there is one, `promote` moves `.new` to `cache_dir`; the target is missing then. -/
inductive Call (κ : Type) where
  | rmtree (d : Sibling)
  | makedirs
  | write (f : File) (x : Content κ)
  | retire
  | promote

namespace Fs

def finish (fs : Fs κ) : Call κ → Fs κ
  | .rmtree .new => { fs with new := none }
  | .rmtree .old => { fs with old := none }
  | .makedirs => { fs with new := some (fs.new.getD .empty) }
  | .write f x => { fs with new := fs.new.map (fun d => Function.update d f (some x)) }
  | .retire => if fs.main.isSome then { fs with main := none, old := fs.main } else fs
  | .promote => if fs.new.isSome then { fs with main := fs.new, new := none } else fs

end Fs

structure Stop where
  after : Nat
  torn : Bool
  kept : File → Bool

namespace Fs

def breakOff (fs : Fs κ) (stop : Stop) : Call κ → Fs κ
  | .rmtree .new => { fs with new := fs.new.map (·.keep stop.kept) }
  | .rmtree .old => { fs with old := fs.old.map (·.keep stop.kept) }
  | .write f _ =>
    if stop.torn then { fs with new := fs.new.map (fun d => Function.update d f (some .torn)) }
    else fs
  | _ => fs

def complete (fs : Fs κ) (calls : List (Call κ)) : Fs κ := calls.foldl finish fs

def interrupt (fs : Fs κ) (stop : Stop) (calls : List (Call κ)) : Fs κ :=
  match calls[stop.after]? with
  | none => fs.complete calls
  | some call => (fs.complete (calls.take stop.after)).breakOff stop call

end Fs

inductive Outcome where
  | saved
  | cacheRaises (torn : Bool)
  | tokensRaise (torn : Bool)
  deriving DecidableEq

structure SavedEntry (κ : Type) where
  tokens : Tokens
  layers : List κ
  memoryBytes : Nat
  cacheTypes : List String
  outcome : Outcome

/-- A call of `save_to_disk`: the entries of the cache, and whether `index.json` can be written. -/
structure Attempt (κ : Type) where
  entries : List (SavedEntry κ)
  indexRaises : Option Bool := none

namespace SavedEntry

def saved (e : SavedEntry κ) : Bool := e.outcome = .saved

def record (e : SavedEntry κ) (i : Nat) : Record :=
  ⟨i, e.tokens.length, e.memoryBytes, e.cacheTypes⟩

def writes (e : SavedEntry κ) (i : Nat) : List (Call κ) :=
  match e.outcome with
  | .saved => [.write (.cache i) (.cache e.layers), .write (.tokens i) (.tokens e.tokens)]
  | .cacheRaises torn => if torn then [.write (.cache i) .torn] else []
  | .tokensRaise torn =>
    .write (.cache i) (.cache e.layers) :: if torn then [.write (.tokens i) .torn] else []

end SavedEntry

def writesFrom : Nat → List (SavedEntry κ) → List (Call κ)
  | _, [] => []
  | i, e :: es => e.writes i ++ writesFrom (i + 1) es

def recordsFrom : Nat → List (SavedEntry κ) → List (Record × SavedEntry κ)
  | _, [] => []
  | i, e :: es => if e.saved then (e.record i, e) :: recordsFrom (i + 1) es else recordsFrom (i + 1) es

namespace Attempt

def writes (a : Attempt κ) : List (Call κ) := writesFrom 0 a.entries

def records (a : Attempt κ) : List Record := (recordsFrom 0 a.entries).map Prod.fst

def content (a : Attempt κ) : List (Record × Option (Content κ) × Option (Content κ)) :=
  (recordsFrom 0 a.entries).map fun p =>
    (p.1, some (.cache p.2.layers), some (.tokens p.2.tokens))

def staging (a : Attempt κ) : List (Call κ) :=
  .rmtree .new :: .rmtree .old :: .makedirs :: a.writes

def swap (a : Attempt κ) : List (Call κ) :=
  [.write .index (.index 2 a.records), .retire, .promote, .rmtree .old]

def giveUp (torn : Bool) : List (Call κ) :=
  if torn then [.write .index .torn, .rmtree .new] else [.rmtree .new]

def commits (a : Attempt κ) : Bool := !a.records.isEmpty && a.indexRaises.isNone

def calls (a : Attempt κ) : List (Call κ) :=
  if a.entries = [] then []
  else if a.records = [] then a.staging ++ giveUp false
  else match a.indexRaises with
    | none => a.staging ++ a.swap
    | some torn => a.staging ++ giveUp torn

end Attempt

namespace Fs

def repair (fs : Fs κ) : Fs κ :=
  match fs.main with
  | some d => ⟨some d, none, none⟩
  | none =>
    if hasValidIndex fs.new then ⟨fs.new, none, none⟩
    else if hasValidIndex fs.old then ⟨fs.old, none, none⟩
    else fs

def load (fs : Fs κ) : Option (List (Record × Option (Content κ) × Option (Content κ))) :=
  fs.repair.main.bind Dir.read

def save (fs : Fs κ) (a : Attempt κ) : Option Stop → Fs κ
  | none => fs.complete a.calls
  | some stop => fs.interrupt stop a.calls

end Fs

inductive Event (κ : Type) where
  | save (a : Attempt κ) (stop : Option Stop)
  | load

structure World (κ : Type) where
  fs : Fs κ
  log : List (Event κ)

def World.init : World κ := ⟨⟨none, none, none⟩, []⟩

def next (w : World κ) (e : Event κ) : World κ where
  fs := match e with
    | .save a stop => w.fs.save a stop
    | .load => w.fs.repair
  log := w.log ++ [e]

def Event.completes : Event κ → Bool
  | .save a none => a.commits
  | _ => false

variable {fs : Fs κ} {a : Attempt κ} {stop : Stop} {k : Nat} {calls calls' : List (Call κ)}

namespace Fs

@[simp] theorem complete_nil (fs : Fs κ) : fs.complete [] = fs := rfl

@[simp] theorem complete_cons (fs : Fs κ) (call : Call κ) (calls : List (Call κ)) :
    fs.complete (call :: calls) = (fs.finish call).complete calls := rfl

theorem complete_append (fs : Fs κ) (calls calls' : List (Call κ)) :
    fs.complete (calls ++ calls') = (fs.complete calls).complete calls' := List.foldl_append

@[simp] theorem interrupt_nil (fs : Fs κ) (stop : Stop) : fs.interrupt stop [] = fs := rfl

theorem interrupt_cons_zero (fs : Fs κ) (h : stop.after = 0) (call : Call κ)
    (calls : List (Call κ)) : fs.interrupt stop (call :: calls) = fs.breakOff stop call := by
  simp [interrupt, h]

theorem interrupt_cons_succ (fs : Fs κ) (h : stop.after = k + 1) (call : Call κ)
    (calls : List (Call κ)) : fs.interrupt stop (call :: calls) =
      (fs.finish call).interrupt { stop with after := k } calls := by
  simp only [interrupt, h, List.getElem?_cons_succ, List.take_succ_cons, complete_cons]
  cases calls[k]? <;> simp [breakOff]

theorem interrupt_append (fs : Fs κ) (stop : Stop) (calls calls' : List (Call κ)) :
    fs.interrupt stop (calls ++ calls') =
      if stop.after < calls.length then fs.interrupt stop calls
      else (fs.complete calls).interrupt { stop with after := stop.after - calls.length } calls' := by
  induction calls generalizing fs stop with
  | nil => simp
  | cons call calls ih =>
    rw [List.cons_append]
    cases hk : stop.after with
    | zero => rw [interrupt_cons_zero fs hk, interrupt_cons_zero fs hk, if_pos (by simp)]
    | succ k =>
      rw [interrupt_cons_succ fs hk, interrupt_cons_succ fs hk, ih]
      simp

end Fs

/-- The staged directory has no index yet, and `.old` is gone. -/
structure Staged (main : Option (Dir κ)) (fs : Fs κ) : Prop where
  main : fs.main = main
  old : fs.old = none
  new : ∃ d, fs.new = some d ∧ d .index = none

variable {main : Option (Dir κ)}

theorem Staged.write (h : Staged main fs) {f : File} (hf : f ≠ .index) (x : Content κ) :
    Staged main { fs with new := fs.new.map (fun d => Function.update d f (some x)) } := by
  obtain ⟨d, hd, hindex⟩ := h.new
  refine ⟨h.main, h.old, Function.update d f (some x), by simp [hd], ?_⟩
  rw [Function.update_of_ne (Ne.symm hf)]
  exact hindex

def Fills (calls : List (Call κ)) : Prop := ∀ c ∈ calls, ∃ f x, c = .write f x ∧ f ≠ .index

theorem Staged.complete (h : Staged main fs) (hc : Fills calls) : Staged main (fs.complete calls) := by
  induction calls generalizing fs with
  | nil => exact h
  | cons call calls ih =>
    obtain ⟨f, x, rfl, hf⟩ := hc call List.mem_cons_self
    exact ih (h.write hf x) (fun c hm => hc c (List.mem_cons_of_mem _ hm))

theorem Staged.interrupt (h : Staged main fs) (hc : Fills calls) (stop : Stop) :
    Staged main (fs.interrupt stop calls) := by
  induction calls generalizing fs stop with
  | nil => exact h
  | cons call calls ih =>
    obtain ⟨f, x, rfl, hf⟩ := hc call List.mem_cons_self
    cases hk : stop.after with
    | zero =>
      rw [Fs.interrupt_cons_zero fs hk, Fs.breakOff]
      split
      · exact h.write hf .torn
      · exact h
    | succ k =>
      rw [Fs.interrupt_cons_succ fs hk]
      exact ih (h.write hf x) (fun c hm => hc c (List.mem_cons_of_mem _ hm)) _

theorem fills_writes (e : SavedEntry κ) (i : Nat) : Fills (e.writes i) := by
  unfold SavedEntry.writes
  split
  · simp [Fills]
  · split <;> simp [Fills]
  · split <;> simp [Fills]

theorem fills_writesFrom (i : Nat) (es : List (SavedEntry κ)) : Fills (writesFrom i es) := by
  induction es generalizing i with
  | nil => simp [Fills, writesFrom]
  | cons e es ih =>
    intro c hc
    rcases List.mem_append.mp hc with hc | hc
    · exact fills_writes e i c hc
    · exact ih (i + 1) c hc

/-- The cleaning leaves an empty staging directory. -/
theorem staged_cleaned (fs : Fs κ) :
    Staged fs.main (fs.complete [.rmtree .new, .rmtree .old, .makedirs]) := by
  refine ⟨rfl, rfl, .empty, rfl, rfl⟩

def writesFile (i : Nat) : Call κ → Bool
  | .write (.cache j) _ => i = j
  | .write (.tokens j) _ => i = j
  | _ => false

theorem complete_other {d : Dir κ} (hd : fs.new = some d) (hc : Fills calls) {i : Nat}
    (hi : ∀ c ∈ calls, writesFile i c = false) :
    ∃ d', (fs.complete calls).new = some d' ∧ d' (.cache i) = d (.cache i) ∧
      d' (.tokens i) = d (.tokens i) := by
  induction calls generalizing fs d with
  | nil => exact ⟨d, hd, rfl, rfl⟩
  | cons call calls ih =>
    obtain ⟨f, x, rfl, hf⟩ := hc call List.mem_cons_self
    have hother := hi _ List.mem_cons_self
    obtain ⟨d', hd', hcache, htokens⟩ := @ih (fs.finish (.write f x))
      (Function.update d f (some x)) (by simp [Fs.finish, hd])
      (fun c hm => hc c (List.mem_cons_of_mem _ hm)) (fun c hm => hi c (List.mem_cons_of_mem _ hm))
    refine ⟨d', hd', hcache.trans ?_, htokens.trans ?_⟩
    · apply Function.update_of_ne
      rintro rfl
      simp [writesFile] at hother
    · apply Function.update_of_ne
      rintro rfl
      simp [writesFile] at hother

theorem writesFile_writes {e : SavedEntry κ} {i j : Nat} (hij : i ≠ j) :
    ∀ c ∈ e.writes j, writesFile i c = false := by
  intro c hc
  unfold SavedEntry.writes at hc
  split at hc
  · simp only [List.mem_cons, List.not_mem_nil, or_false] at hc
    rcases hc with rfl | rfl <;> simp [writesFile, hij]
  · split at hc
    · simp only [List.mem_singleton] at hc
      subst hc
      simp [writesFile, hij]
    · cases hc
  · split at hc
    · simp only [List.mem_cons, List.not_mem_nil, or_false] at hc
      rcases hc with rfl | rfl <;> simp [writesFile, hij]
    · simp only [List.mem_singleton] at hc
      subst hc
      simp [writesFile, hij]

theorem writesFile_writesFrom {es : List (SavedEntry κ)} {i j : Nat} (hij : i < j) :
    ∀ c ∈ writesFrom j es, writesFile i c = false := by
  induction es generalizing j with
  | nil => simp [writesFrom]
  | cons e es ih =>
    intro c hc
    rcases List.mem_append.mp hc with hc | hc
    · exact writesFile_writes (by omega) c hc
    · exact ih (by omega) c hc

/-- After the loop every recorded entry has its cache and its tokens on disk. -/
theorem staged_files {es : List (SavedEntry κ)} {d : Dir κ} {i : Nat} (hd : fs.new = some d) :
    ∃ d', (fs.complete (writesFrom i es)).new = some d' ∧ ∀ p ∈ recordsFrom i es,
      d' (.cache p.1.index) = some (.cache p.2.layers) ∧
        d' (.tokens p.1.index) = some (.tokens p.2.tokens) := by
  induction es generalizing fs d i with
  | nil => exact ⟨d, hd, by simp [recordsFrom]⟩
  | cons e es ih =>
    have hstep : ∃ d₁, (fs.complete (e.writes i)).new = some d₁ ∧ (e.saved = true →
        d₁ (.cache i) = some (.cache e.layers) ∧ d₁ (.tokens i) = some (.tokens e.tokens)) := by
      unfold SavedEntry.writes SavedEntry.saved
      split
      · exact ⟨_, by simp [Fs.finish, hd]; rfl, fun _ => ⟨by simp, by simp⟩⟩
      · next torn h => cases torn <;> exact ⟨_, by simp [Fs.finish, hd]; rfl, by simp [h]⟩
      · next torn h => cases torn <;> exact ⟨_, by simp [Fs.finish, hd]; rfl, by simp [h]⟩
    obtain ⟨d₁, hd₁, hfiles⟩ := hstep
    obtain ⟨d', hd', hrest⟩ := ih (i := i + 1) hd₁
    obtain ⟨d'', hd'', hcache, htokens⟩ := complete_other hd₁ (fills_writesFrom (i + 1) es)
      (writesFile_writesFrom (Nat.lt_succ_self i))
    have hsame : d'' = d' := Option.some.inj (hd''.symm.trans hd')
    subst hsame
    refine ⟨d'', by rw [writesFrom, Fs.complete_append]; exact hd'', ?_⟩
    intro p hp
    rw [recordsFrom] at hp
    split at hp
    · next hsaved =>
      rcases List.mem_cons.mp hp with rfl | hp
      · exact ⟨hcache.trans (hfiles hsaved).1, htokens.trans (hfiles hsaved).2⟩
      · exact hrest p hp
    · exact hrest p hp

/-- The save stopped no sooner than its index was complete. -/
def Attempt.indexDone (a : Attempt κ) (stop : Option Stop) : Prop :=
  a.commits = true ∧ ∀ t, stop = some t → a.staging.length < t.after

/-- The swap got to some point with the snapshot `d`. -/
def Swapped (main : Option (Dir κ)) (d : Dir κ) (stop : Option Stop) (fs' : Fs κ) : Prop :=
  stop.isSome ∧ (fs' = ⟨main, some d, none⟩ ∨ fs' = ⟨none, some d, main⟩) ∨
    ∃ old, fs' = ⟨some d, none, old⟩

/-- A directory in which `load_from_disk` finds no index. -/
def Unindexed (d : Option (Dir κ)) : Prop := ∀ d', d = some d' → d'.read = none

theorem Unindexed.not_valid {d : Option (Dir κ)} (h : Unindexed d) : hasValidIndex d = false := by
  cases d with
  | none => rfl
  | some d =>
    have hread := h d rfl
    simp only [Dir.read] at hread
    simp only [hasValidIndex]
    cases hindex : d .index with
    | none => rfl
    | some x =>
      cases x with
      | index version records => simp [hindex] at hread
      | torn => rfl
      | cache layers => rfl
      | tokens tokens => rfl

theorem Staged.unindexed (h : Staged main fs) : Unindexed fs.new := by
  intro d' hd'
  obtain ⟨d, hd, hindex⟩ := h.new
  rw [hd, Option.some.injEq] at hd'
  subst hd'
  simp [Dir.read, hindex]

def Attempt.indexed (a : Attempt κ) (d : Dir κ) : Dir κ :=
  Function.update d .index (some (.index 2 a.records))

/-- The staging has been run to its end. -/
theorem staged_staging (fs : Fs κ) (a : Attempt κ) : Staged fs.main (fs.complete a.staging) ∧
    ∃ d, (fs.complete a.staging).new = some d ∧ (a.indexed d).read = some a.content ∧
      (a.records ≠ [] → hasValidIndex (some (a.indexed d)) = true) := by
  have hsplit : fs.complete a.staging =
      (fs.complete [.rmtree .new, .rmtree .old, .makedirs]).complete (writesFrom 0 a.entries) := by
    rw [← Fs.complete_append]
    rfl
  have hclean := staged_cleaned fs
  obtain ⟨d₀, hd₀, -⟩ := hclean.new
  obtain ⟨d, hd, hfiles⟩ := @staged_files _ _ a.entries d₀ 0 hd₀
  rw [hsplit]
  refine ⟨hclean.complete (fills_writesFrom 0 a.entries), d, hd, ?_, ?_⟩
  · simp only [Dir.read, Attempt.indexed, Function.update_self, Attempt.records, Attempt.content,
      List.map_map, Option.some.injEq]
    apply List.map_congr_left
    intro q hq
    obtain ⟨hcache, htokens⟩ := hfiles q hq
    simp [hcache, htokens]
  · intro hne
    cases hr : recordsFrom 0 a.entries with
    | nil => exact absurd (by simp [Attempt.records, hr]) hne
    | cons q rest =>
      obtain ⟨hcache, htokens⟩ := hfiles q (by simp [hr])
      simp [hasValidIndex, Attempt.indexed, Attempt.records, hr, hcache, htokens]

theorem Unindexed.keep {d : Option (Dir κ)} (h : Unindexed d) (kept : File → Bool) :
    Unindexed (d.map (·.keep kept)) := by
  intro d' hd'
  obtain ⟨d, hd, rfl⟩ := Option.map_eq_some_iff.mp hd'
  have hread := h d hd
  simp only [Dir.read, Dir.keep] at hread ⊢
  split
  · next hindex =>
    split at hindex
    · simp [hindex] at hread
    · cases hindex
  · rfl

theorem unindexed_torn (d : Option (Dir κ)) :
    Unindexed (d.map (fun d => Function.update d .index (some .torn))) := by
  intro d' hd'
  obtain ⟨d, -, rfl⟩ := Option.map_eq_some_iff.mp hd'
  simp [Dir.read]

structure Unswapped (main : Option (Dir κ)) (fs : Fs κ) : Prop where
  main : fs.main = main
  old : fs.old = none
  new : Unindexed fs.new

theorem Staged.unswapped (h : Staged main fs) : Unswapped main fs := ⟨h.main, h.old, h.unindexed⟩

/-- A save that gives up its staging, to its end or broken off. -/
theorem Unswapped.giveUp (h : Unswapped main fs) (torn : Bool) :
    Unswapped main (fs.complete (Attempt.giveUp torn)) ∧
      ∀ stop, Unswapped main (fs.interrupt stop (Attempt.giveUp torn)) := by
  have hrmtree : ∀ fs : Fs κ, Unswapped main fs → Unswapped main (fs.complete [.rmtree .new]) ∧
      ∀ stop, Unswapped main (fs.interrupt stop [.rmtree .new]) := by
    intro fs h
    refine ⟨⟨h.main, h.old, nofun⟩, fun stop => ?_⟩
    cases hk : stop.after with
    | zero =>
      rw [Fs.interrupt_cons_zero _ hk]
      exact ⟨h.main, h.old, h.new.keep stop.kept⟩
    | succ k =>
      rw [Fs.interrupt_cons_succ _ hk]
      exact ⟨h.main, h.old, nofun⟩
  cases torn with
  | false => exact hrmtree fs h
  | true =>
    have htorn : Unswapped main (fs.finish (.write .index .torn)) :=
      ⟨h.main, h.old, unindexed_torn fs.new⟩
    refine ⟨(hrmtree _ htorn).1, fun stop => ?_⟩
    rw [Attempt.giveUp, if_pos rfl]
    cases hk : stop.after with
    | zero =>
      rw [Fs.interrupt_cons_zero _ hk, Fs.breakOff]
      split
      · exact htorn
      · exact h
    | succ k =>
      rw [Fs.interrupt_cons_succ _ hk]
      exact (hrmtree _ htorn).2 _

/-- A save that stops in the staging. -/
theorem interrupt_staging (fs : Fs κ) (a : Attempt κ) (stop : Stop) :
    (stop.after = 0 ∧
      fs.interrupt stop a.staging = { fs with new := fs.new.map (·.keep stop.kept) }) ∨
    (stop.after = 1 ∧
      fs.interrupt stop a.staging = ⟨fs.main, none, fs.old.map (·.keep stop.kept)⟩) ∨
    (2 ≤ stop.after ∧ Unswapped fs.main (fs.interrupt stop a.staging)) := by
  unfold Attempt.staging
  cases h₀ : stop.after with
  | zero =>
    rw [Fs.interrupt_cons_zero fs h₀]
    exact .inl ⟨rfl, rfl⟩
  | succ k =>
    rw [Fs.interrupt_cons_succ fs h₀]
    cases h₁ : k with
    | zero =>
      rw [Fs.interrupt_cons_zero _ rfl]
      exact .inr (.inl ⟨rfl, rfl⟩)
    | succ k =>
      rw [Fs.interrupt_cons_succ _ rfl]
      apply Or.inr
      apply Or.inr
      refine ⟨by omega, ?_⟩
      cases h₂ : k with
      | zero =>
        rw [Fs.interrupt_cons_zero _ rfl]
        exact ⟨rfl, rfl, nofun⟩
      | succ k =>
        rw [Fs.interrupt_cons_succ _ rfl]
        have hstaged := (staged_cleaned fs).interrupt (fills_writesFrom 0 a.entries)
          { stop with after := k }
        exact hstaged.unswapped

/-- A save that runs through its swap. -/
theorem complete_swap (h : Staged main fs) {d : Dir κ} (hd : fs.new = some d) :
    Swapped main (a.indexed d) none (fs.complete a.swap) := by
  obtain ⟨m, new, old⟩ := fs
  obtain ⟨rfl, rfl, -⟩ := h
  dsimp only at hd
  subst hd
  refine .inr ?_
  cases m <;> exact ⟨_, rfl⟩

/-- A save that stops in the swap: in the write of its index, or after it. -/
theorem interrupt_swap (h : Staged main fs) {d : Dir κ} (hd : fs.new = some d) (stop : Stop) :
    (stop.after = 0 ∧ Unswapped main (fs.interrupt stop a.swap)) ∨
    (0 < stop.after ∧ Swapped main (a.indexed d) (some stop) (fs.interrupt stop a.swap)) := by
  obtain ⟨m, new, old⟩ := fs
  obtain ⟨rfl, rfl, hnew⟩ := h
  dsimp only at hd hnew
  subst hd
  unfold Attempt.swap
  cases h₀ : stop.after with
  | zero =>
    rw [Fs.interrupt_cons_zero _ h₀, Fs.breakOff]
    refine .inl ⟨rfl, ?_⟩
    obtain ⟨d', hd', hindex⟩ := hnew
    cases hd'
    split
    · refine ⟨rfl, rfl, ?_⟩
      rintro d' ⟨⟩
      simp [Dir.read]
    · refine ⟨rfl, rfl, ?_⟩
      rintro d' ⟨⟩
      simp [Dir.read, hindex]
  | succ k =>
    rw [Fs.interrupt_cons_succ _ h₀]
    refine .inr ⟨Nat.succ_pos k, ?_⟩
    cases h₁ : k with
    | zero =>
      rw [Fs.interrupt_cons_zero _ rfl]
      exact .inl ⟨rfl, .inl rfl⟩
    | succ k =>
      rw [Fs.interrupt_cons_succ _ rfl]
      cases h₂ : k with
      | zero =>
        rw [Fs.interrupt_cons_zero _ rfl]
        refine .inl ⟨rfl, .inr ?_⟩
        cases m <;> rfl
      | succ k =>
        rw [Fs.interrupt_cons_succ _ rfl]
        refine .inr ?_
        cases h₃ : k with
        | zero =>
          rw [Fs.interrupt_cons_zero _ rfl]
          cases m <;> exact ⟨_, rfl⟩
        | succ k =>
          rw [Fs.interrupt_cons_succ _ rfl]
          cases m <;> exact ⟨_, rfl⟩

/-- What a save leaves behind: it stops in the cleaning, it changes nothing but the staging, or its
index is complete and the swap has begun. -/
theorem save_cases (ha : a.entries ≠ []) (fs : Fs κ) (stop : Option Stop) :
    (∃ t, stop = some t ∧ t.after = 0 ∧
      fs.save a stop = { fs with new := fs.new.map (·.keep t.kept) }) ∨
    (∃ t, stop = some t ∧ t.after = 1 ∧
      fs.save a stop = ⟨fs.main, none, fs.old.map (·.keep t.kept)⟩) ∨
    (¬ a.indexDone stop ∧ (∀ t, stop = some t → 2 ≤ t.after) ∧
      Unswapped fs.main (fs.save a stop)) ∨
    (a.indexDone stop ∧ ∃ d : Dir κ, d.read = some a.content ∧ hasValidIndex (some d) = true ∧
      Swapped fs.main d stop (fs.save a stop)) := by
  obtain ⟨hstaged, d, hd, hread, hvalid⟩ := staged_staging fs a
  have hlen : 2 < a.staging.length := by simp [Attempt.staging]
  -- the calls after the staging: those of a save that gives up, or the swap
  have hcalls : (∃ torn, a.calls = a.staging ++ Attempt.giveUp torn ∧ a.commits = false) ∨
      (a.calls = a.staging ++ a.swap ∧ a.commits = true ∧ a.records ≠ []) := by
    unfold Attempt.calls Attempt.commits
    rw [if_neg ha]
    by_cases hr : a.records = []
    · exact .inl ⟨false, by simp [hr], by simp [hr]⟩
    · cases hi : a.indexRaises with
      | none => exact .inr ⟨by simp [hr], by simp [hr], hr⟩
      | some torn => exact .inl ⟨torn, by simp [hr], by simp⟩
  cases stop with
  | none =>
    rcases hcalls with ⟨torn, hcalls, hc⟩ | ⟨hcalls, hc, hr⟩
    · refine .inr (.inr (.inl ⟨fun h => ?_, nofun, ?_⟩))
      · exact Bool.false_ne_true (hc.symm.trans h.1)
      · rw [Fs.save, hcalls, Fs.complete_append]
        exact (hstaged.unswapped.giveUp torn).1
    · refine .inr (.inr (.inr ⟨⟨hc, nofun⟩, _, hread, hvalid hr, ?_⟩))
      rw [Fs.save, hcalls, Fs.complete_append]
      exact complete_swap hstaged hd
  | some t =>
    by_cases ht : t.after < a.staging.length
    · have hstop : fs.save a (some t) = fs.interrupt t a.staging := by
        rcases hcalls with ⟨torn, hcalls, -⟩ | ⟨hcalls, -, -⟩
        · rw [Fs.save, hcalls, Fs.interrupt_append, if_pos ht]
        · rw [Fs.save, hcalls, Fs.interrupt_append, if_pos ht]
      rw [hstop]
      rcases interrupt_staging fs a t with ⟨h₀, h⟩ | ⟨h₁, h⟩ | ⟨h₂, h⟩
      · exact .inl ⟨t, rfl, h₀, h⟩
      · exact .inr (.inl ⟨t, rfl, h₁, h⟩)
      · refine .inr (.inr (.inl ⟨fun hdone => ?_, ?_, h⟩))
        · have := hdone.2 t rfl
          omega
        · rintro _ ⟨⟩
          exact h₂
    · rcases hcalls with ⟨torn, hcalls, hc⟩ | ⟨hcalls, hc, hr⟩
      · refine .inr (.inr (.inl ⟨fun h => ?_, ?_, ?_⟩))
        · exact Bool.false_ne_true (hc.symm.trans h.1)
        · rintro _ ⟨⟩
          omega
        · rw [Fs.save, hcalls, Fs.interrupt_append, if_neg ht]
          exact (hstaged.unswapped.giveUp torn).2 _
      · rw [Fs.save, hcalls, Fs.interrupt_append, if_neg ht]
        rcases interrupt_swap (a := a) hstaged hd { t with after := t.after - a.staging.length } with
          ⟨h₀, h⟩ | ⟨h₀, h⟩
        · refine .inr (.inr (.inl ⟨fun hdone => ?_, ?_, h⟩))
          · have := hdone.2 t rfl
            dsimp only at h₀
            omega
          · rintro _ ⟨⟩
            omega
        · refine .inr (.inr (.inr ⟨⟨hc, ?_⟩, _, hread, hvalid hr, ?_⟩))
          · rintro _ ⟨⟩
            dsimp only at h₀
            omega
          · exact h

def Recent (log : List (Event κ))
    (c : List (Record × Option (Content κ) × Option (Content κ))) : Prop :=
  ∃ before a stop after, log = before ++ .save a stop :: after ∧ c = a.content ∧
    ∀ e ∈ after, e.completes = false

def Nothing (log : List (Event κ)) : Prop := ∀ e ∈ log, e.completes = false

/-- A load sees the full content of one attempt at least as recent as the last completed save, and
it sees something once a save has completed. -/
def LoadsWhole (w : World κ) : Prop :=
  (∀ c, w.fs.load = some c → Recent w.log c) ∧ (w.fs.load = none → Nothing w.log)

/-- The directory holds the full content of a recent attempt. -/
def Whole (log : List (Event κ)) (d : Dir κ) : Prop := ∃ c, d.read = some c ∧ Recent log c

/-- While `cache_dir` exists it is whole; while it is missing, each sibling with a valid index is
whole, and where there is none, nothing has been saved. -/
structure Sound (w : World κ) : Prop where
  main : ∀ d, w.fs.main = some d → Whole w.log d
  new : w.fs.main = none → ∀ d, w.fs.new = some d → hasValidIndex (some d) = true → Whole w.log d
  old : w.fs.main = none → ∀ d, w.fs.old = some d → hasValidIndex (some d) = true → Whole w.log d
  nothing : w.fs.main = none → hasValidIndex w.fs.new = false → hasValidIndex w.fs.old = false →
    Nothing w.log

variable {w : World κ} {log : List (Event κ)} {e : Event κ} {d : Dir κ}

theorem Whole.concat (h : Whole log d) (he : e.completes = false) : Whole (log ++ [e]) d := by
  obtain ⟨c, hread, before, a, stop, after, rfl, hc, hafter⟩ := h
  refine ⟨c, hread, before, a, stop, after ++ [e], by simp, hc, ?_⟩
  intro e' he'
  rcases List.mem_append.mp he' with he' | he'
  · exact hafter e' he'
  · rw [List.mem_singleton.mp he']
    exact he

theorem Whole.last (h : d.read = some a.content) (log : List (Event κ)) (stop : Option Stop) :
    Whole (log ++ [.save a stop]) d := ⟨_, h, log, a, stop, [], rfl, rfl, by simp⟩

theorem Nothing.concat (h : Nothing log) (he : e.completes = false) : Nothing (log ++ [e]) := by
  intro e' he'
  rcases List.mem_append.mp he' with he' | he'
  · exact h e' he'
  · rw [List.mem_singleton.mp he']
    exact he

/-- What the repair puts in place is whole. -/
theorem Sound.repaired (h : Sound w) (hd : w.fs.repair.main = some d) : Whole w.log d := by
  cases hm : w.fs.main with
  | some m =>
    simp only [Fs.repair, hm] at hd
    exact h.main d (hm.trans hd)
  | none =>
    simp only [Fs.repair, hm] at hd
    split at hd
    · next hv =>
      dsimp only at hd
      exact h.new hm d hd (hd ▸ hv)
    · split at hd
      · next hv =>
        dsimp only at hd
        exact h.old hm d hd (hd ▸ hv)
      · rw [hm] at hd
        cases hd

/-- The repair finds nothing only where there is nothing to find. -/
theorem unrepaired (hr : fs.repair.main = none) : fs.repair = fs ∧ fs.main = none ∧
    hasValidIndex fs.new = false ∧ hasValidIndex fs.old = false := by
  cases hm : fs.main with
  | some m => simp [Fs.repair, hm] at hr
  | none =>
    have hn : hasValidIndex fs.new = false := by
      apply Bool.eq_false_of_not_eq_true
      intro hv
      simp only [Fs.repair, hm, hv, if_true] at hr
      simp [hr, hasValidIndex] at hv
    have ho : hasValidIndex fs.old = false := by
      apply Bool.eq_false_of_not_eq_true
      intro hv
      simp only [Fs.repair, hm, hn, hv, if_true, Bool.false_eq_true, if_false] at hr
      simp [hr, hasValidIndex] at hv
    refine ⟨?_, rfl, hn, ho⟩
    simp only [Fs.repair, hm, hn, ho, Bool.false_eq_true, if_false]

theorem Sound.loadsWhole (h : Sound w) : LoadsWhole w := by
  constructor
  · intro c hc
    obtain ⟨d, hd, hread⟩ := Option.bind_eq_some_iff.mp hc
    obtain ⟨c', hread', hrecent⟩ := h.repaired hd
    have hsame : c' = c := Option.some.inj (hread'.symm.trans hread)
    exact hsame ▸ hrecent
  · intro hnone
    cases hr : w.fs.repair.main with
    | some d =>
      obtain ⟨c, hread, -⟩ := h.repaired hr
      simp [Fs.load, hr, hread] at hnone
    | none =>
      obtain ⟨-, hm, hn, ho⟩ := unrepaired hr
      exact h.nothing hm hn ho

theorem Sound.load (h : Sound w) : Sound (next w .load) := by
  have hload : Event.completes (Event.load (κ := κ)) = false := rfl
  cases hr : w.fs.repair.main with
  | some m =>
    refine ⟨fun d hd => (h.repaired hd).concat hload, ?_, ?_, ?_⟩
    · intro hm
      exact absurd (hr.symm.trans hm) nofun
    · intro hm
      exact absurd (hr.symm.trans hm) nofun
    · intro hm
      exact absurd (hr.symm.trans hm) nofun
  | none =>
    obtain ⟨hsame, hm, hn, ho⟩ := unrepaired hr
    refine ⟨fun d hd => (h.repaired hd).concat hload, ?_, ?_, ?_⟩
    · intro _ d hd hv
      have hd : w.fs.new = some d := hsame ▸ hd
      rw [hd, hv] at hn
      cases hn
    · intro _ d hd hv
      have hd : w.fs.old = some d := hsame ▸ hd
      rw [hd, hv] at ho
      cases ho
    · intro _ _ _
      exact (h.nothing hm hn ho).concat hload

def Spared (d : Option (Dir κ)) (kept : File → Bool) : Prop :=
  hasValidIndex (d.map (·.keep kept)) = true → (d.map (·.keep kept)).bind Dir.read = d.bind Dir.read

/-- The cleaning at the head of a save stops with a whole snapshot left in a sibling, or with no
valid index left while no save has completed. -/
def SparesCleaning (w : World κ) : Option Stop → Prop
  | some ⟨0, _, kept⟩ => Spared w.fs.new kept ∧
    (hasValidIndex (w.fs.new.map (·.keep kept)) = true ∨ hasValidIndex w.fs.old = true ∨
      Nothing w.log)
  | some ⟨1, _, kept⟩ => Spared w.fs.old kept ∧
    (hasValidIndex (w.fs.old.map (·.keep kept)) = true ∨ Nothing w.log)
  | _ => Nothing w.log

/-- While `cache_dir` is missing, a save either gets to a complete index or spares what is left. -/
def Spares (w : World κ) : Event κ → Prop
  | .load => True
  | .save a stop =>
    a.entries = [] ∨ w.fs.main.isSome = true ∨ a.indexDone stop ∨ SparesCleaning w stop

theorem hasValidIndex_of_keep {d : Option (Dir κ)} {kept : File → Bool}
    (h : hasValidIndex (d.map (·.keep kept)) = true) : hasValidIndex d = true := by
  cases d with
  | none => exact h
  | some d =>
    have hsome : ∀ f x, d.keep kept f = some x → d f = some x := by
      intro f x hx
      simp only [Dir.keep] at hx
      split at hx
      · exact hx
      · cases hx
    simp only [hasValidIndex, Option.map_some] at h ⊢
    split at h
    · next version r rest hindex =>
      simp only [Bool.and_eq_true, decide_eq_true_eq, Option.isSome_iff_exists] at h
      obtain ⟨⟨hversion, x, hcache⟩, y, htokens⟩ := h
      simp [hsome _ _ hindex, hsome _ _ hcache, hsome _ _ htokens, hversion]
    · cases h

theorem Whole.keep {kept : File → Bool} (h : Whole log d) (hs : Spared (some d) kept)
    (hv : hasValidIndex (some (d.keep kept)) = true) : Whole log (d.keep kept) := by
  obtain ⟨c, hread, hrecent⟩ := h
  have hsame := hs hv
  simp only [Option.map_some, Option.bind_some] at hsame
  exact ⟨c, hsame.trans hread, hrecent⟩

/-- A save that never got to a complete index has not completed. -/
theorem not_completes {stop : Option Stop} (h : ¬ a.indexDone stop) :
    (Event.save a stop).completes = false := by
  cases stop with
  | none =>
    apply Bool.eq_false_of_not_eq_true
    intro hc
    exact h ⟨hc, nofun⟩
  | some t => rfl

/-- A save that leaves no complete index behind. -/
theorem Sound.unswapped {stop : Option Stop} {fs' : Fs κ} (h : Sound w) (hm : fs'.main = w.fs.main)
    (hno : (Event.save a stop).completes = false)
    (hnew : w.fs.main = none → ∀ d, fs'.new = some d → hasValidIndex (some d) = true →
      Whole w.log d)
    (hold : w.fs.main = none → ∀ d, fs'.old = some d → hasValidIndex (some d) = true →
      Whole w.log d)
    (hnone : w.fs.main = none → hasValidIndex fs'.new = false → hasValidIndex fs'.old = false →
      Nothing w.log) :
    Sound ⟨fs', w.log ++ [.save a stop]⟩ := by
  refine ⟨?_, ?_, ?_, ?_⟩
  · intro d hd
    exact (h.main d (hm ▸ hd)).concat hno
  · intro hmain d hd hv
    exact (hnew (hm ▸ hmain) d hd hv).concat hno
  · intro hmain d hd hv
    exact (hold (hm ▸ hmain) d hd hv).concat hno
  · intro hmain hn ho
    exact (hnone (hm ▸ hmain) hn ho).concat hno

/-- A directory that has lost files, but not its content. -/
theorem whole_kept {d' : Option (Dir κ)} {kept : File → Bool}
    (hw : ∀ d, d' = some d → hasValidIndex (some d) = true → Whole log d) (hs : Spared d' kept)
    (hd : d'.map (·.keep kept) = some d) (hv : hasValidIndex (some d) = true) : Whole log d := by
  obtain ⟨d₀, rfl, rfl⟩ := Option.map_eq_some_iff.mp hd
  exact (hw d₀ rfl (@hasValidIndex_of_keep _ (some d₀) kept hv)).keep hs hv

theorem Sound.save (h : Sound w) {stop : Option Stop} (hs : Spares w (.save a stop)) :
    Sound (next w (.save a stop)) := by
  by_cases ha : a.entries = []
  · have hsame : w.fs.save a stop = w.fs := by
      cases stop <;> simp [Fs.save, Attempt.calls, ha]
    have hno : ¬ a.indexDone stop := by
      intro hd
      simpa [Attempt.commits, Attempt.records, ha, recordsFrom] using hd.1
    rw [next, hsame]
    exact h.unswapped rfl (not_completes hno) h.new h.old h.nothing
  · have hspared : w.fs.main = none → ¬ a.indexDone stop → SparesCleaning w stop := by
      intro hm hno
      rcases hs with he | hmain | hdone | hspared
      · exact absurd he ha
      · simp [hm] at hmain
      · exact absurd hdone hno
      · exact hspared
    rcases save_cases ha w.fs stop with ⟨⟨k, torn, kept⟩, rfl, rfl, hfs⟩ |
      ⟨⟨k, torn, kept⟩, rfl, rfl, hfs⟩ | ⟨hno, hlate, hfs⟩ | ⟨hdone, d, hread, hv, hfs⟩
    · have hno : ¬ a.indexDone (some ⟨0, torn, kept⟩) := by
        intro hd
        exact absurd (hd.2 _ rfl) (Nat.not_lt_zero _)
      rw [next, hfs]
      refine h.unswapped rfl (not_completes hno) ?_ h.old ?_
      · intro hm d hd hv
        exact whole_kept (h.new hm) (hspared hm hno).1 hd hv
      · intro hm hn ho
        rcases (hspared hm hno).2 with hv | hv | hnothing
        · exact absurd (hn.symm.trans hv) Bool.false_ne_true
        · exact absurd (ho.symm.trans hv) Bool.false_ne_true
        · exact hnothing
    · have hno : ¬ a.indexDone (some ⟨1, torn, kept⟩) := by
        intro hd
        have := hd.2 _ rfl
        simp [Attempt.staging] at this
      rw [next, hfs]
      refine h.unswapped rfl (not_completes hno) (fun _ => nofun) ?_ ?_
      · intro hm d hd hv
        exact whole_kept (h.old hm) (hspared hm hno).1 hd hv
      · intro hm _ ho
        rcases (hspared hm hno).2 with hv | hnothing
        · exact absurd (ho.symm.trans hv) Bool.false_ne_true
        · exact hnothing
    · refine h.unswapped hfs.main (not_completes hno) ?_ ?_ ?_
      · intro _ d hd hv
        have hn := hfs.new.not_valid
        rw [hd, hv] at hn
        cases hn
      · intro _ d hd
        rw [hfs.old] at hd
        cases hd
      · intro hm _ _
        have hleft := hspared hm hno
        unfold SparesCleaning at hleft
        split at hleft
        · exact absurd (hlate _ rfl) (by simp)
        · exact absurd (hlate _ rfl) (by simp)
        · exact hleft
    · have hlast : Whole (w.log ++ [.save a stop]) d := .last hread w.log stop
      rcases hfs with ⟨hstop, hfs⟩ | ⟨old, hfs⟩
      · have hno : (Event.save a stop).completes = false := by
          cases stop with
          | none => cases hstop
          | some t => rfl
        rcases hfs with hfs | hfs
        · refine ⟨?_, ?_, ?_, ?_⟩
          · intro m hm
            exact (h.main m (by simpa [next, hfs] using hm)).concat hno
          · intro _ d' hd' _
            have hsame : d = d' := by simpa [next, hfs] using hd'
            exact hsame ▸ hlast
          · intro _ d' hd'
            simp [next, hfs] at hd'
          · intro _ hn
            simp [next, hfs, hv] at hn
        · refine ⟨?_, ?_, ?_, ?_⟩
          · intro m hm
            simp [next, hfs] at hm
          · intro _ d' hd' _
            have hsame : d = d' := by simpa [next, hfs] using hd'
            exact hsame ▸ hlast
          · intro _ d' hd' _
            exact (h.main d' (by simpa [next, hfs] using hd')).concat hno
          · intro _ hn
            simp [next, hfs, hv] at hn
      · refine ⟨?_, ?_, ?_, ?_⟩
        · intro m hm
          have hsame : d = m := by simpa [next, hfs] using hm
          exact hsame ▸ hlast
        · intro hm
          simp [next, hfs] at hm
        · intro hm
          simp [next, hfs] at hm
        · intro hm
          simp [next, hfs] at hm

theorem Sound.init : Sound (World.init (κ := κ)) := by
  refine ⟨nofun, fun _ => nofun, fun _ => nofun, ?_⟩
  intro _ _ _ e he
  cases he

open Runs

/-- Every load of a run sees one whole recent snapshot, as long as the saves that start without
`cache_dir` get to a complete index or spare what is left. -/
theorem snapshots_whole (h : Reached (· = World.init (κ := κ)) Spares next w) : LoadsWhole w := by
  have hsound : Sound w := by
    apply h.invariant
    · rintro _ rfl
      exact .init
    · intro w e _ hw he
      cases e with
      | save a stop => exact hw.save he
      | load => exact hw.load
  exact hsound.loadsWhole

def oneEntry (t : Int) : Attempt Nat :=
  { entries := [⟨[t], [0], 16, ["KVCache"], .saved⟩] }

/-- A save that stops between its two renames is followed by one that runs to its end. -/
theorem snapshots_whole_resumed :
    LoadsWhole (runList next World.init [.save (oneEntry 1) none,
      .save (oneEntry 2) (some ⟨7, false, fun _ => true⟩), .load,
      .save (oneEntry 3) (some ⟨4, true, fun _ => true⟩), .load]) := by
  have hstart : Reached (· = World.init) Spares next (World.init (κ := Nat)) := .start rfl
  apply snapshots_whole
  apply hstart.runList
  exact ⟨.inr (.inr (.inl ⟨rfl, nofun⟩)), .inr (.inl rfl), trivial, .inr (.inl rfl), trivial,
    trivial⟩

def twoStops : List (Event Nat) :=
  [.save (oneEntry 1) none, .save (oneEntry 2) (some ⟨7, false, fun _ => true⟩),
    .save (oneEntry 3) (some ⟨2, false, fun _ => true⟩)]

/-- The cleaning of the second takes away both snapshots, and the load sees nothing. -/
theorem cleaning_loses_snapshots :
    ¬ ∀ w : World Nat, Reached (· = World.init) (fun _ _ => True) next w → LoadsWhole w := by
  intro hall
  have hstart : Reached (· = World.init) (fun _ _ => True) next (World.init (κ := Nat)) :=
    .start rfl
  have hrun : Reached (· = World.init) (fun _ _ => True) next (runList next World.init twoStops) := by
    apply hstart.runList
    simp only [twoStops, AllOk, and_self]
  have hnone : (runList next World.init twoStops).fs.load = none := by decide +kernel
  have hfirst := (hall _ hrun).2 hnone (.save (oneEntry 1) none) List.mem_cons_self
  exact absurd hfirst (by decide)

def diskEntry (x : Record × Option (Content κ) × Option (Content κ)) : DiskEntry κ where
  numTokens := x.1.numTokens
  filesExist := x.2.1.isSome && x.2.2.isSome
  cacheTypes := x.1.cacheTypes
  tokensBytes := match x.2.2 with
    | some (.tokens tokens) => 4 * tokens.length
    | _ => 0
  bodyComplete := match x.2.1 with
    | some (.cache _) => true
    | _ => false
  tokensBin := match x.2.2 with
    | some (.tokens tokens) => tokens
    | _ => []
  promptCache := match x.2.1 with
    | some (.cache layers) => some layers
    | _ => none

def Dir.snapshot (d : Dir κ) : Option (Snapshot κ) :=
  match d .index with
  | some (.index version records) =>
    some ⟨version, records.map fun r => diskEntry (r, d (.cache r.index), d (.tokens r.index))⟩
  | _ => none

def Fs.disk (fs : Fs κ) : Disk κ :=
  ⟨fs.main.map Dir.snapshot, fs.new.map Dir.snapshot, fs.old.map Dir.snapshot⟩

theorem hasValidIndex_snapshot (d : Option (Dir κ)) :
    MemoryPrefixCache.hasValidIndex (d.map Dir.snapshot) = hasValidIndex d := by
  cases d with
  | none => rfl
  | some d =>
    simp only [Option.map_some, Dir.snapshot, hasValidIndex]
    cases d .index with
    | none => rfl
    | some x =>
      cases x with
      | index version records =>
        cases records with
        | nil => simp [MemoryPrefixCache.hasValidIndex]
        | cons r rest => simp [MemoryPrefixCache.hasValidIndex, diskEntry, Bool.and_assoc]
      | torn => rfl
      | cache layers => rfl
      | tokens tokens => rfl

end FusionMlx.SnapshotSwap
