import FusionMlx.Cache.SnapshotStore

/-!
# The items of the snapshot store

Which items the writer has still to deal with, what it owes the cancellation
marks, and the condition under which an item is never taken for another one.
-/
namespace FusionMlx.SnapshotStore

variable {ρ α : Type}

def Stage.touches : Stage → Bool
  | .clearedCheck | .dec false | .release => false
  | _ => true

def Stage.owes : Stage → Bool
  | .finish | .release => false
  | _ => true

def Stage.beforeRename : Stage → Bool
  | .check | .write | .checkTemp | .rename => true
  | _ => false

def Writer.touching : Writer ρ α → List (Item ρ α)
  | .idle => []
  | .hand i => [i]
  | .busy i stage => if stage.touches then [i] else []

def Writer.owing : Writer ρ α → List (Item ρ α)
  | .idle => []
  | .hand i => [i]
  | .busy i stage => if stage.touches && stage.owes then [i] else []

variable [DecidableEq ρ]

def Writer.due (rid : ρ) : Writer ρ α → Nat
  | .busy i stage => if stage.touches = false ∧ stage.owes = true ∧ i.key.1 = rid then 1 else 0
  | _ => 0

namespace State

def touching (s : State ρ α) : List (Item ρ α) := s.writer.touching ++ s.queue

def owing (s : State ρ α) : List (Item ρ α) := s.writer.owing ++ s.queue

def Live (s : State ρ α) (key : Key ρ) : Prop := (s.pending.get? key).isSome = true

instance (s : State ρ α) (key : Key ρ) : Decidable (s.Live key) := inferInstanceAs (Decidable (_ = _))

def owed (s : State ρ α) (rid : ρ) : Nat :=
  s.writer.due rid + s.owing.countP (fun i => decide (i.key.1 = rid ∧ ¬ s.Live i.key))

def Covered (s : State ρ α) (rid : ρ) : Prop := ∀ count created, s.cancelled rid = some (count, created) → count ≤ s.owed rid

end State

/-- A save begins only when no earlier item of its key is left; a wait times out only when the mark
is covered, and that of `cleanup_all` only when the writer is not about to write a buffered item;
the item of a cleaned snapshot does not find its mark expired before it is written, nor after that
with its temporary file in place. -/
def Orderly (s : State ρ α) : Act ρ α → Prop
  | .save key _ => s.caller = .idle → ∀ i ∈ s.touching, i.key ≠ key
  | .timeout =>
    match s.caller with
    | .cleaning rid => s.Covered rid
    | .waitingAll => (∀ rid, s.Covered rid) ∧
        ∀ i stage, s.writer = .busy i stage → stage = .lookup ∨ stage.beforeRename = true → ¬ s.Live i.key
    | _ => True
  | .writer _ _ => ∀ i stage, s.writer = .busy i stage → ¬ s.Live i.key → s.expired i.key.1 = true →
      stage ≠ .check ∧ (stage = .checkTemp → s.temps i.key = false)
  | _ => True

namespace Caller

omit [DecidableEq ρ]

def saves (key : Key ρ) : Caller ρ α → Prop
  | .saving k _ | .putting k _ | .dropping k => k = key
  | _ => False

def cleans (rid : ρ) : Caller ρ α → Prop
  | .cleaning r | .removing r _ | .releasing r | .unmarking r => r = rid
  | _ => False

def cleansAll : Caller ρ α → Prop
  | .draining | .waitingAll | .clearing _ | .unmarkingAll _ | .removingAll _ | .releasingAll => True
  | _ => False

def wipes : Caller ρ α → Prop
  | .draining | .waitingAll | .clearing _ => True
  | _ => False

def sweeps (rid : ρ) : Caller ρ α → Prop
  | .cleaning r | .removing r _ => r = rid
  | .draining | .waitingAll | .clearing _ | .unmarkingAll _ | .removingAll _ => True
  | _ => False

end Caller

/-- The snapshot of the item has been written, or that has failed, or its file is gone again. -/
def Settled (s : State ρ α) (i : Item ρ α) : Prop :=
  (s.files i.key = none ∧ lost i.key s.events = true) ∨
    (s.files i.key = some i.content ∧ writtenSince i.key s.events = true)

/-- What the writer relies on at each stage: an item that is still buffered is not marked, one that
no longer is will be undone. -/
def AtStage (s : State ρ α) (i : Item ρ α) : Stage → Prop
  | .lookup | .clearedCheck | .dec false | .release => True
  | .check => ¬ s.Live i.key → s.cancelled i.key.1 ≠ none
  | .skipPop => s.cancelled i.key.1 ≠ none ∧ (s.Live i.key → s.caller.wipes)
  | .write | .checkTemp =>
    (¬ s.Live i.key → s.cancelled i.key.1 ≠ none) ∧ (s.Live i.key → s.cancelled i.key.1 = none)
  | .rename =>
    (¬ s.Live i.key → s.temps i.key = false ∨ s.caller.sweeps i.key.1) ∧ (s.Live i.key → s.cancelled i.key.1 = none)
  | .enforce | .checkFile =>
    (¬ s.Live i.key → s.files i.key = none ∨ s.caller.sweeps i.key.1) ∧
      (s.Live i.key → s.cancelled i.key.1 = none ∧ Settled s i)
  | .failed => s.Live i.key → s.cancelled i.key.1 = none
  | .failedCheck | .finish => s.Live i.key → s.cancelled i.key.1 = none ∧ Settled s i
  | .skipRemove | .dropTemp | .dropPending | .dropFile | .dropFolder => ¬ s.Live i.key ∧ s.cancelled i.key.1 ≠ none
  | .dec true => ¬ s.Live i.key

def Stage.withTemp : Stage → Bool
  | .checkTemp | .dropTemp | .rename | .failed => true
  | _ => false

/-- No trace of the request is left, and the writer makes none. -/
def Quiet (s : State ρ α) (rid : ρ) : Prop :=
  (∀ k : Key ρ, k.1 = rid → ¬ s.Live k ∧ s.files k = none ∧ s.temps k = false) ∧
    ∀ i stage, s.writer = .busy i stage → i.key.1 = rid → stage.touches = true → stage = .lookup

structure Inv (s : State ρ α) : Prop where
  keys : (s.touching.map Item.key).Nodup
  buffered : ∀ k c, s.caller = .saving k c ∨ s.caller = .putting k c → s.pending.get? k = some ⟨c, true⟩
  apart : ∀ k, s.caller.saves k → ∀ i ∈ s.touching, i.key ≠ k
  content : ∀ i ∈ s.touching, ∀ e, s.pending.get? i.key = some e → e = ⟨i.content, true⟩
  kept : ∀ k c, s.pending.get? k = some ⟨c, true⟩ → (∃ i ∈ s.touching, i.key = k) ∨ s.caller.saves k ∨ s.caller.wipes
  /-- No buffered item of a request stands in front of one that is not. -/
  fifo : s.owing.Pairwise (fun i j => i.key.1 = j.key.1 → s.Live i.key → s.Live j.key)
  lock : s.caller.holds = true → s.writer.holds = false
  drained : s.caller = .waitingAll ∨ (∃ acquired, s.caller = .clearing acquired) → s.queue = []
  marks : ∀ rid count created, s.cancelled rid = some (count, created) →
    1 ≤ count ∧ (count ≤ s.owed rid ∨ s.caller.clearsMarks rid)
  stage : ∀ i stage, s.writer = .busy i stage → AtStage s i stage
  temps : ∀ k, s.temps k = true → ∃ i stage, s.writer = .busy i stage ∧ i.key = k ∧ stage.withTemp = true
  known : ∀ k e, s.pending.get? k = some e → current k s.events = some e.content ∨ s.caller.saves k ∨ s.caller.wipes
  gone : ∀ i ∈ s.touching, ¬ s.Live i.key → current i.key s.events = none
  leftover : ∀ k c, s.pending.get? k = some ⟨c, false⟩ → s.files k = none
  file : ∀ k c, s.files k = some c → s.Live k ∨ current k s.events = some c ∨ s.caller.sweeps k.1
  older : ∀ k, s.caller.saves k → ∀ c, s.files k = some c → current k s.events = some c
  /-- The current snapshot is in the buffer or in its file, unless it was lost. -/
  cur : ∀ k c, current k s.events = some c → lost k s.events = false →
    (s.pending.get? k = some ⟨c, true⟩ ∧ ¬ s.caller.saves k) ∨ (s.files k = some c ∧ (s.Live k → s.caller.saves k))
  /-- What was saved under a mark is still in the buffer. -/
  fresh : ∀ k c, s.cancelled k.1 ≠ none → current k s.events = some c →
    s.pending.get? k = some ⟨c, true⟩ ∧ ¬ s.caller.saves k
  written : ∀ k c, s.files k = some c → current k s.events = some c → (s.Live k → s.caller.saves k) →
    writtenSince k s.events = true
  cleaning : ∀ k : Key ρ, s.caller.cleans k.1 → ¬ s.Live k ∧ current k s.events = none
  cleanedAll : s.caller.cleansAll → ∀ k, current k s.events = none
  quiet : ∀ rid, sweptLast rid s.events = true ∨ s.caller = .releasing rid ∨ s.caller = .unmarking rid → Quiet s rid
  timedOut : s.caller = .clearing false → (∀ i, s.writer ≠ .hand i) ∧
    ∀ i stage, s.writer = .busy i stage → stage = .lookup ∨ stage.beforeRename = true → ¬ s.Live i.key
  loading : ∀ k c, s.caller = .loading k → s.pending.get? k ≠ some ⟨c, true⟩

end FusionMlx.SnapshotStore
