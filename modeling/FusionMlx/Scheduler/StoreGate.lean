import FusionMlx.Support.OrderedDict
import FusionMlx.Support.Runs
import Mathlib.Algebra.Order.Group.Nat

/-!
# The store-cache gate

The scheduler hands the cache of a finished request to a background worker and
counts the jobs under way in a gate. A job is noted done by the callback of
its future, and once more when the removal that waits for it is drained. The
inference thread, the worker and the memory enforcer take turns at the level
of single accesses to the gate and the futures.
-/
namespace FusionMlx.StoreGate

open OrderedDict Runs

structure StoreCacheGate where
  cap : Nat
  inFlight : Nat

namespace StoreCacheGate

def init (cap : Int) : StoreCacheGate := ⟨(max 1 cap).toNat, 0⟩

def noteSubmitted (g : StoreCacheGate) : StoreCacheGate := { g with inFlight := g.inFlight + 1 }

def noteDone (g : StoreCacheGate) : StoreCacheGate :=
  if g.inFlight > 0 then { g with inFlight := g.inFlight - 1 } else g

def setCap (g : StoreCacheGate) (cap : Int) : StoreCacheGate := { g with cap := (max 1 cap).toNat }

def hasCapacity (g : StoreCacheGate) : Bool := g.inFlight < g.cap

end StoreCacheGate

inductive FutureState where
  | pending | running | finished | cancelled
  deriving DecidableEq

/-- A store job: its future, whether it was submitted under a gate, whether the done callback is
attached and whether it has run. -/
structure Job where
  state : FutureState := .pending
  gated : Bool
  attached : Bool := false
  noted : Bool := false

namespace Job

def done (j : Job) : Bool := j.state = .finished || j.state = .cancelled

def holdsSlot (j : Job) : Bool := j.gated && !j.noted

end Job

structure PendingRemove where
  uid : Nat
  requestId : String
  future : Nat

/-- Where the inference thread stands: between its calls, between `submit` and
`add_done_callback`, or in one of the two loops of the drain. -/
inductive Phase where
  | idle
  | attaching (entry : PendingRemove) (queued : Bool)
  | checking (now : Nat) (todo done remaining : List PendingRemove)
  | finalizing (done : List PendingRemove)

structure Scheduler where
  gate : Option StoreCacheGate
  jobs : List Job
  doneNotes : List Nat := []
  pendingAsyncRemoves : List PendingRemove
  pendingSince : Dict Nat Nat
  inflightStoreFutures : Dict String Nat
  phase : Phase

def stuckTimeout : Nat := 180

namespace Scheduler

def init (cap : Int) : Scheduler where
  gate := some (.init cap)
  jobs := []
  pendingAsyncRemoves := []
  pendingSince := Dict.empty
  inflightStoreFutures := Dict.empty
  phase := .idle

def noteDone (s : Scheduler) (n : Nat) : Scheduler :=
  { s with gate := s.gate.map StoreCacheGate.noteDone, doneNotes := s.doneNotes ++ [n] }

def setJob (s : Scheduler) (n : Nat) (j : Job) : Scheduler := { s with jobs := s.jobs.set n j }

def runCallback (s : Scheduler) (n : Nat) (j : Job) : Scheduler :=
  if j.holdsSlot ∧ j.attached then (s.setJob n { j with noted := true }).noteDone n else s.setJob n j

/-- The submission in `_cleanup_finished`; the job is counted before it is handed over. A request
without a row has no removal to wait for. -/
def submit (s : Scheduler) (r : String) (uid : Option Nat) : Scheduler :=
  match s.phase with
  | .idle =>
    { s with
      gate := s.gate.map StoreCacheGate.noteSubmitted
      jobs := s.jobs ++ [{ gated := s.gate.isSome }]
      phase := .attaching ⟨uid.getD 0, r, s.jobs.length⟩ uid.isSome }
  | _ => s

def submitRefused (s : Scheduler) : Scheduler :=
  match s.phase with
  | .idle => { s with
      gate := s.gate.map (fun g => g.noteSubmitted.noteDone) }
  | _ => s

/-- `add_done_callback`, which runs the callback of a future that is done already, and the rest of
`_cleanup_finished`. -/
def attach (s : Scheduler) : Scheduler :=
  match s.phase with
  | .attaching e queued =>
    let s := { s with
      inflightStoreFutures := s.inflightStoreFutures.set e.requestId e.future
      pendingAsyncRemoves :=
        if queued then s.pendingAsyncRemoves ++ [e] else s.pendingAsyncRemoves
      phase := .idle }
    match s.jobs[e.future]? with
    | none => s
    | some j =>
      let j := { j with attached := true }
      if j.done then s.runCallback e.future j else s.setJob e.future j
  | _ => s

/-- `future.cancel()`: only a pending job gives way, and its callback runs right there. -/
def cancel (s : Scheduler) (n : Nat) : Scheduler :=
  match s.jobs[n]? with
  | none => s
  | some j => if j.state = .pending then s.runCallback n { j with state := .cancelled } else s

def drain (s : Scheduler) (now : Nat) : Scheduler :=
  match s.phase with
  | .idle =>
    if s.pendingAsyncRemoves = [] then { s with pendingSince := Dict.empty }
    else { s with
      pendingAsyncRemoves := []
      phase := .checking now s.pendingAsyncRemoves [] [] }
  | _ => s

def endChecking (s : Scheduler) (done remaining : List PendingRemove) : Scheduler :=
  { s with
    pendingAsyncRemoves := remaining
    pendingSince := (done.map PendingRemove.uid).foldl Dict.erase s.pendingSince
    phase := if done = [] then .idle else .finalizing done }

/-- One round of the first loop: a future that is done, or stuck and then cancelled, is up for
removal; another one is kept for a later step. -/
def check (s : Scheduler) : Scheduler :=
  match s.phase with
  | .checking _ [] done remaining => s.endChecking done remaining
  | .checking now (e :: todo) done remaining =>
    if (s.jobs[e.future]?).all Job.done then
      { s with phase := .checking now todo (done ++ [e]) remaining }
    else
      let firstSeen := (s.pendingSince.get? e.uid).getD now
      let s := { s with
        pendingSince := if (s.pendingSince.get? e.uid).isNone then s.pendingSince.set e.uid now
          else s.pendingSince }
      if now - firstSeen ≥ stuckTimeout then
        { s.cancel e.future with phase := .checking now todo (done ++ [e]) remaining }
      else { s with phase := .checking now todo done (remaining ++ [e]) }
  | _ => s

/-- One round of the second loop. `future.exception()` waits for a running job and raises for a
cancelled one, which ends the drain. -/
def finalize (s : Scheduler) : Scheduler :=
  match s.phase with
  | .finalizing [] => { s with phase := .idle }
  | .finalizing (e :: rest) =>
    match (s.jobs[e.future]?).map Job.state with
    | some .cancelled => { s with phase := .idle }
    | some .finished => { (if s.gate.isSome then s.noteDone e.future else s) with
        inflightStoreFutures := s.inflightStoreFutures.erase e.requestId
        phase := .finalizing rest }
    | _ => s
  | _ => s

def reset (s : Scheduler) : Scheduler :=
  match s.phase with
  | .idle => { s with pendingAsyncRemoves := [], inflightStoreFutures := Dict.empty }
  | _ => s

def dropGate (s : Scheduler) : Scheduler :=
  match s.phase with
  | .idle => { s with gate := none }
  | _ => s

def start (s : Scheduler) (n : Nat) : Scheduler :=
  match s.jobs[n]? with
  | none => s
  | some j => if j.state = .pending then s.setJob n { j with state := .running } else s

def finish (s : Scheduler) (n : Nat) : Scheduler :=
  match s.jobs[n]? with
  | none => s
  | some j => if j.state = .running then s.setJob n { j with state := .finished } else s

def callback (s : Scheduler) (n : Nat) : Scheduler :=
  match s.jobs[n]? with
  | none => s
  | some j => if j.done then s.runCallback n j else s

def setCap (s : Scheduler) (cap : Int) : Scheduler :=
  { s with gate := s.gate.map (fun g => g.setCap cap) }

end Scheduler

inductive Event where
  | submit (r : String) (uid : Option Nat)
  | submitRefused
  | attach
  | drain (now : Nat)
  | check
  | finalize
  | reset
  | dropGate
  | start (n : Nat)
  | finish (n : Nat)
  | callback (n : Nat)
  | cancel (n : Nat)
  | setCap (cap : Int)

def next (s : Scheduler) : Event → Scheduler
  | .submit r uid => s.submit r uid
  | .submitRefused => s.submitRefused
  | .attach => s.attach
  | .drain now => s.drain now
  | .check => s.check
  | .finalize => s.finalize
  | .reset => s.reset
  | .dropGate => s.dropGate
  | .start n => s.start n
  | .finish n => s.finish n
  | .callback n => s.callback n
  | .cancel n => s.cancel n
  | .setCap cap => s.setCap cap

namespace Scheduler

def slots (s : Scheduler) : Nat := s.jobs.countP Job.holdsSlot

def unfinished (s : Scheduler) : Nat := s.jobs.countP (fun j => j.gated && !j.done)

def callbacksDue (s : Scheduler) : Nat := s.jobs.countP (fun j => j.holdsSlot && j.done)

end Scheduler

/-- The gate counts the jobs that hold a slot, and a job gives its slot back once it is done. -/
structure Counted (s : Scheduler) : Prop where
  count : ∀ g, s.gate = some g → g.inFlight = s.slots
  noted : ∀ j ∈ s.jobs, j.noted = true → j.done = true

variable {s : Scheduler}

/-- A job holds a slot while it runs, and from its end to its callback. -/
theorem Job.holdsSlot_split {j : Job} (h : j.noted = true → j.done = true) :
    (if j.holdsSlot then 1 else 0) =
      (if j.gated && !j.done then 1 else 0) + if j.holdsSlot && j.done then 1 else 0 := by
  unfold Job.holdsSlot
  cases hd : j.done
  · have hn : j.noted = false := by
      apply Bool.eq_false_of_not_eq_true
      intro hn
      rw [h hn] at hd
      cases hd
    simp [hn]
  · simp

theorem Counted.split (h : Counted s) : s.slots = s.unfinished + s.callbacksDue := by
  have hone : ∀ jobs : List Job, (∀ j ∈ jobs, j.noted = true → j.done = true) →
      jobs.countP Job.holdsSlot = jobs.countP (fun j => j.gated && !j.done) +
        jobs.countP (fun j => j.holdsSlot && j.done) := by
    intro jobs hn
    induction jobs with
    | nil => rfl
    | cons j jobs ih =>
      have hj := Job.holdsSlot_split (hn j (by simp))
      have := ih (fun k hk => hn k (by simp [hk]))
      simp only [List.countP_cons, this]
      omega
  exact hone s.jobs h.noted

/-- Rewriting a job that keeps its slot, or its lack of one. -/
theorem Counted.setJob {n : Nat} {j j' : Job} (h : Counted s) (hj : s.jobs[n]? = some j)
    (hslot : j'.holdsSlot = j.holdsSlot) (hnoted : j'.noted = true → j'.done = true) :
    Counted (s.setJob n j') := by
  obtain ⟨hn, hget⟩ := List.getElem?_eq_some_iff.mp hj
  refine ⟨fun g hg => ?_, fun k hk => ?_⟩
  · have hcount := h.count g hg
    rw [hcount, Scheduler.slots, Scheduler.slots, Scheduler.setJob, List.countP_set hn, hget, hslot]
    have hle : (if j.holdsSlot then 1 else 0) ≤ s.jobs.countP Job.holdsSlot := by
      split
      · next hs => exact List.countP_pos_iff.mpr ⟨j, hget ▸ List.getElem_mem hn, hs⟩
      · exact Nat.zero_le _
    omega
  · rcases List.mem_or_eq_of_mem_set hk with hk | rfl
    · exact h.noted k hk
    · exact hnoted

/-- The callback of a done job gives back the slot it holds. -/
theorem Counted.runCallback {n : Nat} {j j' : Job} (h : Counted s) (hj : s.jobs[n]? = some j)
    (hslot : j'.holdsSlot = j.holdsSlot) (hdone : j'.done = true) :
    Counted (s.runCallback n j') := by
  simp only [Scheduler.runCallback]
  split
  · next hc =>
    obtain ⟨hn, hget⟩ := List.getElem?_eq_some_iff.mp hj
    have hpos : 0 < s.slots :=
      List.countP_pos_iff.mpr ⟨j, hget ▸ List.getElem_mem hn, hslot ▸ hc.1⟩
    refine ⟨fun g hg => ?_, fun k hk => ?_⟩
    · obtain ⟨g', hg', rfl⟩ := Option.map_eq_some_iff.mp hg
      have hcount := h.count g' hg'
      have hafter : ((s.setJob n { j' with noted := true }).noteDone n).slots = s.slots - 1 := by
        rw [Scheduler.slots, Scheduler.noteDone, Scheduler.setJob, List.countP_set hn, hget,
          ← hslot, hc.1]
        simp [Job.holdsSlot, Scheduler.slots]
      rw [hafter, StoreCacheGate.noteDone, if_pos (by omega), hcount]
    · rcases List.mem_or_eq_of_mem_set hk with hk | rfl
      · exact h.noted k hk
      · exact fun _ => hdone
  · exact h.setJob hj hslot (fun _ => hdone)

theorem Counted.cancel (h : Counted s) (n : Nat) : Counted (s.cancel n) := by
  simp only [Scheduler.cancel]
  split
  · exact h
  · next j hj =>
    split
    · exact h.runCallback hj rfl rfl
    · exact h

/-- What neither the gate nor the jobs show does not matter to the count. -/
theorem Counted.frame {s' : Scheduler} (h : Counted s) (hg : s'.gate = s.gate)
    (hj : s'.jobs = s.jobs) : Counted s' := by
  refine ⟨fun g hg' => ?_, fun j hj' => h.noted j (hj ▸ hj')⟩
  rw [h.count g (hg ▸ hg'), Scheduler.slots, Scheduler.slots, hj]

def Finalizes (s : Scheduler) : Prop :=
  s.gate.isSome ∧ ∃ e rest, s.phase = .finalizing (e :: rest) ∧
    (s.jobs[e.future]?).map Job.state = some .finished

/-- A drained removal notes a job done that its callback notes, too: the count stays right only
where nothing is left to count. -/
theorem finalize_counted_iff (h : Counted s) :
    Counted s.finalize ↔ (Finalizes s → s.slots = 0) := by
  have hskip : Counted s.finalize ∧ ¬ Finalizes s →
      (Counted s.finalize ↔ (Finalizes s → s.slots = 0)) :=
    fun ⟨h₁, h₂⟩ => ⟨fun _ hf => absurd hf h₂, fun _ => h₁⟩
  cases hp : s.phase with
  | finalizing todo =>
    cases todo with
    | nil =>
      apply hskip
      refine ⟨?_, ?_⟩
      · simp only [Scheduler.finalize, hp]
        exact h.frame rfl rfl
      · rintro ⟨-, e, rest, he, -⟩
        simp [hp] at he
    | cons e rest =>
      cases hstate : (s.jobs[e.future]?).map Job.state with
      | none =>
        apply hskip
        refine ⟨?_, ?_⟩
        · simp only [Scheduler.finalize, hp, hstate]
          exact h
        · rintro ⟨-, e', rest', he, hf⟩
          rw [hp, Phase.finalizing.injEq, List.cons.injEq] at he
          rw [← he.1, hstate] at hf
          cases hf
      | some state =>
        by_cases hfin : state = .finished
        · subst hfin
          cases hg : s.gate with
          | none =>
            refine ⟨fun _ hf => by simp [Finalizes, hg] at hf, fun _ => ?_⟩
            simp only [Scheduler.finalize, hp, hstate, hg, Option.isSome_none]
            exact h.frame rfl rfl
          | some g =>
            have hres : s.finalize = { s.noteDone e.future with
                inflightStoreFutures := s.inflightStoreFutures.erase e.requestId
                phase := .finalizing rest } := by
              simp only [Scheduler.finalize, hp, hstate, hg, Option.isSome_some, if_true]
            rw [hres]
            have hcount := h.count g hg
            have hgate : (s.noteDone e.future).gate = some g.noteDone := by
              simp only [Scheduler.noteDone, hg, Option.map_some]
            constructor
            · intro hc _
              have := hc.count g.noteDone hgate
              have hslots : Scheduler.slots { s.noteDone e.future with
                  inflightStoreFutures := s.inflightStoreFutures.erase e.requestId
                  phase := .finalizing rest } = s.slots := rfl
              rw [hslots, StoreCacheGate.noteDone] at this
              split at this
              · dsimp only at this
                omega
              · omega
            · intro hz
              have hzero := hz ⟨by simp [hg], e, rest, hp, hstate⟩
              refine ⟨fun g' hg' => ?_, h.noted⟩
              have hsame : g.noteDone = g' := Option.some.inj (hgate.symm.trans hg')
              rw [← hsame, StoreCacheGate.noteDone, if_neg (by omega)]
              exact hcount
        · apply hskip
          refine ⟨?_, ?_⟩
          · simp only [Scheduler.finalize, hp, hstate]
            cases state with
            | finished => exact absurd rfl hfin
            | cancelled => exact h.frame rfl rfl
            | pending => exact h
            | running => exact h
          · rintro ⟨-, e', rest', he, hf⟩
            rw [hp, Phase.finalizing.injEq, List.cons.injEq] at he
            rw [← he.1, hstate, Option.some.injEq] at hf
            exact hfin hf
  | idle =>
    apply hskip
    refine ⟨?_, ?_⟩
    · simp only [Scheduler.finalize, hp]
      exact h
    · rintro ⟨-, e, rest, he, -⟩
      rw [hp] at he
      cases he
  | attaching e queued =>
    apply hskip
    refine ⟨?_, ?_⟩
    · simp only [Scheduler.finalize, hp]
      exact h
    · rintro ⟨-, e, rest, he, -⟩
      rw [hp] at he
      cases he
  | checking now todo done remaining =>
    apply hskip
    refine ⟨?_, ?_⟩
    · simp only [Scheduler.finalize, hp]
      exact h
    · rintro ⟨-, e, rest, he, -⟩
      rw [hp] at he
      cases he

theorem Counted.submit (h : Counted s) (r : String) (uid : Option Nat) :
    Counted (s.submit r uid) := by
  simp only [Scheduler.submit]
  split
  · constructor
    · intro g hg
      obtain ⟨g', hg', rfl⟩ := Option.map_eq_some_iff.mp hg
      have hcount := h.count g' hg'
      simp only [Scheduler.slots, List.countP_append, hg', Option.isSome_some] at *
      rw [StoreCacheGate.noteSubmitted, hcount]
      rfl
    · intro j hj hn
      simp only [List.mem_append, List.mem_singleton] at hj
      cases hj with
      | inl hj => exact h.noted j hj hn
      | inr hj =>
        subst hj
        cases hn
  · exact h

/-- A refused job gives back the slot it took. -/
theorem Counted.submitRefused (h : Counted s) : Counted s.submitRefused := by
  simp only [Scheduler.submitRefused]
  split
  · have hback : ∀ g : StoreCacheGate, g.noteSubmitted.noteDone = g := by
      intro g
      simp [StoreCacheGate.noteSubmitted, StoreCacheGate.noteDone]
    simp only [hback, Option.map_id']
    exact h
  · exact h

theorem Counted.attach (h : Counted s) : Counted s.attach := by
  simp only [Scheduler.attach]
  split
  · next e queued _ =>
    have hframe : Counted { s with
        inflightStoreFutures := s.inflightStoreFutures.set e.requestId e.future
        pendingAsyncRemoves :=
          if queued then s.pendingAsyncRemoves ++ [e] else s.pendingAsyncRemoves
        phase := .idle } := h.frame rfl rfl
    split
    · exact hframe
    · next j hj =>
      split
      · next hdone => exact hframe.runCallback hj rfl hdone
      · exact hframe.setJob hj rfl (h.noted j (List.mem_of_getElem? hj))
  · exact h

theorem Counted.drain (h : Counted s) (now : Nat) : Counted (s.drain now) := by
  simp only [Scheduler.drain]
  split
  · split
    · exact h.frame rfl rfl
    · exact h.frame rfl rfl
  · exact h

theorem Counted.check (h : Counted s) : Counted s.check := by
  simp only [Scheduler.check]
  split
  · exact h.frame rfl rfl
  · split
    · exact h.frame rfl rfl
    · split
      · next now e _ _ _ _ _ _ =>
        have hseen : Counted { s with
            pendingSince := if (s.pendingSince.get? e.uid).isNone then s.pendingSince.set e.uid now
              else s.pendingSince } := h.frame rfl rfl
        have hcancelled := hseen.cancel e.future
        exact hcancelled.frame rfl rfl
      · exact h.frame rfl rfl
  · exact h

/-- The worker moves a job on before its callback can have run. -/
theorem Counted.start (h : Counted s) (n : Nat) : Counted (s.start n) := by
  simp only [Scheduler.start]
  split
  · exact h
  · next j hj =>
    split
    · next hp =>
      have hnew : ¬ j.noted = true := by
        intro hn
        have hdone := h.noted j (List.mem_of_getElem? hj) hn
        simp [Job.done, hp] at hdone
      exact h.setJob hj rfl (fun hn => absurd hn hnew)
    · exact h

theorem Counted.finish (h : Counted s) (n : Nat) : Counted (s.finish n) := by
  simp only [Scheduler.finish]
  split
  · exact h
  · next j hj =>
    split
    · exact h.setJob hj rfl (fun _ => rfl)
    · exact h

theorem Counted.callback (h : Counted s) (n : Nat) : Counted (s.callback n) := by
  simp only [Scheduler.callback]
  split
  · exact h
  · next j hj =>
    split
    · next hdone => exact h.runCallback hj rfl hdone
    · exact h

theorem Counted.setCap (h : Counted s) (cap : Int) : Counted (s.setCap cap) := by
  refine ⟨fun g hg => ?_, h.noted⟩
  obtain ⟨g', hg', rfl⟩ := Option.map_eq_some_iff.mp hg
  exact h.count g' hg'

/-- Where a drained removal of a finished job is finalized under a gate, no job holds a slot. -/
def DrainsEmpty (s : Scheduler) (e : Event) : Prop := e = .finalize → Finalizes s → s.slots = 0

theorem Counted.next (h : Counted s) {e : Event} (he : DrainsEmpty s e) : Counted (next s e) := by
  cases e with
  | submit r uid => exact h.submit r uid
  | submitRefused => exact h.submitRefused
  | attach => exact h.attach
  | drain now => exact h.drain now
  | check => exact h.check
  | finalize => exact (finalize_counted_iff h).mpr (he rfl)
  | reset =>
    simp only [StoreGate.next, Scheduler.reset]
    split
    · exact h.frame rfl rfl
    · exact h
  | dropGate =>
    simp only [StoreGate.next, Scheduler.dropGate]
    split
    · exact ⟨fun _ hg => (Option.some_ne_none _ hg.symm).elim, h.noted⟩
    · exact h
  | start n => exact h.start n
  | finish n => exact h.finish n
  | callback n => exact h.callback n
  | cancel n => exact h.cancel n
  | setCap cap => exact h.setCap cap

theorem Counted.init (cap : Int) : Counted (.init cap) := by
  constructor
  · intro g hg
    cases hg
    rfl
  · intro j hj
    cases hj

/-- The gate is exact: it counts the jobs that have not finished, and until their callbacks run
those that have; it has no capacity left when they reach the cap. -/
def Exact (s : Scheduler) : Prop :=
  ∀ g, s.gate = some g → g.inFlight = s.unfinished + s.callbacksDue ∧
    (g.inFlight = s.unfinished ↔ s.callbacksDue = 0) ∧
    (g.hasCapacity = true → s.unfinished + s.callbacksDue < g.cap)

theorem Counted.exact (h : Counted s) : Exact s := by
  intro g hg
  have hcount : g.inFlight = s.unfinished + s.callbacksDue := by
    rw [h.count g hg, h.split]
  refine ⟨hcount, by omega, fun hc => ?_⟩
  rw [← hcount]
  simpa [StoreCacheGate.hasCapacity] using hc

/-- A job is noted done once its callback has run, once, and not before. -/
def NotedOnce (s : Scheduler) : Prop :=
  ∀ n, s.doneNotes.count n = if (s.jobs[n]?).any Job.noted then 1 else 0

namespace NotedOnce

theorem frame {s' : Scheduler} (h : NotedOnce s) (hj : s'.jobs = s.jobs)
    (hd : s'.doneNotes = s.doneNotes) : NotedOnce s' := by
  intro n
  rw [hd, hj]
  exact h n

/-- Rewriting a job whose callback has run, or not, as before. -/
theorem setJob {n : Nat} {j j' : Job} (h : NotedOnce s) (hj : s.jobs[n]? = some j)
    (hnoted : j'.noted = j.noted) : NotedOnce (s.setJob n j') := by
  intro m
  have hm := h m
  rw [Scheduler.setJob, hm, List.getElem?_set]
  obtain ⟨hn, hget⟩ := List.getElem?_eq_some_iff.mp hj
  by_cases hmn : n = m
  · subst hmn
    simp [hn, hget, hnoted]
  · rw [if_neg hmn]

theorem runCallback {n : Nat} {j j' : Job} (h : NotedOnce s) (hj : s.jobs[n]? = some j)
    (hnoted : j'.noted = j.noted) : NotedOnce (s.runCallback n j') := by
  simp only [Scheduler.runCallback]
  split
  · next hc =>
    have hfresh : j.noted = false := by
      have := hc.1
      simp only [Job.holdsSlot, Bool.and_eq_true, Bool.not_eq_true'] at this
      rw [← hnoted, this.2]
    obtain ⟨hn, hget⟩ := List.getElem?_eq_some_iff.mp hj
    intro m
    have hm := h m
    simp only [Scheduler.noteDone, Scheduler.setJob, List.count_append, List.getElem?_set, hm]
    by_cases hmn : n = m
    · subst hmn
      simp [hn, hget, hfresh]
    · simp [hmn]
  · exact h.setJob hj hnoted

theorem cancel (h : NotedOnce s) (n : Nat) : NotedOnce (s.cancel n) := by
  simp only [Scheduler.cancel]
  split
  · exact h
  · next j hj =>
    split
    · exact h.runCallback hj rfl
    · exact h

theorem submit (h : NotedOnce s) (r : String) (uid : Option Nat) : NotedOnce (s.submit r uid) := by
  simp only [Scheduler.submit]
  split
  · intro m
    have hm := h m
    dsimp only
    rw [hm, List.getElem?_append]
    by_cases hlt : m < s.jobs.length
    · rw [if_pos hlt]
    · rw [if_neg hlt, List.getElem?_eq_none (Nat.le_of_not_lt hlt)]
      rcases Nat.eq_zero_or_pos (m - s.jobs.length) with hz | hpos
      · rw [hz]
        rfl
      · rw [List.getElem?_eq_none (by simpa using Nat.succ_le_of_lt hpos)]
  · exact h

theorem attach (h : NotedOnce s) : NotedOnce s.attach := by
  simp only [Scheduler.attach]
  split
  · next e queued _ =>
    have hframe : NotedOnce { s with
        inflightStoreFutures := s.inflightStoreFutures.set e.requestId e.future
        pendingAsyncRemoves :=
          if queued then s.pendingAsyncRemoves ++ [e] else s.pendingAsyncRemoves
        phase := .idle } := h.frame rfl rfl
    split
    · exact hframe
    · next j hj =>
      split
      · exact hframe.runCallback hj rfl
      · exact hframe.setJob hj rfl
  · exact h

theorem check (h : NotedOnce s) : NotedOnce s.check := by
  simp only [Scheduler.check]
  split
  · exact h.frame rfl rfl
  · split
    · exact h.frame rfl rfl
    · split
      · next now e _ _ _ _ _ _ =>
        have hseen : NotedOnce { s with
            pendingSince := if (s.pendingSince.get? e.uid).isNone then s.pendingSince.set e.uid now
              else s.pendingSince } := h.frame rfl rfl
        exact (hseen.cancel e.future).frame rfl rfl
      · exact h.frame rfl rfl
  · exact h

/-- Only a drained removal notes a job done beside its callback. -/
theorem finalize (h : NotedOnce s) (hf : ¬ Finalizes s) : NotedOnce s.finalize := by
  unfold Scheduler.finalize
  split
  · exact h.frame rfl rfl
  · next e rest hp =>
    split
    · exact h.frame rfl rfl
    · next hfin =>
      have hgate : s.gate.isSome = false := by
        rw [← Bool.not_eq_true]
        exact fun hg => hf ⟨hg, e, rest, hp, hfin⟩
      rw [if_neg (by simp [hgate])]
      exact h.frame rfl rfl
    · exact h
  · exact h

end NotedOnce

/-- No removal of a finished job is finalized under a gate. -/
def DrainsNone (s : Scheduler) (e : Event) : Prop := e = .finalize → ¬ Finalizes s

theorem NotedOnce.next (h : NotedOnce s) {e : Event} (he : DrainsNone s e) :
    NotedOnce (next s e) := by
  cases e with
  | submit r uid => exact h.submit r uid
  | attach => exact h.attach
  | check => exact h.check
  | finalize => exact h.finalize (he rfl)
  | cancel n => exact h.cancel n
  | submitRefused =>
    simp only [StoreGate.next, Scheduler.submitRefused]
    split
    · exact h.frame rfl rfl
    · exact h
  | drain now =>
    simp only [StoreGate.next, Scheduler.drain]
    split
    · split
      · exact h.frame rfl rfl
      · exact h.frame rfl rfl
    · exact h
  | reset =>
    simp only [StoreGate.next, Scheduler.reset]
    split
    · exact h.frame rfl rfl
    · exact h
  | dropGate =>
    simp only [StoreGate.next, Scheduler.dropGate]
    split
    · exact h.frame rfl rfl
    · exact h
  | start n =>
    simp only [StoreGate.next, Scheduler.start]
    split
    · exact h
    · next j hj =>
      split
      · exact h.setJob hj rfl
      · exact h
  | finish n =>
    simp only [StoreGate.next, Scheduler.finish]
    split
    · exact h
    · next j hj =>
      split
      · exact h.setJob hj rfl
      · exact h
  | callback n =>
    simp only [StoreGate.next, Scheduler.callback]
    split
    · exact h
    · next j hj =>
      split
      · exact h.runCallback hj rfl
      · exact h
  | setCap cap => exact h.frame rfl rfl

/-- Along every run whose drains find no slot taken, the gate is exact; along every run whose drains
finalize no finished job, each job is noted done once as well. -/
theorem gate_exact :
    (Reached (fun s => ∃ cap, s = .init cap) DrainsEmpty next s → Exact s) ∧
      (Reached (fun s => ∃ cap, s = .init cap) DrainsNone next s → Exact s ∧ NotedOnce s) := by
  have hcounted : Reached (fun s => ∃ cap, s = .init cap) DrainsEmpty next s → Exact s := by
    intro h
    refine Counted.exact (h.invariant ?_ fun s e _ hs he => hs.next he)
    rintro _ ⟨cap, rfl⟩
    exact .init cap
  refine ⟨hcounted, fun h => ⟨hcounted ?_, h.invariant ?_ fun s e _ hs he => hs.next he⟩⟩
  · exact h.mono fun s e he hfin hf => absurd hf (he hfin)
  · rintro _ ⟨cap, rfl⟩ n
    rfl

def quietRun : List Event :=
  [.submit "a" (some 0), .attach, .start 0, .finish 0, .callback 0, .drain 5, .check, .check,
    .finalize, .finalize, .submit "b" (some 1), .attach]

def stuckRun : List Event :=
  [.submit "a" (some 0), .attach, .drain 5, .check, .check, .submit "b" none, .attach, .start 1,
    .finish 1, .callback 1, .drain 200, .check, .check, .finalize, .submit "c" (some 2)]

theorem gate_exact_quiet :
    Exact (runList next (.init 1) quietRun) ∧
      Exact (runList next (.init 1) stuckRun) ∧ NotedOnce (runList next (.init 1) stuckRun) := by
  refine ⟨gate_exact.1 (Reached.runList (.start ⟨1, rfl⟩) ?_),
    gate_exact.2 (Reached.runList (.start ⟨1, rfl⟩) ?_)⟩
  · have hempty : ∀ s : Scheduler, s.slots = 0 → DrainsEmpty s .finalize := fun s hs _ _ => hs
    have hother : ∀ (s : Scheduler) (e : Event), e ≠ .finalize → DrainsEmpty s e :=
      fun s e hne he => absurd he hne
    refine ⟨hother _ _ nofun, hother _ _ nofun, hother _ _ nofun, hother _ _ nofun,
      hother _ _ nofun, hother _ _ nofun, hother _ _ nofun, hother _ _ nofun, hempty _ ?_,
      hempty _ ?_, hother _ _ nofun, hother _ _ nofun, trivial⟩
    · decide +kernel
    · decide +kernel
  · have hother : ∀ (s : Scheduler) (e : Event), e ≠ .finalize → DrainsNone s e :=
      fun s e hne he => absurd he hne
    refine ⟨hother _ _ nofun, hother _ _ nofun, hother _ _ nofun, hother _ _ nofun,
      hother _ _ nofun, hother _ _ nofun, hother _ _ nofun, hother _ _ nofun, hother _ _ nofun,
      hother _ _ nofun, hother _ _ nofun, hother _ _ nofun, hother _ _ nofun, ?_,
      hother _ _ nofun, trivial⟩
    rintro - ⟨-, e, rest, hphase, hfin⟩
    obtain ⟨rfl, -⟩ := List.cons.inj (Phase.finalizing.inj hphase)
    cases hfin

def crossingRun : List Event :=
  [.submit "a" (some 0), .attach, .submit "b" (some 1), .attach, .setCap 1, .start 0, .finish 0,
    .callback 0, .drain 5, .check, .check, .check, .finalize]

/-- The first job is noted done by its callback and by the drain, so the second is not counted:
the gate has room for another job though the one in flight reaches the cap. -/
theorem drain_notes_twice :
    (¬ ∀ s, Reached (fun s => ∃ cap, s = Scheduler.init cap) (fun _ _ => True) next s → Exact s) ∧
      (runList next (.init 2) crossingRun).doneNotes = [0, 0] := by
  refine ⟨fun hall => ?_, rfl⟩
  have hrun : Reached (fun s => ∃ cap, s = Scheduler.init cap) (fun _ _ => True) next
      (runList next (.init 2) crossingRun) := by
    apply Reached.runList (.start ⟨2, rfl⟩)
    simp only [crossingRun, AllOk, and_self]
  have hgate : (runList next (.init 2) crossingRun).gate = some ⟨1, 0⟩ := rfl
  have hone : (runList next (.init 2) crossingRun).unfinished = 1 := by decide +kernel
  have hcount := (hall _ hrun ⟨1, 0⟩ hgate).1
  rw [hone] at hcount
  dsimp only at hcount
  omega

end FusionMlx.StoreGate
