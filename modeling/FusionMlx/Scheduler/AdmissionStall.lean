import FusionMlx.Scheduler.StoreGate
import FusionMlx.Support.Histories

/-!
# Admission stalls

The waiting queue and the two stall timers of the admission loop. A timer is a
field of the scheduler, not of a request: it is started for the head of the
queue, and it runs on while requests come, go and rotate. One event is one
round of the loop in `_schedule_waiting`; what a round reads from outside (the
clock, the gate, the memory in use, what becomes of an admitted request) comes
with it. The clock counts nanoseconds.
-/
namespace FusionMlx.AdmissionStall

open StoreGate (StoreCacheGate)

structure Request where
  requestId : String
  priority : Int := 0
  arrivalTime : Nat := 0
  numPromptTokens : Nat := 0
  cachedTokens : Nat := 0
  admitTime : Nat := 0

def Request.before (r r' : Request) : Bool :=
  if r.priority ≠ r'.priority then r.priority < r'.priority else r.arrivalTime < r'.arrivalTime

structure RequestOutput where
  requestId : String
  finished : Bool
  finishReason : String
  error : String
  errorCode : Option String
  errorMetadata : List (String × Nat)

structure Blocker where
  requestId : Option String := none
  since : Nat := 0

def stallTimeout : Nat := 60000000000

def reorderGrace : Nat := 10000000000

def agingPromote : Nat := 30000000000

namespace Blocker

def start (b : Blocker) (id : String) (now : Nat) : Blocker :=
  if b.requestId.isNone then ⟨some id, now⟩ else b

def expired (b : Blocker) (now : Nat) : Bool := b.requestId.isSome && now - b.since ≥ stallTimeout

end Blocker

structure Scheduler where
  waiting : List Request := []
  requests : List String := []
  memoryTimer : Blocker := {}
  storeTimer : Blocker := {}

inductive Refusal where
  | emptyPrompt
  | prefillMemoryExceeded (message : String) (estimated limit : Nat)
  | prefillFailed (message : String)

inductive Admission where
  | deferred
  | taken
  | refused (why : Refusal)

structure Probe where
  admitted : Nat
  maxSeqs : Nat
  batchedTokens : Nat
  maxBatchedTokens : Nat
  paused : Bool
  busy : Bool
  gate : Option StoreCacheGate
  pendingAsyncRemoves : Nat
  now : Nat
  memoryGuard : Bool
  limit : Nat
  current : Nat
  peak : Nat → Nat
  priorityPolicy : Bool
  agingNow : Nat
  admission : Admission

inductive Verdict where
  | stop
  | again (out : Option RequestOutput)

def stallOutput (code : String) (r : Request) (metadata : String × Nat) : RequestOutput where
  requestId := r.requestId
  finished := true
  finishReason := "error"
  error := code
  errorCode := some code
  errorMetadata := [metadata]

def refusalOutput (r : Request) : Refusal → RequestOutput
  | .emptyPrompt => ⟨r.requestId, true, "error", "empty_prompt", some "empty_prompt", []⟩
  | .prefillMemoryExceeded message estimated limit =>
    ⟨r.requestId, true, "error", message, some "prefill_memory_exceeded",
      [("estimated_bytes", estimated), ("limit_bytes", limit)]⟩
  | .prefillFailed message => ⟨r.requestId, true, "error", message, none, []⟩

namespace Probe

/-- The guards of the loop: the running set is full, the token budget is spent, or admission is
paused while a request is in flight. -/
def closed (p : Probe) : Bool :=
  !decide (p.admitted < p.maxSeqs) || decide (p.batchedTokens ≥ p.maxBatchedTokens) ||
    p.paused && p.busy

def gateFull (p : Probe) : Bool := p.gate.any (fun g => !g.hasCapacity)

def cleanupsFull (p : Probe) : Bool := p.gate.any (fun g => p.pendingAsyncRemoves ≥ g.cap)

def guarded (p : Probe) : Bool := p.memoryGuard && decide (p.limit > 0)

def estimatePrefillPeak (p : Probe) (newTokens : Nat) : Nat :=
  if newTokens = 0 then 0 else p.peak newTokens

def fits (p : Probe) (r : Request) : Bool :=
  !decide (p.current + p.estimatePrefillPeak (r.numPromptTokens - r.cachedTokens) > p.limit)

end Probe

namespace Scheduler

def storeStall (s : Scheduler) (p : Probe) (head : Request) (tail : List Request) :
    Scheduler × Verdict :=
  if s.storeTimer.expired p.now then
    ({ s with
      waiting := tail
      requests := s.requests.erase head.requestId
      storeTimer := {} },
      .again (some (stallOutput "store_cache_admission_stalled" head
        ("store_cache_in_flight", (p.gate.map StoreCacheGate.inFlight).getD 0))))
  else ({ s with storeTimer := s.storeTimer.start head.requestId p.now }, .stop)

def memoryStall (s : Scheduler) (p : Probe) : Scheduler × Verdict :=
  match s.waiting.find? (fun r => s.memoryTimer.requestId = some r.requestId) with
  | none => ({ s with memoryTimer := {} }, .again none)
  | some r =>
    ({ s with
      waiting := s.waiting.eraseP (fun r => s.memoryTimer.requestId = some r.requestId)
      requests := s.requests.erase r.requestId
      memoryTimer := {} },
      .again (some (stallOutput "memory_admission_stalled" r ("memory_limit_bytes", p.limit))))

def memoryBlocked (s : Scheduler) (p : Probe) (head : Request) (tail : List Request) :
    Scheduler × Verdict :=
  let stalledFor := p.now - (if s.memoryTimer.since = 0 then p.now else s.memoryTimer.since)
  ({ s with
    waiting := if tail ≠ [] ∧ stalledFor ≥ reorderGrace then tail ++ [head] else head :: tail
    memoryTimer := s.memoryTimer.start head.requestId p.now }, .stop)

def oldest (now : Nat) : List Request → Nat → Nat × Nat → Nat × Nat
  | [], _, best => best
  | r :: rest, i, best =>
    oldest now rest (i + 1) (if now - r.admitTime > best.2 then (i, now - r.admitTime) else best)

def promote (p : Probe) : List Request → List Request
  | [] => []
  | head :: tail =>
    let headWait := p.agingNow - head.admitTime
    if p.priorityPolicy ∧ tail ≠ [] ∧ headWait < agingPromote then
      let (i, wait) := oldest p.agingNow tail 1 (0, headWait)
      if i > 0 ∧ wait ≥ agingPromote then
        ((head :: tail)[i]?).toList ++ (head :: tail).eraseIdx i
      else head :: tail
    else head :: tail

def admitHead (s : Scheduler) (p : Probe) : Scheduler × Verdict :=
  match promote p s.waiting with
  | [] => (s, .stop)
  | head :: tail =>
    match p.admission with
    | .deferred => ({ s with waiting := head :: tail }, .stop)
    | .taken => ({ s with waiting := tail }, .again none)
    | .refused why =>
      ({ s with
        waiting := tail
        requests := s.requests.erase head.requestId }, .again (some (refusalOutput head why)))

def pastGate (s : Scheduler) (p : Probe) (head : Request) (tail : List Request) :
    Scheduler × Verdict :=
  if p.cleanupsFull then (s, .stop)
  else if p.guarded then
    if s.memoryTimer.expired p.now then s.memoryStall p
    else if p.fits head then admitHead { s with memoryTimer := {} } p
    else s.memoryBlocked p head tail
  else s.admitHead p

def round (s : Scheduler) (p : Probe) : Scheduler × Verdict :=
  match s.waiting with
  | [] => (s, .stop)
  | head :: tail =>
    if p.closed then (s, .stop)
    else if p.gateFull then s.storeStall p head tail
    else if p.gate.isSome then pastGate { s with storeTimer := {} } p head tail
    else s.pastGate p head tail

def addRequest (s : Scheduler) (priorityPolicy : Bool) (r : Request) : Scheduler :=
  if r.requestId ∈ s.requests then s
  else { s with
    requests := s.requests ++ [r.requestId]
    waiting :=
      if priorityPolicy then
        s.waiting.takeWhile (fun r' => !r.before r') ++
          r :: s.waiting.dropWhile (fun r' => !r.before r')
      else s.waiting ++ [r] }

def abort (s : Scheduler) (id : String) : Scheduler :=
  if id ∈ s.requests then
    { s with
      waiting := s.waiting.eraseP (fun r => r.requestId = id)
      requests := s.requests.erase id }
  else s

def requeue (s : Scheduler) (front : Bool) (r : Request) : Scheduler :=
  { s with waiting := if front then r :: s.waiting else s.waiting ++ [r] }

def finish (s : Scheduler) (id : String) : Scheduler :=
  { s with requests := s.requests.erase id }

/-- `fail_all_requests`; the requests whose store job is in flight stay. `reset` leaves none. -/
def failAll (s : Scheduler) (inflight : List String) : Scheduler :=
  { s with waiting := [], requests := s.requests.filter (fun id => id ∈ inflight) }

end Scheduler

inductive Event where
  | round (p : Probe)
  | addRequest (priorityPolicy : Bool) (r : Request)
  | abort (id : String)
  | requeue (front : Bool) (r : Request)
  | finish (id : String)
  | failAll (inflight : List String)

def next (s : Scheduler) : Event → Scheduler
  | .round p => (s.round p).1
  | .addRequest priorityPolicy r => s.addRequest priorityPolicy r
  | .abort id => s.abort id
  | .requeue front r => s.requeue front r
  | .finish id => s.finish id
  | .failAll inflight => s.failAll inflight

/-- The round gets as far as the gate, with `r` at the head. -/
structure Attempts (s : Scheduler) (p : Probe) (r : Request) : Prop where
  head : s.waiting.head? = some r
  opened : p.closed = false

/-- The round gets as far as the memory guard, with `r` at the head. -/
structure Reaches (s : Scheduler) (p : Probe) (r : Request) : Prop extends Attempts s p r where
  room : p.gateFull = false
  cleanups : p.cleanupsFull = false
  guarded : p.guarded = true

/-- The memory guard measures the head `r` and finds that it does not fit. -/
def MemoryBlocks (s : Scheduler) (p : Probe) (r : Request) : Prop :=
  Reaches s p r ∧ s.memoryTimer.expired p.now = false ∧ p.fits r = false

/-- The head `r` finds the gate full, and the timer has not run out. -/
def GateBlocks (s : Scheduler) (p : Probe) (r : Request) : Prop :=
  Attempts s p r ∧ p.gateFull = true ∧ s.storeTimer.expired p.now = false

variable {s : Scheduler} {p : Probe} {r : Request} {out : RequestOutput}

namespace Scheduler

theorem admitHead_timers (s : Scheduler) (p : Probe) :
    (s.admitHead p).1.memoryTimer = s.memoryTimer ∧ (s.admitHead p).1.storeTimer = s.storeTimer := by
  unfold admitHead
  split
  · exact ⟨rfl, rfl⟩
  · split <;> exact ⟨rfl, rfl⟩

/-- No refusal carries a stall code. -/
theorem admitHead_errorCode (h : (s.admitHead p).2 = .again (some out)) :
    out.errorCode ≠ some "memory_admission_stalled" ∧
      out.errorCode ≠ some "store_cache_admission_stalled" := by
  unfold admitHead at h
  split at h
  · cases h
  · split at h
    · cases h
    · cases h
    · next why _ =>
      cases h
      cases why <;> simp [refusalOutput]

theorem memoryStall_timers (s : Scheduler) (p : Probe) :
    (s.memoryStall p).1.memoryTimer = {} ∧ (s.memoryStall p).1.storeTimer = s.storeTimer := by
  unfold memoryStall
  split <;> exact ⟨rfl, rfl⟩

theorem pastGate_memoryTimer (s : Scheduler) (p : Probe) (head : Request) (tail : List Request) :
    (s.pastGate p head tail).1.memoryTimer =
      if p.cleanupsFull = false ∧ p.guarded = true then
        if s.memoryTimer.expired p.now = true ∨ p.fits head = true then {}
        else s.memoryTimer.start head.requestId p.now
      else s.memoryTimer := by
  unfold pastGate
  by_cases hc : p.cleanupsFull = true
  · simp [hc]
  · by_cases hg : p.guarded = true
    · by_cases he : s.memoryTimer.expired p.now = true
      · simp [hc, hg, he, (s.memoryStall_timers p).1]
      · by_cases hf : p.fits head = true
        · simp [hc, hg, he, hf, (admitHead_timers _ p).1]
        · simp [hc, hg, he, hf, memoryBlocked]
    · simp [hc, hg, (s.admitHead_timers p).1]

theorem pastGate_storeTimer (s : Scheduler) (p : Probe) (head : Request) (tail : List Request) :
    (s.pastGate p head tail).1.storeTimer = s.storeTimer := by
  unfold pastGate
  split
  · rfl
  · split
    · split
      · exact (s.memoryStall_timers p).2
      · split
        · exact (admitHead_timers _ p).2
        · rfl
    · exact (s.admitHead_timers p).2

/-- What a round does to the memory timer: it is started, kept or stopped by a measurement, and
stopped once it has run out. -/
theorem round_memoryTimer (h : Reaches s p r) :
    (s.round p).1.memoryTimer =
      if s.memoryTimer.expired p.now = true ∨ p.fits r = true then {}
      else s.memoryTimer.start r.requestId p.now := by
  obtain ⟨head, hw⟩ : ∃ tail, s.waiting = r :: tail := List.head?_eq_some_iff.mp h.head
  simp only [round, hw, h.opened, h.room, Bool.false_eq_true, if_false]
  split <;> rw [pastGate_memoryTimer, if_pos ⟨h.cleanups, h.guarded⟩]

theorem round_memoryTimer_of_not_reaches (h : ∀ r, ¬ Reaches s p r) :
    (s.round p).1.memoryTimer = s.memoryTimer := by
  unfold round
  split
  · rfl
  · next head tail hw =>
    split
    · rfl
    · next hc =>
      split
      · unfold storeStall
        split <;> rfl
      · next hf =>
        have hstop : ¬ (p.cleanupsFull = false ∧ p.guarded = true) := by
          intro hg
          apply h head
          exact ⟨⟨by simp [hw], by simpa using hc⟩, by simpa using hf, hg.1, hg.2⟩
        split <;> rw [pastGate_memoryTimer, if_neg hstop]

/-- What a round does to the store-cache timer. -/
theorem round_storeTimer (h : Attempts s p r) :
    (s.round p).1.storeTimer =
      if p.gateFull = true then
        if s.storeTimer.expired p.now = true then {} else s.storeTimer.start r.requestId p.now
      else if p.gate.isSome = true then {} else s.storeTimer := by
  obtain ⟨head, hw⟩ : ∃ tail, s.waiting = r :: tail := List.head?_eq_some_iff.mp h.head
  simp only [round, hw, h.opened, Bool.false_eq_true, if_false]
  split
  · unfold storeStall
    split <;> rfl
  · split <;> exact pastGate_storeTimer _ _ _ _

theorem round_storeTimer_of_not_attempts (h : ∀ r, ¬ Attempts s p r) :
    (s.round p).1.storeTimer = s.storeTimer := by
  unfold round
  split
  · rfl
  · next head tail hw =>
    split
    · rfl
    · next hc => exact absurd ⟨by simp [hw], by simpa using hc⟩ (h head)

theorem memoryStall_out (h : (s.memoryStall p).2 = .again (some out)) :
    s.memoryTimer.requestId = some out.requestId ∧
      out.errorCode = some "memory_admission_stalled" := by
  unfold memoryStall at h
  split at h
  · cases h
  · next r hr =>
    cases h
    have hid : s.memoryTimer.requestId = some r.requestId := by simpa using List.find?_some hr
    exact ⟨hid, rfl⟩

theorem pastGate_memory_error {head : Request} {tail : List Request}
    (h : (s.pastGate p head tail).2 = .again (some out))
    (hcode : out.errorCode = some "memory_admission_stalled") :
    p.cleanupsFull = false ∧ p.guarded = true ∧ s.memoryTimer.expired p.now = true ∧
      s.memoryTimer.requestId = some out.requestId := by
  unfold pastGate at h
  split at h
  · cases h
  · next hc =>
    split at h
    · next hg =>
      split at h
      · next he => exact ⟨by simpa using hc, hg, he, (memoryStall_out h).1⟩
      · split at h
        · exact absurd hcode (admitHead_errorCode h).1
        · cases h
    · exact absurd hcode (admitHead_errorCode h).1

theorem pastGate_not_store_error {head : Request} {tail : List Request}
    (h : (s.pastGate p head tail).2 = .again (some out)) :
    out.errorCode ≠ some "store_cache_admission_stalled" := by
  unfold pastGate at h
  split at h
  · cases h
  · split at h
    · split at h
      · rw [(memoryStall_out h).2]
        decide
      · split at h
        · exact (admitHead_errorCode h).2
        · cases h
    · exact (admitHead_errorCode h).2

/-- The memory error goes to the request the timer was started for, once the timer has run out. -/
theorem round_memory_error (h : (s.round p).2 = .again (some out))
    (hcode : out.errorCode = some "memory_admission_stalled") :
    s.memoryTimer.expired p.now = true ∧ s.memoryTimer.requestId = some out.requestId := by
  unfold round at h
  split at h
  · cases h
  · split at h
    · cases h
    · split at h
      · unfold storeStall at h
        split at h
        · cases h
          simp [stallOutput] at hcode
        · cases h
      · split at h <;> exact (pastGate_memory_error h hcode).2.2

/-- The store-cache error is given at a full gate once the timer has run out. -/
theorem round_store_error (h : (s.round p).2 = .again (some out))
    (hcode : out.errorCode = some "store_cache_admission_stalled") :
    p.gateFull = true ∧ s.storeTimer.expired p.now = true := by
  unfold round at h
  split at h
  · cases h
  · split at h
    · cases h
    · split at h
      · next hf =>
        unfold storeStall at h
        split at h
        · next he => exact ⟨hf, he⟩
        · cases h
      · split at h <;> exact absurd hcode (pastGate_not_store_error h)

theorem memoryStall_found {w : Request} (hw : w ∈ s.waiting)
    (hid : s.memoryTimer.requestId = some w.requestId) :
    ∃ out, (s.memoryStall p).2 = .again (some out) ∧ out.requestId = w.requestId ∧
      out.errorCode = some "memory_admission_stalled" := by
  unfold memoryStall
  split
  · next hnone => simpa [hid] using List.find?_eq_none.mp hnone w hw
  · next found hfound =>
    have hsame : s.memoryTimer.requestId = some found.requestId := by
      simpa using List.find?_some hfound
    rw [hid, Option.some.injEq] at hsame
    exact ⟨_, rfl, hsame.symm, rfl⟩

/-- A round that gets to the memory guard with the timer run out rejects the timed request. -/
theorem round_memory_expired {w : Request} (h : Reaches s p r)
    (he : s.memoryTimer.expired p.now = true) (hw : w ∈ s.waiting)
    (hid : s.memoryTimer.requestId = some w.requestId) :
    ∃ out, (s.round p).2 = .again (some out) ∧ out.requestId = w.requestId ∧
      out.errorCode = some "memory_admission_stalled" := by
  obtain ⟨tail, hwait⟩ : ∃ tail, s.waiting = r :: tail := List.head?_eq_some_iff.mp h.head
  simp only [round, hwait, h.opened, h.room, Bool.false_eq_true, if_false, pastGate, h.cleanups,
    h.guarded, if_true, he]
  split
  · exact memoryStall_found (by simpa [hwait] using hw) hid
  · exact memoryStall_found hw hid

/-- A round that finds the gate full with the timer run out rejects a waiting request. -/
theorem round_store_expired (h : Attempts s p r) (hf : p.gateFull = true)
    (he : s.storeTimer.expired p.now = true) :
    ∃ out, (s.round p).2 = .again (some out) ∧ (∃ w ∈ s.waiting, w.requestId = out.requestId) ∧
      out.errorCode = some "store_cache_admission_stalled" := by
  obtain ⟨tail, hwait⟩ : ∃ tail, s.waiting = r :: tail := List.head?_eq_some_iff.mp h.head
  simp only [round, hwait, h.opened, hf, Bool.false_eq_true, if_false, if_true, storeStall, he]
  exact ⟨_, rfl, ⟨r, List.mem_cons_self, rfl⟩, rfl⟩

end Scheduler

open Histories Runs

/-- The step measures the head of the queue, which has `id`, at `since`, and it does not fit. -/
def MemoryBlockedAt (id : String) (since : Nat) (s : Scheduler) (e : Event) : Prop :=
  ∃ p r, e = .round p ∧ MemoryBlocks s p r ∧ r.requestId = id ∧ p.now = since

/-- Where the step gets to the memory guard, its head does not fit. -/
def NoHeadroom (s : Scheduler) (e : Event) : Prop :=
  ∀ p r, e = .round p → Reaches s p r → p.fits r = false

/-- The step finds the gate full at `since`. -/
def GateBlockedAt (since : Nat) (s : Scheduler) (e : Event) : Prop :=
  ∃ p r, e = .round p ∧ GateBlocks s p r ∧ p.now = since

/-- Where the step gets to the gate, there is no room. -/
def NoRoom (s : Scheduler) (e : Event) : Prop :=
  ∀ p r, e = .round p → Attempts s p r → p.gate.isSome = true → p.gateFull = true

/-- Where the step gets as far as its timer, the clock is not past the timeout. -/
def Early (since : Nat) (reaches : Scheduler → Probe → Request → Prop) (s : Scheduler) (e : Event) :
    Prop :=
  ∀ p r, e = .round p → reaches s p r → p.now < since + stallTimeout

/-- Only a round touches the timers. -/
theorem next_timers {e : Event} (h : ∀ p, e ≠ .round p) :
    (next s e).memoryTimer = s.memoryTimer ∧ (next s e).storeTimer = s.storeTimer := by
  cases e with
  | round p => exact absurd rfl (h p)
  | addRequest priorityPolicy r =>
    simp only [next, Scheduler.addRequest]
    split <;> exact ⟨rfl, rfl⟩
  | abort id =>
    simp only [next, Scheduler.abort]
    split <;> exact ⟨rfl, rfl⟩
  | requeue front r => exact ⟨rfl, rfl⟩
  | finish id => exact ⟨rfl, rfl⟩
  | failAll inflight => exact ⟨rfl, rfl⟩

variable {id : String} {since : Nat}

theorem Blocker.expired_of_some {now : Nat} :
    (Blocker.mk (some id) since).expired now = true ↔ since + stallTimeout ≤ now := by
  simp only [Blocker.expired, Option.isSome_some, Bool.true_and, decide_eq_true_eq, ge_iff_le]
  have : 0 < stallTimeout := by decide
  omega

/-- A memory timer that runs was started by a step that found its request blocked, or it ran
before and the step found no headroom. -/
theorem memoryTimer_step (s : Scheduler) (e : Event)
    (h : (next s e).memoryTimer = ⟨some id, since⟩) :
    MemoryBlockedAt id since s e ∨ s.memoryTimer = ⟨some id, since⟩ ∧ NoHeadroom s e := by
  by_cases hround : ∃ p, e = .round p
  · obtain ⟨p, rfl⟩ := hround
    by_cases hr : ∃ r, Reaches s p r
    · obtain ⟨r, hr⟩ := hr
      have hafter := Scheduler.round_memoryTimer hr
      simp only [next] at h
      rw [h] at hafter
      split at hafter
      · cases hafter
      · next hstuck =>
        rw [not_or, Bool.not_eq_true, Bool.not_eq_true] at hstuck
        unfold Blocker.start at hafter
        split at hafter
        · cases hafter
          exact .inl ⟨p, r, rfl, ⟨hr, hstuck⟩, rfl, rfl⟩
        · refine .inr ⟨hafter.symm, ?_⟩
          intro p' r' he hr'
          cases he
          have hsame : r' = r := Option.some.inj (hr'.head.symm.trans hr.head)
          rw [hsame]
          exact hstuck.2
    · have hnone : ∀ r, ¬ Reaches s p r := fun r h => hr ⟨r, h⟩
      refine .inr ⟨(Scheduler.round_memoryTimer_of_not_reaches hnone).symm.trans h, ?_⟩
      intro p' r' he hr'
      cases he
      exact absurd hr' (hnone r')
  · have hother : ∀ p, e ≠ .round p := fun p h => hround ⟨p, h⟩
    refine .inr ⟨(next_timers hother).1.symm.trans h, ?_⟩
    intro p r he
    exact absurd he (hother p)

/-- A memory timer outlasts a step that finds no headroom before it runs out. -/
theorem memoryTimer_kept (s : Scheduler) (e : Event)
    (h : s.memoryTimer = ⟨some id, since⟩) (hquiet : NoHeadroom s e ∧ Early since Reaches s e) :
    (next s e).memoryTimer = ⟨some id, since⟩ := by
  by_cases hround : ∃ p, e = .round p
  · obtain ⟨p, rfl⟩ := hround
    by_cases hr : ∃ r, Reaches s p r
    · obtain ⟨r, hr⟩ := hr
      have hfits := hquiet.1 p r rfl hr
      have hearly := hquiet.2 p r rfl hr
      have hexpired : ¬ s.memoryTimer.expired p.now = true := by
        rw [h, Blocker.expired_of_some]
        omega
      simp only [next]
      rw [Scheduler.round_memoryTimer hr, if_neg (by simp [hexpired, hfits]), h]
      rfl
    · have hnone : ∀ r, ¬ Reaches s p r := fun r h => hr ⟨r, h⟩
      exact (Scheduler.round_memoryTimer_of_not_reaches hnone).trans h
  · exact (next_timers (fun p h => hround ⟨p, h⟩)).1.trans h

/-- A store-cache timer that runs was started by a step that found the gate full, or it ran before
and the step found no room. -/
theorem storeTimer_step (s : Scheduler) (e : Event)
    (h : (next s e).storeTimer.requestId.isSome = true ∧ (next s e).storeTimer.since = since) :
    GateBlockedAt since s e ∨
      (s.storeTimer.requestId.isSome = true ∧ s.storeTimer.since = since) ∧ NoRoom s e := by
  by_cases hround : ∃ p, e = .round p
  · obtain ⟨p, rfl⟩ := hround
    by_cases hr : ∃ r, Attempts s p r
    · obtain ⟨r, hr⟩ := hr
      simp only [next, Scheduler.round_storeTimer hr] at h
      by_cases hfull : p.gateFull = true
      · rw [if_pos hfull] at h
        by_cases he : s.storeTimer.expired p.now = true
        · simp [he] at h
        · rw [if_neg he, Blocker.start] at h
          split at h
          · exact .inl ⟨p, r, rfl, ⟨hr, hfull, by simpa using he⟩, h.2⟩
          · refine .inr ⟨h, ?_⟩
            intro p' _ he _ _
            cases he
            exact hfull
      · rw [if_neg hfull] at h
        by_cases hg : p.gate.isSome = true
        · simp [hg] at h
        · rw [if_neg hg] at h
          refine .inr ⟨h, ?_⟩
          intro p' _ he _ hg'
          cases he
          exact absurd hg' hg
    · have hnone : ∀ r, ¬ Attempts s p r := fun r h => hr ⟨r, h⟩
      simp only [next, Scheduler.round_storeTimer_of_not_attempts hnone] at h
      refine .inr ⟨h, ?_⟩
      intro p' r' he hr'
      cases he
      exact absurd hr' (hnone r')
  · have hother : ∀ p, e ≠ .round p := fun p h => hround ⟨p, h⟩
    rw [(next_timers hother).2] at h
    refine .inr ⟨h, ?_⟩
    intro p r he
    exact absurd he (hother p)

/-- A store-cache timer outlasts a step that finds no room before it runs out. -/
theorem storeTimer_kept (s : Scheduler) (e : Event)
    (h : s.storeTimer = ⟨some id, since⟩) (hquiet : NoRoom s e ∧ Early since Attempts s e) :
    (next s e).storeTimer = ⟨some id, since⟩ := by
  by_cases hround : ∃ p, e = .round p
  · obtain ⟨p, rfl⟩ := hround
    by_cases hr : ∃ r, Attempts s p r
    · obtain ⟨r, hr⟩ := hr
      have hearly := hquiet.2 p r rfl hr
      have hexpired : ¬ s.storeTimer.expired p.now = true := by
        rw [h, Blocker.expired_of_some]
        omega
      simp only [next]
      rw [Scheduler.round_storeTimer hr]
      by_cases hfull : p.gateFull = true
      · rw [if_pos hfull, if_neg hexpired, h]
        rfl
      · have hnogate : ¬ p.gate.isSome = true := fun hg => hfull (hquiet.1 p r rfl hr hg)
        rw [if_neg hfull, if_neg hnogate, h]
    · have hnone : ∀ r, ¬ Attempts s p r := fun r h => hr ⟨r, h⟩
      exact (Scheduler.round_storeTimer_of_not_attempts hnone).trans h
  · exact (next_timers (fun p h => hround ⟨p, h⟩)).2.trans h

/-- The round rejects `id` with a stall error of the given code. -/
def Rejects (s : Scheduler) (p : Probe) (code id : String) : Prop :=
  ∃ out, (s.round p).2 = .again (some out) ∧ out.requestId = id ∧ out.errorCode = some code

variable {es : List Event}

/-- A memory rejection goes back to a round that found its request blocked. -/
theorem memory_rejection (h : Rejects (runList next {} es) p "memory_admission_stalled" id) :
    ∃ since, since + stallTimeout ≤ p.now ∧
      Since next (MemoryBlockedAt id since) NoHeadroom {} es := by
  obtain ⟨out, hout, rfl, hcode⟩ := h
  obtain ⟨hexpired, hid⟩ := Scheduler.round_memory_error hout hcode
  have htimer : (runList next {} es).memoryTimer =
      ⟨some out.requestId, (runList next {} es).memoryTimer.since⟩ := by
    rw [← hid]
  rw [htimer, Blocker.expired_of_some] at hexpired
  refine ⟨_, hexpired, ?_⟩
  apply since_of_step (I := fun s => s.memoryTimer =
    ⟨some out.requestId, (runList next {} es).memoryTimer.since⟩) (by simp) memoryTimer_step
  exact htimer

theorem store_rejection (h : Rejects (runList next {} es) p "store_cache_admission_stalled" id) :
    ∃ since, since + stallTimeout ≤ p.now ∧ Since next (GateBlockedAt since) NoRoom {} es := by
  obtain ⟨out, hout, rfl, hcode⟩ := h
  obtain ⟨-, hexpired⟩ := Scheduler.round_store_error hout hcode
  have hsome : (runList next {} es).storeTimer.requestId.isSome = true := by
    simp only [Blocker.expired, Bool.and_eq_true] at hexpired
    exact hexpired.1
  obtain ⟨id, hid⟩ := Option.isSome_iff_exists.mp hsome
  have htimer : (runList next {} es).storeTimer =
      ⟨some id, (runList next {} es).storeTimer.since⟩ := by
    rw [← hid]
  rw [htimer, Blocker.expired_of_some] at hexpired
  refine ⟨_, hexpired, ?_⟩
  apply since_of_step (I := fun s => s.storeTimer.requestId.isSome = true ∧
    s.storeTimer.since = (runList next {} es).storeTimer.since) (by simp) storeTimer_step
  exact ⟨hsome, rfl⟩

/-- A request that starts the memory timer, and whose memory stays short, is rejected by the first
round that gets to the guard after the timeout. -/
theorem memory_rejected {p₁ : Probe} {r₁ w : Request} (h₁ : MemoryBlocks s p₁ r₁)
    (hidle : s.memoryTimer.requestId = none)
    (hquiet : ∀ x ∈ trace next (next s (.round p₁)) es,
      NoHeadroom x.1 x.2 ∧ Early p₁.now Reaches x.1 x.2)
    (hr : Reaches (runList next (next s (.round p₁)) es) p r)
    (hlate : p₁.now + stallTimeout ≤ p.now)
    (hw : w ∈ (runList next (next s (.round p₁)) es).waiting) (hid : w.requestId = r₁.requestId) :
    Rejects (runList next (next s (.round p₁)) es) p "memory_admission_stalled" r₁.requestId := by
  have hstarted : (next s (.round p₁)).memoryTimer = ⟨some r₁.requestId, p₁.now⟩ := by
    simp only [next]
    rw [Scheduler.round_memoryTimer h₁.1, if_neg (by simp [h₁.2.1, h₁.2.2]), Blocker.start,
      if_pos (by simp [hidle])]
  have htimer := kept_of_quiet memoryTimer_kept hstarted hquiet
  have hexpired : (runList next (next s (.round p₁)) es).memoryTimer.expired p.now = true := by
    rw [htimer, Blocker.expired_of_some]
    exact hlate
  obtain ⟨out, hout, hsame, hcode⟩ :=
    Scheduler.round_memory_expired hr hexpired hw (by rw [htimer, hid])
  exact ⟨out, hout, hsame.trans hid, hcode⟩

/-- A gate that stays full gives a stall error to a waiting request in the first round that gets to
it after the timeout. -/
theorem store_rejected {p₁ : Probe} {r₁ : Request} (h₁ : GateBlocks s p₁ r₁)
    (hidle : s.storeTimer.requestId = none)
    (hquiet : ∀ x ∈ trace next (next s (.round p₁)) es,
      NoRoom x.1 x.2 ∧ Early p₁.now Attempts x.1 x.2)
    (hr : Attempts (runList next (next s (.round p₁)) es) p r) (hfull : p.gateFull = true)
    (hlate : p₁.now + stallTimeout ≤ p.now) :
    ∃ w ∈ (runList next (next s (.round p₁)) es).waiting,
      Rejects (runList next (next s (.round p₁)) es) p "store_cache_admission_stalled"
        w.requestId := by
  have hstarted : (next s (.round p₁)).storeTimer = ⟨some r₁.requestId, p₁.now⟩ := by
    simp only [next]
    rw [Scheduler.round_storeTimer h₁.1, if_pos h₁.2.1, if_neg (by simp [h₁.2.2]), Blocker.start,
      if_pos (by simp [hidle])]
  have htimer := kept_of_quiet storeTimer_kept hstarted hquiet
  have hexpired : (runList next (next s (.round p₁)) es).storeTimer.expired p.now = true := by
    rw [htimer, Blocker.expired_of_some]
    exact hlate
  obtain ⟨out, hout, ⟨w, hw, hid⟩, hcode⟩ := Scheduler.round_store_expired hr hfull hexpired
  exact ⟨w, hw, out, hout, hid.symm, hcode⟩

/-- Who is rejected for a stall, and when: a memory error goes to a request that was the blocked
head at least the timeout ago, with every measurement since then short of memory; a store-cache
error is given when the gate was full at least the timeout ago and never had room since. In turn, a
request that starts the memory timer is rejected by the first round that measures after the
timeout, as long as memory stays short, and a full gate turns a request away in the same way. -/
theorem admission_stalls (es : List Event) :
    (∀ p id, Rejects (runList next {} es) p "memory_admission_stalled" id →
      ∃ since, since + stallTimeout ≤ p.now ∧
        Since next (MemoryBlockedAt id since) NoHeadroom {} es) ∧
    (∀ p id, Rejects (runList next {} es) p "store_cache_admission_stalled" id →
      ∃ since, since + stallTimeout ≤ p.now ∧ Since next (GateBlockedAt since) NoRoom {} es) ∧
    (∀ p₁ r₁, MemoryBlocks (runList next {} es) p₁ r₁ →
      (runList next {} es).memoryTimer.requestId = none →
      ∀ es₂, (∀ x ∈ trace next (runList next {} (es ++ [.round p₁])) es₂,
        NoHeadroom x.1 x.2 ∧ Early p₁.now Reaches x.1 x.2) →
      ∀ p r, Reaches (runList next {} (es ++ .round p₁ :: es₂)) p r →
      p₁.now + stallTimeout ≤ p.now →
      (∃ w ∈ (runList next {} (es ++ .round p₁ :: es₂)).waiting, w.requestId = r₁.requestId) →
      Rejects (runList next {} (es ++ .round p₁ :: es₂)) p "memory_admission_stalled"
        r₁.requestId) ∧
    (∀ p₁ r₁, GateBlocks (runList next {} es) p₁ r₁ →
      (runList next {} es).storeTimer.requestId = none →
      ∀ es₂, (∀ x ∈ trace next (runList next {} (es ++ [.round p₁])) es₂,
        NoRoom x.1 x.2 ∧ Early p₁.now Attempts x.1 x.2) →
      ∀ p r, Attempts (runList next {} (es ++ .round p₁ :: es₂)) p r → p.gateFull = true →
      p₁.now + stallTimeout ≤ p.now →
      ∃ w ∈ (runList next {} (es ++ .round p₁ :: es₂)).waiting,
        Rejects (runList next {} (es ++ .round p₁ :: es₂)) p "store_cache_admission_stalled"
          w.requestId) := by
  have hrun : ∀ p₁ es₂, runList next {} (es ++ .round p₁ :: es₂) =
      runList next (next (runList next {} es) (.round p₁)) es₂ := by
    intro p₁ es₂
    simp [runList]
  refine ⟨fun p id h => memory_rejection h, fun p id h => store_rejection h, ?_, ?_⟩
  · intro p₁ r₁ h₁ hidle es₂ hquiet p r hr hlate hw
    rw [runList_concat] at hquiet
    rw [hrun] at hr hw ⊢
    obtain ⟨w, hw, hid⟩ := hw
    exact memory_rejected h₁ hidle hquiet hr hlate hw hid
  · intro p₁ r₁ h₁ hidle es₂ hquiet p r hr hfull hlate
    rw [runList_concat] at hquiet
    rw [hrun] at hr ⊢
    exact store_rejected h₁ hidle hquiet hr hfull hlate

def probeAt (now inFlight current : Nat) : Probe where
  admitted := 0
  maxSeqs := 8
  batchedTokens := 0
  maxBatchedTokens := 8192
  paused := false
  busy := false
  gate := some ⟨8, inFlight⟩
  pendingAsyncRemoves := 0
  now := now
  memoryGuard := true
  limit := 100
  current := current
  peak := fun n => n
  priorityPolicy := false
  agingNow := now
  admission := .taken

def requestOf (id : String) : Request := { requestId := id, numPromptTokens := 50 }

def second : Nat := 1000000000

theorem admission_stalls_alone :
    let es : List Event := [.addRequest false (requestOf "a")]
    let blocked := probeAt second 0 80
    let full := probeAt second 8 0
    (∃ since, since + stallTimeout ≤ 61 * second ∧
      Since next (MemoryBlockedAt "a" since) NoHeadroom {} (es ++ [.round blocked])) ∧
    (∃ since, since + stallTimeout ≤ 61 * second ∧
      Since next (GateBlockedAt since) NoRoom {} (es ++ [.round full])) ∧
    Rejects (runList next {} (es ++ [.round blocked])) (probeAt (61 * second) 0 80)
      "memory_admission_stalled" "a" ∧
    ∃ w ∈ (runList next {} (es ++ [.round full])).waiting,
      Rejects (runList next {} (es ++ [.round full])) (probeAt (61 * second) 8 0)
        "store_cache_admission_stalled" w.requestId := by
  intro es blocked full
  refine ⟨?_, ?_, ?_, ?_⟩
  · exact (admission_stalls (es ++ [.round blocked])).1 (probeAt (61 * second) 0 80) "a"
      ⟨_, rfl, rfl, rfl⟩
  · exact (admission_stalls (es ++ [.round full])).2.1 (probeAt (61 * second) 8 0) "a"
      ⟨_, rfl, rfl, rfl⟩
  · exact (admission_stalls es).2.2.1 blocked (requestOf "a")
      ⟨⟨⟨rfl, rfl⟩, rfl, rfl, rfl⟩, by decide, by decide⟩ rfl [] (by simp [trace]) _
      (requestOf "a") ⟨⟨rfl, rfl⟩, rfl, rfl, rfl⟩ (by decide)
      ⟨requestOf "a", (List.mem_cons_self : requestOf "a" ∈ [requestOf "a"]), rfl⟩
  · exact (admission_stalls es).2.2.2 full (requestOf "a") ⟨⟨rfl, rfl⟩, by decide, by decide⟩ rfl
      [] (by simp [trace]) _ (requestOf "a") ⟨rfl, rfl⟩ (by decide) (by decide)

/-- The step is a blocked attempt at `since` whose candidate has `id`. -/
def CandidateBlockedAt (id : String) (since : Nat) (s : Scheduler) (e : Event) : Prop :=
  ∃ p r, e = .round p ∧ (MemoryBlocks s p r ∨ GateBlocks s p r) ∧ r.requestId = id ∧ p.now = since

/-- Where the step is an attempt, its candidate has `id` and is blocked. -/
def OnlyCandidate (id : String) (s : Scheduler) (e : Event) : Prop :=
  ∀ p r, e = .round p → Attempts s p r →
    r.requestId = id ∧ (MemoryBlocks s p r ∨ GateBlocks s p r)

def rotation : List Event :=
  [.addRequest false (requestOf "a"), .addRequest false (requestOf "b"),
    .round (probeAt second 0 80), .round (probeAt (12 * second) 0 80)]

/-- A request that was rotated to the back is rejected on its old timer, though another one was the
blocked candidate in between. -/
theorem rotated_request_rejected :
    ¬ ∀ (es : List Event) (p : Probe) (id : String),
      Rejects (runList next {} es) p "memory_admission_stalled" id ∨
        Rejects (runList next {} es) p "store_cache_admission_stalled" id →
      ∃ since, since + stallTimeout ≤ p.now ∧
        Since next (CandidateBlockedAt id since) (OnlyCandidate id) {} es := by
  intro hall
  have hreject : Rejects (runList next {} (rotation ++ [.round (probeAt (13 * second) 0 80)]))
      (probeAt (61 * second) 0 80) "memory_admission_stalled" "a" := ⟨_, rfl, rfl, rfl⟩
  obtain ⟨since, hlate, hsince⟩ := hall _ _ _ (.inl hreject)
  have hhead : Attempts (runList next {} rotation) (probeAt (13 * second) 0 80) (requestOf "b") :=
    ⟨rfl, rfl⟩
  cases hsince.last with
  | inl hmark =>
    obtain ⟨p, r, he, -, -, rfl⟩ := hmark
    cases he
    exact absurd hlate (by decide)
  | inr hquiet => exact absurd (hquiet _ _ rfl hhead).1 (by decide)

end FusionMlx.AdmissionStall
