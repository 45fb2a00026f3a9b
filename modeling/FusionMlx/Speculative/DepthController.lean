import FusionMlx.Support.OrderedDict
import Mathlib.Algebra.Order.Field.Rat

/-!
# The draft depth controller

How many tokens to draft is chosen by the ratio of the tokens a round is
expected to commit to its cost. Both are estimates over past rounds; two probes
make rounds at depths that would not be chosen, so that the estimates go on.
-/
namespace FusionMlx.DraftDepth

open OrderedDict

def costEwmaAlpha : ℚ := 3 / 10

def costClampFraction : ℚ := 1 / 4

def acceptanceEwmaAlpha : ℚ := 1 / 10

def acceptanceMinSamples : Nat := 10

def depthProbeInterval : Nat := 4

def depthProbeIntervalMax : Nat := 512

def costSeedMinSamples : Nat := 4

def starvationProbeInterval : Nat := 4

inductive Raised where
  | zeroDivision
  | keyError

def divide (a b : ℚ) : Except Raised ℚ := if b = 0 then .error .zeroDivision else .ok (a / b)

structure CostModel where
  ewma : Dict Nat ℚ := Dict.empty
  depths : List Nat := []
  visits : Dict Nat Nat := Dict.empty

namespace CostModel

def insort (ds : List Nat) (d : Nat) : List Nat := ds.takeWhile (· ≤ d) ++ d :: ds.dropWhile (· ≤ d)

def clamp (limit innovation : ℚ) : ℚ :=
  if limit < innovation then limit else if innovation < -limit then -limit else innovation

def update (prev wallMs : ℚ) : ℚ := prev + costEwmaAlpha * clamp (costClampFraction * prev) (wallMs - prev)

def observe (m : CostModel) (drafts : Nat) (wallMs : ℚ) : CostModel :=
  if wallMs ≤ 0 then m
  else
    { ewma := m.ewma.set drafts (match m.ewma.get? drafts with | none => wallMs | some prev => update prev wallMs)
      depths := match m.ewma.get? drafts with | none => insort m.depths drafts | some _ => m.depths
      visits := m.visits.set drafts ((m.visits.get? drafts).getD 0 + 1) }

def ready (m : CostModel) : Bool := 2 ≤ m.ewma.entries.length

def estimate (m : CostModel) (d : Nat) : Except Raised ℚ :=
  match m.ewma.get? d with
  | some v => .ok v
  | none => .error .keyError

def between (m : CostModel) (drafts : Nat) : List Nat → Except Raised ℚ
  | [] => .error .keyError
  | [last] => m.estimate last
  | lo :: hi :: ds =>
    if drafts ≤ hi then do
      let t ← divide ((drafts : ℚ) - lo) ((hi : ℚ) - lo)
      let a ← m.estimate lo
      let b ← m.estimate hi
      pure (a + t * (b - a))
    else m.between drafts (hi :: ds)

def cost (m : CostModel) (drafts : Nat) : Except Raised ℚ :=
  match m.depths with
  | [] => .ok 0
  | d :: ds =>
    if drafts ≤ d then m.estimate d
    else if (d :: ds).getLast (List.cons_ne_nil d ds) ≤ drafts then m.estimate ((d :: ds).getLast (List.cons_ne_nil d ds))
    else m.between drafts (d :: ds)

end CostModel

structure AcceptanceModel where
  rate : List ℚ := [0]
  seen : List Nat := [0]

namespace AcceptanceModel

def grow (m : AcceptanceModel) (i : Nat) : AcceptanceModel :=
  { rate := m.rate ++ List.replicate (i + 1 - m.seen.length) 0
    seen := m.seen ++ List.replicate (i + 1 - m.seen.length) 0 }

def observeAt (m : AcceptanceModel) (i : Nat) (accepted : Bool) : AcceptanceModel :=
  let m := m.grow i
  let outcome : ℚ := if accepted then 1 else 0
  let rate := m.rate.getD i 0
  { rate := m.rate.set i (if m.seen.getD i 0 = 0 then outcome else rate + acceptanceEwmaAlpha * (outcome - rate))
    seen := m.seen.set i (m.seen.getD i 0 + 1) }

def observeLoop (accepted : Nat) : List Nat → AcceptanceModel → AcceptanceModel
  | [], m => m
  | i :: is, m => if accepted < i - 1 then m else observeLoop accepted is (m.observeAt i (i ≤ accepted))

def observe (m : AcceptanceModel) (drafted accepted : Nat) : AcceptanceModel :=
  observeLoop accepted (List.range' 1 drafted) m

def sampled (m : AcceptanceModel) (i : Nat) : Bool := i < m.seen.length ∧ acceptanceMinSamples ≤ m.seen.getD i 0

def acceptance (m : AcceptanceModel) (i : Nat) : ℚ :=
  if 1 ≤ i ∧ m.sampled i then m.rate.getD i 0
  else
    match (List.range' 1 (i - 1)).reverse.find? m.sampled with
    | some j => m.rate.getD j 0
    | none => 1

def committed (m : AcceptanceModel) : Nat → ℚ × ℚ
  | 0 => (1, 1)
  | n + 1 =>
    let prod := (m.committed n).2 * m.acceptance (n + 1)
    ((m.committed n).1 + prod, prod)

def expectedCommitted (m : AcceptanceModel) (n : Nat) : ℚ := (m.committed n).1

def frontier (m : AcceptanceModel) : Nat := ((m.seen.drop 1).takeWhile (acceptanceMinSamples ≤ ·)).length

end AcceptanceModel

structure DepthController where
  cost : CostModel := {}
  acc : AcceptanceModel := {}
  probed : Bool := false
  scheduled : Nat := 0
  probeInterval : Nat := depthProbeInterval
  probeSince : Nat := 0
  lastSelected : Nat := 0
  maxK : Nat
  roundProbeCounter : Nat := 0
  roundProbeInterval : Nat := starvationProbeInterval
  roundProbeLastSel : Nat := 0
  recentKUsed : List Nat := []
  starvationProbeCount : Nat := 0
  parkCount : Nat := 0
  roundCount : Nat := 0
  kHistogram : Dict Nat Nat := Dict.empty

namespace DepthController

variable (c : DepthController)

def frontier : Nat := c.acc.frontier

def limit : Nat := min (c.frontier + 1) c.maxK

def selectLoop : List Nat → Nat → ℚ → Except Raised Nat
  | [], best, _ => .ok best
  | n :: ns, best, bestEv => do
    let costN ← c.cost.cost n
    if costN ≤ 0 then selectLoop ns best bestEv
    else do
      let ev ← divide (c.acc.expectedCommitted n) costN
      if bestEv < ev then selectLoop ns n ev else selectLoop ns best bestEv

def selected : Except Raised Nat :=
  if c.cost.ready then do
    let cost₀ ← c.cost.cost 0
    let bestEv ← divide (c.acc.expectedCommitted 0) cost₀
    c.selectLoop (List.range' 1 c.limit) 0 bestEv
  else .ok 0

def costSeedDepth : Option Nat :=
  (List.range (c.limit + 1)).find? (fun n => (c.cost.visits.get? n).getD 0 < costSeedMinSamples)

def leastUsed (window : List Nat) (limit : Nat) : Nat :=
  (List.range (limit + 1)).foldl (fun best n => if window.count n < window.count best then n else best) 0

def applyStarvationProbe (sel depth : Nat) : Nat × DepthController :=
  let c :=
    if sel ≠ c.roundProbeLastSel then
      { c with roundProbeInterval := starvationProbeInterval, roundProbeCounter := 0, roundProbeLastSel := sel }
    else c
  let c := { c with roundProbeCounter := c.roundProbeCounter + 1 }
  if c.roundProbeCounter < c.roundProbeInterval then (depth, c)
  else
    let window := c.recentKUsed.drop (c.recentKUsed.length - c.roundProbeInterval)
    let c := { c with roundProbeCounter := 0, roundProbeInterval := min (c.roundProbeInterval * 2) depthProbeIntervalMax }
    if c.limit = 0 then (depth, c)
    else
      let probeK := leastUsed window c.limit
      if probeK ≠ depth then (probeK, { c with starvationProbeCount := c.starvationProbeCount + 1 }) else (depth, c)

def noteSelected (sel : Nat) : DepthController :=
  if sel ≠ c.lastSelected then { c with probeInterval := depthProbeInterval, probeSince := 0, lastSelected := sel }
  else if c.probed then { c with probeInterval := min (c.probeInterval * 2) depthProbeIntervalMax }
  else c

def outwardProbe (sel : Nat) : Option Nat × DepthController :=
  let c := { c with probed := false, probeSince := c.probeSince + 1 }
  if c.probeInterval ≤ c.probeSince then
    let c := { c with probeSince := 0 }
    let probe := min (sel + 1) (min (c.frontier + 1) c.maxK)
    if probe ≠ sel then (some probe, { c with probed := true }) else (none, c)
  else (none, c)

def depthFor (sel : Nat) : Option Nat → Nat
  | some probe => probe
  | none => min (c.costSeedDepth.getD sel) c.maxK

def pickK : Except Raised (Nat × DepthController) := do
  let sel ← c.selected
  let probed := (c.noteSelected sel).outwardProbe sel
  let starved := probed.2.applyStarvationProbe sel (probed.2.depthFor sel probed.1)
  pure (starved.1, { starved.2 with scheduled := starved.1 })

/-- `record`; `accepts` is empty when it is not given. -/
def record (kUsed : Nat) (wallMs : ℚ) (accepts : List Bool) : DepthController :=
  { c with
    roundCount := c.roundCount + 1
    parkCount := if kUsed = 0 then c.parkCount + 1 else c.parkCount
    kHistogram := c.kHistogram.set kUsed ((c.kHistogram.get? kUsed).getD 0 + 1)
    recentKUsed := (c.recentKUsed ++ [kUsed]).drop (c.recentKUsed.length + 1 - depthProbeIntervalMax)
    cost := if 0 < wallMs then c.cost.observe kUsed wallMs else c.cost
    acc := if accepts = [] then c.acc else c.acc.observe accepts.length (accepts.takeWhile id).length }

end DepthController

inductive Call where
  | pick (k : Nat)
  | record (k : Nat) (wallMs : ℚ) (accepts : List Bool)

def walls (k : Nat) (history : List Call) : List ℚ :=
  history.filterMap (fun
    | .record j w _ => if j = k then some w else none
    | .pick _ => none)

/-- What a sequence of calls leads to; a round is recorded with a depth that was picked. -/
inductive Reached (maxK : Nat) : List Call → DepthController → Prop
  | start : Reached maxK [] { maxK := maxK }
  | pick {h : List Call} {c c' : DepthController} {k : Nat} (hc : Reached maxK h c) (hk : c.pickK = .ok (k, c')) :
    Reached maxK (h ++ [.pick k]) c'
  | record {h : List Call} {c : DepthController} {k : Nat} (hc : Reached maxK h c) (hk : Call.pick k ∈ h) (wallMs : ℚ)
    (accepts : List Bool) : Reached maxK (h ++ [.record k wallMs accepts]) (c.record k wallMs accepts)

end FusionMlx.DraftDepth
