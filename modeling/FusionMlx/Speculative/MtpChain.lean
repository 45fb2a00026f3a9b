import FusionMlx.Support.Decoding

/-!
# Chains of drafts from a prediction head

Greedy decoding where a small head drafts the next tokens. The main model and
the head are parameters; each has its cache. A hidden state is told by its
position: what each layer of the main cache holds up to it.
-/
namespace FusionMlx.MtpChain

open Decoding

variable {ν : Type}

abbrev Position := List (List Nat)

structure Layer where
  held : List Nat
  trimmable : Bool
  rollbackState : Option (Option (List Nat))
  deriving DecidableEq

structure MtpLayer where
  entries : List (Position × Nat)
  trimmable : Bool
  deriving DecidableEq

/-- The main model, the greedy sampler and the processors. `normalize` takes the logarithm of the sum of
exponentials off the scores. -/
structure Model (ν : Type) where
  logits : Position → ν
  normalize : ν → ν
  argmax : ν → Nat
  processors : List (List Nat → ν → ν)

/-- The head, by the number of the call: its scores, and whether the call raises, before or after it has
written its entries. -/
structure Head (ν : Type) where
  scores : Nat → ν
  fails : Nat → Option Bool
  supportsHidden : Bool

structure Options where
  maxTokens : Nat
  stopTokens : List Nat
  pickK : Nat → Nat

inductive Status where
  | running
  | returned
  | raised
  deriving DecidableEq

/-- `prevTokens` is the token history, where none is the empty one; `handed` are the histories that the
processors have been called with. -/
structure Session (ν : Type) where
  modelCache : List Layer
  mtpCache : List MtpLayer
  prevTokens : List Nat
  y : List Nat
  pendingDrafts : Option (List (Nat × ν))
  yielded : List (Nat × ν × Bool)
  ntoks : Nat
  calls : Nat
  picks : Nat
  handed : List (List Nat)
  status : Status

def positions (cache : List Layer) (tokens : List Nat) : List Position :=
  afterEach (fun fed => cache.map fun c => c.held ++ fed) [] tokens

/-- A call of the main model. Layers with a rollback state take a snapshot behind the first `nConfirmed` tokens. -/
def Layer.feed (tokens : List Nat) (nConfirmed : Nat) (c : Layer) : Layer :=
  { c with
    held := c.held ++ tokens
    rollbackState :=
      if 0 < nConfirmed ∧ nConfirmed < tokens.length then c.rollbackState.map fun _ => some (c.held ++ tokens.take nConfirmed)
      else c.rollbackState }

def Layer.clearRollback (c : Layer) : Layer := { c with rollbackState := c.rollbackState.map fun _ => none }

def Layer.rollbackDraft (nToDrop : Nat) (c : Layer) : Option Layer :=
  match c.rollbackState with
  | some (some snap) => if nToDrop = 1 then some { c with held := snap, rollbackState := some none } else none
  | _ => some (if c.trimmable then { c with held := c.held.take (c.held.length - nToDrop) } else c)

def MtpLayer.trim (n : Nat) (c : MtpLayer) : MtpLayer :=
  if c.trimmable then { c with entries := c.entries.take (c.entries.length - n) } else c

def MtpLayer.write (entries : List (Position × Nat)) (c : MtpLayer) : MtpLayer := { c with entries := c.entries ++ entries }

def Model.processAndSample (M : Model ν) (tokens : List Nat) (logits : ν) : Nat × ν :=
  let logprobs := M.normalize (M.processors.foldl (fun scores processor => processor tokens scores) logits)
  (M.argmax logprobs, logprobs)

def Model.extend (M : Model ν) (prev tokens : List Nat) : List Nat :=
  if M.processors.isEmpty then prev else prev ++ tokens

def Session.hand (M : Model ν) (history : List Nat) (s : Session ν) : Session ν :=
  { s with handed := if M.processors.isEmpty then s.handed else s.handed ++ [history] }

def predict (M : Model ν) : List Nat → List ν → Session ν → List (Nat × ν) × Session ν
  | y :: yy, row :: rows, s =>
    let prev := M.extend s.prevTokens [y]
    let (toks, s) := predict M yy rows ({ s with prevTokens := prev }.hand M prev)
    (M.processAndSample prev row :: toks, s)
  | _, _, s => ([], s)

def stepBackbone (M : Model ν) (yy : List Nat) (nPredict nConfirmed : Nat) (s : Session ν) :
    List (Nat × ν) × List Position × Session ν :=
  let hidden := positions s.modelCache yy
  let rows := (hidden.drop (hidden.length - nPredict)).map M.logits
  let (toks, s) := predict M yy rows { s with modelCache := s.modelCache.map (Layer.feed yy nConfirmed) }
  (toks, hidden, s)

def mtpForward (H : Head ν) (entries : List (Position × Nat)) (s : Session ν) : Option ν × Session ν :=
  let written := { s with calls := s.calls + 1, mtpCache := s.mtpCache.map (MtpLayer.write entries) }
  match H.fails s.calls with
  | none => (some (H.scores s.calls), written)
  | some true => (none, written)
  | some false => (none, { s with calls := s.calls + 1 })

/-- `_step_mtp`: a draft with its logprobs, none when the head raises. -/
def stepMtp (M : Model ν) (H : Head ν) (hiddenLast : Position) (mainTok : Nat) (cacheCommit : Option (Position × Nat))
    (s : Session ν) : Option (Nat × ν) × Session ν :=
  match mtpForward H (cacheCommit.toList ++ [(hiddenLast, mainTok)]) s with
  | (none, s) => (none, s)
  | (some logits, s) =>
    let tokensForProc := M.extend s.prevTokens [mainTok]
    (some (M.processAndSample tokensForProc logits), s.hand M tokensForProc)

/-- `_step_mtp_chain`: the drafts, none when a call raises. The head's own hidden state stands behind the token it
was called with. -/
def stepMtpChain (M : Model ν) (H : Head ν) (wantHidden : Bool) : Nat → Position → Nat → Option (Position × Nat) →
    Session ν → Option (List (Nat × ν)) × Session ν
  | 0, _, _, _, s => (some [], s)
  | k + 1, curHidden, prevTok, curCommit, s =>
    match stepMtp M H curHidden prevTok curCommit s with
    | (none, s) => (none, s)
    | (some d, s) =>
      let next := if wantHidden then curHidden.map (· ++ [prevTok]) else curHidden
      let (ds, s) := stepMtpChain M H wantHidden k next d.1 none s
      (ds.map (d :: ·), s)

def draftChain (M : Model ν) (H : Head ν) (hiddenLast : Position) (mainTok k : Nat) (cacheCommit : Option (Position × Nat))
    (s : Session ν) : Option (List (Nat × ν)) × Session ν :=
  stepMtpChain M H (H.supportsHidden && decide (2 ≤ k)) k hiddenLast mainTok cacheCommit s

variable (M : Model ν) (H : Head ν) (opts : Options)

def Session.emit (tok : Nat) (lp : ν) (fromDraft : Bool) (s : Session ν) : Session ν :=
  { s with ntoks := s.ntoks + 1, yielded := s.yielded ++ [(tok, lp, fromDraft)] }

def draftGuarded (hidden : Position) (mainTok : Nat) (s : Session ν) : Session ν :=
  let nextK := opts.pickK s.picks
  let s := { s with picks := s.picks + 1 }
  let (drafts, s) := if 1 ≤ nextK then draftChain M H hidden mainTok nextK none s else (none, s)
  { s with pendingDrafts := drafts, y := [mainTok] }

def draftUnguarded (hidden : Position) (tok : Nat) (cacheCommit : Option (Position × Nat)) (s : Session ν) : Session ν :=
  let nextK := opts.pickK s.picks
  let s := { s with picks := s.picks + 1, y := [tok] }
  if 1 ≤ nextK then
    match draftChain M H hidden tok nextK cacheCommit s with
    | (some drafts, s) => { s with pendingDrafts := some drafts }
    | (none, s) => { s with status := .raised }
  else { s with pendingDrafts := none }

def plainRound (s : Session ν) : Session ν :=
  let (toks, hidden, s) := stepBackbone M s.y 1 0 s
  match toks.head?, hidden.getLast? with
  | some (mainTok, mainLp), some hiddenAtMain =>
    let s := s.emit mainTok mainLp false
    if opts.maxTokens ≤ s.ntoks then { s with status := .returned } else draftGuarded M H opts hiddenAtMain mainTok s
  | _, _ => { s with status := .raised }

def emitDrafts : List (Nat × ν) → Session ν → Session ν
  | [], s => s
  | (draft, lp) :: drafts, s =>
    let s := s.emit draft lp true
    if opts.maxTokens ≤ s.ntoks then { s with status := .returned } else emitDrafts drafts s

def commitToken (tok : Nat) (lp : ν) (hidden : Position) (cacheCommit : Option (Position × Nat)) (s : Session ν) :
    Session ν :=
  let s := s.emit tok lp false
  if opts.maxTokens ≤ s.ntoks then { s with status := .returned } else draftUnguarded M H opts hidden tok cacheCommit s

def rejectDrafts (nToDrop : Nat) (s : Session ν) : Option (Session ν) :=
  (s.modelCache.mapM (Layer.rollbackDraft nToDrop)).map fun modelCache =>
    { s with
      modelCache := modelCache
      prevTokens := if M.processors.isEmpty then s.prevTokens else s.prevTokens.take (s.prevTokens.length - nToDrop)
      mtpCache := s.mtpCache.map (MtpLayer.trim nToDrop) }

def settleDrafts (toks : List (Nat × ν)) (hidden : List Position) (draftIds : List Nat) (acceptedCount : Nat) (s : Session ν) :
    Session ν :=
  match toks[acceptedCount]?, hidden[acceptedCount]? with
  | some (tok, lp), some lastHidden =>
    if acceptedCount = draftIds.length then
      let align := (hidden[acceptedCount - 1]?).bind fun h => (draftIds[acceptedCount - 1]?).map fun d => (h, d)
      commitToken M H opts tok lp lastHidden align { s with modelCache := s.modelCache.map Layer.clearRollback }
    else
      match rejectDrafts M (draftIds.length - acceptedCount) s with
      | some s => commitToken M H opts tok lp lastHidden none s
      | none => { s with status := .raised }
  | _, _ => { s with status := .raised }

def verifyRound (drafts : List (Nat × ν)) (s : Session ν) : Session ν :=
  let draftIds := drafts.map Prod.fst
  let (toks, hidden, s) := stepBackbone M (s.y ++ draftIds) (draftIds.length + 1) draftIds.length s
  let accepted := leading ((toks.take draftIds.length).map Prod.fst) draftIds
  let eosCut := (draftIds.take accepted).findIdx? (· ∈ opts.stopTokens)
  let acceptedCount := eosCut.elim accepted (· + 1)
  let s := emitDrafts opts (drafts.take acceptedCount) s
  if s.status = .returned then s
  else if eosCut.isSome then { s with status := .returned }
  else settleDrafts M H opts toks hidden draftIds acceptedCount s

def turn (s : Session ν) : Session ν :=
  if s.status ≠ .running then s
  else if s.ntoks < opts.maxTokens then
    match s.pendingDrafts with
    | none => plainRound M H opts s
    | some drafts => verifyRound M H opts drafts s
  else { s with status := .returned }

/-- `_prefill`: chunks are fed to both models until one token is left. The first argument bounds the number of
chunks. -/
def prefill (stepSize : Nat) : Nat → List Nat → Session ν → List Nat × Session ν
  | 0, yy, s => (yy, s)
  | n + 1, yy, s =>
    if 1 < yy.length ∧ s.status = .running then
      let m := min stepSize (yy.length - 1)
      let hidden := positions s.modelCache (yy.take m)
      let s := { s with modelCache := s.modelCache.map (Layer.feed (yy.take m) 0) }
      let (logits, s) := mtpForward H (hidden.zip ((yy.take (m + 1)).drop 1)) s
      if logits.isSome then prefill stepSize n (yy.drop m) s else (yy, { s with status := .raised })
    else (yy, s)

def Session.fresh (layers : List (Bool × Bool)) (mtpLayers : List Bool) : Session ν where
  modelCache := layers.map fun l => { held := [], trimmable := l.1, rollbackState := if l.2 then some none else none }
  mtpCache := mtpLayers.map fun trimmable => { entries := [], trimmable := trimmable }
  prevTokens := []
  y := []
  pendingDrafts := none
  yielded := []
  ntoks := 0
  calls := 0
  picks := 1
  handed := []
  status := .running

def start (layers : List (Bool × Bool)) (mtpLayers : List Bool) (prefillStepSize : { n : Nat // 0 < n })
    (prompt : List Nat) : Session ν :=
  let (y, s) := prefill H prefillStepSize prompt.length prompt (Session.fresh layers mtpLayers)
  { s with y := y }

def run (s : Session ν) : Nat → Session ν
  | 0 => s
  | n + 1 => turn M H opts (run s n)

def mtpGenerateStep (layers : List (Bool × Bool)) (mtpLayers : List Bool) (prefillStepSize : { n : Nat // 0 < n })
    (prompt : List Nat) : Session ν :=
  run M H opts (start H layers mtpLayers prefillStepSize prompt) (opts.maxTokens + 1)

end FusionMlx.MtpChain
