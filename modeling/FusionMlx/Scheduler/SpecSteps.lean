import FusionMlx.Scheduler.SpecVerify

/-!
# Decoding one request, with and without speculation

The generation batch feeds its pending token, samples the next one and counts
what it has produced; the scheduler records the response and may then verify
drafts. Detokenized text, timings and the statistics of the draft sources are
left out, and a draft source is any list of drafts for each step. All caches
can be trimmed, and the target model continues the sequence that they hold.
-/
namespace FusionMlx.SpecSteps

open SpecVerify

variable {τ : Type}

inductive FinishReason where
  | stop | length
  deriving DecidableEq

structure Request (τ : Type) where
  outputTokenIds : List τ
  finishReason : Option FinishReason
  streamed : List (List τ)
  deriving DecidableEq

/-- `next` is the greedy token after a sequence; `moreStopTokens` are those of
the tokenizer and the generation config besides `eos_token_id`. -/
structure Params (τ : Type) where
  next : List τ → τ
  eosTokenIds : List τ
  moreStopTokens : List τ
  stopTokenIds : List τ
  maxTokens : Int

/-- The stop tokens that `_build_state_machine` hands to the generation batch. -/
def Params.stops (P : Params τ) (t : τ) : Prop :=
  t ∈ P.eosTokenIds ∨ t ∈ P.moreStopTokens ∨ t ∈ P.stopTokenIds

def sequence : List (Layer τ Unit) → List τ
  | .kv ps :: _ => ps
  | _ => []

def target (P : Params τ) : Model τ τ Unit where
  write _ t _ := t
  fold _ s _ := s
  predict c := P.next (sequence c)

structure GenState (τ : Type) where
  promptCache : List (Layer τ Unit)
  nextTokens : τ
  numTokens : Nat
  request : Request τ

def init (P : Params τ) (moreLayers : Nat) (prompt : List τ) : GenState τ where
  promptCache := List.replicate (moreLayers + 1) (.kv prompt)
  nextTokens := P.next prompt
  numTokens := 0
  request := ⟨[], none, []⟩

inductive SpecMethod where
  | ngram | draftModel | dflash
  deriving DecidableEq

structure Drafting (τ : Type) where
  method : SpecMethod
  draftTokens : List τ
  readable : Bool

variable [DecidableEq τ]

instance (P : Params τ) (t : τ) : Decidable (P.stops t) := by
  unfold Params.stops
  infer_instance

def Request.respond (q : Request τ) (token : τ) : Option FinishReason → Request τ
  | some .stop => ⟨q.outputTokenIds, some .stop, q.streamed ++ [[]]⟩
  | finish => ⟨q.outputTokenIds ++ [token], finish, q.streamed ++ [[token]]⟩

def regularStep (P : Params τ) (s : GenState τ) : GenState τ :=
  let cache := (target P).feedOne s.promptCache s.nextTokens
  let finish :=
    if P.stops s.nextTokens then some .stop
    else if P.maxTokens ≤ (s.numTokens + 1 : Nat) then some .length
    else none
  { promptCache := cache
    nextTokens := (target P).predict cache
    numTokens := s.numTokens + 1
    request := s.request.respond s.nextTokens finish }

def Request.emit (P : Params τ) (q : Request τ) : List τ → Request τ
  | [] => q
  | t :: ts =>
    let output := q.outputTokenIds ++ [t]
    if t ∈ P.eosTokenIds then ⟨output, some .stop, q.streamed ++ [[t]]⟩
    else if P.maxTokens ≤ output.length then ⟨output, some .length, q.streamed ++ [[t]]⟩
    else Request.emit P ⟨output, none, q.streamed ++ [[t]]⟩ ts

def sampledFromRegular (s : GenState τ) (d : Drafting τ) : Option τ :=
  if d.readable then some s.nextTokens else none

def snapshotsFor (s : GenState τ) (d : Drafting τ) : Option (List (Nat × Layer τ Unit)) :=
  match d.method with
  | .ngram =>
    if 2 ≤ d.draftTokens.length ∧ (sampledFromRegular s d).all (fun t => d.draftTokens.head? = some t)
    then snapshotNonTrimmable s.promptCache else none
  | .draftModel => snapshotNonTrimmable s.promptCache
  | .dflash => snapshotNonTrimmable s.promptCache

def rollbackFor (P : Params τ) (d : Drafting τ) (cache : List (Layer τ Unit))
    (snapshots : Option (List (Nat × Layer τ Unit))) (v : Verdict τ) : List (Layer τ Unit) :=
  match d.method with
  | .ngram => rollbackSpecCache (target P) cache snapshots d.draftTokens v.nAccepted v.cacheTokensProcessed
  | .draftModel =>
    specDecodeRollback (target P) cache snapshots d.draftTokens v.nAccepted v.cacheTokensProcessed
  | .dflash => dflashRollback (target P) cache snapshots d.draftTokens v.nAccepted v.cacheTokensProcessed

def adopt (P : Params τ) (s : GenState τ) (cache : List (Layer τ Unit)) (verified : List τ) :
    GenState τ :=
  match verified.getLast? with
  | none => { s with promptCache := cache }
  | some last =>
    { s with
      promptCache := cache
      nextTokens := last
      request := s.request.emit P verified.dropLast }

/-- `ngram_spec_step`, `spec_decode_step` and `dflash_spec_step` from the
drafts on; the last one returns before it verifies when the first draft is
not the pending token. -/
def specStep (P : Params τ) (s : GenState τ) (d : Drafting τ) : GenState τ :=
  if d.draftTokens = [] then s
  else if d.method = .dflash ∧ (sampledFromRegular s d).any (fun t => d.draftTokens.head? ≠ some t) then s
  else
    let verdict := verifyDrafts (target P) d.draftTokens s.promptCache (sampledFromRegular s d)
    let cache :=
      if 0 < verdict.1.cacheTokensProcessed ∧ verdict.1.nAccepted < d.draftTokens.length then
        rollbackFor P d verdict.2 (snapshotsFor s d) verdict.1
      else verdict.2
    adopt P s cache verdict.1.verified

/-- `_step_pure_decode`: the regular step, and a speculative one unless the
request has finished. A finished request is out of the batch. -/
def exec (P : Params τ) (s : GenState τ) (d : Option (Drafting τ)) : GenState τ :=
  if s.request.finishReason.isSome then s
  else
    match d with
    | none => regularStep P s
    | some d =>
      if (regularStep P s).request.finishReason.isSome then regularStep P s
      else specStep P (regularStep P s) d

end FusionMlx.SpecSteps
