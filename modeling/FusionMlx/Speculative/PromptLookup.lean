import FusionMlx.Support.Decoding

/-!
# Prompt lookup decoding

Drafts are what followed an earlier occurrence of the last tokens. The model
is a parameter: its scores depend on the tokens that the cache holds. A row of
scores stands for one position; the sampler works on rows.
-/
namespace FusionMlx.PromptLookup

open Decoding

def sliceBound (len : Nat) (i : Int) : Nat := if i < 0 then (len + i).toNat else min i.toNat len

def slice (xs : List Nat) (b e : Int) : List Nat := (xs.take (sliceBound xs.length e)).drop (sliceBound xs.length b)

structure PromptLookupDecoder where
  numDraftTokens : Int
  ngramSize : Int
  minMatches : Int
  tokenHistory : List Nat
  ngramIndex : List Nat → List Nat
  totalDrafts : Nat
  successfulDrafts : Nat
  partialAcceptDrafts : Nat
  totalDraftTokens : Nat
  acceptedTokens : Nat

namespace PromptLookupDecoder

def init (numDraftTokens ngramSize minMatches : Int) : PromptLookupDecoder where
  numDraftTokens := numDraftTokens
  ngramSize := ngramSize
  minMatches := minMatches
  tokenHistory := []
  ngramIndex := fun _ => []
  totalDrafts := 0
  successfulDrafts := 0
  partialAcceptDrafts := 0
  totalDraftTokens := 0
  acceptedTokens := 0

def note (index : List Nat → List Nat) (ngram : List Nat) (start : Nat) : List Nat → List Nat :=
  fun g => if g = ngram then index g ++ [start] else index g

def addToken (d : PromptLookupDecoder) (token : Nat) : PromptLookupDecoder :=
  let history := d.tokenHistory ++ [token]
  let pos := history.length - 1
  let sizes := List.range' 1 ((min (d.ngramSize + 1) (pos + 2)) - 1).toNat
  { d with
    tokenHistory := history
    ngramIndex := sizes.foldl
      (fun index n => if n ≤ pos + 1 then note index ((history.take (pos + 1)).drop (pos + 1 - n)) (pos + 1 - n) else index)
      d.ngramIndex }

def addTokens (d : PromptLookupDecoder) (tokens : List Nat) : PromptLookupDecoder := tokens.foldl addToken d

def consider (d : PromptLookupDecoder) (currentStart : Int) (best : Nat × List Nat) (start : Nat) : Nat × List Nat :=
  if (start : Int) = currentStart then best
  else
    let contBegin := start + d.ngramSize
    let contEnd := min (contBegin + d.numDraftTokens) d.tokenHistory.length
    let continuation := slice d.tokenHistory contBegin contEnd
    if d.minMatches ≤ continuation.length ∧ best.1 < continuation.length then
      (continuation.length, slice continuation 0 d.numDraftTokens)
    else best

def getDraftTokens (d : PromptLookupDecoder) : List Nat × PromptLookupDecoder :=
  if d.tokenHistory.length < d.ngramSize then ([], d)
  else
    let query := slice d.tokenHistory (-d.ngramSize) d.tokenHistory.length
    let positions := d.ngramIndex query
    if positions = [] then ([], d)
    else
      let currentStart := d.tokenHistory.length - d.ngramSize
      let draftTokens := (positions.foldl (d.consider currentStart) (0, [])).2
      if d.minMatches ≤ draftTokens.length then
        (draftTokens,
          { d with totalDrafts := d.totalDrafts + 1, totalDraftTokens := d.totalDraftTokens + draftTokens.length })
      else ([], d)

def recordAccepted (d : PromptLookupDecoder) (numAccepted numDrafted : Nat) : PromptLookupDecoder :=
  if 0 < numAccepted then
    if 0 < numDrafted ∧ numDrafted ≤ numAccepted then
      { d with acceptedTokens := d.acceptedTokens + numAccepted, successfulDrafts := d.successfulDrafts + 1 }
    else
      { d with acceptedTokens := d.acceptedTokens + numAccepted, partialAcceptDrafts := d.partialAcceptDrafts + 1 }
  else d

end PromptLookupDecoder

variable {ν : Type}

/-- The target model and the sampler: `logits` after a sequence of tokens, `normalize` takes the logarithm of
their sum of exponentials off them, `sampler` picks a token. -/
structure Model (ν : Type) where
  logits : List Nat → ν
  normalize : ν → ν
  sampler : ν → Nat

def Model.logprobs (M : Model ν) (seq : List Nat) : ν := M.normalize (M.logits seq)

def Model.step (M : Model ν) (cache tokens : List Nat) (nPredict : Nat) : List Nat × List ν :=
  let rows := afterEach M.logprobs cache tokens
  (cache ++ tokens, rows.drop (rows.length - nPredict))

def trimPromptCache (cache : List Nat) (numTokens : Nat) : List Nat := cache.take (cache.length - numTokens)

/-- `current` is the sampled token with its scores; there is none when no position was read. -/
structure Session (ν : Type) where
  cache : List Nat
  decoder : PromptLookupDecoder
  current : Option (Nat × ν)
  yielded : List (Nat × ν × Bool)
  ntoks : Nat
  raised : Bool

def acceptDrafts (M : Model ν) (maxTokens : Nat) : List Nat → List ν → Session ν → Nat × Session ν
  | draft :: drafts, row :: rows, s =>
    if draft = M.sampler row then
      let s := { s with
        ntoks := s.ntoks + 1
        decoder := s.decoder.addToken draft
        yielded := s.yielded ++ [(draft, row, true)] }
      if maxTokens ≤ s.ntoks then (1, s)
      else
        let (nAccepted, s) := acceptDrafts M maxTokens drafts rows s
        (nAccepted + 1, s)
    else (0, s)
  | _, _, s => (0, s)

def verifyDrafts (M : Model ν) (maxTokens currentToken : Nat) (draftTokens : List Nat) (s : Session ν) : Session ν :=
  let (cache, verified) := M.step s.cache (currentToken :: draftTokens) (draftTokens.length + 1)
  let (nAccepted, s) := acceptDrafts M maxTokens draftTokens verified.dropLast { s with cache := cache }
  let s := { s with decoder := s.decoder.recordAccepted nAccepted draftTokens.length }
  if maxTokens ≤ s.ntoks then s
  else
    { s with
      cache := if nAccepted < draftTokens.length then trimPromptCache s.cache (draftTokens.length - nAccepted) else s.cache
      current := verified[nAccepted]?.map fun row => (M.sampler row, row) }

def predictOne (M : Model ν) (currentToken : Nat) (s : Session ν) : Session ν :=
  let (cache, rows) := M.step s.cache [currentToken] 1
  { s with cache := cache, current := rows.head?.map fun row => (M.sampler row, row) }

def round (M : Model ν) (maxTokens : Nat) (s : Session ν) : Session ν :=
  match s.current with
  | none => { s with raised := true }
  | some (currentToken, logprobs) =>
    let s := { s with yielded := s.yielded ++ [(currentToken, logprobs, false)], ntoks := s.ntoks + 1 }
    if maxTokens ≤ s.ntoks then s
    else
      let (draftTokens, decoder) := (s.decoder.addToken currentToken).getDraftTokens
      let s := { s with decoder := decoder }
      if draftTokens ≠ [] then verifyDrafts M maxTokens currentToken draftTokens s else predictOne M currentToken s

def rounds (M : Model ν) (maxTokens : Nat) : Nat → Session ν → Session ν
  | 0, s => s
  | n + 1, s => if s.ntoks < maxTokens ∧ s.raised = false then rounds M maxTokens n (round M maxTokens s) else s

/-- `_prefill`: whole chunks are fed, the rest is left. The first argument bounds the number of chunks. -/
def prefill (stepSize : Nat) : Nat → List Nat → List Nat → List Nat × List Nat
  | 0, cache, tokens => (cache, tokens)
  | n + 1, cache, tokens =>
    if stepSize < tokens.length then prefill stepSize n (cache ++ tokens.take stepSize) (tokens.drop stepSize)
    else (cache, tokens)

/-- `prompt_lookup_generate_step` with an empty cache. Nothing reads the processors. -/
def promptLookupGenerateStep (M : Model ν) (prompt : List Nat) (numDraftTokens ngramSize : Int) (maxTokens : Nat)
    (_logitsProcessors : List (List Nat → ν → ν)) (prefillStepSize : { n : Nat // 0 < n }) : Session ν :=
  let decoder := (PromptLookupDecoder.init numDraftTokens ngramSize 2).addTokens prompt
  let (cache, y) := prefill prefillStepSize prompt.length [] prompt
  let (cache, rows) := M.step cache y 1
  rounds M maxTokens maxTokens
    { cache := cache
      decoder := decoder
      current := rows.head?.map fun row => (M.sampler row, row)
      yielded := []
      ntoks := 0
      raised := false }

end FusionMlx.PromptLookup
