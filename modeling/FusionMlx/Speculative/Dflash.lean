import FusionMlx.Support.Decoding

/-!
# DFlash block decoding

Each round a drafter proposes a block, the target model reads the last token
and the block at once, and the cache is rewound behind the drafts it agrees
with. Layers hold the tokens they were fed; the offset of a layer is their
number, and to assign it truncates the layer.
-/
namespace FusionMlx.Dflash

open Decoding

abbrev Layer := List Nat

/-- The target model: `next` is the greedy token after a sequence. It has at least one layer;
`trims` says that its layers have a `trim` method too. -/
structure Target where
  next : List Nat → Nat
  moreLayers : Nat
  trims : Bool

def held (cache : List Layer) : List Nat := cache.headD []

/-- `argmax(model(x[None], cache=cache))`: every layer takes the tokens, and there is a greedy token
after each of them. -/
def Target.call (T : Target) (cache : List Layer) (x : List Nat) : List Layer × List Nat :=
  (cache.map (· ++ x), afterEach T.next (held cache) x)

structure VerifyResult where
  acceptedTokens : List Nat
  bonusToken : Int
  acceptedLen : Nat
  blockWasFull : Bool
  verifyOffsetAfter : Nat

def decideAcceptedPrefix (verifyArgmax draftTokens : List Nat) : Nat × Int :=
  let acceptedLen := leading verifyArgmax draftTokens
  if acceptedLen = draftTokens.length then (acceptedLen, -1)
  else (acceptedLen, (verifyArgmax[acceptedLen]?).elim (-1) Int.ofNat)

def rewindLayer (trims : Bool) (targetOffset : Nat) (c : Layer) : Layer :=
  if targetOffset < c.length then c.take targetOffset
  else if trims then c.take (c.length - targetOffset)
  else c

def verifyBlock (T : Target) (cache : List Layer) (draftBlock : List Nat)
    (lastConfirmedToken blockSize currentOffset : Nat) : List Layer × VerifyResult :=
  let (cache, verifyArgmax) := T.call cache (lastConfirmedToken :: draftBlock)
  let (acceptedLen, bonusToken) := decideAcceptedPrefix (verifyArgmax.take blockSize) draftBlock
  let blockWasFull := acceptedLen = blockSize
  let bonusToken := if blockWasFull then (verifyArgmax[blockSize]?).elim bonusToken Int.ofNat else bonusToken
  let verifyOffsetAfter := currentOffset + acceptedLen
  (if blockWasFull then cache else cache.map (rewindLayer T.trims verifyOffsetAfter),
    { acceptedTokens := draftBlock.take acceptedLen
      bonusToken := bonusToken
      acceptedLen := acceptedLen
      blockWasFull := blockWasFull
      verifyOffsetAfter := verifyOffsetAfter })

structure AcceptCounter where
  attempts : Nat := 0
  accepts : Nat := 0
  tokensSaved : Nat := 0

structure VerifyCall where
  cache : List Layer
  currentOffset : Nat
  yielded : List Nat

structure Generator where
  cache : List Layer
  yielded : List (Nat × Bool)
  lastConfirmed : Nat
  currentOffset : Nat
  draftCalls : Nat
  verifyCalls : List VerifyCall
  acceptCounter : AcceptCounter
  returned : Bool
  ranOut : Bool

def Generator.call (s : Generator) : VerifyCall where
  cache := s.cache
  currentOffset := s.currentOffset
  yielded := s.yielded.map Prod.fst

/-- The blocks of a drafter, call by call; nothing is its `IndexError`. -/
abbrev Drafter (blockSize : Nat) := Nat → Option { b : List Nat // b.length = blockSize }

def Generator.yieldOne (maxTokens : Nat) (s : Generator) (tok : Nat) (fromDraft : Bool) : Generator :=
  { s with yielded := s.yielded ++ [(tok, fromDraft)], returned := maxTokens ≤ s.yielded.length + 1 }

def Generator.yieldAccepted (maxTokens : Nat) (s : Generator) : List Nat → Generator
  | [] => s
  | tok :: toks =>
    if (s.yieldOne maxTokens tok true).returned then s.yieldOne maxTokens tok true
    else (s.yieldOne maxTokens tok true).yieldAccepted maxTokens toks

def AcceptCounter.record (c : AcceptCounter) (acceptedLen : Nat) : AcceptCounter :=
  if 0 < acceptedLen then
    { attempts := c.attempts + 1, accepts := c.accepts + 1, tokensSaved := c.tokensSaved + (acceptedLen - 1) }
  else { c with attempts := c.attempts + 1 }

def round (T : Target) {blockSize : Nat} (drafter : Drafter blockSize) (maxTokens : Nat) (s : Generator) : Generator :=
  match drafter s.draftCalls with
  | none => { s with returned := true, ranOut := true }
  | some draftBlock =>
    let (cache, result) := verifyBlock T s.cache draftBlock.val s.lastConfirmed blockSize s.currentOffset
    let s := { s with
      cache := cache
      draftCalls := s.draftCalls + 1
      verifyCalls := s.verifyCalls ++ [s.call]
      acceptCounter := s.acceptCounter.record result.acceptedLen }
    let s := s.yieldAccepted maxTokens result.acceptedTokens
    if s.returned then s
    else
      let s := if 0 ≤ result.bonusToken then s.yieldOne maxTokens result.bonusToken.toNat false else s
      if s.returned then s
      else { s with lastConfirmed := result.bonusToken.toNat, currentOffset := result.verifyOffsetAfter + 1 }

def rounds (T : Target) {blockSize : Nat} (drafter : Drafter blockSize) (maxTokens : Nat) : Nat → Generator → Generator
  | 0, s => s
  | n + 1, s => if s.returned then s else rounds T drafter maxTokens n (round T drafter maxTokens s)

def prefill (T : Target) (prompt : List Nat) (maxTokens : Nat) : Generator :=
  let (cache, logits) := T.call (List.replicate (T.moreLayers + 1) []) prompt
  let primaryToken := logits.getLastD 0
  let s : Generator :=
    { cache := cache, yielded := [], lastConfirmed := primaryToken, currentOffset := prompt.length, draftCalls := 0,
      verifyCalls := [], acceptCounter := {}, returned := false, ranOut := false }
  s.yieldOne maxTokens primaryToken false

inductive ValueError where
  | blockSize | prompt | maxTokens

/-- `dflash_generate_step`, with a drafter whose block size is the one asked for. -/
def dflashGenerateStep (T : Target) (prompt : List Nat) {blockSize : Nat} (drafter : Drafter blockSize) (maxTokens : Nat) :
    Except ValueError Generator :=
  if blockSize < 1 then .error .blockSize
  else if prompt = [] then .error .prompt
  else if maxTokens < 1 then .error .maxTokens
  else .ok (rounds T drafter maxTokens maxTokens (prefill T prompt maxTokens))

end FusionMlx.Dflash
