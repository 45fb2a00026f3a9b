import FusionMlx.Support.OrderedDict
import Mathlib.Data.List.Infix

/-!
# The suffix drafter

Every k-gram of the last tokens is indexed by the positions where it ends, told
from the start of the stream. A draft is what most earlier occurrences of the
current suffix go on with.
-/
namespace FusionMlx.SuffixDecoding

open OrderedDict

variable {τ : Type} [DecidableEq τ]

/-- The parameters. Whether so many votes of so many are below the confidence floor is left to the floating
point comparison. -/
structure Config where
  maxDraftTokens : Nat
  maxSuffixLen : Nat
  maxHistory : Option Int
  below : Nat → Nat → Bool

structure SuffixDecodingDrafter (τ : Type) [DecidableEq τ] where
  tokens : List τ
  shift : Nat
  suffixIndex : Nat → Dict (List τ) (List Nat)

namespace SuffixDecodingDrafter

def new : SuffixDecodingDrafter τ where
  tokens := []
  shift := 0
  suffixIndex := fun _ => Dict.empty

def indexLast (tokens : List τ) (absPos : Nat) (k : Nat) (bucket : Dict (List τ) (List Nat)) : Dict (List τ) (List Nat) :=
  if tokens.length < k then bucket
  else
    let kgram := tokens.drop (tokens.length - k)
    bucket.set kgram ((bucket.get? kgram).getD [] ++ [absPos])

def prune (threshold : Nat) (bucket : Dict (List τ) (List Nat)) : Dict (List τ) (List Nat) :=
  let fresh := bucket.mapValues (fun _ ends => ends.filter (threshold ≤ ·))
  fresh.filterKeys (fun kgram => fresh.get? kgram ≠ some [])

def eachK (maxSuffixLen : Nat) (f : Nat → Dict (List τ) (List Nat) → Dict (List τ) (List Nat))
    (index : Nat → Dict (List τ) (List Nat)) : Nat → Dict (List τ) (List Nat) :=
  fun k => if 1 ≤ k ∧ k ≤ maxSuffixLen then f k (index k) else index k

variable (C : Config)

def excess (tokens : List τ) : Nat :=
  match C.maxHistory with
  | none => 0
  | some m => ((tokens.length : Int) - m).toNat

def addOne (d : SuffixDecodingDrafter τ) (token : τ) : SuffixDecodingDrafter τ :=
  let tokens := d.tokens ++ [token]
  let absPos := d.shift + tokens.length - 1
  let index := eachK C.maxSuffixLen (indexLast tokens absPos) d.suffixIndex
  let drop := excess C tokens
  if 0 < drop then
    { tokens := tokens.drop drop
      shift := d.shift + drop
      suffixIndex := eachK C.maxSuffixLen (fun k => prune (d.shift + drop + k - 1)) index }
  else { tokens := tokens, shift := d.shift, suffixIndex := index }

end SuffixDecodingDrafter

def mostCommon : List τ → Option (τ × Nat)
  | [] => none
  | x :: xs =>
    let top := xs.foldl (fun best y => if (x :: xs).count best < (x :: xs).count y then y else best) x
    some (top, (x :: xs).count top)

namespace SuffixDecodingDrafter

variable (C : Config) (d : SuffixDecodingDrafter τ)

def continuation (offset endAbs : Nat) : Option τ :=
  if d.shift ≤ endAbs + 1 + offset then d.tokens[endAbs + 1 + offset - d.shift]? else none

def buildDraft (currentEndAbs : Nat) : Nat → Nat → List Nat → List τ
  | 0, _, _ => []
  | n + 1, offset, positions =>
    let votes := (positions.filter (· ≠ currentEndAbs)).filterMap (d.continuation offset)
    match mostCommon votes with
    | none => []
    | some (top, topCount) =>
      if C.below topCount votes.length then []
      else
        let kept := positions.filter (fun e => e ≠ currentEndAbs ∧ d.continuation offset e = some top)
        if kept = [] then [top] else top :: buildDraft currentEndAbs n (offset + 1) kept

def draftFrom : Nat → List τ
  | 0 => []
  | k + 1 =>
    let positions := ((d.suffixIndex (k + 1)).get? (d.tokens.drop (d.tokens.length - (k + 1)))).getD []
    let draft := d.buildDraft C (d.shift + d.tokens.length - 1) C.maxDraftTokens 0 positions
    if draft = [] then draftFrom k else draft

def getDraft : List τ := d.draftFrom C (min C.maxSuffixLen d.tokens.length)

end SuffixDecodingDrafter

def window (C : Config) (stream : List τ) : List τ :=
  match C.maxHistory with
  | none => stream
  | some m => stream.drop (stream.length - m.toNat)

def ends (tokens g : List τ) : List Nat := (List.range tokens.length).filter (fun i => g.isSuffixOf (tokens.take (i + 1)))

def agreeing (tokens : List τ) (k : Nat) (draft : List τ) : List Nat :=
  (ends tokens (tokens.drop (tokens.length - k))).filter
    (fun i => i + 1 ≠ tokens.length ∧ draft.isPrefixOf (tokens.drop (i + 1)))

def extend (C : Config) (tokens : List τ) (k : Nat) : Nat → List τ → List τ
  | 0, draft => draft
  | n + 1, draft =>
    let votes := (agreeing tokens k draft).filterMap (fun i => tokens[i + 1 + draft.length]?)
    match mostCommon votes with
    | none => draft
    | some (top, topCount) =>
      if C.below topCount votes.length then draft else extend C tokens k n (draft ++ [top])

def reference (C : Config) (tokens : List τ) : Nat → List τ
  | 0 => []
  | k + 1 =>
    let draft := extend C tokens (k + 1) C.maxDraftTokens []
    if draft = [] then reference C tokens k else draft

end FusionMlx.SuffixDecoding
