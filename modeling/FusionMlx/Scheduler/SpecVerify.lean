import Mathlib.Data.List.Basic

/-!
# Verifying drafts against the target model

The prompt cache is a list of layers: a KV cache with one value for each
position, which can be trimmed, or a recurrent state, which cannot. The model
is a parameter: what a layer writes for a token depends on the caches as they
are at that moment. A forward pass over several tokens is causal, so it is the
tokens one after the other.
-/
namespace FusionMlx.SpecVerify

variable {τ ν σ : Type}

inductive Layer (ν σ : Type) where
  | kv (positions : List ν)
  | recurrent (state : σ)
  deriving DecidableEq

namespace Layer

def isTrimmable : Layer ν σ → Bool
  | kv _ => true
  | recurrent _ => false

def trim (n : Nat) : Layer ν σ → Layer ν σ
  | kv ps => kv (ps.take (ps.length - n))
  | recurrent s => recurrent s

def absorb (fold : σ → ν → σ) (v : ν) : Layer ν σ → Layer ν σ
  | kv ps => kv (ps ++ [v])
  | recurrent s => recurrent (fold s v)

end Layer

/-- `write i` is what layer `i` makes of a token, `predict` the greedy token
after what the caches hold. -/
structure Model (τ ν σ : Type) where
  write : Nat → τ → List (Layer ν σ) → ν
  fold : Nat → σ → ν → σ
  predict : List (Layer ν σ) → τ

namespace Model

def feedOne (m : Model τ ν σ) (cache : List (Layer ν σ)) (t : τ) : List (Layer ν σ) :=
  cache.mapIdx (fun i l => l.absorb (m.fold i) (m.write i t cache))

def feed (m : Model τ ν σ) (cache : List (Layer ν σ)) (ts : List τ) : List (Layer ν σ) :=
  ts.foldl m.feedOne cache

def greedy (m : Model τ ν σ) (cache : List (Layer ν σ)) : List τ → List τ
  | [] => []
  | t :: ts => m.predict (m.feedOne cache t) :: m.greedy (m.feedOne cache t) ts

end Model

def snapshotNonTrimmable (cache : List (Layer ν σ)) : Option (List (Nat × Layer ν σ)) :=
  let snapshots := (cache.zipIdx.filter (fun p => !p.1.isTrimmable)).map Prod.swap
  if snapshots.isEmpty then none else some snapshots

def restoreNonTrimmable (cache : List (Layer ν σ)) (snapshots : List (Nat × Layer ν σ)) :
    List (Layer ν σ) :=
  snapshots.foldl (fun c p => c.set p.1 p.2) cache

def trimTrimmable (cache : List (Layer ν σ)) (numTokens : Nat) : List (Layer ν σ) :=
  cache.map (fun l => if l.isTrimmable then l.trim numTokens else l)

/-- `_rollback_spec_cache`: the accepted prefix is replayed while the trimmable
layers still hold all drafts, and only then are these trimmed. -/
def rollbackSpecCache (m : Model τ ν σ) (cache : List (Layer ν σ))
    (snapshots : Option (List (Nat × Layer ν σ))) (draftTokens : List τ)
    (nAccepted cacheTokensProcessed : Nat) : List (Layer ν σ) :=
  match snapshots with
  | some snaps =>
    let restored := restoreNonTrimmable cache snaps
    let replayed := if nAccepted > 0 then m.feed restored (draftTokens.take nAccepted) else restored
    if cacheTokensProcessed > 0 then trimTrimmable replayed cacheTokensProcessed else replayed
  | none =>
    let trimCount := cacheTokensProcessed - nAccepted
    if trimCount > 0 then trimTrimmable cache trimCount else cache

def specDecodeRollback (m : Model τ ν σ) (cache : List (Layer ν σ))
    (snapshots : Option (List (Nat × Layer ν σ))) (draftTokens : List τ)
    (nAccepted cacheTokensProcessed : Nat) : List (Layer ν σ) :=
  let nRejected := cacheTokensProcessed - nAccepted
  let replayed := match snapshots with
    | some snaps =>
      let restored := restoreNonTrimmable cache snaps
      if nAccepted > 0 then m.feed restored (draftTokens.take nAccepted) else restored
    | none => cache
  let trimCount := if snapshots.isSome then cacheTokensProcessed else nRejected
  if trimCount > 0 then trimTrimmable replayed trimCount else replayed

def dflashRollback (m : Model τ ν σ) (cache : List (Layer ν σ))
    (snapshots : Option (List (Nat × Layer ν σ))) (draftTokens : List τ)
    (nAccepted cacheTokensProcessed : Nat) : List (Layer ν σ) :=
  specDecodeRollback m cache snapshots draftTokens nAccepted cacheTokensProcessed

variable [DecidableEq τ]

def matching : List τ → List τ → Nat
  | s :: ss, d :: ds => if s = d then matching ss ds + 1 else 0
  | _, _ => 0

structure Verdict (τ : Type) where
  verified : List τ
  nAccepted : Nat
  cacheTokensProcessed : Nat
  deriving DecidableEq

/-- `_verify_drafts`, and `_run_spec_verify`; the callers pass at least one
draft. When every prediction agrees the loop ends without a break and all
drafts count as accepted. -/
def verifyDrafts (m : Model τ ν σ) (draftTokens : List τ) (cache : List (Layer ν σ))
    (sampledFromRegular : Option τ) : Verdict τ × List (Layer ν σ) :=
  match draftTokens with
  | [] => (⟨[], 0, 0⟩, cache)
  | d :: ds =>
    match sampledFromRegular.filter (· ≠ d) with
    | some s => (⟨[s], 0, 0⟩, cache)
    | none =>
      let first := if sampledFromRegular.isSome then 1 else 0
      if ds = [] then (⟨[d], first, 0⟩, cache)
      else
        let sampled := m.greedy cache (d :: ds)
        let agreeing := matching sampled ds
        let nAccepted := if agreeing = ds.length then ds.length + 1 else first + agreeing
        (⟨(d :: ds).take nAccepted ++ sampled[nAccepted - 1]?.toList, nAccepted, ds.length + 1⟩,
          m.feed cache (d :: ds))

end FusionMlx.SpecVerify
