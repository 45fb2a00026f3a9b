import Mathlib.Data.List.Basic

/-!
# A speculative step that fails

The verify forward writes the drafts into every layer of the cache. Layers that
can be trimmed before it are rolled back by their length, the others from a copy
that was made before. A layer is asked again at each trim, and what it answers
may have changed with what was written. The copies are the objects that are put
back, so a forward after that writes into them.
-/
namespace FusionMlx.SpecDecodeStep

variable {τ σ : Type} [DecidableEq τ]

/-- The methods of the layers: `is_trimmable()`, a forward over tokens, `trim(n)`. -/
structure LayerOps (τ σ : Type) where
  isTrimmable : σ → Bool
  write : σ → List τ → σ
  trim : σ → Nat → σ

structure Slot (σ : Type) where
  own : σ
  copy : Option σ
  swapped : Bool

def LayerOps.trimTrimmable (L : LayerOps τ σ) (n : Nat) (s : σ) : σ :=
  if L.isTrimmable s then L.trim s n else s

namespace Slot

def take (L : LayerOps τ σ) (l : σ) : Slot σ :=
  { own := l, copy := if L.isTrimmable l then none else some l, swapped := false }

def value (s : Slot σ) : σ := if s.swapped then s.copy.getD s.own else s.own

def update (f : σ → σ) (s : Slot σ) : Slot σ :=
  if s.swapped then { s with copy := s.copy.map f } else { s with own := f s.own }

def restore (s : Slot σ) : Slot σ := if s.copy.isSome then { s with swapped := true } else s

end Slot

/-- A call that may raise after some layers were changed. -/
inductive Outcome (α : Type) where
  | raised (changed : Nat → Bool)
  | ok (result : α)

structure Env (τ : Type) where
  sampledFromRegular : Option τ
  verify : Outcome (List τ)
  replay : Outcome Unit
  trim : Outcome Unit

inductive Failure where
  | verify (changed : Nat → Bool)
  | replay (accepted : Nat) (changed : Nat → Bool)
  | trim (accepted : Nat) (changed : Nat → Bool)

inductive Result (τ σ : Type) where
  | finished (verified : List τ) (slots : List (Slot σ))
  | raised (where_ : Failure) (slots : List (Slot σ))

section Step

variable (L : LayerOps τ σ) (env : Env τ) (draft : List τ)

def writeSome (changed : Nat → Bool) (tokens : List τ) (slots : List (Slot σ)) : List (Slot σ) :=
  slots.mapIdx (fun i s => if changed i then s.update (L.write · tokens) else s)

def trimSome (changed : Nat → Bool) (n : Nat) (slots : List (Slot σ)) : List (Slot σ) :=
  slots.mapIdx (fun i s => if changed i then s.update (L.trimTrimmable n) else s)

def all : Nat → Bool := fun _ => true

def handler (failure : Failure) (slots : List (Slot σ)) : Result τ σ :=
  .raised failure (trimSome L all draft.length (slots.map Slot.restore))

def agreed : List τ → List τ → Nat
  | s :: ss, d :: ds => if s = d then agreed ss ds + 1 else 0
  | _, _ => 0

/-- The comparison of `_run_spec_verify`: `accepted` starts with the first draft. -/
def countAccepted (first : Nat) (sampled : List τ) : Nat :=
  if agreed sampled draft.tail = draft.length - 1 then draft.length else first + agreed sampled draft.tail

def rollback (verified : List τ) (accepted : Nat) (slots : List (Slot σ)) : Result τ σ :=
  let hasCopies := slots.any (fun s => s.copy.isSome)
  let slots := if hasCopies then slots.map Slot.restore else slots
  let replayed :=
    if hasCopies ∧ 0 < accepted then
      match env.replay with
      | .raised changed => Except.error (changed, writeSome L changed (draft.take accepted) slots)
      | .ok _ => Except.ok (writeSome L all (draft.take accepted) slots)
    else Except.ok slots
  match replayed with
  | .error (changed, slots) => handler L draft (.replay accepted changed) slots
  | .ok slots =>
    let trimCount := if hasCopies then draft.length else draft.length - accepted
    match env.trim with
    | .raised changed => handler L draft (.trim accepted changed) (trimSome L changed trimCount slots)
    | .ok _ => .finished verified (trimSome L all trimCount slots)

def specDecodeStep (cache : List σ) : Result τ σ :=
  let slots := cache.map (Slot.take L)
  let first := if env.sampledFromRegular.isSome then 1 else 0
  if env.sampledFromRegular.isSome ∧ env.sampledFromRegular ≠ draft.head? then
    .finished env.sampledFromRegular.toList slots
  else if draft.length = 1 then .finished (draft.take 1) slots
  else
    match env.verify with
    | .raised changed => handler L draft (.verify changed) (writeSome L changed draft slots)
    | .ok sampled =>
      let accepted := countAccepted draft first sampled
      let verified := draft.take accepted ++ (sampled[accepted - 1]?).toList
      let slots := writeSome L all draft slots
      if accepted < draft.length then rollback L env draft verified accepted slots
      else .finished verified slots

end Step

section Handler

variable (L : LayerOps τ σ) (draft : List τ) (hasCopies : Bool)

/-- The handler takes the layer `s` back to `l`: it can be trimmed, and a trim of `n` positions gives
`l`, or it cannot be and is `l`. -/
def LayerOps.Undone (n : Nat) (l s : σ) : Prop := if L.isTrimmable s then L.trim s n = l else s = l

def heldOwn (failure : Failure) (i : Nat) (l : σ) : σ :=
  match failure with
  | .verify changed => if changed i then L.write l draft else l
  | .replay accepted changed =>
    if changed i then L.write (L.write l draft) (draft.take accepted) else L.write l draft
  | .trim accepted changed =>
    let s := if hasCopies ∧ 0 < accepted then L.write (L.write l draft) (draft.take accepted)
      else L.write l draft
    if changed i then L.trimTrimmable (if hasCopies then draft.length else draft.length - accepted) s else s

def heldCopy (failure : Failure) (i : Nat) (l : σ) : σ :=
  match failure with
  | .verify _ => l
  | .replay accepted changed => if changed i then L.write l (draft.take accepted) else l
  | .trim accepted changed =>
    let s := if 0 < accepted then L.write l (draft.take accepted) else l
    if changed i then L.trimTrimmable draft.length s else s

/-- The handler gives a layer back its value. -/
def GivesBack (failure : Failure) (i : Nat) (l : σ) : Prop :=
  L.Undone draft.length l
    (if L.isTrimmable l then heldOwn L draft hasCopies failure i l else heldCopy L draft failure i l)

def struck (failure : Failure) (i : Nat) (l : σ) : Slot σ :=
  let wrote (b : Bool) (tokens : List τ) (s : Slot σ) := if b then s.update (L.write · tokens) else s
  match failure with
  | .verify changed => wrote (changed i) draft (Slot.take L l)
  | .replay accepted changed => wrote (changed i) (draft.take accepted) (wrote true draft (Slot.take L l)).restore
  | .trim accepted changed =>
    let s := wrote (hasCopies && decide (0 < accepted)) (draft.take accepted) (wrote true draft (Slot.take L l)).restore
    if changed i then s.update (L.trimTrimmable (if hasCopies then draft.length else draft.length - accepted))
    else s

def leftOver (failure : Failure) (i : Nat) (l : σ) : Slot σ :=
  (struck L draft hasCopies failure i l).restore.update (L.trimTrimmable draft.length)

end Handler

variable {L : LayerOps τ σ} {env : Env τ} {draft : List τ} {cache : List σ} {failure : Failure}
  {slots : List (Slot σ)}

omit [DecidableEq τ] in
theorem undone_iff {n : Nat} {l s : σ} : L.trimTrimmable n s = l ↔ L.Undone n l s := by
  unfold LayerOps.trimTrimmable LayerOps.Undone
  split <;> rfl

omit [DecidableEq τ] in
/-- A layer that could be trimmed stays where it was. -/
theorem struck_own (hasCopies : Bool) (i : Nat) {l : σ} (hl : L.isTrimmable l = true) :
    struck L draft hasCopies failure i l = ⟨heldOwn L draft hasCopies failure i l, none, false⟩ := by
  cases failure with
  | verify changed =>
    by_cases hc : changed i <;> simp [struck, heldOwn, hc, Slot.take, Slot.update, hl]
  | replay n changed =>
    by_cases hc : changed i <;> simp [struck, heldOwn, hc, Slot.take, Slot.update, Slot.restore, hl]
  | trim n changed =>
    by_cases hc : changed i <;> by_cases h0 : hasCopies = true ∧ 0 < n <;>
      simp [struck, heldOwn, hc, h0, Slot.take, Slot.update, Slot.restore, hl]

omit [DecidableEq τ] in
/-- Another one gets its copy back, with what a replay has written into it. -/
theorem struck_copy (i : Nat) {l : σ} (hl : L.isTrimmable l = false) :
    ∃ o, (struck L draft true failure i l).restore = ⟨o, some (heldCopy L draft failure i l), true⟩ := by
  cases failure with
  | verify changed =>
    by_cases hc : changed i <;> simp [struck, heldCopy, hc, Slot.take, Slot.update, Slot.restore, hl]
  | replay n changed =>
    by_cases hc : changed i <;> simp [struck, heldCopy, hc, Slot.take, Slot.update, Slot.restore, hl]
  | trim n changed =>
    by_cases hc : changed i <;> by_cases h0 : 0 < n <;>
      simp [struck, heldCopy, hc, h0, Slot.take, Slot.update, Slot.restore, hl]

omit [DecidableEq τ] in
/-- The place has its value again exactly when the handler gives it back. -/
theorem leftOver_value (hasCopies : Bool) (i : Nat) (l : σ)
    (hcopies : hasCopies = false → L.isTrimmable l = true) :
    (leftOver L draft hasCopies failure i l).value = l ↔ GivesBack L draft hasCopies failure i l := by
  unfold GivesBack
  rw [← undone_iff]
  cases hl : L.isTrimmable l with
  | true =>
    rw [leftOver, struck_own hasCopies i hl]
    rfl
  | false =>
    obtain rfl : hasCopies = true := by
      cases hasCopies with
      | true => rfl
      | false => exact absurd (hcopies rfl) (by simp [hl])
    obtain ⟨o, ho⟩ : ∃ o, (struck L draft true failure i l).restore = _ := struck_copy i hl
    rw [leftOver, ho]
    rfl

def positions (canTrim : List τ → Bool) : LayerOps τ (List τ) :=
  ⟨canTrim, (· ++ ·), fun t n => t.take (t.length - n)⟩

omit [DecidableEq τ] in
/-- A layer of positions is given back its value when it holds all drafts and nothing else beyond it,
or was empty, and can be trimmed; or when nothing has been written into it. -/
theorem undone_positions (canTrim : List τ → Bool) (t e : List τ) (k : Nat) :
    (positions canTrim).Undone k t (t ++ e) ↔
      if canTrim (t ++ e) then e.length = k ∨ t = [] ∧ e.length ≤ k else e = [] := by
  unfold LayerOps.Undone positions
  dsimp only
  split
  · rw [List.length_append]
    constructor
    · intro h
      have hlen := congrArg List.length h
      rw [List.length_take, List.length_append] at hlen
      by_cases ht : t = []
      · subst ht
        simp only [List.length_nil] at hlen
        exact .inr ⟨rfl, by omega⟩
      · have := List.length_pos_iff.2 ht
        exact .inl (by omega)
    · rintro (h | ⟨rfl, h⟩)
      · rw [show t.length + e.length - k = t.length by omega, List.take_left]
      · rw [List.length_nil, show 0 + e.length - k = 0 by omega, List.take_zero]
  · exact List.append_right_eq_self

def hybrid (L : LayerOps τ σ) (cache : List σ) : Bool := cache.any (fun l => !L.isTrimmable l)

def strikes (env : Env τ) (draft : List τ) (hasCopies : Bool) : Option Failure :=
  if env.sampledFromRegular.isSome ∧ env.sampledFromRegular ≠ draft.head? ∨ draft.length = 1 then none
  else
    match env.verify with
    | .raised changed => some (.verify changed)
    | .ok sampled =>
      let accepted := countAccepted draft (if env.sampledFromRegular.isSome then 1 else 0) sampled
      if accepted < draft.length then
        match hasCopies && decide (0 < accepted), env.replay, env.trim with
        | true, .raised changed, _ => some (.replay accepted changed)
        | _, _, .raised changed => some (.trim accepted changed)
        | _, _, _ => none
      else none

omit [DecidableEq τ] in
theorem handler_leftOver {hasCopies : Bool} {struckSlots : List (Slot σ)}
    (h : struckSlots.map Slot.restore = cache.mapIdx (fun i l => (struck L draft hasCopies failure i l).restore)) :
    handler L draft failure struckSlots = .raised failure (cache.mapIdx (leftOver L draft hasCopies failure)) := by
  rw [handler, h, trimSome, List.mapIdx_mapIdx]
  rfl

omit [DecidableEq τ] in
@[simp] theorem copy_take (l : σ) : (Slot.take L l).copy.isSome = !L.isTrimmable l := by
  cases h : L.isTrimmable l <;> simp [Slot.take, h]

omit [DecidableEq τ] in
@[simp] theorem copy_update (f : σ → σ) (s : Slot σ) : (s.update f).copy.isSome = s.copy.isSome := by
  unfold Slot.update
  split <;> simp

omit [DecidableEq τ] in
/-- A forward keeps the copies, so that `hasCopies` is told by the cache. -/
theorem any_copies (tokens : List τ) :
    (writeSome L all tokens (cache.map (Slot.take L))).any (fun s => s.copy.isSome) = hybrid L cache := by
  have hmap : (writeSome L all tokens (cache.map (Slot.take L))).map (fun s => s.copy.isSome) =
      cache.map (fun l => !L.isTrimmable l) := by
    refine List.ext_getElem? (fun i => ?_)
    cases h : cache[i]? with
    | none => simp [writeSome, h]
    | some l => simp [writeSome, all, h]
  have hany := congrArg (fun bs => List.any bs id) hmap
  simpa [List.any_map, hybrid, Function.comp_def] using hany

omit [DecidableEq τ] in
theorem trimmable_of_pure (hpure : hybrid L cache = false) {i : Nat} {l : σ} (hl : cache[i]? = some l) :
    L.isTrimmable l = true := by
  have h := List.any_eq_false.1 hpure l (List.mem_of_getElem? hl)
  simpa using h

omit [DecidableEq τ] in
theorem restore_of_pure (hpure : hybrid L cache = false) {i : Nat} {l : σ} (hl : cache[i]? = some l)
    {s : Slot σ} (hs : s.copy.isSome = (Slot.take L l).copy.isSome) : s.restore = s := by
  rw [copy_take, trimmable_of_pure hpure hl] at hs
  simp [Slot.restore, hs]

omit [DecidableEq τ] in
/-- A rollback of a pure cache is its trim. -/
theorem rollback_pure (hpure : hybrid L cache = false) (verified : List τ) (n : Nat) {changed : Nat → Bool}
    (htrim : env.trim = .raised changed) :
    rollback L env draft verified n (writeSome L all draft (cache.map (Slot.take L))) =
      .raised (.trim n changed) (cache.mapIdx (leftOver L draft (hybrid L cache) (.trim n changed))) := by
  unfold rollback
  rw [any_copies, hpure, htrim]
  simp only [Bool.false_eq_true, false_and, if_false]
  refine handler_leftOver (List.ext_getElem? (fun i => ?_))
  cases h : cache[i]? with
  | none => simp [trimSome, writeSome, h]
  | some l =>
    have hr : ((Slot.take L l).update (L.write · draft)).restore = (Slot.take L l).update (L.write · draft) :=
      restore_of_pure hpure h (copy_update ..)
    simp [trimSome, writeSome, all, struck, h, hr]

omit [DecidableEq τ] in
/-- In a hybrid L cache the copies are put back, and the accepted drafts replayed when there are any. -/
theorem rollback_hybrid (hhybrid : hybrid L cache = true) (verified : List τ) (n : Nat)
    (hstrikes : (match decide (0 < n), env.replay, env.trim with
      | true, .raised changed, _ => some (Failure.replay n changed)
      | _, _, .raised changed => some (.trim n changed)
      | _, _, _ => none) = some failure) :
    rollback L env draft verified n (writeSome L all draft (cache.map (Slot.take L))) =
      .raised failure (cache.mapIdx (leftOver L draft (hybrid L cache) failure)) := by
  unfold rollback
  rw [any_copies, hhybrid]
  by_cases h0 : 0 < n
  · cases hreplay : env.replay with
    | raised changed =>
      simp only [h0, hreplay, decide_true] at hstrikes
      obtain rfl := Option.some.inj hstrikes
      simp only [h0, and_self, if_true]
      refine handler_leftOver (List.ext_getElem? (fun i => ?_))
      cases h : cache[i]? with
      | none => simp [writeSome, h]
      | some l => simp [writeSome, all, struck, h]
    | ok =>
      cases htrim : env.trim with
      | raised changed =>
        simp only [h0, hreplay, htrim, decide_true] at hstrikes
        obtain rfl := Option.some.inj hstrikes
        simp only [h0, and_self, if_true]
        refine handler_leftOver (List.ext_getElem? (fun i => ?_))
        cases h : cache[i]? with
        | none => simp [trimSome, writeSome, h]
        | some l => simp [trimSome, writeSome, all, struck, h0, h]
      | ok =>
        simp only [h0, hreplay, htrim, decide_true] at hstrikes
        cases hstrikes
  · cases htrim : env.trim with
    | raised changed =>
      simp only [h0, htrim, decide_false] at hstrikes
      obtain rfl := Option.some.inj hstrikes
      simp only [h0, and_false, if_false]
      refine handler_leftOver (List.ext_getElem? (fun i => ?_))
      cases h : cache[i]? with
      | none => simp [trimSome, writeSome, h]
      | some l => simp [trimSome, writeSome, all, struck, h0, h]
    | ok =>
      simp only [h0, htrim, decide_false] at hstrikes
      cases hstrikes

/-- The step fails where its calls make it fail, and every place is then left over from its layer. -/
theorem specDecodeStep_strikes (hstrikes : strikes env draft (hybrid L cache) = some failure) :
    specDecodeStep L env draft cache =
      .raised failure (cache.mapIdx (leftOver L draft (hybrid L cache) failure)) := by
  unfold strikes at hstrikes
  unfold specDecodeStep
  split at hstrikes
  · cases hstrikes
  · rename_i hgo
    rw [not_or] at hgo
    rw [if_neg hgo.1, if_neg hgo.2]
    cases hverify : env.verify with
    | raised changed =>
      rw [hverify] at hstrikes
      obtain rfl := Option.some.inj hstrikes
      refine handler_leftOver (List.ext_getElem? (fun i => ?_))
      cases h : cache[i]? with
      | none => simp [writeSome, h]
      | some l => simp [writeSome, struck, h]
    | ok sampled =>
      rw [hverify] at hstrikes
      dsimp only at hstrikes ⊢
      generalize countAccepted draft (if env.sampledFromRegular.isSome then 1 else 0) sampled = n at hstrikes ⊢
      by_cases hn : n < draft.length
      · rw [if_pos hn] at hstrikes ⊢
        cases hhybrid : hybrid L cache with
        | true =>
          rw [hhybrid, Bool.true_and] at hstrikes
          exact hhybrid ▸ rollback_hybrid hhybrid _ n hstrikes
        | false =>
          rw [hhybrid, Bool.false_and] at hstrikes
          cases htrim : env.trim with
          | raised changed =>
            rw [htrim] at hstrikes
            obtain rfl := Option.some.inj hstrikes
            exact hhybrid ▸ rollback_pure hhybrid _ n htrim
          | ok =>
            rw [htrim] at hstrikes
            cases hstrikes
      · rw [if_neg hn] at hstrikes
        cases hstrikes

variable (L) in
/-- Where nothing strikes, the step ends. -/
theorem specDecodeStep_finished (hstrikes : strikes env draft (hybrid L cache) = none) :
    ∃ verified slots, specDecodeStep L env draft cache = .finished verified slots := by
  unfold strikes at hstrikes
  unfold specDecodeStep
  split at hstrikes
  · rename_i hstop
    rcases hstop with hstop | hstop
    · exact ⟨_, _, if_pos hstop⟩
    · by_cases hfirst : env.sampledFromRegular.isSome ∧ env.sampledFromRegular ≠ draft.head?
      · exact ⟨_, _, if_pos hfirst⟩
      · exact ⟨_, _, (if_neg hfirst).trans (if_pos hstop)⟩
  · rename_i hgo
    rw [not_or] at hgo
    rw [if_neg hgo.1, if_neg hgo.2]
    cases hverify : env.verify with
    | raised changed =>
      rw [hverify] at hstrikes
      cases hstrikes
    | ok sampled =>
      rw [hverify] at hstrikes
      dsimp only at hstrikes ⊢
      generalize countAccepted draft (if env.sampledFromRegular.isSome then 1 else 0) sampled = n at hstrikes ⊢
      by_cases hn : n < draft.length
      · rw [if_pos hn] at hstrikes ⊢
        unfold rollback
        rw [any_copies]
        cases htrim : env.trim with
        | raised changed =>
          rw [htrim] at hstrikes
          split at hstrikes
          · cases hstrikes
          · cases hstrikes
          · rename_i hno
            exact absurd rfl (hno changed)
        | ok =>
          by_cases hreplays : hybrid L cache = true ∧ 0 < n
          · cases hreplay : env.replay with
            | raised changed => simp [hreplays.1, hreplays.2, hreplay] at hstrikes
            | ok => exact ⟨_, _, by simp only [hreplays, and_self, if_true]; rfl⟩
          · exact ⟨_, _, by simp only [hreplays, if_false]; rfl⟩
      · exact ⟨_, _, if_neg hn⟩

/-- A step that raises leaves the cache as it was exactly when the handler gives every layer back its value. -/
theorem failed_step_restores_iff (h : specDecodeStep L env draft cache = .raised failure slots) :
    strikes env draft (hybrid L cache) = some failure ∧
      (slots.map Slot.value = cache ↔
        ∀ i l, cache[i]? = some l → GivesBack L draft (hybrid L cache) failure i l) := by
  cases hstrikes : strikes env draft (hybrid L cache) with
  | none =>
    obtain ⟨verified, left, hfin⟩ := specDecodeStep_finished L hstrikes
    rw [hfin] at h
    cases h
  | some struckAt =>
    rw [specDecodeStep_strikes hstrikes, Result.raised.injEq] at h
    obtain ⟨rfl, rfl⟩ := h
    refine ⟨rfl, ?_⟩
    have hlayer : ∀ i l, cache[i]? = some l →
        ((leftOver L draft (hybrid L cache) struckAt i l).value = l ↔
          GivesBack L draft (hybrid L cache) struckAt i l) := by
      intro i l hl
      exact leftOver_value (hybrid L cache) i l (fun hpure => trimmable_of_pure hpure hl)
    constructor
    · intro hsame i l hl
      have hi := congrArg (fun ls => ls[i]?) hsame
      simp only [List.getElem?_map, List.getElem?_mapIdx, hl, Option.map_some, Option.some.injEq] at hi
      exact (hlayer i l hl).1 hi
    · intro hgives
      refine List.ext_getElem? (fun i => ?_)
      cases hl : cache[i]? with
      | none => simp [hl]
      | some l => simp [hl, (hlayer i l hl).2 (hgives i l hl)]

/-- Layers of positions with a bound: without one they can always be trimmed, with one as long as they
are below it. -/
def bounded : LayerOps τ (Option Nat × List τ) where
  isTrimmable l := l.1.all (l.2.length < ·)
  write l tokens := (l.1, l.2 ++ tokens)
  trim l n := (l.1, l.2.take (l.2.length - n))

/-- The verify forward raises before it writes: the handler trims a layer of four positions by the two
drafts. Where it has written, a layer that has reached its bound is neither trimmed nor put back. -/
theorem failed_before_write_loses :
    let env (changed : Nat → Bool) : Env Nat :=
      { sampledFromRegular := none, verify := .raised changed, replay := .ok (), trim := .ok () }
    (∃ failure slots, specDecodeStep bounded (env fun _ => false) [7, 8] [(none, [1, 2, 3, 4])] =
        .raised failure slots ∧ slots.map Slot.value = [(none, [1, 2])]) ∧
      ∃ failure slots, specDecodeStep bounded (env all) [7, 8] [(some 3, [1, 2])] = .raised failure slots ∧
        slots.map Slot.value = [(some 3, [1, 2, 7, 8])] :=
  ⟨⟨_, _, rfl, rfl⟩, _, _, rfl, rfl⟩

/-- The forward that wrote all drafts is undone in a layer that can still be trimmed, and in one that
could not be and is put back. -/
theorem failed_after_write_restores :
    let env : Env Nat :=
      { sampledFromRegular := none, verify := .raised all, replay := .ok (), trim := .ok () }
    let cache : List (Option Nat × List Nat) := [(none, [1, 2]), (some 5, [4]), (some 1, [3])]
    let slots : List (Slot (Option Nat × List Nat)) :=
      [⟨(none, [1, 2]), none, false⟩, ⟨(some 5, [4]), none, false⟩,
        ⟨(some 1, [3, 7, 8]), some (some 1, [3]), true⟩]
    specDecodeStep bounded env [7, 8] cache = .raised (.verify all) slots ∧
      slots.map Slot.value = cache := by
  intro env cache slots
  have h : specDecodeStep bounded env [7, 8] cache = .raised (.verify all) slots := rfl
  refine ⟨h, (failed_step_restores_iff h).2.2 ?_⟩
  have hundone : ∀ p ∈ cache.zipIdx, GivesBack bounded [7, 8] (hybrid bounded cache) (.verify all) p.2 p.1 := by
    unfold GivesBack LayerOps.Undone
    decide
  intro i l hl
  exact hundone (l, i) (List.mk_mem_zipIdx_iff_getElem?.2 hl)

end FusionMlx.SpecDecodeStep
