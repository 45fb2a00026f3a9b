import FusionMlx.Speculative.Dflash

/-!
# When block decoding is greedy decoding

A block that is the greedy continuation leaves the cache one token behind what
is yielded. Any other block leaves it two behind, while the offset counts one.
-/
namespace FusionMlx.Dflash

open Decoding

variable {T : Target} {prompt : List Nat} {blockSize maxTokens : Nat} {drafter : Drafter blockSize}

def Generator.tokens (s : Generator) : List Nat := s.yielded.map Prod.fst

structure VerifyCall.InStep (prompt : List Nat) (c : VerifyCall) : Prop where
  layers : ∀ layer ∈ c.cache, layer = prompt ++ c.yielded.dropLast
  offset : c.currentOffset = (prompt ++ c.yielded.dropLast).length

/-- A run that returned with the greedy continuation, its cache in step at each call of the verifier. -/
structure Exact (T : Target) (prompt : List Nat) (maxTokens : Nat) (s : Generator) : Prop where
  greedy : s.tokens = continuation T.next prompt s.tokens.length
  returned : s.returned = true
  bounded : s.tokens.length ≤ maxTokens
  complete : s.tokens.length = maxTokens ∨ s.ranOut = true
  calls : ∀ c ∈ s.verifyCalls, c.InStep prompt

def Generator.sequence (s : Generator) : List Nat := held s.cache ++ [s.lastConfirmed]

theorem verifyBlock_eq (cache : List Layer) (block : List Nat) (last offset : Nat) :
    verifyBlock T cache block last block.length offset =
      let seq := held cache ++ [last]
      let a := agreed T.next seq block
      let fed := cache.map (· ++ last :: block)
      (if a = block.length then fed else fed.map (rewindLayer T.trims (offset + a)),
        { acceptedTokens := continuation T.next seq a
          bonusToken := Int.ofNat (T.next (seq ++ continuation T.next seq a))
          acceptedLen := a
          blockWasFull := decide (a = block.length)
          verifyOffsetAfter := offset + a }) := by
  have hlead : leading ((T.next (held cache ++ [last]) :: afterEach T.next (held cache ++ [last]) block).take block.length)
      block = agreed T.next (held cache ++ [last]) block := by
    rw [leading_take, leading_choices]
  have hbehind := choice_behind T.next (held cache ++ [last]) block
  have hle := agreed_le T.next (held cache ++ [last]) block
  simp only [verifyBlock, Target.call, decideAcceptedPrefix, afterEach, hlead]
  by_cases hfull : agreed T.next (held cache ++ [last]) block = block.length
  · rw [hfull] at hbehind
    simp only [hfull, if_true, hbehind, Option.elim_some, ← agreed_eq_length.1 hfull, List.take_length, decide_true]
  · have hlt : agreed T.next (held cache ++ [last]) block < block.length := Nat.lt_of_le_of_ne hle hfull
    simp only [List.getElem?_take, if_pos hlt, hbehind, Option.elim_some, take_agreed, hfull, decide_false, if_false]

theorem yieldAccepted_eq {s : Generator} (hs : s.returned = false) (hlt : s.yielded.length < maxTokens) (toks : List Nat) :
    s.yieldAccepted maxTokens toks =
      { s with
        yielded := s.yielded ++ (toks.take (maxTokens - s.yielded.length)).map (·, true)
        returned := decide (maxTokens ≤ s.yielded.length + toks.length) } := by
  induction toks generalizing s with
  | nil =>
    have hnot : ¬ maxTokens ≤ s.yielded.length := Nat.not_le.2 hlt
    simp [Generator.yieldAccepted, hnot, ← hs]
  | cons tok toks ih =>
    obtain ⟨m, hm⟩ : ∃ m, maxTokens - s.yielded.length = m + 1 := ⟨maxTokens - s.yielded.length - 1, by omega⟩
    rw [Generator.yieldAccepted, hm, List.length_cons]
    by_cases hend : maxTokens ≤ s.yielded.length + 1
    · have hm0 : m = 0 := by omega
      have hall : maxTokens ≤ s.yielded.length + (toks.length + 1) := by omega
      simp [Generator.yieldOne, hend, hm0, hall]
    · have hrest : maxTokens - (s.yielded.length + 1) = m := by omega
      have hlen : s.yielded.length + 1 + toks.length = s.yielded.length + (toks.length + 1) := by omega
      have hgo := @ih (s.yieldOne maxTokens tok true) (by simp [Generator.yieldOne, hend])
        (by simp only [Generator.yieldOne, List.length_append, List.length_singleton]; omega)
      rw [if_neg (by simp [Generator.yieldOne, hend]), hgo]
      simp only [Generator.yieldOne, List.length_append, List.length_singleton, hrest, hlen, List.take_succ_cons,
        List.map_cons, List.append_assoc, List.singleton_append]

/-- What a round with a block does, from any state: the drafts that are agreed on and one token more are
yielded, and the loop goes on behind them. -/
structure Advances (T : Target) (maxTokens : Nat) (s : Generator) (block : List Nat) (s' : Generator) : Prop where
  tokens : s'.tokens = s.tokens ++
    (continuation T.next s.sequence (agreed T.next s.sequence block + 1)).take (maxTokens - s.tokens.length)
  returned : s'.returned = decide (maxTokens ≤ s.tokens.length + (agreed T.next s.sequence block + 1))
  calls : s'.verifyCalls = s.verifyCalls ++ [s.call]
  ranOut : s'.ranOut = s.ranOut
  draftCalls : s'.draftCalls = s.draftCalls + 1
  cache : s'.cache =
    let fed := s.cache.map (· ++ s.lastConfirmed :: block)
    if agreed T.next s.sequence block = block.length then fed
    else fed.map (rewindLayer T.trims (s.currentOffset + agreed T.next s.sequence block))
  lastConfirmed : s'.returned = false → s'.lastConfirmed =
    T.next (s.sequence ++ continuation T.next s.sequence (agreed T.next s.sequence block))
  offset : s'.returned = false → s'.currentOffset = s.currentOffset + agreed T.next s.sequence block + 1

theorem round_some {s : Generator} {block : { b : List Nat // b.length = blockSize }} (hs : s.returned = false)
    (hlt : s.tokens.length < maxTokens) (hblock : drafter s.draftCalls = some block) :
    Advances T maxTokens s block.val (round T drafter maxTokens s) := by
  obtain ⟨block, rfl⟩ := block
  have hlt' : s.yielded.length < maxTokens := by simpa [Generator.tokens] using hlt
  unfold round
  rw [hblock]
  simp only [verifyBlock_eq]
  rw [yieldAccepted_eq]
  rotate_left
  · exact hs
  · exact hlt'
  simp only [length_continuation, Int.toNat_natCast, Int.ofNat_eq_natCast, Int.natCast_nonneg, if_true]
  rw [show held s.cache ++ [s.lastConfirmed] = s.sequence from rfl]
  have htokens : s.tokens.length = s.yielded.length := List.length_map ..
  have hmap : ∀ toks : List Nat, (toks.map (·, true)).map Prod.fst = toks := fun toks => by simp [Function.comp_def]
  have hmore := continuation_succ T.next s.sequence (agreed T.next s.sequence block)
  by_cases hend : maxTokens ≤ s.yielded.length + agreed T.next s.sequence block
  · have hall : maxTokens ≤ s.yielded.length + (agreed T.next s.sequence block + 1) := by omega
    have hin : maxTokens - s.yielded.length ≤ (continuation T.next s.sequence (agreed T.next s.sequence block)).length := by
      rw [length_continuation]
      omega
    simp only [hend, decide_true, if_true]
    refine ⟨?_, ?_, rfl, rfl, rfl, rfl, fun h => absurd h (by simp), fun h => absurd h (by simp)⟩
    · rw [htokens, hmore, List.take_append_of_le_length hin]
      simp only [Generator.tokens, List.map_append, hmap]
    · simp only [htokens, hall, decide_true]
  · have hout : (continuation T.next s.sequence (agreed T.next s.sequence block)).take (maxTokens - s.yielded.length) =
        continuation T.next s.sequence (agreed T.next s.sequence block) :=
      List.take_of_length_le (by rw [length_continuation]; omega)
    have hin : (continuation T.next s.sequence (agreed T.next s.sequence block + 1)).take (maxTokens - s.yielded.length) =
        continuation T.next s.sequence (agreed T.next s.sequence block + 1) :=
      List.take_of_length_le (by rw [length_continuation]; omega)
    simp only [hend, decide_false, Bool.false_eq_true, if_false, Generator.yieldOne, hout, List.length_append,
      List.length_map, length_continuation]
    by_cases hlast : maxTokens ≤ s.yielded.length + agreed T.next s.sequence block + 1
    · simp only [hlast, decide_true, if_true]
      refine ⟨?_, ?_, rfl, rfl, rfl, rfl, fun h => absurd h (by simp), fun h => absurd h (by simp)⟩
      · rw [htokens, hin, hmore]
        simp [Generator.tokens, hmap]
      · simp only [htokens, ← Nat.add_assoc, hlast, decide_true]
    · simp only [hlast, decide_false, Bool.false_eq_true, if_false]
      refine ⟨?_, ?_, rfl, rfl, rfl, rfl, fun _ => rfl, fun _ => rfl⟩
      · rw [htokens, hin, hmore]
        simp [Generator.tokens, hmap]
      · simp only [htokens, ← Nat.add_assoc, hlast, decide_false]

def yieldedBefore (blockSize k : Nat) : Nat := k * (blockSize + 1) + 1

def soFar (T : Target) (prompt : List Nat) (blockSize k : Nat) : List Nat :=
  prompt ++ continuation T.next prompt (yieldedBefore blockSize k)

def greedyBlock (T : Target) (prompt : List Nat) (blockSize k : Nat) : List Nat :=
  continuation T.next (soFar T prompt blockSize k) blockSize

def GreedyBefore (T : Target) (prompt : List Nat) {blockSize : Nat} (drafter : Drafter blockSize) (k : Nat) : Prop :=
  ∀ j < k, ∃ block, drafter j = some block ∧ block.val = greedyBlock T prompt blockSize j

/-- If the first block that is not greedy comes at this call, then the tokens suffice or the drafter has run out. -/
def EndsAtMiss (T : Target) (prompt : List Nat) {blockSize : Nat} (drafter : Drafter blockSize) (maxTokens k : Nat) : Prop :=
  ∀ block, GreedyBefore T prompt drafter k → yieldedBefore blockSize k < maxTokens → drafter k = some block →
    block.val ≠ greedyBlock T prompt blockSize k →
      maxTokens ≤ yieldedBefore blockSize k + (agreed T.next (soFar T prompt blockSize k) block.val + 1) ∨
        drafter (k + 1) = none

/-- Between two rounds, in step: all blocks were greedy so far. -/
structure Aligned (T : Target) (prompt : List Nat) (blockSize maxTokens k : Nat) (s : Generator) : Prop where
  tokens : s.tokens = continuation T.next prompt (yieldedBefore blockSize k)
  sequence : s.sequence = prompt ++ s.tokens
  call : s.call.InStep prompt
  layers : s.cache ≠ []
  draftCalls : s.draftCalls = k
  calls : ∀ c ∈ s.verifyCalls, c.InStep prompt
  returned : s.returned = false
  room : s.tokens.length < maxTokens

structure Behind (T : Target) (prompt : List Nat) (maxTokens k : Nat) (s : Generator) : Prop where
  tokens : s.tokens = continuation T.next prompt s.tokens.length
  layer : ∃ layer ∈ s.cache, layer.length + 1 = s.currentOffset
  draftCalls : s.draftCalls = k
  calls : ∀ c ∈ s.verifyCalls, c.InStep prompt
  returned : s.returned = false
  room : s.tokens.length < maxTokens

variable {s s' : Generator} {k n : Nat} {block : List Nat}

theorem Aligned.length_tokens (h : Aligned T prompt blockSize maxTokens k s) : s.tokens.length = yieldedBefore blockSize k := by
  rw [h.tokens, length_continuation]

theorem Aligned.greedy (h : Aligned T prompt blockSize maxTokens k s) :
    s.tokens = continuation T.next prompt s.tokens.length := by
  rw [h.length_tokens, ← h.tokens]

theorem Aligned.soFar (h : Aligned T prompt blockSize maxTokens k s) : s.sequence = soFar T prompt blockSize k := by
  rw [h.sequence, h.tokens, Dflash.soFar]

/-- The loop stops at a return. -/
theorem rounds_returned (h : s.returned = true) (n : Nat) : rounds T drafter maxTokens n s = s := by
  cases n with
  | zero => rfl
  | succ n => rw [rounds, if_pos h]

theorem exact_ranOut (hgreedy : s.tokens = continuation T.next prompt s.tokens.length) (hroom : s.tokens.length < maxTokens)
    (hcalls : ∀ c ∈ s.verifyCalls, c.InStep prompt) (hnone : drafter s.draftCalls = none) :
    Exact T prompt maxTokens (round T drafter maxTokens s) := by
  rw [round, hnone]
  exact ⟨hgreedy, rfl, Nat.le_of_lt hroom, .inr rfl, hcalls⟩

theorem yieldAccepted_verifyCalls (s : Generator) (toks : List Nat) :
    (s.yieldAccepted maxTokens toks).verifyCalls = s.verifyCalls := by
  induction toks generalizing s with
  | nil => rfl
  | cons tok toks ih =>
    rw [Generator.yieldAccepted]
    split
    · rfl
    · exact ih _

/-- A round notes its call of the verifier, if it makes one. -/
theorem round_verifyCalls (s : Generator) :
    (round T drafter maxTokens s).verifyCalls = s.verifyCalls ++ ((drafter s.draftCalls).map fun _ => s.call).toList := by
  rw [round]
  cases drafter s.draftCalls with
  | none => exact (List.append_nil _).symm
  | some block =>
    simp only
    split
    · rw [yieldAccepted_verifyCalls]
      rfl
    · split
      · split <;> simp [Generator.yieldOne, yieldAccepted_verifyCalls]
      · simp [yieldAccepted_verifyCalls]

theorem rounds_verifyCalls (n : Nat) (s : Generator) : s.verifyCalls ⊆ (rounds T drafter maxTokens n s).verifyCalls := by
  induction n generalizing s with
  | zero => exact List.Subset.refl _
  | succ n ih =>
    rw [rounds]
    split
    · exact List.Subset.refl _
    · refine List.Subset.trans ?_ (ih _)
      rw [round_verifyCalls]
      exact List.subset_append_left _ _

/-- One call out of step spoils the run. -/
theorem Behind.spoils (h : Behind T prompt maxTokens k s) (hsome : drafter k ≠ none) (n : Nat) :
    ¬ Exact T prompt maxTokens (rounds T drafter maxTokens (n + 1) s) := by
  intro hexact
  obtain ⟨block, hblock⟩ := Option.ne_none_iff_exists'.1 hsome
  obtain ⟨layer, hlayer, hlen⟩ := h.layer
  rw [rounds, h.returned, if_neg Bool.false_ne_true] at hexact
  have hcall : s.call ∈ (round T drafter maxTokens s).verifyCalls := by
    rw [round_verifyCalls, h.draftCalls, hblock]
    exact List.mem_append_right _ (List.mem_singleton_self _)
  have hstep := hexact.calls _ (rounds_verifyCalls n _ hcall)
  have hlayer' := congrArg List.length (hstep.layers layer hlayer)
  have hoffset := hstep.offset
  change s.currentOffset = _ at hoffset
  omega

theorem Behind.exact (h : Behind T prompt maxTokens k s) (hnone : drafter k = none) (n : Nat) :
    Exact T prompt maxTokens (rounds T drafter maxTokens (n + 1) s) := by
  have hcall : drafter s.draftCalls = none := by rw [h.draftCalls, hnone]
  have hend := exact_ranOut h.tokens h.room h.calls hcall
  rw [rounds, h.returned, if_neg Bool.false_ne_true, rounds_returned hend.returned]
  exact hend

theorem Advances.greedy (h : Advances T maxTokens s block s') (hs : Aligned T prompt blockSize maxTokens k s) :
    s'.tokens = continuation T.next prompt s'.tokens.length := by
  rw [h.tokens, hs.sequence, continuation_append_take _ hs.greedy, length_continuation]

theorem Advances.length_tokens (h : Advances T maxTokens s block s') :
    s'.tokens.length = s.tokens.length + min (maxTokens - s.tokens.length) (agreed T.next s.sequence block + 1) := by
  rw [h.tokens, List.length_append, List.length_take, length_continuation]

theorem Advances.calls_inStep (h : Advances T maxTokens s block s') (hs : Aligned T prompt blockSize maxTokens k s) :
    ∀ c ∈ s'.verifyCalls, c.InStep prompt := by
  intro c hc
  rw [h.calls, List.mem_append, List.mem_singleton] at hc
  obtain hc | rfl := hc
  · exact hs.calls c hc
  · exact hs.call

/-- A round that returns from a state in step ends an exact run. -/
theorem Advances.exact (h : Advances T maxTokens s block s') (hs : Aligned T prompt blockSize maxTokens k s)
    (hend : maxTokens ≤ s.tokens.length + (agreed T.next s.sequence block + 1)) : Exact T prompt maxTokens s' := by
  have hroom := hs.room
  have hlen : s'.tokens.length = maxTokens := by
    rw [h.length_tokens]
    omega
  exact ⟨h.greedy hs, by rw [h.returned, decide_eq_true hend], hlen.le, .inl hlen, h.calls_inStep hs⟩

theorem Aligned.held_eq (h : Aligned T prompt blockSize maxTokens k s) {layer : Layer} (hlayer : layer ∈ s.cache) :
    layer = held s.cache := by
  obtain ⟨first, rest, hcache⟩ := List.exists_cons_of_ne_nil h.layers
  have hfirst := h.call.layers first (by simp [Generator.call, hcache])
  rw [h.call.layers layer hlayer, held, hcache, List.headD_cons, ← hfirst]

theorem held_map (f : Layer → Layer) {cache : List Layer} (h : cache ≠ []) : held (cache.map f) = f (held cache) := by
  obtain ⟨first, rest, rfl⟩ := List.exists_cons_of_ne_nil h
  rfl

/-- A greedy block keeps the generator in step. -/
theorem Advances.aligned (h : Advances T maxTokens s block s') (hs : Aligned T prompt blockSize maxTokens k s)
    (hlen : block.length = blockSize) (hblock : block = greedyBlock T prompt blockSize k)
    (hroom : s.tokens.length + (agreed T.next s.sequence block + 1) < maxTokens) :
    Aligned T prompt blockSize maxTokens (k + 1) s' := by
  have hcont : block = continuation T.next s.sequence block.length := by
    rw [hs.soFar, hlen]
    exact hblock
  have hall : agreed T.next s.sequence block = block.length := agreed_eq_length.2 hcont
  have hreturned : s'.returned = false := by
    rw [h.returned, decide_eq_false (Nat.not_le.2 hroom)]
  have htokens : s'.tokens = s.tokens ++ (block ++ [T.next (s.sequence ++ block)]) := by
    rw [h.tokens, List.take_of_length_le (by rw [length_continuation]; omega), hall, continuation_succ, ← hcont]
  have hcache : s'.cache = s.cache.map (· ++ s.lastConfirmed :: block) := by
    rw [h.cache]
    exact if_pos hall
  have hdrop : s'.tokens.dropLast = s.tokens ++ block := by
    rw [htokens, ← List.append_assoc, List.dropLast_concat]
  have hfed : ∀ layer ∈ s.cache, layer ++ s.lastConfirmed :: block = prompt ++ s'.tokens.dropLast := by
    intro layer hlayer
    rw [hs.held_eq hlayer, hdrop, ← List.append_assoc, ← hs.sequence, Generator.sequence]
    simp
  have hlayers : s'.cache ≠ [] := by
    rw [hcache]
    exact fun hnil => hs.layers (List.map_eq_nil_iff.1 hnil)
  refine ⟨?_, ?_, ⟨?_, ?_⟩, hlayers, by rw [h.draftCalls, hs.draftCalls], h.calls_inStep hs, hreturned, ?_⟩
  · have hnext : s.tokens.length + min (maxTokens - s.tokens.length) (block.length + 1) = yieldedBefore blockSize (k + 1) := by
      have htop : yieldedBefore blockSize (k + 1) = yieldedBefore blockSize k + (blockSize + 1) := by
        rw [yieldedBefore, yieldedBefore, Nat.succ_mul]
        omega
      rw [htop, ← hs.length_tokens, hlen]
      omega
    rw [← hnext, ← hall, ← h.length_tokens]
    exact h.greedy hs
  · rw [Generator.sequence, hcache, held_map _ hs.layers, h.lastConfirmed hreturned, hall, ← hcont, htokens,
      ← List.append_assoc prompt, ← hs.sequence, Generator.sequence]
    simp
  · intro layer hlayer
    change layer ∈ s'.cache at hlayer
    rw [hcache, List.mem_map] at hlayer
    obtain ⟨layer, hlayer, rfl⟩ := hlayer
    exact hfed layer hlayer
  · have hpos : 0 < s.tokens.length := by
      rw [hs.length_tokens]
      exact Nat.succ_pos _
    have hoffset := hs.call.offset
    change s.currentOffset = (prompt ++ s.tokens.dropLast).length at hoffset
    change s'.currentOffset = (prompt ++ s'.tokens.dropLast).length
    rw [h.offset hreturned, hoffset, hdrop, hall]
    simp only [List.length_append, List.length_dropLast]
    omega
  · rw [htokens]
    simp only [List.length_append, List.length_singleton]
    omega

/-- A block that is not greedy leaves the cache behind. -/
theorem Advances.behind (h : Advances T maxTokens s block s') (hs : Aligned T prompt blockSize maxTokens k s)
    (hmiss : agreed T.next s.sequence block ≠ block.length)
    (hroom : s.tokens.length + (agreed T.next s.sequence block + 1) < maxTokens) : Behind T prompt maxTokens (k + 1) s' := by
  have hreturned : s'.returned = false := by
    rw [h.returned, decide_eq_false (Nat.not_le.2 hroom)]
  have hle := agreed_le T.next s.sequence block
  obtain ⟨first, rest, hcache⟩ := List.exists_cons_of_ne_nil hs.layers
  have hoffset : s.currentOffset = first.length := by
    rw [hs.call.layers first (by simp [Generator.call, hcache])]
    exact hs.call.offset
  refine ⟨h.greedy hs, ?_, by rw [h.draftCalls, hs.draftCalls], h.calls_inStep hs, hreturned, ?_⟩
  · refine ⟨rewindLayer T.trims (s.currentOffset + agreed T.next s.sequence block) (first ++ s.lastConfirmed :: block),
      ?_, ?_⟩
    · rw [h.cache, hcache]
      simp [if_neg hmiss]
    · rw [h.offset hreturned, rewindLayer, if_pos (by rw [hoffset, List.length_append, List.length_cons]; omega),
        List.length_take, List.length_append, List.length_cons]
      omega
  · rw [h.length_tokens]
    omega

theorem yieldedBefore_succ (blockSize k : Nat) :
    yieldedBefore blockSize (k + 1) = yieldedBefore blockSize k + (blockSize + 1) := by
  rw [yieldedBefore, yieldedBefore, Nat.succ_mul]
  omega

theorem yieldedBefore_mono (blockSize : Nat) {k j : Nat} (h : k ≤ j) :
    yieldedBefore blockSize k ≤ yieldedBefore blockSize j :=
  Nat.add_le_add_right (Nat.mul_le_mul_right _ h) 1

/-- Past the first miss nothing is asked. -/
theorem endsAtMiss_later {j : Nat} (hlt : k < j)
    (hmiss : ∀ block, drafter k = some block → block.val = greedyBlock T prompt blockSize k →
      maxTokens ≤ yieldedBefore blockSize (k + 1)) :
    EndsAtMiss T prompt drafter maxTokens j := by
  intro _ hgreedy hroom
  obtain ⟨block, hblock, heq⟩ := hgreedy k hlt
  have hend := hmiss block hblock heq
  have hmono := yieldedBefore_mono blockSize (Nat.succ_le_of_lt hlt)
  exact absurd (Nat.le_trans hend hmono) (Nat.not_le.2 hroom)

/-- With the calls from this one on, only the first is in question. -/
theorem endsAtMiss_from
    (hmiss : ∀ block, drafter k = some block → block.val = greedyBlock T prompt blockSize k →
      maxTokens ≤ yieldedBefore blockSize (k + 1)) :
    (∀ j, k ≤ j → EndsAtMiss T prompt drafter maxTokens j) ↔ EndsAtMiss T prompt drafter maxTokens k := by
  refine ⟨fun h => h k (Nat.le_refl k), fun h j hj => ?_⟩
  obtain rfl | hlt := Nat.eq_or_lt_of_le hj
  · exact h
  · exact endsAtMiss_later hlt hmiss

/-- The induction is on the bound of the loop; the first miss decides. -/
theorem Aligned.exact_iff (h : Aligned T prompt blockSize maxTokens k s) (hbefore : GreedyBefore T prompt drafter k)
    (hn : maxTokens - s.tokens.length ≤ n) :
    Exact T prompt maxTokens (rounds T drafter maxTokens n s) ↔ ∀ j, k ≤ j → EndsAtMiss T prompt drafter maxTokens j := by
  have hroom := h.room
  induction n generalizing s k with
  | zero => omega
  | succ n ih =>
    rw [rounds, h.returned, if_neg Bool.false_ne_true]
    cases hblock : drafter k with
    | none =>
      have hcall : drafter s.draftCalls = none := by rw [h.draftCalls, hblock]
      have hend := exact_ranOut h.greedy h.room h.calls hcall
      rw [rounds_returned hend.returned, endsAtMiss_from (fun block hsome => by rw [hblock] at hsome; cases hsome)]
      refine iff_of_true hend fun block _ _ hsome => ?_
      rw [hblock] at hsome
      cases hsome
    | some block =>
      have hcall : drafter s.draftCalls = some block := by rw [h.draftCalls, hblock]
      have hadv := @round_some T _ _ _ _ _ h.returned h.room hcall
      have hcont : agreed T.next s.sequence block.val = block.val.length ↔ block.val = greedyBlock T prompt blockSize k := by
        rw [agreed_eq_length, h.soFar, block.property, greedyBlock]
      have hthis : ∀ block', drafter k = some block' → block' = block := by
        intro block' hsome
        exact Option.some.inj (hsome.symm.trans hblock)
      by_cases hend : maxTokens ≤ s.tokens.length + (agreed T.next s.sequence block.val + 1)
      · have hexact := hadv.exact h hend
        rw [rounds_returned hexact.returned, endsAtMiss_from]
        · refine iff_of_true hexact fun block' _ _ hsome _ => .inl ?_
          rwa [hthis block' hsome, ← h.length_tokens, ← h.soFar]
        · intro block' hsome hgreedy
          rw [hthis block' hsome] at hgreedy
          rwa [yieldedBefore_succ, ← h.length_tokens, ← block.property, ← hcont.2 hgreedy]
      · have hleft := Nat.lt_of_not_le hend
        by_cases hgreedy : block.val = greedyBlock T prompt blockSize k
        · have hnext := hadv.aligned h block.property hgreedy hleft
          have hbefore' : GreedyBefore T prompt drafter (k + 1) := by
            intro j hj
            obtain rfl | hlt := Nat.eq_or_lt_of_le (Nat.le_of_lt_succ hj)
            · exact ⟨block, hblock, hgreedy⟩
            · exact hbefore j hlt
          have hfewer : maxTokens - (round T drafter maxTokens s).tokens.length ≤ n := by
            rw [hadv.length_tokens]
            omega
          refine (ih hnext hbefore' hfewer hnext.room).trans
            ⟨fun hall j hj => ?_, fun hall j hj => hall j (Nat.le_of_succ_le hj)⟩
          obtain rfl | hlt := Nat.eq_or_lt_of_le hj
          · intro block' _ _ hsome hmiss
            rw [hthis block' hsome] at hmiss
            exact absurd hgreedy hmiss
          · exact hall j hlt
        · have hbehind := hadv.behind h (fun hall => hgreedy (hcont.1 hall)) hleft
          obtain ⟨m, rfl⟩ : ∃ m, n = m + 1 := ⟨n - 1, by omega⟩
          rw [endsAtMiss_from fun block' hsome heq => absurd (hthis block' hsome ▸ heq) hgreedy]
          cases hnone : drafter (k + 1) with
          | none => exact iff_of_true (hbehind.exact hnone m) fun _ _ _ _ _ => .inr hnone
          | some block' =>
            have hsome : drafter (k + 1) ≠ none := by simp [hnone]
            refine iff_of_false (hbehind.spoils hsome m) fun hk => ?_
            rw [h.length_tokens, h.soFar] at hleft
            rw [h.length_tokens] at hroom
            obtain hle | hnone' := hk block hbefore hroom hblock hgreedy
            · exact absurd hle (Nat.not_le.2 hleft)
            · exact hsome hnone'

theorem prefill_eq (hprompt : prompt ≠ []) :
    prefill T prompt maxTokens =
      { cache := List.replicate (T.moreLayers + 1) prompt
        yielded := [(T.next prompt, false)]
        lastConfirmed := T.next prompt
        currentOffset := prompt.length
        draftCalls := 0
        verifyCalls := []
        acceptCounter := {}
        returned := decide (maxTokens ≤ 1)
        ranOut := false } := by
  have hheld : held (List.replicate (T.moreLayers + 1) ([] : Layer)) = [] := by
    rw [held, List.replicate_succ, List.headD_cons]
  simp [prefill, Target.call, Generator.yieldOne, hheld, getLast?_afterEach hprompt]

/-- The prefill yields the first token and leaves the generator in step. -/
theorem prefill_aligned (hprompt : prompt ≠ []) (hmax : 1 < maxTokens) :
    Aligned T prompt blockSize maxTokens 0 (prefill T prompt maxTokens) := by
  rw [prefill_eq hprompt]
  refine ⟨?_, ?_, ⟨?_, ?_⟩, ?_, rfl, fun c hc => ?_, decide_eq_false (Nat.not_le.2 hmax), hmax⟩
  · simp [Generator.tokens, yieldedBefore, continuation]
  · simp [Generator.sequence, Generator.tokens, held, List.replicate_succ]
  · intro layer hlayer
    have hlayer' := List.eq_of_mem_replicate hlayer
    simp [Generator.call, hlayer']
  · simp [Generator.call]
  · simp [List.replicate_succ]
  · cases hc

/-- A run is greedy decoding, with the cache in step, exactly when it ends with the first block that is not greedy. -/
theorem dflash_exact_iff (T : Target) (prompt : List Nat) {blockSize : Nat} (drafter : Drafter blockSize) (maxTokens : Nat) :
    match dflashGenerateStep T prompt drafter maxTokens with
    | .error _ => blockSize < 1 ∨ prompt = [] ∨ maxTokens < 1
    | .ok run => Exact T prompt maxTokens run ↔ ∀ k, EndsAtMiss T prompt drafter maxTokens k := by
  rw [dflashGenerateStep]
  by_cases hsize : blockSize < 1
  · rw [if_pos hsize]
    exact .inl hsize
  rw [if_neg hsize]
  by_cases hprompt : prompt = []
  · rw [if_pos hprompt]
    exact .inr (.inl hprompt)
  rw [if_neg hprompt]
  by_cases hmax : maxTokens < 1
  · rw [if_pos hmax]
    exact .inr (.inr hmax)
  rw [if_neg hmax]
  simp only
  by_cases hone : maxTokens ≤ 1
  · have hend : Exact T prompt maxTokens (prefill T prompt maxTokens) := by
      rw [prefill_eq hprompt]
      have hmax' : maxTokens = 1 := by omega
      exact ⟨rfl, decide_eq_true hone, by simp [Generator.tokens, hmax'], .inl (by simp [Generator.tokens, hmax']),
        fun c hc => by cases hc⟩
    rw [rounds_returned hend.returned]
    refine iff_of_true hend fun k _ _ hroom => ?_
    have hpos : 0 < yieldedBefore blockSize k := Nat.succ_pos _
    omega
  · have haligned := @prefill_aligned T prompt blockSize maxTokens hprompt (Nat.lt_of_not_le hone)
    have hnone : GreedyBefore T prompt drafter 0 := fun j hj => absurd hj (Nat.not_lt_zero j)
    rw [haligned.exact_iff hnone (Nat.sub_le ..)]
    exact ⟨fun h k => h k (Nat.zero_le k), fun h k _ => h k⟩

/-- A missed draft, then another round: the cache is one token short, and the third token is wrong. -/
theorem dflash_goes_wrong :
    ∃ run, @dflashGenerateStep ⟨List.length, 0, true⟩ [7] 1 (fun _ => some ⟨[0], rfl⟩) 3 = .ok run ∧
      run.tokens = [1, 2, 2] ∧ continuation List.length [7] 3 = [1, 2, 3] ∧
        ¬ Exact ⟨List.length, 0, true⟩ [7] 3 run := by
  refine ⟨_, rfl, by decide, by decide, fun h => ?_⟩
  have := h.greedy
  revert this
  decide

end FusionMlx.Dflash
