import Mathlib.Data.List.Infix

/-!
# The thinking budget

`ThinkingBudgetProcessor` of `api/thinking.py`. It counts its own calls while
the model thinks, and forces the close tag when they reach the budget; a run
generates after each call one token that the call left possible.
-/
namespace FusionMlx.Reasoning.ThinkingBudget

structure Config where
  thinkEndIds : List Nat
  budget : Int
  thinkStartId : Option Nat := none
  leading : List Nat := []
  trailing : List Nat := []

def Config.forceSequence (cfg : Config) : List Nat := cfg.leading ++ cfg.thinkEndIds ++ cfg.trailing

structure State where
  thinkingTokens : Nat := 0
  inThinking : Bool := true
  forcing : Bool := false
  forceIdx : Nat := 0
  done : Bool := false
  suppressEnd : Bool := false
  recent : List Nat := []

/-- The tokens a call leaves possible, or the `IndexError` of an empty force sequence. -/
inductive Mask
  | all
  | only (token : Nat)
  | without (ids : List Nat)
  | indexError
  deriving DecidableEq

def Mask.Allows : Mask → Nat → Prop
  | .all, _ => True
  | .only token, t => t = token
  | .without ids, t => t ∉ ids
  | .indexError, _ => False

instance (m : Mask) (t : Nat) : Decidable (m.Allows t) :=
  match m with
  | .all => inferInstanceAs (Decidable True)
  | .only token => inferInstanceAs (Decidable (t = token))
  | .without ids => inferInstanceAs (Decidable (t ∉ ids))
  | .indexError => inferInstanceAs (Decidable False)

def updateState (cfg : Config) (s : State) (token : Nat) : State :=
  if s.forcing then
    if cfg.forceSequence.length ≤ s.forceIdx + 1 then
      { s with forceIdx := s.forceIdx + 1, inThinking := false, forcing := false, suppressEnd := true }
    else { s with forceIdx := s.forceIdx + 1 }
  else
    let reenter := fun s : State =>
      if s.inThinking = false ∧ cfg.thinkStartId.any (· ≠ 0) ∧ cfg.thinkStartId = some token then
        { s with inThinking := true }
      else s
    if cfg.thinkEndIds.length = 1 then
      if cfg.thinkEndIds = [token] then { s with inThinking := false, done := true } else reenter s
    else
      let recent := s.recent ++ [token]
      let recent := if cfg.thinkEndIds.length < recent.length then recent.tail else recent
      if recent = cfg.thinkEndIds then { s with recent := recent, inThinking := false, done := true }
      else reenter { s with recent := recent }

def forceNextToken (cfg : Config) (s : State) : Mask :=
  match cfg.forceSequence[s.forceIdx]? with
  | some token => .only token
  | none => .indexError

def call (cfg : Config) (s : State) (new : List Nat) : State × Mask :=
  if s.done then (s, .all)
  else if s.suppressEnd then (s, .without cfg.thinkEndIds)
  else
    let s := new.foldl (updateState cfg) s
    if s.done then (s, .all)
    else if s.suppressEnd then (s, .without cfg.thinkEndIds)
    else if s.forcing then (s, forceNextToken cfg s)
    else if s.inThinking then
      let s := { s with thinkingTokens := s.thinkingTokens + 1 }
      if cfg.budget ≤ s.thinkingTokens then
        let s := { s with forcing := true, forceIdx := 0 }
        (s, forceNextToken cfg s)
      else (s, .all)
    else (s, .all)

def after (cfg : Config) (tokens : List Nat) : State × Mask :=
  tokens.foldl (fun r t => call cfg r.1 [t]) (call cfg {} [])

/-- A run: every token is one that the call before it left possible, and meets the condition. -/
inductive Generated (cfg : Config) (ok : State → Nat → Prop) : List Nat → Prop
  | nil : Generated cfg ok []
  | token {tokens : List Nat} (t : Nat) (h : Generated cfg ok tokens) (hpossible : (after cfg tokens).2.Allows t)
      (hok : ok (after cfg tokens).1 t) : Generated cfg ok (tokens ++ [t])

/-- Whether the tokens, the last first, end inside a thinking section: the first begins at once, the
close tag ends a section and the start token begins one. -/
def insideRev (cfg : Config) : List Nat → Bool
  | [] => true
  | t :: rev => if insideRev cfg rev then !cfg.thinkEndIds.reverse.isPrefixOf (t :: rev) else cfg.thinkStartId = some t

def spentRev (cfg : Config) : List Nat → Nat
  | [] => 0
  | _ :: rev => spentRev cfg rev + if insideRev cfg rev then 1 else 0

def spent (cfg : Config) (tokens : List Nat) : Nat := spentRev cfg tokens.reverse

/-- What the processor promises of a run. Either nothing has been forced: then nothing was ever
removed. Or the force sequence has begun after `free`: then it is followed to its end, and only
the tokens of the close tag are removed from there on. In both cases the tokens inside thinking
sections before it are at most the budget. -/
def Enforced (cfg : Config) (tokens : List Nat) : Prop :=
  (spent cfg tokens ≤ cfg.budget.toNat ∧ ∀ p, p <+: tokens → (after cfg p).2 = .all) ∨
    ∃ free rest, tokens = free ++ rest ∧ spent cfg free ≤ cfg.budget.toNat ∧
      (∀ p, p <+: free → p ≠ free → (after cfg p).2 = .all) ∧
      rest.take cfg.forceSequence.length = cfg.forceSequence.take rest.length ∧
      (∀ j (hj : j < cfg.forceSequence.length), j ≤ rest.length →
        (after cfg (free ++ rest.take j)).2 = .only cfg.forceSequence[j]) ∧
      ∀ j, cfg.forceSequence.length ≤ j → j ≤ rest.length →
        (after cfg (free ++ rest.take j)).2 = .without cfg.thinkEndIds

section
variable (cfg : Config)

def window (tokens : List Nat) : List Nat :=
  if cfg.thinkEndIds.length = 1 then [] else tokens.drop (tokens.length - cfg.thinkEndIds.length)

theorem after_snoc (tokens : List Nat) (t : Nat) :
    after cfg (tokens ++ [t]) = call cfg (after cfg tokens).1 [t] := by
  simp [after]

/-- Every call so far has left everything possible. -/
def Untouched (tokens : List Nat) : Prop := ∀ p, p <+: tokens → (after cfg p).2 = .all

structure Thinking (tokens : List Nat) : Prop where
  state : after cfg tokens = ({ thinkingTokens := tokens.length + 1, recent := window cfg tokens }, .all)
  below : (tokens.length + 1 : Int) < cfg.budget
  inside : insideRev cfg tokens.reverse = true
  untouched : Untouched cfg tokens

structure Closed (tokens : List Nat) : Prop where
  done : (after cfg tokens).1.done = true
  outside : insideRev cfg tokens.reverse = false
  within : spent cfg tokens ≤ cfg.budget.toNat
  untouched : Untouched cfg tokens

def forcingState (free : List Nat) (k : Nat) : State :=
  { thinkingTokens := free.length + 1, forcing := true, forceIdx := k, recent := window cfg free }

/-- The call after `free` has begun to force. -/
structure Begun (free : List Nat) : Prop where
  state : after cfg free = (forcingState cfg free 0, forceNextToken cfg (forcingState cfg free 0))
  within : free.length ≤ cfg.budget.toNat
  untouched : ∀ p, p <+: free → p ≠ free → (after cfg p).2 = .all

variable {cfg}

theorem spent_le (tokens : List Nat) : spent cfg tokens ≤ tokens.length := by
  unfold spent
  rw [← List.length_reverse]
  induction tokens.reverse with
  | nil => simp [spentRev]
  | cons t rev ih =>
    rw [spentRev, List.length_cons]
    split <;> omega

theorem spent_snoc (tokens : List Nat) (t : Nat) :
    spent cfg (tokens ++ [t]) = spent cfg tokens + if insideRev cfg tokens.reverse then 1 else 0 := by
  simp [spent, spentRev]

variable {tokens : List Nat}

theorem Untouched.snoc {t : Nat} (h : Untouched cfg tokens)
    (hlast : (after cfg (tokens ++ [t])).2 = .all) : Untouched cfg (tokens ++ [t]) := by
  intro p hp
  rcases List.prefix_concat_iff.1 hp with rfl | hp
  · exact hlast
  · exact h p hp

theorem Untouched.proper {t : Nat} (h : Untouched cfg tokens) (p : List Nat)
    (hp : p <+: tokens ++ [t]) (hne : p ≠ tokens ++ [t]) : (after cfg p).2 = .all := by
  rcases List.prefix_concat_iff.1 hp with rfl | hp
  · exact absurd rfl hne
  · exact h p hp

/-- The window follows the tokens. -/
theorem window_snoc (hids : cfg.thinkEndIds ≠ []) (hone : cfg.thinkEndIds.length ≠ 1) (tokens : List Nat) (t : Nat) :
    (if cfg.thinkEndIds.length < (window cfg tokens ++ [t]).length then (window cfg tokens ++ [t]).tail
      else window cfg tokens ++ [t]) = window cfg (tokens ++ [t]) := by
  have hpos := List.length_pos_of_ne_nil hids
  unfold window
  rw [if_neg hone, if_neg hone]
  simp only [List.length_append, List.length_drop, List.length_singleton]
  split
  · rw [← List.drop_one, ← List.drop_append_of_le_length (by omega), List.drop_drop]
    congr 1
    omega
  · rw [← List.drop_append_of_le_length (by omega)]
    congr 1
    omega

/-- Inside a section the close tag is what closes it. -/
theorem insideRev_snoc (hinside : insideRev cfg tokens.reverse = true) (t : Nat) :
    insideRev cfg (tokens ++ [t]).reverse = !decide (cfg.thinkEndIds <:+ tokens ++ [t]) := by
  rw [List.reverse_append, List.reverse_singleton, List.singleton_append, insideRev, if_pos hinside,
    Bool.not_inj_iff, Bool.eq_iff_iff, List.isPrefixOf_iff_prefix, decide_eq_true_iff, ← List.reverse_prefix,
    List.reverse_append, List.reverse_singleton, List.singleton_append]

theorem closes_one {e : Nat} (hids : cfg.thinkEndIds = [e]) (tokens : List Nat) (t : Nat) :
    cfg.thinkEndIds <:+ tokens ++ [t] ↔ cfg.thinkEndIds = [t] := by
  rw [hids, List.suffix_concat_iff]
  constructor
  · rintro (h | ⟨m, hm, -⟩)
    · simp at h
    · obtain rfl : m = [] := by simpa using congrArg List.length hm
      exact hm
  · intro h
    exact .inr ⟨[], h, List.nil_suffix⟩

theorem closes_window (hone : cfg.thinkEndIds.length ≠ 1) (tokens : List Nat) :
    cfg.thinkEndIds <:+ tokens ↔ window cfg tokens = cfg.thinkEndIds := by
  rw [window, if_neg hone, List.suffix_iff_eq_drop, eq_comm]

/-- What a token does to the state of a thinking run. -/
theorem updateState_thinking (hids : cfg.thinkEndIds ≠ []) (tokens : List Nat) (n t : Nat) :
    updateState cfg { thinkingTokens := n, recent := window cfg tokens } t =
      if cfg.thinkEndIds <:+ tokens ++ [t] then
        { thinkingTokens := n, inThinking := false, done := true, recent := window cfg (tokens ++ [t]) }
      else { thinkingTokens := n, recent := window cfg (tokens ++ [t]) } := by
  unfold updateState
  by_cases hone : cfg.thinkEndIds.length = 1
  · obtain ⟨e, he⟩ := List.length_eq_one_iff.1 hone
    simp [closes_one he, hone, window]
  · simp only [Bool.false_eq_true, if_false, hone, window_snoc hids hone, closes_window hone]
    simp

/-- The call after one more token of a thinking run that goes on. -/
theorem call_thinking (n : Nat) (recent recent' : List Nat) (t : Nat)
    (hstep : updateState cfg { thinkingTokens := n, recent := recent } t = { thinkingTokens := n, recent := recent' }) :
    call cfg { thinkingTokens := n, recent := recent } [t] =
      if cfg.budget ≤ (n + 1 : Nat) then
        ({ thinkingTokens := n + 1, forcing := true, recent := recent' },
          forceNextToken cfg { thinkingTokens := n + 1, forcing := true, recent := recent' })
      else ({ thinkingTokens := n + 1, recent := recent' }, .all) := by
  simp [call, hstep]

theorem start_phase : Thinking cfg [] ∨ Begun cfg [] := by
  have hwindow : window cfg [] = [] := by simp [window]
  by_cases hb : cfg.budget ≤ 1
  · right
    refine ⟨?_, by simp, ?_⟩
    · simp [after, call, hb, forcingState, hwindow]
    · intro p hp hne
      exact absurd (List.prefix_nil.1 hp) hne
  · left
    have hstate : after cfg [] = ({ thinkingTokens := 1 }, .all) := by simp [after, call, hb]
    refine ⟨by rw [hstate, hwindow]; rfl, by simp; omega, rfl, ?_⟩
    intro p hp
    rw [List.prefix_nil.1 hp, hstate]

theorem Thinking.spent_within (h : Thinking cfg tokens) : spent cfg tokens ≤ cfg.budget.toNat := by
  have hspent := @spent_le cfg tokens
  have hbelow := h.below
  omega

theorem Thinking.step (hids : cfg.thinkEndIds ≠ []) (h : Thinking cfg tokens) (t : Nat) :
    Thinking cfg (tokens ++ [t]) ∨ Closed cfg (tokens ++ [t]) ∨ Begun cfg (tokens ++ [t]) := by
  have hstep := updateState_thinking hids tokens (tokens.length + 1) t
  have hafter := after_snoc cfg tokens t
  have hinside := insideRev_snoc h.inside t
  have hbelow := h.below
  rw [h.state] at hafter
  by_cases hclose : cfg.thinkEndIds <:+ tokens ++ [t]
  · right; left
    rw [if_pos hclose] at hstep
    have hcall : after cfg (tokens ++ [t]) =
        (updateState cfg { thinkingTokens := tokens.length + 1, recent := window cfg tokens } t, .all) := by
      rw [hafter]
      simp [call, hstep]
    refine ⟨by rw [hcall, hstep], by simpa [hclose] using hinside, ?_, h.untouched.snoc (by rw [hcall])⟩
    have hspent := @spent_le cfg (tokens ++ [t])
    rw [List.length_append, List.length_singleton] at hspent
    omega
  · rw [if_neg hclose] at hstep
    rw [call_thinking _ _ _ t hstep] at hafter
    split at hafter
    · right; right
      refine ⟨?_, ?_, h.untouched.proper⟩
      · simpa [forcingState] using hafter
      · rw [List.length_append, List.length_singleton]
        omega
    · left
      refine ⟨by simpa using hafter, ?_, by simpa [hclose] using hinside, h.untouched.snoc (by rw [hafter])⟩
      rw [List.length_append, List.length_singleton]
      omega

/-- A section that the model has closed stays closed until a start token. -/
theorem Closed.step (h : Closed cfg tokens) {t : Nat} (ht : cfg.thinkStartId ≠ some t) :
    Closed cfg (tokens ++ [t]) := by
  have hafter : after cfg (tokens ++ [t]) = ((after cfg tokens).1, .all) := by
    rw [after_snoc, call, if_pos h.done]
  refine ⟨by rw [hafter, h.done], ?_, ?_, h.untouched.snoc (by rw [hafter])⟩
  · rw [List.reverse_append, List.reverse_singleton, List.singleton_append, insideRev, h.outside]
    simpa using ht
  · rw [spent_snoc, h.outside]
    simpa using h.within

theorem forceNextToken_forcing (free : List Nat) {k : Nat} (hk : k < cfg.forceSequence.length) :
    forceNextToken cfg (forcingState cfg free k) = .only cfg.forceSequence[k] := by
  simp [forceNextToken, forcingState, hk]

/-- The sequence is forced token after token. -/
theorem Begun.forced {free : List Nat} (h : Begun cfg free) (k : Nat) (hk : k < cfg.forceSequence.length) :
    after cfg (free ++ cfg.forceSequence.take k) =
      (forcingState cfg free k, .only cfg.forceSequence[k]) := by
  induction k with
  | zero => rw [List.take_zero, List.append_nil, h.state, forceNextToken_forcing free hk]
  | succ k ih =>
    rw [List.take_add_one, List.getElem?_eq_getElem (by omega), Option.toList_some, ← List.append_assoc, after_snoc,
      ih (by omega), ← forceNextToken_forcing free hk]
    have hstep : updateState cfg (forcingState cfg free k) cfg.forceSequence[k] = forcingState cfg free (k + 1) := by
      simp [updateState, forcingState, show ¬ cfg.forceSequence.length ≤ k + 1 by omega]
    simp [call, hstep]
    simp [forcingState]

/-- After it only the tokens of the close tag are removed. -/
theorem Begun.suppressed {free : List Nat} (hseq : cfg.forceSequence ≠ []) (h : Begun cfg free) (later : List Nat) :
    (after cfg (free ++ cfg.forceSequence ++ later)).1.done = false ∧
      (after cfg (free ++ cfg.forceSequence ++ later)).1.suppressEnd = true ∧
      (after cfg (free ++ cfg.forceSequence ++ later)).2 = .without cfg.thinkEndIds := by
  induction later using List.reverseRecOn with
  | nil =>
    have hpos := List.length_pos_of_ne_nil hseq
    have hlast := h.forced (cfg.forceSequence.length - 1) (by omega)
    rw [List.append_nil, ← List.dropLast_concat_getLast hseq, ← List.append_assoc, after_snoc, List.dropLast_eq_take,
      hlast]
    have hstep : updateState cfg (forcingState cfg free (cfg.forceSequence.length - 1)) (cfg.forceSequence.getLast hseq) =
        { forcingState cfg free cfg.forceSequence.length with inThinking := false, forcing := false, suppressEnd := true } := by
      simp [updateState, forcingState, show cfg.forceSequence.length - 1 + 1 = cfg.forceSequence.length by omega]
    simp [call, hstep]
    simp [forcingState]
  | append_singleton later t ih =>
    rw [← List.append_assoc, after_snoc, call, if_neg (by rw [ih.1]; exact Bool.false_ne_true), if_pos ih.2.1]
    exact ⟨ih.1, ih.2.1, rfl⟩

def Following (cfg : Config) (tokens : List Nat) : Prop :=
  ∃ free rest, Begun cfg free ∧ tokens = free ++ rest ∧
    rest.take cfg.forceSequence.length = cfg.forceSequence.take rest.length

theorem Following.step (h : Following cfg tokens) {t : Nat}
    (ht : (after cfg tokens).2.Allows t) : Following cfg (tokens ++ [t]) := by
  obtain ⟨free, rest, hbegun, rfl, hrest⟩ := h
  refine ⟨free, rest ++ [t], hbegun, List.append_assoc _ _ _, ?_⟩
  by_cases hlt : rest.length < cfg.forceSequence.length
  · rw [List.take_of_length_le (by omega)] at hrest
    have hforced := hbegun.forced rest.length hlt
    rw [← hrest] at hforced
    rw [hforced] at ht
    obtain rfl : t = cfg.forceSequence[rest.length] := ht
    rw [List.take_of_length_le (by simp; omega), List.length_append, List.length_singleton, List.take_add_one,
      ← hrest, List.getElem?_eq_getElem hlt, Option.toList_some]
  · rw [List.take_append_of_le_length (by omega), hrest, List.take_of_length_le (by omega),
      List.take_of_length_le (by simp; omega)]

/-- The phases of a run. -/
theorem Generated.phase (hids : cfg.thinkEndIds ≠ [])
    (h : Generated cfg (fun s t => s.done = true → cfg.thinkStartId ≠ some t) tokens) :
    Thinking cfg tokens ∨ Closed cfg tokens ∨ Following cfg tokens := by
  have hbegun : ∀ tokens, Begun cfg tokens → Following cfg tokens := fun tokens h =>
    ⟨tokens, [], h, by simp, by simp⟩
  induction h with
  | nil =>
    rcases @start_phase cfg with h | h
    · exact .inl h
    · exact .inr (.inr (hbegun _ h))
  | token t _ hpossible hok ih =>
    rcases ih with hthinking | hclosed | hfollowing
    · rcases hthinking.step hids t with h | h | h
      · exact .inl h
      · exact .inr (.inl h)
      · exact .inr (.inr (hbegun _ h))
    · exact .inr (.inl (hclosed.step (hok hclosed.done)))
    · exact .inr (.inr (hfollowing.step hpossible))

theorem Following.enforced (hseq : cfg.forceSequence ≠ []) (h : Following cfg tokens) :
    Enforced cfg tokens := by
  obtain ⟨free, rest, hbegun, htokens, hrest⟩ := h
  refine .inr ⟨free, rest, htokens, (spent_le free).trans hbegun.within, hbegun.untouched, hrest, ?_, ?_⟩
  · intro j hj hle
    have htake : rest.take j = cfg.forceSequence.take j := by
      have h := congrArg (List.take j) hrest
      rwa [List.take_take, List.take_take, Nat.min_eq_left hj.le, Nat.min_eq_left hle] at h
    rw [htake, hbegun.forced j hj]
  · intro j hj hle
    have htake : rest.take j = cfg.forceSequence ++ (rest.take j).drop cfg.forceSequence.length := by
      rw [List.take_of_length_le (by omega : cfg.forceSequence.length ≤ rest.length)] at hrest
      rw [← hrest, List.length_take, Nat.min_eq_left (by omega)]
      conv_lhs => rw [← List.take_append_drop cfg.forceSequence.length (rest.take j)]
      rw [List.take_take, Nat.min_eq_left hj]
    rw [htake, ← List.append_assoc]
    exact (hbegun.suppressed hseq _).2.2

end

/-- The budget is enforced in every run that generates no start token once the model has closed
the section by itself. -/
theorem budget_enforced (cfg : Config) (hids : cfg.thinkEndIds ≠ []) (tokens : List Nat)
    (h : Generated cfg (fun s t => s.done = true → cfg.thinkStartId ≠ some t) tokens) : Enforced cfg tokens := by
  rcases h.phase hids with hthinking | hclosed | hfollowing
  · exact .inl ⟨hthinking.spent_within, hthinking.untouched⟩
  · exact .inl ⟨hclosed.within, hclosed.untouched⟩
  · exact hfollowing.enforced (by simp [Config.forceSequence, hids])

/-- Two tokens, the forced close with its trailing token, and one token after it. -/
theorem budget_enforced_forced : Enforced ⟨[8, 9], 3, some 7, [], [4]⟩ [5, 6, 8, 9, 4, 5] := by
  have h₁ : Generated ⟨[8, 9], 3, some 7, [], [4]⟩ (fun s t => s.done = true → some 7 ≠ some t) ([] ++ [5]) :=
    .token 5 .nil (by decide) (by decide)
  have h₂ := Generated.token 6 h₁ (by decide) (by decide)
  have h₃ := Generated.token 8 h₂ (by decide) (by decide)
  have h₄ := Generated.token 9 h₃ (by decide) (by decide)
  have h₅ := Generated.token 4 h₄ (by decide) (by decide)
  exact budget_enforced _ (by decide) _ (.token 5 h₅ (by decide) (by decide))

/-- A section opened again after the model has closed one by itself is not counted: `_done` is
tested before the start token is looked for. -/
theorem reopened_section_uncounted :
    Generated ⟨[1], 2, some 2, [], []⟩ (fun _ _ => True) [1, 2, 5, 5, 5] ∧
      ¬ Enforced ⟨[1], 2, some 2, [], []⟩ [1, 2, 5, 5, 5] := by
  constructor
  · have h₁ : Generated ⟨[1], 2, some 2, [], []⟩ (fun _ _ => True) ([] ++ [1]) := .token 1 .nil (by decide) trivial
    have h₂ := Generated.token 2 h₁ (by decide) trivial
    have h₃ := Generated.token 5 h₂ (by decide) trivial
    have h₄ := Generated.token 5 h₃ (by decide) trivial
    exact .token 5 h₄ (by decide) trivial
  · rintro (⟨hspent, -⟩ | ⟨free, rest, htokens, -, -, -, hforced, -⟩)
    · exact absurd hspent (by decide)
    · have hall : ∀ p ∈ [1, 2, 5, 5, 5].inits, (after ⟨[1], 2, some 2, [], []⟩ p).2 = .all := by decide
      have hfree := hall free ((List.mem_inits _ _).2 ⟨rest, htokens.symm⟩)
      have hfirst := hforced 0 (by decide) (Nat.zero_le _)
      rw [List.take_zero, List.append_nil, hfree] at hfirst
      cases hfirst

end FusionMlx.Reasoning.ThinkingBudget
