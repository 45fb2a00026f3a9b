import FusionMlx.Speculative.SuffixDecoding
import Mathlib.Data.List.Range

/-!
# The suffix drafter computes what its window says

The index holds exactly the ends of each k-gram in the window, whatever was
dropped from its head, and the draft that narrows the matches round by round is
the one that looks all of them up again.
-/
namespace FusionMlx.SuffixDecoding

open OrderedDict

variable {τ : Type} [DecidableEq τ] {C : Config} {tokens g : List τ} {shift k : Nat} {t : τ}

def absEnds (shift : Nat) (tokens g : List τ) : List Nat := (ends tokens g).map (shift + ·)

theorem mem_ends {i : Nat} : i ∈ ends tokens g ↔ i < tokens.length ∧ g <:+ tokens.take (i + 1) := by
  simp [ends, List.isSuffixOf_iff_suffix]

theorem absEnds_lt {e : Nat} (he : e ∈ absEnds shift tokens g) : e < shift + tokens.length := by
  obtain ⟨i, hi, rfl⟩ := List.mem_map.1 he
  have := (mem_ends.1 hi).1
  omega

/-- One more token is one more end, of the k-gram that it ends. -/
theorem absEnds_concat : absEnds shift (tokens ++ [t]) g =
    absEnds shift tokens g ++ if g <:+ tokens ++ [t] then [shift + tokens.length] else [] := by
  unfold absEnds ends
  rw [List.length_append, List.length_singleton, List.range_succ, List.filter_append, List.map_append]
  congr 1
  · congr 1
    refine List.filter_congr (fun i hi => ?_)
    have hlt := List.mem_range.1 hi
    rw [List.take_append_of_le_length (by omega)]
  · have htake : (tokens ++ [t]).take (tokens.length + 1) = tokens ++ [t] := List.take_of_length_le (by simp)
    rw [List.filter_singleton, htake]
    by_cases h : g <:+ tokens ++ [t]
    · rw [if_pos h, (List.isSuffixOf_iff_suffix).2 h]
      rfl
    · rw [if_neg h, Bool.eq_false_iff.2 (fun h' => h ((List.isSuffixOf_iff_suffix).1 h'))]
      rfl

omit [DecidableEq τ] in
/-- A k-gram ends behind the dropped head when it ends far enough behind it. -/
theorem suffix_drop_iff {l : List τ} {n : Nat} : g <:+ l.drop n ↔ g <:+ l ∧ (g = [] ∨ n + g.length ≤ l.length) := by
  constructor
  · intro h
    refine ⟨h.trans (List.drop_suffix n l), ?_⟩
    have hlen := h.length_le
    rw [List.length_drop] at hlen
    by_cases hg : g = []
    · exact .inl hg
    · have := List.length_pos_iff.2 hg
      exact .inr (by omega)
  · rintro ⟨h, rfl | hlen⟩
    · exact List.nil_suffix
    · exact List.suffix_of_suffix_length_le h (List.drop_suffix n l) (by rw [List.length_drop]; omega)

/-- What is left of the ends when the head is dropped. -/
theorem absEnds_drop (hg : g ≠ []) (n : Nat) : absEnds (shift + n) (tokens.drop n) g =
    (absEnds shift tokens g).filter (shift + n + g.length - 1 ≤ ·) := by
  have hpos := List.length_pos_iff.2 hg
  by_cases hn : n ≤ tokens.length
  · obtain ⟨m, hm⟩ : ∃ m, tokens.length = n + m := ⟨tokens.length - n, by omega⟩
    have hlow : (((List.range n).filter (fun i => g.isSuffixOf (tokens.take (i + 1)))).map (shift + ·)).filter
        (shift + n + g.length - 1 ≤ ·) = [] := by
      rw [List.filter_eq_nil_iff]
      intro e he
      obtain ⟨i, hi, rfl⟩ := List.mem_map.1 he
      have := List.mem_range.1 (List.mem_filter.1 hi).1
      simp only [decide_eq_true_eq]
      omega
    unfold absEnds ends
    rw [List.length_drop, hm, show n + m - n = m by omega, List.range_add, List.filter_append, List.map_append,
      List.filter_append, hlow, List.nil_append, List.filter_map, List.filter_filter, List.filter_map, List.map_map]
    have hcond : ∀ i ∈ List.range m, (g.isSuffixOf ((tokens.drop n).take (i + 1))) =
        ((fun a => ((fun e => decide (shift + n + g.length - 1 ≤ e)) ∘ (fun x => shift + x)) a &&
          g.isSuffixOf (tokens.take (a + 1))) ∘ (fun x => n + x)) i := by
      intro i hi
      have hlt := List.mem_range.1 hi
      rw [Bool.eq_iff_iff]
      simp only [Function.comp_apply, Bool.and_eq_true, decide_eq_true_eq, List.isSuffixOf_iff_suffix]
      rw [show (tokens.drop n).take (i + 1) = (tokens.take (n + i + 1)).drop n by
        rw [List.drop_take]; congr 1; omega, suffix_drop_iff, List.length_take, Nat.min_eq_left (by omega)]
      simp only [hg, false_or]
      rw [and_comm]
      refine and_congr_left (fun _ => ?_)
      omega
    rw [List.filter_congr hcond]
    refine List.map_congr_left (fun i _ => ?_)
    simp only [Function.comp_apply]
    omega
  · have hnil : tokens.drop n = [] := List.drop_eq_nil_of_le (by omega)
    rw [hnil]
    symm
    change _ = []
    rw [List.filter_eq_nil_iff]
    intro e he
    have := absEnds_lt he
    simp only [decide_eq_true_eq]
    omega

def Indexes (shift : Nat) (tokens : List τ) (k : Nat) (bucket : Dict (List τ) (List Nat)) : Prop :=
  ∀ g : List τ, g.length = k → bucket.get? g = if absEnds shift tokens g = [] then none else some (absEnds shift tokens g)

namespace SuffixDecodingDrafter

theorem Indexes.indexLast {bucket : Dict (List τ) (List Nat)} (h : Indexes shift tokens k bucket) (t : τ) :
    Indexes shift (tokens ++ [t]) k
      (indexLast (tokens ++ [t]) (shift + (tokens ++ [t]).length - 1) k bucket) := by
  intro g hg
  have hend : shift + (tokens ++ [t]).length - 1 = shift + tokens.length := by simp
  rw [absEnds_concat]
  unfold SuffixDecodingDrafter.indexLast
  by_cases hshort : (tokens ++ [t]).length < k
  · have hnot : ¬ g <:+ tokens ++ [t] := fun h => by have := h.length_le; omega
    rw [if_pos hshort, if_neg hnot, List.append_nil]
    exact h g hg
  · have hiff : g <:+ tokens ++ [t] ↔ g = (tokens ++ [t]).drop ((tokens ++ [t]).length - k) := by
      rw [List.suffix_iff_eq_drop, hg]
    rw [if_neg hshort, hend]
    dsimp only
    rw [Dict.get?_set]
    by_cases hlast : g = (tokens ++ [t]).drop ((tokens ++ [t]).length - k)
    · rw [if_pos hlast, if_pos (hiff.2 hlast), ← hlast, h g hg]
      split_ifs with h₁ h₂ h₂
      · simp at h₂
      · rw [h₁]; rfl
      · simp at h₂
      · rfl
    · rw [if_neg hlast, if_neg (fun h => hlast (hiff.1 h)), List.append_nil]
      exact h g hg

theorem Indexes.prune {bucket : Dict (List τ) (List Nat)} (hk : 1 ≤ k) (h : Indexes shift tokens k bucket) (n : Nat) :
    Indexes (shift + n) (tokens.drop n) k (prune (shift + n + k - 1) bucket) := by
  intro g hg
  have hne : g ≠ [] := fun hnil => by rw [hnil] at hg; simp at hg; omega
  rw [absEnds_drop hne n, hg]
  have hfresh : (bucket.mapValues (fun _ ends => ends.filter (shift + n + k - 1 ≤ ·))).get? g =
      if absEnds shift tokens g = [] then none
      else some ((absEnds shift tokens g).filter (shift + n + k - 1 ≤ ·)) := by
    rw [Dict.get?_mapValues, h g hg]
    split_ifs <;> rfl
  unfold SuffixDecodingDrafter.prune
  dsimp only
  rw [Dict.get?_filterKeys, hfresh]
  by_cases h₁ : absEnds shift tokens g = []
  · simp [h₁]
  · rw [if_neg h₁]
    generalize (absEnds shift tokens g).filter (shift + n + k - 1 ≤ ·) = kept
    cases kept <;> simp

/-- The drafter of a stream: its tokens are the window, and each bucket holds their ends. -/
structure Exact (C : Config) (stream : List τ) (d : SuffixDecodingDrafter τ) : Prop where
  tokens : d.tokens = window C stream
  shift : (∃ m < 0, C.maxHistory = some m) ∨ d.shift + d.tokens.length = stream.length
  index : ∀ k, 1 ≤ k → k ≤ C.maxSuffixLen → Indexes d.shift d.tokens k (d.suffixIndex k)

variable {stream : List τ} {d : SuffixDecodingDrafter τ}

omit [DecidableEq τ] in

omit [DecidableEq τ] in
/-- The window moves by one token, less what is too much. -/
theorem window_concat (C : Config) (stream : List τ) (t : τ) :
    (window C stream ++ [t]).drop (excess C (window C stream ++ [t])) = window C (stream ++ [t]) := by
  unfold window excess
  cases C.maxHistory with
  | none => rfl
  | some m =>
    dsimp only
    have happend : stream.drop (stream.length - m.toNat) ++ [t] = (stream ++ [t]).drop (stream.length - m.toNat) :=
      (List.drop_append_of_le_length (by omega)).symm
    rw [happend, List.drop_drop]
    simp only [List.length_drop, List.length_append, List.length_singleton]
    by_cases hm : 0 ≤ m
    · congr 1
      omega
    · rw [List.drop_eq_nil_of_le, List.drop_eq_nil_of_le] <;> simp only [List.length_append, List.length_singleton] <;>
        omega

omit [DecidableEq τ] in
theorem excess_le (C : Config) (tokens : List τ) : (∃ m < 0, C.maxHistory = some m) ∨ excess C tokens ≤ tokens.length := by
  unfold excess
  cases C.maxHistory with
  | none => exact .inr (Nat.zero_le _)
  | some m =>
    by_cases hm : m < 0
    · exact .inl ⟨m, hm, rfl⟩
    · refine .inr ?_
      dsimp only
      omega

theorem Exact.addOne (h : Exact C stream d) (t : τ) : Exact C (stream ++ [t]) (d.addOne C t) := by
  have hwindow := window_concat C stream t
  rw [← h.tokens] at hwindow
  have hindex : ∀ k, 1 ≤ k → k ≤ C.maxSuffixLen → Indexes d.shift (d.tokens ++ [t]) k
      (eachK C.maxSuffixLen (indexLast (d.tokens ++ [t]) (d.shift + (d.tokens ++ [t]).length - 1)) d.suffixIndex k) := by
    intro k h₁ h₂
    rw [eachK, if_pos ⟨h₁, h₂⟩]
    exact Indexes.indexLast (h.index k h₁ h₂) t
  unfold SuffixDecodingDrafter.addOne
  dsimp only
  split_ifs with hdrop
  · refine ⟨hwindow, ?_, ?_⟩
    · rcases excess_le C (d.tokens ++ [t]) with hneg | hle
      · exact .inl hneg
      · refine h.shift.imp_right (fun hshift => ?_)
        simp only [List.length_drop, List.length_append, List.length_singleton] at hle ⊢
        omega
    · intro k h₁ h₂
      have := Indexes.prune h₁ (hindex k h₁ h₂) (excess C (d.tokens ++ [t]))
      dsimp only
      rw [eachK, if_pos ⟨h₁, h₂⟩]
      exact this
  · have hzero : excess C (d.tokens ++ [t]) = 0 := by omega
    rw [hzero, List.drop_zero] at hwindow
    refine ⟨hwindow, ?_, hindex⟩
    refine h.shift.imp_right (fun hshift => ?_)
    simp only [List.length_append, List.length_singleton]
    omega

theorem Exact.addAll (C : Config) (stream : List τ) :
    Exact C stream (stream.foldl (SuffixDecodingDrafter.addOne C) SuffixDecodingDrafter.new) := by
  induction stream using List.reverseRecOn with
  | nil =>
    refine ⟨?_, .inr rfl, ?_⟩
    · unfold window
      cases C.maxHistory <;> simp [new]
    · intro k _ _ g _
      simp [new, absEnds, ends]
  | append_singleton stream t ih =>
    rw [List.foldl_append]
    exact ih.addOne t

end SuffixDecodingDrafter

/-- What is most common is one of the votes, and no vote has more. -/
theorem mostCommon_spec {votes : List τ} {top : τ} {n : Nat} (h : mostCommon votes = some (top, n)) :
    top ∈ votes ∧ n = votes.count top ∧ ∀ y ∈ votes, votes.count y ≤ n := by
  cases votes with
  | nil => cases h
  | cons x xs =>
    obtain ⟨rfl, rfl⟩ := Prod.mk.inj (Option.some.inj h)
    -- The best of what was met so far is kept over the rest.
    have hfold : ∀ (ys : List τ) (best : τ), best ∈ x :: xs → (∀ y ∈ ys, y ∈ x :: xs) →
        let top := ys.foldl (fun best y => if (x :: xs).count best < (x :: xs).count y then y else best) best
        top ∈ x :: xs ∧ (x :: xs).count best ≤ (x :: xs).count top ∧ ∀ y ∈ ys, (x :: xs).count y ≤ (x :: xs).count top := by
      intro ys
      induction ys with
      | nil => exact fun best hbest _ => ⟨hbest, Nat.le_refl _, by simp⟩
      | cons y ys ih =>
        intro best hbest hys
        rw [List.foldl_cons]
        by_cases hlt : (x :: xs).count best < (x :: xs).count y
        · rw [if_pos hlt]
          obtain ⟨h₁, h₂, h₃⟩ := ih y (hys y (by simp)) (fun z hz => hys z (by simp [hz]))
          refine ⟨h₁, by omega, ?_⟩
          intro z hz
          rcases List.mem_cons.1 hz with rfl | hz
          · exact h₂
          · exact h₃ z hz
        · rw [if_neg hlt]
          obtain ⟨h₁, h₂, h₃⟩ := ih best hbest (fun z hz => hys z (by simp [hz]))
          refine ⟨h₁, h₂, ?_⟩
          intro z hz
          rcases List.mem_cons.1 hz with rfl | hz
          · omega
          · exact h₃ z hz
    obtain ⟨h₁, h₂, h₃⟩ := hfold xs x (by simp) (fun y hy => by simp [hy])
    refine ⟨h₁, rfl, ?_⟩
    intro y hy
    rcases List.mem_cons.1 hy with rfl | hy
    · exact h₂
    · exact h₃ y hy

omit [DecidableEq τ] in
theorem prefix_concat_iff {l draft : List τ} {top : τ} : draft ++ [top] <+: l ↔ draft <+: l ∧ l[draft.length]? = some top := by
  constructor
  · rintro ⟨r, rfl⟩
    refine ⟨⟨top :: r, by simp⟩, ?_⟩
    rw [List.append_assoc, List.getElem?_append_right (Nat.le_refl _), Nat.sub_self]
    rfl
  · rintro ⟨⟨r, rfl⟩, h⟩
    rw [List.getElem?_append_right (Nat.le_refl _), Nat.sub_self] at h
    cases r with
    | nil => cases h
    | cons x r =>
      obtain rfl : x = top := by simpa using h
      exact ⟨r, by simp⟩

/-- Of the ends that agree with a draft those that go on with a token agree with one more. -/
theorem agreeing_concat (tokens : List τ) (k : Nat) (draft : List τ) (top : τ) :
    (agreeing tokens k draft).filter (fun i => tokens[i + 1 + draft.length]? = some top) =
      agreeing tokens k (draft ++ [top]) := by
  unfold agreeing
  rw [List.filter_filter]
  refine List.filter_congr (fun i _ => ?_)
  rw [Bool.eq_iff_iff]
  simp only [Bool.and_eq_true, decide_eq_true_eq, List.isPrefixOf_iff_prefix, prefix_concat_iff, List.getElem?_drop]
  tauto

namespace SuffixDecodingDrafter

variable {d : SuffixDecodingDrafter τ}

theorem continuation_shift (d : SuffixDecodingDrafter τ) (offset i : Nat) :
    d.continuation offset (d.shift + i) = d.tokens[i + 1 + offset]? := by
  unfold continuation
  rw [if_pos (by omega), show d.shift + i + 1 + offset - d.shift = i + 1 + offset by omega]

/-- Narrowing the matches round by round is looking them up again. -/
theorem buildDraft_eq (C : Config) (k n : Nat) (draft : List τ) (positions : List Nat)
    (hpos : positions.filter (· ≠ d.shift + d.tokens.length - 1) = (agreeing d.tokens k draft).map (d.shift + ·)) :
    extend C d.tokens k n draft =
      draft ++ d.buildDraft C (d.shift + d.tokens.length - 1) n draft.length positions := by
  induction n generalizing draft positions with
  | zero => simp [extend, buildDraft]
  | succ n ih =>
    have hvotes : (positions.filter (· ≠ d.shift + d.tokens.length - 1)).filterMap (d.continuation draft.length) =
        (agreeing d.tokens k draft).filterMap (fun i => d.tokens[i + 1 + draft.length]?) := by
      rw [hpos, List.filterMap_map]
      exact List.filterMap_congr (fun i _ => continuation_shift d draft.length i)
    rw [extend, buildDraft, hvotes]
    dsimp only
    generalize (agreeing d.tokens k draft).filterMap (fun i => d.tokens[i + 1 + draft.length]?) = votes
    rcases mostCommon votes with _ | ⟨top, topCount⟩
    · simp
    · dsimp only
      split_ifs with hbelow hkept
      · simp
      all_goals
        have hnext : (positions.filter (fun e => e ≠ d.shift + d.tokens.length - 1 ∧
            d.continuation draft.length e = some top)).filter (· ≠ d.shift + d.tokens.length - 1) =
              (agreeing d.tokens k (draft ++ [top])).map (d.shift + ·) := by
          rw [← agreeing_concat, List.filter_filter]
          have hsplit : positions.filter (fun e => decide (e ≠ d.shift + d.tokens.length - 1) &&
              decide (e ≠ d.shift + d.tokens.length - 1 ∧ d.continuation draft.length e = some top)) =
                (positions.filter (· ≠ d.shift + d.tokens.length - 1)).filter
                  (fun e => d.continuation draft.length e = some top) := by
            rw [List.filter_filter]
            refine List.filter_congr (fun e _ => ?_)
            rw [Bool.eq_iff_iff]
            simp only [Bool.and_eq_true, decide_eq_true_eq]
            tauto
          rw [hsplit, hpos, List.filter_map]
          congr 1
          refine List.filter_congr (fun i _ => ?_)
          simp only [Function.comp_apply, continuation_shift]
        have hrec := ih (draft ++ [top]) _ hnext
        rw [List.length_append, List.length_singleton] at hrec
        rw [hrec]
      · -- Without a match left the next round has no vote.
        rw [hkept]
        cases n <;> simp [buildDraft, mostCommon]
      · rw [List.append_assoc]
        rfl

/-- For every suffix length the matches of the index give the draft of the window. -/
theorem draftFrom_eq {stream : List τ} (h : Exact C stream d) {k : Nat} (hk : k ≤ min C.maxSuffixLen d.tokens.length) :
    d.draftFrom C k = reference C d.tokens k := by
  induction k with
  | zero => rfl
  | succ k ih =>
    have hle : k + 1 ≤ C.maxSuffixLen := by omega
    have hlen : k + 1 ≤ d.tokens.length := by omega
    have hquery : (d.tokens.drop (d.tokens.length - (k + 1))).length = k + 1 := by rw [List.length_drop]; omega
    have hget := h.index (k + 1) (by omega) hle _ hquery
    have hpositions : ((d.suffixIndex (k + 1)).get? (d.tokens.drop (d.tokens.length - (k + 1)))).getD [] =
        absEnds d.shift d.tokens (d.tokens.drop (d.tokens.length - (k + 1))) := by
      rw [hget]
      split_ifs with hnil
      · exact hnil.symm
      · rfl
    have hstart : (absEnds d.shift d.tokens (d.tokens.drop (d.tokens.length - (k + 1)))).filter
        (· ≠ d.shift + d.tokens.length - 1) = (agreeing d.tokens (k + 1) []).map (d.shift + ·) := by
      unfold absEnds agreeing
      rw [List.filter_map]
      congr 1
      refine List.filter_congr (fun i _ => ?_)
      rw [Bool.eq_iff_iff]
      simp only [Function.comp_apply, decide_eq_true_eq, List.isPrefixOf_nil_left, and_true]
      omega
    have hdraft := buildDraft_eq C (k + 1) C.maxDraftTokens [] _ hstart
    rw [List.nil_append] at hdraft
    rw [draftFrom, reference, hpositions, hdraft, ih (by omega)]
    rfl

/-- A draft that some earlier end agrees with stays one while it grows. -/
theorem extend_agrees (C : Config) (tokens : List τ) (k n : Nat) {draft : List τ}
    (h : draft = [] ∨ agreeing tokens k draft ≠ []) :
    (extend C tokens k n draft = [] ∨ agreeing tokens k (extend C tokens k n draft) ≠ []) ∧
      (extend C tokens k n draft).length ≤ draft.length + n := by
  induction n generalizing draft with
  | zero => exact ⟨h, Nat.le_refl _⟩
  | succ n ih =>
    rw [extend]
    split
    · exact ⟨h, by omega⟩
    · next top topCount hvote =>
      split_ifs
      · exact ⟨h, by omega⟩
      · obtain ⟨i, hi, htop⟩ := List.mem_filterMap.1 (mostCommon_spec hvote).1
        have hnext : i ∈ agreeing tokens k (draft ++ [top]) :=
          agreeing_concat tokens k draft top ▸ List.mem_filter.2 ⟨hi, decide_eq_true htop⟩
        obtain ⟨hagree, hlen⟩ := ih (.inr (List.ne_nil_of_mem hnext))
        rw [List.length_append, List.length_singleton] at hlen
        exact ⟨hagree, by omega⟩

theorem reference_repeats (C : Config) (tokens : List τ) (n : Nat) :
    (reference C tokens n).length ≤ C.maxDraftTokens ∧ (reference C tokens n ≠ [] →
      ∃ k, 1 ≤ k ∧ k ≤ n ∧ tokens.drop (tokens.length - k) ++ reference C tokens n <:+: tokens) := by
  induction n with
  | zero => exact ⟨Nat.zero_le _, fun h => absurd rfl h⟩
  | succ n ih =>
    rw [reference]
    split_ifs with hnil
    · exact ⟨ih.1, fun h => (ih.2 h).imp fun k hk => ⟨hk.1, by omega, hk.2.2⟩⟩
    · obtain ⟨hagree, hlen⟩ := extend_agrees C tokens (n + 1) C.maxDraftTokens (.inl rfl)
      refine ⟨by simpa using hlen, fun _ => ⟨n + 1, by omega, Nat.le_refl _, ?_⟩⟩
      obtain ⟨i, hi⟩ := List.exists_mem_of_ne_nil _ (hagree.resolve_left hnil)
      obtain ⟨hend, hpre⟩ := List.mem_filter.1 hi
      simp only [Bool.decide_and, Bool.and_eq_true, decide_eq_true_eq, List.isPrefixOf_iff_prefix] at hpre
      obtain ⟨rest, hrest⟩ := hpre.2
      obtain ⟨before, hbefore⟩ := (mem_ends.1 hend).2
      refine ⟨before, rest, ?_⟩
      rw [← List.append_assoc, hbefore, List.append_assoc, hrest, List.take_append_drop]

/-- A draft is no longer than allowed, and the window has it behind an earlier stand of its last tokens. -/
theorem draft_repeats (C : Config) (stream : List τ) :
    let draft := (stream.foldl (addOne C) new).getDraft C
    draft.length ≤ C.maxDraftTokens ∧ (draft ≠ [] → ∃ k, 1 ≤ k ∧ k ≤ C.maxSuffixLen ∧
      (window C stream).drop ((window C stream).length - k) ++ draft <:+: window C stream) := by
  have h := Exact.addAll C stream
  dsimp only
  rw [getDraft, draftFrom_eq h (Nat.le_refl _), h.tokens]
  obtain ⟨hlen, hrepeats⟩ := reference_repeats C (window C stream) (min C.maxSuffixLen (window C stream).length)
  exact ⟨hlen, fun hne => (hrepeats hne).imp fun k hk => ⟨hk.1, by omega, hk.2.2⟩⟩

end SuffixDecodingDrafter

/-- For every stream the drafter keeps its window, its index tells for each k-gram where it ends in the window and
nothing else, and its draft is the reference's for the window. -/
theorem drafter_exact (C : Config) (stream : List τ) :
    let d := stream.foldl (SuffixDecodingDrafter.addOne C) SuffixDecodingDrafter.new
    d.tokens = window C stream ∧
    (∀ g : List τ, 1 ≤ g.length → g.length ≤ C.maxSuffixLen →
      (((d.suffixIndex g.length).get? g).getD [] =
        (ends (window C stream) g).map (stream.length - (window C stream).length + ·)) ∧
      (g ∈ (d.suffixIndex g.length).keys ↔ ends (window C stream) g ≠ [])) ∧
    d.getDraft C = reference C (window C stream) (min C.maxSuffixLen (window C stream).length) := by
  have h := SuffixDecodingDrafter.Exact.addAll C stream
  refine ⟨h.tokens, ?_, ?_⟩
  · intro g h₁ h₂
    have hget := h.index g.length h₁ h₂ g rfl
    have habs : absEnds (stream.foldl (SuffixDecodingDrafter.addOne C) SuffixDecodingDrafter.new).shift
        (stream.foldl (SuffixDecodingDrafter.addOne C) SuffixDecodingDrafter.new).tokens g =
          (ends (window C stream) g).map (stream.length - (window C stream).length + ·) := by
      rw [h.tokens, absEnds]
      rcases h.shift with ⟨m, hm, hmax⟩ | hshift
      · have hempty : window C stream = [] := by
          unfold window
          rw [hmax]
          dsimp only
          rw [show stream.length - m.toNat = stream.length by omega, List.drop_length]
        rw [hempty]
        rfl
      · rw [h.tokens] at hshift
        rw [show stream.length - (window C stream).length =
          (stream.foldl (SuffixDecodingDrafter.addOne C) SuffixDecodingDrafter.new).shift by omega]
    rw [habs] at hget
    constructor
    · rw [hget]
      split_ifs with hnil
      · exact hnil.symm
      · rfl
    · rw [Dict.mem_keys_iff, hget]
      simp only [List.map_eq_nil_iff]
      split_ifs with hnil <;> simp [hnil]
  · rw [← h.tokens]
    exact SuffixDecodingDrafter.draftFrom_eq h (Nat.le_refl _)

end FusionMlx.SuffixDecoding
