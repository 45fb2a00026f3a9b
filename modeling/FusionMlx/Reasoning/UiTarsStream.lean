import FusionMlx.Reasoning.UiTarsExits

/-!
# The UI-TARS stream within the reasoning

Once the opener is known, what has been emitted is the text so far without the
part held back, and the first exit turns the stream to the content, however
the deltas are cut.
-/
namespace FusionMlx.Reasoning.UiTars

open JsonText (Text)
open TextSearch

variable {s : UiTarsReasoningParser} {p t u v d a b tok : Text} {deltas : List Text}

theorem messagesFrom_cons (s : UiTarsReasoningParser × Text) (d : Text) (deltas : List Text) :
    messagesFrom s (d :: deltas) = (streamStep s d).2 ++ messagesFrom (streamStep s d).1 deltas := by
  simp [messagesFrom]

theorem streamStep_nil (s : UiTarsReasoningParser × Text) : streamStep s [] = (s, []) := by
  simp [streamStep, extractReasoningStreaming]

@[simp] theorem orNone_getD (t : Text) : (orNone t).getD [] = t := by
  by_cases h : t = [] <;> simp [orNone, h]

/-- In the content channel every delta is content. -/
theorem content_run (hs : s.inContent = true) (p : Text) (deltas : List Text) :
    reasoningOf (messagesFrom (s, p) deltas) = [] ∧ contentOf (messagesFrom (s, p) deltas) = deltas.flatten := by
  induction deltas generalizing p with
  | nil => simp [messagesFrom, finalizeStreaming, hs, reasoningOf, contentOf]
  | cons d deltas ih =>
    rw [messagesFrom_cons]
    by_cases hd : d = []
    · rw [hd, streamStep_nil]
      simpa using ih p
    · have hstep : streamStep (s, p) d = ((s, p ++ d), [{ content := some d }]) := by
        cases s
        simp only at hs
        simp [streamStep, extractReasoningStreaming, hd, hs]
      rw [hstep, reasoningOf_append, contentOf_append, (ih (p ++ d)).1, (ih (p ++ d)).2]
      simp [reasoningOf, contentOf]

/-- What stands between two beginnings of a text. -/
theorem append_slice (hu : u <+: v) (hv : v <+: t) : u ++ slice t u.length v.length = v := by
  rw [slice, ← List.prefix_iff_eq_take.1 hv]
  conv_rhs => rw [← List.take_append_drop u.length v]
  rw [← List.prefix_iff_eq_take.1 hu]

/-- The channels of a text that is read from within the reasoning: what is held back at its end is
never emitted. -/
def channels (t : Text) : Text × Text :=
  match firstOf exitPredicates t with
  | none => (safePrefix exitPredicates t, [])
  | some (a, tok, b) => (a, keptExit tok ++ b)

theorem safePrefix_hold (h : Uncut exitPredicates t) :
    (safePrefix exitPredicates t).length = t.length - computePartialExitHold t := by
  rw [safePrefix_length, hold_eq h]
  rfl

/-- One delta before the exit. -/
theorem within_uncut (hp : Uncut exitPredicates p) (hcur : Uncut exitPredicates (p ++ d)) :
    (withinReasoning s p (p ++ d)).1 = s ∧
      safePrefix exitPredicates p ++ reasoningOf (withinReasoning s p (p ++ d)).2.toList =
        safePrefix exitPredicates (p ++ d) ∧
      contentOf (withinReasoning s p (p ++ d)).2.toList = [] := by
  have hmono := safePrefix_mono exitPredicates (List.prefix_append p d)
  have hexit : findFirstExit (p ++ d) = none := by
    rw [findFirstExit_eq, (firstOf_none exits_apart.nil_not_mem).2 hcur]
    rfl
  unfold withinReasoning
  rw [hexit]
  simp only
  rw [← safePrefix_hold hp, ← safePrefix_hold hcur]
  split
  · rename_i hle
    refine ⟨rfl, ?_, rfl⟩
    rw [hmono.eq_of_length_le hle]
    simp [reasoningOf]
  · refine ⟨rfl, ?_, rfl⟩
    simpa [reasoningOf] using append_slice hmono (safePrefix_isPrefix exitPredicates (p ++ d))

/-- The delta with the exit. -/
theorem within_cut (hp : Uncut exitPredicates p) (hcut : firstOf exitPredicates (p ++ d) = some (a, tok, b)) :
    (withinReasoning s p (p ++ d)).1 = { s with inContent := true } ∧
      safePrefix exitPredicates p ++ reasoningOf (withinReasoning s p (p ++ d)).2.toList = a ∧
      contentOf (withinReasoning s p (p ++ d)).2.toList = keptExit tok ++ b := by
  obtain ⟨-, ht⟩ := firstOf_some hcut
  have hsafe := safePrefix_firstOf hp hcut
  have hexit : findFirstExit (p ++ d) = some (a.length, tok) := by
    rw [findFirstExit_eq, hcut]
    rfl
  unfold withinReasoning
  rw [hexit]
  simp only
  rw [← safePrefix_hold hp]
  have hpart : safePrefix exitPredicates p ++
      (if (safePrefix exitPredicates p).length < a.length then
        slice (p ++ d) (safePrefix exitPredicates p).length a.length else []) = a := by
    split
    · exact append_slice hsafe ⟨tok ++ b, by rw [ht]; simp⟩
    · rename_i hge
      rw [List.append_nil]
      exact hsafe.eq_of_length_le (by omega)
  refine ⟨trivial, ?_, ?_⟩
  · simpa [reasoningOf] using hpart
  · rw [ht, contentAfterExit_eq]
    simp [contentOf]

/-- Within the reasoning the cuts do not matter. -/
theorem within_run (hs : s.inReasoning = true) (hc : s.inContent = false) (he : s.enableThinking ≠ some false)
    (hp : Uncut exitPredicates p) (deltas : List Text) :
    safePrefix exitPredicates p ++ reasoningOf (messagesFrom (s, p) deltas) = (channels (p ++ deltas.flatten)).1 ∧
      contentOf (messagesFrom (s, p) deltas) = (channels (p ++ deltas.flatten)).2 := by
  induction deltas generalizing p with
  | nil =>
    have hnone := (firstOf_none exits_apart.nil_not_mem).2 hp
    simp [messagesFrom, finalizeStreaming, hs, channels, hnone, reasoningOf, contentOf]
  | cons d deltas ih =>
    rw [messagesFrom_cons]
    by_cases hd : d = []
    · rw [hd, streamStep_nil]
      simpa using ih hp
    have hstep : streamStep (s, p) d =
        (((withinReasoning s p (p ++ d)).1, p ++ d), (withinReasoning s p (p ++ d)).2.toList) := by
      simp [streamStep, extractReasoningStreaming, hd, hs, hc, he]
    rw [hstep, reasoningOf_append, contentOf_append, List.flatten_cons, ← List.append_assoc, ← List.append_assoc]
    simp only
    cases hcut : firstOf exitPredicates (p ++ d) with
    | none =>
      have hcur := (firstOf_none exits_apart.nil_not_mem).1 hcut
      obtain ⟨hstate, hr, hk⟩ := @within_uncut s _ _ hp hcur
      rw [hstate, hr, hk, List.nil_append]
      exact ih hcur
    | some r =>
      obtain ⟨a, tok, b⟩ := r
      obtain ⟨hstate, hr, hk⟩ := @within_cut s _ _ _ _ _ hp hcut
      obtain ⟨hrest, hcontent⟩ := @content_run { s with inContent := true } rfl (p ++ d) deltas
      rw [hstate, hr, hk, hrest, hcontent]
      rw [channels, exits_apart.firstOf_append hcut deltas.flatten]
      simp

end FusionMlx.Reasoning.UiTars
