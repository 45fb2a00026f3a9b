import FusionMlx.Reasoning.UiTarsStream

/-!
# The opener of a UI-TARS stream

Until an opener is whole nothing comes out. What the delta that completes it
does depends on whether anything was held back before.
-/
namespace FusionMlx.Reasoning.UiTars

open JsonText (Text)
open PyText TextSearch

variable {s : UiTarsReasoningParser} {p t u v w d a b op tok rest body : Text} {deltas : List Text}

def openings : List Text := preambleOpeners ++ [thinkOpen]

def Undecided (s : UiTarsReasoningParser) : Prop :=
  s.inReasoning = false ∧ s.inContent = false ∧ s.enableThinking ≠ some false

/-- No text of these is the beginning of another. -/
theorem openings_apart : ∀ op ∈ openings, ∀ word ∈ actionWord :: openings, word <+: op → word = op := by
  decide

theorem openings_mem : ∀ op ∈ openings, op ∈ preambleOpeners ++ [actionWord, thinkOpen] := by decide

theorem openings_ne_nil : ∀ op ∈ openings, op ≠ [] := by decide

theorem openings_head : ∀ op ∈ openings, ∃ c l, op = c :: l ∧ isSpace c = false := by
  intro op hop
  simp only [openings, preambleOpeners, List.cons_append, List.nil_append, List.mem_cons, List.not_mem_nil, or_false] at hop
  rcases hop with rfl | rfl | rfl | rfl <;> exact ⟨_, _, rfl, by decide⟩

theorem lstrip_opening (hw : Blank w) (hop : op ∈ openings) (rest : Text) : lstrip (w ++ (op ++ rest)) = op ++ rest := by
  obtain ⟨c, l, rfl, hc⟩ := openings_head op hop
  rw [lstrip_blank_append hw, List.cons_append, lstrip_eq_self hc]

/-- A text is its white space in front and what is left. -/
theorem front_append_lstrip (t : Text) : t.takeWhile isSpace ++ lstrip t = t := List.takeWhile_append_dropWhile

theorem front_blank (t : Text) : Blank (t.takeWhile isSpace) := fun _ hc => List.mem_takeWhile_imp hc

def Holding (t : Text) : Prop := lstrip t = [] ∨ ∃ op ∈ openings, lstrip t <+: op ∧ lstrip t ≠ op

theorem holding_of_start (hw : Blank w) (hop : op ∈ openings) (hp : p <+: w ++ (op ++ rest))
    (hlen : p.length < (w ++ op).length) : Holding p := by
  rcases prefix_append_cases hp with ⟨hpw, -⟩ | ⟨u, hu, rfl⟩
  · have hblank : Blank p := fun c hc => hw c (hpw.subset hc)
    refine .inl ?_
    have := lstrip_blank_append hblank []
    rwa [List.append_nil] at this
  · rw [List.length_append, List.length_append, Nat.add_lt_add_iff_left] at hlen
    have hpre : u <+: op := List.prefix_of_prefix_length_le hu (List.prefix_append op rest) hlen.le
    have hstrip : lstrip (w ++ u) = u := by
      rw [lstrip_blank_append hw]
      cases u with
      | nil => rfl
      | cons x u =>
        obtain ⟨c, l, rfl, hc⟩ := openings_head op hop
        rw [(List.cons_prefix_cons.1 hpre).1]
        exact lstrip_eq_self hc u
    refine .inr ⟨op, hop, ?_, ?_⟩ <;> rw [hstrip]
    · exact hpre
    · rintro rfl
      exact lt_irrefl _ hlen

theorem any_isPrefixOf (words : List Text) (hop : op ∈ openings) (hsub : ∀ word ∈ words, word ∈ actionWord :: openings)
    (hpre : t <+: op) (hne : t ≠ op) : words.any (fun word => word.isPrefixOf t) = false := by
  rw [List.any_eq_false]
  intro word hword h
  have hwt := List.isPrefixOf_iff_prefix.1 h
  obtain rfl := openings_apart op hop word (hsub word hword) (hwt.trans hpre)
  exact hne (hpre.eq_of_length_le hwt.length_le)

theorem step_holding (hs : Undecided s) (h : Holding (p ++ d)) : streamStep (s, p) d = ((s, p ++ d), []) := by
  by_cases hd : d = []
  · rw [hd, streamStep_nil, List.append_nil]
  obtain ⟨hr, hc, he⟩ := hs
  rcases h with h | ⟨op, hop, hpre, hne⟩
  · simp [streamStep, extractReasoningStreaming, hd, hr, hc, he, h]
  · by_cases hnil : lstrip (p ++ d) = []
    · simp [streamStep, extractReasoningStreaming, hd, hr, hc, he, hnil]
    have hpreamble := any_isPrefixOf preambleOpeners hop (by decide) hpre hne
    have hthink := any_isPrefixOf [thinkOpen] hop (by decide) hpre hne
    have haction := any_isPrefixOf [actionWord] hop (by decide) hpre hne
    have hstill : (preambleOpeners ++ [actionWord, thinkOpen]).any (fun op => (lstrip (p ++ d)).isPrefixOf op) = true :=
      List.any_eq_true.2 ⟨op, openings_mem op hop, List.isPrefixOf_iff_prefix.2 hpre⟩
    simp only [List.any_cons, List.any_nil, Bool.or_false] at hthink haction
    unfold streamStep extractReasoningStreaming
    simp only [hd, hr, hc, he, hnil, hpreamble, hthink, haction, hstill, if_false, if_true, Bool.false_eq_true,
      Option.toList_none]

/-- Nothing comes out of a front that no opener completes. -/
theorem messages_holding (hs : Undecided s) (hw : Blank w) (hop : op ∈ openings)
    (hpd : p ++ d <+: w ++ (op ++ rest)) (hlen : (p ++ d).length < (w ++ op).length) :
    messagesFrom (s, p) (d :: deltas) = messagesFrom (s, p ++ d) deltas := by
  rw [messagesFrom_cons, step_holding hs (holding_of_start hw hop hpd hlen), List.nil_append]

theorem preamble_any (hw : Blank w) (hop : op ∈ preambleOpeners) (rest : Text) :
    preambleOpeners.any (fun q => q.isPrefixOf (lstrip (w ++ (op ++ rest)))) = true := by
  rw [lstrip_opening hw (List.mem_append_left _ hop)]
  exact List.any_eq_true.2 ⟨op, hop, List.isPrefixOf_iff_prefix.2 (List.prefix_append op rest)⟩

/-- The first delta of the stream is read as within the reasoning. -/
theorem step_first (hs : Undecided s) (hw : Blank w) (hop : op ∈ preambleOpeners) (hd : d = w ++ (op ++ rest)) :
    streamStep (s, []) d = streamStep ({ s with inReasoning := true }, []) d := by
  obtain ⟨hr, hc, he⟩ := hs
  have hne : op ++ rest ≠ [] := by
    simp [openings_ne_nil op (List.mem_append_left _ hop)]
  have hdne : d ≠ [] := by
    rw [hd]
    exact fun h => hne (List.append_eq_nil_iff.1 h).2
  have hstrip : lstrip d = op ++ rest := by
    rw [hd]
    exact lstrip_opening hw (List.mem_append_left _ hop) rest
  have hany := preamble_any hw hop rest
  rw [← hd] at hany
  unfold streamStep extractReasoningStreaming
  simp only [List.nil_append, hdne, hr, hc, he, if_false, if_true, Bool.false_eq_true, hany, ne_eq,
    not_true_eq_false]
  rw [if_neg (by rw [hstrip]; exact hne)]

/-- A later delta comes out whole, with what was held back. -/
theorem step_completing (hs : Undecided s) (hp : p ≠ []) (hd : d ≠ []) (hw : Blank w) (hop : op ∈ preambleOpeners)
    (hpd : p ++ d = w ++ (op ++ rest)) :
    streamStep (s, p) d = (({ s with inReasoning := true }, p ++ d), [{ reasoning := some (p ++ d) }]) := by
  obtain ⟨hr, hc, he⟩ := hs
  have hne : op ++ rest ≠ [] := by
    simp [openings_ne_nil op (List.mem_append_left _ hop)]
  have hstrip : lstrip (p ++ d) = op ++ rest := by
    rw [hpd]
    exact lstrip_opening hw (List.mem_append_left _ hop) rest
  have hany := preamble_any hw hop rest
  rw [← hpd] at hany
  unfold streamStep extractReasoningStreaming
  simp only [hd, hr, hc, he, if_false, if_true, Bool.false_eq_true, hany, ne_eq, hp, not_false_eq_true]
  rw [if_neg (by rw [hstrip]; exact hne)]
  rfl

theorem think_uncut : Uncut exitPredicates thinkOpen := by
  unfold Uncut
  decide

theorem think_hold : computePartialExitHold thinkOpen = 0 := by decide

theorem think_safe : safePrefix exitPredicates thinkOpen = thinkOpen := by decide

/-- The delta that completes `<think>` is read as one that comes behind it. -/
theorem thinkOpened_eq (hp : p.length < thinkOpen.length) (hrest : rest ≠ []) :
    thinkOpened s p (thinkOpen ++ rest) = withinReasoning s thinkOpen (thinkOpen ++ rest) := by
  have hfind : find thinkOpen (thinkOpen ++ rest) = some 0 := by
    rw [find, show partition thinkOpen (thinkOpen ++ rest) = some ([], rest) from rfl]
    rfl
  have hlen : ¬ (thinkOpen ++ rest).length ≤ thinkOpen.length := by
    rw [List.length_append]
    have := List.length_pos_iff.2 hrest
    omega
  unfold thinkOpened withinReasoning
  simp only [hfind, Option.getD_some, Nat.zero_add, if_neg hlen, max_eq_left hp.le, think_hold, Nat.sub_zero]
  cases hcut : firstOf exitPredicates (thinkOpen ++ rest) with
  | none =>
    have hexit : findFirstExit (thinkOpen ++ rest) = none := by rw [findFirstExit_eq, hcut]; rfl
    simp only [hexit]
  | some r =>
    obtain ⟨a, tok, b⟩ := r
    have hexit : findFirstExit (thinkOpen ++ rest) = some (a.length, tok) := by rw [findFirstExit_eq, hcut]; rfl
    have hsafe := safePrefix_firstOf think_uncut hcut
    rw [think_safe] at hsafe
    simp only [hexit, if_pos hsafe.length_le]
    split
    · rfl
    · rename_i hge
      have heq : a.length = thinkOpen.length := le_antisymm (not_lt.1 hge) hsafe.length_le
      have : slice (thinkOpen ++ rest) thinkOpen.length a.length = [] := by
        rw [slice, heq, List.drop_take, Nat.sub_self, List.take_zero]
      rw [this]

theorem step_think (hs : Undecided s) (hp : p.length < thinkOpen.length) (hd : d ≠ []) (hpd : p ++ d = thinkOpen ++ rest) :
    streamStep (s, p) d =
      if rest = [] then (({ s with inReasoning := true }, thinkOpen), [])
      else streamStep ({ s with inReasoning := true }, thinkOpen) rest := by
  obtain ⟨hr, hc, he⟩ := hs
  have hstrip : lstrip (p ++ d) = thinkOpen ++ rest := by
    rw [hpd]
    exact @lstrip_opening [] thinkOpen Blank.nil (by decide) rest
  have hany : preambleOpeners.any (fun q => q.isPrefixOf (thinkOpen ++ rest)) = false := rfl
  have hthink : thinkOpen.isPrefixOf (thinkOpen ++ rest) = true :=
    List.isPrefixOf_iff_prefix.2 (List.prefix_append _ _)
  have hne : thinkOpen ++ rest ≠ [] := by simp [thinkOpen]
  have hstep : extractReasoningStreaming s p (p ++ d) d = thinkOpened { s with inReasoning := true } p (p ++ d) := by
    unfold extractReasoningStreaming
    simp only [hd, hr, hc, he, if_false, if_true, Bool.false_eq_true, hstrip, hany, hthink, hne]
  change (((extractReasoningStreaming s p (p ++ d) d).1, p ++ d), (extractReasoningStreaming s p (p ++ d) d).2.toList) = _
  rw [hstep, hpd]
  split
  · rename_i hrest
    rw [hrest, List.append_nil]
    rfl
  · rename_i hrest
    rw [thinkOpened_eq hp hrest]
    unfold streamStep extractReasoningStreaming
    simp only [hrest, hc, he, if_false, if_true, Bool.false_eq_true]

end FusionMlx.Reasoning.UiTars
