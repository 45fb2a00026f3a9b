import FusionMlx.Reasoning.UiTarsAgreement

/-!
# The cuts that show a UI-TARS text is not settled

A text whose cuts all agree and lose nothing is one that every cut leaves
alone: three cuts of it show so for a preamble, and two for `<think>`.
-/
namespace FusionMlx.Reasoning.UiTars

open JsonText (Text)
open PyText TextSearch

variable {p t w op tok rest body : Text} {enableThinking : Option Bool}

/-- All cuts of the text give the same channels, which lose nothing. -/
def CutsAgree (enableThinking : Option Bool) (t : Text) : Prop :=
  (∀ deltas deltas' : List Text, deltas.flatten = t → deltas'.flatten = t →
    streamed enableThinking deltas = streamed enableThinking deltas') ∧
  ∀ deltas : List Text, deltas.flatten = t → Lossless t (streamed enableThinking deltas)

theorem streamed_whole (he : enableThinking ≠ some false) (hw : Blank w) (hop : op ∈ preambleOpeners) (rest : Text) :
    streamed enableThinking [w ++ (op ++ rest)] = channels (w ++ (op ++ rest)) := by
  have hpos : 0 < (w ++ op).length := by
    rw [List.length_append]
    have := List.length_pos_iff.2 (openings_ne_nil op (List.mem_append_left _ hop))
    omega
  have htimely : Timely (w ++ op) [] [w ++ (op ++ rest)] := by
    intro pre d post hdeltas hlt hge
    cases pre with
    | nil => exact .inl rfl
    | cons x pre => simp at hdeltas
  obtain ⟨hr, hc⟩ := @preamble_run _ [] w op rest [w ++ (op ++ rest)] (fresh_undecided he) hw hop hpos (by simp) htimely
  rw [streamed, hr, hc]

/-- A cut behind the first letter and one behind the opener: the text up to the second comes out whole. -/
theorem streamed_behind (he : enableThinking ≠ some false) (hw : Blank w) (hop : op ∈ preambleOpeners) {c : Char}
    (hp : w ++ (op ++ rest) = c :: p) (deltas : List Text) :
    streamed enableThinking ([c] :: p :: deltas) =
      (w ++ (op ++ rest) ++ reasoningOf (messagesFrom
          ({ inReasoning := true, enableThinking := enableThinking }, w ++ (op ++ rest)) deltas),
        contentOf (messagesFrom ({ inReasoning := true, enableThinking := enableThinking }, w ++ (op ++ rest)) deltas)) := by
  have hs := fresh_undecided he
  have hlen : 2 ≤ op.length := by
    have h : ∀ op ∈ preambleOpeners, 2 ≤ op.length := by decide
    exact h op hop
  have hcp : [] ++ [c] <+: w ++ (op ++ rest) := ⟨p, hp.symm⟩
  have hne : p ≠ [] := by
    rintro rfl
    have := congrArg List.length hp
    simp only [List.length_append, List.length_cons, List.length_nil] at this
    omega
  unfold streamed
  simp only
  rw [messages_holding hs hw (List.mem_append_left _ hop) hcp 
    (by simp only [List.nil_append, List.length_cons, List.length_nil, List.length_append]; omega), messagesFrom_cons,
    step_completing hs (by simp) hne hw hop hp.symm, reasoningOf_append, contentOf_append]
  have hcons : [] ++ [c] ++ p = w ++ (op ++ rest) := hp.symm
  rw [hcons]
  simp [reasoningOf, contentOf]

/-- Cuts that agree on a preamble find no exit in it and hold nothing back at its end. -/
theorem preamble_uncut (he : enableThinking ≠ some false) (hw : Blank w) (hop : op ∈ preambleOpeners)
    (h : CutsAgree enableThinking (w ++ (op ++ rest))) :
    Uncut exitPredicates (w ++ (op ++ rest)) ∧ heldOf exitPredicates (w ++ (op ++ rest)) = 0 := by
  obtain ⟨c, p, hp⟩ : ∃ c p, w ++ (op ++ rest) = c :: p := by
    refine List.exists_cons_of_ne_nil (fun hnil => ?_)
    exact openings_ne_nil op (List.mem_append_left _ hop) (List.append_eq_nil_iff.1 (List.append_eq_nil_iff.1 hnil).2).1
  have hagree := h.1 [w ++ (op ++ rest)] [[c], p] (by simp) (by rw [hp]; simp)
  rw [streamed_whole he hw hop, streamed_behind he hw hop hp] at hagree
  have hend : messagesFrom ({ inReasoning := true, enableThinking := enableThinking }, w ++ (op ++ rest)) [] = [] := rfl
  rw [hend, channels] at hagree
  cases hfirst : firstOf exitPredicates (w ++ (op ++ rest)) with
  | none =>
    rw [hfirst] at hagree
    have hlen := congrArg (fun x => x.1.length) hagree
    simp only [reasoningOf, List.flatMap_nil, List.append_nil, safePrefix_length] at hlen
    have hle := heldOf_le exitPredicates (w ++ (op ++ rest))
    have hpos := congrArg List.length hp
    rw [List.length_cons] at hpos
    refine ⟨(firstOf_none exits_apart.nil_not_mem).1 hfirst, ?_⟩
    unfold heldOf at hle ⊢
    omega
  | some r =>
    obtain ⟨a, tok, b⟩ := r
    rw [hfirst] at hagree
    obtain ⟨htok, ht⟩ := firstOf_some hfirst
    have hlen := congrArg (fun x => x.1.length) hagree
    simp only [reasoningOf, List.flatMap_nil, List.append_nil] at hlen
    have hpos := List.length_pos_iff.2 (exits_apart tok htok).1
    rw [ht, List.length_append, List.length_append] at hlen
    omega

/-- Nor is anything held back behind any beginning of it that has the opener. -/
theorem preamble_nothing_held (he : enableThinking ≠ some false) (hw : Blank w) (hop : op ∈ preambleOpeners) {more : Text}
    (h : CutsAgree enableThinking (w ++ (op ++ (rest ++ more)))) : heldOf exitPredicates (w ++ (op ++ rest)) = 0 := by
  obtain ⟨huncut, hheld⟩ := preamble_uncut he hw hop h
  obtain ⟨c, p, hp⟩ : ∃ c p, w ++ (op ++ rest) = c :: p := by
    refine List.exists_cons_of_ne_nil (fun hnil => ?_)
    exact openings_ne_nil op (List.mem_append_left _ hop) (List.append_eq_nil_iff.1 (List.append_eq_nil_iff.1 hnil).2).1
  have hsplit : w ++ (op ++ (rest ++ more)) = w ++ (op ++ rest) ++ more := by simp
  have hbegin : Uncut exitPredicates (w ++ (op ++ rest)) := by
    rw [hsplit] at huncut
    exact huncut.infix (List.prefix_append _ _).isInfix
  have hagree := h.1 [w ++ (op ++ (rest ++ more))] [[c], p, more] (by simp) (by rw [hsplit, hp]; simp)
  rw [streamed_whole he hw hop, streamed_behind he hw hop hp] at hagree
  obtain ⟨hrun, -⟩ := @within_run { inReasoning := true, enableThinking := enableThinking } (w ++ (op ++ rest)) rfl rfl he
    hbegin [more]
  rw [List.flatten_cons, List.flatten_nil, List.append_nil, ← hsplit] at hrun
  have hreason := congrArg Prod.fst hagree
  simp only at hreason
  rw [← hrun] at hreason
  have hlen := congrArg List.length (List.append_cancel_right hreason)
  have hle := heldOf_le exitPredicates (w ++ (op ++ rest))
  have hpos := congrArg List.length hp
  rw [List.length_cons] at hpos
  rw [safePrefix_length] at hlen
  unfold heldOf at hle ⊢
  omega

theorem held_of_start {c : Char} (hc : startsExit c = true) (t : Text) : 0 < heldOf exitPredicates (t ++ [c]) := by
  obtain ⟨tok, htok, hhead⟩ := List.any_eq_true.1 hc
  rw [decide_eq_true_eq] at hhead
  have hlong : ∀ tok ∈ exitPredicates, 1 < tok.length := by decide
  have htake : tok.take 1 = [c] := by
    cases tok with
    | nil => cases hhead
    | cons x xs =>
      rw [List.head?_cons] at hhead
      rw [Option.some.inj hhead]
      rfl
  have := @le_held _ _ tok (t ++ [c]) 1 (hlong tok htok) (by rw [htake]; exact List.suffix_append t [c])
  exact this.trans (le_heldOf htok)

theorem preamble_settled (he : enableThinking ≠ some false) (hw : Blank w) (hop : op ∈ preambleOpeners)
    (h : CutsAgree enableThinking (w ++ (op ++ rest))) : ¬ blankLine <:+: w ∧ ∀ c ∈ rest, startsExit c = false := by
  refine ⟨fun hline => ?_, fun c hc => ?_⟩
  · have hblank : blankLine ∈ exitPredicates := by decide
    exact (preamble_uncut he hw hop h).1 blankLine hblank (hline.trans (List.prefix_append _ _).isInfix)
  · rw [← Bool.not_eq_true]
    intro hstart
    obtain ⟨r₁, r₂, rfl⟩ := List.append_of_mem hc
    have hsplit : r₁ ++ c :: r₂ = (r₁ ++ [c]) ++ r₂ := by simp
    rw [hsplit] at h
    have hheld := preamble_nothing_held he hw hop h
    have := held_of_start hstart (w ++ (op ++ r₁))
    rw [List.append_assoc, List.append_assoc] at this
    omega

theorem think_sharp : Sharp thinkOpen := ⟨'<', _, rfl, by decide⟩

theorem find_think (hw : Blank w) (body : Text) : find thinkOpen (w ++ (thinkOpen ++ body)) = some w.length := by
  have hno : ¬ thinkOpen <:+: w := fun h => hw.not_mem (by decide) (h.subset (by decide : '<' ∈ thinkOpen))
  rw [find, ← List.append_assoc, think_sharp.partition_append hno]
  rfl

/-- The delta that brings the whole tag goes to its branch. -/
theorem messages_think (he : enableThinking ≠ some false) (hw : Blank w) (body : Text) (deltas : List Text) :
    messagesFrom ({ enableThinking := enableThinking }, []) ((w ++ (thinkOpen ++ body)) :: deltas) =
      (thinkOpened { inReasoning := true, enableThinking := enableThinking } [] (w ++ (thinkOpen ++ body))).2.toList ++
        messagesFrom ((thinkOpened { inReasoning := true, enableThinking := enableThinking } []
          (w ++ (thinkOpen ++ body))).1, w ++ (thinkOpen ++ body)) deltas := by
  have hstrip : lstrip (w ++ (thinkOpen ++ body)) = thinkOpen ++ body := lstrip_opening hw (by decide) body
  have hany : preambleOpeners.any (fun q => q.isPrefixOf (thinkOpen ++ body)) = false := rfl
  have hthink : thinkOpen.isPrefixOf (thinkOpen ++ body) = true := List.isPrefixOf_iff_prefix.2 (List.prefix_append _ _)
  have hne : thinkOpen ++ body ≠ [] := by simp [thinkOpen]
  have hd : w ++ (thinkOpen ++ body) ≠ [] := by simp [thinkOpen]
  rw [messagesFrom_cons]
  unfold streamStep extractReasoningStreaming
  simp only [List.nil_append, hd, he, if_false, if_true, Bool.false_eq_true, hstrip, hany, hthink, hne]

theorem opened_think (hw : Blank w) (body : Text) : opened (w ++ (thinkOpen ++ body)) = (w, body) := by
  rw [opened_opening hw (by decide), if_pos rfl, List.append_nil]

theorem thinkOpened_reasoning (s : UiTarsReasoningParser) (hs : s.inReasoning = true) (p t : Text) :
    (thinkOpened s p t).1.inReasoning = true := by
  unfold thinkOpened
  simp only
  split
  · exact hs
  · split
    · split <;> exact hs
    · split
      · exact hs
      · split <;> exact hs

/-- The text in one delta. -/
theorem streamed_think (he : enableThinking ≠ some false) (hw : Blank w) (body : Text) :
    streamed enableThinking [w ++ (thinkOpen ++ body)] =
      (reasoningOf (thinkOpened { inReasoning := true, enableThinking := enableThinking } [] (w ++ (thinkOpen ++ body))).2.toList,
        contentOf (thinkOpened { inReasoning := true, enableThinking := enableThinking } [] (w ++ (thinkOpen ++ body))).2.toList) := by
  have hend := thinkOpened_reasoning { inReasoning := true, enableThinking := enableThinking } rfl [] (w ++ (thinkOpen ++ body))
  unfold streamed
  rw [messages_think he hw]
  simp [messagesFrom, finalizeStreaming, hend]

/-- Without a blank line before the tag: an exit is found where it stands, and without one a
beginning of the body comes out. -/
theorem thinkOpened_front (hw : Blank w) (hline : ¬ blankLine <:+: w) (s : UiTarsReasoningParser) :
    match firstOf exitPredicates body with
    | none => reasoningOf (thinkOpened s [] (w ++ (thinkOpen ++ body))).2.toList <+: body ∧
        contentOf (thinkOpened s [] (w ++ (thinkOpen ++ body))).2.toList = []
    | some (a, tok, b) => reasoningOf (thinkOpened s [] (w ++ (thinkOpen ++ body))).2.toList = a ∧
        contentOf (thinkOpened s [] (w ++ (thinkOpen ++ body))).2.toList = keptExit tok ++ b := by
  have hfront := firstOf_front hw hline (by decide : thinkOpen ∈ openings) body
  have hexit := findFirstExit_eq (w ++ (thinkOpen ++ body))
  have hstart : (w ++ thinkOpen).length = w.length + thinkOpen.length := List.length_append
  rw [hfront] at hexit
  unfold thinkOpened
  rw [find_think hw]
  simp only [Option.getD_some, List.length_nil, Nat.max_zero]
  cases hfirst : firstOf exitPredicates body with
  | none =>
    rw [hfirst] at hexit
    simp only [hexit, Option.map_none]
    split
    · exact ⟨List.nil_prefix, rfl⟩
    · split
      · exact ⟨List.nil_prefix, rfl⟩
      · have hpre := (List.take_prefix ((w ++ (thinkOpen ++ body)).length -
          computePartialExitHold (w ++ (thinkOpen ++ body))) (w ++ (thinkOpen ++ body))).drop (w ++ thinkOpen).length
        rw [← List.append_assoc, List.drop_left, List.append_assoc, hstart] at hpre
        exact ⟨by simpa [reasoningOf, slice] using hpre, rfl⟩
  | some r =>
    obtain ⟨a, tok, b⟩ := r
    obtain ⟨htok, hbody⟩ := firstOf_some hfirst
    rw [hfirst] at hexit
    have hpos := List.length_pos_iff.2 (exits_apart tok htok).1
    have hlong : ¬ (w ++ (thinkOpen ++ body)).length ≤ w.length + thinkOpen.length := by
      rw [hbody]
      simp only [List.length_append]
      omega
    have hlater : w.length + thinkOpen.length ≤ (w ++ thinkOpen ++ a).length := by
      simp only [List.length_append]
      omega
    have hsplit : w ++ (thinkOpen ++ body) = w ++ thinkOpen ++ a ++ tok ++ b := by
      rw [hbody]
      simp
    have hslice : slice (w ++ (thinkOpen ++ body)) (w.length + thinkOpen.length) (w ++ thinkOpen ++ a).length = a := by
      have := append_slice (List.prefix_append (w ++ thinkOpen) a)
        (⟨tok ++ b, by rw [hsplit]; simp⟩ : w ++ thinkOpen ++ a <+: w ++ (thinkOpen ++ body))
      rw [hstart] at this
      exact List.append_cancel_left this
    have hcontent : contentAfterExit (w ++ (thinkOpen ++ body)) (w ++ thinkOpen ++ a).length tok = keptExit tok ++ b := by
      rw [hsplit, contentAfterExit_eq]
    simp only [hexit, Option.map_some, if_neg hlong, if_pos hlater, hslice, hcontent]
    simp [reasoningOf, contentOf]

theorem separators : ∀ sep ∈ [[], thinkClose, blankLine], sep = [] ∨ sep ∈ exitPredicates := by decide

/-- Without a blank line before the tag it is the white space that is missing. -/
theorem think_no_front (he : enableThinking ≠ some false) (hw : Blank w) (hline : ¬ blankLine <:+: w)
    (h : CutsAgree enableThinking (w ++ (thinkOpen ++ body))) : w = [] := by
  obtain ⟨back, sep, hreason, hbody, hsep⟩ := h.2 [w ++ (thinkOpen ++ body)] (by simp)
  rw [opened_think hw] at hreason hbody
  rw [streamed_think he hw] at hreason hbody
  have hfront := @thinkOpened_front w body hw hline { inReasoning := true, enableThinking := enableThinking }
  simp only at hreason hbody
  have hlen := congrArg List.length hbody
  simp only [List.length_append] at hlen
  apply List.eq_nil_of_length_eq_zero
  cases hfirst : firstOf exitPredicates body with
  | none =>
    rw [hfirst] at hfront
    simp only [hreason] at hfront
    have hle := hfront.1.length_le
    rw [List.length_append] at hle
    rw [hfront.2] at hlen
    rcases separators sep hsep with rfl | hsep
    · simp only [List.length_nil] at hlen
      omega
    · -- A separator in the body would be an exit.
      refine absurd ?_ ((firstOf_none exits_apart.nil_not_mem).1 hfirst sep hsep)
      rw [hbody]
      exact List.infix_append back sep _
  | some r =>
    obtain ⟨a, tok, b⟩ := r
    rw [hfirst] at hfront
    obtain ⟨ha, hb⟩ := hfront
    rw [ha] at hreason
    rw [hb, List.length_append] at hlen
    obtain ⟨-, hsplit⟩ := firstOf_some hfirst
    have hlen' := congrArg List.length hsplit
    have hlena := congrArg List.length hreason
    have hkept : (keptExit tok).length ≤ tok.length := by
      unfold keptExit
      split <;> simp
    simp only [List.length_append] at hlen' hlena
    rcases separators sep hsep with rfl | hsep
    · simp only [List.length_nil] at hlen
      omega
    · have := firstOf_least hfirst hsep hbody
      omega

/-- A blank line before the tag becomes the exit of the delta behind the tag, which comes out with
the tag itself. -/
theorem think_no_blank_line (he : enableThinking ≠ some false) (hw : Blank w) (hbody : body ≠ [])
    (h : CutsAgree enableThinking (w ++ (thinkOpen ++ body))) : ¬ blankLine <:+: w := by
  intro hline
  obtain ⟨x, y, hxy⟩ := hline
  have hsplit : w ++ thinkOpen ++ body = x ++ blankLine ++ (y ++ thinkOpen ++ body) := by rw [← hxy]; simp
  have hmem : blankLine ∈ exitPredicates := by decide
  obtain ⟨⟨a, tok, b⟩, hfirst⟩ : ∃ r, firstOf exitPredicates (w ++ thinkOpen ++ body) = some r := by
    refine Option.ne_none_iff_exists'.1 (fun hnone => ?_)
    refine (firstOf_none exits_apart.nil_not_mem).1 hnone blankLine hmem ?_
    rw [hsplit]
    exact List.infix_append x blankLine _
  obtain ⟨htok, ht⟩ := firstOf_some hfirst
  have hleast := firstOf_least hfirst hmem hsplit
  have hlong : body.length < b.length := by
    have h8 : ∀ tok ∈ exitPredicates, tok.length ≤ 8 := by decide
    have hlen := congrArg List.length ht
    have hlw := congrArg List.length hxy
    have := h8 tok htok
    simp only [List.length_append, show thinkOpen.length = 7 from rfl, show blankLine.length = 2 from rfl] at hlen hlw
    omega
  obtain ⟨back, sep, -, hback, -⟩ := h.2 [w ++ (thinkOpen ++ []), body] (by simp)
  rw [opened_think hw] at hback
  have hexit : findFirstExit (w ++ thinkOpen ++ body) = some (a.length, tok) := by rw [findFirstExit_eq, hfirst]; rfl
  have hkept : contentAfterExit (w ++ thinkOpen ++ body) a.length tok = keptExit tok ++ b := by
    rw [ht, contentAfterExit_eq]
  have hcontent : (streamed enableThinking [w ++ (thinkOpen ++ []), body]).2 = keptExit tok ++ b := by
    have hstay : thinkOpened { inReasoning := true, enableThinking := enableThinking } [] (w ++ thinkOpen) =
        ({ inReasoning := true, enableThinking := enableThinking }, none) := by
      have hfind := find_think hw []
      rw [List.append_nil] at hfind
      unfold thinkOpened
      rw [hfind]
      simp
    have hstep : streamStep ({ inReasoning := true, enableThinking := enableThinking }, w ++ thinkOpen) body =
        (({ inReasoning := true, inContent := true, enableThinking := enableThinking }, w ++ thinkOpen ++ body),
          (withinReasoning { inReasoning := true, enableThinking := enableThinking } (w ++ thinkOpen)
            (w ++ thinkOpen ++ body)).2.toList) := by
      unfold streamStep extractReasoningStreaming withinReasoning
      simp only [hbody, he, if_false, if_true, Bool.false_eq_true, hexit]
    unfold streamed
    simp only
    rw [messages_think he hw, List.append_nil, hstay, messagesFrom_cons, hstep]
    unfold withinReasoning
    simp only [hexit, hkept]
    simp [contentOf, messagesFrom, finalizeStreaming]
  rw [hcontent] at hback
  have := congrArg List.length hback
  simp only [List.length_append] at this
  omega

theorem think_front (he : enableThinking ≠ some false) (hw : Blank w)
    (h : CutsAgree enableThinking (w ++ (thinkOpen ++ body))) : w = [] := by
  by_cases hnil : body = []
  · -- The tag alone: nothing comes out.
    subst hnil
    obtain ⟨back, sep, hreason, -, -⟩ := h.2 [w ++ (thinkOpen ++ [])] (by simp)
    have hstay : (thinkOpened { inReasoning := true, enableThinking := enableThinking } [] (w ++ (thinkOpen ++ []))).2 =
        none := by
      unfold thinkOpened
      rw [find_think hw]
      simp
    rw [streamed_think he hw, hstay, opened_think hw] at hreason
    exact (List.append_eq_nil_iff.1 hreason.symm).1
  · exact think_no_front he hw (think_no_blank_line he hw hnil h) h

/-- Behind the tag comes an exit, or nothing is held back at the end. -/
theorem think_settled (he : enableThinking ≠ some false) (h : CutsAgree enableThinking (thinkOpen ++ body)) :
    ¬ Uncut exitPredicates body ∨ computePartialExitHold (thinkOpen ++ body) = 0 := by
  rw [or_iff_not_imp_left, not_not]
  intro huncut
  have hcut := @uncut_front [] thinkOpen body Blank.nil (by decide) (by decide) huncut
  rw [List.nil_append] at hcut
  obtain ⟨hr, hc⟩ := @think_run _ [] body [thinkOpen ++ body] (fresh_undecided he) (by decide) (by simp)
  obtain ⟨back, sep, hreason, hbody, hsep⟩ := h.2 [thinkOpen ++ body] (by simp)
  have hopened := @opened_think [] Blank.nil body
  rw [List.nil_append] at hopened
  rw [hopened] at hreason hbody
  rw [channels, (firstOf_none exits_apart.nil_not_mem).2 hcut] at hr hc
  simp only [streamed] at hreason hbody
  rw [hreason] at hr
  rw [hc, List.append_nil] at hbody
  rcases separators sep hsep with rfl | hsep
  · rw [List.append_nil] at hbody
    rw [hold_eq hcut]
    have hlen := congrArg List.length hr
    have hle := heldOf_le exitPredicates (thinkOpen ++ body)
    rw [safePrefix_length, ← hbody] at hlen
    unfold heldOf at hle ⊢
    have hpos : 0 < (thinkOpen ++ body).length := by simp [thinkOpen]
    simp only [List.nil_append] at hlen
    omega
  · exact absurd (hbody ▸ (List.suffix_append back sep).isInfix) (huncut sep hsep)

/-- All cuts of a text agree and lose nothing exactly when it is settled, and any text comes out in the
right channels however it is cut well. -/
theorem cuts_agree_iff (he : enableThinking ≠ some false) (t : Text) :
    (CutsAgree enableThinking t ↔ Settled t) ∧
      ∀ deltas : List Text, deltas.flatten = t → CutWell t deltas →
        streamed enableThinking deltas = intended t ∧ Lossless t (intended t) := by
  refine ⟨⟨fun h => ⟨fun op hop rest hstrip => ?_, fun body hstrip => ?_⟩, fun h => ⟨?_, ?_⟩⟩, ?_⟩
  · have hw := front_blank t
    have hsplit : t = t.takeWhile isSpace ++ (op ++ rest) := by rw [← hstrip, front_append_lstrip]
    generalize t.takeWhile isSpace = w at hw hsplit ⊢
    subst hsplit
    exact preamble_settled he hw hop h
  · have hw := front_blank t
    have hsplit : t = t.takeWhile isSpace ++ (thinkOpen ++ body) := by rw [← hstrip, front_append_lstrip]
    generalize t.takeWhile isSpace = w at hw hsplit ⊢
    subst hsplit
    obtain rfl := think_front he hw h
    rw [List.nil_append] at h ⊢
    exact ⟨rfl, think_settled he h⟩
  · intro deltas deltas' ht ht'
    rw [streamed_cutWell he ht (h.cutWell ht), streamed_cutWell he ht' (h.cutWell ht')]
  · intro deltas ht
    rw [streamed_cutWell he ht (h.cutWell ht)]
    exact intended_lossless t
  · exact fun deltas ht hcut => ⟨streamed_cutWell he ht hcut, intended_lossless t⟩

def taggedText : Text := thinkOpen ++ ['h', 'i'] ++ thinkClose ++ ['o', 'k']

theorem cuts_agree_tagged : CutsAgree none taggedText ∧ streamed none [taggedText] = (['h', 'i'], ['o', 'k']) := by
  have hsettled : Settled taggedText := by
    refine ⟨fun op hop rest hstrip => ?_, fun body hstrip => ⟨by decide, .inl ?_⟩⟩
    · have hno : ∀ op ∈ preambleOpeners, ¬ op <+: lstrip taggedText := by decide
      exact absurd ⟨rest, hstrip.symm⟩ (hno op hop)
    · have hbody : body = ['h', 'i'] ++ thinkClose ++ ['o', 'k'] := List.append_cancel_left (hstrip.symm.trans (by decide))
      intro huncut
      exact huncut thinkClose (by decide) (hbody ▸ List.infix_append _ _ _)
  exact ⟨((cuts_agree_iff (by decide) taggedText).1).2 hsettled, by decide⟩

def lineText : Text := preambleOpeners.headD [] ++ ['a', '\n'] ++ actionWord ++ ['b']

/-- In one delta; cut in the opener; cut in the opener and behind the line; and the line alone. -/
theorem cuts_differ : ¬ CutsAgree none lineText ∧
    streamed none [lineText] = (preambleOpeners.headD [] ++ ['a', '\n'], actionWord ++ ['b']) ∧
    streamed none [['T'], lineText.tail] = (lineText, []) ∧
    streamed none [['T'], (preambleOpeners.headD []).tail ++ ['a', '\n'], actionWord ++ ['b']] =
      (preambleOpeners.headD [] ++ ['a', '\n', '\n'], actionWord ++ ['b']) ∧
    streamed none [preambleOpeners.headD [] ++ ['a', '\n']] = (preambleOpeners.headD [] ++ ['a'], []) := by
  have houts : streamed none [lineText] = (preambleOpeners.headD [] ++ ['a', '\n'], actionWord ++ ['b']) ∧
      streamed none [['T'], lineText.tail] = (lineText, []) := by decide
  refine ⟨fun h => ?_, houts.1, houts.2, by decide, by decide⟩
  have hsame := h.1 [lineText] [['T'], lineText.tail] (by decide) (by decide)
  rw [houts.1, houts.2] at hsame
  exact absurd hsame (by decide)

end FusionMlx.Reasoning.UiTars
