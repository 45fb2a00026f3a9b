import FusionMlx.Reasoning.UiTarsOpeners

/-!
# The UI-TARS stream over all cuts of a text

What the channels of a text should be, which texts the stream cuts so however
they come in, and which cuts of the others it gets right.
-/
namespace FusionMlx.Reasoning.UiTars

open JsonText (Text)
open PyText TextSearch

variable {s : UiTarsReasoningParser} {p t u v w d a b op tok rest body : Text} {deltas : List Text}
  {enableThinking : Option Bool}

def openingOf (t : Text) : Option Text := openings.find? (fun op => op.isPrefixOf (lstrip t))

/-- What the reasoning starts with, and the text behind the opener. The tag `<think>` is in neither. -/
def opened (t : Text) : Text × Text :=
  match openingOf t with
  | none => ([], t)
  | some op => (t.takeWhile isSpace ++ (if op = thinkOpen then [] else op), (lstrip t).drop op.length)

/-- The reasoning and the content of a text: behind an opener, what stands before the first exit and
what stands from it on. -/
def intended (t : Text) : Text × Text :=
  match openingOf t with
  | none => ([], t)
  | some _ =>
    match firstOf exitPredicates (opened t).2 with
    | none => ((opened t).1 ++ (opened t).2, [])
    | some (a, tok, b) => ((opened t).1 ++ a, keptExit tok ++ b)

/-- Every letter comes out once and in order, but for the tags and a blank line that act as the boundary. -/
def Lossless (t : Text) (out : Text × Text) : Prop :=
  ∃ back sep, out.1 = (opened t).1 ++ back ∧ (opened t).2 = back ++ sep ++ out.2 ∧ sep ∈ [[], thinkClose, blankLine]

theorem exits_kept : ∀ tok ∈ exitPredicates,
    (keptExit tok = tok ∧ [] ∈ [[], thinkClose, blankLine]) ∨ (keptExit tok = [] ∧ tok ∈ [[], thinkClose, blankLine]) := by
  decide

theorem intended_lossless (t : Text) : Lossless t (intended t) := by
  unfold intended
  cases ht : openingOf t with
  | none => exact ⟨[], [], by simp [opened, ht], by simp [opened, ht], by simp⟩
  | some op =>
    simp only
    cases hcut : firstOf exitPredicates (opened t).2 with
    | none => exact ⟨(opened t).2, [], rfl, by simp, by simp⟩
    | some r =>
      obtain ⟨a, tok, b⟩ := r
      obtain ⟨htok, hrest⟩ := firstOf_some hcut
      rcases exits_kept tok htok with ⟨hkept, hmem⟩ | ⟨hkept, hmem⟩
      · exact ⟨a, [], rfl, by simp [hrest, hkept], hmem⟩
      · exact ⟨a, tok, rfl, by simp [hrest, hkept], hmem⟩

theorem openingOf_opening (hw : Blank w) (hop : op ∈ openings) (rest : Text) :
    openingOf (w ++ (op ++ rest)) = some op := by
  rw [openingOf, lstrip_opening hw hop]
  cases hfind : openings.find? (fun q => q.isPrefixOf (op ++ rest)) with
  | none =>
    refine absurd ?_ (List.find?_eq_none.1 hfind op hop)
    exact List.isPrefixOf_iff_prefix.2 (List.prefix_append op rest)
  | some q =>
    have hq : q.isPrefixOf (op ++ rest) = true := List.find?_some (p := fun q : Text => q.isPrefixOf (op ++ rest)) hfind
    have hmem := List.mem_of_find?_eq_some hfind
    rcases List.prefix_or_prefix_of_prefix (List.isPrefixOf_iff_prefix.1 hq) (List.prefix_append op rest) with h | h
    · rw [openings_apart op hop q (List.mem_cons_of_mem _ hmem) h]
    · rw [openings_apart q hmem op (List.mem_cons_of_mem _ hop) h]

theorem opening_cases (t : Text) : (openingOf t = none ∧ ∀ op ∈ openings, ¬ op <+: lstrip t) ∨
    ∃ op ∈ openings, ∃ rest, openingOf t = some op ∧ lstrip t = op ++ rest := by
  cases ht : openingOf t with
  | none =>
    refine .inl ⟨rfl, fun op hop hpre => ?_⟩
    exact List.find?_eq_none.1 ht op hop (List.isPrefixOf_iff_prefix.2 hpre)
  | some op =>
    have hpre : op.isPrefixOf (lstrip t) = true := List.find?_some (p := fun q : Text => q.isPrefixOf (lstrip t)) ht
    obtain ⟨rest, hrest⟩ := List.isPrefixOf_iff_prefix.1 hpre
    exact .inr ⟨op, List.mem_of_find?_eq_some ht, rest, rfl, hrest.symm⟩

theorem takeWhile_opening (hw : Blank w) (hop : op ∈ openings) (rest : Text) :
    (w ++ (op ++ rest)).takeWhile isSpace = w := by
  obtain ⟨c, l, rfl, hc⟩ := openings_head op hop
  rw [List.takeWhile_append_of_pos hw, List.cons_append, List.takeWhile_cons_of_neg (by simp [hc]), List.append_nil]

theorem opened_opening (hw : Blank w) (hop : op ∈ openings) (rest : Text) :
    opened (w ++ (op ++ rest)) = (w ++ (if op = thinkOpen then [] else op), rest) := by
  unfold opened
  rw [openingOf_opening hw hop, takeWhile_opening hw hop, lstrip_opening hw hop]
  simp

theorem opener_tail (op : Text) (hop : op ∈ openings) (c : Char) (hc : c ∈ op.tail) : startsExit c = false := by
  have hall : (openings.all fun op => op.tail.all fun c => !startsExit c) = true := by decide
  have htail := List.all_eq_true.1 hall op hop
  simpa using List.all_eq_true.1 htail c hc

theorem opener_length : ∀ op ∈ preambleOpeners, ∀ tok ∈ exitPredicates, tok.length ≤ op.length := by decide

theorem exit_not_opener : ∀ op ∈ openings, ∀ tok ∈ exitPredicates, ¬ tok <+: op ∧ ¬ op <+: tok := by decide

theorem exit_head_blank : ∀ tok ∈ exitPredicates, ∀ c, tok.head? = some c → isSpace c = true → tok = blankLine := by
  intro tok htok c hhead hc
  simp only [exitPredicates, List.mem_cons, List.not_mem_nil, or_false] at htok
  rcases htok with rfl | rfl | rfl | rfl
  all_goals first | rfl | (cases hhead; exact absurd hc (by decide))

/-- An end of a front stands in its white space, is the opener, or begins in the opener. -/
theorem front_end_cases (hu : u ++ v = w ++ op) (hv : v ≠ []) :
    (∃ x, x ≠ [] ∧ x <:+ w ∧ v = x ++ op) ∨ v = op ∨ ∃ c l, v = c :: l ∧ c ∈ op.tail := by
  rcases List.append_eq_append_iff.1 hu with ⟨x, rfl, rfl⟩ | ⟨x, hx, hop⟩
  · by_cases hnil : x = []
    · rw [hnil]
      exact .inr (.inl rfl)
    · exact .inl ⟨x, hnil, List.suffix_append u x, rfl⟩
  · obtain ⟨c, l, rfl⟩ := List.exists_cons_of_ne_nil hv
    cases x with
    | nil => exact .inr (.inl hop.symm)
    | cons y x => exact .inr (.inr ⟨c, l, rfl, by rw [hop]; simp⟩)

/-- No exit begins in white space without a blank line or in the opener behind it. -/
theorem no_exit_begins (hw : Blank w) (hline : ¬ blankLine <:+: w) (hop : op ∈ openings) (hu : u ++ v = w ++ op)
    (hv : v ≠ []) (htok : tok ∈ exitPredicates) : ¬ tok <+: v ++ rest := by
  intro hpre
  rcases front_end_cases hu hv with ⟨x, hx, hsuf, rfl⟩ | rfl | ⟨c, l, rfl, hc⟩
  · obtain ⟨y, x, rfl⟩ := List.exists_cons_of_ne_nil hx
    obtain ⟨z, l, rfl⟩ := List.exists_cons_of_ne_nil (exits_apart tok htok).1
    have hzy : z = y := (List.cons_prefix_cons.1 hpre).1
    have hline' := exit_head_blank (z :: l) htok z rfl (by rw [hzy]; exact hw y (hsuf.subset (by simp)))
    rw [hline', blankLine] at hpre
    -- The second newline would be in the white space too, or the first letter of the opener.
    cases x with
    | nil =>
      obtain ⟨c, m, rfl, hc⟩ := openings_head op hop
      have := (List.cons_prefix_cons.1 (List.cons_prefix_cons.1 hpre).2).1
      rw [← this] at hc
      exact absurd hc (by decide)
    | cons y' x =>
      have h₁ := (List.cons_prefix_cons.1 hpre).1
      have h₂ := (List.cons_prefix_cons.1 (List.cons_prefix_cons.1 hpre).2).1
      subst h₁ h₂
      exact hline (List.IsInfix.trans ⟨[], x, rfl⟩ hsuf.isInfix)
  · rcases List.prefix_or_prefix_of_prefix hpre (List.prefix_append v rest) with h | h
    · exact (exit_not_opener v hop tok htok).1 h
    · exact (exit_not_opener v hop tok htok).2 h
  · have := startsExit_of_start htok hpre
    rw [opener_tail op hop c hc] at this
    cases this

theorem firstOf_front (hw : Blank w) (hline : ¬ blankLine <:+: w) (hop : op ∈ openings) (rest : Text) :
    firstOf exitPredicates (w ++ (op ++ rest)) = (firstOf exitPredicates rest).map (fun r => (w ++ op ++ r.1, r.2)) := by
  rw [← List.append_assoc]
  exact firstOf_skip (fun u₁ u₂ hu hne tok htok => no_exit_begins hw hline hop hu.symm hne htok)

/-- The channels of a text whose end is not held back. -/
theorem channels_front (hw : Blank w) (hline : ¬ blankLine <:+: w) (hop : op ∈ openings)
    (hend : ¬ Uncut exitPredicates rest ∨ heldOf exitPredicates (w ++ (op ++ rest)) = 0) :
    channels (w ++ (op ++ rest)) =
      match firstOf exitPredicates rest with
      | none => (w ++ op ++ rest, [])
      | some (a, tok, b) => (w ++ op ++ a, keptExit tok ++ b) := by
  rw [channels, firstOf_front hw hline hop]
  cases hcut : firstOf exitPredicates rest with
  | none =>
    have huncut := (firstOf_none exits_apart.nil_not_mem).1 hcut
    have hheld := hend.resolve_left (not_not.2 huncut)
    simp [safePrefix_eq, hheld]
  | some r => rfl

/-- How the deltas bring in an opener: in the first of them that has letters, or with a delta after
which nothing is held back and no exit has come. -/
def Timely (opener : Text) (p : Text) (deltas : List Text) : Prop :=
  ∀ pre d post, deltas = pre ++ d :: post → (p ++ pre.flatten).length < opener.length →
    opener.length ≤ (p ++ pre.flatten ++ d).length →
    p ++ pre.flatten = [] ∨
      (Uncut exitPredicates (p ++ pre.flatten ++ d) ∧ heldOf exitPredicates (p ++ pre.flatten ++ d) = 0)

theorem Timely.tail {opener : Text} (h : Timely opener p (d :: deltas)) : Timely opener (p ++ d) deltas := by
  intro pre d' post hdeltas hlt hle
  have := h (d :: pre) d' post (by rw [hdeltas]; rfl)
  simp only [List.flatten_cons, ← List.append_assoc] at this
  exact this hlt hle

theorem nil_uncut : Uncut exitPredicates [] :=
  fun tok htok h => (exits_apart tok htok).1 (List.infix_nil.1 h)

theorem preamble_run (hs : Undecided s) (hw : Blank w) (hop : op ∈ preambleOpeners) (hp : p.length < (w ++ op).length)
    (ht : p ++ deltas.flatten = w ++ (op ++ rest)) (htimely : Timely (w ++ op) p deltas) :
    reasoningOf (messagesFrom (s, p) deltas) = (channels (w ++ (op ++ rest))).1 ∧
      contentOf (messagesFrom (s, p) deltas) = (channels (w ++ (op ++ rest))).2 := by
  have hmem : op ∈ openings := List.mem_append_left _ hop
  induction deltas generalizing p with
  | nil =>
    have := congrArg List.length ht
    simp only [List.flatten_nil, List.append_nil, List.length_append] at this hp
    omega
  | cons d deltas ih =>
    rw [List.flatten_cons, ← List.append_assoc] at ht
    have hpd : p ++ d <+: w ++ (op ++ rest) := ⟨_, ht⟩
    rcases Nat.lt_or_ge (p ++ d).length (w ++ op).length with hlt | hge
    · rw [messages_holding hs hw hmem hpd hlt]
      exact ih hlt ht htimely.tail
    · -- The opener is whole with this delta.
      obtain ⟨more, hmore⟩ : w ++ op <+: p ++ d :=
        List.prefix_of_prefix_length_le ⟨rest, by simp⟩ hpd hge
      rw [List.append_assoc] at hmore
      have hd : d ≠ [] := by
        rintro rfl
        rw [List.append_nil] at hge
        omega
      obtain ⟨hr, hc, he⟩ := id hs
      by_cases hnil : p = []
      · subst hnil
        rw [List.nil_append] at hmore ht
        have hrun := @within_run { s with inReasoning := true } [] rfl hc he nil_uncut (d :: deltas)
        rw [messagesFrom_cons, List.nil_append, List.flatten_cons, ht] at hrun
        rw [messagesFrom_cons, step_first hs hw hop hmore.symm]
        exact hrun
      · obtain ⟨huncut, hheld⟩ := (htimely [] d deltas rfl (by simpa using hp) (by simpa using hge)).resolve_left
          (by simpa using hnil)
        simp only [List.flatten_nil, List.append_nil] at huncut hheld
        have hrun := @within_run { s with inReasoning := true } (p ++ d) rfl hc he huncut deltas
        rw [safePrefix_eq, hheld, Nat.sub_zero, List.take_length, ht] at hrun
        rw [messagesFrom_cons, step_completing hs hnil hd hw hop hmore.symm, reasoningOf_append, contentOf_append]
        exact ⟨by simpa [reasoningOf] using hrun.1, by simpa [contentOf] using hrun.2⟩

theorem think_run (hs : Undecided s) (hp : p.length < thinkOpen.length) (ht : p ++ deltas.flatten = thinkOpen ++ body) :
    thinkOpen ++ reasoningOf (messagesFrom (s, p) deltas) = (channels (thinkOpen ++ body)).1 ∧
      contentOf (messagesFrom (s, p) deltas) = (channels (thinkOpen ++ body)).2 := by
  induction deltas generalizing p with
  | nil =>
    have := congrArg List.length ht
    simp only [List.flatten_nil, List.append_nil, List.length_append] at this
    omega
  | cons d deltas ih =>
    rw [List.flatten_cons, ← List.append_assoc] at ht
    have hpd : p ++ d <+: thinkOpen ++ body := ⟨_, ht⟩
    rcases Nat.lt_or_ge (p ++ d).length thinkOpen.length with hlt | hge
    · rw [@messages_holding s p [] d thinkOpen body deltas hs Blank.nil (by decide) hpd hlt]
      exact ih hlt ht
    · obtain ⟨more, hmore⟩ : thinkOpen <+: p ++ d :=
        List.prefix_of_prefix_length_le (List.prefix_append _ _) hpd hge
      have hd : d ≠ [] := by
        rintro rfl
        rw [List.append_nil] at hge
        omega
      obtain ⟨hr, hc, he⟩ := id hs
      rw [messagesFrom_cons, step_think hs hp hd hmore.symm]
      by_cases hnil : more = []
      · have hrun := @within_run { s with inReasoning := true } thinkOpen rfl hc he think_uncut deltas
        rw [hnil, List.append_nil] at hmore
        rw [← hmore] at ht
        rw [think_safe, ht] at hrun
        rwa [if_pos hnil, List.nil_append]
      · have hrun := @within_run { s with inReasoning := true } thinkOpen rfl hc he think_uncut (more :: deltas)
        rw [think_safe, List.flatten_cons, ← List.append_assoc, hmore, ht, messagesFrom_cons] at hrun
        rwa [if_neg hnil]

theorem lstrip_start (h : u <+: t) (hne : lstrip u ≠ []) : lstrip u <+: lstrip t := by
  obtain ⟨v, rfl⟩ := h
  rw [← lstrip_lstrip_append]
  cases hu : lstrip u with
  | nil => exact absurd hu hne
  | cons c l =>
    have hc : isSpace c = false := by
      have := List.head?_dropWhile_not isSpace u
      rw [← lstrip, hu] at this
      simpa using this
    rw [List.cons_append, lstrip_eq_self hc, ← List.cons_append]
    exact List.prefix_append _ v

theorem plain_run (hs : Undecided s) (ht : ∀ op ∈ openings, ¬ op <+: lstrip (p ++ deltas.flatten)) :
    reasoningOf (messagesFrom (s, p) deltas) = [] ∧ contentOf (messagesFrom (s, p) deltas) = p ++ deltas.flatten := by
  obtain ⟨hr, hc, he⟩ := id hs
  induction deltas generalizing p with
  | nil =>
    by_cases hp : p = [] <;> simp [messagesFrom, finalizeStreaming, hr, hc, hp, reasoningOf, contentOf]
  | cons d deltas ih =>
    rw [List.flatten_cons, ← List.append_assoc] at ht ⊢
    rw [messagesFrom_cons]
    have hflip : ∀ x, streamStep (s, p) d = (({ s with inContent := true }, p ++ d), [{ content := some x }]) →
        x = p ++ d → reasoningOf ((streamStep (s, p) d).2 ++ messagesFrom (streamStep (s, p) d).1 deltas) = [] ∧
          contentOf ((streamStep (s, p) d).2 ++ messagesFrom (streamStep (s, p) d).1 deltas) =
            p ++ d ++ deltas.flatten := by
      rintro x hstep rfl
      obtain ⟨hrest, hcontent⟩ := @content_run { s with inContent := true } rfl (p ++ d) deltas
      rw [hstep, reasoningOf_append, contentOf_append, hrest, hcontent]
      simp [reasoningOf, contentOf]
    have hstay : streamStep (s, p) d = ((s, p ++ d), []) →
        reasoningOf ((streamStep (s, p) d).2 ++ messagesFrom (streamStep (s, p) d).1 deltas) = [] ∧
          contentOf ((streamStep (s, p) d).2 ++ messagesFrom (streamStep (s, p) d).1 deltas) =
            p ++ d ++ deltas.flatten := by
      intro hstep
      rw [hstep, List.nil_append]
      exact ih ht
    by_cases hd : d = []
    · exact hstay (by rw [hd, streamStep_nil, List.append_nil])
    by_cases hnil : lstrip (p ++ d) = []
    · exact hstay (by simp [streamStep, extractReasoningStreaming, hd, hr, hc, he, hnil])
    have hno : ∀ op ∈ openings, op.isPrefixOf (lstrip (p ++ d)) = false := by
      intro op hop
      rw [← Bool.not_eq_true, List.isPrefixOf_iff_prefix]
      exact fun h => ht op hop (h.trans (lstrip_start (List.prefix_append _ _) hnil))
    have hpreamble : preambleOpeners.any (fun q => q.isPrefixOf (lstrip (p ++ d))) = false := by
      rw [List.any_eq_false]
      exact fun q hq => by rw [hno q (List.mem_append_left _ hq)]; simp
    have hthink := hno thinkOpen (by decide)
    have hstep : streamStep (s, p) d =
        if actionWord.isPrefixOf (lstrip (p ++ d)) then
          (({ s with inContent := true }, p ++ d), [{ content := some (p ++ d) }])
        else if (preambleOpeners ++ [actionWord, thinkOpen]).any (fun q => (lstrip (p ++ d)).isPrefixOf q) then
          ((s, p ++ d), [])
        else (({ s with inContent := true }, p ++ d), [{ content := some (p ++ d) }]) := by
      unfold streamStep extractReasoningStreaming
      simp only [hd, hr, hc, he, hnil, hpreamble, hthink, if_false, Bool.false_eq_true]
      split
      · rfl
      · split <;> rfl
    split at hstep
    · exact hflip _ hstep rfl
    · split at hstep
      · exact hstay hstep
      · exact hflip _ hstep rfl

/-- Behind a preamble opener no letter begins an exit, and there is no blank line before it; `<think>`
comes first in the text, with an exit behind it or nothing held back at the end. -/
def Settled (t : Text) : Prop :=
  (∀ op ∈ preambleOpeners, ∀ rest, lstrip t = op ++ rest →
    ¬ blankLine <:+: t.takeWhile isSpace ∧ ∀ c ∈ rest, startsExit c = false) ∧
  ∀ body, lstrip t = thinkOpen ++ body →
    t.takeWhile isSpace = [] ∧ (¬ Uncut exitPredicates body ∨ computePartialExitHold t = 0)

/-- The cuts of a text that the stream gets right. -/
def CutWell (t : Text) (deltas : List Text) : Prop :=
  ∀ op ∈ openings, ∀ rest, lstrip t = op ++ rest →
    ¬ blankLine <:+: t.takeWhile isSpace ∧ (¬ Uncut exitPredicates rest ∨ computePartialExitHold t = 0) ∧
      if op = thinkOpen then t.takeWhile isSpace = [] else Timely (t.takeWhile isSpace ++ op) [] deltas

theorem fresh_undecided (he : enableThinking ≠ some false) : Undecided { enableThinking := enableThinking } := ⟨rfl, rfl, he⟩

theorem uncut_front (hw : Blank w) (hline : ¬ blankLine <:+: w) (hop : op ∈ openings) (h : Uncut exitPredicates rest) :
    Uncut exitPredicates (w ++ (op ++ rest)) := by
  rw [← firstOf_none exits_apart.nil_not_mem] at h ⊢
  rw [firstOf_front hw hline hop, h]
  rfl

theorem held_of_hold (hw : Blank w) (hline : ¬ blankLine <:+: w) (hop : op ∈ openings)
    (h : ¬ Uncut exitPredicates rest ∨ computePartialExitHold (w ++ (op ++ rest)) = 0) :
    ¬ Uncut exitPredicates rest ∨ heldOf exitPredicates (w ++ (op ++ rest)) = 0 := by
  by_cases hrest : Uncut exitPredicates rest
  · rw [hold_eq (uncut_front hw hline hop hrest)] at h
    exact .inr (h.resolve_left (not_not.2 hrest))
  · exact .inl hrest

/-- A cut the stream gets right. -/
theorem streamed_cutWell (he : enableThinking ≠ some false) (ht : deltas.flatten = t) (h : CutWell t deltas) :
    streamed enableThinking deltas = intended t := by
  have hs := fresh_undecided he
  rcases opening_cases t with ⟨hnone, hplain⟩ | ⟨op, hop, rest, hsome, hstrip⟩
  · obtain ⟨hr, hc⟩ := @plain_run _ [] deltas hs (by simpa [ht] using hplain)
    simp [streamed, hr, hc, ht, intended, hnone]
  · obtain ⟨hline, hend, hcut⟩ := h op hop rest hstrip
    have hw := front_blank t
    have hsplit : t = t.takeWhile isSpace ++ (op ++ rest) := by rw [← hstrip, front_append_lstrip]
    generalize t.takeWhile isSpace = w at hline hcut hw hsplit
    subst hsplit
    have hchannels := channels_front hw hline hop (held_of_hold hw hline hop hend)
    rw [intended, hsome, opened_opening hw hop]
    simp only
    split at hcut
    · rename_i hthink
      subst hthink hcut
      rw [List.nil_append] at ht hchannels
      obtain ⟨hr, hc⟩ := @think_run _ [] rest deltas hs (by decide) ht
      rw [streamed, hc, hchannels]
      rw [hchannels] at hr
      cases hfirst : firstOf exitPredicates rest with
      | none =>
        rw [hfirst] at hr
        simpa using List.append_cancel_left hr
      | some r =>
        rw [hfirst] at hr
        obtain ⟨a, tok, b⟩ := r
        simpa using List.append_cancel_left hr
    · rename_i hthink
      have hpre : op ∈ preambleOpeners := by
        rcases List.mem_append.1 hop with hpre | hmem
        · exact hpre
        · exact absurd (List.mem_singleton.1 hmem) hthink
      have hpos : 0 < (w ++ op).length := by
        rw [List.length_append]
        have := List.length_pos_iff.2 (openings_ne_nil op hop)
        omega
      obtain ⟨hr, hc⟩ := @preamble_run _ [] w op rest deltas hs hw hpre hpos ht hcut
      rw [streamed, hr, hc, hchannels, if_neg hthink]

/-- Nothing is held back of a text that goes on without a letter that begins an exit. -/
theorem nothing_held (hop : op ∈ preambleOpeners) (hrest : ∀ c ∈ rest, startsExit c = false) (w : Text) :
    heldOf exitPredicates (w ++ (op ++ rest)) = 0 := by
  rcases @heldOf_attained _ _ exitPredicates (w ++ (op ++ rest)) with h | ⟨tok, htok, heq⟩
  · exact h
  · by_contra hne
    have hle := held_le tok (w ++ (op ++ rest))
    have hlen := opener_length op hop tok htok
    have hsuf := held_suffix tok (w ++ (op ++ rest))
    generalize held tok (w ++ (op ++ rest)) = k at heq hle hsuf
    obtain ⟨c, l, hcl⟩ : ∃ c l, tok.take k = c :: l := by
      refine List.exists_cons_of_ne_nil (fun h => ?_)
      have := congrArg List.length h
      rw [List.length_take, List.length_nil] at this
      omega
    -- What is held is too short to reach back to the first letter of the opener.
    have hback : tok.take k <:+ op.tail ++ rest := by
      refine List.suffix_of_suffix_length_le hsuf ⟨w ++ op.take 1, ?_⟩ ?_
      · cases op <;> simp
      · rw [List.length_take, List.length_append, List.length_tail]
        omega
    have hmem : c ∈ op.tail ++ rest := hback.subset (by rw [hcl]; simp)
    have hstart : startsExit c = true :=
      @startsExit_of_start tok.tail tok c htok (by
        cases tok with
        | nil => simp at hcl
        | cons x xs =>
          cases k with
          | zero => simp at hcl
          | succ k =>
            rw [List.take_succ_cons] at hcl
            rw [(List.cons.inj hcl).1]
            exact List.prefix_refl _)
    rcases List.mem_append.1 hmem with h | h
    · rw [opener_tail op (List.mem_append_left _ hop) c h] at hstart
      cases hstart
    · rw [hrest c h] at hstart
      cases hstart

theorem uncut_of_letters (hrest : ∀ c ∈ rest, startsExit c = false) : Uncut exitPredicates rest := by
  intro tok htok hin
  obtain ⟨x, xs, rfl⟩ := List.exists_cons_of_ne_nil (exits_apart tok htok).1
  have := startsExit_of_start htok (List.prefix_refl (x :: xs))
  rw [hrest x (hin.subset (by simp))] at this
  cases this

theorem Settled.cutWell (h : Settled t) (ht : deltas.flatten = t) : CutWell t deltas := by
  intro op hop rest hstrip
  by_cases hthink : op = thinkOpen
  · subst hthink
    obtain ⟨hfront, hend⟩ := h.2 rest hstrip
    rw [if_pos rfl, hfront]
    exact ⟨by decide, hend, rfl⟩
  · rw [if_neg hthink]
    have hpre : op ∈ preambleOpeners := by
      rcases List.mem_append.1 hop with hpre | hmem
      · exact hpre
      · exact absurd (List.mem_singleton.1 hmem) hthink
    obtain ⟨hline, hrest⟩ := h.1 op hpre rest hstrip
    have hw := front_blank t
    have hsplit : t = t.takeWhile isSpace ++ (op ++ rest) := by rw [← hstrip, front_append_lstrip]
    generalize t.takeWhile isSpace = w at hline hw hsplit ⊢
    subst hsplit
    refine ⟨hline, .inr ?_, fun pre d post hdeltas hlt hge => .inr ?_⟩
    · rw [hold_eq (uncut_front hw hline hop (uncut_of_letters hrest))]
      exact nothing_held hpre hrest w
    · have hpref : [] ++ pre.flatten ++ d <+: w ++ op ++ rest := by
        refine ⟨post.flatten, ?_⟩
        rw [List.append_assoc w, ← ht, hdeltas]
        simp
      obtain ⟨r, hr⟩ := List.prefix_of_prefix_length_le (List.prefix_append (w ++ op) rest) hpref hge
      rw [← hr] at hpref ⊢
      have hsub : ∀ c ∈ r, startsExit c = false := fun c hc =>
        hrest c (((List.prefix_append_right_inj _).1 hpref).subset hc)
      rw [List.append_assoc]
      exact ⟨uncut_front hw hline hop (uncut_of_letters hsub), nothing_held hpre hsub w⟩

end FusionMlx.Reasoning.UiTars
