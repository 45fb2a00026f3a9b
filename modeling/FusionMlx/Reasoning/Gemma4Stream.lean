import FusionMlx.Reasoning.Gemma4Channels

/-!
# The flags over a cut text

Within the thoughts there is one opener more than closers, and from the last
closer on the content flag stays.
-/
namespace FusionMlx.Reasoning.Gemma4

open JsonText (Text)
open PyText TextSearch Transducers

variable {s : Gemma4ReasoningParser} {prev cur d rest b p : Text} {ts past : List Thought} {t : Thought}
  {tail : Labelled} {stage : Stage} {h : Head}

def thoughtsTo (past : List Thought) (b : Text) : List Segment :=
  past.flatMap Thought.segments ++ [(.thought, b)]

theorem thoughtsTo_text (past : List Thought) (b : Text) :
    (thoughtsTo past b).flatMap segmentText = thoughtsText past ++ (Head.thought.text ++ b) := by
  rw [thoughtsTo, List.flatMap_append, thoughtsText]
  congr 1
  · induction past with
    | nil => rfl
    | cons t past ih => rw [List.flatMap_cons, List.flatMap_append, ih]; rfl
  · simp [segmentText]

theorem nil_free : Free [] := by constructor <;> decide

theorem blank_free (h : Blank b) : Free b := by
  have hno : '<' ∉ b := h.not_mem (by decide)
  simpa using free_no_open hno nil_free

theorem thoughtsTo_free (hb : Free b) : ∀ s ∈ thoughtsTo past b, Free s.2 := by
  intro s hs
  rw [thoughtsTo, List.mem_append, List.mem_flatMap, List.mem_singleton] at hs
  rcases hs with ⟨t, -, hs⟩ | rfl
  · simp only [Thought.segments, List.mem_cons, List.not_mem_nil, or_false] at hs
    rcases hs with rfl | rfl
    · exact t.body_free
    · exact blank_free t.gap_blank
  · exact hb

theorem thoughtsTo_count (past : List Thought) (b : Text) :
    ((thoughtsTo past b).filter (fun s => s.1 = h)).length =
      if h = .thought then past.length + 1 else if h = .close then past.length else 0 := by
  rw [thoughtsTo, List.filter_append, List.length_append]
  induction past with
  | nil => cases h <;> rfl
  | cons t past ih =>
    rw [List.flatMap_cons, List.filter_append, List.length_append]
    cases h <;> simp [Thought.segments] at ih ⊢ <;> omega

theorem count_thoughts (h : Head) (hb : Free b) :
    count h.mark (thoughtsText past ++ (Head.thought.text ++ b)) =
      if h = .thought then past.length + 1 else if h = .close then past.length else 0 := by
  have hcount := @count_segments _ (thoughtsTo past b) h nil_free (thoughtsTo_free hb)
  rwa [List.nil_append, thoughtsTo_text, thoughtsTo_count] at hcount

theorem contains_thoughts (h : Head) (hb : Free b) :
    contains h.mark (thoughtsText past ++ (Head.thought.text ++ b)) = true ↔
      h = .thought ∨ h = .close ∧ past ≠ [] := by
  rw [contains_iff_count h.sharp.ne_nil, count_thoughts h hb]
  cases h <;> simp [List.length_pos_iff]

/-- Within a thought. -/
theorem track_thought (hs : s.inContent = false) (hb : Free b) :
    trackChannel s (thoughtsText past ++ (Head.thought.text ++ b)) = ⟨true, false, true⟩ := by
  have hthought : contains thoughtOpener (thoughtsText past ++ (Head.thought.text ++ b)) = true :=
    (contains_thoughts .thought hb).2 (.inl rfl)
  have hcontent : contains contentOpener (thoughtsText past ++ (Head.thought.text ++ b)) = false := by
    rw [← Bool.not_eq_true]
    exact fun h => by simpa using (contains_thoughts .content hb).1 h
  have hfinal : contains finalOpener (thoughtsText past ++ (Head.thought.text ++ b)) = false := by
    rw [← Bool.not_eq_true]
    exact fun h => by simpa using (contains_thoughts .final hb).1 h
  have h₁ : count thoughtOpener (thoughtsText past ++ (Head.thought.text ++ b)) = past.length + 1 :=
    count_thoughts .thought hb
  have h₂ : count closer (thoughtsText past ++ (Head.thought.text ++ b)) = past.length :=
    count_thoughts .close hb
  unfold trackChannel
  simp only [hthought, hcontent, hfinal, hs, h₁, h₂]
  simp

/-- With all thoughts closed the content flag is set. -/
theorem track_last (hs : s.inContent = false) (hin : contains thoughtOpener cur = true)
    (hc : contains closer cur = true) (hcount : count thoughtOpener cur ≤ count closer cur) :
    trackChannel s cur = ⟨false, true, true⟩ := by
  unfold trackChannel
  simp only [hin, hc, hs, hcount]
  cases contains contentOpener cur || contains finalOpener cur <;> simp

/-- The content flag stays. -/
theorem track_content (hs : s.inContent = true) (ht : s.inThought = false) (cur : Text) :
    (trackChannel s cur).inContent = true ∧ (trackChannel s cur).inThought = false := by
  unfold trackChannel
  simp only [hs]
  cases contains contentOpener cur || contains finalOpener cur <;> simp [ht, hs]

/-- Without a thought there is only content. -/
theorem track_plain (h : contains thoughtOpener cur = false) :
    trackChannel {} cur = {} ∨
      (trackChannel {} cur).inContent = true ∧ (trackChannel {} cur).inThought = false := by
  unfold trackChannel
  simp only [h]
  cases contains contentOpener cur || contains finalOpener cur <;> simp

theorem whole_reasoning (d : Text) :
    reasoningOf (whole ⟨true, false, true⟩ d).toList = clean d ∧
      contentOf (whole ⟨true, false, true⟩ d).toList = [] := by
  unfold whole
  by_cases h : clean d = [] <;> simp [h, reasoningOf, contentOf]

theorem whole_content (ht : s.inThought = false) (hs : s.inContent = true ∨ s = {}) (d : Text) :
    reasoningOf (whole s d).toList = [] ∧ contentOf (whole s d).toList = clean d := by
  unfold whole
  by_cases h : clean d = []
  · simp [h, reasoningOf, contentOf]
  · rcases hs with hs | rfl
    · simp [h, ht, hs, reasoningOf, contentOf]
    · simp [h, reasoningOf, contentOf]

theorem step_whole (hd : d ≠ []) (h : s.inThought = false ∨ (trackChannel s (prev ++ d)).inThought = true) :
    streamStep (s, prev) d = ((trackChannel s (prev ++ d), prev ++ d),
      (whole (trackChannel s (prev ++ d)) d).toList) := by
  have hno : ¬ (s.inThought = true ∧ (trackChannel s (prev ++ d)).inThought = false) := by
    rcases h with h | h <;> simp [h]
  rw [streamStep, extractReasoningStreaming, if_neg hd]
  dsimp only
  rw [if_neg hno]

theorem step_nil (s : Gemma4ReasoningParser) (prev : Text) : streamStep (s, prev) [] = ((s, prev), []) := by
  rw [streamStep, extractReasoningStreaming, if_pos rfl]
  simp

theorem flipPos_closer (hrest : Free rest) (u : Text) : flipPos (rest ++ closer ++ u) = some rest.length := by
  have hfind : find closer (rest ++ closer ++ u) = some rest.length := by
    have hpart := (Head.sharp .close).partition_append (b := u) (hrest.mark .close)
    rw [find, show partition closer (rest ++ closer ++ u) = _ from hpart]
    rfl
  have hlater : ∀ h : Head, ∀ i, find h.mark (rest ++ closer ++ u) = some i → rest.length ≤ i := by
    intro h i hi
    rw [List.append_assoc] at hi
    exact h.sharp.le_find (hrest.mark h) (by rw [h.mark_head]; rfl) hi
  unfold flipPos
  simp only [List.foldl_cons, List.foldl_nil, hfind]
  cases hc : find contentOpener (rest ++ closer ++ u) with
  | none =>
    cases hf : find finalOpener (rest ++ closer ++ u) with
    | none => rfl
    | some j => simp [Nat.not_lt.2 (hlater .final j hf)]
  | some i =>
    simp only [if_neg (Nat.not_lt.2 (hlater .content i hc))]
    cases hf : find finalOpener (rest ++ closer ++ u) with
    | none => rfl
    | some j => simp [Nat.not_lt.2 (hlater .final j hf)]

/-- The last closer parts a delta. -/
theorem step_last (hrest : Free rest) {y : Labelled} (hclean : clean rest = rest)
    (hy : clean (closer ++ textOf y) = saidOf y)
    (hs' : trackChannel ⟨true, false, true⟩ (prev ++ (rest ++ closer ++ textOf y)) = ⟨false, true, true⟩) :
    ∃ out, streamStep (⟨true, false, true⟩, prev) (rest ++ closer ++ textOf y) =
        ((⟨false, true, true⟩, prev ++ (rest ++ closer ++ textOf y)), out) ∧
      reasoningOf out = rest ∧ contentOf out = saidOf y := by
  have hd : rest ++ closer ++ textOf y ≠ [] := by simp [closer]
  have htake : (rest ++ closer ++ textOf y).take rest.length = rest := by simp
  have hdrop : (rest ++ closer ++ textOf y).drop rest.length = closer ++ textOf y := by simp
  rw [streamStep, extractReasoningStreaming, if_neg hd]
  dsimp only
  rw [hs', if_pos (by simp), flipPos_closer hrest]
  simp only [htake, hdrop, hclean, hy]
  by_cases hout : rest ≠ [] ∨ saidOf y ≠ []
  · rw [if_pos hout]
    refine ⟨_, rfl, ?_, ?_⟩
    · cases rest <;> simp [reasoningOf, orNone]
    · cases saidOf y <;> simp [contentOf, orNone]
  · rw [if_neg hout]
    simp only [not_or, ne_eq, not_not] at hout
    obtain ⟨rfl, hsaid⟩ := hout
    have hnone : whole ⟨false, true, true⟩ ([] ++ closer ++ textOf y) = none := by
      rw [List.nil_append, whole, hy, hsaid]
      rfl
    rw [hnone]
    exact ⟨[], rfl, rfl, hsaid.symm⟩

def reasoned : List Thought → Text
  | [] => []
  | t :: ts => t.body ++ (if ts = [] then [] else t.gap) ++ reasoned ts

def lastGap (ts : List Thought) : Text := (ts.getLast?.map Thought.gap).getD []

theorem reasoned_append (past : List Thought) (t : Thought) (ts : List Thought) :
    reasoned (past ++ t :: ts) = thoughtsSaid past ++ reasoned (t :: ts) := by
  induction past with
  | nil => rfl
  | cons t' past ih =>
    rw [List.cons_append, reasoned, ih]
    simp [thoughtsSaid]

theorem lastGap_append (past : List Thought) (t : Thought) (ts : List Thought) :
    lastGap (past ++ t :: ts) = lastGap (t :: ts) := by
  rw [lastGap, lastGap, List.getLast?_append]
  simp [List.getLast?_cons]

def Matches (s : Gemma4ReasoningParser) (prev : Text) (tail : Labelled) : Stage → Prop
  | .start p => s = {} ∧ prev = p ∧ p <+: thoughtOpener ∧ p ≠ thoughtOpener
  | .thought t rest => s = ⟨true, false, true⟩ ∧
      ∃ past b, prev = thoughtsText past ++ (Head.thought.text ++ b) ∧ t.body = b ++ rest
  | .answer => s.inThought = false ∧ s.inContent = true ∨
      s = {} ∧ ¬ thoughtOpener <:+: prev ++ textOf tail

def reasoningFrom (ts : List Thought) : Stage → Text
  | .start _ => reasoned ts
  | .thought t rest => rest ++ (if ts = [] then [] else t.gap) ++ reasoned ts
  | .answer => []

def contentFrom (ts : List Thought) (tail : Labelled) : Stage → Text
  | .thought t _ => lastGap (t :: ts) ++ saidOf tail
  | _ => lastGap ts ++ saidOf tail

/-- A part of the first opener is not read as one. -/
theorem track_start (hp : p <+: thoughtOpener) (hne : p ≠ thoughtOpener) : trackChannel {} p = {} := by
  have hno : ∀ h : Head, contains h.mark p = false := by
    intro h
    rw [contains_eq_false h.sharp.ne_nil]
    intro hin
    have hle := (hin.trans hp.isInfix).length_le
    have hlen := hin.length_le
    cases h with
    | thought => exact hne (hp.eq_of_length_le hlen)
    | content => exact absurd (hin.trans hp.isInfix) (by decide)
    | final => exact absurd (hin.trans hp.isInfix) (by decide)
    | close => exact absurd (hin.trans hp.isInfix) (by decide)
  have h₁ := hno .thought
  have h₂ := hno .content
  have h₃ := hno .final
  unfold trackChannel
  simp only [Head.mark] at h₁ h₂ h₃
  simp [h₁, h₂, h₃]

/-- With the last closer all thoughts are closed, when as many close behind it as open. -/
theorem track_closed {u : Text} (hcount : count thoughtOpener u ≤ count closer u) :
    trackChannel ⟨true, false, true⟩
      (thoughtsText past ++ (Head.thought.text ++ t.body) ++ (closer ++ u)) = ⟨false, true, true⟩ := by
  have hopen : count thoughtOpener (closer ++ u) = count thoughtOpener u :=
    (Head.sharp .thought).count_behind fun x _ hx hin =>
      hx ((@mark_infix_text x .thought .close (by decide)).1 hin)
  have hclose : count closer (closer ++ u) = count closer u + 1 :=
    (Head.sharp .close).count_append (a := []) (by rw [List.infix_nil]; exact (Head.sharp .close).ne_nil)
  have hall : ∀ h : Head, count h.mark (thoughtsText past ++ (Head.thought.text ++ t.body) ++ (closer ++ u)) =
      (if h = .thought then past.length + 1 else if h = .close then past.length else 0) +
        count h.mark (closer ++ u) := by
    intro h
    rw [← thoughtsTo_text, ← thoughtsTo_count, ← List.nil_append (List.flatMap _ _)]
    exact count_segments_append h nil_free (thoughtsTo_free t.body_free) (.inr rfl)
  have h₁ := hall .thought
  have h₂ := hall .close
  simp only [Head.mark, if_true, reduceCtorEq, if_false, hopen, hclose] at h₁ h₂
  refine track_last rfl ?_ ?_ (by omega)
  · rw [contains_iff_count (by decide)]
    omega
  · rw [contains_iff_count (by decide)]
    omega

/-- A delta within the thoughts. -/
theorem run_thought {ds : List Text} (hd : d ≠ []) (hs : s.inContent = false) {b : Text} (hb : Free b)
    (hcur : prev ++ d = thoughtsText past ++ (Head.thought.text ++ b)) :
    reasoningOf (feed streamStep (s, prev) (d :: ds)).2 =
        clean d ++ reasoningOf (feed streamStep (⟨true, false, true⟩, prev ++ d) ds).2 ∧
      contentOf (feed streamStep (s, prev) (d :: ds)).2 =
        contentOf (feed streamStep (⟨true, false, true⟩, prev ++ d) ds).2 := by
  have htrack := @track_thought _ _ past hs hb
  rw [← hcur] at htrack
  rw [feed_cons, step_whole hd (.inr (by rw [htrack])), htrack, reasoningOf_append, contentOf_append,
    (whole_reasoning d).1, (whole_reasoning d).2]
  exact ⟨rfl, rfl⟩

/-- From every stage the stream says what the rest of the text says. -/
theorem cut_run {ds : List Text} (h : Cut stage ts tail ds) (s : Gemma4ReasoningParser) (prev : Text)
    (hm : Matches s prev tail stage) :
    reasoningOf (feed streamStep (s, prev) ds).2 = reasoningFrom ts stage ∧
      contentOf (feed streamStep (s, prev) ds).2 = contentFrom ts tail stage := by
  induction h generalizing s prev with
  | done => exact ⟨rfl, rfl⟩
  | @wait p ts tail ds d hd hp hne _ ih =>
    obtain ⟨rfl, rfl, hprev, -⟩ := hm
    have hstep : streamStep ({}, prev) d = (({}, prev ++ d), []) := by
      by_cases hnil : d = []
      · subst hnil
        rw [step_nil, List.append_nil]
      · have htrack := track_start hp hne
        rw [step_whole hnil (.inl rfl), htrack, whole, hd]
        rfl
    rw [feed_cons, hstep]
    exact ih {} (prev ++ d) ⟨rfl, rfl, hp, hne⟩
  | @first p ts tail ds d past t b rest ht htext hd _ ih =>
    obtain ⟨rfl, rfl, hprev, hne⟩ := hm
    have hb : Free b := t.body_free.part (by rw [ht]; exact (List.prefix_append b rest).isInfix)
    have hnil : d ≠ [] := by
      rintro rfl
      have hlen := congrArg List.length htext
      have hle := hprev.length_le
      simp [Head.text, Head.mark] at hlen
      omega
    obtain ⟨hr, hc⟩ := @run_thought {} _ _ _ ds hnil rfl _ hb htext
    obtain ⟨ihr, ihc⟩ := ih ⟨true, false, true⟩ (prev ++ d) ⟨rfl, past, b, htext, ht⟩
    rw [hr, hc, ihr, ihc, hd]
    simp only [reasoningFrom, contentFrom, reasoned_append, lastGap_append]
    rw [reasoned, ht]
    simp
  | @stay t ts tail ds d rest hd _ ih =>
    obtain ⟨rfl, past, b, hprev, hbody⟩ := hm
    by_cases hnil : d = []
    · subst hnil
      rw [feed_cons, step_nil]
      exact ih ⟨true, false, true⟩ prev ⟨rfl, past, b, hprev, hbody⟩
    · have hb : Free (b ++ d) := t.body_free.part (by
        rw [hbody, ← List.append_assoc]
        exact (List.prefix_append (b ++ d) rest).isInfix)
      have hcur : prev ++ d = thoughtsText past ++ (Head.thought.text ++ (b ++ d)) := by rw [hprev]; simp
      obtain ⟨hr, hc⟩ := @run_thought ⟨true, false, true⟩ _ _ _ ds hnil rfl _ hb hcur
      obtain ⟨ihr, ihc⟩ := ih ⟨true, false, true⟩ (prev ++ d) ⟨rfl, past, b ++ d, hcur, by simp [hbody]⟩
      rw [hr, hc, ihr, ihc, hd]
      simp [reasoningFrom, contentFrom]
  | @next t ts tail ds rest past' t' b' rest' ht hd _ ih =>
    obtain ⟨rfl, past, b, hprev, hbody⟩ := hm
    have hb : Free b' := t'.body_free.part (by rw [ht]; exact (List.prefix_append b' rest').isInfix)
    have hcur : prev ++ (rest ++ closer ++ t.gap ++ thoughtsText past' ++ (Head.thought.text ++ b')) =
        thoughtsText (past ++ t :: past') ++ (Head.thought.text ++ b') := by
      rw [hprev]
      simp [thoughtsText, Thought.text_eq, hbody]
    obtain ⟨hr, hc⟩ := @run_thought ⟨true, false, true⟩ _ _ _ ds (by simp [closer]) rfl _ hb hcur
    obtain ⟨ihr, ihc⟩ := ih ⟨true, false, true⟩ _ ⟨rfl, past ++ t :: past', b', hcur, ht⟩
    rw [hr, hc, ihr, ihc, hd]
    simp only [reasoningFrom, contentFrom, reasoned_append]
    rw [reasoned, ht, ← List.cons_append, lastGap_append]
    simp
  | @last t tail tail' ds rest y hy hcount hrest hd _ ih =>
    obtain ⟨rfl, past, b, hprev, hbody⟩ := hm
    have hsaid := congrArg saidOf hy
    simp only [saidOf_append, saidOf_spoken] at hsaid
    have hcur : prev ++ (rest ++ closer ++ textOf y) =
        thoughtsText past ++ (Head.thought.text ++ t.body) ++ (closer ++ textOf y) := by
      rw [hprev, hbody]
      simp
    have htrack := @track_closed past t _ hcount
    rw [← hcur] at htrack
    have hfree : Free rest := t.body_free.part (hbody ▸ (List.suffix_append b rest).isInfix)
    obtain ⟨out, hstep, hr, hc⟩ := step_last hfree hrest hd htrack
    obtain ⟨ihr, ihc⟩ := ih ⟨false, true, true⟩ _ (.inl ⟨rfl, rfl⟩)
    rw [feed_cons, hstep, reasoningOf_append, contentOf_append, ihr, ihc, hr, hc]
    simp [reasoningFrom, contentFrom, reasoned, lastGap, hsaid]
  | @closed p tail ds d y htext hin hcount hd _ ih =>
    obtain ⟨rfl, rfl, hprev, hne⟩ := hm
    have hnil : d ≠ [] := by
      rintro rfl
      rw [List.append_nil] at htext
      rw [← htext] at hin
      exact hne (hprev.eq_of_length_le hin.length_le)
    have hpos := (contains_iff_count (by decide)).1 ((contains_iff (by decide)).2 hin)
    have htrack : trackChannel {} (prev ++ d) = ⟨false, true, true⟩ := by
      rw [htext]
      exact track_last rfl ((contains_iff (by decide)).2 hin)
        ((contains_iff_count (by decide)).2 (by omega)) hcount
    obtain ⟨hr, hc⟩ := @whole_content ⟨false, true, true⟩ rfl (.inl rfl) d
    obtain ⟨ihr, ihc⟩ := ih ⟨false, true, true⟩ (prev ++ d) (.inl ⟨rfl, rfl⟩)
    rw [feed_cons, step_whole hnil (.inl rfl), htrack, reasoningOf_append, contentOf_append, hr, hc, ihr,
      ihc, hd]
    simp [reasoningFrom, contentFrom, reasoned, lastGap]
  | @answer tail ds y hd _ ih =>
    by_cases hnil : textOf y = []
    · have hsaid : saidOf y = [] := by
        rw [← hd, hnil]
        rfl
      rw [hnil, feed_cons, step_nil]
      obtain ⟨ihr, ihc⟩ := ih s prev (by simpa [Matches, hnil] using hm)
      exact ⟨ihr, ihc.trans (by simp [contentFrom, hsaid])⟩
    · -- The thought flag is down before and after the delta, and what it says is content.
      have hstep : s.inThought = false ∧ (trackChannel s (prev ++ textOf y)).inThought = false ∧
          ((trackChannel s (prev ++ textOf y)).inContent = true ∨ trackChannel s (prev ++ textOf y) = {}) := by
        rcases hm with ⟨ht, hs⟩ | ⟨rfl, hplain⟩
        · obtain ⟨h₁, h₂⟩ := track_content hs ht (prev ++ textOf y)
          exact ⟨ht, h₂, .inl h₁⟩
        · have hcur : contains thoughtOpener (prev ++ textOf y) = false := by
            rw [contains_eq_false (by decide)]
            intro hin
            rw [textOf_append, ← List.append_assoc] at hplain
            exact hplain (List.infix_append_of_infix_left hin)
          rcases track_plain hcur with h | ⟨h₁, h₂⟩
          · exact ⟨rfl, by rw [h], .inr h⟩
          · exact ⟨rfl, h₂, .inl h₁⟩
      obtain ⟨hin, hthought, hcontent⟩ := hstep
      obtain ⟨hr, hc⟩ := whole_content hthought hcontent (textOf y)
      have hnext : Matches (trackChannel s (prev ++ textOf y)) (prev ++ textOf y) tail .answer := by
        rcases hcontent with h | h
        · exact .inl ⟨hthought, h⟩
        · rcases hm with ⟨ht, hs⟩ | ⟨rfl, hplain⟩
          · have := (track_content hs ht (prev ++ textOf y)).1
            rw [h] at this
            cases this
          · exact .inr ⟨h, by simpa using hplain⟩
      obtain ⟨ihr, ihc⟩ := ih _ _ hnext
      rw [feed_cons, step_whole hnil (.inl hin), reasoningOf_append, contentOf_append, hr, hc, ihr, ihc, hd]
      simp [reasoningFrom, contentFrom, lastGap]

end FusionMlx.Reasoning.Gemma4
