import FusionMlx.Reasoning.Gemma4Stream

/-!
# Both ways of reading a Gemma 4 text

The regular expressions find the thoughts and take the markers out of the
answer; the stream says the same when its cuts let it.
-/
namespace FusionMlx.Reasoning.Gemma4

open JsonText (Text)
open PyText TextSearch

variable {β : Type} {t u a b acc : Text} {ts : List Thought} {th : Thought} {answer : Answer}
  {cs : List AnswerChannel} {segs : List Segment}

theorem opener_sharp : Sharp opener := ⟨'<', _, rfl, by decide⟩

/-- Where no opener starts, no pattern of one matches. -/
theorem skip_openers {m : Text → Option β} (hm : ∀ t, ¬ opener <+: t → m t = none) (ha : ¬ opener <:+: a)
    (hb : b = [] ∨ b.head? = some '<') : ∀ a₁ a₂, a = a₁ ++ a₂ → a₂ ≠ [] → m (a₂ ++ b) = none := by
  rintro a₁ a₂ rfl hne
  exact hm _ (opener_sharp.not_prefix_append (fun h => ha (List.infix_append_of_infix_right h)) hne hb)

theorem thoughtBlock_none (h : ¬ thoughtOpener <+: t) : thoughtBlock t = none := by
  rw [thoughtBlock, if_neg]
  intro hp
  exact h ((List.prefix_append _ _).trans (List.isPrefixOf_iff_prefix.1 hp))

theorem thoughtBlock_takes : Takes thoughtBlock := by
  intro t x rest h
  unfold thoughtBlock at h
  split at h
  · rename_i hp
    split at h
    · cases h
    · rename_i body after hpart
      split at h
      · cases h
      · cases h
        have hlt := partition_length (by decide) hpart
        rw [List.length_drop] at hlt
        have hle := (List.dropWhile_suffix isSpace (l := after)).length_le
        omega
  · cases h

/-- A thought is one block, with the white space behind it. -/
theorem thoughtBlock_thought (th : Thought) (u : Text) :
    thoughtBlock (th.text ++ u) =
      some (Head.thought.text ++ th.body ++ closer ++ (th.gap ++ u.takeWhile isSpace), lstrip u) := by
  have htext : th.text ++ u = (thoughtOpener ++ ['\n']) ++ (th.body ++ closer ++ (th.gap ++ u)) := by
    simp [Thought.text_eq, Head.text, Head.mark]
  have hpart : partition closer (th.body ++ closer ++ (th.gap ++ u)) = some (th.body, th.gap ++ u) :=
    (Head.sharp .close).partition_append th.body_free.2
  have hno : contains opener th.body = false := by
    rw [contains_eq_false (by decide)]
    exact th.body_free.1
  rw [thoughtBlock, htext, if_pos (List.isPrefixOf_iff_prefix.2 (List.prefix_append _ _)), List.drop_left, hpart]
  simp only [hno, Bool.false_eq_true, if_false]
  rw [List.takeWhile_append_of_pos th.gap_blank, List.dropWhile_append_of_pos th.gap_blank]
  rfl

theorem innerOf_block (th : Thought) (hb : Blank b) :
    innerOf (Head.thought.text ++ th.body ++ closer ++ b) = strip th.body := by
  have hopen : ¬ thoughtOpener ++ ['\n'] <:+: th.body ++ closer ++ b := by
    intro h
    have hmark : thoughtOpener <:+: th.body ++ closer ++ b := (List.prefix_append _ _).isInfix.trans h
    have hfree : ¬ thoughtOpener <:+: closer ++ b := by
      rw [show closer = Head.close.text from rfl, show thoughtOpener = Head.thought.mark from rfl,
        mark_infix_text (by decide)]
      exact (blank_free hb).mark .thought
    rw [List.append_assoc] at hmark
    exact (Head.sharp .thought).not_infix_append (th.body_free.mark .thought) hfree rfl hmark
  have h₁ : replace (thoughtOpener ++ ['\n']) [] (Head.thought.text ++ th.body ++ closer ++ b) =
      th.body ++ closer ++ b := by
    have hsplit := @Sharp.split_append _ _ (thoughtOpener ++ ['\n']) [] (th.body ++ closer ++ b)
      ⟨'<', _, rfl, by decide⟩ (by decide)
    rw [replace_nil, show Head.thought.text ++ th.body ++ closer ++ b =
      [] ++ (thoughtOpener ++ ['\n']) ++ (th.body ++ closer ++ b) by simp [Head.text, Head.mark], hsplit,
      split_none ((partition_none (by decide)).2 hopen)]
    simp
  have h₂ : replace closer [] (th.body ++ closer ++ b) = th.body ++ b := by
    have hsplit := (Head.sharp .close).split_append (b := b) (th.body_free.mark .close)
    rw [replace_nil, show split closer (th.body ++ closer ++ b) = _ from hsplit,
      show split Head.close.mark b = [b] from split_none ((partition_none (by decide)).2 (blank_free hb).2)]
    simp
  rw [innerOf, h₁, h₂, strip_append_blank _ hb]

theorem takeWhile_blank (u : Text) : Blank (u.takeWhile isSpace) := fun _ hc => List.mem_takeWhile_imp hc

/-- Text without thoughts has no block. -/
theorem findAll_thoughtless (h : ¬ thoughtOpener <:+: u) : findAll thoughtBlock u = [] ∧ removeAll thoughtBlock u = u := by
  have hskip : ∀ a₁ a₂, u = a₁ ++ a₂ → a₂ ≠ [] → thoughtBlock (a₂ ++ []) = none := by
    rintro a₁ a₂ rfl -
    rw [List.append_nil]
    exact thoughtBlock_none (fun hp => h (List.infix_append_of_infix_right hp.isInfix))
  have h₁ := findAll_append hskip
  have h₂ := removeAll_append hskip
  rw [List.append_nil] at h₁ h₂
  exact ⟨h₁, h₂.trans (List.append_nil u)⟩

theorem thoughtsText_head (ts : List Thought) (hts : ts ≠ []) (u : Text) :
    lstrip (thoughtsText ts ++ u) = thoughtsText ts ++ u := by
  cases ts with
  | nil => exact absurd rfl hts
  | cons t ts =>
    rw [thoughtsText, List.flatMap_cons, Thought.text_eq]
    exact lstrip_eq_self (c := '<') (by decide) _

/-- The blocks of a text are its thoughts, and without them the rest is left. -/
theorem thoughts_found (ts : List Thought) (h : ¬ thoughtOpener <:+: u) :
    (findAll thoughtBlock (thoughtsText ts ++ u)).map innerOf = ts.map (fun t => strip t.body) ∧
      removeAll thoughtBlock (thoughtsText ts ++ u) = if ts = [] then u else lstrip u := by
  induction ts with
  | nil =>
    obtain ⟨h₁, h₂⟩ := findAll_thoughtless h
    simp [thoughtsText, h₁, h₂]
  | cons t ts ih =>
    have hhit := thoughtBlock_thought t (thoughtsText ts ++ u)
    have hinner := innerOf_block t (t.gap_blank.append (takeWhile_blank (thoughtsText ts ++ u)))
    rw [show thoughtsText (t :: ts) ++ u = t.text ++ (thoughtsText ts ++ u) by simp [thoughtsText],
      findAll_some thoughtBlock_takes hhit, removeAll_some thoughtBlock_takes hhit, List.map_cons, hinner]
    by_cases hts : ts = []
    · subst hts
      have hu : ¬ thoughtOpener <:+: lstrip u := fun hin => h (hin.trans (List.dropWhile_suffix _).isInfix)
      obtain ⟨h₁, h₂⟩ := findAll_thoughtless hu
      rw [show thoughtsText [] ++ u = u from rfl, h₁, h₂]
      simp
    · rw [thoughtsText_head ts hts, ih.1, ih.2, if_neg hts]
      simp

def joined (cs : List AnswerChannel) : Text :=
  cs.flatMap (fun c => c.body ++ (c.after.map (closer ++ ·)).getD [])

def stretches : Text → List AnswerChannel → List Text
  | acc, [] => [acc]
  | acc, c :: cs =>
    match c.after with
    | none => stretches (acc ++ c.body) cs
    | some t => (acc ++ c.body) :: stretches t cs

/-- No closer or turn end stands in the text of the answer, with its openers and closers taken out. -/
structure Answer.Clear (answer : Answer) : Prop where
  closer : ∀ s ∈ stretches answer.plain answer.channels, ¬ closer <:+: s
  turn : ¬ turnEnd <:+: answer.said

theorem contentStart_none (h : ¬ opener <+: t) : contentStart t = none := by
  rw [contentStart, if_neg, if_neg]
  all_goals
    rw [List.isPrefixOf_iff_prefix]
    exact fun hp => h ((List.prefix_append _ _).trans hp)

theorem contentStart_takes : Takes contentStart := by
  have hle : ∀ t : Text, (dropNewline t).length ≤ t.length := by
    intro t
    unfold dropNewline
    split <;> simp
  intro t x rest h
  unfold contentStart at h
  split at h
  · rename_i hp
    have := (List.isPrefixOf_iff_prefix.1 hp).length_le
    have hpos : 0 < contentOpener.length := by decide
    cases h
    have := hle (t.drop contentOpener.length)
    rw [List.length_drop] at this
    omega
  · split at h
    · rename_i hp
      have := (List.isPrefixOf_iff_prefix.1 hp).length_le
      have hpos : 0 < finalOpener.length := by decide
      cases h
      have := hle (t.drop finalOpener.length)
      rw [List.length_drop] at this
      omega
    · cases h

theorem contentStart_head (c : AnswerChannel) (u : Text) :
    ∃ x, contentStart (c.head.text ++ u) = some (x, u) := by
  unfold AnswerChannel.head
  cases c.isFinal with
  | false => exact ⟨contentOpener, by simp [contentStart, Head.text, Head.mark, dropNewline]⟩
  | true =>
    refine ⟨finalOpener, ?_⟩
    have hno : ¬ contentOpener <+: finalOpener ++ '\n' :: u := by
      simp [contentOpener, finalOpener, contentWord, finalWord, opener]
    simp [contentStart, Head.text, Head.mark, dropNewline, hno]

theorem answer_text (cs : List AnswerChannel) :
    (cs.flatMap AnswerChannel.segments).flatMap segmentText =
      cs.flatMap (fun c => c.head.text ++ (c.body ++ (c.after.map (closer ++ ·)).getD [])) := by
  induction cs with
  | nil => rfl
  | cons c cs ih =>
    rw [List.flatMap_cons, List.flatMap_append, ih, List.flatMap_cons]
    congr 1
    cases h : c.after <;> simp [AnswerChannel.segments, segmentText, h, Head.text]

theorem answer_head (cs : List AnswerChannel) :
    cs.flatMap (fun c => c.head.text ++ (c.body ++ (c.after.map (closer ++ ·)).getD [])) = [] ∨
      (cs.flatMap (fun c => c.head.text ++ (c.body ++ (c.after.map (closer ++ ·)).getD []))).head? = some '<' := by
  rw [← answer_text]
  exact segments_head _

/-- The openers go out of the answer. -/
theorem removeAll_openers (hacc : ¬ opener <:+: acc) (cs : List AnswerChannel) :
    removeAll contentStart (acc ++ (cs.flatMap AnswerChannel.segments).flatMap segmentText) = acc ++ joined cs := by
  rw [answer_text]
  induction cs generalizing acc with
  | nil =>
    have hall := removeAll_append (skip_openers (fun t h => contentStart_none (t := t) h) hacc (.inl rfl))
    rw [List.append_nil] at hall
    rw [List.flatMap_nil, List.append_nil, joined, List.flatMap_nil, List.append_nil]
    exact hall.trans (List.append_nil acc)
  | cons c cs ih =>
    have hbehind : ¬ opener <:+: c.body ++ (c.after.map (closer ++ ·)).getD [] := by
      cases hafter : c.after with
      | none => simpa using c.body_free.1
      | some t =>
        have ht := (c.after_free t (by simp [hafter])).1
        have hc : ¬ opener <:+: closer ++ t := by
          rw [show closer ++ t = '<' :: (closer.tail ++ t) from rfl, List.infix_cons_iff, not_or]
          refine ⟨by simp [opener, closer], fun h => ht ?_⟩
          exact (@infix_append_of_head _ closer.tail _ _ opener.tail (by decide)).1 h
        simpa using opener_sharp.not_infix_append c.body_free.1 hc rfl
    obtain ⟨x, hx⟩ := contentStart_head c (c.body ++ (c.after.map (closer ++ ·)).getD [] ++
      cs.flatMap (fun c => c.head.text ++ (c.body ++ (c.after.map (closer ++ ·)).getD [])))
    rw [removeAll_append (skip_openers (fun t h => contentStart_none h) hacc (answer_head (c :: cs))),
      List.flatMap_cons, List.append_assoc, removeAll_some contentStart_takes hx, ih hbehind]
    simp [joined]

theorem split_joined (cs : List AnswerChannel) (h : ∀ s ∈ stretches acc cs, ¬ closer <:+: s) :
    split closer (acc ++ joined cs) = stretches acc cs := by
  induction cs generalizing acc with
  | nil =>
    rw [joined, List.flatMap_nil, List.append_nil]
    exact split_none ((partition_none (by decide)).2 (h acc (by simp [stretches])))
  | cons c cs ih =>
    cases hafter : c.after with
    | none =>
      simp only [stretches, hafter] at h ⊢
      rw [← ih h]
      simp [joined, hafter]
    | some t =>
      simp only [stretches, hafter] at h ⊢
      rw [← ih (fun s hs => h s (by simp [hs])), show acc ++ joined (c :: cs) =
        (acc ++ c.body) ++ closer ++ (t ++ joined cs) by simp [joined, hafter]]
      exact (Head.sharp .close).split_append (h _ (by simp))

theorem stretches_flatten (acc : Text) (cs : List AnswerChannel) :
    (stretches acc cs).flatten = acc ++ saidOf (cs.flatMap AnswerChannel.labelled) := by
  induction cs generalizing acc with
  | nil => simp [stretches]
  | cons c cs ih =>
    cases hafter : c.after <;> simp [stretches, hafter, ih, AnswerChannel.labelled]

/-- With a shorter front the stretches are parts of the same. -/
theorem stretches_suffix {acc' : Text} (hsuf : acc' <:+ acc) (cs : List AnswerChannel) :
    ∀ s' ∈ stretches acc' cs, ∃ s ∈ stretches acc cs, s' <:+: s := by
  induction cs generalizing acc acc' with
  | nil => simpa [stretches] using hsuf.isInfix
  | cons c cs ih =>
    obtain ⟨r, rfl⟩ := hsuf
    have hbody : acc' ++ c.body <:+ r ++ acc' ++ c.body := ⟨r, by simp⟩
    cases hafter : c.after with
    | none =>
      simp only [stretches, hafter]
      exact ih hbody
    | some t =>
      simp only [stretches, hafter]
      intro s' hs'
      rcases List.mem_cons.1 hs' with rfl | hs'
      · exact ⟨_, by simp, hbody.isInfix⟩
      · exact ⟨s', by simp [hs'], List.infix_rfl⟩

/-- Taking the markers out of an answer leaves its text. -/
theorem withoutEnds_answer (h : answer.Clear) (hsuf : acc <:+ answer.plain) :
    withoutEnds (removeAll contentStart (acc ++ answer.segments.flatMap segmentText)) =
      strip (acc ++ saidOf (answer.channels.flatMap AnswerChannel.labelled)) := by
  have hopen : ¬ opener <:+: acc := fun hin => answer.plain_free.1 (hin.trans hsuf.isInfix)
  have hstretch : ∀ s ∈ stretches acc answer.channels, ¬ closer <:+: s := by
    intro s hs hin
    obtain ⟨s', hs', hinfix⟩ := stretches_suffix hsuf answer.channels s hs
    exact h.closer s' hs' (hin.trans hinfix)
  have hturn : ¬ turnEnd <:+: acc ++ saidOf (answer.channels.flatMap AnswerChannel.labelled) := by
    intro hin
    obtain ⟨r, hr⟩ := hsuf
    refine h.turn (hin.trans ⟨r, [], ?_⟩)
    simp [Answer.said, Answer.labelled, ← hr]
  have hreplace : replace closer [] (acc ++ joined answer.channels) =
      acc ++ saidOf (answer.channels.flatMap AnswerChannel.labelled) := by
    rw [replace_nil, split_joined _ hstretch, ← stretches_flatten]
  rw [withoutEnds, Answer.segments, removeAll_openers hopen, hreplace, replace_nil,
    split_none ((partition_none (by decide)).2 hturn)]
  simp

def wholeText (ts : List Thought) (answer : Answer) : Text := thoughtsText ts ++ textOf answer.labelled

/-- No thought opens in the answer. -/
theorem answer_thoughtless (answer : Answer) : ¬ thoughtOpener <:+: textOf answer.labelled := by
  rw [answer.textOf_labelled]
  have hfree : ∀ s ∈ answer.segments, Free s.2 := by
    intro s hs
    obtain ⟨c, -, hs⟩ := List.mem_flatMap.1 hs
    rcases List.mem_cons.1 hs with rfl | hs
    · exact c.body_free
    · obtain ⟨t, ht, rfl⟩ := Option.map_eq_some_iff.1 (Option.mem_toList.1 hs)
      exact c.after_free t ht
  rw [show thoughtOpener = Head.thought.mark from rfl, mark_infix_segments .thought answer.plain_free hfree]
  rintro ⟨s, hs, hhead⟩
  obtain ⟨c, -, hs⟩ := List.mem_flatMap.1 hs
  rcases List.mem_cons.1 hs with rfl | hs
  · unfold AnswerChannel.head at hhead
    split at hhead <;> cases hhead
  · obtain ⟨t, -, rfl⟩ := Option.map_eq_some_iff.1 (Option.mem_toList.1 hs)
    cases hhead

/-- A text whose thoughts are closed is not open. -/
theorem isOpenInThink_closed (ts : List Thought) (answer : Answer) : isOpenInThink (wholeText ts answer) = false := by
  have hno := answer_thoughtless answer
  rcases List.eq_nil_or_concat ts with rfl | ⟨past, t, rfl⟩
  · have hpre : thoughtOpener.isPrefixOf (lstrip (wholeText [] answer)) = false := by
      by_contra h
      have hp := List.isPrefixOf_iff_prefix.1 (Bool.of_not_eq_false h)
      exact hno (hp.isInfix.trans (List.dropWhile_suffix _).isInfix)
    rw [isOpenInThink, hpre]
    rfl
  · unfold isOpenInThink
    cases hr : rpartition thoughtOpener (wholeText (past.concat t) answer) with
    | none => exact Bool.and_false _
    | some r =>
      obtain ⟨x, after⟩ := r
      have htext := rpartition_some hr
      have hbehind : ¬ thoughtOpener <:+: closer ++ (t.gap ++ textOf answer.labelled) := by
        rw [show thoughtOpener = Head.thought.mark from rfl, show closer = Head.close.text from rfl,
          mark_infix_text (by decide)]
        have hgap : '<' ∉ t.gap := t.gap_blank.not_mem (by decide)
        exact fun hin => hno ((@infix_append_of_head _ _ _ _ thoughtOpener.tail hgap).1 hin)
      rw [show wholeText (past.concat t) answer = (thoughtsText past ++ Head.thought.text ++ t.body) ++
        (closer ++ (t.gap ++ textOf answer.labelled)) by simp [wholeText, thoughtsText, Thought.text_eq]] at htext
      obtain ⟨r, rfl⟩ := (Head.sharp .thought).before hbehind rfl htext
      have hin : contains closer (thoughtOpener ++ (r ++ (closer ++ (t.gap ++ textOf answer.labelled)))) = true := by
        rw [contains_iff (by decide)]
        exact ⟨thoughtOpener ++ r, t.gap ++ textOf answer.labelled, by simp⟩
      simp [hin]

@[simp] theorem orNone_getD (t : Text) : (orNone t).getD [] = t := by
  unfold orNone
  split
  · rename_i h
    exact h.symm
  · rfl

/-- `extract_reasoning` gives the thoughts, each stripped, and the text of the answer, stripped. -/
theorem extractReasoning_text (ts : List Thought) (hclear : answer.Clear) :
    (extractReasoning (wholeText ts answer)).1.getD [] = ts.flatMap (fun t => strip t.body) ∧
      (extractReasoning (wholeText ts answer)).2.getD [] = strip answer.said := by
  have hno := answer_thoughtless answer
  have hclosed := isOpenInThink_closed ts answer
  have hsaid : answer.said = answer.plain ++ saidOf (answer.channels.flatMap AnswerChannel.labelled) := by
    simp [Answer.said, Answer.labelled]
  obtain ⟨hfind, hremove⟩ := thoughts_found ts hno
  unfold extractReasoning
  by_cases hnil : wholeText ts answer = []
  · rw [if_pos hnil, hnil]
    obtain ⟨h₁, h₂⟩ := List.append_eq_nil_iff.1 hnil
    have hts : ts = [] := by
      cases ts with
      | nil => rfl
      | cons t ts => simp [thoughtsText, Thought.text_eq, closer] at h₁
    have hlabel : answer.labelled = [] := List.map_eq_nil_iff.1 h₂
    rw [hts, Answer.said, hlabel]
    exact ⟨rfl, rfl⟩
  rw [if_neg hnil, hclosed, if_neg (by decide)]
  dsimp only
  by_cases hts : ts = []
  · subst hts
    have hblocks : findAll thoughtBlock (wholeText [] answer) = [] := (findAll_thoughtless hno).1
    have hpart : partition thoughtOpener (wholeText [] answer) = none := (partition_none (by decide)).2 hno
    rw [if_pos hblocks, hpart]
    refine ⟨rfl, ?_⟩
    rw [show wholeText [] answer = textOf answer.labelled from rfl, answer.textOf_labelled, Option.getD_some,
      withoutEnds_answer hclear List.suffix_rfl, hsaid]
  · have hblocks : findAll thoughtBlock (wholeText ts answer) ≠ [] := by
      intro h
      rw [wholeText] at h
      rw [h] at hfind
      exact hts (List.map_eq_nil_iff.1 hfind.symm)
    rw [if_neg hblocks, orNone_getD, orNone_getD]
    constructor
    · rw [List.flatMap_def, wholeText, hfind, List.flatMap_def]
    · have hhead : answer.segments.flatMap segmentText = [] ∨
          ∃ c u, answer.segments.flatMap segmentText = c :: u ∧ isSpace c = false := by
        rcases segments_head answer.segments with h | h
        · exact .inl h
        · cases hs : answer.segments.flatMap segmentText with
          | nil => exact .inl rfl
          | cons c u =>
            obtain rfl : c = '<' := by rw [hs] at h; simpa using h
            exact .inr ⟨'<', u, rfl, by decide⟩
      rw [wholeText, hremove, if_neg hts, answer.textOf_labelled, lstrip_append_of_head _ hhead,
        @withoutEnds_answer (lstrip answer.plain) _ hclear (List.dropWhile_suffix _), hsaid, strip, lstrip_lstrip_append, strip]

theorem blank_thoughts {blanks : List Thought} (h : ∀ t ∈ blanks, Blank t.body) : Blank (thoughtsSaid blanks) := by
  intro c hc
  obtain ⟨t, ht, hc⟩ := List.mem_flatMap.1 hc
  exact ((h t ht).append t.gap_blank) c hc

def shortThought : Thought where
  body := ['A']
  gap := []
  body_free := by constructor <;> decide
  gap_blank := .nil

def shortAnswer : Answer where
  plain := ['B']
  channels := []
  plain_free := by constructor <;> decide

def blankThought : Thought where
  body := []
  gap := []
  body_free := nil_free
  gap_blank := .nil

end FusionMlx.Reasoning.Gemma4
