import FusionMlx.ToolParsers.HarmonyToolStream

/-!
# The streamed answer

The stream cleans the text behind the last final opening and sends what the
cleaned text has gained. A final message that cleaning leaves alone comes
through as it is.
-/
namespace FusionMlx.ToolParsers.Harmony

open JsonText TextSearch Reasoning.Harmony

variable {isAlnum : Char → Bool} {dumps str : Json → Text} {t u a b before cur prev lead name : Text} {m : Message}
  {ms : List Message} {l : List (Text × Text)} {ds : List Text}

def droppedWords : List Text := [Channel.analysis.name, Channel.commentary.name, Channel.final.name, jsonWord]

variable (isAlnum) in
/-- A text in which cleaning finds nothing but tokens. -/
def Plain (t : Text) : Prop :=
  (∀ w ∈ droppedWords, ¬ w <:+: t) ∧ ∀ c, isWord isAlnum c = true → ¬ recipient ++ [c] <:+: t

theorem removeAll_absent {p : Text → Option (Text × Text)} (h : ∀ a₁ a₂, t = a₁ ++ a₂ → a₂ ≠ [] → p a₂ = none) :
    removeAll p t = t := by
  have := removeAll_append (m := p) (a := t) (t := []) (by simpa using h)
  simpa [removeAll, removeAllUpTo] using this

theorem wordPattern_absent {words : List Text} (h : ∀ w ∈ words, ¬ w <:+: t) : removeAll (wordPattern words) t = t := by
  refine removeAll_absent ?_
  rintro a₁ a₂ rfl -
  rw [wordPattern, Option.map_eq_none_iff, List.find?_eq_none]
  intro w hw hpre
  exact h w hw ((List.isPrefixOf_iff_prefix.1 hpre).isInfix.trans (List.suffix_append a₁ a₂).isInfix)

theorem recipientPattern_absent (h : ∀ c, isWord isAlnum c = true → ¬ recipient ++ [c] <:+: t) :
    removeAll (recipientPattern isAlnum) t = t := by
  refine removeAll_absent ?_
  rintro a₁ a₂ rfl -
  cases hx : recipientPattern isAlnum a₂ with
  | none => rfl
  | some x =>
    obtain ⟨t₁, h₁, hx⟩ := Option.bind_eq_some_iff.1 hx
    obtain ⟨⟨name, t₂⟩, h₂, -⟩ := Option.bind_eq_some_iff.1 hx
    obtain ⟨rfl, hne, hword⟩ := takeSome_some h₂
    obtain ⟨c, name, rfl⟩ := List.exists_cons_of_ne_nil hne
    refine absurd ?_ (h c (hword c (by simp)))
    exact ⟨a₁, name ++ t₂, by rw [after_some.1 h₁]; simp⟩

theorem replace_absent {tok : Text} (hne : tok ≠ []) (h : ¬ tok <:+: t) : replace tok [] t = t := by
  rw [replace, split_none ((partition_none hne).2 h)]
  simp

theorem control_sharp {tok : Text} (h : tok ∈ strippedControlTokens) : Sharp tok ∧ tok.head? = some '<' := by
  simp only [strippedControlTokens, List.mem_cons, List.not_mem_nil, or_false] at h
  rcases h with rfl | rfl | rfl | rfl | rfl | rfl | rfl <;> exact ⟨⟨'<', _, rfl, by decide⟩, rfl⟩

def dropTokens (tokens : List Text) (t : Text) : Text := tokens.foldl (fun t tok => replace tok [] t) t

theorem dropTokens_absent {tokens : List Text} (hmem : ∀ tok ∈ tokens, tok ∈ strippedControlTokens)
    (h : ∀ tok ∈ tokens, ¬ tok <:+: t) : dropTokens tokens t = t := by
  induction tokens with
  | nil => rfl
  | cons tok tokens ih =>
    rw [dropTokens, List.foldl_cons, replace_absent (control_sharp (hmem tok (by simp))).1.ne_nil (h tok (by simp))]
    exact ih (fun tok' h' => hmem tok' (by simp [h'])) (fun tok' h' => h tok' (by simp [h']))

/-- What is left without the tokens has none of the words. -/
theorem strip_plain (hplain : Plain isAlnum t) (h : dropTokens strippedControlTokens u = t) :
    stripControlTokensInner isAlnum u = t := by
  have hchannels := @wordPattern_absent _ ([Channel.analysis.name, Channel.commentary.name, Channel.final.name])
    (fun w hw => hplain.1 w (List.mem_append_left [jsonWord] hw))
  have hjson := @wordPattern_absent _ ([jsonWord]) (fun w hw => hplain.1 w
    (List.mem_append_right [Channel.analysis.name, Channel.commentary.name, Channel.final.name] hw))
  rw [stripControlTokensInner, ← dropTokens, h]
  rw [hchannels, recipientPattern_absent hplain.2, hjson]

theorem stop_control (s : Stop) : s.token ∈ strippedControlTokens := by
  cases s <;> simp [Stop.token, strippedControlTokens]

/-- No control token stands in another. -/
theorem control_in_stop {tok : Text} (h : tok ∈ strippedControlTokens) (s : Stop) (hin : tok <:+: s.token) :
    tok = s.token := by
  simp only [strippedControlTokens, List.mem_cons, List.not_mem_nil, or_false] at h
  rcases h with rfl | rfl | rfl | rfl | rfl | rfl | rfl <;> revert hin <;> cases s <;> decide

theorem stop_cons (s : Stop) : ∃ x, s.token = '<' :: x ∧ (∀ w ∈ droppedWords, ¬ w <:+: x) ∧ '=' ∉ x := by
  cases s <;> exact ⟨_, rfl, by decide⟩

theorem control_not_body (m : Message) (hm : ¬ constrainToken <:+: m.body) {tok : Text}
    (h : tok ∈ strippedControlTokens) : ¬ tok <:+: m.body := by
  have hbody := fun t h => @token_not_body m t h
  simp only [strippedControlTokens, List.mem_cons, List.not_mem_nil, or_false] at h
  rcases h with rfl | rfl | rfl | rfl | rfl | rfl | rfl <;> first | exact hm | exact hbody _ (by simp [Token])

theorem Plain.part (h : Plain isAlnum t) (hu : u <:+: t) : Plain isAlnum u :=
  ⟨fun w hw hin => h.1 w hw (hin.trans hu), fun c hc hin => h.2 c hc (hin.trans hu)⟩

/-- A plain text is plain with the beginning of a terminator behind it. -/
theorem Plain.append_stop (h : Plain isAlnum t) {s : Stop} {x : Text} (hx : x <+: s.token) : Plain isAlnum (t ++ x) := by
  cases x with
  | nil => simpa using h
  | cons c x =>
    obtain ⟨y, hy, hwords, heq⟩ := stop_cons s
    rw [hy, List.cons_prefix_cons] at hx
    obtain ⟨rfl, hx⟩ := hx
    constructor
    · intro w hw hin
      have hopen : '<' ∉ w := by
        simp only [droppedWords, List.mem_cons, List.not_mem_nil, or_false] at hw
        rcases hw with rfl | rfl | rfl | rfl <;> decide
      rcases infix_cons_of_not_mem hopen hin with hin | hin
      · exact h.1 w hw hin
      · exact hwords w hw (hin.trans hx.isInfix)
    · intro c hc hin
      have hopen : '<' ∉ recipient ++ [c] := by
        rw [List.mem_append, List.mem_singleton]
        rintro (hmem | rfl)
        · revert hmem
          decide
        · rw [isWord_ascii (by decide)] at hc
          revert hc
          decide
      rcases infix_cons_of_not_mem hopen hin with hin | hin
      · exact h.2 c hc hin
      · exact heq ((hin.trans hx.isInfix).subset (by simp [recipient]))

variable (isAlnum) in
def cleaned (t : Text) : Text := safeContentPrefix (stripControlTokensInner isAlnum t)

variable (isAlnum) in
/-- A message text that cleaning leaves alone. -/
structure Clear (m : Message) : Prop where
  plain : Plain isAlnum m.body
  unconstrained : ¬ constrainToken <:+: m.body

theorem sentinel_sharp (tok : Text) (h : tok ∈ streamingSentinels) : Sharp tok ∧ tok.head? = some '<' := by
  refine control_sharp ?_
  simp only [streamingSentinels, List.mem_cons, List.not_mem_nil, or_false] at h
  rcases h with rfl | rfl | rfl | rfl | rfl | rfl | rfl <;> simp [strippedControlTokens]

section Message

variable {x y : Text} (hm : Clear isAlnum m)

include hm

/-- Until the terminator is complete nothing is removed. -/
theorem strip_short (hy : y <+: m.body ++ m.stop.token) (hne : y ≠ m.body ++ m.stop.token) :
    stripControlTokensInner isAlnum y = y := by
  have hcut : ∃ x z, z <:+: m.body ∧ x <+: m.stop.token ∧ x ≠ m.stop.token ∧ y = z ++ x := by
    rcases prefix_append_cases hy with ⟨hshort, -⟩ | ⟨x, hx, rfl⟩
    · refine ⟨[], y, hshort.isInfix, List.nil_prefix, fun h => ?_, by simp⟩
      exact (control_sharp (stop_control m.stop)).1.ne_nil h.symm
    · exact ⟨x, m.body, List.infix_rfl, hx, fun h => hne (by rw [h]), rfl⟩
  obtain ⟨x, z, hz, hx, hlt, rfl⟩ := hcut
  refine strip_plain ((hm.plain.part hz).append_stop hx) (dropTokens_absent (fun _ h => h) (fun tok htok => ?_))
  have hbody : ¬ tok <:+: z := fun hin => control_not_body m hm.unconstrained htok (hin.trans hz)
  have hstop : ¬ tok <:+: x := by
    intro hin
    obtain rfl := control_in_stop htok m.stop (hin.trans hx.isInfix)
    exact hlt (hx.eq_of_length_le hin.length_le)
  cases x with
  | nil => simpa using hbody
  | cons c x =>
    refine (control_sharp htok).1.not_infix_append hbody hstop ?_
    obtain ⟨w, hw, -⟩ := stop_cons m.stop
    rw [hw, List.cons_prefix_cons] at hx
    rw [(control_sharp htok).2, ← hx.1]
    rfl

theorem strip_whole : stripControlTokensInner isAlnum (m.body ++ m.stop.token) = m.body := by
  refine strip_plain hm.plain ?_
  have hbody : ∀ tok ∈ strippedControlTokens, ¬ tok <:+: m.body := fun tok h => control_not_body m hm.unconstrained h
  have hother : ∀ tok ∈ strippedControlTokens, tok ≠ m.stop.token → ¬ tok <:+: m.body ++ m.stop.token := by
    intro tok htok hne
    refine (control_sharp htok).1.not_infix_append (hbody tok htok) (fun hin => hne (control_in_stop htok m.stop hin)) ?_
    rw [(control_sharp htok).2, (control_sharp (stop_control m.stop)).2]
  have hdrop : replace m.stop.token [] (m.body ++ m.stop.token) = m.body := by
    have hsharp := (control_sharp (stop_control m.stop)).1
    have hsplit := hsharp.split_append (b := []) (hbody _ (stop_control m.stop))
    rw [List.append_nil] at hsplit
    rw [replace_nil, hsplit, split_none rfl]
    simp
  -- The tokens before the terminator are not there, and those behind it are not either.
  obtain ⟨l₁, l₂, hl⟩ := List.append_of_mem (stop_control m.stop)
  have hnodup : strippedControlTokens.Nodup := by decide
  rw [hl, List.nodup_append] at hnodup
  have h₁ : dropTokens l₁ (m.body ++ m.stop.token) = m.body ++ m.stop.token := by
    refine dropTokens_absent (fun tok h => by rw [hl]; simp [h]) (fun tok h => ?_)
    refine hother tok (by rw [hl]; simp [h]) (fun he => ?_)
    exact hnodup.2.2 tok h m.stop.token (by simp) he
  have h₂ : dropTokens l₂ m.body = m.body :=
    dropTokens_absent (fun tok h => by rw [hl]; simp [h]) (fun tok h => hbody tok (by rw [hl]; simp [h]))
  rw [hl, dropTokens, List.foldl_append, List.foldl_cons, ← dropTokens, ← dropTokens, h₁, hdrop, h₂]

/-- What is shown is text of the message. -/
theorem cleaned_prefix (hy : y <+: m.body ++ m.stop.token) : cleaned isAlnum y <+: m.body := by
  by_cases hne : y = m.body ++ m.stop.token
  · rw [hne, cleaned, strip_whole hm]
    exact safePrefix_isPrefix _ _
  · rw [cleaned, strip_short hm hy hne]
    refine List.prefix_of_prefix_length_le ((safePrefix_isPrefix _ _).trans hy) (List.prefix_append _ _) ?_
    refine @safePrefix_le_partition _ _ m.stop.token _ _ [] _ ?_ ?_ (by simpa using hy)
    · cases m.stop <;> simp [Stop.token, streamingSentinels]
    · exact (control_sharp (stop_control m.stop)).1.not_infix_of_isPrefix
        (control_not_body m hm.unconstrained (stop_control m.stop)) hy hne

theorem cleaned_mono (hx : x <+: y) (hy : y <+: m.body ++ m.stop.token) (hne : y ≠ m.body ++ m.stop.token) :
    cleaned isAlnum x <+: cleaned isAlnum y := by
  have hne' : x ≠ m.body ++ m.stop.token := fun h => hne (hy.eq_of_length_le (by rw [← h]; exact hx.length_le))
  rw [cleaned, cleaned, strip_short hm (hx.trans hy) hne', strip_short hm hy hne]
  exact safePrefix_mono _ hx

/-- Within the terminator all of the message is shown. -/
theorem cleaned_stop (hx : x <+: m.stop.token) (hne : x ≠ m.stop.token) (hpos : x ≠ []) :
    cleaned isAlnum (m.body ++ x) = m.body := by
  have hy : m.body ++ x <+: m.body ++ m.stop.token := (List.prefix_append_right_inj m.body).2 hx
  have hle := cleaned_prefix hm hy
  refine hle.eq_of_length_le ?_
  rw [cleaned, strip_short hm hy (fun h => hne (List.append_cancel_left h))]
  refine (safePrefix_append (fun tok htok => ⟨(sentinel_sharp tok htok).1, ?_⟩) m.body).length_le
  rw [(sentinel_sharp tok htok).2]
  obtain ⟨w, hw, -⟩ := stop_cons m.stop
  obtain ⟨c, x, rfl⟩ := List.exists_cons_of_ne_nil hpos
  rw [hw, List.cons_prefix_cons] at hx
  rw [hx.1]
  rfl

end Message

def upTo (lead : Text) (pre : List Message) (m : Message) : Text :=
  textOf lead pre ++ (m.channel.opening ++ (m.header ++ messageToken))

variable (isAlnum) in
def shown (t : Text) : Text := (cleanFinal isAlnum t).getD []

theorem final_opening : finalOpening = Channel.final.opening := rfl

theorem final_sharp : Sharp finalOpening := ⟨'<', _, rfl, by decide⟩

theorem cleanFinal_absent (h : ¬ finalOpening <:+: t) : cleanFinal isAlnum t = none := by
  have hnone : rpartition finalOpening t = none := by
    rw [rpartition, Option.map_eq_none_iff, partition_none (by decide), List.reverse_infix]
    exact h
  rw [cleanFinal, hnone]
  rfl

theorem shown_absent (h : ¬ finalOpening <:+: t) : shown isAlnum t = [] := by
  rw [shown, cleanFinal_absent h]
  rfl

variable {pre : List Message}

section Final

variable (hlead : Free lead) (hpre : ∀ m ∈ pre, m.channel ≠ .final)
  (hc : m.channel = .final)

include hlead hpre hc

/-- Before its message token nothing of a message is shown. -/
theorem shown_short (h : cur <+: upTo lead pre m) (hne : cur ≠ upTo lead pre m) : shown isAlnum cur = [] := by
  have habsent : ¬ finalOpening <:+: textOf lead pre := opening_absent (hlead _ (by simp)) hpre
  rw [upTo, hc, ← List.append_assoc] at h hne
  rcases prefix_append_cases h with ⟨hshort, hlt⟩ | ⟨x, hx, rfl⟩
  · exact shown_absent (final_sharp.not_infix_of_isPrefix habsent hshort hlt)
  · have hlt : x ≠ m.header ++ messageToken := fun he => hne (by rw [he])
    have hmessage : ¬ messageToken <:+: x :=
      (token_parts message_token).1.not_infix_of_isPrefix (m.header_free _ (by simp)) hx hlt
    have hopening : ¬ messageToken <:+: finalOpening ++ x := by
      rw [final_opening, Channel.opening, List.append_assoc, token_infix_token message_token channel_token (by decide),
        token_infix_append message_token Channel.final.name_no_open]
      exact hmessage
    have hchannel : ¬ finalOpening <:+: x := by
      refine fun hin => tail_hidden m ((List.prefix_append _ _).isInfix.trans (hin.trans (hx.isInfix.trans ?_)))
      exact (List.prefix_append _ (m.body ++ m.margin)).isInfix.trans (by simp [Message.tail])
    rw [← final_opening, shown, cleanFinal, final_sharp.rpartition_last hchannel, Option.bind_some,
      (partition_none (by decide)).2 hopening]
    rfl

end Final

theorem shown_body (hc : m.channel = .final) {y : Text} (hy : y <+: m.body ++ m.stop.token) :
    shown isAlnum (upTo lead pre m ++ y) = cleaned isAlnum y := by
  have hopening : ¬ messageToken <:+: finalOpening ++ m.header := by
    rw [final_opening, Channel.opening, List.append_assoc, token_infix_token message_token channel_token (by decide),
      token_infix_append message_token Channel.final.name_no_open]
    exact m.header_free _ (by simp)
  have hchannel : ¬ finalOpening <:+: m.header ++ messageToken ++ y := by
    obtain ⟨z, hz⟩ := hy
    have htail : m.tail = m.header ++ messageToken ++ y ++ (z ++ m.gap) := by
      rw [Message.tail, Message.margin, ← List.append_assoc (m.header ++ messageToken ++ m.body),
        List.append_assoc (m.header ++ messageToken) m.body, ← hz]
      simp only [List.append_assoc]
    refine fun hin => tail_hidden m ((List.prefix_append _ _).isInfix.trans (hin.trans ?_))
    rw [htail]
    exact (List.prefix_append _ _).isInfix
  have htext : upTo lead pre m ++ y = textOf lead pre ++ finalOpening ++ (m.header ++ messageToken ++ y) := by
    rw [upTo, hc, final_opening]
    simp only [List.append_assoc]
  rw [shown, cleanFinal, htext, final_sharp.rpartition_last hchannel, Option.bind_some]
  have hpart := (token_parts message_token).1.partition_append (b := y) hopening
  rw [show finalOpening ++ m.header ++ messageToken ++ y = finalOpening ++ (m.header ++ messageToken ++ y) by
    simp only [List.append_assoc]] at hpart
  rw [hpart, Option.map_some, Option.getD_some, cleaned]

theorem step_answer (hcall : count callToken prev < count callToken cur → shown isAlnum cur = []) :
    (if contains finalOpening cur then (extractToolCallsStreaming isAlnum dumps str prev cur).content else []) =
      (shown isAlnum cur).drop (shown isAlnum prev).length := by
  by_cases hfinal : contains finalOpening cur = true
  · rw [if_pos hfinal]
    unfold extractToolCallsStreaming
    dsimp only
    split
    · rename_i h
      rw [hcall h.1, List.drop_nil]
    · rw [contentStreaming, if_pos hfinal, shown, shown]
      cases cleanFinal isAlnum cur with
      | none => rw [Option.getD_none, List.drop_nil]
      | some t => rfl
  · have habsent : ¬ finalOpening <:+: cur := by rwa [← contains_iff (by decide)]
    rw [if_neg hfinal, shown_absent habsent, List.drop_nil]

/-- A delta that tells calls brings no content. -/
theorem step_calls (hcount : count callToken prev < count callToken cur)
    (htools : (extractToolCalls isAlnum dumps str cur).toolsCalled = true) :
    (if contains finalOpening cur then (extractToolCallsStreaming isAlnum dumps str prev cur).content else []) = [] := by
  have hstep : (extractToolCallsStreaming isAlnum dumps str prev cur).content = [] := by
    unfold extractToolCallsStreaming
    dsimp only
    rw [if_pos ⟨hcount, htools⟩]
  rw [hstep, ite_self]

theorem finalContent_cons (prev d : Text) (ds : List Text) :
    finalContent (stream isAlnum dumps str prev (d :: ds)) =
      (if contains finalOpening (prev ++ d) then (extractToolCallsStreaming isAlnum dumps str prev (prev ++ d)).content
        else []) ++ finalContent (stream isAlnum dumps str (prev ++ d) ds) := by
  rw [stream, finalContent, List.filter_cons]
  split <;> rfl

/-- A delta within the message completes calls only before its text; one that goes beyond the
terminator has no text of the message and completes a call, or is empty. -/
def Apart (lead : Text) (pre : List Message) (m : Message) (prev : Text) : List Text → Prop
  | [] => True
  | d :: ds =>
    (prev ++ d <+: upTo lead pre m ++ (m.body ++ m.stop.token) →
      count callToken prev < count callToken (prev ++ d) → prev ++ d <+: upTo lead pre m) ∧
    (¬ prev ++ d <+: upTo lead pre m ++ (m.body ++ m.stop.token) →
      (m.body = [] ∨ upTo lead pre m ++ m.body <+: prev) ∧
        (count callToken prev < count callToken (prev ++ d) ∨ d = [])) ∧
    Apart lead pre m (prev ++ d) ds

def Tells (isAlnum : Char → Bool) (dumps str : Json → Text) (t : Text) : Prop :=
  ∀ cur, cur <+: t → 0 < count callToken cur → (extractToolCalls isAlnum dumps str cur).toolsCalled = true

/-- Behind the message nothing more is shown. -/
theorem finalContent_behind (htools : Tells isAlnum dumps str (prev ++ ds.flatten))
    (hprev : upTo lead pre m ++ (m.body ++ m.stop.token) <+: prev) (h : Apart lead pre m prev ds) :
    finalContent (stream isAlnum dumps str prev ds) = [] := by
  induction ds generalizing prev with
  | nil => rfl
  | cons d ds ih =>
    obtain ⟨-, hbeyond, hrest⟩ := h
    rw [List.flatten_cons, ← List.append_assoc] at htools
    have hnext := ih htools (hprev.trans (List.prefix_append prev d)) hrest
    have hcase : count callToken prev < count callToken (prev ++ d) ∨ d = [] := by
      by_cases hin : prev ++ d <+: upTo lead pre m ++ (m.body ++ m.stop.token)
      · have hlen := (hin.trans hprev).length_le
        rw [List.length_append] at hlen
        exact .inr (List.eq_nil_of_length_eq_zero (by omega))
      · exact (hbeyond hin).2
    rw [finalContent_cons, hnext, List.append_nil]
    rcases hcase with hcount | rfl
    · exact step_calls hcount (htools _ (List.prefix_append _ _) (by omega))
    · rw [List.append_nil, step_answer (fun hlt => absurd hlt (lt_irrefl _)), List.drop_length]

def EndsInStop (lead : Text) (pre : List Message) (m : Message) (prev : Text) (ds : List Text) : Prop :=
  ∃ ds₁ ds₂ x, ds = ds₁ ++ ds₂ ∧ x <+: m.stop.token ∧ x ≠ m.stop.token ∧ x ≠ [] ∧
    prev ++ ds₁.flatten = upTo lead pre m ++ (m.body ++ x)

/-- When a delta goes beyond the terminator, the text of the message was told. -/
theorem told_behind (hc : m.channel = .final) (hm : Clear isAlnum m) {d : Text}
    (hend : safeContentPrefix m.body = m.body ∨ EndsInStop lead pre m prev (d :: ds))
    (hprev : prev <+: upTo lead pre m ++ (m.body ++ m.stop.token))
    (hne : prev ≠ upTo lead pre m ++ (m.body ++ m.stop.token))
    (hcur : upTo lead pre m ++ (m.body ++ m.stop.token) <+: prev ++ d)
    (hbehind : upTo lead pre m ++ m.body <+: prev) : shown isAlnum prev = m.body := by
  obtain ⟨x, rfl⟩ := hbehind
  rw [List.append_assoc, List.prefix_append_right_inj, List.prefix_append_right_inj] at hprev
  rw [List.append_assoc] at hne ⊢
  have hlt : x ≠ m.stop.token := fun he => hne (by rw [he])
  rw [shown_body hc ((List.prefix_append_right_inj m.body).2 hprev)]
  by_cases hpos : x = []
  · rcases hend with hsafe | ⟨ds₁, ds₂, z, hds, hz, hzlt, hzpos, hat⟩
    · have hshort : stripControlTokensInner isAlnum m.body = m.body :=
        strip_short hm (List.prefix_append _ _)
          (fun h => hlt (hpos.trans (List.self_eq_append_right.1 h).symm))
      rw [hpos, List.append_nil, cleaned, hshort, hsafe]
    · -- The delta that ends inside the terminator is another one.
      exfalso
      cases ds₁ with
      | nil =>
        rw [hpos, List.flatten_nil, List.append_nil, List.append_nil, ← List.append_assoc] at hat
        exact hzpos (List.append_right_eq_self.1 hat.symm)
      | cons d' ds₁ =>
        obtain ⟨rfl, rfl⟩ := List.cons.inj hds
        have hlen := congrArg List.length hat
        have hle := hz.length_le
        have hne : z.length ≠ m.stop.token.length := fun he => hzlt (hz.eq_of_length he)
        have hcur := hcur.length_le
        rw [List.flatten_cons] at hlen
        simp only [List.length_append] at hlen hcur
        omega
  · exact cleaned_stop hm hprev hlt hpos

section Run

variable {x y : Text} (hlead : Free lead) (hpre : ∀ m ∈ pre, m.channel ≠ .final) (hc : m.channel = .final)

include hlead hpre hc

theorem shown_before (h : cur <+: upTo lead pre m) : shown isAlnum cur = [] := by
  by_cases hlt : cur = upTo lead pre m
  · have := @shown_body isAlnum lead m pre hc [] List.nil_prefix
    rw [List.append_nil] at this
    rw [hlt, this]
    rfl
  · exact shown_short hlead hpre hc h hlt

/-- Of a beginning nothing is shown, or the cleaned beginning of the message. -/
theorem shown_cases (h : cur <+: upTo lead pre m ++ (m.body ++ m.stop.token)) :
    cur <+: upTo lead pre m ∧ shown isAlnum cur = [] ∨
      ∃ y, y <+: m.body ++ m.stop.token ∧ cur = upTo lead pre m ++ y ∧ shown isAlnum cur = cleaned isAlnum y := by
  rcases prefix_append_cases h with ⟨hshort, -⟩ | ⟨y, hy, rfl⟩
  · exact .inl ⟨hshort, shown_before hlead hpre hc hshort⟩
  · exact .inr ⟨y, hy, rfl, shown_body hc hy⟩

theorem shown_prefix (hm : Clear isAlnum m) (h : cur <+: upTo lead pre m ++ (m.body ++ m.stop.token)) :
    shown isAlnum cur <+: m.body := by
  rcases shown_cases hlead hpre hc h with ⟨-, hs⟩ | ⟨y, hy, -, hs⟩
  · rw [hs]
    exact List.nil_prefix
  · rw [hs]
    exact cleaned_prefix hm hy

theorem shown_mono (hm : Clear isAlnum m) (hx : x <+: y) (hy : y <+: upTo lead pre m ++ (m.body ++ m.stop.token))
    (hne : y ≠ upTo lead pre m ++ (m.body ++ m.stop.token)) : shown isAlnum x <+: shown isAlnum y := by
  rcases prefix_append_cases (hx.trans hy) with ⟨hshort, -⟩ | ⟨a, -, rfl⟩
  · rw [shown_before hlead hpre hc hshort]
    exact List.nil_prefix
  · obtain ⟨z, rfl⟩ := hx
    rw [List.append_assoc] at hy hne ⊢
    have hb := (List.prefix_append_right_inj _).1 hy
    have ha : a <+: m.body ++ m.stop.token := (List.prefix_append a z).trans hb
    rw [shown_body hc ha, shown_body hc hb]
    exact cleaned_mono hm (List.prefix_append a z) hb (fun h => hne (by rw [h]))

/-- What is shown so far and what the rest brings is the message. -/
theorem answer_run (hm : Clear isAlnum m) {rest : Text}
    (hend : safeContentPrefix m.body = m.body ∨ EndsInStop lead pre m prev ds) (hcalls : Apart lead pre m prev ds)
    (htext : prev ++ ds.flatten = upTo lead pre m ++ (m.body ++ m.stop.token) ++ rest)
    (htools : Tells isAlnum dumps str (prev ++ ds.flatten))
    (hprev : prev <+: upTo lead pre m ++ (m.body ++ m.stop.token))
    (hne : prev ≠ upTo lead pre m ++ (m.body ++ m.stop.token)) :
    shown isAlnum prev ++ finalContent (stream isAlnum dumps str prev ds) = m.body := by
  induction ds generalizing prev with
  | nil =>
    rw [List.flatten_nil, List.append_nil] at htext
    have hlen := hprev.length_le
    rw [htext, List.length_append] at hlen
    have hnil : rest = [] := List.eq_nil_of_length_eq_zero (by omega)
    rw [hnil, List.append_nil] at htext
    exact absurd htext hne
  | cons d ds ih =>
    obtain ⟨hwithin, hbeyond, hrest⟩ := hcalls
    rw [List.flatten_cons, ← List.append_assoc] at htext htools
    have hbody : shown isAlnum prev <+: m.body := shown_prefix hlead hpre hc hm hprev
    rw [finalContent_cons]
    by_cases hcur : prev ++ d <+: upTo lead pre m ++ (m.body ++ m.stop.token)
    swap
    · -- The delta goes beyond the terminator, so it completes a call.
      obtain ⟨htold, hcount⟩ := hbeyond hcur
      have hwhole : upTo lead pre m ++ (m.body ++ m.stop.token) <+: prev ++ d := by
        have hpre : prev ++ d <+: upTo lead pre m ++ (m.body ++ m.stop.token) ++ rest := ⟨_, htext⟩
        rcases prefix_append_cases hpre with ⟨hshort, -⟩ | ⟨y, -, hy⟩
        · exact absurd hshort hcur
        · exact ⟨y, hy.symm⟩
      have hcount : count callToken prev < count callToken (prev ++ d) := by
        refine hcount.resolve_right (fun hd => hcur ?_)
        rw [hd, List.append_nil]
        exact hprev
      rw [step_calls hcount (htools _ (List.prefix_append _ _) (by omega)), List.nil_append,
        finalContent_behind htools hwhole hrest, List.append_nil]
      rcases htold with hnil | htold
      · rw [hnil, List.prefix_nil] at hbody
        rw [hbody, hnil]
      · exact told_behind hc hm hend hprev hne hwhole htold
    rw [step_answer (fun hlt => shown_before hlead hpre hc (hwithin hcur hlt))]
    by_cases hfull : prev ++ d = upTo lead pre m ++ (m.body ++ m.stop.token)
    · -- The terminator is complete with this delta.
      rw [finalContent_behind htools (by rw [hfull]) hrest, List.append_nil, hfull, shown_body hc List.prefix_rfl,
        cleaned, strip_whole hm]
      rcases hend with hsafe | ⟨ds₁, ds₂, x, hds, hx, hlt, hpos, hat⟩
      · rw [hsafe]
        obtain ⟨r, hr⟩ := hbody
        rw [← hr, List.drop_left]
      · cases ds₁ with
        | nil =>
          rw [List.flatten_nil, List.append_nil] at hat
          have hbody : shown isAlnum prev = m.body := by
            rw [hat, shown_body hc ((List.prefix_append_right_inj m.body).2 hx), cleaned_stop hm hx hlt hpos]
          have hsafe : safeContentPrefix m.body <+: m.body := safePrefix_isPrefix _ _
          rw [hbody, List.drop_eq_nil_of_le hsafe.length_le, List.append_nil]
        | cons d' ds₁ =>
          exfalso
          obtain ⟨rfl, rfl⟩ := List.cons.inj hds
          have hlen := congrArg List.length hat
          have hle := hx.length_le
          have hne : x.length ≠ m.stop.token.length := fun he => hlt (hx.eq_of_length he)
          rw [List.flatten_cons, ← List.append_assoc, hfull] at hlen
          simp only [List.length_append] at hlen
          omega
    · have hmono := shown_mono hlead hpre hc hm (List.prefix_append prev d) hcur hfull
      obtain ⟨r, hr⟩ := hmono
      have hstep : shown isAlnum prev ++ (shown isAlnum (prev ++ d)).drop (shown isAlnum prev).length =
          shown isAlnum (prev ++ d) := by
        rw [← hr, List.drop_left]
      rw [← List.append_assoc, hstep]
      refine ih ?_ hrest htext htools hcur hfull
      rcases hend with hsafe | ⟨ds₁, ds₂, x, hds, hx, hlt, hpos, hat⟩
      · exact .inl hsafe
      · right
        cases ds₁ with
        | cons d' ds₁ =>
          obtain ⟨rfl, rfl⟩ := List.cons.inj hds
          exact ⟨ds₁, ds₂, x, rfl, hx, hlt, hpos, by rw [← hat]; simp⟩
        | nil =>
          -- The delta before ended inside the terminator, and so does this one.
          rw [List.flatten_nil, List.append_nil] at hat
          refine ⟨[], ds, x ++ d, rfl, ?_, fun h => hfull (by rw [hat, ← h]; simp), by simp [hpos], by rw [hat]; simp⟩
          rw [hat, List.append_assoc, List.append_assoc, List.prefix_append_right_inj, List.prefix_append_right_inj] at hcur
          exact hcur

end Run

theorem finalContent_absent (h : ¬ finalOpening <:+: prev ++ ds.flatten) :
    finalContent (stream isAlnum dumps str prev ds) = [] := by
  induction ds generalizing prev with
  | nil => rfl
  | cons d ds ih =>
    rw [List.flatten_cons, ← List.append_assoc] at h
    have hcur : ¬ finalOpening <:+: prev ++ d := fun hin => h (hin.trans (List.prefix_append _ _).isInfix)
    rw [finalContent_cons, ih h, List.append_nil, if_neg (by rwa [contains_iff (by decide)])]

variable (isAlnum) in
/-- Cleaning leaves the final message alone, its end is not held back for good, and what stands behind
it comes in deltas of calls that have no text of it. -/
def FinalClear (lead : Text) (ms : List Message) (deltas : List Text) : Prop :=
  ∀ pre m post, ms = pre ++ m :: post → m.channel = .final →
    (∀ m' ∈ post, m'.channel ≠ .final) ∧ Clear isAlnum m ∧
      (safeContentPrefix m.body = m.body ∨ EndsInStop lead pre m [] deltas) ∧ Apart lead pre m [] deltas

theorem Calls.tells (h : Calls isAlnum lead ms l) (hlead : Free lead) :
    Tells isAlnum dumps str (textOf lead ms) := by
  intro cur hcur hcount
  obtain ⟨hle, extra, hfind, -⟩ := h.begun hlead hcur
  obtain ⟨x, l', hl⟩ := List.exists_cons_of_length_pos (show 0 < l.length by omega)
  obtain ⟨n, hn⟩ := Nat.exists_eq_succ_of_ne_zero hcount.ne'
  rw [(extractToolCalls_calls cur).2, hfind, hl, hn, List.take_succ_cons]
  rfl

theorem answer_whole (h : Calls isAlnum lead ms l) (hlead : Free lead) (htext : ds.flatten = textOf lead ms)
    (hclear : FinalClear isAlnum lead ms ds) :
    finalContent (stream isAlnum dumps str [] ds) = spoken .final ms := by
  by_cases hex : ∃ m ∈ ms, m.channel = .final
  · obtain ⟨m, hmem, hc⟩ := hex
    have htools : Tells isAlnum dumps str (textOf lead ms) := h.tells hlead
    obtain ⟨pre, post, rfl⟩ := List.append_of_mem hmem
    obtain ⟨hpost, hm, hend, hcalls⟩ := hclear pre m post rfl hc
    have hpre : ∀ m' ∈ pre, m'.channel ≠ .final := by
      intro m' hm' hc'
      obtain ⟨p, q, rfl⟩ := List.append_of_mem hm'
      exact (hclear p m' (q ++ m :: post) (by simp) hc').1 m (by simp) hc
    have hwhole : textOf lead (pre ++ m :: post) =
        upTo lead pre m ++ (m.body ++ m.stop.token) ++ (m.gap ++ post.flatMap Message.text) := by
      simp [textOf, upTo, Message.text, Message.tail, Message.margin]
    have hstart : ([] : Text) ≠ upTo lead pre m ++ (m.body ++ m.stop.token) := by
      obtain ⟨o, ho, -⟩ := opening_cons m.channel
      simp [upTo, ho]
    have hspoken : spoken .final (pre ++ m :: post) = m.body := by
      have hnil : pre.filter (fun m => m.channel = .final) = [] := by simpa using hpre
      have hnil' : post.filter (fun m => m.channel = .final) = [] := by simpa using hpost
      simp [spoken, hnil, hnil', hc]
    rw [← htext] at htools
    have hrun := @answer_run isAlnum dumps str [] lead m ds pre hlead hpre hc hm _ hend hcalls
      (by rw [List.nil_append, htext, hwhole]) (by rwa [List.nil_append]) List.nil_prefix hstart
    rw [hspoken, ← hrun, shown_before hlead hpre hc List.nil_prefix, List.nil_append]
  · have hno : ∀ m ∈ ms, m.channel ≠ .final := fun m hm hc => hex ⟨m, hm, hc⟩
    have hnil : ms.filter (fun m => m.channel = .final) = [] := by simpa using hno
    rw [finalContent_absent (by rw [List.nil_append, htext]; exact opening_absent (hlead _ (by simp)) hno), spoken, hnil]
    rfl

def bareCall : Message where
  channel := .commentary
  header := [' '] ++ recipient ++ ['f']
  body := ['{', '}']
  stop := .called
  gap := []
  header_blank := fun h => absurd rfl h
  header_free := by unfold Reasoning.Harmony.Free; decide
  body_free := by unfold Reasoning.Harmony.Free; decide
  body_start := by decide
  gap_free := Reasoning.Harmony.nil_free

theorem bareCall_addressed (before : Text) : Addressed (fun _ => false) before bareCall ['f'] :=
  .header [' '] [] ⟨by decide, List.forall_mem_singleton.2 rfl⟩ (by decide) (List.forall_mem_singleton.2 rfl) rfl (.inl .nil)

def answer : Message where
  channel := .final
  header := []
  body := ['h', 'i']
  stop := .returned
  gap := []
  header_blank := fun _ => .nil
  header_free := Reasoning.Harmony.nil_free
  body_free := by unfold Reasoning.Harmony.Free; decide
  body_start := by decide
  gap_free := Reasoning.Harmony.nil_free

def answered : List Text :=
  [finalOpening ++ messageToken ++ ['h'], 'i' :: returnToken, bareCall.text ++ bareCall.text]

theorem answered_clear : FinalClear (fun _ => false) [] [answer, bareCall, bareCall] answered := by
  intro pre m post hms hc
  cases pre with
  | nil =>
    obtain ⟨rfl, rfl⟩ := List.cons.inj hms
    refine ⟨by decide, ⟨⟨by decide, fun c _ hin => ?_⟩, by decide⟩, .inl (by decide), ?_⟩
    · exact absurd hin.length_le (by simp [answer, recipient])
    · exact ⟨by decide +kernel, by decide +kernel, by decide +kernel, by decide +kernel,
        by decide +kernel, by decide +kernel, trivial⟩
  | cons m' pre =>
    have hmem : m ∈ [bareCall, bareCall] := by
      rw [(List.cons.inj hms).2]
      simp
    obtain rfl : m = bareCall := by simpa using hmem
    cases hc

end FusionMlx.ToolParsers.Harmony
