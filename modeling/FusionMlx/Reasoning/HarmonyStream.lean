import FusionMlx.Reasoning.HarmonyChannels

/-!
# The stream on visible tokens

One step of the parser for each kind of delta, and from these the reasoning and
the content of a whole run.
-/
namespace FusionMlx.Reasoning.Harmony

open JsonText (Text)
open PyText TextSearch Transducers

variable {s : HarmonyReasoningParser} {prev d x u p q front c : Text} {ch : Channel} {b : Bool}
  {stage : Stage} {m : Message} {ms : List Message} {old : Option Channel}

theorem contains_token {tok : Text} (h : Token tok) : contains tok d = true ↔ tok <:+: d :=
  contains_iff (token_parts h).1.ne_nil

theorem switchIn_none (h : ¬ channelToken <:+: d) : switchIn d = none := by
  rw [switchIn, if_neg (by rwa [contains_token channel_token])]

theorem switchIn_some (h : channelToken <:+: d) : switchIn d = namedIn d := by
  rw [switchIn, if_pos (by rwa [contains_token channel_token])]

theorem channelOf_none (h : ¬ channelToken <:+: x) : channelOf x = none := by
  have hnone : rpartition channelToken x = none := by
    rw [rpartition, Option.map_eq_none_iff, partition_none (by decide), List.reverse_infix]
    exact h
  rw [channelOf, hnone]

theorem channelOf_opening (hu : ¬ channelToken <:+: u) : channelOf (x ++ ch.opening ++ u) = some ch := by
  have hbehind : ¬ channelToken <:+: ch.name ++ u := by
    rwa [token_infix_append channel_token ch.name_no_open]
  have hpart := (token_parts channel_token).2.1.rpartition_append (a := x) hbehind
  rw [show x ++ channelToken ++ (ch.name ++ u) = x ++ ch.opening ++ u by simp [Channel.opening]] at hpart
  rw [channelOf, hpart]
  cases ch <;> simp [Channel.name]

/-- No name is the beginning of another. -/
theorem name_prefix {ch' : Channel} (h : ch'.name <+: ch.name) : ch' = ch := by
  revert h
  cases ch <;> cases ch' <;> decide

theorem opening_cons (ch : Channel) : ∃ t, ch.opening = '<' :: t ∧ '<' ∉ t := by
  cases ch <;> exact ⟨_, rfl, by decide⟩

/-- Within an opening no channel is found yet. -/
theorem channelOf_partial (hx : ¬ channelToken <:+: x) (hpq : ch.opening = p ++ q) (hq : q ≠ []) :
    channelOf (x ++ p) = none := by
  by_cases hp : channelToken <+: p
  · obtain ⟨n, rfl⟩ := hp
    rw [Channel.opening, List.append_assoc, List.append_cancel_left_eq] at hpq
    have hn : ¬ channelToken <:+: n :=
      token_absent channel_token (fun h => ch.name_no_open (by rw [hpq]; simp [h]))
    have hpart := (token_parts channel_token).2.1.rpartition_append (a := x) hn
    have hno : ∀ ch' : Channel, ch'.name.isPrefixOf n = false := by
      intro ch'
      by_contra h
      have hpre := List.isPrefixOf_iff_prefix.1 (Bool.of_not_eq_false h)
      obtain rfl := name_prefix (hpre.trans ⟨q, hpq.symm⟩)
      have hlen := congrArg List.length hpq
      have hle := hpre.length_le
      have hpos := List.length_pos_iff.2 hq
      rw [List.length_append] at hlen
      omega
    rw [channelOf, ← List.append_assoc, hpart]
    simp [hno]
  · refine channelOf_none ?_
    cases p with
    | nil => simpa using hx
    | cons y p =>
      obtain ⟨t, ht, -⟩ := opening_cons ch
      obtain rfl : y = '<' := by
        rw [ht, List.cons_append] at hpq
        exact (List.cons.inj hpq).1.symm
      refine (token_parts channel_token).1.not_infix_append hx ?_ rfl
      intro h
      have hlen := h.length_le
      refine hp (List.prefix_of_prefix_length_le ⟨ch.name, rfl⟩ ⟨q, hpq.symm⟩ hlen)

def HarmonyReasoningParser.located (s : HarmonyReasoningParser) (currentText : Text) : HarmonyReasoningParser :=
  if s.currentChannel = none then { s with currentChannel := channelOf currentText } else s

theorem located_some (h : s.currentChannel = some ch) (t : Text) : s.located t = s := by
  simp [HarmonyReasoningParser.located, h]

theorem located_none (h : s.currentChannel = none) (ht : channelOf x = none) : s.located x = s := by
  obtain ⟨c, b⟩ := s
  obtain rfl : c = none := h
  simp [HarmonyReasoningParser.located, ht]

theorem located_named (h : s.currentChannel = none) (ht : channelOf x = some ch) :
    s.located x = ⟨some ch, s.inMessage⟩ := by
  simp [HarmonyReasoningParser.located, h, ht]

theorem step_switch (h : switchIn d = some ch) (hc : ch ≠ .commentary) :
    streamStep (s, prev) d = ((⟨some ch, false⟩, prev ++ d), []) := by
  rw [streamStep, extractReasoningStreaming, h]
  cases ch with
  | commentary => exact absurd rfl hc
  | analysis => rfl
  | final => rfl

theorem step_switch_raw (h : switchIn d = some .commentary) :
    streamStep (s, prev) d = ((⟨some .commentary, false⟩, prev ++ d), [{ content := some d }]) := by
  rw [streamStep, extractReasoningStreaming, h]
  rfl

theorem step_raw (h : switchIn d = none) (hs : s.currentChannel = some .commentary) :
    streamStep (s, prev) d = ((s, prev ++ d), [{ content := some d }]) := by
  rw [streamStep, extractReasoningStreaming, h]
  simp [hs]

/-- A delta with a message token. -/
theorem step_message (h : switchIn d = none) (hs : s.located (prev ++ d) = ⟨some ch, b⟩)
    (hc : ch ≠ .commentary) (hm : messageToken <:+: d) :
    streamStep (s, prev) d = ((⟨some ch, true⟩, prev ++ d), []) := by
  rw [← contains_token message_token] at hm
  unfold HarmonyReasoningParser.located at hs
  rw [streamStep, extractReasoningStreaming, h]
  simp only [hs]
  simp [hc, hm]

/-- Outside a message nothing is said. -/
theorem step_outside (h : switchIn d = none) (hs : s.located (prev ++ d) = ⟨old, false⟩)
    (hc : old ≠ some .commentary) (hm : ¬ messageToken <:+: d) :
    streamStep (s, prev) d = ((⟨old, false⟩, prev ++ d), []) := by
  rw [← contains_token message_token, Bool.not_eq_true] at hm
  unfold HarmonyReasoningParser.located at hs
  rw [streamStep, extractReasoningStreaming, h]
  simp only [hs]
  simp [hc, hm]

/-- A delta with a terminator. -/
theorem step_stop (h : switchIn d = none) (hs : s.currentChannel = some ch) (hc : ch ≠ .commentary)
    (hm : ¬ messageToken <:+: d) (stop : Stop) (hstop : stop.token <:+: d) :
    streamStep (s, prev) d = ((⟨some ch, false⟩, prev ++ d), []) := by
  rw [← contains_token message_token, Bool.not_eq_true] at hm
  rw [← contains_token (stop_token stop)] at hstop
  have hany : [endToken, returnToken, callToken, startToken].any (fun token => contains token d) = true := by
    rw [List.any_eq_true]
    exact ⟨stop.token, by cases stop <;> simp [Stop.token], hstop⟩
  rw [streamStep, extractReasoningStreaming, h]
  simp only [hm, hany]
  simp [hs, hc]

/-- A part of an analysis or final message. -/
theorem step_body (hd : ∀ tok, Token tok → ¬ tok <:+: d) (hlike : controlLike d = false)
    (hs : s = ⟨some ch, true⟩) (hc : ch ≠ .commentary) :
    ∃ out, streamStep (s, prev) d = ((s, prev ++ d), [out]) ∧
      out.reasoning.getD [] = (if ch = .analysis then d else []) ∧
      out.content.getD [] = (if ch = .final then d else []) := by
  have hno : ∀ tok, Token tok → contains tok d = false := by
    intro tok htok
    rw [← Bool.not_eq_true, contains_token htok]
    exact hd tok htok
  have hany : [endToken, returnToken, callToken, startToken].any (fun token => contains token d) = false := by
    rw [List.any_eq_false]
    intro tok htok
    rw [hno tok (by simp [Token] at htok ⊢; tauto)]
    decide
  subst hs
  rw [streamStep, extractReasoningStreaming, switchIn_none (hd _ channel_token)]
  simp only [hno _ message_token, hany, hlike]
  cases ch with
  | commentary => exact absurd rfl hc
  | analysis => exact ⟨{ reasoning := some d }, by simp⟩
  | final => exact ⟨{ content := some d }, by simp⟩

def Matches (s : HarmonyReasoningParser) (prev : Text) : Stage → Prop
  | .between old gap => s = ⟨old, false⟩ ∧ old ≠ some .commentary ∧ Free gap ∧
      (old = none → ¬ channelToken <:+: prev ++ gap)
  | .naming m q => s.inMessage = false ∧ m.channel ≠ .commentary ∧ ∃ p, p ≠ [] ∧ m.channel.opening = p ++ q ∧
      (s.currentChannel = some m.channel ∨
        s.currentChannel = none ∧ ∃ x, prev = x ++ p ∧ ¬ channelToken <:+: x)
  | .header m h => s = ⟨some m.channel, false⟩ ∧ m.channel ≠ .commentary ∧ Blank h
  | .body m b => s = ⟨some m.channel, true⟩ ∧ m.channel ≠ .commentary ∧ b <:+: m.body
  | .raw _ _ => s = ⟨some .commentary, false⟩

def reasoningFrom : Stage → Text
  | .naming m _ | .header m _ => if m.channel = .analysis then m.body else []
  | .body m b => if m.channel = .analysis then b else []
  | _ => []

def ContentFrom (ms : List Message) (c : Text) : Stage → Prop
  | .between _ gap => Carries gap ms c
  | .naming m _ | .header m _ =>
    ∃ c', c = (if m.channel = .final then m.body else []) ++ c' ∧ Carries m.margin ms c'
  | .body m b => ∃ c', c = (if m.channel = .final then b else []) ++ c' ∧ Carries m.margin ms c'
  | .raw m rest => ∃ b rest' c', rest = b ++ rest' ∧ c = b ++ c' ∧ rest' <:+ m.margin ∧ Carries rest' ms c'

theorem token_not_body (m : Message) {tok : Text} (h : Token tok) : ¬ tok <:+: m.body := by
  simp only [Token, List.mem_cons, List.not_mem_nil, or_false] at h
  rcases h with rfl | rfl | rfl | rfl | rfl | rfl
  all_goals first | exact m.body_start | exact m.body_free _ (by simp)

/-- The margin of a message has no token but its terminator. -/
theorem margin_free {g : Text} (stop : Stop) (hg : Free g) {tok : Text} (h : tok = channelToken ∨ tok = messageToken) :
    ¬ tok <:+: stop.token ++ g := by
  have htok : Token tok := by rcases h with rfl | rfl <;> simp [Token]
  rw [token_infix_token htok (stop_token stop) (by rcases h with rfl | rfl <;> cases stop <;> decide)]
  exact hg tok (by rcases h with rfl | rfl <;> simp)

theorem Front.reasoning {stage : Stage} (h : Front stage old front) : reasoningFrom stage = [] := by
  cases h <;> simp [reasoningFrom]

theorem Front.content {stage : Stage} (h : Front stage old front) (hbare : stage.Bare)
    (hcar : Carries front ms c) : ContentFrom ms c stage := by
  cases h with
  | between old gap => exact hcar
  | body m => exact ⟨c, by simp, hcar⟩
  | raw m rest => exact ⟨[], front, c, rfl, rfl, hbare, hcar⟩

/-- In front of the opening of an analysis or final message: a message token is not in the delta,
and a message that is still open is closed. -/
theorem Front.step {stage : Stage} (h : Front stage old front) (hmatch : Matches s prev stage)
    (hold : old ≠ some .commentary) (hsw : switchIn (front ++ p) = none) (hp : ¬ messageToken <:+: p)
    (hhead : p.head? = some '<')
    (hloc : old = none → ¬ channelToken <:+: prev ++ front → channelOf (prev ++ (front ++ p)) = none) :
    streamStep (s, prev) (front ++ p) = ((⟨old, false⟩, prev ++ (front ++ p)), []) := by
  have hsharp := (token_parts message_token).1
  cases h with
  | between old gap =>
    obtain ⟨rfl, hc, hfree, hnone⟩ := hmatch
    refine step_outside hsw ?_ hc (hsharp.not_infix_append (hfree _ (by simp)) hp hhead)
    cases old with
    | none => exact located_none rfl (hloc rfl (hnone rfl))
    | some ch => exact located_some rfl _
  | body m =>
    obtain ⟨rfl, hc, -⟩ := hmatch
    have hmargin := margin_free m.stop m.gap_free (.inr rfl)
    refine step_stop hsw rfl hc (hsharp.not_infix_append hmargin hp hhead) m.stop ?_
    exact ⟨[], m.gap ++ p, by simp [Message.margin]⟩
  | raw m rest => exact absurd rfl hold

theorem Front.bare_nil {stage : Stage} (h : Front stage old front) (hf : front = []) : stage.Bare := by
  cases h with
  | between old gap => trivial
  | body m => trivial
  | raw m rest =>
    subst hf
    exact List.nil_suffix

theorem Front.bare {stage : Stage} (h : Front stage old front) (hold : old ≠ some .commentary) : stage.Bare := by
  cases h with
  | between old gap => trivial
  | body m => trivial
  | raw m rest => exact absurd rfl hold

/-- Before the first opening there is no channel token. -/
theorem Front.hidden {stage : Stage} (h : Front stage old front) (hmatch : Matches s prev stage)
    (hold : old = none) : ¬ channelToken <:+: prev ++ front := by
  cases h with
  | between old gap => exact hmatch.2.2.2 hold
  | body m => cases hold
  | raw m rest => cases hold

/-- A delta without output. -/
theorem run_quiet {s' : HarmonyReasoningParser} {ds : List Text}
    (h : streamStep (s, prev) d = ((s', prev ++ d), [])) :
    (feed streamStep (s, prev) (d :: ds)).2 = (feed streamStep (s', prev ++ d) ds).2 := by
  rw [feed_cons, h]
  rfl

/-- A part of an opening goes by without output, and the channel stays hidden. -/
theorem step_spelled (hsw : switchIn d = none) (hmsg : ¬ messageToken <:+: d) (hc : m.channel ≠ .commentary)
    (hs : s.inMessage = false) (hpq : m.channel.opening = p ++ d ++ q) (hq : q ≠ [])
    (hold : s.currentChannel = some m.channel ∨
      s.currentChannel = none ∧ ∃ x, prev = x ++ p ∧ ¬ channelToken <:+: x) :
    streamStep (s, prev) d = ((s, prev ++ d), []) := by
  obtain ⟨ch, b⟩ := s
  obtain rfl : b = false := hs
  rcases hold with hold | ⟨hold, x, hx, hfree⟩
  · obtain rfl : ch = some m.channel := hold
    exact step_outside hsw (located_some rfl _) (by simpa using hc) hmsg
  · obtain rfl : ch = none := hold
    refine step_outside hsw (located_none rfl ?_) (by simp) hmsg
    rw [hx, List.append_assoc]
    exact channelOf_partial hfree hpq hq

/-- With the end of an opening the channel is known. -/
theorem located_opening (hs : s.inMessage = false) (hpq : m.channel.opening = p ++ q)
    (hu : ¬ channelToken <:+: u)
    (hold : s.currentChannel = some m.channel ∨
      s.currentChannel = none ∧ ∃ x, prev = x ++ p ∧ ¬ channelToken <:+: x) :
    s.located (prev ++ (q ++ u)) = ⟨some m.channel, false⟩ := by
  rcases hold with hold | ⟨hold, x, rfl, -⟩
  · rw [located_some hold, ← hold, ← hs]
  · have ht : channelOf (x ++ p ++ (q ++ u)) = some m.channel := by
      rw [show x ++ p ++ (q ++ u) = x ++ m.channel.opening ++ u by simp [hpq]]
      exact channelOf_opening hu
    rw [located_named hold ht, hs]

/-- What is left of an opening has no token. -/
theorem naming_no_open (hp : p ≠ []) (hpq : m.channel.opening = p ++ q) : '<' ∉ q := by
  obtain ⟨t, ht, hno⟩ := opening_cons m.channel
  obtain ⟨y, p, rfl⟩ := List.exists_cons_of_ne_nil hp
  rw [ht, List.cons_append] at hpq
  rw [(List.cons.inj hpq).2] at hno
  exact fun h => hno (by simp [h])

/-- From every stage the stream says what the rest of the text carries. -/
theorem cut_run {ds : List Text} (h : Cut stage ms ds) (s : HarmonyReasoningParser) (prev : Text)
    (hm : Matches s prev stage) :
    reasoningOf (feed streamStep (s, prev) ds).2 = reasoningFrom stage ++ spoken .analysis ms ∧
      ContentFrom ms (contentOf (feed streamStep (s, prev) ds).2) stage := by
  induction h generalizing s prev with
  | done hs => exact ⟨by rw [hs.reasoning]; rfl, hs.content (hs.bare_nil rfl) (.nil _)⟩
  | @gap old ms ds d gap _ ih =>
    obtain ⟨rfl, hc, hfree, hnone⟩ := hm
    have hd := hfree.part (List.prefix_append d gap).isInfix
    have hloc : HarmonyReasoningParser.located ⟨old, false⟩ (prev ++ d) = ⟨old, false⟩ := by
      cases old with
      | none =>
        refine located_none rfl (channelOf_none (fun h => hnone rfl ?_))
        rw [← List.append_assoc]
        exact List.infix_append_of_infix_left h
      | some ch => exact located_some rfl _
    rw [run_quiet (step_outside (switchIn_none (hd _ (by simp))) hloc hc (hd _ (by simp)))]
    obtain ⟨hr, hcar⟩ := ih ⟨old, false⟩ (prev ++ d)
      ⟨rfl, hc, hfree.part (List.suffix_append d gap).isInfix, by simpa using hnone⟩
    exact ⟨hr, Carries.mono hcar (List.suffix_append d gap)⟩
  | @stop m ms ds g gap hgap _ ih =>
    obtain ⟨rfl, hc, -⟩ := hm
    have hg : Free g := m.gap_free.part (hgap ▸ (List.prefix_append g gap).isInfix)
    rw [run_quiet (step_stop (switchIn_none (margin_free m.stop hg (.inl rfl))) rfl hc
      (margin_free m.stop hg (.inr rfl)) m.stop (List.prefix_append _ g).isInfix)]
    obtain ⟨hr, hcar⟩ := ih ⟨some m.channel, false⟩ (prev ++ (m.stop.token ++ g))
      ⟨rfl, by simpa using hc, m.gap_free.part (hgap ▸ (List.suffix_append g gap).isInfix), by simp⟩
    refine ⟨by simpa [reasoningFrom] using hr, contentOf _, by simp, Carries.mono hcar ?_⟩
    exact ⟨m.stop.token ++ g, by simp [Message.margin, hgap]⟩
  | @opening stage old front ms ds m h rest hs hbare hc hh hname _ ih =>
    have hin : channelToken <:+: front ++ m.channel.opening ++ h :=
      ⟨front, m.channel.name ++ h, by simp [Channel.opening]⟩
    rw [run_quiet (step_switch ((switchIn_some hin).trans hname) hc)]
    have hblank : Blank rest := fun x hx => m.header_blank hc x (by rw [hh]; simp [hx])
    obtain ⟨hr, c', hcont, hcar⟩ := ih ⟨some m.channel, false⟩ _ ⟨rfl, hc, hblank⟩
    refine ⟨by rw [hs.reasoning, hr, spoken_cons]; rfl, ?_⟩
    rw [hcont]
    exact hs.content hbare (.spoken m hc hcar)
  | @spelling stage old front ms ds m p q hs hold hc hp hq hpq hname _ ih =>
    have hold' : old ≠ some .commentary := by
      rcases hold with rfl | rfl
      · simp
      · simpa using hc
    have hpre : p <+: m.channel.opening := ⟨q, hpq.symm⟩
    have hmsg : ¬ messageToken <:+: p := by
      intro h
      have := h.trans hpre.isInfix
      revert this
      cases m.channel <;> decide
    have hhead : p.head? = some '<' := by
      obtain ⟨t, ht, -⟩ := opening_cons m.channel
      obtain ⟨y, p, rfl⟩ := List.exists_cons_of_ne_nil hp
      rw [ht] at hpre
      rw [(List.cons_prefix_cons.1 hpre).1]
      rfl
    rw [run_quiet (hs.step hm hold' hname hmsg hhead (fun _ hx => by
      rw [← List.append_assoc]
      exact channelOf_partial hx hpq hq))]
    obtain ⟨hr, c', hcont, hcar⟩ := ih ⟨old, false⟩ (prev ++ (front ++ p)) ⟨rfl, hc, p, hp, hpq,
      hold.symm.imp_right (fun hnone => ⟨hnone, prev ++ front, by simp, hs.hidden hm hnone⟩)⟩
    refine ⟨by rw [hs.reasoning, hr, spoken_cons]; rfl, ?_⟩
    rw [hcont]
    exact hs.content (hs.bare hold') (.spoken m hc hcar)
  | @spelled m ms ds d q hq _ ih =>
    obtain ⟨hin, hc, p, hp, hpq, hold⟩ := hm
    have hno := naming_no_open hp hpq
    have hd : '<' ∉ d := fun h => hno (by simp [h])
    rw [← List.append_assoc] at hpq
    rw [run_quiet (step_spelled (switchIn_none (token_absent channel_token hd))
      (token_absent message_token hd) hc hin hpq hq hold)]
    refine ih s (prev ++ d) ⟨hin, hc, p ++ d, by simp [hp], hpq, hold.imp_right ?_⟩
    rintro ⟨hnone, x, rfl, hx⟩
    exact ⟨hnone, x, by simp, hx⟩
  | @named m ms ds q h rest hh _ ih =>
    obtain ⟨hin, hc, p, hp, hpq, hold⟩ := hm
    have hblank := m.header_blank hc
    rw [hh] at hblank
    have hh' : '<' ∉ h := fun hmem => blank_no_open hblank (by simp [hmem])
    have hd : '<' ∉ q ++ h := by simp [naming_no_open hp hpq, hh']
    rw [run_quiet (step_outside (switchIn_none (token_absent channel_token hd))
      (located_opening hin hpq (token_absent channel_token hh') hold) (by simpa using hc)
      (token_absent message_token hd))]
    exact ih _ _ ⟨rfl, hc, fun x hx => hblank x (by simp [hx])⟩
  | @namedMessage m ms ds q _ ih =>
    obtain ⟨hin, hc, p, hp, hpq, hold⟩ := hm
    have hh := blank_no_open (m.header_blank hc)
    have htok : ¬ channelToken <:+: messageToken := by decide
    rw [List.append_assoc]
    have hu : ¬ channelToken <:+: m.header ++ messageToken := by
      rwa [token_infix_append channel_token hh]
    rw [run_quiet (step_message (switchIn_none (by
      rwa [token_infix_append channel_token (naming_no_open hp hpq)]))
      (located_opening hin hpq hu hold) hc ⟨q ++ m.header, [], by simp⟩)]
    exact ih _ _ ⟨rfl, hc, List.infix_rfl⟩
  | @header m ms ds d rest _ ih =>
    obtain ⟨rfl, hc, hblank⟩ := hm
    have hd : '<' ∉ d := fun h => blank_no_open hblank (by simp [h])
    rw [run_quiet (step_outside (switchIn_none (token_absent channel_token hd)) (located_some rfl _)
      (by simpa using hc) (token_absent message_token hd))]
    exact ih _ _ ⟨rfl, hc, fun x hx => hblank x (by simp [hx])⟩
  | @message m ms ds rest _ ih =>
    obtain ⟨rfl, hc, hblank⟩ := hm
    rw [run_quiet (step_message (switchIn_none (by
      rw [token_infix_append channel_token (blank_no_open hblank)]; decide)) (located_some rfl _) hc
      (List.suffix_append _ _).isInfix)]
    exact ih _ _ ⟨rfl, hc, List.infix_rfl⟩
  | @body m ms ds d rest hlike _ ih =>
    obtain ⟨rfl, hc, hbody⟩ := hm
    have hd : ∀ tok, Token tok → ¬ tok <:+: d := by
      intro tok htok hin
      exact token_not_body m htok (hin.trans ((List.prefix_append d rest).isInfix.trans hbody))
    obtain ⟨out, hstep, hr, hcont⟩ := @step_body _ prev _ _ hd hlike rfl hc
    obtain ⟨ihr, c', ihc, hcar⟩ := ih ⟨some m.channel, true⟩ (prev ++ d)
      ⟨rfl, hc, (List.suffix_append d rest).isInfix.trans hbody⟩
    rw [feed_cons, hstep, reasoningOf_append, contentOf_append, ihr, ihc]
    simp only [reasoningOf, contentOf, List.flatMap_cons, List.flatMap_nil, List.append_nil, hr, hcont]
    refine ⟨?_, c', ?_, hcar⟩
    · simp only [reasoningFrom]
      split <;> simp
    · split <;> simp
  | @commentary stage old front ms ds m more p rest hs hc hp ho hname _ ih =>
    have hin : channelToken <:+: front ++ p := by
      have hopen : channelToken <+: m.channel.opening := List.prefix_append _ _
      exact (hopen.trans ho).isInfix.trans (List.suffix_append _ _).isInfix
    obtain ⟨ihr, b, rest', c', hrest, ihc, hsuf, hcar⟩ := ih ⟨some .commentary, false⟩ (prev ++ (front ++ p)) rfl
    rw [feed_cons, step_switch_raw ((switchIn_some hin).trans hname), reasoningOf_append, contentOf_append,
      ihr, ihc, hs.reasoning, spoken_commentary (by decide) hc]
    refine ⟨by simp [reasoningOf, reasoningFrom], ?_⟩
    rw [hrest, ← List.append_assoc] at hp
    have hblock := fun a before ha => @carries_block _ _ _ _ _ _ a before hc hp hsuf hcar ha
    cases hs with
    | between old gap =>
      have := hblock front front List.suffix_rfl
      simpa [contentOf, ContentFrom] using this
    | body m' => exact ⟨m'.margin ++ p ++ b ++ c', by simp [contentOf], by simpa using hblock _ _ List.suffix_rfl⟩
    | raw m' rest =>
      exact ⟨front, [], p ++ b ++ c', by simp, by simp [contentOf], List.nil_suffix,
        by simpa using hblock [] [] List.suffix_rfl⟩
  | @raw m ms ds d rest hd _ ih =>
    obtain rfl : s = ⟨some .commentary, false⟩ := hm
    have hstep : streamStep (⟨some .commentary, false⟩, prev) d =
        ((⟨some .commentary, false⟩, prev ++ d), [{ content := some d }]) := by
      rcases hd with hd | hd
      · exact step_raw hd rfl
      · exact step_switch_raw hd
    obtain ⟨ihr, b, rest', c', hrest, ihc, hsuf, hcar⟩ := ih ⟨some .commentary, false⟩ (prev ++ d) rfl
    rw [feed_cons, hstep, reasoningOf_append, contentOf_append, ihr, ihc]
    exact ⟨by simp [reasoningOf, reasoningFrom], d ++ b, rest', c', by simp [hrest], by simp [contentOf], hsuf, hcar⟩

end FusionMlx.Reasoning.Harmony
