import FusionMlx.Reasoning.HarmonyStream

/-!
# Both ways of reading a Harmony text

The regular expressions find the analysis messages and the final one, and the
stream says the same texts when the deltas leave the tokens visible.
-/
namespace FusionMlx.Reasoning.Harmony

open JsonText (Text)
open PyText TextSearch

variable {β : Type} {lead t u : Text} {c ch : Channel} {m : Message} {ms : List Message}

theorem matchOpening_none {name : Text} (h : ¬ channelToken <+: t) : matchOpening name t = none := by
  rw [matchOpening, if_neg]
  intro hp
  exact h ((List.prefix_append _ _).trans (List.isPrefixOf_iff_prefix.1 hp))

theorem matchOpening_other (hne : ch ≠ c) : matchOpening ch.name (c.opening ++ t) = none := by
  rw [matchOpening, if_neg]
  rw [List.isPrefixOf_iff_prefix, Channel.opening, List.append_assoc, List.prefix_append_right_inj]
  cases ch <;> cases c <;> first | exact absurd rfl hne | simp [Channel.name]

theorem matchOpening_own (hh : Blank u) : matchOpening c.name (c.opening ++ (u ++ (messageToken ++ t))) = some t := by
  have hstrip : lstrip (u ++ (messageToken ++ t)) = messageToken ++ t := by
    rw [lstrip_blank_append hh]
    exact lstrip_eq_self (by decide) _
  rw [matchOpening, Channel.opening, if_pos (List.isPrefixOf_iff_prefix.2 (List.prefix_append _ _)),
    List.drop_left, hstrip]
  simp

/-- The part of a text where no opening starts. -/
theorem tail_hidden (m : Message) : ¬ channelToken <:+: m.tail := by
  have hsharp := (token_parts channel_token).1
  have hmargin : ¬ channelToken <:+: m.margin := margin_free m.stop m.gap_free (.inl rfl)
  have hhead : ∀ s : Stop, s.token.head? = some '<' := by
    intro s
    cases s <;> rfl
  have hbody : ¬ channelToken <:+: m.body ++ m.margin := by
    refine hsharp.not_infix_append (m.body_free _ (by simp)) hmargin ?_
    have := hhead m.stop
    cases hs : m.stop.token with
    | nil => rw [hs] at this; cases this
    | cons x l => rw [hs] at this; simpa [Message.margin, hs, channelToken] using this
  have hmsg : ¬ channelToken <:+: messageToken ++ (m.body ++ m.margin) := by
    rwa [token_infix_token channel_token message_token (by decide)]
  have := hsharp.not_infix_append (m.header_free _ (by simp)) hmsg rfl
  simpa [Message.tail] using this

/-- The text behind the first letter of an opening, up to the next one. -/
theorem behind_hidden (m : Message) : ∃ l, m.text = '<' :: l ∧ ¬ channelToken <:+: l := by
  obtain ⟨o, ho, hno⟩ := opening_cons m.channel
  refine ⟨o ++ m.tail, by rw [Message.text, ho]; rfl, ?_⟩
  rw [token_infix_append channel_token hno]
  exact tail_hidden m

/-- A text of messages is empty or starts with a token. -/
theorem texts_head (ms : List Message) :
    ms.flatMap Message.text = [] ∨ (ms.flatMap Message.text).head? = channelToken.head? := by
  cases ms with
  | nil => exact .inl rfl
  | cons m ms =>
    obtain ⟨l, hl, -⟩ := behind_hidden m
    exact .inr (by rw [List.flatMap_cons, hl]; rfl)

theorem hidden_skip {pattern : Text → Option β} (hp : ∀ t, ¬ channelToken <+: t → pattern t = none)
    (ht : ¬ channelToken <:+: t) (ms : List Message) :
    ∀ a₁ a₂, t = a₁ ++ a₂ → a₂ ≠ [] → pattern (a₂ ++ ms.flatMap Message.text) = none := by
  rintro a₁ a₂ rfl hne
  refine hp _ ((token_parts channel_token).1.not_prefix_append (fun h => ht ?_) hne (texts_head ms))
  exact List.infix_append_of_infix_right h

theorem analysisPattern_takes : Takes analysisPattern := by
  intro t x rest h
  obtain ⟨r, hr, hpart⟩ := Option.bind_eq_some_iff.1 h
  have hlt := partition_length (by decide) hpart
  have hle : r.length ≤ t.length := by
    unfold matchOpening at hr
    split at hr
    · dsimp only at hr
      split at hr
      · obtain rfl := Option.some.inj hr
        have := (List.dropWhile_suffix isSpace (l := t.drop (channelToken ++ Channel.analysis.name).length)).length_le
        rw [List.length_drop] at this ⊢
        rw [lstrip]
        omega
      · cases hr
    · cases hr
  omega

theorem findAll_analysis (hstop : ∀ m ∈ ms, m.channel = .analysis → m.stop = .ended) :
    findAll analysisPattern (ms.flatMap Message.text) =
      (ms.filter (fun m => m.channel = .analysis)).map Message.body := by
  have hp : ∀ t, ¬ channelToken <+: t → analysisPattern t = none := by
    intro t ht
    rw [analysisPattern, matchOpening_none ht]
    rfl
  induction ms with
  | nil => rfl
  | cons m ms ih =>
    have ih := ih (fun m' hm' => hstop m' (by simp [hm']))
    rw [List.flatMap_cons]
    by_cases hc : m.channel = .analysis
    · have hhit : analysisPattern (m.text ++ ms.flatMap Message.text) =
          some (m.body, m.gap ++ ms.flatMap Message.text) := by
        have hopen := matchOpening_own (c := .analysis) (u := m.header)
          (t := m.body ++ endToken ++ (m.gap ++ ms.flatMap Message.text)) (m.header_blank (by simp [hc]))
        have hbody : ¬ endToken <:+: m.body := m.body_free _ (by simp)
        rw [analysisPattern, show m.text ++ ms.flatMap Message.text = Channel.analysis.opening ++
          (m.header ++ (messageToken ++ (m.body ++ endToken ++ (m.gap ++ ms.flatMap Message.text)))) by
            simp [Message.text, Message.tail, Message.margin, hc, hstop m (by simp) hc, Stop.token], hopen]
        exact (@token_parts endToken (by simp [Token])).1.partition_append hbody
      rw [findAll_some analysisPattern_takes hhit,
        findAll_append (hidden_skip hp (m.gap_free _ (by simp)) ms), ih]
      simp [hc]
    · obtain ⟨l, hl, hhidden⟩ := behind_hidden m
      have hmiss : analysisPattern (m.text ++ ms.flatMap Message.text) = none := by
        rw [analysisPattern, Message.text, List.append_assoc, matchOpening_other (Ne.symm hc)]
        rfl
      rw [hl, List.cons_append] at hmiss ⊢
      rw [findAll_none _ hmiss, findAll_append (hidden_skip hp hhidden ms), ih]
      simp [hc]

def finalBy (f : Text → Option Text) (t : Text) : Option Text :=
  (matchOpening Channel.final.name t).bind f

theorem finalBy_hidden (f : Text → Option Text) (h : ¬ channelToken <+: t) : finalBy f t = none := by
  rw [finalBy, matchOpening_none h]
  rfl

/-- Messages of other channels are passed over. -/
theorem search_others (f : Text → Option Text) {l : List Message} (hl : ∀ m ∈ l, m.channel ≠ .final)
    (ms : List Message) :
    search (finalBy f) ((l ++ ms).flatMap Message.text) = search (finalBy f) (ms.flatMap Message.text) := by
  induction l with
  | nil => rfl
  | cons m l ih =>
    obtain ⟨t, ht, hhidden⟩ := behind_hidden m
    have hmiss : finalBy f (m.text ++ (l ++ ms).flatMap Message.text) = none := by
      rw [finalBy, Message.text, List.append_assoc, matchOpening_other (Ne.symm (hl m (by simp)))]
      rfl
    rw [List.cons_append, List.flatMap_cons]
    rw [ht, List.cons_append] at hmiss ⊢
    rw [search, hmiss]
    dsimp only
    rw [search_append (hidden_skip (fun t h => finalBy_hidden f h) hhidden (l ++ ms))]
    exact ih (fun m' hm' => hl m' (by simp [hm']))

theorem finalBy_own (f : Text → Option Text) (hc : m.channel = .final) :
    finalBy f (m.text ++ t) = f (m.body ++ m.stop.token ++ (m.gap ++ t)) := by
  rw [finalBy, show m.text ++ t = Channel.final.opening ++
    (m.header ++ (messageToken ++ (m.body ++ m.stop.token ++ (m.gap ++ t)))) by
      simp [Message.text, Message.tail, Message.margin, hc], matchOpening_own (m.header_blank (by simp [hc]))]
  rfl

/-- The final message is found in the text behind its opening or nowhere. -/
theorem search_final (f : Text → Option Text) {pre post : List Message} (hpre : ∀ m ∈ pre, m.channel ≠ .final)
    (hpost : ∀ m ∈ post, m.channel ≠ .final) (hc : m.channel = .final) :
    search (finalBy f) ((pre ++ m :: post).flatMap Message.text) =
      f (m.body ++ m.stop.token ++ (m.gap ++ post.flatMap Message.text)) := by
  rw [search_others f hpre, List.flatMap_cons]
  cases hf : finalBy f (m.text ++ post.flatMap Message.text) with
  | some x =>
    rw [search_some hf, ← finalBy_own f hc, hf]
  | none =>
    obtain ⟨t, ht, hhidden⟩ := behind_hidden m
    have hown := finalBy_own f hc (t := post.flatMap Message.text)
    rw [hf] at hown
    rw [← hown]
    rw [ht, List.cons_append] at hf ⊢
    rw [search, hf]
    dsimp only
    rw [search_append (hidden_skip (fun t h => finalBy_hidden f h) hhidden post)]
    have hnone := search_others f hpost []
    rw [List.append_nil] at hnone
    rw [hnone]
    exact finalBy_hidden f (by decide)

/-- Messages as Harmony writes them: analysis ends with the end token, and so does a final message
that is the last, or it ends with the return token. -/
structure WellFormed (ms : List Message) : Prop where
  analysis : ∀ m ∈ ms, m.channel = .analysis → m.stop = .ended
  final : ∀ pre m post, ms = pre ++ m :: post → m.channel = .final →
    (∀ m' ∈ post, m'.channel ≠ .final) ∧ (m.stop = .returned ∨ m.stop = .ended ∧ post = [])

theorem final_content (h : WellFormed ms) :
    ((search finalPatternReturn (ms.flatMap Message.text)).or
        (search finalPatternEnd (ms.flatMap Message.text))) =
      (ms.find? (fun m => m.channel = .final)).map Message.body := by
  have hreturn : finalPatternReturn = finalBy (fun rest => (partition returnToken rest).map Prod.fst) := rfl
  have hend : finalPatternEnd = finalBy (fun rest => (rpartition endToken rest).map Prod.fst) := rfl
  rw [hreturn, hend]
  cases hfind : ms.find? (fun m => m.channel = .final) with
  | none =>
    have hno : ∀ m ∈ ms, m.channel ≠ .final := by simpa using hfind
    have hskip := fun f => search_others f hno []
    simp only [List.append_nil] at hskip
    rw [hskip, hskip]
    rfl
  | some m =>
    obtain ⟨hc, pre, post, rfl, hpre⟩ := List.find?_eq_some_iff_append.1 hfind
    have hc : m.channel = .final := by simpa using hc
    have hpre : ∀ m' ∈ pre, m'.channel ≠ .final := by
      intro m' hm'
      simpa using hpre m' hm'
    obtain ⟨hpost, hstop⟩ := h.final pre m post rfl hc
    rw [search_final _ hpre hpost hc, search_final _ hpre hpost hc]
    have hbody : ¬ returnToken <:+: m.body := m.body_free _ (by simp)
    have hret := @token_parts returnToken (by simp [Token])
    have hend := @token_parts endToken (by simp [Token])
    rcases hstop with hstop | ⟨hstop, rfl⟩
    · rw [hstop, Stop.token, hret.1.partition_append hbody]
      rfl
    · have hnone : partition returnToken (m.body ++ endToken ++ (m.gap ++ [])) = none := by
        rw [partition_none (by decide), List.append_assoc, List.append_nil]
        refine hret.1.not_infix_append hbody ?_ rfl
        rw [token_infix_token (by simp [Token]) (by simp [Token]) (by decide)]
        exact m.gap_free _ (by simp)
      have hgap : ¬ endToken <:+: m.gap ++ [] := by
        rw [List.append_nil]
        exact m.gap_free _ (by simp)
      rw [hstop, Stop.token, List.flatMap_nil, hnone, hend.2.1.rpartition_append hgap]
      rfl

/-- `extract_reasoning` gives the analysis texts and the final text, stripped. -/
theorem extractReasoning_text (hlead : Free lead) (h : WellFormed ms) :
    extractReasoning (textOf lead ms) =
      (let r := ['\n'].intercalate ((ms.filter (fun m => m.channel = .analysis)).map (fun m => strip m.body))
        if r = [] then none else some r,
        (ms.find? (fun m => m.channel = .final)).map (fun m => strip m.body)) := by
  have hhidden : ¬ channelToken <:+: lead := hlead _ (by simp)
  have hanalysis : ∀ t, ¬ channelToken <+: t → analysisPattern t = none := by
    intro t ht
    rw [analysisPattern, matchOpening_none ht]
    rfl
  have hfinal := fun f => search_append (m := finalBy f) (hidden_skip (fun t ht => finalBy_hidden f ht) hhidden ms)
  have hcontent := final_content h
  rw [show finalPatternReturn = finalBy (fun rest => (partition returnToken rest).map Prod.fst) from rfl,
    show finalPatternEnd = finalBy (fun rest => (rpartition endToken rest).map Prod.fst) from rfl,
    ← hfinal, ← hfinal] at hcontent
  have hfind := (findAll_append (hidden_skip hanalysis hhidden ms)).trans (findAll_analysis h.analysis)
  unfold extractReasoning textOf
  dsimp only
  rw [hfind, show finalPatternReturn = finalBy (fun rest => (partition returnToken rest).map Prod.fst) from rfl,
    show finalPatternEnd = finalBy (fun rest => (rpartition endToken rest).map Prod.fst) from rfl, hcontent,
    List.map_map, Option.map_map]
  rfl

/-- Cut with its tokens visible, a text is streamed as its analysis texts and its final text, with
commentary as it is in between, and read whole as the same texts, stripped. -/
theorem stream_follows (lead : Text) (hlead : Free lead) (ms : List Message) (deltas : List Text)
    (h : Cut (.between none lead) ms deltas) :
    deltas.flatten = textOf lead ms ∧
      reasoningOf (stream deltas).2 = spoken .analysis ms ∧
      Carries lead ms (contentOf (stream deltas).2) ∧
      ((∀ m ∈ ms, m.channel ≠ .commentary) → contentOf (stream deltas).2 = spoken .final ms) ∧
      (WellFormed ms → extractReasoning deltas.flatten =
        (let r := ['\n'].intercalate ((ms.filter (fun m => m.channel = .analysis)).map (fun m => strip m.body))
          if r = [] then none else some r,
          (ms.find? (fun m => m.channel = .final)).map (fun m => strip m.body))) := by
  have htext : deltas.flatten = textOf lead ms := h.flatten
  obtain ⟨hr, hc⟩ := cut_run h {} [] ⟨rfl, by simp, hlead, fun _ => hlead _ (by simp)⟩
  exact ⟨htext, hr, hc, hc.eq_final, fun hwf => by rw [htext]; exact extractReasoning_text hlead hwf⟩

def oneLetter (c : Channel) (stop : Stop) : Message where
  channel := c
  header := []
  body := ['a']
  stop := stop
  gap := []
  header_blank := fun _ => .nil
  header_free := by unfold Free; decide
  body_free := by unfold Free; decide
  body_start := by decide
  gap_free := nil_free

theorem stream_follows_letters :
    reasoningOf (stream [channelToken, Channel.analysis.name, messageToken, ['a'], endToken,
      Channel.final.opening, messageToken, ['a'], returnToken]).2 = ['a'] :=
  (stream_follows [] (by unfold Free; decide) [oneLetter .analysis .ended, oneLetter .final .returned] _
    (.spelling (oneLetter .analysis .ended) channelToken Channel.analysis.name (.between none []) (.inl rfl)
      (by decide) (by decide) (by decide) rfl (by decide)
      (.named Channel.analysis.name [] [] rfl
      (.message []
      (.body ['a'] [] (by decide)
      (.stop [] [] rfl
      (.opening (oneLetter .final .returned) [] [] (.between _ []) trivial (by decide) rfl (by decide)
      (.message []
      (.body ['a'] [] (by decide)
      (.stop [] [] rfl
      (.done (.between _ [])))))))))))).2.1

/-- Commentary is streamed as content, and with each token in a delta of its own the second channel
is missed. -/
theorem channels_differ :
    contentOf (stream [(oneLetter .commentary .called).text]).2 ≠ spoken .final [oneLetter .commentary .called] ∧
      reasoningOf (stream [channelToken, Channel.analysis.name, messageToken, ['a'], endToken,
          channelToken, Channel.final.name, messageToken, ['a'], returnToken]).2 ≠
        spoken .analysis [oneLetter .analysis .ended, oneLetter .final .returned] := by
  decide +kernel

end FusionMlx.Reasoning.Harmony
