import FusionMlx.ToolParsers.HarmonyToolText

/-!
# The streamed calls

Every delta that completes a call tells all calls so far, so each is told once
exactly when one delta completes them all.
-/
namespace FusionMlx.ToolParsers.Harmony

open JsonText TextSearch Reasoning.Harmony

variable {isAlnum : Char → Bool} {dumps str : Json → Text} {t u before cur prev lead name : Text} {m : Message}
  {ms : List Message} {l : List (Text × Text)} {ds : List Text}

theorem call_token : Token callToken := by simp [Token]

/-- A message up to its terminator has no call token but the terminator. -/
theorem core_split (hbefore : Free before) (m : Message) :
    ∃ a, before ++ core m = a ++ m.stop.token ∧ ¬ callToken <:+: a := by
  have hsharp := (token_parts call_token).1
  refine ⟨before ++ (m.channel.opening ++ (m.header ++ (messageToken ++ m.body))), by simp [core], ?_⟩
  have hmessage : ¬ callToken <:+: messageToken ++ m.body := by
    rw [token_infix_token call_token message_token (by decide)]
    exact token_not_body m call_token
  have hheader : ¬ callToken <:+: m.header ++ (messageToken ++ m.body) :=
    hsharp.not_infix_append (m.header_free _ (by simp)) hmessage rfl
  refine hsharp.not_infix_append (hbefore _ (by simp)) ?_ ?_
  · rw [Channel.opening, List.append_assoc, token_infix_token call_token channel_token (by decide),
      token_infix_append call_token m.channel.name_no_open]
    exact hheader
  · rfl

/-- Nor has it one with another terminator. -/
theorem stop_absent {a : Text} {s : Stop} (ha : ¬ callToken <:+: a) (hs : s ≠ .called) : ¬ callToken <:+: a ++ s.token := by
  refine (token_parts call_token).1.not_infix_append ha ?_ ?_
  · cases s with
    | called => exact absurd rfl hs
    | ended => decide
    | returned => decide
  · cases s <;> rfl

theorem count_core (hbefore : Free before) (m : Message) (u : Text) :
    count callToken (before ++ core m ++ u) = (if m.stop = .called then 1 else 0) + count callToken u := by
  have hsharp := (token_parts call_token).1
  obtain ⟨a, ha, hfree⟩ := core_split hbefore m
  rw [ha]
  by_cases hs : m.stop = .called
  · rw [if_pos hs, hs, Stop.token, hsharp.count_append hfree]
    omega
  · rw [if_neg hs, Nat.zero_add]
    refine hsharp.count_closed (token_parts call_token).2.1 (stop_absent hfree hs) ?_ u
    rw [List.getLast?_append]
    cases m.stop <;> rfl

/-- A beginning that does not reach the end of a message completes no call. -/
theorem count_short (hbefore : Free before) (h : cur <+: before ++ core m) (hne : cur ≠ before ++ core m) :
    count callToken cur = 0 := by
  have hsharp := (token_parts call_token).1
  obtain ⟨a, ha, hfree⟩ := core_split hbefore m
  rw [ha] at h hne
  refine count_none hsharp.ne_nil ?_
  by_cases hs : m.stop = .called
  · rw [hs, Stop.token] at h hne
    exact hsharp.not_infix_of_isPrefix hfree h hne
  · exact fun hin => stop_absent hfree hs (hin.trans h.isInfix)

/-- Without messages of a channel its opening does not come. -/
theorem opening_absent {c : Channel} (hbefore : ¬ channelToken <:+: before) (hms : ∀ m ∈ ms, m.channel ≠ c) :
    ¬ c.opening <:+: before ++ ms.flatMap Message.text := by
  have hsharp : Sharp c.opening := by
    obtain ⟨o, ho, hno⟩ := opening_cons c
    exact ⟨'<', o, ho, hno⟩
  have htoken : channelToken <:+: c.opening := (List.prefix_append _ _).isInfix
  induction ms generalizing before with
  | nil => exact fun hin => hbefore (htoken.trans (by simpa using hin))
  | cons m ms ih =>
    obtain ⟨x, hx, hhidden⟩ := behind_hidden m
    refine hsharp.not_infix_append (fun hin => hbefore (htoken.trans hin)) ?_ ?_
    · have hother : ¬ c.opening <+: '<' :: (x ++ ms.flatMap Message.text) := by
        rw [← List.cons_append, ← hx, Message.text, Channel.opening, Channel.opening, List.append_assoc,
          List.append_assoc, List.prefix_append_right_inj]
        have hne := hms m (by simp)
        cases hm : m.channel <;> cases c <;> first | exact absurd hm hne | simp [Channel.name]
      rw [List.flatMap_cons, hx, List.cons_append, List.infix_cons_iff, not_or]
      exact ⟨hother, ih hhidden (fun m' hm' => hms m' (by simp [hm']))⟩
    · obtain ⟨o, ho, -⟩ := opening_cons c
      rw [List.flatMap_cons, hx, ho]
      rfl

theorem Calls.channels (h : Calls isAlnum before ms []) : ∀ m ∈ ms, m.channel ≠ .commentary := by
  generalize hl : ([] : List (Text × Text)) = l at h
  induction h with
  | nil => simp
  | other m hc _ _ ih => simpa using ⟨hc, ih hl⟩
  | call m name _ _ _ _ _ => cases hl

/-- Without an opening of a call no call is found. -/
theorem findAll_absent (h : ¬ Channel.commentary.opening <:+: t) : findAll (commentaryBlock isAlnum) t = [] := by
  have := findAll_append (m := commentaryBlock isAlnum) (a := t) (t := []) (by
    rintro a₁ a₂ rfl -
    rw [List.append_nil]
    cases hx : commentaryBlock isAlnum a₂ with
    | none => rfl
    | some x =>
      obtain ⟨pre, v, rfl, -⟩ := commentaryBlock_some hx
      exact absurd ⟨a₁ ++ pre, v, by simp⟩ h)
  rw [List.append_nil] at this
  exact this

variable (isAlnum) in
def Begun (cur : Text) (l : List (Text × Text)) : Prop :=
  count callToken cur ≤ l.length ∧
    ∃ extra, findAll (commentaryBlock isAlnum) cur = l.take (count callToken cur) ++ extra ∧
      (l.length ≤ count callToken cur → extra = [])

/-- Before the first call is complete nothing is to be shown but that there are no others. -/
theorem Calls.begun_zero (h : Calls isAlnum before ms l) (hbefore : Free before)
    (hcur : cur <+: before ++ ms.flatMap Message.text) (hcount : count callToken cur = 0) : Begun isAlnum cur l := by
  refine ⟨by omega, findAll (commentaryBlock isAlnum) cur, by rw [hcount]; rfl, fun hl => ?_⟩
  rw [hcount, Nat.le_zero, List.length_eq_zero_iff] at hl
  subst hl
  exact findAll_absent (fun hin => opening_absent (hbefore _ (by simp)) h.channels (hin.trans hcur.isInfix))

theorem Calls.begun (h : Calls isAlnum before ms l) (hbefore : Free before)
    (hcur : cur <+: before ++ ms.flatMap Message.text) : Begun isAlnum cur l := by
  induction h generalizing cur with
  | nil before =>
    refine Calls.begun_zero (.nil before) hbefore hcur (count_none (token_parts call_token).1.ne_nil (fun hin => ?_))
    rw [List.flatMap_nil, List.append_nil] at hcur
    exact hbefore _ (by simp) (hin.trans hcur.isInfix)
  | @other before ms l m hc hs h ih =>
    have hsplit := hcur
    rw [List.flatMap_cons, text_eq, List.append_assoc, ← List.append_assoc] at hsplit
    rcases prefix_append_cases hsplit with ⟨hshort, hne⟩ | ⟨u, hu, rfl⟩
    · exact Calls.begun_zero (.other m hc hs h) hbefore hcur (count_short hbefore hshort hne)
    · rw [Begun, count_core hbefore, if_neg hs, Nat.zero_add, findAll_other (hbefore _ (by simp)) hc]
      exact ih m.gap_free hu
  | @call before ms l m name hc hs ha h ih =>
    have hsplit := hcur
    rw [List.flatMap_cons, text_eq, List.append_assoc, ← List.append_assoc] at hsplit
    rcases prefix_append_cases hsplit with ⟨hshort, hne⟩ | ⟨u, hu, rfl⟩
    · exact Calls.begun_zero (.call m name hc hs ha h) hbefore hcur (count_short hbefore hshort hne)
    · obtain ⟨hle, extra, hfind, hextra⟩ := ih m.gap_free hu
      rw [Begun, count_core hbefore, if_pos hs, findAll_call (hbefore _ (by simp)) hc hs ha, hfind, Nat.add_comm]
      refine ⟨Nat.succ_le_succ hle, extra, by simp, fun hl => hextra ?_⟩
      simpa using hl

def callDeltas (prev : Text) : List Text → Nat
  | [] => 0
  | d :: ds => (if count callToken prev < count callToken (prev ++ d) then 1 else 0) + callDeltas (prev ++ d) ds

def entry (i : Nat) (tc : ToolCall) : ToolCallDelta := { index := i, name := tc.name, arguments := tc.arguments }

def toldCalls (out : List (Text × Delta)) : List ToolCallDelta := out.flatMap (fun p => p.2.toolCalls)

theorem extractToolCalls_calls (t : Text) :
    (extractToolCalls isAlnum dumps str t).toolCalls = (findAll (commentaryBlock isAlnum) t).map (toolCallOf dumps str) ∧
      (extractToolCalls isAlnum dumps str t).toolsCalled = !(findAll (commentaryBlock isAlnum) t).isEmpty := by
  rw [extractToolCalls]
  cases findAll (commentaryBlock isAlnum) t <;> simp

theorem contentStreaming_quiet (prev cur : Text) : (contentStreaming isAlnum prev cur).toolCalls = [] := by
  unfold contentStreaming
  split
  · split <;> rfl
  · split
    · unfold emitSafeContent
      extract_lets
      split <;> rfl
    · rfl

theorem step_told (prev cur : Text) :
    (extractToolCallsStreaming isAlnum dumps str prev cur).toolCalls =
      if count callToken prev < count callToken cur then
        (extractToolCalls isAlnum dumps str cur).toolCalls.mapIdx entry
      else [] := by
  obtain ⟨hcalls, htools⟩ := @extractToolCalls_calls isAlnum dumps str cur
  unfold extractToolCallsStreaming
  dsimp only
  rw [hcalls, htools]
  by_cases hcount : count callToken prev < count callToken cur
  · rw [if_pos hcount]
    cases findAll (commentaryBlock isAlnum) cur with
    | nil => simp [contentStreaming_quiet]
    | cons x l =>
      rw [if_pos ⟨hcount, rfl⟩]
      rfl
  · rw [if_neg hcount, if_neg (fun h => hcount h.1)]
    exact contentStreaming_quiet prev cur

/-- The entries of an index in an enumerated list. -/
theorem filter_mapIdx {α β : Type} (index : β → Nat) {k : Nat} (f : Nat → α → β) (hf : ∀ i a, index (f i a) = k + i)
    (l : List α) (i : Nat) : (l.mapIdx f).filter (fun b => index b = k + i) = (l[i]?.map (f i)).toList := by
  induction l generalizing k f i with
  | nil => simp
  | cons a l ih =>
    have ih := ih (k := k + 1) (fun i => f (i + 1)) (fun i a => by rw [hf]; omega)
    rw [List.mapIdx_cons, List.filter_cons, hf]
    cases i with
    | zero =>
      have hnone : (l.mapIdx (fun i => f (i + 1))).filter (fun b => index b = k + 0) = [] := by
        rw [List.filter_eq_nil_iff]
        intro b hb
        obtain ⟨j, hj, rfl⟩ := List.mem_mapIdx.1 hb
        simp [hf]
      rw [hnone]
      simp
    | succ i =>
      rw [if_neg (by simp), List.getElem?_cons_succ, ← ih i]
      congr 1
      funext b
      simp only [decide_eq_decide]
      omega

theorem toldCalls_cons (prev d : Text) (ds : List Text) :
    toldCalls (stream isAlnum dumps str prev (d :: ds)) =
      (extractToolCallsStreaming isAlnum dumps str prev (prev ++ d)).toolCalls ++
        toldCalls (stream isAlnum dumps str (prev ++ d) ds) := by
  rw [stream, toldCalls, List.flatMap_cons]
  rfl

/-- All the calls are complete at the end. -/
theorem Calls.count_all (h : Calls isAlnum before ms l) (hbefore : Free before) :
    count callToken (before ++ ms.flatMap Message.text) = l.length := by
  induction h with
  | nil before =>
    rw [List.flatMap_nil, List.append_nil]
    exact count_none (token_parts call_token).1.ne_nil (hbefore _ (by simp))
  | other m hc hs h ih =>
    rw [List.flatMap_cons, text_eq, List.append_assoc, ← List.append_assoc, count_core hbefore, if_neg hs, ih m.gap_free]
    omega
  | call m name hc hs ha h ih =>
    rw [List.flatMap_cons, text_eq, List.append_assoc, ← List.append_assoc, count_core hbefore, if_pos hs, ih m.gap_free,
      List.length_cons]
    omega

/-- When no delta completes a call, none is complete at the end that was not before. -/
theorem callDeltas_zero (h : callDeltas prev ds = 0) :
    count callToken (prev ++ ds.flatten) ≤ count callToken prev := by
  induction ds generalizing prev with
  | nil => simp
  | cons d ds ih =>
    rw [callDeltas, Nat.add_eq_zero_iff] at h
    have hd : ¬ count callToken prev < count callToken (prev ++ d) := by
      intro hlt
      simp [hlt] at h
    have := ih h.2
    rw [List.flatten_cons, ← List.append_assoc]
    omega

theorem told_calls (h : Calls isAlnum lead ms l) (hlead : Free lead) (hcur : cur <+: textOf lead ms)
    (hall : l.length ≤ count callToken cur) :
    (extractToolCalls isAlnum dumps str cur).toolCalls = l.map (toolCallOf dumps str) := by
  obtain ⟨hle, extra, hfind, hextra⟩ := h.begun hlead hcur
  rw [(extractToolCalls_calls cur).1, hfind, hextra hall, List.append_nil, List.take_of_length_le hall]

/-- One delta that completes all calls tells each once. -/
theorem told_once (h : Calls isAlnum lead ms l) (hlead : Free lead) (htext : prev ++ ds.flatten = textOf lead ms)
    (hone : callDeltas prev ds ≤ 1) :
    toldCalls (stream isAlnum dumps str prev ds) =
      if count callToken prev < l.length then (l.map (toolCallOf dumps str)).mapIdx entry else [] := by
  have hall : count callToken (textOf lead ms) = l.length := h.count_all hlead
  induction ds generalizing prev with
  | nil =>
    rw [List.flatten_nil, List.append_nil] at htext
    rw [htext, hall, if_neg (lt_irrefl _)]
    rfl
  | cons d ds ih =>
    have hcur : prev ++ d <+: textOf lead ms := ⟨ds.flatten, by rw [← htext]; simp⟩
    have hmono := count_mono (token_parts call_token).1.ne_nil (List.prefix_append prev d)
    have hle := (h.begun hlead hcur).1
    rw [List.flatten_cons, ← List.append_assoc] at htext
    rw [callDeltas] at hone
    rw [toldCalls_cons, step_told, ih htext (by omega)]
    by_cases hcount : count callToken prev < count callToken (prev ++ d)
    · -- Nothing is completed behind this delta.
      rw [if_pos hcount] at hone ⊢
      have hend := @callDeltas_zero (prev ++ d) ds (by omega)
      rw [htext, hall] at hend
      rw [told_calls h hlead hcur hend, if_neg (by omega), if_pos (by omega), List.append_nil]
    · rw [if_neg hcount, List.nil_append]
      have heq : count callToken (prev ++ d) = count callToken prev := by omega
      rw [heq]

/-- The first call is told by every delta that completes a call. -/
theorem told_first (h : Calls isAlnum lead ms l) (hlead : Free lead) (htext : prev ++ ds.flatten <+: textOf lead ms) :
    ((toldCalls (stream isAlnum dumps str prev ds)).filter (fun e => e.index = 0)).length = callDeltas prev ds := by
  induction ds generalizing prev with
  | nil => rfl
  | cons d ds ih =>
    have hcur : prev ++ d <+: textOf lead ms := (by simp : prev ++ d <+: prev ++ (d :: ds).flatten).trans htext
    have ih := @ih (prev ++ d) (by simpa using htext)
    obtain ⟨hle, extra, hfind, -⟩ := h.begun hlead hcur
    rw [toldCalls_cons, List.filter_append, List.length_append, ih, callDeltas, step_told]
    congr 1
    split
    · rename_i hcount
      have hne : ((findAll (commentaryBlock isAlnum) (prev ++ d)).map (toolCallOf dumps str))[0]?.isSome := by
        rw [hfind]
        rw [Option.isSome_iff_ne_none, ne_eq, List.getElem?_eq_none_iff, List.length_map, List.length_append,
          List.length_take]
        omega
      rw [(extractToolCalls_calls _).1]
      have := filter_mapIdx (k := 0) (fun e : ToolCallDelta => e.index) entry (by simp [entry])
        ((findAll (commentaryBlock isAlnum) (prev ++ d)).map (toolCallOf dumps str)) 0
      rw [Nat.add_zero] at this
      rw [this]
      obtain ⟨tc, htc⟩ := Option.isSome_iff_exists.1 hne
      rw [htc]
      rfl
    · rfl

/-- Each call is told once, with its own index, exactly when at most one delta completes calls. -/
theorem told_iff (h : Calls isAlnum lead ms l) (hlead : Free lead) (htext : ds.flatten = textOf lead ms) :
    (∀ i, (toldCalls (stream isAlnum dumps str [] ds)).filter (fun e => e.index = i) =
        ((l.map (toolCallOf dumps str))[i]?.map (entry i)).toList) ↔ callDeltas [] ds ≤ 1 := by
  constructor
  · intro hall
    have hfirst := @told_first isAlnum dumps str [] _ _ _ ds h hlead
      (by rw [List.nil_append, htext])
    rw [← hfirst, hall]
    cases (l.map (toolCallOf dumps str))[0]? <;> simp
  · intro hone i
    rw [told_once h hlead (by rw [List.nil_append, htext]) hone]
    split
    · have := filter_mapIdx (k := 0) (fun e : ToolCallDelta => e.index) entry (by simp [entry])
        (l.map (toolCallOf dumps str)) i
      rw [Nat.zero_add] at this
      exact this
    · rename_i hlt
      have hstart : count callToken [] = 0 := rfl
      have hnil : l = [] := List.eq_nil_of_length_eq_zero (by omega)
      rw [hnil]
      rfl

end FusionMlx.ToolParsers.Harmony
