import FusionMlx.ToolParsers.MistralToolParser

/-!
# What the Mistral stream tells

Whatever the deltas, the content told is the text before the first marker, and
of a call of the new format each character of the arguments is told once.
-/
namespace FusionMlx.ToolParsers.Mistral

open JsonText PyText TextSearch Transducers

theorem botToken_sharp : Sharp botToken := ⟨'[', _, rfl, by decide⟩

variable {dumps str : Json → Text} {s : MistralToolParser} {prev cur d t head body : Text}

def sent (t : Text) : Text :=
  match partition botToken t with
  | none => safeContentPrefix t
  | some (head, _) => head

theorem streamOldFormat_content (s : MistralToolParser) (body : Text) (result : Delta) :
    (streamOldFormat dumps str s body result).2.content = result.content := by
  unfold streamOldFormat
  split
  · rfl
  · split
    · rfl
    · dsimp only
      split <;> rfl

theorem streamNewFormat_content (s : MistralToolParser) (body : Text) (result : Delta) :
    (streamNewFormat s body result).2.content = result.content := by
  unfold streamNewFormat
  dsimp only
  split <;> rfl

theorem streamBody_content (s : MistralToolParser) (body : Text) (result : Delta) :
    (streamBody dumps str s body result).2.content = result.content := by
  unfold streamBody
  split
  · rfl
  · exact streamOldFormat_content s body result
  · exact streamNewFormat_content s body result

/-- A delta's content is what it adds to the content told. -/
theorem sent_append (s : MistralToolParser) (prev d : Text) :
    sent prev ++ (extractToolCallsStreaming dumps str s prev (prev ++ d)).2.content = sent (prev ++ d) := by
  unfold extractToolCallsStreaming
  cases hcur : partition botToken (prev ++ d) with
  | none =>
    have hprev : partition botToken prev = none := by
      rw [partition_none botToken_sharp.ne_nil] at hcur ⊢
      exact fun h => hcur (List.infix_append_of_infix_left h)
    have hmono : safeContentPrefix prev <+: safeContentPrefix (prev ++ d) :=
      safePrefix_mono [botToken] (List.prefix_append prev d)
    simp only [sent, hcur, hprev, emitSafeContent]
    by_cases hle : (safeContentPrefix (prev ++ d)).length ≤ (safeContentPrefix prev).length
    · rw [if_pos hle, List.append_nil]
      exact hmono.eq_of_length_le hle
    · rw [if_neg hle]
      exact List.prefix_iff_eq_append.1 hmono
  | some r =>
    obtain ⟨head, body⟩ := r
    simp only [streamBody_content]
    cases hprev : partition botToken prev with
    | some r =>
      obtain ⟨head', body'⟩ := r
      rw [partition_append hprev] at hcur
      cases hcur
      simp [sent, hprev, contains, partition_append hprev]
    | none =>
      have hno : ¬ botToken <:+: prev := (partition_none botToken_sharp.ne_nil).1 hprev
      have hle := @safePrefix_le_partition _ _ _ _ _ _ ([botToken]) (by simp) hno
        (partition_some hcur ▸ List.prefix_append prev d)
      have hpre : safePrefix [botToken] prev <+: head :=
        List.prefix_of_prefix_length_le
          ((safePrefix_isPrefix [botToken] prev).trans (List.prefix_append prev d))
          (partition_some hcur ▸ by simp) hle
      simp only [sent, hprev, hcur, contains, safeContentPrefix, Option.isSome_none, if_false,
        Bool.false_eq_true]
      exact List.prefix_iff_eq_append.1 hpre

@[simp] theorem sent_nil : sent [] = [] := rfl

theorem stream_text (deltas : List Text) : (stream dumps str deltas).1.2 = deltas.flatten := by
  have h : ∀ s t, (feed (streamStep dumps str) (s, t) deltas).1.2 = t ++ deltas.flatten := by
    induction deltas with
    | nil => simp
    | cons d ds ih =>
      intro s t
      rw [feed_cons]
      exact (ih _ _).trans (by simp)
  exact h {} []

/-- All the content told and what is still held at the end are the text before the first marker. -/
theorem stream_content (deltas : List Text) :
    (stream dumps str deltas).2.flatMap Delta.content ++ flushHeldContent deltas.flatten =
      ((partition botToken deltas.flatten).map Prod.fst).getD deltas.flatten := by
  have hstep : ∀ (s : MistralToolParser × Text) (d : Text) (_ : List Text), True → True ∧
      sent s.2 ++ (streamStep dumps str s d).2.flatMap Delta.content =
        sent (streamStep dumps str s d).1.2 := by
    intro s d _ _
    simpa [streamStep] using sent_append s.1 s.2 d
  have h := (feed_account (fun _ _ => True) (fun s => sent s.2) Delta.content hstep ({}, []) deltas
    trivial).2
  rw [← stream, sent_nil, List.nil_append, stream_text] at h
  rw [h, sent, flushHeldContent, contains]
  cases hp : partition botToken deltas.flatten with
  | none => exact List.prefix_iff_eq_append.1 (safePrefix_isPrefix [botToken] _)
  | some r => simp

def names (i : Nat) (deltas : List Delta) : List Json :=
  ((deltas.flatMap Delta.toolCalls).filter (fun tc => tc.index = i)).filterMap ToolCallDelta.name

def arguments (i : Nat) (deltas : List Delta) : Text :=
  ((deltas.flatMap Delta.toolCalls).filter (fun tc => tc.index = i)).flatMap
    (fun tc => tc.arguments.getD [])

/-- Of entries made index by index those with one index are the ones made for it. -/
theorem filter_mapIdx {β γ : Type} (index : γ → Nat) (f : Nat → β → List γ) (k : Nat)
    (h : ∀ i b, ∀ x ∈ f i b, index x = i + k) (l : List β) (i : Nat) :
    (l.mapIdx f).flatten.filter (fun x => index x = i + k) = (l[i]?.map (f i)).getD [] := by
  induction l generalizing f k i with
  | nil => rfl
  | cons b l ih =>
    have hrest : ∀ i b, ∀ x ∈ f (i + 1) b, index x = i + (k + 1) := fun i b x hx => by
      have := h (i + 1) b x hx
      omega
    rw [List.mapIdx_cons, List.flatten_cons, List.filter_append]
    cases i with
    | zero =>
      have hhead : (f 0 b).filter (fun x => index x = 0 + k) = f 0 b :=
        List.filter_eq_self.2 (fun x hx => by simpa using h 0 b x hx)
      have htail : ((l.mapIdx fun i => f (i + 1)).flatten).filter (fun x => index x = 0 + k) = [] := by
        refine List.filter_eq_nil_iff.2 (fun x hx => ?_)
        obtain ⟨xs, hxs, hx⟩ := List.mem_flatten.1 hx
        obtain ⟨j, hj, rfl⟩ := List.mem_mapIdx.1 hxs
        have := hrest j _ x hx
        simp only [decide_eq_true_eq]
        omega
      rw [hhead, htail]
      simp
    | succ i =>
      have hhead : (f 0 b).filter (fun x => index x = i + 1 + k) = [] :=
        List.filter_eq_nil_iff.2 (fun x hx => by
          have := h 0 b x hx
          simp only [decide_eq_true_eq]
          omega)
      have := ih (fun i => f (i + 1)) (k + 1) hrest i
      rw [hhead, List.nil_append, show i + 1 + k = i + (k + 1) by omega, this]
      simp

namespace Segment

variable {seg : Segment} {ch : Char} {i : Nat}

/-- The books of a segment. -/
structure Sound (seg : Segment) : Prop where
  needs : seg.needsNameEmit = (seg.sawSeparator && !seg.nameEmitted)
  named : seg.nameEmitted = true → seg.sawSeparator = true
  told : seg.argsEmitted ≤ seg.argsBuffer.length
  bare : seg.sawSeparator = false → seg.argsBuffer = []

def toldNames (seg : Segment) : List Json := if seg.nameEmitted then [quoted seg.name] else []

def toldArgs (seg : Segment) : Text := seg.argsBuffer.take seg.argsEmitted

def shownNames (seg : Segment) : List Json := if seg.sawSeparator then [quoted seg.name] else []

theorem sound_empty : Sound {} := ⟨rfl, by simp, by simp, by simp⟩

theorem walk_sound (h : seg.Sound) (ch : Char) :
    (seg.walk ch).Sound ∧ (seg.walk ch).toldNames = seg.toldNames ∧
      (seg.walk ch).toldArgs = seg.toldArgs := by
  by_cases hsaw : seg.sawSeparator
  · have hargs : (seg.argsBuffer ++ [ch]).take seg.argsEmitted = seg.argsBuffer.take seg.argsEmitted :=
      List.take_append_of_le_length h.told
    have hlen : seg.argsEmitted ≤ (seg.argsBuffer ++ [ch]).length := by
      have := h.told
      rw [List.length_append]
      omega
    have hneeds : seg.needsNameEmit = (true && !seg.nameEmitted) := hsaw ▸ h.needs
    unfold walk
    simp only [hsaw, not_true, if_false]
    split
    · exact ⟨⟨hneeds, fun _ => rfl, hlen, by simp⟩, rfl, hargs⟩
    · split
      · exact ⟨⟨hneeds, fun _ => rfl, hlen, by simp⟩, rfl, hargs⟩
      · exact ⟨⟨hneeds, fun _ => rfl, hlen, by simp⟩, rfl, hargs⟩
  · have hsaw : seg.sawSeparator = false := by simpa using hsaw
    have hbuf := h.bare hsaw
    have hzero : seg.argsEmitted = 0 := by simpa [hbuf] using h.told
    have hname : seg.nameEmitted = false := by
      by_contra hne
      simp [h.named (by simpa using hne)] at hsaw
    have hneeds : seg.needsNameEmit = false := by simp [h.needs, hsaw]
    unfold walk
    simp only [hsaw, Bool.false_eq_true, not_false_eq_true, if_true]
    split
    · split
      · exact ⟨⟨by simp [hneeds], by simp [hname], by simp [hzero], fun _ => hbuf⟩, rfl, rfl⟩
      · exact ⟨⟨by simp [named, hneeds, hname], by simp [named], by simp [named, hzero],
          by simp [named]⟩, by simp [named, toldNames, hname], by simp [named, toldArgs]⟩
    · split
      · split
        · exact ⟨⟨by simp [hneeds], by simp [hname], by simp [hzero], fun _ => hbuf⟩, rfl, rfl⟩
        · exact ⟨⟨by simp [named, hneeds, hname], by simp [named], by simp [named, hzero],
            by simp [named]⟩, by simp [named, toldNames, hname], by simp [named, toldArgs, hzero]⟩
      · exact ⟨⟨by simp [hneeds], by simp [hname], by simp [hzero], fun _ => hbuf⟩, rfl, rfl⟩

/-- Everything is told. -/
structure Settled (seg : Segment) : Prop extends Sound seg where
  allNamed : seg.nameEmitted = seg.sawSeparator
  allTold : seg.argsEmitted = seg.argsBuffer.length

theorem settled_empty : Settled {} := ⟨sound_empty, rfl, rfl⟩

theorem Settled.toldNames (h : seg.Settled) : seg.toldNames = seg.shownNames := by
  rw [Segment.toldNames, shownNames, h.allNamed]

theorem Settled.toldArgs (h : seg.Settled) : seg.toldArgs = seg.argsBuffer := by
  rw [Segment.toldArgs, h.allTold, List.take_length]

theorem emit_index : ∀ tc ∈ (seg.emit i).2, tc.index = i := by
  unfold emit
  intro tc htc
  dsimp only at htc
  split at htc
  · simp_all
  · split at htc <;> simp_all

theorem emit_settled (h : seg.Sound) : (seg.emit i).1.Settled := by
  have hname : (seg.nameEmitted || seg.needsNameEmit) = seg.sawSeparator := by
    rw [h.needs]
    cases hn : seg.nameEmitted
    · simp
    · simp [h.named hn]
  have htold := h.told
  refine ⟨⟨?_, ?_, ?_, ?_⟩, ?_, ?_⟩
  · simp [emit, hname]
  · simp [emit, hname]
  · simp only [emit]
    split
    · exact le_refl _
    · exact htold
  · exact h.bare
  · exact hname
  · simp only [emit]
    split
    · rfl
    · rename_i hmore
      cases hs : seg.sawSeparator with
      | false => simpa [h.bare hs] using htold
      | true =>
        have : ¬ seg.argsEmitted < seg.argsBuffer.length := fun hlt => hmore (by simp [hname, hs, hlt])
        omega

theorem emit_names (h : seg.Sound) :
    seg.toldNames ++ (seg.emit i).2.filterMap ToolCallDelta.name = (seg.emit i).1.toldNames := by
  cases hneeds : seg.needsNameEmit with
  | true =>
    have hname : seg.nameEmitted = false := by
      have := h.needs
      rw [hneeds] at this
      simpa using (Bool.and_eq_true_iff.1 this.symm).2
    simp [emit, hneeds, hname, toldNames]
  | false =>
    have hnone : (seg.emit i).2.filterMap ToolCallDelta.name = [] := by
      simp only [emit, hneeds, Bool.or_false, Bool.false_eq_true, if_false]
      split <;> simp
    rw [hnone]
    simp [emit, hneeds, toldNames]

theorem emit_args :
    seg.toldArgs ++ (seg.emit i).2.flatMap (fun tc => tc.arguments.getD []) =
      (seg.emit i).1.toldArgs := by
  by_cases hmore : (seg.nameEmitted || seg.needsNameEmit) = true ∧
      seg.argsBuffer.length > seg.argsEmitted
  · have hsome : (seg.emit i).2.flatMap (fun tc => tc.arguments.getD []) =
        seg.argsBuffer.drop seg.argsEmitted := by
      simp only [emit, hmore, and_self, if_true]
      split <;> simp
    rw [hsome]
    simp only [emit, toldArgs, hmore, and_self, if_true]
    rw [List.take_append_drop, List.take_length]
  · have hnone : (seg.emit i).2.flatMap (fun tc => tc.arguments.getD []) = [] := by
      simp only [emit, hmore, if_false]
      split <;> simp
    rw [hnone]
    simp only [emit, toldArgs, hmore, if_false, List.append_nil]

def core (seg : Segment) : Segment :=
  { seg with nameEmitted := false, needsNameEmit := false, argsEmitted := 0 }

theorem walk_core (seg : Segment) (ch : Char) : (seg.walk ch).core = (seg.core.walk ch).core := by
  by_cases hsaw : seg.sawSeparator
  · by_cases hin : (seg.json.step ch).depth > 0 ∨ (seg.json.step ch).inString = true
    · simp [walk, core, hsaw, hin]
    · by_cases hstart : seg.argsStarted <;> simp [walk, core, hsaw, hin, hstart]
  · unfold walk
    rw [show seg.core.sawSeparator = seg.sawSeparator from rfl,
      show seg.core.nameBuffer = seg.nameBuffer from rfl, if_pos hsaw, if_pos hsaw]
    dsimp only
    by_cases htag : argsTag.isSuffixOf (seg.nameBuffer ++ [ch]) = true
    · rw [if_pos htag, if_pos htag]
      split <;> rfl
    · rw [if_neg htag, if_neg htag]
      by_cases hbrace : ch = '{'
      · rw [if_pos hbrace, if_pos hbrace]
        split <;> rfl
      · rw [if_neg hbrace, if_neg hbrace]
        rfl

end Segment

namespace MistralToolParser

def segment (s : MistralToolParser) (i : Nat) : Segment := s.toolSegments.getD i {}

def core (s : MistralToolParser) : MistralToolParser :=
  { toolSegments := s.toolSegments.map Segment.core, curSegIdx := s.curSegIdx, interBuffer := s.interBuffer }

theorem core_segment (s : MistralToolParser) (i : Nat) : s.core.segment i = (s.segment i).core := by
  simp only [segment, core, List.getD_eq_getElem?_getD, List.getElem?_map]
  cases s.toolSegments[i]? <;> rfl

end MistralToolParser

open MistralToolParser

theorem getD_append_replicate (l : List Segment) (n i : Nat) :
    (l ++ List.replicate n ({} : Segment)).getD i {} = l.getD i {} := by
  rw [List.getD_eq_getElem?_getD, List.getD_eq_getElem?_getD, List.getElem?_append]
  split
  · rfl
  · rename_i hlt
    rw [List.getElem?_eq_none (Nat.le_of_not_lt hlt), List.getElem?_replicate]
    split <;> rfl

/-- Where one character goes: to the segment that stands first in line, if it is still open. -/
theorem walkChar_segment (s : MistralToolParser) (ch : Char) (i : Nat) :
    (walkChar s ch).segment i =
      if i = s.curSegIdx ∧ (s.segment i).argsClosed = false then (s.segment i).walk ch
      else s.segment i := by
  have hget := getD_append_replicate s.toolSegments (s.curSegIdx + 1 - s.toolSegments.length)
  unfold walkChar
  simp only [hget]
  by_cases hclosed : (s.toolSegments.getD s.curSegIdx {}).argsClosed
  · rw [if_pos hclosed]
    have hnot : ¬ (i = s.curSegIdx ∧ (s.segment i).argsClosed = false) := by
      rintro ⟨rfl, h⟩
      rw [MistralToolParser.segment, hclosed] at h
      cases h
    rw [if_neg hnot]
    split <;> exact hget i
  · rw [if_neg hclosed]
    have hlen : s.curSegIdx < s.toolSegments.length + (s.curSegIdx + 1 - s.toolSegments.length) := by
      omega
    simp only [MistralToolParser.segment, List.getD_eq_getElem?_getD, List.getElem?_set]
    by_cases hi : s.curSegIdx = i
    · subst hi
      have hclosed' : (s.toolSegments[s.curSegIdx]?.getD {}).argsClosed = false := by
        rw [← List.getD_eq_getElem?_getD]
        simpa using hclosed
      simp [hclosed', hlen]
    · have := hget i
      rw [List.getD_eq_getElem?_getD, List.getD_eq_getElem?_getD] at this
      simp [hi, Ne.symm hi, this]

theorem walkChar_core (s : MistralToolParser) (ch : Char) : (walkChar s ch).core = (walkChar s.core ch).core := by
  have hmap : ∀ n, (s.toolSegments ++ List.replicate n ({} : Segment)).map Segment.core =
      s.toolSegments.map Segment.core ++ List.replicate n ({} : Segment) := by
    intro n
    rw [List.map_append, List.map_replicate]
    rfl
  have hidem : ∀ l : List Segment, (l.map Segment.core).map Segment.core = l.map Segment.core := by
    intro l
    rw [List.map_map]
    rfl
  have hseg : ∀ i, (s.core.toolSegments ++
      List.replicate (s.curSegIdx + 1 - s.toolSegments.length) ({} : Segment)).getD i {} =
        ((s.toolSegments ++ List.replicate (s.curSegIdx + 1 - s.toolSegments.length)
          ({} : Segment)).getD i {}).core := by
    intro i
    rw [getD_append_replicate, getD_append_replicate]
    exact core_segment s i
  unfold walkChar
  simp only [show s.core.curSegIdx = s.curSegIdx from rfl, show s.core.interBuffer = s.interBuffer from rfl,
    show s.core.toolSegments.length = s.toolSegments.length from List.length_map _, hseg]
  rw [show ∀ seg : Segment, seg.core.argsClosed = seg.argsClosed from fun _ => rfl]
  split
  · split <;>
    · simp only [MistralToolParser.core, hmap]
      rw [List.map_append, hidem, List.map_replicate]
      rfl
  · simp only [MistralToolParser.core, List.map_set, hmap]
    rw [List.map_append, hidem, List.map_replicate, ← Segment.walk_core]
    rfl

theorem foldl_walkChar_core (s : MistralToolParser) (t : Text) :
    (t.foldl walkChar s).core = (t.foldl walkChar s.core).core := by
  induction t generalizing s with
  | nil => simp [MistralToolParser.core, Function.comp_def, Segment.core]
  | cons ch t ih => rw [List.foldl_cons, List.foldl_cons, ih, walkChar_core, ← ih]

def track (body : Text) : MistralToolParser := body.foldl walkChar {}

structure Following (s : MistralToolParser) (walked : Text) : Prop where
  len : s.parsedBodyLen = walked.length
  core : s.core = (track walked).core
  settled : ∀ i, (s.segment i).Settled

theorem following_empty : Following {} [] := ⟨rfl, rfl, fun _ => Segment.settled_empty⟩

theorem foldl_walkChar_sound (h : ∀ i, (s.segment i).Sound) (t : Text) (i : Nat) :
    ((t.foldl walkChar s).segment i).Sound ∧
      ((t.foldl walkChar s).segment i).toldNames = (s.segment i).toldNames ∧
      ((t.foldl walkChar s).segment i).toldArgs = (s.segment i).toldArgs := by
  induction t generalizing s with
  | nil => exact ⟨h i, rfl, rfl⟩
  | cons ch t ih =>
    have hstep : ∀ j, ((walkChar s ch).segment j).Sound ∧
        ((walkChar s ch).segment j).toldNames = (s.segment j).toldNames ∧
        ((walkChar s ch).segment j).toldArgs = (s.segment j).toldArgs := by
      intro j
      rw [walkChar_segment]
      split
      · exact Segment.walk_sound (h j) ch
      · exact ⟨h j, rfl, rfl⟩
    obtain ⟨hsound, hnames, hargs⟩ := ih (fun j => (hstep j).1)
    exact ⟨hsound, hnames.trans (hstep i).2.1, hargs.trans (hstep i).2.2⟩

theorem foldl_walkChar_keeps (s : MistralToolParser) (t : Text) :
    (t.foldl walkChar s).parsedBodyLen = s.parsedBodyLen ∧
      (t.foldl walkChar s).streamFormat = s.streamFormat ∧
      (t.foldl walkChar s).streamOldEmitted = s.streamOldEmitted := by
  induction t generalizing s with
  | nil => exact ⟨rfl, rfl, rfl⟩
  | cons ch t ih =>
    have hstep : (walkChar s ch).parsedBodyLen = s.parsedBodyLen ∧
        (walkChar s ch).streamFormat = s.streamFormat ∧
        (walkChar s ch).streamOldEmitted = s.streamOldEmitted := by
      unfold walkChar
      dsimp only
      split
      · split <;> exact ⟨rfl, rfl, rfl⟩
      · exact ⟨rfl, rfl, rfl⟩
    obtain ⟨h₁, h₂, h₃⟩ := ih (walkChar s ch)
    exact ⟨h₁.trans hstep.1, h₂.trans hstep.2.1, h₃.trans hstep.2.2⟩

/-- What the end of a call makes of every segment. -/
theorem segment_mapIdx (s : MistralToolParser) (i : Nat) :
    ({ s with toolSegments := s.toolSegments.mapIdx (fun i seg => (seg.emit i).1) }
      : MistralToolParser).segment i = ((s.segment i).emit i).1 := by
  simp only [MistralToolParser.segment, List.getD_eq_getElem?_getD, List.getElem?_mapIdx]
  cases s.toolSegments[i]? <;> rfl

theorem entries_mapIdx (s : MistralToolParser) (i : Nat) :
    ((s.toolSegments.mapIdx (fun i seg => (seg.emit i).2)).flatten).filter (fun tc => tc.index = i) =
      ((s.segment i).emit i).2 := by
  have h := filter_mapIdx ToolCallDelta.index (fun i (seg : Segment) => (seg.emit i).2) 0
    (fun i seg tc htc => Segment.emit_index tc htc) s.toolSegments i
  rw [Nat.add_zero] at h
  rw [h, MistralToolParser.segment, List.getD_eq_getElem?_getD]
  cases s.toolSegments[i]? <;> rfl

/-- More of the body: what is told with it is what was found and not yet told. -/
theorem streamNewFormat_following {walked new : Text} (h : Following s walked) (result : Delta)
    (hresult : result.toolCalls = []) :
    Following (streamNewFormat s (walked ++ new) result).1 (walked ++ new) ∧ ∀ i,
      (s.segment i).toldNames ++ names i [(streamNewFormat s (walked ++ new) result).2] =
        ((streamNewFormat s (walked ++ new) result).1.segment i).toldNames ∧
      (s.segment i).toldArgs ++ arguments i [(streamNewFormat s (walked ++ new) result).2] =
        ((streamNewFormat s (walked ++ new) result).1.segment i).toldArgs := by
  have hnew : (walked ++ new).drop s.parsedBodyLen = new := by rw [h.len, List.drop_left]
  unfold streamNewFormat
  simp only [hnew]
  split
  · rename_i hnil
    subst hnil
    rw [List.append_nil]
    refine ⟨⟨rfl, h.core, h.settled⟩, fun i => ?_⟩
    simp only [names, arguments, List.flatMap_cons, List.flatMap_nil, hresult, List.append_nil,
      List.filter_nil, List.filterMap_nil]
    exact ⟨rfl, rfl⟩
  · obtain ⟨w, hw⟩ : ∃ w, w = new.foldl walkChar { s with parsedBodyLen := (walked ++ new).length } :=
      ⟨_, rfl⟩
    have hsound := foldl_walkChar_sound
      (s := { s with parsedBodyLen := (walked ++ new).length }) (fun i => (h.settled i).toSound) new
    have hkeeps := foldl_walkChar_keeps { s with parsedBodyLen := (walked ++ new).length } new
    have hcore : w.core = (track (walked ++ new)).core := by
      rw [hw, track, List.foldl_append, foldl_walkChar_core, foldl_walkChar_core (walked.foldl _ _)]
      exact congrArg (fun c => (new.foldl walkChar c).core) h.core
    rw [← hw] at hsound hkeeps ⊢
    refine ⟨⟨hkeeps.1, ?_, ?_⟩, ?_⟩
    · rw [← hcore]
      simp only [MistralToolParser.core]
      congr 1
      refine List.ext_getElem? (fun i => ?_)
      rw [List.getElem?_map, List.getElem?_mapIdx, List.getElem?_map]
      cases w.toolSegments[i]? <;> rfl
    · intro i
      rw [segment_mapIdx]
      exact Segment.emit_settled (hsound i).1
    · intro i
      rw [segment_mapIdx, ← Segment.emit_names (hsound i).1, ← Segment.emit_args]
      simp only [names, arguments, List.flatMap_cons, List.flatMap_nil, List.append_nil,
        entries_mapIdx, (hsound i).2.1, (hsound i).2.2]
      exact ⟨rfl, rfl⟩

theorem streamNewFormat_format (s : MistralToolParser) (body : Text) (result : Delta) :
    (streamNewFormat s body result).1.streamFormat = s.streamFormat := by
  unfold streamNewFormat
  dsimp only
  split
  · rfl
  · exact (foldl_walkChar_keeps _ _).2.1

def NewState (s : MistralToolParser) (prev : Text) : Prop :=
  match partition botToken prev with
  | none => s = {}
  | some (_, b) =>
    (lstrip b = [] ∧ s.streamFormat = none ∧ Following s []) ∨
      (lstrip b ≠ [] ∧ s.streamFormat = some .new ∧ Following s b)

/-- No beginning of the body looks like an array. -/
def Fresh (body : Text) : Prop := ∀ b, b <+: body → ∀ c t, lstrip b = c :: t → c ≠ '['

theorem newState_step {content : Text} (hT : partition botToken t = some (content, body))
    (hbody : Fresh body) (hprev : prev ++ d <+: t) (hs : NewState s prev) :
    NewState (streamStep dumps str (s, prev) d).1.1 (prev ++ d) ∧ ∀ i,
      (s.segment i).toldNames ++ names i (streamStep dumps str (s, prev) d).2 =
        ((streamStep dumps str (s, prev) d).1.1.segment i).toldNames ∧
      (s.segment i).toldArgs ++ arguments i (streamStep dumps str (s, prev) d).2 =
        ((streamStep dumps str (s, prev) d).1.1.segment i).toldArgs := by
  unfold streamStep extractToolCallsStreaming
  dsimp only
  cases hcur : partition botToken (prev ++ d) with
  | none =>
    have hnone : partition botToken prev = none := by
      rw [partition_none botToken_sharp.ne_nil] at hcur ⊢
      exact fun h => hcur (List.infix_append_of_infix_left h)
    rw [NewState, hnone] at hs
    rw [NewState, hcur]
    refine ⟨hs, fun i => ?_⟩
    have hempty : (emitSafeContent prev (prev ++ d)).toolCalls = [] := by
      unfold emitSafeContent
      dsimp only
      split <;> rfl
    simp [names, arguments, hempty]
  | some r =>
    obtain ⟨head, b⟩ := r
    dsimp only
    -- What was walked before and what comes on top of it.
    obtain ⟨walked, new, rfl, hfollow, hclass⟩ : ∃ walked new, b = walked ++ new ∧ Following s walked ∧
        ((lstrip b = [] ∧ walked = [] ∧ classify s b = none) ∨
          (lstrip b ≠ [] ∧ classify s b = some .new)) := by
      have hb : b <+: body := by
        obtain ⟨rest, hrest⟩ := hprev
        have := partition_append hcur rest
        rw [hrest, hT] at this
        cases this
        exact List.prefix_append b rest
      have hfirst : s.streamFormat = none → (lstrip b = [] ∧ classify s b = none) ∨
          (lstrip b ≠ [] ∧ classify s b = some .new) := by
        intro hnone
        unfold classify
        rw [hnone]
        cases hl : lstrip b with
        | nil => exact .inl ⟨rfl, rfl⟩
        | cons c t => exact .inr ⟨by simp, by simp [hbody b hb c t hl]⟩
      cases hp : partition botToken prev with
      | none =>
        rw [NewState, hp] at hs
        subst hs
        refine ⟨[], b, rfl, following_empty, ?_⟩
        exact (hfirst rfl).imp (fun h => ⟨h.1, rfl, h.2⟩) id
      | some r =>
        obtain ⟨head', b'⟩ := r
        rw [NewState, hp] at hs
        have happ := partition_append hp d
        rw [hcur] at happ
        cases happ
        rcases hs with ⟨hblank, hnone, hf⟩ | ⟨hsome, hnew, hf⟩
        · exact ⟨[], b' ++ d, rfl, hf, (hfirst hnone).imp (fun h => ⟨h.1, rfl, h.2⟩) id⟩
        · refine ⟨b', d, rfl, hf, .inr ⟨?_, ?_⟩⟩
          · intro hnil
            rw [lstrip, List.dropWhile_eq_nil_iff] at hnil
            exact hsome (List.dropWhile_eq_nil_iff.2 (fun x hx => hnil x (by simp [hx])))
          · rw [classify, hnew]
    have hfollow' : Following { s with streamFormat := classify s (walked ++ new) } walked :=
      ⟨hfollow.len, hfollow.core, hfollow.settled⟩
    rw [NewState, hcur]
    rcases hclass with ⟨hblank, rfl, hc⟩ | ⟨hsome, hc⟩
    · rw [hc] at hfollow' ⊢
      refine ⟨.inl ⟨hblank, rfl, hfollow'⟩, fun i => ?_⟩
      have hempty : ∀ c : Text, (if contains botToken prev = true then ({} : Delta) else { content := c }).toolCalls =
          [] := by
        intro c
        split <;> rfl
      simp only [streamBody, names, arguments, List.flatMap_cons, List.flatMap_nil, hempty]
      simp [MistralToolParser.segment]
    · rw [hc] at hfollow' ⊢
      have hempty : (if contains botToken prev = true then ({} : Delta)
          else { content := head.drop (safeContentPrefix prev).length }).toolCalls = [] := by
        split <;> rfl
      have h := @streamNewFormat_following _ _ new hfollow' _ hempty
      exact ⟨.inr ⟨hsome, streamNewFormat_format _ _ _, h.1⟩, h.2⟩

theorem names_flatMap (i : Nat) (events : List Delta) :
    names i events = events.flatMap (fun e => names i [e]) := by
  induction events with
  | nil => rfl
  | cons e es ih =>
    rw [List.flatMap_cons, ← ih]
    simp [names]

theorem arguments_flatMap (i : Nat) (events : List Delta) :
    arguments i events = events.flatMap (fun e => arguments i [e]) := by
  induction events with
  | nil => rfl
  | cons e es ih =>
    rw [List.flatMap_cons, ← ih]
    simp [arguments]

/-- By the end every segment the machine finds in the body is told, name and arguments. -/
theorem stream_new {deltas : List Text} {content : Text}
    (hT : partition botToken deltas.flatten = some (content, body)) (hbody : Fresh body)
    (hsome : lstrip body ≠ []) (i : Nat) :
    names i (stream dumps str deltas).2 = ((track body).segment i).shownNames ∧
      arguments i (stream dumps str deltas).2 = ((track body).segment i).argsBuffer := by
  have hstep : ∀ (s : MistralToolParser × Text) (d : Text) (ds : List Text),
      (NewState s.1 s.2 ∧ s.2 ++ (d :: ds).flatten = deltas.flatten) →
      (NewState (streamStep dumps str s d).1.1 (streamStep dumps str s d).1.2 ∧
        (streamStep dumps str s d).1.2 ++ ds.flatten = deltas.flatten) ∧ ∀ i,
      (s.1.segment i).toldNames ++ (streamStep dumps str s d).2.flatMap (fun e => names i [e]) =
        ((streamStep dumps str s d).1.1.segment i).toldNames ∧
      (s.1.segment i).toldArgs ++ (streamStep dumps str s d).2.flatMap (fun e => arguments i [e]) =
        ((streamStep dumps str s d).1.1.segment i).toldArgs := by
    rintro ⟨s, prev⟩ d ds ⟨hs, htext⟩
    rw [List.flatten_cons, ← List.append_assoc] at htext
    obtain ⟨hnext, htold⟩ := @newState_step dumps str _ _ _ _ _ _ hT hbody
      (htext ▸ List.prefix_append _ _) hs
    refine ⟨⟨hnext, htext⟩, fun i => ?_⟩
    rw [← names_flatMap, ← arguments_flatMap]
    exact htold i
  have hstart : NewState {} ([] : Text) ∧ ([] : Text) ++ deltas.flatten = deltas.flatten := ⟨rfl, rfl⟩
  have hnames := feed_account (fun s ds => NewState s.1 s.2 ∧ s.2 ++ ds.flatten = deltas.flatten)
    (fun s => (s.1.segment i).toldNames) (fun e => names i [e])
    (fun s d ds hs => ⟨(hstep s d ds hs).1, ((hstep s d ds hs).2 i).1⟩) ({}, []) deltas hstart
  have hargs := feed_account (fun s ds => NewState s.1 s.2 ∧ s.2 ++ ds.flatten = deltas.flatten)
    (fun s => (s.1.segment i).toldArgs) (fun e => arguments i [e])
    (fun s d ds hs => ⟨(hstep s d ds hs).1, ((hstep s d ds hs).2 i).2⟩) ({}, []) deltas hstart
  obtain ⟨⟨hend, htext⟩, hnames⟩ := hnames
  rw [List.flatten_nil, List.append_nil] at htext
  rw [NewState, htext, hT] at hend
  obtain ⟨hblank, -⟩ | ⟨-, -, hfollow⟩ := hend
  · exact absurd hblank hsome
  have hcore : ((feed (streamStep dumps str) ({}, []) deltas).1.1.segment i).core =
      ((track body).segment i).core := by
    rw [← core_segment, hfollow.core, core_segment]
  rw [names_flatMap, arguments_flatMap, stream]
  constructor
  · refine (Eq.trans (by rfl) hnames).trans ?_
    rw [(hfollow.settled i).toldNames]
    have h := congrArg Segment.shownNames hcore
    exact h
  · refine (Eq.trans (by rfl) hargs.2).trans ?_
    rw [(hfollow.settled i).toldArgs]
    have h := congrArg Segment.argsBuffer hcore
    exact h

end FusionMlx.ToolParsers.Mistral
