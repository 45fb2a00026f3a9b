import FusionMlx.Support.Occurrences

/-!
# Stop strings in the text of a request

Every token adds a segment to the detokenized text. The stop check looks at the
tail of the text, the finalization flushes what the detokenizer held back and
cuts the decoded text a second time.
-/
namespace FusionMlx.StopStrings

open TextSearch

abbrev Text := List Char

/-- A response of the batch generator: a token with the segment it adds, and what a finalization behind it would
flush; `capped` when its finish reason is "length". The end-of-sequence token adds nothing. -/
inductive Response where
  | token (segment flush : Text) (capped : Bool)
  | eos (flush : Text)

/-- A request that runs: `detokenizer.text`, what was streamed, and the think tag that is still to be sent. -/
structure Request where
  text : Text
  streamed : Text
  thinkTag : Option Text

structure Terminal where
  streamed : Text
  output : Text
  decoded : Text
  deriving DecidableEq

def stopCheck (full newText : Text) : List Text → Option Text
  | [] => none
  | ss :: rest =>
    let prevLen := full.length - newText.length
    if ss = [] then stopCheck full newText rest
    else
      match findFrom ss (prevLen + 1 - ss.length) full with
      | none => stopCheck full newText rest
      | some idx => some (if prevLen ≤ idx then newText.take (idx - prevLen) else [])

def firstFound (text : Text) : List Text → Option Nat
  | [] => none
  | ss :: rest => if ss = [] then firstFound text rest else (find ss text).or (firstFound text rest)

def trim (stops : List Text) (text : Text) : Text :=
  match firstFound text stops with
  | none => text
  | some cut => text.take cut

section Process

variable (stops : List Text)

def Request.send (r : Request) (newText : Text) : Text :=
  match r.thinkTag with
  | none => r.streamed ++ newText
  | some tag => r.streamed ++ (tag ++ ['\n'] ++ newText)

def finish (r : Request) (text newText flush : Text) (isStop : Bool) : Terminal :=
  let decoded := text ++ flush
  { streamed := r.send newText ++ flush, output := if isStop then trim stops decoded else decoded, decoded := decoded }

def process (r : Request) : Response → Request ⊕ Terminal
  | .eos flush => .inr (finish stops r r.text [] flush true)
  | .token segment flush capped =>
    let full := r.text ++ segment
    if capped then .inr (finish stops r full segment flush false)
    else
      match stopCheck full segment stops with
      | some newText => .inr (finish stops r full newText flush true)
      | none => .inl { text := full, streamed := r.send segment, thinkTag := none }

def run (r : Request) : List Response → Option Terminal
  | [] => none
  | response :: rest =>
    match process stops r response with
    | .inl r => run r rest
    | .inr t => some t

def start (thinkTag : Option Text) : Request := { text := [], streamed := [], thinkTag := thinkTag }

/-- The output is the decoded text cut at the earliest match, what was streamed is the same, and both are free of
stops. -/
def CutsRight (t : Terminal) : Prop :=
  CutAtEarliest stops t.decoded t.output ∧ t.streamed = t.output ∧ Free stops t.output ∧ Free stops t.streamed

/-- The responses of a request end with `last`, behind the text of the tokens before it: these are not capped, their
text has no stop, and `last` is capped, is the end of the sequence or brings a stop. -/
inductive Ends : Text → List Response → Text → Response → Prop
  | eos (text flush : Text) (rest : List Response) : Ends text (.eos flush :: rest) text (.eos flush)
  | capped (text segment flush : Text) (rest : List Response) :
    Ends text (.token segment flush true :: rest) text (.token segment flush true)
  | stop (text segment flush : Text) (rest : List Response) (h : ¬ Free stops (text ++ segment)) :
    Ends text (.token segment flush false :: rest) text (.token segment flush false)
  | more {text segment flush lastText : Text} {rest : List Response} {last : Response}
    (h : Free stops (text ++ segment)) (hrest : Ends (text ++ segment) rest lastText last) :
    Ends text (.token segment flush false :: rest) lastText last

/-- The last response behind a text: no stop in the decoded text, or a stop found first in the order of the list that
is also the earliest, that starts in the last segment, and nothing flushed behind it. -/
def CutsHere (text : Text) : Response → Prop
  | .eos flush => Free stops (text ++ flush)
  | .token segment flush true => Free stops (text ++ segment ++ flush)
  | .token segment flush false =>
    flush = [] ∧ ∃ idx, firstFound (text ++ segment) stops = some idx ∧ text.length ≤ idx ∧
      ∀ j < idx, ¬ AnyAt stops (text ++ segment) j

end Process

variable {stops : List Text}

variable {text : Text}

theorem firstFound_none : firstFound text stops = none ↔ Free stops text := by
  induction stops with
  | nil => exact iff_of_true rfl (by rintro i ⟨ss, hmem, -⟩; cases hmem)
  | cons ss rest ih =>
    rw [firstFound, free_cons]
    by_cases hss : ss = []
    · rw [if_pos hss, ih]
      exact ⟨fun h => ⟨fun hne => absurd hss hne, h⟩, fun h => h.2⟩
    · rw [if_neg hss, Option.or_eq_none_iff, ih, find_none_iff hss]
      exact ⟨fun h => ⟨fun _ => h.1, h.2⟩, fun h => ⟨h.1 hss, h.2⟩⟩

theorem firstFound_anyAt {idx : Nat} (h : firstFound text stops = some idx) : AnyAt stops text idx := by
  induction stops with
  | nil => cases h
  | cons ss rest ih =>
    rw [firstFound] at h
    rw [anyAt_cons]
    by_cases hss : ss = []
    · rw [if_pos hss] at h
      exact .inr (ih h)
    · rw [if_neg hss] at h
      cases hfind : find ss text with
      | none =>
        rw [hfind] at h
        exact .inr (ih h)
      | some k =>
        rw [hfind] at h
        cases h
        exact .inl ⟨hss, ((find_some_iff hss).1 hfind).1⟩

/-- Behind a text without stops the stop check finds what a search of the whole text finds. -/
theorem stopCheck_eq {segment : Text} (hfree : Free stops text) :
    stopCheck (text ++ segment) segment stops =
      (firstFound (text ++ segment) stops).map (fun idx =>
        if text.length ≤ idx then segment.take (idx - text.length) else []) := by
  have hprev : (text ++ segment).length - segment.length = text.length := by
    rw [List.length_append, Nat.add_sub_cancel]
  induction stops with
  | nil => rfl
  | cons ss rest ih =>
    obtain ⟨hhead, hrest⟩ := free_cons.1 hfree
    rw [stopCheck, firstFound]
    by_cases hss : ss = []
    · rw [if_pos hss, if_pos hss, ih hrest]
    · rw [if_neg hss, if_neg hss, hprev]
      -- An occurrence before the scan would end in the text before the segment.
      have hscan : findFrom ss (text.length + 1 - ss.length) (text ++ segment) = find ss (text ++ segment) := by
        refine findFrom_eq_find hss (fun j hj hocc => hhead hss j ?_)
        exact (occursAt_append (by omega)).1 hocc
      rw [hscan]
      cases find ss (text ++ segment) with
      | none => exact ih hrest
      | some idx => rfl

theorem trim_free (h : Free stops text) : trim stops text = text := by
  rw [trim, firstFound_none.2 h]

theorem trim_some {cut : Nat} (h : firstFound text stops = some cut) : trim stops text = text.take cut := by
  rw [trim, h]

variable {t : Terminal}

/-- Streamed text that runs past an occurrence is not the cut. -/
theorem CutsRight.length_le (h : CutsRight stops t) {i : Nat} (hi : AnyAt stops t.decoded i) :
    t.streamed.length ≤ i := by
  rw [h.2.1]
  exact h.1.length_le hi

theorem cutsRight_of_free (hfree : Free stops t.decoded) (hout : t.output = t.decoded)
    (hstreamed : t.streamed = t.decoded) : CutsRight stops t :=
  ⟨.inl ⟨hfree, hout⟩, hstreamed.trans hout.symm, hout ▸ hfree, hstreamed ▸ hfree⟩

def tagText : Option Text → Text
  | none => []
  | some tag => tag ++ ['\n']

theorem send_eq (r : Request) (newText : Text) : r.send newText = r.streamed ++ tagText r.thinkTag ++ newText := by
  cases h : r.thinkTag <;> simp [Request.send, tagText, h]

/-- A finish that streamed the whole decoded text. -/
theorem whole_cutsRight_iff {sent : Text} (hout : Free stops t.decoded → t.output = t.decoded)
    (hstreamed : t.streamed = sent ++ t.decoded) : CutsRight stops t ↔ sent = [] ∧ Free stops t.decoded := by
  constructor
  · intro h
    have hfree : Free stops t.decoded := by
      intro i hi
      have hle := h.length_le hi
      have hlt := hi.lt
      rw [hstreamed, List.length_append] at hle
      omega
    have hsame := h.2.1
    rw [hstreamed, hout hfree] at hsame
    exact ⟨List.append_left_eq_self.1 hsame, hfree⟩
  · rintro ⟨rfl, hfree⟩
    exact cutsRight_of_free hfree (hout hfree) hstreamed

/-- A finish by the stop check: the new text was cut at the stop found first. -/
theorem cut_cutsRight_iff (sent flush : Text) {segment : Text} {idx : Nat}
    (hfound : firstFound (text ++ segment) stops = some idx)
    (ht : t = { streamed := sent ++ text ++ (if text.length ≤ idx then segment.take (idx - text.length) else []) ++ flush,
                output := trim stops (text ++ segment ++ flush), decoded := text ++ segment ++ flush }) :
    CutsRight stops t ↔ sent = [] ∧ flush = [] ∧ text.length ≤ idx ∧ ∀ j < idx, ¬ AnyAt stops (text ++ segment) j := by
  have hat : AnyAt stops (text ++ segment) idx := firstFound_anyAt hfound
  have hlt := hat.lt
  rw [List.length_append] at hlt
  constructor
  · intro h
    have hle := h.length_le (i := idx) (by rw [ht]; exact hat.append flush)
    rw [ht] at hle
    dsimp only at hle
    by_cases hseg : text.length ≤ idx
    · rw [if_pos hseg] at hle
      simp only [List.length_append, List.length_take] at hle
      refine ⟨List.eq_nil_of_length_eq_zero (by omega), List.eq_nil_of_length_eq_zero (by omega), hseg, fun j hj hocc => ?_⟩
      have hle' := h.length_le (i := j) (by rw [ht]; exact hocc.append flush)
      rw [ht] at hle'
      simp only [if_pos hseg, List.length_append, List.length_take] at hle'
      omega
    · rw [if_neg hseg] at hle
      simp only [List.length_append, List.append_nil] at hle
      omega
  · rintro ⟨rfl, rfl, hseg, hleast⟩
    have hcut : text ++ segment.take (idx - text.length) = (text ++ segment).take idx := by
      rw [List.take_append, List.take_of_length_le hseg]
    have hout : t.output = (text ++ segment).take idx := by
      rw [ht]
      dsimp only
      rw [List.append_nil, trim_some hfound]
    have hstreamed : t.streamed = t.output := by
      rw [hout, ht]
      simp only [if_pos hseg, List.nil_append, List.append_nil, hcut]
    have hdecoded : t.decoded = text ++ segment := by
      rw [ht]
      exact List.append_nil _
    refine ⟨.inr ⟨idx, hdecoded ▸ hat, hdecoded ▸ hleast, hdecoded ▸ hout⟩, hstreamed, ?_, ?_⟩
    · exact hout ▸ free_take hleast
    · exact hstreamed ▸ hout ▸ free_take hleast

def decodedAt (text : Text) : Response → Text
  | .eos flush => text ++ flush
  | .token segment flush _ => text ++ segment ++ flush

/-- The last response, whatever the run before it was. -/
theorem run_ends (sent : Text) {responses : List Response} {lastText : Text} {last : Response}
    (h : Ends stops text responses lastText last) {r : Request} (htext : r.text = text)
    (hfree : Free stops text) (hsent : r.streamed ++ tagText r.thinkTag = sent ++ text) :
    ∃ t, run stops r responses = some t ∧ t.decoded = decodedAt lastText last ∧
      (CutsRight stops t ↔ sent = [] ∧ CutsHere stops lastText last) := by
  induction h generalizing r with
  | eos text flush rest =>
    subst htext
    refine ⟨_, rfl, rfl, ?_⟩
    refine whole_cutsRight_iff (fun hnone => trim_free hnone) ?_
    simp only [finish, send_eq, hsent, List.append_nil, List.append_assoc]
  | capped text segment flush rest =>
    subst htext
    refine ⟨_, rfl, rfl, ?_⟩
    refine whole_cutsRight_iff (fun _ => rfl) ?_
    simp only [finish, send_eq, hsent, List.append_assoc]
  | stop text segment flush rest hstop =>
    subst htext
    obtain ⟨idx, hfound⟩ := Option.ne_none_iff_exists'.1 (fun hnone => hstop (firstFound_none.1 hnone))
    have hprocess : process stops r (.token segment flush false) = .inr (finish stops r (r.text ++ segment)
        (if r.text.length ≤ idx then segment.take (idx - r.text.length) else []) flush true) := by
      simp only [process, stopCheck_eq hfree, hfound, Option.map_some, Bool.false_eq_true, if_false]
    refine ⟨_, by rw [run, hprocess], rfl, ?_⟩
    rw [cut_cutsRight_iff sent flush hfound (by simp only [finish, send_eq, hsent, if_true])]
    simp [CutsHere, hfound]
  | @more text segment flush lastText rest last hmore _ ih =>
    subst htext
    have hprocess : process stops r (.token segment flush false) =
        .inl { text := r.text ++ segment, streamed := r.send segment, thinkTag := none } := by
      simp only [process, stopCheck_eq hfree, firstFound_none.2 hmore, Option.map_none, Bool.false_eq_true, if_false]
    rw [run, hprocess]
    refine ih rfl hmore ?_
    show r.send segment ++ [] = sent ++ (r.text ++ segment)
    rw [List.append_nil, send_eq, hsent, List.append_assoc]

/-- A run that ends has a last response. -/
theorem ends_of_run {responses : List Response} {r : Request} (hfree : Free stops r.text)
    (h : run stops r responses = some t) : ∃ text last, Ends stops r.text responses text last := by
  induction responses generalizing r with
  | nil => cases h
  | cons response rest ih =>
    cases response with
    | eos flush => exact ⟨_, _, .eos ..⟩
    | token segment flush capped =>
      cases capped with
      | true => exact ⟨_, _, .capped ..⟩
      | false =>
        by_cases hmore : Free stops (r.text ++ segment)
        · have hprocess : process stops r (.token segment flush false) =
              .inl { text := r.text ++ segment, streamed := r.send segment, thinkTag := none } := by
            simp only [process, stopCheck_eq hfree, firstFound_none.2 hmore, Option.map_none, Bool.false_eq_true, if_false]
          rw [run, hprocess] at h
          have hrun : run stops { text := r.text ++ segment, streamed := r.send segment, thinkTag := none } rest = some t := h
          obtain ⟨text, last, hends⟩ := ih hmore hrun
          exact ⟨text, last, .more hmore hends⟩
        · exact ⟨_, _, .stop _ _ _ _ hmore⟩

/-- A request without a think tag is cut right exactly when its end is. -/
theorem request_cuts_iff {thinkTag : Option Text} {responses : List Response} {t : Terminal}
    (h : run stops (start thinkTag) responses = some t) :
    ∃ text last, Ends stops [] responses text last ∧ t.decoded = decodedAt text last ∧
      (CutsRight stops t ↔ thinkTag = none ∧ CutsHere stops text last) := by
  have hfree : Free stops (start thinkTag).text := free_nil stops
  obtain ⟨text, last, hends⟩ := ends_of_run hfree h
  obtain ⟨t', ht', hdecoded, hiff⟩ :=
    run_ends (tagText thinkTag) hends (r := start thinkTag) rfl hfree (List.append_nil _).symm
  obtain rfl := Option.some.inj (h.symm.trans ht')
  refine ⟨text, last, hends, hdecoded, hiff.trans (and_congr_left' ?_)⟩
  cases thinkTag <;> simp [tagText]

/-- The stop "b" is listed before "a": the text is cut behind the earlier "a". -/
theorem list_order_misses_earliest :
    run [['b'], ['a']] (start none) [.token ['x', 'a', 'b'] [] false] =
        some { streamed := ['x', 'a'], output := ['x', 'a'], decoded := ['x', 'a', 'b'] } ∧
      ¬ CutsRight [['b'], ['a']] { streamed := ['x', 'a'], output := ['x', 'a'], decoded := ['x', 'a', 'b'] } := by
  refine ⟨by decide, fun h => ?_⟩
  have hle := h.length_le (i := 1) ⟨['a'], by decide, by decide, by decide⟩
  exact absurd hle (by decide)

/-- A stop inside the only segment. -/
theorem stop_in_segment_cuts :
    CutsRight [['b']] { streamed := ['a'], output := ['a'], decoded := ['a', 'b'] } := by
  have hrun : run [['b']] (start none) [.token ['a', 'b'] [] false] =
      some { streamed := ['a'], output := ['a'], decoded := ['a', 'b'] } := by decide
  obtain ⟨text, last, hends, -, hiff⟩ := request_cuts_iff hrun
  refine hiff.2 ⟨rfl, ?_⟩
  cases hends with
  | stop =>
    refine ⟨rfl, 1, by decide, by decide, fun j hj hocc => ?_⟩
    obtain ⟨sep, hmem, -, hat⟩ := hocc
    obtain rfl := List.mem_singleton.1 hmem
    obtain rfl : j = 0 := by omega
    exact absurd hat (by decide)
  | more _ hrest => cases hrest

end FusionMlx.StopStrings
