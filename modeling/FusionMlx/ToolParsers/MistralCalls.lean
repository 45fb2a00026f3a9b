import FusionMlx.ToolParsers.MistralStream

/-!
# Calls of the new format

The machine walks a call through its name, its arguments and the white space
behind them, whatever the strings of the arguments hold. Reading the whole text
cuts it at every marker instead.
-/
namespace FusionMlx.ToolParsers.Mistral

open JsonText PyText TextSearch

/-- A call of the new format: a name, the tag that may follow it, and a JSON object, with white
space between them. -/
structure NewCall where
  lead : Text
  name : Text
  mid : Text
  tagged : Bool
  gap : Text
  json : Text
  trail : Text
  lead_blank : Blank lead
  name_ne : name ≠ []
  name_strip : strip name = name
  name_plain : '[' ∉ name ∧ '{' ∉ name
  mid_blank : Blank mid
  gap_blank : Blank gap
  gap_tagged : tagged = false → gap = []
  object : ∃ v, loads json = some v ∧ v.isObj = true
  outer : json.head? = some '{' ∧ json.getLast? = some '}'
  trail_blank : Blank trail

namespace NewCall

variable (c : NewCall)

def tag : Text := if c.tagged then argsTag else []

def text : Text := c.lead ++ c.name ++ c.mid ++ c.tag ++ c.gap ++ c.json ++ c.trail

def behind (calls : List NewCall) : Text := calls.flatMap (fun c => botToken ++ c.text)

theorem json_enclosed : Enclosed c.json := by
  obtain ⟨v, hv, -⟩ := c.object
  obtain ⟨t, ht⟩ : ∃ t, c.json = '{' :: t := by
    have := c.outer.1
    cases hj : c.json with
    | nil => rw [hj] at this; cases this
    | cons x t => rw [hj] at this; exact ⟨t, by simpa using this⟩
  exact enclosed_of_outer hv ⟨t, .inl ht⟩ c.outer.2 (by decide)

end NewCall

namespace Segment

def Walks : Segment → Text → Segment → Prop
  | seg, [], after => seg = after
  | seg, ch :: t, after => seg.argsClosed = false ∧ Walks (seg.walk ch) t after

variable {seg mid after : Segment} {t u : Text} {ch : Char}

theorem Walks.append (h : Walks seg t mid) (h' : Walks mid u after) : Walks seg (t ++ u) after := by
  induction t generalizing seg with
  | nil =>
    obtain rfl : seg = mid := h
    exact h'
  | cons ch t ih => exact ⟨h.1, ih h.2⟩

theorem Walks.single (h : seg.argsClosed = false) (hw : seg.walk ch = after) : Walks seg [ch] after :=
  ⟨h, hw⟩

/-- A character of the name. -/
theorem walk_name (hsaw : seg.sawSeparator = false) (hb : ch ≠ '{')
    (ht : ¬ argsTag <:+ seg.nameBuffer ++ [ch]) :
    seg.walk ch = { seg with nameBuffer := seg.nameBuffer ++ [ch] } := by
  simp [walk, hsaw, hb, ht]

theorem walks_name (hsaw : seg.sawSeparator = false) (hclosed : seg.argsClosed = false)
    (hb : '{' ∉ t) (ht : '[' ∉ seg.nameBuffer ++ t) :
    Walks seg t { seg with nameBuffer := seg.nameBuffer ++ t } := by
  induction t generalizing seg with
  | nil => simp [Walks]
  | cons ch t ih =>
    have hstep := @walk_name seg ch hsaw (by rintro rfl; simp at hb) (by
      intro hsuf
      have hmem : '[' ∈ seg.nameBuffer ++ [ch] := hsuf.subset (by decide)
      exact ht (by simp at hmem ⊢; tauto))
    refine ⟨hclosed, ?_⟩
    rw [hstep]
    have := @ih { seg with nameBuffer := seg.nameBuffer ++ [ch] } hsaw hclosed
      (fun h => hb (by simp [h])) (by simpa using ht)
    simpa using this

/-- The tag behind the name. -/
theorem walks_tag (hsaw : seg.sawSeparator = false) (hclosed : seg.argsClosed = false)
    {name : Text} (hname : strip seg.nameBuffer = name) (hne : name ≠ []) :
    Walks seg argsTag ({ seg with nameBuffer := seg.nameBuffer ++ argsTag }.named name) := by
  have hpart : ∀ p ch, ch ≠ ']' → ¬ argsTag <:+ p ++ [ch] := by
    intro p ch hch hsuf
    have := hsuf.getLast (by decide)
    rw [List.getLast_append_singleton] at this
    exact hch (this.symm.trans rfl)
  have hopen : Walks seg ['[', 'A', 'R', 'G', 'S'] { seg with nameBuffer := seg.nameBuffer ++ ['[', 'A', 'R', 'G', 'S'] } := by
    have hgen : ∀ (t : Text) (seg : Segment), seg.sawSeparator = false → seg.argsClosed = false →
        (∀ ch ∈ t, ch ≠ ']' ∧ ch ≠ '{') → Walks seg t { seg with nameBuffer := seg.nameBuffer ++ t } := by
      intro t
      induction t with
      | nil => intro seg _ _ _; simp [Walks]
      | cons ch t ih =>
        intro seg hsaw hclosed ht
        have hch := ht ch (by simp)
        refine ⟨hclosed, ?_⟩
        rw [walk_name hsaw hch.2 (hpart _ _ hch.1)]
        simpa using ih { seg with nameBuffer := seg.nameBuffer ++ [ch] } hsaw hclosed
          (fun x hx => ht x (by simp [hx]))
    exact hgen _ seg hsaw hclosed (by simp)
  refine hopen.append (u := [']']) (.single hclosed ?_)
  have hbuf : seg.nameBuffer ++ ['[', 'A', 'R', 'G', 'S'] ++ [']'] = seg.nameBuffer ++ argsTag := by
    rw [List.append_assoc]
    rfl
  have htake : (seg.nameBuffer ++ argsTag).take
      ((seg.nameBuffer ++ argsTag).length - argsTag.length) = seg.nameBuffer := by
    rw [List.length_append, Nat.add_sub_cancel, List.take_left]
  simp only [walk, hsaw, hbuf, htake, hname, hne, Bool.false_eq_true, not_false_eq_true, if_true,
    if_false, List.isSuffixOf_iff_suffix, List.suffix_append]

/-- The brace behind the name. -/
theorem walk_brace (hsaw : seg.sawSeparator = false) {name : Text} (ht : '[' ∉ seg.nameBuffer)
    (hname : strip seg.nameBuffer = name) (hne : name ≠ []) :
    seg.walk '{' = { { seg with nameBuffer := seg.nameBuffer ++ ['{'] }.named name with
      argsBuffer := ['{'], json := seg.json.step '{', argsStarted := true } := by
  have hsuf : ¬ argsTag <:+ seg.nameBuffer ++ ['{'] := by
    intro hsuf
    have hmem : '[' ∈ seg.nameBuffer ++ ['{'] := hsuf.subset (by decide)
    simp at hmem
    exact ht hmem
  simp [walk, hsaw, hsuf, hname, hne]

/-- White space before the arguments. -/
theorem walks_gap (hsaw : seg.sawSeparator = true) (hclosed : seg.argsClosed = false)
    (hstart : seg.argsStarted = false) (hjson : seg.json = {}) (ht : ∀ ch ∈ t, Plain ch) :
    Walks seg t { seg with argsBuffer := seg.argsBuffer ++ t } := by
  induction t generalizing seg with
  | nil => simp [Walks]
  | cons ch t ih =>
    have hstep : seg.walk ch = { seg with argsBuffer := seg.argsBuffer ++ [ch] } := by
      have := (ht ch (by simp)).step
      simp [walk, hsaw, hstart, hjson, this]
    refine ⟨hclosed, ?_⟩
    rw [hstep]
    simpa using @ih { seg with argsBuffer := seg.argsBuffer ++ [ch] } hsaw hclosed hstart hjson
      (fun x hx => ht x (by simp [hx]))

/-- The opening brace of the object behind the tag. -/
theorem walk_open (hsaw : seg.sawSeparator = true) (hjson : seg.json = {}) :
    seg.walk '{' =
      { seg with argsBuffer := seg.argsBuffer ++ ['{'], json := { depth := 1 }, argsStarted := true } := by
  have hstep : Walk.step {} '{' = { depth := 1 } := step_open (.inl rfl) 0
  simp [walk, hsaw, hjson, hstep]

/-- Inside the object. -/
theorem walks_inside (hsaw : seg.sawSeparator = true) (hclosed : seg.argsClosed = false)
    (hstart : seg.argsStarted = true) (ht : Walk.Stays 1 seg.json t) :
    Walks seg t { seg with argsBuffer := seg.argsBuffer ++ t, json := seg.json.run t } := by
  induction t generalizing seg with
  | nil => simp [Walks]
  | cons ch t ih =>
    have hdepth : (seg.json.step ch).depth > 0 := ht.2.le
    have hstep : seg.walk ch =
        { seg with argsBuffer := seg.argsBuffer ++ [ch], json := seg.json.step ch } := by
      simp [walk, hsaw, hstart, hdepth]
    refine ⟨hclosed, ?_⟩
    rw [hstep]
    simpa using @ih { seg with argsBuffer := seg.argsBuffer ++ [ch], json := seg.json.step ch }
      hsaw hclosed hstart ht.2

/-- The rest of the object behind its opening brace. -/
theorem walks_object (hsaw : seg.sawSeparator = true) (hclosed : seg.argsClosed = false)
    (hstart : seg.argsStarted = true) (hjson : seg.json = { depth := 1 }) {v : Text} {x : Char}
    (hv : Level v) (hx : x = '}' ∨ x = ']') :
    Walks seg (v ++ [x])
      { seg with argsBuffer := seg.argsBuffer ++ v ++ [x], json := {}, argsClosed := true } := by
  obtain ⟨hrun, hstays⟩ := hv.inside 1
  have hin := walks_inside hsaw hclosed hstart (t := v) (by rw [hjson]; exact hstays)
  rw [hjson, hrun] at hin
  refine hin.append (.single hclosed ?_)
  have hstep : Walk.step { depth := 1 } x = {} := step_close hx 1
  simp [walk, hsaw, hstart, hstep]

end Segment

namespace NewCall

open Segment

variable (c : NewCall)

theorem brackets_not_space : isSpace '[' = false ∧ isSpace '{' = false ∧ isSpace '}' = false := by decide

/-- What stands before the tag has no bracket, and the name is what stripping leaves of it. -/
theorem header : '[' ∉ c.lead ++ c.name ++ c.mid ∧ '{' ∉ c.lead ++ c.name ++ c.mid ∧
    strip (c.lead ++ c.name ++ c.mid) = c.name := by
  obtain ⟨x, y, hx, hxs, hy, hys⟩ := ends_of_strip c.name_strip c.name_ne
  refine ⟨?_, ?_, strip_pad c.lead_blank c.mid_blank hxs hys hx hy⟩
  · simp only [List.mem_append, not_or]
    exact ⟨⟨c.lead_blank.not_mem brackets_not_space.1, c.name_plain.1⟩,
      c.mid_blank.not_mem brackets_not_space.1⟩
  · simp only [List.mem_append, not_or]
    exact ⟨⟨c.lead_blank.not_mem brackets_not_space.2.1, c.name_plain.2⟩,
      c.mid_blank.not_mem brackets_not_space.2.1⟩

theorem plain_of_blank {t : Text} (ht : Blank t) : ∀ ch ∈ t, Plain ch := by
  intro ch hch
  have := ht ch hch
  refine ⟨?_, ?_, ?_, ?_, ?_⟩ <;> rintro rfl <;> exact absurd this (by decide)

theorem json_parts : ∃ v x, c.json = '{' :: (v ++ [x]) ∧ (x = '}' ∨ x = ']') ∧ Level v := by
  obtain ⟨o, v, x, hj, -, hx, hv⟩ := c.json_enclosed
  have hhead := c.outer.1
  rw [hj] at hhead
  obtain rfl : o = '{' := by simpa using hhead
  exact ⟨v, x, hj, hx, hv⟩

/-- The machine takes a call for what it is. -/
theorem walks : ∃ e, Walks {} (c.lead ++ c.name ++ c.mid ++ c.tag ++ c.gap ++ c.json) e ∧
    e.argsClosed = true ∧ e.shownNames = [quoted c.name] ∧ e.argsBuffer = c.gap ++ c.json := by
  obtain ⟨hopen, hbrace, hstrip⟩ := c.header
  obtain ⟨v, x, hjson, hx, hv⟩ := c.json_parts
  have hname := @walks_name {} (c.lead ++ c.name ++ c.mid) rfl rfl hbrace hopen
  rw [List.nil_append] at hname
  cases htag : c.tagged with
  | true =>
    have h₁ : Walks {} (c.lead ++ c.name ++ c.mid ++ argsTag)
        { name := c.name, nameBuffer := c.lead ++ c.name ++ c.mid ++ argsTag, needsNameEmit := true,
          sawSeparator := true } :=
      hname.append (walks_tag rfl rfl hstrip c.name_ne)
    have h₂ : Walks {} (c.lead ++ c.name ++ c.mid ++ argsTag ++ c.gap)
        { name := c.name, nameBuffer := c.lead ++ c.name ++ c.mid ++ argsTag, needsNameEmit := true,
          sawSeparator := true, argsBuffer := c.gap } :=
      h₁.append (walks_gap rfl rfl rfl rfl (plain_of_blank c.gap_blank))
    have h₃ : Walks {} (c.lead ++ c.name ++ c.mid ++ argsTag ++ c.gap ++ ['{'])
        { name := c.name, nameBuffer := c.lead ++ c.name ++ c.mid ++ argsTag, needsNameEmit := true,
          sawSeparator := true, argsBuffer := c.gap ++ ['{'], argsStarted := true,
          json := { depth := 1 } } :=
      h₂.append (.single rfl (walk_open rfl rfl))
    have h₄ : Walks {} (c.lead ++ c.name ++ c.mid ++ argsTag ++ c.gap ++ ['{'] ++ (v ++ [x]))
        { name := c.name, nameBuffer := c.lead ++ c.name ++ c.mid ++ argsTag, needsNameEmit := true,
          sawSeparator := true, argsBuffer := c.gap ++ ['{'] ++ v ++ [x], argsStarted := true,
          argsClosed := true } :=
      h₃.append (walks_object rfl rfl rfl rfl hv hx)
    have htext : c.lead ++ c.name ++ c.mid ++ c.tag ++ c.gap ++ c.json =
        c.lead ++ c.name ++ c.mid ++ argsTag ++ c.gap ++ ['{'] ++ (v ++ [x]) := by
      simp [tag, htag, hjson]
    rw [htext]
    exact ⟨_, h₄, rfl, rfl, by simp [hjson]⟩
  | false =>
    have h₁ : Walks {} (c.lead ++ c.name ++ c.mid ++ ['{'])
        { name := c.name, nameBuffer := c.lead ++ c.name ++ c.mid ++ ['{'], needsNameEmit := true,
          sawSeparator := true, argsBuffer := ['{'], argsStarted := true, json := { depth := 1 } } :=
      hname.append (.single rfl (walk_brace rfl hopen hstrip c.name_ne))
    have h₂ : Walks {} (c.lead ++ c.name ++ c.mid ++ ['{'] ++ (v ++ [x]))
        { name := c.name, nameBuffer := c.lead ++ c.name ++ c.mid ++ ['{'], needsNameEmit := true,
          sawSeparator := true, argsBuffer := ['{'] ++ v ++ [x], argsStarted := true,
          argsClosed := true } :=
      h₁.append (walks_object rfl rfl rfl rfl hv hx)
    have htext : c.lead ++ c.name ++ c.mid ++ c.tag ++ c.gap ++ c.json =
        c.lead ++ c.name ++ c.mid ++ ['{'] ++ (v ++ [x]) := by
      simp [tag, htag, hjson, c.gap_tagged htag]
    rw [htext]
    exact ⟨_, h₂, rfl, rfl, by simp [hjson, c.gap_tagged htag]⟩

end NewCall

section Machine

variable {s : MistralToolParser} {t : Text} {ch : Char}

theorem walkChar_open (h : (s.segment s.curSegIdx).argsClosed = false) (ch : Char) :
    (walkChar s ch).curSegIdx = s.curSegIdx ∧ (walkChar s ch).interBuffer = s.interBuffer := by
  have hget := getD_append_replicate s.toolSegments (s.curSegIdx + 1 - s.toolSegments.length) s.curSegIdx
  unfold walkChar
  rw [MistralToolParser.segment] at h
  simp only [hget, h, Bool.false_eq_true, if_false, and_self]

/-- A walk through open segments happens where the machine stands and leaves the rest alone. -/
theorem foldl_walkChar_walks {e : Segment} (h : (s.segment s.curSegIdx).Walks t e) :
    (t.foldl walkChar s).curSegIdx = s.curSegIdx ∧ (t.foldl walkChar s).interBuffer = s.interBuffer ∧
      ∀ i, (t.foldl walkChar s).segment i = if i = s.curSegIdx then e else s.segment i := by
  induction t generalizing s with
  | nil =>
    obtain rfl : s.segment s.curSegIdx = e := h
    refine ⟨rfl, rfl, fun i => ?_⟩
    split
    · rename_i hi
      rw [hi]
      rfl
    · rfl
  | cons ch t ih =>
    obtain ⟨hopen, hrest⟩ := h
    obtain ⟨hcur, hinter⟩ := walkChar_open hopen ch
    have hseg : (walkChar s ch).segment (walkChar s ch).curSegIdx = (s.segment s.curSegIdx).walk ch := by
      rw [hcur, walkChar_segment, if_pos ⟨rfl, hopen⟩]
    obtain ⟨h₁, h₂, h₃⟩ := ih (s := walkChar s ch) (by rw [hseg]; exact hrest)
    refine ⟨h₁.trans hcur, h₂.trans hinter, fun i => ?_⟩
    rw [List.foldl_cons, h₃, hcur]
    split
    · rfl
    · rename_i hi
      rw [walkChar_segment, if_neg (fun h => hi h.1)]

/-- Behind a closed segment the machine only looks for the next marker. -/
theorem walkChar_closed (h : (s.segment s.curSegIdx).argsClosed = true) (ch : Char) :
    (∀ i, (walkChar s ch).segment i = s.segment i) ∧
      (walkChar s ch).curSegIdx =
        (if contains botToken (s.interBuffer ++ [ch]) then s.curSegIdx + 1 else s.curSegIdx) ∧
      (walkChar s ch).interBuffer =
        (if contains botToken (s.interBuffer ++ [ch]) then []
          else trimToSentinelPrefix (s.interBuffer ++ [ch])) := by
  refine ⟨fun i => ?_, ?_⟩
  · rw [walkChar_segment, if_neg]
    rintro ⟨rfl, hopen⟩
    rw [h] at hopen
    cases hopen
  · have hget := getD_append_replicate s.toolSegments (s.curSegIdx + 1 - s.toolSegments.length) s.curSegIdx
    unfold walkChar
    rw [MistralToolParser.segment] at h
    simp only [hget, h, if_true]
    by_cases hc : contains botToken (s.interBuffer ++ [ch])
    · rw [if_pos hc, if_pos hc, if_pos hc]
      exact ⟨rfl, rfl⟩
    · rw [if_neg hc, if_neg hc, if_neg hc]
      exact ⟨rfl, rfl⟩

/-- White space between two calls leaves no trace. -/
theorem foldl_walkChar_blank (h : (s.segment s.curSegIdx).argsClosed = true) (hi : s.interBuffer = [])
    (ht : Blank t) :
    (t.foldl walkChar s).curSegIdx = s.curSegIdx ∧ (t.foldl walkChar s).interBuffer = [] ∧
      ∀ i, (t.foldl walkChar s).segment i = s.segment i := by
  induction t generalizing s with
  | nil => exact ⟨rfl, hi, fun _ => rfl⟩
  | cons ch t ih =>
    have hne : ch ≠ '[' := by
      rintro rfl
      exact absurd (ht '[' (by simp)) (by decide)
    obtain ⟨h₁, h₂, h₃⟩ := walkChar_closed h ch
    have hno : contains botToken [ch] = false := by
      rw [contains_eq_false botToken_sharp.ne_nil]
      intro hin
      have := hin.length_le
      simp [botToken] at this
    have htrim : trimToSentinelPrefix [ch] = [] := by
      have hheld : held botToken [ch] = 0 := by
        have hle := (held_le botToken [ch]).1
        have hsuf := held_suffix botToken [ch]
        rcases Nat.eq_zero_or_pos (held botToken [ch]) with h0 | hpos
        · exact h0
        · obtain h1 : held botToken [ch] = 1 := by simp at hle; omega
          rw [h1] at hsuf
          have : '[' ∈ [ch] := hsuf.subset (by simp [botToken])
          exact absurd (by simpa using this) (Ne.symm hne)
      simp [trimToSentinelPrefix, hheld]
    simp only [hi, List.nil_append, hno, htrim, Bool.false_eq_true, if_false] at h₂ h₃
    obtain ⟨k₁, k₂, k₃⟩ := ih (s := walkChar s ch) (by rw [h₂, h₁]; exact h) h₃
      (fun x hx => ht x (by simp [hx]))
    exact ⟨k₁.trans h₂, k₂, fun i => (k₃ i).trans (h₁ i)⟩

/-- The marker takes the machine to the next segment. -/
theorem foldl_walkChar_marker (h : (s.segment s.curSegIdx).argsClosed = true)
    (hi : s.interBuffer = []) :
    (botToken.foldl walkChar s).curSegIdx = s.curSegIdx + 1 ∧
      (botToken.foldl walkChar s).interBuffer = [] ∧
      ∀ i, (botToken.foldl walkChar s).segment i = s.segment i := by
  have hpart : ∀ n, n ≤ 11 → ((botToken.take n).foldl walkChar s).curSegIdx = s.curSegIdx ∧
      ((botToken.take n).foldl walkChar s).interBuffer = botToken.take n ∧
      ∀ i, ((botToken.take n).foldl walkChar s).segment i = s.segment i := by
    intro n hn
    induction n with
    | zero => exact ⟨rfl, hi, fun _ => rfl⟩
    | succ n ih =>
      obtain ⟨h₁, h₂, h₃⟩ := ih (by omega)
      have hlt : n < botToken.length := by
        have : botToken.length = 12 := rfl
        omega
      have hsmall : ∀ n, n < 11 → contains botToken (botToken.take (n + 1)) = false ∧
          trimToSentinelPrefix (botToken.take (n + 1)) = botToken.take (n + 1) := by decide +kernel
      have hstep : (botToken.take (n + 1)).foldl walkChar s =
          walkChar ((botToken.take n).foldl walkChar s) botToken[n] := by
        rw [List.take_succ_eq_append_getElem hlt, List.foldl_append, List.foldl_cons, List.foldl_nil]
      rw [hstep]
      obtain ⟨k₁, k₂, k₃⟩ := walkChar_closed (s := (botToken.take n).foldl walkChar s)
        (by rw [h₁, h₃]; exact h) botToken[n]
      rw [h₂, ← List.take_succ_eq_append_getElem hlt, (hsmall n (by omega)).1] at k₂ k₃
      simp only [(hsmall n (by omega)).2, Bool.false_eq_true, if_false] at k₂ k₃
      exact ⟨k₂.trans h₁, k₃, fun i => (k₁ i).trans (h₃ i)⟩
  obtain ⟨h₁, h₂, h₃⟩ := hpart 11 (le_refl 11)
  obtain ⟨k₁, k₂, k₃⟩ := walkChar_closed (s := (botToken.take 11).foldl walkChar s)
    (by rw [h₁, h₃]; exact h) ']'
  have hlast : botToken.foldl walkChar s = walkChar ((botToken.take 11).foldl walkChar s) ']' := by
    rw [show botToken = botToken.take 11 ++ [']'] from rfl, List.foldl_append, List.foldl_cons,
      List.foldl_nil]
    rfl
  have hfull : contains botToken (botToken.take 11 ++ [']']) = true := by decide +kernel
  simp only [h₂, hfull, if_true] at k₂ k₃
  rw [h₁] at k₂
  rw [hlast]
  exact ⟨k₂, k₃, fun i => (k₁ i).trans (h₃ i)⟩

end Machine

end FusionMlx.ToolParsers.Mistral
