import FusionMlx.Support.JsonText
import Mathlib.Data.List.Infix
import Mathlib.Tactic.IntervalCases

/-!
# The thinking parser

`ThinkingParser` of `api/thinking.py`, and what it makes of a text: it reads
chunks as it would read the whole text, and the whole text is routed by the
last tag before each character.
-/
namespace FusionMlx.Reasoning.Thinking

open JsonText (Text)

def openTag : Text := ['<', 't', 'h', 'i', 'n', 'k', '>']

def closeTag : Text := ['<', '/', 't', 'h', 'i', 'n', 'k', '>']

structure ThinkingParser where
  inThinking : Bool := false
  buffer : Text := []
  recoveryAsContent : Bool := true
  closeSeen : Bool := false
  thinkingAccumulated : List Text := []
  contentEmitted : Bool := false

def couldBeTag (t : Text) : Bool :=
  if closeTag.length ≤ t.length then false
  else if openTag.take t.length = t then true
  else decide (closeTag.take t.length = t)

/-- What the loop of `feed` leaves: the mode, whether it passed a closer, the two outputs and the
partial tag at the end. -/
@[ext] structure Scan where
  inThinking : Bool
  closed : Bool := false
  thinking : Text := []
  content : Text := []
  buffer : Text := []
  deriving DecidableEq

def Scan.emit (mode : Bool) (c : Char) (r : Scan) : Scan :=
  if mode then { r with thinking := c :: r.thinking } else { r with content := c :: r.content }

def scan (mode : Bool) (t : Text) : Scan :=
  match t with
  | [] => { inThinking := mode }
  | c :: t =>
    if c = '<' then
      if openTag.isPrefixOf (c :: t) then scan true (t.drop 6)
      else if closeTag.isPrefixOf (c :: t) then { scan false (t.drop 7) with closed := true }
      else if couldBeTag (c :: t) then { inThinking := mode, buffer := c :: t }
      else (scan mode t).emit mode c
    else (scan mode t).emit mode c
termination_by t.length
decreasing_by all_goals simp only [List.length_cons, List.length_drop]; omega

def feed (p : ThinkingParser) (text : Text) : ThinkingParser × Text × Text :=
  if text = [] then (p, [], [])
  else
    let r := scan p.inThinking (p.buffer ++ text)
    ({ p with
        inThinking := r.inThinking
        buffer := r.buffer
        closeSeen := p.closeSeen || r.closed
        thinkingAccumulated := if r.thinking = [] then p.thinkingAccumulated else p.thinkingAccumulated ++ [r.thinking]
        contentEmitted := p.contentEmitted || decide (r.content ≠ []) }, r.thinking, r.content)

def finish (p : ThinkingParser) : Text × Text :=
  if p.inThinking ∧ ¬ p.closeSeen ∧ ¬ p.contentEmitted ∧ p.thinkingAccumulated ≠ [] ∧ p.recoveryAsContent then
    ([], p.thinkingAccumulated.flatten ++ p.buffer)
  else if p.buffer = [] then ([], [])
  else if p.inThinking then (p.buffer, [])
  else ([], p.buffer)

def feedAll (p : ThinkingParser) : List Text → ThinkingParser × Text × Text
  | [] => (p, [], [])
  | t :: ts =>
    let r := feed p t
    let rest := feedAll r.1 ts
    (rest.1, r.2.1 ++ rest.2.1, r.2.2 ++ rest.2.2)

def parse (mode recovery : Bool) (chunks : List Text) : Text × Text :=
  let r := feedAll { inThinking := mode, recoveryAsContent := recovery } chunks
  (r.2.1 ++ (finish r.1).1, r.2.2 ++ (finish r.1).2)

/-- The characters of a text but for its tags, each with the mode that the last tag before it sets. -/
def routed (mode : Bool) (t : Text) : List (Bool × Char) :=
  match t with
  | [] => []
  | c :: t =>
    if openTag.isPrefixOf (c :: t) then routed true (t.drop 6)
    else if closeTag.isPrefixOf (c :: t) then routed false (t.drop 7)
    else (mode, c) :: routed mode t
termination_by t.length
decreasing_by all_goals simp only [List.length_cons, List.length_drop]; omega

def hasCloser (t : Text) : Bool :=
  match t with
  | [] => false
  | c :: t =>
    if openTag.isPrefixOf (c :: t) then hasCloser (t.drop 6)
    else if closeTag.isPrefixOf (c :: t) then true
    else hasCloser t
termination_by t.length
decreasing_by all_goals simp only [List.length_cons, List.length_drop]; omega

def ofMode (mode : Bool) (l : List (Bool × Char)) : Text := (l.filter (fun x => x.1 = mode)).map Prod.snd

variable {mode : Bool} {t u b : Text} {c : Char}

theorem tag_head {tag : Text} (h : tag = openTag ∨ tag = closeTag) (hc : c ≠ '<') (t : Text) :
    tag.isPrefixOf (c :: t) = false := by
  rcases h with rfl | rfl
  · simp [openTag, List.isPrefixOf, Ne.symm hc]
  · simp [closeTag, List.isPrefixOf, Ne.symm hc]

theorem isPrefixOf_append {tag t : Text} (h : tag.isPrefixOf t = true) (u : Text) : tag.isPrefixOf (t ++ u) = true := by
  rw [List.isPrefixOf_iff_prefix] at h ⊢
  exact h.trans (List.prefix_append t u)

/-- More text makes no tag of what cannot be one. -/
theorem not_isPrefixOf_append {tag : Text} (h : tag = openTag ∨ tag = closeTag) (hno : tag.isPrefixOf t = false)
    (hpart : couldBeTag t = false) (u : Text) : tag.isPrefixOf (t ++ u) = false := by
  rw [Bool.eq_false_iff, Ne, List.isPrefixOf_iff_prefix] at hno ⊢
  intro hpre
  rcases Nat.lt_or_ge t.length tag.length with hlt | hge
  · -- the text is the beginning of the tag
    have ht : tag.take t.length = t := by
      have := List.prefix_of_prefix_length_le (List.prefix_append t u) hpre hlt.le
      exact (List.prefix_iff_eq_take.1 this).symm
    have hclose : ¬ closeTag.length ≤ t.length := by
      rcases h with rfl | rfl
      · have : openTag.length < closeTag.length := by decide
        omega
      · omega
    unfold couldBeTag at hpart
    rw [if_neg hclose] at hpart
    rcases h with rfl | rfl
    · simp [ht] at hpart
    · split at hpart <;> simp [ht] at hpart
  · exact hno (List.prefix_of_prefix_length_le hpre (List.prefix_append t u) hge)

theorem length_of_isPrefixOf {tag : Text} (h : tag.isPrefixOf (c :: t) = true) : tag.length - 1 ≤ t.length := by
  have := (List.isPrefixOf_iff_prefix.1 h).length_le
  simp only [List.length_cons] at this
  omega

def Scan.andThen (r r' : Scan) : Scan :=
  ⟨r'.inThinking, r.closed || r'.closed, r.thinking ++ r'.thinking, r.content ++ r'.content, r'.buffer⟩

theorem emit_andThen (mode : Bool) (c : Char) (r r' : Scan) : (r.emit mode c).andThen r' = (r.andThen r').emit mode c := by
  cases mode <;> rfl

theorem emit_rest (mode : Bool) (c : Char) (r : Scan) :
    (r.emit mode c).inThinking = r.inThinking ∧ (r.emit mode c).buffer = r.buffer ∧ (r.emit mode c).closed = r.closed := by
  cases mode <;> exact ⟨rfl, rfl, rfl⟩

theorem couldBeTag_append (h : couldBeTag t = false) (u : Text) : couldBeTag (t ++ u) = false := by
  by_contra hc
  rw [Bool.not_eq_false] at hc
  unfold couldBeTag at h hc
  by_cases hlen : closeTag.length ≤ (t ++ u).length
  · rw [if_pos hlen] at hc
    cases hc
  · have hlt : ¬ closeTag.length ≤ t.length := by
      simp only [List.length_append] at hlen
      omega
    have hpre : ∀ tag : Text, tag.take (t ++ u).length = t ++ u → tag.take t.length = t := by
      intro tag ht
      have : t <+: tag := (List.prefix_append t u).trans (ht ▸ List.take_prefix _ _)
      exact (List.prefix_iff_eq_take.1 this).symm
    rw [if_neg hlt] at h
    rw [if_neg hlen] at hc
    split at hc
    · rename_i ho
      rw [if_pos (hpre _ ho)] at h
      cases h
    · have ho := hpre closeTag (by simpa using hc)
      split at h
      · cases h
      · simp [ho] at h

theorem scan_open (h : openTag.isPrefixOf ('<' :: t) = true) : scan mode ('<' :: t) = scan true (t.drop 6) := by
  rw [scan, if_pos rfl, if_pos h]

theorem scan_close (hopen : openTag.isPrefixOf ('<' :: t) = false) (h : closeTag.isPrefixOf ('<' :: t) = true) :
    scan mode ('<' :: t) = { scan false (t.drop 7) with closed := true } := by
  rw [scan, if_pos rfl, if_neg (by simp [hopen]), if_pos h]

theorem scan_emit (hopen : openTag.isPrefixOf ('<' :: t) = false) (hclose : closeTag.isPrefixOf ('<' :: t) = false)
    (hpart : couldBeTag ('<' :: t) = false) : scan mode ('<' :: t) = (scan mode t).emit mode '<' := by
  rw [scan, if_pos rfl, if_neg (by simp [hopen]), if_neg (by simp [hclose]), if_neg (by simp [hpart])]

/-- The two tags differ at their second character. -/
theorem open_of_close (h : closeTag.isPrefixOf t = true) : openTag.isPrefixOf t = false := by
  rw [Bool.eq_false_iff, Ne, List.isPrefixOf_iff_prefix]
  rintro ⟨x, hx⟩
  obtain ⟨y, hy⟩ := List.isPrefixOf_iff_prefix.1 h
  rw [← hy] at hx
  simp [openTag, closeTag] at hx

/-- The loop reads a text in two parts as in one. -/
theorem scan_append (mode : Bool) (t u : Text) :
    scan mode (t ++ u) = (scan mode t).andThen (scan (scan mode t).inThinking ((scan mode t).buffer ++ u)) := by
  fun_induction scan mode t with
  | case1 mode => simp [Scan.andThen]
  | case2 mode t hopen ih =>
    have hlen : 6 ≤ t.length := by simpa [openTag] using length_of_isPrefixOf hopen
    have hopen' : openTag.isPrefixOf ('<' :: (t ++ u)) = true := isPrefixOf_append hopen u
    rw [List.cons_append, scan_open hopen', List.drop_append_of_le_length hlen, ih]
  | case3 mode t r hopen hclose ih =>
    have hlen : 7 ≤ t.length := by simpa [closeTag] using length_of_isPrefixOf hclose
    have hclose' : closeTag.isPrefixOf ('<' :: (t ++ u)) = true := isPrefixOf_append hclose u
    rw [List.cons_append, scan_close (open_of_close hclose') hclose', List.drop_append_of_le_length hlen, ih]
    simp [r, Scan.andThen]
  | case4 mode t hopen hclose hpart => simp [Scan.andThen]
  | case5 mode t hopen hclose hpart ih =>
    rw [Bool.not_eq_true] at hopen hclose hpart
    have hopen' : openTag.isPrefixOf ('<' :: (t ++ u)) = false := not_isPrefixOf_append (.inl rfl) hopen hpart u
    have hclose' : closeTag.isPrefixOf ('<' :: (t ++ u)) = false := not_isPrefixOf_append (.inr rfl) hclose hpart u
    rw [List.cons_append, scan_emit hopen' hclose' (couldBeTag_append hpart u), ih, emit_andThen,
      (emit_rest mode _ _).1, (emit_rest mode _ _).2.1]
  | case6 mode c t hc ih =>
    rw [List.cons_append, scan, if_neg hc, ih, emit_andThen, (emit_rest mode c _).1, (emit_rest mode c _).2.1]

structure Fed (mode : Bool) (t : Text) (p : ThinkingParser) : Prop where
  inThinking : p.inThinking = (scan mode t).inThinking
  buffer : p.buffer = (scan mode t).buffer
  closeSeen : p.closeSeen = (scan mode t).closed
  accumulated : p.thinkingAccumulated.flatten = (scan mode t).thinking
  streamed : p.thinkingAccumulated = [] ↔ (scan mode t).thinking = []
  emitted : p.contentEmitted = decide ((scan mode t).content ≠ [])

theorem Fed.init (mode recovery : Bool) : Fed mode [] { inThinking := mode, recoveryAsContent := recovery } := by
  constructor <;> simp [scan]

/-- One chunk. -/
theorem Fed.feed {p : ThinkingParser} (h : Fed mode t p) (u : Text) :
    Fed mode (t ++ u) (feed p u).1 ∧ (feed p u).1.recoveryAsContent = p.recoveryAsContent ∧
      (scan mode (t ++ u)).thinking = (scan mode t).thinking ++ (feed p u).2.1 ∧
      (scan mode (t ++ u)).content = (scan mode t).content ++ (feed p u).2.2 := by
  by_cases hu : u = []
  · subst hu
    simpa [Thinking.feed] using h
  · have happ := scan_append mode t u
    rw [← h.inThinking, ← h.buffer] at happ
    have hacc := h.accumulated
    have hstr := h.streamed
    unfold Thinking.feed
    rw [if_neg hu, happ]
    refine ⟨⟨?_, ?_, ?_, ?_, ?_, ?_⟩, rfl, rfl, rfl⟩
    · rw [happ]
      rfl
    · rw [happ]
      rfl
    · rw [happ, h.closeSeen]
      rfl
    · rw [happ]
      simp only [Scan.andThen, ← hacc]
      split
      · rename_i hnone
        simp [hnone]
      · simp
    · rw [happ]
      simp only [Scan.andThen, List.append_eq_nil_iff, ← hstr]
      split
      · rename_i hnone
        simp [hnone]
      · rename_i hsome
        simp [hsome]
    · rw [happ, h.emitted]
      simp only [Scan.andThen]
      rw [← Bool.decide_or]
      congr 1
      simp only [ne_eq, List.append_eq_nil_iff, not_and_or]

/-- Any number of chunks. -/
theorem Fed.feedAll {p : ThinkingParser} (h : Fed mode t p) (chunks : List Text) :
    Fed mode (t ++ chunks.flatten) (feedAll p chunks).1 ∧ (feedAll p chunks).1.recoveryAsContent = p.recoveryAsContent ∧
      (scan mode (t ++ chunks.flatten)).thinking = (scan mode t).thinking ++ (feedAll p chunks).2.1 ∧
      (scan mode (t ++ chunks.flatten)).content = (scan mode t).content ++ (feedAll p chunks).2.2 := by
  induction chunks generalizing t p with
  | nil => simpa [Thinking.feedAll] using h
  | cons u us ih =>
    obtain ⟨hfed, hrec, hthink, hcont⟩ := h.feed u
    obtain ⟨hfed', hrec', hthink', hcont'⟩ := ih hfed
    rw [List.flatten_cons, ← List.append_assoc]
    refine ⟨hfed', hrec'.trans hrec, ?_, ?_⟩
    · rw [hthink', hthink, List.append_assoc]
      rfl
    · rw [hcont', hcont, List.append_assoc]
      rfl

/-- The stream as the loop over the whole text and what is done with its end. -/
theorem parse_eq (mode recovery : Bool) (chunks : List Text) :
    parse mode recovery chunks =
      let r := scan mode chunks.flatten
      if r.inThinking ∧ r.closed = false ∧ r.content = [] ∧ r.thinking ≠ [] ∧ recovery then
        (r.thinking, r.content ++ (r.thinking ++ r.buffer))
      else if r.inThinking then (r.thinking ++ r.buffer, r.content)
      else (r.thinking, r.content ++ r.buffer) := by
  obtain ⟨hfed, hrec, hthink, hcont⟩ := (Fed.init mode recovery).feedAll chunks
  rw [List.nil_append] at hfed hthink hcont
  have hstart : (scan mode []).thinking = [] ∧ (scan mode []).content = [] := by
    rw [scan]
    exact ⟨rfl, rfl⟩
  rw [hstart.1, List.nil_append] at hthink
  rw [hstart.2, List.nil_append] at hcont
  unfold parse
  simp only [← hthink, ← hcont]
  unfold finish
  have hstr := hfed.streamed
  simp only [hfed.inThinking, hfed.closeSeen, hfed.emitted, hfed.accumulated, hfed.buffer, hrec, ne_eq, hstr,
    decide_not, Bool.not_eq_true, Bool.not_eq_true', decide_eq_false_iff_not, not_not]
  split
  · simp
  · split
    · rename_i hb
      simp [hb]
    · split <;> simp

theorem routed_open (h : openTag.isPrefixOf (c :: t) = true) : routed mode (c :: t) = routed true (t.drop 6) := by
  rw [routed, if_pos h]

theorem routed_close (hopen : openTag.isPrefixOf (c :: t) = false) (h : closeTag.isPrefixOf (c :: t) = true) :
    routed mode (c :: t) = routed false (t.drop 7) := by
  rw [routed, if_neg (by simp [hopen]), if_pos h]

theorem routed_char (hopen : openTag.isPrefixOf (c :: t) = false) (hclose : closeTag.isPrefixOf (c :: t) = false) :
    routed mode (c :: t) = (mode, c) :: routed mode t := by
  rw [routed, if_neg (by simp [hopen]), if_neg (by simp [hclose])]

theorem hasCloser_open (h : openTag.isPrefixOf (c :: t) = true) : hasCloser (c :: t) = hasCloser (t.drop 6) := by
  rw [hasCloser, if_pos h]

theorem hasCloser_close (hopen : openTag.isPrefixOf (c :: t) = false) (h : closeTag.isPrefixOf (c :: t) = true) :
    hasCloser (c :: t) = true := by
  rw [hasCloser, if_neg (by simp [hopen]), if_pos h]

theorem hasCloser_char (hopen : openTag.isPrefixOf (c :: t) = false) (hclose : closeTag.isPrefixOf (c :: t) = false) :
    hasCloser (c :: t) = hasCloser t := by
  rw [hasCloser, if_neg (by simp [hopen]), if_neg (by simp [hclose])]

/-- A text that holds no opening bracket holds no tag. -/
theorem routed_plain (mode : Bool) (h : '<' ∉ t) : routed mode t = t.map (mode, ·) ∧ hasCloser t = false := by
  induction t with
  | nil =>
    rw [routed, hasCloser]
    exact ⟨rfl, rfl⟩
  | cons c t ih =>
    rw [List.mem_cons, not_or] at h
    obtain ⟨h₁, h₂⟩ := ih h.2
    have hc : c ≠ '<' := fun he => h.1 he.symm
    have hopen := tag_head (.inl rfl) hc t
    have hclose := tag_head (.inr rfl) hc t
    rw [routed_char hopen hclose, hasCloser_char hopen hclose, h₁]
    exact ⟨rfl, h₂⟩

/-- A partial tag is one opening bracket and text without any. -/
theorem couldBeTag_tail (h : couldBeTag ('<' :: t) = true) : '<' ∉ t := by
  have hsub : '<' :: t <+: openTag ∨ '<' :: t <+: closeTag := by
    unfold couldBeTag at h
    split at h
    · cases h
    · split at h
      · rename_i ho
        exact .inl (ho ▸ List.take_prefix _ _)
      · have hc : closeTag.take ('<' :: t).length = '<' :: t := by simpa using h
        exact .inr (hc ▸ List.take_prefix _ _)
  intro hmem
  rcases hsub with hsub | hsub
  · have : t <+: openTag.tail := (List.cons_prefix_cons.1 hsub).2
    exact absurd (this.subset hmem) (by decide)
  · have : t <+: closeTag.tail := (List.cons_prefix_cons.1 hsub).2
    exact absurd (this.subset hmem) (by decide)

theorem ofMode_map (mode m : Bool) (t : Text) : ofMode m (t.map (mode, ·)) = if mode = m then t else [] := by
  unfold ofMode
  rw [List.filter_map, List.map_map]
  by_cases h : mode = m
  · have : ((fun x : Bool × Char => decide (x.1 = m)) ∘ fun x => (mode, x)) = fun _ => true := by
      funext x
      simp [h]
    rw [this, if_pos h]
    simp
  · have : ((fun x : Bool × Char => decide (x.1 = m)) ∘ fun x => (mode, x)) = fun _ => false := by
      funext x
      simp [h]
    rw [this, if_neg h]
    simp

/-- The characters of the text but for its tags, as the loop and its pending end have them. -/
theorem scan_routed (mode : Bool) (t : Text) :
    ofMode true (routed mode t) =
        (scan mode t).thinking ++ (if (scan mode t).inThinking then (scan mode t).buffer else []) ∧
      ofMode false (routed mode t) =
        (scan mode t).content ++ (if (scan mode t).inThinking then [] else (scan mode t).buffer) ∧
      hasCloser t = (scan mode t).closed := by
  fun_induction scan mode t with
  | case1 mode => simp [routed, hasCloser, ofMode]
  | case2 mode t hopen ih => rwa [routed_open hopen, hasCloser_open hopen]
  | case3 mode t r hopen hclose ih =>
    rw [Bool.not_eq_true] at hopen
    rw [routed_close hopen hclose, hasCloser_close hopen hclose]
    exact ⟨ih.1, ih.2.1, rfl⟩
  | case4 mode t hopen hclose hpart =>
    rw [Bool.not_eq_true] at hopen hclose
    obtain ⟨h₁, h₂⟩ := routed_plain mode (couldBeTag_tail hpart)
    rw [routed_char hopen hclose, hasCloser_char hopen hclose, h₁, ← List.map_cons (f := fun x => (mode, x)),
      ofMode_map, ofMode_map, h₂]
    cases mode <;> simp
  | case5 mode t hopen hclose hpart ih =>
    rw [Bool.not_eq_true] at hopen hclose
    rw [routed_char hopen hclose, hasCloser_char hopen hclose, (emit_rest mode _ _).1, (emit_rest mode _ _).2.1,
      (emit_rest mode _ _).2.2]
    obtain ⟨h₁, h₂, h₃⟩ := ih
    cases mode <;> simp_all [ofMode, Scan.emit]
  | case6 mode c t hc ih =>
    have hopen := tag_head (.inl rfl) hc t
    have hclose := tag_head (.inr rfl) hc t
    rw [routed_char hopen hclose, hasCloser_char hopen hclose, (emit_rest mode _ _).1, (emit_rest mode _ _).2.1,
      (emit_rest mode _ _).2.2]
    obtain ⟨h₁, h₂, h₃⟩ := ih
    cases mode <;> simp_all [ofMode, Scan.emit]

/-- Thinking text with no closer behind it leaves the parser thinking. -/
theorem scan_thinking (mode : Bool) (t : Text) (hclosed : (scan mode t).closed = false)
    (hmode : mode = true ∨ (scan mode t).thinking ≠ []) : (scan mode t).inThinking = true := by
  fun_induction scan mode t with
  | case1 mode => simpa using hmode
  | case2 mode t hopen ih => exact ih hclosed (.inl rfl)
  | case3 mode t r hopen hclose ih => cases hclosed
  | case4 mode t hopen hclose hpart => simpa using hmode
  | case5 mode t hopen hclose hpart ih =>
    rw [(emit_rest mode _ _).1]
    rw [(emit_rest mode _ _).2.2] at hclosed
    apply ih hclosed
    cases mode
    · simpa [Scan.emit] using hmode
    · exact .inl rfl
  | case6 mode c t hc ih =>
    rw [(emit_rest mode _ _).1]
    rw [(emit_rest mode _ _).2.2] at hclosed
    apply ih hclosed
    cases mode
    · simpa [Scan.emit] using hmode
    · exact .inl rfl

/-- However a text is cut, its characters but for the tags come out in the mode of the last tag
before them. The recovery changes this only where some thinking text went out, no closer came and
no content did: the partial tag at the end then goes to the content, behind all the thinking text. -/
theorem parse_exact (mode : Bool) (chunks : List Text) :
    parse mode false chunks =
        (ofMode true (routed mode chunks.flatten), ofMode false (routed mode chunks.flatten)) ∧
      parse mode true chunks =
        if hasCloser chunks.flatten = false ∧ ofMode false (routed mode chunks.flatten) = [] ∧
            (scan mode chunks.flatten).thinking ≠ [] then
          ((scan mode chunks.flatten).thinking,
            (scan mode chunks.flatten).thinking ++ (scan mode chunks.flatten).buffer)
        else (ofMode true (routed mode chunks.flatten), ofMode false (routed mode chunks.flatten)) := by
  obtain ⟨htrue, hfalse, hcloser⟩ := scan_routed mode chunks.flatten
  have hthinking := scan_thinking mode chunks.flatten
  rw [parse_eq, parse_eq, htrue, hfalse, hcloser]
  generalize scan mode chunks.flatten = r at *
  obtain ⟨inThinking, closed, thinking, content, buffer⟩ := r
  simp only at hthinking ⊢
  cases inThinking
  · -- not thinking at the end: with no closer there is no thinking text
    have hnone : ¬ (closed = false ∧ content ++ buffer = [] ∧ thinking ≠ []) := by
      rintro ⟨hclosed, -, hne⟩
      cases hthinking hclosed (.inr hne)
    simp only [Bool.false_eq_true, false_and, if_false, List.append_nil, if_neg hnone, and_self]
  · simp only [List.append_nil, if_true, true_and, and_true, Bool.false_eq_true, and_false, if_false]
    split
    · rename_i h
      simp [h.2.1]
    · rfl

/-- A partial tag alone is no content: the recovery asks for thinking text that went out. -/
theorem partial_tag_not_recovered :
    hasCloser ['<', 't', 'h'] = false ∧ ofMode false (routed true ['<', 't', 'h']) = [] ∧
      parse true true [['<', 't', 'h']] = (['<', 't', 'h'], []) := by
  refine ⟨by simp [hasCloser, openTag, closeTag], by simp [routed, openTag, closeTag, ofMode], ?_⟩
  simp [parse, feedAll, feed, scan, finish, couldBeTag, openTag, closeTag]

end FusionMlx.Reasoning.Thinking
