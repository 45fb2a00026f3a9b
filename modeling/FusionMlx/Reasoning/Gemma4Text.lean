import FusionMlx.Reasoning.Gemma4Parser

/-!
# Gemma 4 texts

A text is plain text and then segments, each a marker with the plain text up to
the next one. What the parser counts in it are its markers, whatever the plain
texts hold.
-/
namespace FusionMlx.Reasoning.Gemma4

open JsonText (Text)
open TextSearch

/-- No marker of a channel in the text. -/
def Free (t : Text) : Prop := ¬ opener <:+: t ∧ ¬ closer <:+: t

inductive Head where
  | thought
  | content
  | final
  | close
  deriving DecidableEq

def Head.mark : Head → Text
  | .thought => thoughtOpener
  | .content => contentOpener
  | .final => finalOpener
  | .close => closer

def Head.text : Head → Text
  | .close => closer
  | h => h.mark ++ ['\n']

abbrev Segment := Head × Text

def segmentText (s : Segment) : Text := s.1.text ++ s.2

variable {a b t u : Text} {h h' : Head} {segs : List Segment}

theorem Free.part (ht : Free t) (ha : a <:+: t) : Free a :=
  ⟨fun hin => ht.1 (hin.trans ha), fun hin => ht.2 (hin.trans ha)⟩

theorem Head.sharp (h : Head) : Sharp h.mark := by
  cases h <;> exact ⟨'<', _, rfl, by decide⟩

theorem Head.mark_head (h : Head) : h.mark.head? = some '<' := by
  cases h <;> rfl

theorem Free.mark (ht : Free t) (h : Head) : ¬ h.mark <:+: t := by
  cases h with
  | close => exact ht.2
  | thought => exact fun hin => ht.1 ((List.prefix_append opener thoughtWord).isInfix.trans hin)
  | content => exact fun hin => ht.1 ((List.prefix_append opener contentWord).isInfix.trans hin)
  | final => exact fun hin => ht.1 ((List.prefix_append opener finalWord).isInfix.trans hin)

/-- Only a marker itself starts like one. -/
theorem mark_prefix (hne : h ≠ h') : ¬ h.mark <+: h'.text ++ t := by
  cases h <;> cases h' <;>
    first
    | exact absurd rfl hne
    | simp [Head.mark, Head.text, thoughtOpener, contentOpener, finalOpener, opener, closer, thoughtWord,
        contentWord, finalWord]

theorem text_cons (h : Head) : ∃ l, h.text = '<' :: l ∧ '<' ∉ l := by
  cases h <;> exact ⟨_, rfl, by decide⟩

theorem mark_infix_text (hne : h ≠ h') : h.mark <:+: h'.text ++ t ↔ h.mark <:+: t := by
  obtain ⟨l, hl, hno⟩ := text_cons h'
  obtain ⟨⟨x, xs, hx, -⟩, hhead⟩ := And.intro h.sharp h.mark_head
  obtain rfl : x = '<' := by rw [hx] at hhead; simpa using hhead
  have hpre := mark_prefix (t := t) hne
  rw [hl, List.cons_append] at hpre ⊢
  rw [List.infix_cons_iff, or_iff_right hpre, hx]
  exact infix_append_of_head hno

theorem text_own (h : Head) : ∃ w, h.text = h.mark ++ w ∧ '<' ∉ w := by
  cases h
  case close => exact ⟨[], by simp [Head.text, Head.mark], by simp⟩
  all_goals exact ⟨['\n'], rfl, by decide⟩

theorem segments_head (segs : List Segment) :
    segs.flatMap segmentText = [] ∨ (segs.flatMap segmentText).head? = some '<' := by
  cases segs with
  | nil => exact .inl rfl
  | cons s segs =>
    obtain ⟨l, hl, -⟩ := text_cons s.1
    exact .inr (by simp [segmentText, hl])

theorem free_no_open (ht : '<' ∉ t) (hu : Free u) : Free (t ++ u) := by
  constructor
  · have := @infix_append_of_head _ _ u _ opener.tail ht
    exact fun hin => hu.1 (this.1 hin)
  · have := @infix_append_of_head _ _ u _ closer.tail ht
    exact fun hin => hu.2 (this.1 hin)

/-- As often as a marker stands in the segments it is counted, and then in what follows. -/
theorem count_segments_append {v : Text} (h : Head) (hu : Free u) (hs : ∀ s ∈ segs, Free s.2)
    (hv : v = [] ∨ v.head? = some '<') :
    count h.mark (u ++ segs.flatMap segmentText ++ v) =
      (segs.filter (fun s => s.1 = h)).length + count h.mark v := by
  have hhead : ∀ segs : List Segment, segs.flatMap segmentText ++ v = [] ∨
      (segs.flatMap segmentText ++ v).head? = h.mark.head? := fun segs => by
    rw [h.mark_head]
    cases segs with
    | nil => exact hv
    | cons s segs =>
      obtain ⟨l, hl, -⟩ := text_cons s.1
      exact .inr (by simp [segmentText, hl])
  induction segs generalizing u with
  | nil => simpa using h.sharp.count_skip (hu.mark h) (hhead [])
  | cons s segs ih =>
    have hfree := hs s (by simp)
    have hrest : ∀ s ∈ segs, Free s.2 := fun s' hs' => hs s' (by simp [hs'])
    by_cases hc : s.1 = h
    · obtain ⟨w, hw, hno⟩ := text_own h
      have hsplit : u ++ (s :: segs).flatMap segmentText ++ v =
          u ++ h.mark ++ ((w ++ s.2) ++ segs.flatMap segmentText ++ v) := by
        simp [segmentText, hc, hw]
      rw [hsplit, h.sharp.count_append (hu.mark h), ih (free_no_open hno hfree) hrest]
      simp [hc]
      omega
    · have hskip : ¬ h.mark <:+: u ++ (s.1.text ++ s.2) := by
        refine h.sharp.not_infix_append (hu.mark h) ?_ ?_
        · rw [mark_infix_text (Ne.symm hc)]
          exact hfree.mark h
        · obtain ⟨l, hl, -⟩ := text_cons s.1
          rw [h.mark_head, hl]
          rfl
      rw [List.flatMap_cons, ← List.append_assoc, List.append_assoc, segmentText,
        h.sharp.count_skip hskip (hhead segs)]
      have hnil := ih (u := []) (by constructor <;> decide) hrest
      rw [List.nil_append] at hnil
      rw [hnil]
      simp [hc]

theorem count_segments (h : Head) (hu : Free u) (hs : ∀ s ∈ segs, Free s.2) :
    count h.mark (u ++ segs.flatMap segmentText) = (segs.filter (fun s => s.1 = h)).length := by
  have hcount := count_segments_append (v := []) h hu hs (.inl rfl)
  have hnil : count h.mark [] = 0 := rfl
  rwa [List.append_nil, hnil, Nat.add_zero] at hcount

/-- A marker is in the text when it is in the segments. -/
theorem mark_infix_segments (h : Head) (hu : Free u) (hs : ∀ s ∈ segs, Free s.2) :
    h.mark <:+: u ++ segs.flatMap segmentText ↔ ∃ s ∈ segs, s.1 = h := by
  have hcount := count_segments h hu hs
  constructor
  · intro hin
    obtain ⟨r, hr⟩ : ∃ r, partition h.mark (u ++ segs.flatMap segmentText) = some r := by
      rw [← Option.ne_none_iff_exists', ne_eq, partition_none h.sharp.ne_nil, not_not]
      exact hin
    have hpos : 0 < (segs.filter (fun s => s.1 = h)).length := by
      rw [← hcount, count_some (a := r.1) (b := r.2) h.sharp.ne_nil hr]
      omega
    obtain ⟨s, hs'⟩ := List.exists_mem_of_length_pos hpos
    rw [List.mem_filter] at hs'
    exact ⟨s, hs'.1, by simpa using hs'.2⟩
  · rintro ⟨s, hmem, rfl⟩
    obtain ⟨w, hw, -⟩ := text_own s.1
    have hin : s.1.mark <:+: segmentText s := ⟨[], w ++ s.2, by simp [segmentText, hw]⟩
    exact (hin.trans (List.infix_of_mem_flatten (List.mem_map_of_mem hmem))).trans
      (List.suffix_append u _).isInfix

end FusionMlx.Reasoning.Gemma4
