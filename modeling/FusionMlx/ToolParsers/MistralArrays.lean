import FusionMlx.ToolParsers.MistralAgreement

/-!
# Arrays of the old format

The stream reads the array anew with each delta, and while the array is still
open it takes what stands between the first `[{` and the last `}]`. That can be
a list inside the array.
-/
namespace FusionMlx.ToolParsers.Mistral

open JsonText PyText TextSearch

variable {dumps str : Json → Text}

variable (dumps str) in
def earlyItems (b : Text) : List ToolCall :=
  if (loads (strip b)).isSome then []
  else (((toolCallRegexSearch (strip b)).bind loads).map (namedItems dumps str)).getD []

theorem toolCallRegexSearch_some {t group : Text} (h : toolCallRegexSearch t = some group) :
    ∃ a b r, partition ['[', '{'] t = some (a, b) ∧ group = '[' :: '{' :: r ∧ group <:+: t ∧
      ']' ∈ group := by
  unfold toolCallRegexSearch at h
  cases hp : partition ['[', '{'] t with
  | none => rw [hp] at h; cases h
  | some x =>
    obtain ⟨a, b⟩ := x
    rw [hp] at h
    obtain ⟨y, hy, rfl⟩ := Option.map_eq_some_iff.1 h
    have hb := rpartition_some hy
    have ht := partition_some hp
    refine ⟨a, b, y.1 ++ ['}', ']'], rfl, by simp, ⟨a, y.2, ?_⟩, by simp⟩
    rw [ht, hb]
    simp

theorem earlyItems_bracket {b : Text} (h : earlyItems dumps str b ≠ []) : ']' ∈ b := by
  unfold earlyItems at h
  split at h
  · exact absurd rfl h
  cases hg : toolCallRegexSearch (strip b) with
  | none => rw [hg] at h; exact absurd rfl h
  | some group =>
    obtain ⟨-, -, -, -, -, hin, hmem⟩ := toolCallRegexSearch_some hg
    have hs : strip b <:+: b :=
      (List.rdropWhile_prefix _ _).isInfix.trans (List.dropWhile_suffix _).isInfix
    exact (hin.trans hs).subset hmem

/-- A piece that starts like an array is read as a document, else by the list inside it. -/
theorem rawCalls_bracket {b t : Text} (h : strip b = '[' :: t) :
    rawCalls dumps str b =
      ((loads (strip b)).map (namedItems dumps str)).getD (earlyItems dumps str b) := by
  unfold rawCalls extractRaw earlyItems
  simp only [h]
  rw [if_neg (by simp), if_neg (by simp)]
  cases loads ('[' :: t) with
  | some v => simp
  | none =>
    simp only [Option.isSome_none, Bool.false_eq_true, if_false, Option.map_none, Option.getD_none]
    cases hg : toolCallRegexSearch ('[' :: t) with
    | none => rfl
    | some group =>
      dsimp only
      cases hv : loads group <;> simp [hv]

namespace OldArray

variable (a : OldArray)

theorem array_cons : ∃ t, a.array = '[' :: t := by
  have := a.outer.1
  cases harr : a.array with
  | nil => rw [harr] at this; cases this
  | cons z t => rw [harr] at this; exact ⟨t, by simpa using this⟩

theorem array_enclosed : Enclosed a.array := by
  obtain ⟨items, hv⟩ := a.parsed
  obtain ⟨t, ht⟩ := a.array_cons
  exact enclosed_of_outer hv ⟨t, .inr ht⟩ a.outer.2 (by decide)

/-- No beginning of the array is a document. -/
theorem loads_prefix {q : Text} (hq : q <+: a.array) (hne : q ≠ a.array) (hhead : q.head? = some '[') :
    loads q = none := by
  rw [← Option.not_isSome_iff_eq_none, Option.isSome_iff_exists]
  rintro ⟨v, hv⟩
  obtain ⟨t, rfl⟩ : ∃ t, q = '[' :: t := by
    cases q with
    | nil => cases hhead
    | cons x t => exact ⟨t, by simpa using hhead⟩
  obtain ⟨u, w, hu, henc, -⟩ := enclosed_of_loads hv ⟨t, .inr rfl⟩
  have hpre : u <+: '[' :: t := hu ▸ List.prefix_append u w
  have := henc.eq_of_prefix a.array_enclosed (hpre.trans hq)
  exact hne (hq.eq_of_length_le (this ▸ hpre.length_le))

variable (dumps str) in
def items : List ToolCall := ((loads a.array).map (namedItems dumps str)).getD []

/-- With the whole array in, the rest is white space. -/
theorem strip_complete {b : Text} (hb : b <+: a.text) (h : a.lead ++ a.array <+: b) :
    strip b = a.array := by
  obtain ⟨t, ht⟩ := a.array_cons
  obtain ⟨v, hv⟩ := List.getLast?_eq_some_iff.1 a.outer.2
  obtain ⟨w, rfl⟩ := h
  rw [text, List.prefix_append_right_inj] at hb
  have hw : Blank w := fun c hc => a.trail_blank c (hb.subset hc)
  rw [strip, List.append_assoc, lstrip_blank_append a.lead_blank, ht, List.cons_append,
    lstrip_eq_self (by decide), ← List.cons_append, ← ht, rstrip_append_blank _ hw, hv]
  exact rstrip_concat (by decide) v

/-- Before that it is white space or a part of the array. -/
theorem strip_open {b : Text} (hb : b <+: a.text) (h : ¬ a.lead ++ a.array <+: b) :
    Blank b ∨ ∃ t, strip b = '[' :: t ∧ '[' :: t <+: a.array ∧ '[' :: t ≠ a.array := by
  obtain ⟨t, ht⟩ := a.array_cons
  have hb' : b <+: a.lead ++ a.array := by
    rcases List.prefix_or_prefix_of_prefix hb (List.prefix_append (a.lead ++ a.array) a.trail) with hp | hp
    · exact hp
    · exact absurd hp h
  by_cases hlead : b.length ≤ a.lead.length
  · refine .inl (fun c hc => a.lead_blank c ?_)
    exact (List.prefix_of_prefix_length_le hb' (List.prefix_append _ _) hlead).subset hc
  obtain ⟨p, rfl⟩ := List.prefix_of_prefix_length_le (List.prefix_append a.lead a.array) hb' (by omega)
  rw [List.prefix_append_right_inj] at hb' h
  obtain ⟨q, rfl⟩ : ∃ q, p = '[' :: q := by
    cases p with
    | nil => simp at hlead
    | cons x q =>
      rw [ht] at hb'
      exact ⟨q, by rw [(List.cons_prefix_cons.1 hb').1]⟩
  have hstrip : strip (a.lead ++ '[' :: q) = rstrip ('[' :: q) := by
    rw [strip, lstrip_blank_append a.lead_blank, lstrip_eq_self (by decide)]
  have hpre : rstrip ('[' :: q) <+: '[' :: q := List.rdropWhile_prefix _ _
  -- Stripping the end leaves the opening bracket.
  obtain ⟨k, hk⟩ : ∃ k, rstrip ('[' :: q) = '[' :: k := by
    cases hr : rstrip ('[' :: q) with
    | nil =>
      have := List.rdropWhile_eq_nil_iff.1 hr '[' (by simp)
      exact absurd this (by decide)
    | cons y k =>
      rw [hr] at hpre
      exact ⟨k, by rw [(List.cons_prefix_cons.1 hpre).1]⟩
  rw [hk] at hpre
  refine .inr ⟨k, hstrip.trans hk, hpre.trans hb', ?_⟩
  intro heq
  rw [heq] at hpre
  exact h hpre

theorem early_complete {b : Text} (hb : b <+: a.text) (h : a.lead ++ a.array <+: b) :
    earlyItems dumps str b = [] := by
  obtain ⟨l, hl⟩ := a.parsed
  rw [earlyItems, a.strip_complete hb h, hl]
  rfl

/-- Without a marker a part of the array shows the items of the list inside it, and the whole array
its own. -/
theorem shown_unmarked (hm : ¬ botToken <:+: a.array) {b : Text} (hb : b <+: a.text) :
    shown dumps str b =
      if a.lead ++ a.array <+: b then a.items dumps str else earlyItems dumps str b := by
  have hshown : shown dumps str b = rawCalls dumps str b := by
    have hfree : ¬ botToken <:+: a.text := by
      rw [text]
      refine not_infix_blank a.trail_blank ?_
      rwa [infix_free (a.lead_blank.not_mem (by decide))]
    rw [shown, split_none ((partition_none botToken_sharp.ne_nil).2 (fun h => hfree (h.trans hb.isInfix)))]
    simp
  rw [hshown]
  split
  · rename_i hpre
    obtain ⟨t, ht⟩ := a.array_cons
    obtain ⟨l, hl⟩ := a.parsed
    have hs := a.strip_complete hb hpre
    rw [rawCalls_bracket (hs.trans ht), hs, items, hl]
    rfl
  · rename_i hopen
    rcases a.strip_open hb hopen with hblank | ⟨t, ht, hpre, hne⟩
    · have hs : strip b = [] := by
        rw [strip, lstrip, List.dropWhile_eq_nil_iff.2 hblank]
        rfl
      simp only [rawCalls, extractRaw, earlyItems, hs]
      rfl
    · rw [rawCalls_bracket ht, ht, a.loads_prefix hpre hne rfl]
      rfl

/-- The first body to show a call shows the array's items exactly when the first list found inside
the open array has them. -/
theorem find_early (hm : ¬ botToken <:+: a.array) {l : List Text} (hl : ∀ b ∈ l, b <+: a.text)
    (hpair : l.Pairwise (· <+: ·)) :
    (∀ b, l.find? (fun b => ']' ∈ b ∧ (shown dumps str b).isEmpty = false) = some b →
        shown dumps str b = a.items dumps str) ↔
      ∀ b, l.find? (fun b => (earlyItems dumps str b).isEmpty = false) = some b →
        earlyItems dumps str b = a.items dumps str := by
  induction l with
  | nil => simp
  | cons b l ih =>
    obtain ⟨hafter, hpair⟩ := List.pairwise_cons.1 hpair
    have hb := hl b (by simp)
    have hrest : ∀ b ∈ l, b <+: a.text := fun b h => hl b (by simp [h])
    by_cases hpre : a.lead ++ a.array <+: b
    · -- From here on the array is complete.
      have hfull : ∀ b' ∈ b :: l, a.lead ++ a.array <+: b' := by
        intro b' hb'
        rcases List.mem_cons.1 hb' with rfl | hb'
        · exact hpre
        · exact hpre.trans (hafter b' hb')
      refine iff_of_true (fun b' h => ?_) (fun b' h => ?_)
      · have hmem := List.mem_of_find?_eq_some h
        rw [a.shown_unmarked hm (hl b' hmem), if_pos (hfull b' hmem)]
      · have hmem := List.mem_of_find?_eq_some h
        have := List.find?_some h
        simp [a.early_complete (hl b' hmem) (hfull b' hmem)] at this
    · have hs := @OldArray.shown_unmarked dumps str a hm _ hb
      rw [if_neg hpre] at hs
      by_cases hearly : earlyItems dumps str b = []
      · rw [List.find?_cons_of_neg (by simp [hs, hearly]), List.find?_cons_of_neg (by simp [hearly])]
        exact ih hrest hpair
      · have hmem := earlyItems_bracket hearly
        rw [List.find?_cons_of_pos (by simp [hs, hearly, hmem]), List.find?_cons_of_pos (by simp [hearly])]
        simp [hs]

end OldArray

theorem bodies_isPrefix {prev content body : Text} {ds : List Text}
    (h : partition botToken (prev ++ ds.flatten) = some (content, body)) :
    ∀ b ∈ bodies prev ds, b <+: body := by
  induction ds generalizing prev with
  | nil => simp [bodies]
  | cons d ds ih =>
    rw [List.flatten_cons, ← List.append_assoc] at h
    intro b hb
    unfold bodies at hb
    rcases List.mem_append.1 hb with hb | hb
    · cases hp : partition botToken (prev ++ d) with
      | none => simp [hp] at hb
      | some r =>
        have happ := partition_append hp ds.flatten
        rw [h] at happ
        cases happ
        rw [hp] at hb
        obtain rfl : b = r.2 := by simpa using hb
        exact List.prefix_append _ _
    · exact ih h b hb

theorem bodies_grow {prev head b : Text} (h : partition botToken prev = some (head, b)) (ds : List Text) :
    ∀ b' ∈ bodies prev ds, b <+: b' := by
  induction ds generalizing prev b with
  | nil => simp [bodies]
  | cons d ds ih =>
    have happ := partition_append h d
    intro b' hb'
    unfold bodies at hb'
    rw [happ] at hb'
    rcases List.mem_append.1 hb' with hb' | hb'
    · obtain rfl : b' = b ++ d := by simpa using hb'
      exact List.prefix_append _ _
    · exact (List.prefix_append b d).trans (ih happ b' hb')

theorem bodies_pairwise (prev : Text) (ds : List Text) : (bodies prev ds).Pairwise (· <+: ·) := by
  induction ds generalizing prev with
  | nil => simp [bodies]
  | cons d ds ih =>
    unfold bodies
    cases hp : partition botToken (prev ++ d) with
    | none => simpa using ih (prev ++ d)
    | some r =>
      obtain ⟨head, b⟩ := r
      simpa using ⟨bodies_grow hp ds, ih (prev ++ d)⟩

variable (dumps str) in
/-- No call has a marker in its arguments or white space behind its tag. An array has no marker, and
the first list with named items that is found inside it while it is open has the array's items. -/
def Body.Plain (deltas : List Text) : Body → Prop
  | .calls l => ∀ c ∈ l, c.Clean ∧ c.gap = []
  | .array a => ¬ botToken <:+: a.array ∧
      ∀ b, (bodies [] deltas).find? (fun b => (earlyItems dumps str b).isEmpty = false) = some b →
        earlyItems dumps str b = a.items dumps str

/-- A marker stands in the array. -/
def Body.Marked : Body → Prop
  | .calls _ => False
  | .array a => botToken <:+: a.array

/-- Both ways agree on a text when its calls or its array are plain, and on texts without a marked
array only then. -/
theorem stream_agrees_iff (dumps str : Json → Text) (content : Text) (hc : ¬ botToken <:+: content)
    (body : Body) (deltas : List Text) (ht : deltas.flatten = content ++ body.text) :
    (body.Plain dumps str deltas → Agrees dumps str content deltas) ∧
      (Agrees dumps str content deltas → body.Plain dumps str deltas ∨ body.Marked) := by
  have hsettled := agrees_iff_settled dumps str content hc body deltas ht
  cases body with
  | calls l =>
    rw [hsettled]
    exact ⟨id, .inl⟩
  | array a =>
    have hpart : partition botToken deltas.flatten = some (content, a.text) := by
      rw [ht, Body.text, ← List.append_assoc]
      exact botToken_sharp.partition_append hc
    by_cases hm : botToken <:+: a.array
    · exact ⟨fun h => absurd hm h.1, fun _ => .inr hm⟩
    have hwhole := @OldArray.shown_unmarked dumps str a hm _ List.prefix_rfl
    rw [if_pos (show a.lead ++ a.array <+: a.text from List.prefix_append _ _)] at hwhole
    have hiff := @OldArray.find_early dumps str a hm (bodies [] deltas)
      (@bodies_isPrefix [] _ _ _ hpart) (bodies_pairwise [] deltas)
    rw [← hwhole] at hiff
    have hplain : (Body.array a).Plain dumps str deltas ↔ (Body.array a).Settled dumps str deltas := by
      rw [Body.Plain, Body.Settled, ← hwhole]
      exact (and_iff_right hm).trans hiff.symm
    rw [hsettled, hplain]
    exact ⟨id, .inl⟩

def markedCall : NewCall where
  lead := []
  name := ['f']
  mid := []
  tagged := true
  gap := []
  json := ['{', '\x22', 't', '\x22', ':', '\x22'] ++ botToken ++ ['\x22', '}']
  trail := []
  lead_blank := .nil
  name_ne := by decide
  name_strip := by decide
  name_plain := by decide
  mid_blank := .nil
  gap_blank := .nil
  gap_tagged := fun _ => rfl
  object := ⟨_, rfl, rfl⟩
  outer := by decide
  trail_blank := .nil

def plainCall : NewCall :=
  { markedCall with
    json := ['{', '\x22', 'a', '\x22', ':', '[', '1', ']', '}'], object := ⟨_, rfl, rfl⟩, outer := by decide }

theorem stream_agrees_split :
    Agrees (fun _ => ['{', '}']) (fun _ => ['{', '}']) ['o', 'k']
      [['o'], 'k' :: botToken, plainCall.text.take 11, plainCall.text.drop 11] :=
  (stream_agrees_iff _ _ ['o', 'k'] (by decide) (.calls [plainCall]) _ (by decide)).1 (by
    intro c hc
    obtain rfl : c = plainCall := by simpa using hc
    exact ⟨by unfold NewCall.Clean; decide, rfl⟩)

theorem marked_disagrees :
    ¬ Agrees (fun _ => ['{', '}']) (fun _ => ['{', '}']) [] [botToken, markedCall.text] := by
  rw [agrees_iff_settled _ _ [] (by decide) (.calls [markedCall]) _ (by decide)]
  intro h
  have := (h markedCall (by simp)).1
  unfold NewCall.Clean at this
  revert this
  decide

end FusionMlx.ToolParsers.Mistral
