import FusionMlx.ToolParsers.MistralCalls

/-!
# Streaming against reading the whole text

In the new format both ways give the same calls exactly when no marker stands
in the arguments and no white space between the tag and the object. In the old
format they do when the first part of the array that looks like calls looks
like the calls of the whole.
-/
namespace FusionMlx.ToolParsers.Mistral

open JsonText PyText TextSearch Transducers MistralToolParser NewCall

variable {dumps str : Json → Text} {calls : List NewCall} {c : NewCall}

theorem run_call {s : MistralToolParser} (hi : s.interBuffer = [])
    (hs : s.segment s.curSegIdx = {}) (c : NewCall) :
    ∃ e, e.argsClosed = true ∧ e.shownNames = [quoted c.name] ∧ e.argsBuffer = c.gap ++ c.json ∧
      (c.text.foldl walkChar s).curSegIdx = s.curSegIdx ∧ (c.text.foldl walkChar s).interBuffer = [] ∧
      ∀ i, (c.text.foldl walkChar s).segment i = if i = s.curSegIdx then e else s.segment i := by
  obtain ⟨e, hwalk, hclosed, hnames, hargs⟩ := c.walks
  refine ⟨e, hclosed, hnames, hargs, ?_⟩
  rw [← hs] at hwalk
  obtain ⟨h₁, h₂, h₃⟩ := foldl_walkChar_walks hwalk
  obtain ⟨k₁, k₂, k₃⟩ := foldl_walkChar_blank (t := c.trail) (by rw [h₁, h₃, if_pos rfl]; exact hclosed)
    (h₂.trans hi) c.trail_blank
  rw [text, List.foldl_append]
  exact ⟨k₁.trans h₁, k₂, fun i => (k₃ i).trans (h₃ i)⟩

/-- The calls come out one segment each, in order. -/
theorem run_calls {s : MistralToolParser} (hi : s.interBuffer = [])
    (hs : ∀ j, s.curSegIdx ≤ j → s.segment j = {}) (c : NewCall) (cs : List NewCall) (j : Nat) :
    (j < s.curSegIdx → ((c.text ++ behind cs).foldl walkChar s).segment j = s.segment j) ∧
      (((c.text ++ behind cs).foldl walkChar s).segment (s.curSegIdx + j)).shownNames =
        ((c :: cs)[j]?.map (fun c => quoted c.name)).toList ∧
      (((c.text ++ behind cs).foldl walkChar s).segment (s.curSegIdx + j)).argsBuffer =
        ((c :: cs)[j]?.map (fun c => c.gap ++ c.json)).getD [] := by
  obtain ⟨e, hclosed, hnames, hargs, h₁, h₂, h₃⟩ := run_call hi (hs _ (le_refl _)) c
  induction cs generalizing s c e j with
  | nil =>
    rw [show behind [] = [] from rfl, List.append_nil]
    refine ⟨fun hj => by rw [h₃, if_neg (by omega)], ?_⟩
    rw [h₃]
    cases j with
    | zero => simp [hnames, hargs]
    | succ j =>
      rw [if_neg (by omega), hs _ (by omega)]
      exact ⟨rfl, rfl⟩
  | cons d ds ih =>
    obtain ⟨k₁, k₂, k₃⟩ := foldl_walkChar_marker (s := c.text.foldl walkChar s)
      (by rw [h₁, h₃, if_pos rfl]; exact hclosed) h₂
    obtain ⟨s', hs'⟩ : ∃ s', s' = botToken.foldl walkChar (c.text.foldl walkChar s) := ⟨_, rfl⟩
    rw [← hs'] at k₁ k₂ k₃
    rw [h₁] at k₁
    have hfresh : ∀ j, s'.curSegIdx ≤ j → s'.segment j = {} := by
      intro j hj
      rw [k₃, h₃, if_neg (by omega), hs j (by omega)]
    have hrest : (c.text ++ behind (d :: ds)).foldl walkChar s =
        (d.text ++ behind ds).foldl walkChar s' := by
      rw [hs', behind, List.flatMap_cons, List.append_assoc, List.foldl_append, List.foldl_append]
      rfl
    obtain ⟨e', hclosed', hnames', hargs', m₁, m₂, m₃⟩ := run_call k₂ (hfresh _ (le_refl _)) d
    have hrun := fun j => ih k₂ hfresh d j e' hclosed' hnames' hargs' m₁ m₂ m₃
    rw [hrest]
    refine ⟨fun hj => ?_, ?_⟩
    · rw [(hrun j).1 (by omega), k₃, h₃, if_neg (by omega)]
    · cases j with
      | zero =>
        rw [Nat.add_zero, (hrun s.curSegIdx).1 (by omega), k₃, h₃, if_pos rfl]
        simp [hnames, hargs]
      | succ j =>
        have := (hrun j).2
        rw [k₁] at this
        rw [show s.curSegIdx + (j + 1) = s.curSegIdx + 1 + j by omega]
        simpa using this

def streamed (c : NewCall) : ToolCall := { name := quoted c.name, arguments := c.gap ++ c.json }

theorem track_calls (c : NewCall) (cs : List NewCall) (j : Nat) :
    ((track (c.text ++ behind cs)).segment j).shownNames =
        (((c :: cs).map streamed)[j]?.map ToolCall.name).toList ∧
      ((track (c.text ++ behind cs)).segment j).argsBuffer =
        (((c :: cs).map streamed)[j]?.map ToolCall.arguments).getD [] := by
  have h := (run_calls (s := {}) rfl (fun _ _ => rfl) c cs j).2
  rw [show (({} : MistralToolParser).curSegIdx + j) = j from Nat.zero_add j] at h
  rw [List.getElem?_map, Option.map_map, Option.map_map]
  exact h

/-- What stands before the arguments holds no marker. -/
theorem infix_free {a b : Text} (ha : '[' ∉ a) : botToken <:+: a ++ b ↔ botToken <:+: b := by
  refine ⟨fun h => ?_, List.infix_append_of_infix_right⟩
  rcases List.infix_append_iff_ne_nil.1 h with h | h | ⟨l₁, l₂, h₁, -, hl, hsuf, -⟩
  · exact absurd (h.subset (by simp [botToken])) ha
  · exact h
  · cases l₁ with
    | nil => exact absurd rfl h₁
    | cons x l₁ =>
      obtain rfl : '[' = x := by
        rw [botToken] at hl
        exact (List.cons.inj hl).1
      exact absurd (hsuf.subset (by simp)) ha

theorem infix_tag {b : Text} : botToken <:+: argsTag ++ b ↔ botToken <:+: b := by
  rw [show argsTag ++ b = '[' :: (['A', 'R', 'G', 'S', ']'] ++ b) from rfl, List.infix_cons_iff]
  rw [infix_free (a := ['A', 'R', 'G', 'S', ']']) (by decide)]
  refine ⟨fun h => h.resolve_left (fun hpre => ?_), .inr⟩
  rw [botToken] at hpre
  simp at hpre

theorem not_infix_blank {a b : Text} (hb : Blank b) (ha : ¬ botToken <:+: a) : ¬ botToken <:+: a ++ b := by
  intro h
  rcases List.infix_append_iff_ne_nil.1 h with h | h | ⟨l₁, l₂, -, h₂, hl, -, hpre⟩
  · exact ha h
  · exact hb.not_mem (c := '[') (by decide) (h.subset (by simp [botToken]))
  · have hlast : ']' ∈ l₂ := by
      have h₃ := congrArg List.getLast? hl
      rw [List.getLast?_append_of_ne_nil _ h₂] at h₃
      exact List.mem_of_getLast? h₃.symm
    exact hb.not_mem (c := ']') (by decide) (hpre.subset hlast)

namespace NewCall

variable (c : NewCall)

def front : Text := c.name ++ c.mid ++ c.tag ++ c.gap

theorem text_eq : c.text = c.lead ++ c.front ++ c.json ++ c.trail := by
  simp [text, front]

theorem infix_front {b : Text} : botToken <:+: c.lead ++ c.front ++ b ↔ botToken <:+: b := by
  have hgap : '[' ∉ c.gap := c.gap_blank.not_mem (by decide)
  rw [show c.lead ++ c.front ++ b = (c.lead ++ c.name ++ c.mid) ++ (c.tag ++ (c.gap ++ b)) by
    simp [front], infix_free c.header.1]
  unfold tag
  split
  · rw [infix_tag, infix_free hgap]
  · rw [List.nil_append, infix_free hgap]

theorem brace_not_mem_front : '{' ∉ c.front := by
  have h : '{' ∉ c.tag := by unfold tag; split <;> decide
  simp only [front, List.mem_append, not_or]
  exact ⟨⟨⟨c.name_plain.2, c.mid_blank.not_mem (by decide)⟩, h⟩, c.gap_blank.not_mem (by decide)⟩

/-- Without the tag and the white space the front is the name. -/
theorem strip_replace : strip (replace argsTag [] c.front) = c.name := by
  obtain ⟨x, y, hx, hxs, hy, hys⟩ := ends_of_strip c.name_strip c.name_ne
  have hsharp : Sharp argsTag := ⟨'[', _, rfl, by decide⟩
  have hfree : ∀ t : Text, '[' ∉ t → partition argsTag t = none := by
    intro t ht
    rw [partition_none hsharp.ne_nil]
    exact fun h => ht (h.subset (by simp [argsTag]))
  have hhead : '[' ∉ c.name ++ c.mid := by
    simp only [List.mem_append, not_or]
    exact ⟨c.name_plain.1, c.mid_blank.not_mem (by decide)⟩
  have hgap : '[' ∉ c.gap := c.gap_blank.not_mem (by decide)
  have hrep : replace argsTag [] c.front = c.name ++ c.mid ++ c.gap := by
    unfold replace front tag
    cases htag : c.tagged with
    | true =>
      rw [if_pos rfl, hsharp.split_append (by
        rw [← partition_none hsharp.ne_nil]; exact hfree _ hhead), split_none (hfree _ hgap)]
      simp [List.intercalate]
    | false =>
      rw [if_neg (by decide), c.gap_tagged htag, List.append_nil, List.append_nil,
        split_none (hfree _ hhead)]
      simp [List.intercalate]
  rw [hrep, show c.name ++ c.mid ++ c.gap = [] ++ c.name ++ (c.mid ++ c.gap) by simp]
  exact strip_pad .nil (c.mid_blank.append c.gap_blank) hxs hys hx hy

/-- A piece that starts like the call is read as one. -/
theorem extractRaw_front (acc : Text × List ToolCall) {j : Text} (hj : j.head? = some '{') :
    extractRaw dumps str acc (c.lead ++ c.front ++ j) =
      (acc.1, acc.2 ++ [{ name := quoted c.name, arguments := rstrip j }]) := by
  obtain ⟨x, y, hx, hxs, -, -⟩ := ends_of_strip c.name_strip c.name_ne
  obtain ⟨j', rfl⟩ : ∃ j', j = '{' :: j' := by
    cases j with
    | nil => cases hj
    | cons z j' => exact ⟨j', by simpa using hj⟩
  obtain ⟨n, hn⟩ : ∃ n, c.name = x :: n := by
    cases hname : c.name with
    | nil => exact absurd hname c.name_ne
    | cons z n => exact ⟨n, by rw [hname] at hx; simpa using hx⟩
  -- Stripping the end leaves at least the brace.
  obtain ⟨k, hk⟩ : ∃ k, rstrip ('{' :: j') = '{' :: k := by
    by_cases hnil : rstrip j' = []
    · refine ⟨[], ?_⟩
      have hblank : Blank j' := by
        intro z hz
        have := List.rdropWhile_eq_nil_iff.1 hnil z hz
        simpa using this
      exact (rstrip_append_blank ['{'] hblank).trans (rstrip_concat (by decide) [])
    · exact ⟨rstrip j', rstrip_append ['{'] hnil⟩
  have hstrip : strip (c.lead ++ c.front ++ '{' :: j') = c.front ++ '{' :: k := by
    rw [strip, List.append_assoc, lstrip_blank_append c.lead_blank]
    have hfront : c.front ++ '{' :: j' = x :: (n ++ c.mid ++ c.tag ++ c.gap ++ '{' :: j') := by
      simp [front, hn]
    rw [hfront, lstrip_eq_self hxs, ← hfront, rstrip_append _ (by rw [hk]; simp), hk]
  have hne : c.front ++ '{' :: k ≠ [] := by simp
  have hopen : (c.front ++ '{' :: k).head? ≠ some '[' := by
    intro h
    rw [front, hn] at h
    obtain rfl : x = '[' := by simpa using h
    exact c.name_plain.1 (by rw [hn]; simp)
  have hmem : '{' ∈ c.front ++ '{' :: k := by simp
  have hpos : ∀ z ∈ c.front, decide (z ≠ '{') = true := by
    intro z hz
    simp only [decide_eq_true_eq]
    rintro rfl
    exact c.brace_not_mem_front hz
  have htake : (c.front ++ '{' :: k).takeWhile (· ≠ '{') = c.front := by
    rw [List.takeWhile_append_of_pos hpos]
    simp
  have hdrop : (c.front ++ '{' :: k).dropWhile (· ≠ '{') = '{' :: k := by
    rw [List.dropWhile_append_of_pos hpos]
    simp
  unfold extractRaw
  simp only [hstrip, if_neg hne, if_pos (And.intro hopen hmem), htake, hdrop, c.strip_replace,
    if_neg c.name_ne, hk]

def pieces : List NewCall → List Text
  | [] => []
  | c :: cs => split botToken (c.text ++ behind cs)

/-- No marker in the arguments. -/
def Clean : Prop := ¬ botToken <:+: c.json

theorem split_clean (hc : c.Clean) (cs : List NewCall) :
    split botToken (c.text ++ behind cs) = c.text :: pieces cs := by
  have hfree : ¬ botToken <:+: c.text := by
    rw [text_eq, List.append_assoc, infix_front]
    exact not_infix_blank c.trail_blank hc
  cases cs with
  | nil =>
    rw [show behind [] = [] from rfl, List.append_nil]
    exact split_none ((partition_none botToken_sharp.ne_nil).2 hfree)
  | cons d ds =>
    rw [show c.text ++ behind (d :: ds) = c.text ++ botToken ++ (d.text ++ behind ds) by
      simp [behind]]
    exact botToken_sharp.split_append hfree

/-- A marker in the arguments cuts them short. -/
theorem split_dirty (hc : ¬ c.Clean) (rest : Text) :
    ∃ j raws, split botToken (c.text ++ rest) = (c.lead ++ c.front ++ j) :: raws ∧
      j.head? = some '{' ∧ j.length < c.json.length := by
  obtain ⟨⟨j, k⟩, hpart⟩ : ∃ r, partition botToken c.json = some r := by
    refine Option.ne_none_iff_exists'.1 (fun hnone => hc ?_)
    exact (partition_none botToken_sharp.ne_nil).1 hnone
  have hjson := partition_some hpart
  have hj : ¬ botToken <:+: j := by
    rintro ⟨a, b, hab⟩
    have hle := @partition_least _ _ _ _ _ _ a (b ++ botToken ++ k) hpart
      (by rw [hjson, ← hab]; simp)
    have hlen := congrArg List.length hab
    have hpos : 0 < botToken.length := by decide
    simp only [List.length_append] at hlen
    omega
  have hsplit : c.text ++ rest = (c.lead ++ c.front ++ j) ++ botToken ++ (k ++ c.trail ++ rest) := by
    rw [text_eq]
    conv_lhs => rw [hjson]
    simp
  refine ⟨j, split botToken (k ++ c.trail ++ rest), ?_, ?_, ?_⟩
  · rw [hsplit]
    exact botToken_sharp.split_append (fun h => hj (c.infix_front.1 h))
  · have hhead := c.outer.1
    rw [hjson] at hhead
    cases j with
    | nil => simp [botToken] at hhead
    | cons z j => simpa using hhead
  · have hlen := congrArg List.length hjson
    have hpos : 0 < botToken.length := by decide
    simp only [List.length_append] at hlen
    omega

end NewCall

/-- The loop over the pieces only adds calls. -/
theorem extractRaw_grows (acc : Text × List ToolCall) (raw : Text) :
    acc.2 <+: (extractRaw dumps str acc raw).2 := by
  unfold extractRaw
  dsimp only
  split
  · exact List.prefix_rfl
  · split
    · split
      · exact List.prefix_rfl
      · exact List.prefix_append _ _
    · split
      · exact List.prefix_append _ _
      · split
        · exact List.prefix_rfl
        · split
          · exact List.prefix_append _ _
          · exact List.prefix_rfl

theorem foldl_extractRaw_grows (acc : Text × List ToolCall) (raws : List Text) :
    acc.2 <+: (raws.foldl (extractRaw dumps str) acc).2 := by
  induction raws generalizing acc with
  | nil => exact List.prefix_rfl
  | cons raw raws ih => exact (extractRaw_grows acc raw).trans (ih _)

/-- Reading the pieces gives the streamed calls exactly when every object is free of markers and
stands close behind its tag. -/
theorem pieces_iff (acc : Text × List ToolCall) (calls : List NewCall) :
    ((pieces calls).foldl (extractRaw dumps str) acc).2 = acc.2 ++ calls.map streamed ↔
      ∀ d ∈ calls, d.Clean ∧ d.gap = [] := by
  induction calls generalizing acc with
  | nil => simp [pieces]
  | cons c cs ih =>
    -- The first call as it is read, when it differs from the streamed one.
    have hdiffer : ∀ (j : Text) (raws : List Text), rstrip j ≠ c.gap ++ c.json →
        (raws.foldl (extractRaw dumps str)
          (acc.1, acc.2 ++ [{ name := quoted c.name, arguments := rstrip j }])).2 ≠
            acc.2 ++ (c :: cs).map streamed := by
      intro j raws hne heq
      have hgrow := @foldl_extractRaw_grows dumps str
        (acc.1, acc.2 ++ [{ name := quoted c.name, arguments := rstrip j }]) raws
      rw [heq] at hgrow
      have h := (List.prefix_append_right_inj acc.2).1 hgrow
      rw [List.map_cons, List.cons_prefix_cons] at h
      exact hne (congrArg ToolCall.arguments h.1)
    obtain ⟨v, x, hjson, hx, -⟩ := c.json_parts
    have hends : rstrip (c.json ++ c.trail) = c.json := by
      rw [rstrip_append_blank _ c.trail_blank, hjson, ← List.cons_append]
      exact rstrip_concat (by rcases hx with rfl | rfl <;> decide) _
    rw [pieces]
    by_cases hc : c.Clean
    · have hread := @NewCall.extractRaw_front dumps str c acc (c.json ++ c.trail)
        (by rw [hjson]; rfl)
      rw [← List.append_assoc, ← text_eq] at hread
      rw [c.split_clean hc, List.foldl_cons, hread]
      by_cases hgap : c.gap = []
      · have hsame : ({ name := quoted c.name, arguments := rstrip (c.json ++ c.trail) } : ToolCall) =
            streamed c := by
          simp [streamed, hgap, hends]
        have ih := ih (acc.1, acc.2 ++ [streamed c])
        rw [List.append_assoc] at ih
        rw [hsame, List.forall_mem_cons, ← ih]
        simp [hc, hgap]
      · refine iff_of_false (hdiffer _ _ ?_) (fun h => hgap (h c (by simp)).2)
        rw [hends]
        intro h
        exact hgap (List.self_eq_append_left.1 h)
    · obtain ⟨j, raws, hsplit, hhead, hlen⟩ := c.split_dirty hc (behind cs)
      rw [hsplit, List.foldl_cons, c.extractRaw_front acc hhead]
      refine iff_of_false (hdiffer j raws ?_) (fun h => hc (h c (by simp)).1)
      intro h
      have h₁ := congrArg List.length h
      have h₂ := rstrip_length_le j
      rw [List.length_append] at h₁
      omega

variable (dumps str)

def rawCalls (raw : Text) : List ToolCall := (extractRaw dumps str ([], []) raw).2

def shown (body : Text) : List ToolCall := (split botToken body).flatMap (rawCalls dumps str)

variable {dumps str}

theorem extractRaw_calls (acc : Text × List ToolCall) (raw : Text) :
    (extractRaw dumps str acc raw).2 = acc.2 ++ rawCalls dumps str raw := by
  unfold rawCalls extractRaw
  dsimp only
  split
  · simp
  · split
    · split <;> simp
    · split
      · simp
      · split
        · simp
        · split <;> simp

theorem foldl_extractRaw_calls (acc : Text × List ToolCall) (raws : List Text) :
    (raws.foldl (extractRaw dumps str) acc).2 = acc.2 ++ raws.flatMap (rawCalls dumps str) := by
  induction raws generalizing acc with
  | nil => simp
  | cons raw raws ih => rw [List.foldl_cons, ih, extractRaw_calls, List.flatMap_cons, List.append_assoc]

variable {t body : Text}

/-- The calls of a text are those that the body behind the first marker shows. -/
theorem extractToolCalls_shown {head : Text} (h : partition botToken t = some (head, body)) :
    (extractToolCalls dumps str t).toolCalls = shown dumps str body ∧
      ((extractToolCalls dumps str t).toolsCalled = true ↔ shown dumps str body ≠ []) := by
  have hc : contains botToken t = true := by rw [contains, h]; rfl
  have hfold := @foldl_extractRaw_calls dumps str (strip head, []) (split botToken body)
  rw [List.nil_append, ← shown] at hfold
  unfold extractToolCalls
  rw [if_neg (by simp [hc]), split_some botToken_sharp.ne_nil h]
  dsimp only
  rw [hfold]
  split
  · rename_i hnil
    simp [hnil]
  · rename_i hne
    exact ⟨rfl, by simp [hne]⟩

theorem extractToolCalls_none (h : partition botToken t = none) :
    (extractToolCalls dumps str t).toolCalls = [] := by
  rw [extractToolCalls, if_pos (by rw [contains, h]; decide)]

structure OldArray where
  lead : Text
  array : Text
  trail : Text
  lead_blank : Blank lead
  parsed : ∃ items, loads array = some (.arr items)
  outer : array.head? = some '[' ∧ array.getLast? = some ']'
  trail_blank : Blank trail

def OldArray.text (a : OldArray) : Text := a.lead ++ a.array ++ a.trail

def bodies : Text → List Text → List Text
  | _, [] => []
  | prev, d :: ds => ((partition botToken (prev ++ d)).map Prod.snd).toList ++ bodies (prev ++ d) ds

variable (dumps str)

def firstShow (prev : Text) (deltas : List Text) : Option Text :=
  (bodies prev deltas).find? (fun b => ']' ∈ b ∧ (shown dumps str b).isEmpty = false)

variable {dumps str}

def OldState (s : MistralToolParser) (prev : Text) : Prop :=
  match partition botToken prev with
  | none => s.streamFormat = none
  | some (_, b) => s.streamFormat = if lstrip b = [] then none else some .old

def Bracketed (body : Text) : Prop := ∀ b, b <+: body → ∀ c t, lstrip b = c :: t → c = '['

theorem classify_old {s : MistralToolParser} {prev d head b content : Text}
    (hT : partition botToken t = some (content, body)) (hbody : Bracketed body)
    (hprev : prev ++ d <+: t) (hs : OldState s prev) (hcur : partition botToken (prev ++ d) = some (head, b)) :
    classify s b = if lstrip b = [] then none else some .old := by
  have hb : b <+: body := by
    obtain ⟨rest, hrest⟩ := hprev
    have := partition_append hcur rest
    rw [hrest, hT] at this
    cases this
    exact List.prefix_append b rest
  have hfirst : s.streamFormat = none → classify s b = if lstrip b = [] then none else some .old := by
    intro hnone
    unfold classify
    rw [hnone]
    cases hl : lstrip b with
    | nil => rfl
    | cons c t => simp [hbody b hb c t hl]
  unfold OldState at hs
  cases hp : partition botToken prev with
  | none =>
    rw [hp] at hs
    exact hfirst hs
  | some r =>
    obtain ⟨head', b'⟩ := r
    rw [hp] at hs
    have happ := partition_append hp d
    rw [hcur] at happ
    cases happ
    change s.streamFormat = if lstrip b' = [] then none else some .old at hs
    by_cases hblank : lstrip b' = []
    · rw [if_pos hblank] at hs
      exact hfirst hs
    · rw [if_neg hblank] at hs
      have hne : lstrip (b' ++ d) ≠ [] := by
        intro hnil
        rw [lstrip, List.dropWhile_eq_nil_iff] at hnil
        exact hblank (List.dropWhile_eq_nil_iff.2 (fun x hx => hnil x (by simp [hx])))
      rw [classify, hs, if_neg hne]

def listing (calls : List ToolCall) : List ToolCallDelta :=
  calls.mapIdx (fun i tc => { index := i, name := some tc.name, arguments := some tc.arguments })

theorem partition_botToken (b : Text) : partition botToken (botToken ++ b) = some ([], b) :=
  botToken_sharp.partition_append (a := []) (by simp [botToken])

/-- One call of the old format: it tells what the body shows, once. -/
theorem streamOldFormat_spec (s : MistralToolParser) (b : Text) (result : Delta)
    (hresult : result.toolCalls = []) :
    (streamOldFormat dumps str s b result).1.streamFormat = s.streamFormat ∧
      (streamOldFormat dumps str s b result).1.streamOldEmitted =
        (s.streamOldEmitted || decide (']' ∈ b ∧ (shown dumps str b).isEmpty = false)) ∧
      (streamOldFormat dumps str s b result).2.toolCalls =
        if s.streamOldEmitted = false ∧ ']' ∈ b then listing (shown dumps str b) else [] := by
  obtain ⟨hcalls, hcalled⟩ := @extractToolCalls_shown dumps str _ _ _ (partition_botToken b)
  unfold streamOldFormat
  dsimp only
  by_cases he : s.streamOldEmitted
  · simp [he, hresult]
  have he : s.streamOldEmitted = false := by simpa using he
  by_cases hb : ']' ∈ b
  · by_cases hs : shown dumps str b = []
    · have hno : (extractToolCalls dumps str (botToken ++ b)).toolsCalled = false := by
        rw [← Bool.not_eq_true, hcalled, not_not]
        exact hs
      simp [he, hb, hno, hs, hresult, listing]
    · have hyes := hcalled.2 hs
      simp [he, hb, hyes, hs, hcalls, listing]
  · simp [he, hb, hresult]

def headDelta (prev head : Text) : Delta :=
  if contains botToken prev then {} else { content := head.drop (safeContentPrefix prev).length }

theorem headDelta_calls (prev head : Text) : (headDelta prev head).toolCalls = [] := by
  unfold headDelta
  split <;> rfl

theorem streamStep_none {s : MistralToolParser} {prev d : Text}
    (h : partition botToken (prev ++ d) = none) :
    streamStep dumps str (s, prev) d = ((s, prev ++ d), [emitSafeContent prev (prev ++ d)]) := by
  simp only [streamStep, extractToolCallsStreaming, h]

theorem streamStep_some {s : MistralToolParser} {prev d head b : Text}
    (h : partition botToken (prev ++ d) = some (head, b)) :
    streamStep dumps str (s, prev) d =
      (((streamBody dumps str { s with streamFormat := classify s b } b (headDelta prev head)).1, prev ++ d),
        [(streamBody dumps str { s with streamFormat := classify s b } b (headDelta prev head)).2]) := by
  simp only [streamStep, extractToolCallsStreaming, h]
  rfl

theorem emitSafeContent_calls (prev cur : Text) : (emitSafeContent prev cur).toolCalls = [] := by
  unfold emitSafeContent
  dsimp only
  split <;> rfl

/-- By the end the stream has told what the first body that shows a call shows. -/
theorem stream_old {content : Text} (hT : partition botToken t = some (content, body))
    (hbody : Bracketed body) {s : MistralToolParser} {prev : Text} {ds : List Text}
    (htext : prev ++ ds.flatten = t) (hs : OldState s prev) :
    (feed (streamStep dumps str) (s, prev) ds).2.flatMap Delta.toolCalls =
      if s.streamOldEmitted then []
      else listing (((firstShow dumps str prev ds).map (shown dumps str)).getD []) := by
  induction ds generalizing s prev with
  | nil => simp [firstShow, bodies, listing]
  | cons d ds ih =>
    rw [List.flatten_cons, ← List.append_assoc] at htext
    rw [feed_cons, List.flatMap_append, firstShow, bodies, List.find?_append]
    cases hcur : partition botToken (prev ++ d) with
    | none =>
      have hnone : partition botToken prev = none := by
        rw [partition_none botToken_sharp.ne_nil] at hcur ⊢
        exact fun h => hcur (List.infix_append_of_infix_left h)
      have hs' : OldState s (prev ++ d) := by
        unfold OldState at hs ⊢
        rw [hnone] at hs
        rw [hcur]
        exact hs
      rw [streamStep_none hcur, ih htext hs']
      simp [emitSafeContent_calls, firstShow]
    | some r =>
      obtain ⟨head, b⟩ := r
      rw [streamStep_some hcur, classify_old hT hbody (htext ▸ List.prefix_append _ _) hs hcur]
      by_cases hblank : lstrip b = []
      · have hb : ']' ∉ b := by
          intro hmem
          have := List.dropWhile_eq_nil_iff.1 hblank ']' hmem
          exact absurd this (by decide)
        have hs' : OldState { s with streamFormat := none } (prev ++ d) := by
          unfold OldState
          rw [hcur]
          exact (if_pos hblank).symm
        rw [if_pos hblank]
        simp only [streamBody]
        rw [ih htext hs']
        simp [headDelta_calls, hb, firstShow]
      · obtain ⟨h₁, h₂, h₃⟩ := @streamOldFormat_spec dumps str
          { s with streamFormat := some .old } b _ (headDelta_calls prev head)
        have hs' : OldState (streamOldFormat dumps str { s with streamFormat := some .old } b
            (headDelta prev head)).1 (prev ++ d) := by
          unfold OldState
          rw [hcur, h₁]
          exact (if_neg hblank).symm
        rw [if_neg hblank]
        simp only [streamBody, List.flatMap_cons, List.flatMap_nil, List.append_nil, h₃]
        rw [ih htext hs', h₂]
        by_cases he : s.streamOldEmitted
        · simp [he]
        have he : s.streamOldEmitted = false := by simpa using he
        by_cases hb : ']' ∈ b
        · by_cases hnil : shown dumps str b = []
          · simp [he, hb, hnil, listing, firstShow]
          · simp [he, hb, hnil]
        · simp [he, hb, firstShow]

inductive Body where
  | calls (l : List NewCall)
  | array (a : OldArray)

def Body.text : Body → Text
  | .calls l => behind l
  | .array a => botToken ++ a.text

variable (dumps str)

/-- The stream gives the content and, index by index, the calls that the whole text gives. -/
structure Agrees (content : Text) (deltas : List Text) : Prop where
  content : (stream dumps str deltas).2.flatMap Delta.content ++ flushHeldContent deltas.flatten = content
  calls : ∀ i, names i (stream dumps str deltas).2 =
      ((extractToolCalls dumps str deltas.flatten).toolCalls[i]?.map ToolCall.name).toList ∧
    arguments i (stream dumps str deltas).2 =
      ((extractToolCalls dumps str deltas.flatten).toolCalls[i]?.map ToolCall.arguments).getD []

variable {dumps str}

theorem listing_names (calls : List ToolCall) (i : Nat) :
    ((listing calls).filter (fun tc => tc.index = i)).filterMap ToolCallDelta.name =
        (calls[i]?.map ToolCall.name).toList ∧
      ((listing calls).filter (fun tc => tc.index = i)).flatMap (fun tc => tc.arguments.getD []) =
        (calls[i]?.map ToolCall.arguments).getD [] := by
  have hflat : ∀ calls : List ToolCall, (calls.mapIdx (fun i tc =>
      [{ index := i, name := some tc.name, arguments := some tc.arguments : ToolCallDelta }])).flatten =
        listing calls := by
    intro calls
    unfold listing
    induction calls using List.reverseRecOn with
    | nil => rfl
    | append_singleton l tc ih => simp [List.mapIdx_append, ih]
  have h := filter_mapIdx ToolCallDelta.index (fun i (tc : ToolCall) =>
    [{ index := i, name := some tc.name, arguments := some tc.arguments : ToolCallDelta }]) 0
    (fun i tc x hx => by simp at hx; simp [hx]) calls i
  rw [hflat, Nat.add_zero] at h
  rw [h]
  cases calls[i]? <;> simp

/-- Lists of calls that agree index by index are the same. -/
theorem calls_ext {l l' : List ToolCall}
    (h : ∀ i : Nat, (l[i]?.map ToolCall.name).toList = (l'[i]?.map ToolCall.name).toList ∧
      (l[i]?.map ToolCall.arguments).getD [] = (l'[i]?.map ToolCall.arguments).getD []) : l = l' := by
  refine List.ext_getElem? (fun i => ?_)
  obtain ⟨hname, hargs⟩ := h i
  cases hl : l[i]? with
  | none =>
    cases hl' : l'[i]? with
    | none => rfl
    | some tc => simp [hl, hl'] at hname
  | some tc =>
    cases hl' : l'[i]? with
    | none => simp [hl, hl'] at hname
    | some tc' =>
      obtain ⟨n, a⟩ := tc
      obtain ⟨n', a'⟩ := tc'
      simp only [hl, hl', Option.map_some, Option.toList_some, List.cons.injEq, and_true,
        Option.getD_some] at hname hargs
      rw [hname, hargs]

/-- The calls agree when the stream tells those of one list and the whole text has them. -/
theorem agrees_iff {content : Text} {deltas : List Text} {told : List ToolCall}
    (hcontent : ((partition botToken deltas.flatten).map Prod.fst).getD deltas.flatten = content)
    (htold : ∀ i, names i (stream dumps str deltas).2 = (told[i]?.map ToolCall.name).toList ∧
      arguments i (stream dumps str deltas).2 = (told[i]?.map ToolCall.arguments).getD []) :
    Agrees dumps str content deltas ↔ (extractToolCalls dumps str deltas.flatten).toolCalls = told := by
  constructor
  · intro h
    refine (calls_ext (fun i => ?_)).symm
    rw [← (htold i).1, ← (htold i).2]
    exact h.calls i
  · intro h
    refine ⟨(stream_content deltas).trans hcontent, fun i => ?_⟩
    rw [h]
    exact htold i

/-- The first character behind the white space is the same in every beginning that has it. -/
theorem lstrip_head {b : Text} (hb : b <+: body) {x c : Char} {u : Text}
    (hbody : lstrip body = x :: u) (h : lstrip b = c :: t) : c = x := by
  obtain ⟨r, rfl⟩ := hb
  rw [lstrip, List.dropWhile_append, ← lstrip, h] at hbody
  simpa using congrArg List.head? hbody

/-- The last of the bodies is the whole one. -/
theorem mem_bodies {prev head b : Text} {ds : List Text} (hne : ds ≠ [])
    (h : partition botToken (prev ++ ds.flatten) = some (head, b)) : b ∈ bodies prev ds := by
  induction ds generalizing prev with
  | nil => exact absurd rfl hne
  | cons d ds ih =>
    rw [List.flatten_cons, ← List.append_assoc] at h
    unfold bodies
    cases ds with
    | nil =>
      rw [List.flatten_nil, List.append_nil] at h
      simp [h, bodies]
    | cons e es => exact List.mem_append_right _ (ih (by simp) h)

/-- A text without a marker tells no call. -/
theorem stream_quiet (ht : partition botToken t = none) {s : MistralToolParser}
    {prev : Text} {ds : List Text} (htext : prev ++ ds.flatten = t) :
    (feed (streamStep dumps str) (s, prev) ds).2.flatMap Delta.toolCalls = [] := by
  induction ds generalizing s prev with
  | nil => rfl
  | cons d ds ih =>
    rw [List.flatten_cons, ← List.append_assoc] at htext
    have hcur : partition botToken (prev ++ d) = none := by
      rw [partition_none botToken_sharp.ne_nil] at ht ⊢
      exact fun h => ht (htext ▸ List.infix_append_of_infix_left h)
    rw [feed_cons, List.flatMap_append, streamStep_none hcur, ih htext]
    simp [emitSafeContent_calls]

variable (dumps str) in
/-- No call has a marker in its arguments or white space behind its tag; of an array the first body
that shows a call shows what the whole one shows. -/
def Body.Settled (deltas : List Text) : Body → Prop
  | .calls l => ∀ c ∈ l, c.Clean ∧ c.gap = []
  | .array a => ∀ b, firstShow dumps str [] deltas = some b → shown dumps str b = shown dumps str a.text

/-- Both ways agree on a text of calls exactly when no call has a marker in its arguments or white
space behind its tag; on a text with an array exactly when the first body to show a call shows what
the whole one shows. -/
theorem agrees_iff_settled (dumps str : Json → Text) (content : Text) (hc : ¬ botToken <:+: content)
    (body : Body) (deltas : List Text) (ht : deltas.flatten = content ++ body.text) :
    Agrees dumps str content deltas ↔ body.Settled dumps str deltas := by
  match body with
  | .calls [] =>
    have hnone : partition botToken deltas.flatten = none := by
      rw [ht, partition_none botToken_sharp.ne_nil]
      simpa [Body.text, behind] using hc
    have hquiet := @stream_quiet dumps str _ hnone {} [] _ (List.nil_append _)
    rw [@agrees_iff _ _ _ _ [] (by rw [hnone, ht]; simp [Body.text, behind]) (fun i => by
      rw [names, arguments, stream, hquiet]
      simp)]
    simp [extractToolCalls_none hnone, Body.Settled]
  | .calls (c :: cs) =>
    have hpart : partition botToken deltas.flatten = some (content, c.text ++ behind cs) := by
      rw [ht, Body.text, behind, List.flatMap_cons, ← List.append_assoc, ← List.append_assoc,
        List.append_assoc (content ++ botToken)]
      exact botToken_sharp.partition_append hc
    obtain ⟨x, y, hx, hxs, -, -⟩ := ends_of_strip c.name_strip c.name_ne
    obtain ⟨n, hn⟩ : ∃ n, c.name = x :: n := by
      cases hname : c.name with
      | nil => exact absurd hname c.name_ne
      | cons z n => exact ⟨n, by rw [hname] at hx; simpa using hx⟩
    have hhead : ∃ u, lstrip (c.text ++ behind cs) = x :: u := by
      rw [text, hn]
      simp only [List.append_assoc]
      rw [lstrip_blank_append c.lead_blank, List.cons_append, lstrip_eq_self hxs]
      exact ⟨_, rfl⟩
    obtain ⟨u, hu⟩ := hhead
    have hfresh : Fresh (c.text ++ behind cs) := by
      intro b hb z t hz
      rw [lstrip_head hb hu hz]
      rintro rfl
      exact c.name_plain.1 (by rw [hn]; simp)
    rw [@agrees_iff _ _ _ _ ((c :: cs).map streamed) (by rw [hpart]; rfl) (fun i => by
      obtain ⟨h₁, h₂⟩ := @stream_new dumps str _ _ _ hpart hfresh (by rw [hu]; simp) i
      obtain ⟨k₁, k₂⟩ := track_calls c cs i
      exact ⟨h₁.trans k₁, h₂.trans k₂⟩)]
    rw [(extractToolCalls_shown hpart).1, Body.Settled, ← @pieces_iff dumps str ([], []) (c :: cs),
      foldl_extractRaw_calls]
    rfl
  | .array a =>
    have hpart : partition botToken deltas.flatten = some (content, a.text) := by
      rw [ht, Body.text, ← List.append_assoc]
      exact botToken_sharp.partition_append hc
    obtain ⟨u, hu⟩ : ∃ u, lstrip a.text = '[' :: u := by
      obtain ⟨v, hv⟩ : ∃ v, a.array = '[' :: v := by
        have := a.outer.1
        cases harr : a.array with
        | nil => rw [harr] at this; cases this
        | cons z v => rw [harr] at this; exact ⟨v, by simpa using this⟩
      rw [OldArray.text, List.append_assoc, lstrip_blank_append a.lead_blank, hv, List.cons_append,
        lstrip_eq_self (by decide)]
      exact ⟨_, rfl⟩
    have hbracket : Bracketed a.text := fun b hb z t hz => lstrip_head hb hu hz
    have hrun := @stream_old dumps str _ _ _ hpart hbracket {} [] _
      (List.nil_append _) (by unfold OldState; rfl)
    rw [if_neg (by decide)] at hrun
    rw [@agrees_iff _ _ _ _ (((firstShow dumps str [] deltas).map (shown dumps str)).getD [])
      (by rw [hpart]; rfl) (fun i => by
        rw [names, arguments, stream, hrun]
        exact listing_names _ i)]
    rw [(extractToolCalls_shown hpart).1, Body.Settled]
    cases hfirst : firstShow dumps str [] deltas with
    | some b => simp [eq_comm]
    | none =>
      simp only [Option.map_none, Option.getD_none, reduceCtorEq, false_implies, implies_true, iff_true]
      -- The whole body is among those that come in.
      have hne : deltas ≠ [] := by
        rintro rfl
        cases hpart
      have hlast := List.find?_eq_none.1 hfirst _ (@mem_bodies [] _ _ _ hne hpart)
      have hmem : ']' ∈ a.text := by
        have := List.mem_of_getLast? a.outer.2
        simp [OldArray.text, this]
      simpa [hmem] using hlast

end FusionMlx.ToolParsers.Mistral
