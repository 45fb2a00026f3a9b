import FusionMlx.ToolParsers.Gemma4ToolText

/-!
# Gemma 4 calls come back

Calls whose strings hold neither a closing brace nor the beginning of a call
are read as they were written, from the whole text and from every way to cut
it. A string that holds one of the two is never read so.
-/
namespace FusionMlx.ToolParsers.Gemma4

open JsonText PyText TextSearch OrderedDict
open Harmony (isWord after takeSome isWord_ascii after_some after_append takeSome_append takeSome_some)

variable {isAlnum : Char → Bool} {beyond : Char → Option Nat} {proseSearch : Text → Option ToolCall} {t u a b s : Text}
  {calls : List (Call isAlnum)} {c : Call isAlnum}

/-- A character that no opener has. -/
def Stop (isAlnum : Char → Bool) (x : Char) : Prop := isWord isAlnum x = false ∧ x ≠ ':' ∧ x ≠ '\x7b'

theorem stop_ascii {x : Char} (h : (x.toNat < 128 ∧ x.isAlphanum = false ∧ x ≠ '_') ∧ x ≠ ':' ∧ x ≠ '\x7b') :
    Stop isAlnum x := by
  refine ⟨?_, h.2⟩
  rw [isWord_ascii h.1.1]
  simp [h.1.2]

theorem Stop.not_mem_callWord {x : Char} (hx : Stop isAlnum x) : x ∉ callWord := by
  intro hmem
  rcases (by simpa [callWord] using hmem : x = 'c' ∨ x = 'a' ∨ x = 'l' ∨ x = ':') with h | h | h | h
  · subst h; exact absurd hx.1 (by rw [isWord_ascii (by decide)]; decide)
  · subst h; exact absurd hx.1 (by rw [isWord_ascii (by decide)]; decide)
  · subst h; exact absurd hx.1 (by rw [isWord_ascii (by decide)]; decide)
  · exact hx.2.1 h

theorem opener_stop {x : Char} (hx : Stop isAlnum x) (a b : Text) :
    opener isAlnum (a ++ x :: b) = (opener isAlnum a).map (fun r => (r.1, r.2 ++ x :: b)) := by
  simp only [opener, Option.bind_eq_bind, after_stop hx.not_mem_callWord]
  cases after callWord a with
  | none => rfl
  | some t =>
    simp only [Option.map_some, Option.bind_some, takeSome_stop hx.1]
    cases takeSome (isWord isAlnum) t with
    | none => rfl
    | some r =>
      simp only [Option.map_some, Option.bind_some, @after_stop ['\x7b'] x (by simpa using hx.2.2)]
      cases after ['\x7b'] r.2 <;> rfl

theorem opener_some {r : Text × Text} (h : opener isAlnum t = some r) :
    t = callWord ++ r.1 ++ '\x7b' :: r.2 ∧ Word isAlnum r.1 := by
  simp only [opener, Option.bind_eq_bind, Option.bind_eq_some_iff] at h
  obtain ⟨t₁, hcall, ⟨name, t₂⟩, hname, t₃, hbrace, h⟩ := h
  cases h
  obtain ⟨h₁, hne, hword⟩ := takeSome_some hname
  have h₂ : t₂ = ['\x7b'] ++ t₃ := after_some.1 hbrace
  refine ⟨?_, hne, hword⟩
  rw [after_some.1 hcall, h₁, h₂]
  simp

theorem opener_takes : Takes (opener isAlnum) := by
  intro t x rest h
  rw [(opener_some h).1]
  simp
  omega

theorem opener_word {name : Text} (h : Word isAlnum name) (t : Text) :
    opener isAlnum (callWord ++ name ++ '\x7b' :: t) = some (name, t) := by
  have hbrace : isWord isAlnum '\x7b' = false := by rw [isWord_ascii (by decide)]; decide
  have hname : takeSome (isWord isAlnum) (name ++ '\x7b' :: t) = some (name, '\x7b' :: t) :=
    takeSome_append h.1 h.2 (by intro c hc; cases hc; exact hbrace)
  have hafter : after ['\x7b'] ('\x7b' :: t) = some t := after_append ['\x7b'] t
  simp only [opener, Option.bind_eq_bind, List.append_assoc, after_append, Option.bind_some, hname, hafter]

/-- Openers do not reach across a character that none of them has. -/
theorem openers_stop {x : Char} (hx : Stop isAlnum x) (a b : Text) :
    findAll (opener isAlnum) (a ++ x :: b) = findAll (opener isAlnum) a ++ findAll (opener isAlnum) b := by
  rw [findAll_stop opener_takes (fun a => opener_stop hx a b)]
  rw [findAll_none x (opener_stop hx [] b)]

theorem openers_none (h : '\x7b' ∉ t) : findAll (opener isAlnum) t = [] := by
  refine findAll_absent (x := '\x7b') (fun t r hr => ?_) h
  rw [(opener_some hr).1]
  simp

theorem openers_part (x : Text × ArgValue) (hx : Word isAlnum x.1) :
    findAll (opener isAlnum) (part x) = x.2.strings.flatMap (findAll (opener isAlnum)) := by
  obtain ⟨k, v⟩ := x
  have hbrace : Special isAlnum '\x7b' := special_ascii (by decide)
  have hk : '\x7b' ∉ k ++ [':'] := by
    simp only [List.mem_append, List.mem_singleton, not_or]
    exact ⟨hx.not_mem hbrace, by decide⟩
  by_cases hv : v.strings = []
  · rw [hv, List.flatMap_nil]
    apply openers_none
    rw [part, List.append_cons]
    simp only [List.mem_append, not_or]
    exact ⟨by simpa using hk, render_not_mem hv hbrace⟩
  · cases v with
    | str s =>
      have hopen : part (k, .str s) =
          (k ++ [':']) ++ '<' :: (['|', '\x22', '|'] ++ '>' :: (s ++ '<' :: ['|', '\x22', '|', '>'])) := by
        simp [part, ArgValue.render, quoteToken]
      rw [hopen]
      generalize k ++ [':'] = key at hk
      rw [openers_stop (stop_ascii (by decide)), openers_stop (stop_ascii (by decide)),
        openers_stop (stop_ascii (by decide)), openers_none hk]
      simp [ArgValue.strings, openers_none (t := ['|', '\x22', '|']) (by decide),
        openers_none (t := ['|', '\x22', '|', '>']) (by decide)]
    | _ => exact absurd rfl hv

variable {args : List (Text × ArgValue)}

theorem openers_body (h : ∀ x ∈ args, Word isAlnum x.1) :
    findAll (opener isAlnum) (bodyOf args) = (stringsOf args).flatMap (findAll (opener isAlnum)) := by
  induction args with
  | nil => rfl
  | cons x args ih =>
    have htail := ih (fun y hy => h y (by simp [hy]))
    cases args with
    | nil =>
      rw [show bodyOf [x] = part x by simp [bodyOf, List.intercalate], openers_part x (h x (by simp))]
      simp [stringsOf]
    | cons y args =>
      rw [bodyOf_cons_cons, openers_stop (stop_ascii (by decide)), htail, openers_part x (h x (by simp))]
      simp [stringsOf]

/-- The openers of a call and of what follows. -/
theorem openers_render (c : Call isAlnum) (t : Text) : findAll (opener isAlnum) (c.render ++ t) =
    c.name :: ((stringsOf c.args).flatMap (findAll (opener isAlnum)) ++ findAll (opener isAlnum) t) := by
  have hend : findAll (opener isAlnum) ((if c.closed then toolCallEnd else []) ++ t) = findAll (opener isAlnum) t := by
    cases c.closed with
    | false => rfl
    | true =>
      rw [show (if true = true then toolCallEnd else []) ++ t = toolCallEnd.dropLast ++ '>' :: t from rfl,
        openers_stop (stop_ascii (by decide)), openers_none (by decide)]
      rfl
  have hcall : findAll (opener isAlnum) (callWord ++ c.name ++ '\x7b' ::
      (bodyOf c.args ++ '\x7d' :: ((if c.closed then toolCallEnd else []) ++ t)))
      = c.name :: ((stringsOf c.args).flatMap (findAll (opener isAlnum)) ++ findAll (opener isAlnum) t) := by
    rw [findAll_some opener_takes (opener_word c.name_word _), openers_stop (stop_ascii (by decide)),
      openers_body c.keys_word, hend]
  have htext : c.render ++ t = (if c.opened then toolCallToken else []) ++
      (callWord ++ c.name ++ '\x7b' :: (bodyOf c.args ++ '\x7d' :: ((if c.closed then toolCallEnd else []) ++ t))) := by
    simp [Call.render]
  rw [htext, ← hcall]
  cases c.opened with
  | false => rfl
  | true =>
    rw [show (if true = true then toolCallToken else []) = toolCallToken.dropLast ++ ['>'] from rfl, List.append_assoc,
      List.singleton_append, openers_stop (stop_ascii (by decide)), openers_none (t := toolCallToken.dropLast) (by decide)]
    rfl

theorem openers_textOf (calls : List (Call isAlnum)) : findAll (opener isAlnum) (textOf calls) =
    calls.flatMap (fun c => c.name :: (stringsOf c.args).flatMap (findAll (opener isAlnum))) := by
  induction calls with
  | nil => rfl
  | cons c calls ih =>
    rw [textOf, List.flatMap_cons, ← textOf, openers_render, ih]
    rfl

def front (c : Call isAlnum) : Text := (if c.opened then toolCallToken else []) ++ callWord ++ c.name

def back (c : Call isAlnum) : Text := if c.closed then toolCallEnd else []

theorem render_eq (c : Call isAlnum) : c.render = front c ++ '\x7b' :: (bodyOf c.args ++ '\x7d' :: back c) := by
  simp [Call.render, front, back]

theorem callBody_eq (t : Text) : callBody isAlnum t = (opener isAlnum t).bind (fun r =>
    (partition ['\x7d'] r.2).map (fun p => ((r.1, p.1), (after toolCallEnd p.2).getD p.2))) := by
  rw [callBody]
  cases opener isAlnum t with
  | none => rfl
  | some r =>
    cases hp : partition ['\x7d'] r.2 with
    | none => simp [hp]
    | some p => simp [hp]

/-- The pattern at a call: the body ends at the first closing brace. -/
theorem toolPattern_front (c : Call isAlnum) (t : Text) : toolPattern isAlnum (front c ++ '\x7b' :: t) =
    (partition ['\x7d'] t).map (fun p => ((c.name, p.1), (after toolCallEnd p.2).getD p.2)) := by
  have hbody : callBody isAlnum (callWord ++ c.name ++ '\x7b' :: t) =
      (partition ['\x7d'] t).map (fun p => ((c.name, p.1), (after toolCallEnd p.2).getD p.2)) := by
    rw [callBody_eq, opener_word c.name_word]
    rfl
  cases hopened : c.opened with
  | false =>
    have hfront : front c = callWord ++ c.name := by simp [front, hopened]
    have hnone : after toolCallToken (callWord ++ c.name ++ '\x7b' :: t) = none := by
      simp [after, toolCallToken, callWord, List.isPrefixOf]
    rw [hfront, toolPattern, hnone, hbody]
    rfl
  | true =>
    have hfront : front c ++ '\x7b' :: t = toolCallToken ++ (callWord ++ c.name ++ '\x7b' :: t) := by simp [front, hopened]
    have hnone : callBody isAlnum (toolCallToken ++ (callWord ++ c.name ++ '\x7b' :: t)) = none := by
      have hcall : after callWord (toolCallToken ++ (callWord ++ c.name ++ '\x7b' :: t)) = none := by
        simp [after, toolCallToken, callWord, List.isPrefixOf]
      have hopen : opener isAlnum (toolCallToken ++ (callWord ++ c.name ++ '\x7b' :: t)) = none := by
        rw [opener, hcall]
        rfl
      rw [callBody_eq, hopen]
      rfl
    rw [hfront, toolPattern, after_append, Option.bind_some, hbody, hnone, Option.or_none]

theorem toolPattern_brace (t : Text) (r : (Text × Text) × Text) (h : toolPattern isAlnum t = some r) : '\x7d' ∈ t := by
  have hcall : ∀ t r, callBody isAlnum t = some r → '\x7d' ∈ t := by
    intro t r h
    rw [callBody_eq] at h
    simp only [Option.bind_eq_some_iff, Option.map_eq_some_iff] at h
    obtain ⟨o, ho, p, hp, -⟩ := h
    rw [(opener_some ho).1, partition_some (a := p.1) (b := p.2) hp]
    simp
  rw [toolPattern, Option.or_eq_some_iff] at h
  rcases h with h | ⟨-, h⟩
  · obtain ⟨u, hu, h⟩ := Option.bind_eq_some_iff.1 h
    rw [after_some.1 hu]
    exact List.mem_append.2 (.inr (hcall u r h))
  · exact hcall t r h

theorem toolPattern_takes : Takes (toolPattern isAlnum) := by
  have hcall : Takes (callBody isAlnum) := by
    intro t x rest h
    rw [callBody_eq] at h
    simp only [Option.bind_eq_some_iff, Option.map_eq_some_iff] at h
    obtain ⟨o, ho, p, hp, h⟩ := h
    have h₁ := opener_takes t o.1 o.2 ho
    have h₂ := partition_length (by simp) (a := p.1) (b := p.2) hp
    have h₃ : ((after toolCallEnd p.2).getD p.2).length ≤ p.2.length := by
      cases ha : after toolCallEnd p.2 with
      | none => exact Nat.le_refl _
      | some u =>
        rw [after_some.1 ha]
        simp
    cases h
    omega
  intro t x rest h
  rw [toolPattern, Option.or_eq_some_iff] at h
  rcases h with h | ⟨-, h⟩
  · obtain ⟨u, hu, h⟩ := Option.bind_eq_some_iff.1 h
    have h₁ := hcall u x rest h
    rw [after_some.1 hu, List.length_append]
    omega
  · exact hcall t x rest h

theorem brace_special : Special isAlnum '\x7d' := special_ascii (by decide)

theorem front_brace (c : Call isAlnum) : '\x7d' ∉ front c := by
  rw [front, List.append_assoc, List.mem_append, List.mem_append, not_or, not_or]
  refine ⟨?_, by decide, c.name_word.not_mem brace_special⟩
  cases c.opened <;> decide

theorem back_brace (c : Call isAlnum) : '\x7d' ∉ back c := by
  rw [back]
  cases c.closed <;> decide

/-- The beginnings of what follows a call do not begin with the closing token. -/
theorem after_textOf (h : u <+: textOf calls) : after toolCallEnd u = none := by
  rw [Option.eq_none_iff_forall_ne_some]
  intro v hv
  rw [after_some.1 hv] at h
  cases calls with
  | nil => simpa [textOf, toolCallEnd] using h.length_le
  | cons c calls =>
    obtain ⟨w, hw⟩ := h
    rw [textOf, List.flatMap_cons, render_eq, front] at hw
    cases hopened : c.opened <;> simp [hopened, toolCallEnd, toolCallToken, callWord] at hw

theorem after_back {v : Text} (c : Call isAlnum) (h : v <+: textOf calls) :
    (after toolCallEnd (back c ++ v)).getD (back c ++ v) = v := by
  rw [back]
  cases c.closed with
  | true =>
    rw [if_pos rfl, after_append]
    rfl
  | false =>
    rw [if_neg (by decide), List.nil_append, after_textOf h]
    rfl

theorem after_back_part (c : Call isAlnum) (h : u <+: back c) (hne : u ≠ back c) :
    (after toolCallEnd u).getD u = u := by
  have hnone : after toolCallEnd u = none := by
    rw [Option.eq_none_iff_forall_ne_some]
    intro v hv
    rw [after_some.1 hv] at h hne
    rw [back] at h hne
    cases hclosed : c.closed with
    | true =>
      rw [hclosed, if_pos rfl] at h hne
      have hlen := h.length_le
      rw [List.length_append] at hlen
      have hv : v = [] := List.length_eq_zero_iff.1 (by omega)
      exact hne (by rw [hv, List.append_nil])
    | false =>
      rw [hclosed] at h
      simpa [toolCallEnd] using h.length_le
  rw [hnone]
  rfl

theorem sharp_brace : Sharp ['\x7d'] := ⟨'\x7d', [], rfl, by simp⟩

theorem partition_brace (ha : '\x7d' ∉ a) (b : Text) : partition ['\x7d'] (a ++ '\x7d' :: b) = some (a, b) := by
  have h := sharp_brace.partition_append (a := a) (b := b) (by rwa [List.singleton_infix_iff])
  rwa [List.append_assoc] at h

def found (c : Call isAlnum) : Text × Text := (c.name, bodyOf c.args)

/-- A call that is there up to its brace is found first. -/
theorem findAll_call (hclear : '\x7d' ∉ bodyOf c.args) (t : Text) :
    findAll (toolPattern isAlnum) (front c ++ '\x7b' :: (bodyOf c.args ++ '\x7d' :: t)) =
      found c :: findAll (toolPattern isAlnum) ((after toolCallEnd t).getD t) := by
  refine findAll_some toolPattern_takes ?_
  rw [toolPattern_front, partition_brace hclear]
  rfl

/-- In a beginning of the text the calls that are complete are found. -/
theorem found_prefix (hclear : ∀ c ∈ calls, '\x7d' ∉ bodyOf c.args) (h : t <+: textOf calls) :
    ∃ j, j ≤ calls.length ∧ findAll (toolPattern isAlnum) t = (calls.take j).map found ∧
      (t = textOf calls → j = calls.length) := by
  induction calls generalizing t with
  | nil =>
    rw [textOf, List.flatMap_nil, List.prefix_nil] at h
    exact ⟨0, Nat.le_refl _, by rw [h]; rfl, fun _ => rfl⟩
  | cons c calls ih =>
    have hc := hclear c (by simp)
    have htext : textOf (c :: calls) = (front c ++ '\x7b' :: bodyOf c.args) ++ '\x7d' :: (back c ++ textOf calls) := by
      rw [textOf, List.flatMap_cons, ← textOf, render_eq]
      simp
    have hfront : '\x7d' ∉ front c ++ '\x7b' :: bodyOf c.args := by
      simp only [List.mem_append, List.mem_cons, not_or]
      exact ⟨front_brace c, by decide, hc⟩
    rw [htext] at h
    rcases prefix_append_cases h with ⟨hp, hne⟩ | ⟨u, hu, rfl⟩
    · -- The brace of the first call is still to come.
      refine ⟨0, Nat.zero_le _, ?_, ?_⟩
      · exact findAll_absent (x := '\x7d') toolPattern_brace (fun hmem => hfront (hp.subset hmem))
      · intro ht
        have := hp.length_le
        rw [ht, htext] at this
        simp only [List.length_append, List.length_cons] at this
        omega
    · rw [htext]
      cases u with
      | nil =>
        refine ⟨0, Nat.zero_le _, ?_, ?_⟩
        · rw [List.append_nil]
          exact findAll_absent (x := '\x7d') toolPattern_brace hfront
        · intro ht
          simp at ht
      | cons x u =>
        obtain ⟨rfl, hrest⟩ := List.cons_prefix_cons.1 hu
        have hcall := findAll_call (t := u) hc
        rw [List.append_assoc, List.cons_append, hcall]
        rcases prefix_append_cases hrest with ⟨hp, hne⟩ | ⟨v, hv, rfl⟩
        · refine ⟨1, by simp, ?_, ?_⟩
          · rw [after_back_part c hp hne, findAll_absent (x := '\x7d') toolPattern_brace
              (fun hmem => back_brace c (hp.subset hmem))]
            simp
          · intro ht
            simp only [List.append_assoc, List.cons_append, List.append_cancel_left_eq, List.cons.injEq, true_and] at ht
            rw [ht] at hp hne
            have := hp.length_le
            rw [List.length_append] at this
            have hnil : textOf calls = [] := List.length_eq_zero_iff.1 (by omega)
            exact absurd (by rw [hnil, List.append_nil]) hne
        · obtain ⟨j, hj, hfound, hall⟩ := ih (fun d hd => hclear d (by simp [hd])) hv
          refine ⟨j + 1, by simpa using hj, ?_, ?_⟩
          · rw [after_back c hv, hfound]
            rfl
          · intro ht
            simp only [List.append_assoc, List.cons_append, List.append_cancel_left_eq, List.cons.injEq, true_and] at ht
            rw [hall ht]
            rfl

/-- Neither a closing brace nor the beginning of a call stands in a string. -/
def Call.Clear (c : Call isAlnum) : Prop :=
  ∀ x ∈ c.args, ∀ s ∈ x.2.strings, '\x7d' ∉ s ∧ search (opener isAlnum) s = none

def entries (calls : List (Call isAlnum)) : List (Nat × ToolCall) :=
  (calls.map Call.toolCall).mapIdx (fun i tc => (i, tc))

theorem extract_toolCalls {l : List (Call isAlnum)} (h : findAll (toolPattern isAlnum) t = l.map found) (hne : l ≠ []) :
    (extractToolCalls isAlnum beyond proseSearch t).toolsCalled = true ∧
      (extractToolCalls isAlnum beyond proseSearch t).toolCalls = l.map Call.toolCall := by
  have hfound : findAll (toolPattern isAlnum) t ≠ [] := by rw [h]; simpa using hne
  rw [extractToolCalls, if_neg hfound]
  refine ⟨rfl, ?_⟩
  dsimp only
  rw [h, List.map_map]
  apply List.map_congr_left
  intro c _
  simp only [Function.comp_apply, found, Call.toolCall, parse_body]

theorem numbered_drop (l : List ToolCall) {e : Nat} (he : e ≤ l.length) :
    numbered l.length (l.drop e) = (l.mapIdx (fun i tc => (i, tc))).drop e := by
  apply List.ext_getElem
  · simp [numbered]
  · intro i h₁ h₂
    simp only [numbered, List.getElem_mapIdx, List.getElem_drop, List.length_drop, Prod.mk.injEq, and_true]
    omega

theorem entries_take (calls : List (Call isAlnum)) (j : Nat) : entries (calls.take j) = (entries calls).take j := by
  rw [entries, entries, List.map_take]
  apply List.ext_getElem
  · simp
  · intro i h₁ h₂
    simp

/-- Without an opener nothing of a call in the text format is there either. -/
theorem bracket_absent (h : t <+: textOf calls) (hopen : (search (opener isAlnum) t).isSome = false) :
    search textToolCallAny t = none := by
  have hany : ∀ t y, textToolCallAny t = some y → '[' ∈ t := by
    intro t y hy
    simp only [textToolCallAny, Option.bind_eq_bind, Option.bind_eq_some_iff] at hy
    obtain ⟨u, hu, -⟩ := hy
    rw [after_some.1 hu]
    simp [callingWord]
  refine search_none hany ?_
  have hspecial : Special isAlnum '[' := special_ascii (by decide)
  cases calls with
  | nil =>
    rw [textOf, List.flatMap_nil, List.prefix_nil] at h
    simp [h]
  | cons c calls =>
    have htext : textOf (c :: calls) = (front c ++ ['\x7b']) ++ (bodyOf c.args ++ '\x7d' :: (back c ++ textOf calls)) := by
      rw [textOf, List.flatMap_cons, ← textOf, render_eq]
      simp
    have hfront : '[' ∉ front c ++ ['\x7b'] := by
      rw [front, List.append_assoc, List.append_assoc, List.mem_append, List.mem_append, List.mem_append, not_or, not_or, not_or]
      refine ⟨?_, by decide, c.name_word.not_mem hspecial, by decide⟩
      cases c.opened <;> decide
    rw [htext] at h
    rcases prefix_append_cases h with ⟨hp, -⟩ | ⟨u, -, rfl⟩
    · exact fun hmem => hfront (hp.subset hmem)
    · have hsome := search_isSome (opener_word c.name_word u) (if c.opened then toolCallToken else [])
      rw [show (if c.opened then toolCallToken else []) ++ (callWord ++ c.name ++ '\x7b' :: u) = front c ++ ['\x7b'] ++ u by
        simp [front], hopen] at hsome
      cases hsome

theorem findAll_of_search {m : Text → Option (Text × Text)} (h : search m t = none) : findAll m t = [] := by
  induction t with
  | nil => rfl
  | cons c t ih =>
    rw [search] at h
    cases hm : m (c :: t) with
    | some y => rw [hm] at h; cases h
    | none =>
      rw [hm] at h
      rw [findAll_none c hm]
      exact ih h

/-- Strings that do not begin a call add no opener. -/
theorem openers_clear (hclear : ∀ c ∈ calls, c.Clear) :
    (findAll (opener isAlnum) (textOf calls)).length = calls.length := by
  have heq : calls.flatMap (fun c => c.name :: (stringsOf c.args).flatMap (findAll (opener isAlnum))) = calls.map Call.name := by
    induction calls with
    | nil => rfl
    | cons c calls ih =>
      have hnone : (stringsOf c.args).flatMap (findAll (opener isAlnum)) = [] := by
        rw [List.flatMap_eq_nil_iff]
        intro s hs
        obtain ⟨x, hx, hs⟩ := List.mem_flatMap.1 hs
        exact findAll_of_search (hclear c (by simp) x hx s hs).2
      rw [List.flatMap_cons, hnone, ih (fun d hd => hclear d (by simp [hd]))]
      rfl
  rw [openers_textOf, heq, List.length_map]

theorem part_brace {x : Text × ArgValue} (hx : Word isAlnum x.1) (hs : ∀ s ∈ x.2.strings, '\x7d' ∉ s) : '\x7d' ∉ part x := by
  obtain ⟨k, v⟩ := x
  rw [part, List.append_cons]
  simp only [List.mem_append, List.mem_singleton, not_or]
  refine ⟨⟨hx.not_mem brace_special, by decide⟩, ?_⟩
  by_cases hv : v.strings = []
  · exact render_not_mem hv (@brace_special isAlnum)
  · cases v with
    | str s =>
      simp only [ArgValue.render, List.mem_append, not_or]
      exact ⟨⟨by decide, hs s (by simp [ArgValue.strings])⟩, by decide⟩
    | _ => exact absurd rfl hv

theorem commaParts_brace (hargs : ∀ x ∈ args, Word isAlnum x.1)
    (hs : ∀ x ∈ args, ∀ s ∈ x.2.strings, '\x7d' ∉ s) : '\x7d' ∉ commaParts args := by
  intro hmem
  obtain ⟨x, hx, hmem⟩ := List.mem_flatMap.1 hmem
  rcases List.mem_append.1 hmem with hmem | hmem
  · exact part_brace (hargs x hx) (hs x hx) hmem
  · exact absurd hmem (by decide)

theorem body_brace (hargs : ∀ x ∈ args, Word isAlnum x.1)
    (hs : ∀ x ∈ args, ∀ s ∈ x.2.strings, '\x7d' ∉ s) : '\x7d' ∉ bodyOf args := by
  rcases List.eq_nil_or_concat args with rfl | ⟨pre, x, rfl⟩
  · simp [bodyOf, List.intercalate]
  · rw [List.concat_eq_append] at hargs hs ⊢
    rw [bodyOf_append, List.mem_append, not_or]
    refine ⟨commaParts_brace (fun y hy => hargs y (by simp [hy])) (fun y hy => hs y (by simp [hy])), ?_⟩
    simpa [bodyOf, List.intercalate] using part_brace (hargs x (by simp)) (hs x (by simp))

theorem Call.Clear.body (h : c.Clear) : '\x7d' ∉ bodyOf c.args :=
  body_brace c.keys_word (fun x hx s hs => (h x hx s hs).1)

/-- A delta tells some of the calls that are complete, in order; the last one all that are left. -/
theorem step_told (hclear : ∀ c ∈ calls, c.Clear) (h : t <+: textOf calls) {e : Nat} (he : e ≤ calls.length) (delta : Text) :
    ∃ e', e ≤ e' ∧ e' ≤ calls.length ∧
      (extractToolCallsStreaming isAlnum beyond proseSearch e t delta).1 = e' ∧
      (extractToolCallsStreaming isAlnum beyond proseSearch e t delta).2.toolCalls = ((entries calls).take e').drop e ∧
      (t = textOf calls → e' = calls.length) := by
  obtain ⟨j, hj, hfound, hall⟩ := found_prefix (fun c hc => (hclear c hc).body) h
  have hlen : (findAll (toolPattern isAlnum) t).length = j := by rw [hfound]; simp [hj]
  have hnothing : ((entries calls).take e).drop e = [] := by simp
  rw [extractToolCallsStreaming, hlen]
  dsimp only
  by_cases hmarkup : contains toolCallToken t = true ∨ (search (opener isAlnum) t).isSome = true
  · rw [if_pos hmarkup]
    by_cases hopen : j < (findAll (opener isAlnum) t).length
    · rw [if_pos hopen]
      refine ⟨e, Nat.le_refl e, he, rfl, hnothing.symm, fun ht => ?_⟩
      rw [ht, openers_clear hclear, hall ht] at hopen
      omega
    · rw [if_neg hopen]
      by_cases htold : j ≤ e
      · rw [if_pos htold]
        refine ⟨e, Nat.le_refl e, he, rfl, hnothing.symm, fun ht => ?_⟩
        have := hall ht
        omega
      · rw [if_neg htold]
        have hne : calls.take j ≠ [] := by
          intro hnil
          have := congrArg List.length hnil
          rw [List.length_take, List.length_nil] at this
          omega
        obtain ⟨hcalled, hcalls⟩ := @extract_toolCalls _ beyond proseSearch _ _ hfound hne
        have hlength : ((calls.take j).map Call.toolCall).length = j := by simp [hj]
        have hnew : ((calls.take j).map Call.toolCall).drop e ≠ [] := by
          rw [ne_eq, List.drop_eq_nil_iff, hlength]
          omega
        rw [hcalled, hcalls, if_pos ⟨rfl, hnew⟩]
        refine ⟨j, by omega, hj, hlength, ?_, hall⟩
        rw [← entries_take]
        exact numbered_drop _ (by rw [hlength]; omega)
  · rw [if_neg hmarkup]
    rw [not_or, Bool.not_eq_true, Bool.not_eq_true] at hmarkup
    have htext : textFormatStreaming isAlnum e t delta = (e, { content := delta }) := by
      rw [textFormatStreaming, bracket_absent h hmarkup.2]
      rfl
    rw [htext]
    refine ⟨e, Nat.le_refl e, he, rfl, hnothing.symm, fun ht => ?_⟩
    -- The whole text of a call has its opener.
    have hnone : findAll (opener isAlnum) t = [] :=
      findAll_of_search (by simpa using hmarkup.2)
    have := openers_clear hclear
    rw [← ht, hnone, List.length_nil] at this
    omega

/-- From any point on the stream tells the calls that are left. -/
theorem stream_told (hclear : ∀ c ∈ calls, c.Clear) (deltas : List Text) {e : Nat} (he : e ≤ calls.length)
    (htext : t ++ deltas.flatten = textOf calls) (hend : t = textOf calls → e = calls.length) :
    (streamFrom isAlnum beyond proseSearch e t deltas).flatMap Delta.toolCalls = (entries calls).drop e := by
  induction deltas generalizing t e with
  | nil =>
    rw [List.flatten_nil, List.append_nil] at htext
    rw [streamFrom, List.flatMap_nil, hend htext]
    symm
    rw [List.drop_eq_nil_iff]
    simp [entries]
  | cons delta deltas ih =>
    rw [List.flatten_cons, ← List.append_assoc] at htext
    have hprefix : t ++ delta <+: textOf calls := ⟨deltas.flatten, htext⟩
    obtain ⟨e', hle, hle', hstate, htold, hlast⟩ :=
      @step_told _ beyond proseSearch _ _ hclear hprefix _ he delta
    have hrest := ih hle' htext hlast
    rw [streamFrom, List.flatMap_cons]
    rw [hstate, htold, hrest, ← List.take_append_drop (e' - e) ((entries calls).drop e), List.drop_drop, List.drop_take]
    rw [Nat.add_sub_cancel' hle]

theorem textOf_eq_nil (h : textOf calls = []) : calls = [] := by
  cases calls with
  | nil => rfl
  | cons c calls =>
    rw [textOf, List.flatMap_cons, render_eq] at h
    simp at h

theorem extract_textOf (hclear : ∀ c ∈ calls, '\x7d' ∉ bodyOf c.args) :
    (extractToolCalls isAlnum beyond proseSearch (textOf calls)).toolCalls = calls.map Call.toolCall := by
  obtain ⟨j, hj, hfound, hall⟩ := found_prefix hclear (List.prefix_refl _)
  rw [hall rfl, List.take_length] at hfound
  cases hcalls : calls with
  | nil => rfl
  | cons c rest =>
    rw [hcalls] at hfound
    exact (extract_toolCalls hfound (by simp)).2

theorem scanString_length {r : List Nat × Text} (h : scanString t = some r) : r.1.length ≤ t.length := by
  fun_induction scanString t generalizing r with
  | case1 => cases h
  | case2 => cases h; simp
  | case3 => cases h
  | case4 => cases h
  | case5 =>
    rename_i ih
    obtain ⟨q, hq, rfl⟩ := Option.map_eq_some_iff.1 h
    have := ih hq
    simp
    omega
  | case6 => cases h
  | case7 =>
    rename_i ih
    obtain ⟨q, hq, rfl⟩ := Option.map_eq_some_iff.1 h
    have := ih hq
    simp
    omega
  | case8 => cases h
  | case9 c t hq hc hb ih =>
    obtain ⟨q, hq, rfl⟩ := Option.map_eq_some_iff.1 h
    have := ih hq
    simp
    omega

theorem pairSurrogates_length (l : List Nat) : (pairSurrogates l).length ≤ l.length := by
  fun_induction pairSurrogates l with
  | case1 a b t h ih => simp; omega
  | case2 a b t h ih => simpa using ih
  | case3 t h => exact Nat.le_refl _

theorem loads_str_length {cs : List Nat} (h : loads t = some (.str cs)) : cs.length ≤ t.length := by
  have hws : (skipWs t).length ≤ t.length := by
    obtain ⟨w, hw, -⟩ := skipWs_spec t
    have := congrArg List.length hw
    rw [List.length_append] at this
    omega
  rw [loads] at h
  split at h
  · rename_i v rest hv
    split at h
    · cases h
      cases hs : skipWs t with
      | nil => rw [hs, scanValue] at hv; cases hv
      | cons c u =>
        rw [hs] at hv hws
        rw [scanValue.eq_3] at hv
        split at hv
        · obtain ⟨r, hr, he⟩ := Option.map_eq_some_iff.1 hv
          cases he
          have h₁ := scanString_length hr
          have h₂ := pairSurrogates_length r.1
          rw [List.length_cons] at hws
          omega
        · exfalso
          split at hv
          · split at hv
            · cases hv
            · obtain ⟨r, -, he⟩ := Option.map_eq_some_iff.1 hv
              cases he
          · split at hv
            · split at hv
              · cases hv
              · obtain ⟨r, -, he⟩ := Option.map_eq_some_iff.1 hv
                cases he
            · split at hv
              · cases hv
              · rw [scanWord] at hv
                obtain ⟨w, hw, he⟩ := Option.map_eq_some_iff.1 hv
                have hmem := List.mem_of_find?_eq_some hw
                simp only [words, List.mem_cons, List.not_mem_nil, or_false] at hmem
                rcases hmem with rfl | rfl | rfl | rfl | rfl | rfl <;> cases he
    · cases h
  · cases h

theorem loads_angle (t : Text) : loads ('<' :: t) = none := by
  have hnum : scanNumber ('<' :: t) = none := rfl
  have hword : scanWord ('<' :: t) = none := rfl
  rw [loads, show skipWs ('<' :: t) = '<' :: t from rfl, scanValue.eq_3, if_neg (by decide), if_neg (by decide),
    if_neg (by decide), hnum]
  dsimp only
  rw [hword]

theorem codes_injective (h : codes t = codes u) : t = u :=
  List.map_injective_iff.2 (fun _ _ hc => Char.toNat_inj.1 hc) h

theorem item_mem {stashed : List Text} {i : Int} (h : item stashed i = some s) : s ∈ stashed := by
  rw [item] at h
  split at h
  · exact List.mem_of_getElem? h
  · split at h
    · exact List.mem_of_getElem? h
    · cases h

/-- No value that is read without the brace is the string with it. -/
theorem argValue_ne {stashed : List Text} {raw : Text} (hs : '\x7d' ∈ s) (hstashed : ∀ u ∈ stashed, '\x7d' ∉ u)
    (hraw : '\x7d' ∉ raw) (hload : (∃ u, raw = '<' :: u) ∨ raw.length < s.length) :
    argValue beyond stashed raw ≠ .str (codes s) := by
  intro h
  rw [argValue] at h
  split at h
  · rename_i u hu
    rw [restored] at hu
    split at hu
    · obtain ⟨i, -, hi⟩ := Option.bind_eq_some_iff.1 hu
      have hus : u = s := codes_injective (by injection h)
      exact hstashed u (item_mem hi) (by rw [hus]; exact hs)
    · cases hu
  · cases hl : loads raw with
    | none =>
      rw [hl, Option.getD_none] at h
      have hus : raw = s := codes_injective (by injection h)
      exact hraw (by rw [hus]; exact hs)
    | some v =>
      rw [hl, Option.getD_some] at h
      subst h
      rcases hload with ⟨u, rfl⟩ | hlt
      · rw [loads_angle] at hl
        cases hl
      · have hlen := loads_str_length hl
        rw [codes, List.length_map] at hlen
        omega

theorem strip_isInfix (t : Text) : strip t <:+: t :=
  List.IsInfix.trans (List.rdropWhile_prefix isSpace (lstrip t)).isInfix (List.dropWhile_suffix isSpace).isInfix

theorem bareKv_some {k raw rest : Text} (h : bareKv isAlnum t = some ((k, raw), rest)) : raw <:+: t ∧ rest <:+ t := by
  simp only [bareKv, Option.bind_eq_bind, Option.bind_eq_some_iff] at h
  obtain ⟨⟨k', t₁⟩, hk, t₂, hcolon, h⟩ := h
  split at h
  · cases h
  · cases h
    have h₁ : t₁ <:+ t := by rw [(takeSome_some hk).1]; exact List.suffix_append _ _
    have h₂ : t₂ <:+ lstrip t₁ := by
      rw [show lstrip t₁ = [':'] ++ t₂ from after_some.1 hcolon]
      exact List.suffix_append _ _
    have h₃ : t₂ <:+ t := List.IsSuffix.trans h₂ (List.IsSuffix.trans (List.dropWhile_suffix isSpace) h₁)
    refine ⟨?_, List.IsSuffix.trans (List.drop_suffix _ _) h₃⟩
    exact List.IsInfix.trans (strip_isInfix _) (List.IsInfix.trans (List.takeWhile_prefix _).isInfix h₃.isInfix)

theorem rstrip_quote (t : Text) : ∃ u, rstrip (quoteToken ++ t) = quoteToken ++ u := by
  by_cases ht : rstrip t = []
  · have hblank : Blank t := by
      intro c hc
      rw [rstrip, List.rdropWhile_eq_nil_iff] at ht
      exact ht c hc
    refine ⟨[], ?_⟩
    rw [rstrip_append_blank _ hblank]
    rfl
  · exact ⟨rstrip t, rstrip_append _ ht⟩

/-- The pair of a string whose second quote token is cut off. -/
theorem bareKv_open {k : Text} (hk : Word isAlnum k) (t : Text) : ∃ u rest,
    bareKv isAlnum (k ++ ':' :: (quoteToken ++ t)) = some ((k, '<' :: u), rest) ∧ rest <:+ t := by
  have hcolon : isWord isAlnum ':' = false := by rw [isWord_ascii (by decide)]; decide
  have htake : takeSome (isWord isAlnum) (k ++ ':' :: (quoteToken ++ t)) = some (k, ':' :: (quoteToken ++ t)) :=
    takeSome_append hk.1 hk.2 (by intro c hc; cases hc; exact hcolon)
  have hlstrip : lstrip (':' :: (quoteToken ++ t)) = [':'] ++ (quoteToken ++ t) := lstrip_eq_self (by decide) _
  have hsegment : (quoteToken ++ t).takeWhile (· ≠ ',') = quoteToken ++ t.takeWhile (· ≠ ',') :=
    List.takeWhile_append_of_pos (List.all_eq_true.1 (by decide))
  have hfront : lstrip (quoteToken ++ t.takeWhile (· ≠ ',')) = quoteToken ++ t.takeWhile (· ≠ ',') :=
    lstrip_eq_self (by decide) _
  obtain ⟨u, hu⟩ := rstrip_quote (t.takeWhile (· ≠ ','))
  have hstrip : strip (quoteToken ++ t.takeWhile (· ≠ ',')) = quoteToken ++ u := by rw [strip, hfront, hu]
  refine ⟨quoteToken.tail ++ u, t.drop u.length, ?_, List.drop_suffix _ _⟩
  simp only [bareKv, Option.bind_eq_bind, htake, Option.bind_some, hlstrip, after_append, hsegment, hfront, hstrip,
    Nat.sub_self, Nat.zero_add, List.length_append]
  rw [if_neg (by simp [quoteToken]), List.drop_append]
  simp [quoteToken]

theorem foldl_set_mem {d : Dict Text Json} {l : List (Text × Json)} {e : Text × Json}
    (h : e ∈ (l.foldl (fun d kv => d.set kv.1 kv.2) d).entries) : e ∈ d.entries ∨ e ∈ l := by
  induction l generalizing d with
  | nil => exact .inl h
  | cons kv l ih =>
    rcases ih h with he | he
    · have hget := (Dict.get?_eq_some_iff _ e.1 e.2).2 he
      rw [Dict.get?_set] at hget
      split at hget
      · rename_i hk
        refine .inr (List.mem_cons.2 (.inl ?_))
        injection hget with hv
        exact Prod.ext hk hv.symm
      · exact .inl ((Dict.get?_eq_some_iff d e.1 e.2).1 hget)
    · exact .inr (List.mem_cons_of_mem _ he)

theorem keyed_keys (n : Nat) (args : List (Text × ArgValue)) : (keyed n args).map Prod.fst = args.map Prod.fst := by
  induction args generalizing n with
  | nil => rfl
  | cons x args ih => rw [keyed, List.map_cons, List.map_cons, ih]

/-- A body that ends in a string is not read as arguments that have the whole string. -/
theorem parse_cut {pre : List (Text × ArgValue)} {k s₀ s₁ : Text} (hpre : Written isAlnum pre) (hk : Word isAlnum k)
    (hnew : k ∉ pre.map Prod.fst) (hclear : ∀ x ∈ pre, ∀ u ∈ x.2.strings, '\x7d' ∉ u) (hs₀ : '\x7d' ∉ s₀)
    (hquote : ¬ quoteToken <:+: s₀) :
    (k, Json.str (codes (s₀ ++ '\x7d' :: s₁))) ∉
      (parseGemma4Args isAlnum beyond (commaParts pre ++ (k ++ ':' :: (quoteToken ++ s₀)))).entries := by
  obtain ⟨hstashed, hfound⟩ := hide_commaParts hpre 0 (k ++ ':' :: (quoteToken ++ s₀))
  have hkey : '<' ∉ k ++ [':'] := by
    simp only [List.mem_append, List.mem_singleton, not_or]
    exact ⟨hk.not_mem (special_ascii (by decide)), by decide⟩
  have hopen : hide (0 + (stringsOf pre).length) (k ++ ':' :: (quoteToken ++ s₀)) = ([], k ++ ':' :: (quoteToken ++ s₀)) := by
    rw [List.append_cons, hide_plain hkey, hide_open hquote]
  obtain ⟨u, rest, hkv, hrest⟩ := bareKv_open hk s₀
  rw [hopen, findAll_some bareKv_takes hkv] at hfound
  rw [hopen, List.append_nil] at hstashed
  have hstrings : ∀ v ∈ stringsOf pre, '\x7d' ∉ v := by
    intro v hv
    obtain ⟨x, hx, hv⟩ := List.mem_flatMap.1 hv
    exact hclear x hx v hv
  have hbrace : '\x7d' ∈ s₀ ++ '\x7d' :: s₁ := by simp
  have hparse : parseGemma4Args isAlnum beyond (commaParts pre ++ (k ++ ':' :: (quoteToken ++ s₀))) =
      ((keyed 0 pre ++ (k, '<' :: u) :: findAll (bareKv isAlnum) rest).map
        (fun kv => (kv.1, argValue beyond (stringsOf pre) kv.2))).foldl (fun d kv => d.set kv.1 kv.2) Dict.empty := by
    rw [List.foldl_map, ← hstashed, ← hfound]
    rfl
  intro hmem
  rw [hparse] at hmem
  rcases foldl_set_mem hmem with hmem | hmem
  · cases hmem
  · obtain ⟨⟨k', raw⟩, hkv', he⟩ := List.mem_map.1 hmem
    obtain ⟨rfl, hvalue⟩ := Prod.mk.inj he
    rcases List.mem_append.1 hkv' with hin | hin
    · exact hnew (by rw [← keyed_keys 0 pre]; exact List.mem_map.2 ⟨_, hin, rfl⟩)
    · rcases List.mem_cons.1 hin with hin | hin
      · -- What is left of the string itself.
        obtain rfl : raw = '<' :: u := (Prod.mk.inj hin).2
        refine argValue_ne hbrace hstrings ?_ (.inl ⟨u, rfl⟩) hvalue
        intro hraw
        have := (bareKv_some hkv).1.subset hraw
        simp only [List.mem_append, List.mem_cons] at this
        rcases this with h | h | h | h
        · exact hk.not_mem brace_special h
        · exact absurd h (by decide)
        · exact absurd h (by decide)
        · exact hs₀ h
      · obtain ⟨v, rest', hv, hmatch⟩ := mem_findAll bareKv_takes (fun t x r h => (@bareKv_some _ _ _ x.2 _ h).2) hin
        have hraw : raw <:+: s₀ :=
          List.IsInfix.trans (bareKv_some hmatch).1 (List.IsSuffix.trans hv hrest).isInfix
        refine argValue_ne hbrace hstrings (fun h => hs₀ (hraw.subset h)) (.inr ?_) hvalue
        have := hraw.length_le
        simp
        omega

theorem first_split {α : Type} {p : α → Prop} {l : List α} (h : ∃ x ∈ l, p x) :
    ∃ before x after, l = before ++ x :: after ∧ p x ∧ ∀ y ∈ before, ¬ p y := by
  induction l with
  | nil => obtain ⟨x, hx, -⟩ := h; cases hx
  | cons y l ih =>
    by_cases hy : p y
    · exact ⟨[], y, l, rfl, hy, by simp⟩
    · obtain ⟨x, hx, hpx⟩ := h
      have hx : x ∈ l := by
        rcases List.mem_cons.1 hx with rfl | hx
        · exact absurd hpx hy
        · exact hx
      obtain ⟨before, z, rest, hl, hz, hbefore⟩ := ih ⟨x, hx, hpx⟩
      refine ⟨y :: before, z, rest, by rw [hl]; rfl, hz, ?_⟩
      intro w hw
      rcases List.mem_cons.1 hw with rfl | hw
      · exact hy
      · exact hbefore w hw

theorem found_append {good : List (Call isAlnum)} (hclear : ∀ c ∈ good, '\x7d' ∉ bodyOf c.args) (l : List (Call isAlnum)) :
    findAll (toolPattern isAlnum) (textOf (good ++ l)) = good.map found ++ findAll (toolPattern isAlnum) (textOf l) := by
  induction good with
  | nil => rfl
  | cons c good ih =>
    have htext : textOf (c :: (good ++ l)) =
        front c ++ '\x7b' :: (bodyOf c.args ++ '\x7d' :: (back c ++ textOf (good ++ l))) := by
      rw [textOf, List.flatMap_cons, ← textOf, render_eq]
      simp
    rw [List.cons_append, htext, findAll_call (hclear c (by simp)), after_back c (List.prefix_refl _),
      ih (fun d hd => hclear d (by simp [hd]))]
    rfl

theorem bodyOf_cons (x : Text × ArgValue) (args : List (Text × ArgValue)) : ∃ w, bodyOf (x :: args) = part x ++ w := by
  cases args with
  | nil => exact ⟨[], by simp [bodyOf, List.intercalate]⟩
  | cons y args => exact ⟨_, bodyOf_cons_cons x y args⟩

/-- A closing brace in a string spoils the first call that has one. -/
theorem extract_cut (hbad : ∃ c ∈ calls, ∃ x ∈ c.args, ∃ s ∈ x.2.strings, '\x7d' ∈ s) :
    (extractToolCalls isAlnum beyond proseSearch (textOf calls)).toolCalls ≠ calls.map Call.toolCall := by
  obtain ⟨good, c, rest, rfl, hc, hgood⟩ := first_split hbad
  obtain ⟨pre, x, post, hargs, ⟨s, hs, hbrace⟩, hpre⟩ := first_split hc
  obtain ⟨k, v⟩ := x
  obtain rfl : v = .str s := by
    cases v with
    | str s' => simpa [ArgValue.strings, eq_comm] using hs
    | _ => simp [ArgValue.strings] at hs
  obtain ⟨s₀, s₁, rfl, hs₀⟩ := List.eq_append_cons_of_mem hbrace
  have hwritten := c.written
  have hnodup := c.keys_nodup
  rw [hargs] at hwritten hnodup
  have hquote : ¬ quoteToken <:+: s₀ := by
    intro h
    exact hwritten.unquoted (k, .str (s₀ ++ '\x7d' :: s₁)) (by simp) _ (by simp [ArgValue.strings])
      (List.IsInfix.trans h (List.prefix_append s₀ ('\x7d' :: s₁)).isInfix)
  have hpreclear : ∀ y ∈ pre, ∀ u ∈ y.2.strings, '\x7d' ∉ u := fun y hy u hu hmem => hpre y hy ⟨u, hu, hmem⟩
  have hk : Word isAlnum k := hwritten.words (k, .str (s₀ ++ '\x7d' :: s₁)) (by simp)
  have hnew : k ∉ pre.map Prod.fst := by
    rw [List.map_append, List.nodup_append] at hnodup
    exact fun hmem => hnodup.2.2 k hmem k (by simp) rfl
  obtain ⟨w, hw⟩ := bodyOf_cons (k, .str (s₀ ++ '\x7d' :: s₁)) post
  have htext : textOf (c :: rest) = front c ++ '\x7b' :: ((commaParts pre ++ (k ++ ':' :: (quoteToken ++ s₀))) ++
      '\x7d' :: (s₁ ++ (quoteToken ++ (w ++ '\x7d' :: (back c ++ textOf rest))))) := by
    rw [textOf, List.flatMap_cons, ← textOf, render_eq, hargs, bodyOf_append, hw]
    simp [part, ArgValue.render]
  have hcut : '\x7d' ∉ commaParts pre ++ (k ++ ':' :: (quoteToken ++ s₀)) := by
    simp only [List.mem_append, List.mem_cons, not_or]
    exact ⟨commaParts_brace hwritten.left.words hpreclear, hk.not_mem brace_special, by decide, by decide, hs₀⟩
  have hgoodclear : ∀ d ∈ good, '\x7d' ∉ bodyOf d.args := by
    intro d hd
    exact body_brace d.keys_word (fun y hy u hu hmem => hgood d hd ⟨y, hy, u, hu, hmem⟩)
  obtain ⟨more, hmore⟩ : ∃ more, findAll (toolPattern isAlnum) (textOf (good ++ c :: rest)) =
      good.map found ++ (c.name, commaParts pre ++ (k ++ ':' :: (quoteToken ++ s₀))) :: more := by
    obtain ⟨u, hfirst⟩ : ∃ u, toolPattern isAlnum (textOf (c :: rest)) =
        some ((c.name, commaParts pre ++ (k ++ ':' :: (quoteToken ++ s₀))), u) := by
      rw [htext, toolPattern_front, partition_brace hcut]
      exact ⟨_, rfl⟩
    exact ⟨_, by rw [found_append hgoodclear, findAll_some toolPattern_takes hfirst]⟩
  intro h
  have hne : findAll (toolPattern isAlnum) (textOf (good ++ c :: rest)) ≠ [] := by rw [hmore]; simp
  rw [extractToolCalls, if_neg hne, hmore] at h
  have hat := congrArg (fun l => l[good.length]?) h
  have hcall := @parse_cut _ beyond _ _ _ s₁ hwritten.left hk hnew hpreclear hs₀ hquote
  simp only [List.map_append, List.map_map, List.map_cons] at hat
  rw [List.getElem?_append_right (by simp), List.getElem?_append_right (by simp)] at hat
  simp only [List.length_map, Nat.sub_self, List.getElem?_cons_zero, Option.some.injEq, Call.toolCall, ToolCall.mk.injEq,
    Arguments.dumped.injEq, true_and] at hat
  rw [hat] at hcall
  apply hcall
  refine List.mem_map.2 ⟨(k, .str (s₀ ++ '\x7d' :: s₁)), ?_, rfl⟩
  rw [hargs]
  simp

theorem search_of_openers (h : findAll (opener isAlnum) t = []) : search (opener isAlnum) t = none := by
  induction t with
  | nil => rfl
  | cons c t ih =>
    cases hm : opener isAlnum (c :: t) with
    | some r =>
      have hr : opener isAlnum (c :: t) = some (r.1, r.2) := hm
      rw [findAll_some opener_takes hr] at h
      cases h
    | none =>
      rw [findAll_none c hm] at h
      rw [search, hm]
      exact ih h

theorem openers_more {l : List (Call isAlnum)} (h : ∃ c ∈ l, (stringsOf c.args).flatMap (findAll (opener isAlnum)) ≠ []) :
    l.length < (findAll (opener isAlnum) (textOf l)).length := by
  rw [openers_textOf]
  have hle : ∀ l : List (Call isAlnum),
      l.length ≤ (l.flatMap (fun c => c.name :: (stringsOf c.args).flatMap (findAll (opener isAlnum)))).length := by
    intro l
    induction l with
    | nil => exact Nat.le_refl _
    | cons c l ih => simp only [List.flatMap_cons, List.length_append, List.length_cons]; omega
  induction l with
  | nil => obtain ⟨c, hc, -⟩ := h; cases hc
  | cons d l ih =>
    obtain ⟨c, hc, hne⟩ := h
    simp only [List.flatMap_cons, List.length_append, List.length_cons]
    rcases List.mem_cons.1 hc with rfl | hc
    · have h₁ := List.length_pos_iff.2 hne
      have h₂ := hle l
      omega
    · have := ih ⟨c, hc, hne⟩
      omega

/-- Reading calls back from their text, in one piece and in deltas. -/
def Intact (beyond : Char → Option Nat) (proseSearch : Text → Option ToolCall) (calls : List (Call isAlnum)) : Prop :=
  (extractToolCalls isAlnum beyond proseSearch (textOf calls)).toolCalls = calls.map Call.toolCall ∧
    ∀ deltas : List Text, deltas.flatten = textOf calls →
      streamedCalls isAlnum beyond proseSearch deltas = entries calls

/-- Calls come back with their arguments, from the whole text and from every way to cut it into deltas,
exactly if no string of theirs holds a closing brace or the beginning of a call. -/
theorem calls_intact (isAlnum : Char → Bool) (beyond : Char → Option Nat) (proseSearch : Text → Option ToolCall)
    (calls : List (Call isAlnum)) : Intact beyond proseSearch calls ↔ ∀ c ∈ calls, c.Clear := by
  constructor
  · rintro ⟨hextract, hstream⟩
    have hbrace : ∀ c ∈ calls, ∀ x ∈ c.args, ∀ s ∈ x.2.strings, '\x7d' ∉ s := by
      intro c hc x hx s hs hmem
      exact extract_cut ⟨c, hc, x, hx, s, hs, hmem⟩ hextract
    intro c hc x hx s hs
    refine ⟨hbrace c hc x hx s hs, ?_⟩
    apply search_of_openers
    by_contra hopen
    -- In one delta: more calls are begun than are complete, so none is told.
    have hmore : calls.length < (findAll (opener isAlnum) (textOf calls)).length := by
      refine openers_more ⟨c, hc, ?_⟩
      rw [ne_eq, List.flatMap_eq_nil_iff]
      exact fun h => hopen (h s (List.mem_flatMap.2 ⟨x, hx, hs⟩))
    obtain ⟨j, hj, hfound, hall⟩ := found_prefix (fun d hd => body_brace d.keys_word (hbrace d hd)) (List.prefix_refl _)
    have hlen : (findAll (toolPattern isAlnum) (textOf calls)).length = calls.length := by
      rw [hfound, hall rfl]
      simp
    have hmarkup : (search (opener isAlnum) (textOf calls)).isSome = true := by
      cases hsearch : search (opener isAlnum) (textOf calls) with
      | some _ => rfl
      | none =>
        rw [findAll_of_search hsearch] at hmore
        simp at hmore
    have htold := hstream [textOf calls] (by simp)
    rw [streamedCalls, streamFrom, extractToolCallsStreaming, List.nil_append, if_pos (.inr hmarkup), hlen] at htold
    dsimp only at htold
    rw [if_pos hmore] at htold
    have hempty := congrArg List.length htold
    have hpos := List.length_pos_of_mem hc
    simp [streamFrom, entries] at hempty
    omega
  · intro hclear
    refine ⟨extract_textOf (fun c hc => (hclear c hc).body), fun deltas hdeltas => ?_⟩
    have hstart : ([] : Text) = textOf calls → 0 = calls.length := by
      intro h
      rw [textOf_eq_nil h.symm]
      rfl
    rw [streamedCalls, stream_told hclear deltas (Nat.zero_le _) (by rw [List.nil_append, hdeltas]) hstart]
    exact List.drop_zero

def bracedCall : Call (fun _ => false) where
  name := ['f']
  args := [(['a'], .str ['x', '\x7d'])]
  opened := false
  closed := false
  name_word := word_of_all (by decide) (by decide)
  keys_word := fun a ha => by
    rw [List.mem_singleton.1 ha]
    exact word_of_all (by decide) (by decide)
  keys_nodup := by decide
  unquoted := by decide

/-- A brace in a string ends the body: the argument that is read is not the one that was written. -/
theorem brace_ends_body : ¬ Intact (fun _ => none) (fun _ => none) [bracedCall] := by
  intro h
  have hcalls := congrArg (List.map (fun tc : ToolCall => match tc.arguments with
    | .dumped args => args.entries.map (fun e : Text × Json => match e.2 with
      | .str cs => cs
      | _ => [])
    | .raw _ => [])) h.1
  revert hcalls
  decide

end FusionMlx.ToolParsers.Gemma4
