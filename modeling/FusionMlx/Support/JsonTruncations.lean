import FusionMlx.Support.JsonCuts
import FusionMlx.Support.JsonValues
import Mathlib.Tactic.IntervalCases

/-!
# Truncated values

When the value that closing makes of a text that ends early is a truncation of
the document the text was the beginning of. Only strings decide it: an escape
that is cut behind its backslash turns into a quote, and a pair of surrogate
escapes may be parted.
-/
namespace FusionMlx.JsonMachine

/-- The value is the beginning of the document's: of its text for a number, of its code points for a string, of its items
or members for a list or an object, whose last may be truncated itself. -/
inductive Trunc (N : Numbers) : Json → Json → Prop
  | whole (y : Json) : Trunc N (value N y) y
  | num {l' l : Str} (h : l' <+: l) (hl : isLiteral l' = true) : Trunc N (.num (N.number l')) (.num l)
  | str {t' t : Str} (h : t' <+: t) : Trunc N (.str t') (.str t)
  | items (items rest : List Json) : Trunc N (.arr (values N items)) (.arr (items ++ rest))
  | item {x y : Json} (items rest : List Json) (h : Trunc N x y) :
    Trunc N (.arr (values N items ++ [x])) (.arr (items ++ y :: rest))
  | members (ms rest : List (Str × Json)) : Trunc N (.obj (memberValues N ms)) (.obj (ms ++ rest))
  | member {x y : Json} (k : Str) (ms rest : List (Str × Json)) (h : Trunc N x y) :
    Trunc N (.obj (memberValues N ms ++ [(k, x)])) (.obj (ms ++ (k, y) :: rest))

/-- No object has a key twice. -/
inductive Distinct : Json → Prop
  | null : Distinct .null
  | bool (b : Bool) : Distinct (.bool b)
  | num (l : Str) : Distinct (.num l)
  | str (s : Str) : Distinct (.str s)
  | arr (items : List Json) (h : ∀ v ∈ items, Distinct v) : Distinct (.arr items)
  | obj (ms : List (Str × Json)) (hk : (ms.map Prod.fst).Nodup) (h : ∀ m ∈ ms, Distinct m.2) : Distinct (.obj ms)

variable {N : Numbers} {s s' : State} {fs gs : List Frame} {t u : Str} {v x y d X : Json} {c : Nat} {k : Str}
  {ms rest : List (Str × Json)} {ps qs us : List Piece}

theorem fills_append : Fills (fs ++ gs) y d ↔ ∃ z, Fills fs y z ∧ Fills gs z d := by
  induction fs generalizing y with
  | nil =>
    constructor
    · exact fun h => ⟨y, rfl, h⟩
    · rintro ⟨z, rfl, h⟩
      exact h
  | cons f fs ih =>
    cases f with
    | arr items =>
      constructor
      · rintro ⟨rest, h⟩
        obtain ⟨z, hz, hd⟩ := ih.1 h
        exact ⟨z, ⟨rest, hz⟩, hd⟩
      · rintro ⟨z, ⟨rest, hz⟩, hd⟩
        exact ⟨rest, ih.2 ⟨z, hz, hd⟩⟩
    | obj ms k =>
      cases k with
      | none => exact ⟨fun h => h.elim, fun ⟨z, h, _⟩ => h.elim⟩
      | some k =>
        constructor
        · rintro ⟨rest, h⟩
          obtain ⟨z, hz, hd⟩ := ih.1 h
          exact ⟨z, ⟨rest, hz⟩, hd⟩
        · rintro ⟨z, ⟨rest, hz⟩, hd⟩
          exact ⟨rest, ih.2 ⟨z, hz, hd⟩⟩

theorem shut_append (fs gs : List Frame) (v : Json) : shut (fs ++ gs) v = shut gs (shut fs v) := by
  induction fs generalizing v with
  | nil => rfl
  | cons f fs ih =>
    cases f with
    | arr items => exact ih _
    | obj ms k =>
      cases k with
      | none => exact ih _
      | some k => exact ih _

theorem Distinct.of_fills (hd : Distinct d) (h : Fills fs y d) : Distinct y := by
  induction fs generalizing y with
  | nil =>
    have he : y = d := h
    exact he ▸ hd
  | cons f fs ih =>
    cases f with
    | arr items =>
      obtain ⟨rest, h⟩ := h
      cases ih h with
      | arr _ h => exact h y (by simp)
    | obj ms k =>
      cases k with
      | none => exact h.elim
      | some k =>
        obtain ⟨rest, h⟩ := h
        cases ih h with
        | obj _ _ h => exact h (k, y) (by simp)

theorem values_append (items rest : List Json) : values N (items ++ rest) = values N items ++ values N rest := by
  rw [values_eq, values_eq, values_eq, List.map_append]

theorem memberValues_append (ms rest : List (Str × Json)) :
    memberValues N (ms ++ rest) = memberValues N ms ++ memberValues N rest := by
  rw [memberValues_eq, memberValues_eq, memberValues_eq, List.map_append]

/-- The value of an object that was cut, whose keys are those of the document. -/
theorem value_cut_obj (h : Distinct (.obj (ms ++ (k, y) :: rest))) (x : Json) :
    value N (.obj (ms ++ [(k, x)])) = .obj (memberValues N ms ++ [(k, value N x)]) := by
  cases h with
  | obj _ hk _ =>
    rw [value_obj, memberValues_append]
    · rfl
    · refine List.Nodup.sublist ?_ hk
      rw [List.map_append, List.map_append]
      exact List.Sublist.append (List.Sublist.refl _) (by simp)

/-- A truncation at the inside is one of the document. -/
theorem Trunc.shut (hd : Distinct d) (h : Fills fs y d) (hx : Trunc N (value N x) y) :
    Trunc N (value N (shut fs x)) d := by
  induction fs generalizing x y with
  | nil =>
    have he : y = d := h
    exact he ▸ hx
  | cons f fs ih =>
    cases f with
    | arr items =>
      obtain ⟨rest, h⟩ := h
      refine ih h ?_
      rw [value, values_append]
      exact .item items rest hx
    | obj ms k =>
      cases k with
      | none => exact h.elim
      | some k =>
        obtain ⟨rest, h⟩ := h
        refine ih h ?_
        rw [value_cut_obj (hd.of_fills h)]
        exact .member k ms rest hx

/-- The last item of a truncated list is a truncation. -/
theorem Trunc.last_item {items rest : List Json} (h : Trunc N (.arr (values N items ++ [x])) (.arr (items ++ y :: rest))) :
    Trunc N x y := by
  have hlast : ∀ {l r : List Json}, values N items ++ [x] = values N l → items ++ y :: rest = l ++ r → Trunc N x y := by
    intro l r hv hl
    have hlen : l.length = items.length + 1 := by
      have := congrArg List.length hv
      rw [values_eq, values_eq] at this
      simpa using this.symm
    obtain ⟨l', z, rfl⟩ : ∃ l' z, l = l' ++ [z] := by
      cases l.eq_nil_or_concat' with
      | inl h =>
        rw [h] at hlen
        cases hlen
      | inr h => exact h
    rw [List.append_assoc] at hl
    obtain ⟨rfl, hrest⟩ := List.append_inj hl (by simpa using hlen.symm)
    obtain ⟨rfl, -⟩ := List.cons.inj hrest
    rw [values_append] at hv
    have hx : [x] = [value N y] := List.append_cancel_left hv
    rw [List.singleton_inj.1 hx]
    exact .whole y
  generalize ha : Json.arr (values N items ++ [x]) = a at h
  generalize hb : Json.arr (items ++ y :: rest) = b at h
  cases h with
  | whole =>
    subst hb
    rw [value] at ha
    exact @hlast _ [] (Json.arr.inj ha) (List.append_nil _).symm
  | num => cases ha
  | str => cases ha
  | items l r => exact hlast (Json.arr.inj ha) (Json.arr.inj hb)
  | @item x' y' l r hx =>
    have hv := Json.arr.inj ha
    have hlen : items.length = l.length := by
      have := congrArg List.length hv
      rw [values_eq, values_eq] at this
      simpa using this
    have hx' : [x] = [x'] := (List.append_inj hv (by rw [values_eq, values_eq]; simpa using hlen)).2
    obtain ⟨-, hrest⟩ := List.append_inj (Json.arr.inj hb) hlen
    rw [List.singleton_inj.1 hx', (List.cons.inj hrest).1]
    exact hx
  | members => cases ha
  | member => cases ha

theorem Trunc.last_member (hd : Distinct (.obj (ms ++ (k, y) :: rest)))
    (h : Trunc N (.obj (memberValues N ms ++ [(k, x)])) (.obj (ms ++ (k, y) :: rest))) : Trunc N x y := by
  have hlast : ∀ {l r : List (Str × Json)}, memberValues N ms ++ [(k, x)] = memberValues N l →
      ms ++ (k, y) :: rest = l ++ r → Trunc N x y := by
    intro l r hv hl
    have hlen : l.length = ms.length + 1 := by
      have := congrArg List.length hv
      rw [memberValues_eq, memberValues_eq] at this
      simpa using this.symm
    obtain ⟨l', z, rfl⟩ : ∃ l' z, l = l' ++ [z] := by
      cases l.eq_nil_or_concat' with
      | inl h =>
        rw [h] at hlen
        cases hlen
      | inr h => exact h
    rw [List.append_assoc] at hl
    obtain ⟨rfl, hrest⟩ := List.append_inj hl (by simpa using hlen.symm)
    obtain ⟨rfl, -⟩ := List.cons.inj hrest
    rw [memberValues_append] at hv
    have hx : [(k, x)] = [(k, value N y)] := List.append_cancel_left hv
    have hvalue : x = value N y := congrArg Prod.snd (List.singleton_inj.1 hx)
    rw [hvalue]
    exact .whole y
  generalize ha : Json.obj (memberValues N ms ++ [(k, x)]) = a at h
  generalize hb : Json.obj (ms ++ (k, y) :: rest) = b at h
  cases h with
  | whole =>
    subst hb
    cases hd with
    | obj _ hk _ =>
      rw [value_obj hk] at ha
      exact @hlast _ [] (Json.obj.inj ha) (List.append_nil _).symm
  | num => cases ha
  | str => cases ha
  | items => cases ha
  | item => cases ha
  | members l r => exact hlast (Json.obj.inj ha) (Json.obj.inj hb)
  | @member x' y' k' l r hx =>
    have hv := Json.obj.inj ha
    have hlen : ms.length = l.length := by
      have := congrArg List.length hv
      rw [memberValues_eq, memberValues_eq] at this
      simpa using this
    have hx' : [(k, x)] = [(k', x')] := (List.append_inj hv (by rw [memberValues_eq, memberValues_eq]; simpa using hlen)).2
    obtain ⟨-, hrest⟩ := List.append_inj (Json.obj.inj hb) hlen
    have hx₁ : x = x' := congrArg Prod.snd (List.singleton_inj.1 hx')
    have hy₁ : y = y' := congrArg Prod.snd (List.cons.inj hrest).1
    rw [hx₁, hy₁]
    exact hx

/-- A truncation of the document is one at the inside. -/
theorem Trunc.of_shut (hd : Distinct d) (h : Fills fs y d) (hx : Trunc N (value N (JsonMachine.shut fs x)) d) :
    Trunc N (value N x) y := by
  induction fs generalizing x y with
  | nil =>
    have he : y = d := h
    exact he ▸ hx
  | cons f fs ih =>
    cases f with
    | arr items =>
      obtain ⟨rest, h⟩ := h
      have hin := ih h hx
      rw [value, values_append] at hin
      exact hin.last_item
    | obj ms k =>
      cases k with
      | none => exact h.elim
      | some k =>
        obtain ⟨rest, h⟩ := h
        have hin := ih h hx
        rw [value_cut_obj (hd.of_fills h)] at hin
        exact hin.last_member (hd.of_fills h)

def SplitsPair (ps : List Piece) (next : Option Piece) : Prop :=
  ∃ p q, ps.getLast? = some p ∧ next = some q ∧ p.high = true ∧ q.low = true

theorem join_append (h : ¬ SplitsPair ps qs.head?) : join (ps ++ qs) = join ps ++ join qs := by
  fun_induction join ps with
  | case1 p q ps hpair ih =>
    rw [List.cons_append, List.cons_append, join, if_pos hpair, List.cons_append]
    congr 1
    cases ps with
    | nil => rfl
    | cons r ps =>
      refine ih (fun hs => h ?_)
      obtain ⟨a, b, ha, hb⟩ := hs
      exact ⟨a, b, by simpa using ha, hb⟩
  | case2 p q ps hpair ih =>
    rw [List.cons_append, List.cons_append, join, if_neg hpair, List.cons_append, ← List.cons_append]
    congr 1
    refine ih (fun hs => h ?_)
    obtain ⟨a, b, ha, hb⟩ := hs
    exact ⟨a, b, by simpa using ha, hb⟩
  | case3 p =>
    cases qs with
    | nil => rfl
    | cons q qs =>
      have hpair : ¬ (p.high && q.low) = true := by
        intro hp
        rw [Bool.and_eq_true] at hp
        exact h ⟨p, q, rfl, rfl, hp.1, hp.2⟩
      rw [List.singleton_append, join, if_neg hpair]
      rfl
  | case4 => rfl

theorem high_not_low {p : Piece} (h : p.high = true) : p.low = false := by
  cases p with
  | char c => rfl
  | hex c =>
    simp only [Piece.high, Bool.and_eq_true, decide_eq_true_eq] at h
    simp only [Piece.low, Bool.and_eq_false_iff, decide_eq_false_iff_not]
    omega

/-- A pair that is parted is one code point in the whole. -/
theorem join_pair {p q : Piece} (hp : p.high = true) (hq : q.low = true) (ps qs : List Piece) :
    ∃ n, 0x10000 ≤ n ∧ join (ps ++ p :: q :: qs) = join ps ++ n :: join qs ∧ join (ps ++ [p]) = join ps ++ [p.code] ∧
      p.code < 0x10000 := by
  have hlow : ∀ r : Option Piece, r = some p → ¬ SplitsPair ps r := by
    rintro r rfl ⟨a, b, -, hb, -, hl⟩
    cases hb
    rw [high_not_low hp] at hl
    cases hl
  refine ⟨0x10000 + (p.code - 0xD800) * 0x400 + (q.code - 0xDC00), by omega, ?_, ?_, ?_⟩
  · rw [join_append (hlow _ rfl), join, if_pos (by simp [hp, hq])]
  · rw [join_append (hlow _ rfl)]
    rfl
  · cases p with
    | char c => cases hp
    | hex c =>
      simp only [Piece.high, Bool.and_eq_true, decide_eq_true_eq] at hp
      simp only [Piece.code]
      omega

theorem getLast?_some {p : Piece} (h : ps.getLast? = some p) : ∃ ps', ps = ps' ++ [p] := by
  cases ps.eq_nil_or_concat' with
  | inl hnil =>
    rw [hnil] at h
    cases h
  | inr hconcat =>
    obtain ⟨ps', q, rfl⟩ := hconcat
    rw [List.getLast?_concat, Option.some.injEq] at h
    exact ⟨ps', h ▸ rfl⟩

theorem next_of_prefix {x : Piece} (h : ps ++ [x] <+: us) : ∃ qs, us = ps ++ x :: qs := by
  obtain ⟨qs, rfl⟩ := h
  exact ⟨qs, by simp⟩

/-- A string cut between two pieces is the beginning of the whole unless a pair is parted. -/
theorem join_prefix_iff {x : Piece} (h : ps ++ [x] <+: us) : join ps <+: join us ↔ ¬ SplitsPair ps (some x) := by
  obtain ⟨qs, rfl⟩ := next_of_prefix h
  constructor
  · rintro hpre ⟨p, q, hp, hq, hhigh, hlow⟩
    cases hq
    obtain ⟨ps', rfl⟩ := getLast?_some hp
    obtain ⟨n, hn, hwhole, hcut, hcode⟩ := join_pair hhigh hlow ps' qs
    rw [List.append_assoc, List.singleton_append, hwhole, hcut] at hpre
    obtain ⟨more, hmore⟩ := hpre
    rw [List.append_assoc] at hmore
    have hhead := (List.cons.inj (List.append_cancel_left hmore)).1
    omega
  · intro hs
    exact ⟨join (x :: qs), (join_append hs).symm⟩

/-- A string cut in an escape, closed with the quote that the backslash escapes. -/
theorem join_quote_iff {x : Piece} (h : ps ++ [x] <+: us) :
    join (ps ++ [.char quote]) <+: join us ↔ x.code = quote := by
  obtain ⟨qs, rfl⟩ := next_of_prefix h
  have hplain : join (ps ++ [.char quote]) = join ps ++ [quote] := by
    refine join_append ?_
    rintro ⟨a, b, -, hb, -, hl⟩
    cases hb
    cases hl
  rw [hplain]
  by_cases hs : SplitsPair ps (some x)
  · have hx : x.code ≠ quote := by
      obtain ⟨-, q, -, hq, -, hlow⟩ := hs
      cases hq
      cases x with
      | char c => cases hlow
      | hex c =>
        rintro rfl
        cases hlow
    refine iff_of_false ?_ hx
    obtain ⟨p, q, hp, hq, hhigh, hlow⟩ := hs
    cases hq
    obtain ⟨ps', rfl⟩ := getLast?_some hp
    obtain ⟨n, hn, hwhole, hcut, hcode⟩ := join_pair hhigh hlow ps' qs
    rw [hcut, List.append_assoc ps', List.singleton_append, hwhole]
    rintro ⟨more, hmore⟩
    simp only [List.append_assoc] at hmore
    have hhead := (List.cons.inj (List.append_cancel_left hmore)).1
    omega
  · rw [join_append hs, List.prefix_append_right_inj]
    have hcode : x.code = quote → x.high = false := by
      cases x with
      | char c => exact fun _ => rfl
      | hex c =>
        rintro rfl
        rfl
    cases qs with
    | nil =>
      have hjoin : join [x] = [x.code] := rfl
      rw [hjoin, List.cons_prefix_cons]
      exact ⟨fun h => h.1.symm, fun h => ⟨h.symm, List.nil_prefix⟩⟩
    | cons q qs =>
      rw [join]
      split
      · next hpair =>
        rw [Bool.and_eq_true] at hpair
        rw [List.cons_prefix_cons]
        constructor
        · intro h
          have : (0x22 : Nat) = 0x10000 + (x.code - 0xD800) * 0x400 + (q.code - 0xDC00) := h.1
          omega
        · intro h
          rw [hcode h] at hpair
          cases hpair.1
      · rw [List.cons_prefix_cons]
        exact ⟨fun h => h.1.symm, fun h => ⟨h.symm, List.nil_prefix⟩⟩

theorem isLiteral_word (w : Str) (hw : w ∈ [codes "null", codes "true", codes "false"]) (u : Str) :
    isLiteral (w ++ u) = false := by
  simp only [List.mem_cons, List.not_mem_nil, or_false] at hw
  rcases hw with rfl | rfl | rfl <;> rfl

theorem readAtom_of_not_word (h : ∀ w ∈ [codes "null", codes "true", codes "false"], t ≠ w) (hv : readAtom t = some v) :
    isLiteral t = true ∧ v = .num t := by
  rw [readAtom, if_neg (h _ (by simp)), if_neg (h _ (by simp)), if_neg (h _ (by simp))] at hv
  split at hv
  · next hl => exact ⟨hl, (Option.some.inj hv).symm⟩
  · cases hv

/-- No word begins with a shorter one, or with a number. -/
theorem readAtom_word_cut {w : Str} (hw : w ∈ [codes "null", codes "true", codes "false"]) (h : t ++ u = w)
    (hv : readAtom t = some v) : u = [] := by
  have hcut : ∀ w ∈ [codes "null", codes "true", codes "false"], ∀ n < w.length, readAtom (w.take n) = none := by
    intro w hw
    simp only [List.mem_cons, List.not_mem_nil, or_false] at hw
    rcases hw with rfl | rfl | rfl
    · intro n hn
      have hn : n < 4 := hn
      interval_cases n <;> rfl
    · intro n hn
      have hn : n < 4 := hn
      interval_cases n <;> rfl
    · intro n hn
      have hn : n < 5 := hn
      interval_cases n <;> rfl
  by_contra hne
  have hlen := List.length_pos_iff.2 hne
  have := hcut w hw t.length (by rw [← h, List.length_append]; omega)
  rw [← h, List.take_left, hv] at this
  cases this

theorem readAtom_trunc (hx : readAtom t = some x) (hy : readAtom (t ++ u) = some y) : Trunc N (value N x) y := by
  by_cases hword : ∃ w ∈ [codes "null", codes "true", codes "false"], t ++ u = w
  · obtain ⟨w, hw, h⟩ := hword
    have hnil := readAtom_word_cut hw h hx
    rw [hnil, List.append_nil, hx, Option.some.injEq] at hy
    rw [hy]
    exact .whole y
  · obtain ⟨hl, rfl⟩ := readAtom_of_not_word (fun w hw he => hword ⟨w, hw, he⟩) hy
    have ht : ∀ w ∈ [codes "null", codes "true", codes "false"], t ≠ w := by
      rintro w hw rfl
      rw [isLiteral_word t hw u] at hl
      cases hl
    obtain ⟨hl', rfl⟩ := readAtom_of_not_word ht hx
    exact .num (List.prefix_append t u) hl'

def nextPiece : Str → Option Piece
  | [] => none
  | c :: t =>
    if c = quote then none
    else if c = backslash then
      match t with
      | [] => none
      | x :: t =>
        if x = 0x75 then
          match t.take 4 |>.mapM hexValue with
          | some [a, b, c, d] => some (.hex (ofHex [a, b, c, d]))
          | _ => none
        else (simpleEscape x).map .char
    else some (.char c)

theorem Rest.step (h : Rest s (c :: u) d) : ∃ s', Moves s c s' ∧ Rest s' u d := by
  unfold Rest at h
  rw [run] at h
  cases hs : JsonMachine.step s c with
  | none =>
    rw [hs] at h
    cases h
  | some s' =>
    rw [hs] at h
    exact ⟨s', step_moves hs, h⟩

/-- Inside a string the text goes on. -/
theorem Rest.cons {ps : List Piece} {lex : Lex} (h : Rest ⟨fs, .string ps lex⟩ u d) : ∃ c t, u = c :: t := by
  cases u with
  | nil =>
    cases fs <;> cases h
  | cons c t => exact ⟨c, t, rfl⟩

/-- The whole string that a cut one was the beginning of. -/
theorem Rest.string_from (hk : ¬ InKey fs) {p : Piece} (h : Rest ⟨fs, .string (ps ++ [p]) .plain⟩ u d) :
    ∃ us, Fills fs (.str (join us)) d ∧ ps ++ [p] <+: us := by
  generalize hs : (⟨fs, .string (ps ++ [p]) .plain⟩ : State) = s at h
  cases h.tends with
  | key h =>
    cases hs
    exact absurd trivial hk
  | string hp hd =>
    cases hs
    exact ⟨_, hd, hp.le⟩
  | after | atom | colon | value | items | members => cases hs

theorem digits_step {ds : List Nat} (hl : ds.length ≠ 3) (h : Rest ⟨fs, .string ps (.hex ds)⟩ u d) :
    ∃ c t a, u = c :: t ∧ hexValue c = some a ∧ Rest ⟨fs, .string ps (.hex (ds ++ [a]))⟩ t d := by
  obtain ⟨c, t, rfl⟩ := h.cons
  obtain ⟨s', hm, h⟩ := h.step
  cases hm with
  | digit ha _ => exact ⟨c, t, _, rfl, ha, h⟩
  | lastDigit _ hl' => exact absurd hl' hl

theorem digits_last {ds : List Nat} (hl : ds.length = 3) (h : Rest ⟨fs, .string ps (.hex ds)⟩ u d) :
    ∃ c t a, u = c :: t ∧ hexValue c = some a ∧ Rest ⟨fs, .string (ps ++ [.hex (ofHex (ds ++ [a]))]) .plain⟩ t d := by
  obtain ⟨c, t, rfl⟩ := h.cons
  obtain ⟨s', hm, h⟩ := h.step
  cases hm with
  | digit _ hl' => exact absurd hl hl'
  | lastDigit ha _ => exact ⟨c, t, _, rfl, ha, h⟩

/-- Behind a backslash. -/
theorem Rest.escape (hk : ¬ InKey fs) (h : Rest ⟨fs, .string ps .escape⟩ u d) :
    ∃ us p, nextPiece (backslash :: u) = some p ∧ Fills fs (.str (join us)) d ∧ ps ++ [p] <+: us := by
  obtain ⟨c, t, rfl⟩ := h.cons
  obtain ⟨s', hm, h⟩ := h.step
  have hne : backslash ≠ quote := by decide
  cases hm with
  | unicode =>
    obtain ⟨c₁, t₁, a₁, rfl, h₁, h⟩ := digits_step (by decide) h
    obtain ⟨c₂, t₂, a₂, rfl, h₂, h⟩ := digits_step (by simp) h
    obtain ⟨c₃, t₃, a₃, rfl, h₃, h⟩ := digits_step (by simp) h
    obtain ⟨c₄, t₄, a₄, rfl, h₄, h⟩ := digits_last rfl h
    obtain ⟨us, hfills, hus⟩ := h.string_from hk
    refine ⟨us, _, ?_, hfills, hus⟩
    simp [nextPiece, h₁, h₂, h₃, h₄]
  | simple hu hn =>
    obtain ⟨us, hfills, hus⟩ := h.string_from hk
    refine ⟨us, _, ?_, hfills, hus⟩
    simp [nextPiece, hu, hn]

/-- Between two pieces of a string, or at its end. -/
theorem Rest.plain (hk : ¬ InKey fs) (h : Rest ⟨fs, .string ps .plain⟩ u d) :
    ∃ us, Fills fs (.str (join us)) d ∧ (nextPiece u = none ∧ us = ps ∨ ∃ p, nextPiece u = some p ∧ ps ++ [p] <+: us) := by
  obtain ⟨c, t, rfl⟩ := h.cons
  obtain ⟨s', hm, h⟩ := h.step
  cases hm with
  | key => exact absurd trivial hk
  | str =>
    cases h.tends with
    | after hd => exact ⟨ps, hd, .inl ⟨rfl, rfl⟩⟩
  | char hq hb =>
    obtain ⟨us, hfills, hus⟩ := h.string_from hk
    exact ⟨us, hfills, .inr ⟨_, by simp [nextPiece, hq, hb], hus⟩⟩
  | escape =>
    obtain ⟨us, p, hp, hfills, hus⟩ := h.escape hk
    exact ⟨us, hfills, .inr ⟨p, hp, hus⟩⟩

/-- The string that is cut is closed to what it was not the beginning of: behind a backslash the next character is no
quote, or a pair is parted. -/
def State.Misread (s : State) (u : Str) : Prop :=
  match s.mode with
  | .string ps .plain => SplitsPair ps (nextPiece u)
  | .string _ .escape => ∀ p, nextPiece (backslash :: u) = some p → p.code ≠ quote
  | _ => False

theorem Trunc.str_iff {t t' : Str} : Trunc N (.str t') (.str t) ↔ t' <+: t := by
  constructor
  · intro h
    generalize hx : Json.str t' = x at h
    generalize hy : Json.str t = y at h
    cases h with
    | whole =>
      subst hy
      rw [value] at hx
      exact ⟨[], by rw [List.append_nil, Json.str.inj hx]⟩
    | str h =>
      rw [Json.str.inj hx, Json.str.inj hy]
      exact h
    | num | items | item | members | member => cases hx
  · exact .str

/-- Where closing gives a document: the value at the cut, the one it was cut from, and when the former is a truncation. -/
theorem shut_cut (hrest : Rest s u d) (hd : Distinct d) (hshut : s.shut? = some X) :
    ∃ fs x y, X = shut fs x ∧ Fills fs y d ∧ (Trunc N (value N x) y ↔ ¬ s.Misread u) ∧
      (s.frames = fs ∧ s.mode.value?.getD x = x ∧ (∀ b, s.mode ≠ .expect b) ∧ s.mode ≠ .colon ∨
        (∃ f, s.frames = f :: fs) ∧ ∃ b, s.mode = .expect b) := by
  cases hrest.tends with
  | after h =>
    rename_i fs v
    exact ⟨fs, v, v, (Option.some.inj hshut).symm, h, iff_of_true (.whole v) id,
      .inl ⟨rfl, rfl, by rintro _ ⟨⟩, by rintro ⟨⟩⟩⟩
  | atom hy h =>
    rename_i fs t _ y
    obtain ⟨x, hx, rfl⟩ := Option.map_eq_some_iff.1 hshut
    refine ⟨fs, x, y, rfl, h, iff_of_true (readAtom_trunc hx hy) id,
      .inl ⟨rfl, ?_, by rintro _ ⟨⟩, by rintro ⟨⟩⟩⟩
    simp [Mode.value?, hx]
  | colon => cases hshut
  | value h =>
    rename_i fs b y
    cases fs with
    | nil => cases hshut
    | cons f fs =>
      cases f with
      | arr items =>
        obtain ⟨rest, h⟩ := h
        exact ⟨fs, .arr items, _, (Option.some.inj hshut).symm, h, iff_of_true (.items items _) id,
          .inr ⟨⟨_, rfl⟩, b, rfl⟩⟩
      | obj ms k =>
        cases k with
        | none => exact h.elim
        | some k => cases hshut
  | items h =>
    rename_i items rest fs b
    exact ⟨fs, .arr items, _, (Option.some.inj hshut).symm, h, iff_of_true (.items items _) id, .inr ⟨⟨_, rfl⟩, b, rfl⟩⟩
  | members h =>
    rename_i ms rest fs b
    refine ⟨fs, .obj ms, _, (Option.some.inj hshut).symm, h, iff_of_true ?_ id, .inr ⟨⟨_, rfl⟩, b, rfl⟩⟩
    cases hd.of_fills h with
    | obj _ hk _ =>
      rw [value_obj]
      · exact .members ms rest
      · rw [List.map_append] at hk
        exact (List.nodup_append.1 hk).1
  | key h => cases hshut
  | string hp h =>
    rename_i fs ps lex us
    have hkey := fills_not_inKey h
    cases lex with
    | plain =>
      rw [shut?_plain hkey] at hshut
      obtain ⟨us, hfills, hnext⟩ := hrest.plain hkey
      refine ⟨fs, .str (join ps), .str (join us), (Option.some.inj hshut).symm, hfills, Trunc.str_iff.trans ?_,
        .inl ⟨rfl, rfl, by rintro _ ⟨⟩, by rintro ⟨⟩⟩⟩
      rcases hnext with ⟨hnone, rfl⟩ | ⟨p, hsome, hus⟩
      · refine iff_of_true (List.prefix_refl _) ?_
        rintro ⟨a, b, -, hb, -⟩
        rw [hnone] at hb
        cases hb
      · rw [join_prefix_iff hus]
        unfold State.Misread
        dsimp only
        rw [hsome]
    | escape =>
      rw [shut?_escape hkey] at hshut
      obtain ⟨us, p, hp, hfills, hus⟩ := hrest.escape hkey
      refine ⟨fs, .str (join (ps ++ [.char quote])), .str (join us), (Option.some.inj hshut).symm, hfills,
        Trunc.str_iff.trans ?_, .inl ⟨rfl, rfl, by rintro _ ⟨⟩, by rintro ⟨⟩⟩⟩
      rw [join_quote_iff hus]
      unfold State.Misread
      dsimp only
      rw [hp]
      simp
    | hex ds =>
      rw [shut?_hex] at hshut
      cases hshut

end FusionMlx.JsonMachine
