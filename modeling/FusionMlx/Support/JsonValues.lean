import FusionMlx.Support.JsonMachine
import FusionMlx.Support.OrderedDict

/-!
# The values of documents

What `json.loads` makes of a document and `json.dumps` of a value. Numbers are
told by the text Python writes for them; an object keeps the last of equal keys
in the place of the first. What is written is read back.
-/
namespace FusionMlx.JsonMachine

open OrderedDict

structure Numbers where
  number : Str → Str
  literal : ∀ l, isLiteral l = true → isLiteral (number l) = true
  again : ∀ l, isLiteral l = true → number (number l) = number l

def Numbers.asWritten : Numbers := ⟨id, fun _ h => h, fun _ _ => rfl⟩

def dictOf (ms : List (Str × Json)) : List (Str × Json) :=
  (ms.foldl (fun (dict : Dict Str Json) m => dict.set m.1 m.2) Dict.empty).entries

section Value

variable (N : Numbers)

mutual

def value : Json → Json
  | .null => .null
  | .bool b => .bool b
  | .num l => .num (N.number l)
  | .str s => .str s
  | .arr items => .arr (values items)
  | .obj ms => .obj (dictOf (memberValues ms))

def values : List Json → List Json
  | [] => []
  | v :: vs => value v :: values vs

def memberValues : List (Str × Json) → List (Str × Json)
  | [] => []
  | (k, v) :: ms => (k, value v) :: memberValues ms

end

def loads (t : Str) : Option Json := (parse t).map (value N)

end Value

def hexDigit (n : Nat) : Nat := if n < 10 then 0x30 + n else 0x57 + n

def escapeCode (c : Nat) : Str :=
  if c = quote then [backslash, quote]
  else if c = backslash then [backslash, backslash]
  else if c = 10 then [backslash, 0x6E]
  else if c = 13 then [backslash, 0x72]
  else if c = 9 then [backslash, 0x74]
  else if c = 12 then [backslash, 0x66]
  else if c = 8 then [backslash, 0x62]
  else if c < 0x20 then [backslash, 0x75, 0x30, 0x30, hexDigit (c / 16), hexDigit (c % 16)]
  else [c]

def dumpsString (s : Str) : Str := quote :: s.flatMap escapeCode ++ [quote]

mutual

def dumps : Json → Str
  | .null => codes "null"
  | .bool true => codes "true"
  | .bool false => codes "false"
  | .num l => l
  | .str s => dumpsString s
  | .arr [] => [openBracket, closeBracket]
  | .arr (v :: vs) => openBracket :: (dumps v ++ dumpsItems vs)
  | .obj [] => [openBrace, closeBrace]
  | .obj ((k, v) :: ms) => openBrace :: (dumpsString k ++ colon :: 0x20 :: (dumps v ++ dumpsMembers ms))

def dumpsItems : List Json → Str
  | [] => [closeBracket]
  | v :: vs => comma :: 0x20 :: (dumps v ++ dumpsItems vs)

def dumpsMembers : List (Str × Json) → Str
  | [] => [closeBrace]
  | (k, v) :: ms => comma :: 0x20 :: (dumpsString k ++ colon :: 0x20 :: (dumps v ++ dumpsMembers ms))

end

inductive Proper : Json → Prop
  | null : Proper .null
  | bool (b : Bool) : Proper (.bool b)
  | num (l : Str) (h : isLiteral l = true) : Proper (.num l)
  | str (s : Str) : Proper (.str s)
  | arr (items : List Json) (h : ∀ v ∈ items, Proper v) : Proper (.arr items)
  | obj (ms : List (Str × Json)) (h : ∀ m ∈ ms, Proper m.2) : Proper (.obj ms)

variable {N : Numbers} {s s' : State} {fs : List Frame} {t u : Str} {v j : Json} {c : Nat} {ms : List (Str × Json)}

theorem dictOf_keys_nodup (ms : List (Str × Json)) : ((dictOf ms).map Prod.fst).Nodup := Dict.nodup _

theorem foldl_set_of_nodup (dict : Dict Str Json) (h : ((dict.entries ++ ms).map Prod.fst).Nodup) :
    (ms.foldl (fun (dict : Dict Str Json) m => dict.set m.1 m.2) dict).entries = dict.entries ++ ms := by
  induction ms generalizing dict with
  | nil => simp
  | cons m ms ih =>
    have hnew : m.1 ∉ dict.keys := by
      intro hm
      rw [List.map_append, List.nodup_append] at h
      exact h.2.2 m.1 hm m.1 (by simp) rfl
    have hset := Dict.entries_set_new hnew m.2
    rw [List.foldl_cons, ih, hset]
    · simp
    · rw [hset]
      simpa using h

/-- With distinct keys the pairs are the dictionary. -/
theorem dictOf_of_nodup (h : (ms.map Prod.fst).Nodup) : dictOf ms = ms :=
  foldl_set_of_nodup Dict.empty h

theorem mem_foldl_set {m : Str × Json} (dict : Dict Str Json)
    (h : m ∈ (ms.foldl (fun (dict : Dict Str Json) m => dict.set m.1 m.2) dict).entries) : m ∈ dict.entries ∨ m ∈ ms := by
  induction ms generalizing dict with
  | nil => exact .inl h
  | cons a ms ih =>
    rcases ih (dict.set a.1 a.2) h with h | h
    · have hget := (Dict.get?_eq_some_iff (dict.set a.1 a.2) m.1 m.2).2 h
      rw [Dict.get?_set] at hget
      split at hget
      · next hk =>
        refine .inr (List.mem_cons.2 (.inl ?_))
        exact Prod.ext hk (Option.some.inj hget).symm
      · exact .inl ((Dict.get?_eq_some_iff dict m.1 m.2).1 hget)
    · exact .inr (List.mem_cons_of_mem a h)

theorem mem_of_mem_dictOf {m : Str × Json} (h : m ∈ dictOf ms) : m ∈ ms := by
  rcases mem_foldl_set Dict.empty h with h | h
  · cases h
  · exact h

theorem values_eq (items : List Json) : values N items = items.map (value N) := by
  induction items with
  | nil => rfl
  | cons v vs ih => rw [values, ih, List.map_cons]

theorem memberValues_eq (ms : List (Str × Json)) : memberValues N ms = ms.map (fun m => (m.1, value N m.2)) := by
  induction ms with
  | nil => rfl
  | cons m ms ih => rw [memberValues, ih, List.map_cons]

theorem memberValues_keys (ms : List (Str × Json)) : (memberValues N ms).map Prod.fst = ms.map Prod.fst := by
  rw [memberValues_eq, List.map_map]
  rfl

/-- The value of an object with distinct keys. -/
theorem value_obj (h : (ms.map Prod.fst).Nodup) : value N (.obj ms) = .obj (memberValues N ms) := by
  rw [value, dictOf_of_nodup (by rwa [memberValues_keys])]

theorem Proper.value (h : Proper j) : Proper (value N j) := by
  induction h with
  | null => exact .null
  | bool b => exact .bool b
  | num l h => exact .num _ (N.literal l h)
  | str s => exact .str s
  | arr items _ ih =>
    refine .arr _ (fun v hv => ?_)
    rw [values_eq] at hv
    obtain ⟨w, hw, rfl⟩ := List.mem_map.1 hv
    exact ih w hw
  | obj ms _ ih =>
    refine .obj _ (fun m hm => ?_)
    have hmem := mem_of_mem_dictOf hm
    rw [memberValues_eq] at hmem
    obtain ⟨w, hw, rfl⟩ := List.mem_map.1 hmem
    exact ih w hw

/-- A value is its own value. -/
theorem Proper.value_value (h : Proper j) : JsonMachine.value N (JsonMachine.value N j) = JsonMachine.value N j := by
  induction h with
  | null => rfl
  | bool b => rfl
  | num l h =>
    simp only [JsonMachine.value, N.again l h]
  | str s => rfl
  | arr items _ ih =>
    rw [JsonMachine.value, JsonMachine.value, values_eq, values_eq, List.map_map]
    exact congrArg Json.arr (List.map_congr_left ih)
  | obj ms _ ih =>
    rw [JsonMachine.value, value_obj (dictOf_keys_nodup _), memberValues_eq]
    refine congrArg Json.obj ((List.map_congr_left (fun m hm => ?_)).trans (List.map_id _))
    have hmem := mem_of_mem_dictOf hm
    rw [memberValues_eq] at hmem
    obtain ⟨w, hw, rfl⟩ := List.mem_map.1 hmem
    exact Prod.ext rfl (ih w hw)

def Frame.Proper : Frame → Prop
  | .arr items => ∀ v ∈ items, JsonMachine.Proper v
  | .obj ms _ => ∀ m ∈ ms, JsonMachine.Proper m.2

def Mode.Proper : Mode → Prop
  | .after v => JsonMachine.Proper v
  | _ => True

def State.Proper (s : State) : Prop := (∀ f ∈ s.frames, f.Proper) ∧ s.mode.Proper

theorem readAtom_proper (h : readAtom t = some v) : Proper v := by
  unfold readAtom at h
  split_ifs at h with h₁ h₂ h₃ h₄
  · cases h
    exact .null
  · cases h
    exact .bool true
  · cases h
    exact .bool false
  · cases h
    exact .num t h₄

theorem forall_mem_append_singleton {α : Type} {p : α → Prop} {l : List α} {a : α} (hl : ∀ x ∈ l, p x) (ha : p a) :
    ∀ x ∈ l ++ [a], p x := by
  intro x hx
  rcases List.mem_append.1 hx with hx | hx
  · exact hl x hx
  · rw [List.mem_singleton.1 hx]
    exact ha

theorem After.proper (h : After fs v c s) (hfs : ∀ f ∈ fs, f.Proper) (hv : Proper v) : s.Proper := by
  cases h with
  | ws => exact ⟨hfs, hv⟩
  | nextItem =>
    obtain ⟨hitems, hfs⟩ := List.forall_mem_cons.1 hfs
    exact ⟨List.forall_mem_cons.2 ⟨forall_mem_append_singleton hitems hv, hfs⟩, trivial⟩
  | lastItem =>
    obtain ⟨hitems, hfs⟩ := List.forall_mem_cons.1 hfs
    exact ⟨hfs, .arr _ (forall_mem_append_singleton hitems hv)⟩
  | nextMember =>
    obtain ⟨hms, hfs⟩ := List.forall_mem_cons.1 hfs
    exact ⟨List.forall_mem_cons.2 ⟨forall_mem_append_singleton hms hv, hfs⟩, trivial⟩
  | lastMember =>
    obtain ⟨hms, hfs⟩ := List.forall_mem_cons.1 hfs
    exact ⟨hfs, .obj _ (forall_mem_append_singleton hms hv)⟩

theorem Moves.proper (h : Moves s c s') (hs : s.Proper) : s'.Proper := by
  obtain ⟨hfs, hm⟩ := hs
  cases h with
  | ws | quote | atom | char | escape | unicode | simple | digit | lastDigit | atomChar | colonWs | colon =>
    exact ⟨hfs, trivial⟩
  | brace => exact ⟨List.forall_mem_cons.2 ⟨fun m hm => (nomatch hm), hfs⟩, trivial⟩
  | bracket => exact ⟨List.forall_mem_cons.2 ⟨fun m hm => (nomatch hm), hfs⟩, trivial⟩
  | endObj =>
    obtain ⟨hms, hfs⟩ := List.forall_mem_cons.1 hfs
    exact ⟨hfs, .obj _ hms⟩
  | endArr =>
    obtain ⟨hitems, hfs⟩ := List.forall_mem_cons.1 hfs
    exact ⟨hfs, .arr _ hitems⟩
  | key =>
    obtain ⟨hms, hfs⟩ := List.forall_mem_cons.1 hfs
    exact ⟨List.forall_mem_cons.2 ⟨hms, hfs⟩, trivial⟩
  | str => exact ⟨hfs, .str _⟩
  | atomEnd _ hv h => exact h.proper hfs (readAtom_proper hv)
  | after h => exact h.proper hfs hm

theorem parse_proper (h : parse t = some v) : Proper v := by
  cases hrun : run start t with
  | none =>
    rw [parse, hrun] at h
    cases h
  | some s =>
    have hs : s.Proper := run_induction (fun _ _ _ h => h.proper) hrun ⟨by rintro _ ⟨⟩, trivial⟩
    rw [parse, hrun] at h
    obtain ⟨fs, m⟩ := s
    cases fs with
    | cons f fs => cases h
    | nil =>
      cases m with
      | atom t => exact readAtom_proper h
      | after w =>
        have hw : w = v := Option.some.inj h
        exact hw ▸ hs.2
      | expect | string | colon => cases h

theorem atomChar_plain (h : isAtomChar c = true) :
    isWs c = false ∧ c ≠ quote ∧ c ≠ openBrace ∧ c ≠ openBracket ∧ c ≠ closeBracket := by
  refine ⟨?_, ?_, ?_, ?_, ?_⟩
  · rw [Bool.eq_false_iff]
    intro hw
    simp only [isWs, Bool.or_eq_true, beq_iff_eq] at hw
    rcases hw with ((rfl | rfl) | rfl) | rfl <;> cases h
  all_goals
    rintro rfl
    cases h

variable {b : Bool}

/-- A number or a word begins where a value is expected. -/
theorem step_atom (hk : ¬ InKey fs) (hc : isAtomChar c = true) :
    step ⟨fs, .expect b⟩ c = some ⟨fs, .atom [c]⟩ := by
  obtain ⟨hw, hq, hb, ha, he⟩ := atomChar_plain hc
  match fs, hk with
  | [], _ => simp [step, stepExpect, stepValue, hw, hq, hb, ha, hc]
  | .arr _ :: _, _ => simp [step, stepExpect, stepValue, hw, hq, hb, ha, he, hc]
  | .obj _ (some _) :: _, _ => simp [step, stepExpect, stepValue, hw, hq, hb, ha, hc]
  | .obj _ none :: _, hk => exact absurd trivial hk

theorem run_atomChars (hu : u.all isAtomChar = true) (t : Str) : run ⟨fs, .atom t⟩ u = some ⟨fs, .atom (t ++ u)⟩ := by
  induction u generalizing t with
  | nil => rw [run, List.append_nil]
  | cons c u ih =>
    rw [List.all_cons, Bool.and_eq_true] at hu
    have hstep : step ⟨fs, .atom t⟩ c = some ⟨fs, .atom (t ++ [c])⟩ := by simp [step, hu.1]
    rw [run_step hstep, ih hu.2, List.append_assoc]
    rfl

theorem run_atomText (hk : ¬ InKey fs) (hne : t ≠ []) (ht : t.all isAtomChar = true) :
    run ⟨fs, .expect b⟩ t = some ⟨fs, .atom t⟩ := by
  cases t with
  | nil => exact absurd rfl hne
  | cons c t =>
    rw [List.all_cons, Bool.and_eq_true] at ht
    rw [run_step (step_atom hk ht.1), run_atomChars ht.2]
    rfl

theorem all_dropWhile (h : (t.dropWhile isDigit).all isAtomChar = true) : t.all isAtomChar = true := by
  induction t with
  | nil => rfl
  | cons c t ih =>
    rw [List.all_cons, Bool.and_eq_true]
    by_cases hd : isDigit c = true
    · rw [List.dropWhile_cons_of_pos hd] at h
      exact ⟨by simp [isAtomChar, hd], ih h⟩
    · rw [List.dropWhile_cons_of_neg hd] at h
      rwa [List.all_cons, Bool.and_eq_true] at h

theorem all_isDigit (h : t.all isDigit = true) : t.all isAtomChar = true := by
  rw [List.all_eq_true] at h ⊢
  intro c hc
  simp [isAtomChar, h c hc]

theorem isExponent_chars (h : isExponent t = true) : t.all isAtomChar = true := by
  match t with
  | [] => rfl
  | [_] => cases h
  | e :: c :: t =>
    simp only [isExponent, Bool.and_eq_true, Bool.or_eq_true, beq_iff_eq] at h
    have he : isAtomChar e = true := by rcases h.1 with rfl | rfl <;> rfl
    rw [List.all_cons, List.all_cons, he, Bool.true_and]
    have h₂ := h.2
    split at h₂
    · next hsign =>
      have hc : isAtomChar c = true := by rcases hsign with rfl | rfl <;> rfl
      rw [hc, all_isDigit (by simpa using (Bool.and_eq_true_iff.1 h₂).2)]
      rfl
    · obtain ⟨hc, ht⟩ := Bool.and_eq_true_iff.1 h₂
      rw [all_isDigit ht]
      simp [isAtomChar, hc]

theorem isFraction_chars (h : isFraction t = true) : t.all isAtomChar = true := by
  unfold isFraction at h
  split at h
  · split at h
    · cases h
    · next c t =>
      obtain ⟨hc, ht⟩ := Bool.and_eq_true_iff.1 h
      have hrest := all_dropWhile (isExponent_chars ht)
      rw [List.all_cons, List.all_cons, hrest]
      simp [isAtomChar, hc]
  · exact isExponent_chars h

theorem isUnsigned_chars (h : isUnsigned t = true) : t ≠ [] ∧ t.all isAtomChar = true := by
  cases t with
  | nil => cases h
  | cons c t =>
    refine ⟨List.cons_ne_nil c t, ?_⟩
    rw [isUnsigned] at h
    rw [List.all_cons]
    split at h
    · next hc =>
      rw [isFraction_chars h, hc]
      rfl
    · obtain ⟨hc, ht⟩ := Bool.and_eq_true_iff.1 h
      rw [all_dropWhile (isFraction_chars ht)]
      simp [isAtomChar, hc]

theorem isNumber_chars (h : isNumber t = true) : t ≠ [] ∧ t.all isAtomChar = true := by
  unfold isNumber at h
  split at h
  · next t =>
    refine ⟨List.cons_ne_nil _ _, ?_⟩
    rw [List.all_cons, (isUnsigned_chars h).2]
    rfl
  · exact isUnsigned_chars h

theorem isLiteral_chars (h : isLiteral t = true) : t ≠ [] ∧ t.all isAtomChar = true := by
  simp only [isLiteral, Bool.or_eq_true, beq_iff_eq] at h
  rcases h with ((h | rfl) | rfl) | rfl
  · exact isNumber_chars h
  · decide
  · decide
  · decide

theorem readAtom_literal (h : isLiteral t = true) : readAtom t = some (.num t) := by
  have hne : ∀ w : Str, isLiteral w = false → t ≠ w := by
    rintro w hw rfl
    rw [hw] at h
    cases h
  rw [readAtom, if_neg (hne _ (by decide)), if_neg (hne _ (by decide)), if_neg (hne _ (by decide)), if_pos h]

/-! Strings. -/

def pieceOf (c : Nat) : Piece := if c < 0x20 ∧ c ∉ [10, 13, 9, 12, 8] then .hex c else .char c

theorem hexValue_hexDigit {n : Nat} (hn : n < 16) : hexValue (hexDigit n) = some n := by
  have h : ∀ k : Fin 16, hexValue (hexDigit k) = some k.val := by decide
  exact h ⟨n, hn⟩

theorem run_escapeCode (fs : List Frame) (ps : List Piece) (c : Nat) :
    run ⟨fs, .string ps .plain⟩ (escapeCode c) = some ⟨fs, .string (ps ++ [pieceOf c]) .plain⟩ := by
  unfold escapeCode
  split_ifs with h₁ h₂ h₃ h₄ h₅ h₆ h₇ hlow
  · subst h₁; rfl
  · subst h₂; rfl
  · subst h₃; rfl
  · subst h₄; rfl
  · subst h₅; rfl
  · subst h₆; rfl
  · subst h₇; rfl
  · have hpiece : pieceOf c = .hex c := by
      rw [pieceOf, if_pos]
      simp [hlow, h₃, h₄, h₅, h₆, h₇]
    have hcode : ofHex [0, 0, c / 16, c % 16] = c := by
      simp only [ofHex, List.foldl_cons, List.foldl_nil]
      omega
    have hx₁ : hexValue (hexDigit (c / 16)) = some (c / 16) := hexValue_hexDigit (by omega)
    have hx₂ : hexValue (hexDigit (c % 16)) = some (c % 16) := hexValue_hexDigit (by omega)
    have h₁ : step ⟨fs, .string ps (.hex [0, 0])⟩ (hexDigit (c / 16)) = some ⟨fs, .string ps (.hex [0, 0, c / 16])⟩ := by
      simp [step, stepString, hx₁]
    have h₂ : step ⟨fs, .string ps (.hex [0, 0, c / 16])⟩ (hexDigit (c % 16)) =
        some ⟨fs, .string (ps ++ [.hex c]) .plain⟩ := by
      simp [step, stepString, hx₂, hcode]
    have h₀ : run ⟨fs, .string ps .plain⟩ [backslash, 0x75, 0x30, 0x30] = some ⟨fs, .string ps (.hex [0, 0])⟩ := rfl
    rw [hpiece]
    exact (run_trans h₀ [hexDigit (c / 16), hexDigit (c % 16)]).trans (by rw [run_step h₁, run_step h₂]; rfl)
  · have hpiece : pieceOf c = .char c := by
      rw [pieceOf, if_neg]
      exact fun h => hlow h.1
    have hstep : step ⟨fs, .string ps .plain⟩ c = some ⟨fs, .string (ps ++ [.char c]) .plain⟩ := by
      simp only [step, stepString, if_neg h₁, if_neg hlow, if_neg h₂]
    rw [hpiece, run_step hstep]
    rfl

theorem run_escapes (fs : List Frame) (ps : List Piece) (t : Str) :
    run ⟨fs, .string ps .plain⟩ (t.flatMap escapeCode) = some ⟨fs, .string (ps ++ t.map pieceOf) .plain⟩ := by
  induction t generalizing ps with
  | nil => simp [run]
  | cons c t ih =>
    rw [List.flatMap_cons, run_trans (run_escapeCode fs ps c), ih]
    simp

/-- Without an escaped high surrogate the pieces are the code points. -/
theorem join_of_not_high {ps : List Piece} (h : ∀ p ∈ ps, p.high = false) : join ps = ps.map Piece.code := by
  induction ps with
  | nil => rfl
  | cons p ps ih =>
    cases ps with
    | nil => rfl
    | cons q ps =>
      have hp := h p List.mem_cons_self
      rw [join, hp, Bool.false_and, if_neg Bool.false_ne_true, ih (fun x hx => h x (List.mem_cons_of_mem p hx))]
      rfl

theorem join_pieceOf (t : Str) : join (t.map pieceOf) = t := by
  have hcode : ∀ c, (pieceOf c).code = c := by
    intro c
    unfold pieceOf
    split <;> rfl
  rw [join_of_not_high, List.map_map]
  · exact (List.map_congr_left (fun c _ => hcode c)).trans (List.map_id t)
  · intro p hp
    obtain ⟨c, -, rfl⟩ := List.mem_map.1 hp
    unfold pieceOf
    split
    · next h =>
      simp only [Piece.high, Bool.and_eq_false_iff, decide_eq_false_iff_not]
      exact .inl (by omega)
    · rfl

/-- A written string is read as a value. -/
theorem run_dumpsString (hk : ¬ InKey fs) (t : Str) :
    run ⟨fs, .expect b⟩ (dumpsString t) = some ⟨fs, .after (.str t)⟩ := by
  have hopen : step ⟨fs, .expect b⟩ quote = some ⟨fs, .string [] .plain⟩ := by
    match fs, hk with
    | [], _ => rfl
    | .arr _ :: _, _ => rfl
    | .obj _ (some _) :: _, _ => rfl
    | .obj _ none :: _, hk => exact absurd trivial hk
  rw [dumpsString, List.cons_append, run_step hopen, run_trans (run_escapes fs [] t), List.nil_append,
    run_step (step_quote hk _), join_pieceOf]
  rfl

theorem run_dumpsKey (ms : List (Str × Json)) (fs : List Frame) (k : Str) :
    run ⟨.obj ms none :: fs, .expect b⟩ (dumpsString k ++ [colon, 0x20]) = some ⟨.obj ms (some k) :: fs, .expect false⟩ := by
  have hopen : step ⟨.obj ms none :: fs, .expect b⟩ quote = some ⟨.obj ms none :: fs, .string [] .plain⟩ := rfl
  have hclose : step ⟨.obj ms none :: fs, .string (k.map pieceOf) .plain⟩ quote =
      some ⟨.obj ms (some (join (k.map pieceOf))) :: fs, .colon⟩ := rfl
  rw [dumpsString, List.cons_append, List.cons_append, List.append_assoc, run_step hopen,
    run_trans (run_escapes _ [] k), List.nil_append, List.cons_append, run_step hclose, join_pieceOf]
  rfl

/-! Values. -/

def Took (fs : List Frame) (v : Json) (s : State) : Prop :=
  s = ⟨fs, .after v⟩ ∨ ∃ t, s = ⟨fs, .atom t⟩ ∧ readAtom t = some v

theorem Took.step (h : Took fs v s) (hc : isAtomChar c = false) : JsonMachine.step s c = stepAfter fs v c := by
  rcases h with rfl | ⟨t, rfl, ht⟩
  · rfl
  · simp [JsonMachine.step, hc, ht]

theorem Took.atom (hk : ¬ InKey fs) (hne : t ≠ []) (ht : t.all isAtomChar = true) (hv : readAtom t = some v) :
    ∃ s, run ⟨fs, .expect b⟩ t = some s ∧ Took fs v s :=
  ⟨_, run_atomText hk hne ht, .inr ⟨t, rfl, hv⟩⟩

theorem step_brace (hk : ¬ InKey fs) :
    step ⟨fs, .expect b⟩ openBrace = some ⟨.obj [] none :: fs, .expect true⟩ := by
  match fs, hk with
  | [], _ => rfl
  | .arr _ :: _, _ => rfl
  | .obj _ (some _) :: _, _ => rfl
  | .obj _ none :: _, hk => exact absurd trivial hk

theorem step_bracket (hk : ¬ InKey fs) :
    step ⟨fs, .expect b⟩ openBracket = some ⟨.arr [] :: fs, .expect true⟩ := by
  match fs, hk with
  | [], _ => rfl
  | .arr _ :: _, _ => rfl
  | .obj _ (some _) :: _, _ => rfl
  | .obj _ none :: _, hk => exact absurd trivial hk

theorem Took.comma_item {items : List Json} (h : Took (.arr items :: fs) v s) (t : Str) :
    run s (comma :: 0x20 :: t) = run ⟨.arr (items ++ [v]) :: fs, .expect false⟩ t := by
  have hcomma : JsonMachine.step s comma = some ⟨.arr (items ++ [v]) :: fs, .expect false⟩ := h.step (by decide)
  rw [run_step hcomma]
  rfl

theorem Took.comma_member {ms : List (Str × Json)} {k : Str} (h : Took (.obj ms (some k) :: fs) v s) (t : Str) :
    run s (comma :: 0x20 :: t) = run ⟨.obj (ms ++ [(k, v)]) none :: fs, .expect false⟩ t := by
  have hcomma : JsonMachine.step s comma = some ⟨.obj (ms ++ [(k, v)]) none :: fs, .expect false⟩ := h.step (by decide)
  rw [run_step hcomma]
  rfl

mutual

theorem run_dumps : (j : Json) → Proper j → (fs : List Frame) → ¬ InKey fs → (b : Bool) →
    ∃ s, run ⟨fs, .expect b⟩ (dumps j) = some s ∧ Took fs j s
  | .null, _, _, hk, _ => Took.atom hk (by decide) (by decide) rfl
  | .bool true, _, _, hk, _ => Took.atom hk (by decide) (by decide) rfl
  | .bool false, _, _, hk, _ => Took.atom hk (by decide) (by decide) rfl
  | .num l, hp, _, hk, _ => by
    cases hp with
    | num l h => exact Took.atom hk (isLiteral_chars h).1 (isLiteral_chars h).2 (readAtom_literal h)
  | .str t, _, _, hk, _ => ⟨_, run_dumpsString hk t, .inl rfl⟩
  | .arr [], _, fs, hk, _ => ⟨_, run_step (step_bracket hk) [closeBracket], .inl rfl⟩
  | .arr (v :: vs), hp, fs, hk, _ => by
    cases hp with
    | arr items h =>
      obtain ⟨hv, hvs⟩ := List.forall_mem_cons.1 h
      obtain ⟨s, hs, htook⟩ := run_dumps v hv (.arr [] :: fs) id true
      refine ⟨⟨fs, .after (.arr (v :: vs))⟩, ?_, .inl rfl⟩
      rw [dumps, run_step (step_bracket hk), run_trans hs]
      exact run_dumpsItems vs hvs fs [] v s htook
  | .obj [], _, fs, hk, _ => ⟨_, run_step (step_brace hk) [closeBrace], .inl rfl⟩
  | .obj ((k, v) :: ms), hp, fs, hk, _ => by
    cases hp with
    | obj ms' h =>
      obtain ⟨hv, hms⟩ := List.forall_mem_cons.1 h
      obtain ⟨s, hs, htook⟩ := run_dumps v hv (.obj [] (some k) :: fs) id false
      refine ⟨⟨fs, .after (.obj ((k, v) :: ms))⟩, ?_, .inl rfl⟩
      have hkey := run_trans (run_dumpsKey (b := true) [] fs k) (dumps v ++ dumpsMembers ms)
      rw [List.append_assoc] at hkey
      rw [dumps, run_step (step_brace hk)]
      refine hkey.trans ?_
      rw [run_trans hs]
      exact run_dumpsMembers ms hms fs [] k v s htook

theorem run_dumpsItems : (vs : List Json) → (∀ v ∈ vs, Proper v) → (fs : List Frame) → (items : List Json) →
    (v : Json) → (s : State) → Took (.arr items :: fs) v s →
    run s (dumpsItems vs) = some ⟨fs, .after (.arr (items ++ v :: vs))⟩
  | [], _, fs, items, v, s, htook => by
    have hclose : JsonMachine.step s closeBracket = some ⟨fs, .after (.arr (items ++ [v]))⟩ := htook.step (by decide)
    exact run_step hclose []
  | w :: ws, hp, fs, items, v, s, htook => by
    obtain ⟨hw, hws⟩ := List.forall_mem_cons.1 hp
    obtain ⟨s', hs', htook'⟩ := run_dumps w hw (.arr (items ++ [v]) :: fs) id false
    rw [dumpsItems, htook.comma_item, run_trans hs', run_dumpsItems ws hws fs (items ++ [v]) w s' htook', List.append_assoc]
    rfl

theorem run_dumpsMembers : (ms : List (Str × Json)) → (∀ m ∈ ms, Proper m.2) → (fs : List Frame) →
    (done : List (Str × Json)) → (k : Str) → (v : Json) → (s : State) → Took (.obj done (some k) :: fs) v s →
    run s (dumpsMembers ms) = some ⟨fs, .after (.obj (done ++ (k, v) :: ms))⟩
  | [], _, fs, done, k, v, s, htook => by
    have hclose : JsonMachine.step s closeBrace = some ⟨fs, .after (.obj (done ++ [(k, v)]))⟩ := htook.step (by decide)
    exact run_step hclose []
  | (k', w) :: ms, hp, fs, done, k, v, s, htook => by
    obtain ⟨hw, hms⟩ := List.forall_mem_cons.1 hp
    obtain ⟨s', hs', htook'⟩ := run_dumps w hw (.obj (done ++ [(k, v)]) (some k') :: fs) id false
    have hkey := run_trans (run_dumpsKey (b := false) (done ++ [(k, v)]) fs k') (dumps w ++ dumpsMembers ms)
    rw [List.append_assoc] at hkey
    rw [dumpsMembers, htook.comma_member]
    refine hkey.trans ?_
    rw [run_trans hs', run_dumpsMembers ms hms fs (done ++ [(k, v)]) k' w s' htook', List.append_assoc]
    rfl

end

/-- What is written is read back. -/
theorem parse_dumps (h : Proper j) : parse (dumps j) = some j := by
  obtain ⟨s, hs, htook⟩ := run_dumps j h [] id false
  rw [parse, start, hs]
  rcases htook with rfl | ⟨t, rfl, ht⟩
  · rfl
  · exact ht

/-- A value is read back as itself. -/
theorem loads_dumps (h : Proper j) : loads N (dumps (value N j)) = some (value N j) := by
  rw [loads, parse_dumps h.value, Option.map_some, h.value_value]

end FusionMlx.JsonMachine
