import FusionMlx.Support.JsonMachine

/-!
# Documents cut short

What the machine says of a text that ends early. The document it leads to fills
its open containers, and closing them where they stand gives a document that
keeps everything in front of the cut.
-/
namespace FusionMlx.JsonMachine

def Fills : List Frame → Json → Json → Prop
  | [], y, d => y = d
  | .arr items :: fs, y, d => ∃ rest, Fills fs (.arr (items ++ y :: rest)) d
  | .obj ms (some k) :: fs, y, d => ∃ rest, Fills fs (.obj (ms ++ (k, y) :: rest)) d
  | .obj _ none :: _, _, _ => False

inductive Extends : List Piece → Lex → List Piece → Prop
  | plain {ps us} (h : ps <+: us) : Extends ps .plain us
  | escape {ps us p} (h : ps ++ [p] <+: us) : Extends ps .escape us
  | hex {ps us ds n} (h : ps ++ [.hex n] <+: us) : Extends ps (.hex ds) us

inductive Tends : State → Json → Prop
  | after {fs v d} (h : Fills fs v d) : Tends ⟨fs, .after v⟩ d
  | atom {fs t u y d} (hy : readAtom (t ++ u) = some y) (h : Fills fs y d) : Tends ⟨fs, .atom t⟩ d
  | value {fs b y d} (h : Fills fs y d) : Tends ⟨fs, .expect b⟩ d
  | items {items rest fs b d} (h : Fills fs (.arr (items ++ rest)) d) : Tends ⟨.arr items :: fs, .expect b⟩ d
  | members {ms rest fs b d} (h : Fills fs (.obj (ms ++ rest)) d) : Tends ⟨.obj ms none :: fs, .expect b⟩ d
  | colon {fs d} (h : Tends ⟨fs, .expect false⟩ d) : Tends ⟨fs, .colon⟩ d
  | key {ms rest fs ps lex d} (h : Fills fs (.obj (ms ++ rest)) d) : Tends ⟨.obj ms none :: fs, .string ps lex⟩ d
  | string {fs ps lex us d} (hp : Extends ps lex us) (h : Fills fs (.str (join us)) d) : Tends ⟨fs, .string ps lex⟩ d

variable {s s' : State} {f : Frame} {fs gs : List Frame} {t u q : Str} {v x y d : Json} {c : Nat} {k : Str}
  {ms rest : List (Str × Json)} {ps us : List Piece} {lex : Lex}

theorem Extends.le (h : Extends ps lex us) : ps <+: us := by
  cases h with
  | plain h => exact h
  | escape h => exact (List.prefix_append _ _).trans h
  | hex h => exact (List.prefix_append _ _).trans h

theorem fills_not_inKey (h : Fills fs y d) : ¬ InKey fs := by
  cases fs with
  | nil => exact id
  | cons f fs =>
    cases f with
    | arr items => exact id
    | obj ms k =>
      cases k with
      | none => exact h.elim
      | some k => exact id

/-- In front of a value of a list, the list may become what the value leads to. -/
theorem Tends.of_after (h : After fs v c s) (hd : Tends s d) : Fills fs v d := by
  cases h with
  | ws h =>
    cases hd with
    | after hd => exact hd
  | nextItem =>
    cases hd with
    | value hd =>
      obtain ⟨rest, hd⟩ := hd
      exact ⟨_ :: rest, by simpa using hd⟩
    | items hd => exact ⟨_, by simpa using hd⟩
  | lastItem =>
    cases hd with
    | after hd => exact ⟨[], hd⟩
  | nextMember =>
    cases hd with
    | value hd => exact hd.elim
    | members hd => exact ⟨_, by simpa using hd⟩
  | lastMember =>
    cases hd with
    | after hd => exact ⟨[], hd⟩

/-- A string that is read on. -/
theorem Tends.of_string {fs : List Frame} {ps ps' : List Piece} {lex lex' : Lex}
    (h : ∀ us, Extends ps' lex' us → Extends ps lex us) (hd : Tends ⟨fs, .string ps' lex'⟩ d) :
    Tends ⟨fs, .string ps lex⟩ d := by
  cases hd with
  | key hd => exact .key hd
  | string hp hd => exact .string (h _ hp) hd

theorem Tends.back (h : Moves s c s') (hd : Tends s' d) : Tends s d := by
  cases h with
  | ws h => exact hd
  | quote =>
    cases hd with
    | key hd => exact .members hd
    | string _ hd => exact .value hd
  | brace h =>
    cases hd with
    | value hd => exact hd.elim
    | members hd => exact .value hd
  | bracket h =>
    cases hd with
    | value hd =>
      obtain ⟨rest, hd⟩ := hd
      exact .value hd
    | items hd => exact .value hd
  | atom h hc =>
    cases hd with
    | atom _ hd => exact .value hd
  | endObj =>
    cases hd with
    | after hd => exact @Tends.members _ [] _ _ _ (by simpa using hd)
  | endArr =>
    cases hd with
    | after hd => exact @Tends.items _ [] _ _ _ (by simpa using hd)
  | key =>
    cases hd with
    | colon hd =>
      cases hd with
      | value hd =>
        obtain ⟨rest, hd⟩ := hd
        exact .key hd
  | str h =>
    cases hd with
    | after hd => exact .string (.plain (List.prefix_refl _)) hd
  | char =>
    refine hd.of_string (fun us hp => ?_)
    cases hp with
    | plain hp => exact .plain ((List.prefix_append _ _).trans hp)
  | escape =>
    refine hd.of_string (fun us hp => ?_)
    cases hp with
    | escape hp => exact .plain ((List.prefix_append _ _).trans hp)
  | unicode =>
    refine hd.of_string (fun us hp => ?_)
    cases hp with
    | hex hp => exact .escape hp
  | simple =>
    refine hd.of_string (fun us hp => ?_)
    cases hp with
    | plain hp => exact .escape hp
  | digit =>
    refine hd.of_string (fun us hp => ?_)
    cases hp with
    | hex hp => exact .hex hp
  | lastDigit =>
    refine hd.of_string (fun us hp => ?_)
    cases hp with
    | plain hp => exact .hex hp
  | atomChar =>
    cases hd with
    | atom hy hd => exact .atom (by simpa using hy) hd
  | atomEnd _ hv h => exact @Tends.atom _ _ [] _ _ (by simpa using hv) (hd.of_after h)
  | colonWs => exact hd
  | colon => exact .colon hd
  | after h => exact .after (hd.of_after h)

def Rest (s : State) (u : Str) (d : Json) : Prop := finish (run s u) = some d

theorem Rest.tends (h : Rest s u d) : Tends s d := by
  unfold Rest at h
  cases hrun : run s u with
  | none =>
    rw [hrun] at h
    cases h
  | some s' =>
    rw [hrun] at h
    refine run_back (fun _ _ _ => Tends.back) hrun ?_
    obtain ⟨fs, m⟩ := s'
    cases fs with
    | cons f fs => cases h
    | nil =>
      cases m with
      | atom t =>
        have ht : readAtom (t ++ []) = some d := by simpa [finish, Mode.value?] using h
        exact .atom ht rfl
      | after v =>
        have hv : v = d := by simpa [finish, Mode.value?] using h
        exact .after hv
      | expect | string | colon => cases h

def closer : Frame → Nat
  | .arr _ => closeBracket
  | .obj _ _ => closeBrace

def closers (fs : List Frame) : Str := fs.map closer

def shut : List Frame → Json → Json
  | [], v => v
  | .arr items :: fs, v => shut fs (.arr (items ++ [v]))
  | .obj ms (some k) :: fs, v => shut fs (.obj (ms ++ [(k, v)]))
  | .obj ms none :: fs, _ => shut fs (.obj ms)

theorem run_closers (h : Fills fs y d) (v : Json) : run ⟨fs, .after v⟩ (closers fs) = some ⟨[], .after (shut fs v)⟩ := by
  induction fs generalizing v y with
  | nil => rfl
  | cons f fs ih =>
    cases f with
    | arr items =>
      obtain ⟨rest, h⟩ := h
      exact ih h _
    | obj ms k =>
      cases k with
      | none => exact h.elim
      | some k =>
        obtain ⟨rest, h⟩ := h
        exact ih h _

def quotes : Mode → Str
  | .string _ .escape => [quote, quote]
  | .string _ _ => [quote]
  | _ => []

def State.shut? : State → Option Json
  | ⟨fs, .after v⟩ => some (shut fs v)
  | ⟨fs, .atom t⟩ => (readAtom t).map (shut fs)
  | ⟨.arr items :: fs, .expect _⟩ => some (shut fs (.arr items))
  | ⟨.obj ms none :: fs, .expect _⟩ => some (shut fs (.obj ms))
  | ⟨.obj _ none :: _, .string _ _⟩ => none
  | ⟨fs, .string ps .plain⟩ => some (shut fs (.str (join ps)))
  | ⟨fs, .string ps .escape⟩ => some (shut fs (.str (join (ps ++ [.char quote]))))
  | _ => none

theorem closer_plain (f : Frame) : isAtomChar (closer f) = false ∧ isWs (closer f) = false ∧ closer f ≠ colon := by
  cases f with
  | arr items => exact (by decide : isAtomChar closeBracket = false ∧ isWs closeBracket = false ∧ closeBracket ≠ colon)
  | obj ms k => exact (by decide : isAtomChar closeBrace = false ∧ isWs closeBrace = false ∧ closeBrace ≠ colon)

theorem finish_closers (h : Fills fs y d) (v : Json) : finish (run ⟨fs, .after v⟩ (closers fs)) = some (shut fs v) := by
  rw [run_closers h]
  rfl

/-- Behind a number or a word the closers do what they do behind its value. -/
theorem run_atom_closers (hne : fs ≠ []) (hv : readAtom t = some v) :
    run ⟨fs, .atom t⟩ (closers fs) = run ⟨fs, .after v⟩ (closers fs) := by
  cases fs with
  | nil => exact absurd rfl hne
  | cons f fs =>
    have hstep : step ⟨f :: fs, .atom t⟩ (closer f) = step ⟨f :: fs, .after v⟩ (closer f) := by
      simp [step, (closer_plain f).1, hv]
    simp only [closers, List.map_cons, run, hstep]

theorem run_atom_none (hne : fs ≠ []) (hv : readAtom t = none) : run ⟨fs, .atom t⟩ (closers fs) = none := by
  cases fs with
  | nil => exact absurd rfl hne
  | cons f fs =>
    simp [closers, run, step, (closer_plain f).1, hv]

theorem run_colon_closers (hne : fs ≠ []) : run ⟨fs, .colon⟩ (closers fs) = none := by
  cases fs with
  | nil => exact absurd rfl hne
  | cons f fs =>
    simp [closers, run, step, (closer_plain f).2.1, (closer_plain f).2.2]

/-! Where no key comes, a string is a value. -/

theorem shut?_plain (h : ¬ InKey fs) (ps : List Piece) :
    State.shut? ⟨fs, .string ps .plain⟩ = some (shut fs (.str (join ps))) := by
  match fs, h with
  | [], _ => rfl
  | .arr _ :: _, _ => rfl
  | .obj _ (some _) :: _, _ => rfl
  | .obj _ none :: _, h => exact absurd trivial h

theorem shut?_escape (h : ¬ InKey fs) (ps : List Piece) :
    State.shut? ⟨fs, .string ps .escape⟩ = some (shut fs (.str (join (ps ++ [.char quote])))) := by
  match fs, h with
  | [], _ => rfl
  | .arr _ :: _, _ => rfl
  | .obj _ (some _) :: _, _ => rfl
  | .obj _ none :: _, h => exact absurd trivial h

theorem shut?_hex (fs : List Frame) (ps : List Piece) (ds : List Nat) :
    State.shut? ⟨fs, .string ps (.hex ds)⟩ = none := by
  match fs with
  | [] => rfl
  | .arr _ :: _ => rfl
  | .obj _ (some _) :: _ => rfl
  | .obj _ none :: _ => rfl

/-- The closing text of a state is read as the document it makes of it, unless a comma stands in front. -/
theorem finish_closing (hd : Tends s d) (hne : s.frames ≠ [])
    (hfirst : s.mode = .expect false → ∃ ms k fs, s.frames = .obj ms (some k) :: fs) :
    finish (run s (quotes s.mode ++ closers s.frames)) = s.shut? := by
  cases hd with
  | after hd => exact finish_closers hd _
  | atom hy hd =>
    rename_i t _ _
    cases hv : readAtom t with
    | none =>
      have hrun := run_atom_none hne hv
      simp only [quotes, List.nil_append, State.shut?, hv, Option.map_none]
      rw [hrun]
      rfl
    | some v =>
      simp only [quotes, List.nil_append, State.shut?, hv, Option.map_some]
      rw [run_atom_closers hne hv]
      exact finish_closers hd v
  | colon hd =>
    have hrun := run_colon_closers hne
    simp only [quotes, List.nil_append]
    rw [hrun]
    rfl
  | value hd =>
    rename_i fs b _
    cases fs with
    | nil => exact absurd rfl hne
    | cons f fs =>
      cases f with
      | arr items =>
        cases b with
        | false =>
          obtain ⟨ms, k, fs', h⟩ := hfirst rfl
          cases h
        | true =>
          obtain ⟨rest, hd⟩ := hd
          exact finish_closers hd _
      | obj ms k =>
        cases k with
        | none => exact hd.elim
        | some k => rfl
  | items hd =>
    rename_i b
    cases b with
    | false =>
      obtain ⟨ms, k, fs', h⟩ := hfirst rfl
      cases h
    | true => exact finish_closers hd _
  | members hd =>
    rename_i b
    cases b with
    | false =>
      obtain ⟨ms, k, fs', h⟩ := hfirst rfl
      cases h
    | true => exact finish_closers hd _
  | key hd =>
    rename_i ps lex
    cases lex with
    | plain => rfl
    | escape => rfl
    | hex ds => rfl
  | string hp hd =>
    rename_i fs ps lex us
    have hkey := fills_not_inKey hd
    cases lex with
    | plain =>
      simp only [quotes, List.cons_append, List.nil_append]
      rw [run_step (step_quote hkey ps), finish_closers hd, shut?_plain hkey]
    | escape =>
      have hescape : step ⟨fs, .string ps .escape⟩ quote = some ⟨fs, .string (ps ++ [.char quote]) .plain⟩ := rfl
      simp only [quotes, List.cons_append, List.nil_append]
      rw [run_step hescape, run_step (step_quote hkey _), finish_closers hd, shut?_escape hkey]
    | hex ds =>
      rw [shut?_hex]
      rfl

/-- Behind a comma between values, closing the text in front of the comma gives the document. -/
theorem finish_before_comma (h : Moves s comma s') (hd : Tends s' d) (hmode : ∀ ps lex, s'.mode ≠ .string ps lex) :
    finish (run s (closers s'.frames)) = s'.shut? := by
  have hafter : ∀ {fs v}, After fs v comma s' → finish (run ⟨fs, .after v⟩ (closers s'.frames)) = s'.shut? ∧ fs ≠ [] ∧
      closers fs = closers s'.frames := by
    intro fs v h
    have hfills := hd.of_after h
    cases h with
    | ws hw => cases hw
    | nextItem => exact ⟨finish_closers hfills v, List.cons_ne_nil _ _, rfl⟩
    | nextMember => exact ⟨finish_closers hfills v, List.cons_ne_nil _ _, rfl⟩
  cases h with
  | ws hw => cases hw
  | atom _ hc => cases hc
  | char => exact absurd rfl (hmode _ _)
  | simple _ hn => cases hn
  | digit hx => cases hx
  | lastDigit hx => cases hx
  | atomChar hc => cases hc
  | atomEnd _ hv h =>
    obtain ⟨hfinish, hne, hclosers⟩ := hafter h
    rw [← hclosers, run_atom_closers hne hv, hclosers]
    exact hfinish
  | colonWs hw => cases hw
  | after h => exact (hafter h).1

end FusionMlx.JsonMachine
