import FusionMlx.Support.JsonTruncations

/-!
# The members of an object that is cut

A text that ends inside an object has taken some of its members and may stand in
the value of the next. Closing it gives the object of these members, with the
last value closed in turn.
-/
namespace FusionMlx.JsonMachine

def ending : Option Str → Option Json → List (Str × Json)
  | some k, some v => [(k, v)]
  | _, _ => []

def pairsOf : List Frame → Option Json → List (Str × Json)
  | _ :: f :: fs, _ => pairsOf (f :: fs) none
  | [.obj ms key], v => ms ++ ending key v
  | [.arr _], _ => []
  | [], some (.obj ms) => ms
  | [], _ => []

def keyOf : List Frame → Option Str
  | _ :: f :: fs => keyOf (f :: fs)
  | [.obj _ k] => k
  | _ => none

def State.pairs (s : State) : List (Str × Json) := pairsOf s.frames s.mode.value?

def State.cutKey (s : State) : Option Str := keyOf s.frames

/-- No quotes and brackets make a document of the text: it ends in a key, in front of a value whose key stands there, in
the digits of an escape, or in a number or a word that does not end there. -/
def State.Stuck (s : State) : Prop :=
  match s.mode with
  | .expect _ => ∃ ms k fs, s.frames = .obj ms (some k) :: fs
  | .string _ (.hex _) => True
  | .string _ _ => InKey s.frames
  | .atom t => readAtom t = none
  | .colon => True
  | .after _ => False

variable {N : Numbers} {s : State} {f : Frame} {fs gs : List Frame} {v x y z d X : Json} {k : Str} {key : Option Str}
  {ms ms₀ rest : List (Str × Json)} {u : Str}

theorem ending_none (key : Option Str) : ending key none = [] := by cases key <;> rfl

theorem pairsOf_outer (f : Frame) (fs : List Frame) (ms : List (Str × Json)) (key : Option Str) (v : Option Json) :
    pairsOf (f :: fs ++ [.obj ms key]) v = ms := by
  induction fs generalizing f v with
  | nil =>
    have hlast : pairsOf [f, .obj ms key] v = ms ++ ending key none := rfl
    rw [List.singleton_append, hlast, ending_none, List.append_nil]
  | cons g fs ih => exact ih g none

theorem keyOf_outer (fs : List Frame) (ms : List (Str × Json)) (key : Option Str) : keyOf (fs ++ [.obj ms key]) = key := by
  induction fs with
  | nil => rfl
  | cons f fs ih =>
    cases fs with
    | nil => rfl
    | cons g fs => exact ih

/-- What fills the containers of an object goes through the value of a member. -/
theorem fills_outer (h : Fills fs y (.obj ms)) (hne : fs ≠ []) :
    ∃ gs ms₀ k z rest, fs = gs ++ [.obj ms₀ (some k)] ∧ Fills gs y z ∧ ms = ms₀ ++ (k, z) :: rest := by
  obtain ⟨gs, f, rfl⟩ := List.eq_nil_or_concat' fs |>.resolve_left hne
  obtain ⟨z, hz, hd⟩ := fills_append.1 h
  cases f with
  | arr items =>
    obtain ⟨rest, hd⟩ := hd
    cases hd
  | obj ms₀ key =>
    cases key with
    | none => exact hd.elim
    | some k =>
      obtain ⟨rest, hd⟩ := hd
      exact ⟨gs, ms₀, k, z, rest, rfl, hz, (Json.obj.inj hd).symm⟩

theorem fills_obj_outer (h : Fills fs (.obj (ms₀ ++ rest)) (.obj ms)) (key : Option Str) :
    ∃ gs ms₁ key' more, .obj ms₀ key :: fs = gs ++ [.obj ms₁ key'] ∧ ms = ms₁ ++ more := by
  cases fs with
  | nil => exact ⟨[], ms₀, key, rest, rfl, (Json.obj.inj h).symm⟩
  | cons f fs =>
    obtain ⟨gs, ms₁, k, z, more, hfs, -, hms⟩ := fills_outer h (List.cons_ne_nil f fs)
    exact ⟨_ :: gs, ms₁, some k, _, by rw [hfs]; rfl, hms⟩

/-- Inside an object, the outermost container is that object. -/
theorem Tends.outer (h : Tends s (.obj ms)) (hne : s.frames ≠ []) :
    ∃ gs ms₀ key rest, s.frames = gs ++ [.obj ms₀ key] ∧ ms = ms₀ ++ rest := by
  have hfills : ∀ {fs y}, Fills fs y (.obj ms) → fs ≠ [] →
      ∃ gs ms₀ key rest, fs = gs ++ [.obj ms₀ key] ∧ ms = ms₀ ++ rest := by
    intro fs y h hne
    obtain ⟨gs, ms₀, k, z, rest, hfs, -, hms⟩ := fills_outer h hne
    exact ⟨gs, ms₀, some k, _, hfs, hms⟩
  generalize hd : Json.obj ms = d at h
  induction h with
  | after h => exact hfills (hd ▸ h) hne
  | atom _ h => exact hfills (hd ▸ h) hne
  | value h => exact hfills (hd ▸ h) hne
  | string _ h => exact hfills (hd ▸ h) hne
  | colon _ ih => exact ih hne hd
  | members h => exact fills_obj_outer (hd ▸ h) none
  | key h => exact fills_obj_outer (hd ▸ h) none
  | items h =>
    rename_i items rest fs b _
    subst hd
    cases fs with
    | nil => cases h
    | cons f fs =>
      obtain ⟨gs, ms₀, k, z, more, hfs, -, hms⟩ := fills_outer h (List.cons_ne_nil f fs)
      exact ⟨_ :: gs, ms₀, some k, _, by rw [hfs]; rfl, hms⟩

theorem shut?_none_iff (h : Tends s d) (hne : s.frames ≠ []) : s.shut? = none ↔ s.Stuck := by
  cases h with
  | after h => exact iff_of_false (by rintro ⟨⟩) id
  | atom _ h =>
    rename_i t _ _
    simp only [State.shut?, State.Stuck, Option.map_eq_none_iff]
  | colon h =>
    rename_i fs
    refine iff_of_true ?_ trivial
    rcases fs with _ | ⟨_ | ⟨_, _ | _⟩, _⟩ <;> rfl
  | value h =>
    rename_i fs b y
    cases fs with
    | nil => exact absurd rfl hne
    | cons f fs =>
      cases f with
      | arr items => exact iff_of_false (by rintro ⟨⟩) (by rintro ⟨_, _, _, ⟨⟩⟩)
      | obj ms key =>
        cases key with
        | none => exact h.elim
        | some k => exact iff_of_true rfl ⟨ms, k, fs, rfl⟩
  | items h => exact iff_of_false (by rintro ⟨⟩) (by rintro ⟨_, _, _, ⟨⟩⟩)
  | members h => exact iff_of_false (by rintro ⟨⟩) (by rintro ⟨_, _, _, ⟨⟩⟩)
  | key h =>
    rename_i ms rest fs ps lex
    cases lex with
    | plain => exact iff_of_true rfl trivial
    | escape => exact iff_of_true rfl trivial
    | hex ds => exact iff_of_true rfl trivial
  | string hp h =>
    rename_i fs ps lex us
    have hkey := fills_not_inKey h
    cases lex with
    | plain =>
      rw [shut?_plain hkey]
      exact iff_of_false (by rintro ⟨⟩) hkey
    | escape =>
      rw [shut?_escape hkey]
      exact iff_of_false (by rintro ⟨⟩) hkey
    | hex ds => exact iff_of_true (shut?_hex fs ps ds) trivial

/-- Where closing gives nothing no value ends with the text. -/
theorem State.Stuck.pairs (h : s.Stuck) (hs : s.frames = gs ++ [.obj ms₀ key]) : s.pairs = ms₀ := by
  have hvalue : s.mode.value? = none := by
    obtain ⟨fs, m⟩ := s
    cases m with
    | atom t => exact h
    | after v => exact h.elim
    | expect | string | colon => rfl
  rw [State.pairs, hvalue, hs]
  cases gs with
  | nil => exact (congrArg (ms₀ ++ ·) (ending_none key)).trans (List.append_nil ms₀)
  | cons f gs => exact pairsOf_outer f gs ms₀ key none

/-- Closing at a value inside a member. -/
theorem shut_member (hd : Distinct (.obj ms)) (hfills : Fills fs y (.obj ms)) (hne : fs ≠ []) (x : Json) :
    ∃ gs ms₀ k w z rest, fs = gs ++ [.obj ms₀ (some k)] ∧ shut fs x = .obj (ms₀ ++ [(k, w)]) ∧
      ms = ms₀ ++ (k, z) :: rest ∧ (gs = [] → w = x) ∧ (Trunc N (value N w) z ↔ Trunc N (value N x) y) := by
  obtain ⟨gs, ms₀, k, z, rest, rfl, hgs, rfl⟩ := fills_outer hfills hne
  have hz : Distinct z := by
    cases hd with
    | obj _ _ h => exact h (k, z) (by simp)
  refine ⟨gs, ms₀, k, shut gs x, z, rest, rfl, shut_append gs _ x, rfl, ?_, ?_⟩
  · rintro rfl
    rfl
  · exact ⟨Trunc.of_shut hz hgs, Trunc.shut hz hgs⟩

/-- What the members of the object are when it is closed. -/
theorem shut_members (hrest : Rest s u (.obj ms)) (hd : Distinct (.obj ms)) (hne : s.frames ≠ [])
    (hshut : s.shut? = some X) :
    (∃ ms₀ rest, X = .obj ms₀ ∧ ms = ms₀ ++ rest ∧ s.pairs = ms₀ ∧ ¬ s.Misread u) ∨
      ∃ ms₀ k w z rest, X = .obj (ms₀ ++ [(k, w)]) ∧ ms = ms₀ ++ (k, z) :: rest ∧ s.cutKey = some k ∧
        (s.pairs = ms₀ ∨ s.pairs = ms₀ ++ [(k, w)]) ∧ (Trunc N (value N w) z ↔ ¬ s.Misread u) := by
  obtain ⟨fs, x, y, hX, hfills, htrunc, ⟨hframes, hvalue, -⟩ | ⟨⟨f, hframes⟩, b, hmode⟩⟩ :=
    shut_cut (N := N) hrest hd hshut
  · subst hframes
    obtain ⟨gs, ms₀, k, w, z, rest, hgs, hw, hms, hlast, hiff⟩ := shut_member (N := N) hd hfills hne x
    refine .inr ⟨ms₀, k, w, z, rest, hX.trans hw, hms, ?_, ?_, hiff.trans htrunc⟩
    · rw [State.cutKey, hgs, keyOf_outer]
    · rw [State.pairs, hgs]
      cases gs with
      | cons f gs => exact .inl (pairsOf_outer f gs ms₀ (some k) _)
      | nil =>
        rw [hlast rfl]
        cases hv : s.mode.value? with
        | none => exact .inl (List.append_nil ms₀)
        | some v =>
          rw [hv, Option.getD_some] at hvalue
          exact .inr (by rw [hvalue]; rfl)
  · have hmisread : ¬ s.Misread u := by
      unfold State.Misread
      rw [hmode]
      exact id
    cases fs with
    | nil =>
      obtain ⟨gs, ms₀, key, rest, hgs, hms⟩ := hrest.tends.outer hne
      have hsingle : [] ++ [f] = gs ++ [Frame.obj ms₀ key] := hframes.symm.trans hgs
      obtain ⟨rfl, hf⟩ := List.append_inj' hsingle rfl
      obtain rfl := List.singleton_inj.1 hf
      obtain ⟨fs, m⟩ := s
      subst hframes hmode
      cases key with
      | some k => cases hshut
      | none => exact .inl ⟨ms₀, rest, (Option.some.inj hshut).symm, hms, List.append_nil ms₀, hmisread⟩
    | cons g fs =>
      obtain ⟨gs, ms₀, k, w, z, rest, hgs, hw, hms, -, hiff⟩ := shut_member (N := N) hd hfills (List.cons_ne_nil g fs) x
      refine .inr ⟨ms₀, k, w, z, rest, hX.trans hw, hms, ?_, .inl ?_, hiff.trans htrunc⟩
      · rw [State.cutKey, hframes, hgs, ← List.cons_append, keyOf_outer]
      · rw [State.pairs, hframes, hgs, ← List.cons_append, pairsOf_outer]

end FusionMlx.JsonMachine
