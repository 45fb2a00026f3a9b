import FusionMlx.Support.JsonMembers
import FusionMlx.ToolCalling.ClosedPrefixes

/-!
# Repairing the beginning of an object

A text that ends early, whose strings the regular expression leaves alone, is
closed where it stands. What comes out are the members in front of the cut and
the beginning of the next value; where closing gives no document, nothing does.
-/
namespace FusionMlx.ToolJsonRepair

open JsonMachine

/-- The member is complete in the text. -/
def Whole (ms : List (Str × Json)) (p : Str) (m : Str × Json) : Prop :=
  m ∈ ms ∧ ∃ st, run start p = some st ∧ m ∈ st.pairs

/-- The text ends in the value of the member. -/
def Cut (ms : List (Str × Json)) (p : Str) (m : Str × Json) : Prop :=
  m ∈ ms ∧ ¬ Whole ms p m ∧ ∃ st, run start p = some st ∧ st.cutKey = some m.1

/-- The repair `r` of the beginning `p` of `s`, the text of an object with the members `ms`, loses and invents nothing. -/
structure Repaired (N : Numbers) (s : Str) (ms : List (Str × Json)) (p r : Str) (out : List (Str × Json)) : Prop where
  loaded : loads N r = some (.obj out)
  keys : out.map Prod.fst <+: ms.map Prod.fst
  whole : ∀ m, Whole ms p m → (m.1, value N m.2) ∈ out
  rest : ∀ e ∈ out, ∃ m, m.1 = e.1 ∧ (Whole ms p m ∧ e.2 = value N m.2 ∨ Cut ms p m ∧ Trunc N e.2 m.2)
  all : p = s → Json.obj out = value N (.obj ms)

def Good (N : Numbers) (s : Str) (ms : List (Str × Json)) (p r : Str) : Prop := ∃ out, Repaired N s ms p r out

/-- Where nothing can be closed nothing was complete, and what is closed is not misread. -/
def Fits (st : State) (u : Str) : Prop := (st.Stuck → st.pairs = []) ∧ (¬ st.Stuck → ¬ st.Misread u)

variable {P : Python} {N : Numbers} {s p q u w r t : Str} {st st' : State} {ms ms₀ rest out : List (Str × Json)} {c : Nat}
  {d x z X : Json} {k : Str}

theorem isSpace_of_atomChar (h : isAtomChar c = true) : isSpace c = false := by
  simp only [isAtomChar, isDigit, Bool.or_eq_true, Bool.and_eq_true, decide_eq_true_eq, beq_iff_eq] at h
  simp only [isSpace, decide_eq_false_iff_not]
  omega

theorem isSpace_of_hexValue {n : Nat} (h : hexValue c = some n) : isSpace c = false := by
  simp only [isSpace, decide_eq_false_iff_not]
  unfold hexValue at h
  split_ifs at h <;> omega

theorem isSpace_of_simpleEscape {n : Nat} (h : simpleEscape c = some n) : isSpace c = false := by
  simp only [isSpace, decide_eq_false_iff_not]
  have hquote : quote = 0x22 := rfl
  have hbackslash : backslash = 0x5C := rfl
  unfold simpleEscape at h
  split_ifs at h <;> omega

/-- White space behind a text changes neither its containers nor the value that ends with it. -/
theorem moves_space (h : Moves st c st') (hc : isSpace c = true) :
    st'.frames = st.frames ∧ st'.mode.value? = st.mode.value? := by
  have hnot : isSpace c = false → st'.frames = st.frames ∧ st'.mode.value? = st.mode.value? := by
    intro h
    rw [h] at hc
    cases hc
  have hafter : ∀ {fs v}, After fs v c st' → st'.frames = fs ∧ st'.mode.value? = some v := by
    intro fs v h
    cases h with
    | ws => exact ⟨rfl, rfl⟩
    | nextItem | lastItem | nextMember | lastMember => cases hc
  cases h with
  | ws | char | colonWs => exact ⟨rfl, rfl⟩
  | quote | brace | bracket | endObj | endArr | key | str | escape | unicode | colon => cases hc
  | atom _ ha => exact hnot (isSpace_of_atomChar ha)
  | atomChar ha => exact hnot (isSpace_of_atomChar ha)
  | simple _ hn => exact hnot (isSpace_of_simpleEscape hn)
  | digit hx => exact hnot (isSpace_of_hexValue hx)
  | lastDigit hx => exact hnot (isSpace_of_hexValue hx)
  | atomEnd _ hv ha =>
    obtain ⟨hfs, hvalue⟩ := hafter ha
    exact ⟨hfs, hvalue.trans hv.symm⟩
  | after ha => exact hafter ha

theorem run_space (h : run st w = some st') (hw : ∀ c ∈ w, isSpace c = true) :
    st'.pairs = st.pairs ∧ st'.cutKey = st.cutKey := by
  induction w generalizing st with
  | nil =>
    cases h
    exact ⟨rfl, rfl⟩
  | cons c w ih =>
    obtain ⟨st₁, h₁, h⟩ := Option.bind_eq_some_iff.1 h
    obtain ⟨hpairs, hkey⟩ := ih h (fun x hx => hw x (List.mem_cons_of_mem c hx))
    obtain ⟨hfs, hvalue⟩ := moves_space (step_moves h₁) (hw c List.mem_cons_self)
    refine ⟨hpairs.trans ?_, hkey.trans ?_⟩
    · rw [State.pairs, State.pairs, hfs, hvalue]
    · rw [State.cutKey, State.cutKey, hfs]

theorem rstrip_space (t : Str) : ∃ w, t = rstrip t ++ w ∧ ∀ c ∈ w, isSpace c = true := by
  refine ⟨(t.reverse.takeWhile isSpace).reverse, ?_, ?_⟩
  · rw [rstrip, ← List.reverse_append, List.takeWhile_append_dropWhile, List.reverse_reverse]
  · intro c hc
    exact List.mem_takeWhile_imp (List.mem_reverse.1 hc)

theorem rstrip_last (h : (rstrip t).getLast? = some c) : isSpace c = false := by
  rw [rstrip, List.getLast?_reverse] at h
  have := List.head?_dropWhile_not isSpace t.reverse
  rw [h] at this
  simpa using this

theorem strip_head (h : strip (c :: t) = c :: t) : isSpace c = false := by
  rw [Bool.eq_false_iff]
  intro hc
  have hlen := congrArg List.length h
  obtain ⟨w, hw, -⟩ := rstrip_space (t.dropWhile isSpace)
  rw [strip, List.dropWhile_cons_of_pos hc] at hlen
  have hle : (rstrip (t.dropWhile isSpace)).length ≤ (t.dropWhile isSpace).length := by
    conv_rhs => rw [hw, List.length_append]
    exact Nat.le_add_right _ _
  have hdrop := (List.dropWhile_sublist (l := t) isSpace).length_le
  rw [List.length_cons] at hlen
  omega

theorem strip_of_head (hc : isSpace c = false) (t : Str) : strip (c :: t) = rstrip (c :: t) := by
  rw [strip, List.dropWhile_cons_of_neg (by simp [hc])]

theorem readAtom_ne_obj (h : readAtom t = some (.obj ms)) : False := by
  unfold readAtom at h
  split_ifs at h <;> cases h

/-- An object begins with its brace. -/
theorem opens (h : Rest start (c :: u) (.obj ms)) (hc : isSpace c = false) : c = openBrace := by
  obtain ⟨st, hm, h⟩ := h.step
  have hd := h.tends
  cases hm with
  | ws hw =>
    rw [isSpace_of_isWs hw] at hc
    cases hc
  | brace => rfl
  | quote =>
    cases hd with
    | string _ hd => cases hd
  | bracket =>
    cases hd with
    | value hd =>
      obtain ⟨rest, hd⟩ := hd
      cases hd
    | items hd => cases hd
  | atom =>
    cases hd with
    | atom hy hd =>
      cases hd
      exact (readAtom_ne_obj hy).elim

/-- Only a value that has ended stands outside all containers. -/
def Opened (st : State) : Prop := st.frames = [] → ∃ v, st.mode = .after v

theorem Opened.step (h : Opened st) (hm : Moves st c st') : Opened st' := by
  have hafter : ∀ {fs v}, After fs v c st' → Opened st' := by
    intro fs v ha
    cases ha with
    | ws | lastItem | lastMember => exact fun _ => ⟨_, rfl⟩
    | nextItem | nextMember => exact fun he => nomatch he
  cases hm with
  | brace | bracket | key => exact fun he => nomatch he
  | endObj | endArr | str => exact fun _ => ⟨_, rfl⟩
  | atomEnd _ _ ha => exact hafter ha
  | after ha => exact hafter ha
  | ws | quote | atom | char | escape | unicode | simple | digit | lastDigit | atomChar | colonWs | colon =>
    intro he
    obtain ⟨v, hv⟩ := h he
    cases hv

/-- Behind the document only white space stands. -/
theorem rest_closed {v : Json} (h : Rest ⟨[], .after v⟩ u d) : ∀ c ∈ u, isSpace c = true := by
  induction u with
  | nil => exact fun c hc => nomatch hc
  | cons c u ih =>
    obtain ⟨st, hm, h⟩ := h.step
    cases hm with
    | after ha =>
      cases ha with
      | ws hw => exact List.forall_mem_cons.2 ⟨isSpace_of_isWs hw, ih h⟩

/-- In front of the end of an object a container is open. -/
theorem frames_ne_nil (hrun : run start (openBrace :: t) = some st) (hrest : Rest st u d) (hu : u ≠ [])
    (hlast : ∀ c, u.getLast? = some c → isSpace c = false) : st.frames ≠ [] := by
  intro hfs
  have hopened : Opened st := run_induction (fun _ _ _ hm h => h.step hm) (s := ⟨[.obj [] none], .expect true⟩) hrun
    (fun h => nomatch h)
  obtain ⟨v, hv⟩ := hopened hfs
  obtain ⟨fs, m⟩ := st
  subst hfs hv
  have hlast' := hlast _ (List.getLast?_eq_getLast_of_ne_nil hu)
  rw [rest_closed hrest _ (List.getLast_mem hu)] at hlast'
  cases hlast'

/-- A text that does not read is closed. -/
theorem repair_closed (hstrip : strip p = openBrace :: t) (hclean : subTrailingCommas (openBrace :: t) = openBrace :: t)
    (hrun : run start (openBrace :: t) = some st) (hd : Tends st d) (hne : st.frames ≠ [])
    (hlast : ∀ c, (openBrace :: t).getLast? = some c → isSpace c = false) :
    repair P p = match st.shut? with
      | some v => dumpsObject (value P.toNumbers v)
      | none => emptyObject := by
  have hloads : loads P.toNumbers (openBrace :: t) = none := by
    obtain ⟨fs, m⟩ := st
    cases fs with
    | nil => exact absurd rfl hne
    | cons f fs => rw [loads, parse, hrun]; rfl
  have hclosed : loads P.toNumbers (repairTruncated P (openBrace :: t)) = st.shut?.map (value P.toNumbers) := by
    rw [repairTruncated, hclean, loads]
    exact congrArg (Option.map (value P.toNumbers)) (parse_closeUnclosed hrun hd hne hclean hlast)
  rw [repair]
  simp only [hstrip, if_neg (List.cons_ne_nil openBrace t), hloads, hclosed]
  cases st.shut? <;> rfl

/-- The members that come out, once the text that comes out is known. -/
theorem good_of_loads (h : loads N r = some (.obj out)) : Good N s ms p r ↔ Repaired N s ms p r out := by
  constructor
  · rintro ⟨out', h'⟩
    have he := h'.loaded
    rw [h, Option.some.injEq, Json.obj.injEq] at he
    exact he ▸ h'
  · exact fun h' => ⟨out, h'⟩

theorem loads_dumpsObject (h : Proper (.obj ms)) :
    loads N (dumpsObject (value N (.obj ms))) = some (value N (.obj ms)) := loads_dumps h

section Result

variable (hp : p ≠ s) (hrun : run start p = some st) (hnodup : (ms.map Prod.fst).Nodup)

include hrun in
theorem whole_iff {m : Str × Json} : Whole ms p m ↔ m ∈ ms ∧ m ∈ st.pairs := by
  rw [Whole, hrun]
  simp

include hrun in
theorem cut_iff {m : Str × Json} : Cut ms p m ↔ m ∈ ms ∧ m ∉ st.pairs ∧ st.cutKey = some m.1 := by
  rw [Cut, whole_iff hrun, hrun]
  constructor
  · rintro ⟨hm, hw, _, ⟨⟩, hk⟩
    exact ⟨hm, fun h => hw ⟨hm, h⟩, hk⟩
  · rintro ⟨hm, hw, hk⟩
    exact ⟨hm, fun h => hw h.2, st, rfl, hk⟩

include hp hrun in
/-- Nothing comes out. -/
theorem good_empty (hms : ms = ms₀ ++ rest) (hpairs : st.pairs = ms₀) : Good N s ms p emptyObject ↔ st.pairs = [] := by
  have hloads : loads N emptyObject = some (.obj []) := rfl
  rw [good_of_loads hloads, hpairs]
  constructor
  · intro h
    by_contra hne
    obtain ⟨m, hm⟩ := List.exists_mem_of_ne_nil ms₀ hne
    exact nomatch h.whole m ((whole_iff hrun).2 ⟨by simp [hms, hm], by simp [hpairs, hm]⟩)
  · intro h
    refine ⟨hloads, List.nil_prefix, fun m hm => ?_, fun e he => (nomatch he), fun he => absurd he hp⟩
    rw [whole_iff hrun, hpairs, h] at hm
    exact nomatch hm.2

include hp hrun hnodup in
/-- The members in front of the cut come out. -/
theorem good_members (hms : ms = ms₀ ++ rest) (hpairs : st.pairs = ms₀) (hproper : Proper (.obj ms₀)) :
    Good N s ms p (dumpsObject (value N (.obj ms₀))) := by
  have hkeys : (ms₀.map Prod.fst).Nodup := by
    rw [hms, List.map_append] at hnodup
    exact (List.nodup_append.1 hnodup).1
  have hloads : loads N (dumpsObject (value N (.obj ms₀))) = some (.obj (memberValues N ms₀)) := by
    rw [loads_dumpsObject hproper, value_obj hkeys]
  refine ⟨memberValues N ms₀, hloads, ?_, ?_, ?_, fun he => absurd he hp⟩
  · rw [memberValues_keys, hms, List.map_append]
    exact List.prefix_append _ _
  · intro m hm
    rw [whole_iff hrun, hpairs] at hm
    rw [memberValues_eq]
    exact List.mem_map.2 ⟨m, hm.2, rfl⟩
  · intro e he
    rw [memberValues_eq] at he
    obtain ⟨m, hm, rfl⟩ := List.mem_map.1 he
    exact ⟨m, rfl, .inl ⟨(whole_iff hrun).2 ⟨by simp [hms, hm], by rwa [hpairs]⟩, rfl⟩⟩

include hp hrun in
/-- Behind the members in front of the cut comes a truncation of the next value, or not. -/
theorem good_member (hd : Distinct (.obj ms)) (hms : ms = ms₀ ++ (k, z) :: rest) (hkey : st.cutKey = some k)
    (hpairs : st.pairs = ms₀ ∨ st.pairs = ms₀ ++ [(k, x)]) (hproper : Proper (.obj (ms₀ ++ [(k, x)]))) :
    Good N s ms p (dumpsObject (value N (.obj (ms₀ ++ [(k, x)])))) ↔ Trunc N (value N x) z := by
  subst hms
  have hunique : ∀ v, (k, v) ∈ ms₀ ++ (k, z) :: rest → v = z := by
    cases hd with
    | obj _ hk _ =>
      intro v hv
      exact congrArg Prod.snd (List.inj_on_of_nodup_map hk hv (List.mem_append_right _ List.mem_cons_self) rfl)
  have hvalue := value_cut_obj (N := N) hd x
  have hloads : loads N (dumpsObject (value N (.obj (ms₀ ++ [(k, x)])))) =
      some (.obj (memberValues N ms₀ ++ [(k, value N x)])) := by
    rw [loads_dumpsObject hproper, hvalue]
  have hnew : ∀ v, (k, v) ∉ ms₀ := by
    cases hd with
    | obj _ hk _ =>
      intro v hv
      rw [List.map_append, List.nodup_append] at hk
      exact hk.2.2 k (List.mem_map.2 ⟨_, hv, rfl⟩) k (by simp) rfl
  rw [good_of_loads hloads]
  constructor
  · intro h
    obtain ⟨m, hmk, hm⟩ := h.rest (k, value N x) (by simp)
    have hz : m ∈ ms₀ ++ (k, z) :: rest → m.2 = z := fun hm => hunique m.2 ((Prod.ext hmk rfl : m = (k, m.2)) ▸ hm)
    rcases hm with ⟨hm, he⟩ | ⟨hm, he⟩
    · rw [show value N x = value N m.2 from he, hz hm.1]
      exact .whole z
    · rwa [hz hm.1] at he
  · intro h
    refine ⟨hloads, ?_, ?_, ?_, fun he => absurd he hp⟩
    · rw [List.map_append, List.map_append, memberValues_keys]
      exact (List.prefix_append_right_inj _).2 ⟨rest.map Prod.fst, rfl⟩
    · intro m hm
      obtain ⟨hm, hmem⟩ := (whole_iff hrun).1 hm
      have hmem' : m ∈ ms₀ ∨ m = (k, x) := by
        rcases hpairs with hpairs | hpairs
        · exact .inl (hpairs ▸ hmem)
        · rw [hpairs] at hmem
          simpa using hmem
      rcases hmem' with hmem | rfl
      · rw [memberValues_eq]
        exact List.mem_append_left _ (List.mem_map.2 ⟨m, hmem, rfl⟩)
      · exact List.mem_append_right _ (List.mem_singleton.2 rfl)
    · intro e he
      rcases List.mem_append.1 he with he | he
      · rw [memberValues_eq] at he
        obtain ⟨m, hm, rfl⟩ := List.mem_map.1 he
        refine ⟨m, rfl, .inl ⟨(whole_iff hrun).2 ⟨List.mem_append_left _ hm, ?_⟩, rfl⟩⟩
        rcases hpairs with hpairs | hpairs
        · rwa [hpairs]
        · rw [hpairs]
          exact List.mem_append_left _ hm
      · rw [List.mem_singleton] at he
        subst he
        refine ⟨(k, z), rfl, ?_⟩
        by_cases hw : (k, z) ∈ st.pairs
        · -- the value ends with the text
          have hx : z = x := by
            rcases hpairs with hpairs | hpairs
            · exact absurd (hpairs ▸ hw) (hnew z)
            · rw [hpairs] at hw
              rcases List.mem_append.1 hw with hw | hw
              · exact absurd hw (hnew z)
              · exact congrArg Prod.snd (List.mem_singleton.1 hw)
          exact .inl ⟨(whole_iff hrun).2 ⟨by simp, hw⟩, by rw [hx]⟩
        · exact .inr ⟨(cut_iff hrun).2 ⟨by simp, hw, hkey⟩, h⟩

end Result

/-- The regular expression finds no trailing comma, not even in a string. -/
def Clean (p : Str) : Prop := subTrailingCommas (strip p) = strip p

def Fitting (s p : Str) : Prop := ∃ st, run start (strip p) = some st ∧ Fits st (s.drop (strip p).length)

theorem rest_append (h : Rest st (t ++ u) d) : ∃ st', run st t = some st' ∧ Rest st' u d := by
  unfold Rest at h
  rw [run_append] at h
  cases hrun : run st t with
  | none =>
    rw [hrun] at h
    cases h
  | some st' =>
    rw [hrun] at h
    exact ⟨st', rfl, h⟩

/-- The text of an object cut somewhere: what is stripped of it begins with the brace, and what is left of the text ends
with it. -/
theorem cut_text (hs : parse s = some (.obj ms)) (htrim : strip s = s) (hp : p <+: s) (hne : strip p ≠ []) (hps : p ≠ s) :
    ∃ t w u st, strip p = openBrace :: t ∧ p = strip p ++ w ∧ (∀ c ∈ w, isSpace c = true) ∧ s = strip p ++ u ∧
      run start (strip p) = some st ∧ Rest st u (.obj ms) ∧ st.frames ≠ [] ∧
      ∀ c, (strip p).getLast? = some c → isSpace c = false := by
  obtain ⟨v, rfl⟩ := hp
  cases p with
  | nil => exact absurd rfl hne
  | cons c p =>
    have hc : isSpace c = false := strip_head htrim
    rw [strip_of_head hc] at hne ⊢
    obtain ⟨w, hw, hspace⟩ := rstrip_space (c :: p)
    generalize hq : rstrip (c :: p) = q at hne hw ⊢
    cases q with
    | nil => exact absurd rfl hne
    | cons c' t =>
      obtain ⟨rfl, -⟩ := List.cons.inj hw
      have hrest : Rest start (c :: (t ++ (w ++ v))) (.obj ms) := by
        rw [hw] at hs
        simpa [Rest, parse] using hs
      obtain rfl := opens hrest hc
      obtain ⟨st, hrun, hrest⟩ := rest_append (t := openBrace :: t) hrest
      have hu : w ++ v ≠ [] := by
        intro hnil
        obtain ⟨rfl, rfl⟩ := List.append_eq_nil_iff.1 hnil
        exact hps (List.append_nil _).symm
      refine ⟨t, w, w ++ v, st, rfl, hw, hspace, by rw [hw]; simp, hrun, hrest, ?_, ?_⟩
      · refine frames_ne_nil hrun hrest hu (fun x hx => rstrip_last (t := openBrace :: p ++ v) ?_)
        have hstrip : rstrip (openBrace :: p ++ v) = openBrace :: p ++ v := (strip_of_head hc (p ++ v)).symm.trans htrim
        rw [hstrip, hw, List.append_assoc, List.getLast?_append_of_ne_nil _ hu]
        exact hx
      · intro x hx
        rw [← hq] at hx
        exact rstrip_last hx

theorem good_iff_fitting (hs : parse s = some (.obj ms)) (hd : Distinct (.obj ms)) (htrim : strip s = s) (hp : p <+: s)
    (hne : strip p ≠ []) (hclean : Clean p) (hps : p ≠ s) :
    Good P.toNumbers s ms p (repair P p) ↔ Fitting s p := by
  obtain ⟨t, w, u, st, hstrip, hw, hspace, hu, hrun, hrest, hframes, hlast⟩ := cut_text hs htrim hp hne hps
  have hfitting : Fitting s p ↔ Fits st u := by
    unfold Fitting
    rw [hrun, hu, List.drop_left]
    simp
  obtain ⟨sp, hsp⟩ : ∃ sp, run start p = some sp := by
    obtain ⟨v, rfl⟩ := hp
    have hwhole : Rest start (p ++ v) (.obj ms) := hs
    obtain ⟨sp, hsp, -⟩ := rest_append hwhole
    exact ⟨sp, hsp⟩
  obtain ⟨hpairs, hkey⟩ : sp.pairs = st.pairs ∧ sp.cutKey = st.cutKey := by
    refine run_space (w := w) ?_ hspace
    rw [← run_trans hrun, ← hw, hsp]
  unfold Clean at hclean
  have hnodup : (ms.map Prod.fst).Nodup := by
    cases hd with
    | obj _ hk _ => exact hk
  obtain ⟨gs, ms₀, key, rest, hgs, hms⟩ := hrest.tends.outer hframes
  have hstuck := shut?_none_iff hrest.tends hframes
  rw [hstrip] at hclean hrun hlast
  rw [hfitting, repair_closed hstrip hclean hrun hrest.tends hframes hlast]
  cases hshut : st.shut? with
  | none =>
    have hst := hstuck.1 hshut
    have hst₀ := hst.pairs hgs
    rw [good_empty hps hsp hms (hpairs.trans hst₀), hpairs]
    exact ⟨fun h => ⟨fun _ => h, fun h => absurd hst h⟩, fun h => h.1 hst⟩
  | some X =>
    have hst : ¬ st.Stuck := fun h => by
      rw [hstuck.2 h] at hshut
      cases hshut
    have hfits : Fits st u ↔ ¬ st.Misread u := ⟨fun h => h.2 hst, fun h => ⟨fun h => absurd h hst, fun _ => h⟩⟩
    have hX : Proper X := by
      have hclosed := parse_closeUnclosed hrun hrest.tends hframes hclean hlast
      rw [hshut] at hclosed
      exact parse_proper hclosed
    rw [hfits]
    rcases shut_members (N := P.toNumbers) hrest hd hframes hshut with
      ⟨ms₁, rest', rfl, hms', hpairs', hmis⟩ | ⟨ms₁, k, x, z, rest', rfl, hms', hkey', hpairs', htrunc⟩
    · exact iff_of_true (good_members hps hsp hnodup hms' (hpairs.trans hpairs') hX) hmis
    · rw [← htrunc]
      exact good_member hps hsp hd hms' (hkey.trans hkey') (hpairs ▸ hpairs') hX

/-- The whole text gives the object. -/
theorem good_whole (hs : parse s = some (.obj ms)) (hd : Distinct (.obj ms)) (htrim : strip s = s) (hne : s ≠ []) :
    Good P.toNumbers s ms s (repair P s) := by
  have hnodup : (ms.map Prod.fst).Nodup := by
    cases hd with
    | obj _ hk _ => exact hk
  have hrepair : repair P s = dumpsObject (value P.toNumbers (.obj ms)) := by
    rw [repair]
    simp only [htrim, if_neg hne, loads, hs, Option.map_some]
  obtain ⟨sp, hsp, hpairs⟩ : ∃ sp, run start s = some sp ∧ sp.pairs = ms := by
    cases hrun : run start s with
    | none =>
      rw [parse, hrun] at hs
      cases hs
    | some sp =>
      rw [parse, hrun] at hs
      obtain ⟨fs, m⟩ := sp
      cases fs with
      | cons f fs => cases hs
      | nil =>
        refine ⟨_, rfl, ?_⟩
        have hvalue : m.value? = some (.obj ms) := hs
        rw [State.pairs, hvalue]
        rfl
  have hloads : loads P.toNumbers (repair P s) = some (.obj (memberValues P.toNumbers ms)) := by
    rw [hrepair, loads_dumpsObject (parse_proper hs), value_obj hnodup]
  refine ⟨memberValues P.toNumbers ms, hloads, ?_, ?_, ?_, fun _ => (value_obj hnodup).symm⟩
  · exact ⟨[], by rw [List.append_nil, memberValues_keys]⟩
  · intro m hm
    rw [memberValues_eq]
    exact List.mem_map.2 ⟨m, hm.1, rfl⟩
  · intro e he
    rw [memberValues_eq] at he
    obtain ⟨m, hm, rfl⟩ := List.mem_map.1 he
    exact ⟨m, rfl, .inl ⟨(whole_iff hsp).2 ⟨hm, hpairs.symm ▸ hm⟩, rfl⟩⟩

/-- Of every beginning of an object's text that the regular expression leaves alone, the repair loses and invents nothing
exactly when it fits; and every repaired text is repaired. -/
theorem repair_good_iff (P : Python) :
    (∀ s ms p, parse s = some (.obj ms) → Distinct (.obj ms) → strip s = s → p <+: s → strip p ≠ [] → p = s ∨ Clean p →
      (Good P.toNumbers s ms p (repair P p) ↔ p = s ∨ Fitting s p)) ∧
    ∀ raw, repair P (repair P raw) = repair P raw := by
  refine ⟨fun s ms p hs hd htrim hp hne hclean => ?_, repair_repair P⟩
  by_cases hps : p = s
  · subst hps
    exact iff_of_true (good_whole hs hd htrim (fun h => hne (by rw [htrim, h]))) (.inl rfl)
  · rw [good_iff_fitting hs hd htrim hp hne (hclean.resolve_left hps) hps]
    exact ⟨.inr, fun h => h.resolve_left hps⟩

def plain : Python where
  toNumbers := Numbers.asWritten
  int t := if t ≠ [] ∧ t.all isDigit then some t else none
  float t := if isNumber t then some t else none

def sample : Str := codes "\x7b\"a\": 1, \"b\": [2, \"xy\"]\x7d"

def sampleMembers : List (Str × Json) := [([0x61], .num [0x31]), ([0x62], .arr [.num [0x32], .str [0x78, 0x79]])]

theorem sample_distinct : Distinct (.obj sampleMembers) := by
  have hitems : ∀ v ∈ [Json.num [0x32], .str [0x78, 0x79]], Distinct v :=
    List.forall_mem_cons.2 ⟨.num _, List.forall_mem_cons.2 ⟨.str _, fun v hv => (nomatch hv)⟩⟩
  refine .obj _ (by decide) (List.forall_mem_cons.2 ⟨.num _, List.forall_mem_cons.2 ⟨.arr _ hitems, ?_⟩⟩)
  exact fun m hm => (nomatch hm)

theorem sample_cut_in_string :
    Good plain.toNumbers sample sampleMembers (sample.take 20) (repair plain (sample.take 20)) := by
  refine ((repair_good_iff plain).1 sample sampleMembers (sample.take 20) rfl sample_distinct rfl
    (List.take_prefix 20 sample) (by decide) (.inr rfl)).2 (.inr ⟨_, rfl, ?_, ?_⟩)
  · exact fun h => h.elim
  · rintro - ⟨a, b, ha, -, hhigh, -⟩
    cases ha
    cases hhigh

/-- Cut behind the key `"b"` the object loses the pair in front of it. -/
theorem sample_cut_behind_key :
    ∃ p, parse sample = some (.obj sampleMembers) ∧ Distinct (.obj sampleMembers) ∧ strip sample = sample ∧ p <+: sample ∧
      strip p ≠ [] ∧ Whole sampleMembers p ([0x61], .num [0x31]) ∧ repair plain p = emptyObject ∧
      ¬ Good plain.toNumbers sample sampleMembers p (repair plain p) := by
  have hstuck : ¬ Fitting sample (sample.take 12) := by
    rintro ⟨st, hst, hfits, -⟩
    cases hst
    exact nomatch hfits trivial
  refine ⟨sample.take 12, rfl, sample_distinct, rfl, List.take_prefix 12 sample, by decide, ?_, ?_, ?_⟩
  · exact ⟨List.mem_cons_self, _, rfl, List.mem_cons_self⟩
  · obtain ⟨t, w, u, st, hstrip, -, -, -, hrun, hrest, hframes, hlast⟩ :=
      cut_text (p := sample.take 12) rfl rfl (List.take_prefix 12 sample) (by decide) (by decide)
    have hclean : subTrailingCommas (openBrace :: t) = openBrace :: t := by
      rw [← hstrip]
      rfl
    rw [repair_closed hstrip hclean (hstrip ▸ hrun) hrest.tends hframes (hstrip ▸ hlast)]
    cases hrun
    rfl
  · rw [good_iff_fitting rfl sample_distinct rfl (List.take_prefix 12 sample) (by decide) rfl (by decide)]
    exact hstuck

end FusionMlx.ToolJsonRepair
