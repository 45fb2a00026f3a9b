import FusionMlx.Service.ToolCallGate

/-!
# What the two filters do to a stream

The filter passes a delta or not by what the delta holds and by the first
anchor it takes, whatever the batches. The cap remembers the delta it admitted
and whether the last anchor behind it was dropped; the filter raises that mark
for a whole batch when it drops anything of it.
-/
namespace FusionMlx.Service.ToolCallGate

open JsonText Transducers

variable {α : Type} (req : Request)

def Request.filters : Bool := req.forcedToolChoiceName ≠ none ∨ req.isToolChoiceRequired

def taken (tc : ToolCallDelta α) : Bool :=
  tc.anchorName ≠ none ∧ (req.forcedToolChoiceName = none ∨ tc.anchorName = req.forcedToolChoiceName) ∧
    ¬ (req.filters ∧ forcedToolChoiceArgumentsViolateObjectRoot tc.argsStr)

def cut (tc : ToolCallDelta α) : Bool :=
  req.filters ∧ continuationArgumentsDefinitivelyNonObject tc.argsStr

def passes (first : Option Text) (tc : ToolCallDelta α) : Bool :=
  match tc.anchorName with
  | none => !cut req tc
  | some _ => taken req tc && (req.forcedToolChoiceName = none || first = some tc.anchorId)

def firstId (tcs : List (ToolCallDelta α)) : Option Text :=
  (tcs.find? (taken req)).map ToolCallDelta.anchorId

/-- What the filter remembers behind the deltas `past`. -/
def Latched (s : Gate) (past : List (ToolCallDelta α)) : Prop :=
  req.forcedToolChoiceName ≠ none → s.forcedAnchorAdmittedId = firstId req past

variable {req} {s : Gate} {past rest tcs : List (ToolCallDelta α)} {tc : ToolCallDelta α}

theorem firstId_append (past rest : List (ToolCallDelta α)) :
    firstId req (past ++ rest) = (firstId req past).or (firstId req rest) := by
  simp only [firstId, List.find?_append]
  cases past.find? (taken req) <;> rfl

theorem firstId_cons (tc : ToolCallDelta α) (rest : List (ToolCallDelta α)) :
    firstId req (tc :: rest) = if taken req tc then some tc.anchorId else firstId req rest := by
  by_cases h : taken req tc <;> simp [firstId, h]

/-- Of the whole stream only the first anchor taken up to here decides. -/
theorem passes_iff (hf : req.forcedToolChoiceName ≠ none) (ha : tc.anchorName ≠ none) :
    passes req (firstId req (past ++ tc :: rest)) tc = true ↔
      taken req tc = true ∧ (firstId req past).getD tc.anchorId = tc.anchorId := by
  obtain ⟨n, hn⟩ := Option.ne_none_iff_exists'.1 ha
  simp only [passes, hn, Bool.and_eq_true, Bool.or_eq_true, decide_eq_true_eq, hf, false_or,
    firstId_append, firstId_cons]
  by_cases h : taken req tc
  · cases firstId req past <;> simp [h]
  · simp [h]

/-- One round of the filter: the delta stays or goes, and a dropped one raises the mark. -/
theorem filterStep_eq (hf : req.filters) (hs : Latched req s past) :
    filterStep req s tc =
      ({ s with
          noIndexLastDropped :=
            s.noIndexLastDropped || !passes req (firstId req (past ++ tc :: rest)) tc
          forcedAnchorAdmittedId :=
            if req.forcedToolChoiceName = none then s.forcedAnchorAdmittedId
            else firstId req (past ++ [tc]) },
        [tc].filter (passes req (firstId req (past ++ tc :: rest)))) := by
  have hkeep : req.forcedToolChoiceName ≠ none → taken req tc = false →
      firstId req (past ++ [tc]) = s.forcedAnchorAdmittedId := by
    intro h ht
    rw [hs h, firstId_append, firstId_cons, if_neg (by simp [ht])]
    simp [firstId]
  cases ha : tc.anchorName with
  | none =>
    have ht : taken req tc = false := by simp [taken, ha]
    have hl : (if req.forcedToolChoiceName = none then s.forcedAnchorAdmittedId
        else firstId req (past ++ [tc])) = s.forcedAnchorAdmittedId := by
      split <;> simp_all
    rw [hl]
    by_cases hc : continuationArgumentsDefinitivelyNonObject tc.argsStr <;>
      simp [filterStep, passes, cut, ha, hf, hc]
  | some name =>
    cases hn : req.forcedToolChoiceName with
    | none =>
      by_cases hv : forcedToolChoiceArgumentsViolateObjectRoot tc.argsStr <;>
        simp [filterStep, passes, taken, ha, hf, hv, hn]
    | some forced =>
      have hne : req.forcedToolChoiceName ≠ none := by simp [hn]
      by_cases ht : taken req tc
      · have hm : name = forced ∧
            forcedToolChoiceArgumentsViolateObjectRoot tc.argsStr = false := by
          simpa [taken, ha, hn, hf] using ht
        have hp := @passes_iff _ _ past rest _ hne (by simp [ha] : tc.anchorName ≠ none)
        have hafter : firstId req (past ++ [tc]) = some ((firstId req past).getD tc.anchorId) := by
          rw [firstId_append, firstId_cons, if_pos ht]
          cases firstId req past <;> rfl
        rw [hafter]
        simp only [filterStep, ha, hn, hm.1, hm.2, ne_eq, not_true, if_false, Bool.false_eq_true,
          reduceCtorEq, hs hne]
        cases hfirst : firstId req past with
        | none =>
          rw [hfirst] at hp
          have hpass := hp.2 ⟨ht, rfl⟩
          simp [hpass]
        | some first =>
          rw [hfirst] at hp
          have hlatch : s.forcedAnchorAdmittedId = some first := by rw [hs hne, hfirst]
          by_cases he : tc.anchorId = first
          · have hpass := hp.2 ⟨ht, he.symm⟩
            simp only [hpass, he, Option.getD_some]
            simp [← hlatch, hpass]
          · have hpass : passes req (firstId req (past ++ tc :: rest)) tc = false :=
              Bool.eq_false_iff.2 (fun h => he (hp.1 h).2.symm)
            simp [hpass, he]
      · have ht : taken req tc = false := by simpa using ht
        have hpass : passes req (firstId req (past ++ tc :: rest)) tc = false := by
          simp [passes, ha, ht]
        have hm : name = forced → forcedToolChoiceArgumentsViolateObjectRoot tc.argsStr = true := by
          simpa [taken, ha, hn, hf] using ht
        rw [hkeep hne ht]
        by_cases he : name = forced
        · simp [filterStep, ha, hn, he, hm he, hpass]
        · simp [filterStep, ha, hn, he, hpass]

/-- The filter on a batch of a stream. -/
theorem filter_eq (hs : Latched req s past) :
    ∃ latch, applyForcedToolChoiceFilter req s tcs =
        ({ s with
            noIndexLastDropped := s.noIndexLastDropped ||
              tcs.any (fun tc => !passes req (firstId req (past ++ tcs ++ rest)) tc)
            forcedAnchorAdmittedId := latch },
          tcs.filter (passes req (firstId req (past ++ tcs ++ rest)))) ∧
      (req.forcedToolChoiceName ≠ none → latch = firstId req (past ++ tcs)) := by
  by_cases hf : req.filters
  · have hon : ¬ (req.forcedToolChoiceName = none ∧ req.isToolChoiceRequired = false) := by
      simpa [Request.filters, imp_iff_not_or] using hf
    simp only [applyForcedToolChoiceFilter, if_neg hon]
    clear hon
    induction tcs generalizing s past with
    | nil => exact ⟨s.forcedAnchorAdmittedId, by simp, fun hn => by simpa using hs hn⟩
    | cons tc tcs ih =>
      have hsplit : past ++ tc :: tcs ++ rest = (past ++ [tc]) ++ tcs ++ rest := by simp
      have hstep := @filterStep_eq _ _ _ _ (tcs ++ rest) tc hf hs
      rw [show past ++ tc :: (tcs ++ rest) = past ++ tc :: tcs ++ rest by simp] at hstep
      have hs' : Latched req (filterStep req s tc).1 (past ++ [tc]) := by
        intro hn
        simp [hstep, hn]
      obtain ⟨latch, hrun, hlatch⟩ := ih hs'
      rw [← hsplit] at hrun
      refine ⟨latch, ?_, by simpa using hlatch⟩
      rw [feed_cons, hrun, hstep]
      by_cases hp : passes req (firstId req (past ++ tc :: tcs ++ rest)) tc <;>
        simp only [hp, List.any_cons, List.filter_cons, List.filter_nil,
          Bool.not_true, Bool.not_false, Bool.false_or, Bool.true_or, Bool.or_false, Bool.or_true,
          if_true, if_false, List.nil_append, List.cons_append, Bool.false_eq_true]
  · have hoff : req.forcedToolChoiceName = none ∧ req.isToolChoiceRequired = false := by
      simpa [Request.filters] using hf
    have hpass : ∀ tc ∈ tcs, passes req (firstId req (past ++ tcs ++ rest)) tc = true := by
      intro tc _
      cases ha : tc.anchorName <;> simp [passes, cut, taken, ha, hf, hoff.1]
    have hany : tcs.any (fun tc => !passes req (firstId req (past ++ tcs ++ rest)) tc) = false :=
      List.any_eq_false.2 (fun tc htc => by rw [hpass tc htc]; decide)
    refine ⟨s.forcedAnchorAdmittedId, ?_, fun hn => absurd hoff.1 hn⟩
    rw [applyForcedToolChoiceFilter, if_pos hoff, List.filter_eq_self.2 hpass, hany, Bool.or_false]

def free (tc : ToolCallDelta α) : Bool := tc.index = none ∧ ¬ tc.isAnchor

def continues (a tc : ToolCallDelta α) : Bool :=
  match a.index with
  | some i => tc.index = some i
  | none =>
    tc.index = none ∧ tc.isAnchor ∧
      ((tc.deltaId ≠ none ∧ tc.deltaId = a.deltaId) ∨
        (tc.deltaId = none ∧ tc.deltaName ≠ none ∧ tc.deltaName = a.deltaName))

def admitDelta : Option (ToolCallDelta α × Bool) → ToolCallDelta α →
    Option (ToolCallDelta α × Bool) × List (ToolCallDelta α)
  | none, tc => (some (tc, false), [tc])
  | some (a, dropped), tc =>
    if continues a tc then (some (a, false), [tc])
    else if free tc then (some (a, dropped), if dropped then [] else [tc])
    else (some (a, true), [])

def Stands (s : Gate) : Option (ToolCallDelta α × Bool) → Prop
  | none =>
    s.admittedToolCallIndices = ∅ ∧ s.noIndexCallAdmitted = false ∧ s.noIndexAdmittedId = none ∧
      s.noIndexAdmittedName = none
  | some (a, dropped) =>
    s.noIndexLastDropped = dropped ∧
      match a.index with
      | some i => s.admittedToolCallIndices = {i} ∧ s.noIndexCallAdmitted = false
      | none =>
        s.admittedToolCallIndices = ∅ ∧ s.noIndexCallAdmitted = true ∧
          s.noIndexAdmittedId = a.deltaId ∧ s.noIndexAdmittedName = a.deltaName

variable {x : Option (ToolCallDelta α × Bool)}

theorem capStep_admit (hs : Stands s x) (tc : ToolCallDelta α) :
    Stands (capStep s tc).1 (admitDelta x tc).1 ∧ (capStep s tc).2 = (admitDelta x tc).2 ∧
      (capStep s tc).1.forcedAnchorAdmittedId = s.forcedAnchorAdmittedId := by
  match x with
  | none =>
    obtain ⟨hi, hn, hid, hname⟩ := hs
    cases hidx : tc.index with
    | some i => simp [capStep, admitDelta, Stands, hi, hn, hidx]
    | none =>
      simp [capStep, admitDelta, Stands, hi, hn, hidx, hid, hname, ToolCallDelta.deltaId,
        ToolCallDelta.deltaName]
  | some (a, dropped) =>
    obtain ⟨hd, hrest⟩ := hs
    cases ha : a.index with
    | some i =>
      rw [ha] at hrest
      obtain ⟨hi, hn⟩ := hrest
      cases hidx : tc.index with
      | some j =>
        by_cases hj : j = i <;>
          simp [capStep, admitDelta, Stands, continues, free, ha, hi, hn, hidx, hj]
      | none =>
        by_cases hanchor : tc.isAnchor <;> by_cases hdrop : dropped <;>
          simp [capStep, admitDelta, Stands, continues, free, ha, hi, hn, hidx, hanchor, hd, hdrop]
    | none =>
      rw [ha] at hrest
      obtain ⟨hi, hn, hid, hname⟩ := hrest
      cases hidx : tc.index with
      | some j => simp [capStep, admitDelta, Stands, continues, free, ha, hi, hn, hidx, hid, hname]
      | none =>
        have hsame : ((tc.deltaId ≠ none ∧ a.deltaId ≠ none ∧ tc.deltaId = a.deltaId) ∨
              (tc.deltaId = none ∧ tc.deltaName ≠ none ∧ a.deltaName ≠ none ∧
                tc.deltaName = a.deltaName)) ↔
            ((tc.deltaId ≠ none ∧ tc.deltaId = a.deltaId) ∨
              (tc.deltaId = none ∧ tc.deltaName ≠ none ∧ tc.deltaName = a.deltaName)) := by
          constructor
          · rintro (⟨h₁, -, h₂⟩ | ⟨h₁, h₂, -, h₃⟩)
            · exact .inl ⟨h₁, h₂⟩
            · exact .inr ⟨h₁, h₂, h₃⟩
          · rintro (⟨h₁, h₂⟩ | ⟨h₁, h₂, h₃⟩)
            · exact .inl ⟨h₁, h₂ ▸ h₁, h₂⟩
            · exact .inr ⟨h₁, h₂, h₃ ▸ h₂, h₃⟩
        by_cases hanchor : tc.isAnchor
        · by_cases hs : (tc.deltaId ≠ none ∧ tc.deltaId = a.deltaId) ∨
              (tc.deltaId = none ∧ tc.deltaName ≠ none ∧ tc.deltaName = a.deltaName)
          · simp only [capStep, admitDelta, Stands, continues, ha, hi, hn, hidx, hid, hname, hanchor,
              hsame, hs]
            simp [ha]
          · simp only [capStep, admitDelta, Stands, continues, free, ha, hi, hn, hidx, hid, hname, hanchor,
              hsame, hs]
            simp [ha]
        · by_cases hdrop : dropped <;>
            simp [capStep, admitDelta, Stands, continues, free, ha, hi, hn, hidx, hid, hname, hanchor, hd,
              hdrop]

def raise (r : Bool) (x : Option (ToolCallDelta α × Bool)) : Option (ToolCallDelta α × Bool) :=
  x.map (fun y => (y.1, y.2 || r))

@[simp] theorem raise_false (x : Option (ToolCallDelta α × Bool)) : raise false x = x := by
  cases x <;> simp [raise]

@[simp] theorem raise_raise (q r : Bool) (x : Option (ToolCallDelta α × Bool)) :
    raise q (raise r x) = raise (r || q) x := by
  cases x <;> simp [raise, Bool.or_assoc]

theorem Stands.raise (hs : Stands s x) (r : Bool)
    (latch : Option Text) :
    Stands { s with noIndexLastDropped := s.noIndexLastDropped || r, forcedAnchorAdmittedId := latch }
      (raise r x) := by
  match x with
  | none => exact hs
  | some (a, dropped) => exact ⟨by simp [hs.1], hs.2⟩

def door (keep : ToolCallDelta α → Bool) (x : Option (ToolCallDelta α × Bool))
    (tcs : List (ToolCallDelta α)) : Option (ToolCallDelta α × Bool) × List (ToolCallDelta α) :=
  feed admitDelta (raise (tcs.any (fun tc => !keep tc)) x) (tcs.filter keep)

theorem gate_door (hcap : req.parallelToolCallsAllowed = false)
    (hs : Stands s x) (hl : Latched req s past) :
    Stands (gate req s tcs).1 (door (passes req (firstId req (past ++ tcs ++ rest))) x tcs).1 ∧
      (gate req s tcs).2 = (door (passes req (firstId req (past ++ tcs ++ rest))) x tcs).2 ∧
      Latched req (gate req s tcs).1 (past ++ tcs) := by
  obtain ⟨latch, hfilter, hlatch⟩ := @filter_eq _ _ _ _ rest tcs hl
  simp only [gate, applyParallelCap, hcap, if_false, Bool.false_eq_true, hfilter]
  let r := tcs.any (fun tc => !passes req (firstId req (past ++ tcs ++ rest)) tc)
  let kept := tcs.filter (passes req (firstId req (past ++ tcs ++ rest)))
  let s' : Gate :=
    { s with noIndexLastDropped := s.noIndexLastDropped || r, forcedAnchorAdmittedId := latch }
  have hrel : (Stands (feed capStep s' kept).1 (feed admitDelta (raise r x) kept).1 ∧
      (feed capStep s' kept).1.forcedAnchorAdmittedId = latch) ∧
      (feed capStep s' kept).2 = (feed admitDelta (raise r x) kept).2 :=
    feed_related (R := fun s x => Stands s x ∧ s.forcedAnchorAdmittedId = latch)
      ⟨hs.raise r latch, rfl⟩ (fun s x tc _ h => by
        have hstep := capStep_admit h.1 tc
        exact ⟨⟨hstep.1, hstep.2.2.trans h.2⟩, hstep.2.1⟩)
  exact ⟨hrel.1.1, hrel.2, fun hn => hrel.1.2.trans (hlatch hn)⟩

theorem gates_door {batches : List (List (ToolCallDelta α))}
    (hcap : req.parallelToolCallsAllowed = false) (hs : Stands s x) (hl : Latched req s past) :
    (feed (gate req) s batches).2 =
      (feed (door (passes req (firstId req (past ++ batches.flatten)))) x batches).2 := by
  induction batches generalizing s x past with
  | nil => rfl
  | cons b bs ih =>
    have h := @gate_door _ _ _ _ bs.flatten b _ hcap hs hl
    have hi := ih h.1 h.2.2
    rw [List.flatten_cons, ← List.append_assoc, feed_cons, feed_cons, h.2.1, hi]

/-- Without the cap the stream is filtered as if it came in one batch. -/
theorem gates_filter {batches : List (List (ToolCallDelta α))}
    (hcap : req.parallelToolCallsAllowed = true) (hl : Latched req s past) :
    (feed (gate req) s batches).2 =
      batches.flatten.filter (passes req (firstId req (past ++ batches.flatten))) := by
  induction batches generalizing s past with
  | nil => rfl
  | cons b bs ih =>
    obtain ⟨latch, hfilter, hlatch⟩ := @filter_eq _ _ _ _ bs.flatten b hl
    have hl' : Latched req (gate req s b).1 (past ++ b) := by
      intro hn
      simp [gate, applyParallelCap, hcap, hfilter, hlatch hn]
    have hi := ih hl'
    rw [List.append_assoc] at hi hfilter
    rw [List.flatten_cons, feed_cons, hi, List.filter_append]
    simp [gate, applyParallelCap, hcap, hfilter]

/-- The deltas the filter passes, each with whether the filter has dropped something since the one
before it: of the delta's batch or of a batch passed over. -/
def marks (keep : ToolCallDelta α → Bool) : Bool → List (List (ToolCallDelta α)) →
    List (Bool × ToolCallDelta α)
  | _, [] => []
  | r, b :: bs =>
    match b.filter keep with
    | [] => marks keep (r || b.any (fun tc => !keep tc)) bs
    | tc :: tcs => (r || b.any (fun tc => !keep tc), tc) :: tcs.map (fun tc => (false, tc)) ++
        marks keep false bs

theorem marks_snd (keep : ToolCallDelta α → Bool) (r : Bool) (bs : List (List (ToolCallDelta α))) :
    (marks keep r bs).map Prod.snd = bs.flatten.filter keep := by
  induction bs generalizing r with
  | nil => rfl
  | cons b bs ih =>
    rw [List.flatten_cons, List.filter_append, marks]
    split
    · rename_i hb
      rw [hb, ih, List.nil_append]
    · rename_i tc tcs hb
      simp [hb, ih, Function.comp_def]

def admitMarked (x : Option (ToolCallDelta α × Bool)) (tc : Bool × ToolCallDelta α) :
    Option (ToolCallDelta α × Bool) × List (ToolCallDelta α) :=
  admitDelta (raise tc.1 x) tc.2

theorem feed_unmarked (x : Option (ToolCallDelta α × Bool)) (tcs : List (ToolCallDelta α)) :
    feed admitMarked x (tcs.map (fun tc => (false, tc))) = feed admitDelta x tcs := by
  induction tcs generalizing x with
  | nil => rfl
  | cons tc tcs ih => simp only [List.map_cons, feed_cons, admitMarked, raise_false, ih]

theorem feed_door (keep : ToolCallDelta α → Bool) (x : Option (ToolCallDelta α × Bool)) (r : Bool)
    (bs : List (List (ToolCallDelta α))) :
    (feed (door keep) (raise r x) bs).2 = (feed admitMarked x (marks keep r bs)).2 := by
  induction bs generalizing x r with
  | nil => rfl
  | cons b bs ih =>
    rw [feed_cons, marks]
    split
    · rename_i hb
      simp only [door, hb, feed_nil, raise_raise, List.nil_append, ih]
    · rename_i tc tcs hb
      have hi := ih (feed admitDelta (admitDelta (raise (r || b.any (fun tc => !keep tc)) x) tc).1 tcs).1 false
      rw [raise_false] at hi
      simp only [door, hb, raise_raise, List.cons_append, feed_cons, admitMarked, feed_append,
        feed_unmarked, hi, List.append_assoc]

end FusionMlx.Service.ToolCallGate
