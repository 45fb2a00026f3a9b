import FusionMlx.Cache.SnapshotItems

/-!
# The calls keep the books of the snapshot store

One lemma for each section of a call.
-/
namespace FusionMlx.SnapshotStore

open OrderedDict

variable {ρ α : Type} [DecidableEq ρ] {s s' : State ρ α}
variable {i : Item ρ α} {stage : Stage}

section
omit [DecidableEq ρ]

theorem owing_sublist (s : State ρ α) : s.owing.Sublist s.touching := by
  unfold State.owing State.touching
  refine List.Sublist.append_right ?_ _
  cases s.writer with
  | idle => exact .slnil
  | hand i => exact List.Sublist.refl _
  | busy i stage =>
    cases hstage : stage.touches <;> cases howes : stage.owes <;> simp [Writer.owing, Writer.touching, hstage, howes]

/-- The item of a busy writer, as long as it may touch anything. -/
theorem mem_touching (hw : s.writer = .busy i stage) (ht : stage.touches = true) :
    i ∈ s.touching := by
  simp [State.touching, hw, Writer.touching, ht]

theorem live_iff [DecidableEq ρ] {k : Key ρ} : s.Live k ↔ ∃ e, s.pending.get? k = some e := Option.isSome_iff_exists

theorem not_live_iff [DecidableEq ρ] {k : Key ρ} : ¬ s.Live k ↔ s.pending.get? k = none := by
  rw [State.Live, Bool.not_eq_true, Option.isSome_eq_false_iff, Option.isNone_iff_eq_none]

end

theorem AtStage.mono (h : AtStage s i stage)
    (hlive : s'.Live i.key ↔ s.Live i.key) (hmark : s'.cancelled i.key.1 = s.cancelled i.key.1)
    (hfile : s'.files i.key = s.files i.key) (htemp : s.temps i.key = false → s'.temps i.key = false)
    (hsweeps : s.caller.sweeps i.key.1 → s'.caller.sweeps i.key.1) (hwipes : s.caller.wipes → s'.caller.wipes)
    (hlost : lost i.key s.events = true → lost i.key s'.events = true)
    (hwritten : writtenSince i.key s.events = true → writtenSince i.key s'.events = true) : AtStage s' i stage := by
  have hsettled : Settled s i → Settled s' i := by
    rintro (⟨hf, hl⟩ | ⟨hf, hw⟩)
    · exact .inl ⟨hfile.trans hf, hlost hl⟩
    · exact .inr ⟨hfile.trans hf, hwritten hw⟩
  have hmark' : s.cancelled i.key.1 ≠ none → s'.cancelled i.key.1 ≠ none := by rw [hmark]; exact id
  have hunmark : s.cancelled i.key.1 = none → s'.cancelled i.key.1 = none := by rw [hmark]; exact id
  have hclean : s'.Live i.key → s.cancelled i.key.1 = none ∧ Settled s i → s'.cancelled i.key.1 = none ∧ Settled s' i :=
    fun _ h => ⟨hunmark h.1, hsettled h.2⟩
  have hgone := mt hlive.2
  cases stage with
  | lookup | clearedCheck | release => trivial
  | check => exact fun hl => hmark' (h (hgone hl))
  | skipPop => exact ⟨hmark' h.1, fun hl => hwipes (h.2 (hlive.1 hl))⟩
  | write | checkTemp => exact ⟨fun hl => hmark' (h.1 (hgone hl)), fun hl => hunmark (h.2 (hlive.1 hl))⟩
  | rename => exact ⟨fun hl => (h.1 (hgone hl)).imp htemp hsweeps, fun hl => hunmark (h.2 (hlive.1 hl))⟩
  | enforce | checkFile =>
    exact ⟨fun hl => (h.1 (hgone hl)).imp hfile.trans hsweeps, fun hl => hclean hl (h.2 (hlive.1 hl))⟩
  | failed => exact fun hl => hunmark (h (hlive.1 hl))
  | failedCheck | finish => exact fun hl => hclean hl (h (hlive.1 hl))
  | skipRemove | dropTemp | dropPending | dropFile | dropFolder => exact ⟨fun hl => h.1 (hlive.1 hl), hmark' h.2⟩
  | dec final =>
    cases final with
    | false => trivial
    | true => exact fun hl => h (hlive.1 hl)

/-- What a stage relies on for an item that is no longer buffered. -/
theorem AtStage.dead (h : AtStage s i stage) (hdead : ¬ s'.Live i.key)
    (hmark : stage.beforeRename = true → (¬ s.Live i.key → s.cancelled i.key.1 ≠ none) → s'.cancelled i.key.1 ≠ none)
    (hstay : s.cancelled i.key.1 ≠ none → s'.cancelled i.key.1 ≠ none)
    (htemp : s'.temps i.key = false ∨ s'.caller.sweeps i.key.1)
    (hfile : s'.files i.key = none ∨ s'.caller.sweeps i.key.1) : AtStage s' i stage := by
  have hvoid : ∀ {P : Prop}, s'.Live i.key → P := fun hl => absurd hl hdead
  cases stage with
  | lookup | clearedCheck | release => trivial
  | check => exact fun _ => hmark rfl h
  | skipPop => exact ⟨hstay h.1, hvoid⟩
  | write | checkTemp => exact ⟨fun _ => hmark rfl h.1, hvoid⟩
  | rename => exact ⟨fun _ => htemp, hvoid⟩
  | enforce | checkFile => exact ⟨fun _ => hfile, hvoid⟩
  | failed | failedCheck | finish => exact hvoid
  | skipRemove | dropTemp | dropPending | dropFile | dropFolder => exact ⟨hdead, hstay h.2⟩
  | dec final =>
    cases final with
    | false => trivial
    | true => exact hdead

theorem AtStage.of_not_touches (h : ¬ stage.touches = true) : AtStage s i stage := by
  cases stage with
  | clearedCheck | release => trivial
  | dec final =>
    cases final with
    | false => trivial
    | true => exact absurd rfl h
  | _ => exact absurd rfl h

section
variable {k : Key ρ}

theorem Inv.kept_of (h : Inv s) (hs : ¬ s.caller.saves k) (hw : ¬ s.caller.wipes) {v : α}
    (hp : s.pending.get? k = some ⟨v, true⟩) : ∃ i ∈ s.touching, i.key = k :=
  (h.kept k v hp).resolve_right fun hor => hor.elim hs hw

theorem Inv.known_of (h : Inv s) (hs : ¬ s.caller.saves k) (hw : ¬ s.caller.wipes) {e : Pending α}
    (hp : s.pending.get? k = some e) : current k s.events = some e.content :=
  (h.known k e hp).resolve_right fun hor => hor.elim hs hw

theorem Inv.file_of (h : Inv s) (hs : ¬ s.caller.sweeps k.1) {v : α} (hf : s.files k = some v) :
    s.Live k ∨ current k s.events = some v :=
  (h.file k v hf).imp_right fun hor => hor.resolve_right hs

end

theorem Inv.caller (h : Inv s) (c : Caller ρ α) (hsaves : ∀ k, c.saves k ↔ s.caller.saves k)
    (hbuffered : ∀ k v, c = .saving k v ∨ c = .putting k v → s.caller = .saving k v ∨ s.caller = .putting k v)
    (hwipes : s.caller.wipes → c.wipes) (hsweeps : ∀ rid, s.caller.sweeps rid → c.sweeps rid)
    (hcleans : ∀ rid, c.cleans rid → s.caller.cleans rid) (hall : c.cleansAll → s.caller.cleansAll)
    (hlock : c.holds = true → s.writer.holds = false)
    (hdrained : c = .waitingAll ∨ (∃ acquired, c = .clearing acquired) → s.queue = [])
    (hmarks : ∀ rid, s.caller.clearsMarks rid → c.clearsMarks rid ∨ s.Covered rid)
    (hquiet : ∀ rid, c = .releasing rid ∨ c = .unmarking rid → Quiet s rid)
    (htimedOut : c = .clearing false → (∀ i, s.writer ≠ .hand i) ∧
      ∀ i stage, s.writer = .busy i stage → stage = .lookup ∨ stage.beforeRename = true → ¬ s.Live i.key)
    (hloading : ∀ k v, c = .loading k → s.pending.get? k ≠ some ⟨v, true⟩) : Inv { s with caller := c } :=
  { h with
    buffered := fun k v hc => h.buffered k v (hbuffered k v hc)
    apart := fun k hk => h.apart k ((hsaves k).1 hk)
    kept := fun k v hk => (h.kept k v hk).imp_right (Or.imp (hsaves k).2 hwipes)
    lock := hlock
    drained := hdrained
    marks := fun rid n t hm => by
      refine ⟨(h.marks rid n t hm).1, ?_⟩
      rcases (h.marks rid n t hm).2 with hle | hclears
      · exact .inl hle
      · exact (hmarks rid hclears).symm.imp_left fun hcovered => hcovered n t hm
    stage := fun i stage hw => (h.stage i stage hw).mono Iff.rfl rfl rfl id (hsweeps _) hwipes id id
    known := fun k e hk => (h.known k e hk).imp_right (Or.imp (hsaves k).2 hwipes)
    file := fun k v hk => (h.file k v hk).imp_right (Or.imp_right (hsweeps _))
    older := fun k hk => h.older k ((hsaves k).1 hk)
    cur := fun k v hk hl => (h.cur k v hk hl).imp (And.imp_right (mt (hsaves k).1))
      (And.imp_right fun hlive hl => (hsaves k).2 (hlive hl))
    fresh := fun k v hm hk => (h.fresh k v hm hk).imp_right (mt (hsaves k).1)
    written := fun k v hf hk hl => h.written k v hf hk fun hlive => (hsaves k).1 (hl hlive)
    cleaning := fun k hk => h.cleaning k (hcleans _ hk)
    cleanedAll := fun hk => h.cleanedAll (hall hk)
    quiet := fun rid hk => by
      rcases hk with hk | hk
      · exact h.quiet rid (.inl hk)
      · exact hquiet rid hk
    timedOut := htimedOut
    loading := hloading }

theorem Inv.tick (h : Inv s) (time : Nat) : Inv { s with now := s.now + time } :=
  { h with stage := fun i stage hw => (h.stage i stage hw).mono Iff.rfl rfl rfl id id id id id }

theorem Inv.loaded (h : Inv s) (k : Key ρ) (r : Option α) : Inv (s.log (.loaded k r)) :=
  { h with stage := fun i stage hw => (h.stage i stage hw).mono Iff.rfl rfl rfl id id id id id }

section
variable {k k' : Key ρ} {c : α}

theorem live_set {e : Pending α} (hp : s'.pending = s.pending.set k e) (hne : k' ≠ k) :
    s'.Live k' ↔ s.Live k' := by
  rw [State.Live, hp, Dict.get?_set_ne _ _ hne, State.Live]

theorem live_erase (hp : s'.pending = s.pending.erase k) (hne : k' ≠ k) : s'.Live k' ↔ s.Live k' := by
  rw [State.Live, hp, Dict.get?_erase_ne _ hne, State.Live]

/-- What is owed does not change when the buffer does so at other keys only. -/
theorem owed_congr {rid : ρ} (hwriter : s'.writer = s.writer) (hqueue : s'.queue = s.queue)
    (hlive : ∀ i ∈ s.owing, i.key.1 = rid → (s'.Live i.key ↔ s.Live i.key)) : s'.owed rid = s.owed rid := by
  have howing : s'.owing = s.owing := by rw [State.owing, State.owing, hwriter, hqueue]
  unfold State.owed
  rw [hwriter, howing]
  congr 1
  refine List.countP_congr fun i hi => ?_
  simp only [decide_eq_true_eq]
  exact and_congr_right fun hrid => not_congr (hlive i hi hrid)

theorem fifo_congr (h : Inv s) (hwriter : s'.writer = s.writer) (hqueue : s'.queue = s.queue)
    (hlive : ∀ i ∈ s.owing, s'.Live i.key ↔ s.Live i.key) :
    s'.owing.Pairwise (fun i j => i.key.1 = j.key.1 → s'.Live i.key → s'.Live j.key) := by
  have howing : s'.owing = s.owing := by rw [State.owing, State.owing, hwriter, hqueue]
  rw [howing]
  refine List.Pairwise.imp_of_mem ?_ h.fifo
  intro i j hi hj hij hrid
  rw [hlive i hi, hlive j hj]
  exact hij hrid

theorem Inv.begin_save (h : Inv s) (hidle : s.caller = .idle) (hfree : ∀ i ∈ s.touching, i.key ≠ k) :
    Inv (State.log { s with pending := s.pending.set k ⟨c, true⟩, caller := .saving k c } (.begun k)) := by
  have hne : ∀ {i}, i ∈ s.touching → i.key ≠ k := fun hi => hfree _ hi
  have hget : ∀ {k'}, k' ≠ k → (s.pending.set k ⟨c, true⟩).get? k' = s.pending.get? k' :=
    fun hk => Dict.get?_set_ne _ _ hk
  have hself : (s.pending.set k ⟨c, true⟩).get? k = some ⟨c, true⟩ := Dict.get?_set_self _ _ _
  have hnosave : ∀ k', ¬ s.caller.saves k' := fun k' => by rw [hidle]; exact id
  have hnowipe : ¬ s.caller.wipes := by rw [hidle]; exact id
  have hnosweep : ∀ rid, ¬ s.caller.sweeps rid := fun rid => by rw [hidle]; exact id
  -- the writer has nothing to do with the key, so what is left of it is in a file or lost
  have hold : ∀ v, s.pending.get? k ≠ some ⟨v, true⟩ := by
    intro v hv
    obtain ⟨i, hi, hik⟩ := h.kept_of (hnosave k) hnowipe hv
    exact hne hi hik
  have hfile : ∀ v, s.files k = some v → ¬ s.Live k := by
    intro v hv hlive
    obtain ⟨⟨w, extracted⟩, he⟩ := live_iff.1 hlive
    cases extracted with
    | true => exact hold w he
    | false => simp [h.leftover k w he] at hv
  have hlive : ∀ {k'}, k' ≠ k → ((State.log { s with pending := s.pending.set k ⟨c, true⟩, caller := .saving k c }
      (.begun k)).Live k' ↔ s.Live k') := fun hk => live_set (s := s) (k := k) (e := ⟨c, true⟩) rfl hk
  exact
  { keys := h.keys
    buffered := by
      rintro k' v (heq | heq) <;> cases heq
      exact hself
    apart := by
      rintro k' rfl
      exact hfree
    content := fun i hi e he => h.content i hi e ((hget (hne hi)).symm.trans he)
    kept := by
      intro k' v hk
      by_cases hkk : k' = k
      · exact .inr (.inl hkk.symm)
      · exact .inl (h.kept_of (hnosave k') hnowipe ((hget hkk).symm.trans hk))
    fifo := fifo_congr h rfl rfl fun i hi => hlive (hne ((owing_sublist s).subset hi))
    lock := by simp [State.log, Caller.holds]
    drained := by simp [State.log]
    marks := by
      intro rid n t hm
      have hnot : ¬ s.caller.clearsMarks rid := by
        rw [hidle]
        exact id
      exact ⟨(h.marks rid n t hm).1, .inl (le_of_le_of_eq ((h.marks rid n t hm).2.resolve_right hnot)
        (Eq.symm (owed_congr rfl rfl fun i hi _ => hlive (hne ((owing_sublist s).subset hi)))))⟩
    stage := by
      intro i stage hw
      by_cases ht : stage.touches = true
      · exact (h.stage i stage hw).mono (hlive (hne (mem_touching hw ht))) rfl rfl id (fun hs => absurd hs (hnosweep _))
          (fun hw => absurd hw hnowipe) id id
      · exact .of_not_touches ht
    temps := h.temps
    known := by
      intro k' e hk
      by_cases hkk : k' = k
      · exact .inr (.inl hkk.symm)
      · exact .inl (h.known_of (hnosave k') hnowipe ((hget hkk).symm.trans hk))
    gone := fun i hi hl => h.gone i hi (mt (hlive (hne hi)).2 hl)
    leftover := by
      intro k' v hk
      by_cases hkk : k' = k
      · rw [hkk] at hk
        exact absurd (hself.symm.trans hk) (by simp)
      · exact h.leftover k' v ((hget hkk).symm.trans hk)
    file := by
      intro k' v hf
      by_cases hkk : k' = k
      · exact .inl (live_iff.2 ⟨_, by rw [hkk]; exact hself⟩)
      · exact (h.file_of (hnosweep _) hf).imp (hlive hkk).2 .inl
    older := by
      rintro k' rfl v hf
      exact (h.file_of (hnosweep _) hf).resolve_left (hfile v hf)
    cur := by
      intro k' v hcur hlost
      by_cases hkk : k' = k
      · subst hkk
        rcases h.cur k' v hcur hlost with ⟨hp, -⟩ | ⟨hf, -⟩
        · exact absurd hp (hold v)
        · exact .inr ⟨hf, fun _ => rfl⟩
      · rcases h.cur k' v hcur hlost with ⟨hp, -⟩ | ⟨hf, hl⟩
        · exact .inl ⟨(hget hkk).trans hp, fun hs => hkk hs.symm⟩
        · exact .inr ⟨hf, fun hl' => absurd (hl ((hlive hkk).1 hl')) (hnosave k')⟩
    fresh := by
      intro k' v hm hcur
      have hp := (h.fresh k' v hm hcur).1
      by_cases hkk : k' = k
      · exact absurd (hkk ▸ hp) (hold v)
      · exact ⟨(hget hkk).trans hp, fun hs => hkk hs.symm⟩
    written := by
      intro k' v hf hcur hl
      refine h.written k' v hf hcur fun hlive' => ?_
      by_cases hkk : k' = k
      · exact absurd (hkk ▸ hlive') (hfile v (hkk ▸ hf))
      · exact absurd (hl ((hlive hkk).2 hlive')).symm hkk
    cleaning := by
      intro k' hk
      exact hk.elim
    cleanedAll := fun hk => hk.elim
    quiet := by
      rintro rid (hswept | hcaller | hcaller)
      · have hrid : k.1 ≠ rid := by
          rintro rfl
          simp [State.log, sweptLast] at hswept
        have hswept' : sweptLast rid s.events = true := by simpa [State.log, sweptLast, hrid] using hswept
        obtain ⟨hnone, hwriter⟩ := h.quiet rid (.inl hswept')
        refine ⟨fun k' hk => ?_, hwriter⟩
        have hkk : k' ≠ k := fun heq => hrid (heq ▸ hk)
        exact ⟨mt (hlive hkk).1 (hnone k' hk).1, (hnone k' hk).2⟩
      · cases hcaller
      · cases hcaller
    timedOut := fun hk => by cases hk
    loading := fun k' v hk => by cases hk }

theorem current_saved (k k' : Key ρ) (c : α) (past : List (Event ρ α)) :
    current k (.saved k' c :: past) = if k' = k then some c else current k past := rfl

theorem lost_saved_ne (hne : k' ≠ k) (c : α) (past : List (Event ρ α)) : lost k (.saved k' c :: past) = lost k past :=
  if_neg hne

theorem writtenSince_saved_ne (hne : k' ≠ k) (c : α) (past : List (Event ρ α)) :
    writtenSince k (.saved k' c :: past) = writtenSince k past := if_neg hne

theorem Inv.put (h : Inv s) (hput : s.caller = .putting k c) :
    Inv (State.log { s with queue := s.queue ++ [⟨k, c⟩], caller := .idle } (.saved k c)) := by
  have hpending := h.buffered k c (.inr hput)
  have hlive : s.Live k := live_iff.2 ⟨_, hpending⟩
  have hsaves : s.caller.saves k := by
    rw [hput]
    rfl
  have hfree := h.apart k hsaves
  have hother : ∀ {k'}, k' ≠ k → ¬ s.caller.saves k' := by
    intro k' hk hs
    rw [hput] at hs
    exact hk hs.symm
  have hwipes : ¬ s.caller.wipes := by
    rw [hput]
    exact id
  have hsweeps : ∀ rid, ¬ s.caller.sweeps rid := by
    rw [hput]
    exact fun _ => id
  have htouching : ∀ i, i ∈ (s.writer.touching ++ (s.queue ++ [⟨k, c⟩]) : List (Item ρ α)) ↔ i ∈ s.touching ∨ i = ⟨k, c⟩ := by
    intro i
    simp [State.touching, or_assoc]
  have hcur : ∀ {k'}, k' ≠ k → current k' (.saved k c :: s.events) = current k' s.events := by
    intro k' hk
    rw [current_saved, if_neg (fun h => hk h.symm)]
  exact
  { keys := by
      change (List.map Item.key (s.writer.touching ++ (s.queue ++ [⟨k, c⟩]))).Nodup
      rw [← List.append_assoc, List.map_append, List.nodup_append]
      refine ⟨h.keys, by simp, ?_⟩
      intro a ha b hb
      obtain ⟨i, hi, rfl⟩ := List.mem_map.1 ha
      obtain rfl : b = k := by simpa using hb
      exact hfree i hi
    buffered := by
      rintro k' v (heq | heq) <;> cases heq
    apart := fun k' hk => hk.elim
    content := by
      intro i hi e he
      rcases (htouching i).1 hi with hi | rfl
      · exact h.content i hi e he
      · exact Option.some.inj (he.symm.trans hpending)
    kept := by
      intro k' v hk
      left
      by_cases hkk : k' = k
      · exact ⟨Item.mk k c, (htouching (Item.mk k c)).2 (.inr rfl), hkk.symm⟩
      · obtain ⟨i, hi, hik⟩ := h.kept_of (hother hkk) hwipes hk
        exact ⟨i, (htouching i).2 (.inl hi), hik⟩
    fifo := by
      change (s.writer.owing ++ (s.queue ++ [Item.mk k c])).Pairwise _
      rw [← List.append_assoc, List.pairwise_append]
      refine ⟨h.fifo, List.pairwise_singleton _ _, ?_⟩
      intro i _ j hj _ _
      obtain rfl : j = ⟨k, c⟩ := by simpa using hj
      exact hlive
    lock := by simp [State.log, Caller.holds]
    drained := by simp [State.log]
    marks := by
      intro rid n t hm
      have hnot : ¬ s.caller.clearsMarks rid := by
        rw [hput]
        exact id
      refine ⟨(h.marks rid n t hm).1, .inl (Nat.le_trans ((h.marks rid n t hm).2.resolve_right hnot) ?_)⟩
      refine Nat.add_le_add_left (List.Sublist.countP_le ?_) _
      exact List.Sublist.append_left (List.sublist_append_left _ _) _
    stage := by
      intro i stage hw
      by_cases ht : stage.touches = true
      · have hne := (hfree i (mem_touching hw ht)).symm
        exact (h.stage i stage hw).mono Iff.rfl rfl rfl id (fun hs => absurd hs (hsweeps _)) (fun hw => absurd hw hwipes)
          (lost_saved_ne hne c s.events).trans (writtenSince_saved_ne hne c s.events).trans
      · exact .of_not_touches ht
    temps := h.temps
    known := by
      intro k' e hk
      left
      by_cases hkk : k' = k
      · subst hkk
        obtain rfl : e = ⟨c, true⟩ := Option.some.inj (hk.symm.trans hpending)
        simp [State.log, current_saved]
      · change current k' (.saved k c :: s.events) = _
        rw [hcur hkk]
        exact h.known_of (hother hkk) hwipes hk
    gone := by
      intro i hi hl
      rcases (htouching i).1 hi with hi | rfl
      · change current i.key (.saved k c :: s.events) = _
        rw [hcur (hfree i hi)]
        exact h.gone i hi hl
      · exact absurd hlive hl
    leftover := h.leftover
    file := by
      intro k' v hf
      by_cases hkk : k' = k
      · exact .inl (by rw [hkk]; exact hlive)
      · exact (h.file_of (hsweeps _) hf).imp_right fun hc => .inl ((hcur hkk).trans hc)
    older := fun k' hk => hk.elim
    cur := by
      intro k' v hc hl
      by_cases hkk : k' = k
      · subst hkk
        obtain rfl : c = v := by simpa [State.log, current_saved] using hc
        exact .inl ⟨hpending, id⟩
      · have hl' := (lost_saved_ne (fun heq => hkk heq.symm) c s.events).symm.trans hl
        rcases h.cur k' v ((hcur hkk).symm.trans hc) hl' with ⟨hp, -⟩ | ⟨hf, hs⟩
        · exact .inl ⟨hp, id⟩
        · exact .inr ⟨hf, fun hl => absurd (hs hl) (hother hkk)⟩
    fresh := by
      intro k' v hm hc
      by_cases hkk : k' = k
      · subst hkk
        obtain rfl : c = v := by simpa [State.log, current_saved] using hc
        exact ⟨hpending, id⟩
      · exact ⟨(h.fresh k' v hm ((hcur hkk).symm.trans hc)).1, id⟩
    written := by
      intro k' v hf hc hl
      by_cases hkk : k' = k
      · exact (hl (by rw [hkk]; exact hlive)).elim
      · have hw := h.written k' v hf ((hcur hkk).symm.trans hc) fun hl' => (hl hl').elim
        exact (writtenSince_saved_ne (fun heq => hkk heq.symm) c s.events).trans hw
    cleaning := fun k' hk => hk.elim
    cleanedAll := fun hk => hk.elim
    quiet := by
      rintro rid (hswept | hcaller | hcaller)
      · exact h.quiet rid (.inl hswept)
      · cases hcaller
      · cases hcaller
    timedOut := fun hk => by cases hk
    loading := fun k' v hk => by cases hk }

theorem Inv.drop (h : Inv s) (hdrop : s.caller = .dropping k) : Inv { s.popPending k with caller := .idle } := by
  have hsaves : s.caller.saves k := by
    rw [hdrop]
    rfl
  have hfree := h.apart k hsaves
  have hother : ∀ {k'}, k' ≠ k → ¬ s.caller.saves k' := by
    intro k' hk hs
    rw [hdrop] at hs
    exact hk hs.symm
  have hwipes : ¬ s.caller.wipes := by
    rw [hdrop]
    exact id
  have hsweeps : ∀ rid, ¬ s.caller.sweeps rid := by
    rw [hdrop]
    exact fun _ => id
  have hget : ∀ {k'}, k' ≠ k → (s.pending.erase k).get? k' = s.pending.get? k' := fun hk => Dict.get?_erase_ne _ hk
  have hgone : (s.pending.erase k).get? k = none := Dict.get?_erase_self _ _
  have hlive : ∀ {k'}, k' ≠ k → (State.Live { s.popPending k with caller := .idle } k' ↔ s.Live k') :=
    fun hk => live_erase (k := k) rfl hk
  have hdead : ¬ State.Live { s.popPending k with caller := .idle } k := not_live_iff.2 hgone
  have howing : ∀ i ∈ s.owing, i.key ≠ k := fun i hi => hfree i ((owing_sublist s).subset hi)
  -- what the buffer holds afterwards it held before
  have hof : ∀ {k' e}, (s.pending.erase k).get? k' = some e → k' ≠ k ∧ s.pending.get? k' = some e := by
    intro k' e he
    have hkk : k' ≠ k := by
      rintro rfl
      exact absurd (hgone.symm.trans he) (by simp)
    exact ⟨hkk, (hget hkk).symm.trans he⟩
  exact
  { keys := h.keys
    buffered := by
      rintro k' v (heq | heq) <;> cases heq
    apart := fun k' hk => hk.elim
    content := fun i hi e he => h.content i hi e (hof he).2
    kept := fun k' v hk => .inl (h.kept_of (hother (hof hk).1) hwipes (hof hk).2)
    fifo := fifo_congr h rfl rfl fun i hi => hlive (howing i hi)
    lock := by simp [Caller.holds]
    drained := by simp
    marks := by
      intro rid n t hm
      have hnot : ¬ s.caller.clearsMarks rid := by
        rw [hdrop]
        exact id
      exact ⟨(h.marks rid n t hm).1, .inl (le_of_le_of_eq ((h.marks rid n t hm).2.resolve_right hnot)
        (Eq.symm (owed_congr rfl rfl fun i hi _ => hlive (howing i hi))))⟩
    stage := by
      intro i stage hw
      by_cases ht : stage.touches = true
      · exact (h.stage i stage hw).mono (hlive (hfree i (mem_touching hw ht))) rfl rfl id (fun hs => absurd hs (hsweeps _))
          (fun hw => absurd hw hwipes) id id
      · exact .of_not_touches ht
    temps := h.temps
    known := fun k' e hk => .inl (h.known_of (hother (hof hk).1) hwipes (hof hk).2)
    gone := fun i hi hl => h.gone i hi (mt (hlive (hfree i hi)).2 hl)
    leftover := fun k' v hk => h.leftover k' v (hof hk).2
    file := by
      intro k' v hf
      by_cases hkk : k' = k
      · exact .inr (.inl (h.older k' (hkk ▸ hsaves) v hf))
      · exact (h.file_of (hsweeps _) hf).imp (hlive hkk).2 .inl
    older := fun k' hk => hk.elim
    cur := by
      intro k' v hc hl
      by_cases hkk : k' = k
      · rcases h.cur k' v hc hl with ⟨-, hs⟩ | ⟨hf, -⟩
        · exact absurd (hkk ▸ hsaves) hs
        · exact .inr ⟨hf, fun hl => absurd (hkk ▸ hl) hdead⟩
      · rcases h.cur k' v hc hl with ⟨hp, -⟩ | ⟨hf, hs⟩
        · exact .inl ⟨(hget hkk).trans hp, id⟩
        · exact .inr ⟨hf, fun hl => absurd (hs ((hlive hkk).1 hl)) (hother hkk)⟩
    fresh := by
      intro k' v hm hc
      obtain ⟨hp, hs⟩ := h.fresh k' v hm hc
      have hkk : k' ≠ k := by
        rintro rfl
        exact hs hsaves
      exact ⟨(hget hkk).trans hp, id⟩
    written := by
      intro k' v hf hc hl
      refine h.written k' v hf hc fun hl' => ?_
      by_cases hkk : k' = k
      · rw [hkk]
        exact hsaves
      · exact (hl ((hlive hkk).2 hl')).elim
    cleaning := fun k' hk => hk.elim
    cleanedAll := fun hk => hk.elim
    quiet := by
      rintro rid (hswept | hcaller | hcaller)
      · obtain ⟨hnone, hwriter⟩ := h.quiet rid (.inl hswept)
        refine ⟨fun k' hk => ⟨?_, (hnone k' hk).2⟩, hwriter⟩
        intro hl
        obtain ⟨e, he⟩ := live_iff.1 hl
        exact (hnone k' hk).1 (live_iff.2 ⟨e, (hof he).2⟩)
      · cases hcaller
      · cases hcaller
    timedOut := fun hk => by cases hk
    loading := fun k' v hk => by cases hk }

end

variable {acquired : Bool}

section
variable {rid : ρ}

theorem get?_foldl_erase {κ ν : Type} [DecidableEq κ] (d : Dict κ ν) (ks : List κ) (k : κ) :
    (ks.foldl Dict.erase d).get? k = if k ∈ ks then none else d.get? k := by
  induction ks generalizing d with
  | nil => simp
  | cons k' ks ih =>
    rw [List.foldl_cons, ih, Dict.get?_erase]
    by_cases hk : k = k' <;> simp [hk]

theorem mem_pendingOf (k : Key ρ) : k ∈ s.pendingOf rid ↔ s.Live k ∧ k.1 = rid := by
  rw [State.pendingOf, List.mem_filter, Dict.mem_keys_iff, live_iff, decide_eq_true_iff]

theorem markCancelled_pending (s : State ρ α) (rid : ρ) (k : Key ρ) :
    (s.markCancelled rid).pending.get? k = if k.1 = rid then none else s.pending.get? k := by
  have hget : ((s.pendingOf rid).foldl Dict.erase s.pending).get? k =
      if k.1 = rid then none else s.pending.get? k := by
    rw [get?_foldl_erase]
    by_cases hk : k.1 = rid
    · rw [if_pos hk]
      split
      · rfl
      · next hmem => exact not_live_iff.1 fun hl => hmem ((mem_pendingOf k).2 ⟨hl, hk⟩)
    · rw [if_neg hk, if_neg fun hmem => hk ((mem_pendingOf k).1 hmem).2]
  unfold State.markCancelled
  dsimp only
  split
  · exact hget
  · split <;> exact hget

theorem markCancelled_cancelled (s : State ρ α) (rid r : ρ) :
    (s.markCancelled rid).cancelled r =
      if r = rid ∧ (s.pendingOf rid).length ≠ 0 then
        match s.cancelled rid with
        | none => some ((s.pendingOf rid).length, s.now)
        | some (count, created) => some (count + (s.pendingOf rid).length, created)
      else s.cancelled r := by
  unfold State.markCancelled
  dsimp only
  split
  · next hlen => rw [if_neg fun h => h.2 hlen]
  · next hlen =>
    cases hc : s.cancelled rid <;> by_cases hr : r = rid <;> simp [State.setCancelled, hr, hlen]

theorem markCancelled_rest (s : State ρ α) (rid : ρ) :
    (s.markCancelled rid).queue = s.queue ∧ (s.markCancelled rid).writer = s.writer ∧
      (s.markCancelled rid).files = s.files ∧ (s.markCancelled rid).temps = s.temps ∧
      (s.markCancelled rid).events = s.events := by
  unfold State.markCancelled
  dsimp only
  split
  · exact ⟨rfl, rfl, rfl, rfl, rfl⟩
  · split <;> exact ⟨rfl, rfl, rfl, rfl, rfl⟩

/-- What the first section of `cleanup_request` does. -/
structure Marking (s s' : State ρ α) (rid : ρ) : Prop where
  idle : s.caller = .idle
  queue : s'.queue = s.queue
  writer : s'.writer = s.writer
  files : s'.files = s.files
  temps : s'.temps = s.temps
  events : s'.events = .cleaned rid :: s.events
  caller : s'.caller = .cleaning rid
  pending : ∀ k, s'.pending.get? k = if k.1 = rid then none else s.pending.get? k
  cancelled : ∀ r, s'.cancelled r = (s.markCancelled rid).cancelled r

namespace Marking

theorem of_log (hidle : s.caller = .idle)
    (hs' : s' = State.log { s.markCancelled rid with caller := .cleaning rid } (.cleaned rid)) : Marking s s' rid := by
  obtain ⟨hqueue, hwriter, hfiles, htemps, hevents⟩ := markCancelled_rest s rid
  subst hs'
  exact ⟨hidle, hqueue, hwriter, hfiles, htemps, congrArg _ hevents, rfl, markCancelled_pending s rid, fun _ => rfl⟩

variable (m : Marking s s' rid)
include m

theorem idle_nosave (k : Key ρ) : ¬ s.caller.saves k := by rw [m.idle]; exact id

theorem nosweep (r : ρ) : ¬ s.caller.sweeps r := by rw [m.idle]; exact id

theorem nowipe : ¬ s.caller.wipes := by rw [m.idle]; exact id

theorem nosave (k : Key ρ) : ¬ s'.caller.saves k := by rw [m.caller]; exact id

theorem touching : s'.touching = s.touching := by rw [State.touching, State.touching, m.writer, m.queue]

theorem live (k : Key ρ) : s'.Live k ↔ k.1 ≠ rid ∧ s.Live k := by
  rw [State.Live, m.pending]
  by_cases hk : k.1 = rid <;> simp [hk, State.Live]

theorem current (k : Key ρ) :
    SnapshotStore.current k s'.events = if k.1 = rid then none else SnapshotStore.current k s.events := by
  rw [m.events]
  rfl

theorem pending_of {k : Key ρ} {e : Pending α} (he : s'.pending.get? k = some e) :
    k.1 ≠ rid ∧ s.pending.get? k = some e := by
  rw [m.pending] at he
  split at he
  · cases he
  · next hk => exact ⟨hk, he⟩

theorem current_of {k : Key ρ} {v : α} (hc : SnapshotStore.current k s'.events = some v) :
    k.1 ≠ rid ∧ SnapshotStore.current k s.events = some v := by
  rw [m.current] at hc
  split at hc
  · cases hc
  · next hk => exact ⟨hk, hc⟩

theorem other {r : ρ} (hr : r ≠ rid) : s'.cancelled r = s.cancelled r := by
  rw [m.cancelled, markCancelled_cancelled, if_neg fun h => hr h.1]

theorem stay (r : ρ) (hr : s.cancelled r ≠ none) : s'.cancelled r ≠ none := by
  rw [m.cancelled, markCancelled_cancelled]
  split
  · split <;> simp
  · exact hr

/-- What the call has taken out of the buffer is marked. -/
theorem marked (k : Key ρ) (hl : ¬ s'.Live k) (hold : s.Live k) : s'.cancelled k.1 ≠ none := by
  have hk : k.1 = rid := by
    by_contra hk
    exact hl ((m.live k).2 ⟨hk, hold⟩)
  have hlen : (s.pendingOf rid).length ≠ 0 :=
    Nat.ne_of_gt (List.length_pos_of_mem ((mem_pendingOf k).2 ⟨hold, hk⟩))
  rw [m.cancelled, markCancelled_cancelled, if_pos ⟨hk, hlen⟩]
  split <;> simp

theorem inv_marks (h : Inv s) :
    ∀ r n t, s'.cancelled r = some (n, t) → 1 ≤ n ∧ (n ≤ s'.owed r ∨ s'.caller.clearsMarks r) := by
  intro r n t hm
  by_cases hr : r = rid
  · subst hr
    refine ⟨?_, .inr (by rw [m.caller]; rfl)⟩
    rw [m.cancelled, markCancelled_cancelled] at hm
    split at hm
    · next hlen =>
      have hpos := Nat.pos_of_ne_zero hlen.2
      cases hc : s.cancelled r with
      | none =>
        rw [hc] at hm
        cases hm
        exact hpos
      | some old =>
        rw [hc] at hm
        cases hm
        omega
    · exact (h.marks r n t hm).1
  · have hm' := (m.other hr).symm.trans hm
    have hnot : ¬ s.caller.clearsMarks r := by
      rw [m.idle]
      exact id
    refine ⟨(h.marks r n t hm').1, .inl (le_of_le_of_eq ((h.marks r n t hm').2.resolve_right hnot) (Eq.symm ?_))⟩
    refine owed_congr m.writer m.queue fun i _ hi => ?_
    rw [m.live]
    exact and_iff_right (hi ▸ hr)

theorem inv_stage (h : Inv s) : ∀ i stage, s'.writer = .busy i stage → AtStage s' i stage := by
  intro i stage hw
  have hst := h.stage i stage (m.writer.symm.trans hw)
  by_cases hi : i.key.1 = rid
  · have hl : ¬ s'.Live i.key := fun hl => ((m.live _).1 hl).1 hi
    have hsweeps : s'.caller.sweeps i.key.1 := by
      rw [m.caller]
      exact hi.symm
    refine hst.dead hl ?_ (m.stay _) (.inr hsweeps) (.inr hsweeps)
    intro _ hm
    by_cases hold : s.Live i.key
    · exact m.marked _ hl hold
    · exact m.stay _ (hm hold)
  · refine hst.mono ?_ (m.other hi) (by rw [m.files]) (by rw [m.temps]; exact id) (fun hs => absurd hs (m.nosweep _))
      (fun hw => absurd hw m.nowipe) ?_ ?_
    · rw [m.live]
      exact and_iff_right hi
    · rw [m.events]
      exact id
    · rw [m.events]
      exact id

theorem inv (h : Inv s) : Inv s' where
  keys := m.touching ▸ h.keys
  buffered := by
    rintro k v (heq | heq) <;> rw [m.caller] at heq <;> cases heq
  apart := fun k hk => absurd hk (m.nosave k)
  content := fun i hi e he => h.content i (m.touching ▸ hi) e (m.pending_of he).2
  kept := by
    intro k v hk
    rw [m.touching]
    exact .inl (h.kept_of (m.idle_nosave k) m.nowipe (m.pending_of hk).2)
  fifo := by
    have howing : s'.owing = s.owing := by rw [State.owing, State.owing, m.writer, m.queue]
    rw [howing]
    refine h.fifo.imp ?_
    intro i j hij hrid hl
    rw [m.live] at hl ⊢
    exact ⟨hrid ▸ hl.1, hij hrid hl.2⟩
  lock := by simp [m.caller, Caller.holds]
  drained := by simp [m.caller]
  marks := m.inv_marks h
  stage := m.inv_stage h
  temps := by
    rw [m.temps, m.writer]
    exact h.temps
  known := by
    intro k e he
    obtain ⟨hk, he⟩ := m.pending_of he
    rw [m.current, if_neg hk]
    exact .inl (h.known_of (m.idle_nosave k) m.nowipe he)
  gone := by
    intro i hi hl
    rw [m.current]
    split
    · rfl
    · next hk => exact h.gone i (m.touching ▸ hi) fun hold => hl ((m.live _).2 ⟨hk, hold⟩)
  leftover := fun k v hk => by
    rw [m.files]
    exact h.leftover k v (m.pending_of hk).2
  file := by
    intro k v hf
    rw [m.files] at hf
    by_cases hk : k.1 = rid
    · exact .inr (.inr (by rw [m.caller]; exact hk.symm))
    · rw [m.current, if_neg hk]
      exact (h.file_of (m.nosweep _) hf).imp (fun hl => (m.live k).2 ⟨hk, hl⟩) .inl
  older := fun k hk => absurd hk (m.nosave k)
  cur := by
    intro k v hc hl
    obtain ⟨hk, hc⟩ := m.current_of hc
    rw [m.events] at hl
    rw [m.pending, if_neg hk, m.files]
    rcases h.cur k v hc hl with ⟨hp, -⟩ | ⟨hf, hs⟩
    · exact .inl ⟨hp, m.nosave k⟩
    · exact .inr ⟨hf, fun hl => absurd (hs ((m.live k).1 hl).2) (m.idle_nosave k)⟩
  fresh := by
    intro k v hm hc
    obtain ⟨hk, hc⟩ := m.current_of hc
    rw [m.other hk] at hm
    rw [m.pending, if_neg hk]
    exact ⟨(h.fresh k v hm hc).1, m.nosave k⟩
  written := by
    intro k v hf hc hl
    obtain ⟨hk, hc⟩ := m.current_of hc
    rw [m.files] at hf
    rw [m.events]
    exact h.written k v hf hc fun hold => absurd (hl ((m.live k).2 ⟨hk, hold⟩)) (m.nosave k)
  cleaning := by
    intro k hk
    rw [m.caller] at hk
    have hk : k.1 = rid := hk.symm
    exact ⟨fun hl => ((m.live k).1 hl).1 hk, by rw [m.current, if_pos hk]⟩
  cleanedAll := fun hk => by
    rw [m.caller] at hk
    exact hk.elim
  quiet := by
    rintro r (hswept | hcall | hcall)
    · rw [m.events] at hswept
      obtain ⟨hnone, hbusy⟩ := h.quiet r (.inl hswept)
      refine ⟨fun k hk => ⟨fun hl => (hnone k hk).1 ((m.live k).1 hl).2, ?_⟩, by rw [m.writer]; exact hbusy⟩
      rw [m.files, m.temps]
      exact (hnone k hk).2
    · rw [m.caller] at hcall
      cases hcall
    · rw [m.caller] at hcall
      cases hcall
  timedOut := fun hk => by
    rw [m.caller] at hk
    cases hk
  loading := fun k v hk => by
    rw [m.caller] at hk
    cases hk

end Marking

theorem Inv.mark (h : Inv s) (hidle : s.caller = .idle)
    (hs' : s' = State.log { s.markCancelled rid with caller := .cleaning rid } (.cleaned rid)) : Inv s' :=
  (Marking.of_log hidle hs').inv h

theorem removeFolder_files (s : State ρ α) (rid : ρ) (k : Key ρ) :
    (s.removeFolder rid).files k = if k.1 = rid then none else s.files k := rfl

theorem removeFolder_temps (s : State ρ α) (rid : ρ) (k : Key ρ) :
    (s.removeFolder rid).temps k = if k.1 = rid then false else s.temps k := rfl

/-- The directory of a cleaned request is removed; who holds the lock then finds the request quiet. -/
theorem Inv.remove (h : Inv s) (hremoving : s.caller = .removing rid acquired) :
    Inv { s.removeFolder rid with caller := if acquired then .releasing rid else .idle } := by
  have hcleans : ∀ k : Key ρ, k.1 = rid → ¬ s.Live k ∧ current k s.events = none := by
    intro k hk
    refine h.cleaning k ?_
    rw [hremoving]
    exact hk.symm
  have hnosave : ∀ k, ¬ s.caller.saves k := fun k => by rw [hremoving]; exact id
  have hnowipe : ¬ s.caller.wipes := by rw [hremoving]; exact id
  have hsweeps : ∀ r, s.caller.sweeps r → rid = r := fun r => by rw [hremoving]; exact id
  have hcalls : ∀ P : Caller ρ α → Prop, P (.releasing rid) → P .idle → P (if acquired then .releasing rid else .idle) := by
    intro P hr hi
    cases acquired
    · exact hi
    · exact hr
  have hnosave' : ∀ k, ¬ (if acquired then .releasing rid else .idle : Caller ρ α).saves k :=
    fun k => hcalls (fun c => ¬ c.saves k) id id
  have hfile : ∀ {k v}, (s.removeFolder rid).files k = some v → k.1 ≠ rid ∧ s.files k = some v := by
    intro k v hf
    rw [removeFolder_files] at hf
    split at hf
    · cases hf
    · next hk => exact ⟨hk, hf⟩
  have hlock := h.lock
  rw [hremoving] at hlock
  exact
  { h with
    buffered := fun k v => hcalls (fun c => c = .saving k v ∨ c = .putting k v → _) (by simp) (by simp)
    apart := fun k hk => absurd hk (hnosave' k)
    kept := fun k v hk => .inl (h.kept_of (hnosave k) hnowipe hk)
    lock := by
      intro hholds
      cases acquired with
      | false => cases hholds
      | true => exact hlock rfl
    drained := hcalls (fun c => c = .waitingAll ∨ (∃ acquired, c = .clearing acquired) → _) (by simp) (by simp)
    marks := by
      intro r n t hm
      refine ⟨(h.marks r n t hm).1, (h.marks r n t hm).2.imp_right ?_⟩
      rw [hremoving]
      cases acquired with
      | false => exact False.elim
      | true => exact id
    stage := by
      intro i stage hw
      have hst := h.stage i stage hw
      by_cases hi : i.key.1 = rid
      · have hl : ¬ s.Live i.key := (hcleans _ hi).1
        exact hst.dead hl (fun _ hm => hm hl) id (.inl (if_pos hi)) (.inl (if_pos hi))
      · refine hst.mono Iff.rfl rfl ?_ ?_ (fun hs => absurd (hsweeps _ hs).symm hi) (fun hw => absurd hw hnowipe) id id
        · rw [removeFolder_files, if_neg hi]
        · rw [removeFolder_temps, if_neg hi]
          exact id
    temps := by
      intro k hk
      rw [removeFolder_temps] at hk
      split at hk
      · cases hk
      · exact h.temps k hk
    known := fun k e he => .inl (h.known_of (hnosave k) hnowipe he)
    leftover := by
      intro k v hk
      rw [removeFolder_files]
      split
      · rfl
      · exact h.leftover k v hk
    file := by
      intro k v hf
      obtain ⟨hk, hf⟩ := hfile hf
      exact (h.file_of (fun hs => hk (hsweeps _ hs).symm) hf).imp_right .inl
    older := fun k hk => absurd hk (hnosave' k)
    cur := by
      intro k v hc hl
      have hk : k.1 ≠ rid := by
        intro hk
        cases (hcleans k hk).2.symm.trans hc
      rcases h.cur k v hc hl with ⟨hp, -⟩ | ⟨hf, hs⟩
      · exact .inl ⟨hp, hnosave' k⟩
      · exact .inr ⟨by rw [removeFolder_files, if_neg hk]; exact hf, fun hl => absurd (hs hl) (hnosave k)⟩
    fresh := fun k v hm hc => ⟨(h.fresh k v hm hc).1, hnosave' k⟩
    written := fun k v hf hc hl => h.written k v (hfile hf).2 hc fun hl' => absurd (hl hl') (hnosave' k)
    cleaning := by
      intro k hk
      cases acquired with
      | false => exact hk.elim
      | true => exact hcleans k hk.symm
    cleanedAll := hcalls (fun c => c.cleansAll → _) (by exact False.elim) (by exact False.elim)
    quiet := by
      intro r hr
      have hnone : ∀ k : Key ρ, k.1 = r → Quiet s r ∨ r = rid → ¬ s.Live k ∧ (s.removeFolder rid).files k = none ∧
          (s.removeFolder rid).temps k = false := by
        intro k hk hor
        rw [removeFolder_files, removeFolder_temps]
        rcases hor with hq | rfl
        · refine ⟨(hq.1 k hk).1, ?_⟩
          split
          · exact ⟨rfl, rfl⟩
          · exact (hq.1 k hk).2
        · rw [if_pos hk, if_pos hk]
          exact ⟨(hcleans k hk).1, rfl, rfl⟩
      rcases hr with hswept | hcall
      · have hq := h.quiet r (.inl hswept)
        exact ⟨fun k hk => hnone k hk (.inl hq), hq.2⟩
      · cases acquired with
        | false => simp at hcall
        | true =>
          obtain rfl : rid = r := by simpa using hcall
          refine ⟨fun k hk => hnone k hk (.inr rfl), ?_⟩
          intro i stage hw
          have hfree := hlock rfl
          rw [show s.writer = .busy i stage from hw] at hfree
          cases hfree
    timedOut := hcalls (fun c => c = .clearing false → _) (by simp) (by simp)
    loading := fun k v => hcalls (fun c => c = .loading k → _) (by simp) (by simp) }

theorem Inv.unmark (h : Inv s) (hunmarking : s.caller = .unmarking rid) :
    Inv (State.log { s.setCancelled rid none with caller := .idle } (.swept rid)) := by
  obtain ⟨hnone, hbusy⟩ := h.quiet rid (.inr (.inr hunmarking))
  have hnosave : ∀ k, ¬ s.caller.saves k := fun k => by rw [hunmarking]; exact id
  have hnowipe : ¬ s.caller.wipes := by rw [hunmarking]; exact id
  have hnosweep : ∀ r, ¬ s.caller.sweeps r := fun k => by rw [hunmarking]; exact id
  have hcancelled : ∀ {r e}, (s.setCancelled rid none).cancelled r = some e → r ≠ rid ∧ s.cancelled r = some e := by
    intro r e he
    change (if r = rid then none else s.cancelled r) = some e at he
    split at he
    · cases he
    · next hr => exact ⟨hr, he⟩
  exact
  { h with
    buffered := by
      rintro k v (heq | heq) <;> cases heq
    apart := fun k hk => hk.elim
    kept := fun k v hk => .inl (h.kept_of (hnosave k) hnowipe hk)
    lock := by simp [State.log, Caller.holds]
    drained := by simp [State.log]
    marks := by
      intro r n t hm
      obtain ⟨hr, hm⟩ := hcancelled hm
      have hnot : ¬ s.caller.clearsMarks r := by
        rw [hunmarking]
        exact fun heq => hr heq.symm
      exact ⟨(h.marks r n t hm).1, .inl ((h.marks r n t hm).2.resolve_right hnot)⟩
    stage := by
      intro i stage hw
      have hst := h.stage i stage hw
      by_cases hi : i.key.1 = rid
      · by_cases ht : stage.touches = true
        · rw [hbusy i stage hw hi ht]
          trivial
        · exact .of_not_touches ht
      · exact hst.mono Iff.rfl (if_neg hi) rfl id (fun hs => absurd hs (hnosweep _)) (fun hw => absurd hw hnowipe) id id
    known := fun k e he => .inl (h.known_of (hnosave k) hnowipe he)
    file := fun k v hf => (h.file k v hf).imp_right (Or.imp_right fun hs => absurd hs (hnosweep _))
    older := fun k hk => hk.elim
    cur := by
      intro k v hc hl
      rcases h.cur k v hc hl with ⟨hp, -⟩ | ⟨hf, hs⟩
      · exact .inl ⟨hp, id⟩
      · exact .inr ⟨hf, fun hl => absurd (hs hl) (hnosave k)⟩
    fresh := by
      intro k v hm hc
      obtain ⟨e, he⟩ := Option.ne_none_iff_exists'.1 hm
      exact ⟨(h.fresh k v (by rw [(hcancelled he).2]; simp) hc).1, id⟩
    written := fun k v hf hc hl => h.written k v hf hc fun hl' => (hl hl').elim
    cleaning := fun k hk => hk.elim
    cleanedAll := fun hk => hk.elim
    quiet := by
      rintro r (hswept | hcall | hcall)
      · by_cases hr : rid = r
        · subst hr
          exact ⟨hnone, hbusy⟩
        · exact h.quiet r (.inl ((if_neg hr).symm.trans hswept))
      · cases hcall
      · cases hcall
    timedOut := fun hk => by cases hk
    loading := fun k v hk => by cases hk }

end

theorem Inv.begin_cleanupAll (h : Inv s) (hidle : s.caller = .idle) :
    Inv (State.log { s with caller := .draining } .cleanedAll) := by
  have hnosave : ∀ k, ¬ s.caller.saves k := fun k => by rw [hidle]; exact id
  exact
  { h with
    buffered := by
      rintro k v (heq | heq) <;> cases heq
    apart := fun k hk => hk.elim
    kept := fun k v hk => (h.kept k v hk).imp_right fun _ => .inr trivial
    lock := by simp [State.log, Caller.holds]
    drained := by simp [State.log]
    marks := fun r n t hm => ⟨(h.marks r n t hm).1, .inr trivial⟩
    stage := fun i stage hw =>
      (h.stage i stage hw).mono Iff.rfl rfl rfl id (fun _ => trivial) (fun _ => trivial) id id
    known := fun k e _ => .inr (.inr trivial)
    gone := fun i _ _ => rfl
    file := fun k v _ => .inr (.inr trivial)
    older := fun k hk => hk.elim
    cur := fun k v hc => by cases hc
    fresh := fun k v _ hc => by cases hc
    written := fun k v _ hc => by cases hc
    cleaning := fun k hk => hk.elim
    cleanedAll := fun _ k => rfl
    quiet := by
      rintro r (hswept | hcall | hcall)
      · exact h.quiet r (.inl hswept)
      · cases hcall
      · cases hcall
    timedOut := fun hk => by cases hk
    loading := fun k v hk => by cases hk }

theorem Inv.drain {rest : List (Item ρ α)} (h : Inv s) (hdraining : s.caller = .draining)
    (hqueue : s.queue = i :: rest) : Inv { s with queue := rest } := by
  have hsub : (s.writer.touching ++ rest).Sublist s.touching := by
    rw [State.touching, hqueue]
    exact List.Sublist.append_left (List.sublist_cons_self _ _) _
  have hsub' : (s.writer.owing ++ rest).Sublist s.owing := by
    rw [State.owing, hqueue]
    exact List.Sublist.append_left (List.sublist_cons_self _ _) _
  exact
  { h with
    keys := List.Nodup.sublist (hsub.map _) h.keys
    apart := fun k hk j hj => h.apart k hk j (hsub.subset hj)
    content := fun j hj => h.content j (hsub.subset hj)
    kept := by
      intro k v _
      refine .inr (.inr ?_)
      change s.caller.wipes
      rw [hdraining]
      trivial
    fifo := h.fifo.sublist hsub'
    drained := by simp [hdraining]
    marks := by
      intro r n t hm
      refine ⟨(h.marks r n t hm).1, .inr ?_⟩
      change s.caller.clearsMarks r
      rw [hdraining]
      trivial
    stage := fun j stage hw => (h.stage j stage hw).mono Iff.rfl rfl rfl id id id id id
    gone := fun j hj => h.gone j (hsub.subset hj) }

theorem Inv.clear (h : Inv s) (hclearing : s.caller = .clearing acquired) :
    Inv { s with pending := Dict.empty, caller := .unmarkingAll acquired } := by
  have hnone : ∀ k, current k s.events = none := by
    refine h.cleanedAll ?_
    rw [hclearing]
    trivial
  have hdead : ∀ k, ¬ State.Live { s with pending := Dict.empty, caller := .unmarkingAll acquired } k :=
    fun k => not_live_iff.2 rfl
  have hnocur : ∀ {k v} {P : Prop}, current k s.events = some v → P := by
    intro k v P hc
    rw [hnone] at hc
    cases hc
  have hlock := h.lock
  have htimedOut := h.timedOut
  rw [hclearing] at hlock htimedOut
  exact
  { h with
    buffered := by
      rintro k v (heq | heq) <;> cases heq
    apart := fun k hk => hk.elim
    content := fun i _ e he => by cases he
    kept := fun k v hk => by cases hk
    fifo := by
      refine h.fifo.imp ?_
      intro i j _ _ hl
      exact absurd hl (hdead _)
    lock := hlock
    drained := by simp
    marks := by
      intro r n t hm
      refine ⟨(h.marks r n t hm).1, (h.marks r n t hm).2.imp ?_ ?_⟩
      · intro hle
        refine Nat.le_trans hle (Nat.add_le_add_left (List.countP_mono_left fun i _ hi => ?_) _)
        simp only [decide_eq_true_eq] at hi ⊢
        exact ⟨hi.1, hdead _⟩
      · rw [hclearing]
        cases acquired with
        | false => exact False.elim
        | true => exact id
    stage := by
      intro i stage hw
      replace hw : s.writer = .busy i stage := hw
      cases acquired with
      | true =>
        have hfree := hlock rfl
        rw [hw] at hfree
        cases hfree
      | false =>
        have hst := h.stage i stage hw
        have hold := (htimedOut rfl).2 i stage hw
        exact hst.dead (hdead _) (fun hb hm => hm (hold (.inr hb))) id (.inr trivial) (.inr trivial)
    known := fun k e he => by cases he
    gone := fun i _ _ => hnone _
    leftover := fun k v hk => by cases hk
    file := fun k v _ => .inr (.inr trivial)
    older := fun k hk => hk.elim
    cur := fun k v hc => hnocur hc
    fresh := fun k v _ hc => hnocur hc
    written := fun k v _ hc => hnocur hc
    cleaning := fun k hk => hk.elim
    cleanedAll := fun _ => hnone
    quiet := by
      rintro r (hswept | hcall | hcall)
      · have hq := h.quiet r (.inl hswept)
        exact ⟨fun k hk => ⟨hdead k, (hq.1 k hk).2⟩, hq.2⟩
      · cases hcall
      · cases hcall
    timedOut := fun hk => by cases hk
    loading := fun k v hk => by cases hk }

theorem Inv.unmarkAll (h : Inv s) (hunmarking : s.caller = .unmarkingAll acquired) :
    Inv { s with cancelled := if acquired then fun _ => none else s.cancelled, caller := .removingAll acquired } := by
  have hlock := h.lock
  have hnone : ∀ k, current k s.events = none := by
    refine h.cleanedAll ?_
    rw [hunmarking]
    trivial
  rw [hunmarking] at hlock
  have hnosave : ∀ k, ¬ s.caller.saves k := fun k => by rw [hunmarking]; exact id
  have hnowipe : ¬ s.caller.wipes := by rw [hunmarking]; exact id
  exact
  { h with
    buffered := by
      rintro k v (heq | heq) <;> cases heq
    apart := fun k hk => hk.elim
    kept := fun k v hk => .inl (h.kept_of (hnosave k) hnowipe hk)
    lock := hlock
    drained := by simp
    marks := by
      intro r n t hm
      cases acquired with
      | true => cases hm
      | false =>
        refine ⟨(h.marks r n t hm).1, .inl ((h.marks r n t hm).2.resolve_right ?_)⟩
        rw [hunmarking]
        exact id
    stage := by
      intro i stage hw
      replace hw : s.writer = .busy i stage := hw
      cases acquired with
      | true =>
        have hfree := hlock rfl
        rw [hw] at hfree
        cases hfree
      | false =>
        exact (h.stage i stage hw).mono Iff.rfl rfl rfl id (fun _ => trivial) (fun hw => absurd hw hnowipe) id id
    known := fun k e he => .inl (h.known_of (hnosave k) hnowipe he)
    file := fun k v _ => .inr (.inr trivial)
    older := fun k hk => hk.elim
    cur := fun k v hc => by cases (hnone k).symm.trans hc
    fresh := fun k v _ hc => by cases (hnone k).symm.trans hc
    written := fun k v _ hc => by cases (hnone k).symm.trans hc
    cleaning := fun k hk => hk.elim
    cleanedAll := fun _ => hnone
    quiet := by
      rintro r (hswept | hcall | hcall)
      · exact h.quiet r (.inl hswept)
      · cases hcall
      · cases hcall
    timedOut := fun hk => by cases hk
    loading := fun k v hk => by cases hk }

theorem Inv.removeAll (h : Inv s) (hremoving : s.caller = .removingAll acquired) :
    Inv { s with files := fun _ => none, temps := fun _ => false,
                 caller := if acquired then .releasingAll else .idle } := by
  have hlock := h.lock
  have hnone : ∀ k, current k s.events = none := by
    refine h.cleanedAll ?_
    rw [hremoving]
    trivial
  rw [hremoving] at hlock
  have hnosave : ∀ k, ¬ s.caller.saves k := fun k => by rw [hremoving]; exact id
  have hnowipe : ¬ s.caller.wipes := by rw [hremoving]; exact id
  have hdead : ∀ k, ¬ s.Live k := by
    intro k hl
    obtain ⟨e, he⟩ := live_iff.1 hl
    cases (hnone k).symm.trans (h.known_of (hnosave k) hnowipe he)
  have hcalls : ∀ P : Caller ρ α → Prop, P .releasingAll → P .idle → P (if acquired then .releasingAll else .idle) := by
    intro P hr hi
    cases acquired
    · exact hi
    · exact hr
  exact
  { h with
    buffered := fun k v => hcalls (fun c => c = .saving k v ∨ c = .putting k v → _) (by simp) (by simp)
    apart := fun k => hcalls (fun c => c.saves k → _) (by exact False.elim) (by exact False.elim)
    kept := fun k v hk => absurd (live_iff.2 ⟨_, hk⟩) (hdead k)
    lock := by
      intro hholds
      cases acquired with
      | false => cases hholds
      | true => exact hlock rfl
    drained := hcalls (fun c => c = .waitingAll ∨ (∃ acquired, c = .clearing acquired) → _) (by simp) (by simp)
    marks := by
      intro r n t hm
      refine ⟨(h.marks r n t hm).1, .inl ((h.marks r n t hm).2.resolve_right ?_)⟩
      rw [hremoving]
      exact id
    stage := fun i stage hw =>
      (h.stage i stage hw).dead (hdead _) (fun _ hm => hm (hdead _)) id (.inl rfl) (.inl rfl)
    temps := fun k hk => by cases hk
    known := fun k e he => absurd (live_iff.2 ⟨e, he⟩) (hdead k)
    leftover := fun k v _ => rfl
    file := fun k v hf => by cases hf
    older := fun k _ v hf => by cases hf
    cur := fun k v hc => by cases (hnone k).symm.trans hc
    fresh := fun k v _ hc => by cases (hnone k).symm.trans hc
    written := fun k v hf => by cases hf
    cleaning := fun k => hcalls (fun c => c.cleans k.1 → _) (by exact False.elim) (by exact False.elim)
    cleanedAll := fun _ => hnone
    quiet := by
      intro r hr
      have hq := h.quiet r
      rcases hr with hswept | hcall
      · exact ⟨fun k hk => ⟨((hq (.inl hswept)).1 k hk).1, rfl, rfl⟩, (hq (.inl hswept)).2⟩
      · revert hcall
        exact hcalls (fun c => c = .releasing r ∨ c = .unmarking r → _) (by simp) (by simp)
    timedOut := hcalls (fun c => c = .clearing false → _) (by simp) (by simp)
    loading := fun k v => hcalls (fun c => c = .loading k → _) (by simp) (by simp) }

end FusionMlx.SnapshotStore
