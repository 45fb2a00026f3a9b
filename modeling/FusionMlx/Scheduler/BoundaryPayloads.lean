import FusionMlx.Scheduler.BoundarySnapshots

/-!
# Recurrent state in the payload of a cleanup

Every snapshot a request keeps belongs to its count as long as a capture finds
all returned tokens recorded. The payload is then right when its last readable
snapshot has every state, or the final cache belongs to the stored sequence.
-/
namespace FusionMlx.BoundarySnapshots

open OrderedDict Runs

variable {τ : Type} {cfg : Config}

def Absorbed (cfg : Config) (c : States τ) (tokens : List τ) : Prop :=
  ∀ (i : Nat) (l : Layer), cfg.layers[i]? = some l → l.sliceable = false → ∀ ts, (c)[i]? = some (some ts) → ts = tokens

/-- Every layer that is not sliceable has a state. -/
def Whole (cfg : Config) (c : States τ) : Prop :=
  ∀ (i : Nat) (l : Layer), cfg.layers[i]? = some l → l.sliceable = false → ∃ ts, (c)[i]? = some (some ts)

theorem absorbed_nil (tokens : List τ) : Absorbed cfg [] tokens := by
  intro i l _ _ ts hts
  simp at hts

theorem absorbed_liveCache (tokens : List τ) : Absorbed cfg (liveCache cfg tokens) tokens := by
  intro i l hl _ ts hts
  simp only [liveCache, List.getElem?_map, hl, Option.map_some, Option.some.injEq] at hts
  exact hts.symm

theorem absorbed_snapshotCache (tokens : List τ) : Absorbed cfg (snapshotCache cfg tokens) tokens := by
  intro i l hl hs ts hts
  simp [snapshotCache, hl, hs] at hts
  exact hts.symm

variable {c : States τ} {tokens : List τ}

theorem Absorbed.extract (h : Absorbed cfg c tokens) (works : Bool) :
    Absorbed cfg (extractCacheStates c works) tokens := by
  cases works with
  | true => exact h
  | false => exact absorbed_nil tokens

theorem Absorbed.read {v : Saved τ} (h : Absorbed cfg v.extracted tokens) :
    Absorbed cfg (v.read cfg) tokens := by
  unfold Saved.read
  split
  · intro i l hl hs ts hts
    rw [List.getElem?_zipWith, hl] at hts
    cases hc : v.extracted[i]? with
    | none => simp [hc] at hts
    | some x =>
      simp only [hc, Option.some.injEq] at hts
      split at hts
      · exact h i l hl hs ts (hc.trans (congrArg some hts))
      · exact nomatch hts
  · exact h

/-- A placeholder is filled from the full cache, so that cache has to belong to the sequence too
unless there is nothing to fill. -/
theorem Absorbed.merge {b full : States τ} (hb : Absorbed cfg b tokens)
    (h : Whole cfg b ∨ Absorbed cfg full tokens) :
    Absorbed cfg (Request.mergeBoundaryWithFullCache b full) tokens := by
  unfold Request.mergeBoundaryWithFullCache
  split
  · exact hb
  · intro i l hl hs ts hts
    rw [List.getElem?_zipWith] at hts
    cases hbi : b[i]? with
    | none => simp [hbi] at hts
    | some x =>
      cases hfi : full[i]? with
      | none => simp [hbi, hfi] at hts
      | some y =>
        simp only [hbi, hfi, Option.some.injEq] at hts
        cases x with
        | some state => exact hb i l hl hs ts (hbi.trans (congrArg some hts))
        | none =>
          rcases h with h | h
          · obtain ⟨state, hstate⟩ := h i l hl hs
            rw [hbi] at hstate
            exact nomatch hstate
          · exact h i l hl hs ts (hfi.trans (congrArg some hts))

namespace Payload

/-- The state of every layer that is not sliceable was taken at the boundary it is stored for. -/
def AtItsBoundary (cfg : Config) (store : Dict Nat (Saved τ)) (p : Payload τ) : Prop :=
  Absorbed cfg p.cache p.tokenSequence ∧
    ∀ q, p.intermediate = some q → ∀ tc ∈ q.validTcs, tc ≤ p.tokenSequence.length ∧
      ∀ c, Request.provided cfg q store tc = some c → Absorbed cfg c (p.tokenSequence.take tc)

end Payload

namespace Request

def Storable (s : Request τ) (tc : Nat) : Prop := s.needsThinkPrefix = false ∨ tc ≤ s.prompt.length

def Captures (cfg : Config) (s : Request τ) (r : Response τ) : Prop :=
  r.reason = none ∧ captureDue cfg (s.record r) = true ∧ detectBoundarySnapshotNeed cfg (s.record r) = true ∧
    r.extracts = true

def LastBoundary (cfg : Config) (s : Request τ) (full : List τ) (tc : Nat) : Prop :=
  (tc ∈ s.snapshots.keys ∧ 0 < tc ∧ tc ≤ full.length ∧ tc % cfg.blockSize = 0) ∧
    ∀ tc', tc' ∈ s.snapshots.keys → 0 < tc' → tc' ≤ full.length → tc' % cfg.blockSize = 0 → tc' ≤ tc

def Stores (cfg : Config) (s : Request τ) : Prop :=
  s.prompt.isEmpty = false ∧ cfg.blockAware = true ∧ s.extractedCache.isSome

/-- A capture whose snapshot can be used comes when every returned token is recorded. At a cleanup
that stores something the last snapshot is readable and either has every state or ends where the
final cache ends; without a readable one the final cache ends where the stored sequence ends. -/
def Settled (cfg : Config) (s : Request τ) : Event τ → Prop
  | .respond => ∀ r rest, s.handed = r :: rest → Captures cfg s r → s.Storable (s.record r).numTokens →
      (s.record r).output = s.returned
  | .cleanup works => Stores cfg s →
    (∀ tc c, LastBoundary cfg s s.cacheableSequence tc → readSnapshot cfg s works tc = some c →
      Whole cfg c ∨ s.prompt ++ s.returned = s.cacheableSequence.take tc) ∧
    ((∀ tc, LastBoundary cfg s s.cacheableSequence tc → readSnapshot cfg s works tc = none) →
      s.prompt ++ s.returned = s.cacheableSequence)
  | _ => True

/-- A snapshot kept for `tc` has absorbed the first `tc` tokens recorded for the request. -/
def Belongs (cfg : Config) (s : Request τ) (tc : Nat) (c : States τ) : Prop :=
  s.Storable tc → tc ≤ s.numTokens ∧ Absorbed cfg c ((s.prompt ++ s.output).take tc)

structure Handed (cfg : Config) (s : Request τ) (p : Payload τ) : Prop where
  stopped : s.running = false
  tokens : p.tokenSequence <+: s.prompt ++ s.output
  cache : Absorbed cfg p.cache p.tokenSequence
  counts : ∀ q, p.intermediate = some q → ∀ tc ∈ q.validTcs, tc ≤ p.tokenSequence.length ∧ s.Storable tc
  inMemory : ∀ q, p.intermediate = some q → ∀ tc ∈ q.validTcs, ∀ c, q.inMemory.get? tc = some c →
    Absorbed cfg c (p.tokenSequence.take tc)

structure Inv (cfg : Config) (s : Request τ) : Prop where
  prefilled : s.prefilled ≤ s.prompt.length
  snapshots : ∀ tc c, s.snapshots.get? tc = some (some c) → Belongs cfg s tc c
  store : ∀ tc v, s.store.get? tc = some v → Belongs cfg s tc v.extracted
  closing : s.extractedCache.isSome → s.closing = true
  extracted : ∀ c, s.extractedCache = some c → Absorbed cfg c (s.prompt ++ s.returned)
  payload : ∀ p, s.payload = some p → Handed cfg s p

variable {s : Request τ}

theorem Belongs.grow {s' : Request τ} {tc : Nat} (h : Belongs cfg s tc c)
    (hp : s'.prompt = s.prompt) (ht : s'.needsThinkPrefix = s.needsThinkPrefix) (ho : s.output <+: s'.output) :
    Belongs cfg s' tc c := by
  intro hs
  have hs' : s.Storable tc := by
    unfold Storable at hs ⊢
    rwa [ht, hp] at hs
  obtain ⟨hle, habs⟩ := h hs'
  obtain ⟨more, hmore⟩ := ho
  unfold numTokens at hle ⊢
  rw [hp, ← hmore]
  refine ⟨by rw [List.length_append]; omega, ?_⟩
  rw [← List.append_assoc, List.take_append_of_le_length (by rw [List.length_append]; exact hle)]
  exact habs

theorem appendOutputToken_output (s : Request τ) (t : τ) :
    ∃ o, s.output <+: o ∧ s.appendOutputToken t = { s with output := o } := by
  unfold appendOutputToken
  split
  · exact ⟨s.output, List.prefix_rfl, rfl⟩
  · exact ⟨s.output ++ [t], List.prefix_append .., rfl⟩

theorem record_output (s : Request τ) (r : Response τ) :
    ∃ o, s.output <+: o ∧ s.record r = { s with output := o } := by
  unfold record
  split
  · exact appendOutputToken_output s r.token
  · exact ⟨s.output, List.prefix_rfl, rfl⟩

theorem record_handed (s : Request τ) (r : Response τ) (l : List (Response τ)) :
    ({ s with handed := l } : Request τ).record r = { s.record r with handed := l } := by
  simp only [record, appendOutputToken]
  split
  · split <;> rfl
  · rfl

theorem acceptTokens_output (l : List (τ × Bool)) : ∀ s : Request τ, ∃ o f c, s.output <+: o ∧
    acceptTokens s l = { s with output := o, finished := f, closing := c } := by
  induction l with
  | nil => exact fun s => ⟨s.output, s.finished, s.closing, List.prefix_rfl, rfl⟩
  | cons e rest ih =>
    obtain ⟨token, last⟩ := e
    intro s
    obtain ⟨o, ho, hs⟩ := appendOutputToken_output s token
    simp only [acceptTokens, hs]
    cases last with
    | true =>
      obtain ⟨o', f, c, ho', h⟩ := ih { s with output := o, finished := true, closing := true }
      exact ⟨o', f, c, ho.trans ho', h⟩
    | false =>
      obtain ⟨o', f, c, ho', h⟩ := ih { s with output := o }
      exact ⟨o', f, c, ho.trans ho', h⟩

/-- What is left alone: the kept snapshots, the store, the final cache and the payload. -/
theorem Inv.grow (h : Inv cfg s) {o : List τ} (ho : s.output <+: o) (f : Bool) {c : Bool}
    (hc : s.extractedCache.isSome → c = true) (l : List (Response τ)) (n : Option Bool) (e : Int) (i : Bool) :
    Inv cfg { s with output := o, finished := f, closing := c, handed := l, required := n, emitted := e, inserted := i } where
  prefilled := h.prefilled
  snapshots tc c hget := (h.snapshots tc c hget).grow rfl rfl ho
  store tc v hget := (h.store tc v hget).grow rfl rfl ho
  closing := hc
  extracted := h.extracted
  payload p hp := by
    obtain ⟨hstop, htokens, hcache, hcounts, hmem⟩ := h.payload p hp
    obtain ⟨more, rfl⟩ := ho
    refine ⟨hstop, ?_, hcache, hcounts, hmem⟩
    rw [← List.append_assoc]
    exact htokens.trans (List.prefix_append ..)

theorem Inv.record (h : Inv cfg s) (r : Response τ) : Inv cfg (s.record r) := by
  obtain ⟨o, ho, hs⟩ := record_output s r
  rw [hs]
  exact h.grow ho s.finished h.closing s.handed s.required s.emitted s.inserted

theorem Inv.setSnapshots (h : Inv cfg s) {tc : Nat} {m : Option (States τ)}
    (hm : ∀ c, m = some c → Belongs cfg s tc c) : Inv cfg { s with snapshots := s.snapshots.set tc m } where
  prefilled := h.prefilled
  snapshots tc' c hget := by
    rw [Dict.get?_set] at hget
    split at hget
    · rename_i he
      subst he
      exact hm c (Option.some.inj hget)
    · exact h.snapshots tc' c hget
  store := h.store
  closing := h.closing
  extracted := h.extracted
  payload p hp := { h.payload p hp with }

theorem Inv.setStore (h : Inv cfg s) {store : Dict Nat (Saved τ)}
    (hm : ∀ tc v, store.get? tc = some v → Belongs cfg s tc v.extracted) : Inv cfg { s with store := store } where
  prefilled := h.prefilled
  snapshots := h.snapshots
  store := hm
  closing := h.closing
  extracted := h.extracted
  payload p hp := { h.payload p hp with }

theorem Inv.eraseStore (h : Inv cfg s) (tc : Nat) :
    Inv cfg { s with store := s.store.erase tc } :=
  h.setStore fun tc' v hget => h.store tc' v (Dict.get?_of_erase hget)

theorem Inv.keepSnapshot (h : Inv cfg s) {tc : Nat} (hc : Belongs cfg s tc c)
    (saving : Saving) : Inv cfg (keepSnapshot cfg s tc c saving) := by
  have hcopy : Inv cfg { s with snapshots := s.snapshots.set tc (some c) } :=
    h.setSnapshots fun c' he => by cases he; exact hc
  unfold Request.keepSnapshot
  split
  · cases saving with
    | refused => exact hcopy
    | dropped =>
      apply hcopy.setStore
      intro tc' v hget
      split at hget
      · exact h.store tc' v hget
      · exact h.store tc' v (Dict.get?_of_erase hget)
    | enqueued =>
      have hmarked : Inv cfg { s with snapshots := s.snapshots.set tc none } :=
        h.setSnapshots (by rintro _ ⟨⟩)
      apply hmarked.setStore
      intro tc' v hget
      rw [Dict.get?_set] at hget
      split at hget
      · rename_i he
        subst he
        cases hget
        exact hc
      · exact h.store tc' v hget
  · exact hcopy

theorem Inv.onPrefillBoundarySnapshot (h : Inv cfg s) {tc : Nat} (hle : tc ≤ s.prompt.length)
    (saving : Saving) : Inv cfg (onPrefillBoundarySnapshot cfg s tc (s.prompt.take tc) saving) := by
  have hbelongs : Belongs cfg s tc (snapshotCache cfg (s.prompt.take tc)) := by
    intro _
    refine ⟨by unfold numTokens; omega, ?_⟩
    rw [List.take_append_of_le_length hle]
    exact absorbed_snapshotCache _
  have hkept : Inv cfg (Request.keepSnapshot cfg s tc (snapshotCache cfg (s.prompt.take tc)) saving) :=
    h.keepSnapshot hbelongs saving
  unfold Request.onPrefillBoundarySnapshot
  split
  · exact h
  · split
    · exact h
    · split
      · exact h
      · split
        · exact h
        · exact hkept.grow List.prefix_rfl _ hkept.closing _ _ _ _

theorem Inv.emitPrefill (h : Inv cfg s) (saving : Saving) : Inv cfg (emitPrefill cfg s saving) := by
  unfold Request.emitPrefill
  split
  · have hkept := h.onPrefillBoundarySnapshot h.prefilled saving
    exact hkept.grow List.prefix_rfl _ hkept.closing _ _ _ _
  · exact h

/-- The count is the request's and the state the generator's, and the two agree when all is recorded. -/
theorem belongs_of_recorded (h : s.Storable s.numTokens → s.output = s.returned) :
    Belongs cfg s s.numTokens (snapshotCache cfg (s.prompt ++ s.returned)) := by
  intro hs
  refine ⟨Nat.le_refl _, ?_⟩
  rw [← h hs, List.take_of_length_le (by rw [List.length_append]; exact Nat.le_refl _)]
  exact absorbed_snapshotCache _

theorem Inv.maybeCapture (h : Inv cfg s) (r : Response τ)
    (hc : captureDue cfg s = true → detectBoundarySnapshotNeed cfg s = true → r.extracts = true →
      s.Storable s.numTokens → s.output = s.returned) :
    Inv cfg (maybeCaptureBoundarySnapshot cfg s r) := by
  have hdetected : Inv cfg { s with required := some (detectBoundarySnapshotNeed cfg s) } :=
    h.grow List.prefix_rfl _ h.closing _ _ _ _
  unfold maybeCaptureBoundarySnapshot
  split
  · rename_i hdue
    dsimp only
    split
    · rename_i hboth
      simp only [Bool.and_eq_true] at hboth
      exact hdetected.keepSnapshot (belongs_of_recorded (hc hdue hboth.1.1 hboth.1.2)) r.saving
    · exact hdetected
  · exact h

theorem Inv.finish (h : Inv cfg s) (r : Response τ) (reason : FinishReason) :
    Inv cfg (finish cfg s r reason) := by
  obtain ⟨hpre, hsnap, hstore, hclosing, hextracted, hpayload⟩ :=
    h.grow (List.prefix_rfl : s.output <+: s.output) (s.finished || reason != .other) (fun _ => rfl)
      s.handed s.required s.emitted s.inserted
  refine ⟨hpre, hsnap, hstore, fun _ => rfl, ?_, fun p hp => { hpayload p hp with }⟩
  intro c hget
  simp only [Request.finish] at hget
  split at hget
  · exact h.extracted c hget
  · cases hget
    exact (absorbed_liveCache _).extract _

theorem Inv.processResponse (h : Inv cfg s) (r : Response τ)
    (hc : Captures cfg s r → s.Storable (s.record r).numTokens → (s.record r).output = s.returned) :
    Inv cfg (processResponse cfg s r) := by
  have hrec := h.record r
  obtain ⟨o, _, hs⟩ := record_output s r
  unfold Request.processResponse
  split
  · rename_i hreason
    apply hrec.maybeCapture
    intro hdue hneed hext hstorable
    rw [hs] at hstorable
    rw [hc ⟨hreason, hdue, hneed, hext⟩ (by rw [hs]; exact hstorable), hs]
  · exact hrec.finish r _

theorem Inv.acceptTokens (h : Inv cfg s) (hno : s.extractedCache = none) (l : List (τ × Bool)) :
    Inv cfg (acceptTokens s l) := by
  obtain ⟨o, f, c, ho, hs⟩ := acceptTokens_output l s
  rw [hs]
  exact h.grow ho f (fun hsome => by rw [hno] at hsome; exact nomatch hsome) _ _ _ _

variable {full : List τ}

theorem mem_validCounts {tc : Nat} : tc ∈ validCounts cfg s full ↔
    tc ∈ s.snapshots.keys ∧ 0 < tc ∧ tc ≤ full.length ∧ tc % cfg.blockSize = 0 := by
  simp [validCounts, List.mem_mergeSort]

/-- The last of the sorted counts is the last boundary. -/
theorem lastBoundary_of_getLast {tc : Nat}
    (h : (validCounts cfg s full).getLast? = some tc) : LastBoundary cfg s full tc := by
  refine ⟨mem_validCounts.mp (List.mem_of_getLast? h), fun tc' hk hpos hle hmod => ?_⟩
  have hmem : tc' ∈ validCounts cfg s full := mem_validCounts.mpr ⟨hk, hpos, hle, hmod⟩
  have hsorted : (validCounts cfg s full).Pairwise (· ≤ ·) := by
    have hbool := @List.pairwise_mergeSort Nat (fun a b => decide (a ≤ b))
      (fun a b c hab hbc => by simp only [decide_eq_true_eq] at hab hbc ⊢; exact Nat.le_trans hab hbc)
      (fun a b => by simp only [Bool.or_eq_true, decide_eq_true_eq]; exact Nat.le_total a b)
      (s.snapshots.keys.filter fun tc => 0 < tc ∧ tc ≤ full.length ∧ tc % cfg.blockSize = 0)
    exact hbool.imp fun hab => of_decide_eq_true hab
  obtain ⟨front, hfront⟩ := List.getLast?_eq_some_iff.mp h
  rw [hfront] at hmem hsorted
  rcases List.mem_append.mp hmem with hm | hm
  · exact (List.pairwise_append.mp hsorted).2.2 tc' hm tc (List.mem_singleton_self tc)
  · exact Nat.le_of_eq (List.mem_singleton.mp hm)

theorem validCounts_eq_nil (h : (validCounts cfg s full).getLast? = none)
    (tc : Nat) : ¬ LastBoundary cfg s full tc := by
  intro hlast
  have hmem := mem_validCounts.mpr hlast.1
  rw [List.getLast?_eq_none_iff.mp h] at hmem
  exact nomatch hmem

theorem LastBoundary.unique {a b : Nat} (ha : LastBoundary cfg s full a)
    (hb : LastBoundary cfg s full b) : a = b :=
  Nat.le_antisymm (hb.2 a ha.1.1 ha.1.2.1 ha.1.2.2.1 ha.1.2.2.2) (ha.2 b hb.1.1 hb.1.2.1 hb.1.2.2.1 hb.1.2.2.2)

/-- The override uses the last boundary, when its snapshot can be read. -/
theorem getBoundaryStoreOverride_cases (cfg : Config) (s : Request τ) (full : List τ) (works : Nat → Bool) :
    (getBoundaryStoreOverride cfg s full works = none ∧
      ∀ tc, LastBoundary cfg s full tc → readSnapshot cfg s works tc = none) ∨
    ∃ tc c, LastBoundary cfg s full tc ∧ readSnapshot cfg s works tc = some c ∧
      getBoundaryStoreOverride cfg s full works = some (full.take tc, c,
        ⟨(validCounts cfg s full).filter (· != tc),
          preExtracted s works ((validCounts cfg s full).filter (· != tc))⟩) := by
  unfold getBoundaryStoreOverride
  cases hlast : (validCounts cfg s full).getLast? with
  | none => exact .inl ⟨rfl, fun tc h => absurd h (validCounts_eq_nil hlast tc)⟩
  | some latest =>
    have hl := lastBoundary_of_getLast hlast
    cases hread : readSnapshot cfg s works latest with
    | none =>
      refine .inl ⟨by simp only [hread], fun tc h => ?_⟩
      rw [h.unique hl]
      exact hread
    | some c =>
      refine .inr ⟨latest, c, hl, hread, ?_⟩
      have htake : (if latest < full.length then full.take latest else full) = full.take latest := by
        split
        · rfl
        · rename_i hn
          exact (List.take_of_length_le (Nat.le_of_not_lt hn)).symm
      simp only [hread, htake]

variable {works : Nat → Bool}

theorem Inv.readSnapshot (h : Inv cfg s) {tc : Nat}
    (hs : s.Storable tc) (hread : readSnapshot cfg s works tc = some c) :
    Absorbed cfg c ((s.prompt ++ s.output).take tc) := by
  unfold Request.readSnapshot at hread
  split at hread
  · exact nomatch hread
  · rename_i snapshot hget
    dsimp only at hread
    split at hread
    · exact nomatch hread
    · cases hread
      exact ((h.snapshots tc snapshot hget) hs).2.extract _
  · split at hread
    · obtain ⟨hload, _⟩ := Option.filter_eq_some_iff.mp hread
      unfold load at hload
      obtain ⟨v, hv, rfl⟩ := Option.map_eq_some_iff.mp hload
      exact ((h.store tc v hv) hs).2.read
    · exact nomatch hread

theorem Inv.preExtracted (h : Inv cfg s) (works : Nat → Bool) {tcs : List Nat} {tc : Nat}
    (hs : s.Storable tc) (hget : (preExtracted s works tcs).get? tc = some c) :
    Absorbed cfg c ((s.prompt ++ s.output).take tc) := by
  induction tcs with
  | nil => exact nomatch hget
  | cons t rest ih =>
    unfold Request.preExtracted at hget
    split at hget
    · rename_i snapshot hsnap
      dsimp only at hget
      split at hget
      · exact ih hget
      · rw [Dict.get?_set] at hget
        split at hget
        · rename_i he
          subst he
          cases hget
          exact ((h.snapshots tc snapshot hsnap) hs).2.extract _
        · exact ih hget
    · exact ih hget

theorem cacheableSequence_isPrefix (s : Request τ) : s.cacheableSequence <+: s.prompt ++ s.output := by
  unfold cacheableSequence
  split
  · exact List.prefix_append ..
  · exact List.prefix_rfl

/-- A count the stored sequence reaches is storable. -/
theorem storable_of_le {tc : Nat} (h : tc ≤ s.cacheableSequence.length) : s.Storable tc := by
  unfold cacheableSequence at h
  split at h
  · exact .inr h
  · rename_i hn
    exact .inl (Bool.eq_false_iff.mpr hn)

theorem take_cacheable {tc : Nat} (h : tc ≤ s.cacheableSequence.length) :
    s.cacheableSequence.take tc = (s.prompt ++ s.output).take tc := by
  obtain ⟨more, hmore⟩ := cacheableSequence_isPrefix s
  rw [← hmore, List.take_append_of_le_length h]

theorem Inv.makePayload (h : Inv cfg s) {cache : States τ}
    (hc : s.extractedCache = some cache) (hstores : Stores cfg s) (hsettled : Settled cfg s (.cleanup works)) :
    Handed cfg { s with running := false, snapshots := Dict.empty } (makePayload cfg s cache works) := by
  have hfull := h.extracted cache hc
  obtain ⟨hused, hunused⟩ := hsettled hstores
  unfold Request.makePayload
  rcases getBoundaryStoreOverride_cases cfg s s.cacheableSequence works with ⟨hnone, hno⟩ | ⟨tc, c, hlast, hread, hsome⟩
  · simp only [hnone]
    refine ⟨rfl, cacheableSequence_isPrefix s, ?_, fun q hq => (nomatch hq), fun q hq => (nomatch hq)⟩
    rw [← hunused hno]
    exact hfull
  · simp only [hsome]
    have hle : tc ≤ s.cacheableSequence.length := hlast.1.2.2.1
    have hboundary : Absorbed cfg c (s.cacheableSequence.take tc) := by
      rw [take_cacheable hle]
      exact h.readSnapshot (storable_of_le hle) hread
    have hlength : (s.cacheableSequence.take tc).length = tc := List.length_take_of_le hle
    refine ⟨rfl, (List.take_prefix ..).trans (cacheableSequence_isPrefix s), ?_, ?_, ?_⟩
    · apply hboundary.merge
      rcases hused tc c hlast hread with hwhole | hends
      · exact .inl hwhole
      · right
        rw [← hends]
        exact hfull
    · intro q hq tc' htc'
      cases hq
      have hvalid := mem_validCounts.mp (List.mem_filter.mp htc').1
      rw [hlength]
      exact ⟨hlast.2 tc' hvalid.1 hvalid.2.1 hvalid.2.2.1 hvalid.2.2.2, storable_of_le hvalid.2.2.1⟩
    · intro q hq tc' htc' c' hget
      cases hq
      have hvalid := mem_validCounts.mp (List.mem_filter.mp htc').1
      have hlt : tc' ≤ tc := hlast.2 tc' hvalid.1 hvalid.2.1 hvalid.2.2.1 hvalid.2.2.2
      rw [List.take_take, Nat.min_eq_left hlt, take_cacheable hvalid.2.2.1]
      exact h.preExtracted works (storable_of_le hvalid.2.2.1) hget

theorem Inv.cleanupFinished (h : Inv cfg s)
    (hsettled : Settled cfg s (.cleanup works)) : Inv cfg (s.cleanupFinished cfg works) where
  prefilled := h.prefilled
  snapshots tc c hget := nomatch hget
  store := h.store
  closing := h.closing
  extracted := h.extracted
  payload p hp := by
    simp only [Request.cleanupFinished] at hp
    split at hp
    · exact nomatch hp
    · rename_i hguard
      have hprompt : s.prompt.isEmpty = false := by
        cases he : s.prompt.isEmpty with
        | true => rw [he] at hguard; simp at hguard
        | false => rfl
      have haware : cfg.blockAware = true := by
        cases ha : cfg.blockAware with
        | true => rfl
        | false => rw [ha] at hguard; simp at hguard
      obtain ⟨cache, hcache, rfl⟩ := Option.map_eq_some_iff.mp hp
      obtain ⟨hstop, htokens, habs, hcounts, hmem⟩ :=
        h.makePayload hcache ⟨hprompt, haware, by rw [hcache]; rfl⟩ hsettled
      exact ⟨hstop, htokens, habs, hcounts, hmem⟩

/-- Nothing is handed over by a running request. -/
theorem Inv.not_handed (h : Inv cfg s) (hrun : s.running = true) (p : Payload τ) : s.payload ≠ some p := by
  intro hp
  have hstop := (h.payload p hp).stopped
  rw [hrun] at hstop
  cases hstop

theorem Inv.waitAgain (h : Inv cfg s) (cached : Nat) (hrun : s.running = true)
    (ho : s.output = []) : Inv cfg (s.waitAgain cached) where
  prefilled := by simp only [Request.waitAgain]; omega
  snapshots tc c hget := (h.snapshots tc c hget).grow rfl rfl (by rw [ho]; exact List.prefix_rfl)
  store tc v hget := (h.store tc v hget).grow rfl rfl (by rw [ho]; exact List.prefix_rfl)
  closing hsome := nomatch hsome
  extracted c hget := nomatch hget
  payload p hp := absurd hp (h.not_handed hrun p)

/-- A cleared request starts again with nothing kept. -/
theorem inv_cleared (h : Inv cfg s) (cached : Nat) (hrun : s.running = true) :
    Inv cfg { s.waitAgain cached with required := none, snapshots := Dict.empty, store := Dict.empty } where
  prefilled := by simp only [Request.waitAgain]; omega
  snapshots tc c hget := nomatch hget
  store tc v hget := nomatch hget
  closing hsome := nomatch hsome
  extracted c hget := nomatch hget
  payload p hp := absurd hp (h.not_handed hrun p)

/-- More tokens are returned while no final cache is kept. -/
theorem Inv.returnMore (h : Inv cfg s) (hrun : s.running = true) (hopen : s.closing = false)
    (more : List τ) : Inv cfg { s with returned := s.returned ++ more } ∧ s.extractedCache = none := by
  have hnone : s.extractedCache = none := by
    cases hc : s.extractedCache with
    | none => rfl
    | some c =>
      have hclosing := h.closing (by rw [hc]; rfl)
      rw [hopen] at hclosing
      exact nomatch hclosing
  refine ⟨⟨h.prefilled, h.snapshots, h.store, h.closing, ?_, fun p hp => absurd hp (h.not_handed hrun p)⟩, hnone⟩
  intro c hget
  rw [hnone] at hget
  exact nomatch hget

theorem Inv.advance (h : Inv cfg s) (n : Nat) : Inv cfg (s.advance n) where
  prefilled := by
    have := h.prefilled
    simp only [Request.advance]
    omega
  snapshots := h.snapshots
  store := h.store
  closing := h.closing
  extracted := h.extracted
  payload p hp := { h.payload p hp with }

theorem Inv.next (h : Inv cfg s) {e : Event τ} (hs : Settled cfg s e) : Inv cfg (next cfg s e) := by
  cases e with
  | prefill n saving =>
    simp only [Request.next]
    split
    · exact (h.advance n).emitPrefill saving
    · exact h
  | prefillEnd saving =>
    simp only [Request.next]
    split
    · exact h.emitPrefill saving
    · exact h
  | insert =>
    simp only [Request.next]
    split
    · exact h.grow List.prefix_rfl _ h.closing _ _ _ _
    · exact h
  | generate responses =>
    simp only [Request.next]
    split
    · rename_i hguard
      simp only [Bool.and_eq_true, Bool.not_eq_eq_eq_not, Bool.not_true] at hguard
      have hmore := (h.returnMore hguard.1.1.1 hguard.1.2 (responses.map (·.token))).1
      exact hmore.grow List.prefix_rfl _ hmore.closing _ _ _ _
    · exact h
  | respond =>
    simp only [Request.next]
    split
    · cases hh : s.handed with
      | nil => exact h
      | cons r rest =>
        have hpopped : Inv cfg { s with handed := rest } := h.grow List.prefix_rfl _ h.closing _ _ _ _
        apply hpopped.processResponse
        have hrec' : ({ s with handed := rest } : Request τ).record r = { s.record r with handed := rest } :=
          record_handed s r rest
        intro hcap hstorable
        have hsettled := hs r rest hh
        rw [hrec'] at hstorable ⊢
        unfold Captures at hcap
        rw [hrec'] at hcap
        exact hsettled hcap hstorable
    · exact h
  | skip =>
    simp only [Request.next]
    split
    · exact h.grow List.prefix_rfl _ h.closing _ _ _ _
    · exact h
  | accept tokens =>
    simp only [Request.next]
    split
    · rename_i hguard
      simp only [Bool.and_eq_true, Bool.not_eq_eq_eq_not, Bool.not_true] at hguard
      obtain ⟨hmore, hnone⟩ := h.returnMore hguard.1.1.1 hguard.1.2 (tokens.map Prod.fst)
      exact hmore.acceptTokens hnone tokens
    · exact h
  | written tc =>
    simp only [Request.next]
    split
    · exact h
    · rename_i saved hget
      apply h.setStore
      intro tc' v hget'
      rw [Dict.get?_set] at hget'
      split at hget'
      · rename_i he
        subst he
        cases hget'
        exact h.store _ saved hget
      · exact h.store tc' v hget'
  | lost tc => exact h.eraseStore tc
  | reschedule cached =>
    simp only [Request.next]
    split
    · rename_i hguard
      simp only [Bool.and_eq_true, List.isEmpty_iff] at hguard
      exact h.waitAgain cached hguard.1.1.1 hguard.1.1.2
    · exact h
  | recover cached =>
    simp only [Request.next]
    split
    · rename_i hrun
      exact inv_cleared h cached hrun
    · exact h
  | cleanup works =>
    simp only [Request.next]
    split
    · exact h.cleanupFinished hs
    · exact h

theorem inv_start (h : Start s) : Inv cfg s := by
  obtain ⟨prompt, thinks, cached, rfl⟩ := h
  exact ⟨by dsimp only; omega, fun _ _ hget => (nomatch hget), fun _ _ hget => (nomatch hget),
    fun hsome => (nomatch hsome), fun _ hget => (nomatch hget), fun _ hp => (nomatch hp)⟩

/-- What was handed over is at its boundary, whatever the store still holds of the snapshots. -/
theorem Inv.atItsBoundary (h : Inv cfg s) {p : Payload τ} (hp : s.payload = some p) :
    p.AtItsBoundary cfg s.store := by
  obtain ⟨_, htokens, hcache, hcounts, hmem⟩ := h.payload p hp
  refine ⟨hcache, fun q hq tc htc => ⟨(hcounts q hq tc htc).1, fun c hget => ?_⟩⟩
  unfold provided at hget
  split at hget
  · cases hget
    exact hmem q hq tc htc c ‹_›
  · split at hget
    · unfold load at hget
      obtain ⟨v, hv, rfl⟩ := Option.map_eq_some_iff.mp hget
      obtain ⟨more, hmore⟩ := htokens
      have hbelongs := ((h.store tc v hv) (hcounts q hq tc htc).2).2.read
      rwa [← hmore, List.take_append_of_le_length (hcounts q hq tc htc).1] at hbelongs
    · exact nomatch hget

/-- In every run whose captures and whose cleanup are settled, the payload's recurrent states belong
to the token sequence they are stored with, and so does every intermediate snapshot to its count. -/
theorem payload_atItsBoundary {s : Request τ} {p : Payload τ} (h : Reached Start (Settled cfg) (next cfg) s)
    (hp : s.payload = some p) : p.AtItsBoundary cfg s.store :=
  (h.invariant (fun _ hs => inv_start hs) fun _ _ _ hi hs => hi.next hs).atItsBoundary hp

def recurrent (blockSize : Nat) : Config :=
  { blockSize, layers := [⟨false, true, true, true⟩], blockAware := true, snapshotStore := true, makeCache := true }

def scheduled : Request Nat := { prompt := [1, 2, 3], needsThinkPrefix := true, prefilled := 0 }

def generation : List (Event Nat) :=
  [.prefill 2 .enqueued, .prefillEnd .enqueued, .insert,
    .generate [{ token := 4 }], .respond,
    .generate [{ token := 5, finishReason := some .length }], .respond]

def generated (blockSize : Nat) : Request Nat := runList (next (recurrent blockSize)) scheduled generation

/-- The first response is recorded before its capture, and the second finishes the request. -/
theorem generation_settled : AllOk (Settled (recurrent 2)) (next (recurrent 2)) scheduled generation := by
  refine ⟨trivial, trivial, trivial, trivial, ?_, trivial, ?_, trivial⟩
  · intro r rest hh _ _
    cases hh
    rfl
  · intro r rest hh hcap
    cases hh
    exact nomatch hcap.1

theorem validCounts_generated : validCounts (recurrent 2) (generated 2) [1, 2, 3] = [2] := by
  have hkeys : (generated 2).snapshots.keys = [2, 4] := rfl
  have hsize : (recurrent 2).blockSize = 2 := rfl
  simp [validCounts, hkeys, hsize]

/-- With blocks of two the snapshot of the prefill is stored. -/
theorem generated_atItsBoundary :
    ∃ p, (next (recurrent 2) (generated 2) (.cleanup fun _ => true)).payload = some p ∧
      p.tokenSequence = [1, 2] ∧
        p.AtItsBoundary (recurrent 2) (next (recurrent 2) (generated 2) (.cleanup fun _ => true)).store := by
  have hstart : Reached Start (Settled (recurrent 2)) (next (recurrent 2)) scheduled :=
    .start ⟨[1, 2, 3], true, 0, rfl⟩
  have hreached : Reached Start (Settled (recurrent 2)) (next (recurrent 2)) (generated 2) :=
    hstart.runList generation_settled
  have hseq : (generated 2).cacheableSequence = [1, 2, 3] := rfl
  have hread : readSnapshot (recurrent 2) (generated 2) (fun _ => true) 2 = some [some [1, 2]] := rfl
  have hsettled : Settled (recurrent 2) (generated 2) (.cleanup fun _ => true) := by
    intro _
    rw [hseq]
    refine ⟨fun tc c hlast hc => .inl ?_, fun hno => ?_⟩
    · have hmem := mem_validCounts.mpr hlast.1
      rw [validCounts_generated] at hmem
      rw [List.mem_singleton.mp hmem, hread] at hc
      cases hc
      intro i l hl _
      cases i with
      | zero => exact ⟨_, rfl⟩
      | succ i => exact nomatch hl
    · have hlast := @lastBoundary_of_getLast Nat (recurrent 2) (generated 2) [1, 2, 3] 2
        (by rw [validCounts_generated]; rfl)
      rw [hno 2 hlast] at hread
      exact nomatch hread
  have hpayload : (next (recurrent 2) (generated 2) (.cleanup fun _ => true)).payload =
      some (makePayload (recurrent 2) (generated 2) (liveCache (recurrent 2) [1, 2, 3, 4, 5]) fun _ => true) := rfl
  have hcleaned : Reached Start (Settled (recurrent 2)) (next (recurrent 2))
      (next (recurrent 2) (generated 2) (.cleanup fun _ => true)) := .step _ hreached hsettled
  refine ⟨_, hpayload, ?_, payload_atItsBoundary hcleaned hpayload⟩
  simp only [makePayload, getBoundaryStoreOverride, hseq, validCounts_generated, List.getLast?_singleton, hread]
  rfl

/-- With blocks of four a reasoning model's prompt of three tokens reaches no boundary, and the state after
the whole generation is handed over for the prompt alone. -/
theorem state_past_prompt : ∃ s : Request Nat, Reached Start (fun _ _ => True) (next (recurrent 4)) s ∧
    ∃ p, s.payload = some p ∧ p.tokenSequence = [1, 2, 3] ∧ p.cache = [some [1, 2, 3, 4, 5]] ∧
      ¬ p.AtItsBoundary (recurrent 4) s.store := by
  have hstart : Reached Start (fun _ _ => True) (next (recurrent 4)) scheduled :=
    .start ⟨[1, 2, 3], true, 0, rfl⟩
  have hreached : Reached Start (fun _ _ => True) (next (recurrent 4)) (generated 4) :=
    hstart.runList ⟨trivial, trivial, trivial, trivial, trivial, trivial, trivial, trivial⟩
  have hseq : (generated 4).cacheableSequence = [1, 2, 3] := rfl
  have hkeys : (generated 4).snapshots.keys = [4] := rfl
  have hvalid : validCounts (recurrent 4) (generated 4) [1, 2, 3] = [] := by simp [validCounts, hkeys]
  have hmade : makePayload (recurrent 4) (generated 4) (liveCache (recurrent 4) [1, 2, 3, 4, 5]) (fun _ => true) =
      ⟨[1, 2, 3], [some [1, 2, 3, 4, 5]], none⟩ := by
    simp only [makePayload, getBoundaryStoreOverride, hseq, hvalid, List.getLast?_nil]
    rfl
  have hpayload : (next (recurrent 4) (generated 4) (.cleanup fun _ => true)).payload =
      some (makePayload (recurrent 4) (generated 4) (liveCache (recurrent 4) [1, 2, 3, 4, 5]) fun _ => true) := rfl
  rw [hmade] at hpayload
  have hcleaned : Reached Start (fun _ _ => True) (next (recurrent 4))
      (next (recurrent 4) (generated 4) (.cleanup fun _ => true)) := .step _ hreached trivial
  refine ⟨_, hcleaned, _, hpayload, rfl, rfl, ?_⟩
  intro hat
  have hstate := hat.1 0 ⟨false, true, true, true⟩ rfl rfl [1, 2, 3, 4, 5] rfl
  exact nomatch hstate

end Request

end FusionMlx.BoundarySnapshots
