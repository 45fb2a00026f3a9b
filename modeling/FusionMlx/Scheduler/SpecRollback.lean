import FusionMlx.Scheduler.SpecVerify
import Mathlib.Tactic.Ring

/-!
# What the rollback of a rejected verify restores

The trimmable layers always come back to the accepted prefix. The recurrent
layers are rebuilt by a replay that runs while the trimmable layers still hold
every draft, so they come back only when nothing is replayed or when no
recurrent layer reads a trimmable one.
-/
namespace FusionMlx.SpecRollback

open SpecVerify

variable {τ ν σ : Type} {m : Model τ ν σ} {d d' cache : List (Layer ν σ)} {i : Nat}

theorem getElem?_feedOne (m : Model τ ν σ) (d : List (Layer ν σ)) (t : τ) (i : Nat) :
    (m.feedOne d t)[i]? = d[i]?.map (fun l => l.absorb (m.fold i) (m.write i t d)) := by
  rw [Model.feedOne, List.getElem?_mapIdx]

theorem feed_cons (m : Model τ ν σ) (d : List (Layer ν σ)) (t : τ) (ts : List τ) :
    m.feed d (t :: ts) = m.feed (m.feedOne d t) ts := rfl

theorem feed_append (m : Model τ ν σ) (d : List (Layer ν σ)) (ts ts' : List τ) :
    m.feed d (ts ++ ts') = m.feed (m.feed d ts) ts' := List.foldl_append

theorem length_feed (m : Model τ ν σ) (d : List (Layer ν σ)) (ts : List τ) :
    (m.feed d ts).length = d.length := by
  induction ts generalizing d with
  | nil => rfl
  | cons t ts ih =>
    rw [feed_cons, ih]
    exact List.length_mapIdx

variable {ps : List ν}

/-- A trimmable layer gets one value for each token. -/
theorem feed_kv (h : d[i]? = some (.kv ps)) (ts : List τ) :
    ∃ vs, vs.length = ts.length ∧ (m.feed d ts)[i]? = some (.kv (ps ++ vs)) := by
  induction ts generalizing d ps with
  | nil => exact ⟨[], rfl, by simpa [Model.feed] using h⟩
  | cons t ts ih =>
    have hone : (m.feedOne d t)[i]? = some (.kv (ps ++ [m.write i t d])) := by
      rw [getElem?_feedOne, h]
      rfl
    obtain ⟨vs, hlen, hvs⟩ := ih hone
    refine ⟨m.write i t d :: vs, by simp [hlen], ?_⟩
    rw [feed_cons, hvs, List.append_assoc]
    rfl

/-- A recurrent layer stays one. -/
theorem feed_recurrent {s : σ} (h : d[i]? = some (.recurrent s)) (ts : List τ) :
    ∃ s', (m.feed d ts)[i]? = some (.recurrent s') := by
  induction ts generalizing d s with
  | nil => exact ⟨s, h⟩
  | cons t ts ih =>
    rw [feed_cons]
    refine ih (s := m.fold i s (m.write i t d)) ?_
    rw [getElem?_feedOne, h]
    rfl

theorem getElem?_trimTrimmable (d : List (Layer ν σ)) (n i : Nat) :
    (trimTrimmable d n)[i]? = d[i]?.map (Layer.trim n) := by
  rw [trimTrimmable, List.getElem?_map]
  cases hl : d[i]? with
  | none => rfl
  | some l => cases l <;> rfl

/-- Writing layers back leaves every place that is not named as it is. -/
theorem restore_other {snaps : List (Nat × Layer ν σ)} (h : ∀ p ∈ snaps, p.1 ≠ i) :
    (restoreNonTrimmable d snaps)[i]? = d[i]? := by
  induction snaps generalizing d with
  | nil => rfl
  | cons p snaps ih =>
    refine (ih fun q hq => h q (List.mem_cons_of_mem _ hq)).trans ?_
    exact List.getElem?_set_ne (h p (List.mem_cons_self ..))

theorem restore_named {snaps : List (Nat × Layer ν σ)} {l : Layer ν σ} (hi : i < d.length)
    (hm : ∃ p ∈ snaps, p.1 = i) (h : ∀ p ∈ snaps, p.1 = i → p.2 = l) :
    (restoreNonTrimmable d snaps)[i]? = some l := by
  induction snaps generalizing d with
  | nil => obtain ⟨p, hp, -⟩ := hm; simp at hp
  | cons p snaps ih =>
    have hset : (restoreNonTrimmable d (p :: snaps)) = restoreNonTrimmable (d.set p.1 p.2) snaps := rfl
    rw [hset]
    by_cases hin : ∃ q ∈ snaps, q.1 = i
    · exact ih (by simpa using hi) hin fun q hq => h q (List.mem_cons_of_mem _ hq)
    · push Not at hin
      obtain ⟨q, hq, hqi⟩ := hm
      have hp : p.1 = i := by
        cases List.mem_cons.mp hq with
        | inl heq => rw [← heq, hqi]
        | inr hq => exact absurd hqi (hin q hq)
      rw [restore_other hin, ← h p (List.mem_cons_self ..) hp, hp]
      exact List.getElem?_set_self hi

def snapshots (cache : List (Layer ν σ)) : List (Nat × Layer ν σ) :=
  (snapshotNonTrimmable cache).getD []

theorem mem_snapshots {p : Nat × Layer ν σ} :
    p ∈ snapshots cache ↔ cache[p.1]? = some p.2 ∧ p.2.isTrimmable = false := by
  have hmem : p ∈ snapshots cache ↔
      p ∈ (cache.zipIdx.filter (fun p => !p.1.isTrimmable)).map Prod.swap := by
    simp only [snapshots, snapshotNonTrimmable]
    split
    · rename_i hempty
      rw [List.isEmpty_iff] at hempty
      simp [hempty]
    · rfl
  rw [hmem, List.mem_map]
  constructor
  · rintro ⟨q, hq, rfl⟩
    rw [List.mem_filter, List.mem_zipIdx_iff_getElem?] at hq
    exact ⟨hq.1, by simpa using hq.2⟩
  · rintro ⟨hget, hno⟩
    refine ⟨p.swap, ?_, rfl⟩
    rw [List.mem_filter, List.mem_zipIdx_iff_getElem?]
    exact ⟨hget, by simpa using hno⟩

/-- Restoring puts the recurrent layers back and touches no trimmable one. -/
theorem getElem?_restore {d : List (Layer ν σ)} (hlen : d.length = cache.length) (i : Nat) :
    (restoreNonTrimmable d (snapshots cache))[i]? =
      if (cache[i]?.map Layer.isTrimmable) = some false then cache[i]? else d[i]? := by
  split
  · rename_i hrec
    obtain ⟨l, hl, hno⟩ := Option.map_eq_some_iff.mp hrec
    have hi : i < d.length := by
      rw [hlen]
      exact (List.getElem?_eq_some_iff.mp hl).1
    rw [hl]
    refine restore_named hi ⟨(i, l), mem_snapshots.mpr ⟨hl, hno⟩, rfl⟩ ?_
    rintro ⟨j, l'⟩ hp rfl
    have hget := (mem_snapshots.mp hp).1
    rw [hl, Option.some.injEq] at hget
    exact hget.symm
  · rename_i hrec
    apply restore_other
    rintro ⟨j, l'⟩ hp rfl
    obtain ⟨hget, hno⟩ := mem_snapshots.mp hp
    apply hrec
    rw [hget]
    simpa using hno

def restoredThen (m : Model τ ν σ) (cache : List (Layer ν σ)) (drafts : List τ) (n : Nat) :
    List (Layer ν σ) :=
  trimTrimmable (m.feed (restoreNonTrimmable (m.feed cache drafts) (snapshots cache))
    (drafts.take n)) drafts.length

theorem snapshotNonTrimmable_eq (cache : List (Layer ν σ)) :
    snapshotNonTrimmable cache = if snapshots cache = [] then none else some (snapshots cache) := by
  simp only [snapshots, snapshotNonTrimmable]
  split
  · simp
  · rename_i hne
    rw [List.isEmpty_iff] at hne
    simp only [Option.getD_some]
    rw [if_neg hne]

/-- The rollback written out in the other two steps is the same function. -/
theorem specDecodeRollback_eq (m : Model τ ν σ) (cache d : List (Layer ν σ)) (drafts : List τ)
    (n k : Nat) :
    specDecodeRollback m d (snapshotNonTrimmable cache) drafts n k =
      rollbackSpecCache m d (snapshotNonTrimmable cache) drafts n k := by
  unfold specDecodeRollback rollbackSpecCache
  cases snapshotNonTrimmable cache with
  | none => rfl
  | some snaps => rfl

variable {n : Nat}

theorem rollbackSpecCache_eq (m : Model τ ν σ) (cache : List (Layer ν σ)) (drafts : List τ)
    (hn : n < drafts.length) :
    rollbackSpecCache m (m.feed cache drafts) (snapshotNonTrimmable cache) drafts n drafts.length =
      if snapshots cache = [] then trimTrimmable (m.feed cache drafts) (drafts.length - n)
      else restoredThen m cache drafts n := by
  have hpos : 0 < drafts.length := by omega
  have hrej : 0 < drafts.length - n := by omega
  rw [snapshotNonTrimmable_eq]
  by_cases hs : snapshots cache = []
  · simp only [hs, if_true, rollbackSpecCache]
    rw [if_pos hrej]
  · simp only [hs, if_false, rollbackSpecCache, restoredThen]
    rw [if_pos hpos]
    cases n with
    | zero => rfl
    | succ n => rfl

theorem trim_append (ps vs : List ν) (h : vs.length = n) :
    (Layer.kv (ps ++ vs) : Layer ν σ).trim n = .kv ps := by
  simp [Layer.trim, List.length_append, h]

/-- Verify leaves a trimmable layer with the accepted prefix and the other drafts behind it. -/
theorem verified_kv (h : cache[i]? = some (.kv ps)) {l : List τ} (n : Nat) :
    ∃ qs vs, (m.feed cache (l.take n))[i]? = some (.kv qs) ∧
      (m.feed cache l)[i]? = some (.kv (qs ++ vs)) ∧ vs.length = l.length - n := by
  obtain ⟨ws, -, hws⟩ := feed_kv (m := m) h (l.take n)
  obtain ⟨vs, hlen, hvs⟩ := feed_kv (m := m) hws (l.drop n)
  refine ⟨ps ++ ws, vs, hws, ?_, by simpa using hlen⟩
  rw [← feed_append, List.take_append_drop] at hvs
  exact hvs

variable {drafts : List τ}

theorem trimmed_kv (h : cache[i]? = some (.kv ps)) (n : Nat) :
    (trimTrimmable (m.feed cache drafts) (drafts.length - n))[i]? =
      (m.feed cache (drafts.take n))[i]? := by
  obtain ⟨qs, vs, htake, hall, hlen⟩ := verified_kv (m := m) h (l := drafts) n
  rw [getElem?_trimTrimmable, hall, htake, Option.map_some, trim_append qs vs hlen]

/-- The replay appends duplicates, and the trim takes these and the rejected drafts away. -/
theorem restoredThen_kv (h : cache[i]? = some (.kv ps))
    (hn : n ≤ drafts.length) :
    (restoredThen m cache drafts n)[i]? = (m.feed cache (drafts.take n))[i]? := by
  obtain ⟨qs, vs, htake, hall, hlen⟩ := verified_kv (m := m) h (l := drafts) n
  have hrest : (restoreNonTrimmable (m.feed cache drafts) (snapshots cache))[i]? =
      some (.kv (qs ++ vs)) := by
    rw [getElem?_restore (length_feed m cache drafts), h, if_neg (by simp [Layer.isTrimmable]), hall]
  obtain ⟨ws, hlen', hws⟩ := feed_kv (m := m) hrest (drafts.take n)
  rw [restoredThen, getElem?_trimTrimmable, hws, htake, Option.map_some, List.append_assoc]
  congr 1
  apply trim_append
  rw [List.length_append, hlen, hlen', List.length_take]
  omega

def kinds (cache : List (Layer ν σ)) : List Bool := cache.map Layer.isTrimmable

/-- What layer `i` writes depends on the layers it reads only. -/
def Respects (reads : Nat → Nat → Prop) (m : Model τ ν σ) : Prop :=
  ∀ i t (d d' : List (Layer ν σ)), (∀ j : Nat, reads i j → d[j]? = d'[j]?) → m.write i t d = m.write i t d'

/-- No recurrent layer reads a trimmable one. -/
def Apart (reads : Nat → Nat → Prop) (ks : List Bool) : Prop :=
  ∀ i j : Nat, ks[i]? = some false → ks[j]? = some true → ¬ reads i j

structure Agree (ks : List Bool) (d d' : List (Layer ν σ)) : Prop where
  length : d.length = ks.length
  length' : d'.length = ks.length
  recurrent : ∀ i : Nat, ks[i]? = some false → d[i]? = d'[i]?

variable {reads : Nat → Nat → Prop}

theorem feedOne_agree {ks : List Bool} (hm : Respects reads m)
    (hap : Apart reads ks) (h : Agree ks d d') (t : τ) :
    Agree ks (m.feedOne d t) (m.feedOne d' t) := by
  refine ⟨List.length_mapIdx.trans h.length, List.length_mapIdx.trans h.length', ?_⟩
  intro i hi
  have hwrite : m.write i t d = m.write i t d' := by
    apply hm
    intro j hj
    cases hk : ks[j]? with
    | none =>
      rw [List.getElem?_eq_none_iff] at hk
      rw [List.getElem?_eq_none_iff.mpr (h.length ▸ hk), List.getElem?_eq_none_iff.mpr (h.length' ▸ hk)]
    | some b =>
      cases b with
      | false => exact h.recurrent j hk
      | true => exact absurd hj (hap i j hi hk)
  rw [getElem?_feedOne, getElem?_feedOne, h.recurrent i hi, hwrite]

theorem feed_agree {ks : List Bool} (hm : Respects reads m)
    (hap : Apart reads ks) (h : Agree ks d d') (ts : List τ) :
    Agree ks (m.feed d ts) (m.feed d' ts) := by
  induction ts generalizing d d' with
  | nil => exact h
  | cons t ts ih => exact ih (feedOne_agree hm hap h t)

theorem kinds_eq_false {cache : List (Layer ν σ)} :
    (kinds cache)[i]? = some false ↔ ∃ s, cache[i]? = some (.recurrent s) := by
  rw [kinds, List.getElem?_map]
  cases cache[i]? with
  | none => simp
  | some l => cases l <;> simp [Layer.isTrimmable]

theorem length_restore (d : List (Layer ν σ)) (snaps : List (Nat × Layer ν σ)) :
    (restoreNonTrimmable d snaps).length = d.length := by
  induction snaps generalizing d with
  | nil => rfl
  | cons p snaps ih => exact (ih _).trans List.length_set

/-- After the restore the recurrent layers are those of before the verify. -/
theorem restore_agree (m : Model τ ν σ) (cache : List (Layer ν σ)) (drafts : List τ) :
    Agree (kinds cache) (restoreNonTrimmable (m.feed cache drafts) (snapshots cache)) cache := by
  refine ⟨?_, by simp [kinds], ?_⟩
  · rw [length_restore, length_feed]
    simp [kinds]
  · intro i hi
    rw [getElem?_restore (length_feed m cache drafts)]
    rw [kinds, List.getElem?_map] at hi
    rw [if_pos hi]

/-- A recurrent layer after the rollback is what the replay made of it. -/
theorem restoredThen_recurrent (hi : (kinds cache)[i]? = some false) (drafts : List τ) (n : Nat) :
    (restoredThen m cache drafts n)[i]? =
      (m.feed (restoreNonTrimmable (m.feed cache drafts) (snapshots cache)) (drafts.take n))[i]? := by
  obtain ⟨s, hs⟩ := kinds_eq_false.mp hi
  have hrest := (restore_agree m cache drafts).recurrent i hi
  rw [hs] at hrest
  obtain ⟨s', hs'⟩ := feed_recurrent (m := m) hrest (drafts.take n)
  rw [restoredThen, getElem?_trimTrimmable, hs']
  rfl

/-- The rollback leaves the accepted prefix in every layer. -/
def Restores (m : Model τ ν σ) (cache : List (Layer ν σ)) (drafts : List τ) (n : Nat) : Prop :=
  rollbackSpecCache m (m.feed cache drafts) (snapshotNonTrimmable cache) drafts n drafts.length =
      m.feed cache (drafts.take n) ∧
    specDecodeRollback m (m.feed cache drafts) (snapshotNonTrimmable cache) drafts n drafts.length =
      m.feed cache (drafts.take n) ∧
    dflashRollback m (m.feed cache drafts) (snapshotNonTrimmable cache) drafts n drafts.length =
      m.feed cache (drafts.take n)

theorem restores_iff (m : Model τ ν σ) (cache : List (Layer ν σ))
    (hn : n < drafts.length) :
    Restores m cache drafts n ↔ ∀ i : Nat, (kinds cache)[i]? = some false →
      (m.feed (restoreNonTrimmable (m.feed cache drafts) (snapshots cache)) (drafts.take n))[i]? =
        (m.feed cache (drafts.take n))[i]? := by
  unfold Restores dflashRollback
  rw [specDecodeRollback_eq, and_self, and_self, rollbackSpecCache_eq m cache drafts hn]
  by_cases hs : snapshots cache = []
  · have hno : ∀ i : Nat, (kinds cache)[i]? ≠ some false := by
      intro i hi
      obtain ⟨s, hs'⟩ := kinds_eq_false.mp hi
      have hmem : (i, Layer.recurrent s) ∈ snapshots cache := mem_snapshots.mpr ⟨hs', rfl⟩
      rw [hs] at hmem
      simp at hmem
    rw [if_pos hs]
    refine ⟨fun _ i hi => absurd hi (hno i), fun _ => ?_⟩
    apply List.ext_getElem?
    intro i
    cases hl : cache[i]? with
    | none =>
      have hlen := List.getElem?_eq_none_iff.mp hl
      rw [getElem?_trimTrimmable, List.getElem?_eq_none_iff.mpr (by rwa [length_feed]),
        List.getElem?_eq_none_iff.mpr (by rwa [length_feed])]
      rfl
    | some l =>
      cases l with
      | kv ps => exact trimmed_kv hl n
      | recurrent s => exact absurd (kinds_eq_false.mpr ⟨s, hl⟩) (hno i)
  · rw [if_neg hs]
    constructor
    · intro heq i hi
      rw [← heq, restoredThen_recurrent hi]
    · intro hrec
      apply List.ext_getElem?
      intro i
      cases hl : cache[i]? with
      | none =>
        have hlen := List.getElem?_eq_none_iff.mp hl
        have hlen' : (restoredThen m cache drafts n).length = cache.length := by
          rw [restoredThen, trimTrimmable, List.length_map, length_feed, length_restore, length_feed]
        rw [List.getElem?_eq_none_iff.mpr (by rwa [hlen']),
          List.getElem?_eq_none_iff.mpr (by rwa [length_feed])]
      | some l =>
        cases l with
        | kv ps => exact restoredThen_kv hl hn.le
        | recurrent s =>
          have hi := kinds_eq_false.mpr ⟨s, hl⟩
          rw [restoredThen_recurrent hi, hrec i hi]

def positions : Option (Layer ν σ) → Nat
  | some (.kv ps) => ps.length
  | _ => 0

/-- The readers write how many positions layer `j` holds, and recurrent layers
add up; the greedy token is always `t`. -/
def counting (t : τ) (reader : Nat → Bool) (j : Nat) : Model τ Nat Nat where
  write i _ d := if reader i then positions d[j]? else 0
  fold _ s v := s + v
  predict _ := t

def series (p : Nat) : Nat → Nat
  | 0 => 0
  | n + 1 => p + series (p + 1) n

theorem series_add (p k n : Nat) : series (p + k) n = series p n + n * k := by
  induction n generalizing p with
  | zero => simp [series]
  | succ n ih =>
    have hswap : p + k + 1 = p + 1 + k := by omega
    rw [series, series, hswap, ih]
    ring

variable {reader : Nat → Bool}

theorem counting_feed {j s : Nat} {ps : List Nat} {d : List (Layer Nat Nat)}
    {t : τ} (hr : reader i = true) (hj : d[j]? = some (.kv ps)) (hi : d[i]? = some (.recurrent s))
    (ts : List τ) :
    ((counting t reader j).feed d ts)[i]? =
      some (.recurrent (s + series ps.length ts.length)) := by
  induction ts generalizing d ps s with
  | nil => simpa [Model.feed, series] using hi
  | cons u ts ih =>
    have hi' : ((counting t reader j).feedOne d u)[i]? = some (.recurrent (s + ps.length)) := by
      rw [getElem?_feedOne, hi]
      simp [counting, Layer.absorb, hr, hj, positions]
    have hj' : ((counting t reader j).feedOne d u)[j]? =
        some (.kv (ps ++ [(counting t reader j).write j u d])) := by
      rw [getElem?_feedOne, hj]
      rfl
    rw [feed_cons, ih hj' hi', List.length_append, Nat.add_assoc]
    rfl

theorem counting_respects {j : Nat}
    (t : τ) (h : ∀ i, reader i = true → reads i j) : Respects reads (counting t reader j) := by
  intro i u d d' hc
  simp only [counting]
  split
  · rw [hc j (h i ‹_›)]
  · rfl

def blank (ks : List Bool) : List (Layer Nat Nat) := ks.map (fun b => if b then .kv [] else .recurrent 0)

theorem kinds_blank (ks : List Bool) : kinds (blank ks) = ks := by
  rw [kinds, blank, List.map_map]
  conv_rhs => rw [← List.map_id ks]
  apply List.map_congr_left
  intro b _
  cases b <;> rfl

/-- The replay sees all drafts in the layer that is counted, so the sum comes out too large. -/
theorem counting_breaks {ks : List Bool} {i j : Nat} (t : τ)
    (hi : ks[i]? = some false) (hj : ks[j]? = some true) (hr : reader i = true) (hpos : n ≠ 0)
    (hn : n < drafts.length) : ¬ Restores (counting t reader j) (blank ks) drafts n := by
  have htake : (drafts.take n).length = n := by
    rw [List.length_take, Nat.min_eq_left hn.le]
  have hi₀ : (blank ks)[i]? = some (.recurrent 0) := by simp [blank, hi]
  have hj₀ : (blank ks)[j]? = some (.kv []) := by simp [blank, hj]
  rw [restores_iff _ _ hn]
  intro hall
  have hout := hall i (by rw [kinds_blank]; exact hi)
  obtain ⟨ps, hps, hverify⟩ := feed_kv (m := counting t reader j) hj₀ drafts
  have hrest := getElem?_restore (length_feed (counting t reader j) (blank ks) drafts)
  have hi₁ := hrest i
  have hj₁ := hrest j
  rw [hi₀, if_pos (by simp [Layer.isTrimmable])] at hi₁
  rw [hj₀, if_neg (by simp [Layer.isTrimmable]), hverify] at hj₁
  rw [counting_feed hr hj₁ hi₁, counting_feed hr hj₀ hi₀, List.nil_append, hps, htake] at hout
  have hsum : series drafts.length n = series 0 n + n * drafts.length := by
    have := series_add 0 drafts.length n
    rwa [Nat.zero_add] at this
  have hmul : 0 < n * drafts.length := Nat.mul_pos (by omega) (by omega)
  simp only [Option.some.injEq, Layer.recurrent.injEq, List.length_nil, hsum] at hout
  omega

/-- For layers of given kinds and given reads, the rollback of a verify of `k`
drafts with `n` accepted leaves the accepted prefix in every layer of every
model exactly when nothing is replayed or no recurrent layer reads a trimmable one. -/
theorem rollback_restores_iff (ks : List Bool) (reads : Nat → Nat → Prop) (k n : Nat) (hn : n < k) :
    (∀ (τ ν σ : Type) (m : Model τ ν σ), Respects reads m → ∀ cache, kinds cache = ks →
      ∀ drafts : List τ, drafts.length = k → Restores m cache drafts n) ↔
    n = 0 ∨ Apart reads ks := by
  constructor
  · intro hall
    by_contra hno
    push Not at hno
    obtain ⟨hpos, hap⟩ := hno
    unfold Apart at hap
    push Not at hap
    obtain ⟨i, j, hi, hj, hreads⟩ := hap
    classical
    have hresp : Respects reads (counting () (fun i => decide (reads i j)) j) :=
      counting_respects () fun i h => of_decide_eq_true h
    have hlen : (List.replicate k ()).length = k := List.length_replicate
    exact counting_breaks () hi hj (decide_eq_true hreads) hpos (hlen.symm ▸ hn)
      (hall Unit Nat Nat _ hresp (blank ks) (kinds_blank ks) (List.replicate k ()) hlen)
  · rintro hcond τ ν σ m hm cache rfl drafts rfl
    rw [restores_iff m cache hn]
    intro i hi
    have hrest := restore_agree m cache drafts
    cases hcond with
    | inl hzero =>
      subst hzero
      exact hrest.recurrent i hi
    | inr hap => exact (feed_agree hm hap hrest (drafts.take n)).recurrent i hi

/-- A recurrent layer below an attention layer, three drafts of which two are accepted. -/
theorem rollback_restores_below :
    Apart (fun i j => j ≤ i) [false, true] ∧
      ∀ (τ ν σ : Type) (m : Model τ ν σ), Respects (fun i j => j ≤ i) m → ∀ cache,
        kinds cache = [false, true] → ∀ drafts : List τ, drafts.length = 3 →
          Restores m cache drafts 2 := by
  have hapart : Apart (fun i j => j ≤ i) [false, true] := by
    intro i j hi hj hle
    match i, j with
    | 0, 0 => simp at hj
    | 0, j + 1 => omega
    | 1, _ => simp at hi
    | i + 2, _ => simp at hi
  constructor
  · exact hapart
  · exact (rollback_restores_iff [false, true] (fun i j => j ≤ i) 3 2 (by decide)).mpr (.inr hapart)

/-- A recurrent layer above an attention layer, and a verify that rejects the
second draft: the replay of the first counts both in the attention layer. -/
theorem replay_reads_rejected :
    (verifyDrafts (counting 0 (fun i => i == 1) 0) [5, 6] [.kv [], .recurrent 0] (some 5)).1 =
      ⟨[5, 0], 1, 2⟩ ∧
    (verifyDrafts (counting 0 (fun i => i == 1) 0) [5, 6] [.kv [], .recurrent 0] (some 5)).2 =
      [.kv [0, 0], .recurrent 1] ∧
    rollbackSpecCache (counting 0 (fun i => i == 1) 0) [.kv [0, 0], .recurrent 1]
      (snapshotNonTrimmable [.kv [], .recurrent 0]) [5, 6] 1 2 = [.kv [0], .recurrent 2] ∧
    (counting 0 (fun i => i == 1) 0).feed [.kv [], .recurrent 0] [5] = [.kv [0], .recurrent 0] ∧
    ¬ Restores (counting 0 (fun i => i == 1) 0) [.kv [], .recurrent 0] [5, 6] 1 := by
  refine ⟨by decide, by decide, by decide, by decide, ?_⟩
  intro h
  exact absurd h.1 (by decide)

end FusionMlx.SpecRollback
