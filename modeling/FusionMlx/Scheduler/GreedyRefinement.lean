import FusionMlx.Scheduler.SpecRollback
import FusionMlx.Scheduler.SpecSteps
import FusionMlx.Support.Runs

/-!
# Speculative decoding against plain greedy decoding

The caches hold the prompt and the recorded tokens, and the pending token is
the greedy one after these: that carries both the regular step and a sound
speculative one, so a run with speculation shows what the plain run shows
after some number of regular steps.
-/
namespace FusionMlx.GreedyRefinement

open SpecVerify SpecRollback SpecSteps Runs

variable {τ : Type} {P : Params τ} {c : List (Layer τ Unit)} {seq : List τ}

/-- Every layer holds the sequence. -/
def Holds (c : List (Layer τ Unit)) (seq : List τ) : Prop := c ≠ [] ∧ ∀ l ∈ c, l = .kv seq

theorem Holds.sequence_eq (h : Holds c seq) : sequence c = seq := by
  obtain ⟨hne, hall⟩ := h
  cases c with
  | nil => exact absurd rfl hne
  | cons l c =>
    rw [hall l (List.mem_cons_self ..)]
    rfl

theorem Holds.feedOne (h : Holds c seq) (t : τ) : Holds ((target P).feedOne c t) (seq ++ [t]) := by
  obtain ⟨hne, hall⟩ := h
  constructor
  · intro hnil
    apply hne
    have hlen : ((target P).feedOne c t).length = c.length := List.length_mapIdx
    rw [hnil] at hlen
    exact List.eq_nil_of_length_eq_zero hlen.symm
  · intro l hl
    rw [Model.feedOne, List.mem_mapIdx] at hl
    obtain ⟨i, hi, rfl⟩ := hl
    rw [hall _ (List.getElem_mem hi)]
    rfl

theorem Holds.feed (h : Holds c seq) (ts : List τ) : Holds ((target P).feed c ts) (seq ++ ts) := by
  induction ts generalizing c seq with
  | nil => simpa [Model.feed] using h
  | cons t ts ih =>
    have hstep := ih (h.feedOne (P := P) t)
    rwa [List.append_assoc] at hstep

theorem Holds.predict (h : Holds c seq) : (target P).predict c = P.next seq := by
  rw [← h.sequence_eq]
  rfl

/-- The prediction after each token that is fed. -/
theorem Holds.greedy (h : Holds c seq) (ts : List τ) {i : Nat} (hi : i < ts.length) :
    ((target P).greedy c ts)[i]? = some (P.next (seq ++ ts.take (i + 1))) := by
  induction ts generalizing c seq i with
  | nil => simp at hi
  | cons t ts ih =>
    cases i with
    | zero =>
      rw [Model.greedy, (h.feedOne t).predict]
      rfl
    | succ i =>
      rw [Model.greedy, List.getElem?_cons_succ, ih (h.feedOne t) (by simpa using hi),
        List.append_assoc]
      rfl

theorem init_holds (P : Params τ) (moreLayers : Nat) (prompt : List τ) :
    Holds (init P moreLayers prompt).promptCache prompt := by
  constructor
  · exact List.replicate_succ_ne_nil
  · intro l hl
    exact (List.mem_replicate.mp hl).2

/-- With trimmable layers only, every rollback leaves the accepted prefix. -/
theorem Holds.restores (h : Holds c seq) {drafts : List τ} {n : Nat} (hn : n < drafts.length) :
    Restores (target P) c drafts n := by
  rw [restores_iff _ _ hn]
  intro i hi
  obtain ⟨s, hs⟩ := kinds_eq_false.mp hi
  have hkv := h.2 _ (List.mem_of_getElem? hs)
  simp at hkv

def continuation (P : Params τ) (seq : List τ) : Nat → List τ
  | 0 => []
  | n + 1 => P.next seq :: continuation P (seq ++ [P.next seq]) n

theorem length_continuation (P : Params τ) (seq : List τ) (n : Nat) :
    (continuation P seq n).length = n := by
  induction n generalizing seq with
  | zero => rfl
  | succ n ih => rw [continuation, List.length_cons, ih]

theorem continuation_add (P : Params τ) (seq : List τ) (n k : Nat) :
    continuation P seq (n + k) =
      continuation P seq n ++ continuation P (seq ++ continuation P seq n) k := by
  induction n generalizing seq with
  | zero => simp [continuation]
  | succ n ih =>
    have hswap : n + 1 + k = n + k + 1 := by omega
    rw [hswap, continuation, continuation, ih]
    simp

theorem continuation_succ (P : Params τ) (seq : List τ) (n : Nat) :
    continuation P seq (n + 1) =
      continuation P seq n ++ [P.next (seq ++ continuation P seq n)] :=
  continuation_add P seq n 1

variable [DecidableEq τ]

def agreed (P : Params τ) (seq : List τ) : List τ → List τ
  | [] => []
  | d :: ds => if d = P.next seq then d :: agreed P (seq ++ [d]) ds else []

theorem agreed_continuation (P : Params τ) (seq drafts : List τ) :
    agreed P seq drafts = continuation P seq (agreed P seq drafts).length := by
  induction drafts generalizing seq with
  | nil => rfl
  | cons d ds ih =>
    rw [agreed]
    split
    · rename_i hd
      subst hd
      rw [List.length_cons, continuation, ← ih]
    · rfl

theorem agreed_prefix (P : Params τ) (seq drafts : List τ) : agreed P seq drafts <+: drafts := by
  induction drafts generalizing seq with
  | nil => exact List.prefix_rfl
  | cons d ds ih =>
    rw [agreed]
    split
    · exact List.cons_prefix_cons.mpr ⟨rfl, ih _⟩
    · exact List.nil_prefix

theorem take_agreed (P : Params τ) (seq drafts : List τ) :
    drafts.take (agreed P seq drafts).length = agreed P seq drafts :=
  (List.prefix_iff_eq_take.mp <| agreed_prefix P seq drafts).symm

/-- The drafts that agree with their predecessors' predictions, the first one aside. -/
theorem matching_greedy (h : Holds c seq) (d : τ) (ds : List τ) :
    matching ((target P).greedy c (d :: ds)) ds = (agreed P (seq ++ [d]) ds).length := by
  induction ds generalizing c seq d with
  | nil => simp [matching, agreed]
  | cons e es ih =>
    have hstep := ih (h.feedOne (P := P) d) e
    rw [Model.greedy, matching, (h.feedOne d).predict, agreed]
    by_cases he : P.next (seq ++ [d]) = e
    · rw [if_pos he, if_pos he.symm, List.length_cons, hstep]
    · rw [if_neg he, if_neg (Ne.symm he)]
      rfl

/-- A step is sound on a sequence when the pending token can be read, or when
the first draft and what comes of it agree with the greedy tokens anyway. -/
def Sound (P : Params τ) (seq : List τ) (d : Drafting τ) : Prop :=
  d.readable = true ∨
    match d.draftTokens with
    | [] => True
    | [t] => t = P.next seq
    | t :: u :: _ =>
      (t = P.next seq ∧ u = P.next (seq ++ [t])) ∨
        (u ≠ P.next (seq ++ [t]) ∧ P.next (seq ++ [t]) = P.next seq)

/-- The drafts that a sound step emits. When the pending token cannot be read
the count starts at zero, so the last agreeing draft is pending instead. -/
def accepted (P : Params τ) (seq : List τ) (d : Drafting τ) : List τ :=
  if d.draftTokens.length < 2 then []
  else if d.readable ∨ agreed P seq d.draftTokens = d.draftTokens then agreed P seq d.draftTokens
  else (agreed P seq d.draftTokens).dropLast

theorem adopt_append (P : Params τ) (s : GenState τ) (c : List (Layer τ Unit)) (b : List τ) (t : τ) :
    adopt P s c (b ++ [t]) =
      { s with promptCache := c, nextTokens := t, request := s.request.emit P b } := by
  simp [adopt]

variable {s : GenState τ} {d : Drafting τ}

/-- What is accepted are greedy tokens. -/
theorem accepted_continuation (P : Params τ) (seq : List τ) (d : Drafting τ) :
    accepted P seq d = continuation P seq (accepted P seq d).length := by
  have hag := agreed_continuation P seq d.draftTokens
  unfold accepted
  split
  · rfl
  · split
    · exact hag
    · generalize (agreed P seq d.draftTokens).length = n at hag
      rw [hag]
      cases n with
      | zero => rfl
      | succ n =>
        rw [continuation_succ, List.dropLast_concat, length_continuation]

def acceptCount (d : Drafting τ) (agreeing : Nat) : Nat :=
  if agreeing + 1 = d.draftTokens.length then d.draftTokens.length
  else (if d.readable then 1 else 0) + agreeing

variable {t : τ} {ts : List τ}

/-- With two drafts or more and a first one that is not ruled out, the caches
end with the accepted drafts and the prediction after them is pending. -/
theorem specStep_verified (h : Holds s.promptCache seq) {u : τ}
    (hd : d.draftTokens = t :: u :: ts) (hs : ∀ x ∈ sampledFromRegular s d, x = t) :
    ∃ c', Holds c' (seq ++ d.draftTokens.take (acceptCount d
        (agreed P (seq ++ [t]) (u :: ts)).length)) ∧
      specStep P s d = adopt P s c'
        (d.draftTokens.take (acceptCount d (agreed P (seq ++ [t]) (u :: ts)).length) ++
          [P.next (seq ++ d.draftTokens.take
            (acceptCount d (agreed P (seq ++ [t]) (u :: ts)).length - 1 + 1))]) := by
  have hfilter : (sampledFromRegular s d).filter (· ≠ t) = none := by
    rw [Option.filter_eq_none_iff]
    intro x hx
    simp [hs x hx]
  have hgate : (sampledFromRegular s d).any (fun x => d.draftTokens.head? ≠ some x) = false := by
    rw [Option.any_eq_false]
    intro x hx
    simp [hs x hx, hd]
  have hsome : (if (sampledFromRegular s d).isSome then 1 else 0) = if d.readable then 1 else 0 := by
    unfold sampledFromRegular
    cases d.readable <;> rfl
  have hm := matching_greedy (P := P) h t (u :: ts)
  have hlen : d.draftTokens.length = ts.length + 2 := by
    rw [hd]
    rfl
  have hcount : (if (agreed P (seq ++ [t]) (u :: ts)).length = ts.length + 1 then ts.length + 1 + 1
      else (if d.readable then 1 else 0) + (agreed P (seq ++ [t]) (u :: ts)).length) =
      acceptCount d (agreed P (seq ++ [t]) (u :: ts)).length := by
    rw [acceptCount, hlen]
    simp only [Nat.add_right_cancel_iff]
  generalize acceptCount d (agreed P (seq ++ [t]) (u :: ts)).length = n at hcount
  have hverdict : verifyDrafts (target P) d.draftTokens s.promptCache (sampledFromRegular s d) =
      (⟨d.draftTokens.take n ++ ((target P).greedy s.promptCache d.draftTokens)[n - 1]?.toList, n,
        ts.length + 2⟩, (target P).feed s.promptCache d.draftTokens) := by
    rw [hd]
    simp only [verifyDrafts, hfilter, hm, hsome, hcount, reduceCtorEq, if_false, List.length_cons]
  have hle : n ≤ d.draftTokens.length := by
    have hp := List.IsPrefix.length_le <| agreed_prefix P (seq ++ [t]) (u :: ts)
    rw [List.length_cons] at hp
    rw [hlen, ← hcount]
    split
    · omega
    · split <;> omega
  have hbonus : ((target P).greedy s.promptCache d.draftTokens)[n - 1]?.toList =
      [P.next (seq ++ d.draftTokens.take (n - 1 + 1))] := by
    rw [h.greedy _ (by omega)]
    rfl
  have hne : d.draftTokens ≠ [] := by simp [hd]
  have hstep : specStep P s d = adopt P s
      (if 0 < ts.length + 2 ∧ n < d.draftTokens.length then
        rollbackFor P d ((target P).feed s.promptCache d.draftTokens) (snapshotsFor s d)
          ⟨d.draftTokens.take n ++ [P.next (seq ++ d.draftTokens.take (n - 1 + 1))], n, ts.length + 2⟩
      else (target P).feed s.promptCache d.draftTokens)
      (d.draftTokens.take n ++ [P.next (seq ++ d.draftTokens.take (n - 1 + 1))]) := by
    unfold specStep
    rw [if_neg hne, if_neg fun hc => Bool.false_ne_true (hgate.symm.trans hc.2), hverdict, hbonus]
  refine ⟨_, ?_, hstep⟩
  by_cases hlt : n < d.draftTokens.length
  · have hsnap : snapshotsFor s d = snapshotNonTrimmable s.promptCache := by
      unfold snapshotsFor
      split
      · rw [if_pos]
        refine ⟨by omega, ?_⟩
        rw [Option.all_eq_true]
        intro x hx
        simp [hs x hx, hd]
      · rfl
      · rfl
    obtain ⟨h₁, h₂, h₃⟩ := h.restores (P := P) hlt
    rw [if_pos ⟨by omega, hlt⟩, hsnap]
    have hroll : ∀ v : List τ, rollbackFor P d ((target P).feed s.promptCache d.draftTokens)
        (snapshotNonTrimmable s.promptCache) ⟨v, n, ts.length + 2⟩ =
          (target P).feed s.promptCache (d.draftTokens.take n) := by
      intro v
      unfold rollbackFor
      simp only [← hlen]
      split
      · exact h₁
      · exact h₂
      · exact h₃
    rw [hroll]
    exact h.feed _
  · rw [if_neg fun hc => hlt hc.2, List.take_of_length_le (by omega)]
    exact h.feed _

/-- A verdict without a forward pass that names the pending token changes nothing. -/
theorem specStep_unprocessed (hne : d.draftTokens ≠ []) {v : Verdict τ}
    (hverdict : verifyDrafts (target P) d.draftTokens s.promptCache (sampledFromRegular s d) =
      (v, s.promptCache)) (hv : v.verified = [s.nextTokens]) (hp : v.cacheTokensProcessed = 0) :
    specStep P s d = s := by
  unfold specStep
  rw [if_neg hne]
  split
  · rfl
  · simp only [hverdict, hv, hp]
    rw [if_neg fun hc => Nat.lt_irrefl 0 hc.1]
    exact adopt_append P s s.promptCache [] s.nextTokens

/-- A first draft that is not the readable pending token is refused. -/
theorem specStep_refused {ds : List τ} (hd : d.draftTokens = t :: ds)
    (hr : d.readable = true) (ht : s.nextTokens ≠ t) : specStep P s d = s := by
  have hs : (sampledFromRegular s d).filter (· ≠ t) = some s.nextTokens := by
    simp [sampledFromRegular, hr, ht]
  have hverdict : verifyDrafts (target P) d.draftTokens s.promptCache (sampledFromRegular s d) =
      (⟨[s.nextTokens], 0, 0⟩, s.promptCache) := by
    rw [hd]
    simp only [verifyDrafts, hs]
  exact specStep_unprocessed (by simp [hd]) hverdict rfl rfl

/-- A single draft that is the pending token stays the pending token. -/
theorem specStep_single (hd : d.draftTokens = [t]) (ht : s.nextTokens = t) :
    specStep P s d = s := by
  have hs : (sampledFromRegular s d).filter (· ≠ t) = none := by
    rw [Option.filter_eq_none_iff]
    unfold sampledFromRegular
    split
    · rintro x ⟨⟩
      simp [ht]
    · simp
  have hverdict : verifyDrafts (target P) d.draftTokens s.promptCache (sampledFromRegular s d) =
      (⟨[t], if (sampledFromRegular s d).isSome then 1 else 0, 0⟩, s.promptCache) := by
    rw [hd]
    simp only [verifyDrafts, hs, if_true]
  exact specStep_unprocessed (by simp [hd]) hverdict (by rw [ht]) rfl

theorem accepted_short (h : d.draftTokens.length < 2) : accepted P seq d = [] := by
  rw [accepted, if_pos h]

theorem accepted_long (h : ¬ d.draftTokens.length < 2) :
    accepted P seq d =
      if d.readable ∨ agreed P seq d.draftTokens = d.draftTokens then agreed P seq d.draftTokens
      else (agreed P seq d.draftTokens).dropLast := by
  rw [accepted, if_neg h]

/-- With a greedy first draft the drafts kept are those accepted. -/
theorem take_acceptCount {u : τ} (hd : d.draftTokens = t :: u :: ts)
    (ht : t = P.next seq) :
    d.draftTokens.take (acceptCount d (agreed P (seq ++ [t]) (u :: ts)).length) =
      accepted P seq d := by
  have htake := take_agreed P seq d.draftTokens
  have hag : (agreed P seq d.draftTokens).length = (agreed P (seq ++ [t]) (u :: ts)).length + 1 := by
    rw [hd, agreed, if_pos ht, List.length_cons]
  rw [accepted_long (by simp [hd]), acceptCount]
  by_cases hall : (agreed P (seq ++ [t]) (u :: ts)).length + 1 = d.draftTokens.length
  · have hfull : agreed P seq d.draftTokens = d.draftTokens := by
      rw [← htake]
      exact List.take_of_length_le (by omega)
    rw [if_pos hall, if_pos (.inr hfull), hfull]
    exact List.take_length
  · have hnot : ¬ agreed P seq d.draftTokens = d.draftTokens := by
      intro heq
      rw [heq] at hag
      exact hall hag.symm
    rw [if_neg hall]
    by_cases hr : d.readable = true
    · rw [if_pos hr, if_pos (.inl hr), Nat.add_comm, ← hag, htake]
    · have hlt : (agreed P (seq ++ [t]) (u :: ts)).length + 1 ≤ d.draftTokens.length := by
        rw [← hag]
        exact List.IsPrefix.length_le <| agreed_prefix P seq d.draftTokens
      rw [if_neg hr, if_neg (by simp [hr, hnot]), Nat.zero_add]
      conv_rhs => rw [← htake, hag]
      rw [List.dropLast_take (by omega), Nat.add_sub_cancel]

/-- The prediction that becomes pending is the greedy token after the drafts kept. -/
theorem bonus_acceptCount {u : τ} (hd : d.draftTokens = t :: u :: ts)
    (hs : Sound P seq d) :
    P.next (seq ++ d.draftTokens.take (acceptCount d (agreed P (seq ++ [t]) (u :: ts)).length - 1 + 1)) =
      P.next (seq ++ d.draftTokens.take (acceptCount d (agreed P (seq ++ [t]) (u :: ts)).length)) := by
  generalize hn : acceptCount d (agreed P (seq ++ [t]) (u :: ts)).length = n
  cases n with
  | succ n => rfl
  | zero =>
    -- nothing is accepted: the pending token cannot be read and the second draft disagrees
    have hr : ¬ d.readable = true := by
      intro hr
      rw [acceptCount, if_pos hr] at hn
      split at hn
      · simp [hd] at hn
      · omega
    have hempty : agreed P (seq ++ [t]) (u :: ts) = [] := by
      rw [acceptCount, if_neg hr, Nat.zero_add] at hn
      split at hn
      · simp [hd] at hn
      · exact List.eq_nil_of_length_eq_zero hn
    have hu : ¬ u = P.next (seq ++ [t]) := by
      intro heq
      rw [agreed, if_pos heq] at hempty
      simp at hempty
    unfold Sound at hs
    rw [hd] at hs
    simp only [hr, hu, and_false, false_or, not_false_eq_true, true_and, ne_eq,
      Bool.false_eq_true] at hs
    rw [hd]
    simpa using hs

/-- A first draft that is not greedy is accepted by no sound step. -/
theorem accepted_astray {u : τ} (hd : d.draftTokens = t :: u :: ts)
    (ht : ¬ t = P.next seq) (hr : ¬ d.readable = true) (hs : Sound P seq d) :
    acceptCount d (agreed P (seq ++ [t]) (u :: ts)).length = 0 ∧ accepted P seq d = [] := by
  have hempty : agreed P seq d.draftTokens = [] := by
    rw [hd, agreed, if_neg ht]
  unfold Sound at hs
  rw [hd] at hs
  simp only [hr, ht, false_and, false_or, Bool.false_eq_true] at hs
  constructor
  · rw [acceptCount, agreed, if_neg hs.1, if_neg hr, if_neg (by simp [hd])]
    rfl
  · rw [accepted_long (by simp [hd]), hempty]
    simp

/-- A sound step adds drafts that are greedy tokens and leaves the next greedy token pending. -/
theorem specStep_sound (h : Holds s.promptCache seq) (hn : s.nextTokens = P.next seq)
    (hs : Sound P seq d) :
    ∃ c', Holds c' (seq ++ accepted P seq d) ∧
      specStep P s d = { s with
        promptCache := c'
        nextTokens := P.next (seq ++ accepted P seq d)
        request := s.request.emit P (accepted P seq d) } := by
  have hsame : accepted P seq d = [] → specStep P s d = s → ∃ c', Holds c' (seq ++ accepted P seq d) ∧
      specStep P s d = { s with
        promptCache := c'
        nextTokens := P.next (seq ++ accepted P seq d)
        request := s.request.emit P (accepted P seq d) } := by
    intro hnil heq
    rw [hnil, heq, List.append_nil, ← hn]
    exact ⟨s.promptCache, h, rfl⟩
  match hd : d.draftTokens with
  | [] =>
    apply hsame (accepted_short (by simp [hd]))
    unfold specStep
    rw [if_pos hd]
  | [t] =>
    apply hsame (accepted_short (by simp [hd]))
    by_cases ht : s.nextTokens = t
    · exact specStep_single hd ht
    · refine specStep_refused hd ?_ ht
      unfold Sound at hs
      rw [hd] at hs
      cases hs with
      | inl hr => exact hr
      | inr heq => exact absurd (hn.trans heq.symm) ht
  | t :: u :: ts =>
    by_cases href : d.readable = true ∧ s.nextTokens ≠ t
    · refine hsame ?_ (specStep_refused hd href.1 href.2)
      have hne : ¬ t = P.next seq := fun heq => href.2 (hn.trans heq.symm)
      rw [accepted_long (by simp [hd]), if_pos (.inl href.1), hd, agreed, if_neg hne]
    · have hx : ∀ x ∈ sampledFromRegular s d, x = t := by
        unfold sampledFromRegular
        split
        · rename_i hr
          rintro x ⟨⟩
          by_contra hne
          exact href ⟨hr, hne⟩
        · simp
      obtain ⟨c', hholds, hstep⟩ := specStep_verified (P := P) h hd hx
      have hkept : d.draftTokens.take (acceptCount d (agreed P (seq ++ [t]) (u :: ts)).length) =
          accepted P seq d := by
        by_cases ht : t = P.next seq
        · exact take_acceptCount hd ht
        · have hr : ¬ d.readable = true := by
            intro hr
            apply href
            refine ⟨hr, ?_⟩
            rw [hn]
            exact Ne.symm ht
          obtain ⟨hzero, hnil⟩ := accepted_astray hd ht hr hs
          rw [hzero, hnil]
          rfl
      refine ⟨c', by rw [← hkept]; exact hholds, ?_⟩
      rw [hstep, adopt_append, bonus_acceptCount hd hs, hkept]

def plain (P : Params τ) (moreLayers : Nat) (prompt : List τ) (n : Nat) : GenState τ :=
  runList (exec P) (init P moreLayers prompt) (List.replicate n none)

def ongoing (P : Params τ) (prompt : List τ) (n : Nat) : Request τ :=
  ⟨continuation P prompt n, none, (continuation P prompt n).map fun t => [t]⟩

def capped (P : Params τ) (prompt : List τ) (n : Nat) : Request τ :=
  ⟨continuation P prompt n, some .length, (continuation P prompt n).map fun t => [t]⟩

def stopped (P : Params τ) (prompt : List τ) (n : Nat) : Request τ :=
  ⟨continuation P prompt n, some .stop, ((continuation P prompt n).map fun t => [t]) ++ [[]]⟩

/-- The request goes on, `n` greedy tokens are recorded and the caches hold them. -/
structure Aligned (P : Params τ) (prompt : List τ) (n : Nat) (s : GenState τ) : Prop where
  holds : Holds s.promptCache (prompt ++ continuation P prompt n)
  pending : s.nextTokens = P.next (prompt ++ continuation P prompt n)
  request : s.request = ongoing P prompt n
  noStop : ∀ t ∈ continuation P prompt n, ¬ P.stops t
  room : n = 0 ∨ (n : Int) < P.maxTokens
  count : s.numTokens ≤ n

variable {prompt : List τ} {moreLayers n : Nat}

omit [DecidableEq τ] in
theorem init_aligned (P : Params τ) (moreLayers : Nat) (prompt : List τ) :
    Aligned P prompt 0 (init P moreLayers prompt) where
  holds := by
    rw [continuation, List.append_nil]
    exact init_holds P moreLayers prompt
  pending := by
    rw [continuation, List.append_nil]
    rfl
  request := rfl
  noStop := by simp [continuation]
  room := .inl rfl
  count := Nat.le_refl 0

theorem regularStep_stop (h : Aligned P prompt n s) (hst : P.stops s.nextTokens) :
    (regularStep P s).request = stopped P prompt n := by
  simp only [regularStep, if_pos hst, Request.respond, h.request]
  rfl

theorem regularStep_cap (h : Aligned P prompt n s) (hst : ¬ P.stops s.nextTokens)
    (hcap : P.maxTokens ≤ (s.numTokens + 1 : Nat)) :
    (regularStep P s).request = capped P prompt (n + 1) := by
  have hresp : (regularStep P s).request = s.request.respond s.nextTokens (some .length) := by
    simp only [regularStep, if_neg hst, if_pos hcap]
  rw [hresp, h.request, h.pending, capped, continuation_succ, List.map_append]
  rfl

theorem regularStep_going (h : Aligned P prompt n s) (hst : ¬ P.stops s.nextTokens)
    (hcap : ¬ P.maxTokens ≤ (s.numTokens + 1 : Nat)) (hroom : ((n + 1 : Nat) : Int) < P.maxTokens) :
    Aligned P prompt (n + 1) (regularStep P s) where
  holds := by
    have hfed := h.holds.feedOne (P := P) s.nextTokens
    rw [continuation_succ, ← h.pending, ← List.append_assoc]
    exact hfed
  pending := by
    have hfed := (h.holds.feedOne (P := P) s.nextTokens).predict (P := P)
    rw [continuation_succ, ← h.pending, ← List.append_assoc]
    exact hfed
  request := by
    have hresp : (regularStep P s).request = s.request.respond s.nextTokens none := by
      simp only [regularStep, if_neg hst, if_neg hcap]
    rw [hresp, h.request, h.pending, ongoing, ongoing, continuation_succ, List.map_append]
    rfl
  noStop := by
    intro t ht
    rw [continuation_succ, List.mem_append, List.mem_singleton] at ht
    cases ht with
    | inl ht => exact h.noStop t ht
    | inr ht =>
      rw [ht, ← h.pending]
      exact hst
  room := .inr hroom
  count := Nat.succ_le_succ h.count

theorem plain_succ (P : Params τ) (moreLayers : Nat) (prompt : List τ) (n : Nat) :
    plain P moreLayers prompt (n + 1) = exec P (plain P moreLayers prompt n) none := by
  rw [plain, List.replicate_succ', runList, List.foldl_append]
  rfl

/-- The plain run records the greedy tokens, and its batch counts them all. -/
theorem plain_aligned (moreLayers : Nat) (hno : ∀ t ∈ continuation P prompt n, ¬ P.stops t)
    (hroom : n = 0 ∨ (n : Int) < P.maxTokens) :
    Aligned P prompt n (plain P moreLayers prompt n) ∧
      (plain P moreLayers prompt n).numTokens = n := by
  induction n with
  | zero => exact ⟨init_aligned P moreLayers prompt, rfl⟩
  | succ n ih =>
    rw [continuation_succ] at hno
    have hlt : ((n + 1 : Nat) : Int) < P.maxTokens := by
      cases hroom with
      | inl h => omega
      | inr h => exact h
    obtain ⟨hal, hcount⟩ := ih (fun t ht => hno t (List.mem_append_left _ ht)) (.inr (by omega))
    have hst : ¬ P.stops (plain P moreLayers prompt n).nextTokens := by
      rw [hal.pending]
      exact hno _ (List.mem_append_right _ (List.mem_singleton.mpr rfl))
    have hgo : exec P (plain P moreLayers prompt n) none =
        regularStep P (plain P moreLayers prompt n) := by
      rw [exec, if_neg (by rw [hal.request]; simp [ongoing])]
    rw [plain_succ, hgo]
    refine ⟨regularStep_going hal hst (by rw [hcount]; omega) hlt, ?_⟩
    simp only [regularStep, hcount]

/-- Where the plain run goes on, one more call is one more regular step. -/
theorem plain_step (moreLayers : Nat) (h : Aligned P prompt n s) :
    Aligned P prompt n (plain P moreLayers prompt n) ∧ (plain P moreLayers prompt n).numTokens = n ∧
      plain P moreLayers prompt (n + 1) = regularStep P (plain P moreLayers prompt n) := by
  obtain ⟨hal, hcount⟩ := plain_aligned moreLayers h.noStop h.room
  refine ⟨hal, hcount, ?_⟩
  rw [plain_succ, exec, if_neg (by rw [hal.request]; simp [ongoing])]

/-- The plain run ends with `max_tokens` tokens, none of which is a stop token. -/
theorem plain_capped (moreLayers : Nat) (hno : ∀ t ∈ continuation P prompt (n + 1), ¬ P.stops t)
    (hroom : n = 0 ∨ (n : Int) < P.maxTokens) (hmax : P.maxTokens ≤ (n + 1 : Nat)) :
    (plain P moreLayers prompt (n + 1)).request = capped P prompt (n + 1) := by
  rw [continuation_succ] at hno
  obtain ⟨hal, hcount⟩ := plain_aligned moreLayers
    (fun t ht => hno t (List.mem_append_left _ ht)) hroom
  have hst : ¬ P.stops (plain P moreLayers prompt n).nextTokens := by
    rw [hal.pending]
    exact hno _ (List.mem_append_right _ (List.mem_singleton.mpr rfl))
  rw [(plain_step moreLayers hal).2.2]
  exact regularStep_cap hal hst (by rwa [hcount])

/-- Greedy drafts without a stop token among those there is room for are
emitted as the plain run would record them. -/
theorem emit_follows {b : List τ} (hno : ∀ t ∈ continuation P prompt n, ¬ P.stops t)
    (hroom : (n : Int) < P.maxTokens)
    (hb : b = continuation P (prompt ++ continuation P prompt n) b.length)
    (hstop : ∀ t ∈ b.take (P.maxTokens - n).toNat, ¬ P.stops t) :
    ((∀ t ∈ continuation P prompt (n + b.length), ¬ P.stops t) ∧
      ((n + b.length : Nat) : Int) < P.maxTokens ∧
      (ongoing P prompt n).emit P b = ongoing P prompt (n + b.length)) ∨
    ∃ k, (∀ t ∈ continuation P prompt (k + 1), ¬ P.stops t) ∧ (k : Int) < P.maxTokens ∧
      P.maxTokens ≤ (k + 1 : Nat) ∧ (ongoing P prompt n).emit P b = capped P prompt (k + 1) := by
  induction b generalizing n with
  | nil => exact .inl ⟨hno, hroom, rfl⟩
  | cons t ts ih =>
    rw [List.length_cons, continuation, List.cons.injEq] at hb
    obtain ⟨ht, hts⟩ := hb
    obtain ⟨r, hr⟩ : ∃ r, (P.maxTokens - n).toNat = r + 1 :=
      ⟨(P.maxTokens - n).toNat - 1, by omega⟩
    rw [hr, List.take_succ_cons] at hstop
    have hst : ¬ P.stops t := hstop t (List.mem_cons_self ..)
    have heos : t ∉ P.eosTokenIds := fun hm => hst (.inl hm)
    have hsucc : continuation P prompt (n + 1) = continuation P prompt n ++ [t] := by
      rw [continuation_succ, ← ht]
    have hno' : ∀ u ∈ continuation P prompt (n + 1), ¬ P.stops u := by
      intro u hu
      rw [hsucc, List.mem_append, List.mem_singleton] at hu
      cases hu with
      | inl hu => exact hno u hu
      | inr hu => exact hu ▸ hst
    have hlen : (continuation P prompt n ++ [t]).length = n + 1 := by
      rw [← hsucc, length_continuation]
    by_cases hcap : P.maxTokens ≤ (n + 1 : Nat)
    · right
      refine ⟨n, hno', hroom, hcap, ?_⟩
      simp only [Request.emit, ongoing, hlen]
      rw [if_neg heos, if_pos hcap, capped, hsucc, List.map_append]
      rfl
    · have hemit : (ongoing P prompt n).emit P (t :: ts) = (ongoing P prompt (n + 1)).emit P ts := by
        simp only [Request.emit, ongoing, hlen]
        rw [if_neg heos, if_neg hcap, hsucc, List.map_append]
        rfl
      rw [hemit, List.length_cons, ← Nat.add_assoc, Nat.add_right_comm]
      refine ih hno' (by omega) ?_ ?_
      · rw [hsucc, ← List.append_assoc, ht]
        exact hts
      · intro u hu
        refine hstop u (List.mem_cons_of_mem _ ?_)
        have : (P.maxTokens - (n + 1 : Nat)).toNat = r := by omega
        rwa [this] at hu

/-- The regular step would record the last token there is room for, but the
batch has counted fewer. -/
def LateCap (P : Params τ) (s : GenState τ) : Prop :=
  ¬ P.stops s.nextTokens ∧ P.maxTokens ≤ (s.request.outputTokenIds.length + 1 : Nat) ∧
    ¬ P.maxTokens ≤ (s.numTokens + 1 : Nat)

/-- After a regular step that goes on, the speculative step is sound and no
accepted draft that there is room for is a stop token. -/
def SpecSafe (P : Params τ) (s : GenState τ) (d : Drafting τ) : Prop :=
  ¬ P.stops s.nextTokens → ((s.request.outputTokenIds.length + 1 : Nat) : Int) < P.maxTokens →
    Sound P (sequence s.promptCache ++ [s.nextTokens]) d ∧
      ∀ t ∈ (accepted P (sequence s.promptCache ++ [s.nextTokens]) d).take
        (P.maxTokens - (s.request.outputTokenIds.length + 1 : Nat)).toNat, ¬ P.stops t

/-- What a call needs to show what the plain run shows. -/
def Faithful (P : Params τ) (s : GenState τ) (op : Option (Drafting τ)) : Prop :=
  s.request.finishReason = none → ¬ LateCap P s ∧ ∀ d, op = some d → SpecSafe P s d

/-- A finished request with what the plain run shows after `n` calls. -/
structure Ended (P : Params τ) (moreLayers : Nat) (prompt : List τ) (n : Nat) (s : GenState τ) :
    Prop where
  request : s.request = (plain P moreLayers prompt n).request
  finished : s.request.finishReason.isSome

/-- A regular step that is not late goes on as the plain run does, or ends as it does. -/
theorem regularStep_shows (moreLayers : Nat) (h : Aligned P prompt n s) (hl : ¬ LateCap P s) :
    Ended P moreLayers prompt (n + 1) (regularStep P s) ∨
      (Aligned P prompt (n + 1) (regularStep P s) ∧ ¬ P.stops s.nextTokens ∧
        ((n + 1 : Nat) : Int) < P.maxTokens) := by
  obtain ⟨hal, hcount, hstep⟩ := plain_step moreLayers h
  have hsame : s.nextTokens = (plain P moreLayers prompt n).nextTokens := by
    rw [h.pending, hal.pending]
  by_cases hst : P.stops s.nextTokens
  · left
    have hreq := regularStep_stop h hst
    refine ⟨?_, by rw [hreq]; rfl⟩
    rw [hreq, hstep, regularStep_stop hal (hsame ▸ hst)]
  · have hlen : s.request.outputTokenIds.length = n := by
      rw [h.request]
      exact length_continuation P prompt n
    have hc := h.count
    by_cases hcap : P.maxTokens ≤ (n + 1 : Nat)
    · left
      have hcap' : P.maxTokens ≤ (s.numTokens + 1 : Nat) := by
        by_contra hno
        exact hl ⟨hst, by rw [hlen]; exact hcap, hno⟩
      have hreq := regularStep_cap h hst hcap'
      refine ⟨?_, by rw [hreq]; rfl⟩
      rw [hreq, hstep, regularStep_cap hal (hsame ▸ hst) (by rw [hcount]; exact hcap)]
    · right
      exact ⟨regularStep_going h hst (by omega) (by omega), hst, by omega⟩

omit [DecidableEq τ] in
theorem regularStep_ongoing (h : Aligned P prompt n s) : s.request.finishReason = none := by
  rw [h.request]
  rfl

def Shows (P : Params τ) (moreLayers : Nat) (prompt : List τ) (s : GenState τ) : Prop :=
  ∃ n, Ended P moreLayers prompt n s ∨ Aligned P prompt n s

/-- A faithful call leaves the request as the plain run has it after some calls. -/
theorem exec_shows (h : Aligned P prompt n s) (op : Option (Drafting τ)) (hf : Faithful P s op) :
    Shows P moreLayers prompt (exec P s op) := by
  obtain ⟨hl, hspec⟩ := hf (regularStep_ongoing h)
  have hgo : ¬ s.request.finishReason.isSome := by simp [regularStep_ongoing h]
  have hreg := regularStep_shows moreLayers h hl
  cases op with
  | none =>
    rw [exec, if_neg hgo]
    exact ⟨n + 1, hreg.imp id And.left⟩
  | some d =>
    rw [exec, if_neg hgo]
    rcases hreg with hend | ⟨hal, hst, hroom⟩
    · rw [if_pos hend.finished]
      exact ⟨n + 1, .inl hend⟩
    · rw [if_neg (by simp [regularStep_ongoing hal])]
      have hlen : s.request.outputTokenIds.length = n := by
        rw [h.request]
        exact length_continuation P prompt n
      have hseq : sequence s.promptCache ++ [s.nextTokens] = prompt ++ continuation P prompt (n + 1) := by
        rw [h.holds.sequence_eq, h.pending, continuation_succ, List.append_assoc]
      obtain ⟨hsound, hno⟩ := hspec d rfl hst (by rw [hlen]; exact hroom)
      rw [hseq] at hsound hno
      rw [hlen] at hno
      obtain ⟨c', hholds, hstep⟩ := specStep_sound hal.holds hal.pending hsound
      have hb : accepted P (prompt ++ continuation P prompt (n + 1)) d =
          continuation P (prompt ++ continuation P prompt (n + 1))
            (accepted P (prompt ++ continuation P prompt (n + 1)) d).length :=
        accepted_continuation P _ d
      rw [hstep, hal.request]
      rcases emit_follows hal.noStop hroom hb hno with ⟨hgo', hroom', heq⟩ | ⟨k, hno', hlt, hmax, heq⟩
      · refine ⟨n + 1 + (accepted P (prompt ++ continuation P prompt (n + 1)) d).length, .inr ?_⟩
        have hcont : continuation P prompt
            (n + 1 + (accepted P (prompt ++ continuation P prompt (n + 1)) d).length) =
              continuation P prompt (n + 1) ++
                accepted P (prompt ++ continuation P prompt (n + 1)) d := by
          rw [continuation_add, ← hb]
        refine ⟨?_, ?_, heq, hgo', .inr hroom', Nat.le_add_right_of_le hal.count⟩
        · rw [hcont, ← List.append_assoc]
          exact hholds
        · rw [hcont, ← List.append_assoc]
      · refine ⟨k + 1, .inl ⟨?_, ?_⟩⟩
        · rw [plain_capped moreLayers hno' (.inr hlt) hmax]
          exact heq
        · simp only [heq]
          rfl

/-- The states that calls meeting `C` reach from a prompt. -/
abbrev Reachable (P : Params τ) (moreLayers : Nat) (prompt : List τ)
    (C : GenState τ → Option (Drafting τ) → Prop) : GenState τ → Prop :=
  Reached (· = init P moreLayers prompt) C (exec P)

/-- A finished plain run stays as it is. -/
theorem plain_finished {n k : Nat} (h : (plain P moreLayers prompt n).request.finishReason.isSome)
    (hk : n ≤ k) : plain P moreLayers prompt k = plain P moreLayers prompt n := by
  induction hk with
  | refl => rfl
  | step _ ih => rw [plain_succ, ih, exec, if_pos h]

/-- A run of faithful calls shows what the run without speculation shows: the
recorded tokens, the finish reason and every streamed output, and once
finished for good. -/
theorem spec_equals_greedy (h : Reachable P moreLayers prompt (Faithful P) s) :
    ∃ n, s.request = (plain P moreLayers prompt n).request ∧
      (s.request.finishReason.isSome → ∀ k, n ≤ k →
        s.request = (plain P moreLayers prompt k).request) := by
  have hshows : Shows P moreLayers prompt s := by
    refine h.invariant ?_ ?_
    · rintro s rfl
      exact ⟨0, .inr (init_aligned P moreLayers prompt)⟩
    · rintro s op - ⟨n, hend | hal⟩ hf
      · refine ⟨n, .inl ?_⟩
        unfold exec
        rwa [if_pos hend.finished]
      · exact exec_shows hal op hf
  obtain ⟨n, hend | hal⟩ := hshows
  · refine ⟨n, hend.request, fun hfin k hk => ?_⟩
    rw [plain_finished (hend.request ▸ hfin) hk]
    exact hend.request
  · have hplain := (plain_step moreLayers hal).1
    refine ⟨n, by rw [hal.request, hplain.request], fun hfin => ?_⟩
    rw [regularStep_ongoing hal] at hfin
    simp at hfin

def upwards (maxTokens : Int) : Params Nat where
  next s := s.length + 1
  eosTokenIds := [3]
  moreStopTokens := []
  stopTokenIds := [7]
  maxTokens := maxTokens

def drafting (draftTokens : List Nat) : Option (Drafting Nat) := some ⟨.ngram, draftTokens, true⟩

theorem spec_equals_greedy_drafted :
    ∃ n, (runList (exec (upwards 10)) (init (upwards 10) 0 [4, 5, 6])
        [drafting [5, 6, 9], none]).request = (plain (upwards 10) 0 [4, 5, 6] n).request ∧
      ((runList (exec (upwards 10)) (init (upwards 10) 0 [4, 5, 6])
        [drafting [5, 6, 9], none]).request.finishReason.isSome → ∀ k, n ≤ k →
          (runList (exec (upwards 10)) (init (upwards 10) 0 [4, 5, 6])
            [drafting [5, 6, 9], none]).request = (plain (upwards 10) 0 [4, 5, 6] k).request) := by
  have hstart : Reachable (upwards 10) 0 [4, 5, 6] (Faithful (upwards 10))
      (init (upwards 10) 0 [4, 5, 6]) := .start rfl
  apply spec_equals_greedy
  apply hstart.runList
  refine ⟨fun _ => ⟨fun hl => ?_, ?_⟩, fun _ => ⟨fun hl => ?_, ?_⟩, trivial⟩
  · exact absurd hl.2.1 (by decide)
  · rintro d ⟨⟩ - -
    exact ⟨.inl rfl, by decide⟩
  · exact absurd hl.2.1 (by decide)
  · rintro d ⟨⟩

/-- The drafts run over the end of the sequence, over a stop token, and over `max_tokens`. -/
theorem accepted_stop_is_recorded :
    (runList (exec (upwards 10)) (init (upwards 10) 0 []) [drafting [2, 3]]).request =
      ⟨[1, 2, 3], some .stop, [[1], [2], [3]]⟩ ∧
    (plain (upwards 10) 0 [] 3).request = ⟨[1, 2], some .stop, [[1], [2], []]⟩ ∧
    (runList (exec (upwards 10)) (init (upwards 10) 0 [4, 4, 4, 4]) [drafting [6, 7, 8]]).request =
      ⟨[5, 6, 7, 8], none, [[5], [6], [7], [8]]⟩ ∧
    (plain (upwards 10) 0 [4, 4, 4, 4] 3).request = ⟨[5, 6], some .stop, [[5], [6], []]⟩ ∧
    (runList (exec (upwards 4)) (init (upwards 4) 0 [4, 4, 4, 4, 4, 4, 4])
      [drafting [9, 10], none, none]).request =
        ⟨[8, 9, 10, 11, 12], none, [[8], [9], [10], [11], [12]]⟩ ∧
    (plain (upwards 4) 0 [4, 4, 4, 4, 4, 4, 4] 4).request =
      ⟨[8, 9, 10, 11], some .length, [[8], [9], [10], [11]]⟩ ∧
    ∀ n, (runList (exec (upwards 10)) (init (upwards 10) 0 []) [drafting [2, 3]]).request ≠
      (plain (upwards 10) 0 [] n).request := by
  refine ⟨by decide, by decide, by decide, by decide, by decide, by decide, ?_⟩
  intro n
  have hspec : (runList (exec (upwards 10)) (init (upwards 10) 0 []) [drafting [2, 3]]).request =
      ⟨[1, 2, 3], some .stop, [[1], [2], [3]]⟩ := by decide
  have hfin : (plain (upwards 10) 0 [] 3).request.finishReason.isSome := by decide
  rw [hspec]
  match n with
  | 0 => decide
  | 1 => decide
  | 2 => decide
  | n + 3 =>
    rw [plain_finished hfin (Nat.le_add_left 3 n)]
    decide

end FusionMlx.GreedyRefinement
