import FusionMlx.Speculative.MtpRounds

/-!
# The cache of the prediction head

It has one entry for each token with the position before it, as long as each
round drafts and all drafts are accepted. A rejection takes one entry too many
back, and a round without drafting writes none.
-/
namespace FusionMlx.MtpChain

open Decoding

variable {ν : Type} {M : Model ν} {H : Head ν} {opts : Options} {prompt seq : List Nat} {L k : Nat} {s : Session ν}

def pairsAfter (L : Nat) (seq : List Nat) : List Nat → List (Position × Nat)
  | [] => []
  | x :: xs => (List.replicate L seq, x) :: pairsAfter L (seq ++ [x]) xs

def pairs (L : Nat) : List Nat → List (Position × Nat)
  | [] => []
  | x :: xs => pairsAfter L [x] xs

theorem pairsAfter_append (L : Nat) (seq xs ys : List Nat) :
    pairsAfter L seq (xs ++ ys) = pairsAfter L seq xs ++ pairsAfter L (seq ++ xs) ys := by
  induction xs generalizing seq with
  | nil => rw [List.append_nil]; rfl
  | cons x xs ih => rw [List.cons_append, pairsAfter, ih, pairsAfter, List.append_assoc, List.singleton_append, List.cons_append]

theorem pairs_append (L : Nat) {seq : List Nat} (hne : seq ≠ []) (xs : List Nat) :
    pairs L (seq ++ xs) = pairs L seq ++ pairsAfter L seq xs := by
  obtain ⟨y, ys, rfl⟩ := List.exists_cons_of_ne_nil hne
  exact pairsAfter_append L [y] ys xs

theorem zip_pairsAfter (L : Nat) (fed rest : List Nat) (y m : Nat) (hm : m ≤ rest.length) :
    (afterEach (List.replicate L) fed ((y :: rest).take m)).zip (rest.take m) = pairsAfter L (fed ++ [y]) (rest.take m) := by
  induction m generalizing fed y rest with
  | zero => rfl
  | succ m ih =>
    obtain ⟨z, zs, rfl⟩ := List.exists_cons_of_length_pos (Nat.zero_lt_of_lt hm)
    rw [List.take_succ_cons, List.take_succ_cons, afterEach, List.zip_cons_cons, pairsAfter]
    rw [ih (fed ++ [y]) zs z (Nat.le_of_succ_le_succ hm)]

/-- The entries of a chain whose calls return, with the histories that the processors see. A chain of several drafts is
told only without processors, and with the hidden states of the head. -/
theorem stepMtpChain_writes {want : Bool} {n tok : Nat} {commit : Option (Position × Nat)}
    (hn : n = 0 ∨ want = true ∧ M.processors = []) (h : ∀ i < n + 1, H.fails (s.calls + i) = none) :
    ∃ ds s', stepMtpChain M H want (n + 1) (List.replicate L seq) tok commit s = (some ds, s') ∧ ds ≠ [] ∧ Drafted s s' ∧
      s'.mtpCache = s.mtpCache.map (MtpLayer.write (commit.toList ++ pairsAfter L seq (tok :: (ds.map Prod.fst).dropLast))) ∧
      s'.handed = if M.processors.isEmpty then s.handed else s.handed ++ [M.extend s.prevTokens [tok]] := by
  induction n generalizing seq tok commit s with
  | zero =>
    obtain ⟨d, hstep⟩ := @stepMtp_returns _ M H s (h 0 Nat.one_pos) (List.replicate L seq) tok commit
    rw [stepMtpChain, hstep]
    exact ⟨[d], _, rfl, List.cons_ne_nil _ _, rfl, rfl, rfl⟩
  | succ n ih =>
    obtain ⟨rfl, hnone⟩ := hn.resolve_left (Nat.succ_ne_zero n)
    obtain ⟨d, hstep⟩ := @stepMtp_returns _ M H s (h 0 (Nat.succ_pos _)) (List.replicate L seq) tok commit
    have hnext : (List.replicate L seq).map (· ++ [tok]) = List.replicate L (seq ++ [tok]) := List.map_replicate
    rw [stepMtpChain, hstep]
    dsimp only
    rw [if_pos rfl, hnext]
    obtain ⟨ds, s', hchain, hne, hdrafted, hmtp, hhanded⟩ := @ih (seq ++ [tok]) { s with
      calls := s.calls + 1
      mtpCache := s.mtpCache.map (MtpLayer.write (commit.toList ++ [(List.replicate L seq, tok)]))
      handed := if M.processors.isEmpty then s.handed else s.handed ++ [M.extend s.prevTokens [tok]] } d.1 none
      (.inr ⟨rfl, hnone⟩) fun i hi => by
        have := h (i + 1) (Nat.succ_lt_succ hi)
        rwa [← Nat.add_assoc, Nat.add_right_comm] at this
    have hlast : d.1 :: (ds.map Prod.fst).dropLast = ((d :: ds).map Prod.fst).dropLast := by
      rw [List.map_cons, List.dropLast_cons_of_ne_nil (by simpa using hne)]
    rw [hchain]
    refine ⟨d :: ds, s', rfl, List.cons_ne_nil _ _, hdrafted, ?_, ?_⟩
    · rw [hmtp, hlast, pairsAfter, List.map_map]
      congr 1
      funext c
      simp only [Function.comp, MtpLayer.write, Option.toList_none, List.nil_append, List.append_assoc, List.singleton_append]
    · simp only [hnone, List.isEmpty_nil, if_true] at hhanded ⊢
      exact hhanded

def Session.draftIds (s : Session ν) : List Nat := (s.pendingDrafts.getD []).map Prod.fst

/-- Each history that the processors have seen runs from the last token of the prompt through some tokens that are
yielded. -/
def HistoriesCommitted (M : Model ν) (L : Nat) (prompt : List Nat) (k : Nat) (s : Session ν) : Prop :=
  ∀ history ∈ s.handed, ∃ m ≤ k, history = (soFar M L prompt m).drop (prompt.length - 1)

/-- The head's cache has the entries of what is yielded, and of the drafts but for the last. -/
structure Aligned (M : Model ν) (L : Nat) (prompt : List Nat) (k : Nat) (s : Session ν) : Prop where
  entries : ∀ c ∈ s.mtpCache, c.entries = pairs L (soFar M L prompt k ++ s.draftIds.dropLast)
  handed : HistoriesCommitted M L prompt k s

/-- The calls of the drafting return, and the drafts are in line with the tokens before them: a chain of several
drafts needs the head's own hidden states, and hands its processors the wrong history. -/
structure DraftsAligned (M : Model ν) (H : Head ν) (opts : Options) (s : Session ν) : Prop where
  pos : 1 ≤ opts.pickK s.picks
  chain : opts.pickK s.picks = 1 ∨ H.supportsHidden = true ∧ M.processors = []
  calls : ∀ i < opts.pickK s.picks, H.fails (s.calls + i) = none

theorem soFar_ne_nil (hprompt : prompt ≠ []) (k : Nat) : soFar M L prompt k ≠ [] :=
  fun h => hprompt (List.append_eq_nil_iff.1 h).1

theorem HistoriesCommitted.mono {k' : Nat} (h : HistoriesCommitted M L prompt k s) (hk : k ≤ k') :
    HistoriesCommitted M L prompt k' s := fun history hmem => by
  obtain ⟨m, hm, heq⟩ := h history hmem
  exact ⟨m, Nat.le_trans hm hk, heq⟩

/-- A chain behind a token that is yielded: `commit` is the entry that is missing before it. -/
theorem draftChain_aligned (hprompt : prompt ≠ []) (hhistory : s.prevTokens = M.history prompt.length (soFar M L prompt k))
    {n : Nat} {commit : Option (Position × Nat)} (hpos : 1 ≤ n) (hchain : n = 1 ∨ H.supportsHidden = true ∧ M.processors = [])
    (hcalls : ∀ i < n, H.fails (s.calls + i) = none)
    (hentries : ∀ c ∈ s.mtpCache, c.entries ++ commit.toList = pairs L (soFar M L prompt k))
    (hhanded : HistoriesCommitted M L prompt (k + 1) s) :
    ∃ ds s', draftChain M H (List.replicate L (soFar M L prompt k)) (M.choose L prompt.length (soFar M L prompt k)) n commit s =
        (some ds, s') ∧ Drafted s s' ∧
      (∀ c ∈ s'.mtpCache, c.entries = pairs L (soFar M L prompt (k + 1) ++ (ds.map Prod.fst).dropLast)) ∧
      HistoriesCommitted M L prompt (k + 1) s' := by
  obtain ⟨m, rfl⟩ := Nat.exists_eq_add_of_le' hpos
  have hwant : m = 0 ∨ (H.supportsHidden && decide (2 ≤ m + 1)) = true ∧ M.processors = [] := by
    obtain hone | ⟨hhidden, hnone⟩ := hchain
    · exact .inl (Nat.succ_injective hone)
    · cases m with
      | zero => exact .inl rfl
      | succ m => exact .inr ⟨by rw [hhidden]; simp, hnone⟩
  obtain ⟨ds, s', hds, -, hdrafted, hmtp, hhanded'⟩ := @stepMtpChain_writes _ M H (soFar M L prompt k) L s _ _
    (M.choose L prompt.length (soFar M L prompt k)) commit hwant hcalls
  refine ⟨ds, s', hds, hdrafted, fun c hc => ?_, fun history hmem => ?_⟩
  · rw [hmtp] at hc
    obtain ⟨b, hb, rfl⟩ := List.mem_map.1 hc
    rw [MtpLayer.write]
    dsimp only
    rw [← List.append_assoc, hentries b hb, ← pairs_append L (soFar_ne_nil hprompt k), List.append_cons, soFar_succ]
  · rw [hhanded'] at hmem
    split at hmem
    · exact hhanded history hmem
    · rename_i hsome
      obtain hold | hnew := List.mem_append.1 hmem
      · exact hhanded history hold
      · have hP : prompt.length - 1 ≤ (soFar M L prompt k).length := by
          rw [soFar, List.length_append]
          omega
        rw [List.mem_singleton, hhistory, extend_history hP, soFar_succ, Model.history, if_neg hsome] at hnew
        exact ⟨k + 1, Nat.le_refl _, hnew⟩

def KeepsGreedy (M : Model ν) (H : Head ν) (opts : Options) (L : Nat) (prompt : List Nat) (s : Session ν) : Prop :=
  match s.pendingDrafts with
  | none => s.ntoks + 1 < opts.maxTokens → M.choose L prompt.length (soFar M L prompt s.ntoks) ∉ opts.stopTokens
  | some _ =>
    let a := acceptedOf M L prompt s.ntoks s.draftIds
    KeepsStream M H opts L prompt s.draftIds s ∧
      (s.ntoks + a + 1 < opts.maxTokens → M.choose L prompt.length (soFar M L prompt (s.ntoks + a)) ∉ opts.stopTokens)

/-- A round after which the head's cache is aligned still. Without drafts the round may be the last one, or its
drafting may raise where the entry of the yielded token is written. With drafts all of them are accepted, and the
stream goes on behind them. -/
def KeepsAligned (M : Model ν) (H : Head ν) (opts : Options) (L : Nat) (prompt : List Nat) (s : Session ν) : Prop :=
  match s.pendingDrafts with
  | none =>
    opts.maxTokens ≤ s.ntoks + 1 ∨ M.choose L prompt.length (soFar M L prompt s.ntoks) ∉ opts.stopTokens ∧
      (DraftsAligned M H opts s ∨ 1 ≤ opts.pickK s.picks ∧ H.fails s.calls = some true)
  | some _ =>
    s.draftIds = continuation (M.choose L prompt.length) (soFar M L prompt s.ntoks) s.draftIds.length ∧
      s.ntoks + s.draftIds.length + 1 < opts.maxTokens ∧
      (∀ t ∈ continuation (M.choose L prompt.length) (soFar M L prompt s.ntoks) (s.draftIds.length + 1),
        t ∉ opts.stopTokens) ∧
      DraftsAligned M H opts s

theorem KeepsAligned.keepsGreedy (h : KeepsAligned M H opts L prompt s) : KeepsGreedy M H opts L prompt s := by
  rw [KeepsAligned] at h
  rw [KeepsGreedy]
  split
  · rename_i hnone
    rw [hnone] at h
    intro hroom
    exact (h.resolve_left (Nat.not_le.2 hroom)).1
  · rename_i ds hsome
    rw [hsome] at h
    obtain ⟨hids, hroom, hstop, hdrafts⟩ := h
    have hall : acceptedOf M L prompt s.ntoks s.draftIds = s.draftIds.length := agreed_eq_length.2 hids
    simp only [hall]
    rw [continuation_succ, ← hids] at hstop
    refine ⟨⟨?_, ?_, ?_, ?_⟩, fun _ => ?_⟩
    · rw [hall]
      omega
    · rw [hall, List.take_length]
      exact fun t ht => hstop t (List.mem_append_left _ ht)
    · rw [hall]
      exact fun hlt => absurd hlt (Nat.lt_irrefl _)
    · exact fun _ => hdrafts.calls
    · rw [soFar_add, ← hids]
      exact hstop _ (List.mem_append_right _ (List.mem_singleton_self _))

theorem DraftsAligned.emit {s' : Session ν} (h : DraftsAligned M H opts s) (hpicks : s'.picks = s.picks)
    (hcalls : s'.calls = s.calls) (tok : Nat) (lp : ν) (fromDraft : Bool) :
    DraftsAligned M H opts (s'.emit tok lp fromDraft) := by
  obtain ⟨hpos, hchain, hreturn⟩ := h
  rw [← hpicks] at hpos hchain hreturn
  rw [← hcalls] at hreturn
  exact ⟨hpos, hchain, hreturn⟩

/-- The backbone hands the processors what is yielded and the drafts, which are accepted. -/
theorem HistoriesCommitted.fed {s' : Session ν} (h : HistoriesCommitted M L prompt k s) {last : Nat} {drafts : List Nat}
    (hlast : (soFar M L prompt k).dropLast ++ [last] = soFar M L prompt k)
    (hdrafts : drafts = continuation (M.choose L prompt.length) (soFar M L prompt k) drafts.length)
    (hs : Undrafted s s' (M.histories prompt.length (soFar M L prompt k).dropLast (last :: drafts))) :
    HistoriesCommitted M L prompt (k + drafts.length) s' := by
  intro history hmem
  rw [hs.handed, List.mem_append] at hmem
  obtain hold | hnew := hmem
  · exact h.mono (Nat.le_add_right k _) history hold
  rw [Model.histories] at hnew
  split at hnew
  · cases hnew
  · obtain ⟨i, hi, hget⟩ := List.mem_iff_getElem.1 hnew
    have hi' : i < (last :: drafts).length := by rwa [length_afterEach] at hi
    have hvalue := @getElem?_afterEach _ _ (List.drop (prompt.length - 1)) (soFar M L prompt k).dropLast (last :: drafts) i hi'
    rw [List.getElem?_eq_getElem hi, Option.some.injEq, hget, List.take_succ_cons, List.append_cons, hlast] at hvalue
    rw [List.length_cons] at hi'
    refine ⟨k + i, by omega, ?_⟩
    rw [hvalue, hdrafts, take_continuation (Nat.le_of_lt_succ hi'), soFar_add]

/-- A chain whose first call raises behind its writing. -/
theorem draftChain_raises {n : Nat} (hpos : 1 ≤ n) (hfails : H.fails s.calls = some true) (hidden : Position) (tok : Nat) :
    draftChain M H hidden tok n none s =
      (none, { s with calls := s.calls + 1, mtpCache := s.mtpCache.map (MtpLayer.write [(hidden, tok)]) }) := by
  obtain ⟨m, rfl⟩ := Nat.exists_eq_add_of_le' hpos
  rw [draftChain, stepMtpChain, stepMtp, mtpForward, hfails]
  rfl

theorem draftGuarded_aligned (hprompt : prompt ≠ []) (hhistory : s.prevTokens = M.history prompt.length (soFar M L prompt k))
    (hentries : ∀ c ∈ s.mtpCache, c.entries = pairs L (soFar M L prompt k))
    (hhanded : HistoriesCommitted M L prompt (k + 1) s)
    (hdrafts : DraftsAligned M H opts s ∨ 1 ≤ opts.pickK s.picks ∧ H.fails s.calls = some true) :
    Aligned M L prompt (k + 1) (draftGuarded M H opts (List.replicate L (soFar M L prompt k))
      (M.choose L prompt.length (soFar M L prompt k)) s) := by
  rw [draftGuarded]
  dsimp only
  obtain hdrafts | ⟨hpos, hfails⟩ := hdrafts
  · rw [if_pos hdrafts.pos]
    obtain ⟨ds, s', hchain, -, hentries', hhanded'⟩ := @draftChain_aligned _ M H prompt L k
      { s with picks := s.picks + 1 } hprompt hhistory _ none hdrafts.pos hdrafts.chain hdrafts.calls
      (fun c hc => by rw [Option.toList_none, List.append_nil]; exact hentries c hc) hhanded
    rw [hchain]
    exact ⟨hentries', hhanded'⟩
  · have hraises := @draftChain_raises _ M H { s with picks := s.picks + 1 } _ hpos hfails
      (List.replicate L (soFar M L prompt k)) (M.choose L prompt.length (soFar M L prompt k))
    have hpair := pairs_append L (@soFar_ne_nil _ M prompt L hprompt k) [M.choose L prompt.length (soFar M L prompt k)]
    rw [soFar_succ] at hpair
    rw [if_pos hpos, hraises]
    refine ⟨fun c hc => ?_, hhanded⟩
    obtain ⟨b, hb, rfl⟩ := List.mem_map.1 hc
    have hnone : soFar M L prompt (k + 1) ++ (List.map Prod.fst ((none : Option (List (Nat × ν))).getD [])).dropLast =
        soFar M L prompt (k + 1) := List.append_nil _
    rw [MtpLayer.write, Session.draftIds]
    dsimp only
    rw [hnone, hpair, hentries b hb]
    rfl

theorem draftUnguarded_aligned {commit : Option (Position × Nat)} (hprompt : prompt ≠ [])
    (hhistory : s.prevTokens = M.history prompt.length (soFar M L prompt k))
    (hentries : ∀ c ∈ s.mtpCache, c.entries ++ commit.toList = pairs L (soFar M L prompt k))
    (hhanded : HistoriesCommitted M L prompt (k + 1) s) (hdrafts : DraftsAligned M H opts s) :
    Aligned M L prompt (k + 1) (draftUnguarded M H opts (List.replicate L (soFar M L prompt k))
      (M.choose L prompt.length (soFar M L prompt k)) commit s) := by
  obtain ⟨ds, s', hchain, -, hentries', hhanded'⟩ := @draftChain_aligned _ M H prompt L k
    { s with picks := s.picks + 1, y := [M.choose L prompt.length (soFar M L prompt k)] } hprompt hhistory _ commit
    hdrafts.pos hdrafts.chain hdrafts.calls hentries hhanded
  rw [draftUnguarded]
  dsimp only
  rw [if_pos hdrafts.pos, hchain]
  exact ⟨hentries', hhanded'⟩

structure AlignedEnd (M : Model ν) (L : Nat) (prompt : List Nat) (k : Nat) (s : Session ν) : Prop where
  entries : ∀ c ∈ s.mtpCache, c.entries = pairs L (soFar M L prompt k).dropLast
  handed : HistoriesCommitted M L prompt k s

theorem Standing.plainRound_aligned (h : Standing M L prompt k s) (hprompt : prompt ≠ []) (haligned : Aligned M L prompt k s)
    (hnone : s.pendingDrafts = none) (hkeeps : KeepsAligned M H opts L prompt s) :
    if opts.maxTokens ≤ k + 1 then AlignedEnd M L prompt (k + 1) (MtpChain.plainRound M H opts s)
    else Aligned M L prompt (k + 1) (MtpChain.plainRound M H opts s) := by
  obtain ⟨s', last, lp, hround, hsettled, hlast, hundrafted⟩ := @Standing.plainRound_eq _ M H opts _ _ _ _ h
  have hids : s.draftIds = [] := by rw [Session.draftIds, hnone]; rfl
  have hentries : ∀ c ∈ s'.mtpCache, c.entries = pairs L (soFar M L prompt k) := by
    intro c hc
    rw [hundrafted.mtpCache] at hc
    rw [haligned.entries c hc, hids, List.dropLast_nil, List.append_nil]
  have hhanded := (haligned.handed.fed hlast rfl hundrafted).mono (Nat.le_succ k)
  rw [KeepsAligned, hnone, h.ntoks] at hkeeps
  rw [hround]
  dsimp only
  by_cases hend : opts.maxTokens ≤ k + 1
  · rw [if_pos hend, if_pos hend]
    refine ⟨fun c hc => ?_, hhanded⟩
    rw [dropLast_soFar_succ]
    exact hentries c hc
  · rw [if_neg hend, if_neg hend]
    refine draftGuarded_aligned hprompt hsettled.history hentries hhanded ?_
    obtain hdrafts | hraises := (hkeeps.resolve_left hend).2
    · exact .inl (hdrafts.emit hundrafted.picks hundrafted.calls _ _ _)
    · rw [Session.emit, hundrafted.picks, hundrafted.calls]
      exact .inr hraises

theorem Standing.draftIds_ne_nil (h : Standing M L prompt k s) {drafts : List (Nat × ν)}
    (hsome : s.pendingDrafts = some drafts) :
    drafts.map Prod.fst ≠ [] := by
  intro hnil
  rw [List.map_eq_nil_iff] at hnil
  rw [hnil] at hsome
  exact h.drafts hsome

theorem Standing.verifyRound_aligned (h : Standing M L prompt k s) (hprompt : prompt ≠ []) (haligned : Aligned M L prompt k s)
    {drafts : List (Nat × ν)} (hsome : s.pendingDrafts = some drafts) (hkeeps : KeepsAligned M H opts L prompt s) :
    Aligned M L prompt (k + drafts.length + 1) (MtpChain.verifyRound M H opts drafts s) := by
  have hids : s.draftIds = drafts.map Prod.fst := by rw [Session.draftIds, hsome]; rfl
  have hgreedy := hkeeps.keepsGreedy
  rw [KeepsGreedy, hsome, hids] at hgreedy
  rw [KeepsAligned, hsome, hids, h.ntoks] at hkeeps
  obtain ⟨hall, hroom, -, hdrafts⟩ := hkeeps
  have hne := h.draftIds_ne_nil hsome
  obtain ⟨s', last, lp, commit, hround, hsettled, hcalls, hpicks, hfull⟩ := h.verifyRound hne hgreedy.1
  have haccepted : acceptedOf M L prompt k (drafts.map Prod.fst) = (drafts.map Prod.fst).length := agreed_eq_length.2 hall
  obtain ⟨hlast, hundrafted, front, d, hfront, hcommit⟩ := hfull haccepted
  rw [haccepted] at hround hsettled
  rw [List.length_map] at hround hsettled hroom
  have hend : ¬ opts.maxTokens ≤ s'.ntoks + 1 := by rw [hsettled.ntoks]; omega
  have hentries : ∀ c ∈ s'.mtpCache, c.entries ++ commit.toList = pairs L (soFar M L prompt (k + drafts.length)) := by
    intro c hc
    have hseq : soFar M L prompt (k + drafts.length) = soFar M L prompt k ++ front ++ [d] := by
      rw [List.append_assoc, ← hfront, hall, List.length_map, soFar_add]
    rw [hundrafted.mtpCache] at hc
    rw [haligned.entries c hc, hids, hfront, List.dropLast_concat, hcommit, hseq,
      pairs_append L (List.append_ne_nil_of_left_ne_nil (soFar_ne_nil hprompt k) front)]
    rfl
  have hhanded := haligned.handed.fed hlast hall hundrafted
  rw [List.length_map] at hhanded
  rw [hround, commitToken, if_neg (by exact hend)]
  refine draftUnguarded_aligned hprompt hsettled.history hentries (hhanded.mono (Nat.le_succ _)) ?_
  exact hdrafts.emit hpicks hcalls _ _ _

def greedyTokens (choose : List Nat → Nat) (stopTokens seq : List Nat) : Nat → List Nat
  | 0 => []
  | n + 1 =>
    if choose seq ∈ stopTokens then [choose seq] else choose seq :: greedyTokens choose stopTokens (seq ++ [choose seq]) n

theorem greedyTokens_add {choose : List Nat → Nat} {stopTokens : List Nat} (h : ∀ t ∈ continuation choose seq k, t ∉ stopTokens)
    (n : Nat) :
    greedyTokens choose stopTokens seq (k + n) =
      continuation choose seq k ++ greedyTokens choose stopTokens (seq ++ continuation choose seq k) n := by
  induction k generalizing seq with
  | zero => simp [continuation]
  | succ k ih =>
    have hswap : k + 1 + n = k + n + 1 := by omega
    rw [continuation] at h ⊢
    rw [hswap, greedyTokens, if_neg (h _ List.mem_cons_self), ih fun t ht => h t (List.mem_cons_of_mem _ ht)]
    simp

theorem greedyTokens_succ {choose : List Nat → Nat} {stopTokens : List Nat}
    (h : ∀ t ∈ continuation choose seq k, t ∉ stopTokens) :
    greedyTokens choose stopTokens seq (k + 1) = continuation choose seq (k + 1) := by
  rw [greedyTokens_add h, continuation_succ, greedyTokens]
  split <;> rfl

/-- The stream is that of greedy decoding: nothing has ended it but a stop token or the number of tokens, and the main
cache and the history hold all but its last token. -/
structure Greedy (M : Model ν) (opts : Options) (L : Nat) (prompt : List Nat) (s : Session ν) : Prop where
  alive : s.status ≠ .raised
  tokens : s.tokens <+: greedyTokens (M.choose L prompt.length) opts.stopTokens prompt opts.maxTokens
  complete : s.status = .returned →
    s.tokens = greedyTokens (M.choose L prompt.length) opts.stopTokens prompt opts.maxTokens
  held : ∀ c ∈ s.modelCache, c.held = (prompt ++ s.tokens).dropLast
  history : s.prevTokens = M.history prompt.length (prompt ++ s.tokens).dropLast

/-- The head's cache has one entry for each token with the position before it, also for the drafts that it has been
fed; at the end the entry of the last token may be missing. The processors have seen what is yielded. -/
structure HeadAligned (L : Nat) (prompt : List Nat) (s : Session ν) : Prop where
  running : s.status = .running → ∀ c ∈ s.mtpCache, c.entries = pairs L (prompt ++ s.tokens ++ s.draftIds.dropLast)
  returned : s.status = .returned →
    ∀ c ∈ s.mtpCache, c.entries = pairs L (prompt ++ s.tokens).dropLast ∨ c.entries = pairs L (prompt ++ s.tokens)
  handed : ∀ history ∈ s.handed, ∃ m ≤ s.tokens.length, history = (prompt ++ s.tokens.take m).drop (prompt.length - 1)

def NoStop (M : Model ν) (opts : Options) (L : Nat) (prompt : List Nat) (k : Nat) : Prop :=
  ∀ t ∈ continuation (M.choose L prompt.length) prompt k, t ∉ opts.stopTokens

structure Going (M : Model ν) (opts : Options) (L : Nat) (prompt : List Nat) (k : Nat) (s : Session ν) : Prop
    extends Standing M L prompt k s where
  room : k ≤ opts.maxTokens
  noStop : NoStop M opts L prompt k

structure Over (M : Model ν) (opts : Options) (L : Nat) (prompt : List Nat) (s : Session ν) : Prop
    extends Yielded M L prompt opts.maxTokens s where
  status : s.status = .returned
  noStop : NoStop M opts L prompt (opts.maxTokens - 1)

theorem NoStop.le {n : Nat} (h : NoStop M opts L prompt k) (hn : n ≤ k) : NoStop M opts L prompt n :=
  fun t ht => h t ((continuation_begins hn).subset ht)

theorem Going.greedy (h : Going M opts L prompt k s) : Greedy M opts L prompt s := by
  have hstatus := h.status
  have hall : k + (opts.maxTokens - k) = opts.maxTokens := Nat.add_sub_cancel' h.room
  refine ⟨by rw [hstatus]; nofun, ?_, by rw [hstatus]; nofun, ?_, ?_⟩
  · rw [h.tokens, ← hall, greedyTokens_add h.noStop]
    exact List.prefix_append _ _
  · rw [h.tokens]
    exact h.held.held
  · rw [h.tokens]
    exact h.history

theorem Over.greedy (h : Over M opts L prompt s) : Greedy M opts L prompt s := by
  have hstatus := h.status
  have hstop := h.noStop
  have hall : s.tokens = greedyTokens (M.choose L prompt.length) opts.stopTokens prompt opts.maxTokens := by
    rw [h.tokens]
    cases hmax : opts.maxTokens with
    | zero => rfl
    | succ m =>
      rw [hmax, Nat.add_sub_cancel] at hstop
      rw [greedyTokens_succ hstop]
  refine ⟨by rw [hstatus]; nofun, by rw [← hall], fun _ => hall, ?_, ?_⟩
  · rw [h.tokens]
    exact h.held.held
  · rw [h.tokens]
    exact h.history

theorem turn_running (hstatus : s.status = .running) (hroom : s.ntoks < opts.maxTokens) :
    turn M H opts s =
      match s.pendingDrafts with
      | none => plainRound M H opts s
      | some drafts => verifyRound M H opts drafts s :=
  (if_neg (not_not_intro hstatus)).trans (if_pos hroom)

theorem turn_stopped (hstatus : s.status ≠ .running) : turn M H opts s = s := by
  rw [turn, if_pos hstatus]

/-- What one turn leaves, by the number of drafts that are accepted. -/
theorem Going.next (h : Going M opts L prompt k s) (hroom : k < opts.maxTokens) (hkeeps : KeepsGreedy M H opts L prompt s) :
    NoStop M opts L prompt (k + acceptedOf M L prompt k s.draftIds) ∧
      (k + acceptedOf M L prompt k s.draftIds + 1 < opts.maxTokens →
        M.choose L prompt.length (soFar M L prompt (k + acceptedOf M L prompt k s.draftIds)) ∉ opts.stopTokens) ∧
      Next M L prompt opts.maxTokens (k + acceptedOf M L prompt k s.draftIds + 1) (turn M H opts s) := by
  rw [turn_running h.status (by rw [h.ntoks]; exact hroom)]
  rw [KeepsGreedy] at hkeeps
  split
  · rename_i hnone
    have hids : s.draftIds = [] := by rw [Session.draftIds, hnone]; rfl
    rw [hnone, h.ntoks] at hkeeps
    rw [hids]
    exact ⟨h.noStop, hkeeps, h.toStanding.plainRound hroom⟩
  · rename_i drafts hsome
    have hids : s.draftIds = drafts.map Prod.fst := by rw [Session.draftIds, hsome]; rfl
    rw [hsome, hids] at hkeeps
    obtain ⟨hstream, hchoice⟩ := hkeeps
    obtain ⟨s', last, lp, commit, hround, hsettled, hcalls, hpicks, -⟩ :=
      h.toStanding.verifyRound (h.toStanding.draftIds_ne_nil hsome) hstream
    obtain ⟨hend, hnoStop, -, hreturn⟩ := hstream
    rw [h.ntoks] at hchoice hend hnoStop hreturn
    rw [hids, hround]
    refine ⟨?_, hchoice, hsettled.commit hend lp _ commit ?_⟩
    · rw [NoStop, continuation_add, ← soFar, acceptedOf, ← take_agreed]
      intro t ht
      obtain hold | hnew := List.mem_append.1 ht
      · exact h.noStop t hold
      · exact hnoStop t hnew
    · rw [hpicks, hcalls]
      exact hreturn

/-- A turn yields the accepted drafts and one token more, or ends the stream. -/
theorem Going.step (h : Going M opts L prompt k s) (hroom : k < opts.maxTokens) (hkeeps : KeepsGreedy M H opts L prompt s) :
    (k + acceptedOf M L prompt k s.draftIds + 1 < opts.maxTokens ∧
        Going M opts L prompt (k + acceptedOf M L prompt k s.draftIds + 1) (turn M H opts s)) ∨
      k + acceptedOf M L prompt k s.draftIds + 1 = opts.maxTokens ∧ Over M opts L prompt (turn M H opts s) := by
  obtain ⟨hstop, hchoice, hnext⟩ := h.next hroom hkeeps
  cases hnext with
  | finished hyielded hstatus hmax =>
    refine .inr ⟨hmax, ?_, hstatus, ?_⟩
    · rwa [hmax] at hyielded
    · rw [← hmax]
      exact hstop
  | standing hstanding hmore =>
    refine .inl ⟨hmore, hstanding, hmore.le, ?_⟩
    intro t ht
    rw [continuation_succ] at ht
    obtain hold | hnew := List.mem_append.1 ht
    · exact hstop t hold
    · rw [List.mem_singleton.1 hnew]
      exact hchoice hmore

/-- A turn of an aligned stream. -/
theorem Going.aligned (h : Going M opts L prompt k s) (hprompt : prompt ≠ []) (hroom : k < opts.maxTokens)
    (haligned : Aligned M L prompt k s) (hkeeps : KeepsAligned M H opts L prompt s) :
    (k + acceptedOf M L prompt k s.draftIds + 1 < opts.maxTokens →
        Aligned M L prompt (k + acceptedOf M L prompt k s.draftIds + 1) (turn M H opts s)) ∧
      (k + acceptedOf M L prompt k s.draftIds + 1 = opts.maxTokens →
        AlignedEnd M L prompt opts.maxTokens (turn M H opts s)) := by
  rw [turn_running h.status (by rw [h.ntoks]; exact hroom)]
  split
  · rename_i hnone
    have hround := h.toStanding.plainRound_aligned hprompt haligned hnone hkeeps
    have hids : s.draftIds = [] := by rw [Session.draftIds, hnone]; rfl
    have hcount : k + acceptedOf M L prompt k s.draftIds + 1 = k + 1 := by rw [hids]; rfl
    rw [hcount]
    refine ⟨fun hmore => ?_, fun hend => ?_⟩
    · rwa [if_neg (Nat.not_le.2 hmore)] at hround
    · rwa [if_pos hend.ge, hend] at hround
  · rename_i drafts hsome
    have hround := h.toStanding.verifyRound_aligned hprompt haligned hsome hkeeps
    have hids : s.draftIds = drafts.map Prod.fst := by rw [Session.draftIds, hsome]; rfl
    rw [KeepsAligned, hsome, h.ntoks] at hkeeps
    have hcount : acceptedOf M L prompt k s.draftIds = drafts.length := by
      rw [← List.length_map, ← hids]
      exact agreed_eq_length.2 hkeeps.1
    have hmore := hkeeps.2.1
    rw [hids, List.length_map] at hmore
    rw [hcount]
    exact ⟨fun _ => hround, fun hend => absurd hend (Nat.ne_of_lt hmore)⟩

theorem Going.headAligned (h : Going M opts L prompt k s) (haligned : Aligned M L prompt k s) : HeadAligned L prompt s := by
  have hstatus := h.status
  refine ⟨fun _ => ?_, by rw [hstatus]; nofun, ?_⟩
  · rw [h.tokens]
    exact haligned.entries
  · intro history hmem
    obtain ⟨m, hm, heq⟩ := haligned.handed history hmem
    refine ⟨m, by rwa [h.tokens, length_continuation], ?_⟩
    rw [h.tokens, take_continuation hm, heq, soFar]

theorem Over.headAligned (h : Over M opts L prompt s) (hend : AlignedEnd M L prompt opts.maxTokens s) :
    HeadAligned L prompt s := by
  have hstatus := h.status
  refine ⟨by rw [hstatus]; nofun, fun _ c hc => .inl ?_, ?_⟩
  · rw [h.tokens]
    exact hend.entries c hc
  · intro history hmem
    obtain ⟨m, hm, heq⟩ := hend.handed history hmem
    refine ⟨m, by rwa [h.tokens, length_continuation], ?_⟩
    rw [h.tokens, take_continuation hm, heq, soFar]

structure Prefilling (stepSize L : Nat) (prompt fed yy : List Nat) (s : Session ν) : Prop where
  split : fed ++ yy = prompt
  rest : yy ≠ []
  status : s.status = .running
  held : Holds L fed s.modelCache
  entries : ∀ c ∈ s.mtpCache, c.entries = pairs L (fed ++ yy.take 1)
  calls : 1 < yy.length → s.calls * stepSize ≤ fed.length

/-- What the prefill does not touch. -/
structure Untouched (s s' : Session ν) : Prop where
  prevTokens : s'.prevTokens = s.prevTokens
  pendingDrafts : s'.pendingDrafts = s.pendingDrafts
  yielded : s'.yielded = s.yielded
  ntoks : s'.ntoks = s.ntoks
  handed : s'.handed = s.handed

/-- One chunk, of at least one token and at most all but the last. -/
theorem Prefilling.chunk {stepSize m : Nat} {fed yy : List Nat} (h : Prefilling stepSize L prompt fed yy s)
    (hm : m < yy.length) (hpos : 0 < m) (hfull : m + 1 < yy.length → stepSize ≤ m) :
    Prefilling stepSize L prompt (fed ++ yy.take m) (yy.drop m)
      { s with
        modelCache := s.modelCache.map (Layer.feed (yy.take m) 0)
        calls := s.calls + 1
        mtpCache := s.mtpCache.map (MtpLayer.write ((positions s.modelCache (yy.take m)).zip ((yy.take (m + 1)).drop 1))) } := by
  obtain ⟨y, rest, rfl⟩ := List.exists_cons_of_ne_nil h.rest
  have hsplit : fed ++ (y :: rest).take m ++ (y :: rest).drop m = prompt := by
    rw [List.append_assoc, List.take_append_drop, h.split]
  rw [List.length_cons] at hm hfull
  refine ⟨hsplit, ?_, h.status, h.held.feed _ _, fun c hc => ?_, fun hmore => ?_⟩
  · exact List.ne_nil_of_length_pos (by rw [List.length_drop, List.length_cons]; omega)
  · obtain ⟨b, hb, rfl⟩ := List.mem_map.1 hc
    have htake : fed ++ (y :: rest).take m ++ ((y :: rest).drop m).take 1 = fed ++ [y] ++ rest.take m := by
      rw [List.append_assoc, ← List.take_add, List.take_succ_cons, List.append_assoc, List.singleton_append]
    have hne : fed ++ [y] ≠ [] := List.append_ne_nil_of_right_ne_nil _ (List.cons_ne_nil _ _)
    rw [MtpLayer.write, htake, pairs_append L hne]
    dsimp only
    have hnext : ((y :: rest).take (m + 1)).drop 1 = rest.take m := rfl
    rw [h.entries b hb, h.held.positions, hnext, zip_pairsAfter L fed rest y m (Nat.le_of_lt_succ hm)]
    rfl
  · rw [List.length_drop, List.length_cons] at hmore
    have hold := h.calls (by rw [List.length_cons]; omega)
    have hstep := hfull (by omega)
    rw [List.length_append, List.length_take, List.length_cons, Nat.min_eq_left (by omega), Nat.succ_mul]
    omega

/-- The induction is on the bound of the chunks. -/
theorem prefill_eq {stepSize n : Nat} {fed yy : List Nat} (hstep : 0 < stepSize) (h : Prefilling stepSize L prompt fed yy s)
    (hcalls : ∀ i, i * stepSize + 1 < prompt.length → H.fails i = none) (hn : yy.length ≤ n) :
    ∃ fed' last, Prefilling stepSize L prompt fed' [last] (prefill H stepSize n yy s).2 ∧
      (prefill H stepSize n yy s).1 = [last] ∧ Untouched s (prefill H stepSize n yy s).2 := by
  induction n generalizing fed yy s with
  | zero => exact absurd (List.length_eq_zero_iff.1 (Nat.le_zero.1 hn)) h.rest
  | succ n ih =>
    have hpos := List.length_pos_iff.2 h.rest
    rw [prefill]
    by_cases hmore : 1 < yy.length
    · have hlen := congrArg List.length h.split
      rw [List.length_append] at hlen
      have hreturns : H.fails s.calls = none := hcalls s.calls (by have := h.calls hmore; omega)
      have hchunk := @Prefilling.chunk _ prompt L s stepSize (min stepSize (yy.length - 1)) fed yy h (by omega) (by omega)
        (by omega)
      rw [if_pos ⟨hmore, h.status⟩]
      dsimp only
      rw [mtpForward_returns (by exact hreturns)]
      dsimp only [Option.isSome_some]
      rw [if_pos rfl]
      obtain ⟨fed', last, hdone, hlast, huntouched⟩ := ih hchunk (by rw [List.length_drop]; omega)
      exact ⟨fed', last, hdone, hlast, huntouched.prevTokens, huntouched.pendingDrafts, huntouched.yielded, huntouched.ntoks,
        huntouched.handed⟩
    · obtain ⟨last, rfl⟩ := List.length_eq_one_iff.1 (Nat.le_antisymm (Nat.not_lt.1 hmore) hpos)
      rw [if_neg fun hand => hmore hand.1]
      exact ⟨fed, last, h, rfl, rfl, rfl, rfl, rfl, rfl⟩

theorem fresh_prefilling (hprompt : prompt ≠ []) (layers : List (Bool × Bool)) (mtpLayers : List Bool) (stepSize : Nat) :
    Prefilling stepSize layers.length prompt [] prompt (Session.fresh layers mtpLayers : Session ν) := by
  refine ⟨rfl, hprompt, rfl, ⟨List.length_map _, fun c hc => ?_⟩, fun c hc => ?_, fun _ => ?_⟩
  · obtain ⟨l, -, rfl⟩ := List.mem_map.1 hc
    rfl
  · obtain ⟨trimmable, -, rfl⟩ := List.mem_map.1 hc
    obtain ⟨y, rest, rfl⟩ := List.exists_cons_of_ne_nil hprompt
    rfl
  · rw [Session.fresh, Nat.zero_mul]
    exact Nat.zero_le _

/-- The prefill leaves a stream that goes on. -/
theorem start_going {layers : List (Bool × Bool)} {mtpLayers : List Bool} {stepSize : { n : Nat // 0 < n }}
    (hprompt : prompt ≠ []) (hcalls : ∀ i, i * stepSize.val + 1 < prompt.length → H.fails i = none) :
    Going M opts layers.length prompt 0 (start H layers mtpLayers stepSize prompt) ∧
      Aligned M layers.length prompt 0 (start H layers mtpLayers stepSize prompt) ∧
      (start H layers mtpLayers stepSize prompt).draftIds = [] := by
  obtain ⟨fed, last, hdone, hlast, huntouched⟩ :=
    prefill_eq stepSize.property (fresh_prefilling hprompt layers mtpLayers stepSize) hcalls (Nat.le_refl prompt.length)
  have hsoFar : soFar M layers.length prompt 0 = prompt := List.append_nil _
  have hfront : (soFar M layers.length prompt 0).dropLast = fed := by
    rw [hsoFar, ← hdone.split, List.dropLast_concat]
  have hhistory : M.history prompt.length fed = [] := by
    rw [Model.history, ← hdone.split, List.length_append, List.length_singleton, Nat.add_sub_cancel, List.drop_length]
    split <;> rfl
  obtain ⟨hprev, hpending, hyielded, hntoks, hhanded⟩ := huntouched
  rw [start]
  dsimp only
  refine ⟨⟨⟨⟨hntoks, ?_, ?_, ?_⟩, hdone.status, ⟨last, hlast, ?_⟩, ?_⟩, Nat.zero_le _, fun _ h => absurd h List.not_mem_nil⟩,
    ⟨?_, ?_⟩, ?_⟩
  · rw [Session.tokens, hyielded]
    rfl
  · rw [hfront]
    exact hdone.held
  · rw [hfront, hhistory, hprev]
    rfl
  · rw [hfront, hsoFar, hdone.split]
  · rw [hpending]
    rintro ⟨⟩
  · intro c hc
    have hentries := hdone.entries c hc
    rw [Session.draftIds, hpending, hsoFar, hentries, List.take_of_length_le (Nat.le_refl 1), hdone.split]
    exact congrArg (pairs _) (List.append_nil _).symm
  · rw [HistoriesCommitted, hhanded]
    rintro _ ⟨⟩
  · rw [Session.draftIds, hpending]
    rfl

theorem Over.turn_eq (h : Over M opts L prompt s) : turn M H opts s = s :=
  turn_stopped (by rw [h.status]; nofun)

/-- A turn where all tokens are yielded; there are none to yield. -/
theorem Going.stop (h : Going M opts L prompt k s) (hmax : k = opts.maxTokens) : Over M opts L prompt (turn M H opts s) := by
  have hend : ¬ s.ntoks < opts.maxTokens := by rw [h.ntoks, hmax]; exact Nat.lt_irrefl _
  rw [turn, if_neg (not_not_intro h.status), if_neg hend]
  subst hmax
  exact ⟨⟨h.ntoks, h.tokens, h.held, h.history⟩, rfl, h.noStop.le (Nat.sub_le _ _)⟩

theorem Going.stop_aligned (h : Going M opts L prompt k s) (hmax : k = opts.maxTokens) (haligned : Aligned M L prompt k s)
    (hids : s.draftIds = []) : HeadAligned L prompt (turn M H opts s) := by
  obtain ⟨hrunning, -, hhanded⟩ := h.headAligned haligned
  have hentries := hrunning h.status
  have hend : ¬ s.ntoks < opts.maxTokens := by rw [h.ntoks, hmax]; exact Nat.lt_irrefl _
  rw [turn, if_neg (not_not_intro h.status), if_neg hend]
  rw [hids, List.dropLast_nil, List.append_nil] at hentries
  exact ⟨nofun, fun _ c hc => .inr (hentries c hc), hhanded⟩

/-- The induction is on the number of turns; each yields a token. -/
theorem run_greedy (h : Going M opts L prompt 0 s) (n : Nat)
    (hkeeps : ∀ i < n, (run M H opts s i).status = .running → KeepsGreedy M H opts L prompt (run M H opts s i)) :
    (∃ k, n ≤ k ∧ Going M opts L prompt k (run M H opts s n)) ∨ Over M opts L prompt (run M H opts s n) := by
  induction n with
  | zero => exact .inl ⟨0, Nat.le_refl 0, h⟩
  | succ n ih =>
    rw [run]
    obtain ⟨k, hk, hgoing⟩ | hover := ih fun i hi => hkeeps i (Nat.lt_succ_of_lt hi)
    · obtain hmax | hroom := Nat.eq_or_lt_of_le hgoing.room
      · exact .inr (hgoing.stop hmax)
      · obtain ⟨-, hnext⟩ | ⟨-, hover⟩ := hgoing.step hroom (hkeeps n (Nat.lt_succ_self n) hgoing.status)
        · exact .inl ⟨_, by omega, hnext⟩
        · exact .inr hover
    · rw [hover.turn_eq]
      exact .inr hover

/-- As `run_greedy`, with the head's cache. -/
theorem run_aligned (hprompt : prompt ≠ []) (h : Going M opts L prompt 0 s) (haligned : Aligned M L prompt 0 s)
    (hnone : s.draftIds = []) (n : Nat)
    (hkeeps : ∀ i < n, (run M H opts s i).status = .running → KeepsAligned M H opts L prompt (run M H opts s i)) :
    (∃ k, Going M opts L prompt k (run M H opts s n) ∧ Aligned M L prompt k (run M H opts s n) ∧
        (k < opts.maxTokens ∨ (run M H opts s n).draftIds = [])) ∨
      Over M opts L prompt (run M H opts s n) ∧ HeadAligned L prompt (run M H opts s n) := by
  induction n with
  | zero => exact .inl ⟨0, h, haligned, .inr hnone⟩
  | succ n ih =>
    rw [run]
    obtain ⟨k, hgoing, haligned, hlate⟩ | ⟨hover, hend⟩ := ih fun i hi => hkeeps i (Nat.lt_succ_of_lt hi)
    · obtain hmax | hroom := Nat.eq_or_lt_of_le hgoing.room
      · have hids := hlate.resolve_left (by omega)
        exact .inr ⟨hgoing.stop hmax, hgoing.stop_aligned hmax haligned hids⟩
      · have hkeep := hkeeps n (Nat.lt_succ_self n) hgoing.status
        obtain ⟨hnext, hlast⟩ := hgoing.aligned hprompt hroom haligned hkeep
        obtain ⟨hmore, hgoing'⟩ | ⟨hmax, hover⟩ := hgoing.step hroom hkeep.keepsGreedy
        · exact .inl ⟨_, hgoing', hnext hmore, .inl hmore⟩
        · exact .inr ⟨hover, hover.headAligned (hlast hmax)⟩
    · rw [hover.turn_eq]
      exact .inr ⟨hover, hend⟩

theorem stream_greedy (M : Model ν) (H : Head ν) (opts : Options) (layers : List (Bool × Bool))
    (mtpLayers : List Bool) (stepSize : { n : Nat // 0 < n }) (prompt : List Nat) (hprompt : prompt ≠ [])
    (hprefill : ∀ i, i * stepSize.val + 1 < prompt.length → H.fails i = none) (n : Nat)
    (hkeeps : ∀ i < n, (run M H opts (start H layers mtpLayers stepSize prompt) i).status = .running →
      KeepsGreedy M H opts layers.length prompt (run M H opts (start H layers mtpLayers stepSize prompt) i)) :
    Greedy M opts layers.length prompt (run M H opts (start H layers mtpLayers stepSize prompt) n) ∧
      (opts.maxTokens < n →
        (run M H opts (start H layers mtpLayers stepSize prompt) n).status = .returned) := by
  obtain ⟨hgoing, -, -⟩ := @start_going _ M H opts prompt layers mtpLayers stepSize hprompt hprefill
  obtain ⟨k, hk, hgoing'⟩ | hover := run_greedy hgoing n hkeeps
  · exact ⟨hgoing'.greedy, fun hlong => absurd (Nat.le_trans hk hgoing'.room) (Nat.not_le.2 hlong)⟩
  · exact ⟨hover.greedy, fun _ => hover.status⟩

/-- The whole generator yields the greedy stream and returns, when every round keeps it. -/
theorem mtpGenerateStep_greedy (M : Model ν) (H : Head ν) (opts : Options) (layers : List (Bool × Bool))
    (mtpLayers : List Bool) (stepSize : { n : Nat // 0 < n }) (prompt : List Nat) (hprompt : prompt ≠ [])
    (hprefill : ∀ i, i * stepSize.val + 1 < prompt.length → H.fails i = none)
    (hkeeps : ∀ i ≤ opts.maxTokens,
      (run M H opts (start H layers mtpLayers stepSize prompt) i).status = .running →
        KeepsGreedy M H opts layers.length prompt (run M H opts (start H layers mtpLayers stepSize prompt) i)) :
    (mtpGenerateStep M H opts layers mtpLayers stepSize prompt).status = .returned ∧
      (mtpGenerateStep M H opts layers mtpLayers stepSize prompt).tokens =
        greedyTokens (M.choose layers.length prompt.length) opts.stopTokens prompt opts.maxTokens := by
  obtain ⟨hgreedy, hreturned⟩ := stream_greedy M H opts layers mtpLayers stepSize prompt hprompt hprefill
    (opts.maxTokens + 1) fun i hi => hkeeps i (Nat.le_of_lt_succ hi)
  have hdone := hreturned (Nat.lt_succ_self _)
  exact ⟨hdone, hgreedy.complete hdone⟩

/-- In every run whose rounds keep the stream, it is the greedy one; in every run whose rounds keep the head's cache
aligned, that is aligned too. -/
theorem chain_keeps_greedy (M : Model ν) (H : Head ν) (opts : Options) (layers : List (Bool × Bool)) (mtpLayers : List Bool)
    (stepSize : { n : Nat // 0 < n }) (prompt : List Nat) (hprompt : prompt ≠ [])
    (hprefill : ∀ i, i * stepSize.val + 1 < prompt.length → H.fails i = none) (n : Nat) :
    let s := run M H opts (start H layers mtpLayers stepSize prompt)
    ((∀ i < n, (s i).status = .running → KeepsGreedy M H opts layers.length prompt (s i)) →
      Greedy M opts layers.length prompt (s n) ∧ (opts.maxTokens < n → (s n).status = .returned)) ∧
    ((∀ i < n, (s i).status = .running → KeepsAligned M H opts layers.length prompt (s i)) →
      Greedy M opts layers.length prompt (s n) ∧ HeadAligned layers.length prompt (s n) ∧
        (opts.maxTokens < n → (s n).status = .returned)) := by
  obtain ⟨hgoing, haligned, hnone⟩ := @start_going _ M H opts prompt layers mtpLayers stepSize hprompt hprefill
  have hgreedy := fun hkeeps => stream_greedy M H opts layers mtpLayers stepSize prompt hprompt hprefill n hkeeps
  refine ⟨hgreedy, fun hkeeps => ?_⟩
  obtain ⟨hstream, hreturned⟩ := hgreedy fun i hi hstatus => (hkeeps i hi hstatus).keepsGreedy
  refine ⟨hstream, ?_, hreturned⟩
  obtain ⟨k, hgoing', haligned', -⟩ | ⟨-, hend⟩ := run_aligned hprompt hgoing haligned hnone n hkeeps
  · exact hgoing'.headAligned haligned'
  · exact hend

def counting : Model Nat where
  logits := fun position => (position.headD []).length
  normalize := id
  argmax := id
  processors := []

def countingHead (scores : Nat → Nat) (fails : Nat → Option Bool) : Head Nat where
  scores := scores
  fails := fails
  supportsHidden := true

def countingOptions (maxTokens : Nat) : Options where
  maxTokens := maxTokens
  stopTokens := []
  pickK := fun _ => 1

/-- Two rounds of a head that drafts what the model counts. -/
theorem chain_keeps_greedy_counting :
    let H := countingHead (2 * · + 2) fun _ => none
    let s := run counting H (countingOptions 10) (start H [(true, false), (false, true)] [true] ⟨4, by decide⟩ [7])
    [7] ≠ ([] : List Nat) ∧ (∀ i, i * 4 + 1 < [7].length → H.fails i = none) ∧
      (∀ i < 2, (s i).status = .running → KeepsAligned counting H (countingOptions 10) 2 [7] (s i)) ∧
      Greedy counting (countingOptions 10) 2 [7] (s 2) ∧ HeadAligned 2 [7] (s 2) := by
  intro H s
  have hprompt : [7] ≠ ([] : List Nat) := List.cons_ne_nil _ _
  have hprefill : ∀ i, i * 4 + 1 < [7].length → H.fails i = none := fun _ _ => rfl
  have hkeeps : ∀ i < 2, (s i).status = .running → KeepsAligned counting H (countingOptions 10) 2 [7] (s i) := by
    intro i hi _
    have hdrafts : ∀ s, DraftsAligned counting H (countingOptions 10) s := fun _ => ⟨Nat.le_refl 1, .inl rfl, fun _ _ => rfl⟩
    obtain rfl | rfl : i = 0 ∨ i = 1 := by omega
    · exact .inr ⟨nofun, .inl (hdrafts _)⟩
    · exact ⟨rfl, by decide, nofun, hdrafts _⟩
  have hrun := (chain_keeps_greedy counting H (countingOptions 10) [(true, false), (false, true)] [true] ⟨4, by decide⟩ [7]
    hprompt hprefill 2).2 hkeeps
  exact ⟨hprompt, hprefill, hkeeps, hrun.1, hrun.2.1⟩

/-- A head that raises behind accepted drafts ends the stream; a rejected draft takes the entry of the token before
it along; a stream that ends in a draft leaves that draft in the main cache. -/
theorem chain_goes_wrong :
    let failing := countingHead (2 * · + 2) fun n => if n = 1 then some false else none
    let wrong := countingHead (fun _ => 9) fun _ => none
    let right := countingHead (2 * · + 2) fun _ => none
    ¬ Greedy counting (countingOptions 10) 1 [7]
      (run counting failing (countingOptions 10) (start failing [(true, false)] [true] ⟨4, by decide⟩ [7]) 2) ∧
    ¬ HeadAligned 1 [7]
      (run counting wrong (countingOptions 10) (start wrong [(true, false)] [true] ⟨4, by decide⟩ [7]) 2) ∧
    ¬ Greedy counting (countingOptions 2) 1 [7]
      (run counting right (countingOptions 2) (start right [(true, false)] [true] ⟨4, by decide⟩ [7]) 2) := by
  refine ⟨fun h => h.alive rfl, fun h => ?_, fun h => ?_⟩
  · have hentries := h.running rfl ⟨[([[7, 1]], 2)], true⟩ (by decide)
    revert hentries
    decide
  · have hheld := h.held ⟨[7, 1, 2], true, none⟩ (by decide)
    revert hheld
    decide

end FusionMlx.MtpChain
