import FusionMlx.Speculative.MtpChain

/-!
# The stream of a chain of drafts

Drafts that the model rejects are taken back from the main cache and from the
token history, so the tokens are those of greedy decoding, as long as the
stream does not end inside the drafts and the drafting behind them does not
raise.
-/
namespace FusionMlx.MtpChain

open Decoding

variable {ν : Type} {M : Model ν} {H : Head ν} {opts : Options} {prompt seq xs : List Nat} {L P k : Nat} {s : Session ν}

/-- The token that is picked behind a sequence which all layers hold. The processors see it from the last token of
the prompt on. -/
def Model.pick (M : Model ν) (L P : Nat) (seq : List Nat) : Nat × ν :=
  M.processAndSample (seq.drop (P - 1)) (M.logits (List.replicate L seq))

def Model.choose (M : Model ν) (L P : Nat) (seq : List Nat) : Nat := (M.pick L P seq).1

def Model.history (M : Model ν) (P : Nat) (seq : List Nat) : List Nat :=
  if M.processors.isEmpty then [] else seq.drop (P - 1)

def Model.histories (M : Model ν) (P : Nat) (seq xs : List Nat) : List (List Nat) :=
  if M.processors.isEmpty then [] else afterEach (List.drop (P - 1)) seq xs

/-- All layers hold a sequence. -/
structure Holds (L : Nat) (seq : List Nat) (cache : List Layer) : Prop where
  layers : cache.length = L
  held : ∀ c ∈ cache, c.held = seq

theorem processAndSample_history (logits : ν) :
    M.processAndSample (M.history P seq) logits = M.processAndSample (seq.drop (P - 1)) logits := by
  rw [Model.history]
  split
  · rename_i h
    rw [Model.processAndSample, Model.processAndSample, List.isEmpty_iff.1 h]
    rfl
  · rfl

theorem extend_history (h : P - 1 ≤ seq.length) (xs : List Nat) : M.extend (M.history P seq) xs = M.history P (seq ++ xs) := by
  rw [Model.extend, Model.history, Model.history]
  split
  · rfl
  · rw [List.drop_append_of_le_length h]

theorem history_take (h : P - 1 ≤ seq.length) (xs : List Nat) (n : Nat) :
    (if M.processors.isEmpty then M.history P (seq ++ xs)
      else (M.history P (seq ++ xs)).take ((M.history P (seq ++ xs)).length - (xs.length - n))) =
      M.history P (seq ++ xs.take n) := by
  rw [Model.history, Model.history]
  split
  · rfl
  · rw [List.drop_append_of_le_length h, List.drop_append_of_le_length h, List.length_append]
    obtain hn | hn := Nat.le_total xs.length n
    · rw [Nat.sub_eq_zero_of_le hn, List.take_of_length_le hn, Nat.sub_zero, ← List.length_append, List.take_length]
    · have hlen : (seq.drop (P - 1)).length + xs.length - (xs.length - n) = (seq.drop (P - 1)).length + n := by omega
      rw [hlen, List.take_length_add_append]

theorem Holds.map_held {cache : List Layer} (h : Holds L seq cache) (fed : List Nat) :
    (cache.map fun c => c.held ++ fed) = List.replicate L (seq ++ fed) := by
  rw [← h.layers, List.eq_replicate_iff]
  refine ⟨List.length_map _, fun p hp => ?_⟩
  obtain ⟨c, hc, rfl⟩ := List.mem_map.1 hp
  rw [h.held c hc]

theorem Holds.positions {cache : List Layer} (h : Holds L seq cache) (xs : List Nat) :
    positions cache xs = afterEach (List.replicate L) seq xs := by
  have hshift := afterEach_shift (List.replicate L) seq [] xs
  rw [List.append_nil] at hshift
  rw [MtpChain.positions, ← hshift]
  congr 1
  funext fed
  exact h.map_held fed

theorem Holds.feed {cache : List Layer} (h : Holds L seq cache) (xs : List Nat) (n : Nat) :
    Holds L (seq ++ xs) (cache.map (Layer.feed xs n)) := by
  refine ⟨by rw [List.length_map, h.layers], fun c hc => ?_⟩
  obtain ⟨b, hb, rfl⟩ := List.mem_map.1 hc
  simp only [Layer.feed, h.held b hb]

theorem predict_eq (hP : P - 1 ≤ seq.length) (hs : s.prevTokens = M.history P seq) (yy : List Nat) :
    predict M yy (afterEach (fun q => M.logits (List.replicate L q)) seq yy) s =
      (afterEach (M.pick L P) seq yy,
        { s with prevTokens := M.history P (seq ++ yy), handed := s.handed ++ M.histories P seq yy }) := by
  induction yy generalizing seq s with
  | nil =>
    have hnone : M.histories P seq [] = [] := by
      rw [Model.histories]
      split <;> rfl
    rw [hnone, List.append_nil, List.append_nil, ← hs]
    rfl
  | cons y yy ih =>
    have hP' : P - 1 ≤ (seq ++ [y]).length := by
      rw [List.length_append]
      omega
    have hhand : (if M.processors.isEmpty then s.handed else s.handed ++ [M.history P (seq ++ [y])]) ++
        M.histories P (seq ++ [y]) yy = s.handed ++ M.histories P seq (y :: yy) := by
      simp only [Model.histories, Model.history, afterEach]
      split
      · rfl
      · rw [List.append_assoc, List.singleton_append]
    rw [afterEach, predict, hs, extend_history hP, afterEach]
    rw [ih hP' rfl]
    simp only [Session.hand, hhand, processAndSample_history, List.append_assoc, List.singleton_append]
    rfl

theorem stepBackbone_eq (hP : P - 1 ≤ seq.length) (hheld : Holds L seq s.modelCache) (hs : s.prevTokens = M.history P seq)
    (yy : List Nat) (nConfirmed : Nat) :
    stepBackbone M yy yy.length nConfirmed s =
      (afterEach (M.pick L P) seq yy, afterEach (List.replicate L) seq yy,
        { s with
          modelCache := s.modelCache.map (Layer.feed yy nConfirmed)
          prevTokens := M.history P (seq ++ yy)
          handed := s.handed ++ M.histories P seq yy }) := by
  have hrows : (afterEach (List.replicate L) seq yy).map M.logits =
      afterEach (fun q => M.logits (List.replicate L q)) seq yy := map_afterEach ..
  simp only [stepBackbone, hheld.positions, length_afterEach, Nat.sub_self, List.drop_zero, hrows]
  rw [predict_eq hP (by exact hs)]

def Drafted (s s' : Session ν) : Prop :=
  s' = { s with mtpCache := s'.mtpCache, calls := s'.calls, handed := s'.handed }

theorem Drafted.trans {s s' s'' : Session ν} (h : Drafted s s') (h' : Drafted s' s'') : Drafted s s'' := by
  rw [Drafted] at h h' ⊢
  rw [h', h]

theorem mtpForward_drafted (entries : List (Position × Nat)) (s : Session ν) : Drafted s (mtpForward H entries s).2 := by
  rw [mtpForward]
  split <;> rfl

theorem stepMtp_drafted (hidden : Position) (tok : Nat) (commit : Option (Position × Nat)) (s : Session ν) :
    Drafted s (stepMtp M H hidden tok commit s).2 := by
  have hforward := @mtpForward_drafted _ H (commit.toList ++ [(hidden, tok)]) s
  rw [stepMtp]
  split
  · rename_i h
    rwa [h] at hforward
  · rename_i h
    rw [h] at hforward
    exact hforward.trans rfl

theorem stepMtpChain_drafted (want : Bool) (n : Nat) (hidden : Position) (tok : Nat) (commit : Option (Position × Nat))
    (s : Session ν) : Drafted s (stepMtpChain M H want n hidden tok commit s).2 := by
  induction n generalizing hidden tok commit s with
  | zero => rfl
  | succ n ih =>
    have hstep := @stepMtp_drafted _ M H hidden tok commit s
    rw [stepMtpChain]
    split
    · rename_i h
      rwa [h] at hstep
    · rename_i h
      rw [h] at hstep
      exact hstep.trans (ih ..)

theorem mtpForward_returns (h : H.fails s.calls = none) (entries : List (Position × Nat)) :
    mtpForward H entries s = (some (H.scores s.calls),
      { s with calls := s.calls + 1, mtpCache := s.mtpCache.map (MtpLayer.write entries) }) := by
  rw [mtpForward, h]

/-- A call that returns writes its entries, and the processors see the history with the last token. -/
theorem stepMtp_returns (h : H.fails s.calls = none) (hidden : Position) (tok : Nat) (commit : Option (Position × Nat)) :
    ∃ d, stepMtp M H hidden tok commit s = (some d,
      { s with
        calls := s.calls + 1
        mtpCache := s.mtpCache.map (MtpLayer.write (commit.toList ++ [(hidden, tok)]))
        handed := if M.processors.isEmpty then s.handed else s.handed ++ [M.extend s.prevTokens [tok]] }) := by
  rw [stepMtp, mtpForward_returns h]
  exact ⟨_, rfl⟩

/-- A chain whose calls return has as many drafts as calls. -/
theorem stepMtpChain_returns {want : Bool} {n : Nat} {hidden : Position} {tok : Nat} {commit : Option (Position × Nat)}
    (h : ∀ i < n, H.fails (s.calls + i) = none) :
    ∃ ds, (stepMtpChain M H want n hidden tok commit s).1 = some ds ∧ ds.length = n := by
  induction n generalizing hidden tok commit s with
  | zero => exact ⟨[], rfl, rfl⟩
  | succ n ih =>
    obtain ⟨d, s', hstep, hcalls⟩ : ∃ d s', stepMtp M H hidden tok commit s = (some d, s') ∧ s'.calls = s.calls + 1 := by
      obtain ⟨d, hstep⟩ := @stepMtp_returns _ M H s (h 0 (Nat.succ_pos n)) hidden tok commit
      exact ⟨d, _, hstep, rfl⟩
    rw [stepMtpChain, hstep]
    obtain ⟨ds, hds, hlen⟩ := @ih s' (if want then hidden.map (· ++ [tok]) else hidden) d.1 none fun i hi => by
      have := h (i + 1) (Nat.succ_lt_succ hi)
      rwa [← Nat.add_assoc, Nat.add_right_comm, ← hcalls] at this
    exact ⟨d :: ds, by simp only [hds, Option.map_some], by rw [List.length_cons, hlen]⟩

theorem stepMtpChain_ne_nil {want : Bool} {n : Nat} {hidden : Position} {tok : Nat} {commit : Option (Position × Nat)}
    (hn : 1 ≤ n) : (stepMtpChain M H want n hidden tok commit s).1 ≠ some [] := by
  obtain ⟨m, rfl⟩ := Nat.exists_eq_add_of_le' hn
  rw [stepMtpChain]
  split
  · nofun
  · simp

def Session.tokens (s : Session ν) : List Nat := s.yielded.map Prod.fst

def soFar (M : Model ν) (L : Nat) (prompt : List Nat) (k : Nat) : List Nat :=
  prompt ++ continuation (M.choose L prompt.length) prompt k

structure Yielded (M : Model ν) (L : Nat) (prompt : List Nat) (k : Nat) (s : Session ν) : Prop where
  ntoks : s.ntoks = k
  tokens : s.tokens = continuation (M.choose L prompt.length) prompt k
  held : Holds L (soFar M L prompt k).dropLast s.modelCache
  history : s.prevTokens = M.history prompt.length (soFar M L prompt k).dropLast

structure Standing (M : Model ν) (L : Nat) (prompt : List Nat) (k : Nat) (s : Session ν) : Prop
    extends Yielded M L prompt k s where
  status : s.status = .running
  y : ∃ last, s.y = [last] ∧ (soFar M L prompt k).dropLast ++ [last] = soFar M L prompt k
  drafts : s.pendingDrafts ≠ some []

/-- Inside a round: the main cache and the history hold all that is yielded. -/
structure Settled (M : Model ν) (L : Nat) (prompt : List Nat) (k : Nat) (s : Session ν) : Prop where
  status : s.status = .running
  ntoks : s.ntoks = k
  tokens : s.tokens = continuation (M.choose L prompt.length) prompt k
  held : Holds L (soFar M L prompt k) s.modelCache
  history : s.prevTokens = M.history prompt.length (soFar M L prompt k)

theorem soFar_add (M : Model ν) (L : Nat) (prompt : List Nat) (k n : Nat) :
    soFar M L prompt (k + n) =
      soFar M L prompt k ++ continuation (M.choose L prompt.length) (soFar M L prompt k) n := by
  rw [soFar, continuation_add, ← List.append_assoc, soFar]

theorem dropLast_soFar_succ (M : Model ν) (L : Nat) (prompt : List Nat) (k : Nat) :
    (soFar M L prompt (k + 1)).dropLast = soFar M L prompt k := by
  rw [soFar_add]
  exact List.dropLast_concat

theorem soFar_succ (M : Model ν) (L : Nat) (prompt : List Nat) (k : Nat) :
    soFar M L prompt k ++ [M.choose L prompt.length (soFar M L prompt k)] = soFar M L prompt (k + 1) := by
  rw [soFar_add]
  rfl

theorem length_dropLast_soFar (M : Model ν) (L : Nat) (prompt : List Nat) (k : Nat) :
    prompt.length - 1 ≤ (soFar M L prompt k).dropLast.length := by
  rw [List.length_dropLast, soFar, List.length_append]
  omega

theorem Settled.emit (h : Settled M L prompt k s) (lp : ν) :
    Yielded M L prompt (k + 1) (s.emit (M.choose L prompt.length (soFar M L prompt k)) lp false) := by
  refine ⟨?_, ?_, ?_, ?_⟩
  · rw [Session.emit, h.ntoks]
  · have htokens := h.tokens
    rw [Session.tokens] at htokens ⊢
    rw [Session.emit, List.map_append, htokens, continuation_succ]
    rfl
  · rw [dropLast_soFar_succ]
    exact h.held
  · rw [dropLast_soFar_succ]
    exact h.history

theorem draftChain_drafted (hidden : Position) (tok n : Nat) (commit : Option (Position × Nat)) (s : Session ν) :
    Drafted s (draftChain M H hidden tok n commit s).2 :=
  stepMtpChain_drafted ..

/-- What a round leaves behind when its last token is yielded: the stream is over, or the next round can start. -/
inductive Next (M : Model ν) (L : Nat) (prompt : List Nat) (maxTokens k : Nat) (s : Session ν) : Prop where
  | finished : Yielded M L prompt k s → s.status = .returned → k = maxTokens → Next M L prompt maxTokens k s
  | standing : Standing M L prompt k s → k < maxTokens → Next M L prompt maxTokens k s

theorem Yielded.standing (h : Yielded M L prompt (k + 1) s) (hstatus : s.status = .running)
    (hy : s.y = [M.choose L prompt.length (soFar M L prompt k)]) (hdrafts : s.pendingDrafts ≠ some []) :
    Standing M L prompt (k + 1) s where
  toYielded := h
  status := hstatus
  y := ⟨_, hy, by rw [dropLast_soFar_succ, soFar_succ]⟩
  drafts := hdrafts

theorem draftChain_returns {hidden : Position} {tok n : Nat} {commit : Option (Position × Nat)} (hn : 1 ≤ n)
    (h : ∀ i < n, H.fails (s.calls + i) = none) :
    ∃ ds s', draftChain M H hidden tok n commit s = (some ds, s') ∧ ds ≠ [] ∧ Drafted s s' := by
  obtain ⟨ds, hds, hlen⟩ := @stepMtpChain_returns _ M H s (H.supportsHidden && decide (2 ≤ n)) _ hidden tok commit h
  refine ⟨ds, _, Prod.ext hds rfl, ?_, draftChain_drafted ..⟩
  exact List.ne_nil_of_length_pos (by rw [hlen]; exact hn)

theorem Yielded.draftUnguarded {hidden : Position} {commit : Option (Position × Nat)} (h : Yielded M L prompt (k + 1) s)
    (hstatus : s.status = .running) (hcalls : ∀ i < opts.pickK s.picks, H.fails (s.calls + i) = none) :
    Standing M L prompt (k + 1)
      (draftUnguarded M H opts hidden (M.choose L prompt.length (soFar M L prompt k)) commit s) := by
  rw [MtpChain.draftUnguarded]
  dsimp only
  split
  · rename_i hpick
    obtain ⟨ds, s', hchain, hne, hdrafted⟩ := @draftChain_returns _ M H
      { s with picks := s.picks + 1, y := [M.choose L prompt.length (soFar M L prompt k)] } hidden
      (M.choose L prompt.length (soFar M L prompt k)) _ commit hpick hcalls
    rw [Drafted] at hdrafted
    rw [hchain, hdrafted]
    exact Yielded.standing ⟨h.ntoks, h.tokens, h.held, h.history⟩ hstatus rfl (by simpa using hne)
  · exact Yielded.standing ⟨h.ntoks, h.tokens, h.held, h.history⟩ hstatus rfl nofun

/-- Drafting that fails here leaves no drafts, and the stream goes on. -/
theorem Yielded.draftGuarded {hidden : Position} (h : Yielded M L prompt (k + 1) s) (hstatus : s.status = .running) :
    Standing M L prompt (k + 1) (draftGuarded M H opts hidden (M.choose L prompt.length (soFar M L prompt k)) s) := by
  rw [MtpChain.draftGuarded]
  dsimp only
  split
  · rename_i hpick
    have hdrafted := @draftChain_drafted _ M H hidden (M.choose L prompt.length (soFar M L prompt k)) (opts.pickK s.picks)
      none { s with picks := s.picks + 1 }
    rw [Drafted] at hdrafted
    rw [hdrafted]
    refine Yielded.standing ⟨h.ntoks, h.tokens, h.held, h.history⟩ hstatus rfl ?_
    exact stepMtpChain_ne_nil hpick
  · exact Yielded.standing ⟨h.ntoks, h.tokens, h.held, h.history⟩ hstatus rfl nofun

theorem Settled.commit (h : Settled M L prompt k s) (hroom : k < opts.maxTokens) (lp : ν) (hidden : Position)
    (commit : Option (Position × Nat))
    (hcalls : k + 1 < opts.maxTokens → ∀ i < opts.pickK s.picks, H.fails (s.calls + i) = none) :
    Next M L prompt opts.maxTokens (k + 1)
      (commitToken M H opts (M.choose L prompt.length (soFar M L prompt k)) lp hidden commit s) := by
  have hemit := h.emit lp
  have hntoks := hemit.ntoks
  rw [commitToken]
  by_cases hend : opts.maxTokens ≤ k + 1
  · rw [if_pos (by rw [hntoks]; exact hend)]
    exact .finished ⟨hemit.ntoks, hemit.tokens, hemit.held, hemit.history⟩ rfl (by omega)
  · rw [if_neg (by rw [hntoks]; exact hend)]
    exact .standing (hemit.draftUnguarded h.status (hcalls (Nat.lt_of_not_le hend))) (Nat.lt_of_not_le hend)

structure Undrafted (s s' : Session ν) (histories : List (List Nat)) : Prop where
  mtpCache : s'.mtpCache = s.mtpCache
  calls : s'.calls = s.calls
  picks : s'.picks = s.picks
  handed : s'.handed = s.handed ++ histories

structure Fed (M : Model ν) (L : Nat) (prompt : List Nat) (k last : Nat) (xs : List Nat) (nConfirmed : Nat)
    (s s' : Session ν) : Prop where
  status : s'.status = .running
  ntoks : s'.ntoks = k
  tokens : s'.tokens = continuation (M.choose L prompt.length) prompt k
  modelCache : s'.modelCache = s.modelCache.map (Layer.feed (last :: xs) nConfirmed)
  history : s'.prevTokens = M.history prompt.length (soFar M L prompt k ++ xs)
  undrafted : Undrafted s s' (M.histories prompt.length (soFar M L prompt k).dropLast (last :: xs))

theorem Standing.feed (h : Standing M L prompt k s) (xs : List Nat) (nConfirmed : Nat) :
    ∃ s' last,
      stepBackbone M (s.y ++ xs) (xs.length + 1) nConfirmed s =
        (M.pick L prompt.length (soFar M L prompt k) :: afterEach (M.pick L prompt.length) (soFar M L prompt k) xs,
          List.replicate L (soFar M L prompt k) :: afterEach (List.replicate L) (soFar M L prompt k) xs, s') ∧
      (soFar M L prompt k).dropLast ++ [last] = soFar M L prompt k ∧ Fed M L prompt k last xs nConfirmed s s' := by
  obtain ⟨last, hy, hlast⟩ := h.y
  have hstep := stepBackbone_eq (length_dropLast_soFar M L prompt k) h.held h.history (last :: xs) nConfirmed
  have hyy : s.y ++ xs = last :: xs := by rw [hy, List.singleton_append]
  rw [List.append_cons, afterEach, afterEach, hlast] at hstep
  rw [hyy]
  exact ⟨_, last, hstep, hlast, h.status, h.ntoks, h.tokens, rfl, rfl, rfl, rfl, rfl, rfl⟩

/-- The backbone is fed the last token alone. -/
theorem Standing.feedLast (h : Standing M L prompt k s) :
    ∃ s' last, stepBackbone M s.y 1 0 s =
        ([M.pick L prompt.length (soFar M L prompt k)], [List.replicate L (soFar M L prompt k)], s') ∧
      Settled M L prompt k s' ∧ (soFar M L prompt k).dropLast ++ [last] = soFar M L prompt k ∧
      Undrafted s s' (M.histories prompt.length (soFar M L prompt k).dropLast [last]) := by
  obtain ⟨s', last, hstep, hlast, hfed⟩ := h.feed [] 0
  have hheld := h.held.feed [last] 0
  have hhistory := hfed.history
  rw [hlast, ← hfed.modelCache] at hheld
  rw [List.append_nil] at hhistory hstep
  exact ⟨s', last, hstep, ⟨hfed.status, hfed.ntoks, hfed.tokens, hheld, hhistory⟩, hlast, hfed.undrafted⟩

theorem Standing.plainRound_eq (h : Standing M L prompt k s) :
    ∃ s' last lp,
      plainRound M H opts s =
        (let s₁ := s'.emit (M.choose L prompt.length (soFar M L prompt k)) lp false
        if opts.maxTokens ≤ k + 1 then { s₁ with status := .returned }
        else draftGuarded M H opts (List.replicate L (soFar M L prompt k)) (M.choose L prompt.length (soFar M L prompt k)) s₁) ∧
      Settled M L prompt k s' ∧ (soFar M L prompt k).dropLast ++ [last] = soFar M L prompt k ∧
      Undrafted s s' (M.histories prompt.length (soFar M L prompt k).dropLast [last]) := by
  obtain ⟨s', last, hstep, hsettled, hlast, hundrafted⟩ := h.feedLast
  have hntoks := (hsettled.emit (M.pick L prompt.length (soFar M L prompt k)).2).ntoks
  refine ⟨s', last, (M.pick L prompt.length (soFar M L prompt k)).2, ?_, hsettled, hlast, hundrafted⟩
  rw [plainRound, hstep]
  dsimp only [List.head?_cons, List.getLast?_singleton]
  rw [← hntoks]
  rfl

/-- Whatever the drafting does, the stream goes on. -/
theorem Standing.plainRound (h : Standing M L prompt k s) (hroom : k < opts.maxTokens) :
    Next M L prompt opts.maxTokens (k + 1) (plainRound M H opts s) := by
  obtain ⟨s', -, lp, hround, hsettled, -⟩ := @Standing.plainRound_eq _ M H opts _ _ _ _ h
  have hemit := hsettled.emit lp
  rw [hround]
  dsimp only
  split
  · exact .finished ⟨hemit.ntoks, hemit.tokens, hemit.held, hemit.history⟩ rfl (by omega)
  · rename_i hmore
    exact .standing (hemit.draftGuarded hsettled.status) (Nat.lt_of_not_le hmore)

def Layer.CanDrop (n : Nat) (c : Layer) : Prop := if c.rollbackState.isSome then n = 1 else c.trimmable = true

theorem rollbackDraft_feed {c : Layer} {drafts : List Nat} {last a : Nat} (ha : a < drafts.length)
    (hdrop : c.CanDrop (drafts.length - a)) :
    ∃ c', (c.feed (last :: drafts) drafts.length).rollbackDraft (drafts.length - a) = some c' ∧
      c'.held = c.held ++ [last] ++ drafts.take a := by
  have hsnap : 0 < drafts.length ∧ drafts.length < (last :: drafts).length :=
    ⟨Nat.zero_lt_of_lt ha, by rw [List.length_cons]; exact Nat.lt_succ_self _⟩
  rw [Layer.CanDrop] at hdrop
  rw [Layer.feed, if_pos hsnap, Layer.rollbackDraft]
  split at hdrop
  · rename_i hsome
    obtain ⟨snap, hsnap⟩ := Option.isSome_iff_exists.1 hsome
    have htake : (last :: drafts).take drafts.length = last :: drafts.take a := by
      have hlen : drafts.length = a + 1 := by omega
      rw [hlen, List.take_succ_cons]
    refine ⟨_, by simp only [hsnap, Option.map_some, if_pos hdrop]; rfl, ?_⟩
    simp only [htake, List.append_assoc, List.singleton_append]
  · rename_i hnone
    rw [Option.not_isSome_iff_eq_none] at hnone
    refine ⟨_, by simp only [hnone, Option.map_none, if_pos hdrop]; rfl, ?_⟩
    have hlen : (c.held ++ last :: drafts).length - (drafts.length - a) = (c.held ++ [last]).length + a := by
      simp only [List.length_append, List.length_cons, List.length_nil]
      omega
    have hsplit : c.held ++ last :: drafts = c.held ++ [last] ++ drafts := by simp
    simp only [hlen]
    rw [hsplit, List.take_length_add_append]

theorem mapM_held {f : Layer → Option Layer} {cache : List Layer} (h : ∀ c ∈ cache, ∃ c', f c = some c' ∧ c'.held = seq) :
    ∃ cache', cache.mapM f = some cache' ∧ Holds cache.length seq cache' := by
  induction cache with
  | nil => exact ⟨[], rfl, rfl, nofun⟩
  | cons c cache ih =>
    obtain ⟨c', hc, hheld⟩ := h c List.mem_cons_self
    obtain ⟨cache', hcache, hholds⟩ := ih fun b hb => h b (List.mem_cons_of_mem _ hb)
    refine ⟨c' :: cache', by simp [hc, hcache], by rw [List.length_cons, hholds.layers, List.length_cons], ?_⟩
    exact List.forall_mem_cons.2 ⟨hheld, hholds.held⟩

theorem emitDrafts_eq {drafts : List (Nat × ν)} (hroom : s.ntoks + drafts.length < opts.maxTokens) :
    emitDrafts opts drafts s =
      { s with
        ntoks := s.ntoks + drafts.length
        yielded := s.yielded ++ drafts.map fun d => (d.1, d.2, true) } := by
  induction drafts generalizing s with
  | nil => simp [emitDrafts]
  | cons d drafts ih =>
    rw [List.length_cons] at hroom ⊢
    have hmore : ¬ opts.maxTokens ≤ s.ntoks + 1 := by omega
    have hcount : s.ntoks + 1 + drafts.length = s.ntoks + (drafts.length + 1) := by omega
    rw [emitDrafts, Session.emit]
    dsimp only
    rw [if_neg hmore, ih (by dsimp only; omega)]
    simp only [hcount, List.append_assoc, List.map_cons, List.singleton_append]

def acceptedOf (M : Model ν) (L : Nat) (prompt : List Nat) (k : Nat) (drafts : List Nat) : Nat :=
  agreed (M.choose L prompt.length) (soFar M L prompt k) drafts

/-- The stream does not end inside the drafts, the rejected ones can be taken back, and the drafting behind them
does not raise. -/
structure KeepsStream (M : Model ν) (H : Head ν) (opts : Options) (L : Nat) (prompt : List Nat) (drafts : List Nat)
    (s : Session ν) : Prop where
  room : s.ntoks + acceptedOf M L prompt s.ntoks drafts < opts.maxTokens
  noStop : ∀ t ∈ drafts.take (acceptedOf M L prompt s.ntoks drafts), t ∉ opts.stopTokens
  drop : acceptedOf M L prompt s.ntoks drafts < drafts.length →
    ∀ c ∈ s.modelCache, c.CanDrop (drafts.length - acceptedOf M L prompt s.ntoks drafts)
  calls : s.ntoks + acceptedOf M L prompt s.ntoks drafts + 1 < opts.maxTokens →
    ∀ i < opts.pickK s.picks, H.fails (s.calls + i) = none

theorem acceptedOf_le (drafts : List Nat) : acceptedOf M L prompt k drafts ≤ drafts.length := agreed_le ..

theorem soFar_accepted (drafts : List Nat) :
    soFar M L prompt k ++ drafts.take (acceptedOf M L prompt k drafts) =
      soFar M L prompt (k + acceptedOf M L prompt k drafts) := by
  rw [acceptedOf, take_agreed, soFar_add]

theorem leading_toks (drafts : List Nat) :
    leading (((M.pick L prompt.length (soFar M L prompt k) ::
      afterEach (M.pick L prompt.length) (soFar M L prompt k) drafts).take drafts.length).map Prod.fst) drafts =
      acceptedOf M L prompt k drafts := by
  rw [List.map_take, List.map_cons, map_afterEach, leading_take]
  exact leading_choices (M.choose L prompt.length) (soFar M L prompt k) drafts

def Aligns (L : Nat) (seq drafts : List Nat) (commit : Option (Position × Nat)) : Prop :=
  ∃ front last, drafts = front ++ [last] ∧ commit = some (List.replicate L (seq ++ front), last)

theorem aligns_last {drafts : List Nat} (hne : drafts ≠ []) :
    Aligns L seq drafts (((List.replicate L seq :: afterEach (List.replicate L) seq drafts)[drafts.length - 1]?).bind fun h =>
      (drafts[drafts.length - 1]?).map fun d => (h, d)) := by
  have hpos := List.length_pos_iff.2 hne
  refine ⟨drafts.dropLast, drafts.getLast hne, (List.dropLast_append_getLast hne).symm, ?_⟩
  rw [getElem?_cons_afterEach (Nat.sub_le _ _), ← List.getLast?_eq_getElem?, List.getLast?_eq_some_getLast hne,
    ← List.dropLast_eq_take]
  rfl

structure Accepted (M : Model ν) (L : Nat) (prompt drafts : List Nat) (k : Nat) (s : Session ν) : Prop where
  status : s.status = .running
  ntoks : s.ntoks = k + acceptedOf M L prompt k drafts
  tokens : s.tokens = continuation (M.choose L prompt.length) prompt (k + acceptedOf M L prompt k drafts)
  held : Holds L (soFar M L prompt k ++ drafts) s.modelCache
  history : s.prevTokens = M.history prompt.length (soFar M L prompt k ++ drafts)

theorem Accepted.clear {drafts : List Nat} (h : Accepted M L prompt drafts k s)
    (hfull : acceptedOf M L prompt k drafts = drafts.length) :
    Settled M L prompt (k + acceptedOf M L prompt k drafts)
      { s with modelCache := s.modelCache.map Layer.clearRollback } := by
  have hall := @soFar_accepted _ M prompt L k drafts
  rw [hfull, List.take_length, ← hfull] at hall
  obtain ⟨hstatus, hntoks, htokens, hheld, hhistory⟩ := h
  rw [hall] at hheld hhistory
  refine ⟨hstatus, hntoks, htokens, ⟨by rw [List.length_map, hheld.layers], fun c hc => ?_⟩, hhistory⟩
  obtain ⟨b, hb, rfl⟩ := List.mem_map.1 hc
  exact hheld.held b hb

theorem Accepted.reject {drafts : List Nat} (h : Accepted M L prompt drafts k s) {cache : List Layer} {last : Nat}
    (hcache : s.modelCache = cache.map (Layer.feed (last :: drafts) drafts.length))
    (hheld : Holds L (soFar M L prompt k).dropLast cache) (hlast : (soFar M L prompt k).dropLast ++ [last] = soFar M L prompt k)
    (hlt : acceptedOf M L prompt k drafts < drafts.length)
    (hdrop : ∀ c ∈ cache, c.CanDrop (drafts.length - acceptedOf M L prompt k drafts)) :
    ∃ s', rejectDrafts M (drafts.length - acceptedOf M L prompt k drafts) s = some s' ∧
      Settled M L prompt (k + acceptedOf M L prompt k drafts) s' ∧ s'.calls = s.calls ∧ s'.picks = s.picks := by
  obtain ⟨cache', hcache', hheld'⟩ := @mapM_held (soFar M L prompt (k + acceptedOf M L prompt k drafts))
      (Layer.rollbackDraft (drafts.length - acceptedOf M L prompt k drafts)) s.modelCache fun c hc => by
    rw [hcache] at hc
    obtain ⟨b, hb, rfl⟩ := List.mem_map.1 hc
    obtain ⟨c', hc', hheld'⟩ := @rollbackDraft_feed b drafts last _ hlt (hdrop b hb)
    rw [hheld.held b hb, hlast, soFar_accepted] at hheld'
    exact ⟨c', hc', hheld'⟩
  rw [hcache, List.length_map, hheld.layers] at hheld'
  have hP := length_dropLast_soFar M L prompt k
  rw [List.length_dropLast] at hP
  rw [rejectDrafts, hcache', Option.map_some]
  refine ⟨_, rfl, ⟨h.status, h.ntoks, h.tokens, hheld', ?_⟩, rfl, rfl⟩
  dsimp only
  rw [h.history, history_take (by omega), soFar_accepted]

/-- Behind the accepted drafts the round commits the choice. -/
theorem Accepted.settle {drafts : List Nat} (h : Accepted M L prompt drafts k s) (hne : drafts ≠ []) {cache : List Layer}
    {last : Nat} (hcache : s.modelCache = cache.map (Layer.feed (last :: drafts) drafts.length))
    (hheld : Holds L (soFar M L prompt k).dropLast cache) (hlast : (soFar M L prompt k).dropLast ++ [last] = soFar M L prompt k)
    (hdrop : acceptedOf M L prompt k drafts < drafts.length →
      ∀ c ∈ cache, c.CanDrop (drafts.length - acceptedOf M L prompt k drafts)) :
    ∃ s' lp commit,
      settleDrafts M H opts
          (M.pick L prompt.length (soFar M L prompt k) :: afterEach (M.pick L prompt.length) (soFar M L prompt k) drafts)
          (List.replicate L (soFar M L prompt k) :: afterEach (List.replicate L) (soFar M L prompt k) drafts) drafts
          (acceptedOf M L prompt k drafts) s =
        commitToken M H opts (M.choose L prompt.length (soFar M L prompt (k + acceptedOf M L prompt k drafts))) lp
          (List.replicate L (soFar M L prompt (k + acceptedOf M L prompt k drafts))) commit s' ∧
      Settled M L prompt (k + acceptedOf M L prompt k drafts) s' ∧ s'.calls = s.calls ∧ s'.picks = s.picks ∧
      (acceptedOf M L prompt k drafts = drafts.length →
        Undrafted s s' [] ∧ Aligns L (soFar M L prompt k) drafts commit) := by
  have hle := @acceptedOf_le _ M prompt L k drafts
  have htok := @getElem?_cons_afterEach _ _ (M.pick L prompt.length) (soFar M L prompt k) _ _ hle
  have hhidden := @getElem?_cons_afterEach _ _ (List.replicate L) (soFar M L prompt k) _ _ hle
  rw [soFar_accepted] at htok hhidden
  rw [settleDrafts, htok, hhidden]
  dsimp only
  obtain hlt | hfull := Nat.lt_or_eq_of_le hle
  · obtain ⟨s', hreject, hsettled, hcalls, hpicks⟩ := h.reject hcache hheld hlast hlt (hdrop hlt)
    rw [if_neg (Nat.ne_of_lt hlt), hreject]
    exact ⟨s', _, none, rfl, hsettled, hcalls, hpicks, fun hfull => absurd hfull (Nat.ne_of_lt hlt)⟩
  · rw [if_pos hfull]
    refine ⟨_, _, _, rfl, h.clear hfull, rfl, rfl, fun _ => ⟨⟨rfl, rfl, rfl, (List.append_nil _).symm⟩, ?_⟩⟩
    rw [hfull]
    exact aligns_last hne

/-- The drafts that are accepted are yielded, the others are taken back, and the round commits the token behind. -/
theorem Standing.verifyRound (h : Standing M L prompt k s) {drafts : List (Nat × ν)} (hne : drafts.map Prod.fst ≠ [])
    (hkeeps : KeepsStream M H opts L prompt (drafts.map Prod.fst) s) :
    ∃ s' last lp commit,
      let a := acceptedOf M L prompt k (drafts.map Prod.fst)
      verifyRound M H opts drafts s =
        commitToken M H opts (M.choose L prompt.length (soFar M L prompt (k + a))) lp
          (List.replicate L (soFar M L prompt (k + a))) commit s' ∧
      Settled M L prompt (k + a) s' ∧ s'.calls = s.calls ∧ s'.picks = s.picks ∧
      (a = (drafts.map Prod.fst).length →
        (soFar M L prompt k).dropLast ++ [last] = soFar M L prompt k ∧
        Undrafted s s' (M.histories prompt.length (soFar M L prompt k).dropLast (last :: drafts.map Prod.fst)) ∧
        Aligns L (soFar M L prompt k) (drafts.map Prod.fst) commit) := by
  obtain ⟨hroom, hnoStop, hdrop, -⟩ := hkeeps
  rw [h.ntoks] at hroom hnoStop hdrop
  obtain ⟨s₁, last, hstep, hlast, hfed⟩ := h.feed (drafts.map Prod.fst) (drafts.map Prod.fst).length
  have hle : acceptedOf M L prompt k (drafts.map Prod.fst) ≤ (drafts.map Prod.fst).length := acceptedOf_le _
  have hlen : (drafts.take (acceptedOf M L prompt k (drafts.map Prod.fst))).length =
      acceptedOf M L prompt k (drafts.map Prod.fst) := by
    rw [List.length_take, Nat.min_eq_left]
    rwa [List.length_map] at hle
  have hemit := @emitDrafts_eq _ opts s₁ (drafts.take (acceptedOf M L prompt k (drafts.map Prod.fst)))
    (by rw [hfed.ntoks, hlen]; exact hroom)
  have hnone : ((drafts.map Prod.fst).take (acceptedOf M L prompt k (drafts.map Prod.fst))).findIdx?
      (· ∈ opts.stopTokens) = none :=
    List.findIdx?_eq_none_iff.2 fun t ht => decide_eq_false (hnoStop t ht)
  have haccepted : Accepted M L prompt (drafts.map Prod.fst) k
      (emitDrafts opts (drafts.take (acceptedOf M L prompt k (drafts.map Prod.fst))) s₁) := by
    have hheld := h.held.feed (last :: drafts.map Prod.fst) (drafts.map Prod.fst).length
    rw [← hfed.modelCache, List.append_cons, hlast] at hheld
    rw [hemit]
    refine ⟨hfed.status, by simp only [hfed.ntoks, hlen], ?_, hheld, hfed.history⟩
    have htokens := hfed.tokens
    rw [Session.tokens] at htokens ⊢
    rw [continuation_add, ← soFar, acceptedOf, ← take_agreed, ← htokens]
    simp [List.map_take, Function.comp_def]
  obtain ⟨s', lp, commit, hsettle, hsettled, hcalls, hpicks, hfull⟩ :=
    @Accepted.settle _ M H opts prompt L k _ _ haccepted hne s.modelCache last (by rw [hemit, hfed.modelCache]) h.held hlast
      hdrop
  refine ⟨s', last, lp, commit, ?_, hsettled, ?_, ?_, fun hall => ⟨hlast, ?_, (hfull hall).2⟩⟩
  · have hstatus := haccepted.status
    rw [MtpChain.verifyRound]
    dsimp only
    rw [hstep]
    dsimp only
    rw [leading_toks, hnone]
    simp only [Option.elim_none, Option.isSome_none, hstatus, reduceCtorEq, if_false, Bool.false_eq_true]
    exact hsettle
  · rw [hcalls, hemit, hfed.undrafted.calls]
  · rw [hpicks, hemit, hfed.undrafted.picks]
  · obtain ⟨hmtp, hcalls', hpicks', hhanded⟩ := (hfull hall).1
    rw [hemit] at hmtp hcalls' hpicks' hhanded
    obtain ⟨hmtp₁, hcalls₁, hpicks₁, hhanded₁⟩ := hfed.undrafted
    exact ⟨hmtp.trans hmtp₁, hcalls'.trans hcalls₁, hpicks'.trans hpicks₁, by rw [hhanded, List.append_nil, hhanded₁]⟩

end FusionMlx.MtpChain
