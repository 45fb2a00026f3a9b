import FusionMlx.Speculative.PromptLookup

/-!
# When prompt lookup is plain decoding

A round yields the token that stands, then the drafts that plain decoding
makes too. The cache is trimmed behind them, except where the last token of
all is a draft.
-/
namespace FusionMlx.PromptLookup

open Decoding

variable {ν : Type} {M : Model ν} {prompt seq : List Nat} {maxTokens k : Nat} {D : PromptLookupDecoder} {s : Session ν}

def decode (score : List Nat → ν) (sampler : ν → Nat) (seq : List Nat) : Nat → List (Nat × ν)
  | 0 => []
  | n + 1 => (sampler (score seq), score seq) :: decode score sampler (seq ++ [sampler (score seq)]) n

def Model.processed (M : Model ν) (logitsProcessors : List (List Nat → ν → ν)) (seq : List Nat) : ν :=
  M.normalize (logitsProcessors.foldl (fun scores p => p seq scores) (M.logits seq))

def Model.choose (M : Model ν) (seq : List Nat) : Nat := M.sampler (M.logprobs seq)

theorem map_fst_decode (score : List Nat → ν) (sampler : ν → Nat) (seq : List Nat) (n : Nat) :
    (decode score sampler seq n).map Prod.fst = continuation (sampler ∘ score) seq n := by
  induction n generalizing seq with
  | zero => rfl
  | succ n ih => rw [decode, List.map_cons, ih, continuation, Function.comp]

theorem decode_add (score : List Nat → ν) (sampler : ν → Nat) (seq : List Nat) (n m : Nat) :
    decode score sampler seq (n + m) =
      decode score sampler seq n ++ decode score sampler (seq ++ continuation (sampler ∘ score) seq n) m := by
  induction n generalizing seq with
  | zero => simp [decode, continuation]
  | succ n ih =>
    have hswap : n + 1 + m = n + m + 1 := by omega
    rw [hswap, decode, ih, decode, continuation]
    simp

/-- Two scores decode the same when they agree on what is decoded. -/
theorem decode_eq_iff (score score' : List Nat → ν) (sampler : ν → Nat) (seq : List Nat) (n : Nat) :
    decode score sampler seq n = decode score' sampler seq n ↔
      ∀ i < n, score (seq ++ continuation (sampler ∘ score) seq i) =
        score' (seq ++ continuation (sampler ∘ score) seq i) := by
  induction n generalizing seq with
  | zero => simp [decode]
  | succ n ih =>
    rw [decode, decode, List.cons.injEq, Prod.mk.injEq]
    constructor
    · rintro ⟨⟨-, hfirst⟩, hrest⟩ i hi
      cases i with
      | zero => simpa [continuation] using hfirst
      | succ i =>
        rw [← hfirst, ih] at hrest
        have := hrest i (Nat.lt_of_succ_lt_succ hi)
        simpa [continuation] using this
    · intro h
      have hfirst : score seq = score' seq := by simpa [continuation] using h 0 (Nat.succ_pos n)
      refine ⟨⟨by rw [hfirst], hfirst⟩, ?_⟩
      rw [← hfirst, ih]
      intro i hi
      simpa [continuation] using h (i + 1) (Nat.succ_lt_succ hi)

namespace PromptLookupDecoder

def forgetStats (d : PromptLookupDecoder) : PromptLookupDecoder :=
  { d with totalDrafts := 0, successfulDrafts := 0, partialAcceptDrafts := 0, totalDraftTokens := 0, acceptedTokens := 0 }

@[simp] theorem forgetStats_addToken (d : PromptLookupDecoder) (token : Nat) :
    (d.addToken token).forgetStats = d.forgetStats.addToken token := rfl

@[simp] theorem forgetStats_addTokens (d : PromptLookupDecoder) (tokens : List Nat) :
    (d.addTokens tokens).forgetStats = d.forgetStats.addTokens tokens := by
  induction tokens generalizing d with
  | nil => rfl
  | cons t ts ih => exact ih (d.addToken t)

@[simp] theorem forgetStats_getDraftTokens (d : PromptLookupDecoder) : d.getDraftTokens.2.forgetStats = d.forgetStats := by
  unfold getDraftTokens
  split
  · rfl
  · simp only
    split
    · rfl
    · split <;> rfl

@[simp] theorem forgetStats_recordAccepted (d : PromptLookupDecoder) (a n : Nat) :
    (d.recordAccepted a n).forgetStats = d.forgetStats := by
  unfold recordAccepted
  split
  · split <;> rfl
  · rfl

/-- The drafts do not depend on the statistics. -/
theorem getDraftTokens_forgetStats (d : PromptLookupDecoder) : d.forgetStats.getDraftTokens.1 = d.getDraftTokens.1 := by
  have hconsider : d.forgetStats.consider = d.consider := rfl
  simp only [getDraftTokens, hconsider, apply_ite Prod.fst]
  rfl

theorem addTokens_append (d : PromptLookupDecoder) (xs ys : List Nat) :
    d.addTokens (xs ++ ys) = (d.addTokens xs).addTokens ys :=
  List.foldl_append

end PromptLookupDecoder

def draftsAfter (D : PromptLookupDecoder) (seq : List Nat) : List Nat := (D.addTokens seq).getDraftTokens.1

def acceptedAfter (M : Model ν) (D : PromptLookupDecoder) (seq : List Nat) : Nat := agreed M.choose seq (draftsAfter D seq)

theorem acceptDrafts_eq (drafts : List Nat) (hlt : s.ntoks < maxTokens) :
    acceptDrafts M maxTokens drafts (M.logprobs seq :: afterEach M.logprobs seq drafts).dropLast s =
      let n := min (agreed M.choose seq drafts) (maxTokens - s.ntoks)
      (n, { s with
        ntoks := s.ntoks + n
        decoder := s.decoder.addTokens (continuation M.choose seq n)
        yielded := s.yielded ++ (decode M.logprobs M.sampler seq n).map fun y => (y.1, y.2, true) }) := by
  induction drafts generalizing seq s with
  | nil => simp [acceptDrafts, agreed, continuation, decode, PromptLookupDecoder.addTokens]
  | cons d ds ih =>
    have hrows : (M.logprobs seq :: afterEach M.logprobs seq (d :: ds)).dropLast =
        M.logprobs seq :: (M.logprobs (seq ++ [d]) :: afterEach M.logprobs (seq ++ [d]) ds).dropLast := rfl
    rw [hrows, acceptDrafts, agreed]
    by_cases hd : d = M.sampler (M.logprobs seq)
    · have hd' : M.choose seq = d := hd.symm
      rw [if_pos hd, if_pos hd']
      by_cases hend : maxTokens ≤ s.ntoks + 1
      · have hone : min (agreed M.choose (seq ++ [d]) ds + 1) (maxTokens - s.ntoks) = 1 := by omega
        simp only [hone, if_pos hend, continuation, decode, hd', ← hd]
        rfl
      · have hmore : min (agreed M.choose (seq ++ [d]) ds + 1) (maxTokens - s.ntoks) =
            min (agreed M.choose (seq ++ [d]) ds) (maxTokens - (s.ntoks + 1)) + 1 := by omega
        simp only [if_neg hend]
        rw [ih (Nat.lt_of_not_le hend)]
        have hcount : ∀ n, s.ntoks + 1 + n = s.ntoks + (n + 1) := fun n => by omega
        simp only [hmore, continuation, decode, hd', ← hd, hcount, List.map_cons, List.append_assoc, List.singleton_append]
        rfl
    · have hd' : ¬ M.choose seq = d := fun h => hd h.symm
      rw [if_neg hd, if_neg hd']
      simp [continuation, decode, PromptLookupDecoder.addTokens]

def Session.pairs (s : Session ν) : List (Nat × ν) := s.yielded.map fun y => (y.1, y.2.1)

def soFar (M : Model ν) (prompt : List Nat) (k : Nat) : List Nat := prompt ++ continuation M.choose prompt k

structure Standing (M : Model ν) (D : PromptLookupDecoder) (prompt : List Nat) (k : Nat) (s : Session ν) : Prop where
  ntoks : s.ntoks = k
  pairs : s.pairs = decode M.logprobs M.sampler prompt k
  cache : s.cache = soFar M prompt k
  current : s.current = some (M.choose (soFar M prompt k), M.logprobs (soFar M prompt k))
  decoder : s.decoder.forgetStats = D.addTokens (soFar M prompt k)
  raised : s.raised = false

/-- The loop is over: the tokens are those of plain decoding, as many as asked for. -/
structure Complete (M : Model ν) (prompt : List Nat) (maxTokens : Nat) (s : Session ν) : Prop where
  ntoks : s.ntoks = maxTokens
  pairs : s.pairs = decode M.logprobs M.sampler prompt maxTokens
  raised : s.raised = false

theorem soFar_succ (M : Model ν) (prompt : List Nat) (k : Nat) :
    soFar M prompt (k + 1) = soFar M prompt k ++ [M.choose (soFar M prompt k)] := by
  rw [soFar, continuation_succ, ← List.append_assoc, soFar]

theorem soFar_add (M : Model ν) (prompt : List Nat) (k n : Nat) :
    soFar M prompt (k + n) = soFar M prompt k ++ continuation M.choose (soFar M prompt k) n := by
  rw [soFar, continuation_add, ← List.append_assoc, soFar]

theorem decode_soFar (M : Model ν) (prompt : List Nat) (k n : Nat) :
    decode M.logprobs M.sampler prompt (k + n) =
      decode M.logprobs M.sampler prompt k ++ decode M.logprobs M.sampler (soFar M prompt k) n :=
  decode_add ..

theorem trim_drafts (xs drafts : List Nat) {a : Nat} (h : a ≤ drafts.length) :
    trimPromptCache (xs ++ drafts) (drafts.length - a) = xs ++ drafts.take a := by
  have hlen : (xs ++ drafts).length - (drafts.length - a) = xs.length + a := by
    rw [List.length_append]
    omega
  rw [trimPromptCache, hlen, List.take_length_add_append]

theorem Standing.last (h : Standing M D prompt k s) (hlast : k + 1 = maxTokens) :
    Complete M prompt maxTokens (round M maxTokens s) ∧ (round M maxTokens s).cache = soFar M prompt k := by
  have hend : maxTokens ≤ s.ntoks + 1 := by
    rw [h.ntoks]
    omega
  rw [round, h.current]
  simp only [if_pos hend]
  refine ⟨⟨by simp only [h.ntoks, hlast], ?_, h.raised⟩, h.cache⟩
  rw [← hlast, decode_soFar, ← h.pairs]
  simp [Session.pairs, decode, Model.choose]

structure Asked (M : Model ν) (D : PromptLookupDecoder) (prompt : List Nat) (k : Nat) (s : Session ν) : Prop where
  ntoks : s.ntoks = k + 1
  pairs : s.pairs = decode M.logprobs M.sampler prompt (k + 1)
  cache : s.cache = soFar M prompt k
  decoder : s.decoder.forgetStats = D.addTokens (soFar M prompt (k + 1))
  raised : s.raised = false

theorem verifyDrafts_eq (hlt : s.ntoks < maxTokens) (token : Nat) (drafts : List Nat) :
    verifyDrafts M maxTokens token drafts s =
      let seq := s.cache ++ [token]
      let n := min (agreed M.choose seq drafts) (maxTokens - s.ntoks)
      let s' := { s with
        cache := seq ++ drafts
        ntoks := s.ntoks + n
        decoder := (s.decoder.addTokens (continuation M.choose seq n)).recordAccepted n drafts.length
        yielded := s.yielded ++ (decode M.logprobs M.sampler seq n).map fun y => (y.1, y.2, true) }
      if maxTokens ≤ s.ntoks + n then s'
      else { s' with
        cache := if n < drafts.length then trimPromptCache s'.cache (drafts.length - n) else s'.cache
        current := some (M.choose (seq ++ drafts.take n), M.logprobs (seq ++ drafts.take n)) } := by
  have hcache : s.cache ++ token :: drafts = s.cache ++ [token] ++ drafts := by simp
  have hn : min (agreed M.choose (s.cache ++ [token]) drafts) (maxTokens - s.ntoks) ≤ drafts.length :=
    Nat.le_trans (Nat.min_le_left ..) (agreed_le ..)
  simp only [verifyDrafts, Model.step, afterEach, List.length_cons, length_afterEach, Nat.sub_self, List.drop_zero]
  rw [acceptDrafts_eq drafts (by exact hlt)]
  simp only [getElem?_cons_afterEach hn, hcache, Option.map_some]
  rfl

/-- A round asks for drafts, unless it yields the last token. -/
theorem Standing.ask (h : Standing M D prompt k s) (hmore : k + 1 < maxTokens) :
    ∃ s', Asked M D prompt k s' ∧
      round M maxTokens s =
        if draftsAfter D (soFar M prompt (k + 1)) ≠ [] then
          verifyDrafts M maxTokens (M.choose (soFar M prompt k)) (draftsAfter D (soFar M prompt (k + 1))) s'
        else predictOne M (M.choose (soFar M prompt k)) s' := by
  have hend : ¬ maxTokens ≤ s.ntoks + 1 := by
    rw [h.ntoks]
    exact Nat.not_le.2 hmore
  have hadded : (s.decoder.addToken (M.choose (soFar M prompt k))).forgetStats = D.addTokens (soFar M prompt (k + 1)) := by
    rw [PromptLookupDecoder.forgetStats_addToken, h.decoder, soFar_succ, PromptLookupDecoder.addTokens_append]
    rfl
  have hdrafts : (s.decoder.addToken (M.choose (soFar M prompt k))).getDraftTokens.1 =
      draftsAfter D (soFar M prompt (k + 1)) := by
    rw [← PromptLookupDecoder.getDraftTokens_forgetStats, hadded, draftsAfter]
  rw [round, h.current]
  simp only [if_neg hend, hdrafts]
  refine ⟨_, ?_, rfl⟩
  refine ⟨by simp only [h.ntoks], ?_, h.cache, ?_, h.raised⟩
  · rw [decode_soFar, ← h.pairs]
    simp [Session.pairs, decode, Model.choose]
  · rw [PromptLookupDecoder.forgetStats_getDraftTokens, hadded]

theorem Asked.predict (h : Asked M D prompt k s) :
    Standing M D prompt (k + 1) (predictOne M (M.choose (soFar M prompt k)) s) := by
  have hcache : s.cache ++ [M.choose (soFar M prompt k)] = soFar M prompt (k + 1) := by rw [h.cache, soFar_succ]
  refine ⟨h.ntoks, h.pairs, hcache, ?_, h.decoder, h.raised⟩
  simp only [predictOne, Model.step, afterEach, hcache, List.length_singleton, Nat.sub_self, List.drop_zero, List.head?_cons,
    Option.map_some]
  rfl

/-- What the speculative path leaves, before the cache is trimmed. -/
theorem Asked.decoder_accepted (h : Asked M D prompt k s) (n m : Nat) :
    ((s.decoder.addTokens (continuation M.choose (soFar M prompt (k + 1)) n)).recordAccepted n m).forgetStats =
      D.addTokens (soFar M prompt (k + 1 + n)) := by
  rw [PromptLookupDecoder.forgetStats_recordAccepted, PromptLookupDecoder.forgetStats_addTokens, h.decoder,
    soFar_add M prompt (k + 1) n, PromptLookupDecoder.addTokens_append]

theorem Asked.pairs_accepted (h : Asked M D prompt k s) (n : Nat) :
    (s.yielded ++ (decode M.logprobs M.sampler (soFar M prompt (k + 1)) n).map fun y => (y.1, y.2, true)).map
        (fun y => (y.1, y.2.1)) = decode M.logprobs M.sampler prompt (k + 1 + n) := by
  rw [decode_soFar, ← h.pairs]
  simp [Session.pairs, Function.comp_def]

/-- The last token is a draft: the cache is left with all drafts. -/
theorem Asked.verify_last (h : Asked M D prompt k s) {drafts : List Nat} (hmore : k + 1 < maxTokens)
    (hend : maxTokens ≤ k + 1 + agreed M.choose (soFar M prompt (k + 1)) drafts) :
    let s' := verifyDrafts M maxTokens (M.choose (soFar M prompt k)) drafts s
    Complete M prompt maxTokens s' ∧ s'.cache = soFar M prompt (k + 1) ++ drafts := by
  have hseq : s.cache ++ [M.choose (soFar M prompt k)] = soFar M prompt (k + 1) := by rw [h.cache, soFar_succ]
  have hn : min (agreed M.choose (soFar M prompt (k + 1)) drafts) (maxTokens - (k + 1)) = maxTokens - (k + 1) := by omega
  have hall : k + 1 + (maxTokens - (k + 1)) = maxTokens := by omega
  have hpairs := h.pairs_accepted (maxTokens - (k + 1))
  rw [verifyDrafts_eq (by rw [h.ntoks]; exact hmore)]
  simp only [hseq, hn, h.ntoks, hall, Nat.le_refl, if_true]
  rw [hall] at hpairs
  exact ⟨⟨rfl, hpairs, h.raised⟩, trivial⟩

/-- Otherwise the cache is trimmed to what is yielded. -/
theorem Asked.verify_next (h : Asked M D prompt k s) {drafts : List Nat}
    (hmore : k + 1 + agreed M.choose (soFar M prompt (k + 1)) drafts < maxTokens) :
    Standing M D prompt (k + 1 + agreed M.choose (soFar M prompt (k + 1)) drafts)
      (verifyDrafts M maxTokens (M.choose (soFar M prompt k)) drafts s) := by
  have hseq : s.cache ++ [M.choose (soFar M prompt k)] = soFar M prompt (k + 1) := by rw [h.cache, soFar_succ]
  have hn : min (agreed M.choose (soFar M prompt (k + 1)) drafts) (maxTokens - (k + 1)) =
      agreed M.choose (soFar M prompt (k + 1)) drafts := by omega
  have hle := agreed_le M.choose (soFar M prompt (k + 1)) drafts
  have hheld : soFar M prompt (k + 1) ++ drafts.take (agreed M.choose (soFar M prompt (k + 1)) drafts) =
      soFar M prompt (k + 1 + agreed M.choose (soFar M prompt (k + 1)) drafts) := by
    rw [take_agreed, soFar_add M prompt (k + 1) (agreed M.choose (soFar M prompt (k + 1)) drafts)]
  rw [verifyDrafts_eq (by rw [h.ntoks]; omega)]
  simp only [hseq, hn, h.ntoks, if_neg (Nat.not_le.2 hmore)]
  refine ⟨rfl, h.pairs_accepted _, ?_, by rw [hheld], h.decoder_accepted _ _, h.raised⟩
  split
  · rw [trim_drafts _ _ hle, hheld]
  · rename_i hfull
    rw [← hheld, List.take_of_length_le (Nat.not_lt.1 hfull)]

def roundStart (M : Model ν) (D : PromptLookupDecoder) (prompt : List Nat) : Nat → Nat
  | 0 => 0
  | i + 1 => roundStart M D prompt i + 1 + acceptedAfter M D (soFar M prompt (roundStart M D prompt i + 1))

/-- The round yields its own token and drafts, the last of all among them. -/
def EndsInDraft (M : Model ν) (D : PromptLookupDecoder) (prompt : List Nat) (maxTokens i : Nat) : Prop :=
  roundStart M D prompt i + 1 < maxTokens ∧ maxTokens ≤ roundStart M D prompt (i + 1)

/-- The cache holds the prompt and the tokens but for the last. -/
def CacheExact (prompt : List Nat) (s : Session ν) : Prop := s.cache = prompt ++ (s.yielded.map fun y => y.1).dropLast

theorem roundStart_lt (M : Model ν) (D : PromptLookupDecoder) (prompt : List Nat) (i : Nat) :
    roundStart M D prompt i < roundStart M D prompt (i + 1) := by
  rw [roundStart]
  omega

theorem roundStart_mono (M : Model ν) (D : PromptLookupDecoder) (prompt : List Nat) {i j : Nat} (h : i ≤ j) :
    roundStart M D prompt i ≤ roundStart M D prompt j := by
  induction h with
  | refl => exact Nat.le_refl _
  | step _ ih => exact Nat.le_trans ih (roundStart_lt M D prompt _).le

theorem Complete.tokens (h : Complete M prompt maxTokens s) :
    s.yielded.map (fun y => y.1) = continuation M.choose prompt maxTokens := by
  have htokens := congrArg (List.map Prod.fst) h.pairs
  rw [map_fst_decode] at htokens
  rw [Session.pairs, List.map_map] at htokens
  exact htokens

theorem Complete.cacheExact_iff (h : Complete M prompt maxTokens s) (hpos : k + 1 = maxTokens) :
    CacheExact prompt s ↔ s.cache = soFar M prompt k := by
  rw [CacheExact, h.tokens, ← hpos, continuation_succ, List.dropLast_concat, soFar]

/-- One round of the loop, by where the last token falls. -/
theorem Standing.round (h : Standing M D prompt k s) (hlt : k < maxTokens) :
    (k + 1 + acceptedAfter M D (soFar M prompt (k + 1)) < maxTokens ∧
        Standing M D prompt (k + 1 + acceptedAfter M D (soFar M prompt (k + 1))) (round M maxTokens s)) ∨
      (maxTokens ≤ k + 1 + acceptedAfter M D (soFar M prompt (k + 1)) ∧ Complete M prompt maxTokens (round M maxTokens s) ∧
        (CacheExact prompt (round M maxTokens s) ↔ k + 1 = maxTokens)) := by
  obtain hlast | hmore := Nat.eq_or_lt_of_le (Nat.succ_le_of_lt hlt)
  · obtain ⟨hcomplete, hcache⟩ := h.last hlast
    exact .inr ⟨by omega, hcomplete, iff_of_true ((hcomplete.cacheExact_iff hlast).2 hcache) hlast⟩
  obtain ⟨s', hasked, hround⟩ := h.ask hmore
  rw [hround]
  by_cases hdrafts : draftsAfter D (soFar M prompt (k + 1)) = []
  · rw [if_neg (not_not_intro hdrafts)]
    have hnone : acceptedAfter M D (soFar M prompt (k + 1)) = 0 := by rw [acceptedAfter, hdrafts, agreed]
    rw [hnone]
    exact .inl ⟨hmore, hasked.predict⟩
  · rw [if_pos hdrafts]
    by_cases hend : maxTokens ≤ k + 1 + acceptedAfter M D (soFar M prompt (k + 1))
    · obtain ⟨hcomplete, hcache⟩ := hasked.verify_last hmore hend
      refine .inr ⟨hend, hcomplete, iff_of_false ?_ (Nat.ne_of_lt hmore)⟩
      intro hexact
      rw [CacheExact, hcache, hcomplete.tokens] at hexact
      have hlen := congrArg List.length hexact
      have hle := agreed_le M.choose (soFar M prompt (k + 1)) (draftsAfter D (soFar M prompt (k + 1)))
      rw [acceptedAfter] at hend
      simp only [soFar, List.length_append, List.length_dropLast, length_continuation] at hlen hle hend
      omega
    · exact .inl ⟨Nat.lt_of_not_le hend, hasked.verify_next (Nat.lt_of_not_le hend)⟩

theorem rounds_complete (h : Complete M prompt maxTokens s) (n : Nat) : rounds M maxTokens n s = s := by
  cases n with
  | zero => rfl
  | succ n => rw [rounds, if_neg (by rw [h.ntoks]; exact fun hand => absurd hand.1 (Nat.lt_irrefl _))]

/-- The induction is on the bound of the loop. -/
theorem Standing.rounds {i n : Nat} (h : Standing M D prompt (roundStart M D prompt i) s)
    (hlt : roundStart M D prompt i < maxTokens) (hn : maxTokens - roundStart M D prompt i ≤ n) :
    Complete M prompt maxTokens (rounds M maxTokens n s) ∧
      (CacheExact prompt (rounds M maxTokens n s) ↔ ∀ j, i ≤ j → ¬ EndsInDraft M D prompt maxTokens j) := by
  induction n generalizing s i with
  | zero => omega
  | succ n ih =>
    rw [PromptLookup.rounds, if_pos ⟨by rw [h.ntoks]; exact hlt, h.raised⟩]
    have hstep := roundStart_lt M D prompt i
    obtain ⟨hmore, hstanding⟩ | ⟨hend, hcomplete, hcache⟩ := h.round hlt
    · obtain ⟨hcomplete, hcache⟩ := @ih _ (i + 1) hstanding hmore (by rw [roundStart] at hstep ⊢; omega)
      refine ⟨hcomplete, hcache.trans ⟨fun hall j hj => ?_, fun hall j hj => hall j (Nat.le_of_succ_le hj)⟩⟩
      obtain rfl | hlater := Nat.eq_or_lt_of_le hj
      · exact fun hdraft => absurd hdraft.2 (Nat.not_le.2 hmore)
      · exact hall j hlater
    · rw [rounds_complete hcomplete]
      refine ⟨hcomplete, hcache.trans ⟨fun hlast j hj hdraft => ?_, fun hall => ?_⟩⟩
      · have hmono := roundStart_mono M D prompt hj
        have hroom := hdraft.1
        omega
      · by_contra hne
        exact hall i (Nat.le_refl i) ⟨by omega, hend⟩

/-- A finished run is plain decoding: the tokens with their scores, and the cache. -/
structure DropIn (M : Model ν) (logitsProcessors : List (List Nat → ν → ν)) (prompt : List Nat) (maxTokens : Nat)
    (s : Session ν) : Prop where
  finished : s.raised = false ∧ maxTokens ≤ s.ntoks
  pairs : s.pairs = decode (M.processed logitsProcessors) M.sampler prompt maxTokens
  cache : CacheExact prompt s

/-- The processors leave all scores alone that decoding meets. -/
def ProcessorsIdle (M : Model ν) (logitsProcessors : List (List Nat → ν → ν)) (prompt : List Nat) (maxTokens : Nat) :
    Prop :=
  ∀ i < maxTokens, M.processed logitsProcessors (soFar M prompt i) = M.logprobs (soFar M prompt i)

theorem prefill_append (stepSize n : Nat) (cache tokens : List Nat) :
    (prefill stepSize n cache tokens).1 ++ (prefill stepSize n cache tokens).2 = cache ++ tokens := by
  induction n generalizing cache tokens with
  | zero => rfl
  | succ n ih =>
    rw [prefill]
    split
    · rw [ih, List.append_assoc, List.take_append_drop]
    · rfl

theorem prefill_rest (stepSize n : Nat) (cache : List Nat) {tokens : List Nat} (h : tokens ≠ []) :
    (prefill stepSize n cache tokens).2 ≠ [] := by
  induction n generalizing cache tokens with
  | zero => exact h
  | succ n ih =>
    rw [prefill]
    split
    · rename_i hlong
      exact ih _ (by rw [Ne, List.drop_eq_nil_iff]; exact Nat.not_le.2 hlong)
    · exact h

def newDecoder (numDraftTokens ngramSize : Int) : PromptLookupDecoder := PromptLookupDecoder.init numDraftTokens ngramSize 2

theorem generate_eq (M : Model ν) (numDraftTokens ngramSize : Int) (maxTokens : Nat)
    (logitsProcessors : List (List Nat → ν → ν)) (prefillStepSize : { n : Nat // 0 < n }) (hprompt : prompt ≠ []) :
    ∃ s, Standing M (newDecoder numDraftTokens ngramSize) prompt 0 s ∧ s.yielded = [] ∧
      promptLookupGenerateStep M prompt numDraftTokens ngramSize maxTokens logitsProcessors prefillStepSize =
        rounds M maxTokens maxTokens s := by
  refine ⟨_, ⟨rfl, rfl, ?_, ?_, ?_, rfl⟩, rfl, rfl⟩
  · exact (prefill_append ..).trans (by simp [soFar, continuation])
  · have hrest := prefill_rest prefillStepSize.val prompt.length [] hprompt
    have happend := prefill_append prefillStepSize.val prompt.length [] prompt
    have hlast := @getLast?_afterEach _ _ M.logprobs (prefill prefillStepSize.val prompt.length [] prompt).1 _ hrest
    rw [happend, List.nil_append] at hlast
    simp only [List.head?_drop, ← List.getLast?_eq_getElem?, hlast, Option.map_some, soFar, continuation,
      List.append_nil, Model.choose]
  · rw [PromptLookupDecoder.forgetStats_addTokens]
    simp [soFar, continuation, newDecoder, PromptLookupDecoder.forgetStats, PromptLookupDecoder.init]

/-- Nothing is read of an empty prompt, so that the first `item()` raises. -/
theorem empty_raises (D : PromptLookupDecoder) (hpos : 0 < maxTokens) :
    (rounds M maxTokens maxTokens
      { cache := [], decoder := D, current := none, yielded := [], ntoks := 0, raised := false }).raised = true := by
  obtain ⟨n, rfl⟩ : ∃ n, maxTokens = n + 1 := ⟨maxTokens - 1, by omega⟩
  rw [rounds, if_pos ⟨hpos, rfl⟩]
  cases n with
  | zero => rfl
  | succ n =>
    rw [rounds, if_neg (fun h => by cases h.2)]
    rfl

/-- Prompt lookup is a drop-in for plain decoding exactly when the processors have nothing to do and the last
token is not a draft. -/
theorem prompt_lookup_exact_iff (M : Model ν) (prompt : List Nat) (numDraftTokens ngramSize : Int) (maxTokens : Nat)
    (logitsProcessors : List (List Nat → ν → ν)) (prefillStepSize : { n : Nat // 0 < n }) :
    DropIn M logitsProcessors prompt maxTokens
        (promptLookupGenerateStep M prompt numDraftTokens ngramSize maxTokens logitsProcessors prefillStepSize) ↔
      (prompt ≠ [] ∨ maxTokens = 0) ∧ ProcessorsIdle M logitsProcessors prompt maxTokens ∧
        ∀ i, ¬ EndsInDraft M (newDecoder numDraftTokens ngramSize) prompt maxTokens i := by
  obtain rfl | hpos := Nat.eq_zero_or_pos maxTokens
  · refine iff_of_true ⟨⟨rfl, Nat.le_refl 0⟩, rfl, ?_⟩
      ⟨.inr rfl, fun i hi => absurd hi (Nat.not_lt_zero i), fun i hi => ?_⟩
    · exact (prefill_append ..).trans (List.append_nil prompt).symm
    · exact absurd hi.1 (Nat.not_lt_zero _)
  by_cases hprompt : prompt = []
  · refine iff_of_false (fun h => ?_) (fun h => ?_)
    · have hraised := @empty_raises _ M _ (newDecoder numDraftTokens ngramSize) hpos
      subst hprompt
      have hnot := h.finished.1
      exact absurd (hraised.symm.trans hnot) (by simp)
    · obtain ⟨hne | hzero, -⟩ := h
      · exact hne hprompt
      · omega
  obtain ⟨s, hstanding, -, hrun⟩ := generate_eq M numDraftTokens ngramSize maxTokens logitsProcessors prefillStepSize hprompt
  obtain ⟨hcomplete, hcache⟩ := @Standing.rounds _ M prompt maxTokens _ s 0 maxTokens hstanding hpos (Nat.sub_le ..)
  have hidle : decode M.logprobs M.sampler prompt maxTokens = decode (M.processed logitsProcessors) M.sampler prompt maxTokens ↔
      ProcessorsIdle M logitsProcessors prompt maxTokens :=
    (decode_eq_iff ..).trans ⟨fun h i hi => (h i hi).symm, fun h i hi => (h i hi).symm⟩
  rw [hrun]
  constructor
  · intro h
    refine ⟨.inl hprompt, hidle.1 (hcomplete.pairs.symm.trans h.pairs), fun i => hcache.1 h.cache i (Nat.zero_le i)⟩
  · rintro ⟨-, hprocessors, hdrafts⟩
    exact ⟨⟨hcomplete.raised, hcomplete.ntoks.ge⟩, hcomplete.pairs.trans (hidle.2 hprocessors),
      hcache.2 fun j _ => hdrafts j⟩

/-- The last token is an accepted draft, with the other draft left in the cache; and a processor that is not
asked. -/
theorem prompt_lookup_goes_wrong :
    (∃ s : Session Nat, promptLookupGenerateStep ⟨fun _ => 1, id, id⟩ [1, 1, 1, 1] 4 3 2 [] ⟨512, by decide⟩ = s ∧
      s.yielded = [(1, 1, false), (1, 1, true)] ∧ s.cache = [1, 1, 1, 1, 1, 1, 1] ∧ ¬ CacheExact [1, 1, 1, 1] s) ∧
      ¬ DropIn ⟨fun _ => 1, id, id⟩ [fun _ _ => 0] [1] 1
          (promptLookupGenerateStep ⟨fun _ => 1, id, id⟩ [1] 4 3 1 [fun _ _ => 0] ⟨512, by decide⟩) := by
  refine ⟨⟨_, rfl, by decide, by decide, ?_⟩, fun h => ?_⟩
  · rw [CacheExact]
    decide
  · have := h.pairs
    revert this
    decide

end FusionMlx.PromptLookup
