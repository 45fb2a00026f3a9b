import FusionMlx.Service.KvCheckpoints
import FusionMlx.Support.Runs

/-!
# What a resumed checkpoint covers

A sidecar of the disconnect end fits the body of its name when it tells the
body's tokens and model. Every write keeps that, unless it stops between the
two renames over the sidecar of something else.
-/
namespace FusionMlx.KvCheckpoints

open OrderedDict BlockHashing Runs

variable {sha256 : Bytes → Bytes} {r r' : Root} {path : Path} {body : Body} {sidecar : Sidecar} {ending : WriteEnd}

theorem joined_injective {xs ys : List Int} (hx : xs ≠ []) (hy : ys ≠ [])
    (h : [44].intercalate (xs.map strInt) = [44].intercalate (ys.map strInt)) : xs = ys := by
  have hcomma : ∀ zs : List Int, ∀ item ∈ zs.map strInt, (44 : UInt8) ∉ item := by
    intro zs item hitem hmem
    obtain ⟨z, _, rfl⟩ := List.mem_map.1 hitem
    exact (strInt_bytes z _ hmem).1 rfl
  have hsplit := congrArg (List.splitOn 44) h
  rw [List.splitOn_intercalate 44 (hcomma xs) (by simpa using hx), List.splitOn_intercalate 44 (hcomma ys) (by simpa using hy)]
    at hsplit
  exact List.map_injective_iff.2 strInt_injective hsplit

/-- Without collisions the digest tells the tokens. -/
theorem promptHash_eq_iff (hsha : Function.Injective sha256) {xs ys : List Int} {n : Nat} (hn : 0 < n) (hx : n ≤ xs.length)
    (hy : n ≤ ys.length) : promptHash sha256 xs n = promptHash sha256 ys n ↔ xs.take n = ys.take n := by
  have hsome : ∀ zs : List Int, n ≤ zs.length → zs.take n ≠ [] := by
    intro zs hz hnil
    have := congrArg List.length hnil
    rw [List.length_take, List.length_nil] at this
    omega
  exact ⟨fun h => joined_injective (hsome xs hx) (hsome ys hy) (hsha h), fun h => by rw [promptHash, h, promptHash]⟩

/-- A sidecar of the disconnect end tells what the body covers, and for which model. -/
def Fits (sha256 : Bytes → Bytes) (path : Path) (sidecar : Sidecar) (body : Body) : Prop :=
  sidecar.extra.source = some disconnectPersist →
    sidecar.tokenOffset = path.tokenOffset ∧ 0 < path.tokenOffset ∧ body.cache.tokens.length = path.tokenOffset ∧
      sidecar.extra.promptHash = some (promptHash sha256 body.cache.tokens path.tokenOffset) ∧
      sidecar.modelName = body.cache.model ∧ body.cache.model.getD [] ≠ []

def Sound (sha256 : Bytes → Bytes) (r : Root) : Prop :=
  ∀ path body sidecar, r.bodies.get? path = some body → r.sidecars.get? path = some sidecar → Fits sha256 path sidecar body

structure Shrinks (r r' : Root) : Prop where
  bodies : ∀ path body, r'.bodies.get? path = some body → r.bodies.get? path = some body
  sidecars : ∀ path sidecar, r'.sidecars.get? path = some sidecar → r.sidecars.get? path = some sidecar

theorem Shrinks.sound (h : Shrinks r r') (hs : Sound sha256 r) : Sound sha256 r' := fun path body sidecar hbody hsidecar =>
  hs path body sidecar (h.bodies path body hbody) (h.sidecars path sidecar hsidecar)

theorem Shrinks.refl (r : Root) : Shrinks r r := ⟨fun _ _ h => h, fun _ _ h => h⟩

theorem Shrinks.trans {r'' : Root} (h : Shrinks r r') (h' : Shrinks r' r'') : Shrinks r r'' :=
  ⟨fun p b hb => h.bodies p b (h'.bodies p b hb), fun p m hm => h.sidecars p m (h'.sidecars p m hm)⟩

theorem shrinks_cleaned (r : Root) : Shrinks r r.cleaned := ⟨fun _ _ h => h, fun _ _ h => h⟩

theorem evictLoop_shrinks (maxBytes : Nat) (bodyFails sidecarFails : Path → Bool) (total : Nat) (entries : List (Path × Body))
    (r : Root) : Shrinks r (evictLoop maxBytes bodyFails sidecarFails total entries r) := by
  induction entries generalizing total r with
  | nil => exact .refl r
  | cons entry entries ih =>
    obtain ⟨path, body⟩ := entry
    rw [evictLoop]
    split
    · exact .refl r
    · split
      · exact ih total r
      · refine Shrinks.trans ⟨fun p b hb => Dict.get?_of_erase hb, fun p m hm => ?_⟩ (ih _ _)
        simp only at hm
        split at hm
        · exact hm
        · exact Dict.get?_of_erase hm

theorem enforceDiskCap_shrinks (maxBytes : Nat) (bodyFails sidecarFails : Path → Bool) (r : Root) :
    Shrinks r (enforceDiskCap maxBytes bodyFails sidecarFails r) := by
  unfold enforceDiskCap
  simp only
  split
  · exact shrinks_cleaned r
  · exact (shrinks_cleaned r).trans (evictLoop_shrinks ..)

theorem get?_of_removeAll {ν : Type} {paths : List Path} {d : Dict Path ν} {v : ν}
    (h : (removeAll paths d).get? path = some v) : d.get? path = some v := by
  induction paths generalizing d with
  | nil => exact h
  | cons p paths ih => exact Dict.get?_of_erase (ih h)

theorem cleanupRequest_shrinks (reqHash : Bytes) (emptyDir : Bool) (keepsBody keepsSidecar : Path → Bool)
    (r : Root) : Shrinks r (cleanupRequest reqHash emptyDir keepsBody keepsSidecar r) := by
  unfold cleanupRequest
  split
  · exact ⟨fun _ _ h => get?_of_removeAll h, fun _ _ h => get?_of_removeAll h⟩
  · exact .refl r

def WriteEnd.Between : WriteEnd → Prop
  | .crash done => done = 2 ∨ done = 3
  | .sidecarFails => True
  | _ => False

theorem fileSteps_two (r : Root) (path : Path) (body : Body) (sidecar : Sidecar) :
    (r.fileSteps path body sidecar [.bodyTmp, .bodyRename]).bodies = r.bodies.set path body ∧
      (r.fileSteps path body sidecar [.bodyTmp, .bodyRename]).sidecars = r.sidecars := by
  simp [Root.fileSteps, Root.fileStep]

theorem fileSteps_three (r : Root) (path : Path) (body : Body) (sidecar : Sidecar) :
    (r.fileSteps path body sidecar [.bodyTmp, .bodyRename, .sidecarTmp]).bodies = r.bodies.set path body ∧
      (r.fileSteps path body sidecar [.bodyTmp, .bodyRename, .sidecarTmp]).sidecars = r.sidecars := by
  simp [Root.fileSteps, Root.fileStep]

theorem fileSteps_four (r : Root) (path : Path) (body : Body) (sidecar : Sidecar) :
    (r.fileSteps path body sidecar [.bodyTmp, .bodyRename, .sidecarTmp, .sidecarRename]).bodies = r.bodies.set path body ∧
      (r.fileSteps path body sidecar [.bodyTmp, .bodyRename, .sidecarTmp, .sidecarRename]).sidecars =
        r.sidecars.set path sidecar := by
  simp [Root.fileSteps, Root.fileStep]

/-- The body of a path is set, and its sidecar fits. -/
theorem Sound.setBody (hs : Sound sha256 r) (hbodies : r'.bodies = r.bodies.set path body) (hsidecars : r'.sidecars = r.sidecars)
    (hfits : ∀ old, r.sidecars.get? path = some old → Fits sha256 path old body) : Sound sha256 r' := by
  intro p b m hb hm
  rw [hbodies, Dict.get?_set] at hb
  rw [hsidecars] at hm
  split at hb
  · rename_i hp
    subst hp
    cases hb
    exact hfits m hm
  · exact hs p b m hb hm

theorem Sound.setBoth (hs : Sound sha256 r) (hbodies : r'.bodies = r.bodies.set path body)
    (hsidecars : r'.sidecars = r.sidecars.set path sidecar) (hfits : Fits sha256 path sidecar body) : Sound sha256 r' := by
  intro p b m hb hm
  rw [hbodies, Dict.get?_set] at hb
  rw [hsidecars, Dict.get?_set] at hm
  split at hb
  · rename_i hp
    subst hp
    rw [if_pos rfl] at hm
    cases hb
    cases hm
    exact hfits
  · rename_i hp
    rw [if_neg hp] at hm
    exact hs p b m hb hm

theorem Sound.cleaned (hs : Sound sha256 r) : Sound sha256 r.cleaned := hs

theorem Sound.write (hs : Sound sha256 r) (hfits : Fits sha256 path sidecar body)
    (hbetween : ending.Between → ∀ old, r.sidecars.get? path = some old → Fits sha256 path old body) :
    Sound sha256 (writeCheckpoint path body sidecar ending r) := by
  have htwo := fileSteps_two r path body sidecar
  have hthree := fileSteps_three r path body sidecar
  have hfour := fileSteps_four r path body sidecar
  cases ending with
  | crash done =>
    match done with
    | 0 => exact hs
    | 1 => exact hs
    | 2 =>
      change Sound sha256 (r.fileSteps path body sidecar [.bodyTmp, .bodyRename])
      exact hs.setBody htwo.1 htwo.2 (hbetween (.inl rfl))
    | 3 =>
      change Sound sha256 (r.fileSteps path body sidecar [.bodyTmp, .bodyRename, .sidecarTmp])
      exact hs.setBody hthree.1 hthree.2 (hbetween (.inr rfl))
    | n + 4 =>
      have htake : [FileStep.bodyTmp, .bodyRename, .sidecarTmp, .sidecarRename].take (n + 4) =
          [.bodyTmp, .bodyRename, .sidecarTmp, .sidecarRename] := by simp
      rw [writeCheckpoint, htake]
      exact hs.setBoth hfour.1 hfour.2 hfits
  | bodyFails => exact hs
  | sidecarFails =>
    rw [writeCheckpoint]
    exact (hs.setBody htwo.1 htwo.2 (hbetween trivial)).cleaned
  | regular =>
    rw [writeCheckpoint]
    exact (hs.setBoth hfour.1 hfour.2 hfits).cleaned

/-- A disconnect write names its model and gives the tokens that are cached; a boundary write is not marked as
one; neither stops between the renames over a sidecar that does not fit. -/
def Meets (sha256 : Bytes → Bytes) (s : State) : Action → Prop
  | .persist interval w hasLayers givesPrompt ending =>
    interval = 0 ∨ hasLayers = false ∨ w.numTokens = 0 ∨
      (w.modelName.getD [] ≠ [] ∧ givesPrompt = true ∧ w.numTokens ≤ w.promptTokenIds.length ∧
        (ending.Between → ∀ old, s.root.sidecars.get? (persistPath sha256 w) = some old →
          Fits sha256 (persistPath sha256 w) old (w.body w.numTokens)))
  | .maybeWrite reqHash w hasLayers lastCheckpointAt interval extra ending _ =>
    shouldCheckpoint w.numTokens lastCheckpointAt interval = false ∨ hasLayers = false ∨
      (extra.source ≠ some disconnectPersist ∧
        (ending.Between → ∀ old, s.root.sidecars.get? ⟨reqHash, boundary w.numTokens interval⟩ = some old →
          Fits sha256 ⟨reqHash, boundary w.numTokens interval⟩ old (w.body (boundary w.numTokens interval))))
  | _ => True

/-- A disconnect write covers what its sidecar says. -/
theorem fits_persist (w : Written) (hpos : w.numTokens ≠ 0) (hmodel : w.modelName.getD [] ≠ [])
    (hlen : w.numTokens ≤ w.promptTokenIds.length) :
    Fits sha256 (persistPath sha256 w) (w.sidecar w.numTokens (persistExtra sha256 w true)) (w.body w.numTokens) := by
  intro _
  have htokens : (w.body w.numTokens).cache.tokens = w.promptTokenIds.take w.numTokens := List.take_append_of_le_length hlen
  have hprompt : w.promptTokenIds ≠ [] := by
    intro hnil
    rw [hnil, List.length_nil] at hlen
    omega
  refine ⟨rfl, Nat.pos_of_ne_zero hpos, ?_, ?_, rfl, hmodel⟩
  · rw [htokens, List.length_take, Nat.min_eq_left hlen]
    rfl
  · rw [htokens]
    simp [Written.sidecar, persistExtra, hprompt, promptHash, persistPath, List.take_take]

theorem Sound.step {s : State} (hs : Sound sha256 s.root) {a : Action} (ha : Meets sha256 s a) :
    Sound sha256 (step sha256 s a).root := by
  cases a with
  | persist interval w hasLayers givesPrompt ending =>
    change Sound sha256 (persistRequestKv sha256 interval w hasLayers givesPrompt ending s.root)
    unfold persistRequestKv
    split
    · exact hs
    · rename_i hwrites
      simp only [not_or] at hwrites
      obtain hoff | hoff | hoff | ⟨hmodel, hprompt, hlen, hbetween⟩ := ha
      · exact absurd hoff hwrites.1
      · exact absurd hoff hwrites.2.1
      · exact absurd hoff hwrites.2.2
      · subst hprompt
        exact hs.write (fits_persist w hwrites.2.2 hmodel hlen) hbetween
  | maybeWrite reqHash w hasLayers lastCheckpointAt interval extra ending pass =>
    change Sound sha256 (maybeWriteCheckpoint reqHash w hasLayers lastCheckpointAt interval extra ending pass s).root
    unfold maybeWriteCheckpoint
    split
    · exact hs
    · rename_i hwrites
      rw [not_or] at hwrites
      obtain hoff | hoff | ⟨hsource, hbetween⟩ := ha
      · exact absurd hoff hwrites.1
      · exact absurd hoff hwrites.2
      · have hwrite : Sound sha256 (writeCheckpoint ⟨reqHash, boundary w.numTokens interval⟩
            (w.body (boundary w.numTokens interval)) (w.sidecar (boundary w.numTokens interval) extra) ending s.root) :=
          hs.write (fun hmarked => absurd hmarked hsource) hbetween
        have hcap : Sound sha256 (maybeEnforceDiskCap pass { s with
            root := writeCheckpoint ⟨reqHash, boundary w.numTokens interval⟩ (w.body (boundary w.numTokens interval))
              (w.sidecar (boundary w.numTokens interval) extra) ending s.root }).root := by
          unfold maybeEnforceDiskCap
          split
          · exact hwrite
          · exact (enforceDiskCap_shrinks ..).sound hwrite
        cases ending with
        | crash done => exact hwrite
        | bodyFails => exact hwrite
        | sidecarFails => exact hcap
        | regular => exact hcap
  | enforceDiskCap maxBytes bodyFails sidecarFails => exact (enforceDiskCap_shrinks ..).sound hs
  | cleanupRequest reqHash emptyDir keepsBody keepsSidecar => exact (cleanupRequest_shrinks ..).sound hs

structure Valid (r : Root) (promptTokenIds : List Int) (modelName : Option Bytes) (path : Path) (body : Body) : Prop where
  stored : r.bodies.get? path = some body
  readable : body.readable = true
  marked : ∃ sidecar, r.sidecars.get? path = some sidecar ∧ sidecar.extra.source = some disconnectPersist
  model : body.cache.model = modelName
  covers : body.cache.tokens <+: promptTokenIds

/-- The model is named, and no checkpoint of the whole prompt is stored. -/
structure QueryOk (r : Root) (promptTokenIds : List Int) (modelName : Option Bytes) : Prop where
  named : modelName.getD [] ≠ []
  partly : ∀ path body, Valid r promptTokenIds modelName path body → body.cache.tokens ≠ promptTokenIds

/-- What is resumed is the cache of a strict prefix, made by the model, and no valid one is longer. -/
structure Resumes (r : Root) (promptTokenIds : List Int) (modelName : Option Bytes) (loaded : LoadedCheckpoint) : Prop where
  model : loaded.cache.model = modelName
  covers : loaded.cache.tokens = promptTokenIds.take loaded.tokenOffset
  strict : loaded.tokenOffset < promptTokenIds.length
  longest : ∀ path body, Valid r promptTokenIds modelName path body → body.cache.tokens.length ≤ loaded.tokenOffset

instance : IsTrans Candidate Before where
  trans a b c := by
    unfold Before
    omega

instance : Std.Total Before where
  total a b := by
    unfold Before
    omega

theorem mem_scanCheckpoints {entry : Path × Body} : entry ∈ r.scanCheckpoints ↔ r.bodies.get? entry.1 = some entry.2 := by
  rw [Root.scanCheckpoints, List.mem_insertionSort, Dict.get?_eq_some_iff]

variable {promptTokenIds : List Int} {modelName : Option Bytes} {c : Candidate} {loaded : LoadedCheckpoint}

structure IsCandidate (sha256 : Bytes → Bytes) (r : Root) (promptTokenIds : List Int) (modelName : Option Bytes) (c : Candidate)
    (body : Body) : Prop where
  body : r.bodies.get? c.path = some body
  sidecar : r.sidecars.get? c.path = some c.sidecar
  marked : c.sidecar.extra.source = some disconnectPersist
  model : modelMatches modelName c.sidecar.modelName = true
  offset : c.offset = c.sidecar.tokenOffset
  positive : 0 < c.offset
  short : c.offset ≤ promptTokenIds.length
  hash : c.sidecar.extra.promptHash = some (promptHash sha256 promptTokenIds c.offset)

theorem mem_candidates (h : c ∈ r.scanCheckpoints.filterMap (candidate sha256 r promptTokenIds modelName)) :
    ∃ body, IsCandidate sha256 r promptTokenIds modelName c body := by
  obtain ⟨⟨path, body⟩, hentry, hc⟩ := List.mem_filterMap.1 h
  have hbody := mem_scanCheckpoints.1 hentry
  unfold candidate at hc
  split at hc
  · cases hc
  · rename_i sidecar hsidecar
    split at hc
    · rename_i htests
      cases hc
      exact ⟨body, hbody, hsidecar, htests.1, htests.2.1, rfl, htests.2.2.1, htests.2.2.2.1, htests.2.2.2.2⟩
    · cases hc

/-- A candidate is resumed when its body can be read. -/
theorem tryCandidate_eq (h : IsCandidate sha256 r promptTokenIds modelName c body) :
    tryCandidate sha256 r promptTokenIds c =
      if body.readable then
        some ⟨body.cache, c.offset, storedDtype (some c.sidecar) body, c.sidecar.requiresFullCheckpoint, some c.sidecar, c.path⟩
      else none := by
  unfold tryCandidate loadCheckpoint
  simp only [h.body, h.sidecar]
  have hpos := h.positive
  cases hreadable : body.readable with
  | false => rfl
  | true => simp [← h.offset, Nat.pos_iff_ne_zero.1 hpos, h.short, h.hash, hpos]

/-- A valid stored checkpoint is among the candidates. -/
theorem Valid.candidate {path : Path} (h : Valid r promptTokenIds modelName path body) (hs : Sound sha256 r) :
    ∃ c, c ∈ r.scanCheckpoints.filterMap (KvCheckpoints.candidate sha256 r promptTokenIds modelName) ∧
      IsCandidate sha256 r promptTokenIds modelName c body ∧ c.offset = body.cache.tokens.length := by
  obtain ⟨sidecar, hsidecar, hmarked⟩ := h.marked
  obtain ⟨hoffset, hpos, hlen, hhash, hmodel, hnamed⟩ := hs path body sidecar h.stored hsidecar hmarked
  have hshort : sidecar.tokenOffset ≤ promptTokenIds.length := by
    rw [hoffset, ← hlen]
    exact h.covers.length_le
  have hprompt : sidecar.extra.promptHash = some (promptHash sha256 promptTokenIds sidecar.tokenOffset) := by
    have htake := List.prefix_iff_eq_take.1 h.covers
    rw [hhash, hoffset, ← hlen, promptHash, List.take_length, promptHash, ← htake]
  have hmatches : modelMatches modelName sidecar.modelName = true := by
    simp [modelMatches, hmodel, h.model]
  have hpos' : 0 < sidecar.tokenOffset := by rwa [hoffset]
  have hcandidate : KvCheckpoints.candidate sha256 r promptTokenIds modelName (path, body) =
      some ⟨sidecar.tokenOffset, body.mtime, path, sidecar⟩ := by
    unfold KvCheckpoints.candidate
    simp only [hsidecar]
    rw [if_pos ⟨hmarked, hmatches, hpos', hshort, hprompt⟩]
  refine ⟨_, List.mem_filterMap.2 ⟨_, mem_scanCheckpoints.2 h.stored, hcandidate⟩,
    ⟨h.stored, hsidecar, hmarked, hmatches, rfl, hpos', hshort, hprompt⟩, ?_⟩
  rw [hoffset, hlen]

/-- A candidate whose body fits is a valid checkpoint, for a named model. -/
theorem IsCandidate.valid (hsha : Function.Injective sha256) (h : IsCandidate sha256 r promptTokenIds modelName c body)
    (hs : Sound sha256 r) (hnamed : modelName.getD [] ≠ []) (hreadable : body.readable = true) :
    Valid r promptTokenIds modelName c.path body ∧ body.cache.tokens = promptTokenIds.take c.offset ∧
      body.cache.tokens.length = c.offset := by
  obtain ⟨hoffset, hpos, hlen, hhash, hmodel, hnamed'⟩ := hs c.path body c.sidecar h.body h.sidecar h.marked
  have hsame : c.offset = c.path.tokenOffset := h.offset.trans hoffset
  have hcovers : body.cache.tokens = promptTokenIds.take c.offset := by
    have heq : promptHash sha256 body.cache.tokens c.offset = promptHash sha256 promptTokenIds c.offset := by
      rw [← Option.some.injEq, ← h.hash, hhash, hsame]
    have htake := (promptHash_eq_iff hsha h.positive (by rw [hlen, hsame]) h.short).1 heq
    rwa [List.take_of_length_le (by rw [hlen, hsame])] at htake
  have hmatches := h.model
  rw [modelMatches, hmodel] at hmatches
  simp only [hnamed, hnamed', false_or, decide_eq_true_eq] at hmatches
  refine ⟨⟨h.body, hreadable, ⟨c.sidecar, h.sidecar, h.marked⟩, hmatches, ?_⟩, hcovers, hlen.trans hsame.symm⟩
  rw [hcovers]
  exact List.take_prefix _ _

/-- The first candidate that loads is the longest valid checkpoint. -/
theorem Sound.resumes (hs : Sound sha256 r) (hsha : Function.Injective sha256) {interval : Nat}
    (hquery : QueryOk r promptTokenIds modelName)
    (hfound : findResumableKvForPrompt sha256 interval promptTokenIds modelName r = some loaded) :
    Resumes r promptTokenIds modelName loaded := by
  unfold findResumableKvForPrompt at hfound
  split at hfound
  · cases hfound
  simp only at hfound
  obtain ⟨before, c, after, hsplit, hloaded, hnone⟩ := List.findSome?_eq_some_iff.1 hfound
  have hsorted := List.pairwise_insertionSort Before
    (r.scanCheckpoints.filterMap (KvCheckpoints.candidate sha256 r promptTokenIds modelName))
  have hmem : ∀ x, x ∈ before ++ c :: after ↔
      x ∈ r.scanCheckpoints.filterMap (KvCheckpoints.candidate sha256 r promptTokenIds modelName) := by
    intro x
    rw [← hsplit, List.mem_insertionSort]
  rw [hsplit] at hsorted
  obtain ⟨body, hc⟩ := mem_candidates ((hmem c).1 (by simp))
  rw [tryCandidate_eq hc] at hloaded
  split at hloaded
  case isFalse => cases hloaded
  rename_i hreadable
  cases hloaded
  obtain ⟨hvalid, hcovers, hlen⟩ := hc.valid hsha hs hquery.named hreadable
  have hshort := hc.short
  refine ⟨hvalid.model, hcovers, Nat.lt_of_le_of_ne hshort fun hwhole => ?_, fun path body' hvalid' => ?_⟩
  · refine hquery.partly c.path body hvalid ?_
    change c.offset = promptTokenIds.length at hwhole
    rw [hcovers, hwhole, List.take_length]
  · obtain ⟨c', hin, hc', hoffset'⟩ := hvalid'.candidate hs
    change _ ≤ c.offset
    rw [← hoffset']
    obtain hbefore | rfl | hafter := List.mem_append.1 ((hmem c').2 hin) |>.imp id List.mem_cons.1
    · have hno := hnone c' hbefore
      rw [tryCandidate_eq hc', if_pos hvalid'.readable] at hno
      cases hno
    · exact Nat.le_refl _
    · have hle := (List.pairwise_cons.1 (List.pairwise_append.1 hsorted).2.1).1 c' hafter
      unfold Before at hle
      omega

/-- In every run whose steps all meet the condition, what the finder returns is the longest stored checkpoint of a
strict prefix. -/
theorem resumed_matches (hsha : Function.Injective sha256) {s : State} (h : Reached (· = {}) (Meets sha256) (step sha256) s)
    {interval : Nat} {promptTokenIds : List Int} {modelName : Option Bytes} {loaded : LoadedCheckpoint}
    (hquery : QueryOk s.root promptTokenIds modelName)
    (hfound : findResumableKvForPrompt sha256 interval promptTokenIds modelName s.root = some loaded) :
    Resumes s.root promptTokenIds modelName loaded := by
  have hs : Sound sha256 s.root := by
    refine h.invariant (I := fun s => Sound sha256 s.root) (fun s hs => ?_) fun s a _ hs ha => hs.step ha
    subst hs
    intro path body sidecar hbody _
    cases hbody
  exact hs.resumes hsha hquery hfound

def writtenFor (modelName : Option Bytes) (prompt : List Int) (numTokens : Nat) (h : numTokens ≤ prompt.length) : Written where
  requestId := [1]
  modelName := modelName
  promptTokenIds := prompt
  generated := []
  numTokens := numTokens
  covered := by simpa using h
  kvDtype := [98]
  requiresFullCheckpoint := false
  mtime := 0
  size := 1
  readable := true

def twoStored : State :=
  runList (step id) {}
    [.persist 256 (writtenFor (some [109]) [0, 0, 0] 1 (by decide)) true true .regular,
      .persist 256 (writtenFor (some [109]) [0, 0, 0] 2 (by decide)) true true (.crash 1),
      .persist 256 (writtenFor (some [109]) [0, 0, 0] 2 (by decide)) true true .regular]

theorem resumed_matches_two :
    ∃ loaded, Resumes twoStored.root [0, 0, 0] (some [109]) loaded ∧ loaded.tokenOffset = 2 := by
  have hreached : Reached (· = {}) (Meets id) (step id) twoStored := by
    have hok : AllOk (Meets id) (step id) {}
        [.persist 256 (writtenFor (some [109]) [0, 0, 0] 1 (by decide)) true true .regular,
          .persist 256 (writtenFor (some [109]) [0, 0, 0] 2 (by decide)) true true (.crash 1),
          .persist 256 (writtenFor (some [109]) [0, 0, 0] 2 (by decide)) true true .regular] :=
      ⟨.inr (.inr (.inr ⟨by decide, rfl, by decide, fun h => h.elim⟩)),
        .inr (.inr (.inr ⟨by decide, rfl, by decide, fun h => by cases h <;> contradiction⟩)),
        .inr (.inr (.inr ⟨by decide, rfl, by decide, fun h => h.elim⟩)), trivial⟩
    have hempty : Reached (· = {}) (Meets id) (step id) {} := .start rfl
    exact hempty.runList hok
  have hbodies : ∀ p ∈ twoStored.root.bodies.entries, p.2.cache.tokens ≠ [0, 0, 0] := by decide
  refine ⟨_, resumed_matches Function.injective_id hreached ⟨by decide, fun path body hvalid => ?_⟩
    (show findResumableKvForPrompt id 256 _ _ _ = some _ from rfl), rfl⟩
  exact hbodies (path, body) ((Dict.get?_eq_some_iff ..).1 hvalid.stored)

def crashedRoot : Root :=
  (runList (step id) {}
    [.persist 256 (writtenFor (some [109]) [0, 0] 2 (by decide)) true true .regular,
      .maybeWrite (requestHash id [1] (some [109])) (writtenFor (some [109]) [0, 0, 0] 3 (by decide)) true 0 2 {} (.crash 2)
        ⟨0, 0, fun _ => false, fun _ => false⟩]).root

/-- The cache is longer than the offset after the crash; a write without a model is resumed for any model; the
whole prompt is taken for a strict prefix. -/
theorem resume_goes_wrong :
    (∃ loaded, findResumableKvForPrompt id 256 [0, 0, 0, 0] (some [109]) crashedRoot = some loaded ∧
        ¬ Resumes crashedRoot [0, 0, 0, 0] (some [109]) loaded) ∧
      (∃ r loaded, r = (step id {} (.persist 256 (writtenFor none [0, 0] 2 (by decide)) true true .regular)).root ∧
        findResumableKvForPrompt id 256 [0, 0, 0] (some [109]) r = some loaded ∧ ¬ Resumes r [0, 0, 0] (some [109]) loaded) ∧
      ∃ r loaded, r = (step id {} (.persist 256 (writtenFor (some [109]) [0, 0] 2 (by decide)) true true .regular)).root ∧
        findResumableKvForPrompt id 256 [0, 0] (some [109]) r = some loaded ∧ ¬ Resumes r [0, 0] (some [109]) loaded := by
  refine ⟨⟨_, rfl, fun h => ?_⟩, ⟨_, _, rfl, rfl, fun h => ?_⟩, ⟨_, _, rfl, rfl, fun h => ?_⟩⟩
  · have hcovers := h.covers
    revert hcovers
    decide
  · have hmodel := h.model
    revert hmodel
    decide
  · have hstrict := h.strict
    revert hstrict
    decide

end FusionMlx.KvCheckpoints
