import Mathlib.Data.List.Basic
import Mathlib.Data.Int.Order.Basic
import Mathlib.Logic.Relation

/-!
# The chunks of an external prefill

The loop cuts the prefill tokens into chunks, rounds a chunk up to the block size
when boundary snapshots are on, and lets the memory throttle shorten it. It ends
when no token remains, or raises between two chunks.
-/
namespace FusionMlx.ExternalPrefill

variable {α : Type}

/-- What `_adaptive_chunk_size` reads of the scheduler: the limits the enforcer has set, the soft watermark, the
current memory and the smallest chunk. -/
structure Pressure where
  memoryLimit : Int
  hardLimit : Int
  softWatermark : Int
  current : Int
  minChunkTokens : Int

def throttleFloor : Int := 512

def tier (p : Pressure) : Int :=
  let band := max (p.hardLimit - p.softWatermark) 1
  let above := p.current - p.softWatermark
  if 4 * above < band then 1024
  else if 2 * above < band then 512
  else if 4 * above < 3 * band then 256
  else 128

def throttleTarget (p : Pressure) : Int := max (max (tier p) p.minChunkTokens) throttleFloor

def adaptiveChunkSize (p : Pressure) (requested : Int) : Int :=
  if p.memoryLimit ≤ 0 ∨ p.hardLimit ≤ 0 ∨ requested ≤ 0 then requested
  else if p.current < p.softWatermark then requested
  else if requested ≤ throttleTarget p then requested
  else throttleTarget p

/-- The settings of the loop. `needsSnapshots`: there is a block-aware cache, and the layers need snapshots. -/
structure Config where
  prefillStepSize : Int
  blockSize : Nat
  needsSnapshots : Bool

def Config.boundaryEnabled (c : Config) : Bool := decide (0 < c.blockSize) && c.needsSnapshots

def requestedSize (c : Config) (remaining : Nat) : Int :=
  let n := min c.prefillStepSize remaining
  if c.boundaryEnabled then max 1 (min ((n + c.blockSize - 1) / c.blockSize * c.blockSize) remaining) else n

def sliceTo (n : Int) (xs : List α) : List α :=
  if 0 ≤ n then xs.take n.toNat else xs.take (xs.length - (-n).toNat)

def sliceFrom (n : Int) (xs : List α) : List α :=
  if 0 ≤ n then xs.drop n.toNat else xs.drop (xs.length - (-n).toNat)

structure Fed (α : Type) where
  chunks : List (List α)
  raised : Bool

section Loop

variable (c : Config) (pressure : Nat → Pressure) (raises : Nat → Bool)

def chunkSize (i remaining : Nat) : Int := adaptiveChunkSize (pressure i) (requestedSize c remaining)

/-- The loop of `_do_external_prefill` over `tokens[:-1]`, from its iteration `i`; it may raise after a chunk, by the
memory limit or an abort. -/
def loop : Nat → Nat → List α → Option (Fed α)
  | 0, _, _ => none
  | fuel + 1, i, input =>
    if input.length = 0 then some { chunks := [], raised := false }
    else
      let n := chunkSize c pressure i input.length
      if raises i then some { chunks := [sliceTo n input], raised := true }
      else (loop fuel (i + 1) (sliceFrom n input)).map (fun fed => { fed with chunks := sliceTo n input :: fed.chunks })

def ends : Nat → List (List α) → List Nat
  | _, [] => []
  | start, chunk :: chunks => (start + chunk.length) :: ends (start + chunk.length) chunks

/-- The loop ends, has fed the tokens in order and once (all of them when it has not raised), and every chunk but the
last ends at a multiple of the block size. -/
def Feeds (base : Nat) (input : List α) : Prop :=
  ∃ fuel fed, loop c pressure raises fuel 0 input = some fed ∧ fed.chunks.flatten <+: input ∧
    (fed.raised = false → fed.chunks.flatten = input) ∧
    (c.boundaryEnabled = true → c.blockSize ∣ base →
      ∀ e ∈ ends base fed.chunks, e = base + input.length ∨ c.blockSize ∣ e)

/-- The next iteration. -/
inductive Next : Nat × List α → Nat × List α → Prop
  | mk (i : Nat) (input : List α) (hgo : input.length ≠ 0) (hraise : raises i = false) :
    Next (i, input) (i + 1, sliceFrom (chunkSize c pressure i input.length) input)

def Throttles (p : Pressure) (requested : Int) : Prop :=
  0 < p.memoryLimit ∧ 0 < p.hardLimit ∧ p.softWatermark ≤ p.current ∧ throttleTarget p < requested

instance (p : Pressure) (requested : Int) : Decidable (Throttles p requested) :=
  inferInstanceAs (Decidable (_ ∧ _ ∧ _ ∧ _))

/-- What an iteration with so many tokens left needs: a throttled size that is a multiple of the block size, and
without the throttle a step of at least one. -/
def Fits (i remaining : Nat) : Prop :=
  if Throttles (pressure i) (requestedSize c remaining) then (c.blockSize : Int) ∣ throttleTarget (pressure i)
  else 1 ≤ c.prefillStepSize ∨ c.blockSize = 1 ∨ remaining = 1

end Loop

@[simp] theorem sliceTo_append_sliceFrom (n : Int) (xs : List α) : sliceTo n xs ++ sliceFrom n xs = xs := by
  unfold sliceTo sliceFrom
  split <;> exact List.take_append_drop ..

theorem throttleTarget_floor (p : Pressure) : 512 ≤ throttleTarget p := by
  unfold throttleTarget throttleFloor
  omega

/-- The chunk after the throttle. -/
theorem adaptiveChunkSize_eq (p : Pressure) (requested : Int) :
    adaptiveChunkSize p requested = if Throttles p requested then throttleTarget p else requested := by
  have hfloor := throttleTarget_floor p
  unfold adaptiveChunkSize Throttles
  split_ifs <;> omega

variable {c : Config} {pressure : Nat → Pressure} {raises : Nat → Bool}

theorem requestedSize_le {remaining : Nat} (hr : remaining ≠ 0) : requestedSize c remaining ≤ remaining := by
  unfold requestedSize
  dsimp only
  split <;> omega

theorem chunkSize_le (i : Nat) {remaining : Nat} (hr : remaining ≠ 0) : chunkSize c pressure i remaining ≤ remaining := by
  have hq : requestedSize c remaining ≤ remaining := requestedSize_le hr
  rw [chunkSize, adaptiveChunkSize_eq]
  split
  · rename_i hthrottles
    exact le_trans (le_of_lt hthrottles.2.2.2) hq
  · exact hq

theorem one_le_requestedSize {remaining : Nat} (hr : remaining ≠ 0)
    (h : 1 ≤ c.prefillStepSize ∨ c.boundaryEnabled = true) : 1 ≤ requestedSize c remaining := by
  unfold requestedSize
  dsimp only
  split
  · omega
  · rcases h with h | h
    · omega
    · contradiction

theorem one_le_chunkSize (i : Nat) {remaining : Nat} (hr : remaining ≠ 0)
    (h : 1 ≤ c.prefillStepSize ∨ c.boundaryEnabled = true) : 1 ≤ chunkSize c pressure i remaining := by
  have hfloor := throttleTarget_floor (pressure i)
  have hq := one_le_requestedSize hr h
  rw [chunkSize, adaptiveChunkSize_eq]
  split <;> omega

/-- Without snapshots a step size of zero or less stays. -/
theorem chunkSize_nonpos (i remaining : Nat) (hstep : c.prefillStepSize ≤ 0) (hoff : c.boundaryEnabled = false) :
    chunkSize c pressure i remaining ≤ 0 := by
  have hfloor := throttleTarget_floor (pressure i)
  have hq : requestedSize c remaining ≤ 0 := by
    rw [requestedSize, hoff]
    simp only [Bool.false_eq_true, if_false]
    omega
  rw [chunkSize, adaptiveChunkSize_eq, if_neg (by rintro ⟨-, -, -, h⟩; omega)]
  exact hq

/-- The requested size is all that remains or a multiple of the block size. -/
theorem requestedSize_fits (hon : c.boundaryEnabled = true) {remaining : Nat} (hr : remaining ≠ 0) :
    (requestedSize c remaining = remaining ∨ (c.blockSize : Int) ∣ requestedSize c remaining) ↔
      (1 ≤ c.prefillStepSize ∨ c.blockSize = 1 ∨ remaining = 1) := by
  have hblock : 0 < c.blockSize := by
    rw [Config.boundaryEnabled, Bool.and_eq_true, decide_eq_true_eq] at hon
    exact hon.1
  have hq : requestedSize c remaining = max 1 (min ((min c.prefillStepSize (remaining : Int) + c.blockSize - 1) /
      c.blockSize * c.blockSize) remaining) := by
    rw [requestedSize, hon]
    rfl
  rw [hq]
  generalize hn : min c.prefillStepSize (remaining : Int) = n
  have hdiv := Int.mul_ediv_add_emod (n + c.blockSize - 1) c.blockSize
  have hmod := Int.emod_nonneg (n + c.blockSize - 1) (show (c.blockSize : Int) ≠ 0 by omega)
  have hmod' := Int.emod_lt_of_pos (n + c.blockSize - 1) (show (0 : Int) < c.blockSize by omega)
  rw [Int.mul_comm] at hdiv
  by_cases hstep : 1 ≤ c.prefillStepSize
  · refine iff_of_true ?_ (.inl hstep)
    by_cases hm : (n + c.blockSize - 1) / c.blockSize * c.blockSize ≤ remaining
    · right
      rw [min_eq_left hm, max_eq_right (by omega)]
      exact Int.dvd_mul_left ..
    · exact .inl (by omega)
  · have hm : (n + c.blockSize - 1) / c.blockSize ≤ 0 := by
      refine Int.lt_add_one_iff.1 (Int.ediv_lt_of_lt_mul (by omega) ?_)
      omega
    have hmul : (n + c.blockSize - 1) / c.blockSize * c.blockSize ≤ 0 :=
      Int.mul_nonpos_of_nonpos_of_nonneg hm (by omega)
    have hone : max 1 (min ((n + c.blockSize - 1) / c.blockSize * c.blockSize) (remaining : Int)) = 1 := by omega
    rw [hone]
    constructor
    · rintro (h | h)
      · exact .inr (.inr (by omega))
      · exact .inr (.inl (by exact_mod_cast Int.eq_one_of_dvd_one (by omega) h))
    · rintro (h | h | h)
      · contradiction
      · exact .inr (by rw [h]; exact Int.one_dvd 1)
      · exact .inl (by omega)

/-- A chunk ends the input or is a multiple of the block size exactly when its iteration fits. -/
theorem fits_iff (hon : c.boundaryEnabled = true) (i : Nat) {remaining : Nat} (hr : remaining ≠ 0) :
    (chunkSize c pressure i remaining = remaining ∨ (c.blockSize : Int) ∣ chunkSize c pressure i remaining) ↔
      Fits c pressure i remaining := by
  rw [chunkSize, adaptiveChunkSize_eq, Fits]
  split
  · rename_i hthrottles
    have hlt : throttleTarget (pressure i) < remaining := lt_of_lt_of_le hthrottles.2.2.2 (requestedSize_le hr)
    exact or_iff_right (ne_of_lt hlt)
  · exact requestedSize_fits hon hr

theorem length_sliceFrom {n : Int} (hn : 0 ≤ n) (xs : List α) : (sliceFrom n xs).length = xs.length - n.toNat := by
  rw [sliceFrom, if_pos hn, List.length_drop]

theorem length_sliceTo {n : Int} (hn : 0 ≤ n) (xs : List α) : (sliceTo n xs).length = min n.toNat xs.length := by
  rw [sliceTo, if_pos hn, List.length_take]

variable {input : List α}

/-- The chunks are a prefix of the input, all of it when the loop does not raise. -/
theorem loop_flatten {fuel i : Nat} {fed : Fed α} (h : loop c pressure raises fuel i input = some fed) :
    fed.chunks.flatten <+: input ∧ (fed.raised = false → fed.chunks.flatten = input) := by
  induction fuel generalizing i input fed with
  | zero => cases h
  | succ fuel ih =>
    rw [loop] at h
    split_ifs at h with hempty hraise
    · cases h
      exact ⟨List.nil_prefix, fun _ => (List.length_eq_zero_iff.1 hempty).symm⟩
    · cases h
      refine ⟨⟨sliceFrom (chunkSize c pressure i input.length) input, ?_⟩, nofun⟩
      rw [List.flatten_singleton]
      exact sliceTo_append_sliceFrom (chunkSize c pressure i input.length) input
    · obtain ⟨rest, hrest, rfl⟩ := Option.map_eq_some_iff.1 h
      obtain ⟨⟨more, hmore⟩, hall⟩ := ih hrest
      dsimp only
      rw [List.flatten_cons]
      refine ⟨⟨more, ?_⟩, fun hok => ?_⟩
      · rw [List.append_assoc, hmore, sliceTo_append_sliceFrom]
      · rw [hall hok, sliceTo_append_sliceFrom]

/-- With chunks of at least one token the loop ends. -/
theorem loop_ends (h : 1 ≤ c.prefillStepSize ∨ c.boundaryEnabled = true) (fuel i : Nat) (input : List α)
    (hfuel : input.length < fuel) : ∃ fed, loop c pressure raises fuel i input = some fed := by
  induction fuel generalizing i input with
  | zero => omega
  | succ fuel ih =>
    rw [loop]
    split_ifs with hempty hraise
    · exact ⟨_, rfl⟩
    · exact ⟨_, rfl⟩
    · have hn : 1 ≤ chunkSize c pressure i input.length := one_le_chunkSize i hempty h
      have hshort : (sliceFrom (chunkSize c pressure i input.length) input).length < fuel := by
        rw [length_sliceFrom (by omega)]
        omega
      obtain ⟨fed, hfed⟩ := ih (i + 1) _ hshort
      exact ⟨_, congrArg (Option.map _) hfed⟩

/-- A loop that raises at some iteration ends there at the latest. -/
theorem loop_ends_of_raises {k : Nat} (hk : raises k = true) (i fuel : Nat) (hi : i ≤ k) (hfuel : k - i < fuel)
    (input : List α) : ∃ fed, loop c pressure raises fuel i input = some fed := by
  induction fuel generalizing i input with
  | zero => omega
  | succ fuel ih =>
    rw [loop]
    split_ifs with hempty hraise
    · exact ⟨_, rfl⟩
    · exact ⟨_, rfl⟩
    · have hik : i ≠ k := by
        rintro rfl
        exact hraise hk
      obtain ⟨fed, hfed⟩ := ih (i + 1) (by omega) (by omega) (sliceFrom (chunkSize c pressure i input.length) input)
      exact ⟨_, congrArg (Option.map _) hfed⟩

/-- A step size of zero or less, without snapshots and without a raise, never ends. -/
theorem loop_spins (hstep : c.prefillStepSize ≤ 0) (hoff : c.boundaryEnabled = false) (hraises : ∀ i, raises i = false)
    (fuel i : Nat) (hinput : input.length ≠ 0) : loop c pressure raises fuel i input = none := by
  induction fuel generalizing i input with
  | zero => rfl
  | succ fuel ih =>
    have hn : chunkSize c pressure i input.length ≤ 0 := chunkSize_nonpos i _ hstep hoff
    have hleft : (sliceFrom (chunkSize c pressure i input.length) input).length ≠ 0 := by
      unfold sliceFrom
      split
      · rw [List.length_drop]
        omega
      · rw [List.length_drop]
        omega
    rw [loop, if_neg hinput, hraises i]
    simp only [Bool.false_eq_true, if_false]
    rw [ih (i + 1) hleft]
    rfl

/-- The iterations from one on: itself, and those from the next one on. -/
theorem reached_iff {P : Nat × List α → Prop} (i : Nat) (input : List α) :
    (∀ s, Relation.ReflTransGen (Next c pressure raises) (i, input) s → P s) ↔
      P (i, input) ∧ (input.length ≠ 0 → raises i = false →
        ∀ s, Relation.ReflTransGen (Next c pressure raises)
          (i + 1, sliceFrom (chunkSize c pressure i input.length) input) s → P s) := by
  constructor
  · intro h
    exact ⟨h _ .refl, fun hgo hraise s hs => h s (.head (.mk i input hgo hraise) hs)⟩
  · rintro ⟨hhere, hnext⟩ s hs
    rcases Relation.ReflTransGen.cases_head hs with rfl | ⟨_, ⟨_, _, hgo, hraise⟩, hrest⟩
    · exact hhere
    · exact hnext hgo hraise s hrest

theorem loop_empty {fuel i : Nat} {fed : Fed α} (h : loop c pressure raises fuel i input = some fed)
    (hempty : input.length = 0) : fed.chunks = [] := by
  cases fuel with
  | zero => cases h
  | succ fuel =>
    rw [loop, if_pos hempty] at h
    cases h
    rfl

/-- From an aligned start every chunk but the last ends aligned exactly when every iteration fits. -/
theorem loop_aligned_iff (hon : c.boundaryEnabled = true) {fuel i start : Nat} {fed : Fed α}
    (h : loop c pressure raises fuel i input = some fed) (hstart : c.blockSize ∣ start) :
    (∀ e ∈ ends start fed.chunks, e = start + input.length ∨ c.blockSize ∣ e) ↔
      ∀ s, Relation.ReflTransGen (Next c pressure raises) (i, input) s → s.2.length ≠ 0 →
        Fits c pressure s.1 s.2.length := by
  induction fuel generalizing i start input fed with
  | zero => cases h
  | succ fuel ih =>
    rw [reached_iff (P := fun s => s.2.length ≠ 0 → Fits c pressure s.1 s.2.length)]
    dsimp only
    rw [loop] at h
    by_cases hempty : input.length = 0
    · rw [if_pos hempty] at h
      cases h
      refine iff_of_true (by simp [ends]) ⟨fun hne => absurd hempty hne, fun hne => absurd hempty hne⟩
    · rw [if_neg hempty] at h
      have hone : 1 ≤ chunkSize c pressure i input.length := one_le_chunkSize i hempty (.inr hon)
      have hle : chunkSize c pressure i input.length ≤ input.length := chunkSize_le i hempty
      have hfits := @fits_iff c pressure hon i _ hempty
      dsimp only at h
      generalize chunkSize c pressure i input.length = n at h hone hle hfits ⊢
      have hchunk : (sliceTo n input).length = n.toNat := by
        rw [length_sliceTo (by omega)]
        omega
      -- the end of this chunk, against its size
      have hend : (start + n.toNat = start + input.length ∨ c.blockSize ∣ start + n.toNat) ↔
          Fits c pressure i input.length := by
        rw [← hfits, Nat.dvd_add_right hstart, ← Int.natCast_dvd_natCast, Int.toNat_of_nonneg (by omega)]
        exact or_congr_left (by omega)
      cases hraise : raises i with
      | true =>
        rw [hraise] at h
        cases h
        rw [← hend]
        simp [ends, hchunk, hempty]
      | false =>
        rw [hraise] at h
        obtain ⟨rest, hrest, rfl⟩ := Option.map_eq_some_iff.1 h
        have htotal : start + n.toNat + (sliceFrom n input).length = start + input.length := by
          rw [length_sliceFrom (by omega)]
          omega
        simp only [ends, List.forall_mem_cons, hchunk, hend, ne_eq, hempty, not_false_eq_true, forall_const]
        refine and_congr_right (fun hhere => ?_)
        rcases hend.2 hhere with hlast | hblock
        · have hdone : (sliceFrom n input).length = 0 := by omega
          have hnone : ∀ s, Relation.ReflTransGen (Next c pressure raises) (i + 1, sliceFrom n input) s →
              s.2.length ≠ 0 → Fits c pressure s.1 s.2.length := by
            rw [reached_iff (P := fun s => s.2.length ≠ 0 → Fits c pressure s.1 s.2.length)]
            exact ⟨fun hne => absurd hdone hne, fun hne => absurd hdone hne⟩
          rw [loop_empty hrest hdone]
          exact iff_of_true nofun (fun s hs hne => hnone s hs hne)
        · rw [← ih hrest hblock, htotal]

/-- Where the chunks end aligned, every iteration fits. -/
theorem Feeds.fits {base : Nat} (h : Feeds c pressure raises base input)
    (hon : c.boundaryEnabled = true) (hbase : c.blockSize ∣ base) {s : Nat × List α}
    (hs : Relation.ReflTransGen (Next c pressure raises) (0, input) s) (hne : s.2.length ≠ 0) :
    Fits c pressure s.1 s.2.length := by
  obtain ⟨fuel, fed, hfed, -, -, haligned⟩ := h
  exact (loop_aligned_iff hon hfed hbase).1 (haligned hon hbase) s hs hne

/-- The loop feeds every token once and keeps the boundaries exactly when it ends (the step size is at least one, or
snapshots are on, or nothing is to be fed, or it raises) and, where the chunks start aligned, every iteration fits. -/
theorem feeds_iff (base : Nat) (input : List α) :
    Feeds c pressure raises base input ↔
      (1 ≤ c.prefillStepSize ∨ c.boundaryEnabled = true ∨ input = [] ∨ ∃ i, raises i = true) ∧
        (c.boundaryEnabled = true → c.blockSize ∣ base →
          ∀ s, Relation.ReflTransGen (Next c pressure raises) (0, input) s → s.2.length ≠ 0 →
            Fits c pressure s.1 s.2.length) := by
  constructor
  · intro hfeeds
    refine ⟨?_, fun hon hbase s hs hne => hfeeds.fits hon hbase hs hne⟩
    obtain ⟨fuel, fed, hfed, -, -, -⟩ := hfeeds
    by_contra hnone
    simp only [not_or, not_exists, Bool.not_eq_true] at hnone
    obtain ⟨hstep, hoff, hinput, hraises⟩ := hnone
    rw [loop_spins (by omega) hoff hraises fuel 0 (fun h => hinput (List.length_eq_zero_iff.1 h))] at hfed
    cases hfed
  · rintro ⟨hends, hfits⟩
    have hsome : ∃ fuel fed, loop c pressure raises fuel 0 input = some fed := by
      rcases hends with hstep | hon | rfl | ⟨k, hk⟩
      · exact ⟨_, loop_ends (.inl hstep) (input.length + 1) 0 input (Nat.lt_succ_self _)⟩
      · exact ⟨_, loop_ends (.inr hon) (input.length + 1) 0 input (Nat.lt_succ_self _)⟩
      · exact ⟨1, _, rfl⟩
      · exact ⟨_, loop_ends_of_raises hk 0 (k + 1) (Nat.zero_le k) (by omega) input⟩
    obtain ⟨fuel, fed, hfed⟩ := hsome
    obtain ⟨hpre, hall⟩ := loop_flatten hfed
    exact ⟨fuel, fed, hfed, hpre, hall, fun hon hbase => (loop_aligned_iff hon hfed hbase).2 (hfits hon hbase)⟩

def caution : Pressure := { memoryLimit := 100, hardLimit := 120, softWatermark := 80, current := 90, minChunkTokens := 32 }

/-- Blocks of 1024 tokens and a step of 2048: a throttled first chunk ends at 512, inside a block. -/
theorem throttled_chunk_misaligned :
    ¬ Feeds { prefillStepSize := 2048, blockSize := 1024, needsSnapshots := true } (fun _ => caution) (fun _ => false) 0
      (List.replicate 3000 (0 : Nat)) := by
  generalize hinput : List.replicate 3000 (0 : Nat) = input
  intro hfeeds
  have hlen : input.length = 3000 := by rw [← hinput, List.length_replicate]
  have h := hfeeds.fits rfl ⟨0, rfl⟩ .refl (by rw [hlen]; exact Nat.succ_ne_zero 2999)
  dsimp only at h
  rw [hlen, Fits, if_pos (by decide)] at h
  exact absurd h (by decide)

end FusionMlx.ExternalPrefill
