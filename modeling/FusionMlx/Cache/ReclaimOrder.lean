import FusionMlx.Cache.EvictRefinement
import FusionMlx.Support.StableSort

/-!
# The order of reclaiming

Which held blocks an eviction reclaims depends only on the idle cached blocks
and their access times. As long as no reclaimed block has an orphan, the
cascade does nothing and one reclaim takes exactly the first candidate.
-/
namespace FusionMlx.ReclaimOrder

open BlockHashing BlockPool ResourceLedger PoolRefinement FreeRefinement EvictRefinement StableSort
open ResourceLedger.Ledger (Faded Orderly NoOrphans)

variable {κ : Type} {P : Params κ} {R : Rules BlockHash}
variable {s s' t : Pool} {a a' : Ledger Nat BlockHash}

/-- Every orphan of a block in `bs` is that block or comes before it. -/
def OrderlyIds (s : Pool) (bs : List Nat) : Prop :=
  ∀ l b r, bs = l ++ b :: r → ∀ k, (s.blocks b).blockHash = some k →
    ∀ e ∈ s.orphansOf k, e.2 ∈ l ∨ e.2 = b

theorem orderlyIds_iff (h : Refines P s a) (bs : List Nat) : OrderlyIds s bs ↔ a.Orderly bs := by
  have horphan : ∀ k k' c, (k', c) ∈ s.orphansOf k ↔
      (k', c) ∈ a.entries ∧ a.parent c = some k ∧ a.refs c ≤ 0 := by
    intro k k' c
    rw [mem_orphansOf, h.parent, h.refs, h.entries]
  constructor
  · intro ho l b r hbs k hk k' c he hp hr
    exact ho l b r hbs k ((h.key b).trans hk) (k', c) ((horphan k k' c).mpr ⟨he, hp, hr⟩)
  · rintro ho l b r hbs k hk ⟨k', c⟩ hm
    obtain ⟨he, hp, hr⟩ := (horphan k k' c).mp hm
    exact ho l b r hbs k ((h.key b).symm.trans hk) k' c he hp hr

theorem noOrphans_of_eq_nil (h : Refines P s a) {k : BlockHash} (hnil : s.orphansOf k = []) :
    a.NoOrphans k := by
  intro k' b he hp
  by_contra hr
  have hm : (k', b) ∈ s.orphansOf k := by
    rw [mem_orphansOf, h.parent, h.refs, ← h.entries]
    exact ⟨he, hp, by omega⟩
  rw [hnil] at hm
  cases hm

theorem OrderlyIds.initial {bs cs : List Nat} (h : OrderlyIds s bs) (hp : cs <+: bs) :
    OrderlyIds s cs := by
  obtain ⟨rest, rfl⟩ := hp
  rintro l b r rfl
  exact h l b (r ++ rest) (by simp)

def idleIds (s : Pool) : List Nat :=
  s.allocatedBlocks.filter (fun b =>
    (s.blocks b).refCount ≤ 0 ∧ ¬ (s.blocks b).isNull ∧ (s.blocks b).blockHash ≠ none)

theorem evictionCandidates_eq (s : Pool) : s.evictionCandidates =
    (idleIds s).insertionSort (fun b c => (s.blocks b).lastAccess ≤ (s.blocks c).lastAccess) := rfl

/-- From `s` to `s'` the idle cached blocks outside `keep` are gone and the others unaccessed. -/
structure Thinned (keep : Nat → Bool) (s s' : Pool) : Prop where
  idle : idleIds s' = (idleIds s).filter keep
  access : ∀ b ∈ idleIds s', (s'.blocks b).lastAccess = (s.blocks b).lastAccess

theorem Thinned.candidates {keep : Nat → Bool} (h : Thinned keep s s') :
    s'.evictionCandidates = s.evictionCandidates.filter keep := by
  have htotal : Std.Total (fun b c => (s.blocks b).lastAccess ≤ (s.blocks c).lastAccess) :=
    ⟨fun b c => Nat.le_total _ _⟩
  have htrans : IsTrans Nat (fun b c => (s.blocks b).lastAccess ≤ (s.blocks c).lastAccess) :=
    ⟨fun _ _ _ => Nat.le_trans⟩
  rw [evictionCandidates_eq, evictionCandidates_eq, filter_insertionSort, ← h.idle]
  refine insertionSort_congr ?_
  intro b hb c hc
  rw [h.access b hb, h.access c hc]

abbrev Unthinned (s s' : Pool) : Prop := Thinned (fun _ => true) s s'

theorem Unthinned.candidates_eq (h : Unthinned s s') :
    s'.evictionCandidates = s.evictionCandidates := by
  rw [Thinned.candidates h, List.filter_true]

/-- Blocks that are idle before or after are untouched. -/
theorem Thinned.of_same {keep : Nat → Bool}
    (halloc : s'.allocatedBlocks = s.allocatedBlocks.filter keep)
    (hsame : ∀ b ∈ s'.allocatedBlocks, s'.blocks b = s.blocks b) : Thinned keep s s' := by
  refine ⟨?_, ?_⟩
  · rw [idleIds, idleIds, halloc, List.filter_filter, List.filter_filter]
    refine List.filter_congr ?_
    intro b hb
    by_cases hk : keep b = true
    · rw [hsame b (by rw [halloc]; exact List.mem_filter.mpr ⟨hb, hk⟩), Bool.and_comm]
    · simp [hk]
  · intro b hb
    rw [hsame b (List.mem_filter.mp hb).1]

theorem stripBlock_frame {b : Nat} (hb : b ∉ s.allocatedBlocks) :
    (s.stripBlock b).allocatedBlocks = s.allocatedBlocks ∧
      ∀ c, c ≠ b → (s.stripBlock b).blocks c = s.blocks c := by
  simp only [Pool.stripBlock]
  split
  · next hm => exact absurd hm hb
  · refine ⟨rfl, fun c hc => ?_⟩
    simp [Pool.modify, Pool.notifyBlockContentInvalidated, Pool.bump, hc]

theorem evictLruOne_frame (h : Refines P s a) (hs : a.Sound 0) {b : Nat} (hb : b ∈ a.free)
    (hno : ∀ k, a.key b = some k → a.NoOrphans k) :
    (s.evictLruOne b).allocatedBlocks = s.allocatedBlocks ∧
      ∀ c, c ≠ b → (s.evictLruOne b).blocks c = s.blocks c := by
  have hout : b ∉ s.allocatedBlocks := fun hm => hs.freeHeld b hb ((h.held b).mpr hm)
  cases hk : (s.blocks b).blockHash with
  | none =>
    simp only [Pool.evictLruOne, hk]
    exact stripBlock_frame hout
  | some k =>
    rw [evictLruOne_some h hs hb hk (hno k ((h.key b).symm.trans hk))]
    exact stripBlock_frame (s := s.popHash k none) hout

theorem evictLruLoop_frame (h : Refines P s a) (hs : a.Sound 0) (num e : Int) {bs : List Nat}
    (hb : ∀ b ∈ bs, b ∈ a.free)
    (hno : ∀ b ∈ bs.take (num - e).toNat, ∀ k, a.key b = some k → a.NoOrphans k) :
    (Pool.evictLruLoop num bs e s).2.allocatedBlocks = s.allocatedBlocks ∧
      ∀ c ∈ s.allocatedBlocks, (Pool.evictLruLoop num bs e s).2.blocks c = s.blocks c := by
  refine evictLruLoop_along (T := fun s _ s' => s'.allocatedBlocks = s.allocatedBlocks ∧
    ∀ c ∈ s.allocatedBlocks, s'.blocks c = s.blocks c) (fun s => ⟨rfl, fun _ _ => rfl⟩) ?_ h hs num e hb hno
  intro s a b ids s' h hs hb hno hrest
  obtain ⟨hal, hbl⟩ := evictLruOne_frame h hs hb hno
  refine ⟨hrest.1.trans hal, fun c hc => ?_⟩
  have hcb : c ≠ b := by
    rintro rfl
    exact hs.freeHeld c hb ((h.held c).mpr hc)
  exact (hrest.2 c (hal ▸ hc)).trans (hbl c hcb)

/-- Evicting from the queue without orphans leaves the candidates and their order. -/
theorem evictLruBlocksLocked_unthinned (h : Refines P s a) (hs : a.Sound 0) (num : Int)
    (hno : ∀ b ∈ a.free.take num.toNat, ∀ k, a.key b = some k → a.NoOrphans k) :
    Unthinned s (s.evictLruBlocksLocked num).2 := by
  rw [Pool.evictLruBlocksLocked, queueIds_eq h hs]
  obtain ⟨hal, hbl⟩ := evictLruLoop_frame h hs num 0 (fun _ hb => hb) (by simpa using hno)
  exact .of_same (by rw [hal, List.filter_true]) (fun b hb => hbl b (hal ▸ hb))

theorem orderly_faded (h : Faded a a') {bs : List Nat} (ho : a.Orderly bs) : a'.Orderly bs := by
  intro l b r hbs k hk k' c he hp hr
  rw [h.refs] at hr
  have hkb : a.key b = some k := by
    rcases h.key b with hb | hb
    · exact hb.1 ▸ hk
    · rw [hb.1] at hk
      cases hk
  have hpc : a.parent c = some k := by
    rcases h.key c with hc | hc
    · exact hc.2 ▸ hp
    · rw [hc.2.1] at hp
      cases hp
  exact ho l b r hbs k hkb k' c (h.entries he) hpc hr

theorem stripBlock_frame_held {b : Nat} (hb : b ∈ s.allocatedBlocks) :
    (s.stripBlock b).allocatedBlocks = s.allocatedBlocks.filter (· ≠ b) ∧
      ∀ c, c ≠ b → (s.stripBlock b).blocks c = s.blocks c := by
  simp only [Pool.stripBlock]
  split
  · refine ⟨rfl, fun c hc => ?_⟩
    simp [Pool.modify, Pool.notifyBlockContentInvalidated, Pool.bump, Pool.delAllocated, hc]
  · next hm => exact absurd hb hm

theorem reclaimOne_thinned {b : Nat} (hb : b ∈ s.allocatedBlocks) :
    Thinned (· ≠ b) s (s.reclaimOne b) := by
  have hframe : (s.reclaimOne b).allocatedBlocks = s.allocatedBlocks.filter (· ≠ b) ∧
      ∀ c, c ≠ b → (s.reclaimOne b).blocks c = s.blocks c := by
    simp only [Pool.reclaimOne, Pool.bump, Pool.enqueue]
    split
    · next k _ => exact stripBlock_frame_held (s := s.popHash k (some b)) hb
    · exact stripBlock_frame_held hb
  refine .of_same hframe.1 (fun c hc => hframe.2 c ?_)
  rw [hframe.1, List.mem_filter, decide_eq_true_eq] at hc
  exact hc.2

/-- Asking for one block reclaims the first candidate, if that orphans nothing. -/
theorem evictCachedBlocksLocked_one (h : Refines P s a) (hs : a.Sound 0) {x : Nat} {xs : List Nat}
    (hc : s.evictionCandidates = x :: xs) (ho : a.Orderly [x]) :
    (s.evictCachedBlocksLocked 1).2 = s.reclaimOne x := by
  obtain ⟨hheld, hr, hne, hkey⟩ := (mem_evictionCandidates h x).mp (by rw [hc]; simp)
  obtain ⟨k, hk⟩ := Option.ne_none_iff_exists'.mp hkey
  obtain ⟨a₁, h₁, -, hrec⟩ := reclaimOne_refines h hs (R := Rules.any) trivial hheld hne hr
  have hcasc := cascade_of_noOrphans h₁ ((hrec.orderly List.not_mem_nil ho).1 k hk)
  have hdone : Pool.evictCachedLoop 1 xs (0 + 1 + ((0 : Nat) : Int)) (s.reclaimOne x) =
      (0 + 1 + ((0 : Nat) : Int), s.reclaimOne x) := by
    cases xs <;> simp [Pool.evictCachedLoop]
  simp only [Pool.evictCachedBlocksLocked, hc, Pool.evictCachedLoop]
  rw [if_neg (by omega), if_neg (by omega)]
  simp only [(h.key x).trans hk, hcasc, hdone]

end FusionMlx.ReclaimOrder
