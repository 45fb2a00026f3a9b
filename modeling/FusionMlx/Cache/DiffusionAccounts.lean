import FusionMlx.Cache.DiffusionMap

/-!
# The counters and the heap of the radix cache

The counters say what the tree holds and every value that is not pinned has
its one tuple in the heap. The tuple of a pinned value may be lost on the way
to a victim; the books stay right unless its last pin is then taken off.
-/
namespace FusionMlx.DiffusionRadixCache

open EdgeTree.Branches
open JsonText (Text)

variable {V : Type}

namespace Cache

variable {s t : Cache V} {key p q edgeKey : Text} {m n parent k j : Nat} {v : V} {full : Cache V → Bool} {gone : List Nat}

def valued (s : Cache V) : List Nat := (s.root :: s.tree.nodes).filter (fun n => (s.nodes n).value.isSome)

def Loose (s : Cache V) (n : Nat) : Prop := s.vacant n = false ∧ (s.nodes n).refCount = 0

structure Accounts (s : Cache V) : Prop where
  bytes : s.stats.totalBytes = ((s.valued.map (fun n => (s.nodes n).sizeBytes)).sum : Nat)
  count : s.stats.leafCount = s.valued.length

structure Queued (s : Cache V) : Prop where
  sorted : s.lruHeap.Pairwise heapLe
  seqs : (s.lruHeap.map (fun e => e.2.1)).Nodup
  issued : ∀ e ∈ s.lruHeap, e.2.1 ≤ s.heapSeq
  stamped : ∀ e ∈ s.lruHeap, s.live e = true → e.1 = (s.nodes e.2.2).lastAccess
  queued : ∀ n, s.Loose n → ∃ e ∈ s.lruHeap, s.live e = true ∧ e.2.2 = n

theorem Sound.mem_valued (hs : s.Sound) : n ∈ s.valued ↔ s.vacant n = false := by
  rw [valued, List.mem_filter, vacant, Option.isNone_eq_false_iff]
  refine ⟨fun h => h.2, fun h => ⟨hs.held n ?_, h⟩⟩
  rwa [vacant, Option.isNone_eq_false_iff]

theorem Sound.nodup_valued (hs : s.Sound) : s.valued.Nodup := hs.nodup.filter _

/-- The values of two states, one more in the first. -/
theorem valued_cons (hs : s.Sound) (ht : t.Sound) (hn : s.vacant n = false)
    (h : ∀ m, t.vacant m = false ↔ m ≠ n ∧ s.vacant m = false) : s.valued.Perm (n :: t.valued) := by
  refine (List.perm_ext_iff_of_nodup hs.nodup_valued (List.nodup_cons.2 ⟨?_, ht.nodup_valued⟩)).2 (fun m => ?_)
  · rw [ht.mem_valued, h]
    exact fun hne => hne.1 rfl
  · rw [List.mem_cons, hs.mem_valued, ht.mem_valued, h]
    by_cases hm : m = n
    · simp [hm, hn]
    · simp [hm]

theorem valued_same (hs : s.Sound) (ht : t.Sound) (h : ∀ m, t.vacant m = false ↔ s.vacant m = false) :
    s.valued.Perm t.valued :=
  (List.perm_ext_iff_of_nodup hs.nodup_valued ht.nodup_valued).2
    (fun m => by rw [hs.mem_valued, ht.mem_valued, h])

theorem live_iff {e : HeapTuple} : s.live e = true ↔ s.vacant e.2.2 = false ∧ (s.nodes e.2.2).heapSeq = e.2.1 := by
  simp [live, vacant, Option.isNone_eq_false_iff]

/-- Nodes that are left alone are live as before. -/
theorem live_congr {e : HeapTuple} (h : t.nodes e.2.2 = s.nodes e.2.2) : t.live e = s.live e := by
  rw [live, live, h]

/-- A value goes out of the counters. -/
theorem Accounts.less (ha : s.Accounts) (hs : s.Sound) (ht : t.Sound) (hn : s.vacant n = false)
    (hnodes : ∀ m, t.vacant m = false ↔ m ≠ n ∧ s.vacant m = false)
    (hsizes : ∀ m, m ≠ n → (t.nodes m).sizeBytes = (s.nodes m).sizeBytes)
    (hbytes : t.stats.totalBytes = s.stats.totalBytes - (s.nodes n).sizeBytes)
    (hcount : t.stats.leafCount = s.stats.leafCount - 1) : t.Accounts := by
  have hperm := valued_cons hs ht hn hnodes
  have hmap : t.valued.map (fun m => (t.nodes m).sizeBytes) = t.valued.map (fun m => (s.nodes m).sizeBytes) :=
    List.map_congr_left (fun m hm => hsizes m ((hnodes m).1 (ht.mem_valued.1 hm)).1)
  constructor
  · rw [hbytes, ha.bytes, hmap, (hperm.map _).sum_eq, List.map_cons, List.sum_cons]
    push_cast
    ring
  · rw [hcount, ha.count, hperm.length_eq, List.length_cons]
    push_cast
    ring

theorem Sound.accounts_evict (hs : s.Sound) (ha : s.Accounts) (hedge : (parent, edgeKey, n) ∈ s.tree.edges s.root)
    (hout : s.Outermost n) (hn : s.vacant n = false) : (s.evict parent edgeKey n).Accounts := by
  have hnodes := s.evict_nodes parent edgeKey n
  refine ha.less hs (hs.evict hedge hout).1 hn (fun m => ?_) (fun m hm => by rw [hnodes, if_neg hm]) rfl rfl
  rw [vacant, hnodes]
  by_cases hm : m = n
  · simp [hm]
  · simp [hm, vacant]

variable {heap : List HeapTuple}

theorem Taken.keeps (h : s.Taken n heap) :
    heap.Sublist s.lruHeap ∧ ∀ e ∈ s.lruHeap, s.live e = true → e.2.2 ≠ n → e ∈ heap := by
  cases h with
  | popped hheap hstale hlive hnode =>
    refine ⟨hheap ▸ (List.sublist_cons_self ..).trans (List.sublist_append_right ..), fun e he hl hne => ?_⟩
    rw [hheap, List.mem_append, List.mem_cons] at he
    rcases he with he | rfl | he
    · rw [hstale e he] at hl
      cases hl
    · exact absurd hnode hne
    · exact he
  | scanned hstale hvalue =>
    refine ⟨List.nil_sublist _, fun e he hl _ => ?_⟩
    rw [hstale e he] at hl
    cases hl

/-- The heap may lose the tuples of a node that is pinned or goes. -/
theorem Queued.shrink (hq : s.Queued) (hsub : heap.Sublist s.lruHeap)
    (hheap : t.lruHeap = heap) (hseq : t.heapSeq = s.heapSeq)
    (hnodes : ∀ m, t.vacant m = false → t.nodes m = s.nodes m)
    (hkept : ∀ e ∈ s.lruHeap, s.live e = true → t.Loose e.2.2 → e ∈ heap) : t.Queued := by
  subst hheap
  have hlive : ∀ e, t.live e = true → s.live e = true ∧ t.nodes e.2.2 = s.nodes e.2.2 := by
    intro e he
    have hsame := hnodes _ (live_iff.1 he).1
    rw [← live_congr hsame]
    exact ⟨he, hsame⟩
  refine ⟨hq.sorted.sublist hsub, (hsub.map _).nodup hq.seqs, fun e he => ?_, fun e he hl => ?_, fun n hn => ?_⟩
  · rw [hseq]
    exact hq.issued e (hsub.subset he)
  · obtain ⟨hl, hsame⟩ := hlive e hl
    rw [hsame]
    exact hq.stamped e (hsub.subset he) hl
  · have hsame := hnodes n hn.1
    have hloose : s.Loose n := ⟨by rw [vacant, ← hsame]; exact hn.1, by rw [← hsame]; exact hn.2⟩
    obtain ⟨e, he, hl, rfl⟩ := hq.queued n hloose
    exact ⟨e, hkept e he hl hn, by rw [live_congr hsame]; exact hl, rfl⟩

theorem Queued.skip (hq : s.Queued) (h : s.Taken n heap) (hpin : 0 < (s.nodes n).refCount) :
    Queued { s with lruHeap := heap } := by
  obtain ⟨hsub, hkept⟩ := h.keeps
  refine hq.shrink hsub rfl rfl (fun _ _ => rfl) (fun e he hl hloose => hkept e he hl ?_)
  rintro rfl
  exact absurd hloose.2 hpin.ne'

theorem Queued.evict (hq : s.Queued) (h : s.Taken n heap) (parent : Nat) (edgeKey : Text) :
    ({ s with lruHeap := heap }.evict parent edgeKey n).Queued := by
  obtain ⟨hsub, hkept⟩ := h.keeps
  have hnodes := evict_nodes { s with lruHeap := heap } parent edgeKey n
  have hgone : ({ s with lruHeap := heap }.evict parent edgeKey n).vacant n = true := by
    rw [vacant_iff, hnodes, if_pos rfl]
  refine hq.shrink hsub rfl rfl (fun m hm => ?_) (fun e he hl hloose => hkept e he hl ?_)
  · rw [hnodes, if_neg]
    rintro rfl
    rw [hgone] at hm
    cases hm
  · rintro rfl
    rw [hloose.1] at hgone
    cases hgone

/-- A victim was used before every other value that is not pinned. -/
theorem Queued.oldest (hq : s.Queued) (h : s.Taken n heap) (hn : (s.nodes n).refCount = 0)
    (hm : s.Loose m) : (s.nodes n).lastAccess ≤ (s.nodes m).lastAccess := by
  cases h with
  | popped hheap hstale hlive hnode =>
    rename_i stale e
    obtain ⟨e', he', hl, rfl⟩ := hq.queued m hm
    have hstamp := hq.stamped e (by rw [hheap]; simp) hlive
    have hstamp' := hq.stamped e' he' hl
    rw [← hnode, ← hstamp, ← hstamp']
    rw [hheap, List.mem_append, List.mem_cons] at he'
    rcases he' with he' | rfl | he'
    · rw [hstale e' he'] at hl
      cases hl
    · exact le_rfl
    · have hsorted := hq.sorted
      rw [hheap] at hsorted
      have := (List.pairwise_cons.1 (List.pairwise_append.1 hsorted).2.1).1 e' he'
      rcases this with h | h
      · exact h.le
      · exact h.1.le
  | scanned hstale hvalue =>
    obtain ⟨e, he, hl, -⟩ := hq.queued n ⟨hvalue, hn⟩
    rw [hstale e he] at hl
    cases hl

/-- The tree, the counters and the heap fit together. -/
structure Balanced (s : Cache V) : Prop where
  sound : s.Sound
  accounts : s.Accounts
  queue : s.Queued

/-- `k` pinned values have lost their tuples, unless every value is pinned. -/
def Skipped (k : Nat) (s : Cache V) : Prop :=
  (∀ m, ¬ s.Loose m) ∨ ∃ ns : List Nat, ns.Nodup ∧ ns.length = k ∧ ∀ m ∈ ns, s.vacant m = false ∧
    0 < (s.nodes m).refCount ∧ ∀ e ∈ s.lruHeap, s.live e = true → e.2.2 ≠ m

theorem Skipped.zero (s : Cache V) : Skipped 0 s := .inr ⟨[], List.nodup_nil, rfl, by simp⟩

theorem Skipped.skip (h : Skipped k s) (hq : s.Queued) (ht : s.Taken n heap)
    (hpin : 0 < (s.nodes n).refCount) : Skipped (k + 1) { s with lruHeap := heap } := by
  rcases h with h | ⟨ns, hnodup, hlen, hns⟩
  · exact .inl h
  cases ht with
  | scanned hstale hvalue =>
    refine .inl (fun m hm => ?_)
    obtain ⟨e, he, hl, -⟩ := hq.queued m hm
    rw [hstale e he] at hl
    cases hl
  | popped hheap hstale hlive hnode =>
    rename_i stale e
    have hmem : e ∈ s.lruHeap := by rw [hheap]; simp
    refine .inr ⟨n :: ns, List.nodup_cons.2 ⟨fun hin => ?_, hnodup⟩, by rw [List.length_cons, hlen], fun m hm => ?_⟩
    · exact (hns n hin).2.2 e hmem hlive hnode
    rcases List.mem_cons.1 hm with rfl | hm
    · refine ⟨hnode ▸ (live_iff.1 hlive).1, hpin, fun e' he' hl' hnode' => ?_⟩
      have hseqs := hq.seqs
      rw [hheap, List.map_append, List.map_cons] at hseqs
      refine (List.nodup_cons.1 (List.nodup_append.1 hseqs).2.1).1 (List.mem_map.2 ⟨e', he', ?_⟩)
      rw [← (live_iff.1 hl').2, ← (live_iff.1 hlive).2, hnode]
      exact congrArg (fun x => (s.nodes x).heapSeq) hnode'
    · obtain ⟨hv, hp, hno⟩ := hns m hm
      exact ⟨hv, hp, fun e' he' hl' => hno e' (by rw [hheap]; simp [he']) hl'⟩

theorem Rounds.balanced (hr : Rounds full k s gone j t) (hb : s.Balanced) (hk : Skipped k s)
    (hsp : Spares full k s) : t.Balanced ∧ Skipped j t := by
  induction hr with
  | refl k s => exact ⟨hb, hk⟩
  | @skip k s s' gone j t h hr ih =>
    obtain ⟨-, n, heap, ht, hpin, rfl⟩ := hb.sound.of_skipped hsp.here h
    have ha : Accounts { s with lruHeap := heap } := ⟨hb.accounts.bytes, hb.accounts.count⟩
    exact ih ⟨hb.sound.withHeap heap, ha, hb.queue.skip ht hpin⟩ (hk.skip hb.queue ht hpin)
      (fun gone j t hr => hsp gone j t (.skip h hr))
  | @evict k s s' n gone j t h hr ih =>
    obtain ⟨hp, hcand, heap, ht, hzero, parent, edgeKey, hedge, rfl⟩ := hb.sound.of_evicted hsp.here h
    have hout := ((hsp.here hp).victim n hcand hzero).2
    have ha : Accounts { s with lruHeap := heap } := ⟨hb.accounts.bytes, hb.accounts.count⟩
    exact ih ⟨((hb.sound.withHeap heap).evict hedge hout).1,
      (hb.sound.withHeap heap).accounts_evict ha hedge hout ht.occupied, hb.queue.evict ht parent edgeKey⟩
      (.zero _) (fun gone j t hr => hsp (n :: gone) j t (.evict h hr))

/-- At most one value is not pinned. -/
def AllButOnePinned (s : Cache V) : Prop := ∀ m m', s.Loose m → s.Loose m' → m = m'

theorem Balanced.exhausted (hb : s.Balanced) (hk : Skipped k s) (h : ¬ Pops full k s) (hfull : full s = true) :
    s.AllButOnePinned := by
  have hcount := hb.accounts.count
  by_cases hone : s.stats.leafCount ≤ 1
  · intro m m' hm hm'
    have hlen : s.valued.length ≤ 1 := by omega
    have hmem := hb.sound.mem_valued.2 hm.1
    have hmem' := hb.sound.mem_valued.2 hm'.1
    match hl : s.valued, hlen with
    | [], _ => rw [hl] at hmem; cases hmem
    | [a], _ =>
      rw [hl, List.mem_singleton] at hmem hmem'
      rw [hmem, hmem']
  · have hle : s.stats.leafCount ≤ k := by
      by_contra hlt
      exact h ⟨hfull, not_le.1 hone, not_le.1 hlt⟩
    rcases hk with hk | ⟨ns, hnodup, hlen, hns⟩
    · exact fun m _ hm _ => absurd hm (hk m)
    · intro m _ hm _
      have hsub : ns.Subperm s.valued :=
        List.subperm_of_subset hnodup (fun a ha => hb.sound.mem_valued.2 (hns a ha).1)
      have hperm := hsub.perm_of_length_le (by omega)
      have hmem := hperm.mem_iff.2 (hb.sound.mem_valued.2 hm.1)
      exact absurd hm.2 (hns m hmem).2.1.ne'

/-- Victims are not pinned, and of the values that are not pinned the one used longest ago. -/
def InOrder (full : Cache V → Bool) (s : Cache V) : Prop :=
  ∀ gone j t t' n, Rounds full 0 s gone j t → t.evictRound full j = .ok (t', .evicted n) →
    (t.nodes n).refCount = 0 ∧ ∀ m ∈ t.valued, (t.nodes m).refCount = 0 → (t.nodes n).lastAccess ≤ (t.nodes m).lastAccess

theorem Rounds.lighter (hr : Rounds full k s gone j t) (hs : s.Sound) (hsp : Spares full k s) :
    t.stats.totalBytes ≤ s.stats.totalBytes ∧ t.maxBytes = s.maxBytes ∧ t.maxNodes = s.maxNodes := by
  induction hr with
  | refl k s => exact ⟨le_rfl, rfl, rfl⟩
  | skip h hr ih =>
    obtain ⟨-, n, heap, -, -, rfl⟩ := hs.of_skipped hsp.here h
    exact ih (hs.withHeap heap) (fun gone j t hr => hsp gone j t (.skip h hr))
  | @evict k s s' n gone j t h hr ih =>
    obtain ⟨hp, hcand, heap, -, hzero, parent, edgeKey, hedge, rfl⟩ := hs.of_evicted hsp.here h
    have hout := ((hsp.here hp).victim n hcand hzero).2
    obtain ⟨hle, hbytes, hnodes⟩ := ih ((hs.withHeap heap).evict hedge hout).1
      (fun gone j t hr => hsp (n :: gone) j t (.evict h hr))
    refine ⟨hle.trans ?_, hbytes, hnodes⟩
    have hevict : ({ s with lruHeap := heap }.evict parent edgeKey n).stats.totalBytes =
      s.stats.totalBytes - (s.nodes n).sizeBytes := rfl
    omega

/-- A loop ends below its bound or with all values but one pinned. -/
theorem Balanced.evictLoop (hb : s.Balanced) (hsp : Spares full 0 s) :
    ∃ t gone, Cache.evictLoop full s.rounds 0 s = .ok (t, gone) ∧ t.Balanced ∧ Thinned s gone t ∧
      (t.stats.totalBytes ≤ s.stats.totalBytes ∧ t.maxBytes = s.maxBytes ∧ t.maxNodes = s.maxNodes) ∧
      (full t = false ∨ t.AllButOnePinned) ∧ InOrder full s := by
  obtain ⟨gone, j, t, t', hr, hend, hloop⟩ := hb.sound.evictLoop_ends hsp (Nat.lt_succ_of_le (Nat.sub_le ..))
  obtain ⟨hbt, hskipped⟩ := hr.balanced hb (.zero s) hsp
  have hthin := hr.thinned hb.sound hsp
  have hlight := hr.lighter hb.sound hsp
  have horder : InOrder full s := by
    intro gone j t t' n hr he
    obtain ⟨hbt, -⟩ := hr.balanced hb (.zero s) hsp
    obtain ⟨-, -, heap, ht, hzero, -⟩ := hbt.sound.of_evicted (hsp gone j t hr) he
    exact ⟨hzero, fun m hm hpin => hbt.queue.oldest ht hzero ⟨hbt.sound.mem_valued.1 hm, hpin⟩⟩
  refine ⟨t', gone, hloop, ?_⟩
  rcases over_cases hbt.sound (hsp gone j t hr) hend with ⟨hp, rfl⟩ | ⟨-, hstale, rfl⟩
  · refine ⟨hbt, hthin, hlight, ?_, horder⟩
    cases hfull : full t' with
    | false => exact .inl rfl
    | true => exact .inr (hbt.exhausted hskipped hp hfull)
  · have hloose : ∀ m, ¬ t.Loose m := by
      intro m hm
      obtain ⟨e, he, hl, -⟩ := hbt.queue.queued m hm
      rw [hstale e he] at hl
      cases hl
    refine ⟨⟨hbt.sound.withHeap [], ⟨hbt.accounts.bytes, hbt.accounts.count⟩, ?_⟩, hthin.withHeap [], hlight,
      .inr (fun m _ hm _ => absurd hm (hloose m)), horder⟩
    exact hbt.queue.shrink (List.nil_sublist _) rfl rfl (fun _ _ => rfl)
      (fun e he hl _ => absurd hl (by rw [hstale e he]; simp))

theorem heapLe_total (a b : HeapTuple) : heapLe a b ∨ heapLe b a := by
  unfold heapLe
  omega

theorem heapLe_trans (a b c : HeapTuple) (h : heapLe a b) (h' : heapLe b c) : heapLe a c := by
  unfold heapLe at *
  omega

theorem orderedInsert_sorted (h : heap.Pairwise heapLe) (e : HeapTuple) :
    (heap.orderedInsert heapLe e).Pairwise heapLe := by
  have : Std.Total heapLe := ⟨heapLe_total⟩
  have : IsTrans HeapTuple heapLe := ⟨heapLe_trans⟩
  exact h.orderedInsert e heap

/-- A node that is stamped gets a new tuple; its old ones become stale. -/
theorem Queued.touched {now : Nat} (hq : s.Queued)
    (hheap : t.lruHeap = s.lruHeap.orderedInsert heapLe (now, s.heapSeq + 1, n)) (hseq : t.heapSeq = s.heapSeq + 1)
    (hat : (t.nodes n).lastAccess = now ∧ (t.nodes n).heapSeq = s.heapSeq + 1)
    (hnodes : ∀ m, m ≠ n → t.nodes m = s.nodes m) : t.Queued := by
  have hperm : t.lruHeap.Perm ((now, s.heapSeq + 1, n) :: s.lruHeap) := hheap ▸ List.perm_orderedInsert ..
  have hother : ∀ e ∈ s.lruHeap, t.live e = true → e.2.2 ≠ n := by
    rintro e he hl rfl
    have := hq.issued e he
    rw [live_iff, hat.2] at hl
    omega
  refine ⟨hheap ▸ orderedInsert_sorted hq.sorted _, ?_, fun e he => ?_, fun e he hl => ?_, fun m hm => ?_⟩
  · rw [(hperm.map _).nodup_iff, List.map_cons, List.nodup_cons]
    refine ⟨fun hin => ?_, hq.seqs⟩
    obtain ⟨e, he, hs⟩ := List.mem_map.1 hin
    have := hq.issued e he
    dsimp only at hs
    omega
  · rw [hseq]
    rcases List.mem_cons.1 (hperm.mem_iff.1 he) with rfl | he
    · exact le_rfl
    · have := hq.issued e he
      omega
  · rcases List.mem_cons.1 (hperm.mem_iff.1 he) with rfl | he
    · exact hat.1.symm
    · have hsame := hnodes _ (hother e he hl)
      rw [hsame]
      exact hq.stamped e he (by rw [← live_congr hsame]; exact hl)
  · by_cases hmn : m = n
    · subst hmn
      exact ⟨_, hperm.mem_iff.2 (List.mem_cons_self ..), live_iff.2 ⟨hm.1, hat.2⟩, rfl⟩
    · have hsame := hnodes m hmn
      obtain ⟨e, he, hl, rfl⟩ := hq.queued m ⟨by rw [vacant, ← hsame]; exact hm.1, by rw [← hsame]; exact hm.2⟩
      exact ⟨e, hperm.mem_iff.2 (List.mem_cons_of_mem _ he), by rw [live_congr hsame]; exact hl, rfl⟩

/-- Calls that change no value and no size. -/
theorem Accounts.same (ha : s.Accounts) (hs : s.Sound) (ht : t.Sound)
    (hnodes : ∀ m, (t.nodes m).value = (s.nodes m).value ∧ (t.nodes m).sizeBytes = (s.nodes m).sizeBytes)
    (hstats : t.stats.totalBytes = s.stats.totalBytes ∧ t.stats.leafCount = s.stats.leafCount) : t.Accounts := by
  have hperm := valued_same hs ht (fun m => by rw [vacant, vacant, (hnodes m).1])
  have hmap : t.valued.map (fun m => (t.nodes m).sizeBytes) = t.valued.map (fun m => (s.nodes m).sizeBytes) :=
    List.map_congr_left (fun m _ => (hnodes m).2)
  exact ⟨by rw [hstats.1, ha.bytes, hmap, (hperm.map _).sum_eq], by rw [hstats.2, ha.count, hperm.length_eq]⟩

theorem touch_stamped (s : Cache V) (n : Nat) (f : RadixNode V → RadixNode V) :
    ((s.modifyNode n f).touch n).lruHeap =
        s.lruHeap.orderedInsert heapLe ((f (s.nodes n)).lastAccess, s.heapSeq + 1, n) ∧
      ((s.modifyNode n f).touch n).heapSeq = s.heapSeq + 1 := by
  simp [touch, modifyNode]

theorem Balanced.get (hb : s.Balanced) (now : Nat) (key : Text) : (s.get now key).1.Balanced := by
  have hsound := (hb.sound.get now key).1
  rw [Cache.get] at hsound ⊢
  have hfind : find { s with clock := now } key = s.find key := rfl
  simp only [hfind] at hsound ⊢
  cases hf : s.find key with
  | none =>
    rw [hf] at hsound
    exact ⟨hsound, ⟨hb.accounts.bytes, hb.accounts.count⟩,
      hb.queue.shrink (List.Sublist.refl _) rfl rfl (fun _ _ => rfl) (fun _ he _ _ => he)⟩
  | some n =>
    rw [hf] at hsound
    dsimp only at hsound ⊢
    cases hv : (s.nodes n).value with
    | none =>
      rw [hv] at hsound
      exact ⟨hsound, ⟨hb.accounts.bytes, hb.accounts.count⟩,
        hb.queue.shrink (List.Sublist.refl _) rfl rfl (fun _ _ => rfl) (fun _ he _ _ => he)⟩
    | some v =>
      rw [hv] at hsound
      dsimp only at hsound ⊢
      obtain ⟨hheap, hseq⟩ := touch_stamped { s with clock := now } n (fun r => { r with lastAccess := now })
      have hnodes : ∀ m, ((modifyNode { s with clock := now } n (fun r => { r with lastAccess := now })).touch n).nodes m =
          if m = n then { s.nodes n with lastAccess := now, heapSeq := s.heapSeq + 1 } else s.nodes m := by
        intro m
        rw [nodes_touch, nodes_modifyNode, nodes_modifyNode, if_pos rfl]
        split <;> rfl
      refine ⟨hsound, hb.accounts.same hb.sound hsound (fun m => ?_) ⟨rfl, rfl⟩, hb.queue.touched hheap hseq ?_ ?_⟩
      · dsimp only
        rw [hnodes]
        split
        · next h => rw [h]; exact ⟨rfl, rfl⟩
        · exact ⟨rfl, rfl⟩
      · dsimp only
        rw [hnodes, if_pos rfl]
        exact ⟨rfl, rfl⟩
      · intro m hm
        dsimp only
        rw [hnodes, if_neg hm]

theorem Balanced.modifyPins (hb : s.Balanced) {f : RadixNode V → RadixNode V} (hn : n < s.nextNode)
    (hf : ∀ r, ∃ c, f r = { r with refCount := c })
    (hqueue : (f (s.nodes n)).refCount = 0 → s.vacant n = false → ∃ e ∈ s.lruHeap, s.live e = true ∧ e.2.2 = n) :
    (s.modifyNode n f).Balanced := by
  have hkeep : ∀ m, ∃ c, (s.modifyNode n f).nodes m = { s.nodes m with refCount := c } := by
    intro m
    rw [nodes_modifyNode]
    split
    · next h => exact h ▸ hf _
    · exact ⟨_, rfl⟩
  have hsound := (hb.sound.modify hn (f := f) (fun r => by obtain ⟨c, hc⟩ := hf r; rw [hc])).1
  have hlive : ∀ e, (s.modifyNode n f).live e = s.live e := by
    intro e
    obtain ⟨c, hc⟩ := hkeep e.2.2
    rw [live, live, hc]
  refine ⟨hsound, hb.accounts.same hb.sound hsound (fun m => ?_) ⟨rfl, rfl⟩, hb.queue.sorted, hb.queue.seqs,
    hb.queue.issued, fun e he hl => ?_, fun m hm => ?_⟩
  · obtain ⟨c, hc⟩ := hkeep m
    rw [hc]
    exact ⟨rfl, rfl⟩
  · obtain ⟨c, hc⟩ := hkeep e.2.2
    rw [hc]
    exact hb.queue.stamped e he ((hlive e).symm.trans hl)
  · have hv : s.vacant m = false := by
      obtain ⟨c, hc⟩ := hkeep m
      have := hm.1
      rwa [vacant, hc] at this
    have hmem : ∃ e ∈ s.lruHeap, s.live e = true ∧ e.2.2 = m := by
      by_cases hmn : m = n
      · subst hmn
        refine hqueue ?_ hv
        have := hm.2
        rwa [nodes_modifyNode, if_pos rfl] at this
      · refine hb.queue.queued m ⟨hv, ?_⟩
        have := hm.2
        rwa [nodes_modifyNode, if_neg hmn] at this
    obtain ⟨e, he, hl, hen⟩ := hmem
    exact ⟨e, he, (hlive e).trans hl, hen⟩

theorem Balanced.pin (hb : s.Balanced) (key : Text) : (s.pin key).1.Balanced := by
  rw [Cache.pin]
  cases hf : s.find key with
  | none => exact hb
  | some n =>
    dsimp only
    split
    · exact hb.modifyPins (hb.sound.find_known hf) (f := fun r => { r with refCount := r.refCount + 1 })
        (fun r => ⟨_, rfl⟩) (fun h => absurd h (Nat.succ_ne_zero _))
    · exact hb

def KeepsTuple (s : Cache V) (key : Text) : Prop :=
  ∀ n, s.find key = some n → s.vacant n = false → (s.nodes n).refCount = 1 →
    ∃ e ∈ s.lruHeap, s.live e = true ∧ e.2.2 = n

theorem Balanced.unpin (hb : s.Balanced) (hkeep : s.KeepsTuple key) : (s.unpin key).1.Balanced := by
  rw [Cache.unpin]
  cases hf : s.find key with
  | none => exact hb
  | some n =>
    dsimp only
    split
    · next hpos =>
      refine hb.modifyPins (hb.sound.find_known hf) (f := fun r => { r with refCount := r.refCount - 1 })
        (fun r => ⟨_, rfl⟩) (fun hzero hv => hkeep n hf hv ?_)
      dsimp only at hzero
      omega
    · exact hb

theorem Balanced.pruneOne (hb : s.Balanced) (n : Nat) : (s.pruneOne n).Balanced := by
  by_cases hv : s.vacant n = true
  · have : s.pruneOne n = s := by
      rw [Cache.pruneOne, if_neg]
      simpa [vacant] using hv
    rwa [this]
  rw [Bool.not_eq_true] at hv
  have hnodes := s.pruneOne_nodes n
  simp only [hv, and_true] at hnodes
  have hvacant : ∀ m, (s.pruneOne n).vacant m = false ↔ m ≠ n ∧ s.vacant m = false := by
    intro m
    rw [vacant, hnodes]
    by_cases hm : m = n
    · simp [hm]
    · simp [hm, vacant]
  have hkeep : (s.pruneOne n).tree = s.tree ∧ (s.pruneOne n).root = s.root ∧ (s.pruneOne n).nextNode = s.nextNode := by
    rw [Cache.pruneOne]
    split <;> exact ⟨rfl, rfl, rfl⟩
  have hheap : (s.pruneOne n).lruHeap = s.lruHeap ∧ (s.pruneOne n).heapSeq = s.heapSeq := by
    rw [Cache.pruneOne]
    split <;> exact ⟨rfl, rfl⟩
  have hstats : (s.pruneOne n).stats.totalBytes = s.stats.totalBytes - (s.nodes n).sizeBytes ∧
      (s.pruneOne n).stats.leafCount = s.stats.leafCount - 1 := by
    rw [Cache.pruneOne, if_pos]
    · exact ⟨rfl, rfl⟩
    · simpa [vacant, Option.isNone_eq_false_iff] using hv
  have hsound : (s.pruneOne n).Sound := by
    refine ⟨hkeep.1 ▸ hb.sound.branching, ?_, ?_, fun m hm => ?_, fun m hm => ?_⟩
    · rw [hkeep.1, hkeep.2.1]
      exact hb.sound.nodup
    · rw [hkeep.1, hkeep.2.1, hkeep.2.2]
      exact hb.sound.known
    · rw [hkeep.2.2] at hm
      rw [hnodes, if_neg, hb.sound.fresh m hm]
      rintro rfl
      have := hb.sound.known m (hb.sound.held m hv)
      omega
    · rw [hkeep.1, hkeep.2.1]
      exact hb.sound.held m ((hvacant m).1 hm).2
  refine ⟨hsound, hb.accounts.less hb.sound hsound hv hvacant (fun m hm => by rw [hnodes, if_neg hm]) hstats.1 hstats.2, ?_⟩
  refine hb.queue.shrink (List.Sublist.refl _) hheap.1 hheap.2 (fun m hm => ?_) (fun _ he _ _ => he)
  rw [hnodes, if_neg ((hvacant m).1 hm).1]

theorem Balanced.dropPrefix (hb : s.Balanced) (p : Text) : (s.dropPrefix p).1.Balanced := by
  by_cases hp : p = []
  · rw [Cache.dropPrefix, if_pos hp]
    exact hb
  have hsound := (hb.sound.dropPrefix hp).1
  rw [Cache.dropPrefix, if_neg hp] at hsound ⊢
  cases hwalk : walkPrefix s.root s.tree p with
  | none => exact hb
  | some r =>
    obtain ⟨n, below, parent, edgeKey⟩ := r
    rw [hwalk] at hsound
    dsimp only [pruneSubtree] at hsound ⊢
    have hpruned : ((n :: below.nodes).foldl Cache.pruneOne s).Balanced := by
      have hfold : ∀ (ns : List Nat) (s : Cache V), s.Balanced → (ns.foldl Cache.pruneOne s).Balanced := by
        intro ns
        induction ns with
        | nil => exact fun s hb => hb
        | cons m ns ih => exact fun s hb => ih _ (hb.pruneOne m)
      exact hfold _ s hb
    exact ⟨hsound, hpruned.accounts.same hpruned.sound hsound (fun _ => ⟨rfl, rfl⟩) ⟨rfl, rfl⟩,
      hpruned.queue.shrink (List.Sublist.refl _) rfl rfl (fun _ _ => rfl) (fun _ he _ _ => he)⟩

theorem insert_heap (s : Cache V) (now : Nat) (key : Text) (value : Option V) (sizeBytes : Nat) :
    (s.insert now key value sizeBytes).lruHeap = s.lruHeap.orderedInsert heapLe
        (now, s.heapSeq + 1, (walkOrCreate s.root s.nextNode s.tree key).2.1) ∧
      (s.insert now key value sizeBytes).heapSeq = s.heapSeq + 1 := by
  rw [insert]
  dsimp only
  split <;> simp [touch, modifyNode]

theorem insert_stats (s : Cache V) (now : Nat) (key : Text) (value : Option V) (sizeBytes : Nat) :
    (s.insert now key value sizeBytes).stats.totalBytes = s.stats.totalBytes + sizeBytes -
        (if s.vacant (walkOrCreate s.root s.nextNode s.tree key).2.1 then 0
          else (s.nodes (walkOrCreate s.root s.nextNode s.tree key).2.1).sizeBytes : Nat) ∧
      (s.insert now key value sizeBytes).stats.leafCount = s.stats.leafCount +
        (if s.vacant (walkOrCreate s.root s.nextNode s.tree key).2.1 then 1 else 0) := by
  rw [insert]
  dsimp only
  by_cases hv : s.vacant (walkOrCreate s.root s.nextNode s.tree key).2.1 = true
  · have hv' : ((s.nodes (walkOrCreate s.root s.nextNode s.tree key).2.1).value.isNone) = true := hv
    rw [if_pos hv', if_pos hv, if_pos hv]
    simp [touch, modifyNode]
  · have hv' : ¬ ((s.nodes (walkOrCreate s.root s.nextNode s.tree key).2.1).value.isNone) = true := hv
    rw [if_neg hv', if_neg hv, if_neg hv]
    simp only [touch, modifyNode]
    constructor
    · ring
    · ring

/-- Storing a value keeps the books. -/
theorem Balanced.insert (hb : s.Balanced) (now : Nat) (key : Text) (v : V) (sizeBytes : Nat) :
    (s.insert now key (some v) sizeBytes).Balanced := by
  have hsound := (hb.sound.insert now key (some v) sizeBytes).1
  have hnodes := s.nodes_insert now key (some v) sizeBytes
  obtain ⟨hheap, hseq⟩ := s.insert_heap now key (some v) sizeBytes
  obtain ⟨hbytes, hcount⟩ := s.insert_stats now key (some v) sizeBytes
  generalize s.insert now key (some v) sizeBytes = t at hsound hnodes hheap hseq hbytes hcount ⊢
  generalize (walkOrCreate s.root s.nextNode s.tree key).2.1 = n at hnodes hheap hbytes hcount
  have hin : t.vacant n = false := by rw [vacant, hnodes, if_pos rfl]; rfl
  have hother : ∀ m, m ≠ n → t.nodes m = s.nodes m := fun m hm => by rw [hnodes, if_neg hm]
  have hsize : (t.nodes n).sizeBytes = sizeBytes := by rw [hnodes, if_pos rfl]
  refine ⟨hsound, ?_, hb.queue.touched hheap hseq (by rw [hnodes, if_pos rfl]; exact ⟨rfl, rfl⟩) hother⟩
  have hmap : ∀ ns : List Nat, n ∉ ns → ns.map (fun m => (t.nodes m).sizeBytes) = ns.map (fun m => (s.nodes m).sizeBytes) :=
    fun ns hns => List.map_congr_left (fun m hm => by rw [hother m (fun he => hns (he ▸ hm))])
  by_cases hv : s.vacant n = true
  · rw [if_pos hv] at hbytes hcount
    have hnot : n ∉ s.valued := by
      rw [hb.sound.mem_valued, hv]
      simp
    have hperm : t.valued.Perm (n :: s.valued) := by
      refine valued_cons hsound hb.sound hin (fun m => ?_)
      by_cases hm : m = n
      · subst hm
        simp [hv]
      · simp [hm, vacant, hother m hm]
    constructor
    · rw [hbytes, hb.accounts.bytes, (hperm.map _).sum_eq, List.map_cons, List.sum_cons, hmap _ hnot, hsize]
      push_cast
      ring
    · rw [hcount, hb.accounts.count, hperm.length_eq, List.length_cons]
      push_cast
      ring
  · rw [if_neg hv] at hbytes hcount
    rw [Bool.not_eq_true] at hv
    have hperm : s.valued.Perm t.valued := by
      refine valued_same hb.sound hsound (fun m => ?_)
      by_cases hm : m = n
      · subst hm
        simp [hv, hin]
      · simp [vacant, hother m hm]
    have hsplit := List.perm_cons_erase (hb.sound.mem_valued.2 hv)
    have hnot : n ∉ s.valued.erase n := fun h => (hb.sound.nodup_valued.mem_erase_iff.1 h).1 rfl
    constructor
    · rw [hbytes, hb.accounts.bytes, ((hperm.symm.trans hsplit).map _).sum_eq, (hsplit.map _).sum_eq, List.map_cons,
        List.map_cons, List.sum_cons, List.sum_cons, hmap _ hnot, hsize]
      push_cast
      ring
    · rw [hcount, hb.accounts.count, hperm.length_eq]
      ring

theorem Balanced.maybeCompact (hb : s.Balanced) : s.maybeCompact.Balanced := by
  rw [Cache.maybeCompact]
  dsimp only
  have hsound : ∀ c heap, Sound { s with putsSinceCompact := c, lruHeap := heap } :=
    fun _ _ => ⟨hb.sound.branching, hb.sound.nodup, hb.sound.known, hb.sound.fresh, hb.sound.held⟩
  split
  · refine ⟨hsound _ _, ⟨hb.accounts.bytes, hb.accounts.count⟩, ?_⟩
    exact hb.queue.shrink List.filter_sublist rfl rfl (fun _ _ => rfl) (fun e he hl _ => List.mem_filter.2 ⟨he, hl⟩)
  · exact ⟨hsound _ _, ⟨hb.accounts.bytes, hb.accounts.count⟩,
      hb.queue.shrink (List.Sublist.refl _) rfl rfl (fun _ _ => rfl) (fun _ he _ _ => he)⟩

theorem maybeCompact_keeps (s : Cache V) : s.maybeCompact.stats = s.stats ∧ s.maybeCompact.maxBytes = s.maxBytes ∧
    s.maybeCompact.maxNodes = s.maxNodes ∧ s.maybeCompact.nodes = s.nodes := by
  rw [maybeCompact]
  dsimp only
  split <;> exact ⟨rfl, rfl, rfl, rfl⟩

theorem AllButOnePinned.thinned (h : s.AllButOnePinned) (ht : Thinned s gone t) : t.AllButOnePinned := by
  have hloose : ∀ m, t.Loose m → s.Loose m := by
    intro m hm
    have hsame := ht.nodes m hm.1
    exact ⟨by rw [vacant, ← hsame]; exact hm.1, by rw [← hsame]; exact hm.2⟩
  exact fun m m' hm hm' => h m m' (hloose m hm) (hloose m' hm')

/-- After `put` the cache is within its bounds unless all values but one are pinned. -/
theorem Balanced.put (hb : s.Balanced) {now sizeBytes : Nat} {v : V}
    (hsp : SparesCall s (.put now key (some v) sizeBytes)) :
    ∃ t gone, s.put now key (some v) sizeBytes = .ok (t, gone) ∧ t.Balanced ∧
      ((t.stats.totalBytes ≤ t.maxBytes ∧ t.stats.leafCount ≤ t.maxNodes) ∨ t.AllButOnePinned) ∧
      InOrder overBytes (s.insert now key (some v) sizeBytes) ∧
      ∀ u gone, (s.insert now key (some v) sizeBytes).evictIfNeeded = .ok (u, gone) →
        u.maybeCompact.overNodes = true → InOrder overNodes u.maybeCompact := by
  have hin := hb.insert now key v sizeBytes
  obtain ⟨t, gone, hloop, hbt, hthin, -, hbound, horder⟩ := hin.evictLoop hsp.1
  have hcompact := hbt.maybeCompact
  obtain ⟨hstats, hbytes, hnodes, htable⟩ := t.maybeCompact_keeps
  have hover : t.maybeCompact.overBytes = t.overBytes := by rw [overBytes, overBytes, hstats, hbytes]
  have hpinned : t.AllButOnePinned → t.maybeCompact.AllButOnePinned := by
    intro h m m' hm hm'
    refine h m m' ⟨?_, ?_⟩ ⟨?_, ?_⟩
    · simpa only [vacant, htable] using hm.1
    · simpa only [htable] using hm.2
    · simpa only [vacant, htable] using hm'.1
    · simpa only [htable] using hm'.2
  have hfirst : t.maybeCompact.overBytes = false ∨ t.maybeCompact.AllButOnePinned :=
    hbound.imp (fun h => hover.trans h) hpinned
  have hwithin : ∀ u : Cache V, u.overBytes = false → u.overNodes = false →
      u.stats.totalBytes ≤ u.maxBytes ∧ u.stats.leafCount ≤ u.maxNodes := by
    intro u h₁ h₂
    simpa [overBytes, overNodes] using And.intro h₁ h₂
  have hsecond : ∀ u gone, (s.insert now key (some v) sizeBytes).evictIfNeeded = .ok (u, gone) →
      u.maybeCompact.overNodes = true → InOrder overNodes u.maybeCompact := by
    intro u gone' hu hfull
    have hsame : (u, gone') = (t, gone) := Except.ok.inj (hu.symm.trans hloop)
    cases hsame
    obtain ⟨-, -, -, -, -, -, -, h⟩ := hcompact.evictLoop (hsp.2 t gone hloop hfull)
    exact h
  have hput : s.put now key (some v) sizeBytes = if t.maybeCompact.overNodes then
      t.maybeCompact.evictToNodeCap.map (fun r => (r.1, gone ++ r.2)) else .ok (t.maybeCompact, gone) := by
    rw [Cache.put, evictIfNeeded, hloop]
  by_cases hfull : t.maybeCompact.overNodes = true
  · obtain ⟨u, gone', hloop', hbu, hthin', ⟨hle, hmax, -⟩, hbound', -⟩ := hcompact.evictLoop (hsp.2 t gone hloop hfull)
    refine ⟨u, gone ++ gone', by rw [hput, if_pos hfull, evictToNodeCap, hloop']; rfl, hbu, ?_, horder, hsecond⟩
    rcases hbound' with hnodes' | h
    · rcases hfirst with hbytes' | h
      · refine .inl (hwithin u ?_ hnodes')
        simp only [overBytes, decide_eq_false_iff_not, not_lt] at hbytes' ⊢
        omega
      · exact .inr (h.thinned hthin')
    · exact .inr h
  · refine ⟨_, gone, by rw [hput, if_neg hfull], hcompact, ?_, horder, hsecond⟩
    exact hfirst.imp_left (fun h => hwithin _ h (by simpa using hfull))

/-- The call spares what it is not meant to evict, stores a value, and leaves no value without its tuple. -/
def Meets (s : Cache V) (op : Op V) : Prop :=
  SparesCall s op ∧ match op with
    | .put _ _ value _ => value.isSome
    | .unpin key => s.KeepsTuple key
    | _ => True

/-- The caches that such calls lead to. -/
inductive Reached (maxMb maxNodes : Int) : Cache V → Prop
  | init : Reached maxMb maxNodes (init maxMb maxNodes)
  | call {s t op out} (h : Reached maxMb maxNodes s) (hm : Meets s op) (hc : s.call op = .ok (t, out)) :
      Reached maxMb maxNodes t

theorem balanced_init (maxMb maxNodes : Int) : (init maxMb maxNodes : Cache V).Balanced :=
  ⟨sound_init maxMb maxNodes, ⟨rfl, rfl⟩, .nil, List.nodup_nil, by simp [init], by simp [init],
    fun n h => absurd h.1 (by simp [init, vacant])⟩

theorem balanced_clear (s : Cache V) : s.clear.Balanced :=
  ⟨s.clear_sound.1, ⟨rfl, rfl⟩, .nil, List.nodup_nil, by simp [clear], by simp [clear],
    fun n h => absurd h.1 (by simp [clear, vacant])⟩

theorem Balanced.call (hb : s.Balanced) {op : Op V} {out : Out V} (hm : Meets s op) (hc : s.call op = .ok (t, out)) :
    t.Balanced := by
  cases op with
  | get now key => cases hc; exact hb.get now key
  | put now key value sizeBytes =>
    obtain ⟨v, rfl⟩ := Option.isSome_iff_exists.1 hm.2
    obtain ⟨t', gone, hput, hbt, -⟩ := hb.put hm.1
    rw [Cache.call, hput] at hc
    cases hc
    exact hbt
  | pin key => cases hc; exact hb.pin key
  | unpin key => cases hc; exact hb.unpin hm.2
  | dropPrefix p => cases hc; exact hb.dropPrefix p
  | clear => cases hc; exact s.balanced_clear

theorem Reached.balanced {maxMb maxNodes : Int} (h : Reached maxMb maxNodes s) : s.Balanced := by
  induction h with
  | init => exact balanced_init maxMb maxNodes
  | call h hm hc ih => exact ih.call hm hc

/-- A value that is not pinned has just one tuple that is not stale. -/
theorem Queued.one_tuple (hq : s.Queued) (hn : s.Loose n) :
    (s.lruHeap.filter (fun e => s.live e && decide (e.2.2 = n))).length = 1 := by
  obtain ⟨e, he, hl, rfl⟩ := hq.queued n hn
  have honly : ∀ e' ∈ s.lruHeap, (s.live e' && decide (e'.2.2 = e.2.2)) = true → e' = e := by
    intro e' he' h
    rw [Bool.and_eq_true, decide_eq_true_eq] at h
    refine List.inj_on_of_nodup_map hq.seqs he' he ?_
    rw [← (live_iff.1 h.1).2, ← (live_iff.1 hl).2, h.2]
  have hnodup : s.lruHeap.Nodup := hq.seqs.of_map _
  rw [← List.countP_eq_length_filter, ← List.count_eq_one_of_mem hnodup he, List.count]
  refine List.countP_congr (fun e' he' => ?_)
  rw [beq_iff_eq]
  exact ⟨honly e' he', fun h => by simp [h, hl]⟩

/-- In every reached cache the counters agree with the tree and each value that is not pinned has one
tuple; a call raises nothing, evicts in order and ends within the bounds if pins allow it. -/
theorem books_balance (maxMb maxNodes : Int) (h : Reached maxMb maxNodes s) :
    s.stats.totalBytes = ((s.valued.map (fun n => (s.nodes n).sizeBytes)).sum : Nat) ∧
      s.stats.leafCount = s.valued.length ∧
      (∀ n ∈ s.valued, (s.nodes n).refCount = 0 →
        (s.lruHeap.filter (fun e => s.live e && decide (e.2.2 = n))).length = 1) ∧
      (∀ op, Meets s op → ∃ t out, s.call op = .ok (t, out)) ∧
      ∀ now key v sizeBytes, Meets s (.put now key (some v) sizeBytes) →
        ∃ t gone, s.put now key (some v) sizeBytes = .ok (t, gone) ∧
          ((t.stats.totalBytes ≤ t.maxBytes ∧ t.stats.leafCount ≤ t.maxNodes) ∨ t.AllButOnePinned) ∧
          InOrder overBytes (s.insert now key (some v) sizeBytes) ∧
          ∀ u gone, (s.insert now key (some v) sizeBytes).evictIfNeeded = .ok (u, gone) →
            u.maybeCompact.overNodes = true → InOrder overNodes u.maybeCompact := by
  have hb := h.balanced
  refine ⟨hb.accounts.bytes, hb.accounts.count, fun n hn hpin => ?_, fun op hm => ?_, fun now key v sizeBytes hm => ?_⟩
  · exact hb.queue.one_tuple ⟨hb.sound.mem_valued.1 hn, hpin⟩
  · obtain ⟨t, out, hc, -⟩ := hb.sound.call hm.1
    exact ⟨t, out, hc⟩
  · obtain ⟨t, gone, hput, -, hbound, horder, horder'⟩ := hb.put hm.1
    exact ⟨t, gone, hput, hbound, horder, horder'⟩

theorem besidePinned_reached : Reached 1 10 besidePinned := by
  have hfirst : Meets (init 1 10) (.put 1 ['a'] (some 5) 600000) := ⟨sparesCall_of_room rfl rfl, rfl⟩
  have hsecond : Meets (((init 1 10).insert 1 ['a'] (some 5) 600000).maybeCompact.pin ['a']).1
      (.put 2 ['b'] (some 6) 400000) := ⟨sparesCall_of_room rfl rfl, rfl⟩
  have hpin : Meets ((init 1 10).insert 1 ['a'] (some 5) 600000).maybeCompact (.pin ['a']) :=
    ⟨trivial, trivial⟩
  exact .call (.call (.call .init hfirst rfl) hpin rfl) hsecond rfl

theorem books_balance_pinned :
    besidePinned.stats.totalBytes =
        ((besidePinned.valued.map (fun n => (besidePinned.nodes n).sizeBytes)).sum : Nat) ∧
      besidePinned.stats.leafCount = besidePinned.valued.length ∧
      (∃ t out, besidePinned.call (.unpin ['a']) = .ok (t, out)) ∧
      ∃ t gone, besidePinned.put 3 ['c'] (some 7) 300000 = .ok (t, gone) ∧
        ((t.stats.totalBytes ≤ t.maxBytes ∧ t.stats.leafCount ≤ t.maxNodes) ∨ t.AllButOnePinned) ∧
        InOrder overBytes crowded := by
  obtain ⟨hbytes, hcount, -, hcalls, hputs⟩ := books_balance 1 10 besidePinned_reached
  refine ⟨hbytes, hcount, hcalls (.unpin ['a']) ⟨trivial, fun n hn _ _ => ?_⟩, ?_⟩
  · obtain rfl : 1 = n := Option.some.inj hn
    exact ⟨(1, 1, 1), by decide, rfl, rfl⟩
  · obtain ⟨t, gone, hput, hbound, horder, -⟩ := hputs 3 ['c'] 7 300000 ⟨besidePinned_spares, rfl⟩
    exact ⟨t, gone, hput, hbound, horder⟩

/-- The counters go on to count a value that left with the node above it, and a value that was pinned
when its tuple came up is passed over once it is unpinned. -/
theorem books_go_wrong :
    (∃ t outs, (init 1 10 : Cache Nat).run [.put 1 ['a'] (some 5) 600000, .put 2 ['a', 'b'] (some 6) 600000] =
        .ok (t, outs) ∧ t.stats.totalBytes = 600000 ∧ t.stats.leafCount = 1 ∧ t.valued = []) ∧
      ((init 1 10 : Cache Nat).run [.put 1 ['a'] (some 5) 600000, .pin ['a'], .put 2 ['b'] (some 6) 600000,
        .unpin ['a'], .put 3 ['c'] (some 7) 600000]).map Prod.snd =
        .ok [.evicted [], .done true, .evicted [['b']], .done true, .evicted [['c']]] :=
  ⟨⟨_, _, rfl, rfl, rfl, rfl⟩, rfl⟩

end Cache

end FusionMlx.DiffusionRadixCache
