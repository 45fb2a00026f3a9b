import FusionMlx.Cache.DiffusionTree
import Mathlib.Tactic.Ring

/-!
# The cache under eviction

The tree always leads to every node that holds a value. A victim below which
nothing is stored takes only its own value along, and the loops end.
-/
namespace FusionMlx.DiffusionRadixCache

open EdgeTree.Branches
open JsonText (Text)

variable {V : Type}

namespace Cache

variable {s t : Cache V} {key p q edgeKey : Text} {m n parent : Nat} {v : V}

def read (s : Cache V) (key : Text) : Option V := (s.find key).bind (fun n => (s.nodes n).value)

/-- The tree branches at each letter, its nodes are known and differ, and it leads to every value. -/
structure Sound (s : Cache V) : Prop where
  branching : s.tree.Branching
  nodup : (s.root :: s.tree.nodes).Nodup
  known : ∀ n ∈ s.root :: s.tree.nodes, n < s.nextNode
  fresh : ∀ n, s.nextNode ≤ n → s.nodes n = {}
  held : ∀ n, s.vacant n = false → n ∈ s.root :: s.tree.nodes

theorem vacant_iff : s.vacant n = true ↔ (s.nodes n).value = none := by
  simp [vacant]

theorem occupied_iff : s.vacant n = false ↔ ∃ v, (s.nodes n).value = some v := by
  simp [vacant, Option.isSome_iff_exists]

theorem Sound.find_iff (hs : s.Sound) : s.find key = some n ↔ (key, n) ∈ s.tree.rooted s.root :=
  walk_iff hs.branching

theorem Sound.read_entry (hs : s.Sound) (h : (key, n) ∈ s.tree.rooted s.root) :
    s.read key = (s.nodes n).value := by
  rw [read, hs.find_iff.2 h]
  rfl

theorem Sound.read_iff (hs : s.Sound) :
    s.read key = some v ↔ ∃ n, (key, n) ∈ s.tree.rooted s.root ∧ (s.nodes n).value = some v := by
  simp only [read, Option.bind_eq_some_iff, hs.find_iff]

/-- Every node of the tree has its word. -/
theorem Sound.word_of (h : n ∈ s.root :: s.tree.nodes) : ∃ p, (p, n) ∈ s.tree.rooted s.root := by
  rw [← rooted_nodes, List.mem_map] at h
  obtain ⟨⟨p, n⟩, hp, rfl⟩ := h
  exact ⟨p, hp⟩

theorem Sound.root_not_entry (hs : s.Sound) : (p, s.root) ∉ s.tree.entries :=
  fun h => (List.nodup_cons.1 hs.nodup).1 (mem_nodes.2 ⟨p, h⟩)

theorem Sound.keyOf_eq (hs : s.Sound) (h : (p, n) ∈ s.tree.rooted s.root) : s.keyOf n = some p := by
  rw [keyOf, Option.map_eq_some_iff]
  cases hf : (s.tree.rooted s.root).find? (fun e => e.2 = n) with
  | none => exact absurd (decide_eq_true rfl) (List.find?_eq_none.1 hf _ h)
  | some e =>
    obtain ⟨p', n'⟩ := e
    have hn := List.find?_some hf
    simp only [decide_eq_true_eq] at hn
    subst hn
    exact ⟨_, rfl, word_unique hs.nodup (List.mem_of_find?_eq_some hf) h⟩

/-- With the edge to a subtree go its words; the merged edges lose no value. -/
theorem Sound.detach (hs : s.Sound) (hedge : (parent, edgeKey, n) ∈ s.tree.edges s.root)
    (hq : (q, parent) ∈ s.tree.rooted s.root) (hroot : t.root = s.root) (hnext : t.nextNode = s.nextNode)
    (htree : t.tree = cleanupChains t.vacant (deleteEdge parent edgeKey s.root s.tree) .nil)
    (hout : ∀ m, (∀ p, (p, m) ∈ s.tree.entries → ¬ q ++ edgeKey <+: p) → t.nodes m = s.nodes m)
    (hin : ∀ p m, (p, m) ∈ s.tree.entries → q ++ edgeKey <+: p → t.vacant m = true) :
    t.Sound ∧ (∀ e ∈ t.tree.entries, e ∈ s.tree.entries) ∧
      ∀ k, t.read k = if q ++ edgeKey <+: k then none else s.read k := by
  have hdel : ∀ p m, (p, m) ∈ (deleteEdge parent edgeKey s.root s.tree).entries ↔
      (p, m) ∈ s.tree.entries ∧ ¬ q ++ edgeKey <+: p :=
    fun p m => mem_deleteEdge hs.branching hs.nodup hedge hq
  obtain ⟨hbranch, -, gone, hperm, hgone⟩ : Tidied t.vacant (deleteEdge parent edgeKey s.root s.tree) .nil
      (cleanupChains t.vacant (deleteEdge parent edgeKey s.root s.tree) .nil) :=
    cleanupChains_tidied (deleteEdge_branching hs.branching) trivial (by simp [firsts])
  rw [← htree, entries_nil, List.append_nil] at hperm
  rw [← htree] at hbranch
  have hsub : ∀ p m, (p, m) ∈ t.tree.entries → (p, m) ∈ s.tree.entries ∧ ¬ q ++ edgeKey <+: p :=
    fun p m hp => (hdel p m).1 (hperm.mem_iff.2 (List.mem_append_left _ hp))
  have hkeep : ∀ p m, (p, m) ∈ s.tree.entries → ¬ q ++ edgeKey <+: p → t.vacant m = false →
      (p, m) ∈ t.tree.entries := by
    intro p m hp hpre hm
    refine (List.mem_append.1 (hperm.mem_iff.1 ((hdel p m).2 ⟨hp, hpre⟩))).resolve_right (fun hg => ?_)
    rw [hgone _ hg] at hm
    cases hm
  have hsame : ∀ m, m = s.root → t.nodes m = s.nodes m := by
    rintro m rfl
    exact hout _ (fun p hp => absurd hp hs.root_not_entry)
  have hnodup : (t.root :: t.tree.nodes).Nodup := by
    have hn : (s.root :: (deleteEdge parent edgeKey s.root s.tree).nodes).Nodup :=
      hs.nodup.sublist (((deleteEdge_sublist ..).1.map Prod.snd).cons_cons _)
    have := ((hperm.map Prod.snd).cons s.root).nodup_iff.1 hn
    rw [List.map_append, ← hroot] at this
    exact this.sublist ((List.sublist_append_left ..).cons_cons _)
  have hsound : t.Sound := by
    refine ⟨hbranch, hnodup, ?_, ?_, ?_⟩
    · intro m hm
      rw [hnext]
      rcases List.mem_cons.1 hm with rfl | hm
      · exact hroot ▸ hs.known _ (List.mem_cons_self ..)
      · obtain ⟨p, hp⟩ := mem_nodes.1 hm
        exact hs.known _ (List.mem_cons_of_mem _ (mem_nodes.2 ⟨p, (hsub p m hp).1⟩))
    · intro m hm
      rw [hnext] at hm
      rw [hout m (fun p hp => ?_), hs.fresh m hm]
      exact absurd (hs.known m (List.mem_cons_of_mem _ (mem_nodes.2 ⟨p, hp⟩))) (Nat.not_lt.2 hm)
    · intro m hm
      have hno : ∀ p, (p, m) ∈ s.tree.entries → ¬ q ++ edgeKey <+: p := by
        intro p hp hpre
        rw [hin p m hp hpre] at hm
        cases hm
      have hm' : s.vacant m = false := by rwa [vacant, hout m hno] at hm
      rcases List.mem_cons.1 (hs.held m hm') with rfl | hmem
      · exact hroot ▸ List.mem_cons_self ..
      · obtain ⟨p, hp⟩ := mem_nodes.1 hmem
        exact List.mem_cons_of_mem _ (mem_nodes.2 ⟨p, hkeep p m hp (hno p hp) hm⟩)
  refine ⟨hsound, fun e he => (hsub _ _ he).1, fun k => ?_⟩
  have hends : q ++ edgeKey ≠ [] := by
    obtain ⟨q', hq', hend⟩ := ends_of_edge hedge
    rw [word_unique hs.nodup hq hq']
    exact (hs.branching.start hend).1
  refine Option.ext (fun v => ?_)
  rw [hsound.read_iff]
  constructor
  · rintro ⟨m, hm, hv⟩
    rw [hroot] at hm
    rcases mem_rooted.1 hm with ⟨rfl, rfl⟩ | hm
    · rw [if_neg (fun hpre => hends (List.prefix_nil.1 hpre)), hs.read_entry (mem_rooted.2 (.inl ⟨rfl, rfl⟩)),
        ← hsame _ rfl]
      exact hv
    · obtain ⟨hm, hpre⟩ := hsub k m hm
      have hk : (k, m) ∈ s.tree.rooted s.root := mem_rooted.2 (.inr hm)
      rw [if_neg hpre, hs.read_entry hk, ← hout m (fun p hp => ?_)]
      · exact hv
      · rwa [word_unique hs.nodup (mem_rooted.2 (.inr hp)) hk]
  · intro hv
    split at hv
    · cases hv
    · next hpre =>
      obtain ⟨m, hm, hv⟩ := hs.read_iff.1 hv
      have hnodes : t.nodes m = s.nodes m := by
        rcases mem_rooted.1 hm with ⟨-, rfl⟩ | hm'
        · exact hsame _ rfl
        · exact hout m (fun p hp => by rwa [word_unique hs.nodup (mem_rooted.2 (.inr hp)) hm])
      refine ⟨m, ?_, hnodes ▸ hv⟩
      rw [hroot]
      refine mem_rooted.2 ((mem_rooted.1 hm).imp_right (fun hm => hkeep k m hm hpre ?_))
      exact occupied_iff.2 ⟨v, hnodes ▸ hv⟩

def candidate (s : Cache V) : Option Nat :=
  match s.lruHeap.find? s.live with
  | some e => some e.2.2
  | none => s.findLruLeaf.map (fun r => r.2.2)

def Outermost (s : Cache V) (n : Nat) : Prop :=
  ∀ p p' m, (p, n) ∈ s.tree.entries → (p', m) ∈ s.tree.entries → p <+: p' → m ≠ n → s.vacant m = true

structure Harmless (s : Cache V) : Prop where
  popped : ∀ e, s.lruHeap.find? s.live = some e → e.2.2 ≠ s.root
  victim : ∀ n, s.candidate = some n → (s.nodes n).refCount = 0 → n ≠ s.root ∧ s.Outermost n

inductive Taken (s : Cache V) (n : Nat) : List HeapTuple → Prop
  | popped {stale rest : List HeapTuple} {e : HeapTuple} (heap : s.lruHeap = stale ++ e :: rest)
      (hstale : ∀ x ∈ stale, s.live x = false) (hlive : s.live e = true) (hnode : e.2.2 = n) : Taken s n rest
  | scanned (hstale : ∀ x ∈ s.lruHeap, s.live x = false) (hvalue : s.vacant n = false) : Taken s n []

variable {heap : List HeapTuple}

theorem popLruLeaf_some {e : HeapTuple} (h : heap.find? s.live = some e) :
    ∃ stale rest, heap = stale ++ e :: rest ∧ (∀ x ∈ stale, s.live x = false) ∧ s.live e = true ∧
      s.popLruLeaf heap = (rest, match findParent s.root s.tree e.2.2 with
        | none => .error .typeError
        | some r => .ok (some (some r.1, r.2, e.2.2))) := by
  induction heap with
  | nil => cases h
  | cons x heap ih =>
    rw [popLruLeaf]
    by_cases hx : s.live x = true
    · rw [List.find?_cons_of_pos hx] at h
      cases h
      refine ⟨[], heap, rfl, by simp, hx, ?_⟩
      rw [if_pos hx]
      cases findParent s.root s.tree e.2.2 <;> rfl
    · rw [List.find?_cons_of_neg hx] at h
      obtain ⟨stale, rest, rfl, hstale, hlive, hpop⟩ := ih h
      refine ⟨x :: stale, rest, rfl, ?_, hlive, by rw [if_neg hx]; exact hpop⟩
      rintro y (_ | ⟨_, hy⟩)
      · simpa using hx
      · exact hstale y hy

theorem popLruLeaf_none (h : heap.find? s.live = none) :
    s.popLruLeaf heap = ([], .ok s.findLruLeaf) := by
  induction heap with
  | nil => rfl
  | cons x heap ih =>
    rw [List.find?_eq_none] at h
    rw [popLruLeaf, if_neg (h x (List.mem_cons_self ..)),
      ih (List.find?_eq_none.2 (fun y hy => h y (List.mem_cons_of_mem _ hy)))]

theorem findLruChild_some {nodes : Nat → RadixNode V} {node : Nat} {best : Option (Nat × Text × Nat)}
    {c : Children} {r : Nat × Text × Nat} (h : findLruChild nodes node best c = some r) :
    best = some r ∨ (r ∈ c.edges node ∧ (nodes r.2.2).value.isSome) := by
  induction c generalizing node best with
  | nil => exact .inl h
  | edge word child below rest ihb ihr =>
    rw [findLruChild] at h
    rcases ihr h with h | h
    · have holder : ∀ {b f : Option (Nat × Text × Nat)}, older nodes b f = some r → b = some r ∨ f = some r := by
        intro b f h
        cases b with
        | none => exact .inr h
        | some b =>
          cases f with
          | none => exact .inl h
          | some f =>
            rw [older] at h
            split at h
            · exact .inr h
            · exact .inl h
      rcases holder h with h | h
      · exact .inl h
      · split at h
        · next hleaf =>
          cases h
          exact .inr ⟨List.mem_cons_self .., hleaf.2⟩
        · rcases ihb h with h | ⟨h, hv⟩
          · cases h
          · exact .inr ⟨List.mem_cons_of_mem _ (List.mem_append_left _ h), hv⟩
    · exact .inr ⟨List.mem_cons_of_mem _ (List.mem_append_right _ h.1), h.2⟩

theorem findLruLeaf_some {r : Option Nat × Text × Nat} (h : s.findLruLeaf = some r) :
    s.vacant r.2.2 = false ∧
      (r.2.2 = s.root ∨ ∃ parent, r.1 = some parent ∧ (parent, r.2.1, r.2.2) ∈ s.tree.edges s.root) := by
  rw [findLruLeaf] at h
  split at h
  · next hroot =>
    cases h
    exact ⟨by simpa [vacant] using hroot.2, .inl rfl⟩
  · obtain ⟨f, hf, rfl⟩ := Option.map_eq_some_iff.1 h
    rcases findLruChild_some hf with hf | ⟨hf, hv⟩
    · cases hf
    · exact ⟨by simpa [vacant] using hv, .inr ⟨f.1, rfl, hf⟩⟩

def Pops (full : Cache V → Bool) (k : Nat) (s : Cache V) : Prop :=
  full s = true ∧ 1 < s.stats.leafCount ∧ k < s.stats.leafCount

variable {full : Cache V → Bool} {j k fuel : Nat} {gone : List Nat}

theorem evictRound_over (h : ¬ Pops full k s) : s.evictRound full k = .ok (s, .over) := by
  rw [evictRound]
  split
  · next hfull =>
    rw [if_pos]
    by_contra hk
    exact h ⟨hfull.1, hfull.2, not_le.1 hk⟩
  · rfl

/-- A round that pops finds nothing, skips a pinned node, or evicts. -/
theorem Sound.evictRound_pops (hs : s.Sound) (h : Pops full k s) (hsafe : s.Harmless) :
    (s.candidate = none ∧ (∀ e ∈ s.lruHeap, s.live e = false) ∧
      s.evictRound full k = .ok ({ s with lruHeap := [] }, .over)) ∨
    ∃ n rest, s.candidate = some n ∧ s.Taken n rest ∧
      ((0 < (s.nodes n).refCount ∧ s.evictRound full k = .ok ({ s with lruHeap := rest }, .skipped)) ∨
        ((s.nodes n).refCount = 0 ∧ ∃ parent edgeKey, (parent, edgeKey, n) ∈ s.tree.edges s.root ∧
          s.evictRound full k = .ok ({ s with lruHeap := rest }.evict parent edgeKey n, .evicted n))) := by
  rw [evictRound, if_pos ⟨h.1, h.2.1⟩, if_neg (not_le.2 h.2.2)]
  dsimp only
  cases hfind : s.lruHeap.find? s.live with
  | some e =>
    obtain ⟨stale, rest, hheap, hstale, hlive, hpop⟩ := popLruLeaf_some hfind
    have hcand : s.candidate = some e.2.2 := by rw [candidate, hfind]
    have hvalue : s.vacant e.2.2 = false := by
      rw [live, Bool.and_eq_true] at hlive
      simpa [vacant] using hlive.1
    refine .inr ⟨e.2.2, rest, hcand, .popped hheap hstale hlive rfl, ?_⟩
    rw [hpop]
    cases hparent : findParent s.root s.tree e.2.2 with
    | none =>
      refine absurd (hs.held _ hvalue) (fun hmem => ?_)
      rcases List.mem_cons.1 hmem with hroot | hmem
      · exact hsafe.popped _ hfind hroot
      · exact findParent_none hparent hmem
    | some r =>
      by_cases hpin : 0 < (s.nodes e.2.2).refCount
      · exact .inl ⟨hpin, if_pos hpin⟩
      · exact .inr ⟨Nat.eq_zero_of_not_pos hpin, r.1, r.2, findParent_edge hparent, if_neg hpin⟩
  | none =>
    have hstale : ∀ e ∈ s.lruHeap, s.live e = false := fun e he => by simpa using List.find?_eq_none.1 hfind e he
    rw [popLruLeaf_none hfind]
    have hcand : s.candidate = s.findLruLeaf.map (fun r => r.2.2) := by rw [candidate, hfind]
    cases hleaf : s.findLruLeaf with
    | none => exact .inl ⟨by rw [hcand, hleaf]; rfl, hstale, rfl⟩
    | some r =>
      obtain ⟨parent, edgeKey, n⟩ := r
      obtain ⟨hvalue, hplace⟩ := findLruLeaf_some hleaf
      have hn : s.candidate = some n := by rw [hcand, hleaf]; rfl
      refine .inr ⟨n, [], hn, .scanned hstale hvalue, ?_⟩
      by_cases hpin : 0 < (s.nodes n).refCount
      · exact .inl ⟨hpin, if_pos hpin⟩
      · have hzero := Nat.eq_zero_of_not_pos hpin
        obtain ⟨parent, rfl, hedge⟩ := hplace.resolve_left (hsafe.victim n hn hzero).1
        exact .inr ⟨hzero, parent, edgeKey, hedge, if_neg hpin⟩

theorem Sound.withHeap (hs : s.Sound) (heap : List HeapTuple) : Sound { s with lruHeap := heap } :=
  ⟨hs.branching, hs.nodup, hs.known, hs.fresh, hs.held⟩

theorem evict_nodes (s : Cache V) (parent : Nat) (edgeKey : Text) (n m : Nat) :
    (s.evict parent edgeKey n).nodes m =
      if m = n then { s.nodes n with value := none, heapSeq := -1 } else s.nodes m := by
  by_cases hm : m = n
  · subst hm
    simp [Cache.evict, modifyNode]
  · simp [Cache.evict, modifyNode, hm]

/-- An eviction takes away one key. -/
theorem Sound.evict (hs : s.Sound) (hedge : (parent, edgeKey, n) ∈ s.tree.edges s.root) (hout : s.Outermost n) :
    (s.evict parent edgeKey n).Sound ∧ (∀ e ∈ (s.evict parent edgeKey n).tree.entries, e ∈ s.tree.entries) ∧
      ∃ p, (p, n) ∈ s.tree.entries ∧
        ∀ k, (s.evict parent edgeKey n).read k = if k = p then none else s.read k := by
  obtain ⟨q, hq, hend⟩ := ends_of_edge hedge
  have hnodes := s.evict_nodes parent edgeKey n
  have hbelow : ∀ p m, (p, m) ∈ s.tree.entries → q ++ edgeKey <+: p →
      m = n ∨ s.vacant m = true := by
    intro p m hp hpre
    by_cases hm : m = n
    · exact .inl hm
    · exact .inr (hout _ _ m hend hp hpre hm)
  obtain ⟨hsound, htree, hread⟩ := hs.detach hedge hq (t := s.evict parent edgeKey n) rfl rfl rfl
    (fun m hm => by rw [hnodes, if_neg]; rintro rfl; exact hm _ hend List.prefix_rfl)
    (fun p m hp hpre => by
      rw [vacant_iff, hnodes]
      rcases hbelow p m hp hpre with rfl | hm
      · rw [if_pos rfl]
      · split
        · rfl
        · exact vacant_iff.1 hm)
  refine ⟨hsound, htree, q ++ edgeKey, hend, fun k => ?_⟩
  rw [hread]
  by_cases hk : k = q ++ edgeKey
  · rw [if_pos hk, if_pos (hk ▸ List.prefix_rfl)]
  rw [if_neg hk]
  split
  · next hpre =>
    cases hr : s.read k with
    | none => rfl
    | some v =>
      obtain ⟨m, hm, hv⟩ := hs.read_iff.1 hr
      have hm' : (k, m) ∈ s.tree.entries := by
        refine (mem_rooted.1 hm).resolve_left (fun he => ?_)
        rw [he.1, List.prefix_nil] at hpre
        exact (hs.branching.start hend).1 hpre
      rcases hbelow k m hm' hpre with rfl | hvac
      · exact absurd (word_unique hs.nodup hm (mem_rooted.2 (.inr hend))) hk
      · rw [vacant_iff.1 hvac] at hv
        cases hv
  · rfl

/-- From `k` skips in a row to `j`, through rounds that evict these nodes. -/
inductive Rounds (full : Cache V → Bool) : Nat → Cache V → List Nat → Nat → Cache V → Prop
  | refl (k : Nat) (s : Cache V) : Rounds full k s [] k s
  | skip {k s s' gone j t} (h : s.evictRound full k = .ok (s', .skipped)) (hr : Rounds full (k + 1) s' gone j t) :
      Rounds full k s gone j t
  | evict {k s s' n gone j t} (h : s.evictRound full k = .ok (s', .evicted n)) (hr : Rounds full 0 s' gone j t) :
      Rounds full k s (n :: gone) j t

/-- No pop of the loop does harm. -/
def Spares (full : Cache V → Bool) (k : Nat) (s : Cache V) : Prop :=
  ∀ gone j t, Rounds full k s gone j t → Pops full j t → t.Harmless

theorem Spares.here (h : Spares full k s) (hp : Pops full k s) : s.Harmless :=
  h [] k s (.refl k s) hp

def roundsLeft (k : Nat) (s : Cache V) : Nat :=
  s.lruHeap.length + s.stats.leafCount.toNat * (s.stats.leafCount.toNat + 1) - k

theorem Taken.length_lt (h : s.Taken n heap) (hp : Pops full k s) :
    roundsLeft (k + 1) { s with lruHeap := heap } < roundsLeft k s := by
  have hk : k < s.stats.leafCount.toNat := by have := hp.2.2; omega
  have hmul : s.stats.leafCount.toNat ≤ s.stats.leafCount.toNat * (s.stats.leafCount.toNat + 1) :=
    Nat.le_mul_of_pos_right _ (Nat.succ_pos _)
  have hle : heap.length ≤ s.lruHeap.length := by
    cases h with
    | popped heap _ _ _ => rw [heap, List.length_append, List.length_cons]; omega
    | scanned _ _ => exact Nat.zero_le _
  simp only [roundsLeft]
  omega

theorem Taken.evict_lt (h : s.Taken n heap) (hp : Pops full k s) (parent : Nat)
    (edgeKey : Text) :
    roundsLeft 0 ({ s with lruHeap := heap }.evict parent edgeKey n) < roundsLeft k s := by
  obtain ⟨L, hL⟩ : ∃ L : Nat, s.stats.leafCount = L + 1 := ⟨(s.stats.leafCount - 1).toNat, by have := hp.2.1; omega⟩
  have hk : k < L + 1 := by have := hp.2.2; omega
  have hle : heap.length ≤ s.lruHeap.length := by
    cases h with
    | popped heap _ _ _ => rw [heap, List.length_append, List.length_cons]; omega
    | scanned _ _ => exact Nat.zero_le _
  have hnew : ({ s with lruHeap := heap }.evict parent edgeKey n).stats.leafCount.toNat = L := by
    simp [Cache.evict, modifyNode, hL]
  have hold : s.stats.leafCount.toNat = L + 1 := by omega
  have hheap : ({ s with lruHeap := heap }.evict parent edgeKey n).lruHeap = heap := rfl
  simp only [roundsLeft, hnew, hold, hheap]
  have : (L + 1) * (L + 1 + 1) = L * (L + 1) + 2 * (L + 1) := by ring
  omega

/-- The loop ends, with a round that breaks off, and raises nothing. -/
theorem Sound.evictLoop_ends (hs : s.Sound) (hsp : Spares full k s) (hfuel : roundsLeft k s < fuel) :
    ∃ gone j t t', Rounds full k s gone j t ∧ t.evictRound full j = .ok (t', .over) ∧
      evictLoop full fuel k s = .ok (t', gone) := by
  induction fuel generalizing k s with
  | zero => omega
  | succ fuel ih =>
    have hover : ∀ s', s.evictRound full k = .ok (s', .over) → ∃ gone j t t', Rounds full k s gone j t ∧
        t.evictRound full j = .ok (t', .over) ∧ evictLoop full (fuel + 1) k s = .ok (t', gone) := by
      intro s' h
      exact ⟨[], k, s, s', .refl k s, h, by rw [evictLoop, h]⟩
    by_cases hp : Pops full k s
    · rcases hs.evictRound_pops hp (hsp.here hp) with
        ⟨-, -, h⟩ | ⟨n, heap, hcand, htaken, ⟨-, h⟩ | ⟨hzero, parent, edgeKey, hedge, h⟩⟩
      · exact hover _ h
      · have hlt := htaken.length_lt hp
        obtain ⟨gone, j, t, t', hr, hend, hloop⟩ := ih (hs.withHeap heap)
          (fun gone j t hr => hsp gone j t (.skip h hr)) (by omega)
        exact ⟨gone, j, t, t', .skip h hr, hend, by rw [evictLoop, h]; exact hloop⟩
      · have hout := ((hsp.here hp).victim n hcand hzero).2
        have hsound := ((hs.withHeap heap).evict hedge hout).1
        have hlt := htaken.evict_lt hp parent edgeKey
        obtain ⟨gone, j, t, t', hr, hend, hloop⟩ := ih hsound
          (fun gone j t hr => hsp (n :: gone) j t (.evict h hr)) (by omega)
        exact ⟨n :: gone, j, t, t', .evict h hr, hend, by rw [evictLoop, h]; simp only [hloop]; rfl⟩
    · exact hover s (evictRound_over hp)

theorem Sound.of_skipped {s' : Cache V} (hs : s.Sound) (hsafe : Pops full k s → s.Harmless)
    (h : s.evictRound full k = .ok (s', .skipped)) :
    Pops full k s ∧ ∃ n heap, s.Taken n heap ∧ 0 < (s.nodes n).refCount ∧ s' = { s with lruHeap := heap } := by
  by_cases hp : Pops full k s
  · refine ⟨hp, ?_⟩
    rcases hs.evictRound_pops hp (hsafe hp) with ⟨-, -, he⟩ | ⟨n, heap, -, ht, ⟨hpin, he⟩ | ⟨-, parent, edgeKey, -, he⟩⟩
    · rw [he] at h; cases h
    · rw [he] at h; cases h
      exact ⟨n, heap, ht, hpin, rfl⟩
    · rw [he] at h; cases h
  · rw [evictRound_over hp] at h; cases h

theorem Sound.of_evicted {s' : Cache V} (hs : s.Sound) (hsafe : Pops full k s → s.Harmless)
    (h : s.evictRound full k = .ok (s', .evicted n)) :
    Pops full k s ∧ s.candidate = some n ∧ ∃ heap, s.Taken n heap ∧ (s.nodes n).refCount = 0 ∧
      ∃ parent edgeKey, (parent, edgeKey, n) ∈ s.tree.edges s.root ∧
        s' = { s with lruHeap := heap }.evict parent edgeKey n := by
  by_cases hp : Pops full k s
  · refine ⟨hp, ?_⟩
    rcases hs.evictRound_pops hp (hsafe hp) with ⟨-, -, he⟩ | ⟨n', heap, hc, ht, ⟨-, he⟩ | ⟨hz, parent, edgeKey, hedge, he⟩⟩
    · rw [he] at h; cases h
    · rw [he] at h; cases h
    · rw [he] at h; cases h
      exact ⟨hc, heap, ht, hz, parent, edgeKey, hedge, rfl⟩
  · rw [evictRound_over hp] at h; cases h

theorem Taken.occupied (h : s.Taken n heap) : s.vacant n = false := by
  cases h with
  | popped _ _ hlive hnode =>
    rw [live, Bool.and_eq_true] at hlive
    simpa [vacant, hnode] using hlive.1
  | scanned _ hvalue => exact hvalue

structure Thinned (s : Cache V) (gone : List Nat) (t : Cache V) : Prop where
  sound : t.Sound
  root : t.root = s.root
  tree : ∀ e ∈ t.tree.entries, e ∈ s.tree.entries
  nodes : ∀ n, t.vacant n = false → t.nodes n = s.nodes n
  evicted : ∀ n ∈ gone, s.vacant n = false ∧ n ∈ s.tree.nodes
  read : ∀ key, t.read key = if key ∈ gone.filterMap s.keyOf then none else s.read key

theorem Thinned.keyOf (h : Thinned s gone t) (hs : s.Sound) (hn : n ∈ t.tree.nodes) : t.keyOf n = s.keyOf n := by
  obtain ⟨p, hp⟩ := mem_nodes.1 hn
  rw [h.sound.keyOf_eq (mem_rooted.2 (.inr hp)), hs.keyOf_eq (mem_rooted.2 (.inr (h.tree _ hp)))]

theorem Thinned.trans {gone' : List Nat} {u : Cache V} (h : Thinned s gone t) (h' : Thinned t gone' u) (hs : s.Sound) :
    Thinned s (gone ++ gone') u := by
  refine ⟨h'.sound, h'.root.trans h.root, fun e he => h.tree e (h'.tree e he), ?_, ?_, ?_⟩
  · intro n hn
    have hsame := h'.nodes n hn
    rw [hsame, h.nodes n (by rwa [vacant, ← hsame])]
  · intro n hn
    rcases List.mem_append.1 hn with hn | hn
    · exact h.evicted n hn
    · obtain ⟨hv, hmem⟩ := h'.evicted n hn
      obtain ⟨p, hp⟩ := mem_nodes.1 hmem
      exact ⟨by rwa [vacant, ← h.nodes n hv], mem_nodes.2 ⟨p, h.tree _ hp⟩⟩
  · intro key
    have hkeys : gone'.filterMap t.keyOf = gone'.filterMap s.keyOf :=
      List.filterMap_congr (fun n hn => h.keyOf hs (h'.evicted n hn).2)
    rw [h'.read, h.read, hkeys, List.filterMap_append]
    simp only [List.mem_append]
    by_cases h₁ : key ∈ gone'.filterMap s.keyOf <;> by_cases h₂ : key ∈ gone.filterMap s.keyOf <;> simp [h₁, h₂]

theorem Sound.thinned_evict (hs : s.Sound) (hedge : (parent, edgeKey, n) ∈ s.tree.edges s.root)
    (hout : s.Outermost n) (hv : s.vacant n = false) : Thinned s [n] (s.evict parent edgeKey n) := by
  obtain ⟨hsound, htree, p, hp, hread⟩ := hs.evict hedge hout
  refine ⟨hsound, rfl, htree, ?_, ?_, ?_⟩
  · intro m hm
    rw [evict_nodes, if_neg]
    rintro rfl
    rw [vacant, evict_nodes, if_pos rfl] at hm
    cases hm
  · intro m hm
    rw [List.mem_singleton.1 hm]
    exact ⟨hv, mem_nodes.2 ⟨p, hp⟩⟩
  · intro key
    rw [hread]
    have hkey : s.keyOf n = some p := hs.keyOf_eq (mem_rooted.2 (.inr hp))
    simp [hkey]

theorem Rounds.thinned (hr : Rounds full k s gone j t) (hs : s.Sound) (hsp : Spares full k s) : Thinned s gone t := by
  induction hr with
  | refl k s => exact ⟨hs, rfl, fun _ he => he, fun _ _ => rfl, by simp, by simp⟩
  | skip h hr ih =>
    obtain ⟨-, n, heap, -, -, rfl⟩ := hs.of_skipped hsp.here h
    have ht := ih (hs.withHeap heap) (fun gone j t hr => hsp gone j t (.skip h hr))
    exact ⟨ht.sound, ht.root, ht.tree, ht.nodes, ht.evicted, ht.read⟩
  | @evict k s s' n gone j t h hr ih =>
    obtain ⟨hp, hcand, heap, htaken, hzero, parent, edgeKey, hedge, rfl⟩ := hs.of_evicted hsp.here h
    have hout := ((hsp.here hp).victim n hcand hzero).2
    have hone := (hs.withHeap heap).thinned_evict hedge hout htaken.occupied
    have ht := ih hone.sound (fun gone j t hr => hsp (n :: gone) j t (.evict h hr))
    have hall := hone.trans ht (hs.withHeap heap)
    exact ⟨hall.sound, hall.root, hall.tree, hall.nodes, hall.evicted, hall.read⟩

end Cache

end FusionMlx.DiffusionRadixCache
