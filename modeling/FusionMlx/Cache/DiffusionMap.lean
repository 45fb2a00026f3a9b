import FusionMlx.Cache.DiffusionEviction
import Mathlib.Data.Set.Card

/-!
# The radix cache is a bounded map

Over calls whose evictions do no harm the cache is a map from prompts to
values: a key answers with what was last stored under it, until it is evicted
itself or a prefix of it is dropped.
-/
namespace FusionMlx.DiffusionRadixCache

open EdgeTree.Branches
open JsonText (Text)

variable {V : Type}

/-- One call of the map. `put` may give up keys it holds; dropping the empty prefix drops nothing. -/
inductive MapStep (m : Text → Option V) : Op V → Out V → (Text → Option V) → Prop
  | get (now : Nat) (key : Text) : MapStep m (.get now key) (.value (m key)) m
  | put (now : Nat) (key : Text) (value : Option V) (sizeBytes : Nat) {keys : List Text}
      (hkeys : ∀ k ∈ keys, (Function.update m key value k).isSome) :
      MapStep m (.put now key value sizeBytes) (.evicted keys)
        (fun k => if k ∈ keys then none else Function.update m key value k)
  | pin (key : Text) : MapStep m (.pin key) (.done (m key).isSome) m
  | unpin (key : Text) (b : Bool) : MapStep m (.unpin key) (.done b) m
  | drop {p : Text} (hp : p ≠ []) :
      MapStep m (.dropPrefix p) (.freed {k | (m k).isSome ∧ p <+: k}.ncard) (fun k => if p <+: k then none else m k)
  | dropNothing : MapStep m (.dropPrefix []) (.freed 0) m
  | clear : MapStep m .clear (.done true) (fun _ => none)

/-- What a sequence of calls returns, and the map behind it. -/
inductive Follows : (Text → Option V) → List (Op V) → List (Out V) → (Text → Option V) → Prop
  | nil (m : Text → Option V) : Follows m [] [] m
  | cons {m m' m'' op out ops outs} (h : MapStep m op out m') (hr : Follows m' ops outs m'') :
      Follows m (op :: ops) (out :: outs) m''

namespace Cache

variable {s t : Cache V} {key p q edgeKey : Text} {m n parent k : Nat} {v : V} {full : Cache V → Bool} {gone : List Nat}

theorem Sound.same (hs : s.Sound) (hroot : t.root = s.root) (htree : t.tree = s.tree) (hnext : t.nextNode = s.nextNode)
    (hvalue : ∀ m, (t.nodes m).value = (s.nodes m).value) (hfresh : ∀ m, s.nextNode ≤ m → t.nodes m = s.nodes m) :
    t.Sound ∧ t.read = s.read := by
  refine ⟨⟨htree ▸ hs.branching, by rw [hroot, htree]; exact hs.nodup, ?_, ?_, ?_⟩, ?_⟩
  · rw [hroot, htree, hnext]
    exact hs.known
  · intro m hm
    rw [hnext] at hm
    rw [hfresh m hm, hs.fresh m hm]
  · intro m hm
    rw [hroot, htree]
    exact hs.held m (by rwa [vacant, ← hvalue])
  · funext key
    simp only [read, find, hroot, htree, hvalue]

theorem nodes_modifyNode (s : Cache V) (n : Nat) (f : RadixNode V → RadixNode V) (m : Nat) :
    (s.modifyNode n f).nodes m = if m = n then f (s.nodes n) else s.nodes m := by
  by_cases hm : m = n
  · subst hm
    simp [modifyNode]
  · simp [modifyNode, hm]

theorem nodes_touch (s : Cache V) (n m : Nat) :
    (s.touch n).nodes m = if m = n then { s.nodes n with heapSeq := s.heapSeq + 1 } else s.nodes m := by
  by_cases hm : m = n
  · subst hm
    simp [touch, modifyNode]
  · simp [touch, modifyNode, hm]

theorem Sound.modify (hs : s.Sound) (hn : n < s.nextNode) {f : RadixNode V → RadixNode V}
    (hf : ∀ r, (f r).value = r.value) : (s.modifyNode n f).Sound ∧ (s.modifyNode n f).read = s.read := by
  refine hs.same rfl rfl rfl (fun m => ?_) (fun m hm => ?_)
  · rw [nodes_modifyNode]
    split
    · next h => rw [hf, h]
    · rfl
  · rw [nodes_modifyNode, if_neg (by omega)]

theorem Sound.find_known (hs : s.Sound) (h : s.find key = some n) : n < s.nextNode := by
  refine hs.known n ?_
  rw [← rooted_nodes]
  exact List.mem_map_of_mem (hs.find_iff.1 h)

/-- A hit reads and stamps. -/
theorem Sound.get (hs : s.Sound) (now : Nat) (key : Text) :
    (s.get now key).1.Sound ∧ (s.get now key).1.read = s.read ∧ (s.get now key).2 = s.read key := by
  have hread : ∀ n, s.find key = some n → s.read key = (s.nodes n).value := by
    intro n hn
    rw [read, hn]
    rfl
  have hclock : Sound { s with clock := now } := ⟨hs.branching, hs.nodup, hs.known, hs.fresh, hs.held⟩
  rw [Cache.get]
  have hfind : find { s with clock := now } key = s.find key := rfl
  simp only [hfind]
  cases hf : s.find key with
  | none => exact ⟨⟨hs.branching, hs.nodup, hs.known, hs.fresh, hs.held⟩, rfl, by simp [read, hf]⟩
  | some n =>
    rw [hread n hf]
    dsimp only
    cases hv : (s.nodes n).value with
    | none => exact ⟨⟨hs.branching, hs.nodup, hs.known, hs.fresh, hs.held⟩, rfl, rfl⟩
    | some v =>
      obtain ⟨h₁, h₂⟩ := hclock.modify (hs.find_known hf) (f := fun r => { r with lastAccess := now }) (fun _ => rfl)
      have htouch := h₁.same (t := ((modifyNode { s with clock := now } n (fun r => { r with lastAccess := now })).touch n))
        rfl rfl rfl (fun m => by rw [nodes_touch]; split <;> simp_all) (fun m hm => by
          rw [nodes_touch, if_neg]
          have : n < s.nextNode := hs.find_known hf
          have hm' : s.nextNode ≤ m := hm
          omega)
      refine ⟨⟨htouch.1.branching, htouch.1.nodup, htouch.1.known, htouch.1.fresh, htouch.1.held⟩, ?_, rfl⟩
      exact htouch.2.trans h₂

theorem Sound.pin (hs : s.Sound) (key : Text) :
    (s.pin key).1.Sound ∧ (s.pin key).1.read = s.read ∧ (s.pin key).2 = (s.read key).isSome := by
  rw [Cache.pin]
  cases hf : s.find key with
  | none => exact ⟨hs, rfl, by simp [read, hf]⟩
  | some n =>
    have hread : s.read key = (s.nodes n).value := by rw [read, hf]; rfl
    rw [hread]
    dsimp only
    split
    · next h =>
      obtain ⟨h₁, h₂⟩ := hs.modify (hs.find_known hf) (f := fun r => { r with refCount := r.refCount + 1 }) (fun _ => rfl)
      exact ⟨h₁, h₂, h.symm⟩
    · next h => exact ⟨hs, rfl, by simpa using h⟩

theorem Sound.unpin (hs : s.Sound) (key : Text) : (s.unpin key).1.Sound ∧ (s.unpin key).1.read = s.read := by
  rw [Cache.unpin]
  cases hf : s.find key with
  | none => exact ⟨hs, rfl⟩
  | some n =>
    dsimp only
    split
    · exact hs.modify (hs.find_known hf) (f := fun r => { r with refCount := r.refCount - 1 }) (fun _ => rfl)
    · exact ⟨hs, rfl⟩

theorem nodes_insert (s : Cache V) (now : Nat) (key : Text) (value : Option V) (sizeBytes m : Nat) :
    (s.insert now key value sizeBytes).nodes m =
      if m = (walkOrCreate s.root s.nextNode s.tree key).2.1 then
        { s.nodes m with value, sizeBytes, lastAccess := now, heapSeq := s.heapSeq + 1 }
      else s.nodes m := by
  rw [insert]
  dsimp only
  split
  all_goals
    rw [nodes_touch]
    simp only [nodes_modifyNode]
    by_cases hm : m = (walkOrCreate s.root s.nextNode s.tree key).2.1
    · simp [hm, modifyNode]
    · simp [hm]

/-- `put` stores the value under its key, before any eviction. -/
theorem Sound.insert (hs : s.Sound) (now : Nat) (key : Text) (value : Option V) (sizeBytes : Nat) :
    (s.insert now key value sizeBytes).Sound ∧
      (s.insert now key value sizeBytes).read = Function.update s.read key value := by
  have hmade := walkOrCreate_created hs.branching key s.root s.nextNode
  have hnodes := s.nodes_insert now key value sizeBytes
  have hroot : (s.insert now key value sizeBytes).root = s.root := by
    rw [Cache.insert]; dsimp only; split <;> rfl
  have htree : (s.insert now key value sizeBytes).tree = (walkOrCreate s.root s.nextNode s.tree key).1 := by
    rw [Cache.insert]; dsimp only; split <;> rfl
  have hnext : (s.insert now key value sizeBytes).nextNode = (walkOrCreate s.root s.nextNode s.tree key).2.2 := by
    rw [Cache.insert]; dsimp only; split <;> rfl
  generalize s.insert now key value sizeBytes = t at hnodes hroot htree hnext ⊢
  generalize walkOrCreate s.root s.nextNode s.tree key = r at hmade hnodes htree hnext
  obtain ⟨hbranch, hleads, -, new, hperm, hnew, hrange⟩ := hmade
  have hfreshly : ∀ p m, (p, m) ∈ new → s.nextNode ≤ m ∧ m < r.2.2 := by
    intro p m hp
    have := List.mem_map_of_mem (f := Prod.snd) hp
    rw [hnew, List.mem_range'_1] at this
    omega
  have hold : ∀ p m, (p, m) ∈ s.tree.rooted s.root → (p, m) ∈ t.tree.rooted t.root := by
    intro p m hp
    rw [hroot, htree]
    exact mem_rooted.2 ((mem_rooted.1 hp).imp_right (fun h => hperm.mem_iff.2 (List.mem_append_right _ h)))
  have hsplit : ∀ p m, (p, m) ∈ t.tree.rooted t.root → (p, m) ∈ new ∨ (p, m) ∈ s.tree.rooted s.root := by
    intro p m hp
    rw [hroot, htree] at hp
    rcases mem_rooted.1 hp with h | h
    · exact .inr (mem_rooted.2 (.inl h))
    · exact (List.mem_append.1 (hperm.mem_iff.1 h)).imp_right (fun h => mem_rooted.2 (.inr h))
  have hknown : ∀ p m, (p, m) ∈ t.tree.rooted t.root → m < t.nextNode := by
    intro p m hp
    rw [hnext]
    rcases hsplit p m hp with h | h
    · exact (hfreshly p m h).2
    · have := hs.known m (by rw [← rooted_nodes]; exact List.mem_map_of_mem h)
      omega
  have hn : (key, r.2.1) ∈ t.tree.rooted t.root := by rw [hroot, htree]; exact hleads
  have hsound : t.Sound := by
    refine ⟨htree ▸ hbranch, ?_, fun m hm => ?_, fun m hm => ?_, fun m hm => ?_⟩
    · have hcount := ((hperm.map Prod.snd).cons s.root).nodup_iff
      rw [List.map_append, hnew] at hcount
      rw [hroot, htree]
      refine hcount.2 (List.nodup_cons.2 ⟨?_, List.nodup_append.2 ⟨List.nodup_range' .., ?_, ?_⟩⟩)
      · intro hin
        rcases List.mem_append.1 hin with h | h
        · have := hs.known _ (List.mem_cons_self ..)
          rw [List.mem_range'_1] at h
          omega
        · exact (List.nodup_cons.1 hs.nodup).1 h
      · exact (List.nodup_cons.1 hs.nodup).2
      · rintro a ha b hb rfl
        rw [List.mem_range'_1] at ha
        have := hs.known a (List.mem_cons_of_mem _ hb)
        omega
    · obtain ⟨p, hp⟩ := Sound.word_of hm
      exact hknown p m hp
    · have hlt := hknown _ _ hn
      rw [hnodes, if_neg (by omega)]
      exact hs.fresh m (by omega)
    · rw [← rooted_nodes]
      by_cases hmn : m = r.2.1
      · exact hmn ▸ List.mem_map_of_mem hn
      · rw [vacant, hnodes, if_neg hmn] at hm
        obtain ⟨p, hp⟩ := Sound.word_of (hs.held m hm)
        exact List.mem_map_of_mem (hold p m hp)
  refine ⟨hsound, funext (fun p => ?_)⟩
  by_cases hp : p = key
  · subst hp
    rw [Function.update_self, hsound.read_entry hn, hnodes, if_pos rfl]
  rw [Function.update_of_ne hp]
  have hne : ∀ m, (p, m) ∈ t.tree.rooted t.root → m ≠ r.2.1 := by
    rintro m hm rfl
    exact hp (word_unique hsound.nodup hm hn)
  refine Option.ext (fun v => ?_)
  rw [hsound.read_iff, hs.read_iff]
  constructor
  · rintro ⟨m, hm, hv⟩
    rw [hnodes, if_neg (hne m hm)] at hv
    rcases hsplit p m hm with h | h
    · rw [hs.fresh m (hfreshly p m h).1] at hv
      cases hv
    · exact ⟨m, h, hv⟩
  · rintro ⟨m, hm, hv⟩
    exact ⟨m, hold p m hm, by rw [hnodes, if_neg (hne m (hold p m hm))]; exact hv⟩

theorem Thinned.withHeap (h : Thinned s gone t) (heap : List HeapTuple) : Thinned s gone { t with lruHeap := heap } :=
  ⟨h.sound.withHeap heap, h.root, h.tree, h.nodes, h.evicted, h.read⟩

theorem over_cases {t' : Cache V} (ht : t.Sound) (hsafe : Pops full k t → t.Harmless)
    (h : t.evictRound full k = .ok (t', .over)) : (¬ Pops full k t ∧ t' = t) ∨
      (Pops full k t ∧ (∀ e ∈ t.lruHeap, t.live e = false) ∧
      t' = { t with lruHeap := [] }) := by
  by_cases hp : Pops full k t
  · rcases ht.evictRound_pops hp (hsafe hp) with ⟨-, hstale, he⟩ | ⟨n, heap, -, -, ⟨-, he⟩ | ⟨-, parent, edgeKey, -, he⟩⟩
    · rw [he] at h; cases h
      exact .inr ⟨hp, hstale, rfl⟩
    · rw [he] at h; cases h
    · rw [he] at h; cases h
  · rw [evictRound_over hp] at h; cases h
    exact .inl ⟨hp, rfl⟩

theorem Sound.evictLoop (hs : s.Sound) (hsp : Spares full 0 s) :
    ∃ t gone, Cache.evictLoop full s.rounds 0 s = .ok (t, gone) ∧ Thinned s gone t := by
  obtain ⟨gone, j, t, t', hr, hend, hloop⟩ := hs.evictLoop_ends hsp (Nat.lt_succ_of_le (Nat.sub_le ..))
  have hthin := hr.thinned hs hsp
  refine ⟨t', gone, hloop, ?_⟩
  rcases over_cases hthin.sound (fun hp => hsp gone j t hr hp) hend with ⟨-, rfl⟩ | ⟨-, -, rfl⟩
  · exact hthin
  · exact hthin.withHeap _

theorem Thinned.maybeCompact (h : Thinned s gone t) : Thinned s gone t.maybeCompact := by
  rw [Cache.maybeCompact]
  dsimp only
  split
  all_goals
    exact ⟨⟨h.sound.branching, h.sound.nodup, h.sound.known, h.sound.fresh, h.sound.held⟩,
      h.root, h.tree, h.nodes, h.evicted, h.read⟩

def SparesCall (s : Cache V) : Op V → Prop
  | .put now key value sizeBytes =>
    Spares overBytes 0 (s.insert now key value sizeBytes) ∧
      ∀ t gone, (s.insert now key value sizeBytes).evictIfNeeded = .ok (t, gone) →
        t.maybeCompact.overNodes = true → Spares overNodes 0 t.maybeCompact
  | _ => True

theorem Sound.put (hs : s.Sound) {now sizeBytes : Nat} {value : Option V}
    (hsp : SparesCall s (.put now key value sizeBytes)) :
    ∃ t gone, s.put now key value sizeBytes = .ok (t, gone) ∧ Thinned (s.insert now key value sizeBytes) gone t := by
  have hin := (hs.insert now key value sizeBytes).1
  obtain ⟨t, gone, hloop, hthin⟩ := hin.evictLoop hsp.1
  have hcompact := hthin.maybeCompact
  rw [Cache.put, evictIfNeeded, hloop]
  dsimp only
  split
  · next hfull =>
    obtain ⟨u, gone', hloop', hthin'⟩ := hcompact.sound.evictLoop (hsp.2 t gone hloop hfull)
    exact ⟨u, gone ++ gone', by rw [evictToNodeCap, hloop']; rfl, hcompact.trans hthin' hin⟩
  · exact ⟨_, gone, rfl, hcompact⟩

theorem pruneOne_nodes (s : Cache V) (n m : Nat) :
    (s.pruneOne n).nodes m =
      if m = n ∧ s.vacant n = false then { s.nodes m with value := none, heapSeq := -1 } else s.nodes m := by
  rw [pruneOne]
  split
  · next hv =>
    rw [nodes_modifyNode]
    by_cases hm : m = n
    · subst hm
      simp [vacant, Option.isNone_eq_false_iff.2 hv]
    · simp [hm]
  · next hv => rw [if_neg]; simpa [vacant] using fun _ => hv

/-- What `_prune_subtree` leaves alone. -/
theorem foldl_pruneOne (ns : List Nat) (s : Cache V) :
    (ns.foldl pruneOne s).tree = s.tree ∧ (ns.foldl pruneOne s).root = s.root ∧
      (ns.foldl pruneOne s).nextNode = s.nextNode ∧ (∀ m, m ∉ ns → (ns.foldl pruneOne s).nodes m = s.nodes m) ∧
      ∀ m, m ∈ ns ∨ s.vacant m = true → (ns.foldl pruneOne s).vacant m = true := by
  induction ns generalizing s with
  | nil => exact ⟨rfl, rfl, rfl, fun _ _ => rfl, fun m hm => hm.resolve_left List.not_mem_nil⟩
  | cons n ns ih =>
    obtain ⟨htree, hroot, hnext, hout, hin⟩ := ih (s.pruneOne n)
    have hkeep : (s.pruneOne n).tree = s.tree ∧ (s.pruneOne n).root = s.root ∧ (s.pruneOne n).nextNode = s.nextNode := by
      rw [pruneOne]
      split <;> exact ⟨rfl, rfl, rfl⟩
    refine ⟨htree.trans hkeep.1, hroot.trans hkeep.2.1, hnext.trans hkeep.2.2, fun m hm => ?_, fun m hm => hin m ?_⟩
    · rw [List.mem_cons, not_or] at hm
      exact (hout m hm.2).trans (by rw [pruneOne_nodes, if_neg (fun h => hm.1 h.1)])
    · have hvac : m = n ∨ s.vacant m = true → (s.pruneOne n).vacant m = true := by
        intro h
        rw [vacant_iff, pruneOne_nodes]
        split
        · rfl
        · next hno =>
          rcases h with rfl | h
          · simpa [vacant] using hno
          · exact vacant_iff.1 h
      rcases hm with hm | hm
      · exact (List.mem_cons.1 hm).elim (fun h => .inr (hvac (.inl h))) .inl
      · exact .inr (hvac (.inr hm))

/-- As many nodes as there are keys. -/
theorem Sound.ncard_keys (hs : s.Sound) {ns : List Nat} {P : Text → Prop} (hnodup : ns.Nodup)
    (hns : ∀ m, m ∈ ns ↔ ∃ p, (p, m) ∈ s.tree.rooted s.root ∧ P p) :
    {p | (s.read p).isSome ∧ P p}.ncard = (ns.filter (fun m => (s.nodes m).value.isSome)).length := by
  have hset : {p | (s.read p).isSome ∧ P p} =
      (fun m => (s.keyOf m).getD []) '' {m | m ∈ ns.filter (fun m => (s.nodes m).value.isSome)} := by
    ext p
    simp only [Set.mem_ofPred_eq, Set.mem_image, List.mem_filter]
    constructor
    · rintro ⟨hp, hP⟩
      obtain ⟨v, hv⟩ := Option.isSome_iff_exists.1 hp
      obtain ⟨m, hm, hv⟩ := hs.read_iff.1 hv
      exact ⟨m, ⟨(hns m).2 ⟨p, hm, hP⟩, by rw [hv]; rfl⟩, by rw [hs.keyOf_eq hm]; rfl⟩
    · rintro ⟨m, ⟨hm, hv⟩, rfl⟩
      obtain ⟨p, hp, hP⟩ := (hns m).1 hm
      rw [hs.keyOf_eq hp, Option.getD_some, hs.read_entry hp]
      exact ⟨hv, hP⟩
  rw [hset, Set.InjOn.ncard_image]
  · rw [← (hnodup.filter _).dedup, ← List.card_toFinset, ← Set.ncard_coe_finset]
    congr 1
  · intro a ha b hb hab
    obtain ⟨p, hp, -⟩ := (hns a).1 (List.mem_filter.1 ha).1
    obtain ⟨p', hp', -⟩ := (hns b).1 (List.mem_filter.1 hb).1
    simp only [hs.keyOf_eq hp, hs.keyOf_eq hp', Option.getD_some] at hab
    subst hab
    exact hs.branching.node_unique hp hp'

/-- `drop_prefix` removes the keys that start with the prefix, and counts them. -/
theorem Sound.dropPrefix (hs : s.Sound) (hp : p ≠ []) :
    (s.dropPrefix p).1.Sound ∧ (∀ k, (s.dropPrefix p).1.read k = if p <+: k then none else s.read k) ∧
      (s.dropPrefix p).2 = {k | (s.read k).isSome ∧ p <+: k}.ncard := by
  rw [Cache.dropPrefix, if_neg hp]
  cases hwalk : walkPrefix s.root s.tree p with
  | none =>
    have hno : ∀ k m, (k, m) ∈ s.tree.rooted s.root → ¬ p <+: k := by
      intro k m hk hpre
      rcases mem_rooted.1 hk with ⟨rfl, -⟩ | hk
      · exact hp (List.prefix_nil.1 hpre)
      · exact walkPrefix_none hs.branching hp hwalk hk hpre
    have hread : ∀ k, p <+: k → s.read k = none := by
      intro k hpre
      cases hr : s.read k with
      | none => rfl
      | some v =>
        obtain ⟨m, hm, -⟩ := hs.read_iff.1 hr
        exact absurd hpre (hno k m hm)
    refine ⟨hs, fun k => ?_, ?_⟩
    · by_cases hpre : p <+: k
      · rw [if_pos hpre]
        exact hread k hpre
      · rw [if_neg hpre]
    · have hempty : {k | (s.read k).isSome ∧ p <+: k} = ∅ := by
        ext k
        simp only [Set.mem_ofPred_eq, Set.mem_empty_iff_false, iff_false]
        rintro ⟨hk, hpre⟩
        rw [hread k hpre] at hk
        cases hk
      rw [hempty, Set.ncard_empty]
  | some r =>
    obtain ⟨n, below, parent, edgeKey⟩ := r
    obtain ⟨q, hsub⟩ := walkPrefix_some hs.branching hp hwalk
    have hedge : (parent, edgeKey, n) ∈ s.tree.edges s.root := walkPrefix_edge hwalk
    obtain ⟨htree, hroot, hnext, hout, hin⟩ := foldl_pruneOne (n :: below.nodes) s
    have hmem : ∀ k m, (k, m) ∈ s.tree.entries → (m ∈ n :: below.nodes ↔ q ++ edgeKey <+: k) := by
      intro k m hk
      rw [hsub.nodes]
      constructor
      · rintro ⟨k', hk', hpre⟩
        rwa [word_unique hs.nodup (mem_rooted.2 (.inr hk)) (mem_rooted.2 (.inr hk'))]
      · exact fun hpre => ⟨k, hk, hpre⟩
    dsimp only [pruneSubtree]
    generalize (n :: below.nodes).foldl pruneOne s = t at htree hroot hnext hout hin ⊢
    obtain ⟨hsound, -, hread⟩ := hs.detach hedge hsub.leads
      (t := { t with tree := cleanupChains t.vacant (deleteEdge parent edgeKey t.root t.tree) .nil })
      hroot hnext (by rw [← hroot, ← htree]; rfl)
      (fun m hm => hout m (fun hin => by
        obtain ⟨k, hk, hpre⟩ := (hsub.nodes m).1 hin
        exact hm k hk hpre))
      (fun k m hk hpre => hin m (.inl ((hmem k m hk).2 hpre)))
    have hsame : ∀ k m, (k, m) ∈ s.tree.rooted s.root → (p <+: k ↔ q ++ edgeKey <+: k) := by
      intro k m hk
      refine ⟨fun hpre => ?_, hsub.starts.trans⟩
      rcases mem_rooted.1 hk with ⟨rfl, -⟩ | hk
      · exact absurd (List.prefix_nil.1 hpre) hp
      · exact hsub.all k m hk hpre
    refine ⟨hsound, fun k => (hread k).trans ?_, ?_⟩
    · cases hr : s.read k with
      | none => simp
      | some v =>
        obtain ⟨m, hm, -⟩ := hs.read_iff.1 hr
        simp only [hsame k m hm]
    · refine (hs.ncard_keys (hsub.sublist.nodup (List.nodup_cons.1 hs.nodup).2) (fun m => ?_)).symm
      rw [hsub.nodes]
      constructor
      · rintro ⟨k, hk, hpre⟩
        exact ⟨k, mem_rooted.2 (.inr hk), hsub.starts.trans hpre⟩
      · rintro ⟨k, hk, hpre⟩
        refine ⟨k, (mem_rooted.1 hk).resolve_left (fun h => ?_), (hsame k m hk).1 hpre⟩
        rw [h.1] at hpre
        exact hp (List.prefix_nil.1 hpre)

theorem sound_init (maxMb maxNodes : Int) : (init maxMb maxNodes : Cache V).Sound :=
  ⟨trivial, by simp [init], by simp [init], fun _ _ => rfl, fun n h => by simp [init, vacant] at h⟩

theorem clear_sound (s : Cache V) : s.clear.Sound ∧ s.clear.read = fun _ => none := by
  have hsound : s.clear.Sound :=
    ⟨trivial, by simp [Cache.clear], by simp [Cache.clear], fun _ _ => rfl, fun n h => by simp [Cache.clear, vacant] at h⟩
  refine ⟨hsound, funext (fun k => ?_)⟩
  cases k <;> rfl

/-- No call but a harmful eviction keeps the cache from being a map. -/
theorem Sound.call (hs : s.Sound) {op : Op V} (hsp : SparesCall s op) :
    ∃ t out, s.call op = .ok (t, out) ∧ t.Sound ∧ MapStep s.read op out t.read := by
  cases op with
  | get now key =>
    obtain ⟨hsound, hread, hout⟩ := hs.get now key
    exact ⟨_, _, rfl, hsound, by rw [hread, hout]; exact .get now key⟩
  | put now key value sizeBytes =>
    obtain ⟨t, gone, hput, hthin⟩ := hs.put hsp
    obtain ⟨hin, hread⟩ := hs.insert now key value sizeBytes
    refine ⟨t, _, by rw [Cache.call, hput]; rfl, hthin.sound, ?_⟩
    have hmap : t.read = fun k => if k ∈ gone.filterMap (s.insert now key value sizeBytes).keyOf then none
        else Function.update s.read key value k := by
      funext k
      rw [hthin.read, hread]
    rw [hmap]
    refine .put now key value sizeBytes (fun k hk => ?_)
    obtain ⟨n, hn, hkey⟩ := List.mem_filterMap.1 hk
    obtain ⟨hv, hmem⟩ := hthin.evicted n hn
    obtain ⟨p, hp⟩ := mem_nodes.1 hmem
    have hp : (p, n) ∈ (s.insert now key value sizeBytes).tree.rooted (s.insert now key value sizeBytes).root :=
      mem_rooted.2 (.inr hp)
    rw [hin.keyOf_eq hp] at hkey
    cases hkey
    rw [← hread, hin.read_entry hp, Option.isSome_iff_exists]
    exact occupied_iff.1 hv
  | pin key =>
    obtain ⟨hsound, hread, hout⟩ := hs.pin key
    exact ⟨_, _, rfl, hsound, by rw [hread, hout]; exact .pin key⟩
  | unpin key =>
    obtain ⟨hsound, hread⟩ := hs.unpin key
    exact ⟨_, _, rfl, hsound, by rw [hread]; exact .unpin key _⟩
  | dropPrefix p =>
    by_cases hp : p = []
    · subst hp
      exact ⟨s, _, rfl, hs, .dropNothing⟩
    · obtain ⟨hsound, hread, hout⟩ := hs.dropPrefix hp
      exact ⟨_, _, rfl, hsound, by rw [hout, funext hread]; exact .drop hp⟩
  | clear =>
    obtain ⟨hsound, hread⟩ := s.clear_sound
    exact ⟨_, _, rfl, hsound, by rw [hread]; exact .clear⟩

/-- Every call of the sequence spares what it is not meant to evict. -/
def SparesRun : Cache V → List (Op V) → Prop
  | _, [] => True
  | s, op :: ops => SparesCall s op ∧ ∀ t out, s.call op = .ok (t, out) → SparesRun t ops

theorem Sound.run (hs : s.Sound) {ops : List (Op V)} (h : SparesRun s ops) :
    ∃ t outs, s.run ops = .ok (t, outs) ∧ Follows s.read ops outs t.read := by
  induction ops generalizing s with
  | nil => exact ⟨s, [], rfl, .nil _⟩
  | cons op ops ih =>
    obtain ⟨t, out, hcall, hsound, hstep⟩ := hs.call h.1
    obtain ⟨u, outs, hrun, hfollows⟩ := ih hsound (h.2 t out hcall)
    exact ⟨u, out :: outs, by rw [Cache.run, hcall]; simp only [hrun]; rfl, .cons hstep hfollows⟩

/-- A run without a harmful eviction raises nothing and answers like the map. -/
theorem refines_bounded_map (maxMb maxNodes : Int) (ops : List (Op V)) (h : SparesRun (init maxMb maxNodes) ops) :
    ∃ t outs, (init maxMb maxNodes).run ops = .ok (t, outs) ∧ Follows (fun _ => none) ops outs t.read := by
  have hread : (init maxMb maxNodes : Cache V).read = fun _ => none := by
    funext k
    cases k <;> rfl
  obtain ⟨t, outs, hrun, hfollows⟩ := (sound_init maxMb maxNodes).run h
  exact ⟨t, outs, hrun, hread ▸ hfollows⟩

/-- A loop that finds nothing to do spares everything. -/
theorem spares_of_idle (h : ¬ Pops full k s) : Spares full k s := by
  intro gone j t hr hp
  cases hr with
  | refl => exact absurd hp h
  | skip he _ => rw [evictRound_over h] at he; cases he
  | evict he _ => rw [evictRound_over h] at he; cases he

/-- A loop that passes over a pinned victim spares what the rest of it spares. -/
theorem spares_of_skip (hsafe : s.Harmless) (h : s.evictRound full k = .ok (t, .skipped))
    (hsp : Spares full (k + 1) t) : Spares full k s := by
  intro gone j u hr hp
  cases hr with
  | refl => exact hsafe
  | skip he hr =>
    rw [h] at he
    cases he
    exact hsp _ _ _ hr hp
  | evict he _ => rw [h] at he; cases he

theorem spares_of_evict {n : Nat} (hsafe : s.Harmless)
    (h : s.evictRound full k = .ok (t, .evicted n)) (hsp : Spares full 0 t) : Spares full k s := by
  intro gone j u hr hp
  cases hr with
  | refl => exact hsafe
  | skip he _ => rw [h] at he; cases he
  | evict he hr =>
    rw [h] at he
    cases he
    exact hsp _ _ _ hr hp

/-- A call that stays within the bounds evicts nothing. -/
theorem sparesCall_of_room {now sizeBytes : Nat} {value : Option V}
    (hbytes : (s.insert now key value sizeBytes).overBytes = false)
    (hnodes : (s.insert now key value sizeBytes).maybeCompact.overNodes = false) :
    SparesCall s (.put now key value sizeBytes) := by
  have hidle : ¬ Pops overBytes 0 (s.insert now key value sizeBytes) := by
    intro h
    exact absurd (hbytes.symm.trans h.1) Bool.false_ne_true
  refine ⟨spares_of_idle hidle, fun t gone hloop hfull => ?_⟩
  rw [evictIfNeeded, rounds, Cache.evictLoop, evictRound_over hidle] at hloop
  cases hloop
  rw [hnodes] at hfull
  cases hfull

def evictingCalls : List (Op Nat) :=
  [.put 1 ['a'] (some 5) 600000, .pin ['a'], .put 2 ['b'] (some 6) 400000,
    .put 3 ['c'] (some 7) 300000]

def besidePinned : Cache Nat :=
  (((((init 1 10).insert 1 ['a'] (some 5) 600000).maybeCompact).pin ['a']).1.insert 2 ['b']
    (some 6) 400000).maybeCompact

def crowded : Cache Nat := besidePinned.insert 3 ['c'] (some 7) 300000

def pinPassed : Cache Nat := { crowded with lruHeap := crowded.lruHeap.tail }

def relieved : Cache Nat :=
  Cache.evict { pinPassed with lruHeap := pinPassed.lruHeap.tail } 0 ['b'] 2

theorem besidePinned_spares : SparesCall besidePinned (.put 3 ['c'] (some 7) 300000) := by
  have hskip : crowded.evictRound overBytes 0 = .ok (pinPassed, .skipped) := rfl
  have hevict : pinPassed.evictRound overBytes 1 = .ok (relieved, .evicted 2) := rfl
  have hroom : ¬ Pops overBytes 0 relieved := fun h => Bool.false_ne_true h.1
  have hcrowded : crowded.Harmless := by
    refine ⟨fun e he => ?_, fun n hn hzero => ?_⟩
    · obtain rfl : (1, 1, 1) = e := Option.some.inj he
      decide
    · obtain rfl : 1 = n := Option.some.inj hn
      cases hzero
  have hpassed : pinPassed.Harmless := by
    refine ⟨fun e he => ?_, fun n hn _ => ?_⟩
    · obtain rfl : (2, 2, 2) = e := Option.some.inj he
      decide
    · obtain rfl : 2 = n := Option.some.inj hn
      have hentries : pinPassed.tree.entries = [(['a'], 1), (['b'], 2), (['c'], 3)] := rfl
      refine ⟨by decide, fun p p' m hp hp' hpre hne => ?_⟩
      rw [hentries] at hp hp'
      simp only [List.mem_cons, Prod.mk.injEq, List.not_mem_nil, or_false] at hp hp'
      rcases hp with ⟨-, h⟩ | ⟨rfl, -⟩ | ⟨-, h⟩
      · cases h
      · rcases hp' with ⟨rfl, rfl⟩ | ⟨-, h⟩ | ⟨rfl, rfl⟩
        · simp at hpre
        · exact absurd h hne
        · simp at hpre
      · cases h
  refine ⟨spares_of_skip hcrowded hskip (spares_of_evict hpassed hevict (spares_of_idle hroom)),
    fun t gone hloop hfull => ?_⟩
  obtain rfl : relieved = t := congrArg Prod.fst (Except.ok.inj hloop)
  cases hfull

theorem refines_bounded_map_evicting :
    ∃ t outs, (init 1 10).run (evictingCalls ++ [.dropPrefix ['a'], .get 4 ['c']]) = .ok (t, outs) ∧
      Follows (fun _ => none) (evictingCalls ++ [.dropPrefix ['a'], .get 4 ['c']]) outs t.read := by
  refine refines_bounded_map 1 10 _ ⟨sparesCall_of_room rfl rfl, fun t out h => ?_⟩
  cases h
  refine ⟨trivial, fun t out h => ?_⟩
  cases h
  refine ⟨sparesCall_of_room rfl rfl, fun t out h => ?_⟩
  cases h
  exact ⟨besidePinned_spares, fun _ _ _ => ⟨trivial, fun _ _ _ => ⟨trivial, fun _ _ _ => trivial⟩⟩⟩

def nestedCalls : List (Op Nat) :=
  [.put 1 ['a'] (some 5) 600000, .put 2 ['a', 'b'] (some 6) 600000, .get 3 ['a', 'b']]

theorem inner_eviction_loses_value :
    ((init 1 10).run nestedCalls).map Prod.snd = .ok [.evicted [], .evicted [['a']], .value none] ∧
      ((init 1 10).run [.put 1 ['a'] (some 5) 7, .dropPrefix [], .get 2 ['a']]).map Prod.snd =
        .ok [.evicted [], .freed 0, .value (some 5)] ∧
      ((init 1 10).run [.put 1 [] (some 5) 600000, .put 2 ['a'] (some 6) 600000]).map Prod.snd = .error .typeError := by
  refine ⟨?_, ?_, ?_⟩ <;> rfl

end Cache

end FusionMlx.DiffusionRadixCache
