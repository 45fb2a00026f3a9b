import FusionMlx.Cache.RadixCounts

/-!
# Runs of the radix index

The set of sequences that were inserted and not removed since, and the index
beside it. As long as no sequence is inserted while it is stored, the index is
that set in every reached state.
-/
namespace FusionMlx.RadixIndex

open Children RadixNode Runs

variable {n : RadixNode} {t : Int} {ts q : List Int} {idx : Index} {stored : Set (List Int)} {s : State}

/-- The walk ends with the depth of the last stored prefix. -/
theorem walk_spec (n : RadixNode) (q : List Int) (depth last : Nat) :
    (∃ k, 0 < k ∧ k ≤ q.length ∧ n.contains (q.take k) = true ∧ (n.walk q depth last).2 = depth + k ∧
      ∀ j, k < j → j ≤ q.length → n.contains (q.take j) = false) ∨
    ((n.walk q depth last).2 = last ∧ ∀ j, 0 < j → j ≤ q.length → n.contains (q.take j) = false) := by
  induction q generalizing n depth last with
  | nil =>
    refine Or.inr ⟨rfl, fun j hj hlen => ?_⟩
    simp at hlen
    omega
  | cons t q ih =>
    unfold walk
    split
    · next hget =>
      refine Or.inr ⟨rfl, fun j hj _ => ?_⟩
      obtain ⟨j, rfl⟩ := Nat.exists_eq_succ_of_ne_zero hj.ne'
      rw [List.take_succ_cons, contains_cons, hget]
      rfl
    · next child hget =>
      have hchild : ∀ j, n.contains ((t :: q).take (j + 1)) = child.contains (q.take j) := by
        intro j
        rw [List.take_succ_cons, contains_cons, hget]
        rfl
      rcases ih child (depth + 1) (if child.isTerminal then depth + 1 else last) with
        ⟨k, hk, hlen, hstored, hdepth, hafter⟩ | ⟨hdepth, hafter⟩
      · refine Or.inl ⟨k + 1, k.succ_pos, Nat.succ_le_succ hlen, by rw [hchild, hstored], by omega, ?_⟩
        intro j hj hjlen
        obtain ⟨j, rfl⟩ := Nat.exists_eq_succ_of_ne_zero (Nat.ne_of_gt (Nat.zero_lt_of_lt hj))
        rw [hchild]
        exact hafter j (Nat.lt_of_succ_lt_succ hj) (Nat.le_of_succ_le_succ hjlen)
      · cases hterminal : child.isTerminal with
        | true =>
          rw [hterminal, if_pos rfl] at hdepth
          refine Or.inl ⟨1, one_pos, by simp, by rw [hchild 0]; exact hterminal, hdepth, ?_⟩
          intro j hj hjlen
          obtain ⟨j, rfl⟩ := Nat.exists_eq_succ_of_ne_zero (Nat.ne_of_gt (Nat.zero_lt_of_lt hj))
          rw [hchild]
          exact hafter j (Nat.lt_of_succ_lt_succ hj) (Nat.le_of_succ_le_succ hjlen)
        | false =>
          rw [hterminal, if_neg Bool.false_ne_true] at hdepth
          refine Or.inr ⟨hdepth, fun j hj hjlen => ?_⟩
          obtain ⟨j, rfl⟩ := Nat.exists_eq_succ_of_ne_zero hj.ne'
          rw [hchild]
          cases j with
          | zero => exact hterminal
          | succ j => exact hafter (j + 1) j.succ_pos (Nat.le_of_succ_le_succ hjlen)

def Longest (stored : Set (List Int)) (query : List Int) : Option (List Int) → Prop
  | some key => key ∈ stored ∧ key <+: query ∧ ∀ k ∈ stored, k <+: query → k.length ≤ key.length
  | none => ∀ k ∈ stored, ¬ k <+: query

def leadsTo (e : RadixNode × List Int) : List (List Int) :=
  (if e.1.isTerminal then [e.2] else []) ++ e.1.children.paths.map (e.2 ++ ·)

theorem pushAll_perm (path : List Int) (cs : Children) (stack : List (RadixNode × List Int)) :
    ((pushAll path cs stack).flatMap leadsTo).Perm
      (cs.paths.map (path ++ ·) ++ stack.flatMap leadsTo) := by
  induction cs generalizing stack with
  | nil => simp [pushAll, paths]
  | cons t terminal refs kids rest _ ih =>
    have hnode : leadsTo (⟨terminal, refs, kids⟩, path ++ [t]) =
        ((if terminal then [[t]] else []) ++ kids.paths.map (t :: ·)).map (path ++ ·) := by
      cases terminal <;> simp [leadsTo]
    rw [pushAll, paths, List.map_append, ← hnode]
    refine (ih _).trans ?_
    rw [List.flatMap_cons, ← List.append_assoc]
    exact List.perm_append_comm.append_right _

theorem collectLoop_perm (stack : List (RadixNode × List Int)) (out : List (List Int)) :
    (collectLoop stack out).Perm (out ++ stack.flatMap leadsTo) := by
  induction stack, out using collectLoop.induct with
  | case1 out => simp [collectLoop]
  | case2 node path stack out ih =>
    rw [collectLoop]
    refine (ih.trans ((pushAll_perm path node.children stack).append_left _)).trans ?_
    rw [List.flatMap_cons, leadsTo]
    cases node.isTerminal <;> simp

theorem collectTerminalKeys_perm (hroot : idx.root.isTerminal = false) :
    idx.collectTerminalKeys.Perm idx.root.children.paths := by
  refine (collectLoop_perm _ _).trans ?_
  simp [leadsTo, hroot]

theorem keys_payload (idx : Index) : idx.payload.keys? = some idx.collectTerminalKeys := by
  have hkey : ∀ key : List Int, RawKey.tokens? (.list (key.map some)) = some key := by
    intro key
    simp [RawKey.tokens?, List.filterMap_map]
  simp [Index.payload, File.keys?, List.filterMap_map, hkey]

structure Sound (idx : Index) (stored : Set (List Int)) : Prop where
  plain : idx.root.isTerminal = false
  good : idx.root.children.Good
  holds : ∀ q, idx.root.contains q = true ↔ q ∈ stored
  nodes : idx.stats.nodeCount = idx.root.children.size
  entries : idx.stats.entryCount = entries idx.root

namespace Sound

theorem clear (idx : Index) : Sound idx.clear ∅ where
  plain := rfl
  good := trivial
  holds q := by simp [Index.clear, contains_new 0 q]
  nodes := rfl
  entries := rfl

theorem ne_nil (h : Sound idx stored) (hq : q ∈ stored) : q ≠ [] := by
  rintro rfl
  have := (h.holds []).mpr hq
  rw [contains_nil, h.plain] at this
  cases this

theorem mem_paths (h : Sound idx stored) : q ∈ idx.root.children.paths ↔ q ∈ stored := by
  rw [Children.mem_paths h.good, ← h.holds]
  constructor
  · rintro ⟨t, ts, n, rfl, hget, hn⟩
    simp [contains_cons, hget, hn]
  · intro hq
    cases q with
    | nil => exact absurd rfl (h.ne_nil ((h.holds []).mp hq))
    | cons t ts =>
      rw [contains_cons] at hq
      cases hget : idx.root.children.get t with
      | none => simp [hget] at hq
      | some n => exact ⟨t, ts, n, rfl, hget, by simpa [hget] using hq⟩

theorem insert (h : Sound idx stored) (hne : ts ≠ []) (hfresh : ts ∉ stored) :
    Sound (idx.insert ts) (Set.insert ts stored) := by
  have habsent : idx.root.contains ts = false := Bool.eq_false_iff.mpr fun hc => hfresh ((h.holds ts).mp hc)
  obtain ⟨-, -, hgood⟩ := insertLoop_good idx.root ts true h.good habsent
  rw [Index.insert, if_neg hne]
  constructor
  · rw [← h.plain]
    obtain ⟨t, us, rfl⟩ := List.exists_cons_of_ne_nil hne
    simp only [insertLoop]
    split <;> rfl
  · exact hgood
  · intro q
    simp only [insertLoop_contains, Bool.or_eq_true, h.holds q, decide_eq_true_eq]
    exact or_comm
  · simp only [insertLoop_size, h.nodes]
  · simp only [insertLoop_entries, h.entries]
    split <;> simp

theorem remove (h : Sound idx stored) (ts : List Int) : Sound (idx.remove ts).1 (stored \ {ts}) := by
  have hsame : ts ∉ stored → Sound idx (stored \ {ts}) := by
    intro hts
    rwa [Set.sdiff_singleton_eq_self hts]
  unfold Index.remove
  split
  · next hnil =>
    subst hnil
    exact hsame fun hmem => h.ne_nil hmem rfl
  · next hne =>
    split
    · next hfind => exact hsame fun hmem => by simpa [contains, hfind] using (h.holds ts).mpr hmem
    · next node hfind =>
      split
      · next hplain =>
        refine hsame fun hmem => ?_
        have hterminal : node.isTerminal = true := by simpa [contains, hfind] using (h.holds ts).mpr hmem
        simp [hterminal] at hplain
      · next hterminal =>
        have hstored : idx.root.contains ts = true := by simpa [contains, hfind] using hterminal
        have hremoved := removeLoop_removed idx.root ts h.good hstored
        constructor
        · rw [← h.plain]
          obtain ⟨t, us, rfl⟩ := List.exists_cons_of_ne_nil hne
          simp only [removeLoop]
          split
          · rfl
          · split <;> rfl
        · exact hremoved.good
        · intro q
          simp [hremoved.contains, h.holds]
        · have := hremoved.size
          have := h.nodes
          simp only
          omega
        · have := hremoved.entries
          have := h.entries
          simp only
          omega

/-- Keys that are not there yet, none of them twice. -/
theorem foldl_insert {keys : List (List Int)} (h : Sound idx stored)
    (hnodup : (keys.filter (· ≠ [])).Nodup) (hnew : ∀ k ∈ keys, k ∉ stored) :
    Sound (keys.foldl Index.insert idx) (stored ∪ {k | k ∈ keys ∧ k ≠ []}) := by
  induction keys generalizing idx stored with
  | nil => simpa using h
  | cons k keys ih =>
    rw [List.foldl_cons]
    by_cases hk : k = []
    · subst hk
      have hset : stored ∪ {x | x ∈ ([] : List Int) :: keys ∧ x ≠ []} = stored ∪ {x | x ∈ keys ∧ x ≠ []} := by
        ext x
        simp only [Set.mem_union, Set.mem_ofPred_eq, List.mem_cons]
        tauto
      rw [hset]
      exact ih h (by simpa using hnodup) fun x hx => hnew x (List.mem_cons_of_mem _ hx)
    · rw [List.filter_cons_of_pos (by simpa using hk), List.nodup_cons] at hnodup
      have hset : stored ∪ {x | x ∈ k :: keys ∧ x ≠ []} =
          Set.insert k stored ∪ {x | x ∈ keys ∧ x ≠ []} := by
        ext x
        simp only [Set.mem_union, Set.mem_ofPred_eq, List.mem_cons, Set.insert]
        constructor
        · rintro (hx | ⟨rfl | hx, hne⟩) <;> tauto
        · rintro ((rfl | hx) | hx) <;> tauto
      rw [hset]
      refine ih (h.insert hk (hnew k List.mem_cons_self)) hnodup.2 fun x hx => ?_
      rintro (rfl | hmem)
      · exact hnodup.1 (List.mem_filter.mpr ⟨hx, by simpa using hk⟩)
      · exact hnew x (List.mem_cons_of_mem _ hx) hmem

theorem rebuild {keys : List (List Int)} (idx : Index) (hnodup : (keys.filter (· ≠ [])).Nodup) :
    Sound (idx.rebuildFromKeys keys) {k | k ∈ keys ∧ k ≠ []} := by
  have := (Sound.clear idx).foldl_insert hnodup fun k _ => Set.notMem_empty k
  rwa [Set.empty_union] at this

theorem longest (h : Sound idx stored) (q : List Int) : Longest stored q (idx.longestPrefix q).2.2 := by
  have hinit : ∀ k ∈ stored, k <+: q → 0 < k.length ∧ k.length ≤ q.length ∧
      idx.root.contains (q.take k.length) = true := by
    intro k hk hkq
    rw [← List.prefix_iff_eq_take.mp hkq]
    exact ⟨List.length_pos_of_ne_nil (h.ne_nil hk), hkq.length_le, (h.holds k).mpr hk⟩
  unfold Index.longestPrefix
  rcases walk_spec idx.root q 0 0 with ⟨k, hk, hlen, hstored, hdepth, hafter⟩ | ⟨hdepth, hafter⟩
  · have hlast : (idx.root.walk q 0 0).2 = k := by omega
    simp only [hlast, hk, if_true]
    refine ⟨(h.holds _).mp hstored, List.take_prefix k q, fun k' hk' hkq => ?_⟩
    obtain ⟨-, hle, hcontains⟩ := hinit k' hk' hkq
    rw [List.length_take_of_le hlen]
    by_contra hlonger
    rw [hafter _ (Nat.lt_of_not_le hlonger) hle] at hcontains
    cases hcontains
  · simp only [hdepth, gt_iff_lt, lt_irrefl, if_false]
    intro k' hk' hkq
    obtain ⟨hpos, hle, hcontains⟩ := hinit k' hk' hkq
    rw [hafter _ hpos hle] at hcontains
    cases hcontains

theorem keys_nodup (h : Sound idx stored) : (idx.collectTerminalKeys.filter (· ≠ [])).Nodup :=
  ((collectTerminalKeys_perm h.plain).nodup_iff.mpr h.good.paths_nodup).filter _

theorem mem_keys (h : Sound idx stored) :
    {k | k ∈ idx.collectTerminalKeys ∧ k ≠ []} = stored := by
  ext k
  rw [Set.mem_ofPred_eq, (collectTerminalKeys_perm h.plain).mem_iff, h.mem_paths]
  exact and_iff_left_of_imp h.ne_nil

theorem reload (h : Sound s.index stored) (path : String) :
    ((s.save path true).load path).2 = true ∧ Sound ((s.save path true).load path).1.index stored := by
  have hfile : ((s.save path true).disk path).bind File.keys? = some s.index.collectTerminalKeys := by
    simp [State.save, keys_payload]
  simp only [State.load, hfile]
  have := rebuild (s.save path true).index h.keys_nodup
  rw [h.mem_keys] at this
  exact ⟨trivial, this⟩

end Sound

inductive Event where
  | insert (tokens : List Int)
  | remove (tokens : List Int)
  | clear
  | rebuildFromKeys (keys : List (List Int))
  | save (path : String) (written : Bool)
  | load (path : String)

def State.next (s : State) : Event → State
  | .insert tokens => { s with index := s.index.insert tokens }
  | .remove tokens => { s with index := (s.index.remove tokens).1 }
  | .clear => { s with index := s.index.clear }
  | .rebuildFromKeys keys => { s with index := s.index.rebuildFromKeys keys }
  | .save path written => s.save path written
  | .load path => (s.load path).1

structure Shelf where
  stored : Set (List Int)
  saved : String → Option (Set (List Int))

def Shelf.next (a : Shelf) : Event → Shelf
  | .insert tokens => if tokens = [] then a else { a with stored := Set.insert tokens a.stored }
  | .remove tokens => { a with stored := a.stored \ {tokens} }
  | .clear => { a with stored := ∅ }
  | .rebuildFromKeys keys => { a with stored := {k | k ∈ keys ∧ k ≠ []} }
  | .save path written =>
    if written then { a with saved := fun p => if p = path then some a.stored else a.saved p } else a
  | .load path => { a with stored := (a.saved path).getD a.stored }

def State.keys? (s : State) (path : String) : Option (List (List Int)) := (s.disk path).bind File.keys?

/-- No sequence is stored twice: neither one that is there, nor one of a list beside itself. -/
def Fresh (s : State) : Event → Prop
  | .insert tokens => s.index.root.contains tokens = false
  | .rebuildFromKeys keys => (keys.filter (· ≠ [])).Nodup
  | _ => True

/-- An empty index beside files that hold no sequence twice. -/
def Start (p : State × Shelf) : Prop :=
  p.1.index = {} ∧ p.2.stored = ∅ ∧ ∀ path,
    p.2.saved path = (p.1.keys? path).map (fun keys => {k | k ∈ keys ∧ k ≠ []}) ∧
    ∀ keys ∈ p.1.keys? path, (keys.filter (· ≠ [])).Nodup

/-- The index is the set of stored sequences and leaks nothing. -/
structure Exact (s : State) (stored : Set (List Int)) : Prop where
  terminals : ∀ q, (∃ n, s.index.root.find q = some n ∧ n.isTerminal = true) ↔ q ∈ stored
  refs : ∀ path ≠ [], ∀ n, s.index.root.find path = some n →
    n.refCount = n.children.sum refCount + if n.isTerminal then 1 else 0
  leaves : ∀ path ≠ [], ∀ n, s.index.root.find path = some n → n.children.isEmpty = true →
    n.isTerminal = true
  nodes : s.index.stats.nodeCount = s.index.root.children.size
  entries : s.index.stats.entryCount = stored.ncard
  longest : ∀ q, Longest stored q (s.index.longestPrefix q).2.2
  reload : ∀ path, ((s.save path true).load path).2 = true ∧
    ∀ q, ((s.save path true).load path).1.index.root.contains q = true ↔ q ∈ stored

theorem Sound.exact (h : Sound s.index stored) : Exact s stored := by
  constructor
  · intro q
    rw [← h.holds, contains]
    cases s.index.root.find q <;> simp
  · exact fun path hpath n hfind => (find_good h.good hpath hfind).1
  · exact fun path hpath n hfind => (find_good h.good hpath hfind).2.1
  · exact h.nodes
  · have hset : stored = ↑s.index.root.children.paths.toFinset := by
      ext q
      rw [List.coe_toFinset, Set.mem_ofPred_eq, h.mem_paths]
    rw [h.entries, Children.entries, h.plain, hset, Set.ncard_coe_finset,
      List.toFinset_card_of_nodup h.good.paths_nodup]
    simp
  · exact h.longest
  · exact fun path => ⟨(h.reload path).1, (h.reload path).2.holds⟩

/-- What a run keeps: the index of the set, and files that give the sets they were saved with. -/
structure Kept (p : State × Shelf) : Prop where
  sound : Sound p.1.index p.2.stored
  saved : ∀ path, p.2.saved path = (p.1.keys? path).map fun keys => {k | k ∈ keys ∧ k ≠ []}
  nodup : ∀ path, ∀ keys ∈ p.1.keys? path, (keys.filter (· ≠ [])).Nodup

theorem Kept.next {p : State × Shelf} (h : Kept p) (e : Event) (he : Fresh p.1 e) :
    Kept (p.1.next e, p.2.next e) := by
  obtain ⟨s, a⟩ := p
  cases e with
  | insert tokens =>
    by_cases hne : tokens = []
    · subst hne
      simpa [State.next, Shelf.next, Index.insert] using h
    · have hnew : tokens ∉ a.stored := fun hmem => by
        simpa [show s.index.root.contains tokens = false from he] using (h.sound.holds tokens).mpr hmem
      have hshelf : a.next (.insert tokens) = { a with stored := Set.insert tokens a.stored } := if_neg hne
      rw [hshelf]
      exact ⟨h.sound.insert hne hnew, h.saved, h.nodup⟩
  | remove tokens => exact ⟨h.sound.remove tokens, h.saved, h.nodup⟩
  | clear => exact ⟨Sound.clear s.index, h.saved, h.nodup⟩
  | rebuildFromKeys keys => exact ⟨Sound.rebuild s.index he, h.saved, h.nodup⟩
  | save path written =>
    cases written with
    | false => exact h
    | true =>
      have hkeys : ∀ p, (s.save path true).keys? p =
          if p = path then some s.index.collectTerminalKeys else s.keys? p := by
        intro p
        by_cases hp : p = path <;> simp [State.keys?, State.save, hp, keys_payload]
      refine ⟨h.sound, fun p => ?_, fun p keys hmem => ?_⟩
      · simp only [State.next, Shelf.next, hkeys, if_true]
        split
        · rw [Option.map_some, h.sound.mem_keys]
        · exact h.saved p
      · simp only [State.next, hkeys] at hmem
        split at hmem
        · cases hmem
          exact h.sound.keys_nodup
        · exact h.nodup p keys hmem
  | load path =>
    have hsaved : a.saved path = (s.keys? path).map fun keys => {k | k ∈ keys ∧ k ≠ []} := h.saved path
    cases hkeys : s.keys? path with
    | none =>
      have hload : s.next (.load path) = s := by simp [State.next, State.load, ← State.keys?.eq_1, hkeys]
      have hshelf : a.next (.load path) = a := by simp [Shelf.next, hsaved, hkeys]
      rw [hload, hshelf]
      exact h
    | some keys =>
      have hload : s.next (.load path) = { s with index := s.index.rebuildFromKeys keys } := by
        simp [State.next, State.load, ← State.keys?.eq_1, hkeys]
      have hshelf : a.next (.load path) = { a with stored := {k | k ∈ keys ∧ k ≠ []} } := by
        simp [Shelf.next, hsaved, hkeys]
      rw [hload, hshelf]
      exact ⟨Sound.rebuild s.index (h.nodup path keys hkeys), h.saved, h.nodup⟩

/-- In every run that stores no sequence twice, the index is exact in every state. -/
theorem radixIndex_exact {p : State × Shelf}
    (h : Reached Start (fun p e => Fresh p.1 e) (fun p e => (p.1.next e, p.2.next e)) p) :
    Exact p.1 p.2.stored := by
  refine (Reached.invariant h (I := Kept) (fun p hp => ?_) fun p e _ hkept he => hkept.next e he).sound.exact
  obtain ⟨s, a⟩ := p
  obtain ⟨hindex, hstored, hfiles⟩ := hp
  refine ⟨?_, fun path => (hfiles path).1, fun path => (hfiles path).2⟩
  simp only at hindex hstored
  rw [hindex, hstored]
  exact Sound.clear {}

/-- A sequence inserted twice and removed once leaves a leaf that is no entry. -/
theorem leaf_after_removal :
    ¬ Exact (runList State.next {} [.insert [1], .insert [1], .remove [1]])
      (runList Shelf.next ⟨∅, fun _ => none⟩ [.insert [1], .insert [1], .remove [1]]).stored := by
  intro h
  have hleaf := h.leaves [1] (by simp) ⟨false, 1, .nil⟩ rfl rfl
  cases hleaf

def branching : List Event := [.insert [1, 2], .insert [1, 3], .remove [1, 2], .insert [1, 2]]

/-- A branch is removed and comes back. -/
theorem branching_exact :
    (runList State.next {} branching).index.stats.entryCount = 2 ∧
      Exact (runList State.next {} branching) (runList Shelf.next ⟨∅, fun _ => none⟩ branching).stored := by
  have hstart : Start (({}, ⟨∅, fun _ => none⟩) : State × Shelf) :=
    ⟨rfl, rfl, fun path => ⟨rfl, fun keys hkeys => by cases hkeys⟩⟩
  have hfresh : AllOk (fun p e => Fresh p.1 e) (fun p e => (p.1.next e, p.2.next e))
      (({}, ⟨∅, fun _ => none⟩) : State × Shelf) branching := ⟨rfl, rfl, trivial, rfl, trivial⟩
  exact ⟨rfl, radixIndex_exact ((Reached.start hstart).runList hfresh)⟩

end FusionMlx.RadixIndex
