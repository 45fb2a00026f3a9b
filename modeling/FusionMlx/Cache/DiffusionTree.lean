import FusionMlx.Cache.DiffusionRadixCache

/-!
# The walks and edits of the tree

Each function on the tree in terms of the words that lead to its nodes. All
of them go by the first letter: the edge that starts like the key is the only
one that can lead to it.
-/
namespace FusionMlx.DiffusionRadixCache

open CommonPrefix EdgeTree EdgeTree.Branches
open JsonText (Text)

variable {c below rest merged : Children} {key p q word edgeKey : Text} {node next n m parent : Nat}

theorem commonPrefix_append (a b : Text) : ∃ x y, a = commonPrefix a b ++ x ∧ b = commonPrefix a b ++ y ∧
    x = a.drop (lcp a b) ∧ y = b.drop (lcp a b) :=
  ⟨_, _, (List.take_append_drop _ a).symm, by rw [commonPrefix, take_lcp, List.take_append_drop], rfl, rfl⟩

/-- A key goes past an edge, along it, or leaves it half way. -/
theorem commonPrefix_cases (hkey : key ≠ []) (hword : word ≠ []) :
    (commonPrefix key word = [] ∧ key.head? ≠ word.head?) ∨
      (commonPrefix key word = word ∧ ∃ t, key = word ++ t) ∨
      ∃ u x t v, commonPrefix key word = u ∧ u ≠ [] ∧ word = u ++ x :: t ∧ key = u ++ v ∧ v.head? ≠ some x := by
  by_cases hzero : lcp key word = 0
  · exact .inl ⟨by simp [commonPrefix, hzero], (lcp_eq_zero_iff hkey hword).1 hzero⟩
  by_cases hfull : lcp key word = word.length
  · refine .inr (.inl ⟨by rw [commonPrefix, take_lcp, hfull, List.take_length], ?_⟩)
    obtain ⟨t, ht⟩ := lcp_eq_right_iff.1 hfull
    exact ⟨t, ht.symm⟩
  have hlt : lcp key word < word.length := lt_of_le_of_ne (lcp_le_right _ _) hfull
  obtain ⟨v, y, hv, hy, rfl, rfl⟩ := commonPrefix_append key word
  have hapart := head_drop_lcp hlt
  cases hd : word.drop (lcp key word) with
  | nil => rw [List.drop_eq_nil_iff] at hd; omega
  | cons x t =>
    rw [hd] at hy hapart
    refine .inr (.inr ⟨_, x, t, _, rfl, ?_, hy, hv, by simpa using hapart⟩)
    intro hnil
    have := congrArg List.length hnil
    have hle := lcp_le_left key word
    simp [commonPrefix] at this
    rcases this with h | h
    · exact hzero h
    · exact hkey h

theorem walk_nil (node : Nat) (c : Children) : walk node c [] = some node := by
  cases c <;> rfl

theorem walk_iff (h : c.Branching) : walk node c key = some n ↔ (key, n) ∈ c.rooted node := by
  induction c generalizing node key with
  | nil =>
    cases key with
    | nil => simp [walk, rooted, eq_comm]
    | cons a t => simp [walk, rooted]
  | edge word child below rest ihb ihr =>
    by_cases hkey : key = []
    · subst hkey
      have hno : ([], n) ∉ (edge word child below rest).entries := fun hn => (h.start hn).1 rfl
      rw [walk_nil, mem_rooted, or_iff_left hno]
      simp [eq_comm]
    rw [mem_rooted, or_iff_right (fun hn => hkey hn.1)]
    have hwalk : walk node (edge word child below rest) key =
        if commonPrefix key word = [] then walk node rest key
        else if commonPrefix key word = word then walk child below (key.drop word.length) else none := by
      rw [walk]
      exact hkey
    rw [hwalk]
    obtain ⟨hc, hhead⟩ | ⟨hc, t, rfl⟩ | ⟨u, x, t, v, hc, hu, rfl, rfl, hv⟩ := commonPrefix_cases hkey h.1
    · rw [if_pos hc, ihr h.2.2.2, h.aside hhead, mem_rooted, or_iff_right (fun hn => hkey hn.1)]
    · obtain ⟨a, w, rfl⟩ := List.exists_cons_of_ne_nil h.1
      rw [hc, if_neg h.1, if_pos rfl, List.drop_left, ihb h.2.2.1, h.along (by rfl)]
      refine ⟨fun hn => ⟨t, rfl, hn⟩, ?_⟩
      rintro ⟨q, he, hq⟩
      rwa [List.append_cancel_left he]
    · rw [hc, if_neg hu, if_neg (by simp)]
      obtain ⟨a, w, rfl⟩ := List.exists_cons_of_ne_nil hu
      rw [h.along (by rfl)]
      simp only [reduceCtorEq, false_iff]
      rintro ⟨q, he, -⟩
      rw [List.append_assoc] at he
      rw [List.append_cancel_left he] at hv
      exact hv rfl

/-- What `_walk_or_create` has made of the children: the key leads to the node, and nodes came in
with the next numbers and nothing else. -/
structure Created (node next : Nat) (c : Children) (key : Text) (r : Children × Nat × Nat) : Prop where
  branching : r.1.Branching
  leads : (key, r.2.1) ∈ r.1.rooted node
  firsts : ∀ x ∈ r.1.firsts, x ∈ c.firsts ∨ x = key.head?
  entries : ∃ new, r.1.entries.Perm (new ++ c.entries) ∧
    new.map Prod.snd = List.range' next new.length ∧ r.2.2 = next + new.length

theorem walkOrCreate_nil (node next : Nat) (c : Children) : walkOrCreate node next c [] = (c, node, next) := by
  cases c <;> rfl

theorem walkOrCreate_edge (hkey : key ≠ []) :
    walkOrCreate node next (.edge word m below rest) key =
      if commonPrefix key word = [] then
        (.edge word m below (walkOrCreate node next rest key).1, (walkOrCreate node next rest key).2)
      else if commonPrefix key word = word then
        (.edge word m (walkOrCreate m next below (key.drop word.length)).1 rest,
          (walkOrCreate m next below (key.drop word.length)).2)
      else if key.drop (commonPrefix key word).length = [] then
        (rest.snoc (commonPrefix key word) next (.edge (word.drop (commonPrefix key word).length) m below .nil),
          next, next + 1)
      else
        (rest.snoc (commonPrefix key word) next (.edge (word.drop (commonPrefix key word).length) m below
          (.edge (key.drop (commonPrefix key word).length) (next + 1) .nil .nil)), next + 1, next + 2) := by
  rw [walkOrCreate]
  exact hkey

theorem walkOrCreate_created (h : c.Branching) (key : Text) (node next : Nat) :
    Created node next c key (walkOrCreate node next c key) := by
  induction c generalizing node next key with
  | nil =>
    cases key with
    | nil => exact ⟨trivial, mem_rooted.2 (.inl ⟨rfl, rfl⟩), fun x hx => .inl hx, [], by simp [walkOrCreate]⟩
    | cons a t =>
      refine ⟨⟨by simp, List.not_mem_nil, trivial, trivial⟩, ?_, fun x hx => .inr (List.mem_singleton.1 hx),
        [(a :: t, next)], ?_⟩
      · exact mem_rooted.2 (.inr (mem_entries_edge.2 (.inl ⟨[], by simp, mem_rooted.2 (.inl ⟨rfl, rfl⟩)⟩)))
      · simp [walkOrCreate, entries_edge, rooted]
  | edge word m below rest ihb ihr =>
    by_cases hkey : key = []
    · subst hkey
      rw [walkOrCreate_nil]
      exact ⟨h, mem_rooted.2 (.inl ⟨rfl, rfl⟩), fun x hx => .inl hx, [], by simp⟩
    rw [walkOrCreate_edge hkey]
    obtain ⟨hword, hother, hbelow, hrest⟩ := h
    obtain ⟨hc, hhead⟩ | ⟨hc, t, rfl⟩ | ⟨u, x, t, v, hc, hu, rfl, rfl, hv⟩ := commonPrefix_cases hkey hword
    · rw [if_pos hc]
      have ih := ihr hrest key node next
      refine ⟨⟨hword, fun hin => ?_, hbelow, ih.branching⟩, ?_, ?_, ?_⟩
      · exact (ih.firsts _ hin).elim hother (fun he => hhead he.symm)
      · refine mem_rooted.2 (.inr (mem_entries_edge.2 (.inr ?_)))
        exact (mem_rooted.1 ih.leads).resolve_left (fun he => hkey he.1)
      · intro x hx
        rcases List.mem_cons.1 hx with rfl | hx
        · exact .inl (List.mem_cons_self ..)
        · exact (ih.firsts x hx).imp_left (List.mem_cons_of_mem _)
      · obtain ⟨new, hperm, hnew, hnext⟩ := ih.entries
        refine ⟨new, ?_, hnew, hnext⟩
        rw [entries_edge, entries_edge]
        exact (hperm.append_left _).trans (List.perm_append_comm_assoc ..)
    · rw [hc, if_neg hword, if_pos rfl, List.drop_left]
      have ih := ihb hbelow t m next
      refine ⟨⟨hword, hother, ih.branching, hrest⟩, ?_, fun x hx => .inl hx, ?_⟩
      · exact mem_rooted.2 (.inr (mem_entries_edge.2 (.inl ⟨t, rfl, ih.leads⟩)))
      · obtain ⟨new, hperm, hnew, hnext⟩ := ih.entries
        refine ⟨new.map (fun p => (word ++ p.1, p.2)), ?_, by simpa [Function.comp_def] using hnew,
          by rw [List.length_map]; exact hnext⟩
        rw [entries_edge, entries_edge, rooted, rooted]
        have := ((hperm.cons ([], m)).trans List.perm_middle.symm).map (fun p => (word ++ p.1, p.2))
        rw [List.map_append] at this
        simpa using this.append_right rest.entries
    · have hsplit : (u ++ x :: t).drop u.length = x :: t := List.drop_left
      have hrest' : (u ++ v).drop u.length = v := List.drop_left
      have hfirst : u.head? ∉ rest.firsts := by
        obtain ⟨a, w, rfl⟩ := List.exists_cons_of_ne_nil hu
        exact hother
      have hfirsts : ∀ below', ∀ y ∈ (rest.snoc u next below').firsts,
          y ∈ (Branches.edge (u ++ x :: t) m below rest).firsts ∨ y = (u ++ v).head? := by
        intro below' y hy
        rw [firsts_snoc, List.mem_append, List.mem_singleton] at hy
        rcases hy with hy | rfl
        · exact .inl (List.mem_cons_of_mem _ hy)
        · obtain ⟨a, w, rfl⟩ := List.exists_cons_of_ne_nil hu
          exact .inr rfl
      rw [hc, if_neg hu, if_neg (by simp), hsplit, hrest']
      by_cases hvnil : v = []
      · subst hvnil
        rw [if_pos rfl]
        refine ⟨hrest.snoc hu hfirst ⟨by simp, List.not_mem_nil, hbelow, trivial⟩, ?_, hfirsts _, [(u, next)], ?_⟩
        · refine mem_rooted.2 (.inr ?_)
          rw [entries_snoc]
          exact List.mem_append_right _ (by simp [rooted])
        · refine ⟨?_, rfl, rfl⟩
          rw [entries_snoc, entries_edge]
          simp [rooted, entries_edge, Function.comp_def]
          exact List.perm_append_comm
      · rw [if_neg hvnil]
        refine ⟨hrest.snoc hu hfirst ⟨by simp, ?_, hbelow, hvnil, List.not_mem_nil, trivial, trivial⟩, ?_,
          hfirsts _, [(u, next), (u ++ v, next + 1)], ?_⟩
        · simpa [Branches.firsts] using hv.symm
        · refine mem_rooted.2 (.inr ?_)
          rw [entries_snoc]
          exact List.mem_append_right _ (by simp [rooted, entries_edge])
        · refine ⟨?_, rfl, rfl⟩
          rw [entries_snoc, entries_edge]
          have hlast : ∀ A R : List (Text × Nat), (A ++ (u ++ v, next + 1) :: R).Perm ((u ++ v, next + 1) :: (A ++ R)) :=
            fun A R => List.perm_middle
          simp [rooted, entries_edge, Function.comp_def]
          refine List.perm_append_comm.trans (List.Perm.cons _ ?_)
          simpa using hlast ((u ++ x :: t, m) :: below.entries.map (fun y => (u ++ x :: (t ++ y.1), y.2))) rest.entries

theorem findParent_edge {r : Nat × Text} (h : findParent node c m = some r) : (r.1, r.2, m) ∈ c.edges node := by
  induction c generalizing node with
  | nil => cases h
  | edge word child below rest ihb ihr =>
    rw [findParent] at h
    split at h
    · next he =>
      cases h
      exact he ▸ List.mem_cons_self ..
    · rcases Option.or_eq_some_iff.1 h with h | ⟨-, h⟩
      · exact List.mem_cons_of_mem _ (List.mem_append_left _ (ihb h))
      · exact List.mem_cons_of_mem _ (List.mem_append_right _ (ihr h))

theorem findParent_none (h : findParent node c m = none) : m ∉ c.nodes := by
  induction c generalizing node with
  | nil => exact List.not_mem_nil
  | edge word child below rest ihb ihr =>
    rw [findParent] at h
    split at h
    · cases h
    · next hne =>
      rw [Option.or_eq_none_iff] at h
      simp only [nodes_edge, List.mem_cons, List.mem_append, not_or]
      exact ⟨fun he => hne he.symm, ihb h.1, ihr h.2⟩

theorem walkPrefix_edge {r : Nat × Children × Nat × Text} (h : walkPrefix node c key = some r) :
    (r.2.2.1, r.2.2.2, r.1) ∈ c.edges node := by
  induction c generalizing node key with
  | nil => cases h
  | edge word child below rest ihb ihr =>
    rw [walkPrefix] at h
    split at h
    · exact List.mem_cons_of_mem _ (List.mem_append_right _ (ihr h))
    split at h
    · split at h
      · cases h
        exact List.mem_cons_self ..
      · exact List.mem_cons_of_mem _ (List.mem_append_left _ (ihb h))
    · split at h
      · cases h
        exact List.mem_cons_self ..
      · cases h

structure Subtree (node : Nat) (c : Children) (key : Text) (r : Nat × Children × Nat × Text) (q : Text) : Prop where
  leads : (q, r.2.2.1) ∈ c.rooted node
  starts : key <+: q ++ r.2.2.2
  all : ∀ p m, (p, m) ∈ c.entries → key <+: p → q ++ r.2.2.2 <+: p
  nodes : ∀ m, m ∈ r.1 :: r.2.1.nodes ↔ ∃ p, (p, m) ∈ c.entries ∧ q ++ r.2.2.2 <+: p
  sublist : (r.1 :: r.2.1.nodes).Sublist c.nodes

/-- The first edge of the tree, where the prefix ends on it. -/
theorem Subtree.first (h : (Branches.edge word m below rest).Branching) (hkey : key ≠ []) (hstart : key <+: word) :
    Subtree node (.edge word m below rest) key (m, below, node, word) [] := by
  have hhead : ∀ {p : Text} {t : Text}, t ≠ [] → t <+: word → t <+: p → p.head? = word.head? := by
    rintro p t hne ⟨x, rfl⟩ ⟨y, rfl⟩
    obtain ⟨a, t, rfl⟩ := List.exists_cons_of_ne_nil hne
    rfl
  have hall : ∀ p k, (p, k) ∈ (Branches.edge word m below rest).entries → p.head? = word.head? → word <+: p := by
    intro p k hp hh
    obtain ⟨q, rfl, -⟩ := (h.along hh).1 hp
    exact List.prefix_append ..
  refine ⟨mem_rooted.2 (.inl ⟨rfl, rfl⟩), hstart, fun p k hp hk => hall p k hp (hhead hkey hstart hk), ?_, ?_⟩
  · intro k
    rw [← rooted_nodes, List.mem_map]
    constructor
    · rintro ⟨⟨q, k'⟩, hq, rfl⟩
      exact ⟨word ++ q, mem_entries_edge.2 (.inl ⟨q, rfl, hq⟩), List.prefix_append ..⟩
    · rintro ⟨p, hp, hk⟩
      obtain ⟨q, rfl, hq⟩ := (h.along (hhead h.1 List.prefix_rfl hk)).1 hp
      exact ⟨(q, k), hq, rfl⟩
  · rw [nodes_edge]
    exact (List.sublist_append_left ..).cons_cons _

theorem walkPrefix_nodes_below {u : Text} (h : (Branches.edge word m below rest).Branching) (hu : word <+: u) :
    (p, n) ∈ (Branches.edge word m below rest).entries ∧ u <+: p ↔
      ∃ q, p = word ++ q ∧ (q, n) ∈ below.rooted m ∧ u <+: word ++ q := by
  obtain ⟨x, rfl⟩ := hu
  constructor
  · rintro ⟨hp, y, rfl⟩
    have hhead : (word ++ x ++ y).head? = word.head? := by
      obtain ⟨a, w, rfl⟩ := List.exists_cons_of_ne_nil h.1
      rfl
    obtain ⟨q, he, hq⟩ := (h.along hhead).1 hp
    exact ⟨q, he, hq, he ▸ List.prefix_append ..⟩
  · rintro ⟨q, rfl, hq, hpre⟩
    exact ⟨mem_entries_edge.2 (.inl ⟨q, rfl, hq⟩), hpre⟩

theorem walkPrefix_some (h : c.Branching) (hkey : key ≠ []) {r : Nat × Children × Nat × Text}
    (hr : walkPrefix node c key = some r) : ∃ q, Subtree node c key r q := by
  induction c generalizing node key with
  | nil => cases hr
  | edge word child below rest ihb ihr =>
    have hhead : ∀ {p : Text}, key <+: p → p.head? = key.head? := by
      rintro p ⟨x, rfl⟩
      obtain ⟨a, t, rfl⟩ := List.exists_cons_of_ne_nil hkey
      rfl
    rw [walkPrefix] at hr
    obtain ⟨hc, hne⟩ | ⟨hc, t, rfl⟩ | ⟨u, x, t, v, hc, hu, rfl, rfl, hv⟩ := commonPrefix_cases hkey h.1
    · rw [if_pos hc] at hr
      obtain ⟨q, hq⟩ := ihr h.2.2.2 hkey hr
      have hends : (q ++ r.2.2.2).head? ≠ word.head? := by
        rw [hhead hq.starts]
        exact hne
      refine ⟨q, ?_, hq.starts, ?_, ?_, hq.sublist.trans (by simp [nodes_edge])⟩
      · exact mem_rooted.2 ((mem_rooted.1 hq.leads).imp_right (fun hq => mem_entries_edge.2 (.inr hq)))
      · intro p m hp hk
        rw [h.aside (by rw [hhead hk]; exact hne)] at hp
        exact hq.all p m hp hk
      · intro m
        rw [hq.nodes]
        refine exists_congr (fun p => and_congr_left (fun hp => ?_))
        rw [h.aside]
        rwa [hhead (hq.starts.trans hp)]
    · rw [hc, if_neg h.1, if_pos rfl, List.drop_left] at hr
      split at hr
      · next ht =>
        cases hr
        subst ht
        exact ⟨[], .first h hkey (by simp)⟩
      · next ht =>
        obtain ⟨q, hq⟩ := ihb h.2.2.1 ht hr
        have hends : word <+: word ++ q ++ r.2.2.2 := by
          rw [List.append_assoc]
          exact List.prefix_append ..
        have hcut : ∀ {a b : Text}, word ++ a <+: word ++ b ↔ a <+: b := List.prefix_append_right_inj _
        have hroot : ∀ {p : Text} {m : Nat}, t <+: p → (p, m) ∈ below.rooted child → (p, m) ∈ below.entries := by
          intro p m hp hm
          refine (mem_rooted.1 hm).resolve_left (fun he => ht ?_)
          rw [he.1, List.prefix_nil] at hp
          exact hp
        refine ⟨word ++ q, ?_, ?_, ?_, ?_, ?_⟩
        · exact mem_rooted.2 (.inr (mem_entries_edge.2 (.inl ⟨q, rfl, hq.leads⟩)))
        · rw [List.append_assoc, hcut]
          exact hq.starts
        · intro p m hp hk
          obtain ⟨p', rfl, hm, hpre⟩ := (walkPrefix_nodes_below h (List.prefix_append ..)).1 ⟨hp, hk⟩
          rw [List.append_assoc, hcut]
          exact hq.all p' m (hroot (hcut.1 hpre) hm) (hcut.1 hpre)
        · intro m
          rw [hq.nodes]
          constructor
          · rintro ⟨p, hp, hpre⟩
            refine ⟨word ++ p, mem_entries_edge.2 (.inl ⟨p, rfl, mem_rooted.2 (.inr hp)⟩), ?_⟩
            rwa [List.append_assoc, hcut]
          · rintro ⟨p, hp, hpre⟩
            obtain ⟨p', rfl, hm, hpre⟩ := (walkPrefix_nodes_below h hends).1 ⟨hp, hpre⟩
            rw [List.append_assoc, hcut] at hpre
            exact ⟨p', hroot (hq.starts.trans hpre) hm, hpre⟩
        · rw [nodes_edge]
          exact (hq.sublist.trans (List.sublist_append_left ..)).cons _
    · rw [hc, if_neg hu, if_neg (by simp)] at hr
      split at hr
      · next hv =>
        cases hr
        rw [← hv] at hkey ⊢
        exact ⟨[], .first h hkey (List.prefix_append ..)⟩
      · cases hr

theorem walkPrefix_none (h : c.Branching) (hkey : key ≠ []) (hr : walkPrefix node c key = none)
    (hp : (p, m) ∈ c.entries) : ¬ key <+: p := by
  induction c generalizing node key p m with
  | nil => cases hp
  | edge word child below rest ihb ihr =>
    intro hpre
    have hhead : p.head? = key.head? := by
      obtain ⟨x, rfl⟩ := hpre
      obtain ⟨a, t, rfl⟩ := List.exists_cons_of_ne_nil hkey
      rfl
    rw [walkPrefix] at hr
    obtain ⟨hc, hne⟩ | ⟨hc, t, rfl⟩ | ⟨u, x, t, v, hc, hu, rfl, rfl, hv⟩ := commonPrefix_cases hkey h.1
    · rw [if_pos hc] at hr
      rw [h.aside (by rw [hhead]; exact hne)] at hp
      exact ihr h.2.2.2 hkey hr hp hpre
    · rw [hc, if_neg h.1, if_pos rfl, List.drop_left] at hr
      split at hr
      · cases hr
      · next ht =>
        obtain ⟨q, rfl, hq, hcut⟩ := (walkPrefix_nodes_below h (List.prefix_append ..)).1 ⟨hp, hpre⟩
        rw [List.prefix_append_right_inj] at hcut
        refine ihb h.2.2.1 ht hr ((mem_rooted.1 hq).resolve_left (fun he => ht ?_)) hcut
        rw [he.1, List.prefix_nil] at hcut
        exact hcut
    · rw [hc, if_neg hu, if_neg (by simp)] at hr
      split at hr
      · cases hr
      · next hne =>
        obtain ⟨a, w, rfl⟩ := List.exists_cons_of_ne_nil hu
        obtain ⟨q, rfl, -⟩ := (h.along (by rw [hhead]; rfl)).1 hp
        rw [List.append_assoc, List.prefix_append_right_inj] at hpre
        cases v with
        | nil => simp at hne
        | cons y v =>
          rw [List.cons_append, List.cons_prefix_cons] at hpre
          exact hv (by rw [hpre.1]; rfl)

theorem deleteEdge_sublist (parent : Nat) (edgeKey : Text) (node : Nat) (c : Children) :
    (deleteEdge parent edgeKey node c).entries.Sublist c.entries ∧
      (deleteEdge parent edgeKey node c).firsts.Sublist c.firsts := by
  induction c generalizing node with
  | nil => exact ⟨List.Sublist.refl _, List.Sublist.refl _⟩
  | edge word child below rest ihb ihr =>
    rw [deleteEdge]
    split
    · exact ⟨List.sublist_append_right .., List.sublist_cons_self ..⟩
    · refine ⟨?_, (ihr node).2.cons_cons _⟩
      rw [entries_edge, entries_edge, rooted, rooted]
      exact (((ihb child).1.cons_cons _).map _).append (ihr node).1

theorem deleteEdge_branching (h : c.Branching) : (deleteEdge parent edgeKey node c).Branching := by
  induction c generalizing node with
  | nil => trivial
  | edge word child below rest ihb ihr =>
    rw [deleteEdge]
    split
    · exact h.2.2.2
    · exact ⟨h.1, fun hin => h.2.1 ((deleteEdge_sublist ..).2.subset hin), ihb h.2.2.1, ihr h.2.2.2⟩

theorem deleteEdge_absent (h : parent ∉ node :: c.nodes) : deleteEdge parent edgeKey node c = c := by
  induction c generalizing node with
  | nil => rfl
  | edge word child below rest ihb ihr =>
    simp only [nodes_edge, List.mem_cons, List.mem_append, not_or] at h
    obtain ⟨hnode, hchild, hbelow, hrest⟩ := h
    rw [deleteEdge, if_neg (fun he => hnode he.1.symm), ihb (by simp [hchild, hbelow]), ihr (by simp [hnode, hrest])]

/-- With an edge goes what hangs on it. -/
theorem mem_deleteEdge (h : c.Branching) (hnodup : (node :: c.nodes).Nodup)
    (hedge : (parent, edgeKey, n) ∈ c.edges node) (hq : (q, parent) ∈ c.rooted node) :
    (p, m) ∈ (deleteEdge parent edgeKey node c).entries ↔ (p, m) ∈ c.entries ∧ ¬ q ++ edgeKey <+: p := by
  induction c generalizing node q p with
  | nil => cases hedge
  | edge word child below rest ihb ihr =>
    have hbelow : (child :: below.nodes).Nodup := by
      rw [nodes_edge, ← List.cons_append] at hnodup
      exact (List.nodup_append.1 (List.nodup_cons.1 hnodup).2).1
    have hrest : (node :: rest.nodes).Nodup := by
      refine hnodup.sublist (List.Sublist.cons_cons _ ?_)
      rw [nodes_edge]
      exact (List.sublist_append_right ..).cons _
    have hapart : ∀ k ∈ node :: rest.nodes, k ∉ child :: below.nodes := by
      intro k hk hk'
      rw [nodes_edge, ← List.cons_append] at hnodup
      obtain ⟨hnode, hsplit⟩ := List.nodup_cons.1 hnodup
      rcases List.mem_cons.1 hk with rfl | hk
      · exact hnode (List.mem_append_left _ hk')
      · exact (List.nodup_append.1 hsplit).2.2 _ hk' _ hk rfl
    rw [deleteEdge]
    split
    · next hhit =>
      obtain ⟨rfl, rfl⟩ := hhit
      obtain rfl : q = [] := word_unique hnodup hq (mem_rooted.2 (.inl ⟨rfl, rfl⟩))
      rw [List.nil_append]
      constructor
      · intro hp
        refine ⟨mem_entries_edge.2 (.inr hp), ?_⟩
        rintro ⟨x, rfl⟩
        obtain ⟨a, w, rfl⟩ := List.exists_cons_of_ne_nil h.1
        exact h.2.1 (h.2.2.2.start hp).2
      · rintro ⟨hp, hpre⟩
        refine (mem_entries_edge.1 hp).resolve_left ?_
        rintro ⟨q, rfl, -⟩
        exact hpre (List.prefix_append ..)
    · next hmiss =>
      rcases List.mem_cons.1 hedge with he | hedge
      · cases he
        exact absurd ⟨rfl, rfl⟩ hmiss
      rcases List.mem_append.1 hedge with hedge | hedge
      · have hpar := leaves_of_edge hedge
        have hno : parent ∉ node :: rest.nodes := fun hk => hapart _ hk hpar
        rw [deleteEdge_absent hno]
        obtain ⟨q', hq', hend⟩ := ends_of_edge hedge
        obtain rfl : q = word ++ q' := word_unique hnodup hq
          (mem_rooted.2 (.inr (mem_entries_edge.2 (.inl ⟨q', rfl, hq'⟩))))
        have hcut : ∀ x, word ++ q' ++ edgeKey <+: word ++ x ↔ q' ++ edgeKey <+: x := by
          intro x
          rw [List.append_assoc, List.prefix_append_right_inj]
        have hroot : ∀ x, (x, m) ∈ (deleteEdge parent edgeKey child below).rooted child ↔
            (x, m) ∈ below.rooted child ∧ ¬ q' ++ edgeKey <+: x := by
          intro x
          rw [mem_rooted, mem_rooted, ihb h.2.2.1 hbelow hedge hq']
          constructor
          · rintro (⟨rfl, rfl⟩ | ⟨hx, hpre⟩)
            · exact ⟨.inl ⟨rfl, rfl⟩, fun hpre => (h.2.2.1.start hend).1 (List.prefix_nil.1 hpre)⟩
            · exact ⟨.inr hx, hpre⟩
          · rintro ⟨hx | hx, hpre⟩
            · exact .inl hx
            · exact .inr ⟨hx, hpre⟩
        have hother : (p, m) ∈ rest.entries → ¬ word ++ q' ++ edgeKey <+: p := by
          rintro hp ⟨x, rfl⟩
          obtain ⟨a, w, rfl⟩ := List.exists_cons_of_ne_nil h.1
          exact h.2.1 (h.2.2.2.start hp).2
        rw [mem_entries_edge, mem_entries_edge]
        constructor
        · rintro (⟨x, rfl, hx⟩ | hp)
          · obtain ⟨hx, hpre⟩ := (hroot x).1 hx
            exact ⟨.inl ⟨x, rfl, hx⟩, fun hk => hpre ((hcut x).1 hk)⟩
          · exact ⟨.inr hp, hother hp⟩
        · rintro ⟨⟨x, rfl, hx⟩ | hp, hpre⟩
          · exact .inl ⟨x, rfl, (hroot x).2 ⟨hx, fun hk => hpre ((hcut x).2 hk)⟩⟩
          · exact .inr hp
      · have hpar := leaves_of_edge hedge
        rw [deleteEdge_absent (hapart _ hpar)]
        obtain ⟨q', hq', hend⟩ := ends_of_edge hedge
        obtain rfl : q = q' := word_unique hnodup hq
          (mem_rooted.2 ((mem_rooted.1 hq').imp_right (fun hk => mem_entries_edge.2 (.inr hk))))
        have hother : ∀ x, ¬ q ++ edgeKey <+: word ++ x := by
          rintro x ⟨y, hy⟩
          obtain ⟨hne, hin⟩ := h.2.2.2.start hend
          obtain ⟨a, w, ha⟩ := List.exists_cons_of_ne_nil hne
          obtain ⟨b, v, rfl⟩ := List.exists_cons_of_ne_nil h.1
          rw [ha] at hy hin
          obtain rfl : a = b := (List.cons.inj hy).1
          exact h.2.1 hin
        rw [mem_entries_edge, mem_entries_edge, ihr h.2.2.2 hrest hedge hq']
        constructor
        · rintro (⟨x, rfl, hx⟩ | ⟨hp, hpre⟩)
          · exact ⟨.inl ⟨x, rfl, hx⟩, hother x⟩
          · exact ⟨.inr hp, hpre⟩
        · rintro ⟨hx | hp, hpre⟩
          · exact .inl hx
          · exact .inr ⟨hp, hpre⟩

/-- What `_cleanup_chains` leaves: the same beginnings, and all nodes but some without a value. -/
structure Tidied (vacant : Nat → Bool) (c merged d : Children) : Prop where
  branching : d.Branching
  firsts : d.firsts.Perm (c.firsts ++ merged.firsts)
  entries : ∃ gone, (c.entries ++ merged.entries).Perm (d.entries ++ gone) ∧ ∀ e ∈ gone, vacant e.2 = true

theorem cleanupChains_tidied {vacant : Nat → Bool} (h : c.Branching) (hm : merged.Branching)
    (hapart : ∀ x ∈ c.firsts, x ∉ merged.firsts) : Tidied vacant c merged (cleanupChains vacant c merged) := by
  induction c generalizing merged with
  | nil => exact ⟨hm, List.Perm.refl _, [], by simp [cleanupChains], by simp⟩
  | edge word child below rest ihb ihr =>
    obtain ⟨hword, hother, hbelow, hrest⟩ := h
    have hb : Tidied vacant below .nil (cleanupChains vacant below .nil) :=
      ihb hbelow trivial (by simp [Branches.firsts])
    have hword' : word.head? ∉ merged.firsts := hapart _ (List.mem_cons_self ..)
    have hrest' : ∀ x ∈ rest.firsts, x ∉ merged.firsts := fun x hx => hapart x (List.mem_cons_of_mem _ hx)
    have hkept : ∀ d, d = cleanupChains vacant below .nil →
        Tidied vacant (.edge word child below rest) merged (.edge word child d (cleanupChains vacant rest merged)) := by
      rintro d rfl
      have hr := ihr hrest hm hrest'
      refine ⟨⟨hword, ?_, hb.branching, hr.branching⟩, hr.firsts.cons _, ?_⟩
      · rw [hr.firsts.mem_iff, List.mem_append, not_or]
        exact ⟨hother, hword'⟩
      · obtain ⟨gone, hperm, hgone⟩ := hb.entries
        obtain ⟨gone', hperm', hgone'⟩ := hr.entries
        refine ⟨gone.map (fun p => (word ++ p.1, p.2)) ++ gone', ?_, ?_⟩
        · rw [entries_edge, entries_edge, List.append_assoc, rooted, rooted]
          rw [entries_nil, List.append_nil] at hperm
          have hmap := (hperm.cons ([], child)).map (fun p => (word ++ p.1, p.2))
          refine List.perm_iff_count.2 (fun e => ?_)
          have hcount := hmap.count_eq e
          have hcount' := hperm'.count_eq e
          simp only [List.map_cons, List.map_append, List.count_cons, List.count_append] at hcount hcount' ⊢
          omega
        · intro e he
          rcases List.mem_append.1 he with he | he
          · obtain ⟨e', he', rfl⟩ := List.mem_map.1 he
            exact hgone e' he'
          · exact hgone' e he
    rw [cleanupChains]
    split
    · next oe oc ob hd =>
      split
      · next hvacant =>
        rw [hd] at hb
        obtain ⟨hoe, -, hob, -⟩ := hb.branching
        have hhead : (word ++ oe).head? = word.head? := by
          obtain ⟨a, w, rfl⟩ := List.exists_cons_of_ne_nil hword
          rfl
        have hsnoc : (merged.snoc (word ++ oe) oc ob).Branching := hm.snoc (by simp [hword]) (hhead ▸ hword') hob
        have hr := ihr hrest hsnoc (by
          intro x hx
          rw [firsts_snoc, List.mem_append, List.mem_singleton, hhead, not_or]
          exact ⟨hrest' x hx, fun he => hother (he ▸ hx)⟩)
        refine ⟨hr.branching, ?_, ?_⟩
        · refine hr.firsts.trans ?_
          rw [firsts_snoc, hhead, Branches.firsts, ← List.append_assoc]
          exact List.perm_append_comm
        · obtain ⟨gone, hperm, hgone⟩ := hb.entries
          obtain ⟨gone', hperm', hgone'⟩ := hr.entries
          refine ⟨(word, child) :: gone.map (fun p => (word ++ p.1, p.2)) ++ gone', ?_, ?_⟩
          · rw [entries_snoc] at hperm'
            rw [entries_nil, List.append_nil, entries_edge, entries_nil, List.append_nil] at hperm
            have hmap := (hperm.cons ([], child)).map (fun p => (word ++ p.1, p.2))
            rw [entries_edge, rooted]
            refine List.perm_iff_count.2 (fun e => ?_)
            have hcount := hmap.count_eq e
            have hcount' := hperm'.count_eq e
            simp only [List.map_cons, List.map_append, List.map_map, List.count_cons, List.count_append, Function.comp_def,
              List.append_assoc, List.append_nil] at hcount hcount' ⊢
            omega
          · intro e he
            rcases List.mem_append.1 he with he | he
            · rcases List.mem_cons.1 he with rfl | he
              · exact hvacant
              · obtain ⟨e', he', rfl⟩ := List.mem_map.1 he
                exact hgone e' he'
            · exact hgone' e he
      · exact hkept _ hd.symm
    · exact hkept _ rfl

end FusionMlx.DiffusionRadixCache
