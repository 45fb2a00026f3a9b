import Mathlib.Data.List.Nodup

/-!
# Trees with words on their edges

The nodes of such a tree are reached by the words that the edges on the way
spell. Where the edges out of a node all start differently, a word leads to
one node only.
-/
namespace FusionMlx.EdgeTree

/-- The edges out of a node in their order: the word on the edge, the node it
leads to, and the edges out of that one. -/
inductive Branches (α ι : Type) where
  | nil
  | edge (word : List α) (node : ι) (below rest : Branches α ι)
  deriving DecidableEq

namespace Branches

variable {α ι : Type}

def entries : Branches α ι → List (List α × ι)
  | nil => []
  | edge word node below rest =>
    (([], node) :: entries below).map (fun p => (word ++ p.1, p.2)) ++ entries rest

def rooted (node : ι) (c : Branches α ι) : List (List α × ι) := ([], node) :: c.entries

def nodes (c : Branches α ι) : List ι := c.entries.map Prod.snd

def firsts : Branches α ι → List (Option α)
  | nil => []
  | edge word _ _ rest => word.head? :: firsts rest

def Branching : Branches α ι → Prop
  | nil => True
  | edge word _ below rest =>
    word ≠ [] ∧ word.head? ∉ firsts rest ∧ Branching below ∧ Branching rest

def edges (node : ι) : Branches α ι → List (ι × List α × ι)
  | nil => []
  | edge word child below rest => (node, word, child) :: (edges child below ++ edges node rest)

def snoc : Branches α ι → List α → ι → Branches α ι → Branches α ι
  | nil, word, node, below => edge word node below nil
  | edge word' node' below' rest, word, node, below => edge word' node' below' (snoc rest word node below)

variable {word p q : List α} {node m m' n : ι} {c below rest : Branches α ι}

@[simp] theorem entries_nil : (nil : Branches α ι).entries = [] := rfl

theorem entries_edge : (edge word node below rest).entries =
    (below.rooted node).map (fun p => (word ++ p.1, p.2)) ++ rest.entries := rfl

@[simp] theorem nodes_nil : (nil : Branches α ι).nodes = [] := rfl

@[simp] theorem nodes_edge : (edge word node below rest).nodes = node :: (below.nodes ++ rest.nodes) := by
  simp [nodes, entries, Function.comp_def]

theorem rooted_nodes : (c.rooted node).map Prod.snd = node :: c.nodes := rfl

theorem mem_rooted : (p, m) ∈ c.rooted node ↔ (p = [] ∧ m = node) ∨ (p, m) ∈ c.entries := by
  simp [rooted]

theorem mem_entries_edge : (p, m) ∈ (edge word node below rest).entries ↔
    (∃ q, p = word ++ q ∧ (q, m) ∈ below.rooted node) ∨ (p, m) ∈ rest.entries := by
  rw [entries_edge, List.mem_append]
  refine or_congr ⟨fun h => ?_, ?_⟩ Iff.rfl
  · obtain ⟨⟨q, k⟩, hq, he⟩ := List.mem_map.1 h
    cases he
    exact ⟨q, rfl, hq⟩
  · rintro ⟨q, rfl, hq⟩
    exact List.mem_map.2 ⟨_, hq, rfl⟩

theorem mem_nodes : m ∈ c.nodes ↔ ∃ p, (p, m) ∈ c.entries := by
  simp [nodes]

theorem Branching.start (h : c.Branching) (hp : (p, m) ∈ c.entries) :
    p ≠ [] ∧ p.head? ∈ c.firsts := by
  induction c with
  | nil => cases hp
  | edge word node below rest _ ih =>
    obtain ⟨hword, -, -, hrest⟩ := h
    rcases mem_entries_edge.1 hp with ⟨q, rfl, -⟩ | hp
    · obtain ⟨a, t, rfl⟩ := List.exists_cons_of_ne_nil hword
      simp [firsts]
    · have := ih hrest hp
      exact ⟨this.1, List.mem_cons_of_mem _ this.2⟩

/-- Words that start like the first edge go along it. -/
theorem Branching.along (h : (edge word node below rest).Branching) (hp : p.head? = word.head?) :
    (p, m) ∈ (edge word node below rest).entries ↔ ∃ q, p = word ++ q ∧ (q, m) ∈ below.rooted node := by
  rw [mem_entries_edge, or_iff_left]
  intro hr
  have := (h.2.2.2.start hr).2
  rw [hp] at this
  exact h.2.1 this

theorem Branching.aside (h : (edge word node below rest).Branching) (hp : p.head? ≠ word.head?) :
    (p, m) ∈ (edge word node below rest).entries ↔ (p, m) ∈ rest.entries := by
  rw [mem_entries_edge, or_iff_right]
  rintro ⟨q, rfl, -⟩
  obtain ⟨a, t, rfl⟩ := List.exists_cons_of_ne_nil h.1
  exact hp rfl

/-- A word leads to one node. -/
theorem Branching.node_unique (h : c.Branching) (hm : (p, m) ∈ c.rooted n) (hm' : (p, m') ∈ c.rooted n) :
    m = m' := by
  induction c generalizing p n with
  | nil =>
    simp only [rooted, entries_nil, List.mem_singleton, Prod.mk.injEq] at hm hm'
    rw [hm.2, hm'.2]
  | edge word node below rest ihb ihr =>
    by_cases hnil : p = []
    · have hno : ∀ k, (p, k) ∉ (edge word node below rest).entries :=
        fun k hk => (h.start hk).1 hnil
      rw [mem_rooted, or_iff_left (hno _)] at hm hm'
      rw [hm.2, hm'.2]
    · rw [mem_rooted, or_iff_right (fun h => hnil h.1)] at hm hm'
      by_cases hhead : p.head? = word.head?
      · rw [h.along hhead] at hm hm'
        obtain ⟨q, rfl, hq⟩ := hm
        obtain ⟨q', he, hq'⟩ := hm'
        obtain rfl := List.append_cancel_left he
        exact ihb h.2.2.1 hq hq'
      · rw [h.aside hhead] at hm hm'
        exact ihr h.2.2.2 (mem_rooted.2 (.inr hm) : (p, m) ∈ rest.rooted n) (mem_rooted.2 (.inr hm'))

/-- A node that stands in the tree once is reached by one word. -/
theorem word_unique (h : (n :: c.nodes).Nodup) (hp : (p, m) ∈ c.rooted n) (hq : (q, m) ∈ c.rooted n) :
    p = q := by
  have := List.inj_on_of_nodup_map (f := Prod.snd) (rooted_nodes (c := c) ▸ h) hp hq rfl
  exact congrArg Prod.fst this

/-- The ends of an edge. -/
theorem ends_of_edge (h : (m, word, m') ∈ c.edges n) :
    ∃ q, (q, m) ∈ c.rooted n ∧ (q ++ word, m') ∈ c.entries := by
  induction c generalizing n with
  | nil => cases h
  | edge word' node below rest ihb ihr =>
    rcases List.mem_cons.1 h with he | h
    · cases he
      exact ⟨[], mem_rooted.2 (.inl ⟨rfl, rfl⟩), mem_entries_edge.2 (.inl ⟨[], by simp, mem_rooted.2 (.inl ⟨rfl, rfl⟩)⟩)⟩
    rcases List.mem_append.1 h with h | h
    · obtain ⟨q, hq, hend⟩ := ihb h
      exact ⟨word' ++ q, mem_rooted.2 (.inr (mem_entries_edge.2 (.inl ⟨q, rfl, hq⟩))),
        mem_entries_edge.2 (.inl ⟨q ++ word, List.append_assoc .., mem_rooted.2 (.inr hend)⟩)⟩
    · obtain ⟨q, hq, hend⟩ := ihr h
      refine ⟨q, ?_, mem_entries_edge.2 (.inr hend)⟩
      exact mem_rooted.2 ((mem_rooted.1 hq).imp_right (fun hq => mem_entries_edge.2 (.inr hq)))

theorem leaves_of_edge (h : (m, word, m') ∈ c.edges n) : m ∈ n :: c.nodes := by
  obtain ⟨q, hq, -⟩ := ends_of_edge h
  rw [← rooted_nodes]
  exact List.mem_map_of_mem hq

@[simp] theorem firsts_snoc : (snoc c word node below).firsts = c.firsts ++ [word.head?] := by
  induction c with
  | nil => rfl
  | edge word' node' below' rest _ ih => simp [snoc, firsts, ih]

theorem entries_snoc : (snoc c word node below).entries =
    c.entries ++ (below.rooted node).map (fun p => (word ++ p.1, p.2)) := by
  induction c with
  | nil => simp [snoc, entries_edge]
  | edge word' node' below' rest _ ih => rw [snoc, entries_edge, ih, entries_edge, List.append_assoc]

theorem Branching.snoc (h : c.Branching) (hword : word ≠ []) (hnew : word.head? ∉ c.firsts)
    (hb : below.Branching) : (snoc c word node below).Branching := by
  induction c with
  | nil => exact ⟨hword, List.not_mem_nil, hb, trivial⟩
  | edge word' node' below' rest _ ih =>
    obtain ⟨hword', hother, hbelow, hrest⟩ := h
    rw [firsts, List.mem_cons, not_or] at hnew
    refine ⟨hword', ?_, hbelow, ih hrest hnew.2⟩
    rw [firsts_snoc, List.mem_append, List.mem_singleton, not_or]
    exact ⟨hother, Ne.symm hnew.1⟩

end Branches

end FusionMlx.EdgeTree
