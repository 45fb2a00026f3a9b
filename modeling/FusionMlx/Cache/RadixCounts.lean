import FusionMlx.Cache.RadixIndex

/-!
# The counts of the radix index

A node is good when its count is that of its children, plus one if it is
terminal, and when it is terminal if it is a leaf. `insert` of a sequence that is
not there and `remove` of one that is keep every node below the root good.
-/
namespace FusionMlx.RadixIndex

namespace Children

variable {cs : Children} {t t' : Int} {n : RadixNode} {f : RadixNode → Int}

attribute [local simp] get set erase sum

@[simp] theorem get_set_self (cs : Children) (t : Int) (n : RadixNode) : (cs.set t n).get t = some n := by
  induction cs with
  | nil => simp
  | cons t' terminal refs kids rest _ ih =>
    unfold set
    split
    · simp [*]
    · simp [*]

theorem get_set_ne (cs : Children) (n : RadixNode) (h : t' ≠ t) : (cs.set t n).get t' = cs.get t' := by
  induction cs with
  | nil => simp [h.symm]
  | cons u terminal refs kids rest _ ih =>
    unfold set
    split
    · next hu => simp [hu, h.symm]
    · simp only [get, ih]

theorem get_erase_ne (cs : Children) (h : t' ≠ t) : (cs.erase t).get t' = cs.get t' := by
  induction cs with
  | nil => rfl
  | cons u terminal refs kids rest _ ih =>
    unfold erase
    split
    · next hu => simp [hu, h.symm]
    · simp only [get, ih]

theorem sum_set (f : RadixNode → Int) (cs : Children) (t : Int) (n : RadixNode) :
    (cs.set t n).sum f = cs.sum f + f n - ((cs.get t).map f).getD 0 := by
  induction cs with
  | nil => simp
  | cons u terminal refs kids rest _ ih =>
    by_cases hu : u = t
    · have heta : f ⟨n.isTerminal, n.refCount, n.children⟩ = f n := rfl
      simp only [set, get, if_pos hu, sum, Option.map_some, Option.getD_some, heta]
      omega
    · simp only [set, get, if_neg hu, sum, ih]
      omega

theorem sum_erase (f : RadixNode → Int) (cs : Children) (t : Int) :
    (cs.erase t).sum f = cs.sum f - ((cs.get t).map f).getD 0 := by
  induction cs with
  | nil => simp
  | cons u terminal refs kids rest _ ih =>
    by_cases hu : u = t
    · simp [hu]
    · simp only [erase, get, if_neg hu, sum, ih]
      omega

theorem isEmpty_set (cs : Children) (t : Int) (n : RadixNode) : (cs.set t n).isEmpty = false := by
  cases cs with
  | nil => rfl
  | cons u terminal refs kids rest =>
    unfold set
    split <;> rfl

theorem size_eq_sum (cs : Children) : (cs.size : Int) = cs.sum fun n => n.children.size + 1 := by
  induction cs with
  | nil => rfl
  | cons t terminal refs kids rest _ ih => simp only [size, sum, ← ih]; omega

def entries (n : RadixNode) : Int := (if n.isTerminal then 1 else 0) + n.children.paths.length

theorem paths_eq_sum (cs : Children) : (cs.paths.length : Int) = cs.sum entries := by
  induction cs with
  | nil => rfl
  | cons t terminal refs kids rest _ ih =>
    simp only [paths, sum, entries, List.length_append, List.length_map, ← ih]
    cases terminal <;> simp

theorem size_set (cs : Children) (t : Int) (n : RadixNode) : ((cs.set t n).size : Int) =
    cs.size + (n.children.size + 1) - ((cs.get t).map fun n => (n.children.size + 1 : Int)).getD 0 := by
  rw [size_eq_sum, sum_set, ← size_eq_sum]

theorem size_erase (cs : Children) (t : Int) : ((cs.erase t).size : Int) =
    cs.size - ((cs.get t).map fun n => (n.children.size + 1 : Int)).getD 0 := by
  rw [size_eq_sum, sum_erase, ← size_eq_sum]

theorem entries_children (n : RadixNode) (cs : Children) : entries { n with children := cs } =
    entries n - n.children.paths.length + cs.paths.length := by
  have hn : entries n = (if n.isTerminal then 1 else 0) + n.children.paths.length := rfl
  have hcs : entries { n with children := cs } = (if n.isTerminal then 1 else 0) + cs.paths.length := rfl
  rw [hn, hcs]
  omega

/-- The entries of a node that gets another child. -/
theorem entries_set (n : RadixNode) (t : Int) (m : RadixNode) :
    entries { n with children := n.children.set t m } =
      entries n + entries m - ((n.children.get t).map entries).getD 0 := by
  rw [entries_children, paths_eq_sum (n.children.set t m), sum_set, ← paths_eq_sum]
  omega

theorem entries_erase (n : RadixNode) (t : Int) : entries { n with children := n.children.erase t } =
    entries n - ((n.children.get t).map entries).getD 0 := by
  rw [entries_children, paths_eq_sum (n.children.erase t), sum_erase, ← paths_eq_sum]
  omega

end Children

namespace RadixNode

def weight (n : RadixNode) : Int := n.children.sum refCount + if n.isTerminal then 1 else 0

end RadixNode

/-- Every node has the count it should have and leads to a terminal node, and no token stands twice. -/
def Children.Good : Children → Prop
  | .nil => True
  | .cons t terminal refs kids rest =>
    (refs = RadixNode.weight ⟨terminal, refs, kids⟩ ∧ (kids.isEmpty = true → terminal = true) ∧ kids.Good) ∧
      rest.get t = none ∧ rest.Good

def RadixNode.Good (n : RadixNode) : Prop :=
  n.refCount = n.weight ∧ (n.children.isEmpty = true → n.isTerminal = true) ∧ n.children.Good

open Children RadixNode

variable {cs : Children} {n m : RadixNode} {t : Int} {ts q : List Int}

theorem Children.Good.get (h : cs.Good) (hget : cs.get t = some n) : n.Good := by
  induction cs with
  | nil => cases hget
  | cons u terminal refs kids rest _ ih =>
    unfold Children.get at hget
    split at hget
    · cases hget
      exact h.1
    · exact ih h.2.2 hget

theorem Children.Good.set (h : cs.Good) (hn : n.Good) (t : Int) : (cs.set t n).Good := by
  induction cs with
  | nil => exact ⟨hn, rfl, trivial⟩
  | cons u terminal refs kids rest _ ih =>
    unfold Children.set
    split
    · exact ⟨hn, h.2⟩
    · next hu => exact ⟨h.1, by rw [get_set_ne rest n hu]; exact h.2.1, ih h.2.2⟩

theorem Children.Good.erase (h : cs.Good) (t : Int) : (cs.erase t).Good := by
  induction cs with
  | nil => trivial
  | cons u terminal refs kids rest _ ih =>
    unfold Children.erase
    split
    · exact h.2.2
    · next hu => exact ⟨h.1, by rw [get_erase_ne rest hu]; exact h.2.1, ih h.2.2⟩

theorem Children.Good.get_erase_self (h : cs.Good) (t : Int) : (cs.erase t).get t = none := by
  induction cs with
  | nil => rfl
  | cons u terminal refs kids rest _ ih =>
    unfold Children.erase
    split
    · next hu => exact hu ▸ h.2.1
    · next hu =>
      rw [Children.get, if_neg hu]
      exact ih h.2.2

@[simp] theorem contains_nil (n : RadixNode) : n.contains [] = n.isTerminal := rfl

theorem contains_cons (n : RadixNode) (t : Int) (ts : List Int) :
    n.contains (t :: ts) = ((n.children.get t).map (·.contains ts)).getD false := by
  unfold contains
  rw [find]
  cases n.children.get t <;> rfl

/-- The count of a node does not matter for what it contains. -/
@[simp] theorem contains_refCount (n : RadixNode) (refs : Int) (q : List Int) :
    RadixNode.contains { n with refCount := refs } q = n.contains q := by
  cases q with
  | nil => rfl
  | cons t ts => rw [contains_cons, contains_cons]

@[simp] theorem contains_new (refs : Int) (q : List Int) :
    RadixNode.contains { refCount := refs } q = false := by
  cases q with
  | nil => rfl
  | cons t ts => rw [contains_cons]; rfl

theorem RadixNode.find_good (h : n.children.Good) (hq : q ≠ []) (hfind : n.find q = some m) : m.Good := by
  induction q generalizing n with
  | nil => exact absurd rfl hq
  | cons t ts ih =>
    rw [find] at hfind
    obtain ⟨child, hget, hchild⟩ := Option.bind_eq_some_iff.mp hfind
    have hgood := h.get hget
    cases ts with
    | nil =>
      cases hchild
      exact hgood
    | cons u us => exact ih hgood.2.2 (by simp) hchild

theorem Children.mem_paths (h : cs.Good) : q ∈ cs.paths ↔
    ∃ t ts n, q = t :: ts ∧ cs.get t = some n ∧ n.contains ts = true := by
  induction cs generalizing q with
  | nil => simp [paths, get]
  | cons u terminal refs kids rest ihkids ihrest =>
    obtain ⟨⟨-, -, hkids⟩, hnew, hrest⟩ := h
    have hhead : q ∈ (if terminal then [[u]] else []) ++ kids.paths.map (u :: ·) ↔
        ∃ ts, q = u :: ts ∧ (RadixNode.mk terminal refs kids).contains ts = true := by
      rw [List.mem_append, List.mem_map]
      constructor
      · rintro (hq | ⟨p, hp, rfl⟩)
        · cases terminal with
          | false => simp at hq
          | true => exact ⟨[], by simpa using hq, rfl⟩
        · obtain ⟨t, ts, n, rfl, hget, hn⟩ := (ihkids hkids).mp hp
          exact ⟨t :: ts, rfl, by simp [contains_cons, hget, hn]⟩
      · rintro ⟨ts, rfl, hts⟩
        cases ts with
        | nil =>
          rw [contains_nil] at hts
          exact Or.inl (by simp at hts; simp [hts])
        | cons t ts =>
          rw [contains_cons] at hts
          cases hget : kids.get t with
          | none => simp [hget] at hts
          | some n => exact Or.inr ⟨_, (ihkids hkids).mpr ⟨t, ts, n, rfl, hget, by simpa [hget] using hts⟩, rfl⟩
    rw [paths, List.mem_append, hhead, ihrest hrest]
    constructor
    · rintro (⟨ts, rfl, hts⟩ | ⟨t, ts, n, rfl, hget, hn⟩)
      · exact ⟨u, ts, _, rfl, by simp [get], hts⟩
      · refine ⟨t, ts, n, rfl, ?_, hn⟩
        have hne : u ≠ t := by
          rintro rfl
          rw [hnew] at hget
          cases hget
        rw [get, if_neg hne, hget]
    · rintro ⟨t, ts, n, rfl, hget, hn⟩
      unfold get at hget
      split at hget
      · next hu =>
        cases hget
        exact Or.inl ⟨ts, by rw [hu], hn⟩
      · exact Or.inr ⟨t, ts, n, rfl, hget, hn⟩

/-- No path ends twice in a terminal node. -/
theorem Children.Good.paths_nodup (h : cs.Good) : cs.paths.Nodup := by
  induction cs with
  | nil => exact List.nodup_nil
  | cons u terminal refs kids rest ihkids ihrest =>
    have hbeside := fun q => Children.mem_paths (q := q) h.2.2
    obtain ⟨⟨-, -, hkids⟩, hnew, hrest⟩ := h
    have hhead : ((if terminal then [[u]] else []) ++ kids.paths.map (u :: ·)).Nodup := by
      have hmap : (kids.paths.map (u :: ·)).Nodup := (ihkids hkids).map (List.cons_injective)
      cases terminal with
      | false => simpa using hmap
      | true =>
        refine List.nodup_cons.mpr ⟨fun hmem => ?_, hmap⟩
        obtain ⟨p, hp, he⟩ := List.mem_map.mp hmem
        obtain ⟨t, ts, n, rfl, -, -⟩ := (Children.mem_paths hkids).mp hp
        cases he
    refine List.nodup_append'.mpr ⟨hhead, ihrest hrest, fun q hq hq' => ?_⟩
    obtain ⟨t, ts, n, rfl, hget, -⟩ := (hbeside _).mp hq'
    have ht : t = u := by
      rcases List.mem_append.mp hq with hq | hq
      · cases terminal <;> simp at hq
        exact hq.1
      · obtain ⟨p, -, he⟩ := List.mem_map.mp hq
        exact (List.cons.inj he).1.symm
    rw [ht, hnew] at hget
    cases hget

@[simp] theorem insertLoop_refCount (n : RadixNode) (ts : List Int) (s : Bool) :
    (n.insertLoop ts s).node.refCount = n.refCount := by
  cases ts with
  | nil => rfl
  | cons t ts => unfold insertLoop; split <;> rfl

/-- The sequence is there now, and nothing else changes. -/
theorem insertLoop_contains (n : RadixNode) (ts : List Int) (s : Bool) (q : List Int) :
    (n.insertLoop ts s).node.contains q = (n.contains q || decide (q = ts)) := by
  induction ts generalizing n s q with
  | nil => cases q <;> simp [insertLoop, contains_cons]
  | cons t ts ih =>
    unfold insertLoop
    cases q with
    | nil => split <;> simp
    | cons u us =>
      rw [contains_cons, contains_cons]
      split
      · next hget =>
        by_cases hu : u = t
        · subst hu
          rw [get_set_self, hget]
          simp [ih]
        · simp [get_set_ne n.children _ hu, hu]
      · next child hget =>
        by_cases hu : u = t
        · subst hu
          rw [get_set_self, hget]
          simp [ih]
        · simp [get_set_ne n.children _ hu, hu]

theorem insertLoop_size (n : RadixNode) (ts : List Int) (s : Bool) :
    ((n.insertLoop ts s).node.children.size : Int) = n.children.size + (n.insertLoop ts s).created := by
  induction ts generalizing n s with
  | nil => simp [insertLoop]
  | cons t ts ih =>
    unfold insertLoop
    split
    · next hget =>
      have hbelow := ih { refCount := 1 } false
      simp only [size_set, hget, hbelow, Option.map_none, Option.getD_none, Children.size]
      omega
    · next child hget =>
      have hbelow := ih { child with refCount := child.refCount + 1 } s
      simp only [size_set, hget, hbelow, Option.map_some, Option.getD_some]
      omega

theorem insertLoop_entries (n : RadixNode) (ts : List Int) (s : Bool) :
    entries (n.insertLoop ts s).node = entries n + if (n.insertLoop ts s).fresh then 1 else 0 := by
  induction ts generalizing n s with
  | nil =>
    unfold insertLoop entries
    cases n.isTerminal
    · simp
      omega
    · simp
  | cons t ts ih =>
    unfold insertLoop
    split
    · next hget =>
      have hnew : entries { refCount := 1 } = 0 := rfl
      simp only [entries_set, hget, ih, hnew, Option.map_none, Option.getD_none]
      omega
    · next child hget =>
      have hsame : entries { child with refCount := child.refCount + 1 } = entries child := rfl
      simp only [entries_set, hget, ih, hsame, Option.map_some, Option.getD_some]
      omega

/-- Every node on the path counts the new sequence. -/
theorem insertLoop_good (n : RadixNode) (ts : List Int) (s : Bool) (h : n.children.Good)
    (hfresh : n.contains ts = false) : (n.insertLoop ts s).node.weight = n.weight + 1 ∧
      ((n.insertLoop ts s).node.children.isEmpty = true → (n.insertLoop ts s).node.isTerminal = true) ∧
      (n.insertLoop ts s).node.children.Good := by
  induction ts generalizing n s with
  | nil =>
    rw [contains_nil] at hfresh
    exact ⟨by simp [insertLoop, weight, hfresh], fun _ => rfl, h⟩
  | cons t ts ih =>
    rw [contains_cons] at hfresh
    unfold insertLoop
    split
    · next hget =>
      obtain ⟨hweight, hleaf, hbelow⟩ := ih { refCount := 1 } false trivial (by simp)
      have hcount := insertLoop_refCount { refCount := 1 } ts false
      have hgood : ((RadixNode.insertLoop { refCount := 1 } ts false).node).Good :=
        ⟨by rw [hcount, hweight]; rfl, hleaf, hbelow⟩
      refine ⟨?_, by simp [isEmpty_set], h.set hgood t⟩
      simp only [weight, sum_set, hget, Option.map_none, Option.getD_none, hcount]
      omega
    · next child hget =>
      have hchild := h.get hget
      obtain ⟨hweight, hleaf, hbelow⟩ := ih { child with refCount := child.refCount + 1 } s hchild.2.2
        (by simpa [hget] using hfresh)
      have hcount := insertLoop_refCount { child with refCount := child.refCount + 1 } ts s
      have hgood : ((RadixNode.insertLoop { child with refCount := child.refCount + 1 } ts s).node).Good :=
        ⟨by rw [hcount, hweight, hchild.1]; rfl, hleaf, hbelow⟩
      refine ⟨?_, by simp [isEmpty_set], h.set hgood t⟩
      simp only [weight, sum_set, hget, Option.map_some, Option.getD_some, hcount]
      omega

/-- What `removeLoop` does along a stored path: one sequence less on every node of it, and no node stays
that leads nowhere. -/
structure Removed (n : RadixNode) (ts : List Int) (r : RadixNode × Nat) : Prop where
  refCount : r.1.refCount = n.refCount
  weight : r.1.weight = n.weight - 1
  good : r.1.children.Good
  contains : ∀ q, r.1.contains q = (n.contains q && !decide (q = ts))
  size : (r.1.children.size : Int) + r.2 = n.children.size
  entries : entries r.1 = entries n - 1

theorem Children.eq_nil_of_isEmpty (h : cs.isEmpty = true) : cs = .nil := by
  cases cs with
  | nil => rfl
  | cons u terminal refs kids rest => cases h

section Child
variable {found below : RadixNode} {pruned : Nat}

/-- The child leads nowhere any more, and is dropped. -/
theorem Removed.drop (h : n.children.Good) (hget : n.children.get t = some found)
    (hfound : found.Good) (hbelow : Removed found ts (below, pruned)) (hrefs : below.refCount - 1 ≤ 0)
    (hleaf : below.children.isEmpty = true) :
    Removed n (t :: ts) ({ n with children := n.children.erase t }, pruned + 1) := by
  have hempty := Children.eq_nil_of_isEmpty hleaf
  have hcount : below.refCount - 1 = if below.isTerminal then 1 else 0 := by
    have hweight := hbelow.weight
    rw [RadixNode.weight, hempty, Children.sum] at hweight
    rw [hbelow.refCount, hfound.1]
    simp only at hweight ⊢
    omega
  have hplain : below.isTerminal = false := by
    cases hterminal : below.isTerminal with
    | false => rfl
    | true => rw [hcount, hterminal] at hrefs; simp at hrefs
  have hone : found.refCount = 1 := by
    have := hbelow.refCount
    simp only [hplain] at hcount this
    simp at hcount
    omega
  have hnothing : ∀ q, below.contains q = false := by
    intro q
    cases q with
    | nil => exact hplain
    | cons u us => simp [contains_cons, hempty, Children.get]
  constructor
  · rfl
  · simp only [RadixNode.weight, sum_erase, hget, Option.map_some, Option.getD_some, hone]
    omega
  · exact h.erase t
  · intro q
    cases q with
    | nil => simp
    | cons u us =>
      by_cases hu : u = t
      · subst hu
        have := hbelow.contains us
        simp only [hnothing us] at this
        rw [contains_cons, h.get_erase_self, contains_cons, hget]
        simpa using this
      · simp [contains_cons, get_erase_ne n.children hu, hu]
  · have hsize := hbelow.size
    simp only [size_erase, hget, Option.map_some, Option.getD_some]
    simp only [hempty, Children.size] at hsize
    push_cast at hsize ⊢
    omega
  · have hentries := hbelow.entries
    have hzero : Children.entries below = 0 := by simp [Children.entries, hplain, hempty, paths]
    simp only [hzero] at hentries
    simp only [entries_erase, hget, Option.map_some, Option.getD_some]
    omega

/-- The child stays, with one sequence less. -/
theorem Removed.keep (h : n.children.Good) (hget : n.children.get t = some found)
    (hfound : found.Good) (hbelow : Removed found ts (below, pruned))
    (hkeep : ¬ (below.refCount - 1 ≤ 0 ∧ below.children.isEmpty = true)) :
    Removed n (t :: ts)
      ({ n with children := n.children.set t { below with refCount := below.refCount - 1 } }, pruned) := by
  have hcount : below.refCount - 1 = below.weight := by
    have := hbelow.weight
    have := hbelow.refCount
    have := hfound.1
    simp only at *
    omega
  have hgood : RadixNode.Good { below with refCount := below.refCount - 1 } := by
    refine ⟨hcount, fun hleaf => ?_, hbelow.good⟩
    by_contra hplain
    refine hkeep ⟨?_, hleaf⟩
    rw [hcount, RadixNode.weight, Children.eq_nil_of_isEmpty hleaf]
    simp [Children.sum, hplain]
  have hentries : Children.entries { below with refCount := below.refCount - 1 } =
    Children.entries found - 1 := hbelow.entries
  constructor
  · rfl
  · have := hbelow.refCount
    simp only [RadixNode.weight, sum_set, hget, Option.map_some, Option.getD_some]
    simp only at this
    omega
  · exact h.set hgood t
  · intro q
    cases q with
    | nil => simp
    | cons u us =>
      by_cases hu : u = t
      · subst hu
        rw [contains_cons, get_set_self, contains_cons, hget]
        simpa using hbelow.contains us
      · simp [contains_cons, get_set_ne n.children _ hu, hu]
  · have hsize := hbelow.size
    simp only [size_set, hget, Option.map_some, Option.getD_some]
    simp only at hsize
    omega
  · simp only [entries_set, hget, Option.map_some, Option.getD_some, hentries]
    omega

end Child

theorem removeLoop_removed (n : RadixNode) (ts : List Int) (h : n.children.Good)
    (hstored : n.contains ts = true) : Removed n ts (n.removeLoop ts) := by
  induction ts generalizing n with
  | nil =>
    rw [contains_nil] at hstored
    constructor
    · rfl
    · simp [removeLoop, RadixNode.weight, hstored]
    · exact h
    · intro q
      cases q <;> simp [removeLoop, contains_cons]
    · simp [removeLoop]
    · simp [removeLoop, Children.entries, hstored]
  | cons t ts ih =>
    rw [contains_cons] at hstored
    unfold removeLoop
    split
    · next hget => simp [hget] at hstored
    · next found hget =>
      have hfound := h.get hget
      have hbelow := ih found hfound.2.2 (by simpa [hget] using hstored)
      rcases hr : found.removeLoop ts with ⟨below, pruned⟩
      rw [hr] at hbelow
      dsimp only
      split
      · next hdrop => exact hbelow.drop h hget hfound hdrop.1 hdrop.2
      · next hkeep => exact hbelow.keep h hget hfound hkeep

end FusionMlx.RadixIndex
