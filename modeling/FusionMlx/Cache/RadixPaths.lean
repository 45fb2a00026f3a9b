import FusionMlx.Cache.RadixPrefixCache
import FusionMlx.Support.BranchingPaths

/-!
# The paths of the trie

`At t p n` says that the path `p` of blocks leads from the root to the node
`n`. Indexing a path enters it into the set of paths as a tree that branches
on the first token does: it is added, and the paths it clashes with are lost.
-/
namespace FusionMlx.RadixPaths

open OrderedDict RadixTrie BranchingPaths

variable {t t' : Trie} {a b c n : Nat} {p q r : List (List Int)} {ts : List Int}

inductive At (t : Trie) : List (List Int) → Nat → Prop
  | root : At t [] 0
  | child {p : List (List Int)} {a c : Nat} (h : At t p a)
      (hc : (t.nodes a).children.get? (firstToken (t.nodes c).key) = some c) :
      At t (p ++ [(t.nodes c).key]) c

def paths (t : Trie) : Set (List (List Int)) := {p | ∃ n, At t p n}

structure Wf (t : Trie) : Prop where
  root : 0 < t.size
  top : (t.nodes 0).parent = none
  used : ∀ a k c, (t.nodes a).children.get? k = some c → c < t.size
  linked : ∀ a k c, (t.nodes a).children.get? k = some c →
    (t.nodes c).parent = some a ∧ firstToken (t.nodes c).key = k
  older : ∀ a p, (t.nodes a).parent = some p → p < a

theorem At.lt (hw : Wf t) (h : At t p n) : n < t.size := by
  cases h with
  | root => exact hw.root
  | child h hc => exact hw.used _ _ _ hc

theorem At.of_nil (h : At t [] n) : n = 0 := by
  generalize hp : ([] : List (List Int)) = p at h
  cases h with
  | root => rfl
  | child _ _ => simp at hp

/-- The last edge of a path that is not empty. -/
theorem At.last (h : At t p n) (hp : p ≠ []) :
    ∃ q a, p = q ++ [(t.nodes n).key] ∧ At t q a ∧
      (t.nodes a).children.get? (firstToken (t.nodes n).key) = some n := by
  cases h with
  | root => exact absurd rfl hp
  | child h hc => exact ⟨_, _, rfl, h, hc⟩

theorem At.concat (h : At t p a) (hc : (t.nodes a).children.get? (firstToken ts) = some c)
    (hk : (t.nodes c).key = ts) : At t (p ++ [ts]) c := by
  subst hk
  exact h.child hc

/-- One node for a path. -/
theorem At.node_unique (h : At t p n) {m : Nat} (h' : At t p m) : n = m := by
  induction p using List.reverseRecOn generalizing n m with
  | nil => rw [h.of_nil, h'.of_nil]
  | append_singleton p ts ih =>
    obtain ⟨q, a, hq, ha, hca⟩ := h.last (by simp)
    obtain ⟨q', a', hq', ha', hca'⟩ := h'.last (by simp)
    obtain ⟨rfl, hkey⟩ := List.append_inj' hq rfl
    obtain ⟨rfl, hkey'⟩ := List.append_inj' hq' rfl
    have hk : (t.nodes n).key = (t.nodes m).key := by
      rw [← List.singleton_inj, ← hkey, hkey']
    rw [← ih ha ha', ← hk, hca] at hca'
    exact Option.some.inj hca'

/-- One path for a node. -/
theorem At.path_unique (hw : Wf t) (h : At t p n) (h' : At t q n) : p = q := by
  induction h generalizing q with
  | root =>
    by_contra hq
    obtain ⟨q', a, -, -, hc⟩ := h'.last (fun h => hq h.symm)
    have := (hw.linked a _ 0 hc).1
    rw [hw.top] at this
    cases this
  | @child p a c h hc ih =>
    by_cases hq : q = []
    · subst hq
      rw [h'.of_nil] at hc
      have := (hw.linked a _ 0 hc).1
      rw [hw.top] at this
      cases this
    · obtain ⟨q', a', rfl, ha', hc'⟩ := h'.last hq
      have h₁ := (hw.linked a _ c hc).1
      have h₂ := (hw.linked a' _ c hc').1
      rw [h₁, Option.some.injEq] at h₂
      subst h₂
      rw [ih ha']

theorem At.prefix (h : At t p n) (hq : q <+: p) : ∃ m, At t q m := by
  induction h generalizing q with
  | root => exact ⟨0, List.prefix_nil.mp hq ▸ .root⟩
  | @child p a c h hc ih =>
    rcases List.prefix_concat_iff.mp hq with rfl | hq
    · exact ⟨c, h.child hc⟩
    · exact ih hq

/-- The edge below a node that is reached. -/
theorem At.edge (h : At t r a) (hr : At t (r ++ [ts]) c) :
    (t.nodes a).children.get? (firstToken ts) = some c ∧ (t.nodes c).key = ts := by
  obtain ⟨q, b, hq, hb, hc⟩ := hr.last (by simp)
  obtain ⟨rfl, hkey⟩ := List.append_inj' hq rfl
  rw [List.singleton_inj] at hkey
  rw [h.node_unique hb, hkey]
  exact ⟨hc, rfl⟩

/-- Between `t` and `t'` only children were unlinked and block ids taken away. -/
structure Trims (t t' : Trie) : Prop where
  size : t'.size = t.size
  key : ∀ n, (t'.nodes n).key = (t.nodes n).key
  parent : ∀ n, (t'.nodes n).parent = (t.nodes n).parent
  children : ∀ a k c, (t'.nodes a).children.get? k = some c → (t.nodes a).children.get? k = some c
  blockId : ∀ n b, (t'.nodes n).blockId = some b → (t.nodes n).blockId = some b

namespace Trims

theorem refl (t : Trie) : Trims t t := ⟨rfl, fun _ => rfl, fun _ => rfl, fun _ _ _ h => h, fun _ _ h => h⟩

theorem trans {t'' : Trie} (h : Trims t t') (h' : Trims t' t'') : Trims t t'' :=
  ⟨h'.size.trans h.size, fun n => (h'.key n).trans (h.key n),
    fun n => (h'.parent n).trans (h.parent n), fun a k c hc => h.children a k c (h'.children a k c hc),
    fun n b hb => h.blockId n b (h'.blockId n b hb)⟩

theorem wf (h : Trims t t') (hw : Wf t) : Wf t' where
  root := h.size ▸ hw.root
  top := (h.parent 0).trans hw.top
  used a k c hc := h.size ▸ hw.used a k c (h.children a k c hc)
  linked a k c hc := by
    rw [h.parent, h.key]
    exact hw.linked a k c (h.children a k c hc)
  older a p hp := hw.older a p ((h.parent a).symm.trans hp)

theorem at_of (h : Trims t t') (hn : At t' p n) : At t p n := by
  induction hn with
  | root => exact .root
  | child _ hc ih =>
    rw [h.key] at hc ⊢
    exact ih.child (h.children _ _ _ hc)

/-- Editing one node so that its key and parent stay and its children and block id only go. -/
theorem modify (t : Trie) (a : Nat) (f : RadixNode → RadixNode)
    (hk : (f (t.nodes a)).key = (t.nodes a).key) (hp : (f (t.nodes a)).parent = (t.nodes a).parent)
    (hc : ∀ k c, (f (t.nodes a)).children.get? k = some c → (t.nodes a).children.get? k = some c)
    (hb : ∀ b, (f (t.nodes a)).blockId = some b → (t.nodes a).blockId = some b) :
    Trims t (t.modify a f) := by
  have hn : ∀ n, (t.modify a f).nodes n = if n = a then f (t.nodes a) else t.nodes n := by
    intro n
    simp only [Trie.modify, Function.update_apply]
  refine ⟨rfl, fun n => ?_, fun n => ?_, fun n k c h => ?_, fun n b h => ?_⟩
  · rw [hn]; split <;> simp_all
  · rw [hn]; split <;> simp_all
  · rw [hn] at h; split at h <;> simp_all
  · rw [hn] at h; split at h <;> simp_all

end Trims

theorem trims_clear (t : Trie) (a : Nat) :
    Trims t (t.modify a (fun n => { n with blockId := none })) :=
  .modify t a _ rfl rfl (fun _ _ h => h) (fun _ h => by cases h)

theorem trims_unlink (t : Trie) (a : Nat) (k : Int) :
    Trims t (t.modify a (fun n => { n with children := n.children.erase k })) :=
  .modify t a _ rfl rfl (fun _ _ h => Dict.get?_of_erase h) (fun _ h => h)

theorem trims_index {d : Dict Nat Nat} (h : Trims t t') : Trims t { t' with nodeIndex := d } :=
  ⟨h.size, h.key, h.parent, h.children, h.blockId⟩

theorem trims_prune (n a : Nat) (t : Trie) : Trims t (Trie.prune n a t) := by
  induction n generalizing a t with
  | zero => exact .refl t
  | succ n ih =>
    simp only [Trie.prune]
    split
    · exact .refl t
    · split
      · refine Trims.trans ?_ (ih _ _)
        split
        · exact .refl t
        · split
          · exact trims_unlink t _ _
          · exact .refl t
      · exact .refl t

theorem trims_onBlockFreed (t : Trie) (b : Nat) : Trims t (t.onBlockFreed b) := by
  simp only [Trie.onBlockFreed]
  split
  · exact .refl t
  · exact (trims_index (trims_clear t _)).trans (trims_prune _ _ _)

theorem trims_dropStale (usable : Nat → Bool) (t : Trie) (e : Nat × Nat) :
    Trims t (t.dropStale usable e) := by
  simp only [Trie.dropStale]
  split
  · exact .refl t
  · exact trims_index (trims_clear t _)

theorem trims_foldl {β : Type} (f : Trie → β → Trie) (hf : ∀ t x, Trims t (f t x)) (xs : List β)
    (t : Trie) : Trims t (xs.foldl f t) := by
  induction xs generalizing t with
  | nil => exact .refl t
  | cons x xs ih => exact (hf t x).trans (ih _)

theorem newChild_nodes (ha : a < t.size) (ts : List Int) (n : Nat) :
    (t.newChild a ts).nodes n =
      if n = a then { t.nodes a with children := (t.nodes a).children.set (firstToken ts) t.size }
      else if n = t.size then { key := ts, parent := some a, parentKey := some (firstToken ts) }
      else t.nodes n := by
  have hne : a ≠ t.size := Nat.ne_of_lt ha
  simp only [Trie.newChild, Trie.modify, Function.update_apply, if_neg hne]

theorem wf_newChild (hw : Wf t) (ha : a < t.size) (ts : List Int) : Wf (t.newChild a ts) := by
  have hn := newChild_nodes ha ts
  have hne : a ≠ t.size := Nat.ne_of_lt ha
  have hchild : ∀ m k c, ((t.newChild a ts).nodes m).children.get? k = some c →
      (m = a ∧ k = firstToken ts ∧ c = t.size) ∨ (t.nodes m).children.get? k = some c := by
    intro m k c hc
    rw [hn] at hc
    by_cases hm : m = a
    · subst hm
      rw [if_pos rfl, Dict.get?_set] at hc
      by_cases hk : k = firstToken ts
      · rw [if_pos hk, Option.some.injEq] at hc
        exact Or.inl ⟨rfl, hk, hc.symm⟩
      · rw [if_neg hk] at hc
        exact Or.inr hc
    · rw [if_neg hm] at hc
      split at hc
      · simp at hc
      · exact Or.inr hc
  refine ⟨Nat.succ_pos _, ?_, ?_, ?_, ?_⟩
  · rw [hn]
    have := hw.top
    have := hw.root
    split <;> [skip; split] <;> simp_all
  · intro m k c hc
    rcases hchild m k c hc with ⟨-, -, rfl⟩ | hc
    · exact Nat.lt_succ_self _
    · exact Nat.lt_succ_of_lt (hw.used m k c hc)
  · intro m k c hc
    rcases hchild m k c hc with ⟨rfl, rfl, rfl⟩ | hc
    · rw [hn, if_neg hne.symm, if_pos rfl]
      exact ⟨rfl, rfl⟩
    · have hlt := hw.used m k c hc
      have := hw.linked m k c hc
      rw [hn]
      split
      · simp_all
      · rw [if_neg (Nat.ne_of_lt hlt)]
        exact this
  · intro m p hp
    rw [hn] at hp
    split at hp
    · next h => exact h ▸ hw.older a p (h ▸ hp)
    · split at hp
      · next h =>
        simp only [Option.some.injEq] at hp
        omega
      · exact hw.older m p hp

/-- A new child below the end of `r` adds its path and loses those through the edge it replaces. -/
theorem at_newChild (hw : Wf t) (hr : At t r a) (hno : ∀ c, ¬ At t (r ++ [ts]) c) :
    At (t.newChild a ts) p n ↔ (p = r ++ [ts] ∧ n = t.size) ∨
      (At t p n ∧ ∀ y, y ≠ ts → firstToken y = firstToken ts → ¬ r ++ [y] <+: p) := by
  have ha := hr.lt hw
  have hn := newChild_nodes ha ts
  have hne : t.size ≠ a := (Nat.ne_of_lt ha).symm
  have hkey : ∀ m, m < t.size → ((t.newChild a ts).nodes m).key = (t.nodes m).key := by
    intro m hm
    rw [hn]
    split
    · simp_all
    · rw [if_neg (Nat.ne_of_lt hm)]
  constructor
  · intro h
    induction h with
    | root =>
      refine Or.inr ⟨.root, fun y _ _ hy => ?_⟩
      have := List.prefix_nil.mp hy
      simp at this
    | @child p m c h hc ih =>
      rcases ih with ⟨rfl, rfl⟩ | ⟨hm, hkeep⟩
      · rw [hn, if_neg hne, if_pos rfl] at hc
        simp at hc
      · have hlt := hm.lt hw
        by_cases hma : m = a
        · subst hma
          obtain rfl := hm.path_unique hw hr
          rw [hn m, if_pos rfl, Dict.get?_set] at hc
          split at hc
          · next htag =>
            rw [Option.some.injEq] at hc
            subst hc
            refine Or.inl ⟨?_, rfl⟩
            rw [hn, if_neg hne, if_pos rfl]
          · next htag =>
            have hk := hkey c (hw.used m _ c hc)
            rw [hk] at hc htag ⊢
            refine Or.inr ⟨hm.child hc, fun y _ hy hpre => ?_⟩
            have heq := edge_unique hpre List.prefix_rfl
            exact htag (heq ▸ hy)
        · rw [hn m, if_neg hma, if_neg (Nat.ne_of_lt hlt)] at hc
          have hk := hkey c (hw.used m _ c hc)
          rw [hk] at hc ⊢
          refine Or.inr ⟨hm.child hc, fun y hy htag hpre => ?_⟩
          rcases List.prefix_concat_iff.mp hpre with heq | hpre
          · obtain ⟨rfl, -⟩ := List.append_inj' heq rfl
            exact hma (hm.node_unique hr)
          · exact hkeep y hy htag hpre
  · have hold : ∀ {p n}, At t p n →
        (∀ y, y ≠ ts → firstToken y = firstToken ts → ¬ r ++ [y] <+: p) →
        At (t.newChild a ts) p n := by
      intro p n h
      induction h with
      | root => exact fun _ => .root
      | @child p m c h hc ih =>
        intro hkeep
        have hm := ih (fun y hy htag hpre => hkeep y hy htag (hpre.trans (List.prefix_append _ _)))
        have hk := hkey c (hw.used m _ c hc)
        refine hm.concat ?_ hk
        by_cases hma : m = a
        · subst hma
          obtain rfl := h.path_unique hw hr
          have htag : firstToken (t.nodes c).key ≠ firstToken ts := by
            intro htag
            refine hkeep (t.nodes c).key (fun he => ?_) htag List.prefix_rfl
            exact hno c (he ▸ h.child hc)
          rw [hn, if_pos rfl, Dict.get?_set_ne _ _ htag]
          exact hc
        · rw [hn, if_neg hma, if_neg (Nat.ne_of_lt (h.lt hw))]
          exact hc
    rintro (⟨rfl, rfl⟩ | ⟨h, hkeep⟩)
    · have hra := hold hr (fun y _ _ hpre => by
        have := hpre.length_le
        simp only [List.length_append, List.length_singleton] at this
        omega)
      refine hra.concat ?_ ?_
      · rw [hn, if_pos rfl, Dict.get?_set_self]
      · rw [hn, if_neg hne, if_pos rfl]
    · exact hold h hkeep

/-- What looking up or making the child for a block below the end of `r` does. -/
structure Entered (t t' : Trie) (r : List (List Int)) (ts : List Int) (c : Nat) : Prop where
  wf : Wf t'
  here : At t' (r ++ [ts]) c
  paths : paths t' = enterEdge firstToken (paths t) r ts
  blockId : ∀ p n, At t' p n → (t'.nodes n).blockId = none ∧ n = c ∨
    At t p n ∧ (t'.nodes n).blockId = (t.nodes n).blockId

theorem childFor_entered (hw : Wf t) (hr : At t r a) (ts : List Int) :
    Entered t (t.childFor a ts).2 r ts (t.childFor a ts).1 := by
  have hnew : (∀ c, ¬ At t (r ++ [ts]) c) → Entered t (t.newChild a ts) r ts t.size := by
    intro hno
    have hat := fun p n => at_newChild (p := p) (n := n) hw hr hno
    have hne : t.size ≠ a := (Nat.ne_of_lt (hr.lt hw)).symm
    refine ⟨wf_newChild hw (hr.lt hw) ts, (hat _ _).mpr (Or.inl ⟨rfl, rfl⟩), ?_, ?_⟩
    · ext p
      constructor
      · rintro ⟨n, h⟩
        rcases (hat p n).mp h with ⟨rfl, -⟩ | ⟨h, hkeep⟩
        · exact Or.inl rfl
        · exact Or.inr ⟨⟨n, h⟩, hkeep⟩
      · rintro (rfl | ⟨⟨n, h⟩, hkeep⟩)
        · exact ⟨_, (hat _ _).mpr (Or.inl ⟨rfl, rfl⟩)⟩
        · exact ⟨n, (hat _ _).mpr (Or.inr ⟨h, hkeep⟩)⟩
    · intro p n h
      rw [newChild_nodes (hr.lt hw)]
      rcases (hat p n).mp h with ⟨-, rfl⟩ | ⟨h, -⟩
      · rw [if_neg hne, if_pos rfl]
        exact Or.inl ⟨rfl, rfl⟩
      · refine Or.inr ⟨h, ?_⟩
        split
        · simp_all
        · rw [if_neg (Nat.ne_of_lt (h.lt hw))]
  simp only [Trie.childFor]
  cases hc : (t.nodes a).children.get? (firstToken ts) with
  | none =>
    refine hnew (fun c h => ?_)
    have := (hr.edge h).1
    rw [hc] at this
    cases this
  | some c =>
    dsimp only
    split
    · next hk =>
      refine ⟨hw, hr.concat hc hk, ?_, fun p n h => Or.inr ⟨h, rfl⟩⟩
      ext p
      constructor
      · rintro ⟨n, h⟩
        refine Or.inr ⟨⟨n, h⟩, fun y hy htag hpre => hy ?_⟩
        obtain ⟨m, hm⟩ := h.prefix hpre
        obtain ⟨hm', hkm⟩ := hr.edge hm
        rw [htag, hc, Option.some.injEq] at hm'
        rw [← hkm, ← hm', hk]
      · rintro (rfl | ⟨h, -⟩)
        · exact ⟨c, hr.concat hc hk⟩
        · exact h
    · next hk =>
      refine hnew (fun d h => hk ?_)
      obtain ⟨hd, hkd⟩ := hr.edge h
      rw [hc, Option.some.injEq] at hd
      exact hd ▸ hkd

theorem attach_nodes (t : Trie) (c b n : Nat) :
    ((t.attach c b).nodes n).key = (t.nodes n).key ∧
      ((t.attach c b).nodes n).parent = (t.nodes n).parent ∧
      ((t.attach c b).nodes n).children = (t.nodes n).children ∧
      ((t.attach c b).nodes n).blockId =
        if n = c then some ((t.nodes c).blockId.getD b) else (t.nodes n).blockId := by
  cases hb : (t.nodes c).blockId with
  | some d =>
    have ht : t.attach c b = t := by simp only [Trie.attach, hb]
    rw [ht]
    refine ⟨rfl, rfl, rfl, ?_⟩
    by_cases hn : n = c <;> simp [hn, hb]
  | none =>
    simp only [Trie.attach, hb, Trie.modify, Function.update_apply]
    by_cases hn : n = c <;> simp [hn]

theorem attach_size (t : Trie) (c b : Nat) : (t.attach c b).size = t.size := by
  simp only [Trie.attach]
  split <;> rfl

theorem wf_attach (hw : Wf t) (c b : Nat) : Wf (t.attach c b) := by
  have hn := attach_nodes t c b
  refine ⟨attach_size t c b ▸ hw.root, (hn 0).2.1.trans hw.top, ?_, ?_, ?_⟩
  · intro m k d hd
    rw [(hn m).2.2.1] at hd
    rw [attach_size]
    exact hw.used m k d hd
  · intro m k d hd
    rw [(hn m).2.2.1] at hd
    rw [(hn d).1, (hn d).2.1]
    exact hw.linked m k d hd
  · intro m q hq
    exact hw.older m q ((hn m).2.1.symm.trans hq)

theorem at_attach (c b : Nat) : At (t.attach c b) p n ↔ At t p n := by
  have hn := attach_nodes t c b
  constructor
  · intro h
    induction h with
    | root => exact .root
    | @child p m d _ hc ih =>
      rw [(hn m).2.2.1, (hn d).1] at hc
      rw [(hn d).1]
      exact ih.child hc
  · intro h
    induction h with
    | root => exact .root
    | @child p m d _ hc ih =>
      rw [← (hn d).1] at hc ⊢
      rw [← (hn m).2.2.1] at hc
      exact ih.child hc

/-- Every block id in the trie stands for its path as `good` says. -/
def Labelled (t : Trie) (good : List (List Int) → Nat → Prop) : Prop :=
  ∀ p n b, At t p n → (t.nodes n).blockId = some b → good p b

def Full (t : Trie) : Prop := ∀ p n, p ≠ [] → At t p n → (t.nodes n).blockId ≠ none

theorem Labelled.trims {good : List (List Int) → Nat → Prop} (h : Labelled t good)
    (ht : Trims t t') : Labelled t' good :=
  fun p n b hn hb => h p n b (ht.at_of hn) (ht.blockId n b hb)

theorem Labelled.mono {good good' : List (List Int) → Nat → Prop} (h : Labelled t good)
    (hle : ∀ p b, good p b → good' p b) : Labelled t good' :=
  fun p n b hn hb => hle p b (h p n b hn hb)

/-- What one round of the indexing loop does. -/
theorem attach_entered {t₁ : Trie} (h : Entered t t₁ r ts c) (b : Nat) :
    Wf (t₁.attach c b) ∧ At (t₁.attach c b) (r ++ [ts]) c ∧
      paths (t₁.attach c b) = enterEdge firstToken (paths t) r ts ∧
      (∀ good, Labelled t good → good (r ++ [ts]) b → Labelled (t₁.attach c b) good) ∧
      (Full t → Full (t₁.attach c b)) := by
  have hn := attach_nodes t₁ c b
  refine ⟨wf_attach h.wf c b, (at_attach c b).mpr h.here, ?_, ?_, ?_⟩
  · rw [← h.paths]
    ext p
    exact exists_congr fun n => at_attach c b
  · intro good hgood hb p n d hp hd
    rw [at_attach] at hp
    rw [(hn n).2.2.2] at hd
    have hcase := h.blockId p n hp
    by_cases hc : n = c
    · subst hc
      obtain rfl := hp.path_unique h.wf h.here
      rw [if_pos rfl, Option.some.injEq] at hd
      subst hd
      rcases hcase with ⟨hnone, -⟩ | ⟨hold, hsame⟩
      · rw [hnone]
        exact hb
      · cases hid : (t₁.nodes n).blockId with
        | none => exact hb
        | some e => exact hgood _ n e hold (hsame ▸ hid)
    · rw [if_neg hc] at hd
      rcases hcase with ⟨-, hnc⟩ | ⟨hold, hsame⟩
      · exact absurd hnc hc
      · exact hgood p n d hold (hsame ▸ hd)
  · intro hfull p n hp hat
    rw [at_attach] at hat
    rw [(hn n).2.2.2]
    split
    · simp
    · next hc =>
      rcases h.blockId p n hat with ⟨-, hnc⟩ | ⟨hold, hsame⟩
      · exact absurd hnc hc
      · exact hsame ▸ hfull p n hp hold

/-- Indexing below the end of `r` enters the path, block by block, and attaches to a node only
the id given for its path. -/
theorem index_entered (slices : List (List Int)) (ids : List Nat) (hlen : ids.length = slices.length)
    (S : Set (List (List Int))) (hw : Wf t) (hr : At t r a) (hS : paths t = enter firstToken S r) :
    Wf (Trie.index slices ids a t) ∧
      paths (Trie.index slices ids a t) = enter firstToken S (r ++ slices) ∧
      (∀ good, Labelled t good → (∀ i b, ids[i]? = some b → good (r ++ slices.take (i + 1)) b) →
        Labelled (Trie.index slices ids a t) good) ∧
      (Full t → Full (Trie.index slices ids a t)) := by
  induction slices generalizing ids t a r with
  | nil =>
    simp only [Trie.index, List.append_nil]
    exact ⟨hw, hS, fun _ h _ => h, id⟩
  | cons ts slices ih =>
    obtain _ | ⟨b, ids⟩ := ids
    · simp at hlen
    · have hent := childFor_entered hw hr ts
      obtain ⟨hw', hhere, hpaths, hlab, hfull⟩ := attach_entered hent b
      have hS' : paths ((t.childFor a ts).2.attach (t.childFor a ts).1 b) =
          enter firstToken S (r ++ [ts]) := by
        rw [hpaths, hS, enter_concat]
      obtain ⟨h₁, h₂, h₃, h₄⟩ := ih ids (by simpa using hlen) hw' hhere hS'
      simp only [Trie.index]
      rw [List.append_assoc, List.singleton_append] at h₂
      refine ⟨h₁, h₂, fun good hgood hids => ?_, fun hf => h₄ (hfull hf)⟩
      have hb : good (r ++ [ts]) b := by simpa using hids 0 b rfl
      refine h₃ good (hlab good hgood hb) (fun i d hi => ?_)
      have := hids (i + 1) d hi
      simpa [List.append_assoc] using this

/-- The trie after indexing a path from its root. -/
theorem index_spec (slices : List (List Int)) (ids : List Nat) (hlen : ids.length = slices.length)
    (hw : Wf t) :
    Wf (Trie.index slices ids 0 t) ∧
      paths (Trie.index slices ids 0 t) = enter firstToken (paths t) slices ∧
      (∀ good, Labelled t good → (∀ i b, ids[i]? = some b → good (slices.take (i + 1)) b) →
        Labelled (Trie.index slices ids 0 t) good) ∧
      (Full t → Full (Trie.index slices ids 0 t)) := by
  have hroot : [] ∈ paths t := ⟨0, .root⟩
  have hS : paths t = enter firstToken (paths t) [] := (enter_nil hroot).symm
  have h := index_entered slices ids hlen (paths t) hw .root hS
  simpa only [List.nil_append] using h

theorem wf_empty : Wf Trie.empty := by
  refine ⟨Nat.one_pos, rfl, ?_, ?_, ?_⟩
  · intro a k c hc
    cases hc
  · intro a k c hc
    cases hc
  · intro a p hp
    cases hp

theorem paths_empty : paths Trie.empty = {[]} := by
  ext p
  constructor
  · rintro ⟨n, h⟩
    cases h with
    | root => rfl
    | child _ hc => cases hc
  · rintro rfl
    exact ⟨0, .root⟩

/-- The ids the walk returns are those along its path, all usable. -/
theorem walk_sound (usable : Nat → Bool) (slices : List (List Int)) (hr : At t r a) (i b : Nat)
    (hi : (t.walk usable slices a)[i]? = some b) :
    usable b = true ∧ i < slices.length ∧
      ∃ n, At t (r ++ slices.take (i + 1)) n ∧ (t.nodes n).blockId = some b := by
  induction slices generalizing r a i with
  | nil => simp [Trie.walk] at hi
  | cons ts slices ih =>
    simp only [Trie.walk] at hi
    split at hi
    · simp at hi
    · next c hc =>
      split at hi
      · simp at hi
      · next d hd =>
        split at hi
        · next hk =>
          have hat := hr.concat hc hk.1
          cases i with
          | zero =>
            simp only [List.getElem?_cons_zero, Option.some.injEq] at hi
            subst hi
            exact ⟨hk.2, by simp, c, by simpa using hat, hd⟩
          | succ i =>
            obtain ⟨hu, hlt, n, hn, hb⟩ := ih hat i hi
            refine ⟨hu, by simpa using hlt, n, ?_, hb⟩
            simpa [List.append_assoc] using hn
        · simp at hi

/-- The walk goes on as long as there is a node whose block id is usable. -/
theorem walk_complete (usable : Nat → Bool) (slices : List (List Int)) (hr : At t r a) (k : Nat)
    (hk : k ≤ slices.length) (hall : ∀ j < k, ∃ n b, At t (r ++ slices.take (j + 1)) n ∧
      (t.nodes n).blockId = some b ∧ usable b = true) :
    k ≤ (t.walk usable slices a).length := by
  induction slices generalizing r a k with
  | nil =>
    have : k = 0 := by simpa using hk
    omega
  | cons ts slices ih =>
    cases k with
    | zero => exact Nat.zero_le _
    | succ k =>
      obtain ⟨c, b, hc, hb, hu⟩ := hall 0 (Nat.succ_pos k)
      have hc' : At t (r ++ [ts]) c := by simpa using hc
      obtain ⟨hedge, hkey⟩ := hr.edge hc'
      have hwalk : t.walk usable (ts :: slices) a = b :: t.walk usable slices c := by
        simp [Trie.walk, hedge, hb, hkey, hu]
      rw [hwalk, List.length_cons]
      refine Nat.succ_le_succ (ih hc' k (by simpa using hk) (fun j hj => ?_))
      obtain ⟨n, d, hn, hd, hud⟩ := hall (j + 1) (Nat.succ_lt_succ hj)
      exact ⟨n, d, by simpa [List.append_assoc] using hn, hd, hud⟩

end FusionMlx.RadixPaths
