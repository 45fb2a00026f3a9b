import FusionMlx.Support.TextSearch

/-!
# Searching for patterns

Where a separator cannot stand, and the matches of a pattern that is tried at
one position after another, as a regular expression engine tries it.
-/
namespace FusionMlx.TextSearch

variable {α β : Type} {sep t u a b : List α}

/-- A beginning of two texts is shorter than the first or has it whole. -/
theorem prefix_append_cases (h : t <+: a ++ b) : t <+: a ∧ t ≠ a ∨ ∃ u, u <+: b ∧ t = a ++ u := by
  rcases List.prefix_or_prefix_of_prefix h (List.prefix_append a b) with hp | ⟨u, rfl⟩
  · by_cases ht : t = a
    · exact .inr ⟨[], List.nil_prefix, by simpa using ht⟩
    · exact .inl ⟨hp, ht⟩
  · exact .inr ⟨u, (List.prefix_append_right_inj a).1 h, rfl⟩

/-- A separator does not start where its first letter is missing. -/
theorem infix_append_of_head {x : α} {xs : List α} (hx : x ∉ a) :
    x :: xs <:+: a ++ b ↔ x :: xs <:+: b := by
  induction a with
  | nil => rfl
  | cons y a ih =>
    rw [List.cons_append, List.infix_cons_iff, ih (fun h => hx (by simp [h]))]
    refine or_iff_right (fun h => hx ?_)
    rw [(List.cons_prefix_cons.1 h).1]
    simp

/-- A text without a letter stands before or behind it. -/
theorem infix_cons_of_not_mem {x : α} (hx : x ∉ sep) (h : sep <:+: a ++ x :: b) : sep <:+: a ∨ sep <:+: b := by
  rcases List.infix_append_iff_ne_nil.1 h with h | h | ⟨l₁, l₂, -, h₂, rfl, -, hpre⟩
  · exact .inl h
  · rcases List.infix_cons_iff.1 h with h | h
    · cases sep with
      | nil => exact .inl (List.nil_infix)
      | cons y sep => exact absurd (by rw [(List.cons_prefix_cons.1 h).1]; simp) hx
    · exact .inr h
  · obtain ⟨y, l₂, rfl⟩ := List.exists_cons_of_ne_nil h₂
    exact absurd (by rw [(List.cons_prefix_cons.1 hpre).1]; simp) hx

/-- Two texts without a sharp separator have none together when the second starts with its first
letter. -/
theorem Sharp.not_infix_append (hsep : Sharp sep) (ha : ¬ sep <:+: a) (hb : ¬ sep <:+: b)
    (hhead : b.head? = sep.head?) : ¬ sep <:+: a ++ b := by
  intro h
  rcases List.infix_append_iff_ne_nil.1 h with h | h | ⟨l₁, l₂, h₁, h₂, hl, -, hpre⟩
  · exact ha h
  · exact hb h
  · obtain ⟨x, xs, rfl, hx⟩ := hsep
    obtain ⟨y, l₁, rfl⟩ := List.exists_cons_of_ne_nil h₁
    obtain ⟨z, l₂, rfl⟩ := List.exists_cons_of_ne_nil h₂
    obtain ⟨r, rfl⟩ := hpre
    obtain rfl : z = x := by simpa using hhead
    exact hx (by rw [(List.cons.inj hl).2]; simp)

/-- A sharp separator does not start in a text without it, whatever follows that starts like it. -/
theorem Sharp.not_prefix_append (hsep : Sharp sep) (ha : ¬ sep <:+: a) (hne : a ≠ [])
    (hb : b = [] ∨ b.head? = sep.head?) : ¬ sep <+: a ++ b := by
  intro h
  rcases List.prefix_or_prefix_of_prefix h (List.prefix_append a b) with hpre | hpre
  · exact ha hpre.isInfix
  obtain ⟨z, rfl⟩ := hpre
  have hz : z <+: b := (List.prefix_append_right_inj a).1 h
  cases z with
  | nil => exact ha (by simp)
  | cons y z =>
    obtain ⟨x, xs, hxs, hx⟩ := hsep
    obtain ⟨w, a, rfl⟩ := List.exists_cons_of_ne_nil hne
    obtain ⟨r, rfl⟩ := hz
    obtain rfl : y = w := by simpa using hb
    obtain ⟨rfl, rfl⟩ := List.cons.inj hxs
    exact hx (by simp)

/-- An occurrence stands in front of a text without the separator that starts like it. -/
theorem Sharp.before {p x y z : List α} (hsep : Sharp sep) (hz : ¬ sep <:+: z) (hhead : z.head? = sep.head?)
    (h : p ++ z = x ++ sep ++ y) : ∃ r, y = r ++ z := by
  rw [List.append_assoc] at h
  rcases List.append_eq_append_iff.1 h with ⟨w, rfl, hw⟩ | ⟨w, rfl, hw⟩
  · exact absurd ⟨w, y, by rw [hw]; simp⟩ hz
  · rcases List.append_eq_append_iff.1 hw with ⟨v, rfl, hv⟩ | ⟨v, rfl, hv⟩
    · exact ⟨v, hv⟩
    · -- The separator would start in one text and end in the other.
      cases v with
      | nil => exact ⟨[], by simpa using hv.symm⟩
      | cons c v =>
        obtain ⟨d, ds, hd, hno⟩ := hsep
        cases w with
        | nil => exact absurd ⟨[], y, by rw [hv]; simp⟩ hz
        | cons e w =>
          exfalso
          rw [hv, hd] at hhead
          obtain rfl : c = d := by simpa using hhead
          rw [List.cons_append] at hd
          exact hno (by rw [← (List.cons.inj hd).2]; simp)

/-- A text that a separator completes has none before it is complete. -/
theorem Sharp.not_infix_of_isPrefix {x : List α} (hsep : Sharp sep) (ha : ¬ sep <:+: a) (hx : x <+: a ++ sep)
    (hne : x ≠ a ++ sep) : ¬ sep <:+: x := by
  classical
  rintro ⟨p, y, rfl⟩
  obtain ⟨q, hq⟩ := hx
  have hpart := hsep.partition_append (b := []) ha
  have hle := @partition_least _ _ _ _ _ _ p (y ++ q) hpart (by rw [List.append_nil, ← hq]; simp)
  have hlen := congrArg List.length hq
  simp only [List.length_append] at hlen
  refine hne ?_
  obtain ⟨hy, hq'⟩ : y = [] ∧ q = [] := by
    constructor <;> exact List.eq_nil_of_length_eq_zero (by omega)
  rw [← hq, hq', List.append_nil]

/-- A separator with one last letter that starts before a text that ends with this letter ends in it. -/
theorem prefix_of_last {y : α} {ys : List α} (hy : y ∉ ys) (ha : a.getLast? = some y)
    (h : ys ++ [y] <+: a ++ b) : ys ++ [y] <+: a := by
  rcases List.prefix_or_prefix_of_prefix h (List.prefix_append a b) with hpre | hpre
  · exact hpre
  · obtain ⟨l, rfl⟩ := List.getLast?_eq_some_iff.1 ha
    obtain ⟨r, hr⟩ := hpre
    cases r using List.reverseRecOn with
    | nil => exact ⟨[], by simpa using hr.symm⟩
    | append_singleton r c =>
      rw [← List.append_assoc] at hr
      obtain ⟨hl, -⟩ := List.append_inj' hr rfl
      exact absurd (by rw [← hl]; simp) hy

variable [DecidableEq α]

theorem Sharp.rpartition_append (hsep : Sharp sep.reverse) (hb : ¬ sep <:+: b) :
    rpartition sep (a ++ sep ++ b) = some (a, b) := by
  have h := hsep.partition_append (a := b.reverse) (b := a.reverse) (by rwa [List.reverse_infix])
  rw [rpartition, List.reverse_append, List.reverse_append, ← List.append_assoc, h]
  simp

/-- The last occurrence of a sharp separator is the one behind which there is none. -/
theorem Sharp.rpartition_last (hsep : Sharp sep) (hb : ¬ sep <:+: b) :
    rpartition sep (a ++ sep ++ b) = some (a, b) := by
  have hex : partition sep.reverse (a ++ sep ++ b).reverse ≠ none := by
    rw [ne_eq, partition_none (by simpa using hsep.ne_nil), not_not, List.reverse_infix]
    exact List.infix_append a sep b
  obtain ⟨⟨x, y⟩, hpart⟩ := Option.ne_none_iff_exists'.1 hex
  have hle := @partition_least _ _ _ _ _ _ b.reverse a.reverse hpart (by simp)
  have hlast : rpartition sep (a ++ sep ++ b) = some (y.reverse, x.reverse) := by rw [rpartition, hpart]; rfl
  have heq := rpartition_some hlast
  rw [hlast]
  obtain ⟨x, rfl⟩ : ∃ x', x = x'.reverse := ⟨x.reverse, by simp⟩
  obtain ⟨y, rfl⟩ : ∃ y', y = y'.reverse := ⟨y.reverse, by simp⟩
  simp only [List.reverse_reverse, List.length_reverse] at heq hle ⊢
  have hlen := congrArg List.length heq
  simp only [List.length_append] at hlen
  obtain ⟨m, rfl⟩ : a <+: y :=
    List.prefix_of_prefix_length_le ⟨sep ++ b, (List.append_assoc _ _ _).symm⟩
      ⟨sep ++ x, by rw [heq, List.append_assoc]⟩ (by omega)
  have hrest : sep ++ b = m ++ (sep ++ x) := by
    refine (List.append_right_inj a).1 ?_
    simpa using heq
  cases m with
  | nil => simpa using hrest.symm
  | cons c m =>
    exfalso
    rcases List.append_eq_append_iff.1 hrest with ⟨v, -, hv⟩ | ⟨v, hv, hv'⟩
    · exact hb ⟨v, x, by rw [hv]; simp⟩
    · obtain ⟨d, ds, rfl, hd⟩ := hsep
      cases v with
      | nil => exact hb ⟨[], x, by simpa using hv'⟩
      | cons e v =>
        obtain rfl : d = e := (List.cons.inj hv').1
        exact hd (by rw [(List.cons.inj hv).2]; simp)
/-- Replacing with nothing joins the pieces. -/
theorem replace_nil (sep t : List α) : replace sep [] t = (split sep t).flatten := by
  have hflat : ∀ l : List (List α), ([] : List α).intercalate l = l.flatten := by
    intro l
    unfold List.intercalate
    induction l with
    | nil => rfl
    | cons x l ih =>
      cases l with
      | nil => rfl
      | cons y l => rw [List.intersperse_cons_cons, List.flatten_cons, List.flatten_cons, ih]; rfl
  exact hflat _

def find (sep t : List α) : Option Nat := (partition sep t).map (fun r => r.1.length)

def count (sep t : List α) : Nat := (split sep t).length - 1

theorem count_none (hsep : sep ≠ []) (h : ¬ sep <:+: t) : count sep t = 0 := by
  rw [count, split_none ((partition_none hsep).2 h)]
  rfl

theorem split_length_pos (sep t : List α) : 0 < (split sep t).length := by
  unfold split
  cases t.length with
  | zero => simp [splitAtMost]
  | succ n =>
    rw [splitAtMost]
    split <;> simp

theorem count_some (hsep : sep ≠ []) (h : partition sep t = some (a, b)) : count sep t = count sep b + 1 := by
  have hpos := split_length_pos sep b
  rw [count, count, split_some hsep h, List.length_cons]
  omega

theorem Sharp.count_append (hsep : Sharp sep) (ha : ¬ sep <:+: a) :
    count sep (a ++ sep ++ b) = count sep b + 1 :=
  count_some hsep.ne_nil (hsep.partition_append ha)

theorem partition_free (hsep : sep ≠ []) (h : partition sep t = some (a, b)) : ¬ sep <:+: a := by
  rintro ⟨l, l', hl⟩
  have hle := @partition_least _ _ _ _ _ _ l (l' ++ sep ++ b) h (by rw [partition_some h, ← hl]; simp)
  have hlen := congrArg List.length hl
  have hpos := List.length_pos_iff.2 hsep
  simp only [List.length_append] at hlen
  omega

/-- Text in front counts nothing when no separator ends behind it that starts in it. -/
theorem Sharp.count_behind (hsep : Sharp sep) (h : ∀ x, x <+: b → ¬ sep <:+: x → ¬ sep <:+: a ++ x) :
    count sep (a ++ b) = count sep b := by
  cases hpart : partition sep b with
  | none =>
    have hnone := (partition_none hsep.ne_nil).1 hpart
    rw [count_none hsep.ne_nil hnone, count_none hsep.ne_nil (h b List.prefix_rfl hnone)]
  | some r =>
    obtain ⟨x, y⟩ := r
    have hxy := partition_some hpart
    have hx := h x ⟨sep ++ y, by rw [hxy, List.append_assoc]⟩ (partition_free hsep.ne_nil hpart)
    rw [count_some hsep.ne_nil hpart, hxy, show a ++ (x ++ sep ++ y) = (a ++ x) ++ sep ++ y by simp,
      hsep.count_append hx]

/-- Nothing is counted in a text without the separator, whatever follows that starts like it. -/
theorem Sharp.count_skip (hsep : Sharp sep) (ha : ¬ sep <:+: a) (hb : b = [] ∨ b.head? = sep.head?) :
    count sep (a ++ b) = count sep b := by
  refine hsep.count_behind (fun x hpre hx => ?_)
  cases x with
  | nil => simpa using ha
  | cons z x =>
    refine hsep.not_infix_append ha hx ?_
    obtain ⟨y, rfl⟩ := hpre
    rcases hb with hb | hb
    · cases hb
    · exact hb

/-- Nor in a text that ends like it, whatever follows. -/
theorem Sharp.count_closed (hsep : Sharp sep) (hrev : Sharp sep.reverse) (ha : ¬ sep <:+: a)
    (hlast : a.getLast? = sep.getLast?) (b : List α) : count sep (a ++ b) = count sep b := by
  refine hsep.count_behind (fun x _ hx => ?_)
  rw [← List.reverse_infix, List.reverse_append]
  rw [← List.reverse_infix] at ha hx
  exact hrev.not_infix_append hx ha (by simpa using hlast)

theorem contains_iff_count (hsep : sep ≠ []) : contains sep t = true ↔ 0 < count sep t := by
  constructor
  · intro hc
    obtain ⟨r, hr⟩ := Option.isSome_iff_exists.1 hc
    rw [count_some (a := r.1) (b := r.2) hsep hr]
    omega
  · intro hpos
    by_contra hc
    rw [contains_iff hsep] at hc
    rw [count_none hsep hc] at hpos
    omega

/-- The separator is not found before the text without it ends. -/
theorem Sharp.le_find (hsep : Sharp sep) (ha : ¬ sep <:+: a) (hb : b.head? = sep.head?) {i : Nat}
    (h : find sep (a ++ b) = some i) : a.length ≤ i := by
  obtain ⟨⟨x, y⟩, hr, rfl⟩ := Option.map_eq_some_iff.1 h
  have hxy := partition_some hr
  by_contra hlt
  change ¬ a.length ≤ x.length at hlt
  have hx : x <+: a := by
    refine List.prefix_of_prefix_length_le ⟨sep ++ y, ?_⟩ (List.prefix_append a b) (by omega)
    rw [hxy, List.append_assoc]
  obtain ⟨r, rfl⟩ := hx
  have hr : r ≠ [] := by
    rintro rfl
    simp at hlt
  refine hsep.not_prefix_append (fun hin => ha (List.infix_append_of_infix_right hin)) hr (.inr hb) ⟨y, ?_⟩
  rw [List.append_assoc, List.append_assoc, List.append_cancel_left_eq] at hxy
  exact hxy.symm

/-- A longer text has no fewer. -/
theorem count_mono (hsep : sep ≠ []) (h : a <+: b) : count sep a ≤ count sep b := by
  induction hn : a.length using Nat.strong_induction_on generalizing a b with
  | _ n ih =>
    obtain ⟨u, rfl⟩ := h
    cases hpart : partition sep a with
    | none =>
      rw [count_none hsep ((partition_none hsep).1 hpart)]
      exact Nat.zero_le _
    | some r =>
      have hlt := partition_length hsep hpart
      rw [count_some hsep hpart, count_some hsep (partition_append hpart u)]
      exact Nat.succ_le_succ (ih r.2.length (by omega) (List.prefix_append r.2 u) rfl)

/-- What starts like a separator is the most that is held for it. -/
theorem Sharp.held_append (hsep : Sharp sep) (hhead : b.head? = sep.head?) (a : List α) :
    held sep (a ++ b) ≤ b.length := by
  by_contra hlt
  have hsuf := held_suffix sep (a ++ b)
  have hlen := (held_le sep (a ++ b)).2
  have hb : b <:+ sep.take (held sep (a ++ b)) := by
    refine List.suffix_of_suffix_length_le (List.suffix_append a b) hsuf ?_
    rw [List.length_take]
    omega
  obtain ⟨w, hw⟩ := hb
  obtain ⟨x, xs, rfl, hx⟩ := hsep
  cases w with
  | nil =>
    have := congrArg List.length hw
    rw [List.nil_append, List.length_take] at this
    rw [List.length_cons] at *
    omega
  | cons y w =>
    cases b with
    | nil => simp at hhead
    | cons z b =>
      obtain rfl : z = x := by simpa using hhead
      have hpre : (y :: w) ++ z :: b <+: z :: xs := by rw [hw]; exact List.take_prefix _ _
      rw [List.cons_append, List.cons_prefix_cons] at hpre
      exact hx (hpre.2.subset (by simp))

/-- A text is safe before the beginning of a separator. -/
theorem safePrefix_append {seps : List (List α)} (hseps : ∀ sep ∈ seps, Sharp sep ∧ b.head? = sep.head?) (a : List α) :
    a <+: safePrefix seps (a ++ b) := by
  refine List.prefix_of_prefix_length_le (List.prefix_append a b) (safePrefix_isPrefix _ _) ?_
  have hmax : (seps.map (fun sep => held sep (a ++ b))).foldr max 0 ≤ b.length := by
    induction seps with
    | nil => exact Nat.zero_le _
    | cons sep seps ih =>
      have hsep := hseps sep (by simp)
      exact Nat.max_le.2 ⟨hsep.1.held_append hsep.2 a, ih (fun sep' h => hseps sep' (by simp [h]))⟩
  rw [safePrefix_length, List.length_append]
  omega

omit [DecidableEq α]

def search (m : List α → Option β) : List α → Option β
  | [] => m []
  | c :: t =>
    match m (c :: t) with
    | some x => some x
    | none => search m t

def findAllUpTo (m : List α → Option (β × List α)) : Nat → List α → List β
  | 0, _ => []
  | _ + 1, [] => []
  | n + 1, c :: t =>
    match m (c :: t) with
    | some (x, rest) => x :: findAllUpTo m n rest
    | none => findAllUpTo m n t

def findAll (m : List α → Option (β × List α)) (t : List α) : List β := findAllUpTo m t.length t

def Takes (m : List α → Option (β × List α)) : Prop := ∀ t x rest, m t = some (x, rest) → rest.length < t.length

variable {m : List α → Option (β × List α)}

theorem findAllUpTo_eq (hm : Takes m) {n : Nat} (hn : t.length ≤ n) :
    findAllUpTo m n t = findAll m t := by
  induction n using Nat.strong_induction_on generalizing t with
  | _ n ih =>
    cases t with
    | nil => cases n <;> rfl
    | cons c t =>
      obtain ⟨n, rfl⟩ : ∃ k, n = k + 1 := ⟨n - 1, by simp at hn; omega⟩
      have hn : t.length ≤ n := by simpa using hn
      rw [findAll, List.length_cons, findAllUpTo, findAllUpTo]
      cases h : m (c :: t) with
      | none => rw [ih n (by omega) hn]; rfl
      | some r =>
        have hlt := hm _ _ _ h
        rw [List.length_cons] at hlt
        dsimp only
        rw [ih n (by omega) (by omega), ih t.length (by omega) (by omega)]

theorem findAll_some (hm : Takes m) {x : β} {rest : List α} (h : m t = some (x, rest)) :
    findAll m t = x :: findAll m rest := by
  have hlt := hm _ _ _ h
  cases t with
  | nil => simp at hlt
  | cons c t =>
    rw [List.length_cons] at hlt
    rw [findAll, List.length_cons, findAllUpTo, h]
    exact congrArg (x :: ·) (findAllUpTo_eq hm (by omega))

theorem findAll_none (c : α) (h : m (c :: t) = none) : findAll m (c :: t) = findAll m t := by
  rw [findAll, List.length_cons, findAllUpTo, h]
  rfl

/-- The pattern is found behind the part at none of whose positions it matches. -/
theorem findAll_append (h : ∀ a₁ a₂, a = a₁ ++ a₂ → a₂ ≠ [] → m (a₂ ++ t) = none) :
    findAll m (a ++ t) = findAll m t := by
  induction a with
  | nil => rfl
  | cons c a ih =>
    have hnone : m (c :: (a ++ t)) = none := h [] (c :: a) rfl (by simp)
    rw [List.cons_append, findAll_none c hnone]
    exact ih (fun a₁ a₂ he hne => h (c :: a₁) a₂ (by rw [he]; rfl) hne)

/-- What is found stands at the front of some rest of the text. -/
theorem mem_findAll (hm : Takes m) (hrest : ∀ t x rest, m t = some (x, rest) → rest <:+ t) {x : β} (h : x ∈ findAll m t) :
    ∃ u rest, u <:+ t ∧ m u = some (x, rest) := by
  induction hn : t.length using Nat.strong_induction_on generalizing t with
  | _ n ih =>
    cases t with
    | nil => cases h
    | cons c t =>
      cases hc : m (c :: t) with
      | none =>
        rw [findAll_none c hc] at h
        obtain ⟨u, rest, hu, hmatch⟩ := ih t.length (by simp at hn; omega) h rfl
        exact ⟨u, rest, List.IsSuffix.trans hu (List.suffix_cons c t), hmatch⟩
      | some r =>
        rw [findAll_some hm hc] at h
        rcases List.mem_cons.1 h with rfl | h
        · exact ⟨c :: t, r.2, List.suffix_refl _, hc⟩
        · have hlt := hm _ _ _ hc
          obtain ⟨u, rest, hu, hmatch⟩ := ih r.2.length (by omega) h rfl
          exact ⟨u, rest, List.IsSuffix.trans hu (hrest _ _ _ hc), hmatch⟩

/-- A pattern that never takes a letter nor looks past it is found before it and behind it. -/
theorem findAll_stop (hm : Takes m) {x : α} (hstop : ∀ a, m (a ++ x :: b) = (m a).map (fun r => (r.1, r.2 ++ x :: b)))
    (a : List α) : findAll m (a ++ x :: b) = findAll m a ++ findAll m (x :: b) := by
  induction h : a.length using Nat.strong_induction_on generalizing a with
  | _ n ih =>
    cases a with
    | nil => rfl
    | cons c a =>
      cases hc : m (c :: a) with
      | none =>
        have hnone : m (c :: (a ++ x :: b)) = none := by rw [← List.cons_append, hstop, hc]; rfl
        rw [List.cons_append, findAll_none c hnone, findAll_none c hc]
        exact ih a.length (by simp at h; omega) a rfl
      | some r =>
        have hlt := hm _ _ _ hc
        have hsome : m (c :: a ++ x :: b) = some (r.1, r.2 ++ x :: b) := by rw [hstop, hc]; rfl
        rw [findAll_some hm hsome, findAll_some hm hc, ih r.2.length (by omega) r.2 rfl]
        rfl

theorem search_append {m : List α → Option β} (h : ∀ a₁ a₂, a = a₁ ++ a₂ → a₂ ≠ [] → m (a₂ ++ t) = none) :
    search m (a ++ t) = search m t := by
  induction a with
  | nil => rfl
  | cons c a ih =>
    have hnone : m (c :: (a ++ t)) = none := h [] (c :: a) rfl (by simp)
    rw [List.cons_append, search, hnone]
    exact ih (fun a₁ a₂ he hne => h (c :: a₁) a₂ (by rw [he]; rfl) hne)

theorem search_some {m : List α → Option β} {x : β} (h : m t = some x) : search m t = some x := by
  cases t with
  | nil => exact h
  | cons c t => rw [search, h]

/-- A match somewhere is found. -/
theorem search_isSome {m : List α → Option β} {x : β} (h : m t = some x) (a : List α) :
    (search m (a ++ t)).isSome = true := by
  induction a with
  | nil => rw [List.nil_append, search_some h]; rfl
  | cons c a ih =>
    rw [List.cons_append, search]
    cases m (c :: (a ++ t)) with
    | some y => rfl
    | none => exact ih

/-- A pattern that needs a letter is not found without it. -/
theorem search_none {m : List α → Option β} {x : α} (hm : ∀ t y, m t = some y → x ∈ t) (ht : x ∉ t) : search m t = none := by
  induction t with
  | nil =>
    rw [search]
    exact Option.eq_none_iff_forall_ne_some.2 (fun y hy => ht (hm _ y hy))
  | cons c t ih =>
    have hnone : m (c :: t) = none := Option.eq_none_iff_forall_ne_some.2 (fun y hy => ht (hm _ y hy))
    rw [search, hnone]
    exact ih (fun h => ht (by simp [h]))

theorem findAll_absent {x : α} (hm : ∀ t r, m t = some r → x ∈ t) (ht : x ∉ t) : findAll m t = [] := by
  have h := findAll_append (m := m) (a := t) (t := []) (by
    intro a₁ a₂ ha _
    rw [List.append_nil]
    exact Option.eq_none_iff_forall_ne_some.2 (fun r hr => ht (by rw [ha]; simp [hm _ r hr])))
  rwa [List.append_nil] at h

def beforeMatch (m : List α → Option β) : List α → Option (List α)
  | [] => none
  | c :: t => if (m (c :: t)).isSome then some [] else (beforeMatch m t).map (c :: ·)

def removeAllUpTo (m : List α → Option (β × List α)) : Nat → List α → List α
  | 0, t => t
  | _ + 1, [] => []
  | n + 1, c :: t =>
    match m (c :: t) with
    | some (_, rest) => removeAllUpTo m n rest
    | none => c :: removeAllUpTo m n t

def removeAll (m : List α → Option (β × List α)) (t : List α) : List α := removeAllUpTo m t.length t

theorem removeAllUpTo_eq (hm : Takes m) {n : Nat} (hn : t.length ≤ n) :
    removeAllUpTo m n t = removeAll m t := by
  induction n using Nat.strong_induction_on generalizing t with
  | _ n ih =>
    cases t with
    | nil => cases n <;> rfl
    | cons c t =>
      obtain ⟨n, rfl⟩ : ∃ k, n = k + 1 := ⟨n - 1, by simp at hn; omega⟩
      have hn : t.length ≤ n := by simpa using hn
      rw [removeAll, List.length_cons, removeAllUpTo, removeAllUpTo]
      cases h : m (c :: t) with
      | none => rw [ih n (by omega) hn]; rfl
      | some r =>
        have hlt := hm _ _ _ h
        rw [List.length_cons] at hlt
        dsimp only
        rw [ih n (by omega) (by omega), ih t.length (by omega) (by omega)]

theorem removeAll_some (hm : Takes m) {x : β} {rest : List α} (h : m t = some (x, rest)) :
    removeAll m t = removeAll m rest := by
  have hlt := hm _ _ _ h
  cases t with
  | nil => simp at hlt
  | cons c t =>
    rw [List.length_cons] at hlt
    rw [removeAll, List.length_cons, removeAllUpTo, h]
    exact removeAllUpTo_eq hm (by omega)

theorem removeAll_append (h : ∀ a₁ a₂, a = a₁ ++ a₂ → a₂ ≠ [] → m (a₂ ++ t) = none) :
    removeAll m (a ++ t) = a ++ removeAll m t := by
  induction a with
  | nil => rfl
  | cons c a ih =>
    have hnone : m (c :: (a ++ t)) = none := h [] (c :: a) rfl (by simp)
    rw [List.cons_append, removeAll, List.length_cons, removeAllUpTo, hnone]
    exact congrArg (c :: ·) (ih (fun a₁ a₂ he hne => h (c :: a₁) a₂ (by rw [he]; rfl) hne))

end FusionMlx.TextSearch
