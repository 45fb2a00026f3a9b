import Mathlib.Data.List.Lex
import Mathlib.Data.List.MinMax

/-!
# Common prefixes in lexicographic order

The further a list lies from another in lexicographic order, on either side,
the less of its beginning they share. So the lists that share most with a key
lie next to it, and those that extend it lie together behind it.
-/
namespace FusionMlx.CommonPrefix

variable {α : Type}

def lcp [DecidableEq α] : List α → List α → Nat
  | a :: as, b :: bs => if a = b then lcp as bs + 1 else 0
  | _, _ => 0

section
variable [DecidableEq α] {as bs : List α}

@[simp] theorem lcp_nil_left (bs : List α) : lcp [] bs = 0 := rfl

@[simp] theorem lcp_nil_right (as : List α) : lcp as [] = 0 := by
  cases as <;> rfl

theorem lcp_cons_cons (a b : α) (as bs : List α) :
    lcp (a :: as) (b :: bs) = if a = b then lcp as bs + 1 else 0 := rfl

theorem lcp_le_left (as bs : List α) : lcp as bs ≤ as.length := by
  induction as generalizing bs with
  | nil => simp
  | cons a as ih =>
    cases bs with
    | nil => simp
    | cons b bs =>
      rw [lcp_cons_cons]
      split
      · exact Nat.succ_le_succ (ih bs)
      · exact Nat.zero_le _

theorem lcp_le_right (as bs : List α) : lcp as bs ≤ bs.length := by
  induction as generalizing bs with
  | nil => simp
  | cons a as ih =>
    cases bs with
    | nil => simp
    | cons b bs =>
      rw [lcp_cons_cons]
      split
      · exact Nat.succ_le_succ (ih bs)
      · exact Nat.zero_le _

theorem take_lcp (as bs : List α) : as.take (lcp as bs) = bs.take (lcp as bs) := by
  induction as generalizing bs with
  | nil => simp
  | cons a as ih =>
    cases bs with
    | nil => simp
    | cons b bs =>
      rw [lcp_cons_cons]
      split
      · next h => rw [List.take_succ_cons, List.take_succ_cons, h, ih]
      · rfl

theorem lcp_eq_left_iff : lcp as bs = as.length ↔ as <+: bs := by
  induction as generalizing bs with
  | nil => simp
  | cons a as ih =>
    cases bs with
    | nil => simp
    | cons b bs =>
      rw [lcp_cons_cons, List.cons_prefix_cons]
      split
      · next h => simp [h, ih]
      · next h => simp [h]

theorem lcp_eq_right_iff : lcp as bs = bs.length ↔ bs <+: as := by
  induction bs generalizing as with
  | nil => simp
  | cons b bs ih =>
    cases as with
    | nil => simp
    | cons a as =>
      rw [lcp_cons_cons, List.cons_prefix_cons]
      split
      · next h => simp [h, ih]
      · next h => simp [Ne.symm h]

theorem lcp_eq_zero_iff (ha : as ≠ []) (hb : bs ≠ []) : lcp as bs = 0 ↔ as.head? ≠ bs.head? := by
  obtain ⟨a, as, rfl⟩ := List.exists_cons_of_ne_nil ha
  obtain ⟨b, bs, rfl⟩ := List.exists_cons_of_ne_nil hb
  rw [lcp_cons_cons]
  split
  · next h => simp [h]
  · next h => simp [h]

/-- Behind what two lists share they go apart. -/
theorem head_drop_lcp (hb : lcp as bs < bs.length) :
    (as.drop (lcp as bs)).head? ≠ (bs.drop (lcp as bs)).head? := by
  induction as generalizing bs with
  | nil =>
    cases bs with
    | nil => simp at hb
    | cons b bs => simp
  | cons a as ih =>
    cases bs with
    | nil => simp at hb
    | cons b bs =>
      rw [lcp_cons_cons] at hb ⊢
      split
      · next h =>
        rw [if_pos h, List.length_cons] at hb
        simpa using ih (Nat.lt_of_succ_lt_succ hb)
      · next h => simpa using h

end

section
variable [LinearOrder α] {as bs cs : List α}

theorem cons_le_cons_iff' {a b : α} : a :: as ≤ b :: bs ↔ a < b ∨ a = b ∧ as ≤ bs := by
  rw [le_iff_lt_or_eq, List.cons_lt_cons_iff, le_iff_lt_or_eq]
  constructor
  · rintro ((h | ⟨h, h'⟩) | h)
    · exact .inl h
    · exact .inr ⟨h, .inl h'⟩
    · cases h
      exact .inr ⟨rfl, .inr rfl⟩
  · rintro (h | ⟨h, h' | h'⟩)
    · exact .inl (.inl h)
    · exact .inl (.inr ⟨h, h'⟩)
    · exact .inr (by rw [h, h'])

/-- Below a list, nearer means sharing more. -/
theorem lcp_mono_below (hab : as ≤ bs) (hbc : bs ≤ cs) : lcp as cs ≤ lcp bs cs := by
  induction cs generalizing as bs with
  | nil => simp
  | cons c cs ih =>
    cases as with
    | nil => simp
    | cons a as =>
      cases bs with
      | nil => exact absurd hab (not_le_of_gt (List.nil_lt_cons a as))
      | cons b bs =>
        rw [cons_le_cons_iff'] at hab hbc
        rw [lcp_cons_cons, lcp_cons_cons]
        split
        · next hac =>
          subst hac
          obtain ⟨rfl, has, hbs⟩ : b = a ∧ as ≤ bs ∧ bs ≤ cs := by
            rcases hab with hab | ⟨rfl, has⟩ <;> rcases hbc with hbc | ⟨h, hbs⟩
            · exact absurd (hab.trans hbc) (lt_irrefl _)
            · exact absurd (h ▸ hab) (lt_irrefl _)
            · exact absurd hbc (lt_irrefl _)
            · exact ⟨rfl, has, hbs⟩
          rw [if_pos rfl]
          exact Nat.succ_le_succ (ih has hbs)
        · exact Nat.zero_le _

/-- Above a list, nearer means sharing more. -/
theorem lcp_mono_above (hcb : cs ≤ bs) (hba : bs ≤ as) : lcp as cs ≤ lcp bs cs := by
  induction cs generalizing as bs with
  | nil => simp
  | cons c cs ih =>
    cases bs with
    | nil => exact absurd hcb (not_le_of_gt (List.nil_lt_cons c cs))
    | cons b bs =>
      cases as with
      | nil => exact absurd hba (not_le_of_gt (List.nil_lt_cons b bs))
      | cons a as =>
        rw [cons_le_cons_iff'] at hcb hba
        rw [lcp_cons_cons, lcp_cons_cons]
        split
        · next hac =>
          subst hac
          obtain ⟨rfl, hbs, has⟩ : b = a ∧ cs ≤ bs ∧ bs ≤ as := by
            rcases hcb with hcb | ⟨rfl, hbs⟩ <;> rcases hba with hba | ⟨h, has⟩
            · exact absurd (hcb.trans hba) (lt_irrefl _)
            · exact absurd (h ▸ hcb) (lt_irrefl _)
            · exact absurd hba (lt_irrefl _)
            · exact ⟨rfl, hbs, has⟩
          rw [if_pos rfl]
          exact Nat.succ_le_succ (ih hbs has)
        · exact Nat.zero_le _

/-- A proper prefix lies below. -/
theorem prefix_lt (h : as <+: bs) (hne : as ≠ bs) : as < bs := by
  induction as generalizing bs with
  | nil =>
    cases bs with
    | nil => exact absurd rfl hne
    | cons b bs => exact List.nil_lt_cons b bs
  | cons a as ih =>
    cases bs with
    | nil => simp at h
    | cons b bs =>
      obtain ⟨rfl, hp⟩ := List.cons_prefix_cons.mp h
      rw [List.cons_lt_cons_iff]
      exact .inr ⟨rfl, ih hp (fun he => hne (by rw [he]))⟩

theorem prefix_le (h : as <+: bs) : as ≤ bs := by
  by_cases he : as = bs
  · exact he.le
  · exact (prefix_lt h he).le

/-- The extensions of a list lie together behind it. -/
theorem prefix_of_between (hcb : cs ≤ bs) (hba : bs ≤ as) (h : cs <+: as) : cs <+: bs := by
  rw [← lcp_eq_right_iff] at h ⊢
  have hmono := lcp_mono_above hcb hba
  have hle := lcp_le_right bs cs
  omega

end

section
variable {ι β : Type} [LinearOrder β] {p : ι → Prop} {f : ι → β} {a : ι} {l l' : List ι}
  {r : Option ι}

/-- `r` is a greatest element with the property, if the list has one. -/
def Greatest (p : ι → Prop) (f : ι → β) (l : List ι) (r : Option ι) : Prop :=
  (∀ e ∈ r, e ∈ l ∧ p e) ∧ ∀ a ∈ l, p a → ∃ e ∈ r, f a ≤ f e

theorem Greatest.nil : Greatest p f [] none :=
  ⟨by simp, by simp⟩

theorem Greatest.skip (h : Greatest p f l r) (ha : p a → ∃ e ∈ r, f a ≤ f e) :
    Greatest p f (a :: l) r := by
  constructor
  · intro e he
    exact ⟨List.mem_cons_of_mem _ (h.1 e he).1, (h.1 e he).2⟩
  · intro b hb hp
    cases List.mem_cons.mp hb with
    | inl hb => exact hb ▸ ha (hb ▸ hp)
    | inr hb => exact h.2 b hb hp

theorem Greatest.take (h : Greatest p f l r) (hp : p a) (ha : ∀ e ∈ r, f e ≤ f a) :
    Greatest p f (a :: l) (some a) := by
  constructor
  · intro e he
    cases he
    exact ⟨List.mem_cons_self .., hp⟩
  · intro b hb hpb
    refine ⟨a, rfl, ?_⟩
    cases List.mem_cons.mp hb with
    | inl hb => exact le_of_eq (congrArg f hb)
    | inr hb =>
      obtain ⟨e, he, hle⟩ := h.2 b hb hpb
      exact hle.trans (ha e he)

/-- A greatest element of a part stays one if it beats the rest. -/
theorem Greatest.widen (h : Greatest p f l r) (hsub : ∀ a ∈ l, a ∈ l')
    (hrest : ∀ a ∈ l', p a → ∃ b ∈ l, p b ∧ f a ≤ f b) : Greatest p f l' r := by
  constructor
  · intro e he
    exact ⟨hsub e (h.1 e he).1, (h.1 e he).2⟩
  · intro a ha hp
    obtain ⟨b, hb, hpb, hle⟩ := hrest a ha hp
    obtain ⟨e, he, hle'⟩ := h.2 b hb hpb
    exact ⟨e, he, hle.trans hle'⟩

/-- What a scan finds is the maximum of a list whose elements `f` tells apart. -/
theorem Greatest.argmax [DecidablePred p] (h : Greatest p f l r)
    (hinj : ∀ a ∈ l, ∀ b ∈ l, p a → p b → f a = f b → a = b) : (l.filter p).argmax f = r := by
  cases hm : (l.filter p).argmax f with
  | none =>
    rw [List.argmax_eq_none, List.filter_eq_nil_iff] at hm
    cases r with
    | none => rfl
    | some e =>
      obtain ⟨he, hp⟩ := h.1 e rfl
      exact absurd (decide_eq_true hp) (hm e he)
  | some m =>
    have hmem := List.mem_filter.mp (List.argmax_mem hm)
    have hpm : p m := of_decide_eq_true hmem.2
    obtain ⟨e, he, hle⟩ := h.2 m hmem.1 hpm
    obtain ⟨hel, hpe⟩ := h.1 e he
    have hge := List.le_of_mem_argmax (List.mem_filter.mpr ⟨hel, decide_eq_true hpe⟩) hm
    rw [hinj m hmem.1 e hel hpm hpe (le_antisymm hle hge)]
    exact he.symm

end

end FusionMlx.CommonPrefix
