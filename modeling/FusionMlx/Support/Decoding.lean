import Mathlib.Data.List.Infix

/-!
# Decoding token by token

The continuation of a sequence under a rule for its next token, the choices of
a causal model over several tokens at once, and how far a draft follows the
continuation.
-/
namespace FusionMlx.Decoding

variable {τ β : Type} {choose : List τ → τ} {value : List τ → β} {seq drafts xs : List τ} {n : Nat}

def continuation (choose : List τ → τ) (seq : List τ) : Nat → List τ
  | 0 => []
  | n + 1 => choose seq :: continuation choose (seq ++ [choose seq]) n

def afterEach (value : List τ → β) (seq : List τ) : List τ → List β
  | [] => []
  | x :: xs => value (seq ++ [x]) :: afterEach value (seq ++ [x]) xs

@[simp] theorem length_continuation (choose : List τ → τ) (seq : List τ) (n : Nat) :
    (continuation choose seq n).length = n := by
  induction n generalizing seq with
  | zero => rfl
  | succ n ih => rw [continuation, List.length_cons, ih]

@[simp] theorem length_afterEach (value : List τ → β) (seq xs : List τ) : (afterEach value seq xs).length = xs.length := by
  induction xs generalizing seq with
  | nil => rfl
  | cons x xs ih => rw [afterEach, List.length_cons, ih, List.length_cons]

theorem continuation_add (choose : List τ → τ) (seq : List τ) (n k : Nat) :
    continuation choose seq (n + k) =
      continuation choose seq n ++ continuation choose (seq ++ continuation choose seq n) k := by
  induction n generalizing seq with
  | zero => simp [continuation]
  | succ n ih =>
    have hswap : n + 1 + k = n + k + 1 := by omega
    rw [hswap, continuation, continuation, ih]
    simp

theorem continuation_succ (choose : List τ → τ) (seq : List τ) (n : Nat) :
    continuation choose seq (n + 1) =
      continuation choose seq n ++ [choose (seq ++ continuation choose seq n)] :=
  continuation_add choose seq n 1

theorem take_continuation {m : Nat} (h : m ≤ n) :
    (continuation choose seq n).take m = continuation choose seq m := by
  obtain ⟨k, rfl⟩ := Nat.exists_eq_add_of_le h
  rw [continuation_add, List.take_left' (length_continuation ..)]

theorem continuation_begins {m : Nat} (h : m ≤ n) : continuation choose seq m <+: continuation choose seq n := by
  rw [← take_continuation h]
  exact List.take_prefix _ _

/-- A continuation goes on as a continuation of the longer sequence, also where it is cut off. -/
theorem continuation_append_take (choose : List τ → τ) {seq xs : List τ} (h : xs = continuation choose seq xs.length)
    (n m : Nat) : xs ++ (continuation choose (seq ++ xs) n).take m = continuation choose seq (xs.length + min m n) := by
  have htake : (continuation choose (seq ++ xs) n).take m = continuation choose (seq ++ xs) (min m n) := by
    rw [← take_continuation (Nat.min_le_right m n), ← List.take_take, List.take_of_length_le (length_continuation ..).le]
  rw [htake, continuation_add, ← h]

theorem getElem?_afterEach {i : Nat} (hi : i < xs.length) :
    (afterEach value seq xs)[i]? = some (value (seq ++ xs.take (i + 1))) := by
  induction xs generalizing seq i with
  | nil => simp at hi
  | cons x xs ih =>
    cases i with
    | zero => simp [afterEach]
    | succ i =>
      rw [afterEach, List.getElem?_cons_succ, ih (by simpa using hi)]
      simp

theorem getElem?_cons_afterEach {i : Nat} (hi : i ≤ xs.length) :
    (value seq :: afterEach value seq xs)[i]? = some (value (seq ++ xs.take i)) := by
  cases i with
  | zero => simp
  | succ i => rw [List.getElem?_cons_succ, getElem?_afterEach (Nat.lt_of_succ_le hi)]

theorem getLast?_afterEach (h : xs ≠ []) : (afterEach value seq xs).getLast? = some (value (seq ++ xs)) := by
  have hpos := List.length_pos_iff.2 h
  have hlast := @getElem?_afterEach _ _ value seq _ _ (Nat.sub_lt hpos Nat.one_pos)
  rwa [Nat.sub_add_cancel hpos, List.take_length, ← length_afterEach value seq xs, ← List.getLast?_eq_getElem?] at hlast

theorem map_afterEach {γ : Type} (f : β → γ) (seq xs : List τ) :
    (afterEach value seq xs).map f = afterEach (f ∘ value) seq xs := by
  induction xs generalizing seq with
  | nil => rfl
  | cons x xs ih => rw [afterEach, List.map_cons, ih, afterEach, Function.comp]

theorem afterEach_shift (f : List τ → β) (seq acc xs : List τ) :
    afterEach (fun fed => f (seq ++ fed)) acc xs = afterEach f (seq ++ acc) xs := by
  induction xs generalizing acc with
  | nil => rfl
  | cons x xs ih => rw [afterEach, afterEach, ih, List.append_assoc]

variable [DecidableEq τ]

def leading : List τ → List τ → Nat
  | v :: vs, d :: ds => if v = d then leading vs ds + 1 else 0
  | _, _ => 0

def agreed (choose : List τ → τ) (seq : List τ) : List τ → Nat
  | [] => 0
  | d :: ds => if choose seq = d then agreed choose (seq ++ [d]) ds + 1 else 0

theorem leading_take (vs ds : List τ) : leading (vs.take ds.length) ds = leading vs ds := by
  induction ds generalizing vs with
  | nil => cases vs <;> rfl
  | cons d ds ih =>
    cases vs with
    | nil => rfl
    | cons v vs => rw [List.length_cons, List.take_succ_cons, leading, leading, ih]

theorem agreed_le (choose : List τ → τ) (seq drafts : List τ) : agreed choose seq drafts ≤ drafts.length := by
  induction drafts generalizing seq with
  | nil => exact Nat.le_refl 0
  | cons d ds ih =>
    rw [agreed, List.length_cons]
    split
    · exact Nat.succ_le_succ (ih _)
    · exact Nat.zero_le _

theorem take_agreed (choose : List τ → τ) (seq drafts : List τ) :
    drafts.take (agreed choose seq drafts) = continuation choose seq (agreed choose seq drafts) := by
  induction drafts generalizing seq with
  | nil => rfl
  | cons d ds ih =>
    rw [agreed]
    split
    · rename_i hd
      rw [List.take_succ_cons, ih, continuation, hd]
    · rfl

/-- The drafts are the continuation when all of them are agreed on. -/
theorem agreed_eq_length : agreed choose seq drafts = drafts.length ↔ drafts = continuation choose seq drafts.length := by
  constructor
  · intro h
    have := take_agreed choose seq drafts
    rwa [h, List.take_length] at this
  · induction drafts generalizing seq with
    | nil => exact fun _ => rfl
    | cons d ds ih =>
      intro h
      rw [List.length_cons, continuation, List.cons.injEq] at h
      rw [agreed, if_pos h.1.symm, List.length_cons, ih (by rw [h.1]; exact h.2)]

/-- Comparing the choices of one causal pass with the drafts finds the drafts that are agreed on. -/
theorem leading_choices (choose : List τ → τ) (seq drafts : List τ) :
    leading (choose seq :: afterEach choose seq drafts) drafts = agreed choose seq drafts := by
  induction drafts generalizing seq with
  | nil => rfl
  | cons d ds ih => rw [leading, agreed, afterEach, ih]

/-- The choice behind the drafts that are agreed on. -/
theorem choice_behind (choose : List τ → τ) (seq drafts : List τ) :
    (choose seq :: afterEach choose seq drafts)[agreed choose seq drafts]? =
      some (choose (seq ++ continuation choose seq (agreed choose seq drafts))) := by
  rw [← take_agreed]
  exact getElem?_cons_afterEach (agreed_le choose seq drafts)

end FusionMlx.Decoding
