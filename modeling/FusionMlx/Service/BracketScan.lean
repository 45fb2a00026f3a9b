import FusionMlx.Service.NestingDepth

/-!
# What the scan of the bytes hears

Outside string literals a valid document is ASCII, of which every encoding gives
one byte and zeros. The scan is back outside behind a literal if it leaves it at
its closing quote; then it hears every bracket the decoder sees.
-/
namespace FusionMlx.BodyDepth

open JsonText (Json)
open JsonBytes

namespace Scan

@[simp] theorem run_nil (s : Scan) : s.run [] = s := rfl

@[simp] theorem run_cons (s : Scan) (b : UInt8) (t : Bytes) : s.run (b :: t) = (s.step b).run t := rfl

@[simp] theorem run_append (s : Scan) (t u : Bytes) : s.run (t ++ u) = (s.run t).run u := List.foldl_append

theorem peak_step (s : Scan) (b : UInt8) : s.peak ≤ (s.step b).peak := by
  rw [step]
  split
  · exact le_rfl
  · split
    · split
      · exact le_rfl
      · split <;> exact le_rfl
    · split
      · exact le_rfl
      · split
        · exact le_max_left _ _
        · split <;> exact le_rfl

theorem peak_run (s : Scan) (t : Bytes) : s.peak ≤ (s.run t).peak := by
  induction t generalizing s with
  | nil => exact le_rfl
  | cons b t ih => exact (s.peak_step b).trans (ih _)

def outside (d p : Int) : Scan := ⟨d, p, false, false⟩

def inside (d p : Int) : Scan := ⟨d, p, true, false⟩

theorem run_zeros_outside (d p : Int) (n : Nat) : (outside d p).run (List.replicate n 0) = outside d p := by
  induction n with
  | zero => rfl
  | succ n ih => exact ih

theorem run_zeros_inside (d p : Int) (n : Nat) : (inside d p).run (List.replicate n 0) = inside d p := by
  induction n with
  | zero => rfl
  | succ n ih => exact ih

end Scan

open Scan

def Plainly (c : Spelled) : Prop :=
  c.code < 128 → ∃ m n, c.bytes = List.replicate m 0 ++ UInt8.ofNat c.code :: List.replicate n 0

@[simp] theorem spell_nil : spell [] = [] := rfl

@[simp] theorem spell_cons (c : Spelled) (t : List Spelled) : spell (c :: t) = c.bytes ++ spell t := rfl

@[simp] theorem spell_append (t u : List Spelled) : spell (t ++ u) = spell t ++ spell u := List.flatMap_append

variable {c q : Spelled} {t u r : List Spelled} {v : Json}

def Neutral (n : Nat) : Prop := n ≠ 0x22 ∧ n ≠ 0x7B ∧ n ≠ 0x5B ∧ n ≠ 0x7D ∧ n ≠ 0x5D

theorem Plainly.run_quote (hc : Plainly c) (hq : c.code = 0x22) (d p : Int) :
    (outside d p).run c.bytes = inside d p := by
  obtain ⟨m, n, hbytes⟩ := hc (by omega)
  rw [hbytes, run_append, run_zeros_outside, hq, run_cons]
  exact run_zeros_inside d p n

theorem Plainly.run_open (hc : Plainly c) (ho : c.code = 0x7B ∨ c.code = 0x5B) (d p : Int) :
    (outside d p).run c.bytes = outside (d + 1) (max p (d + 1)) := by
  obtain ⟨m, n, hbytes⟩ := hc (by omega)
  rw [hbytes, run_append, run_zeros_outside, run_cons]
  rcases ho with ho | ho <;> rw [ho] <;> exact run_zeros_outside (d + 1) (max p (d + 1)) n

theorem Plainly.run_close (hc : Plainly c) (ho : c.code = 0x7D ∨ c.code = 0x5D) (d p : Int) :
    (outside d p).run c.bytes = outside (d - 1) p := by
  obtain ⟨m, n, hbytes⟩ := hc (by omega)
  rw [hbytes, run_append, run_zeros_outside, run_cons]
  rcases ho with ho | ho <;> rw [ho] <;> exact run_zeros_outside (d - 1) p n

theorem step_neutral {n : Nat} (hlt : n < 128) (hn : Neutral n) (d p : Int) :
    (outside d p).step (UInt8.ofNat n) = outside d p := by
  have hbyte : ∀ b : UInt8, UInt8.ofNat n = b → n = b.toNat := by
    rintro b rfl
    exact (UInt8.toNat_ofNat_of_lt' (hlt.trans (by decide))).symm
  obtain ⟨h₁, h₂, h₃, h₄, h₅⟩ := hn
  have hquote : UInt8.ofNat n ≠ 0x22 := fun h => h₁ (hbyte _ h)
  have hopen : ¬ (UInt8.ofNat n = 0x7B ∨ UInt8.ofNat n = 0x5B) :=
    not_or.2 ⟨fun h => h₂ (hbyte _ h), fun h => h₃ (hbyte _ h)⟩
  have hclose : ¬ (UInt8.ofNat n = 0x7D ∨ UInt8.ofNat n = 0x5D) :=
    not_or.2 ⟨fun h => h₄ (hbyte _ h), fun h => h₅ (hbyte _ h)⟩
  rw [step, if_neg (by simp [outside]), if_neg (by simp [outside]), if_neg hquote, if_neg hopen, if_neg hclose]

theorem Plainly.run_neutral (hc : Plainly c) (hlt : c.code < 128) (hn : Neutral c.code) (d p : Int) :
    (outside d p).run c.bytes = outside d p := by
  obtain ⟨m, n, hbytes⟩ := hc hlt
  rw [hbytes, run_append, run_zeros_outside, run_cons, step_neutral hlt hn]
  exact run_zeros_outside d p n

def literals : Option (List Spelled) → List Spelled → List (List Spelled)
  | _, [] => []
  | none, c :: t => if c.code = 0x22 then literals (some []) t else literals none t
  | some read, c :: t =>
    if c.code = 0x22 then (read ++ [c]) :: literals none t
    else if c.code = 0x5C then
      match t with
      | [] => []
      | x :: t => literals (some (read ++ [c, x])) t
    else literals (some (read ++ [c])) t

theorem literals_quote (hc : c.code = 0x22) (read t : List Spelled) :
    literals (some read) (c :: t) = (read ++ [c]) :: literals none t := by
  rw [literals.eq_def]
  exact if_pos hc

theorem literals_escape (hc : c.code = 0x5C) (read : List Spelled) (x : Spelled) (t : List Spelled) :
    literals (some read) (c :: x :: t) = literals (some (read ++ [c, x])) t := by
  rw [literals.eq_def]
  exact (if_neg (by omega)).trans (if_pos hc)

theorem literals_char (hq : c.code ≠ 0x22) (hb : c.code ≠ 0x5C) (read t : List Spelled) :
    literals (some read) (c :: t) = literals (some (read ++ [c])) t := by
  rw [literals.eq_def]
  exact (if_neg hq).trans (if_neg hb)

def Left (l : List Spelled) : Prop := ∀ d p, (inside d p).run (spell l) = outside d p

/-- How many more brackets a text opens than it closes, outside of its string literals; no further
than to a character there that is not ASCII. -/
def level : Bool → List Spelled → Int
  | _, [] => 0
  | false, c :: t =>
    if c.code = 0x22 then level true t
    else if 128 ≤ c.code then 0
    else if c.code = 0x7B ∨ c.code = 0x5B then 1 + level false t
    else if c.code = 0x7D ∨ c.code = 0x5D then -1 + level false t
    else level false t
  | true, c :: t =>
    if c.code = 0x22 then level false t
    else if c.code = 0x5C then
      match t with
      | [] => 0
      | _ :: t => level true t
    else level true t

/-- As long as the literals are left where they end, the scan comes as high as the text. -/
theorem level_peak {read : Option (List Spelled)} (ht : ∀ c ∈ t, Plainly c)
    (hl : ∀ l ∈ literals read t, Left l) {d p : Int} (hdp : d ≤ p) :
    d + level read.isSome t ≤
      (((read.elim (outside d p) fun r => (inside d p).run (spell r))).run (spell t)).peak := by
  fun_induction literals read t generalizing d p with
  | case1 read =>
    rw [level.eq_def, spell_nil, run_nil, Int.add_zero]
    cases read with
    | none => exact hdp
    | some r => exact hdp.trans (peak_run (inside d p) _)
  | case2 c t hq ih =>
    rw [level.eq_def, spell_cons, run_append]
    dsimp only [Option.isSome_none, Option.elim_none]
    rw [if_pos hq, (ht c List.mem_cons_self).run_quote hq]
    exact ih (fun x hx => ht x (List.mem_cons_of_mem c hx)) hl hdp
  | case3 c t hq ih =>
    have hpc := ht c List.mem_cons_self
    have ih := fun {d p : Int} => @ih (fun x hx => ht x (List.mem_cons_of_mem c hx)) hl d p
    simp only [Option.isSome_none, Option.elim_none] at ih ⊢
    rw [level.eq_def, spell_cons, run_append]
    dsimp only
    rw [if_neg hq]
    split
    · rw [Int.add_zero]
      exact hdp.trans ((peak_run (outside d p) _).trans (peak_run _ _))
    · next hlt =>
      split
      · next ho =>
        rw [hpc.run_open ho, ← Int.add_assoc]
        exact ih (le_max_right p (d + 1))
      · next ho =>
        split
        · next hcl =>
          rw [hpc.run_close hcl, ← Int.add_assoc]
          exact ih (by omega)
        · next hcl =>
          rw [hpc.run_neutral (by omega) ⟨hq, fun h => ho (.inl h), fun h => ho (.inr h),
            fun h => hcl (.inl h), fun h => hcl (.inr h)⟩]
          exact ih hdp
  | case4 read c t hq ih =>
    have hleft : Left (read ++ [c]) := hl _ List.mem_cons_self
    have hstate : ((inside d p).run (spell read)).run c.bytes = outside d p := by
      rw [← run_append, ← hleft d p, spell_append, spell_cons, spell_nil, List.append_nil]
    rw [level.eq_def, spell_cons, run_append]
    dsimp only [Option.isSome_some, Option.elim_some]
    rw [if_pos hq, hstate]
    exact ih (fun x hx => ht x (List.mem_cons_of_mem c hx)) (fun l h => hl l (List.mem_cons_of_mem _ h)) hdp
  | case5 read c hq hb =>
    rw [level.eq_def]
    dsimp only [Option.isSome_some, Option.elim_some]
    rw [if_neg hq, if_pos hb, Int.add_zero]
    exact hdp.trans ((peak_run (inside d p) _).trans (peak_run _ _))
  | case6 read c hq hb x t ih =>
    have ih := @ih (fun y hy => ht y (List.mem_cons_of_mem c (List.mem_cons_of_mem x hy))) hl d p hdp
    rw [level.eq_def]
    dsimp only [Option.isSome_some, Option.elim_some] at ih ⊢
    rw [if_neg hq, if_pos hb]
    simpa using ih
  | case7 read c t hq hb ih =>
    have ih := @ih (fun y hy => ht y (List.mem_cons_of_mem c hy)) hl d p hdp
    rw [level.eq_def]
    dsimp only [Option.isSome_some, Option.elim_some] at ih ⊢
    rw [if_neg hq, if_neg hb]
    simpa using ih

structure Part (t u r : List Spelled) : Prop where
  eq : t = u ++ r
  literals : ∀ l ∈ literals none r, l ∈ literals none t

theorem Part.refl (t : List Spelled) : Part t [] t := ⟨rfl, fun _ hl => hl⟩

theorem Part.trans {u' r' : List Spelled} (hp : Part t u r) (hp' : Part r u' r') : Part t (u ++ u') r' :=
  ⟨by rw [hp.eq, hp'.eq, List.append_assoc], fun l hl => hp.literals l (hp'.literals l hl)⟩

theorem Part.left (hp : Part t u r) (ht : ∀ l ∈ BodyDepth.literals none t, Left l) :
    ∀ l ∈ BodyDepth.literals none r, Left l :=
  fun l hl => ht l (hp.literals l hl)

theorem Part.plainly (hp : Part t u r) (ht : ∀ c ∈ t, Plainly c) : ∀ c ∈ r, Plainly c :=
  fun c hc => ht c (hp.eq ▸ List.mem_append_right u hc)

theorem Part.cons (hc : c.code ≠ 0x22) (t : List Spelled) : Part (c :: t) [c] t :=
  ⟨rfl, fun l hl => by rwa [BodyDepth.literals, if_neg hc]⟩

theorem Part.of_no_quote (hu : ∀ c ∈ u, c.code ≠ 0x22) (r : List Spelled) : Part (u ++ r) u r := by
  induction u with
  | nil => exact .refl r
  | cons c u ih =>
    exact (Part.cons (hu c List.mem_cons_self) (u ++ r)).trans (ih (fun c hc => hu c (List.mem_cons_of_mem _ hc)))

/-- The scan over the text is back outside at the same depth. -/
def Clean (u : List Spelled) : Prop := ∀ d p, ∃ p', p ≤ p' ∧ (outside d p).run (spell u) = outside d p'

/-- The scan over the text comes `k` levels up. -/
def Rises (u : List Spelled) (k : Nat) : Prop := ∀ d p, d + k ≤ ((outside d p).run (spell u)).peak

theorem Clean.nil : Clean [] := fun _ p => ⟨p, le_rfl, rfl⟩

theorem Clean.append (hu : Clean u) (hr : Clean r) : Clean (u ++ r) := by
  intro d p
  obtain ⟨p', hle, hrun⟩ := hu d p
  obtain ⟨p'', hle', hrun'⟩ := hr d p'
  exact ⟨p'', hle.trans hle', by rw [spell_append, run_append, hrun, hrun']⟩

theorem Rises.append_left {k : Nat} (hu : Rises u k) (r : List Spelled) : Rises (u ++ r) k := by
  intro d p
  rw [spell_append, run_append]
  exact (hu d p).trans (peak_run _ _)

theorem Rises.append_right {k : Nat} (hu : Clean u) (hr : Rises r k) : Rises (u ++ r) k := by
  intro d p
  obtain ⟨p', -, hrun⟩ := hu d p
  rw [spell_append, run_append, hrun]
  exact hr d p'

theorem Clean.of_neutral (hp : ∀ c ∈ u, Plainly c) (hu : ∀ c ∈ u, c.code < 128 ∧ Neutral c.code) : Clean u := by
  induction u with
  | nil => exact .nil
  | cons c u ih =>
    obtain ⟨hlt, hn⟩ := hu c List.mem_cons_self
    refine Clean.append (u := [c]) (fun d p => ⟨p, le_rfl, ?_⟩)
      (ih (fun c hc => hp c (List.mem_cons_of_mem _ hc)) (fun c hc => hu c (List.mem_cons_of_mem _ hc)))
    rw [spell_cons, spell_nil, List.append_nil]
    exact (hp c List.mem_cons_self).run_neutral hlt hn d p

/-- A text between brackets. -/
theorem Clean.bracket (hc : Plainly c) (ho : c.code = 0x7B ∨ c.code = 0x5B) (hq : Plainly q)
    (hcl : q.code = 0x7D ∨ q.code = 0x5D) (hu : Clean u) : Clean (c :: u ++ [q]) := by
  intro d p
  obtain ⟨p', hle, hrun⟩ := hu (d + 1) (max p (d + 1))
  refine ⟨p', (le_max_left _ _).trans hle, ?_⟩
  rw [spell_append, spell_cons, run_append, run_append, hc.run_open ho, hrun, spell_cons, spell_nil, List.append_nil,
    hq.run_close hcl, Int.add_sub_cancel]

theorem Rises.bracket {k : Nat} (hc : Plainly c) (ho : c.code = 0x7B ∨ c.code = 0x5B) (hu : Rises u k)
    (r : List Spelled) : Rises (c :: u ++ r) (k + 1) := by
  intro d p
  rw [spell_append, spell_cons, run_append, run_append, hc.run_open ho]
  have hrise := (hu (d + 1) (max p (d + 1))).trans (peak_run _ (spell r))
  push_cast
  omega

theorem Rises.zero (hu : Clean u) (r : List Spelled) (hc : Plainly c) (ho : c.code = 0x7B ∨ c.code = 0x5B) :
    Rises (c :: u ++ r) 1 := by
  intro d p
  obtain ⟨p', hle, hrun⟩ := hu (d + 1) (max p (d + 1))
  rw [spell_append, spell_cons, run_append, run_append, hc.run_open ho, hrun]
  have hpeak := (le_max_right p (d + 1)).trans (hle.trans (peak_run (outside (d + 1) p') (spell r)))
  exact hpeak

structure Covers (u : List Spelled) (v : Json) : Prop where
  clean : Clean u
  rises : ∀ k, Nests v k → Rises u k

end FusionMlx.BodyDepth
