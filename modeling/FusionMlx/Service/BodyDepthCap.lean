import FusionMlx.Service.BracketCover

/-!
# What the cap lets through

A body that is decoded to a value within the cap is forwarded byte for byte. One
that is deeper is refused if the scan leaves every string literal at its closing
quote, as in UTF-8 it does. In UTF-16 and UTF-32 an escaped quote, or a byte of
another character that looks like a quote or a backslash, can make it leave a
literal elsewhere.
-/
namespace FusionMlx.BodyDepth

open JsonText (Json)
open JsonBytes Scan

variable {P : Interpreter} {b : Bytes} {t : List Spelled}

structure Spells (t : List Spelled) (b : Bytes) : Prop where
  spell : spell t = b
  plainly : ∀ c ∈ t, Plainly c

theorem Spells.nil : Spells [] [] := ⟨rfl, fun _ hc => absurd hc List.not_mem_nil⟩

variable {c : Spelled}

theorem Spells.cons (hs : Spells t b) (hc : Plainly c) : Spells (c :: t) (c.bytes ++ b) := by
  refine ⟨by rw [spell_cons, hs.spell], fun d hd => ?_⟩
  rcases List.mem_cons.1 hd with rfl | hd
  · exact hc
  · exact hs.plainly d hd

theorem ofNat_toNat {a : UInt8} {n : Nat} (h : a.toNat = n) : UInt8.ofNat n = a := by
  rw [← h, UInt8.ofNat_toNat]

theorem plainly_of_le (h : 128 ≤ c.code) : Plainly c := fun hlt => absurd hlt (not_lt.2 h)

theorem plainly_unit16 (le : Bool) (x y : UInt8) : Plainly ⟨unit16 le x y, [x, y]⟩ := by
  intro hlt
  have hx := x.toNat_lt
  have hy := y.toNat_lt
  have hzero : ∀ {z : UInt8}, z.toNat = 0 → z = 0 := fun h => (ofNat_toNat h).symm
  cases le with
  | true =>
    simp only [unit16, if_true] at hlt ⊢
    obtain rfl := hzero (by omega : y.toNat = 0)
    exact ⟨0, 1, by simp⟩
  | false =>
    simp only [unit16, Bool.false_eq_true, if_false] at hlt ⊢
    obtain rfl := hzero (by omega : x.toNat = 0)
    exact ⟨1, 0, by simp⟩

theorem decode16_spells {le : Bool} (hd : decode16 le b = some t) : Spells t b := by
  fun_induction decode16 le b generalizing t with
  | case1 => cases hd; exact .nil
  | case2 x y _ c d u _ ih =>
    obtain ⟨t', ht', rfl⟩ := Option.map_eq_some_iff.1 hd
    have hlarge : 0x10000 ≤ joinSurrogates (unit16 le x y) (unit16 le c d) :=
      (Nat.le_add_right _ _).trans (Nat.le_add_right _ _)
    exact (ih ht').cons (plainly_of_le (le_trans (by decide) hlarge))
  | case3 x y _ c d u _ ih =>
    obtain ⟨t', ht', rfl⟩ := Option.map_eq_some_iff.1 hd
    exact (ih ht').cons (plainly_unit16 le x y)
  | case4 x y _ u _ ih =>
    obtain ⟨t', ht', rfl⟩ := Option.map_eq_some_iff.1 hd
    exact (ih ht').cons (plainly_unit16 le x y)
  | case5 x y u _ ih =>
    obtain ⟨t', ht', rfl⟩ := Option.map_eq_some_iff.1 hd
    exact (ih ht').cons (plainly_unit16 le x y)
  | case6 => cases hd

theorem plainly_unit32 (le : Bool) (x y z w : UInt8) : Plainly ⟨unit32 le x y z w, [x, y, z, w]⟩ := by
  intro hlt
  have hzero : ∀ {z : UInt8}, z.toNat = 0 → z = 0 := fun h => (ofNat_toNat h).symm
  cases le with
  | true =>
    simp only [unit32, if_true] at hlt ⊢
    obtain rfl := hzero (by omega : w.toNat = 0)
    obtain rfl := hzero (by simp at hlt; omega : z.toNat = 0)
    obtain rfl := hzero (by simp at hlt; omega : y.toNat = 0)
    exact ⟨0, 3, by simp [List.replicate]⟩
  | false =>
    simp only [unit32, Bool.false_eq_true, if_false] at hlt ⊢
    obtain rfl := hzero (by omega : x.toNat = 0)
    obtain rfl := hzero (by simp at hlt; omega : y.toNat = 0)
    obtain rfl := hzero (by simp at hlt; omega : z.toNat = 0)
    exact ⟨3, 0, by simp [List.replicate]⟩

theorem decode32_spells {le : Bool} (hd : decode32 le b = some t) : Spells t b := by
  fun_induction decode32 le b generalizing t with
  | case1 => cases hd; exact .nil
  | case2 x y z w u _ ih =>
    obtain ⟨t', ht', rfl⟩ := Option.map_eq_some_iff.1 hd
    exact (ih ht').cons (plainly_unit32 le x y z w)
  | case3 => cases hd
  | case4 => cases hd

def High (c : Spelled) : Prop :=
  (c.code < 128 ∧ c.bytes = [UInt8.ofNat c.code]) ∨ (128 ≤ c.code ∧ c.bytes ≠ [] ∧ ∀ x ∈ c.bytes, 0x80 ≤ x.toNat)

theorem High.plainly (hc : High c) : Plainly c := by
  rcases hc with ⟨-, hbytes⟩ | ⟨hle, -⟩
  · exact fun _ => ⟨0, 0, by rw [hbytes]; rfl⟩
  · exact plainly_of_le hle

theorem isSecond_spec {x y : UInt8} (h : isSecond x y = true) :
    0x80 ≤ y.toNat ∧ (x.toNat = 0xE0 → 0xA0 ≤ y.toNat) ∧ (x.toNat = 0xF0 → 0x90 ≤ y.toNat) := by
  simp only [isSecond, isTail, decide_eq_true_eq] at h
  exact ⟨h.1.1, fun hx => h.2.1 (ofNat_toNat hx).symm, fun hx => h.2.2.1 (ofNat_toNat hx).symm⟩

theorem decode8_spells (hd : decode8 b = some t) : Spells t b ∧ ∀ c ∈ t, High c := by
  have hcons : ∀ {c : Spelled} {b : Bytes} {t : List Spelled}, High c → Spells t b ∧ (∀ c ∈ t, High c) →
      Spells (c :: t) (c.bytes ++ b) ∧ ∀ d ∈ c :: t, High d := by
    intro c b t hc ht
    refine ⟨ht.1.cons hc.plainly, fun d hd => ?_⟩
    rcases List.mem_cons.1 hd with rfl | hd
    · exact hc
    · exact ht.2 d hd
  have htail : ∀ {x : UInt8}, isTail x = true → 0x80 ≤ x.toNat := by
    intro x hx
    simp only [isTail, decide_eq_true_eq] at hx
    exact hx.1
  fun_induction decode8 b generalizing t with
  | case1 => cases hd; exact ⟨.nil, fun _ hc => absurd hc List.not_mem_nil⟩
  | case2 x u hlt ih =>
    obtain ⟨t', ht', rfl⟩ := Option.map_eq_some_iff.1 hd
    exact hcons (.inl ⟨hlt, by rw [UInt8.ofNat_toNat]⟩) (ih ht')
  | case3 x hx hrange y u hy ih =>
    obtain ⟨t', ht', rfl⟩ := Option.map_eq_some_iff.1 hd
    have hy := htail hy
    refine hcons (.inr ⟨?_, by simp, ?_⟩) (ih ht')
    · dsimp only
      omega
    · simp only [List.forall_mem_cons, List.not_mem_nil, false_implies, implies_true, and_true]
      omega
  | case4 => cases hd
  | case5 => cases hd
  | case6 x hx _ hrange y z u hyz ih =>
    obtain ⟨t', ht', rfl⟩ := Option.map_eq_some_iff.1 hd
    obtain ⟨hy, hE0, -⟩ := isSecond_spec hyz.1
    have hz := htail hyz.2
    refine hcons (.inr ⟨?_, by simp, ?_⟩) (ih ht')
    · dsimp only
      omega
    · simp only [List.forall_mem_cons, List.not_mem_nil, false_implies, implies_true, and_true]
      omega
  | case7 => cases hd
  | case8 => cases hd
  | case9 x hx _ _ hrange y z w u hyz ih =>
    obtain ⟨t', ht', rfl⟩ := Option.map_eq_some_iff.1 hd
    obtain ⟨hy, -, hF0⟩ := isSecond_spec hyz.1
    have hz := htail hyz.2.1
    have hw := htail hyz.2.2
    refine hcons (.inr ⟨?_, by simp, ?_⟩) (ih ht')
    · dsimp only
      omega
    · simp only [List.forall_mem_cons, List.not_mem_nil, false_implies, implies_true, and_true]
      omega
  | case10 => cases hd
  | case11 => cases hd
  | case12 => cases hd

def Held (read : List Spelled) : Prop := ∀ d p, (inside d p).run (spell read) = inside d p

theorem run_high (d p : Int) (hb : ∀ x ∈ b, 0x80 ≤ x.toNat) : (inside d p).run b = inside d p := by
  induction b with
  | nil => rfl
  | cons x b ih =>
    have hx := hb x List.mem_cons_self
    have hback : x ≠ 0x5C := by
      rintro rfl
      exact absurd hx (by decide)
    have hquote : x ≠ 0x22 := by
      rintro rfl
      exact absurd hx (by decide)
    have hstep : (inside d p).step x = inside d p := by
      rw [step, if_neg (by simp [inside]), if_pos (by simp [inside]), if_neg hback, if_neg hquote]
    rw [run_cons, hstep]
    exact ih (fun y hy => hb y (List.mem_cons_of_mem x hy))

theorem Held.snoc {read : List Spelled} {u : List Spelled} (hr : Held read)
    (hu : ∀ d p, (inside d p).run (spell u) = inside d p) : Held (read ++ u) := by
  intro d p
  rw [spell_append, run_append, hr d p]
  exact hu d p

/-- A character within a literal that is neither a quote nor a backslash. -/
theorem High.run_inside (hc : High c) (hq : c.code ≠ 0x22) (hb : c.code ≠ 0x5C) (d p : Int) :
    (inside d p).run (spell [c]) = inside d p := by
  rw [spell_cons, spell_nil, List.append_nil]
  rcases hc with ⟨hlt, hbytes⟩ | ⟨-, -, hhigh⟩
  · have hbyte : ∀ x : UInt8, UInt8.ofNat c.code = x → c.code = x.toNat := by
      rintro x rfl
      exact (UInt8.toNat_ofNat_of_lt' (hlt.trans (by decide))).symm
    have hback : UInt8.ofNat c.code ≠ 0x5C := fun h => hb (hbyte _ h)
    have hquote : UInt8.ofNat c.code ≠ 0x22 := fun h => hq (hbyte _ h)
    rw [hbytes, run_cons, run_nil, step, if_neg (by simp [inside]), if_pos (by simp [inside]), if_neg hback,
      if_neg hquote]
  · exact run_high d p hhigh

/-- An escape takes the next character's first byte with it, and the others are high. -/
theorem High.run_escape {x : Spelled} (hc : High c) (hb : c.code = 0x5C) (hx : High x) (d p : Int) :
    (inside d p).run (spell [c, x]) = inside d p := by
  have hcb : c.bytes = [0x5C] := by
    rcases hc with ⟨-, hbytes⟩ | ⟨hle, -⟩
    · rw [hbytes, hb]
      rfl
    · omega
  have hback : (inside d p).step 0x5C = ⟨d, p, true, true⟩ := rfl
  have hskip : ∀ y, Scan.step ⟨d, p, true, true⟩ y = inside d p := fun _ => rfl
  rw [spell_cons, hcb, spell_cons, spell_nil, List.append_nil, List.singleton_append, run_cons, hback]
  rcases hx with ⟨-, hbytes⟩ | ⟨-, hne, hhigh⟩
  · rw [hbytes, run_cons, hskip]
    rfl
  · cases hbytes : x.bytes with
    | nil => exact absurd hbytes hne
    | cons y rest =>
      rw [run_cons, hskip]
      exact run_high d p (fun z hz => hhigh z (hbytes ▸ List.mem_cons_of_mem y hz))

/-- In UTF-8 every literal is left where it ends. -/
theorem literals_left (read : Option (List Spelled)) (t : List Spelled) (ht : ∀ c ∈ t, High c)
    (hread : ∀ r, read = some r → Held r) : ∀ l ∈ literals read t, Left l := by
  fun_induction literals read t with
  | case1 => exact fun l hl => absurd hl List.not_mem_nil
  | case2 c t hq ih =>
    refine ih (fun d hd => ht d (List.mem_cons_of_mem c hd)) (fun r hr => ?_)
    cases hr
    exact fun _ _ => rfl
  | case3 c t _ ih => exact ih (fun d hd => ht d (List.mem_cons_of_mem c hd)) (fun r hr => by cases hr)
  | case4 read c t hq ih =>
    intro l hl
    rcases List.mem_cons.1 hl with rfl | hl
    · intro d p
      have hcb : c.bytes = [0x22] := by
        rcases ht c List.mem_cons_self with ⟨-, hbytes⟩ | ⟨hle, -⟩
        · rw [hbytes, hq]
          rfl
        · omega
      rw [spell_append, run_append, hread read rfl d p, spell_cons, hcb]
      rfl
    · exact ih (fun d hd => ht d (List.mem_cons_of_mem c hd)) (fun r hr => by cases hr) l hl
  | case5 => exact fun l hl => absurd hl List.not_mem_nil
  | case6 read c _ hb x t ih =>
    refine ih (fun d hd => ht d (List.mem_cons_of_mem c (List.mem_cons_of_mem x hd))) (fun r hr => ?_)
    cases hr
    exact (hread read rfl).snoc ((ht c List.mem_cons_self).run_escape hb (ht x (List.mem_cons_of_mem c List.mem_cons_self)))
  | case7 read c t hq hb ih =>
    refine ih (fun d hd => ht d (List.mem_cons_of_mem c hd)) (fun r hr => ?_)
    cases hr
    exact (hread read rfl).snoc ((ht c List.mem_cons_self).run_inside hq hb)

theorem bom_neutral (b : Bytes) : (outside 0 0).run (b.take (bomLength (detectEncoding b))) = outside 0 0 := by
  have hprefix : ∀ bom : Bytes, bom.isPrefixOf b = true → (outside 0 0).run bom = outside 0 0 →
      (outside 0 0).run (b.take bom.length) = outside 0 0 := by
    intro bom h hrun
    obtain ⟨r, rfl⟩ := List.isPrefixOf_iff_prefix.1 h
    rwa [List.take_left]
  rw [detectEncoding.eq_def]
  split
  · next h => exact hprefix _ h rfl
  split
  · next h => exact hprefix _ h rfl
  split
  · next h => exact hprefix _ h rfl
  split
  · next h => exact hprefix _ h rfl
  split
  · next h => exact hprefix _ h rfl
  split
  · split
    · split <;> rfl
    · split
      · split <;> rfl
      · rfl
  · split
    · rfl
    · split <;> rfl
  · rfl

theorem decode_spells (hd : decode b = some t) :
    Spells t (b.drop (bomLength (detectEncoding b))) ∧ ∀ sig, detectEncoding b = .utf8 sig → ∀ c ∈ t, High c := by
  rw [decode] at hd
  split at hd
  · next sig hsig =>
    rw [hsig]
    exact ⟨(decode8_spells hd).1, fun _ _ => (decode8_spells hd).2⟩
  · next bom le he =>
    rw [he]
    exact ⟨decode16_spells hd, fun _ h => by cases h⟩
  · next bom le he =>
    rw [he]
    exact ⟨decode32_spells hd, fun _ h => by cases h⟩

/-- The body is UTF-8, or the scan leaves every string literal of it where it ends, or at least
those before brackets that are nested too deep. -/
def Heard (maxDepth : Int) (b : Bytes) : Prop :=
  (∃ sig, detectEncoding b = .utf8 sig) ∨ ∀ t, decode b = some t →
    (∀ l ∈ literals none t, Left l) ∨
      ∃ t₁, t₁ <+: t ∧ (∀ l ∈ literals none t₁, Left l) ∧ maxDepth < level false t₁

theorem quickLoop_iff {cap : Int} {s : Scan} (hs : s.peak < cap) : quickLoop cap s b = true ↔ cap ≤ (s.run b).peak := by
  induction b generalizing s with
  | nil => rw [quickLoop, run_nil, decide_eq_true_eq]
  | cons x b ih =>
    rw [quickLoop, run_cons]
    split
    · next hnew => exact iff_of_true rfl (hnew.2.trans (peak_run _ b))
    · next hold =>
      have hle := peak_step s x
      exact ih (by omega)

variable {maxDepth : Int}

theorem quick_iff (hpos : 0 < maxDepth) :
    quickDepthMightExceed b maxDepth = true ↔ maxDepth < (Scan.run {} b).peak := by
  rw [quickDepthMightExceed, quickLoop_iff (show (0 : Int) < maxDepth + 1 by omega)]
  omega

/-- Where the scan finds nothing too deep, nothing is. -/
theorem Heard.quick (hh : Heard maxDepth b) {v : Json} (hload : loads P b = .ok v) (hpos : 0 < maxDepth)
    {d : Nat} (hd : Nests v d) (hdeep : maxDepth < d) : quickDepthMightExceed b maxDepth = true := by
  rw [loads] at hload
  split at hload
  · next t ht =>
    obtain ⟨hspells, hhigh⟩ := decode_spells ht
    have hrun : (Scan.run {} b).peak = ((outside 0 0).run (spell t)).peak := by
      conv_lhs => rw [← List.take_append_drop (bomLength (detectEncoding b)) b]
      rw [run_append, show ({} : Scan) = outside 0 0 from rfl, bom_neutral, hspells.spell]
    have hleft : (∀ l ∈ literals none t, Left l) ∨
        ∃ t₁, t₁ <+: t ∧ (∀ l ∈ literals none t₁, Left l) ∧ maxDepth < level false t₁ := by
      rcases hh with ⟨sig, hsig⟩ | hleft
      · exact .inl (literals_left none t (hhigh sig hsig) (fun _ h => by cases h))
      · exact hleft t ht
    rw [quick_iff hpos, hrun]
    rcases hleft with hleft | ⟨t₁, ⟨t₂, rfl⟩, hleft, hlevel⟩
    · exact hdeep.trans_le (loadsText_covers hload hspells.plainly hleft hd)
    · have hpeak : (0 : Int) + level (none : Option (List Spelled)).isSome t₁ ≤
          ((outside 0 0).run (spell t₁)).peak :=
        level_peak (fun c hc => hspells.plainly c (List.mem_append_left _ hc)) hleft (le_refl (0 : Int))
      rw [Int.zero_add] at hpeak
      rw [spell_append, run_append]
      exact (hlevel.trans_le hpeak).trans_le (peak_run _ _)
  · cases hload

theorem scanScalar_head {s : Json × List Spelled} (hs : scanScalar P (c :: t) = .ok s) :
    c.code < 128 ∧ c.code ≠ 0x20 ∧ ¬ (9 ≤ c.code ∧ c.code ≤ 13) := by
  have hno : ∀ (x : Char) (u : JsonText.Text), JsonText.isDigit x = false → x ∉ ['-', 'n', 't', 'f', 'N', 'I'] →
      JsonText.scanNumber (x :: u) = none ∧
        JsonText.words.find? (fun w => w.1.isPrefixOf (x :: u)) = none := by
    intro x u hdigit hx
    have hzero : x ≠ '0' := by
      rintro rfl
      cases hdigit
    have hnat : JsonText.scanInt.scanNat (x :: u) = none := by
      unfold JsonText.scanInt.scanNat
      split
      · next h => exact absurd (List.cons.inj h).1 hzero
      · next h =>
        cases h
        rw [hdigit]
        rfl
      · rfl
    have hint : JsonText.scanInt (x :: u) = none := by
      unfold JsonText.scanInt
      split
      · next h => exact absurd (List.cons.inj h).1 (fun h => hx (h ▸ List.mem_cons_self))
      · exact hnat
    have hheads : ∀ w ∈ JsonText.words, w.1 ≠ [] ∧ ∀ y ∈ w.1.head?, y ∈ ['-', 'n', 't', 'f', 'N', 'I'] := by
      simp [JsonText.words]
    refine ⟨by rw [JsonText.scanNumber, hint]; rfl, List.find?_eq_none.2 (fun w hw hp => ?_)⟩
    obtain ⟨hne, hhead⟩ := hheads w hw
    cases hword : w.1 with
    | nil => exact hne hword
    | cons y rest =>
      rw [hword, List.isPrefixOf_cons_cons, Bool.and_eq_true, beq_iff_eq] at hp
      exact hx (hp.1 ▸ hhead y (by rw [hword]; rfl))
  by_contra hspace
  have hbad : JsonText.isDigit (toChar c) = false ∧ toChar c ∉ ['-', 'n', 't', 'f', 'N', 'I'] := by
    by_cases hlt : c.code < 128
    · have hcodes : c.code = 0x20 ∨ c.code = 9 ∨ c.code = 10 ∨ c.code = 11 ∨ c.code = 12 ∨ c.code = 13 := by omega
      rcases hcodes with h | h | h | h | h | h <;> rw [toChar, h] <;> decide
    · rw [toChar, if_neg hlt]
      decide
  obtain ⟨hnumber, hword⟩ := hno (toChar c) (t.map toChar) hbad.1 hbad.2
  rw [scanScalar, List.map_cons, hnumber] at hs
  dsimp only at hs
  rw [hword] at hs
  cases hs

/-- A document has a character that is no white space. -/
theorem loadsText_solid {v : Json} (hload : loadsText P t = .ok v) :
    ∃ c ∈ t, c.code < 128 ∧ c.code ≠ 0x20 ∧ ¬ (9 ≤ c.code ∧ c.code ≤ 13) := by
  rw [loadsText] at hload
  cases hskip : skipWs t with
  | nil =>
    rw [hskip] at hload
    cases hload
  | cons c u =>
    have hkept : c ∈ skipWs t := hskip ▸ List.mem_cons_self
    have hmem : c ∈ t := (List.dropWhile_sublist isWs).subset hkept
    refine ⟨c, hmem, ?_⟩
    rw [hskip] at hload
    cases hvalue : scanValue P (t.length + 1) P.recursionLimit (c :: u) with
    | error e =>
      rw [hvalue] at hload
      cases hload
    | ok s =>
      rw [scanValue.eq_def] at hvalue
      dsimp only at hvalue
      split at hvalue
      · omega
      · split at hvalue
        · omega
        · exact scanScalar_head hvalue

theorem all_space_of_strip (hb : strip b = []) : ∀ x ∈ b, isSpaceByte x = true := by
  rw [strip, List.reverse_eq_nil_iff, List.dropWhile_eq_nil_iff] at hb
  have hnone : b.dropWhile isSpaceByte = [] := by
    cases hd : b.dropWhile isSpaceByte with
    | nil => rfl
    | cons x u =>
      have hhead := List.head_dropWhile_not isSpaceByte (l := b) (by rw [hd]; simp)
      simp only [hd, List.head_cons] at hhead
      have hspace := hb x (List.mem_reverse.2 (hd ▸ List.mem_cons_self))
      rw [hhead] at hspace
      cases hspace
  exact List.dropWhile_eq_nil_iff.1 hnone

/-- White space alone is no document. -/
theorem strip_ne_nil {v : Json} (hload : loads P b = .ok v) : strip b ≠ [] := by
  intro hstrip
  rw [loads] at hload
  split at hload
  · next t ht =>
    obtain ⟨hspells, -⟩ := decode_spells ht
    obtain ⟨c, hc, hlt, hspace⟩ := loadsText_solid hload
    obtain ⟨m, n, hbytes⟩ := hspells.plainly c hc hlt
    have hin : UInt8.ofNat c.code ∈ b := by
      refine List.mem_of_mem_drop (i := bomLength (detectEncoding b)) (hspells.spell ▸ ?_)
      exact List.mem_flatMap.2 ⟨c, hc, by rw [hbytes]; simp⟩
    have hbyte := all_space_of_strip hstrip _ hin
    have hnat : (UInt8.ofNat c.code).toNat = c.code := UInt8.toNat_ofNat_of_lt' (hlt.trans (by decide))
    simp only [isSpaceByte, decide_eq_true_eq, hnat] at hbyte
    rcases hbyte with hbyte | hbyte
    · rw [hbyte] at hnat
      exact hspace.1 hnat.symm
    · exact hspace.2 hbyte
  · cases hload

def chunked : List Bytes → List Message
  | [] => []
  | [chunk] => [.request chunk false]
  | chunk :: chunks => .request chunk true :: chunked chunks

/-- However the body is split, it is received whole. -/
theorem receiveLoop_chunked {chunks : List Bytes} (hne : chunks ≠ []) (read : List Bytes) (rest : List Message) :
    receiveLoop read (chunked chunks ++ rest) = some (.body (read.flatten ++ chunks.flatten), rest) := by
  have hread : ∀ (read : List Bytes) (chunk : Bytes),
      (if chunk = [] then read else read ++ [chunk]).flatten = read.flatten ++ chunk := by
    intro read chunk
    split
    · next h => rw [h, List.append_nil]
    · simp
  induction chunks generalizing read with
  | nil => exact absurd rfl hne
  | cons chunk chunks ih =>
    cases chunks with
    | nil =>
      rw [chunked, List.singleton_append, receiveLoop]
      simp only [Bool.false_eq_true, if_false, hread]
      simp
    | cons next chunks =>
      rw [chunked, List.cons_append, receiveLoop]
      simp only [if_true]
      rw [ih (List.cons_ne_nil next chunks), hread]
      simp
      intro h
      cases h

theorem call_chunked {scope : Scope} (hg : guarded scope maxDepth = true) {chunks : List Bytes}
    (hne : chunks ≠ []) (rest : List Message) :
    call P scope maxDepth (chunked chunks ++ rest) = some (judge P maxDepth chunks.flatten rest) := by
  rw [call, hg, receiveLoop_chunked hne]
  rfl

theorem guarded_pos {scope : Scope} (hg : guarded scope maxDepth = true) : 0 < maxDepth := by
  simp only [guarded, Bool.and_eq_true, decide_eq_true_eq] at hg
  exact hg.1.2

theorem judge_loaded {v : Json} (hload : loads P b = .ok v) (maxDepth : Int) (rest : List Message) :
    judge P maxDepth b rest = if quickDepthMightExceed b maxDepth && jsonNestingDepthExceeds v maxDepth then .tooDeep
      else .app (.request b false :: rest) := by
  rw [judge, if_neg (strip_ne_nil hload), hload]
  cases quickDepthMightExceed b maxDepth <;> rfl

def chat : Scope := { type := "http", method := "POST", path := some "/v1/messages".toList, headers := [] }

def cpython : Interpreter := { recursionLimit := 900, intMaxStrDigits := 4300 }

def twoLevels : List Bytes :=
  [[0x5B, 0x00, 0x5B, 0x00], [0x31, 0x00, 0x5D, 0x00, 0x2C, 0x00, 0x22, 0x00, 0x22, 0x01, 0x22, 0x00, 0x5D, 0x00]]

def cedilla : Bytes :=
  [0x5B, 0x00, 0x22, 0x00, 0x22, 0x01, 0x22, 0x00, 0x2C, 0x00, 0x5B, 0x00, 0x31, 0x00, 0x5D, 0x00, 0x5D, 0x00]

end FusionMlx.BodyDepth
