import FusionMlx.Cache.BlockHashing
import FusionMlx.Support.CompactJson
import Mathlib

/-!
# Salts of strings and the chain hash

The salt of a block is printed as a tuple of Python strings. Every code point of
a printed string is read back whatever follows it, so the printed tuple gives
the strings, and the digest of a block gives its place, the tokens up to it and
the salts of all blocks up to it.
-/
namespace FusionMlx.SaltRendering

open BlockHashing
open CompactJson (CodePoint)

abbrev PyString := List CodePoint

def scalar (c : CodePoint) : Option Char :=
  if h : Nat.isValidChar c then some (Char.ofNatAux c h) else none

def hexDigit (d : Nat) : UInt8 := UInt8.ofNat (if d < 10 then 48 + d else 87 + d)

def hex : Nat → Nat → Bytes
  | 0, _ => []
  | width + 1, n => hex width (n / 16) ++ [hexDigit (n % 16)]

def numeric (c : Nat) : Bytes :=
  if c ≤ 0xff then 92 :: 120 :: hex 2 c
  else if c ≤ 0xffff then 92 :: 117 :: hex 4 c
  else 92 :: 85 :: hex 8 c

section Repr
variable (printable : Char → Bool)

def escape (quote : Nat) (c : CodePoint) : Bytes :=
  if c.val = quote ∨ c.val = 92 then [92, UInt8.ofNat c]
  else if c.val = 9 then [92, 116]
  else if c.val = 10 then [92, 110]
  else if c.val = 13 then [92, 114]
  else if c.val < 32 ∨ c.val = 127 then 92 :: 120 :: hex 2 c
  else if c.val < 127 then [UInt8.ofNat c]
  else match scalar c with
    | some ch => if printable ch then String.utf8EncodeChar ch else numeric c
    | none => numeric c

def quoteOf (s : PyString) : Nat :=
  if (39 : CodePoint) ∈ s ∧ (34 : CodePoint) ∉ s then 34 else 39

def strRepr (s : PyString) : Bytes :=
  UInt8.ofNat (quoteOf s) :: (s.flatMap (escape printable (quoteOf s)) ++ [UInt8.ofNat (quoteOf s)])

end Repr

def unhexDigit (d : UInt8) : Nat := if d.toNat < 58 then d.toNat - 48 else d.toNat - 87

def unhex (digits : Bytes) : Nat := digits.foldl (fun n d => 16 * n + unhexDigit d) 0

theorem unhexDigit_hexDigit {d : Nat} (h : d < 16) : unhexDigit (hexDigit d) = d := by
  have hall : ∀ d : Fin 16, unhexDigit (hexDigit d) = d := by decide
  exact hall ⟨d, h⟩

@[simp] theorem hex_length (width n : Nat) : (hex width n).length = width := by
  induction width generalizing n with
  | zero => rfl
  | succ width ih => simp [hex, ih]

theorem unhex_hex {width n : Nat} (h : n < 16 ^ width) : unhex (hex width n) = n := by
  induction width generalizing n with
  | zero =>
    have : n = 0 := by simpa using h
    subst this
    rfl
  | succ width ih =>
    have hdiv : n / 16 < 16 ^ width := Nat.div_lt_of_lt_mul (by rw [← Nat.pow_succ']; exact h)
    have hinit := ih hdiv
    unfold unhex at hinit ⊢
    rw [hex, List.foldl_append, hinit, List.foldl_cons, List.foldl_nil,
      unhexDigit_hexDigit (Nat.mod_lt n (by decide))]
    omega

def marked (k : UInt8) : Nat :=
  if k = 116 then 9 else if k = 110 then 10 else if k = 114 then 13 else k.toNat

def readPoint : Bytes → Option (Nat × Bytes)
  | [] => none
  | [92] => none
  | 92 :: k :: rest =>
    if k = 120 then some (unhex (rest.take 2), rest.drop 2)
    else if k = 117 then some (unhex (rest.take 4), rest.drop 4)
    else if k = 85 then some (unhex (rest.take 8), rest.drop 8)
    else some (marked k, rest)
  | b :: rest =>
    if b.toNat < 128 then some (b.toNat, rest)
    else match (b :: rest).toByteArray.utf8DecodeChar? 0 with
      | none => none
      | some ch => some (ch.toNat, (b :: rest).drop ch.utf8Size)

theorem readPoint_plain {b : UInt8} (h : b ≠ 92) (hb : b.toNat < 128) (r : Bytes) :
    readPoint (b :: r) = some (b.toNat, r) := by
  unfold readPoint
  split <;> simp_all

theorem readPoint_numeric {c : Nat} (h : c < 0x110000) (r : Bytes) :
    readPoint (numeric c ++ r) = some (c, r) := by
  have hcut : ∀ width, c < 16 ^ width →
      (unhex ((hex width c ++ r).take width), (hex width c ++ r).drop width) = (c, r) := by
    intro width hc
    rw [List.take_left' (hex_length width c), List.drop_left' (hex_length width c), unhex_hex hc]
  unfold numeric
  split
  · next hc => exact congrArg some (hcut 2 (by omega))
  · split
    · next hc => exact congrArg some (hcut 4 (by omega))
    · exact congrArg some (hcut 8 (by omega))

/-- A character beyond ASCII starts with a byte beyond ASCII. -/
theorem utf8_head {ch : Char} (h : 128 ≤ ch.toNat) :
    ∃ b rest, String.utf8EncodeChar ch = b :: rest ∧ 128 ≤ b.toNat := by
  have hv : ¬ ch.val.toNat ≤ 0x7f := by
    have : ch.toNat = ch.val.toNat := rfl
    omega
  unfold String.utf8EncodeChar
  simp only [hv, if_false]
  split
  · exact ⟨_, _, rfl, by simp; omega⟩
  · split
    · exact ⟨_, _, rfl, by simp; omega⟩
    · exact ⟨_, _, rfl, by simp; omega⟩

theorem readPoint_utf8 {ch : Char} (h : 128 ≤ ch.toNat) (r : Bytes) :
    readPoint (String.utf8EncodeChar ch ++ r) = some (ch.toNat, r) := by
  have hread : (String.utf8EncodeChar ch ++ r).toByteArray.utf8DecodeChar? 0 = some ch := by
    rw [List.toByteArray_append]
    exact ByteArray.utf8DecodeChar?_utf8EncodeChar_append
  have hdrop : (String.utf8EncodeChar ch ++ r).drop ch.utf8Size = r :=
    List.drop_left' (String.length_utf8EncodeChar ch)
  obtain ⟨b, rest, hb, hhigh⟩ := utf8_head h
  rw [hb, List.cons_append] at hread hdrop ⊢
  unfold readPoint
  split
  · next heq => cases heq
  · next heq =>
    rw [(List.cons.inj heq).1] at hhigh
    simp at hhigh
  · next heq =>
    rw [(List.cons.inj heq).1] at hhigh
    simp at hhigh
  · next b' rest' heq =>
    cases heq
    simp only [Nat.not_lt.mpr hhigh, if_false, hread, hdrop]

section Escape
variable {printable : Char → Bool}

/-- A code point is read back from what is written for it, whatever follows. -/
theorem readPoint_escape {quote : Nat} (hq : quote = 34 ∨ quote = 39) (c : CodePoint) (r : Bytes) :
    readPoint (escape printable quote c ++ r) = some (c.val, r) := by
  have hc := c.isLt
  have hnumeric := readPoint_numeric hc r
  unfold escape
  split
  · next h =>
    have : c.val = 34 ∨ c.val = 39 ∨ c.val = 92 := by omega
    rcases this with h | h | h <;> rw [h] <;> rfl
  · split
    · next h => rw [h]; rfl
    · split
      · next h => rw [h]; rfl
      · split
        · next h => rw [h]; rfl
        · split
          · next h => simpa [numeric, show c.val ≤ 0xff by omega] using hnumeric
          · split
            · next hne _ _ _ _ _ =>
              have hval : (UInt8.ofNat c.val).toNat = c.val := by
                rw [UInt8.toNat_ofNat']
                omega
              have hslash : UInt8.ofNat c.val ≠ 92 := by
                intro h
                rw [h] at hval
                exact hne (Or.inr hval.symm)
              have := readPoint_plain hslash (by omega) r
              rwa [hval] at this
            · split
              · next ch hch =>
                split
                · have hval : ch.toNat = c.val := by
                    unfold scalar at hch
                    split at hch
                    · cases hch; rfl
                    · cases hch
                  rw [readPoint_utf8 (by omega), hval]
                · exact hnumeric
              · exact hnumeric

/-- What is written for a code point does not begin with the quote. -/
theorem escape_ne_quote {quote : Nat} (hq : quote = 34 ∨ quote = 39) (c : CodePoint) (r r' : Bytes) :
    escape printable quote c ++ r ≠ UInt8.ofNat quote :: r' := by
  intro h
  have hread := @readPoint_escape printable quote hq c r
  have hquote : readPoint (UInt8.ofNat quote :: r') = some (quote, r') := by
    rcases hq with rfl | rfl <;> rfl
  rw [h, hquote] at hread
  have hc : c.val = quote := (Prod.mk.inj (Option.some.inj hread)).1.symm
  simp only [escape, hc, true_or, if_true] at h
  rcases hq with rfl | rfl <;> cases h

theorem body_injective {quote : Nat} (hq : quote = 34 ∨ quote = 39) {s s' : PyString} {r r' : Bytes}
    (h : s.flatMap (escape printable quote) ++ UInt8.ofNat quote :: r =
      s'.flatMap (escape printable quote) ++ UInt8.ofNat quote :: r') : s = s' ∧ r = r' := by
  induction s generalizing s' with
  | nil =>
    cases s' with
    | nil => exact ⟨rfl, (List.cons.inj h).2⟩
    | cons c s' =>
      rw [List.flatMap_cons, List.append_assoc] at h
      exact absurd h.symm (escape_ne_quote hq c _ _)
  | cons c s ih =>
    cases s' with
    | nil =>
      rw [List.flatMap_cons, List.append_assoc] at h
      exact absurd h (escape_ne_quote hq c _ _)
    | cons c' s' =>
      rw [List.flatMap_cons, List.flatMap_cons, List.append_assoc, List.append_assoc] at h
      have hread := congrArg readPoint h
      rw [readPoint_escape hq, readPoint_escape hq] at hread
      obtain ⟨hc, hrest⟩ := Prod.mk.inj (Option.some.inj hread)
      obtain ⟨rfl, hr⟩ := ih hrest
      exact ⟨by rw [Fin.ext hc], hr⟩

theorem quoteOf_cases (s : PyString) : quoteOf s = 34 ∨ quoteOf s = 39 := by
  unfold quoteOf
  split <;> simp

/-- A printed string is told from what follows it. -/
theorem strRepr_append_injective {s s' : PyString} {r r' : Bytes}
    (h : strRepr printable s ++ r = strRepr printable s' ++ r') : s = s' ∧ r = r' := by
  simp only [strRepr, List.cons_append, List.append_assoc, List.cons.injEq, List.nil_append] at h
  have hquote : quoteOf s = quoteOf s' := by
    rcases quoteOf_cases s with hs | hs <;> rcases quoteOf_cases s' with hs' | hs' <;> simp [hs, hs'] at h ⊢
  rw [hquote] at h
  exact body_injective (quoteOf_cases s') h.2

end Escape

section Tuple
variable {κ : Type} {repr : κ → Bytes}

/-- The printed items behind the first one. -/
theorem joinComma_tail_injective (hrepr : ∀ {a b r r'}, repr a ++ r = repr b ++ r' → a = b ∧ r = r')
    {x x' : κ} {xs xs' : List κ} (h : joinComma ((x :: xs).map repr) ++ [41] =
      joinComma ((x' :: xs').map repr) ++ [41]) : x :: xs = x' :: xs' := by
  induction xs generalizing x x' xs' with
  | nil =>
    cases xs' with
    | nil => rw [(hrepr h).1]
    | cons y' ys' =>
      simp only [List.map_cons, List.map_nil, joinComma, List.append_assoc] at h
      cases (hrepr h).2
  | cons y ys ih =>
    cases xs' with
    | nil =>
      simp only [List.map_cons, List.map_nil, joinComma, List.append_assoc] at h
      cases (hrepr h).2
    | cons y' ys' =>
      simp only [List.map_cons, joinComma, List.append_assoc] at h
      obtain ⟨rfl, hrest⟩ := hrepr h
      simp only [List.cons_append, List.cons.injEq, true_and] at hrest
      rw [ih hrest]

/-- Items that are told from what follows them are told from their printed tuple. -/
theorem strTuple_injective (hrepr : ∀ {a b r r'}, repr a ++ r = repr b ++ r' → a = b ∧ r = r')
    {xs ys : List κ} (h : strTuple (xs.map repr) = strTuple (ys.map repr)) (hx : xs ≠ []) (hy : ys ≠ []) :
    xs = ys := by
  obtain ⟨x, xs, rfl⟩ := List.exists_cons_of_ne_nil hx
  obtain ⟨y, ys, rfl⟩ := List.exists_cons_of_ne_nil hy
  simp only [strTuple, List.length_map, List.length_cons, List.cons.injEq, true_and] at h
  cases xs with
  | nil =>
    cases ys with
    | nil =>
      have hitem : repr x ++ [44, 41] = repr y ++ [44, 41] := by simpa [joinComma] using h
      rw [(hrepr hitem).1]
    | cons y' ys =>
      simp [joinComma, List.append_assoc] at h
      cases (hrepr h).2
  | cons x' xs =>
    cases ys with
    | nil =>
      simp [joinComma, List.append_assoc] at h
      cases (hrepr h).2
    | cons y' ys =>
      exact joinComma_tail_injective hrepr (by simpa using h)

end Tuple

variable {sha256 : Bytes → Bytes} {printable : Char → Bool}

/-- The printed salt gives the strings, none and no strings being the same. -/
theorem saltBytes_injective {k k' : Option (List PyString)}
    (h : saltBytes (strRepr printable) k = saltBytes (strRepr printable) k') : k.getD [] = k'.getD [] := by
  have hbytes : ∀ o : Option (List PyString), saltBytes (strRepr printable) o =
      if o.getD [] = [] then [] else strTuple ((o.getD []).map (strRepr printable)) := by
    intro o
    cases o <;> simp [saltBytes]
  rw [hbytes, hbytes] at h
  split at h
  · next hk =>
    split at h
    · next hk' => rw [hk, hk']
    · cases h
  · next hk =>
    split at h
    · cases h
    · next hk' => exact strTuple_injective strRepr_append_injective h hk hk'

def saltedHash (sha256 : Bytes → Bytes) (printable : Char → Bool) (modelName : Bytes)
    (parentHash : Option BlockHash) (tokenIds : List Int) (extraKeys : Option (List PyString)) : BlockHash :=
  computeBlockHash sha256 (strRepr printable) parentHash tokenIds extraKeys modelName

theorem chainParent_isParent (modelName : Bytes) (b : Nat) (tokens : List Int)
    (salt : Nat → Option (List PyString)) (i : Nat) :
    IsParent sha256 (chainParent (saltedHash sha256 printable modelName) b tokens salt i) := by
  cases i with
  | zero => exact nofun
  | succ i =>
    intro h hh
    rw [chainParent, chainHash_eq, Option.mem_some_iff] at hh
    exact ⟨_, hh.symm⟩

theorem take_succ_blocks (b : Nat) (tokens : List Int) (i : Nat) :
    tokens.take ((i + 1) * b) = tokens.take (i * b) ++ blockTokens b tokens i := by
  rw [Nat.succ_mul, List.take_add, blockTokens]

/-- One digest in two chains of a model is at one place, behind the same tokens and the same salts. -/
theorem chainHash_injective (ideal : IdealDigest sha256) (printable : Char → Bool) (modelName : Bytes) (b : Nat)
    (t u : List Int) (salt salt' : Nat → Option (List PyString)) (i j : Nat)
    (h : chainHash (saltedHash sha256 printable modelName) b t salt i =
      chainHash (saltedHash sha256 printable modelName) b u salt' j) :
    i = j ∧ t.take ((i + 1) * b) = u.take ((i + 1) * b) ∧
      ∀ l ≤ i, (salt l).getD [] = (salt' l).getD [] := by
  induction i generalizing j with
  | zero =>
    rw [chainHash_eq, chainHash_eq] at h
    obtain ⟨hparent, htokens, hsalt⟩ := computeBlockHash_injective ideal
      (chainParent_isParent modelName b t salt 0) (chainParent_isParent modelName b u salt' j) h
    cases j with
    | succ j => cases hparent
    | zero =>
      refine ⟨rfl, ?_, fun l hl => ?_⟩
      · rw [take_succ_blocks, take_succ_blocks, htokens, Nat.zero_mul, List.take_zero, List.take_zero]
      · rw [Nat.le_zero.mp hl]
        exact saltBytes_injective hsalt
  | succ i ih =>
    rw [chainHash_eq, chainHash_eq] at h
    obtain ⟨hparent, htokens, hsalt⟩ := computeBlockHash_injective ideal
      (chainParent_isParent modelName b t salt (i + 1)) (chainParent_isParent modelName b u salt' j) h
    cases j with
    | zero => cases hparent
    | succ j =>
      obtain ⟨rfl, hinit, hsalts⟩ := ih j (Option.some.inj hparent)
      refine ⟨rfl, ?_, fun l hl => ?_⟩
      · rw [take_succ_blocks, take_succ_blocks b u, htokens, hinit]
      · rcases Nat.lt_or_eq_of_le hl with hl | rfl
        · exact hsalts l (Nat.lt_succ_iff.mp hl)
        · exact saltBytes_injective hsalt

def spell : Bytes → Bytes
  | [] => [0]
  | b :: rest => 1 :: b :: spell rest

theorem spell_prefix {x y : Bytes} (h : spell x <+: spell y) : x = y := by
  induction x generalizing y with
  | nil =>
    cases y with
    | nil => rfl
    | cons b y => simp [spell] at h
  | cons a x ih =>
    cases y with
    | nil => simp [spell] at h
    | cons b y =>
      simp only [spell, List.cons_prefix_cons, true_and] at h
      rw [h.1, ih h.2]

def sampleInput : Bytes :=
  rootSeed ++ [40, 49, 44, 32, 50, 41, 40, 39, 97, 39, 44, 41]

def sampleDigest (x : Bytes) : Bytes :=
  if x = sampleInput then
    [187, 2, 28, 7, 142, 252, 24, 138, 225, 197, 244, 150, 138, 202, 96, 207, 31, 99, 235, 199, 24, 35, 119,
     136, 229, 149, 126, 81, 227, 59, 163, 243]
  else List.replicate 16 0 ++ spell x

theorem sampleDigest_ideal : IdealDigest sampleDigest := by
  have hcode : ∀ x y, sampleDigest x <+: sampleDigest y → x = y := by
    intro x y h
    unfold sampleDigest at h
    split at h <;> split at h
    · next hx hy => rw [hx, hy]
    · simp [List.replicate_succ] at h
    · simp [List.replicate_succ] at h
    · exact spell_prefix ((List.prefix_append_right_inj _).mp h)
  constructor
  · exact fun x y h => hcode x y (h ▸ List.prefix_rfl)
  · exact fun x y h => by rw [hcode x y h]
  · intro x
    unfold sampleDigest
    split
    · decide
    · simp [rootSeed]
  · intro x
    unfold sampleDigest
    split <;> simp [rootSeed, List.replicate_succ]

/-- A chained block under another salt than the one before it, cut off two sequences. -/
theorem salted_chained_block :
    chainHash (saltedHash sampleDigest Char.isAlphanum []) 2 [1, 2, 3, 4] (fun i => some [[if i = 0 then 97 else 98]]) 1 =
        chainHash (saltedHash sampleDigest Char.isAlphanum []) 2 [1, 2, 3, 4, 5] (fun i => some [[if i = 0 then 97 else 98]]) 1 ∧
      ([1, 2, 3, 4] : List Int).take 4 = ([1, 2, 3, 4, 5] : List Int).take 4 :=
  ⟨rfl, (chainHash_injective sampleDigest_ideal Char.isAlphanum [] 2 [1, 2, 3, 4] [1, 2, 3, 4, 5]
    (fun i => some [[if i = 0 then 97 else 98]]) (fun i => some [[if i = 0 then 97 else 98]]) 1 1 rfl).2.1⟩

end FusionMlx.SaltRendering
