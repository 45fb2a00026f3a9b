import Mathlib.Data.Nat.Digits.Lemmas

/-!
# Block hashes and the salts they include

`computeBlockHash` renders the model name, the parent digest, the token tuple
and the salt tuple one behind the other and hashes the result. The digest
function and the `repr` of a salt component are parameters. The rendering is
uniquely decodable, so an ideal digest makes the hash injective in the parent,
the tokens and the printed salt.
-/
namespace FusionMlx.BlockHashing

abbrev Bytes := List UInt8

abbrev BlockHash := Bytes

inductive PyError where
  | assertionError | valueError | indexError | keyError | runtimeError | zeroDivisionError
  | cacheEvictionError
  deriving DecidableEq, Repr

def strNat (n : Nat) : Bytes :=
  if n = 0 then [48] else (Nat.digits 10 n).reverse.map (fun d => UInt8.ofNat (48 + d))

def strInt : Int → Bytes
  | .ofNat n => strNat n
  | .negSucc n => 45 :: strNat (n + 1)

def joinComma : List Bytes → Bytes
  | [] => []
  | [x] => x
  | x :: y :: rest => x ++ 44 :: 32 :: joinComma (y :: rest)

def strTuple (items : List Bytes) : Bytes :=
  40 :: (joinComma items ++ (if items.length = 1 then [44] else []) ++ [41])

def rootSeed : Bytes := [102, 117, 115, 105, 111, 110, 45, 109, 108, 120, 45, 114, 111, 111, 116]

section Hash
variable {κ : Type}

def parentBytes : Option BlockHash → Bytes
  | some p => if p = [] then rootSeed else p
  | none => rootSeed

def saltBytes (repr : κ → Bytes) : Option (List κ) → Bytes
  | some keys => if keys = [] then [] else strTuple (keys.map repr)
  | none => []

/-- `modelName` is the UTF-8 encoded name, empty when there is none. -/
def computeBlockHash (sha256 : Bytes → Bytes) (repr : κ → Bytes) (parentHash : Option BlockHash)
    (tokenIds : List Int) (extraKeys : Option (List κ)) (modelName : Bytes) : BlockHash :=
  sha256 (modelName ++ (parentBytes parentHash ++
    (strTuple (tokenIds.map strInt) ++ saltBytes repr extraKeys)))

/-- The three salt arguments every lookup and store takes. Ranges of `None`
and of the empty list are both falsy. -/
structure KeyArgs (κ : Type) where
  extraKeys : Option (List κ) := none
  extraKeyTokenStart : Option Int := none
  extraKeyRanges : List (Int × List κ) := []

def rangesSorted (ranges : List (Int × List κ)) : Bool :=
  (ranges.zip ranges.tail).all (fun p => p.1.1 ≤ p.2.1)

def selectRange (blockEnd : Nat) (selected : Option (List κ)) :
    List (Int × List κ) → Option (List κ)
  | [] => selected
  | (start, keys) :: rest =>
    if (blockEnd : Int) > start then selectRange blockEnd (some keys) rest else selected

def resolveBlockExtraKeys (blockEnd : Nat) (a : KeyArgs κ) : Except PyError (Option (List κ)) :=
  if a.extraKeyRanges ≠ [] then
    if rangesSorted a.extraKeyRanges then .ok (selectRange blockEnd none a.extraKeyRanges)
    else .error .assertionError
  else if a.extraKeys.isSome ∧ (∀ start ∈ a.extraKeyTokenStart, (blockEnd : Int) > start) then
    .ok a.extraKeys
  else .ok none

def blockTokens (blockSize : Nat) (tokens : List Int) (i : Nat) : List Int :=
  (tokens.drop (i * blockSize)).take blockSize

def chainHash (hash : Option BlockHash → List Int → Option (List κ) → BlockHash)
    (blockSize : Nat) (tokens : List Int) (salt : Nat → Option (List κ)) : Nat → BlockHash
  | 0 => hash none (blockTokens blockSize tokens 0) (salt 0)
  | i + 1 => hash (some (chainHash hash blockSize tokens salt i))
      (blockTokens blockSize tokens (i + 1)) (salt (i + 1))

def chainParent (hash : Option BlockHash → List Int → Option (List κ) → BlockHash)
    (blockSize : Nat) (tokens : List Int) (salt : Nat → Option (List κ)) : Nat → Option BlockHash
  | 0 => none
  | i + 1 => some (chainHash hash blockSize tokens salt i)

theorem chainHash_eq (hash : Option BlockHash → List Int → Option (List κ) → BlockHash)
    (b : Nat) (tokens : List Int) (salt : Nat → Option (List κ)) (i : Nat) :
    chainHash hash b tokens salt i =
      hash (chainParent hash b tokens salt i) (blockTokens b tokens i) (salt i) := by
  cases i <;> rfl

end Hash

theorem strNat_bytes (n : Nat) : ∀ c ∈ strNat n, 48 ≤ c.toNat ∧ c.toNat ≤ 57 := by
  intro c hc
  by_cases hn : n = 0
  · simp only [strNat, hn, if_true, List.mem_singleton] at hc
    subst hc
    decide
  · simp only [strNat, hn, if_false, List.mem_map, List.mem_reverse] at hc
    obtain ⟨d, hd, rfl⟩ := hc
    have hlt : d < 10 := Nat.digits_lt_base (by decide) hd
    have he : (UInt8.ofNat (48 + d)).toNat = 48 + d := by
      rw [UInt8.toNat_ofNat']
      omega
    omega

def readNat (bytes : Bytes) : Nat :=
  Nat.ofDigits 10 (bytes.reverse.map (fun c => c.toNat - 48))

theorem readNat_strNat (n : Nat) : readNat (strNat n) = n := by
  by_cases hn : n = 0
  · simp [strNat, readNat, hn]
  · have he : ((Nat.digits 10 n).map fun d => (UInt8.ofNat (48 + d)).toNat - 48) =
        (Nat.digits 10 n) := by
      conv_rhs => rw [← List.map_id (Nat.digits 10 n)]
      apply List.map_congr_left
      intro d hd
      have hlt : d < 10 := Nat.digits_lt_base (by decide) hd
      rw [UInt8.toNat_ofNat']
      simp only [id]
      omega
    simp only [readNat, strNat, hn, if_false, List.map_reverse, List.reverse_reverse,
      List.map_map]
    change Nat.ofDigits 10 ((Nat.digits 10 n).map fun d => (UInt8.ofNat (48 + d)).toNat - 48) = n
    rw [he, Nat.ofDigits_digits]

theorem strNat_injective : Function.Injective strNat :=
  Function.LeftInverse.injective readNat_strNat

theorem strInt_injective : Function.Injective strInt := by
  intro a b h
  have hminus : ∀ n : Nat, ∀ rest, strNat n ≠ 45 :: rest := by
    intro n rest he
    have := (strNat_bytes n 45 (by simp [he])).1
    revert this
    decide
  cases a with
  | ofNat m =>
    cases b with
    | ofNat n => exact congrArg Int.ofNat (strNat_injective h)
    | negSucc n => exact absurd h (hminus m _)
  | negSucc m =>
    cases b with
    | ofNat n => exact absurd h.symm (hminus n _)
    | negSucc n =>
      simp only [strInt, List.cons.injEq, true_and] at h
      have := strNat_injective h
      congr 1
      omega

theorem strInt_bytes (z : Int) : ∀ c ∈ strInt z, c ≠ 44 ∧ c ≠ 41 := by
  intro c hc
  have hdigit : ∀ n : Nat, c ∈ strNat n → c ≠ 44 ∧ c ≠ 41 := by
    intro n hm
    have h := (strNat_bytes n c hm).1
    constructor <;> (rintro rfl; revert h; decide)
  cases z with
  | ofNat n => exact hdigit n hc
  | negSucc n =>
    rcases List.mem_cons.mp hc with rfl | hm
    · decide
    · exact hdigit _ hm

/-- Two lists agree up to the first occurrence of a separator. -/
theorem split_first {α : Type} {x : α} : ∀ {l l' r r' : List α}, x ∉ l → x ∉ l' →
    l ++ x :: r = l' ++ x :: r' → l = l' ∧ r = r'
  | [], [], _, _, _, _, h => ⟨rfl, (List.cons.inj h).2⟩
  | [], b :: l', _, _, _, h', h => absurd (List.cons.inj h).1 (by rintro rfl; simp at h')
  | a :: l, [], _, _, h', _, h => absurd (List.cons.inj h).1 (by rintro rfl; simp at h')
  | a :: l, b :: l', r, r', hl, hl', h => by
    simp only [List.mem_cons, not_or] at hl hl'
    obtain ⟨he, ht⟩ := List.cons.inj h
    obtain ⟨h₁, h₂⟩ := split_first hl.2 hl'.2 ht
    exact ⟨by rw [he, h₁], h₂⟩

theorem joinComma_cons (x : Bytes) {xs : List Bytes} (h : xs ≠ []) :
    joinComma (x :: xs) = x ++ 44 :: 32 :: joinComma xs := by
  cases xs with
  | nil => exact absurd rfl h
  | cons y rest => rfl

/-- Items without a comma are read back from their join, for nonempty lists. -/
theorem joinComma_injective {xs ys : List Bytes} (hx : ∀ x ∈ xs, (44 : UInt8) ∉ x)
    (hy : ∀ y ∈ ys, (44 : UInt8) ∉ y) (hx₀ : xs ≠ []) (hy₀ : ys ≠ [])
    (h : joinComma xs = joinComma ys) : xs = ys := by
  induction xs generalizing ys with
  | nil => exact absurd rfl hx₀
  | cons x xs ih =>
    cases ys with
    | nil => exact absurd rfl hy₀
    | cons y ys =>
      have hxc := hx x (by simp)
      have hyc := hy y (by simp)
      by_cases hxs : xs = []
      · by_cases hys : ys = []
        · subst hxs hys
          simpa [joinComma] using h
        · subst hxs
          rw [joinComma_cons y hys] at h
          exact absurd (by rw [show joinComma [x] = x from rfl] at h; simp [h]) hxc
      · by_cases hys : ys = []
        · subst hys
          rw [joinComma_cons x hxs] at h
          exact absurd (by rw [show joinComma [y] = y from rfl] at h; simp [← h]) hyc
        · rw [joinComma_cons x hxs, joinComma_cons y hys] at h
          obtain ⟨hhead, htail⟩ := split_first hxc hyc h
          rw [hhead, ih (fun z hz => hx z (by simp [hz])) (fun z hz => hy z (by simp [hz])) hxs hys
            (List.cons.inj htail).2]

/-- The printed body of a tuple determines its items. -/
theorem tupleBody_injective {xs ys : List Bytes} (hx : ∀ x ∈ xs, (44 : UInt8) ∉ x)
    (hy : ∀ y ∈ ys, (44 : UInt8) ∉ y)
    (h : joinComma xs ++ (if xs.length = 1 then [44] else []) =
      joinComma ys ++ (if ys.length = 1 then [44] else [])) : xs = ys := by
  have hshape : ∀ zs : List Bytes, joinComma zs ++ (if zs.length = 1 then [44] else []) =
      match zs with
      | [] => []
      | [z] => z ++ [44]
      | z :: w :: rest => z ++ 44 :: 32 :: joinComma (w :: rest) := by
    intro zs
    match zs with
    | [] => rfl
    | [z] => rfl
    | z :: w :: rest => simp [joinComma]
  rw [hshape xs, hshape ys] at h
  match xs, ys with
  | [], [] => rfl
  | [], [y] => simp at h
  | [], y :: w :: rest => simp at h
  | [x], [] => simp at h
  | [x], [y] => simpa using h
  | [x], y :: w :: rest =>
    have := split_first (hx x (by simp)) (hy y (by simp)) h
    simp at this
  | x :: v :: rest, [] => simp at h
  | x :: v :: rest, [y] =>
    have := split_first (hx x (by simp)) (hy y (by simp)) h
    simp at this
  | x :: v :: rest, y :: w :: rest' =>
    obtain ⟨hhead, htail⟩ := split_first (hx x (by simp)) (hy y (by simp)) h
    have htl := joinComma_injective (fun z hz => hx z (by simp_all))
      (fun z hz => hy z (by simp_all)) (by simp) (by simp) (List.cons.inj htail).2
    rw [hhead, htl]

theorem joinComma_mem {c : UInt8} (h₁ : c ≠ 44) (h₂ : c ≠ 32) :
    ∀ {xs : List Bytes}, (∀ x ∈ xs, c ∉ x) → c ∉ joinComma xs
  | [], _ => by simp [joinComma]
  | [x], hx => hx x (by simp)
  | x :: y :: rest, hx => by
    have ih : c ∉ joinComma (y :: rest) :=
      joinComma_mem h₁ h₂ (fun z hz => hx z (List.mem_cons_of_mem x hz))
    have hx' := hx x (by simp)
    simp [joinComma, h₁, h₂, hx', ih]

/-- A printed token tuple is followed by anything and still read back. -/
theorem strTuple_append_injective {t t' : List Int} {r r' : Bytes}
    (h : strTuple (t.map strInt) ++ r = strTuple (t'.map strInt) ++ r') : t = t' ∧ r = r' := by
  have hcomma : ∀ u : List Int, ∀ x ∈ u.map strInt, (44 : UInt8) ∉ x := by
    intro u x hx hm
    obtain ⟨z, _, rfl⟩ := List.mem_map.mp hx
    exact (strInt_bytes z _ hm).1 rfl
  have hclose : ∀ u : List Int, (41 : UInt8) ∉ joinComma (u.map strInt) ++
      (if (u.map strInt).length = 1 then [44] else []) := by
    intro u hm
    rcases List.mem_append.mp hm with hm | hm
    · refine joinComma_mem (by decide) (by decide) ?_ hm
      intro x hx hc
      obtain ⟨z, _, rfl⟩ := List.mem_map.mp hx
      exact (strInt_bytes z _ hc).2 rfl
    · by_cases hl : (u.map strInt).length = 1 <;> simp_all
  simp only [strTuple, List.cons_append, List.cons.injEq, true_and, List.append_assoc]
    at h
  rw [← List.append_assoc, ← List.append_assoc (joinComma (t'.map strInt))] at h
  obtain ⟨hbody, hrest⟩ := split_first (hclose t) (hclose t') h
  have hitems := tupleBody_injective (hcomma t) (hcomma t') hbody
  exact ⟨List.map_injective_iff.mpr strInt_injective hitems, hrest⟩

/-- What the cache relies on from SHA-256: no collisions, all digests of one
length (so none is a proper prefix of another), longer than the root seed and
not beginning with `b"fusion-mlx-root("`. -/
structure IdealDigest (sha256 : Bytes → Bytes) : Prop where
  injective : Function.Injective sha256
  prefixFree : ∀ x y, sha256 x <+: sha256 y → sha256 x = sha256 y
  long : ∀ x, rootSeed.length < (sha256 x).length
  notSeed : ∀ x, ¬ rootSeed ++ [40] <+: sha256 x

def IsParent (sha256 : Bytes → Bytes) (p : Option BlockHash) : Prop :=
  ∀ h ∈ p, ∃ x, h = sha256 x

variable {sha256 : Bytes → Bytes}

theorem IdealDigest.ne_nil (ideal : IdealDigest sha256) (x : Bytes) :
    sha256 x ≠ [] := by
  intro h
  have := ideal.long x
  simp [h] at this

/-- A digest and the seed never start the same input. -/
theorem IdealDigest.seed_apart (ideal : IdealDigest sha256) (x : Bytes)
    (r r' : Bytes) : rootSeed ++ 40 :: r ≠ sha256 x ++ r' := by
  intro h
  have hp : rootSeed ++ [40] <+: sha256 x ++ r' := ⟨r, by simpa using h⟩
  exact ideal.notSeed x (List.prefix_of_prefix_length_le hp (List.prefix_append _ _)
    (by simpa using ideal.long x))

theorem parentBytes_append_injective (ideal : IdealDigest sha256)
    {p p' : Option BlockHash} (hp : IsParent sha256 p) (hp' : IsParent sha256 p') {r r' : Bytes}
    (h : parentBytes p ++ 40 :: r = parentBytes p' ++ 40 :: r') : p = p' ∧ r = r' := by
  cases p with
  | none =>
    cases p' with
    | none => exact ⟨rfl, (List.cons.inj (List.append_cancel_left h)).2⟩
    | some d' =>
      obtain ⟨x, rfl⟩ := hp' d' rfl
      simp only [parentBytes, ideal.ne_nil, if_false] at h
      exact absurd h (ideal.seed_apart x r (40 :: r'))
  | some d =>
    obtain ⟨x, rfl⟩ := hp d rfl
    cases p' with
    | none =>
      simp only [parentBytes, ideal.ne_nil, if_false] at h
      exact absurd h.symm (ideal.seed_apart x r' (40 :: r))
    | some d' =>
      obtain ⟨y, rfl⟩ := hp' d' rfl
      simp only [parentBytes, ideal.ne_nil, if_false] at h
      have hx : sha256 x <+: sha256 y ++ 40 :: r' := ⟨40 :: r, h⟩
      have hy : sha256 y <+: sha256 y ++ 40 :: r' := List.prefix_append _ _
      have hd : sha256 x = sha256 y := by
        rcases Nat.le_total (sha256 x).length (sha256 y).length with hl | hl
        · exact ideal.prefixFree x y (List.prefix_of_prefix_length_le hx hy hl)
        · exact (ideal.prefixFree y x (List.prefix_of_prefix_length_le hy hx hl)).symm
      rw [hd] at h ⊢
      exact ⟨rfl, (List.cons.inj (List.append_cancel_left h)).2⟩

/-- Under an ideal digest the hash determines the parent, the tokens and the
printed salt. -/
theorem computeBlockHash_injective {κ : Type} {repr : κ → Bytes}
    (ideal : IdealDigest sha256) {p p' : Option BlockHash} (hp : IsParent sha256 p)
    (hp' : IsParent sha256 p') {t t' : List Int} {k k' : Option (List κ)} {modelName : Bytes}
    (h : computeBlockHash sha256 repr p t k modelName =
      computeBlockHash sha256 repr p' t' k' modelName) :
    p = p' ∧ t = t' ∧ saltBytes repr k = saltBytes repr k' := by
  have h₁ := List.append_cancel_left (ideal.injective h)
  obtain ⟨hparent, h₂⟩ := parentBytes_append_injective ideal hp hp' h₁
  obtain ⟨htokens, hsalt⟩ := strTuple_append_injective (congrArg (List.cons 40) h₂)
  exact ⟨hparent, htokens, hsalt⟩

end FusionMlx.BlockHashing
