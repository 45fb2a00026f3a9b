import FusionMlx.Support.JsonText
import FusionMlx.Support.OrderedDict

/-!
# JSON documents as bytes

`json.loads` of a byte string: the encoding is detected from the first bytes,
the codec decodes with `surrogatepass`, and the scanner reads code points. A
character is kept with the bytes it was decoded from, of which the scanner sees
nothing.
-/
namespace FusionMlx.JsonBytes

open JsonText (Json)

abbrev Bytes := List UInt8

structure Spelled where
  code : Nat
  bytes : Bytes

def spell (t : List Spelled) : Bytes := t.flatMap Spelled.bytes

inductive Encoding where
  | utf8 (sig : Bool)
  | utf16 (bom le : Bool)
  | utf32 (bom le : Bool)

def detectEncoding (b : Bytes) : Encoding :=
  if [0x00, 0x00, 0xFE, 0xFF].isPrefixOf b then .utf32 true false
  else if [0xFF, 0xFE, 0x00, 0x00].isPrefixOf b then .utf32 true true
  else if [0xFE, 0xFF].isPrefixOf b then .utf16 true false
  else if [0xFF, 0xFE].isPrefixOf b then .utf16 true true
  else if [0xEF, 0xBB, 0xBF].isPrefixOf b then .utf8 true
  else
    match b with
    | b₀ :: b₁ :: b₂ :: b₃ :: _ =>
      if b₀ = 0 then (if b₁ = 0 then .utf32 false false else .utf16 false false)
      else if b₁ = 0 then (if b₂ = 0 ∧ b₃ = 0 then .utf32 false true else .utf16 false true)
      else .utf8 false
    | [b₀, b₁] =>
      if b₀ = 0 then .utf16 false false
      else if b₁ = 0 then .utf16 false true
      else .utf8 false
    | _ => .utf8 false

def bomLength : Encoding → Nat
  | .utf8 true => 3
  | .utf16 true _ => 2
  | .utf32 true _ => 4
  | _ => 0

def unit16 (le : Bool) (a b : UInt8) : Nat := if le then b.toNat * 256 + a.toNat else a.toNat * 256 + b.toNat

def isHigh (n : Nat) : Bool := 0xD800 ≤ n ∧ n ≤ 0xDBFF

def isLow (n : Nat) : Bool := 0xDC00 ≤ n ∧ n ≤ 0xDFFF

def joinSurrogates (a b : Nat) : Nat := 0x10000 + (a - 0xD800) * 1024 + (b - 0xDC00)

def decode16 (le : Bool) : Bytes → Option (List Spelled)
  | [] => some []
  | a :: b :: t =>
    if isHigh (unit16 le a b) then
      match t with
      | c :: d :: u =>
        if isLow (unit16 le c d) then
          (decode16 le u).map (⟨joinSurrogates (unit16 le a b) (unit16 le c d), [a, b, c, d]⟩ :: ·)
        else (decode16 le (c :: d :: u)).map (⟨unit16 le a b, [a, b]⟩ :: ·)
      | t => (decode16 le t).map (⟨unit16 le a b, [a, b]⟩ :: ·)
    else (decode16 le t).map (⟨unit16 le a b, [a, b]⟩ :: ·)
  | _ => none

def unit32 (le : Bool) (a b c d : UInt8) : Nat :=
  if le then ((d.toNat * 256 + c.toNat) * 256 + b.toNat) * 256 + a.toNat
  else ((a.toNat * 256 + b.toNat) * 256 + c.toNat) * 256 + d.toNat

def decode32 (le : Bool) : Bytes → Option (List Spelled)
  | [] => some []
  | a :: b :: c :: d :: t =>
    if unit32 le a b c d ≤ 0x10FFFF then (decode32 le t).map (⟨unit32 le a b c d, [a, b, c, d]⟩ :: ·) else none
  | _ => none

def isTail (b : UInt8) : Bool := 0x80 ≤ b.toNat ∧ b.toNat ≤ 0xBF

def isSecond (a b : UInt8) : Bool :=
  isTail b ∧ (a = 0xE0 → 0xA0 ≤ b.toNat) ∧ (a = 0xF0 → 0x90 ≤ b.toNat) ∧ (a = 0xF4 → b.toNat ≤ 0x8F)

def decode8 : Bytes → Option (List Spelled)
  | [] => some []
  | a :: t =>
    if a.toNat < 0x80 then (decode8 t).map (⟨a.toNat, [a]⟩ :: ·)
    else if 0xC2 ≤ a.toNat ∧ a.toNat ≤ 0xDF then
      match t with
      | b :: t =>
        if isTail b then (decode8 t).map (⟨(a.toNat - 0xC0) * 64 + (b.toNat - 0x80), [a, b]⟩ :: ·) else none
      | [] => none
    else if 0xE0 ≤ a.toNat ∧ a.toNat ≤ 0xEF then
      match t with
      | b :: c :: t =>
        if isSecond a b ∧ isTail c then
          (decode8 t).map (⟨((a.toNat - 0xE0) * 64 + (b.toNat - 0x80)) * 64 + (c.toNat - 0x80), [a, b, c]⟩ :: ·)
        else none
      | _ => none
    else if 0xF0 ≤ a.toNat ∧ a.toNat ≤ 0xF4 then
      match t with
      | b :: c :: d :: t =>
        if isSecond a b ∧ isTail c ∧ isTail d then
          (decode8 t).map (⟨(((a.toNat - 0xF0) * 64 + (b.toNat - 0x80)) * 64 + (c.toNat - 0x80)) * 64 +
            (d.toNat - 0x80), [a, b, c, d]⟩ :: ·)
        else none
      | _ => none
    else none

def decode (b : Bytes) : Option (List Spelled) :=
  match detectEncoding b with
  | .utf8 sig => decode8 (b.drop (bomLength (.utf8 sig)))
  | .utf16 bom le => decode16 le (b.drop (bomLength (.utf16 bom le)))
  | .utf32 bom le => decode32 le (b.drop (bomLength (.utf32 bom le)))

inductive LoadError where
  | unicode
  | decode
  | value
  | recursion

/-- The interpreter's limits: how deep the scanner may still recurse, and the digits
that an integer literal may have. -/
structure Interpreter where
  recursionLimit : Nat
  intMaxStrDigits : Nat

def isWs (c : Spelled) : Bool := c.code = 0x20 ∨ c.code = 0x09 ∨ c.code = 0x0A ∨ c.code = 0x0D

def skipWs (t : List Spelled) : List Spelled := t.dropWhile isWs

/-- A character for the number and word scanners, which take no quote: one stands for
whatever is not ASCII. -/
def toChar (c : Spelled) : Char := if c.code < 128 then Char.ofNat c.code else '\x22'

def hex4 (a b c d : Spelled) : Option Nat := (JsonText.hex4 [toChar a, toChar b, toChar c, toChar d]).map Prod.fst

def simpleEscape (x : Spelled) : Option Nat :=
  if x.code < 128 then JsonText.simpleEscape (Char.ofNat x.code) else none

def scanString : List Spelled → Option (List (Nat × Bool) × List Spelled)
  | [] => none
  | c :: t =>
    if c.code = 0x22 then some ([], t)
    else if c.code < 32 then none
    else if c.code = 0x5C then
      match t with
      | [] => none
      | x :: t =>
        if x.code = 0x75 then
          match t with
          | a :: b :: d :: e :: t =>
            match hex4 a b d e with
            | some n => (scanString t).map (fun r => ((n, true) :: r.1, r.2))
            | none => none
          | _ => none
        else
          match simpleEscape x with
          | some n => (scanString t).map (fun r => ((n, false) :: r.1, r.2))
          | none => none
    else (scanString t).map (fun r => ((c.code, false) :: r.1, r.2))

def pairSurrogates : List (Nat × Bool) → List Nat
  | (a, true) :: (b, true) :: t =>
    if isHigh a ∧ isLow b then joinSurrogates a b :: pairSurrogates t else a :: pairSurrogates ((b, true) :: t)
  | (a, _) :: t => a :: pairSurrogates t
  | [] => []

def intDigits (literal : JsonText.Text) : Nat :=
  if literal.all (fun c => c = '-' || JsonText.isDigit c) then literal.countP JsonText.isDigit else 0

def scanScalar (P : Interpreter) (t : List Spelled) : Except LoadError (Json × List Spelled) :=
  match JsonText.scanNumber (t.map toChar) with
  | some r =>
    if 0 < P.intMaxStrDigits ∧ P.intMaxStrDigits < intDigits r.1 then .error .value
    else .ok (.num r.1, t.drop r.1.length)
  | none =>
    match JsonText.words.find? (fun w => w.1.isPrefixOf (t.map toChar)) with
    | some w => .ok (w.2, t.drop w.1.length)
    | none => .error .decode

mutual

/-- `scan_once` with `k` recursions left; the fuel `n` bounds the nesting and the number of items. -/
def scanValue (P : Interpreter) : Nat → Nat → List Spelled → Except LoadError (Json × List Spelled)
  | 0, _, _ => .error .decode
  | _ + 1, _, [] => .error .decode
  | n + 1, k, c :: t =>
    if c.code = 0x22 then
      match scanString t with
      | some r => .ok (.str (pairSurrogates r.1), r.2)
      | none => .error .decode
    else if c.code = 0x7B ∨ c.code = 0x5B then
      match k with
      | 0 => .error .recursion
      | k + 1 =>
        match skipWs t with
        | [] => .error .decode
        | x :: u =>
          if c.code = 0x7B then
            if x.code = 0x7D then .ok (.obj [], u)
            else (scanMembers P n k (x :: u)).map (fun r => (.obj r.1, r.2))
          else
            if x.code = 0x5D then .ok (.arr [], u)
            else (scanItems P n k (x :: u)).map (fun r => (.arr r.1, r.2))
    else scanScalar P (c :: t)

def scanMembers (P : Interpreter) : Nat → Nat → List Spelled → Except LoadError (List (List Nat × Json) × List Spelled)
  | 0, _, _ => .error .decode
  | _ + 1, _, [] => .error .decode
  | n + 1, k, q :: t =>
    if q.code ≠ 0x22 then .error .decode
    else
      match scanString t with
      | none => .error .decode
      | some (key, t) =>
        match skipWs t with
        | [] => .error .decode
        | x :: t =>
          if x.code ≠ 0x3A then .error .decode
          else
            match scanValue P n k (skipWs t) with
            | .error e => .error e
            | .ok (v, t) =>
              match skipWs t with
              | [] => .error .decode
              | y :: t =>
                if y.code = 0x7D then .ok ([(pairSurrogates key, v)], t)
                else if y.code = 0x2C then
                  (scanMembers P n k (skipWs t)).map (fun r => ((pairSurrogates key, v) :: r.1, r.2))
                else .error .decode

def scanItems (P : Interpreter) : Nat → Nat → List Spelled → Except LoadError (List Json × List Spelled)
  | 0, _, _ => .error .decode
  | n + 1, k, t =>
    match scanValue P n k t with
    | .error e => .error e
    | .ok (v, t) =>
      match skipWs t with
      | [] => .error .decode
      | y :: t =>
        if y.code = 0x5D then .ok ([v], t)
        else if y.code = 0x2C then (scanItems P n k (skipWs t)).map (fun r => (v :: r.1, r.2))
        else .error .decode

end

def loadsText (P : Interpreter) (t : List Spelled) : Except LoadError Json :=
  match scanValue P (t.length + 1) P.recursionLimit (skipWs t) with
  | .ok (v, rest) => if skipWs rest = [] then .ok v else .error .decode
  | .error e => .error e

def loads (P : Interpreter) (b : Bytes) : Except LoadError Json :=
  match decode b with
  | some t => loadsText P t
  | none => .error .unicode

end FusionMlx.JsonBytes
