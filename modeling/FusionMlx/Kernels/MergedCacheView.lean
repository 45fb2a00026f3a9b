import FusionMlx.Cache.BlockHashing

/-!
# The merged view of several request caches

`MergedPagedCacheView`: the request caches of a batch, and once the batch has
been used one buffer with a row for each of them. A position is one column of
keys and values; a row is padded on the left so that all rows are written at
the same index. Shapes other than the number of rows and columns are left out.
-/
namespace FusionMlx.MergedCacheView

open BlockHashing (PyError)

variable {α : Type}

/-- The flat buffer of a `FusionPagedRequestCache`, empty when there is none. -/
structure RequestCache (α : Type) where
  flat : List α
  offset : Nat

def RequestCache.content (c : RequestCache α) : List α := c.flat.take c.offset

structure Row (α : Type) where
  padding : Nat
  cells : List α

structure Batch (α : Type) where
  width : Nat
  idx : Nat
  rows : List (Row α)

structure View (α : Type) where
  constituents : List (RequestCache α)
  batch : Option (Batch α)

def segment (cells : List α) (lo hi : Nat) : List α := (cells.take hi).drop lo

def assign (cells : List α) (lo : Nat) (vals : List α) : List α :=
  cells.take lo ++ vals ++ cells.drop (lo + vals.length)

def bstep : Nat := 256

def roundUp (n : Nat) : Nat := (bstep + n - 1) / bstep * bstep

variable [Zero α]

def RequestCache.update (c : RequestCache α) (vals : List α) : RequestCache α :=
  let grown :=
    if c.flat.length < c.offset + vals.length then
      c.flat.take c.offset ++ List.replicate (roundUp vals.length) 0
    else c.flat
  ⟨assign grown c.offset vals, c.offset + vals.length⟩

namespace View

def build (cs : List (RequestCache α)) (add : Nat) : Batch α :=
  let maxOff := (cs.map RequestCache.offset).foldl max 0
  let cap := roundUp (maxOff + add)
  { width := cap
    idx := maxOff
    rows := cs.map fun c =>
      { padding := maxOff - c.offset
        cells :=
          if c.offset > 0 then assign (List.replicate cap 0) (maxOff - c.offset) c.content
          else List.replicate cap 0 } }

def grow (b : Batch α) (need : Nat) : Batch α :=
  let cap := roundUp need
  { b with
    width := cap
    rows := b.rows.map fun r =>
      { r with cells := r.cells.take b.idx ++ List.replicate (cap - b.idx) 0 } }

def assignRows (rows : List (Row α)) (lo : Nat) (keys : List (List α)) :
    Except PyError (List (Row α)) :=
  match keys with
  | [k] => .ok (rows.map fun r => { r with cells := assign r.cells lo k })
  | _ =>
    if rows.length ≠ keys.length then .error .valueError
    else .ok (List.zipWith (fun r k => { r with cells := assign r.cells lo k }) rows keys)

def updateAndFetch (v : View α) (add : Nat) (keys : List (List α)) :
    Except PyError (List (List α)) × View α :=
  if v.constituents.length ≠ keys.length then (.error .runtimeError, v)
  else
    let b := v.batch.getD (build v.constituents add)
    let b := if b.width < b.idx + add then grow b (b.idx + add) else b
    match assignRows b.rows b.idx keys with
    | .error e => (.error e, { v with batch := some b })
    | .ok rows =>
      (.ok (rows.map fun r => r.cells.take (b.idx + add)),
        { v with batch := some { b with idx := b.idx + add, rows := rows } })

def dropCommon (b : Batch α) (n : Nat) : Batch α :=
  { width := b.width - n
    idx := b.idx - n
    rows := b.rows.map fun r => ⟨r.padding - n, r.cells.drop n⟩ }

/-- Taking rows past the end of the buffer is undefined there; here they are left out. -/
def filter (v : View α) (keep : List Nat) : Except PyError Unit × View α :=
  if keep = [] ∧ v.constituents ≠ [] then (.ok (), ⟨[], none⟩)
  else if ∃ i ∈ keep, v.constituents.length ≤ i then (.error .indexError, v)
  else
    let constituents := keep.filterMap (v.constituents[·]?)
    match v.batch with
    | none => (.ok (), ⟨constituents, none⟩)
    | some b =>
      let kept := { b with rows := keep.filterMap (b.rows[·]?) }
      match (kept.rows.map Row.padding).min? with
      | none => (.error .valueError, ⟨constituents, some kept⟩)
      | some n => (.ok (), ⟨constituents, some (dropCommon kept n)⟩)

def padBuf (b : Batch α) (maxIdx maxSize : Nat) : List (Row α) :=
  let left := maxIdx - b.idx
  b.rows.map fun r =>
    { padding := r.padding + left
      cells := List.replicate left 0 ++
        (if maxSize < b.width + left then r.cells.take (maxSize - left) else r.cells) ++
        List.replicate (maxSize - b.width - left) 0 }

def extendBatched (a b : Batch α) : Batch α :=
  let maxIdx := max a.idx b.idx
  let maxSize := max a.width b.width
  ⟨maxSize, maxIdx, padBuf a maxIdx maxSize ++ padBuf b maxIdx maxSize⟩

def buildOther (c : RequestCache α) (maxIdx maxSize : Nat) : Row α :=
  let left := maxIdx - c.offset
  { padding := left
    cells :=
      if c.flat.length > 0 then
        List.replicate left 0 ++ c.flat ++ List.replicate (maxSize - c.flat.length - left) 0
      else List.replicate maxSize 0 }

def extendSingle (b : Batch α) (c : RequestCache α) : Except PyError (Batch α) :=
  let maxIdx := max b.idx c.offset
  let maxSize := max (max b.width maxIdx) c.flat.length
  let other := buildOther c maxIdx maxSize
  if other.cells.length ≠ maxSize then .error .valueError
  else .ok ⟨maxSize, maxIdx, padBuf b maxIdx maxSize ++ [other]⟩

def extendView (v w : View α) : View α :=
  { constituents := v.constituents ++ w.constituents
    batch := match v.batch, w.batch with
      | some a, some b => some (extendBatched a b)
      | none, some b => some b
      | batch, none => batch }

def extendCache (v : View α) (c : RequestCache α) : Except PyError Unit × View α :=
  match v.batch with
  | none => (.ok (), ⟨v.constituents ++ [c], none⟩)
  | some b =>
    match extendSingle b c with
    | .error e => (.error e, v)
    | .ok b => (.ok (), ⟨v.constituents ++ [c], some b⟩)

def extract (v : View α) (i : Nat) : Except PyError (RequestCache α) × View α :=
  match v.constituents[i]? with
  | none => (.error .indexError, v)
  | some c =>
    match v.batch with
    | none => (.ok c, v)
    | some b =>
      match b.rows[i]? with
      | none => (.error .indexError, v)
      | some r =>
        let c' := ⟨segment r.cells r.padding b.idx, b.idx - r.padding⟩
        (.ok c', { v with constituents := v.constituents.set i c' })

end View

end FusionMlx.MergedCacheView
