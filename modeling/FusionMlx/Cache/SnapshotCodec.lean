import Mathlib.Data.List.Forall2
import Mathlib.Algebra.Group.Nat.Defs

/-!
# The encoding of boundary snapshots

`_serialize_extracted` flattens the states of all layers into named tensors and
a record for each layer. An element without a shape is marked as missing, and
the shape of a tensor without entries is packed into bytes, which the JSON
encoder refuses. Two readers put the states together again.
-/
namespace FusionMlx.SnapshotCodec

structure Tensor where
  shape : List Nat
  dtype : String
  data : List UInt8

inductive Elem where
  | none
  | tensor (t : Tensor)
  | group (tensors : List Tensor)

def Elem.tensor? : Elem → Option Tensor
  | .tensor t => some t
  | _ => Option.none

/-- A flat tuple, or the list of the sub-states of a `CacheList`, each a list or a tuple. -/
inductive LayerState where
  | flat (elems : List Elem)
  | subs (states : List (Bool × List Elem))

inductive Meta where
  | null
  | num (n : Int)
  | text (s : String)
  | seq (items : List Meta)

structure Layer where
  className : String
  cacheType : String
  metaState : Meta
  state : LayerState

inductive Slot where
  | flat (k : Nat)
  | sub (j k : Nat)

/-- The name of a tensor: `layer_{i}_` with a slot, or with 0 or 1 in snapshots of the old layout. -/
inductive Name where
  | layer (i : Nat) (slot : Slot)
  | legacy (i k : Nat)

inductive ShapeMark where
  | packed (shape : List Nat)
  | text (shape : List Nat)

structure Info where
  className : String
  cacheType : String
  metaState : List Meta
  hasState : Bool
  subCount : Option Nat := none
  subCounts : Nat → Nat := fun _ => 0
  stateCount : Option Nat := none
  missing : Slot → Bool := fun _ => false
  zeroDim : Slot → Option ShapeMark := fun _ => none

structure Metadata where
  numLayers : Nat
  layerInfo : List Info

def hasZeroDim (shape : List Nat) : Bool := shape.any (· = 0)

def zeros (shape : List Nat) (dtype : String) : Tensor := ⟨shape, dtype, List.replicate (shape.prod * 4) 0⟩

def listMeta : Meta → Option (List Meta)
  | .null => some []
  | .num n => if n = 0 then some [] else none
  | .text s => some (s.toList.map fun c => .text c.toString)
  | .seq items => some items

namespace LayerState

def elem? : LayerState → Slot → Option Elem
  | flat elems, .flat k => elems[k]?
  | subs states, .sub j k => states[j]?.bind fun s => s.2[k]?
  | _, _ => none

def written : LayerState → Bool
  | flat elems => elems.any fun e => e.tensor?.isSome
  | subs states => !states.isEmpty

def elems : LayerState → List Elem
  | flat elems => elems
  | subs states => states.flatMap Prod.snd

def array (s : LayerState) (slot : Slot) : Option Tensor :=
  (s.elem? slot).bind fun e => e.tensor?.map fun t => if hasZeroDim t.shape then zeros [1] "F32" else t

def missing (s : LayerState) (slot : Slot) : Bool :=
  match s.elem? slot with
  | some e => e.tensor?.isNone
  | none => false

def zeroDim (s : LayerState) (slot : Slot) : Option ShapeMark :=
  (s.elem? slot).bind fun e => e.tensor?.bind fun t => if hasZeroDim t.shape then some (.packed t.shape) else none

end LayerState

def Elem.isHollow (e : Elem) : Bool := e.tensor?.any fun t => hasZeroDim t.shape

def metaOf (l : Layer) : List Meta := (listMeta l.metaState).getD []

def layerInfo (l : Layer) : Info :=
  let info : Info := {
    className := l.className, cacheType := l.cacheType, metaState := metaOf l, hasState := l.state.written }
  if l.state.written then
    match l.state with
    | .flat elems => { info with
        stateCount := some elems.length
        missing := l.state.missing
        zeroDim := l.state.zeroDim }
    | .subs states => { info with
        subCount := some states.length
        subCounts := fun j => (states[j]?.map fun s => s.2.length).getD 0
        missing := l.state.missing
        zeroDim := l.state.zeroDim }
  else info

abbrev Arrays := Name → Option Tensor

def writtenArrays (extracted : List Layer) : Arrays
  | .layer i slot => extracted[i]?.bind fun l => if l.state.written then l.state.array slot else none
  | .legacy .. => none

def Full (l : Layer) : Prop := l.state.written = true → ∀ e ∈ l.state.elems, e.isHollow = false

instance (l : Layer) : Decidable (Full l) := inferInstanceAs (Decidable (_ → _))

/-- The tensors by name and the metadata. `list` fails on a number, `json.dumps(layer_info)` on packed shapes. -/
def serializeExtracted (extracted : List Layer) : Option (Arrays × Metadata) :=
  if ∀ l ∈ extracted, (listMeta l.metaState).isSome ∧ Full l then
    some (writtenArrays extracted, ⟨extracted.length, extracted.map layerInfo⟩)
  else none

def readElem (arrays : Arrays) (info : Info) (i : Nat) (slot : Slot) : Elem :=
  if info.missing slot then .none
  else match arrays (.layer i slot) with
    | none => .none
    | some t => match info.zeroDim slot with
      | some (.text shape) => .tensor (zeros shape t.dtype)
      | _ => .tensor t

def readLegacy (arrays : Arrays) (info : Info) (i k : Nat) : Option Tensor :=
  (arrays (.legacy i k)).map fun t => match info.zeroDim (.flat k) with
    | some (.text shape) => zeros shape t.dtype
    | _ => t

def readStateTuple (arrays : Arrays) (info : Info) (i : Nat) : LayerState :=
  match info.subCount, info.stateCount with
  | some count, _ => .subs ((List.range count).map fun j =>
      (false, (List.range (info.subCounts j)).map fun k => readElem arrays info i (.sub j k)))
  | none, some count => .flat ((List.range count).map fun k => readElem arrays info i (.flat k))
  | none, none =>
    match readLegacy arrays info i 0 with
    | none => .flat []
    | some first => .flat [.tensor first, (readLegacy arrays info i 1).elim .none .tensor]

def extractTensorBytes (t : Tensor) : List UInt8 × String × List Nat := (t.data, t.dtype, t.shape)

def restoreTensorFromBytes (raw : List UInt8 × String × List Nat) : Tensor := ⟨raw.2.2, raw.2.1, raw.1⟩

def readStateTupleRaw (tensorsRaw : Name → Option (List UInt8 × String × List Nat)) : Info → Nat → LayerState :=
  readStateTuple fun name => (tensorsRaw name).map restoreTensorFromBytes

def readStateTupleArrays (arrays : Arrays) : Info → Nat → LayerState := readStateTuple arrays

def readLayers (read : Info → Nat → LayerState) (m : Metadata) : List Layer :=
  (List.range m.numLayers).map fun i =>
    match m.layerInfo[i]? with
    | some info => ⟨info.className, info.cacheType, .seq info.metaState,
        if info.hasState then read info i else .flat []⟩
    | none => ⟨"KVCache", "KVCache", .seq [], .flat []⟩

def deserialize (tensorsRaw : Name → Option (List UInt8 × String × List Nat)) (m : Metadata) : List Layer :=
  readLayers (readStateTupleRaw tensorsRaw) m

def reconstructFromSafetensors (arrays : Arrays) (m : Metadata) : List Layer :=
  readLayers (readStateTupleArrays arrays) m

inductive Value where
  | none
  | tensor (t : Tensor)
  | seq (items : List Value)

def Elem.value : Elem → Value
  | .none => .none
  | .tensor t => .tensor t
  | .group tensors => .seq (tensors.map .tensor)

def LayerState.value : LayerState → Value
  | .flat elems => .seq (elems.map Elem.value)
  | .subs states => .seq (states.map fun s => .seq (s.2.map Elem.value))

def Layer.Same (l l' : Layer) : Prop :=
  l.className = l'.className ∧ l.cacheType = l'.cacheType ∧ l.metaState = l'.metaState ∧
    l.state.value = l'.state.value

/-- Both readers give the layers back. -/
def RoundTrips (extracted : List Layer) : Prop :=
  ∃ arrays m, serializeExtracted extracted = some (arrays, m) ∧
    deserialize (fun name => (arrays name).map extractTensorBytes) m = reconstructFromSafetensors arrays m ∧
    List.Forall₂ Layer.Same (reconstructFromSafetensors arrays m) extracted

/-- No element but tensors with entries and the gaps between them. -/
def Elem.Kept : Elem → Prop
  | .none => True
  | .tensor t => hasZeroDim t.shape = false
  | .group _ => False

/-- A placeholder, a tuple with a tensor or sub-states, all of whose elements are kept. -/
def LayerState.Kept : LayerState → Prop
  | .flat elems => elems = [] ∨ (∃ t, Elem.tensor t ∈ elems) ∧ ∀ e ∈ elems, e.Kept
  | .subs states => ∀ s ∈ states, ∀ e ∈ s.2, e.Kept

def Layer.Kept (l : Layer) : Prop := l.state.Kept ∧ ∃ items, l.metaState = .seq items

def restored (l : Layer) : LayerState :=
  match l.state with
  | .flat elems => if elems.any (fun e => e.tensor?.isSome) then
      .flat (elems.map fun e => e.tensor?.elim .none .tensor) else .flat []
  | .subs states => if states.isEmpty then .flat [] else
      .subs (states.map fun s => (false, s.2.map fun e => e.tensor?.elim .none .tensor))

theorem readElem_of {arrays : Arrays} {info : Info} {i : Nat} {slot : Slot} {e : Elem} {s : LayerState}
    (harray : arrays (.layer i slot) = s.array slot) (hmissing : info.missing slot = s.missing slot)
    (hzero : info.zeroDim slot = s.zeroDim slot) (he : s.elem? slot = some e) (hfull : e.isHollow = false) :
    readElem arrays info i slot = e.tensor?.elim .none .tensor := by
  have hhollow : ∀ t, e.tensor? = some t → hasZeroDim t.shape = false := by
    intro t ht
    simpa [Elem.isHollow, ht] using hfull
  rw [readElem, hmissing, harray, hzero]
  cases ht : e.tensor? with
  | none => simp [LayerState.missing, he, ht]
  | some t => simp [LayerState.missing, LayerState.array, LayerState.zeroDim, he, ht, hhollow t ht]

theorem map_range_getElem? {α β : Type} {l : List α} {f : Nat → β} {g : α → β}
    (h : ∀ k a, l[k]? = some a → f k = g a) : (List.range l.length).map f = l.map g := by
  apply List.ext_getElem?
  intro k
  by_cases hk : k < l.length
  · simp [hk, h k _ (List.getElem?_eq_getElem hk)]
  · simp [Nat.le_of_not_lt hk]

/-- The reader puts a layer's state together from what was written for it. -/
theorem read_restored {arrays : Arrays} {l : Layer} {i : Nat}
    (harrays : l.state.written = true → ∀ slot, arrays (.layer i slot) = l.state.array slot) (hfull : Full l) :
    (if (layerInfo l).hasState then readStateTuple arrays (layerInfo l) i else .flat []) = restored l := by
  unfold layerInfo restored
  cases hw : l.state.written with
  | false =>
    cases hs : l.state with
    | flat elems =>
      rw [hs, LayerState.written] at hw
      simp [hw]
    | subs states =>
      rw [hs, LayerState.written, Bool.not_eq_false'] at hw
      simp [hw]
  | true =>
    replace harrays := harrays hw
    replace hfull := hfull hw
    cases hs : l.state with
    | flat elems =>
      rw [hs] at hw harrays hfull
      rw [LayerState.written] at hw
      simp only [hw, if_true, readStateTuple]
      congr 1
      refine map_range_getElem? fun k e hk => ?_
      exact readElem_of (s := .flat elems) (harrays _) rfl rfl hk (hfull e (List.mem_of_getElem? hk))
    | subs states =>
      rw [hs] at hw harrays hfull
      rw [LayerState.written, Bool.not_eq_true'] at hw
      simp only [hw, Bool.false_eq_true, if_false, if_true, readStateTuple]
      congr 1
      refine map_range_getElem? fun j s hj => ?_
      simp only [hj, Option.map_some, Option.getD_some]
      congr 1
      refine map_range_getElem? fun k e hk => ?_
      refine readElem_of (s := .subs states) (harrays _) rfl rfl (by simp [LayerState.elem?, hj, hk]) ?_
      exact hfull e (List.mem_flatMap.mpr ⟨s, List.mem_of_getElem? hj, List.mem_of_getElem? hk⟩)

theorem kept_iff {e : Elem} (hfull : e.isHollow = false) :
    (e.tensor?.elim Elem.none .tensor).value = e.value ↔ e.Kept := by
  cases e with
  | none => simp [Elem.tensor?, Elem.value, Elem.Kept]
  | tensor t => simpa [Elem.tensor?, Elem.value, Elem.Kept, Elem.isHollow] using hfull
  | group tensors => simp [Elem.tensor?, Elem.value, Elem.Kept]

theorem map_value_iff {elems : List Elem} (hfull : ∀ e ∈ elems, e.isHollow = false) :
    (elems.map fun e => e.tensor?.elim Elem.none .tensor).map Elem.value = elems.map Elem.value ↔
      ∀ e ∈ elems, e.Kept := by
  rw [List.map_map, List.map_inj_left]
  exact forall₂_congr fun e he => kept_iff (hfull e he)

/-- A layer comes back as it was if and only if it is kept. -/
theorem restored_value_iff {l : Layer} (hfull : Full l) : (restored l).value = l.state.value ↔ l.state.Kept := by
  unfold restored
  unfold Full at hfull
  cases hs : l.state with
  | flat elems =>
    rw [hs] at hfull
    have htensor : elems.any (fun e => e.tensor?.isSome) = true ↔ ∃ t, Elem.tensor t ∈ elems := by
      rw [List.any_eq_true]
      constructor
      · rintro ⟨e, he, ht⟩
        cases e with
        | tensor t => exact ⟨t, he⟩
        | none => cases ht
        | group tensors => cases ht
      · rintro ⟨t, ht⟩
        exact ⟨_, ht, rfl⟩
    by_cases hany : elems.any (fun e => e.tensor?.isSome) = true
    · have hne : elems ≠ [] := by
        rintro rfl
        cases hany
      simp only [hany, if_true, LayerState.value, Value.seq.injEq, LayerState.Kept, hne, false_or,
        htensor.mp hany, true_and]
      exact map_value_iff (hfull hany)
    · simp only [hany, Bool.false_eq_true, if_false, LayerState.value, List.map_nil, Value.seq.injEq,
        LayerState.Kept, mt htensor.mpr hany, false_and, or_false]
      rw [eq_comm, List.map_eq_nil_iff]
  | subs states =>
    rw [hs] at hfull
    cases states with
    | nil => simp [LayerState.value, LayerState.Kept]
    | cons s rest =>
      simp only [List.isEmpty_cons, Bool.false_eq_true, if_false, LayerState.value, Value.seq.injEq,
        LayerState.Kept, List.map_map, List.map_inj_left, Function.comp_apply]
      refine forall₂_congr fun t ht => forall₂_congr fun e he => kept_iff ?_
      exact hfull rfl e (List.mem_flatMap.mpr ⟨t, ht, he⟩)

variable {extracted : List Layer}

theorem reconstruct_written (hfull : ∀ l ∈ extracted, Full l) :
    reconstructFromSafetensors (writtenArrays extracted) ⟨extracted.length, extracted.map layerInfo⟩ =
      extracted.map fun l => ⟨l.className, l.cacheType, .seq (metaOf l), restored l⟩ := by
  refine map_range_getElem? fun i l hl => ?_
  have hread := @read_restored (writtenArrays extracted) l i
    (fun hw slot => by simp [writtenArrays, hl, hw]) (hfull l (List.mem_of_getElem? hl))
  have hnames : (layerInfo l).className = l.className ∧ (layerInfo l).cacheType = l.cacheType ∧
      (layerInfo l).metaState = metaOf l := by
    unfold layerInfo
    split
    · cases l.state <;> exact ⟨rfl, rfl, rfl⟩
    · exact ⟨rfl, rfl, rfl⟩
  simp only [List.getElem?_map, hl, Option.map_some, hnames]
  rw [← hread]
  rfl

theorem same_iff {l : Layer} (hfull : Full l) :
    Layer.Same ⟨l.className, l.cacheType, .seq (metaOf l), restored l⟩ l ↔ l.Kept := by
  have hseq : Meta.seq (metaOf l) = l.metaState ↔ ∃ items, l.metaState = .seq items := by
    constructor
    · exact fun h => ⟨_, h.symm⟩
    · rintro ⟨items', h⟩
      simp [metaOf, h, listMeta]
  simp only [Layer.Same, true_and, hseq, restored_value_iff hfull, Layer.Kept]
  exact and_comm

/-- What the readers give is what was written, layer by layer. -/
theorem reconstruct_same_iff (hfull : ∀ l ∈ extracted, Full l) :
    List.Forall₂ Layer.Same
      (reconstructFromSafetensors (writtenArrays extracted) ⟨extracted.length, extracted.map layerInfo⟩) extracted ↔
        ∀ l ∈ extracted, l.Kept := by
  rw [reconstruct_written hfull, List.forall₂_map_left_iff, List.forall₂_same]
  exact forall₂_congr fun l hl => same_iff (hfull l hl)

theorem Layer.Kept.full {l : Layer} (h : l.Kept) : Full l := by
  have hkept : ∀ e : Elem, e.Kept → e.isHollow = false := by
    intro e he
    cases e with
    | none => rfl
    | tensor t => exact he
    | group tensors => cases he
  intro _ e he
  refine hkept e ?_
  have hstate := h.1
  cases hs : l.state with
  | flat elems =>
    rw [hs] at he hstate
    rcases hstate with rfl | hall
    · cases he
    · exact hall.2 e he
  | subs states =>
    rw [hs] at he hstate
    obtain ⟨s, hmem, hes⟩ := List.mem_flatMap.mp he
    exact hstate s hmem e hes

theorem RoundTrips.kept (h : RoundTrips extracted) : ∀ l ∈ extracted, l.Kept := by
  obtain ⟨arrays, m, hok, -, hall⟩ := h
  unfold serializeExtracted at hok
  split at hok
  · next hwritten =>
    cases hok
    exact (reconstruct_same_iff fun l hl => (hwritten l hl).2).mp hall
  · cases hok

/-- A snapshot comes back through both readers if and only if every layer is kept. -/
theorem roundTrips_iff (extracted : List Layer) : RoundTrips extracted ↔ ∀ l ∈ extracted, l.Kept := by
  constructor
  · exact RoundTrips.kept
  · intro hkept
    have hfull := fun l hl => (hkept l hl).full
    have hwritten : ∀ l ∈ extracted, (listMeta l.metaState).isSome ∧ Full l := by
      intro l hl
      obtain ⟨items, hitems⟩ := (hkept l hl).2
      exact ⟨by rw [hitems]; rfl, hfull l hl⟩
    refine ⟨_, _, if_pos hwritten, ?_, (reconstruct_same_iff hfull).mpr hkept⟩
    unfold deserialize reconstructFromSafetensors readStateTupleRaw readStateTupleArrays
    congr 2
    funext name
    exact (Option.map_map ..).trans (congrFun Option.map_id _)

/-- A quantized layer: its state is a tuple of tuples of tensors. -/
theorem quantized_layer_lost : ¬ RoundTrips [⟨"QuantizedKVCache", "QuantizedKVCache",
    .seq [.text "1", .text "64", .text "4"],
    .flat [.group [⟨[1], "U32", [1, 2, 3, 4]⟩, ⟨[1], "F32", [0, 0, 128, 63]⟩, ⟨[1], "F32", [0, 0, 0, 0]⟩],
      .group [⟨[1], "U32", [5, 6, 7, 8]⟩, ⟨[1], "F32", [0, 0, 128, 63]⟩, ⟨[1], "F32", [0, 0, 0, 0]⟩]]⟩] := by
  intro h
  rcases (h.kept _ List.mem_cons_self).1 with hnil | ⟨-, hall⟩
  · cases hnil
  · exact hall _ List.mem_cons_self

end FusionMlx.SnapshotCodec
