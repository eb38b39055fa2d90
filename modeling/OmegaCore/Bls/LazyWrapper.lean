import OmegaCore.Primitives
import OmegaCore.Serialize.VarInt

/-!
`CBLSLazyWrapper`: a BLS object behind a buffer, decoded when it is first used.  Three flags say
whether the buffer is valid, in which scheme it is encoded and whether the object has been decoded.
The methods are const in the source and change all of them.  A wrapper that has not been decoded
still has the object it held before, or none, and `Serialize` under the other scheme encodes that
one; `serialize_exact` says when the bytes are those of the key that `Get` returns.
-/

namespace OmegaCore.Bls

open Util Serialize

/-- The encodings of one kind of object, with the laws that the wrappers rely on: decoding inverts
encoding, and zero bytes, which stand for an object that is not valid, are no encoding. -/
structure Library (ι : Type) where
  serSize : ℕ
  /-- `ImplType::FromBytes`, which throws on bytes that it does not decode. -/
  fromBytes : Bool → Bytes → Option ι
  /-- `ImplType::Serialize`. -/
  encode : Bool → ι → Bytes
  /-- The hash of `CHashWriter`. -/
  hash : Bytes → Uint256
  length_encode : ∀ legacy x, (encode legacy x).length = serSize
  fromBytes_encode : ∀ legacy x, fromBytes legacy (encode legacy x) = some x
  encode_ne_zero : ∀ legacy x, encode legacy x ≠ List.replicate serSize 0

variable {ι : Type} (L : Library ι)

/-! ### Objects -/

namespace Library

/-- `CBLSWrapper::SetByteVector`; an object that is not valid is `none`. -/
def setByteVector (vecBytes : Bytes) (specificLegacyScheme : Bool) : Option ι :=
  if vecBytes.length ≠ L.serSize then none
  else if vecBytes.all (· == 0) then none
  else L.fromBytes specificLegacyScheme vecBytes

def toByteVector (specificLegacyScheme : Bool) : Option ι → Bytes
  | none => List.replicate L.serSize 0
  | some x => L.encode specificLegacyScheme x

def checkMalleable (obj : Option ι) (vecBytes : Bytes) (specificLegacyScheme : Bool) : Bool :=
  vecBytes == L.toByteVector specificLegacyScheme obj

theorem all_zero_iff {n : ℕ} {bs : Bytes} (hlen : bs.length = n) :
    bs.all (· == 0) = true ↔ bs = List.replicate n 0 := by
  rw [List.eq_replicate_iff, List.all_eq_true]
  simp [hlen]

@[simp]
theorem setByteVector_encode (legacy : Bool) (x : ι) : L.setByteVector (L.encode legacy x) legacy = some x := by
  have hlen := L.length_encode legacy x
  rw [setByteVector, if_neg (not_not.mpr hlen), if_neg, L.fromBytes_encode]
  rw [all_zero_iff hlen]
  exact L.encode_ne_zero legacy x

theorem encode_injective (legacy : Bool) {x y : ι} (h : L.encode legacy x = L.encode legacy y) : x = y := by
  have hdecoded := L.fromBytes_encode legacy x
  rw [h, L.fromBytes_encode] at hdecoded
  exact (Option.some.inj hdecoded).symm

theorem toByteVector_eq_encode_iff (legacy : Bool) (obj : Option ι) (x : ι) :
    L.toByteVector legacy obj = L.encode legacy x ↔ obj = some x := by
  cases obj with
  | none => simpa [toByteVector] using (L.encode_ne_zero legacy x).symm
  | some y =>
    rw [toByteVector, Option.some.injEq]
    exact ⟨fun h => L.encode_injective legacy h, fun h => h ▸ rfl⟩

end Library

/-! ### The wrapper -/

structure CBLSLazyWrapper (ι : Type) where
  vecBytes : Bytes
  bufValid : Bool := false
  bufLegacyScheme : Bool := true
  obj : Option ι := none
  objInitialized : Bool := false
  hash : Uint256 := 0
  deriving DecidableEq, Repr

namespace CBLSLazyWrapper

/-- The default constructor, under the value of `bls_legacy_scheme`. -/
def initial (blsLegacyScheme : Bool) : CBLSLazyWrapper ι where
  vecBytes := List.replicate L.serSize 0
  bufLegacyScheme := blsLegacyScheme

/-- `operator=` and the copy constructor. -/
def copy (r : CBLSLazyWrapper ι) : CBLSLazyWrapper ι where
  vecBytes := if r.bufValid then r.vecBytes else List.replicate L.serSize 0
  bufValid := r.bufValid
  bufLegacyScheme := r.bufLegacyScheme
  obj := if r.objInitialized then r.obj else none
  objInitialized := r.objInitialized
  hash := r.hash

variable (w : CBLSLazyWrapper ι) (specificLegacyScheme : Bool)

/-- `Serialize`: the bytes that are written, and the wrapper afterwards. -/
def serialize : Bytes × CBLSLazyWrapper ι :=
  let w :=
    if !w.objInitialized && !w.bufValid then { w with vecBytes := List.replicate L.serSize 0 }
    else if !w.bufValid || w.bufLegacyScheme != specificLegacyScheme then
      { w with
        vecBytes := L.toByteVector specificLegacyScheme w.obj
        bufValid := true
        bufLegacyScheme := specificLegacyScheme
        hash := 0 }
    else w
  (w.vecBytes, w)

/-- `Unserialize`; a stream that is too short throws and changes nothing. -/
def unserialize : Reader (CBLSLazyWrapper ι) := fun s => do
  let (vecBytes, s) ← readBytes L.serSize s
  .ok ({ w with
    vecBytes := vecBytes
    bufValid := true
    bufLegacyScheme := specificLegacyScheme
    objInitialized := false
    hash := 0 }, s)

def set (obj : Option ι) (specificLegacyScheme : Bool) : CBLSLazyWrapper ι :=
  { w with
    bufValid := false
    bufLegacyScheme := specificLegacyScheme
    objInitialized := true
    obj := obj
    hash := 0 }

/-- `Get`: the object, and the wrapper after the decoding that it may need. -/
def get : Option ι × CBLSLazyWrapper ι :=
  if !w.bufValid && !w.objInitialized then (none, w)
  else if !w.objInitialized then
    let obj := L.setByteVector w.vecBytes w.bufLegacyScheme
    if !obj.isSome then (none, { w with obj := obj, bufValid := false })
    else if !L.checkMalleable obj w.vecBytes w.bufLegacyScheme then
      (none, { w with obj := obj, bufValid := false })
    else (obj, { w with obj := obj, objInitialized := true })
  else (w.obj, w)

def getHash : Uint256 × CBLSLazyWrapper ι :=
  let w :=
    if !w.objInitialized && !w.bufValid then
      { w with vecBytes := List.replicate L.serSize 0, hash := 0 }
    else if !w.bufValid then
      { w with vecBytes := L.toByteVector w.bufLegacyScheme w.obj, bufValid := true, hash := 0 }
    else w
  let w := if w.hash = 0 then { w with hash := L.hash w.vecBytes } else w
  (w.hash, w)

/-- The key that the wrapper holds, the result of `Get`. -/
def held : Option ι :=
  (w.get L).1

inductive Reachable : CBLSLazyWrapper ι → Prop where
  | initial (blsLegacyScheme : Bool) : Reachable (initial L blsLegacyScheme)
  | copy {r : CBLSLazyWrapper ι} (prev : Reachable r) : Reachable (r.copy L)
  | set {w : CBLSLazyWrapper ι} (prev : Reachable w) (obj : Option ι) (legacy : Bool) : Reachable (w.set obj legacy)
  | unserialize {w w' : CBLSLazyWrapper ι} {s rest : Bytes} (prev : Reachable w) (legacy : Bool)
      (read : w.unserialize L legacy s = .ok (w', rest)) : Reachable w'
  | get {w : CBLSLazyWrapper ι} (prev : Reachable w) : Reachable (w.get L).2
  | getHash {w : CBLSLazyWrapper ι} (prev : Reachable w) : Reachable (w.getHash L).2
  | serialize {w : CBLSLazyWrapper ι} (prev : Reachable w) (legacy : Bool) : Reachable (w.serialize L legacy).2

/-! ### The buffer of a decoded object -/

/-- A valid buffer beside a decoded object has the bytes of that object. -/
def Coherent : Prop :=
  w.objInitialized = true → w.bufValid = true → w.vecBytes = L.toByteVector w.bufLegacyScheme w.obj

variable {L} {w w' : CBLSLazyWrapper ι} {k : ι}

theorem unserialize_ok {legacy : Bool} {s rest : Bytes} (h : w.unserialize L legacy s = .ok (w', rest)) :
    s = w'.vecBytes ++ rest ∧ w'.vecBytes.length = L.serSize ∧
      w' = { w with
        vecBytes := w'.vecBytes, bufValid := true, bufLegacyScheme := legacy, objInitialized := false, hash := 0 } := by
  unfold unserialize readBytes at h
  by_cases hlen : s.length < L.serSize
  · rw [if_pos hlen] at h
    cases h
  · rw [if_neg hlen] at h
    cases h
    refine ⟨(List.take_append_drop _ _).symm, ?_, rfl⟩
    rw [List.length_take]
    omega

theorem get_initialized (h : w.objInitialized = true) : w.get L = (w.obj, w) := by
  simp [get, h]

theorem get_invalid (hinit : w.objInitialized = false) (hbuf : w.bufValid = false) : w.get L = (none, w) := by
  simp [get, hinit, hbuf]

theorem held_buffer (hinit : w.objInitialized = false) (hbuf : w.bufValid = true) :
    w.held L = some k ↔ w.vecBytes = L.encode w.bufLegacyScheme k := by
  constructor
  · intro hheld
    unfold held get at hheld
    simp only [hinit, hbuf, Bool.not_true, Bool.not_false, Bool.false_and, Bool.false_eq_true, if_false, if_true]
      at hheld
    split at hheld
    · cases hheld
    · split at hheld
      · cases hheld
      · next hcheck =>
        dsimp only at hheld
        rw [hheld] at hcheck
        simpa [Library.checkMalleable, Library.toByteVector] using hcheck
  · intro hbytes
    simp [held, get, hinit, hbuf, hbytes, Library.checkMalleable, Library.toByteVector]

theorem coherent_get (hw : w.Coherent L) : (w.get L).2.Coherent L := by
  cases hinit : w.objInitialized with
  | true => rwa [get_initialized hinit]
  | false =>
    cases hbuf : w.bufValid with
    | false => rwa [get_invalid hinit hbuf]
    | true =>
      unfold get
      simp only [hinit, hbuf, Bool.not_true, Bool.not_false, Bool.false_and, Bool.false_eq_true, if_false, if_true]
      split
      · intro h
        cases h
      · split
        · intro h
          cases h
        · next hcheck =>
          intro _ _
          simpa [Library.checkMalleable] using hcheck

theorem coherent_serialize (hw : w.Coherent L) (legacy : Bool) : (w.serialize L legacy).2.Coherent L := by
  unfold serialize
  split_ifs with hnone hother
  · intro hinit
    simp [show w.objInitialized = true from hinit] at hnone
  · exact fun _ _ => rfl
  · exact hw

theorem coherent_getHash (hw : w.Coherent L) : (w.getHash L).2.Coherent L := by
  -- the first step may fill the buffer, the second one only sets the hash
  have hfill : Coherent L (if !w.objInitialized && !w.bufValid then
      { w with vecBytes := List.replicate L.serSize 0, hash := 0 }
    else if !w.bufValid then
      { w with vecBytes := L.toByteVector w.bufLegacyScheme w.obj, bufValid := true, hash := 0 }
    else w) := by
    split_ifs with hnone hbuf
    · intro hinit
      simp [show w.objInitialized = true from hinit] at hnone
    · exact fun _ _ => rfl
    · exact hw
  unfold getHash
  dsimp only
  split_ifs at hfill ⊢ <;> exact hfill

theorem coherent_copy (hw : w.Coherent L) : (w.copy L).Coherent L := by
  intro hinit hbuf
  have hinit' : w.objInitialized = true := hinit
  have hbuf' : w.bufValid = true := hbuf
  simpa [copy, hinit', hbuf'] using hw hinit' hbuf'

theorem Reachable.coherent (hw : Reachable L w) : w.Coherent L := by
  induction hw with
  | initial legacy => exact fun h => absurd h (by simp [CBLSLazyWrapper.initial])
  | copy _ ih => exact coherent_copy ih
  | set _ obj legacy _ => exact fun _ h => absurd h (by simp [CBLSLazyWrapper.set])
  | unserialize _ legacy read _ =>
    intro h
    rw [(unserialize_ok read).2.2] at h
    cases h
  | get _ ih => exact coherent_get ih
  | getHash _ ih => exact coherent_getHash ih
  | serialize _ legacy ih => exact coherent_serialize ih legacy

/-! ### Serialization -/

theorem not_empty_of_held (hk : w.held L = some k) : (!w.objInitialized && !w.bufValid) = false := by
  by_contra hne
  simp only [Bool.not_eq_false, Bool.and_eq_true, Bool.not_eq_true'] at hne
  rw [held, get_invalid hne.1 hne.2] at hk
  cases hk

theorem serialize_same (hw : w.Coherent L) (hk : w.held L = some k) :
    (w.serialize L w.bufLegacyScheme).1 = L.encode w.bufLegacyScheme k ∧
      (w.serialize L w.bufLegacyScheme).2.held L = some k := by
  have hne := not_empty_of_held hk
  cases hbuf : w.bufValid with
  | false =>
    have hinit : w.objInitialized = true := by simpa [hbuf] using hne
    have hobj : w.obj = some k := by rwa [held, get_initialized hinit] at hk
    simp [serialize, hinit, hbuf, hobj, Library.toByteVector, held, get]
  | true =>
    have hsame : w.serialize L w.bufLegacyScheme = (w.vecBytes, w) := by simp [serialize, hbuf]
    rw [hsame]
    refine ⟨?_, hk⟩
    cases hinit : w.objInitialized with
    | false => exact (held_buffer hinit hbuf).mp hk
    | true =>
      rw [held, get_initialized hinit] at hk
      rw [hw hinit hbuf, show w.obj = some k from hk]
      rfl

/-- Under the other scheme the object is encoded, decoded or not. -/
theorem serialize_other {legacy : Bool} (hk : w.held L = some k) (hother : legacy ≠ w.bufLegacyScheme) :
    w.serialize L legacy = (L.toByteVector legacy w.obj,
      { w with
        vecBytes := L.toByteVector legacy w.obj, bufValid := true, bufLegacyScheme := legacy, hash := 0 }) := by
  have hne := not_empty_of_held hk
  simp [serialize, hne, hother.symm]

theorem held_of_obj {legacy : Bool} {h : Uint256} (hobj : w.obj = some k) :
    held L { w with
      vecBytes := L.toByteVector legacy w.obj, bufValid := true, bufLegacyScheme := legacy, hash := h } = some k := by
  cases hinit : w.objInitialized with
  | true => simp [held, get, hobj]
  | false =>
    rw [held_buffer rfl rfl]
    simp [hobj, Library.toByteVector]

/-- For every wrapper that operations lead to and that holds a key: `Serialize` writes the encoding of
that key and keeps it exactly if the scheme is that of the buffer or the object is the key already. -/
theorem serialize_exact (hw : Reachable L w) (hk : w.held L = some k) (legacy : Bool) :
    ((w.serialize L legacy).1 = L.encode legacy k ∧ (w.serialize L legacy).2.held L = some k) ↔
      legacy = w.bufLegacyScheme ∨ w.obj = some k := by
  by_cases hsame : legacy = w.bufLegacyScheme
  · subst hsame
    exact ⟨fun _ => .inl rfl, fun _ => serialize_same hw.coherent hk⟩
  · rw [serialize_other hk hsame]
    constructor
    · rintro ⟨hbytes, -⟩
      exact .inr ((L.toByteVector_eq_encode_iff legacy w.obj k).mp hbytes)
    · rintro (hlegacy | hobj)
      · exact absurd hlegacy hsame
      · exact ⟨(L.toByteVector_eq_encode_iff legacy w.obj k).mpr hobj, held_of_obj hobj⟩

/-! ### Two keys of one byte -/

def sampleEncode (legacy key : Bool) : Bytes :=
  [if legacy then (if key then 1 else 2) else if key then 3 else 4]

def sampleLibrary : Library Bool where
  serSize := 1
  fromBytes legacy bs := [true, false].find? fun key => bs == sampleEncode legacy key
  encode := sampleEncode
  hash _ := 1
  length_encode _ _ := rfl
  fromBytes_encode := by decide
  encode_ne_zero := by decide

def sampleRead : CBLSLazyWrapper Bool :=
  { initial sampleLibrary true with vecBytes := [1], bufValid := true }

theorem reachable_sampleRead : Reachable sampleLibrary sampleRead := by
  have hread : (initial sampleLibrary true).unserialize sampleLibrary true [1] = .ok (sampleRead, []) := rfl
  exact .unserialize (.initial true) true hread

/-- After `Get` the key is written in the other scheme. -/
theorem serialize_exact_decoded :
    ((sampleRead.get sampleLibrary).2.serialize sampleLibrary false).1 = [3] ∧
      ((sampleRead.get sampleLibrary).2.serialize sampleLibrary false).2.held sampleLibrary = some true :=
  (serialize_exact (k := true) reachable_sampleRead.get rfl false).mpr (.inr rfl)

/-- A key that has been read but not decoded is written as zeros in the other scheme, and is lost. -/
theorem serialize_undecoded :
    ¬ ∀ w : CBLSLazyWrapper Bool, Reachable sampleLibrary w → ∀ k, w.held sampleLibrary = some k →
      ∀ legacy, (w.serialize sampleLibrary legacy).1 = sampleLibrary.encode legacy k ∧
        (w.serialize sampleLibrary legacy).2.held sampleLibrary = some k := by
  intro h
  have hbytes := (h sampleRead reachable_sampleRead true rfl false).1
  revert hbytes
  decide

end CBLSLazyWrapper

end OmegaCore.Bls
