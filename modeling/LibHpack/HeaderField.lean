import Mathlib.Tactic
import LibHpack.Chula

/-!
# LibHpack.HeaderField — header fields and their stores (header_field.c, header_store.c)

A field is a name, a value and the flags that say how it was encoded.  The flags are a bit field of 2 + 2 + 3 bits in
four octets; `FieldFlags.octets` is its layout in memory, with the unused bits zero.  A store is a list of fields.
-/

namespace LibHpack

/-- `hpack_header_field_type_t`. -/
inductive FieldType
  | isIndexedHt
  | isIndexedStatic
  | isNew
  | isNewHuffman
  deriving DecidableEq, Repr

/-- `hpack_header_field_representation_t`.  Its bit field has room for two more values, which a read of foreign octets
can produce. -/
inductive FieldRep
  | repEmpty
  | repUserSupplied
  | repIndexed
  | repIncIndexed
  | repWoIndexing
  | repNeverIndx
  | undefined6
  | undefined7
  deriving DecidableEq, Repr

def FieldType.toNat : FieldType → ℕ
  | .isIndexedHt => 0
  | .isIndexedStatic => 1
  | .isNew => 2
  | .isNewHuffman => 3

def FieldType.ofBits : ℕ → FieldType
  | 0 => .isIndexedHt
  | 1 => .isIndexedStatic
  | 2 => .isNew
  | _ => .isNewHuffman

def FieldRep.toNat : FieldRep → ℕ
  | .repEmpty => 0
  | .repUserSupplied => 1
  | .repIndexed => 2
  | .repIncIndexed => 3
  | .repWoIndexing => 4
  | .repNeverIndx => 5
  | .undefined6 => 6
  | .undefined7 => 7

def FieldRep.ofBits : ℕ → FieldRep
  | 0 => .repEmpty
  | 1 => .repUserSupplied
  | 2 => .repIndexed
  | 3 => .repIncIndexed
  | 4 => .repWoIndexing
  | 5 => .repNeverIndx
  | 6 => .undefined6
  | _ => .undefined7

/-- `hpack_header_field_flags_t`. -/
structure FieldFlags where
  name : FieldType
  value : FieldType
  rep : FieldRep
  deriving DecidableEq, Repr

/-- The four octets of the flags in memory. -/
def FieldFlags.octets (f : FieldFlags) : List UInt8 :=
  [UInt8.ofNat (f.name.toNat + 4 * f.value.toNat + 16 * f.rep.toNat), 0, 0, 0]

/-- The flags behind the first of their octets. -/
def FieldFlags.ofOctet (b : UInt8) : FieldFlags where
  name := FieldType.ofBits (b.toNat % 4)
  value := FieldType.ofBits (b.toNat / 4 % 4)
  rep := FieldRep.ofBits (b.toNat / 16 % 8)

@[simp] theorem FieldFlags.octets_length (f : FieldFlags) : f.octets.length = 4 := rfl

/-- The flags survive a round trip through memory. -/
theorem FieldFlags.ofOctet_octets (f : FieldFlags) :
    FieldFlags.ofOctet (UInt8.ofNat (f.name.toNat + 4 * f.value.toNat + 16 * f.rep.toNat)) = f := by
  obtain ⟨name, value, rep⟩ := f
  cases name <;> cases value <;> cases rep <;> rfl

/-- `hpack_header_field_t`. -/
structure HeaderField where
  flags : FieldFlags
  name : ChulaBuffer
  value : ChulaBuffer
  deriving DecidableEq, Repr

def hpackHeaderFieldInit : HeaderField where
  flags := ⟨.isIndexedHt, .isIndexedHt, .repEmpty⟩
  name := chulaBufferInit
  value := chulaBufferInit

def hpackHeaderFieldClean (f : HeaderField) : HeaderField where
  flags := { f.flags with rep := .repEmpty }
  name := chulaBufferClean f.name
  value := chulaBufferClean f.value

/-- `hpack_header_field_copy`: the octets are appended to those of the destination. -/
def hpackHeaderFieldCopy (f tocopy : HeaderField) : HeaderField where
  flags := tocopy.flags
  name := chulaBufferAddBuffer f.name tocopy.name
  value := chulaBufferAddBuffer f.value tocopy.value

def hpackHeaderFieldIsEmpty (f : HeaderField) : Bool :=
  if !chulaBufferIsEmpty f.name then false else chulaBufferIsEmpty f.value

/-- `hpack_header_field_get_size`.  The sum is computed in 32 bits (`HPACK_HEADER_ENTRY_OVERHEAD` is 32) and only then
stored in the 64-bit result. -/
def hpackHeaderFieldGetSize (f : HeaderField) : ℕ :=
  if chulaBufferIsEmpty f.name && chulaBufferIsEmpty f.value then 0
  else (f.name.len + f.value.len + 32) % 2 ^ 32

/-- Name and value. -/
def HeaderField.pair (f : HeaderField) : List UInt8 × List UInt8 := (f.name.bytes, f.value.bytes)

/-- The field is copied to the end of the store; this is the `emit` of `hpack_header_store_init`. -/
def hpackHeaderStoreEmit (store : List HeaderField) (field : HeaderField) : List HeaderField :=
  store ++ [hpackHeaderFieldCopy hpackHeaderFieldInit field]

/-- A copy has the same name and value. -/
@[simp] theorem hpackHeaderStoreEmit_pairs (store : List HeaderField) (field : HeaderField) :
    (hpackHeaderStoreEmit store field).map HeaderField.pair = store.map HeaderField.pair ++ [field.pair] := by
  simp [hpackHeaderStoreEmit, HeaderField.pair, hpackHeaderFieldCopy, hpackHeaderFieldInit]

theorem hpackHeaderFieldIsEmpty_iff (f : HeaderField) :
    hpackHeaderFieldIsEmpty f = true ↔ f.name.bytes = [] ∧ f.value.bytes = [] := by
  unfold hpackHeaderFieldIsEmpty
  by_cases h : f.name.bytes = []
  · simp [(chulaBufferIsEmpty_iff f.name).mpr h, h, chulaBufferIsEmpty_iff]
  · have := mt (chulaBufferIsEmpty_iff f.name).mp h
    simp [h, this]

/-- The size of a field that has contents, when the 32-bit sum does not wrap. -/
theorem hpackHeaderFieldGetSize_eq {f : HeaderField} (h : hpackHeaderFieldIsEmpty f = false)
    (hlt : f.name.len + f.value.len + 32 < 2 ^ 32) :
    hpackHeaderFieldGetSize f = f.name.len + f.value.len + 32 := by
  have hne : (chulaBufferIsEmpty f.name && chulaBufferIsEmpty f.value) = false := by
    unfold hpackHeaderFieldIsEmpty at h
    cases hn : chulaBufferIsEmpty f.name <;> simp_all
  simp only [hpackHeaderFieldGetSize, hne, Bool.false_eq_true, if_false]
  exact Nat.mod_eq_of_lt hlt

end LibHpack
