import MongoServer.KeyString.NumericRoundTrip
import MongoServer.KeyString.RecordId
import MongoServer.Storage.OrderedTable

/-!
What standard and unique indexes share: tables from key strings to value bytes, the size
limit of keys, which keeps their type bits within their buffer, and the dummy entry that
makes a concurrent index build conflict.
-/
namespace MongoServer
open OrderedTable KeyString TypeBits List

section Sizes

mutual
def valuesize : BSONValue → ℕ
  | .minKey | .undefined | .jstNULL | .maxKey => 0
  | .bool _ => 1
  | .number (.numberInt _) => 4
  | .number (.numberLong _) | .number (.numberDouble _) => 8
  | .date _ | .bsonTimestamp _ => 8
  | .jstOID _ => 12
  | .string s | .symbol s | .code s => s.length + 1 + 4
  | .binData b => b.data.length + 4 + 1
  | .dbRef r => r.ns.bytes.length + 1 + 4 + 12
  | .regEx p f => p.bytes.length + 1 + f.bytes.length + 1
  | .object fields => objsize fields
  | .array elems => arraysize 0 elems + 5
  | .codeWScope c scope => 4 + (c.length + 1 + 4) + objsize scope

def objsize : List (CString × BSONValue) → ℕ
  | [] => 5
  | (name, v) :: rest => 1 + (name.bytes.length + 1) + valuesize v + objsize rest

/-- The bytes of an array's elements from position `i` on, named by their positions. -/
def arraysize (i : ℕ) : List BSONValue → ℕ
  | [] => 0
  | v :: rest => 1 + ((Nat.toDigits 10 i).length + 1) + valuesize v + arraysize (i + 1) rest
end

def TempKeyMaxSize : ℕ := 1024

/-- A key that `checkKeySize` lets into an index. -/
structure IndexableKey extends IndexKey where
  size_lt : objsize obj < TempKeyMaxSize

end Sizes

namespace WiredTigerIndex

/-- The format and the key pattern of an index, and whether it has a filter. -/
structure Config where
  keyStringVersion : Version
  ordering : KeyOrdering
  isPartial : Bool

abbrev IndexTable := Table ByteKey (List UInt8)

/-- A dummy entry, inserted and removed, so that a concurrent index build conflicts. -/
def triggerWriteConflictAtPoint (t : IndexTable) (keyItem : ByteKey) : Option IndexTable := do
  let t' ← t.insert keyItem []
  t'.remove keyItem

section Bits

mutual
theorem length_bits_value (v : Version) (d : Bool) (a : BSONValue) :
    (appendBsonValue v d a).bits.length ≤ valuesize a := by
  cases a with
  | object fields =>
    have h := length_bits_fields v d fields
    simp only [appendBsonValue, bits_append, appendByte_bits, nil_append, valuesize]
    omega
  | array elems =>
    have h := length_bits_elements v d elems 0
    simp only [appendBsonValue, bits_append, appendByte_bits, nil_append, valuesize]
    omega
  | codeWScope c scope =>
    have h := length_bits_fields v d scope
    simp only [appendBsonValue, bits_append, appendByte_bits, nil_append, valuesize,
      appendStringLike, appendBytes_bits]
    omega
  | number x =>
    cases x with
    | numberInt n =>
      simp [appendBsonValue, appendNumber, integer_bits, valuesize, numberIntBits]
    | numberLong n =>
      simp [appendBsonValue, appendNumber, integer_bits, valuesize, numberLongBits]
    | numberDouble x =>
      simp only [appendBsonValue, appendNumber, appendNumberDouble, bits_append, double_bits,
        append_nil, valuesize]
      split_ifs
      · cases v <;> simp [negativeDoubleZeroBits]
      · simp [numberDoubleBits]
  | string s =>
    simp [appendBsonValue, appendString, appendStringLike, stringBits, valuesize]
  | symbol s =>
    simp [appendBsonValue, appendSymbol, appendStringLike, symbolBits, valuesize]
  | binData b =>
    simp only [appendBsonValue, appendBinData]
    split <;> simp
  | _ =>
    simp [appendBsonValue, appendBool, appendDate, appendTimestamp, appendOID, appendCode,
      appendDBRef, appendRegex, appendStringLike]

theorem length_bits_fields (v : Version) (d : Bool) : ∀ fields : BSONObj,
    (appendBson v d fields).bits.length + 5 ≤ objsize fields
  | [] => by simp [appendBson, objsize]
  | (name, a) :: rest => by
    have ha := length_bits_value v d a
    have hrest := length_bits_fields v d rest
    simp only [appendBson, bits_append, appendByte_bits, appendBytes_bits, nil_append,
      length_append, objsize]
    omega

theorem length_bits_elements (v : Version) (d : Bool) : ∀ (elems : List BSONValue) (i : ℕ),
    (appendArray v d elems).bits.length ≤ arraysize i elems
  | [], i => by simp [appendArray, arraysize]
  | a :: rest, i => by
    have ha := length_bits_value v d a
    have hrest := length_bits_elements v d rest (i + 1)
    simp only [appendArray, bits_append, length_append, arraysize]
    omega
end

theorem length_bits_elementsFrom (v : Version) (ord : KeyOrdering) (obj : BSONObj) (i : ℕ) :
    (elements v ord i obj).bits.length + 5 + 2 * obj.length ≤ objsize obj := by
  induction obj generalizing i with
  | nil => simp [elements, objsize]
  | cons e rest ih =>
    obtain ⟨name, a⟩ := e
    have ha := length_bits_value v (ord.get i == -1) a
    have hrest := ih (i + 1)
    simp only [elements, bits_append, length_append, objsize, length_cons]
    omega

theorem typeBits_fit (v : Version) (ord : KeyOrdering) (key : IndexableKey) :
    (elements v ord 0 key.obj).bits.length ≤ 8 * kMaxBytesNeeded := by
  have hbits := length_bits_elementsFrom v ord key.obj 0
  have hsize := key.size_lt
  unfold TempKeyMaxSize at hsize
  unfold kMaxBytesNeeded
  cases hobj : key.obj with
  | nil => simp [elements]
  | cons e rest =>
    rw [hobj, length_cons] at hbits
    rw [hobj] at hsize
    omega

end Bits

section Overrun

/-- The kinds of `NumberDecimal` that differ in their type bits. -/
inductive DecimalKind where
  | zero
  | nanOrInfinite
  | finite

/-- Two bits for the type; a zero has five of them and twelve of its exponent, other finite
numbers have six of it. -/
def DecimalKind.typeBits : DecimalKind → ℕ
  | .zero => 5 + 12
  | .nanOrInfinite => 2
  | .finite => 2 + 6

/-- A value that may contain decimals. Arrays are documents with the positions as names. -/
inductive KeyValue where
  | value (v : BSONValue)
  | decimal (kind : DecimalKind)
  | embedded (fields : List (CString × KeyValue))
  | codeWScope (c : List UInt8) (scope : List (CString × KeyValue))

mutual
def KeyValue.size : KeyValue → ℕ
  | .value v => valuesize v
  | .decimal _ => 16
  | .embedded fields => keySize fields
  | .codeWScope c scope => 4 + (c.length + 1 + 4) + keySize scope

def keySize : List (CString × KeyValue) → ℕ
  | [] => 5
  | (name, a) :: rest => 1 + (name.bytes.length + 1) + a.size + keySize rest
end

/-- The type bits appended, and whether all of the key was: the first version throws at a
decimal. -/
abbrev Appended := ℕ × Bool

def Appended.andThen (a b : Appended) : Appended := if a.2 then (a.1 + b.1, b.2) else a

mutual
def KeyValue.typeBits (v : Version) (d : Bool) : KeyValue → Appended
  | .value a => ((appendBsonValue v d a).bits.length, true)
  | .decimal kind => if v = .V0 then (0, false) else (kind.typeBits, true)
  | .embedded fields => fieldBits v (fun _ => d) 0 fields
  | .codeWScope _ scope => fieldBits v (fun _ => d) 0 scope

def fieldBits (v : Version) (d : ℕ → Bool) (i : ℕ) : List (CString × KeyValue) → Appended
  | [] => (0, true)
  | (_, a) :: rest => (a.typeBits v (d i)).andThen (fieldBits v d (i + 1) rest)
end

theorem fieldBits_value (v : Version) (ord : KeyOrdering) (obj : BSONObj) (i : ℕ) :
    fieldBits v (fun i => ord.get i == -1) i (obj.map fun e => (e.1, .value e.2)) =
      ((elements v ord i obj).bits.length, true) := by
  induction obj generalizing i with
  | nil => simp [fieldBits, elements]
  | cons e rest ih => simp [fieldBits, KeyValue.typeBits, Appended.andThen, ih, elements]

theorem Appended.andThen_le (a b : Appended) : (a.andThen b).1 ≤ a.1 + b.1 := by
  unfold andThen
  split_ifs <;> simp

mutual
theorem KeyValue.typeBits_le (v : Version) (d : Bool) : ∀ a : KeyValue,
    (a.typeBits v d).1 ≤ a.size + 1 ∧ ((a.typeBits v d).1 ≤ a.size ∨ (a.typeBits v d).1 ≤ 17)
  | .value a => by
    have h := length_bits_value v d a
    exact ⟨h.trans (Nat.le_succ _), .inl h⟩
  | .decimal kind => by
    cases v <;> cases kind <;> simp [KeyValue.typeBits, KeyValue.size, DecimalKind.typeBits]
  | .embedded fields => by
    have h := fieldBits_le v (fun _ => d) fields 0
    simp only [KeyValue.typeBits, KeyValue.size]
    omega
  | .codeWScope c scope => by
    have h := fieldBits_le v (fun _ => d) scope 0
    simp only [KeyValue.typeBits, KeyValue.size]
    omega

theorem fieldBits_le (v : Version) (d : ℕ → Bool) : ∀ (key : List (CString × KeyValue)) (i : ℕ),
    (fieldBits v d i key).1 + 5 + key.length ≤ keySize key
  | [], i => by simp [fieldBits, keySize]
  | (name, a) :: rest, i => by
    have ha := (a.typeBits_le v (d i)).1
    have hrest := fieldBits_le v d rest (i + 1)
    have hboth := Appended.andThen_le (a.typeBits v (d i)) (fieldBits v d (i + 1) rest)
    simp only [fieldBits, keySize, length_cons]
    omega
end

/-- The size limit leaves room for the type bits, those of decimals included. -/
theorem fieldBits_fit (v : Version) (d : ℕ → Bool) {key : List (CString × KeyValue)}
    (h : keySize key < TempKeyMaxSize) : (fieldBits v d 0 key).1 ≤ 8 * kMaxBytesNeeded := by
  have hle := fieldBits_le v d key 0
  unfold TempKeyMaxSize at h
  unfold kMaxBytesNeeded
  match key with
  | [] => simp [fieldBits]
  | [(name, a)] =>
    -- a single field leaves less room, and only a decimal has more bits than bytes
    have hbits := (a.typeBits_le v (d 0)).2
    have hboth := Appended.andThen_le (a.typeBits v (d 0)) (fieldBits v d 1 [])
    simp only [keySize, fieldBits] at h hboth ⊢
    omega
  | _ :: _ :: _ =>
    simp only [length_cons] at hle
    omega

/-- The functions that build the key string of a key. -/
inductive KeyCaller where
  | insert | addKey | unindex | dupKeyCheck | seek

def KeyCaller.checksKeySize : KeyCaller → Bool
  | .insert | .addKey => true
  | .unindex | .dupKeyCheck | .seek => false

def KeyCaller.Reaches (caller : KeyCaller) (key : List (CString × KeyValue)) : Prop :=
  caller.checksKeySize = true → keySize key < TempKeyMaxSize

/-- The index into the buffer at which `appendBit` writes. -/
def appendBitByte (curBit : ℕ) : UInt8 := UInt8.ofNat (curBit / 8 + 1)

end Overrun

section Keys
variable (cfg : Config)

/-- The type bits that the key string of a key collects. -/
def keyTypeBits (key : IndexKey) : TypeBits :=
  reset.appendBits (elements cfg.keyStringVersion cfg.ordering 0 key.obj).bits

theorem wellFormed_keyTypeBits (key : IndexableKey) : (keyTypeBits cfg key.toIndexKey).WellFormed :=
  (packs_appendBits _).wellFormed (typeBits_fit cfg.keyStringVersion cfg.ordering key)

/-- Type bits as an index gives them back: the same bits, read from their start. -/
def storedTypeBits (key : IndexKey) : TypeBits := (keyTypeBits cfg key).reread

end Keys

section Dummy
variable {t : IndexTable}

theorem triggerWriteConflict_spec {k : ByteKey} (habsent : t.search k = none) :
    ∃ t', triggerWriteConflictAtPoint t k = some t' ∧ ∀ j, t'.search j = t.search j := by
  obtain ⟨t₁, hinsert⟩ := Table.exists_insert habsent []
  have hsearch := Table.search_of_insert hinsert
  obtain ⟨t₂, hremove⟩ := Table.exists_remove (show t₁.search k = some [] by simp [hsearch])
  refine ⟨t₂, by simp [triggerWriteConflictAtPoint, hinsert, hremove], fun j => ?_⟩
  rw [Table.search_of_remove hremove, hsearch]
  by_cases hj : j = k
  · simp [hj, habsent]
  · simp [hj]

end Dummy

end WiredTigerIndex
end MongoServer
