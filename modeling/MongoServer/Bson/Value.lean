import MongoServer.Bytes.BigEndian

/-!
BSON values as trees. Strings are byte strings, so embedded NULs are ordinary
content where the format allows them; names and regular expressions are C strings.
NumberDecimal and the end-of-object marker are not values here.
-/
namespace MongoServer

/-- A byte string without NUL, as stored with a NUL terminator. -/
structure CString where
  bytes : List UInt8
  noNul : 0 ∉ bytes
  deriving DecidableEq

def CString.empty : CString := ⟨[], by simp⟩

theorem CString.nul_notMem_a : 0 ∉ [(0x61 : UInt8)] := by decide

theorem CString.nul_notMem_b : 0 ∉ [(0x62 : UInt8)] := by decide

theorem CString.ext {a b : CString} (h : a.bytes = b.bytes) : a = b := by
  cases a
  cases b
  simpa using h

/-- Twelve opaque bytes. -/
structure OID where
  bytes : List UInt8
  length_eq : bytes.length = 12
  deriving DecidableEq

theorem OID.length_sevens : (List.replicate 12 (7 : UInt8)).length = 12 := rfl

theorem OID.ext {a b : OID} (h : a.bytes = b.bytes) : a = b := by
  cases a
  cases b
  simpa using h

/-- A length, a subtype byte and the data; the value size is a signed 32-bit number. -/
structure BSONBinData where
  type : UInt8
  data : List UInt8
  size_lt : data.length + 5 < 2 ^ 31
  deriving DecidableEq

/-- A namespace and an object id; the value size is a signed 32-bit number. -/
structure BSONDBRef where
  ns : CString
  oid : OID
  size_lt : ns.bytes.length + 17 < 2 ^ 31
  deriving DecidableEq

/-- Numbers by their stored type: two's complement integers and binary64 patterns. -/
inductive Number where
  | numberInt (n : BitVec 32)
  | numberLong (n : BitVec 64)
  | numberDouble (bits : BitVec 64)
  deriving DecidableEq

inductive BSONValue where
  | minKey
  | undefined
  | jstNULL
  | number (n : Number)
  | string (s : List UInt8)
  | symbol (s : List UInt8)
  | object (fields : List (CString × BSONValue))
  | array (elems : List BSONValue)
  | binData (b : BSONBinData)
  | jstOID (o : OID)
  | bool (b : Bool)
  | date (millis : BitVec 64)
  | bsonTimestamp (t : BitVec 64)
  | regEx (pattern flags : CString)
  | dbRef (r : BSONDBRef)
  | code (c : List UInt8)
  | codeWScope (c : List UInt8) (scope : List (CString × BSONValue))
  | maxKey

abbrev BSONObj := List (CString × BSONValue)

/-- The types that compare as one. -/
def canonicalizeBSONType : BSONValue → ℤ
  | .minKey => -1
  | .undefined => 0
  | .jstNULL => 5
  | .number _ => 10
  | .string _ | .symbol _ => 15
  | .object _ => 20
  | .array _ => 25
  | .binData _ => 30
  | .jstOID _ => 35
  | .bool _ => 40
  | .date _ => 45
  | .bsonTimestamp _ => 47
  | .regEx _ _ => 50
  | .dbRef _ => 55
  | .code _ => 60
  | .codeWScope _ _ => 65
  | .maxKey => 127

def BSONValue.isNumber : BSONValue → Bool
  | .number _ => true
  | _ => false

mutual
def BSONValue.valuesize : BSONValue → ℕ
  | .minKey | .undefined | .jstNULL | .maxKey => 0
  | .number (.numberInt _) => 4
  | .number (.numberLong _) | .number (.numberDouble _) => 8
  | .string s | .symbol s | .code s => 4 + s.length + 1
  | .object fields => fieldsSize fields + 5
  | .array elems => elementsSize 0 elems + 5
  | .binData b => 5 + b.data.length
  | .jstOID _ => 12
  | .bool _ => 1
  | .date _ | .bsonTimestamp _ => 8
  | .regEx pattern flags => pattern.bytes.length + 1 + flags.bytes.length + 1
  | .dbRef r => 4 + r.ns.bytes.length + 1 + 12
  | .codeWScope c scope => 4 + (4 + c.length + 1) + (fieldsSize scope + 5)

def fieldsSize : List (CString × BSONValue) → ℕ
  | [] => 0
  | (name, v) :: rest => 1 + name.bytes.length + 1 + v.valuesize + fieldsSize rest

/-- The elements of an array are named by their positions. -/
def elementsSize (i : ℕ) : List BSONValue → ℕ
  | [] => 0
  | v :: rest => 1 + (Nat.repr i).length + 1 + v.valuesize + elementsSize (i + 1) rest
end

def BSONObj.objsize (obj : BSONObj) : ℕ := fieldsSize obj + 5

/-- Sort directions of an index's key pattern, one bit a field, set for descending. -/
structure KeyOrdering where
  bits : BitVec 32
  deriving DecidableEq

/-- The direction of field `i`; a shift past the mask's width leaves no bit. -/
def KeyOrdering.get (o : KeyOrdering) (i : ℕ) : ℤ :=
  if (1#32 <<< i) &&& o.bits ≠ 0 then -1 else 1

/-- A key as stored in an index: a document whose field names are all empty. -/
structure IndexKey where
  obj : BSONObj
  unnamed : ∀ e ∈ obj, e.1 = CString.empty

def IndexKey.ofValues (vs : List BSONValue) : IndexKey where
  obj := vs.map fun v => (CString.empty, v)
  unnamed := by
    intro e he
    obtain ⟨v, _, rfl⟩ := List.mem_map.mp he
    rfl

end MongoServer
