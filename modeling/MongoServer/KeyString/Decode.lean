import MongoServer.Bytes.Reading
import MongoServer.KeyString.Append

/-!
The reader of KeyString. A reader fails where the source fails an invariant or runs off
its buffer, and where only a NumberDecimal could have been written. Loops take fuel, and
`toBson` provides as much as there are bytes.
-/
namespace MongoServer.KeyString
open ByteOrder Binary64 CType

/-- The buffer not yet read, and the type bits with the position of their reader. -/
structure Reader where
  remaining : List UInt8
  typeBits : TypeBits
  curBit : ℕ

abbrev Read := StateT Reader Option

def fail {α : Type} : Read α := fun _ => none

def skip (len : ℕ) : Read (List UInt8) := fun r =>
  if len ≤ r.remaining.length then
    some (r.remaining.take len, { r with remaining := r.remaining.drop len })
  else none

def peek : Read UInt8 := fun r =>
  match r.remaining with
  | [] => none
  | b :: _ => some (b, r)

def readByte (inverted : Bool) : Read UInt8 := fun r =>
  match r.remaining with
  | [] => none
  | b :: rest => some (if inverted then ~~~b else b, { r with remaining := rest })

def readBytes (len : ℕ) (inverted : Bool) : Read (List UInt8) := do
  let bs ← skip len
  return flipIf inverted bs

def readBigEndian (len : ℕ) (inverted : Bool) : Read ℕ := do
  let bs ← readBytes len inverted
  return ofBE bs

def splitTerminator (terminator : UInt8) : List UInt8 → Option (List UInt8 × List UInt8)
  | [] => none
  | b :: bs =>
      if b = terminator then some ([], bs)
      else (splitTerminator terminator bs).map fun (pre, post) => (b :: pre, post)

def readCString (inverted : Bool) : Read (List UInt8) := fun r =>
  (splitTerminator (if inverted then 0xff else 0x00) r.remaining).map fun (pre, post) =>
    (flipIf inverted pre, { r with remaining := post })

/-- A name or a regular expression; no terminator is inside by construction. -/
def readName (inverted : Bool) : Read CString := do
  let bs ← readCString inverted
  if h : 0 ∉ bs then return ⟨bs, h⟩ else fail

/-- A terminator followed by its complement is an embedded NUL. -/
def readCStringWithNulsLoop (inverted : Bool) : ℕ → Read (List UInt8)
  | 0 => fail
  | fuel + 1 => do
      let part ← readCString inverted
      let next ← peek
      if next = (if inverted then 0x00 else 0xff) then do
        let _ ← skip 1
        let more ← readCStringWithNulsLoop inverted fuel
        return part ++ 0 :: more
      else return part

def readCStringWithNuls (inverted : Bool) : Read (List UInt8) := fun r =>
  readCStringWithNulsLoop inverted r.remaining.length r

def readBit : Read Bool := fun r =>
  if r.typeBits.isAllZeros then some (false, r)
  else (r.typeBits.bitAt? r.curBit).map fun bit => (bit, { r with curBit := r.curBit + 1 })

/-- The type bits of a number. -/
inductive OriginalType where
  | kInt
  | kLong
  | kDouble
  | kDecimal
  deriving DecidableEq

def OriginalType.ofBits : Bool → Bool → OriginalType
  | false, false => .kInt
  | false, true => .kLong
  | true, false => .kDouble
  | true, true => .kDecimal

def readNumeric : Read OriginalType := do
  let highBit ← readBit
  let lowBit ← readBit
  return .ofBits highBit lowBit

variable (version : Version)

/-- The zeros; in V1 the prefix `11` is followed by three more bits. -/
def readZero : Read Number := do
  let res ← readNumeric
  match res with
  | .kInt => return .numberInt 0
  | .kLong => return .numberLong 0
  | .kDouble => return .numberDouble (make false 0)
  | .kDecimal =>
      if version = .V0 then return .numberDouble (make true 0)
      else do
        let b₂ ← readBit
        let b₁ ← readBit
        let b₀ ← readBit
        if b₂ || b₁ || b₀ then fail else return .numberDouble (make true 0)

def kTinyDoubleExponentDownshiftFactor : BitVec 64 := pow2 (-256)
def kInvPow256 (i : ℕ) : BitVec 64 := pow2 (-8 * i)

def negateIf (isNegative : Bool) (d : BitVec 64) : BitVec 64 :=
  if isNegative then neg d else d

variable (isNegative inverted : Bool)

/-- Numbers of magnitude `2 ^ 63` or more; `inverted` already accounts for the sign. -/
def readLargeMagnitude : Read Number := do
  let originalType ← readNumeric
  if version = .V0 ∧ originalType = .kDecimal then fail
  else do
    let encoded ← readBigEndian 8 inverted
    let bin ← (if version = .V0 then pure (BitVec.ofNat 64 encoded)
      else if encoded < 2 ^ 63 then
        pure (negateIf isNegative (BitVec.ofNat 64 (encoded / 2 ||| 2 ^ 62)))
      else if encoded = 2 ^ 64 - 1 then pure (infinity isNegative)
      else fail : Read (BitVec 64))
    match originalType with
    | .kDouble => return .numberDouble bin
    | .kLong =>
        if beq bin (ofInt (-2 ^ 63)) then return .numberLong (BitVec.intMin 64)
        else fail
    | _ => fail

def readSmallMagnitude : Read Number := do
  let originalType ← readNumeric
  let encoded ← readBigEndian 8 inverted
  if originalType ≠ .kDouble then fail
  else if version = .V0 then return .numberDouble (BitVec.ofNat 64 encoded)
  else
    match encoded / 2 ^ 62 with
    | 0 => fail
    | 3 =>
        if encoded % 4 ≠ 0 then fail
        else return .numberDouble (negateIf isNegative (BitVec.ofNat 64 (encoded / 4)))
    | _ =>
        if encoded % 2 ≠ 0 then fail
        else
          let scaledBin := BitVec.ofNat 64 ((encoded - 2 ^ 62) / 2)
          let bin := mul scaledBin kTinyDoubleExponentDownshiftFactor
          return .numberDouble (negateIf isNegative bin)

def clearBit (n i : ℕ) : ℕ := if n.testBit i then n - 2 ^ i else n

/-- The bits of a V0 double from its integer part and its fraction bytes. -/
def foldFractionBytes (doubleBits : ℕ) : List UInt8 → ℕ
  | [] => doubleBits
  | byte :: rest => foldFractionBytes (doubleBits ||| byte.toNat * 2 ^ (rest.length * 8)) rest

/-- The fraction after an integer part: low mantissa bits in V0, a scaled integer in V1. -/
def readFraction (intBytes integerPart : ℕ) (originalType : OriginalType) : Read Number :=
  match version with
  | .V0 =>
      if originalType ≠ .kDouble then fail
      else do
        let exponent := 64 - countLeadingZeros64 integerPart - 1
        let fractionalBits := 52 - exponent
        let fractionalBytes := (fractionalBits + 7) / 8
        let doubleBits := clearBit (integerPart * 2 ^ fractionalBits % 2 ^ 64) 52
        let doubleBits := doubleBits ||| (exponent + 1023) * 2 ^ 52
        let doubleBits := if isNegative then doubleBits ||| 2 ^ 63 else doubleBits
        let bytes ← readBytes fractionalBytes inverted
        return .numberDouble (BitVec.ofNat 64 (foldFractionBytes doubleBits bytes))
  | .V1 => do
      let fracBytes := 8 - intBytes
      let bytes ← readBytes fracBytes inverted
      let encodedFraction := (integerPart * 256 ^ fracBytes + ofBE bytes) % 2 ^ 64
      let bin := mul (ofInt ((encodedFraction / 4 * 4 : ℕ) : ℤ)) (kInvPow256 fracBytes)
      if originalType = .kDouble then return .numberDouble (negateIf isNegative bin) else fail

/-- Numbers with an integer part of `intBytes` bytes. -/
def readIntegerPortion (intBytes : ℕ) :
    Read Number := do
  let originalType ← readNumeric
  let encodedIntegerPart ← readBigEndian intBytes inverted
  let integerPart := encodedIntegerPart / 2
  if encodedIntegerPart % 2 = 0 then
    let signed : ℤ := if isNegative then -(integerPart : ℤ) else integerPart
    match originalType with
    | .kDouble => return .numberDouble (ofInt signed)
    | .kInt => return .numberInt (BitVec.ofInt 32 signed)
    | .kLong => return .numberLong (BitVec.ofInt 64 signed)
    | .kDecimal => fail
  else readFraction version isNegative inverted intBytes integerPart originalType

def numBytesForInt (ctype : UInt8) : ℕ :=
  if ctype ≥ kNumericPositive1ByteInt then
    ctype.toNat - kNumericPositive1ByteInt.toNat + 1
  else kNumericNegative1ByteInt.toNat - ctype.toNat + 1

def toBsonNumber (ctype : UInt8) (inverted : Bool) : Read Number :=
  if ctype = kNumericNaN then do
    let type ← readNumeric
    if type = .kDouble then return .numberDouble canonicalNaN else fail
  else if ctype = kNumericZero then readZero version
  else if ctype = kNumericNegativeLargeMagnitude then
    readLargeMagnitude version true (!inverted)
  else if ctype = kNumericPositiveLargeMagnitude then
    readLargeMagnitude version false inverted
  else if ctype = kNumericNegativeSmallMagnitude then
    readSmallMagnitude version true (!inverted)
  else if ctype = kNumericPositiveSmallMagnitude then
    readSmallMagnitude version false inverted
  else if ctype ≤ kNumericNegative1ByteInt then
    readIntegerPortion version true (!inverted) (numBytesForInt ctype)
  else readIntegerPortion version false inverted (numBytesForInt ctype)

def readOID (inverted : Bool) : Read OID := do
  let bs ← readBytes 12 inverted
  if h : bs.length = 12 then return ⟨bs, h⟩ else fail

/-- One byte, or the escape byte and four more. -/
def readDataSize (inverted : Bool) : Read ℕ := do
  let sizeByte ← readByte inverted
  if sizeByte = 0xff then readBigEndian 4 inverted else return sizeByte.toNat

def readBinData (inverted : Bool) : Read BSONBinData := do
  let size ← readDataSize inverted
  let subType ← readByte inverted
  let data ← readBytes size inverted
  if h : data.length + 5 < 2 ^ 31 then return ⟨subType, data, h⟩ else fail

def readDBRef (inverted : Bool) : Read BSONDBRef := do
  let size ← readBigEndian 4 inverted
  let ns ← readBytes size inverted
  let oid ← readOID inverted
  if h : 0 ∉ ns ∧ ns.length + 17 < 2 ^ 31 then return ⟨⟨ns, h.1⟩, oid, h.2⟩ else fail

def readStringLike (inverted : Bool) : Read BSONValue := do
  let isSymbol ← readBit
  let s ← readCStringWithNuls inverted
  return if isSymbol then .symbol s else .string s

section
variable (version : Version) (inverted : Bool)

mutual
def toBsonValue : ℕ → UInt8 → Read BSONValue
  | 0, _ => fail
  | fuel + 1, ctype =>
      if ctype = kMinKey then return .minKey
      else if ctype = kMaxKey then return .maxKey
      else if ctype = kNullish then return .jstNULL
      else if ctype = kUndefined then return .undefined
      else if ctype = kBoolTrue then return .bool true
      else if ctype = kBoolFalse then return .bool false
      else if ctype = kDate then do
        let encoded ← readBigEndian 8 inverted
        return .date (BitVec.ofNat 64 encoded ^^^ (1#64 <<< 63))
      else if ctype = kTimestamp then do
        let encoded ← readBigEndian 8 inverted
        return .bsonTimestamp (BitVec.ofNat 64 encoded)
      else if ctype = kOID then do
        let oid ← readOID inverted
        return .jstOID oid
      else if ctype = kStringLike then readStringLike inverted
      else if ctype = kCode then do
        let code ← readCStringWithNuls inverted
        return .code code
      else if ctype = kCodeWithScope then do
        let code ← readCStringWithNuls inverted
        let scope ← toBsonFields fuel
        return .codeWScope code scope
      else if ctype = kBinData then do
        let data ← readBinData inverted
        return .binData data
      else if ctype = kRegEx then do
        let pattern ← readName inverted
        let flags ← readName inverted
        return .regEx pattern flags
      else if ctype = kDBRef then do
        let ref ← readDBRef inverted
        return .dbRef ref
      else if ctype = kObject then do
        let fields ← toBsonFields fuel
        return .object fields
      else if ctype = kArray then do
        let elems ← toBsonArray fuel
        return .array elems
      else if kNumericNaN ≤ ctype ∧ ctype ≤ kNumericPositiveLargeMagnitude then do
        let number ← toBsonNumber version ctype inverted
        return .number number
      else fail

/-- The loop of the nested `toBson`. The generic type before a name is only a marker. -/
def toBsonFields : ℕ → Read BSONObj
  | 0 => fail
  | fuel + 1 => do
      let marker ← readByte inverted
      if marker = 0 then return []
      else do
        let name ← readName inverted
        let ctype ← readByte inverted
        let value ← toBsonValue fuel ctype
        let rest ← toBsonFields fuel
        return (name, value) :: rest

def toBsonArray : ℕ → Read (List BSONValue)
  | 0 => fail
  | fuel + 1 => do
      let elemType ← readByte inverted
      if elemType = 0 then return []
      else do
        let value ← toBsonValue fuel elemType
        let rest ← toBsonArray fuel
        return value :: rest
end

end

/-- The loop of `KeyString::toBson` from position `i`. -/
def toBsonElements (ord : KeyOrdering) : ℕ → ℕ → Read BSONObj
  | 0, _ => fail
  | fuel + 1, i => fun r =>
      if r.remaining.isEmpty then some ([], r)
      else
        let invert := ord.get i == -1
        let body : Read BSONObj := do
          let first ← readByte invert
          let ctype ← (if first = kLess ∨ first = kGreater then readByte invert else pure first :
            Read UInt8)
          if ctype = kEnd then return []
          else do
            let value ← toBsonValue version invert fuel ctype
            let rest ← toBsonElements ord fuel (i + 1)
            return (CString.empty, value) :: rest
        body r

def toBson (buffer : List UInt8) (ord : KeyOrdering) (typeBits : TypeBits) : Option BSONObj :=
  (toBsonElements version ord (buffer.length + 1) 0 ⟨buffer, typeBits, 0⟩).map Prod.fst

end MongoServer.KeyString
