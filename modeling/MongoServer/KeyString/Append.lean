import MongoServer.Bson.Compare
import MongoServer.KeyString.TypeBits

/-!
The writer of KeyString. Every `append` function of the source becomes a function
returning what it writes: the bytes added to the buffer and the bits added to the
type bits. Doubles are written as by `_appendDoubleWithoutTypeBits` with the marker
`kDCMEqualToDouble`, the only one that occurs without decimals.
-/
namespace MongoServer.KeyString
open ByteOrder Binary64 TypeBits

namespace CType
def kMinKey : UInt8 := 10
def kUndefined : UInt8 := 15
def kNullish : UInt8 := 20
def kNumeric : UInt8 := 30
def kStringLike : UInt8 := 60
def kObject : UInt8 := 70
def kArray : UInt8 := 80
def kBinData : UInt8 := 90
def kOID : UInt8 := 100
def kBool : UInt8 := 110
def kDate : UInt8 := 120
def kTimestamp : UInt8 := 130
def kRegEx : UInt8 := 140
def kDBRef : UInt8 := 150
def kCode : UInt8 := 160
def kCodeWithScope : UInt8 := 170
def kMaxKey : UInt8 := 240
def kNumericNaN : UInt8 := kNumeric + 0
def kNumericNegativeLargeMagnitude : UInt8 := kNumeric + 1
def kNumericNegative8ByteInt : UInt8 := kNumeric + 2
def kNumericNegative1ByteInt : UInt8 := kNumeric + 9
def kNumericNegativeSmallMagnitude : UInt8 := kNumeric + 10
def kNumericZero : UInt8 := kNumeric + 11
def kNumericPositiveSmallMagnitude : UInt8 := kNumeric + 12
def kNumericPositive1ByteInt : UInt8 := kNumeric + 13
def kNumericPositive8ByteInt : UInt8 := kNumeric + 20
def kNumericPositiveLargeMagnitude : UInt8 := kNumeric + 21
def kBoolFalse : UInt8 := kBool + 0
def kBoolTrue : UInt8 := kBool + 1
end CType

open CType

def bsonTypeToGenericKeyStringType : BSONValue → UInt8
  | .minKey => kMinKey
  | .jstNULL => kNullish
  | .undefined => kUndefined
  | .number _ => kNumeric
  | .string _ | .symbol _ => kStringLike
  | .object _ => kObject
  | .array _ => kArray
  | .binData _ => kBinData
  | .jstOID _ => kOID
  | .bool _ => kBool
  | .date _ => kDate
  | .bsonTimestamp _ => kTimestamp
  | .regEx _ _ => kRegEx
  | .dbRef _ => kDBRef
  | .code _ => kCode
  | .codeWScope _ _ => kCodeWithScope
  | .maxKey => kMaxKey

def kEnd : UInt8 := 4
def kLess : UInt8 := 1
def kGreater : UInt8 := 254

/-- What one call appends: bytes of the buffer and bits of the type bits. -/
structure Piece where
  bytes : List UInt8
  bits : List Bool

instance : Append Piece := ⟨fun p q => ⟨p.bytes ++ q.bytes, p.bits ++ q.bits⟩⟩

@[simp] theorem bytes_append (p q : Piece) : (p ++ q).bytes = p.bytes ++ q.bytes := rfl
@[simp] theorem bits_append (p q : Piece) : (p ++ q).bits = p.bits ++ q.bits := rfl

def appendBytes (bs : List UInt8) (invert : Bool) : Piece := ⟨flipIf invert bs, []⟩
def appendByte (b : UInt8) (invert : Bool) : Piece := appendBytes [b] invert
def appendTypeBits (bits : List Bool) : Piece := ⟨[], bits⟩

@[simp] theorem appendBytes_bytes (bs : List UInt8) (d : Bool) :
    (appendBytes bs d).bytes = flipIf d bs := rfl
@[simp] theorem appendBytes_bits (bs : List UInt8) (d : Bool) : (appendBytes bs d).bits = [] := rfl
@[simp] theorem appendByte_bytes (b : UInt8) (d : Bool) :
    (appendByte b d).bytes = flipIf d [b] := rfl
@[simp] theorem appendByte_bits (b : UInt8) (d : Bool) : (appendByte b d).bits = [] := rfl
@[simp] theorem appendTypeBits_bytes (bits : List Bool) : (appendTypeBits bits).bytes = [] := rfl
@[simp] theorem appendTypeBits_bits (bits : List Bool) : (appendTypeBits bits).bits = bits := rfl

def countLeadingZeros64 (v : ℕ) : ℕ := if v = 0 then 64 else 63 - Nat.log2 v

/-- A nonzero 64-bit value, already shifted left by one, in as few bytes as possible. -/
def appendPreshiftedIntegerPortion (value : ℕ) (isNegative invert : Bool) : Piece :=
  let bytesNeeded := (64 - countLeadingZeros64 value + 7) / 8
  if isNegative then
    appendByte (kNumericNegative1ByteInt - UInt8.ofNat (bytesNeeded - 1)) invert ++
      appendBytes (beBytes bytesNeeded value) (!invert)
  else
    appendByte (kNumericPositive1ByteInt + UInt8.ofNat (bytesNeeded - 1)) invert ++
      appendBytes (beBytes bytesNeeded value) invert

def kTiniestDoubleWith2BitDCM : BitVec 64 := pow2 (-255)
def kTinyDoubleExponentUpshiftFactor : BitVec 64 := pow2 256
def kMinLargeDouble : BitVec 64 := ofInt (2 ^ 63)
def kPow256 (i : ℕ) : BitVec 64 := ofInt (256 ^ i)

def appendSmallDouble (version : Version) (value : BitVec 64) (invert : Bool) : Piece :=
  let isNegative := lt value 0
  let magnitude := if isNegative then neg value else value
  let ctype := if isNegative then kNumericNegativeSmallMagnitude
    else kNumericPositiveSmallMagnitude
  let encoded :=
    if version = .V0 then value.toNat
    else if le kTiniestDoubleWith2BitDCM magnitude then magnitude.toNat * 4 % 2 ^ 64
    else ((mul magnitude kTinyDoubleExponentUpshiftFactor).toNat * 2 % 2 ^ 64 + 2 ^ 62) % 2 ^ 64
  appendByte ctype invert ++
    appendBytes (beBytes 8 encoded) (if isNegative then !invert else invert)

def appendLargeDouble (version : Version) (value : BitVec 64) (invert : Bool) : Piece :=
  let positive := lt 0 value
  let ctype := if positive then kNumericPositiveLargeMagnitude
    else kNumericNegativeLargeMagnitude
  let encoded :=
    if version = .V0 then value.toNat
    else if isFinite value then value.toNat * 2 % 2 ^ 64 % 2 ^ 63
    else 2 ^ 64 - 1
  appendByte ctype invert ++ appendBytes (beBytes 8 encoded) (if positive then invert else !invert)

/-- A double of magnitude from one up to `2 ^ 63` with a fractional part. -/
def appendFractionalDouble (version : Version) (num : BitVec 64) (isNegative invert : Bool) :
    Piece :=
  let magnitude := if isNegative then neg num else num
  let integerPart := truncMag magnitude
  let payloadInvert := if isNegative then !invert else invert
  match version with
  | .V0 =>
      let fractionalBits := 53 - (64 - countLeadingZeros64 integerPart)
      let fractionalBytes := (fractionalBits + 7) / 8
      appendPreshiftedIntegerPortion (integerPart * 2 % 2 ^ 64 + 1) isNegative invert ++
        appendBytes (beBytes fractionalBytes (num.toNat % 2 ^ fractionalBits)) payloadInvert
  | .V1 =>
      let fractionalBytes := countLeadingZeros64 (integerPart * 2 % 2 ^ 64) / 8
      let ctype := if isNegative then kNumericNegative8ByteInt + UInt8.ofNat fractionalBytes
        else kNumericPositive8ByteInt - UInt8.ofNat fractionalBytes
      let scaled := truncMag (mul magnitude (kPow256 fractionalBytes))
      let encoding := (scaled + (integerPart + 1) * 2 ^ (fractionalBytes * 8) % 2 ^ 64) % 2 ^ 64
      appendByte ctype invert ++ appendBytes (beBytes 8 encoding) payloadInvert

def appendDoubleWithoutTypeBits (version : Version) (num : BitVec 64) (invert : Bool) : Piece :=
  let isNegative := lt num 0
  let magnitude := if isNegative then neg num else num
  if !le (ofInt 1) magnitude then
    if lt 0 magnitude then appendSmallDouble version num invert
    else if beq num 0 then appendByte kNumericZero invert
    else appendByte kNumericNaN invert
  else if lt magnitude kMinLargeDouble then
    let integerPart := truncMag magnitude
    if beq (ofInt integerPart) magnitude then
      appendPreshiftedIntegerPortion (integerPart * 2 % 2 ^ 64) isNegative invert
    else appendFractionalDouble version num isNegative invert
  else appendLargeDouble version num invert

def appendNumberDouble (version : Version) (num : BitVec 64) (invert : Bool) : Piece :=
  (if beq num 0 && signBit num then
      appendTypeBits (negativeDoubleZeroBits version)
    else appendTypeBits numberDoubleBits) ++
    appendDoubleWithoutTypeBits version num invert

def appendInteger (version : Version) (num : ℤ) (invert : Bool) : Piece :=
  if num = -2 ^ 63 then appendLargeDouble version (ofInt num) invert
  else if num = 0 then appendByte kNumericZero invert
  else
    let isNegative := decide (num < 0)
    let magnitude := num.natAbs
    appendPreshiftedIntegerPortion (magnitude * 2 % 2 ^ 64) isNegative invert

def appendNumber (version : Version) (invert : Bool) : Number → Piece
  | .numberInt n => appendTypeBits numberIntBits ++ appendInteger version n.toInt invert
  | .numberLong n => appendTypeBits numberLongBits ++ appendInteger version n.toInt invert
  | .numberDouble d => appendNumberDouble version d invert

/-- A NUL inside the string becomes the pair `00 FF`; the terminator is a single NUL. -/
def escapeNuls : List UInt8 → List UInt8
  | [] => [0]
  | b :: bs => if b = 0 then 0 :: 0xff :: escapeNuls bs else b :: escapeNuls bs

def appendStringLike (str : List UInt8) (invert : Bool) : Piece :=
  appendBytes (escapeNuls str) invert

def appendBool (val invert : Bool) : Piece :=
  appendByte (if val then kBoolTrue else kBoolFalse) invert

def appendDate (val : BitVec 64) (invert : Bool) : Piece :=
  appendByte kDate invert ++ appendBytes (beBytes 8 (val ^^^ (1#64 <<< 63)).toNat) invert

def appendTimestamp (val : BitVec 64) (invert : Bool) : Piece :=
  appendByte kTimestamp invert ++ appendBytes (beBytes 8 val.toNat) invert

def appendOID (val : OID) (invert : Bool) : Piece :=
  appendByte kOID invert ++ appendBytes val.bytes invert

def appendString (val : List UInt8) (invert : Bool) : Piece :=
  appendTypeBits stringBits ++ appendByte kStringLike invert ++ appendStringLike val invert

def appendSymbol (val : List UInt8) (invert : Bool) : Piece :=
  appendTypeBits symbolBits ++ appendByte kStringLike invert ++ appendStringLike val invert

def appendCode (val : List UInt8) (invert : Bool) : Piece :=
  appendByte kCode invert ++ appendStringLike val invert

def appendBinData (val : BSONBinData) (invert : Bool) : Piece :=
  appendByte kBinData invert ++
    (if val.data.length < 0xff then appendByte (UInt8.ofNat val.data.length) invert
      else appendByte 0xff invert ++ appendBytes (beBytes 4 val.data.length) invert) ++
    appendByte val.type invert ++ appendBytes val.data invert

def appendRegex (pattern flags : CString) (invert : Bool) : Piece :=
  appendByte kRegEx invert ++ appendBytes pattern.bytes invert ++ appendByte 0 invert ++
    appendBytes flags.bytes invert ++ appendByte 0 invert

def appendDBRef (val : BSONDBRef) (invert : Bool) : Piece :=
  appendByte kDBRef invert ++ appendBytes (beBytes 4 val.ns.bytes.length) invert ++
    appendBytes val.ns.bytes invert ++ appendBytes val.oid.bytes invert

section
variable (version : Version) (invert : Bool)

mutual
/-- `_appendBsonValue` without a name. -/
def appendBsonValue : BSONValue → Piece
  | .number n => appendNumber version invert n
  | .string s => appendString s invert
  | .symbol s => appendSymbol s invert
  | .object fields => appendByte kObject invert ++ appendBson fields
  | .array elems => appendByte kArray invert ++ appendArray elems
  | .binData b => appendBinData b invert
  | .jstOID o => appendOID o invert
  | .bool b => appendBool b invert
  | .date d => appendDate d invert
  | .bsonTimestamp t => appendTimestamp t invert
  | .regEx p f => appendRegex p f invert
  | .dbRef r => appendDBRef r invert
  | .code c => appendCode c invert
  | .codeWScope c scope =>
      appendByte kCodeWithScope invert ++ appendStringLike c invert ++ appendBson scope
  | .minKey => appendByte kMinKey invert
  | .undefined => appendByte kUndefined invert
  | .jstNULL => appendByte kNullish invert
  | .maxKey => appendByte kMaxKey invert

/-- The fields of a document, each as generic type, name and value, and a terminator. -/
def appendBson : BSONObj → Piece
  | [] => appendByte 0 invert
  | (name, v) :: rest =>
      appendByte (bsonTypeToGenericKeyStringType v) invert ++
        appendBytes (name.bytes ++ [0]) invert ++ appendBsonValue v ++ appendBson rest

/-- The elements of an array without their names, and a terminator. -/
def appendArray : List BSONValue → Piece
  | [] => appendByte 0 invert
  | v :: rest => appendBsonValue v ++ appendArray rest
end

end

inductive Discriminator where
  | kInclusive
  | kExclusiveBefore
  | kExclusiveAfter
  deriving DecidableEq

def appendDiscriminator : Discriminator → Piece
  | .kExclusiveBefore => appendByte kLess false
  | .kExclusiveAfter => appendByte kGreater false
  | .kInclusive => appendBytes [] false

/-- The discriminator after an element: a name `l` or `g` on the last element overrides it. -/
def discriminatorAfter (name : CString) (last : Bool) (d : Discriminator) : Option Discriminator :=
  match name.bytes with
  | [] => some d
  | ch :: _ =>
      if !last then none
      else if ch = 'l'.toUInt8 then some .kExclusiveBefore
      else if ch = 'g'.toUInt8 then some .kExclusiveAfter
      else none

/-- The element loop from position `i`; `none` is a failed invariant. -/
def appendElementsFrom (version : Version) (ord : KeyOrdering) :
    ℕ → BSONObj → Discriminator → Option (Piece × Discriminator)
  | _, [], d => some (appendBytes [] false, d)
  | i, (name, v) :: rest, d => do
      let d' ← discriminatorAfter name rest.isEmpty d
      let (tail, d'') ← appendElementsFrom version ord (i + 1) rest d'
      return (appendBsonValue version (ord.get i == -1) v ++ tail, d'')

def appendAllElementsForIndexing (version : Version) (obj : BSONObj) (ord : KeyOrdering)
    (discriminator : Discriminator) : Option Piece := do
  let (elems, d) ← appendElementsFrom version ord 0 obj discriminator
  return elems ++ appendDiscriminator d ++ appendByte kEnd false

def keyStringCompare (a b : List UInt8) : ℤ :=
  let cmp := memcmp a b (min a.length b.length)
  if cmp ≠ 0 then (if cmp < 0 then -1 else 1)
  else if a.length = b.length then 0
  else if a.length < b.length then -1 else 1

end MongoServer.KeyString
