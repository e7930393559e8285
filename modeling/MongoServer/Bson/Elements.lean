import Mathlib.Tactic.SplitIfs
import MongoServer.Bson.Value

/-!
Access to the elements of documents: fields by name, and arrays seen as documents whose field names
are the positions.
-/
namespace MongoServer

def ascii (s : String) : List UInt8 := s.toList.map fun c => c.toNat.toUInt8

def printed (bytes : List UInt8) : String := String.ofList (bytes.map fun b => Char.ofNat b.toNat)

def positionName (i : ℕ) : List UInt8 := (Nat.toDigits 10 i).map fun c => c.toNat.toUInt8

/-- Only digits; this holds of the empty name as well. -/
def isAllDigits (str : List UInt8) : Bool := str.all fun c => 0x30 ≤ c && c ≤ 0x39

theorem isAllDigits_positionName (i : ℕ) : isAllDigits (positionName i) = true := by
  simp only [isAllDigits, positionName, List.all_map, List.all_eq_true, Function.comp]
  intro c hc
  have hdigit := Nat.isDigit_of_mem_toDigits (by decide) (by decide) hc
  rw [Char.isDigit_iff_toNat] at hdigit
  have hlow : 48 ≤ c.toNat := hdigit.1
  have hhigh : c.toNat ≤ 57 := hdigit.2
  rw [Bool.and_eq_true, decide_eq_true_iff, decide_eq_true_iff, UInt8.le_iff_toNat_le,
    UInt8.le_iff_toNat_le]
  simp only [UInt8.reduceToNat, Nat.toUInt8, UInt8.toNat_ofNat']
  omega

theorem nul_notMem_positionName (i : ℕ) : 0 ∉ positionName i := by
  intro hmem
  have hdigits := List.all_eq_true.mp (isAllDigits_positionName i) 0 hmem
  simp at hdigits

/-- A path whose parts are names and not numbers. -/
def NonNumeric (path : List (List UInt8)) : Prop := ∀ part ∈ path, isAllDigits part = false

theorem NonNumeric.of_append {pre rest : List (List UInt8)} (h : NonNumeric (pre ++ rest)) :
    NonNumeric rest := fun part hpart => h part (List.mem_append_right _ hpart)

namespace BSONObj

def getField (obj : BSONObj) (name : List UInt8) : Option BSONValue :=
  (obj.find? fun e => e.1.bytes = name).map Prod.snd

@[simp] theorem getField_nil (name : List UInt8) : getField [] name = none := rfl

theorem getField_cons (e : CString × BSONValue) (obj : BSONObj) (name : List UInt8) :
    getField (e :: obj) name = if e.1.bytes = name then some e.2 else getField obj name := by
  unfold getField
  rw [List.find?_cons]
  split_ifs with h
  · simp [h]
  · simp [h]

def ofArray (elems : List BSONValue) : BSONObj :=
  elems.zipIdx.map fun e => (⟨positionName e.2, nul_notMem_positionName e.2⟩, e.1)

end BSONObj

namespace BSONValue

def embeddedObject? : BSONValue → Option BSONObj
  | .object fields => some fields
  | .array elems => some (BSONObj.ofArray elems)
  | _ => none

def object? : BSONValue → Option BSONObj
  | .object fields => some fields
  | _ => none

def type : BSONValue → ℤ
  | .minKey => -1
  | .number (.numberDouble _) => 1
  | .string _ => 2
  | .object _ => 3
  | .array _ => 4
  | .binData _ => 5
  | .undefined => 6
  | .jstOID _ => 7
  | .bool _ => 8
  | .date _ => 9
  | .jstNULL => 10
  | .regEx _ _ => 11
  | .dbRef _ => 12
  | .code _ => 13
  | .symbol _ => 14
  | .codeWScope _ _ => 15
  | .number (.numberInt _) => 16
  | .bsonTimestamp _ => 17
  | .number (.numberLong _) => 18
  | .maxKey => 127

end BSONValue
end MongoServer
