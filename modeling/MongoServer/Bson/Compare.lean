import MongoServer.Bson.Value
import MongoServer.Bytes.Binary64

/-!
The comparison of BSON values. Results are integers of which only the sign is used;
`memcmp` and `strcmp` report minus one, zero or one.
-/
namespace MongoServer
open ByteOrder Binary64 List

variable (l r : List UInt8)

def memcmp (n : ℕ) : ℤ := toSign (compare (l.take n) (r.take n))

def strcmp (l r : CString) : ℤ := toSign (compare l.bytes r.bytes)

def compareInts (lhs rhs : ℤ) : ℤ := if lhs = rhs then 0 else if lhs < rhs then -1 else 1

def compareLongs (lhs rhs : ℤ) : ℤ := if lhs = rhs then 0 else if lhs < rhs then -1 else 1

def compareDoubles (lhs rhs : BitVec 64) : ℤ :=
  if beq lhs rhs then 0
  else if lt lhs rhs then -1
  else if lt rhs lhs then 1
  else if isNaN lhs then (if isNaN rhs then 0 else -1)
  else 1

def kEndOfPreciseDoubles : ℤ := 2 ^ 53

/-- `2 ^ 63` as a double. -/
def kBoundOfLongRange : BitVec 64 := ofInt (2 ^ 63)

def compareLongToDouble (lhs : ℤ) (rhs : BitVec 64) : ℤ :=
  if isNaN rhs then 1
  else if lhs ≤ kEndOfPreciseDoubles ∧ lhs ≥ -kEndOfPreciseDoubles then
    compareDoubles (ofInt lhs) rhs
  else if le kBoundOfLongRange rhs then -1
  else if lt rhs (neg kBoundOfLongRange) then 1
  else compareLongs lhs (trunc rhs)

def compareDoubleToLong (lhs : BitVec 64) (rhs : ℤ) : ℤ := -compareLongToDouble rhs lhs

def compareNumbers : Number → Number → ℤ
  | .numberInt l, .numberInt r => compareInts l.toInt r.toInt
  | .numberInt l, .numberLong r => compareLongs l.toInt r.toInt
  | .numberInt l, .numberDouble r => compareDoubles (ofInt l.toInt) r
  | .numberLong l, .numberLong r => compareLongs l.toInt r.toInt
  | .numberLong l, .numberInt r => compareLongs l.toInt r.toInt
  | .numberLong l, .numberDouble r => compareLongToDouble l.toInt r
  | .numberDouble l, .numberDouble r => compareDoubles l r
  | .numberDouble l, .numberInt r => compareDoubles l (ofInt r.toInt)
  | .numberDouble l, .numberLong r => compareDoubleToLong l r.toInt

/-- Both sizes count a terminating NUL, which is part of what `memcmp` reads. -/
def compareElementStringValues : ℤ :=
  let lsz := l.length + 1
  let rsz := r.length + 1
  let res := memcmp (l ++ [0]) (r ++ [0]) (min lsz rsz)
  if res ≠ 0 then res else (lsz : ℤ) - rsz

def compareStringData : ℤ :=
  let res := memcmp l r (min l.length r.length)
  if res ≠ 0 then res
  else if l.length = r.length then 0
  else if l.length > r.length then 1 else -1

/-- `BSONElement::woCompare` from the result of comparing the two values. -/
def elementOrder (considerFieldName : Bool) (l r : CString × BSONValue) (values : ℤ) : ℤ :=
  let x := canonicalizeBSONType l.2 - canonicalizeBSONType r.2
  if x ≠ 0 ∧ (!l.2.isNumber || !r.2.isNumber) then x
  else
    let x := if considerFieldName then strcmp l.1 r.1 else 0
    if x ≠ 0 then x else values

mutual
/-- Values of one canonical type. The last case serves the types without content. -/
def compareElementValues : BSONValue → BSONValue → ℤ
  | .bool l, .bool r => (l.toNat : ℤ) - r.toNat
  | .bsonTimestamp l, .bsonTimestamp r => if l < r then -1 else if l = r then 0 else 1
  | .date l, .date r => if l.toInt < r.toInt then -1 else if l = r then 0 else 1
  | .number l, .number r => compareNumbers l r
  | .jstOID l, .jstOID r => memcmp l.bytes r.bytes 12
  | .code l, .code r => compareElementStringValues l r
  | .string l, .string r => compareElementStringValues l r
  | .string l, .symbol r => compareElementStringValues l r
  | .symbol l, .string r => compareElementStringValues l r
  | .symbol l, .symbol r => compareElementStringValues l r
  | .object l, .object r => woCompareNested l r
  | .array l, .array r => woCompareArrays l r
  | .dbRef l, .dbRef r =>
      let lsz := l.ns.bytes.length + 17
      let rsz := r.ns.bytes.length + 17
      if (lsz : ℤ) - rsz ≠ 0 then (lsz : ℤ) - rsz
      else memcmp (l.ns.bytes ++ 0 :: l.oid.bytes) (r.ns.bytes ++ 0 :: r.oid.bytes) lsz
  | .binData l, .binData r =>
      let lsz := l.data.length
      let rsz := r.data.length
      if (lsz : ℤ) - rsz ≠ 0 then (lsz : ℤ) - rsz
      else memcmp (l.type :: l.data) (r.type :: r.data) (lsz + 1)
  | .regEx lp lf, .regEx rp rf =>
      let c := strcmp lp rp
      if c ≠ 0 then c else strcmp lf rf
  | .codeWScope lc ls, .codeWScope rc rs =>
      let cmp := compareStringData lc rc
      if cmp ≠ 0 then cmp else woCompareNested ls rs
  | l, r => (canonicalizeBSONType l - canonicalizeBSONType r).sign

/-- `BSONObj::woCompare` without an ordering and with field names. -/
def woCompareNested : BSONObj → BSONObj → ℤ
  | [], [] => 0
  | [], _ :: _ => -1
  | _ :: _, [] => 1
  | (ln, lv) :: ls, (rn, rv) :: rs =>
      let x := elementOrder true (ln, lv) (rn, rv) (compareElementValues lv rv)
      if x ≠ 0 then x else woCompareNested ls rs

/-- The same loop over arrays, whose names are the positions and so agree at each step. -/
def woCompareArrays : List BSONValue → List BSONValue → ℤ
  | [], [] => 0
  | [], _ :: _ => -1
  | _ :: _, [] => 1
  | lv :: ls, rv :: rs =>
      let x := elementOrder false (CString.empty, lv) (CString.empty, rv)
        (compareElementValues lv rv)
      if x ≠ 0 then x else woCompareArrays ls rs
end

def woCompareElement (considerFieldName : Bool) (l r : CString × BSONValue) : ℤ :=
  elementOrder considerFieldName l r (compareElementValues l.2 r.2)

/-- The loop of `BSONObj::woCompare` with an ordering, from the field `mask` selects. -/
def woCompareFrom (o : KeyOrdering) (considerFieldName : Bool) : BitVec 32 → BSONObj → BSONObj → ℤ
  | _, [], [] => 0
  | _, [], _ :: _ => -1
  | _, _ :: _, [] => 1
  | mask, l :: ls, r :: rs =>
      let x := woCompareElement considerFieldName l r
      let x := if o.bits &&& mask ≠ 0 then -x else x
      if x ≠ 0 then x else woCompareFrom o considerFieldName (mask <<< 1) ls rs

def woCompare (l r : BSONObj) (o : KeyOrdering) (considerFieldName : Bool) : ℤ :=
  woCompareFrom o considerFieldName 1 l r

section Signs

theorem ofSign_memcmp (n : ℕ) : ofSign (memcmp l r n) = compare (l.take n) (r.take n) :=
  ofSign_toSign _

theorem ofSign_memcmp_of_le {l r : List UInt8} {n : ℕ} (hl : l.length ≤ n) (hr : r.length ≤ n) :
    ofSign (memcmp l r n) = compare l r := by
  rw [ofSign_memcmp, take_of_length_le hl, take_of_length_le hr]

theorem ofSign_strcmp (l r : CString) : ofSign (strcmp l r) = compare l.bytes r.bytes :=
  ofSign_toSign _

theorem compare_append_nul : compare (l ++ [(0 : UInt8)]) (r ++ [0]) = compare l r := by
  induction l generalizing r with
  | nil =>
    cases r with
    | nil => rfl
    | cons b r =>
      by_cases hb : b = 0
      · subst hb
        cases r <;> rfl
      · rw [nil_append, cons_append, compare_cons_of_ne (Ne.symm hb), compare_byte_eq]
        have hpos : b.toNat ≠ 0 := fun h => hb (UInt8.toNat_inj.mp h)
        exact compare_lt_iff_lt.mpr (Nat.pos_of_ne_zero hpos)
  | cons a l ih =>
    cases r with
    | nil =>
      by_cases ha : a = 0
      · subst ha
        cases l <;> rfl
      · rw [nil_append, cons_append, compare_cons_of_ne ha, compare_byte_eq]
        have hpos : a.toNat ≠ 0 := fun h => ha (UInt8.toNat_inj.mp h)
        exact compare_gt_iff_gt.mpr (Nat.pos_of_ne_zero hpos)
    | cons b r => rw [List.cons_append, List.cons_append, List.compare_cons_cons, ih,
        List.compare_cons_cons]

theorem compare_natCast (a b : ℕ) : compare (a : ℤ) (b : ℤ) = compare a b :=
  compare_congr Int.ofNat_lt Int.ofNat_lt

theorem ofSign_compareElementStringValues :
    ofSign (compareElementStringValues l r) = compare l r := by
  have h := compare_take_then_length (l ++ [0]) (r ++ [0])
  rw [compare_append_nul, length_append, length_append] at h
  simp only [compareElementStringValues]
  rw [ofSign_ite, ofSign_memcmp, ofSign_sub, compare_natCast]
  exact h

theorem ofSign_compareStringData : ofSign (compareStringData l r) = compare l r := by
  have h := compare_take_then_length l r
  simp only [compareStringData]
  rw [ofSign_ite, ofSign_memcmp, ← h]
  congr 1
  exact compare_congr (by split_ifs <;> omega) (by split_ifs <;> omega)

end Signs

/-- A cast to 32 bits; a double out of range gives the lowest number. -/
def BSONValue.numberInt : BSONValue → ℤ
  | .number (.numberInt n) => n.toInt
  | .number (.numberLong n) => (n.truncate 32).toInt
  | .number (.numberDouble d) =>
      if isFinite d ∧ -2 ^ 31 ≤ trunc d ∧ trunc d < 2 ^ 31
      then trunc d else -2 ^ 31
  | _ => 0

end MongoServer
