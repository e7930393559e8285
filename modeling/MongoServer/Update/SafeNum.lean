import MongoServer.Bson.Value
import MongoServer.Bytes.Binary64

/-!
The numbers that updates add and multiply. Overflow of 64-bit integers is found beforehand, by
differences and truncated quotients; two 32-bit integers are combined in 64 bits.
-/
namespace MongoServer

/-- A number, or nothing where an operation has no valid result. -/
abbrev SafeNum := Option Number

namespace SafeNum

def getDouble : Number → BitVec 64
  | .numberInt n => Binary64.ofInt n.toInt
  | .numberLong n => Binary64.ofInt n.toInt
  | .numberDouble d => d

/-- The 64-bit result for two 32-bit integers, with 32 bits where they are enough. -/
def downcast (result : BitVec 64) : SafeNum :=
  if result.toInt ≤ 2 ^ 31 - 1 ∧ result.toInt ≥ -2 ^ 31 then
    some (.numberInt (.ofInt 32 result.toInt))
  else some (.numberLong result)

def addInt32Int32 (l r : BitVec 32) : SafeNum := downcast (l.signExtend 64 + r.signExtend 64)

def mulInt32Int32 (l r : BitVec 32) : SafeNum := downcast (l.signExtend 64 * r.signExtend 64)

def addOverflows (l r : ℤ) : Bool :=
  (r > 0 && l > 2 ^ 63 - 1 - r) || (r < 0 && l < -2 ^ 63 - r)

def mulOverflows (l r : ℤ) : Bool :=
  if l > 0 then
    if r > 0 then l > (2 ^ 63 - 1 : ℤ).tdiv r else r < (-2 ^ 63 : ℤ).tdiv l
  else
    if r > 0 then l < (-2 ^ 63 : ℤ).tdiv r else l ≠ 0 && r < (2 ^ 63 - 1 : ℤ).tdiv l

def addInt64Int64 (l r : BitVec 64) : SafeNum :=
  if addOverflows l.toInt r.toInt then none else some (.numberLong (l + r))

def mulInt64Int64 (l r : BitVec 64) : SafeNum :=
  if mulOverflows l.toInt r.toInt then none else some (.numberLong (l * r))

/-- The operation that the types of two operands select. -/
def combine (int32s : BitVec 32 → BitVec 32 → SafeNum) (int64s : BitVec 64 → BitVec 64 → SafeNum)
    (floats : BitVec 64 → BitVec 64 → BitVec 64) : SafeNum → SafeNum → SafeNum
  | some (.numberInt l), some (.numberInt r) => int32s l r
  | some (.numberInt l), some (.numberLong r) => int64s (l.signExtend 64) r
  | some (.numberLong l), some (.numberInt r) => int64s l (r.signExtend 64)
  | some (.numberLong l), some (.numberLong r) => int64s l r
  | some lhs, some rhs => some (.numberDouble (floats (getDouble lhs) (getDouble rhs)))
  | _, _ => none

/-- The sum, with the addition of doubles left to the processor. -/
def addInternal (addFloats : BitVec 64 → BitVec 64 → BitVec 64) : SafeNum → SafeNum → SafeNum :=
  combine addInt32Int32 addInt64Int64 addFloats

def mulInternal : SafeNum → SafeNum → SafeNum := combine mulInt32Int32 mulInt64Int64 Binary64.mul

def integer? : SafeNum → Option ℤ
  | some (.numberInt n) => some n.toInt
  | some (.numberLong n) => some n.toInt
  | _ => none

def isInt32 : SafeNum → Bool
  | some (.numberInt _) => true
  | _ => false

abbrev Fits64 (n : ℤ) : Prop := -2 ^ 63 ≤ n ∧ n < 2 ^ 63

/-- The exact result where it fits in 64 bits, as a 32-bit number if that is asked for and it fits,
and nothing otherwise. -/
structure Exact (narrow : Prop) (result : SafeNum) (exact : ℤ) : Prop where
  valid : result.isSome = true ↔ Fits64 exact
  value : result.isSome = true → integer? result = some exact
  int32 : isInt32 result = true ↔ narrow ∧ -2 ^ 31 ≤ exact ∧ exact < 2 ^ 31

variable {exact : ℤ} {result : BitVec 64}

theorem exact_wide {overflows : Bool} (hresult : result.toInt = exact.bmod (2 ^ 64))
    (hoverflows : overflows = true ↔ ¬Fits64 exact) :
    Exact False (if overflows then none else some (.numberLong result)) exact := by
  cases overflows with
  | true => exact ⟨by simpa using hoverflows.mp rfl, by simp, by simp [isInt32]⟩
  | false =>
    have hfits : Fits64 exact := by simpa [Fits64] using hoverflows
    rw [Int.bmod_eq_of_le (by omega) (by omega)] at hresult
    exact ⟨by simpa using hfits, by simp [integer?, hresult], by simp [isInt32]⟩

theorem exact_downcast (hresult : result.toInt = exact.bmod (2 ^ 64))
    (hfits : Fits64 exact) : Exact True (downcast result) exact := by
  rw [Int.bmod_eq_of_le (by omega) (by omega)] at hresult
  unfold downcast
  split_ifs with hnarrow
  · have hcut : (BitVec.ofInt 32 result.toInt).toInt = exact := by
      rw [BitVec.toInt_ofInt, hresult]
      exact Int.bmod_eq_of_le (by omega) (by omega)
    exact ⟨by simpa using hfits, by simp [integer?, hcut], by simp [isInt32]; omega⟩
  · exact ⟨by simpa using hfits, by simp [integer?, hresult], by simp [isInt32]; omega⟩

theorem addOverflows_iff {l r : ℤ} (hl : Fits64 l) : addOverflows l r = true ↔ ¬Fits64 (l + r) := by
  simp only [addOverflows, Bool.or_eq_true, Bool.and_eq_true, decide_eq_true_eq]
  omega

/-- An integer is compared with a truncated quotient as with the exact one. -/
theorem lt_neg_tdiv_iff {bound l r : ℤ} (hbound : 0 ≤ bound) (hl : 0 < l) :
    r < -bound.tdiv l ↔ bound < -r * l := by
  rw [Int.tdiv_eq_ediv_of_nonneg hbound, lt_neg, Int.ediv_lt_iff_lt_mul hl]

theorem mulOverflows_iff {l r : ℤ} : mulOverflows l r = true ↔ ¬Fits64 (l * r) := by
  unfold mulOverflows
  split_ifs with hl hr hr
  · have hpos := mul_pos hl hr
    rw [decide_eq_true_eq, Int.tdiv_eq_ediv_of_nonneg (by norm_num), gt_iff_lt,
      Int.ediv_lt_iff_lt_mul hr]
    omega
  · have hneg := mul_nonpos_of_nonneg_of_nonpos hl.le (not_lt.mp hr)
    rw [decide_eq_true_eq, Int.neg_tdiv, lt_neg_tdiv_iff (by norm_num) hl, neg_mul, mul_comm r]
    omega
  · have hneg := mul_nonpos_of_nonpos_of_nonneg (not_lt.mp hl) hr.le
    rw [decide_eq_true_eq, Int.neg_tdiv, lt_neg_tdiv_iff (by norm_num) hr, neg_mul]
    omega
  · have hnonneg := mul_nonneg_of_nonpos_of_nonpos (not_lt.mp hl) (not_lt.mp hr)
    rw [Bool.and_eq_true, decide_eq_true_eq, decide_eq_true_eq]
    by_cases hzero : l = 0
    · simp [hzero]
    · rw [← neg_neg l, Int.tdiv_neg, lt_neg_tdiv_iff (by norm_num) (by omega), neg_neg,
        neg_mul_neg, mul_comm r]
      omega

theorem toInt_signExtend (n : BitVec 32) : (n.signExtend 64).toInt = n.toInt :=
  BitVec.toInt_signExtend_of_le (by norm_num)

theorem combine_exact {int32s : BitVec 32 → BitVec 32 → SafeNum}
    {int64s : BitVec 64 → BitVec 64 → SafeNum} {floats : BitVec 64 → BitVec 64 → BitVec 64}
    {f : ℤ → ℤ → ℤ} (h32 : ∀ l r, Exact True (int32s l r) (f l.toInt r.toInt))
    (h64 : ∀ l r, Exact False (int64s l r) (f l.toInt r.toInt)) {a b : SafeNum} {x y : ℤ}
    (ha : integer? a = some x) (hb : integer? b = some y) :
    Exact (isInt32 a = true ∧ isInt32 b = true) (combine int32s int64s floats a b) (f x y) := by
  rcases a with _ | (l | l | l) <;> cases ha <;> rcases b with _ | (r | r | r) <;> cases hb
  · simpa [isInt32, combine] using h32 l r
  · simpa [isInt32, combine, toInt_signExtend] using h64 (l.signExtend 64) r
  · simpa [isInt32, combine, toInt_signExtend] using h64 l (r.signExtend 64)
  · simpa [isInt32, combine] using h64 l r

/-- Sums and products of integers are valid where the exact result fits in 64 bits, and are the exact
result then, with 32 bits where both operands have them and they are enough. -/
theorem integer_arithmetic_exact (addFloats : BitVec 64 → BitVec 64 → BitVec 64) {a b : SafeNum}
    {x y : ℤ} (ha : integer? a = some x) (hb : integer? b = some y) :
    Exact (isInt32 a = true ∧ isInt32 b = true) (addInternal addFloats a b) (x + y) ∧
      Exact (isInt32 a = true ∧ isInt32 b = true) (mulInternal a b) (x * y) := by
  have hbounds (n : BitVec 32) : -2 ^ 31 ≤ n.toInt ∧ n.toInt < 2 ^ 31 :=
    ⟨BitVec.le_toInt n, BitVec.toInt_lt⟩
  constructor
  · refine combine_exact (fun l r => exact_downcast ?_ ?_) (fun l r => exact_wide
      (BitVec.toInt_add ..) (addOverflows_iff ⟨BitVec.le_toInt l, BitVec.toInt_lt⟩)) ha hb
    · rw [BitVec.toInt_add, toInt_signExtend, toInt_signExtend]
    · have hl := hbounds l
      have hr := hbounds r
      omega
  · refine combine_exact (fun l r => exact_downcast ?_ ?_) (fun l r => exact_wide
      (BitVec.toInt_mul ..) mulOverflows_iff) ha hb
    · rw [BitVec.toInt_mul, toInt_signExtend, toInt_signExtend]
    · have hl := hbounds l
      have hr := hbounds r
      constructor <;> nlinarith

/-- The least 64-bit integer has no opposite. -/
theorem integer_arithmetic_exact_intMin :
    mulInternal (some (.numberLong (.intMin 64))) (some (.numberInt (-1))) = none := by
  have h := (integer_arithmetic_exact (fun l _ => l) (a := some (.numberLong (.intMin 64)))
    (b := some (.numberInt (-1))) rfl rfl).2.valid
  rw [← Option.not_isSome_iff_eq_none, h]
  decide

end SafeNum
end MongoServer
