import MongoServer.Bson.Compare

/-!
What the numeric comparisons of the source compute. Every number has an exact value:
an integer, a dyadic rational, an infinity or NaN. The key of a number is that value in
units of `2 ^ (-1074)`, with NaN at the bottom and the infinities beyond every finite
magnitude, and each comparison function is the comparison of keys.
-/
namespace MongoServer
open ByteOrder Binary64 

def doubleKey (d : BitVec 64) : WithBot ℤ := if isNaN d then ⊥ else scaled d

def integerKey (n : ℤ) : WithBot ℤ := ((n * one : ℤ) : WithBot ℤ)

def Number.key : Number → WithBot ℤ
  | .numberInt n => integerKey n.toInt
  | .numberLong n => integerKey n.toInt
  | .numberDouble d => doubleKey d

theorem doubleKey_of_not_nan {d : BitVec 64} (h : isNaN d = false) :
    doubleKey d = ((scaled d : ℤ) : WithBot ℤ) := by
  simp [doubleKey, h]

variable (a b : ℤ) {n : ℤ}

theorem compare_coe : compare (a : WithBot ℤ) (b : WithBot ℤ) = compare a b :=
  compare_congr WithBot.coe_lt_coe WithBot.coe_lt_coe

theorem compare_int_mul {a b c : ℤ} (hc : 0 < c) : compare (a * c) (b * c) = compare a b :=
  compare_congr (mul_lt_mul_iff_left₀ hc) (mul_lt_mul_iff_left₀ hc)

theorem one_pos_int : (0 : ℤ) < one := by exact_mod_cast one_pos

theorem compare_integerKey : compare (integerKey a) (integerKey b) = compare a b := by
  rw [integerKey, integerKey, compare_coe, compare_int_mul one_pos_int]

theorem ofSign_threeWay : ofSign (if a = b then 0 else if a < b then -1 else 1) = compare a b := by
  exact compare_congr (by split_ifs <;> omega) (by split_ifs <;> omega)

theorem ofSign_compareInts : ofSign (compareInts a b) = compare a b :=
  ofSign_threeWay a b

theorem ofSign_compareLongs : ofSign (compareLongs a b) = compare a b :=
  ofSign_threeWay a b

/-- NaN is below everything else and equal to itself. -/
theorem ofSign_compareDoubles (l r : BitVec 64) :
    ofSign (compareDoubles l r) = compare (doubleKey l) (doubleKey r) := by
  unfold compareDoubles doubleKey beq lt
  cases hl : isNaN l <;> cases hr : isNaN r
  · have hcmp := ofSign_threeWay (scaled l) (scaled r)
    simp only [Bool.not_false, Bool.true_and, decide_eq_true_eq, Bool.false_eq_true, ↓reduceIte,
      compare_coe]
    rw [← hcmp]
    rcases lt_trichotomy (scaled l) (scaled r) with h | h | h
    · simp [h, h.ne]
    · simp [h]
    · simp [h, h.ne', h.le.not_gt]
  · simp only [Bool.not_false, Bool.not_true, Bool.and_true, Bool.false_and,
      Bool.and_false, Bool.false_eq_true, ↓reduceIte]
    rw [compare_gt_iff_gt.mpr (WithBot.bot_lt_coe _)]
    rfl
  · simp only [Bool.not_false, Bool.not_true, Bool.and_true, Bool.false_and,
      Bool.and_false, Bool.false_eq_true, ↓reduceIte]
    rw [compare_lt_iff_lt.mpr (WithBot.bot_lt_coe _)]
    rfl
  · simp

theorem doubleKey_ofInt (h : n.natAbs ≤ 2 ^ 53) : doubleKey (ofInt n) = integerKey n := by
  have hexact : magBits (ofInt n) < infBits ∧ signBit (ofInt n) = decide (n < 0) ∧
      scaled (ofInt n) = n * one := by
    by_cases hlt : n.natAbs < 2 ^ 53
    · exact ofInt_exact hlt (show 0 ≤ 971 by omega) (by simp)
    · exact ofInt_exact (m := 1) (by norm_num) (show 53 ≤ 971 by omega) (by omega)
  rw [doubleKey_of_not_nan (isNaN_eq_false_of_finite hexact.1), hexact.2.2, integerKey]

theorem kBoundOfLongRange_exact :
    isNaN kBoundOfLongRange = false ∧ scaled kBoundOfLongRange = 2 ^ 63 * one := by
  have h := ofInt_exact (n := 2 ^ 63) (m := 1) (p := 63) (by norm_num) (by norm_num) (by norm_num)
  exact ⟨isNaN_eq_false_of_finite h.1, h.2.2⟩

/-- Outside the range of exact conversion, truncating the double does not change the order. -/
theorem compare_trunc {d : BitVec 64} (hn : 2 ^ 53 < n.natAbs) :
    compare n (trunc d) = compare (n * one) (scaled d) := by
  by_cases hd : 2 ^ 53 * one ≤ mag d
  · obtain ⟨q, hq⟩ := one_dvd_mag hd
    have htrunc : scaled d = trunc d * one := by
      have hquot : truncMag d = q := by rw [truncMag, hq, Nat.mul_div_cancel_left q Binary64.one_pos]
      unfold scaled trunc
      rw [hquot, hq]
      split_ifs <;> push_cast <;> ring
    rw [htrunc, compare_int_mul one_pos_int]
  · have hone := one_pos_int
    have hmag : (mag d : ℤ) < 2 ^ 53 * one := by exact_mod_cast not_le.mp hd
    have htr : (truncMag d : ℤ) < 2 ^ 53 := by
      exact_mod_cast (Nat.div_lt_iff_lt_mul Binary64.one_pos).mpr (not_le.mp hd)
    have hts : -2 ^ 53 < trunc d ∧ trunc d < 2 ^ 53 := by
      unfold trunc
      split_ifs <;> constructor <;> omega
    have hss : -(2 ^ 53 * (one : ℤ)) < scaled d ∧ scaled d < 2 ^ 53 * one := by
      unfold scaled
      split_ifs <;> constructor <;> linarith [Int.natCast_nonneg (mag d)]
    rcases lt_or_ge n 0 with hneg | hpos
    · have hmul : n * one ≤ -2 ^ 53 * one := mul_le_mul_of_nonneg_right (by omega) hone.le
      rw [compare_lt_iff_lt.mpr (show n < trunc d by omega),
        compare_lt_iff_lt.mpr (show n * one < scaled d by linarith)]
    · have hmul : 2 ^ 53 * one ≤ n * one := mul_le_mul_of_nonneg_right (by omega) hone.le
      rw [compare_gt_iff_gt.mpr (show n > trunc d by omega),
        compare_gt_iff_gt.mpr (show n * one > scaled d by linarith)]

theorem ofSign_compareLongToDouble (hl : -2 ^ 63 ≤ n) (hu : n < 2 ^ 63)
    (d : BitVec 64) : ofSign (compareLongToDouble n d) = compare (integerKey n) (doubleKey d) := by
  have hone := one_pos_int
  obtain ⟨hbn, hbs⟩ := kBoundOfLongRange_exact
  unfold compareLongToDouble
  by_cases hnan : isNaN d
  · rw [if_pos hnan, doubleKey, if_pos hnan, integerKey,
      compare_gt_iff_gt.mpr (WithBot.bot_lt_coe _)]
    rfl
  have hnan' : isNaN d = false := by simpa using hnan
  rw [if_neg hnan]
  by_cases hprec : n ≤ kEndOfPreciseDoubles ∧ n ≥ -kEndOfPreciseDoubles
  · rw [if_pos hprec, ofSign_compareDoubles, doubleKey_ofInt]
    unfold kEndOfPreciseDoubles at hprec
    omega
  rw [if_neg hprec, doubleKey_of_not_nan hnan', integerKey, compare_coe]
  by_cases hhigh : le kBoundOfLongRange d
  · have hle : 2 ^ 63 * (one : ℤ) ≤ scaled d := by
      simpa [le, hbn, hnan', hbs] using hhigh
    have hmul : n * one < 2 ^ 63 * one := mul_lt_mul_of_pos_right hu hone
    rw [if_pos hhigh, compare_lt_iff_lt.mpr (hmul.trans_le hle)]
    rfl
  rw [if_neg hhigh]
  by_cases hlow : lt d (neg kBoundOfLongRange)
  · have hlt : scaled d < -(2 ^ 63 * (one : ℤ)) := by
      simpa [lt, hbn, hnan', hbs] using hlow
    have hmul : -2 ^ 63 * (one : ℤ) ≤ n * one := mul_le_mul_of_nonneg_right hl hone.le
    rw [if_pos hlow, compare_gt_iff_gt.mpr (show n * one > scaled d by linarith)]
    rfl
  · rw [if_neg hlow, ofSign_compareLongs]
    apply compare_trunc
    unfold kEndOfPreciseDoubles at hprec
    omega

/-- Every numeric comparison of the source is the comparison of exact values. -/
theorem ofSign_compareNumbers (x y : Number) :
    ofSign (compareNumbers x y) = compare x.key y.key := by
  have hint : ∀ n : BitVec 32, n.toInt.natAbs ≤ 2 ^ 53 := by
    intro n
    have hl := BitVec.le_toInt n
    have hu := BitVec.toInt_lt (x := n)
    omega
  cases x with
  | numberInt a =>
    cases y with
    | numberInt b => exact (ofSign_compareInts _ _).trans (compare_integerKey _ _).symm
    | numberLong b => exact (ofSign_compareLongs _ _).trans (compare_integerKey _ _).symm
    | numberDouble d =>
      rw [compareNumbers, ofSign_compareDoubles, doubleKey_ofInt (hint a)]
      rfl
  | numberLong a =>
    cases y with
    | numberInt b | numberLong b =>
      exact (ofSign_compareLongs _ _).trans (compare_integerKey _ _).symm
    | numberDouble d =>
      exact ofSign_compareLongToDouble (BitVec.le_toInt a) BitVec.toInt_lt d
  | numberDouble d =>
    cases y with
    | numberInt b =>
      rw [compareNumbers, ofSign_compareDoubles, doubleKey_ofInt (hint b)]
      rfl
    | numberLong b =>
      rw [compareNumbers, compareDoubleToLong, ofSign_neg,
        ofSign_compareLongToDouble (BitVec.le_toInt b) BitVec.toInt_lt]
      exact (Std.OrientedOrd.eq_swap).symm
    | numberDouble e => exact ofSign_compareDoubles d e

/-- A number without its type: NaN, an infinity or an exact rational. -/
inductive ExactValue where
  | nan
  | negInf
  | finite (q : ℚ)
  | posInf
  deriving DecidableEq

namespace ExactValue

def rank : ExactValue → ℕ
  | nan => 0
  | negInf => 1
  | finite _ => 2
  | posInf => 3

/-- NaN first, then the extended rational line. -/
def cmp : ExactValue → ExactValue → Ordering
  | finite p, finite q => compare p q
  | a, b => compare a.rank b.rank

theorem cmp_eq_iff {a b : ExactValue} : cmp a b = .eq ↔ a = b := by
  cases a <;> cases b <;> simp [cmp, rank]

end ExactValue

def doubleValue (d : BitVec 64) : ExactValue :=
  if isNaN d then .nan
  else if isInf d then (if signBit d then .negInf else .posInf)
  else .finite ((scaled d : ℚ) / one)

def Number.exactValue : Number → ExactValue
  | .numberInt n => .finite n.toInt
  | .numberLong n => .finite n.toInt
  | .numberDouble d => doubleValue d

/-- How a key stands for a value, where `top` is the magnitude of an infinity. -/
private inductive KeyOf (top : ℕ) : WithBot ℤ → ExactValue → Prop
  | nan : KeyOf top ⊥ .nan
  | negInf : KeyOf top ((-(top : ℤ) : ℤ) : WithBot ℤ) .negInf
  | posInf : KeyOf top (((top : ℤ) : ℤ) : WithBot ℤ) .posInf
  | finite (k : ℤ) (h : k.natAbs < top) : KeyOf top (k : WithBot ℤ) (.finite ((k : ℚ) / one))

private theorem keyOf_integer (h : n.natAbs ≤ 2 ^ 63) :
    KeyOf (magOf infBits) (integerKey n) (.finite n) := by
  obtain ⟨e, he, hone⟩ := exists_one_eq_pow
  have hpos := Binary64.one_pos
  obtain ⟨b, hb, hmag⟩ := exists_magOf (m := 1) (p := e + 63) (by norm_num) (by omega)
  have hlt : (n * one : ℤ).natAbs < magOf infBits := by
    calc (n * one : ℤ).natAbs = n.natAbs * one := by simp [Int.natAbs_mul]
      _ ≤ 2 ^ 63 * one := Nat.mul_le_mul_right _ h
      _ = magOf b := by rw [hmag, hone, one_mul, pow_add, mul_comm]
      _ < magOf infBits := magOf_lt_iff.mpr hb
  have hq : ((n * one : ℤ) : ℚ) / one = n := by
    push_cast
    exact mul_div_cancel_right₀ _ (by exact_mod_cast hpos.ne')
  have hk := KeyOf.finite (n * one) hlt
  rwa [hq] at hk

private theorem keyOf_double (d : BitVec 64) : KeyOf (magOf infBits) (doubleKey d) (doubleValue d) := by
  unfold doubleKey doubleValue
  by_cases hnan : isNaN d
  · rw [if_pos hnan, if_pos hnan]
    exact KeyOf.nan
  rw [if_neg hnan, if_neg hnan]
  by_cases hinf : isInf d
  · have hm : mag d = magOf infBits := by
      rw [mag, show magBits d = infBits by simpa [isInf] using hinf]
    rw [if_pos hinf, scaled, hm]
    cases signBit d
    · exact KeyOf.posInf
    · exact KeyOf.negInf
  · have hlt : (scaled d).natAbs < magOf infBits := by
      rw [natAbs_scaled, mag, magOf_lt_iff]
      have hle : magBits d ≤ infBits := by simpa [isNaN] using hnan
      have hne : magBits d ≠ infBits := by simpa [isInf] using hinf
      omega
    rw [if_neg hinf]
    exact KeyOf.finite (scaled d) hlt

private theorem keyOf_number (x : Number) : KeyOf (magOf infBits) x.key x.exactValue := by
  cases x with
  | numberInt n | numberLong n =>
    have hl := BitVec.le_toInt n
    have hu := BitVec.toInt_lt (x := n)
    exact keyOf_integer (by omega)
  | numberDouble d => exact keyOf_double d

private theorem compare_div_one (j k : ℤ) :
    compare ((j : ℚ) / one) ((k : ℚ) / one) = compare j k := by
  have hpos : (0 : ℚ) < one := by exact_mod_cast Binary64.one_pos
  have hiff (j k : ℤ) : (j : ℚ) / one < k / one ↔ j < k := by
    rw [div_lt_div_iff_of_pos_right hpos, Int.cast_lt]
  exact compare_congr (hiff j k) (hiff k j)

private theorem compare_of_keyOf {top : ℕ} (htop : 0 < top) {k l : WithBot ℤ}
    {a b : ExactValue} (hk : KeyOf top k a) (hl : KeyOf top l b) : compare k l = a.cmp b := by
  cases hk <;> cases hl <;>
    simp only [compare_coe, ExactValue.cmp, ExactValue.rank, compare_div_one] <;>
    first
      | rfl
      | exact Std.ReflOrd.compare_self
      | exact compare_lt_iff_lt.mpr (WithBot.bot_lt_coe _)
      | exact compare_gt_iff_gt.mpr (WithBot.bot_lt_coe _)
      | exact compare_lt_iff_lt.mpr (by omega)
      | exact compare_gt_iff_gt.mpr (by omega)

theorem compareNumbers_exact (x y : Number) :
    ofSign (compareNumbers x y) = x.exactValue.cmp y.exactValue := by
  have htop : 0 < magOf infBits := by
    have h : magOf 0 < magOf infBits := magOf_lt_iff.mpr (by decide)
    exact (Nat.zero_le _).trans_lt h
  rw [ofSign_compareNumbers]
  exact compare_of_keyOf htop (keyOf_number x) (keyOf_number y)

end MongoServer
