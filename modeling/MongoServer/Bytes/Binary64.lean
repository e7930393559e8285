import Mathlib.Data.Nat.Log
import MongoServer.Bytes.LexOrder

/-!
IEEE 754 binary64 on bit patterns. Magnitudes are natural numbers in units of
`2 ^ (-1074)`, the smallest positive value, so a finite pattern stands exactly for an
integer and no rational arithmetic is needed. The pattern of an infinity gets the next
magnitude after the largest finite one. Arithmetic rounds to nearest, ties to even.
-/
namespace Binary64
open Nat

variable (x : BitVec 64) (s : Bool)

def magBits : ℕ := x.toNat % 2 ^ 63

def signBit : Bool := decide (2 ^ 63 ≤ x.toNat)

def magOf (b : ℕ) : ℕ := if b < 2 ^ 52 then b else (2 ^ 52 + b % 2 ^ 52) * 2 ^ (b / 2 ^ 52 - 1)

def mag : ℕ := magOf (magBits x)

def infBits : ℕ := 2047 * 2 ^ 52

/-- The unit: one in units of `2 ^ (-1074)`. -/
@[irreducible] def one : ℕ := 2 ^ 1074

def isNaN : Bool := decide (infBits < magBits x)
def isInf : Bool := decide (magBits x = infBits)
def isFinite : Bool := decide (magBits x < infBits)

def scaled : ℤ := if signBit x then -(mag x : ℤ) else mag x

def make (b : ℕ) : BitVec 64 := BitVec.ofNat 64 ((if s then 2 ^ 63 else 0) + b)

def canonicalNaN : BitVec 64 := make false (infBits + 2 ^ 51)
def infinity : BitVec 64 := make s infBits

variable (x y : BitVec 64)

def lt : Bool := !isNaN x && !isNaN y && decide (scaled x < scaled y)
def le : Bool := !isNaN x && !isNaN y && decide (scaled x ≤ scaled y)
def beq : Bool := !isNaN x && !isNaN y && decide (scaled x = scaled y)
def neg : BitVec 64 := make (!signBit x) (magBits x)

def pow2 (e : ℤ) : BitVec 64 := make false ((1023 + e).toNat * 2 ^ 52)

/-- The integer nearest to `a / d`, ties to even. -/
def nearestEven (a d : ℕ) : ℕ :=
  if 2 * (a % d) < d then a / d
  else if d < 2 * (a % d) then a / d + 1
  else a / d + a / d % 2

/-- The bits below the sign of `a / d` units, rounded; too large a value becomes infinite. -/
def roundBits (a d : ℕ) : ℕ :=
  let p := log2 (a / d) - 52
  min (p * 2 ^ 52 + nearestEven a (d * 2 ^ p)) infBits

def mul : BitVec 64 :=
  let s := signBit x != signBit y
  if isNaN x || isNaN y then canonicalNaN
  else if isInf x || isInf y then
    if mag x = 0 ∨ mag y = 0 then canonicalNaN else infinity s
  else make s (roundBits (mag x * mag y) one)

def ofInt (n : ℤ) : BitVec 64 := make (decide (n < 0)) (roundBits (n.natAbs * one) 1)

def truncMag : ℕ := mag x / one

def trunc : ℤ := if signBit x then -(truncMag x : ℤ) else truncMag x

variable {b : ℕ}

theorem magOf_of_lt (h : b < 2 ^ 53) : magOf b = b := by
  unfold magOf
  split_ifs with hb
  · rfl
  · have hd : b / 2 ^ 52 = 1 := by omega
    have hm : b % 2 ^ 52 = b - 2 ^ 52 := by omega
    rw [hd, hm]
    simp only [Nat.sub_self, pow_zero, mul_one]
    omega

theorem magOf_normal (p : ℕ) {m : ℕ} (hl : 2 ^ 52 ≤ m) (hu : m < 2 ^ 53) :
    magOf (p * 2 ^ 52 + m) = m * 2 ^ p := by
  have hd : (p * 2 ^ 52 + m) / 2 ^ 52 = p + 1 := by omega
  have hm : (p * 2 ^ 52 + m) % 2 ^ 52 = m - 2 ^ 52 := by omega
  have hn : ¬ p * 2 ^ 52 + m < 2 ^ 52 := by omega
  rw [magOf, if_neg hn, hd, hm, Nat.add_sub_cancel, show 2 ^ 52 + (m - 2 ^ 52) = m by omega]

/-- Every pattern from `2 ^ 52` on is a normal significand with its exponent. -/
theorem exists_normal (h : 2 ^ 52 ≤ b) : ∃ p m, 2 ^ 52 ≤ m ∧ m < 2 ^ 53 ∧ b = p * 2 ^ 52 + m :=
  ⟨b / 2 ^ 52 - 1, 2 ^ 52 + b % 2 ^ 52, by omega, by omega, by omega⟩

theorem magOf_strictMono : StrictMono magOf := by
  apply strictMono_nat_of_lt_succ
  intro b
  by_cases hb : b + 1 < 2 ^ 53
  · rw [magOf_of_lt hb, magOf_of_lt (by omega)]
    omega
  · obtain ⟨p, m, hl, hu, rfl⟩ := exists_normal (b := b) (by omega)
    rw [magOf_normal p hl hu]
    by_cases hm : m + 1 < 2 ^ 53
    · rw [add_assoc, magOf_normal p (by omega) hm]
      exact mul_lt_mul_of_pos_right (lt_succ_self m) (by positivity)
    · -- the significand carries into the exponent
      have hc : p * 2 ^ 52 + m + 1 = (p + 1) * 2 ^ 52 + 2 ^ 52 := by omega
      have hme : m + 1 = 2 ^ 53 := by omega
      rw [hc, magOf_normal (p + 1) le_rfl (by norm_num)]
      calc m * 2 ^ p < (m + 1) * 2 ^ p :=
            mul_lt_mul_of_pos_right (lt_succ_self m) (by positivity)
        _ = 2 ^ 52 * 2 ^ (p + 1) := by rw [hme, pow_succ 2 p, pow_succ 2 52]; ring

theorem magOf_lt_iff {c : ℕ} : magOf b < magOf c ↔ b < c := magOf_strictMono.lt_iff_lt
theorem compare_magOf (b c : ℕ) : compare (magOf b) (magOf c) = compare b c :=
  ByteOrder.compare_congr magOf_lt_iff magOf_lt_iff

theorem nearestEven_exact (m : ℕ) {d : ℕ} (hd : 0 < d) : nearestEven (m * d) d = m := by
  simp [nearestEven, hd, Nat.mul_div_cancel m hd]

theorem roundBits_exact {d : ℕ} (hd : 0 < d) (hb : b ≤ infBits) :
    roundBits (magOf b * d) d = b := by
  unfold roundBits
  rw [Nat.mul_div_cancel _ hd]
  by_cases hs : b < 2 ^ 53
  · have hp : log2 (magOf b) - 52 = 0 := by
      rw [magOf_of_lt hs]
      by_cases h0 : b = 0
      · simp [h0]
      · have := (log2_lt h0).mpr hs
        omega
    rw [hp, magOf_of_lt hs]
    simp only [zero_mul, pow_zero, mul_one, zero_add, nearestEven_exact b hd]
    exact min_eq_left hb
  · obtain ⟨p, m, hl, hu, rfl⟩ := exists_normal (b := b) (by omega)
    have hlog : log2 (m * 2 ^ p) = 52 + p := by
      apply (log2_eq_iff (by positivity)).mpr
      constructor
      · rw [pow_add]
        exact mul_le_mul_right _ hl
      · rw [show 52 + p + 1 = 53 + p by omega, pow_add]
        exact mul_lt_mul_of_pos_right hu (by positivity)
    rw [magOf_normal p hl hu, hlog, Nat.add_sub_cancel_left]
    have hmul : m * 2 ^ p * d = m * (d * 2 ^ p) := by ring
    simp only [hmul]
    rw [nearestEven_exact m (by positivity)]
    exact min_eq_left hb

/-- A significand brought to 53 bits. -/
theorem normalized_bounds {m : ℕ} (h0 : m ≠ 0) (hk : m.log2 ≤ 52) :
    2 ^ 52 ≤ m * 2 ^ (52 - m.log2) ∧ m * 2 ^ (52 - m.log2) < 2 ^ 53 := by
  constructor
  · calc 2 ^ 52 = 2 ^ m.log2 * 2 ^ (52 - m.log2) := by rw [← pow_add]; congr 1; omega
      _ ≤ m * 2 ^ (52 - m.log2) := mul_le_mul_right _ (log2_self_le h0)
  · calc m * 2 ^ (52 - m.log2) < 2 ^ (m.log2 + 1) * 2 ^ (52 - m.log2) :=
          mul_lt_mul_of_pos_right lt_log2_self (by positivity)
      _ = 2 ^ 53 := by rw [← pow_add]; congr 1; omega

/-- Every integer of at most 53 significant bits in range is the magnitude of a pattern. -/
theorem exists_magOf {m p : ℕ} (hm : m < 2 ^ 53) (hp : p ≤ 2045) :
    ∃ b, b < infBits ∧ magOf b = m * 2 ^ p := by
  by_cases hs : m * 2 ^ p < 2 ^ 53
  · refine ⟨m * 2 ^ p, ?_, magOf_of_lt hs⟩
    unfold infBits
    omega
  · have hm0 : m ≠ 0 := by
      rintro rfl
      simp at hs
    have hk : m.log2 ≤ 52 := by
      have := (log2_lt hm0).mpr hm
      omega
    have hpk : 52 < m.log2 + p := by
      by_contra hcon
      apply hs
      calc m * 2 ^ p < 2 ^ (m.log2 + 1) * 2 ^ p :=
            mul_lt_mul_of_pos_right lt_log2_self (by positivity)
        _ = 2 ^ (m.log2 + 1 + p) := (pow_add 2 _ _).symm
        _ ≤ 2 ^ 53 := Nat.pow_le_pow_right (by norm_num) (by omega)
    obtain ⟨hml, hmu⟩ := normalized_bounds hm0 hk
    refine ⟨(m.log2 + p - 52) * 2 ^ 52 + m * 2 ^ (52 - m.log2), ?_, ?_⟩
    · have hle : m.log2 + p - 52 ≤ 2045 := by omega
      unfold infBits
      omega
    · rw [magOf_normal _ hml hmu, mul_assoc, ← pow_add]
      congr 2
      omega

theorem magOf_roundBits {m p d : ℕ} (hd : 0 < d) (hm : m < 2 ^ 53) (hp : p ≤ 2045) :
    roundBits (m * 2 ^ p * d) d < infBits ∧ magOf (roundBits (m * 2 ^ p * d) d) = m * 2 ^ p := by
  obtain ⟨b, hb, he⟩ := exists_magOf hm hp
  rw [← he, roundBits_exact hd hb.le]
  exact ⟨hb, rfl⟩

theorem magBits_lt : magBits x < 2 ^ 63 := mod_lt _ (by norm_num)

@[simp] theorem magBits_make (h : b < 2 ^ 63) : magBits (make s b) = b := by
  cases s <;> simp only [magBits, make, BitVec.toNat_ofNat, Bool.false_eq_true, ↓reduceIte] <;>
    omega

@[simp] theorem signBit_make (h : b < 2 ^ 63) : signBit (make s b) = s := by
  cases s <;> simp only [signBit, make, BitVec.toNat_ofNat, Bool.false_eq_true, ↓reduceIte,
    decide_eq_false_iff_not, decide_eq_true_eq] <;> omega

theorem make_signBit_magBits : make (signBit x) (magBits x) = x := by
  apply BitVec.eq_of_toNat_eq
  have hx := x.isLt
  simp only [make, signBit, magBits, BitVec.toNat_ofNat]
  by_cases h : 2 ^ 63 ≤ x.toNat
  · simp only [h, decide_true, ↓reduceIte]
    omega
  · simp only [h, decide_false, Bool.false_eq_true, ↓reduceIte]
    omega

theorem eq_of_signBit_magBits {x y : BitVec 64} (hs : signBit x = signBit y)
    (hm : magBits x = magBits y) : x = y := by
  rw [← make_signBit_magBits x, ← make_signBit_magBits y, hs, hm]

theorem one_pos : 0 < one := by unfold one; positivity

/-- The exponent as a variable keeps tactics from evaluating the power. -/
theorem exists_one_eq_pow : ∃ e, e = 1074 ∧ one = 2 ^ e := ⟨1074, rfl, by unfold one; rfl⟩

@[simp] theorem signBit_neg : signBit (neg x) = !signBit x :=
  signBit_make _ (magBits_lt x)

@[simp] theorem magBits_neg : magBits (neg x) = magBits x :=
  magBits_make _ (magBits_lt x)

@[simp] theorem mag_neg : mag (neg x) = mag x := by simp [mag]
@[simp] theorem isNaN_neg : isNaN (neg x) = isNaN x := by simp [isNaN]

@[simp] theorem neg_neg : neg (neg x) = x := by
  apply eq_of_signBit_magBits <;> simp

theorem lt_infBits : infBits < 2 ^ 63 := by decide

theorem isNaN_make (h : b ≤ infBits) : isNaN (make s b) = false := by
  have hb : b < 2 ^ 63 := h.trans_lt lt_infBits
  simp [isNaN, magBits_make s hb, h]

theorem scaled_make (h : b < 2 ^ 63) :
    scaled (make s b) = if s then -(magOf b : ℤ) else magOf b := by
  simp [scaled, mag, signBit_make s h, magBits_make s h]

@[simp] theorem scaled_neg : scaled (neg x) = -scaled x := by
  unfold scaled
  rw [signBit_neg, mag_neg]
  cases signBit x <;> simp

theorem natAbs_scaled : (scaled x).natAbs = mag x := by
  unfold scaled
  split_ifs <;> simp

@[simp] theorem isNaN_zero : isNaN 0 = false := by decide

@[simp] theorem scaled_zero : scaled 0 = 0 := by decide

/-- A magnitude is a significand of at most 53 bits times a power of two. -/
theorem magOf_significand (b : ℕ) : ∃ m p, m < 2 ^ 53 ∧ p ≤ b / 2 ^ 52 ∧ magOf b = m * 2 ^ p := by
  by_cases hb : b < 2 ^ 52
  · exact ⟨b, 0, by omega, by omega, by rw [magOf_of_lt (by omega)]; simp⟩
  · obtain ⟨p, m, hl, hu, rfl⟩ := exists_normal (b := b) (by omega)
    exact ⟨m, p, hu, by omega, magOf_normal p hl hu⟩

/-- From `2 ^ 53` on there is no fractional part. -/
theorem one_dvd_mag {x : BitVec 64} (h : 2 ^ 53 * one ≤ mag x) : one ∣ mag x := by
  obtain ⟨m, p, hm, _, he⟩ := magOf_significand (magBits x)
  obtain ⟨e, he1, hone⟩ := exists_one_eq_pow
  have hp : e ≤ p := by
    by_contra hlt
    have hpow : 2 ^ p ≤ one := by
      rw [hone]
      exact Nat.pow_le_pow_right (by norm_num) (by omega)
    have hlt : m * 2 ^ p < 2 ^ 53 * one := Nat.mul_lt_mul_of_lt_of_le hm hpow one_pos
    rw [mag, he] at h
    exact absurd h (not_le.mpr hlt)
  rw [mag, he, hone]
  exact Dvd.dvd.mul_left (pow_dvd_pow 2 hp) m

/-- An integer of at most 53 significant bits converts exactly. -/
theorem ofInt_exact {n : ℤ} {m p : ℕ} (hm : m < 2 ^ 53) (hp : p ≤ 971) (hn : n.natAbs = m * 2 ^ p) :
    magBits (ofInt n) < infBits ∧ signBit (ofInt n) = decide (n < 0) ∧
      scaled (ofInt n) = n * one := by
  obtain ⟨e, he1, hone⟩ := exists_one_eq_pow
  have hprod : n.natAbs * one = m * 2 ^ (p + e) * 1 := by
    rw [hn, hone, pow_add, mul_one, mul_assoc]
  obtain ⟨hlt, hmag⟩ := magOf_roundBits (d := 1) (by norm_num) hm (show p + e ≤ 2045 by omega)
  rw [← hprod] at hlt hmag
  have hb := hlt.trans lt_infBits
  have hval : magOf (roundBits (n.natAbs * one) 1) = n.natAbs * one := by
    rw [hmag, hprod, mul_one]
  refine ⟨?_, ?_, ?_⟩
  · rwa [ofInt, magBits_make _ hb]
  · rw [ofInt, signBit_make _ hb]
  · rw [ofInt, scaled_make _ hb, hval]
    push_cast
    by_cases hs : n < 0
    · simp [hs, abs_of_neg hs]
    · simp [hs, abs_of_nonneg (not_lt.mp hs)]

theorem isNaN_eq_false_of_finite {x : BitVec 64} (h : magBits x < infBits) : isNaN x = false := by
  simp [isNaN, h.le]

theorem magOf_pow {s : ℕ} (h : 1 ≤ s) (hs : s ≤ 2046) : magOf (s * 2 ^ 52) = 2 ^ (51 + s) := by
  have hsplit : s * 2 ^ 52 = (s - 1) * 2 ^ 52 + 2 ^ 52 := by omega
  rw [hsplit, magOf_normal (s - 1) le_rfl (by norm_num), ← pow_add]
  congr 1
  omega

theorem magOf_one : magOf (1023 * 2 ^ 52) = one := by
  obtain ⟨e, he, hone⟩ := exists_one_eq_pow
  rw [magOf_pow (by norm_num) (by norm_num), hone, he]

theorem magOf_two_pow_63 : magOf (1086 * 2 ^ 52) = 2 ^ 63 * one := by
  obtain ⟨e, he, hone⟩ := exists_one_eq_pow
  rw [magOf_pow (by norm_num) (by norm_num), hone, ← pow_add, he]

theorem toNat_make (h : b < 2 ^ 63) : (make s b).toNat = (if s then 2 ^ 63 else 0) + b := by
  cases s <;> simp only [make, BitVec.toNat_ofNat, Bool.false_eq_true, ↓reduceIte] <;> omega

theorem lt_make {a : ℕ} (ha : a ≤ infBits) (hb : b ≤ infBits) :
    lt (make false a) (make false b) = decide (a < b) := by
  have ha' := ha.trans_lt lt_infBits
  have hb' := hb.trans_lt lt_infBits
  simp [lt, isNaN_make _ ha, isNaN_make _ hb, scaled_make _ ha', scaled_make _ hb', magOf_lt_iff]

theorem le_make {a : ℕ} (ha : a ≤ infBits) (hb : b ≤ infBits) :
    le (make false a) (make false b) = decide (a ≤ b) := by
  have ha' := ha.trans_lt lt_infBits
  have hb' := hb.trans_lt lt_infBits
  simp [le, isNaN_make _ ha, isNaN_make _ hb, scaled_make _ ha', scaled_make _ hb',
    magOf_strictMono.le_iff_le]

theorem make_zero : make false 0 = 0 := rfl

/-- Converting an integer whose magnitude is a pattern's gives that pattern. -/
theorem ofInt_eq_make {n : ℤ} (hb : b ≤ infBits) (h : n.natAbs * one = magOf b) :
    ofInt n = make (decide (n < 0)) b := by
  have hr := roundBits_exact (d := 1) (by norm_num) hb
  rw [mul_one] at hr
  rw [ofInt, h, hr]

theorem ofInt_one : ofInt 1 = make false (1023 * 2 ^ 52) :=
  ofInt_eq_make (by decide) (by rw [magOf_one]; simp)

variable {d : BitVec 64}

theorem magBits_le_infBits (h : isNaN d = false) : magBits d ≤ infBits := by
  simpa [isNaN] using h

theorem mag_pos (h0 : magBits d ≠ 0) : 0 < mag d := by
  have hlt : magOf 0 < mag d := magOf_lt_iff.mpr (pos_of_ne_zero h0)
  exact (zero_le _).trans_lt hlt

theorem lt_zero_eq_signBit (h : isNaN d = false) (h0 : magBits d ≠ 0) : lt d 0 = signBit d := by
  have hpos := mag_pos h0
  simp only [lt, h, isNaN_zero, scaled_zero, Bool.not_false, Bool.true_and]
  cases hs : signBit d
  · simp [scaled, hs]
  · simpa [scaled, hs] using hpos

theorem zero_lt_eq_not_signBit (h : isNaN d = false) (h0 : magBits d ≠ 0) :
    lt 0 d = !signBit d := by
  have hpos := mag_pos h0
  simp only [lt, h, isNaN_zero, scaled_zero, Bool.not_false, Bool.true_and]
  cases hs : signBit d
  · simpa [scaled, hs] using hpos
  · simp [scaled, hs]

theorem magnitude_eq (d : BitVec 64) :
    (if signBit d then neg d else d) = make false (magBits d) := by
  have hb := magBits_lt d
  apply eq_of_signBit_magBits
  · rw [signBit_make _ hb]
    cases hs : signBit d <;> simp [hs]
  · rw [magBits_make _ hb]
    cases hs : signBit d <;> simp

theorem toNat_eq (d : BitVec 64) : d.toNat = (if signBit d then 2 ^ 63 else 0) + magBits d := by
  conv_lhs => rw [← make_signBit_magBits d]
  exact toNat_make _ (magBits_lt d)

theorem mul_exact (s t : Bool) {a c k : ℕ} (ha : a < infBits) (hc : c < infBits) (hk : k ≤ infBits)
    (h : magOf a * magOf c = magOf k * one) : mul (make s a) (make t c) = make (s != t) k := by
  have ha' := ha.trans lt_infBits
  have hc' := hc.trans lt_infBits
  have hia : decide (a = infBits) = false := by simpa using ha.ne
  have hic : decide (c = infBits) = false := by simpa using hc.ne
  rw [mul, isNaN_make _ ha.le, isNaN_make _ hc.le, isInf, isInf, mag, mag, magBits_make _ ha',
    magBits_make _ hc', signBit_make _ ha', signBit_make _ hc', hia, hic, h,
    roundBits_exact one_pos hk]
  rfl

end Binary64
