import MongoServer.KeyString.NumericLayout

/-!
The writer of numbers produces the layouts, so byte order is numeric order. The three
ranges of a double are separated by bit patterns; an exact multiplication or conversion
in the writer is an exact one in `Binary64`.
-/
namespace MongoServer.KeyString
open ByteOrder Binary64 Bool Magnitude NumericForm
open Nat (log2)

theorem ofInt_min : ofInt (-2 ^ 63) = make true (1086 * 2 ^ 52) :=
  ofInt_eq_make (by decide) (by rw [magOf_two_pow_63]; rfl)

theorem kMinLargeDouble_eq : kMinLargeDouble = make false (1086 * 2 ^ 52) :=
  ofInt_eq_make (by decide) (by rw [magOf_two_pow_63]; rfl)

section Double
variable {v : Version} {d : BitVec 64} {b : ℕ}

theorem kTiny_mul (hb : b < 768 * 2 ^ 52) :
    mul (make false b) kTinyDoubleExponentUpshiftFactor = make false (upshift b) := by
  obtain ⟨e, he, hone⟩ := exists_one_eq_pow
  have hinf := infBits_eq
  have hup := upshift_lt hb
  have hfac : magOf (1279 * 2 ^ 52) = 2 ^ 256 * one := by
    rw [magOf_pow (by norm_num) (by norm_num), hone, ← pow_add, he]
  have hpow : kTinyDoubleExponentUpshiftFactor = make false (1279 * 2 ^ 52) := rfl
  rw [hpow]
  apply mul_exact false false (by omega) (by omega) (by omega)
  rw [hfac, magOf_upshift hb, mul_assoc]

theorem appendSmallDouble_bytes (hn : isNaN d = false) (h0 : 0 < magBits d)
    (h1 : magBits d < 1023 * 2 ^ 52) (invert : Bool) :
    (appendSmallDouble v d invert).bytes =
      (small (v := v) (magBits d) h0 h1).encode invert (signBit d) := by
  have hinf := infBits_eq
  have htiny : kTiniestDoubleWith2BitDCM = make false (768 * 2 ^ 52) := rfl
  have hcode : (if v = .V0 then d.toNat
      else if le kTiniestDoubleWith2BitDCM (make false (magBits d)) then
        (make false (magBits d)).toNat * 4 % 2 ^ 64
      else ((mul (make false (magBits d)) kTinyDoubleExponentUpshiftFactor).toNat * 2 %
        2 ^ 64 + 2 ^ 62) % 2 ^ 64) = smallCode v (signBit d) (magBits d) := by
    cases v with
    | V0 => rw [if_pos rfl, toNat_eq]; rfl
    | V1 =>
      rw [if_neg (by decide), htiny, le_make (by omega) (by omega), toNat_make _ (magBits_lt d)]
      by_cases hb : 768 * 2 ^ 52 ≤ magBits d
      · simp only [hb, smallCode, decide_true, ↓reduceIte, false_eq_true]
        omega
      · have hup := upshift_lt (not_le.mp hb)
        simp only [hb, smallCode, decide_false, ↓reduceIte, false_eq_true]
        rw [kTiny_mul (not_le.mp hb), toNat_make _ (by omega)]
        simp only [false_eq_true, ↓reduceIte]
        omega
  simp only [appendSmallDouble, lt_zero_eq_signBit hn h0.ne', magnitude_eq]
  rw [hcode]
  simp only [bytes_append, appendByte_bytes, appendBytes_bytes, Magnitude.encode,
    payload, ctype, cls]
  cases signBit d <;> cases invert <;> rfl

theorem appendLargeDouble_bytes (hn : isNaN d = false) (h0 : 1086 * 2 ^ 52 ≤ magBits d)
    (invert : Bool) :
    (appendLargeDouble v d invert).bytes =
      (large (v := v) (magBits d) h0 (magBits_le_infBits hn)).encode invert (signBit d) := by
  have hinf := infBits_eq
  have hle := magBits_le_infBits hn
  have hcode : (if v = .V0 then d.toNat
      else if Binary64.isFinite d then d.toNat * 2 % 2 ^ 64 % 2 ^ 63
      else 2 ^ 64 - 1) = largeCode v (signBit d) (magBits d) := by
    cases v with
    | V0 => rw [if_pos rfl, toNat_eq]; rfl
    | V1 =>
      rw [if_neg (by decide), toNat_eq]
      by_cases hb : magBits d < infBits
      · have hfin : Binary64.isFinite d = true := by simpa [isFinite] using hb
        simp only [hfin, largeCode, hb, ↓reduceIte]
        cases signBit d <;> simp only [false_eq_true, ↓reduceIte] <;> omega
      · have hfin : Binary64.isFinite d = false := by simpa [isFinite] using hb
        simp [hfin, largeCode, hb]
  simp only [appendLargeDouble, zero_lt_eq_not_signBit hn (by omega : magBits d ≠ 0)]
  rw [hcode]
  simp only [bytes_append, appendByte_bytes, appendBytes_bytes, Magnitude.encode,
    payload, ctype, cls]
  cases signBit d <;> cases invert <;> rfl

theorem log2_two_mul_add {ip e : ℕ} (hip : 0 < ip) (he : e ≤ 1) :
    log2 (2 * ip + e) = log2 ip + 1 := by
  have hlo := Nat.log2_self_le hip.ne'
  have hhi := Nat.lt_log2_self (n := ip)
  rw [Nat.log2_eq_iff (by omega), pow_succ, pow_succ 2 (log2 ip + 1)]
  omega

theorem countLeadingZeros64_eq {n : ℕ} (h : 0 < n) : countLeadingZeros64 n = 63 - log2 n := by
  rw [countLeadingZeros64, if_neg h.ne']

theorem markedInteger_eq_add (ip f : ℕ) : ∃ e, e ≤ 1 ∧ markedInteger ip f = 2 * ip + e := by
  unfold markedInteger
  split_ifs
  · exact ⟨0, by norm_num, rfl⟩
  · exact ⟨1, le_rfl, rfl⟩

theorem appendPreshiftedIntegerPortion_bytes {ip : ℕ} (hip : 0 < ip) (hlt : ip < 2 ^ 63) (f : ℕ)
    (negative invert : Bool) :
    (appendPreshiftedIntegerPortion (markedInteger ip f) negative invert).bytes =
      flipIf invert [if negative then UInt8.ofNat (40 - integerBytes ip)
        else UInt8.ofNat (42 + integerBytes ip)] ++
      flipIf (invert != negative) (beBytes (integerBytes ip) (markedInteger ip f)) := by
  have hlog := log2_lt_63 hip hlt
  have hn := integerBytes_le hip hlt
  have hneeded : (64 - countLeadingZeros64 (markedInteger ip f) + 7) / 8 = integerBytes ip := by
    obtain ⟨e, he, hm⟩ := markedInteger_eq_add ip f
    rw [hm, countLeadingZeros64_eq (by omega), log2_two_mul_add hip he, integerBytes]
    omega
  have hneg : CType.kNumericNegative1ByteInt - UInt8.ofNat (integerBytes ip - 1) =
      UInt8.ofNat (40 - integerBytes ip) := by
    generalize integerBytes ip = n at hn
    obtain ⟨h1, h8⟩ := hn
    interval_cases n <;> rfl
  have hpos : CType.kNumericPositive1ByteInt + UInt8.ofNat (integerBytes ip - 1) =
      UInt8.ofNat (42 + integerBytes ip) := by
    generalize integerBytes ip = n at hn
    obtain ⟨h1, h8⟩ := hn
    interval_cases n <;> rfl
  simp only [appendPreshiftedIntegerPortion, hneeded, hneg, hpos]
  cases negative <;> cases invert <;> rfl

/-- A middle double splits into an exactly convertible integer part and a fraction whose
significant bits are the low bits of the pattern. -/
theorem middle_split (hl : 1023 * 2 ^ 52 ≤ b) (hu : b < 1086 * 2 ^ 52) :
    0 < magOf b / one ∧ magOf b / one < 2 ^ 63 ∧
      (∃ m p, m < 2 ^ 53 ∧ p ≤ 971 ∧ magOf b / one = m * 2 ^ p) ∧
      (magOf b % one ≠ 0 → log2 (magOf b / one) ≤ 51 ∧
        magOf b % one * 2 ^ (52 - log2 (magOf b / one)) =
          b % 2 ^ (52 - log2 (magOf b / one)) * one ∧
        b = (log2 (magOf b / one) + 1022) * 2 ^ 52 +
          magOf b / one * 2 ^ (52 - log2 (magOf b / one)) +
          b % 2 ^ (52 - log2 (magOf b / one))) := by
  have hone := one_pos
  have hge : one ≤ magOf b := by
    rw [← magOf_one]
    exact magOf_strictMono.monotone hl
  have hlt : magOf b < 2 ^ 63 * one := by
    rw [← magOf_two_pow_63]
    exact magOf_lt_iff.mpr hu
  refine ⟨Nat.div_pos hge hone, (Nat.div_lt_iff_lt_mul hone).mpr hlt, ?_⟩
  obtain ⟨p, m, hml, hmu, rfl⟩ := exists_normal (b := b) (by omega)
  obtain ⟨e, he, hpow⟩ := exists_one_eq_pow
  rw [magOf_normal p hml hmu]
  rcases le_or_gt e p with hep | hep
  · have hmul : m * 2 ^ p = m * 2 ^ (p - e) * one := by
      rw [hpow, mul_assoc, ← pow_add, Nat.sub_add_cancel hep]
    rw [hmul, Nat.mul_div_cancel _ hone, Nat.mul_mod_left]
    exact ⟨⟨m, p - e, hmu, by omega, rfl⟩, fun h => absurd rfl h⟩
  · -- the fraction starts `j` bits above the end of the significand
    obtain ⟨j, hj⟩ : ∃ j, e = j + p := ⟨e - p, by omega⟩
    have hj52 : j ≤ 52 := by omega
    have hsplit : one = 2 ^ j * 2 ^ p := by rw [hpow, hj, pow_add]
    have hp0 : 0 < 2 ^ p := by positivity
    rw [hsplit, Nat.mul_div_mul_right _ _ hp0, Nat.mul_mod_mul_right]
    refine ⟨⟨m / 2 ^ j, 0, (Nat.div_le_self m _).trans_lt hmu, by omega, by simp⟩, ?_⟩
    intro _
    have hlog : log2 (m / 2 ^ j) = 52 - j := by
      have hquot : 2 ^ (52 - j) ≤ m / 2 ^ j := by
        rw [Nat.le_div_iff_mul_le (by positivity), ← pow_add, Nat.sub_add_cancel hj52]
        exact hml
      rw [Nat.log2_eq_iff (by have : 0 < 2 ^ (52 - j) := by positivity
                              omega)]
      refine ⟨hquot, ?_⟩
      rw [Nat.div_lt_iff_lt_mul (by positivity), ← pow_add, show 52 - j + 1 + j = 53 by omega]
      exact hmu
    have hmod : (p * 2 ^ 52 + m) % 2 ^ j = m % 2 ^ j := by
      rw [show 52 = 52 - j + j by omega, pow_add, ← mul_assoc, Nat.mul_comm, Nat.mul_add_mod]
    have hj1 : j ≠ 0 := by omega
    have hm := Nat.div_add_mod m (2 ^ j)
    rw [mul_comm] at hm
    rw [hlog, show 52 - (52 - j) = j by omega, hmod, show 52 - j + 1022 = p by omega]
    exact ⟨by omega, by ring, by omega⟩

theorem one_dvd_fraction (v : Version) (hl : 1023 * 2 ^ 52 ≤ b) (hu : b < 1086 * 2 ^ 52) :
    one ∣ magOf b % one * 2 ^ fractionBits v (magOf b / one) := by
  obtain ⟨hip, hlt, -, hfrac⟩ := middle_split hl hu
  by_cases h0 : magOf b % one = 0
  · simp [h0]
  obtain ⟨hlog, heq, -⟩ := hfrac h0
  have hle : 52 - log2 (magOf b / one) ≤ fractionBits v (magOf b / one) := by
    cases v with
    | V0 => exact le_rfl
    | V1 =>
      simp only [fractionBits]
      omega
  have hdvd : one ∣ magOf b % one * 2 ^ (52 - log2 (magOf b / one)) := by
    rw [heq]
    exact Nat.dvd_mul_left _ _
  exact hdvd.trans (Nat.mul_dvd_mul_left _ (pow_dvd_pow 2 hle))

def middleOf (v : Version) (b : ℕ) (hl : 1023 * 2 ^ 52 ≤ b) (hu : b < 1086 * 2 ^ 52) :
    Magnitude v :=
  .middle (magOf b / one) (magOf b % one) (middle_split hl hu).1 (middle_split hl hu).2.1
    (Nat.mod_lt _ one_pos) (one_dvd_fraction v hl hu)

theorem toNat_middleOf (v : Version) (hl : 1023 * 2 ^ 52 ≤ b) (hu : b < 1086 * 2 ^ 52) :
    (middleOf v b hl hu).toNat = magOf b := by
  simp only [middleOf, Magnitude.toNat]
  rw [mul_comm]
  exact Nat.div_add_mod _ _

theorem kPow256_eq {k : ℕ} (h : k ≤ 7) : kPow256 k = make false ((1023 + 8 * k) * 2 ^ 52) ∧
    magOf ((1023 + 8 * k) * 2 ^ 52) = 256 ^ k * one := by
  obtain ⟨e, he, hone⟩ := exists_one_eq_pow
  have hinf := infBits_eq
  have hmag : magOf ((1023 + 8 * k) * 2 ^ 52) = 256 ^ k * one := by
    rw [magOf_pow (by omega) (by omega), pow_256, hone, ← pow_add]
    congr 1
    omega
  refine ⟨?_, hmag⟩
  have hnn : ¬ ((256 : ℤ) ^ k < 0) := not_lt.mpr (by positivity)
  have hof := ofInt_eq_make (n := 256 ^ k) (b := (1023 + 8 * k) * 2 ^ 52) (by omega)
    (by rw [hmag, Int.natAbs_pow]; rfl)
  rw [kPow256, hof]
  simp [hnn]

theorem truncMag_mul_kPow256 {b k : ℕ} (hu : b < 1086 * 2 ^ 52) (hk : k ≤ 7) :
    truncMag (mul (make false b) (kPow256 k)) = magOf b * 256 ^ k / one := by
  have hinf := infBits_eq
  obtain ⟨hpow, hmag⟩ := kPow256_eq hk
  obtain ⟨m, p, hm, hp, he⟩ := magOf_significand b
  obtain ⟨c, hc, hcm⟩ := exists_magOf (m := m) (p := p + 8 * k) hm (by omega)
  have hprod : magOf b * 256 ^ k = magOf c := by
    rw [he, hcm, pow_256, mul_assoc, ← pow_add]
  rw [hpow, mul_exact false false (k := c) (by omega) (by omega) hc.le
    (by rw [hmag, ← hprod, mul_assoc])]
  rw [truncMag, mag, magBits_make _ (hc.trans lt_infBits), hprod]

theorem appendFractionalDouble_bytes (v : Version) (hl : 1023 * 2 ^ 52 ≤ magBits d)
    (hu : magBits d < 1086 * 2 ^ 52) (hf : magOf (magBits d) % one ≠ 0) (invert : Bool) :
    (appendFractionalDouble v d (signBit d) invert).bytes =
      (middleOf v (magBits d) hl hu).encode invert (signBit d) := by
  obtain ⟨hip, hlt, -, hfrac⟩ := middle_split hl hu
  obtain ⟨hlog, heq, -⟩ := hfrac hf
  have hone := one_pos
  have htrunc : truncMag (make false (magBits d)) = magOf (magBits d) / one := by
    rw [truncMag, mag, magBits_make _ (magBits_lt d)]
  have hkept := one_dvd_fraction v hl hu
  generalize hipd : magOf (magBits d) / one = ip at *
  generalize hfrd : magOf (magBits d) % one = frac at *
  have hmark : markedInteger ip frac = 2 * ip + 1 := by simp [markedInteger, hf]
  have hinvert : (if signBit d then !invert else invert) = (invert != signBit d) := by
    cases signBit d <;> cases invert <;> rfl
  have hmiddle : (middleOf v (magBits d) hl hu).encode invert (signBit d) =
      flipIf invert [if signBit d then UInt8.ofNat (40 - integerBytes ip)
        else UInt8.ofNat (42 + integerBytes ip)] ++
      flipIf (invert != signBit d) (beBytes (integerBytes ip) (2 * ip + 1) ++
        beBytes (fractionBytes v ip) (fractionCode v ip frac)) := by
    simp only [middleOf, Magnitude.encode, ctype, cls, payload, hipd, hfrd, hf, hmark, ↓reduceIte]
  rw [hmiddle]
  cases v with
  | V0 =>
    have hbits : 53 - (64 - countLeadingZeros64 ip) = fractionBits .V0 ip := by
      rw [countLeadingZeros64_eq hip]
      simp only [fractionBits]
      omega
    have hcode : d.toNat % 2 ^ fractionBits .V0 ip = fractionCode .V0 ip frac := by
      have hdvd : 2 ^ (52 - log2 ip) ∣ 2 ^ 63 := pow_dvd_pow 2 (by omega)
      obtain ⟨q, hq⟩ := hdvd
      simp only [fractionCode, fractionBits]
      rw [heq, Nat.mul_div_cancel _ hone, toNat_eq]
      cases signBit d
      · simp
      · rw [if_pos rfl, hq, Nat.mul_add_mod]
    have hpre : ip * 2 % 2 ^ 64 + 1 = markedInteger ip frac := by omega
    simp only [appendFractionalDouble, magnitude_eq, htrunc, hbits, bytes_append,
      appendBytes_bytes, hinvert, hcode]
    rw [hpre, appendPreshiftedIntegerPortion_bytes hip hlt, hmark, flipIf_append, List.append_assoc]
    rfl
  | V1 =>
    have hbytes : countLeadingZeros64 (ip * 2 % 2 ^ 64) / 8 = fractionBytes .V1 ip := by
      rw [show ip * 2 % 2 ^ 64 = 2 * ip + 0 by omega, countLeadingZeros64_eq (by omega),
        log2_two_mul_add hip (by norm_num)]
      simp only [fractionBytes, fractionBits]
      omega
    have hbits : fractionBits .V1 ip = 8 * fractionBytes .V1 ip := by
      simp only [fractionBytes, fractionBits]
      omega
    have hsum : integerBytes ip + fractionBytes .V1 ip = 8 := by
      have hlog63 := log2_lt_63 hip hlt
      simp only [integerBytes, fractionBytes, fractionBits]
      omega
    have hn := integerBytes_le hip hlt
    have hk7 : fractionBytes .V1 ip ≤ 7 := by omega
    generalize hk : fractionBytes .V1 ip = k at *
    have h256 : 2 ^ (k * 8) = 256 ^ k := by rw [pow_256, mul_comm]
    -- the scaled double is the integer part and the fraction numeral side by side
    have hscaled : magOf (magBits d) * 256 ^ k / one = ip * 256 ^ k + fractionCode .V1 ip frac := by
      have hsplit : magOf (magBits d) = one * ip + frac := by
        rw [← hipd, ← hfrd]
        exact (Nat.div_add_mod _ _).symm
      rw [fractionCode, hbits, mul_comm 8 k, h256, hsplit, Nat.add_mul, mul_assoc,
        Nat.mul_add_div hone]
    have hfrac : frac < one := by
      rw [← hfrd]
      exact Nat.mod_lt _ hone
    have hcode := fractionCode_lt .V1 ip hfrac
    rw [hk] at hcode
    have henc : ip * 256 ^ k + fractionCode .V1 ip frac + (ip + 1) * 256 ^ k =
        (2 * ip + 1) * 256 ^ k + fractionCode .V1 ip frac := by ring
    have hlt64 : (2 * ip + 1) * 256 ^ k + fractionCode .V1 ip frac < 2 ^ 64 := by
      have hm := markedInteger_lt ip frac
      rw [hmark] at hm
      calc (2 * ip + 1) * 256 ^ k + fractionCode .V1 ip frac
          < (2 * ip + 1) * 256 ^ k + 256 ^ k := by omega
        _ = (2 * ip + 1 + 1) * 256 ^ k := by ring
        _ ≤ 256 ^ integerBytes ip * 256 ^ k := Nat.mul_le_mul_right _ hm
        _ = 256 ^ 8 := by rw [← pow_add, hsum]
        _ = 2 ^ 64 := by norm_num
    have hpayload : beBytes 8 ((2 * ip + 1) * 256 ^ k + fractionCode .V1 ip frac) =
        beBytes (integerBytes ip) (2 * ip + 1) ++ beBytes k (fractionCode .V1 ip frac) := by
      rw [← hsum, beBytes_add, mul_comm, Nat.mul_add_div (by positivity),
        Nat.div_eq_of_lt hcode, add_zero]
      congr 1
      rw [← beBytes_mod k (256 ^ k * (2 * ip + 1) + _), Nat.mul_add_mod, beBytes_mod]
    have hctype : (if signBit d then CType.kNumericNegative8ByteInt + UInt8.ofNat k
        else CType.kNumericPositive8ByteInt - UInt8.ofNat k) =
        if signBit d then UInt8.ofNat (40 - integerBytes ip)
        else UInt8.ofNat (42 + integerBytes ip) := by
      have hib : integerBytes ip = 8 - k := by omega
      rw [hib]
      cases signBit d <;> interval_cases k <;> rfl
    have hwrap : (ip + 1) * 256 ^ k % 2 ^ 64 = (ip + 1) * 256 ^ k := by
      apply Nat.mod_eq_of_lt
      have hle : (ip + 1) * 256 ^ k ≤ (2 * ip + 1) * 256 ^ k := Nat.mul_le_mul_right _ (by omega)
      omega
    simp only [appendFractionalDouble, magnitude_eq, htrunc, hbytes, bytes_append,
      appendByte_bytes, appendBytes_bytes, hinvert, hctype, truncMag_mul_kPow256 hu hk7, h256,
      hwrap, hscaled, henc, Nat.mod_eq_of_lt hlt64, hpayload]

end Double

theorem encode_signed {v : Version} (negative : Bool) (m : Magnitude v) (invert : Bool) :
    (signed negative m).encode invert = m.encode invert negative := rfl

theorem beq_ofInt_truncMag {b : ℕ} (hl : 1023 * 2 ^ 52 ≤ b) (hu : b < 1086 * 2 ^ 52) :
    beq (ofInt (truncMag (make false b) : ℕ)) (make false b) =
      decide (magOf b % one = 0) := by
  have hinf := infBits_eq
  obtain ⟨-, -, ⟨m, p, hm, hp, he⟩, -⟩ := middle_split hl hu
  have htrunc : truncMag (make false b) = magOf b / one := by
    rw [truncMag, mag, magBits_make _ (by omega)]
  rw [htrunc]
  obtain ⟨hfin, -, hs⟩ := ofInt_exact (n := ((magOf b / one : ℕ) : ℤ)) hm hp
    (by rw [Int.natAbs_natCast]; exact he)
  simp only [beq, isNaN_eq_false_of_finite hfin, isNaN_make _ (by omega : b ≤ infBits),
    Bool.not_false, Bool.true_and, hs, scaled_make _ (by omega : b < 2 ^ 63), Bool.false_eq_true,
    ↓reduceIte]
  congr 1
  have hdm := Nat.div_add_mod (magOf b) one
  rw [mul_comm] at hdm
  apply propext
  constructor
  · intro h
    have h' : magOf b / one * one = magOf b := by exact_mod_cast h
    omega
  · intro h
    have h' : magOf b / one * one = magOf b := by omega
    exact_mod_cast h'

def doubleForm (v : Version) (d : BitVec 64) : NumericForm v :=
  if hn : isNaN d = true then .nan
  else if h0 : magBits d = 0 then .zero
  else .signed (signBit d)
    (if hs : magBits d < 1023 * 2 ^ 52 then .small (magBits d) (Nat.pos_of_ne_zero h0) hs
      else if hm : magBits d < 1086 * 2 ^ 52 then middleOf v (magBits d) (not_lt.mp hs) hm
      else .large (magBits d) (not_lt.mp hm) (magBits_le_infBits (eq_false_iff.mpr hn)))

theorem doubleForm_key (v : Version) (d : BitVec 64) : (doubleForm v d).key = doubleKey d := by
  unfold doubleForm
  split_ifs with hn h0 hs hm
  · simp [key, doubleKey, hn]
  · have hmag : mag d = 0 := by rw [mag, h0]; rfl
    simp [key, doubleKey, hn, scaled, hmag]
  · rw [doubleKey_of_not_nan (eq_false_iff.mpr hn), key, scaled]
    rfl
  · rw [doubleKey_of_not_nan (eq_false_iff.mpr hn), key, scaled, toNat_middleOf v (not_lt.mp hs) hm]
    rfl
  · rw [doubleKey_of_not_nan (eq_false_iff.mpr hn), key, scaled]
    rfl

theorem appendDouble_nan (v : Version) {d : BitVec 64} (hn : isNaN d = true) (invert : Bool) :
    (appendDoubleWithoutTypeBits v d invert).bytes = flipIf invert [CType.kNumericNaN] := by
  simp [appendDoubleWithoutTypeBits, lt, le, beq, hn]

theorem appendDouble_zero (v : Version) {d : BitVec 64} (hn : isNaN d = false)
    (h0 : magBits d = 0) (invert : Bool) :
    (appendDoubleWithoutTypeBits v d invert).bytes = flipIf invert [CType.kNumericZero] := by
  have hmag : mag d = 0 := by rw [mag, h0]; rfl
  have hs : scaled d = 0 := by simp [scaled, hmag]
  have h1 : le (ofInt 1) d = false := by
    have hone := one_pos_int
    obtain ⟨-, -, hs1⟩ := ofInt_exact (n := 1) (m := 1) (p := 0) (by norm_num) (by norm_num) rfl
    simp only [le, hs1, hs, and_eq_false_iff, decide_eq_false_iff_not]
    right
    omega
  have hlt : Binary64.lt d 0 = false := by
    simp only [Binary64.lt, hs, scaled_zero, lt_irrefl, decide_false, Bool.and_false]
  have hgt : Binary64.lt 0 d = false := by
    simp only [Binary64.lt, hs, scaled_zero, lt_irrefl, decide_false, Bool.and_false]
  have heq : Binary64.beq d 0 = true := by
    simp only [Binary64.beq, hn, isNaN_zero, hs, scaled_zero, decide_true, Bool.not_false,
      Bool.and_true]
  simp only [appendDoubleWithoutTypeBits, hlt, false_eq_true, ↓reduceIte, h1, hgt, heq,
    Bool.not_false, appendByte_bytes]

theorem appendDouble_middle (v : Version) {d : BitVec 64} (hl : 1023 * 2 ^ 52 ≤ magBits d)
    (hu : magBits d < 1086 * 2 ^ 52) (invert : Bool) :
    (if beq (ofInt (truncMag (make false (magBits d)) : ℕ)) (make false (magBits d)) then
        appendPreshiftedIntegerPortion (truncMag (make false (magBits d)) * 2 % 2 ^ 64) (signBit d)
          invert
      else appendFractionalDouble v d (signBit d) invert).bytes =
      (middleOf v (magBits d) hl hu).encode invert (signBit d) := by
  obtain ⟨hip, hiplt, -, -⟩ := middle_split hl hu
  have htrunc : truncMag (make false (magBits d)) = magOf (magBits d) / one := by
    rw [truncMag, mag, magBits_make _ (magBits_lt d)]
  rw [beq_ofInt_truncMag hl hu]
  by_cases hfrac : magOf (magBits d) % one = 0
  · have hpre : truncMag (make false (magBits d)) * 2 % 2 ^ 64 =
        markedInteger (magOf (magBits d) / one) 0 := by
      rw [htrunc]
      simp only [markedInteger, ↓reduceIte]
      omega
    rw [if_pos (by simpa using hfrac), hpre, appendPreshiftedIntegerPortion_bytes hip hiplt]
    simp [middleOf, Magnitude.encode, ctype, cls, payload, hfrac]
  · rw [if_neg (by simpa using hfrac)]
    exact appendFractionalDouble_bytes v hl hu hfrac invert

theorem appendDouble_bytes (v : Version) (d : BitVec 64) (invert : Bool) :
    (appendDoubleWithoutTypeBits v d invert).bytes = (doubleForm v d).encode invert := by
  have hinf := infBits_eq
  by_cases hn : isNaN d = true
  · rw [appendDouble_nan v hn, doubleForm, dif_pos hn]
    exact (List.append_nil _).symm
  have hn' := eq_false_iff.mpr hn
  by_cases h0 : magBits d = 0
  · rw [appendDouble_zero v hn' h0, doubleForm, dif_neg hn, dif_pos h0]
    exact (List.append_nil _).symm
  have hle := magBits_le_infBits hn'
  have hge : le (ofInt 1) (make false (magBits d)) =
      decide (1023 * 2 ^ 52 ≤ magBits d) := by
    rw [ofInt_one]
    exact le_make (by omega) hle
  have hpos : lt 0 (make false (magBits d)) = true := by
    rw [← make_zero, lt_make (by omega) hle]
    simpa using Nat.pos_of_ne_zero h0
  have hlarge : lt (make false (magBits d)) kMinLargeDouble =
      decide (magBits d < 1086 * 2 ^ 52) := by
    rw [kMinLargeDouble_eq]
    exact lt_make hle (by omega)
  rw [doubleForm, dif_neg hn, dif_neg h0, encode_signed]
  simp only [appendDoubleWithoutTypeBits, lt_zero_eq_signBit hn' h0, magnitude_eq, hge, hpos,
    hlarge]
  by_cases hs : magBits d < 1023 * 2 ^ 52
  · rw [dif_pos hs, if_pos (by simpa using hs), if_pos trivial]
    exact appendSmallDouble_bytes hn' _ hs invert
  rw [dif_neg hs, if_neg (by simpa using hs)]
  by_cases hm : magBits d < 1086 * 2 ^ 52
  · rw [dif_pos hm, if_pos (by simpa using hm)]
    exact appendDouble_middle v (not_lt.mp hs) hm invert
  · rw [dif_neg hm, if_neg (by simpa using hm)]
    exact appendLargeDouble_bytes hn' (not_lt.mp hm) invert

def integerForm (v : Version) (n : ℤ) (hl : -2 ^ 63 ≤ n) (hu : n < 2 ^ 63) : NumericForm v :=
  if hmin : n = -2 ^ 63 then .signed true (.large (1086 * 2 ^ 52) le_rfl (by decide))
  else if h0 : n = 0 then .zero
  else .signed (decide (n < 0)) (.middle n.natAbs 0 (by omega) (by omega) one_pos (by simp))

theorem integerForm_key (v : Version) {n : ℤ} (hl : -2 ^ 63 ≤ n) (hu : n < 2 ^ 63) :
    (integerForm v n hl hu).key = integerKey n := by
  unfold integerForm
  split_ifs with hmin h0
  · subst hmin
    simp only [NumericForm.key, Magnitude.toNat, magOf_two_pow_63, integerKey, ↓reduceIte]
    push_cast
    congr 1
  · simp [key, integerKey, h0]
  · simp only [NumericForm.key, Magnitude.toNat, integerKey, add_zero, decide_eq_true_eq]
    congr 1
    push_cast
    split_ifs with hneg
    · rw [abs_of_neg hneg]
      ring
    · rw [abs_of_nonneg (by omega)]

theorem appendInteger_bytes (v : Version) {n : ℤ} (hl : -2 ^ 63 ≤ n) (hu : n < 2 ^ 63)
    (invert : Bool) : (appendInteger v n invert).bytes = (integerForm v n hl hu).encode invert := by
  unfold integerForm
  split_ifs with hmin h0
  · subst hmin
    have hn : isNaN (make true (1086 * 2 ^ 52)) = false := isNaN_make true (by decide)
    have hb : magBits (make true (1086 * 2 ^ 52)) = 1086 * 2 ^ 52 := magBits_make true (by norm_num)
    have hs : signBit (make true (1086 * 2 ^ 52)) = true := signBit_make true (by norm_num)
    rw [appendInteger, if_pos rfl, ofInt_min, appendLargeDouble_bytes hn hb.ge, hs]
    simp only [hb]
    rfl
  · simp [appendInteger, h0, NumericForm.encode, NumericForm.lead, NumericForm.rest]
  · have hip : 0 < n.natAbs := by omega
    have hlt : n.natAbs < 2 ^ 63 := by omega
    have hpre : n.natAbs * 2 % 2 ^ 64 = markedInteger n.natAbs 0 := by
      simp only [markedInteger, ↓reduceIte]
      omega
    simp only [appendInteger, hmin, h0, ↓reduceIte, hpre, encode_signed]
    rw [appendPreshiftedIntegerPortion_bytes hip hlt]
    simp [Magnitude.encode, ctype, cls, payload]

theorem toInt32_bounds (n : BitVec 32) : -2 ^ 63 ≤ n.toInt ∧ n.toInt < 2 ^ 63 := by
  have hl := BitVec.le_toInt n
  have hu := BitVec.toInt_lt (x := n)
  omega

def numberForm (v : Version) : Number → NumericForm v
  | .numberInt n => integerForm v n.toInt (toInt32_bounds n).1 (toInt32_bounds n).2
  | .numberLong n => integerForm v n.toInt (BitVec.le_toInt n) BitVec.toInt_lt
  | .numberDouble d => doubleForm v d

theorem numberForm_key (v : Version) (x : Number) : (numberForm v x).key = x.key := by
  cases x with
  | numberInt n => exact integerForm_key v (toInt32_bounds n).1 (toInt32_bounds n).2
  | numberLong n => exact integerForm_key v (BitVec.le_toInt n) BitVec.toInt_lt
  | numberDouble d => exact doubleForm_key v d

theorem appendNumber_bytes (v : Version) (x : Number) (invert : Bool) :
    (appendNumber v invert x).bytes = (numberForm v x).encode invert := by
  cases x with
  | numberInt n => exact appendInteger_bytes v (toInt32_bounds n).1 (toInt32_bounds n).2 invert
  | numberLong n => exact appendInteger_bytes v (BitVec.le_toInt n) BitVec.toInt_lt invert
  | numberDouble d =>
    rw [appendNumber, appendNumberDouble, bytes_append, appendDouble_bytes]
    split_ifs
    · simp [appendTypeBits_bytes, numberForm]
    · simp [appendTypeBits_bytes, numberForm]

theorem compare_appendNumber (v : Version) (invert : Bool) (x y : Number) (s t : List UInt8) :
    compare ((appendNumber v invert x).bytes ++ s) ((appendNumber v invert y).bytes ++ t) =
      (directed invert (ofSign (compareNumbers x y))).then (compare s t) := by
  rw [appendNumber_bytes, appendNumber_bytes, NumericForm.compare_encode, numberForm_key,
    numberForm_key, ofSign_compareNumbers]

/-- Encoded numbers are ordered, and identified, exactly as their exact values. -/
theorem number_encoding_order_preserving (v : Version) (invert : Bool) (x y : Number) :
    compare (appendNumber v invert x).bytes (appendNumber v invert y).bytes =
        directed invert (ofSign (compareElementValues (.number x) (.number y))) ∧
      ofSign (compareElementValues (.number x) (.number y)) = x.exactValue.cmp y.exactValue ∧
      ((appendNumber v invert x).bytes = (appendNumber v invert y).bytes ↔
        x.exactValue = y.exactValue) := by
  have hnum : compareElementValues (.number x) (.number y) = compareNumbers x y := by
    simp [compareElementValues]
  have hcmp := compare_appendNumber v invert x y [] []
  simp only [List.append_nil, Std.ReflOrd.compare_self, Ordering.then_eq] at hcmp
  rw [hnum]
  refine ⟨hcmp, compareNumbers_exact x y, ?_⟩
  rw [← ExactValue.cmp_eq_iff, ← compareNumbers_exact, ← directed_eq_eq_iff (d := invert), ← hcmp]
  exact Std.LawfulEqOrd.compare_eq_iff_eq.symm

end MongoServer.KeyString
