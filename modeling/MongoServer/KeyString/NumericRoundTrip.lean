import MongoServer.KeyString.ReadContracts

/-!
Reading back a number. The integer and double layouts are inverted range by range; the
multiplications and conversions of the reader are exact on what the writer produced.
-/
namespace MongoServer.KeyString
open ByteOrder ByteReading Binary64 Magnitude BitVec
open Nat (log2)

section Dispatch
variable (v : Version) (inverted negative : Bool)

theorem toBsonNumber_small {b : ℕ} (h0 : 0 < b) (h1 : b < 1023 * 2 ^ 52) :
    toBsonNumber v ((small (v := v) b h0 h1).ctype negative) inverted =
      readSmallMagnitude v negative (inverted != negative) := by
  cases negative <;> cases inverted <;> rfl

theorem toBsonNumber_large {b : ℕ} (h0 : 1086 * 2 ^ 52 ≤ b) (h1 : b ≤ infBits) :
    toBsonNumber v ((large (v := v) b h0 h1).ctype negative) inverted =
      readLargeMagnitude v negative (inverted != negative) := by
  cases negative <;> cases inverted <;> rfl

theorem toBsonNumber_middle {ip frac : ℕ} (hip : 0 < ip) (hlt : ip < 2 ^ 63) (hf : frac < one)
    (hk : one ∣ frac * 2 ^ fractionBits v ip) :
    toBsonNumber v ((middle (v := v) ip frac hip hlt hf hk).ctype negative) inverted =
      readIntegerPortion v negative (inverted != negative) (integerBytes ip) := by
  obtain ⟨h1, h8⟩ := integerBytes_le hip hlt
  simp only [ctype, cls]
  generalize integerBytes ip = n at h1 h8
  cases negative <;> cases inverted <;> interval_cases n <;> rfl

end Dispatch

section Doubles

variable {b : ℕ}

theorem negateIf_make (s : Bool) (hb : b < 2 ^ 63) : negateIf s (make false b) = make s b := by
  cases s with
  | false => rfl
  | true =>
    rw [negateIf, if_pos rfl, neg, signBit_make _ hb, magBits_make _ hb]
    rfl

theorem decide_signed_neg (negative : Bool) {n : ℕ} (hn : 0 < n) :
    decide ((if negative then -(n : ℤ) else n) < 0) = negative := by
  cases negative with
  | false => exact decide_eq_false (Int.natCast_nonneg n).not_gt
  | true => exact decide_eq_true (Int.neg_neg_of_pos (Int.natCast_pos.mpr hn))

theorem ofNat_eq_make (b : ℕ) : BitVec.ofNat 64 b = make false b := by
  simp [make]

variable {T : List UInt8 → Prop} (v : Version) (inverted negative : Bool)

theorem consumes_small (h0 : 0 < b) (h1 : b < 1023 * 2 ^ 52) :
    Consumes At T (readSmallMagnitude v negative inverted)
      (flipIf inverted ((small (v := v) b h0 h1).payload negative))
      OriginalType.kDouble.bits (.numberDouble (make negative b)) := by
  have hlt := smallCode_lt (v := v) negative h1
  apply (consumes_readNumeric .kDouble).bind_side
  apply (consumes_readBigEndian inverted hlt).bind_return
  rw [if_neg (by simp)]
  cases v with
  | V0 =>
    rw [if_pos rfl]
    rfl
  | V1 =>
    rw [if_neg (by decide)]
    by_cases hb : 768 * 2 ^ 52 ≤ b
    · have hcode : smallCode .V1 negative b = 4 * b := by simp only [smallCode, hb, ↓reduceIte]
      have hprefix : 4 * b / 2 ^ 62 = 3 := by omega
      have hlow : 4 * b % 4 = 0 := by omega
      have hval : 4 * b / 4 = b := by omega
      simp only [hcode, hprefix, hlow, hval, ne_eq, not_true_eq_false, ↓reduceIte, ofNat_eq_make]
      rw [negateIf_make negative (by omega)]
    · have hb' := not_le.mp hb
      have hup := upshift_lt hb'
      have hcode : smallCode .V1 negative b = 2 * upshift b + 2 ^ 62 := by
        simp only [smallCode, hb, ↓reduceIte]
      have hprefix : (2 * upshift b + 2 ^ 62) / 2 ^ 62 = 1 ∨
          (2 * upshift b + 2 ^ 62) / 2 ^ 62 = 2 := by omega
      have hlow : (2 * upshift b + 2 ^ 62) % 2 = 0 := by omega
      have hval : (2 * upshift b + 2 ^ 62 - 2 ^ 62) / 2 = upshift b := by omega
      have hinf := infBits_eq
      -- shifting the exponent down again is exact
      have hdown : mul (make false (upshift b)) kTinyDoubleExponentDownshiftFactor =
          make false b := by
        obtain ⟨e, he, hone⟩ := exists_one_eq_pow
        have hfac : magOf (767 * 2 ^ 52) * 2 ^ 256 = one := by
          rw [magOf_pow (by norm_num) (by norm_num), hone, ← pow_add, he]
        have hpow : kTinyDoubleExponentDownshiftFactor = make false (767 * 2 ^ 52) := rfl
        rw [hpow]
        apply mul_exact false false (by omega) (by omega) (by omega)
        rw [magOf_upshift hb', ← hfac]
        ring
      rcases hprefix with hprefix | hprefix <;>
        simp only [hcode, hprefix, hlow, hval, ne_eq, not_true_eq_false, ↓reduceIte, ofNat_eq_make,
          hdown, negateIf_make negative (show b < 2 ^ 63 by omega)]

theorem largeCode_bits (h0 : 1086 * 2 ^ 52 ≤ b) (h1 : b ≤ infBits) :
    (if v = .V0 then pure (BitVec.ofNat 64 (largeCode v negative b))
      else if largeCode v negative b < 2 ^ 63 then
        pure (negateIf negative (BitVec.ofNat 64 (largeCode v negative b / 2 ||| 2 ^ 62)))
      else if largeCode v negative b = 2 ^ 64 - 1 then pure (infinity negative)
      else fail : Read (BitVec 64)) = pure (make negative b) := by
  have hinf := infBits_eq
  cases v with
  | V0 =>
    rw [if_pos rfl]
    rfl
  | V1 =>
    rw [if_neg (by decide)]
    by_cases hb : b < infBits
    · have hcode : largeCode .V1 negative b = 2 * b - 2 ^ 63 := by
        simp only [largeCode, hb, ↓reduceIte]
      have hor : (2 * b - 2 ^ 63) / 2 ||| 2 ^ 62 = b := by
        have hlt : (2 * b - 2 ^ 63) / 2 < 2 ^ 62 := by omega
        have hsum := Nat.two_pow_add_eq_or_of_lt hlt 1
        rw [Nat.or_comm, ← Nat.mul_one (2 ^ 62), ← hsum]
        omega
      rw [hcode, if_pos (by omega), hor, ofNat_eq_make, negateIf_make negative (by omega)]
    · have hbe : b = infBits := by omega
      have hcode : largeCode .V1 negative b = 2 ^ 64 - 1 := by
        simp only [largeCode, hb, ↓reduceIte]
      rw [hcode, if_neg (by norm_num), if_pos rfl, hbe]
      rfl

theorem consumes_large (h0 : 1086 * 2 ^ 52 ≤ b) (h1 : b ≤ infBits) :
    Consumes At T (readLargeMagnitude v negative inverted)
      (flipIf inverted ((large (v := v) b h0 h1).payload negative))
      OriginalType.kDouble.bits (.numberDouble (make negative b)) := by
  have hlt := largeCode_lt (v := v) negative h1
  apply (consumes_readNumeric .kDouble).bind_side
  rw [if_neg (by simp)]
  apply (consumes_readBigEndian inverted hlt).bind_return
  rw [largeCode_bits v negative h0 h1, pure_bind]

theorem consumes_large_long (h0 : 1086 * 2 ^ 52 ≤ 1086 * 2 ^ 52) (h1 : 1086 * 2 ^ 52 ≤ infBits) :
    Consumes At T (readLargeMagnitude v true inverted)
      (flipIf inverted ((large (v := v) (1086 * 2 ^ 52) h0 h1).payload true))
      OriginalType.kLong.bits (.numberLong (BitVec.intMin 64)) := by
  have hlt := largeCode_lt (v := v) true h1
  apply (consumes_readNumeric .kLong).bind_side
  rw [if_neg (by simp)]
  apply (consumes_readBigEndian inverted hlt).bind_return
  rw [largeCode_bits v true h0 h1, pure_bind]
  simp only [ofInt_min]
  rw [if_pos]
  simp only [beq, isNaN_make true h1, Bool.not_false, decide_true, Bool.and_true]

theorem consumes_whole (ip : ℕ) (t : OriginalType) (x : Number) (hx : (match t with
      | .kDouble => pure (.numberDouble (ofInt (if negative then -(ip : ℤ) else ip)))
      | .kInt => pure (.numberInt (BitVec.ofInt 32 (if negative then -(ip : ℤ) else ip)))
      | .kLong => pure (.numberLong (BitVec.ofInt 64 (if negative then -(ip : ℤ) else ip)))
      | .kDecimal => fail : Read Number) = pure x) :
    Consumes At T (readIntegerPortion v negative inverted (integerBytes ip))
      (flipIf inverted (beBytes (integerBytes ip) (markedInteger ip 0))) t.bits x := by
  have hm : markedInteger ip 0 = 2 * ip := rfl
  have heven : 2 * ip % 2 = 0 := by omega
  have hhalf : 2 * ip / 2 = ip := by omega
  apply (consumes_readNumeric t).bind_side
  apply (consumes_readBigEndian inverted (markedInteger_lt ip 0)).bind_return
  rw [hm, heven, hhalf, if_pos rfl]
  exact hx

theorem foldFractionBytes_eq (acc : ℕ) (bytes : List UInt8) :
    foldFractionBytes acc bytes = acc ||| ofBE bytes := by
  induction bytes generalizing acc with
  | nil => simp [foldFractionBytes]
  | cons byte rest ih =>
    have hlt : ofBE rest < 2 ^ (rest.length * 8) := by
      have h := ofBE_lt rest
      rwa [pow_256, mul_comm] at h
    have hbyte : byte.toNat * 2 ^ (rest.length * 8) ||| ofBE rest = ofBE (byte :: rest) := by
      rw [ofBE_cons, pow_256, mul_comm 8, mul_comm byte.toNat]
      exact (Nat.two_pow_add_eq_or_of_lt hlt _).symm
    rw [foldFractionBytes, ih, Nat.or_assoc, hbyte]

theorem v0_pattern {ip L f : ℕ} (hlog : log2 ip = L) (hip : 0 < ip) (hL : L ≤ 51)
    (hf : f < 2 ^ (52 - L)) :
    (if negative then
        (clearBit (ip * 2 ^ (52 - L) % 2 ^ 64) 52 ||| (L + 1023) * 2 ^ 52) ||| 2 ^ 63
      else clearBit (ip * 2 ^ (52 - L) % 2 ^ 64) 52 ||| (L + 1023) * 2 ^ 52) ||| f =
      (if negative then 2 ^ 63 else 0) + ((L + 1022) * 2 ^ 52 + ip * 2 ^ (52 - L) + f) := by
  obtain ⟨hpl, hpu⟩ := normalized_bounds hip.ne' (by omega : log2 ip ≤ 52)
  rw [hlog] at hpl hpu
  obtain ⟨q, hq⟩ : 2 ^ (52 - L) ∣ 2 ^ 52 := pow_dvd_pow 2 (by omega)
  have hclear : clearBit (ip * 2 ^ (52 - L) % 2 ^ 64) 52 = ip * 2 ^ (52 - L) - 2 ^ 52 := by
    have hbit : (ip * 2 ^ (52 - L)).testBit 52 = true := by
      rw [Nat.testBit_eq_decide_div_mod_eq]
      have hdiv : ip * 2 ^ (52 - L) / 2 ^ 52 = 1 := by omega
      rw [hdiv]
      rfl
    rw [Nat.mod_eq_of_lt (by omega), clearBit, if_pos hbit]
  have hexp : (ip * 2 ^ (52 - L) - 2 ^ 52) ||| (L + 1023) * 2 ^ 52 =
      (L + 1022) * 2 ^ 52 + ip * 2 ^ (52 - L) := by
    have hlt : ip * 2 ^ (52 - L) - 2 ^ 52 < 2 ^ 52 := by omega
    rw [Nat.or_comm, mul_comm (L + 1023), ← Nat.two_pow_add_eq_or_of_lt hlt]
    omega
  -- everything but the fraction is a multiple of the fraction's range
  have hdvd : 2 ^ (52 - L) ∣ (L + 1022) * 2 ^ 52 + ip * 2 ^ (52 - L) := by
    rw [hq]
    exact ⟨(L + 1022) * q + ip, by ring⟩
  have hfold : ∀ a, 2 ^ (52 - L) ∣ a → a ||| f = a + f := by
    rintro a ⟨c, rfl⟩
    exact (Nat.two_pow_add_eq_or_of_lt hf c).symm
  rw [hclear, hexp]
  cases negative with
  | false =>
    simp only [Bool.false_eq_true, ↓reduceIte]
    rw [hfold _ hdvd]
    omega
  | true =>
    simp only [↓reduceIte]
    have hsign : (L + 1022) * 2 ^ 52 + ip * 2 ^ (52 - L) ||| 2 ^ 63 =
        2 ^ 63 + ((L + 1022) * 2 ^ 52 + ip * 2 ^ (52 - L)) := by
      have hlt : (L + 1022) * 2 ^ 52 + ip * 2 ^ (52 - L) < 2 ^ 63 := by omega
      have hsum := Nat.two_pow_add_eq_or_of_lt hlt 1
      rw [Nat.or_comm, ← Nat.mul_one (2 ^ 63), ← hsum]
    have hdvd' : 2 ^ (52 - L) ∣ 2 ^ 63 + ((L + 1022) * 2 ^ 52 + ip * 2 ^ (52 - L)) := by
      exact (pow_dvd_pow 2 (by omega)).add hdvd
    rw [hsign, hfold _ hdvd', add_assoc]

theorem kInvPow256_eq {k : ℕ} (h : k ≤ 7) : kInvPow256 k = make false ((1023 - 8 * k) * 2 ^ 52) ∧
      magOf ((1023 - 8 * k) * 2 ^ 52) * 256 ^ k = one := by
  obtain ⟨e, he, hone⟩ := exists_one_eq_pow
  refine ⟨?_, ?_⟩
  · have hexp : (1023 + -8 * (k : ℤ)).toNat = 1023 - 8 * k := by omega
    rw [kInvPow256, pow2, hexp]
  · rw [magOf_pow (by omega) (by omega), pow_256, ← pow_add, hone]
    congr 1
    omega

section Middle
variable (hl : 1023 * 2 ^ 52 ≤ b) (hu : b < 1086 * 2 ^ 52)
include hl hu

theorem consumes_fraction_v0 (hf : magOf b % one ≠ 0) (intBytes : ℕ) :
    Consumes At T (readFraction .V0 negative inverted intBytes (magOf b / one) .kDouble)
      (flipIf inverted (beBytes (fractionBytes .V0 (magOf b / one))
        (fractionCode .V0 (magOf b / one) (magOf b % one)))) []
      (.numberDouble (make negative b)) := by
  obtain ⟨hip, hlt, -, hfrac⟩ := middle_split hl hu
  obtain ⟨hlog, heq, hpat⟩ := hfrac hf
  have hfl : magOf b % one < one := Nat.mod_lt _ one_pos
  have hcode : fractionCode .V0 (magOf b / one) (magOf b % one) =
      b % 2 ^ (52 - log2 (magOf b / one)) := by
    simp only [fractionCode, fractionBits]
    rw [heq, Nat.mul_div_cancel _ Binary64.one_pos]
  have hlt' := fractionCode_lt .V0 (magOf b / one) hfl
  have hexp : 64 - countLeadingZeros64 (magOf b / one) - 1 = log2 (magOf b / one) := by
    rw [countLeadingZeros64_eq hip]
    omega
  simp only [fractionBytes, fractionBits] at hlt'
  generalize magOf b / one = ip at *
  simp only [readFraction, ne_eq, not_true_eq_false, ↓reduceIte, hexp]
  apply (consumes_readBytes inverted _ (length_beBytes _ _)).bind_return
  rw [foldFractionBytes_eq, ofBE_beBytes_of_lt hlt', hcode,
    v0_pattern negative rfl hip hlog (Nat.mod_lt _ (by positivity)), ← hpat]
  rfl

/-- What the V1 writer stores for a fraction is the magnitude times a power of 256, and its
two low bits are clear. -/
theorem v1_scaled (hf : magOf b % one ≠ 0) :
    (magOf b / one * 256 ^ fractionBytes .V1 (magOf b / one) +
        fractionCode .V1 (magOf b / one) (magOf b % one)) * one =
      magOf b * 256 ^ fractionBytes .V1 (magOf b / one) ∧
    (magOf b / one * 256 ^ fractionBytes .V1 (magOf b / one) +
        fractionCode .V1 (magOf b / one) (magOf b % one)) % 4 = 0 := by
  obtain ⟨hip, hlt, -, hfrac⟩ := middle_split hl hu
  obtain ⟨hlog, heq, -⟩ := hfrac hf
  have hsplit := Nat.div_add_mod (magOf b) one
  generalize magOf b / one = ip at *
  generalize magOf b % one = frac at *
  obtain ⟨k, hk⟩ : ∃ k, fractionBytes .V1 ip = k := ⟨_, rfl⟩
  have hbits : fractionBits .V1 ip = 8 * k := by
    rw [← hk]
    simp only [fractionBytes, fractionBits]
    omega
  -- the fraction bits kept exceed those of the double by at least two
  obtain ⟨r, hr⟩ : ∃ r, 8 * k = 52 - log2 ip + (r + 2) := by
    refine ⟨8 * k - (52 - log2 ip) - 2, ?_⟩
    rw [← hbits]
    simp only [fractionBits]
    omega
  have hcode : fractionCode .V1 ip frac = b % 2 ^ (52 - log2 ip) * 2 ^ r * 4 := by
    rw [fractionCode, hbits, hr, pow_add 2 (52 - log2 ip), ← mul_assoc, heq, pow_add 2 r]
    rw [show b % 2 ^ (52 - log2 ip) * one * (2 ^ r * 2 ^ 2) =
      b % 2 ^ (52 - log2 ip) * 2 ^ r * 4 * one by ring, Nat.mul_div_cancel _ Binary64.one_pos]
  rw [hk, hcode, pow_256, ← hsplit, hr, pow_add 2 (52 - log2 ip), pow_add 2 r]
  constructor
  · rw [show (one * ip + frac) * (2 ^ (52 - log2 ip) * (2 ^ r * 2 ^ 2)) =
      one * ip * (2 ^ (52 - log2 ip) * (2 ^ r * 2 ^ 2)) +
        frac * 2 ^ (52 - log2 ip) * (2 ^ r * 2 ^ 2) by ring, heq]
    ring
  · rw [show ip * (2 ^ (52 - log2 ip) * (2 ^ r * 2 ^ 2)) + b % 2 ^ (52 - log2 ip) * 2 ^ r * 4 =
      (ip * (2 ^ (52 - log2 ip) * 2 ^ r) + b % 2 ^ (52 - log2 ip) * 2 ^ r) * 4 by ring]
    exact Nat.mul_mod_left _ _

theorem consumes_fraction_v1 (hf : magOf b % one ≠ 0) : Consumes At T
      (readFraction .V1 negative inverted (integerBytes (magOf b / one)) (magOf b / one) .kDouble)
      (flipIf inverted (beBytes (fractionBytes .V1 (magOf b / one))
        (fractionCode .V1 (magOf b / one) (magOf b % one)))) []
      (.numberDouble (make negative b)) := by
  have hinf := infBits_eq
  obtain ⟨hip, hlt, -, -⟩ := middle_split hl hu
  obtain ⟨hscaled, hlow⟩ := v1_scaled hl hu hf
  have hfl : magOf b % one < one := Nat.mod_lt _ one_pos
  have hcode := fractionCode_lt .V1 (magOf b / one) hfl
  have hmark := markedInteger_lt (magOf b / one) (magOf b % one)
  have hn := integerBytes_le hip hlt
  have hbytes : 8 - integerBytes (magOf b / one) = fractionBytes .V1 (magOf b / one) := by
    have hlog63 := log2_lt_63 hip hlt
    simp only [integerBytes, fractionBytes, fractionBits]
    omega
  have hk7 : fractionBytes .V1 (magOf b / one) ≤ 7 := by omega
  simp only [readFraction, hbytes, ↓reduceIte]
  generalize magOf b / one = ip at *
  generalize hk : fractionBytes .V1 ip = k at *
  generalize fractionCode .V1 ip (magOf b % one) = fcode at *
  have hlt64 : ip * 256 ^ k + fcode < 2 ^ 64 := by
    have hsum : integerBytes ip + k = 8 := by omega
    have hip1 : ip + 1 ≤ 256 ^ integerBytes ip := by
      unfold markedInteger at hmark
      omega
    calc ip * 256 ^ k + fcode < ip * 256 ^ k + 256 ^ k := by omega
      _ = (ip + 1) * 256 ^ k := by ring
      _ ≤ 256 ^ integerBytes ip * 256 ^ k := Nat.mul_le_mul_right _ hip1
      _ = 2 ^ 64 := by rw [← pow_add, hsum]; norm_num
  have hclear : (ip * 256 ^ k + fcode) / 4 * 4 = ip * 256 ^ k + fcode := by omega
  -- the scaled integer has the significand of the double, so the conversion is exact
  obtain ⟨m, p, hm, hp, he⟩ := magOf_significand b
  obtain ⟨c, hc, hcm⟩ := exists_magOf (m := m) (p := p + 8 * k) hm (by omega)
  have hprod : magOf c = magOf b * 256 ^ k := by
    rw [hcm, he, pow_256, mul_assoc, ← pow_add]
  have hconv : ofInt ((ip * 256 ^ k + fcode : ℕ) : ℤ) = make false c := by
    have hof := ofInt_eq_make (n := ((ip * 256 ^ k + fcode : ℕ) : ℤ)) hc.le
      (by rw [Int.natAbs_natCast, hscaled, hprod])
    rw [hof, decide_eq_false (Int.natCast_nonneg _).not_gt]
  obtain ⟨hinv, hinvmag⟩ := kInvPow256_eq hk7
  have hmul : mul (make false c) (kInvPow256 k) = make false b := by
    rw [hinv]
    apply mul_exact false false hc (by omega) (by omega)
    rw [hprod, mul_assoc, mul_comm (256 ^ k), hinvmag]
  apply (consumes_readBytes inverted _ (length_beBytes k fcode)).bind_return
  rw [ofBE_beBytes_of_lt hcode, Nat.mod_eq_of_lt hlt64, hclear, hconv, hmul,
    negateIf_make negative (by omega)]

theorem consumes_middle :
    Consumes At T (readIntegerPortion v negative inverted (integerBytes (magOf b / one)))
      (flipIf inverted ((middleOf v b hl hu).payload negative)) OriginalType.kDouble.bits
      (.numberDouble (make negative b)) := by
  obtain ⟨hip, hlt, -, -⟩ := middle_split hl hu
  have hinf := infBits_eq
  by_cases hf : magOf b % one = 0
  · have hpay : (middleOf v b hl hu).payload negative =
        beBytes (integerBytes (magOf b / one)) (markedInteger (magOf b / one) 0) := by
      simp only [middleOf, payload, hf, ↓reduceIte, List.append_nil]
    rw [hpay]
    apply consumes_whole
    have hwhole : magOf b / one * one = magOf b := by
      rw [mul_comm]
      have h := Nat.div_add_mod (magOf b) one
      omega
    have hof := ofInt_eq_make
      (n := if negative then -((magOf b / one : ℕ) : ℤ) else (magOf b / one : ℕ))
      (b := b) (by omega) (by cases negative <;> simp only [Bool.false_eq_true, ↓reduceIte,
        Int.natAbs_neg, Int.natAbs_natCast, hwhole])
    simp only [hof, decide_signed_neg negative hip]
  · have hpay : (middleOf v b hl hu).payload negative =
        beBytes (integerBytes (magOf b / one)) (2 * (magOf b / one) + 1) ++
          beBytes (fractionBytes v (magOf b / one))
            (fractionCode v (magOf b / one) (magOf b % one)) := by
      simp only [middleOf, payload, markedInteger, hf, ↓reduceIte]
    have hmark := markedInteger_lt (magOf b / one) (magOf b % one)
    simp only [markedInteger, hf, ↓reduceIte] at hmark
    rw [hpay, flipIf_append]
    apply (consumes_readNumeric .kDouble).bind_side
    apply (consumes_readBigEndian inverted hmark).bind_any (b := []) (c := [])
    have hodd : (2 * (magOf b / one) + 1) % 2 ≠ 0 := by omega
    have hhalf : (2 * (magOf b / one) + 1) / 2 = magOf b / one := by omega
    rw [if_neg hodd, hhalf]
    cases v with
    | V0 => exact consumes_fraction_v0 inverted negative hl hu hf _
    | V1 => exact consumes_fraction_v1 inverted negative hl hu hf

end Middle
end Doubles

section Numbers
variable {T : List UInt8 → Prop} (v : Version) (inverted : Bool)

def ReadsBack (T : List UInt8 → Prop) (v : Version) (inverted : Bool) (f : NumericForm v)
    (bits : List Bool) (x : Number) : Prop :=
  Consumes At T (toBsonNumber v f.lead inverted) (f.rest inverted) bits x

theorem readsBack_zero {bits : List Bool} {x : Number}
    (h : Consumes At T (readZero v) [] bits x) : ReadsBack T v inverted .zero bits x := h

theorem consumes_readZero_plain {t : OriginalType} {x : Number} (hx : (match t with
      | .kInt => pure (.numberInt 0)
      | .kLong => pure (.numberLong 0)
      | .kDouble => pure (.numberDouble (make false 0))
      | .kDecimal => fail : Read Number) = pure x) :
    Consumes At T (readZero v) [] t.bits x := by
  apply (consumes_readNumeric t).bind_return
  cases t with
  | kInt | kLong | kDouble => exact hx
  | kDecimal => exact absurd (congrFun hx ⟨[], TypeBits.reset, 0⟩) (by rintro ⟨⟩)

theorem consumes_readZero_negative :
    Consumes At T (readZero v) [] (TypeBits.negativeDoubleZeroBits v)
      (.numberDouble (make true 0)) := by
  cases v with
  | V0 =>
    apply (consumes_readNumeric .kDecimal).bind_return
    rfl
  | V1 =>
    apply (consumes_readNumeric .kDecimal).bind_any (p := []) (q := []) (c := [false, false, false])
    simp only [show Version.V1 ≠ Version.V0 by decide, ↓reduceIte]
    apply (consumes_readBit false).bind_any (p := []) (q := []) (b := [false]) (c := [false, false])
    apply (consumes_readBit false).bind_any (p := []) (q := []) (b := [false]) (c := [false])
    exact (consumes_readBit false).bind_return rfl

theorem readsBack_integer {n : ℤ} (hl : -2 ^ 63 ≤ n) (hu : n < 2 ^ 63) (t : OriginalType)
    (x : Number) (hmin : n = -2 ^ 63 → t = .kLong ∧ x = .numberLong (BitVec.intMin 64))
    (hx : (t = .kInt ∧ x = .numberInt (BitVec.ofInt 32 n)) ∨
      (t = .kLong ∧ x = .numberLong (BitVec.ofInt 64 n))) :
    ReadsBack T v inverted (integerForm v n hl hu) t.bits x := by
  by_cases h₁ : n = -2 ^ 63
  · obtain ⟨rfl, rfl⟩ := hmin h₁
    rw [integerForm, dif_pos h₁, ReadsBack, NumericForm.lead, toBsonNumber_large]
    exact consumes_large_long v (inverted != true) le_rfl _
  by_cases h₂ : n = 0
  · subst h₂
    rw [integerForm, dif_neg h₁, dif_pos rfl]
    apply readsBack_zero
    rcases hx with ⟨rfl, rfl⟩ | ⟨rfl, rfl⟩
    · exact consumes_readZero_plain v rfl
    · exact consumes_readZero_plain v rfl
  · have hip : 0 < n.natAbs := by omega
    have hval : (if decide (n < 0) then -(n.natAbs : ℤ) else (n.natAbs : ℤ)) = n := by
      by_cases hneg : n < 0 <;> simp only [hneg, decide_true, decide_false, Bool.false_eq_true,
        ↓reduceIte] <;> omega
    rw [integerForm, dif_neg h₁, dif_neg h₂, ReadsBack, NumericForm.lead, toBsonNumber_middle]
    simp only [NumericForm.rest, payload, ↓reduceIte, List.append_nil]
    apply consumes_whole
    rw [hval]
    rcases hx with ⟨rfl, rfl⟩ | ⟨rfl, rfl⟩
    · rfl
    · rfl

section TypeBitsOfNumbers

theorem preshifted_bits (value : ℕ) (negative : Bool) :
    (appendPreshiftedIntegerPortion value negative inverted).bits = [] := by
  cases negative <;> rfl

theorem double_bits (d : BitVec 64) : (appendDoubleWithoutTypeBits v d inverted).bits = [] := by
  have hfrac : ∀ negative, (appendFractionalDouble v d negative inverted).bits = [] := by
    intro negative
    cases v with
    | V0 => rw [appendFractionalDouble, bits_append, preshifted_bits, appendBytes_bits]; rfl
    | V1 => rfl
  simp only [appendDoubleWithoutTypeBits]
  split_ifs
  all_goals first
    | rfl
    | exact preshifted_bits _ _ _
    | exact hfrac _

theorem integer_bits (n : ℤ) : (appendInteger v n inverted).bits = [] := by
  simp only [appendInteger]
  split_ifs
  all_goals first
    | rfl
    | exact preshifted_bits _ _ _

end TypeBitsOfNumbers

theorem readsBack_double {d : BitVec 64} (hnan : isNaN d = true → d = canonicalNaN) :
    ReadsBack T v inverted (doubleForm v d) (appendNumberDouble v d inverted).bits
      (.numberDouble d) := by
  have hd := make_signBit_magBits d
  have hsome : (beq d 0 && signBit d) = false →
      (appendNumberDouble v d inverted).bits = OriginalType.kDouble.bits := by
    intro h
    rw [appendNumberDouble, if_neg (Bool.eq_false_iff.mp h), bits_append, double_bits]
    rfl
  by_cases hn : isNaN d = true
  · have hbeq : (beq d 0 && signBit d) = false := by simp [beq, hn]
    rw [hsome hbeq, doubleForm, dif_pos hn, hnan hn, ReadsBack]
    exact (consumes_readNumeric .kDouble).bind_return rfl
  have hn' := Bool.eq_false_iff.mpr hn
  by_cases h0 : magBits d = 0
  · have hmag : mag d = 0 := by rw [mag, h0]; rfl
    have hbeq : beq d 0 = true := by
      have hs : scaled d = 0 := by simp [scaled, hmag]
      simp only [beq, hn', isNaN_zero, hs, scaled_zero, decide_true, Bool.not_false, Bool.and_true]
    rw [doubleForm, dif_neg hn, dif_pos h0]
    apply readsBack_zero
    rw [h0] at hd
    cases hs : signBit d with
    | false =>
      rw [hsome (by rw [hs, Bool.and_false]), ← hd, hs]
      exact consumes_readZero_plain v rfl
    | true =>
      have hbits : (appendNumberDouble v d inverted).bits = TypeBits.negativeDoubleZeroBits v := by
        rw [appendNumberDouble, if_pos (by rw [hbeq, hs]; rfl), bits_append, double_bits]
        simp
      rw [hbits, ← hd, hs]
      exact consumes_readZero_negative v
  have hbeq : (beq d 0 && signBit d) = false := by
    have hpos := mag_pos h0
    have hs : scaled d ≠ 0 := by
      intro hz
      have habs := natAbs_scaled d
      rw [hz] at habs
      simp at habs
      omega
    simp only [beq, scaled_zero, hs, decide_false, Bool.and_false, Bool.false_and]
  rw [hsome hbeq, doubleForm, dif_neg hn, dif_neg h0, ReadsBack, NumericForm.lead]
  conv => rhs; rw [← hd]
  split_ifs with hs hm
  · rw [toBsonNumber_small]
    exact consumes_small v _ _ _ hs
  · rw [middleOf, toBsonNumber_middle]
    exact consumes_middle v _ _ (not_lt.mp hs) hm
  · rw [toBsonNumber_large]
    exact consumes_large v _ _ (not_lt.mp hm) _

/-- Every number is read back in its own type, up to the choice of a NaN. -/
theorem readsBack_number (x : Number)
    (hnan : ∀ d, x = .numberDouble d → isNaN d = true → d = canonicalNaN) :
    ReadsBack T v inverted (numberForm v x) (appendNumber v inverted x).bits x := by
  cases x with
  | numberInt n =>
    have hl := le_toInt n
    have hbits : (appendNumber v inverted (.numberInt n)).bits = OriginalType.kInt.bits := by
      rw [appendNumber, bits_append, integer_bits]
      rfl
    rw [hbits]
    apply readsBack_integer v inverted (toInt32_bounds n).1 (toInt32_bounds n).2
    · intro hmin
      omega
    · exact .inl ⟨rfl, by rw [ofInt_toInt]⟩
  | numberLong n =>
    have hbits : (appendNumber v inverted (.numberLong n)).bits = OriginalType.kLong.bits := by
      rw [appendNumber, bits_append, integer_bits]
      rfl
    rw [hbits]
    apply readsBack_integer v inverted (le_toInt n) toInt_lt
    · intro hmin
      refine ⟨rfl, ?_⟩
      congr 1
      apply eq_of_toInt_eq
      rw [hmin]
      rfl
    · exact .inr ⟨rfl, by rw [ofInt_toInt]⟩
  | numberDouble d => exact readsBack_double v inverted (hnan d rfl)

end Numbers

end MongoServer.KeyString
