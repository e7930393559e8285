import MongoServer.Bson.NumericValue
import MongoServer.KeyString.Append

/-!
The layouts of a number. A nonzero magnitude is small, middle or large, and within its
layout the payload is a numeral that grows with the magnitude; a negative number has the
mirrored type byte and the complemented payload. Every number the writer accepts has one
of these forms, and the byte order of the forms is the order of their keys.
-/
namespace MongoServer.KeyString
open ByteOrder Binary64 Nat Bool Std.ReflOrd

def integerBytes (ip : ℕ) : ℕ := (log2 ip + 9) / 8

def fractionBits : Version → ℕ → ℕ
  | .V0, ip => 52 - log2 ip
  | .V1, ip => (62 - log2 ip) / 8 * 8

variable (v : Version)

def fractionBytes (ip : ℕ) : ℕ := (fractionBits v ip + 7) / 8

/-- A nonzero magnitude; `frac` counts units of `2 ^ (-1074)`. -/
inductive Magnitude (v : Version) where
  | small (b : ℕ) (pos : 0 < b) (lt : b < 1023 * 2 ^ 52)
  | middle (ip frac : ℕ) (pos : 0 < ip) (lt : ip < 2 ^ 63) (frac_lt : frac < one)
      (kept : one ∣ frac * 2 ^ fractionBits v ip)
  | large (b : ℕ) (ge : 1086 * 2 ^ 52 ≤ b) (le : b ≤ infBits)

/-- The pattern of a tiny magnitude times `2 ^ 256`. -/
def upshift (b : ℕ) : ℕ := roundBits (magOf b * 2 ^ 256) 1

def smallCode (negative : Bool) (b : ℕ) : ℕ :=
  match v with
  | .V0 => (if negative then 2 ^ 63 else 0) + b
  | .V1 => if 768 * 2 ^ 52 ≤ b then 4 * b else 2 * upshift b + 2 ^ 62

def largeCode (negative : Bool) (b : ℕ) : ℕ :=
  match v with
  | .V0 => (if negative then 2 ^ 63 else 0) + b
  | .V1 => if b < infBits then 2 * b - 2 ^ 63 else 2 ^ 64 - 1

def fractionCode (ip frac : ℕ) : ℕ := frac * 2 ^ fractionBits v ip / one

/-- The integer part with a marker bit below it that says whether a fraction follows. -/
def markedInteger (ip frac : ℕ) : ℕ := 2 * ip + if frac = 0 then 0 else 1

namespace Magnitude
variable {v : Version}

def toNat : Magnitude v → ℕ
  | small b _ _ => magOf b
  | middle ip frac _ _ _ _ => ip * one + frac
  | large b _ _ => magOf b

def cls : Magnitude v → ℕ
  | small _ _ _ => 0
  | middle ip _ _ _ _ _ => integerBytes ip
  | large _ _ _ => 9

def payload (negative : Bool) : Magnitude v → List UInt8
  | small b _ _ => beBytes 8 (smallCode v negative b)
  | middle ip frac _ _ _ _ =>
      beBytes (integerBytes ip) (markedInteger ip frac) ++
        if frac = 0 then [] else beBytes (fractionBytes v ip) (fractionCode v ip frac)
  | large b _ _ => beBytes 8 (largeCode v negative b)

def ctype (negative : Bool) (m : Magnitude v) : UInt8 :=
  if negative then UInt8.ofNat (40 - m.cls) else UInt8.ofNat (42 + m.cls)

def encode (invert negative : Bool) (m : Magnitude v) : List UInt8 :=
  flipIf invert [m.ctype negative] ++ flipIf (invert != negative) (m.payload negative)

end Magnitude

theorem log2_lt_63 {ip : ℕ} (hpos : 0 < ip) (hlt : ip < 2 ^ 63) : log2 ip < 63 :=
  (log2_lt hpos.ne').mpr hlt

theorem integerBytes_le {ip : ℕ} (hpos : 0 < ip) (hlt : ip < 2 ^ 63) :
    1 ≤ integerBytes ip ∧ integerBytes ip ≤ 8 := by
  have h := log2_lt_63 hpos hlt
  unfold integerBytes
  omega

theorem pow_256 (k : ℕ) : 256 ^ k = 2 ^ (8 * k) := (pow_mul 2 8 k).symm

theorem infBits_eq : infBits = 2047 * 2 ^ 52 := rfl

theorem markedInteger_lt (ip frac : ℕ) : markedInteger ip frac < 256 ^ integerBytes ip := by
  have hlog : ip < 2 ^ (Nat.log2 ip + 1) := Nat.lt_log2_self
  have hpow : 2 ^ (Nat.log2 ip + 2) ≤ 256 ^ integerBytes ip := by
    rw [pow_256]
    apply Nat.pow_le_pow_right (by norm_num)
    unfold integerBytes
    omega
  have hdouble : 2 ^ (Nat.log2 ip + 2) = 2 * 2 ^ (Nat.log2 ip + 1) := by ring
  unfold markedInteger
  split_ifs <;> omega

theorem integerBytes_mono {ip ip' : ℕ} (h : ip ≤ ip') : integerBytes ip ≤ integerBytes ip' := by
  have hlog : log2 ip ≤ log2 ip' := by
    rw [log2_eq_log_two, log2_eq_log_two]
    exact log_mono_right h
  unfold integerBytes
  omega

theorem fractionCode_lt (ip : ℕ) {frac : ℕ} (h : frac < one) :
    fractionCode v ip frac < 256 ^ fractionBytes v ip := by
  have hlt : fractionCode v ip frac < 2 ^ fractionBits v ip := by
    rw [fractionCode, Nat.div_lt_iff_lt_mul Binary64.one_pos, mul_comm]
    exact Nat.mul_lt_mul_of_pos_left h (by positivity)
  apply hlt.trans_le
  rw [pow_256]
  apply Nat.pow_le_pow_right (by norm_num)
  unfold fractionBytes
  omega

theorem compare_of_strictMonoOn {f : ℕ → ℕ} {s : Set ℕ} (hf : StrictMonoOn f s) {a b : ℕ}
    (ha : a ∈ s) (hb : b ∈ s) : compare (f a) (f b) = compare a b := by
  rw [← cmp_eq_compare, ← cmp_eq_compare]
  exact hf.cmp_map_eq ha hb

theorem compare_fractionCode {v : Version} {ip f g : ℕ} (hf : one ∣ f * 2 ^ fractionBits v ip)
    (hg : one ∣ g * 2 ^ fractionBits v ip) :
    compare (fractionCode v ip f) (fractionCode v ip g) = compare f g := by
  apply compare_of_strictMonoOn (s := {x | one ∣ x * 2 ^ fractionBits v ip}) _ hf hg
  rintro x ⟨a, ha⟩ y ⟨b, hb⟩ hlt
  have hmul : x * 2 ^ fractionBits v ip < y * 2 ^ fractionBits v ip :=
    mul_lt_mul_of_pos_right hlt (by positivity)
  rw [fractionCode, fractionCode, ha, hb, Nat.mul_div_cancel_left _ Binary64.one_pos,
    Nat.mul_div_cancel_left _ Binary64.one_pos]
  rw [ha, hb] at hmul
  exact Nat.lt_of_mul_lt_mul_left hmul

theorem magOf_upshift {b : ℕ} (h : b < 768 * 2 ^ 52) : magOf (upshift b) = magOf b * 2 ^ 256 := by
  obtain ⟨m, p, hm, hp, he⟩ := magOf_significand b
  have hp' : p + 256 ≤ 2045 := by omega
  have hprod : magOf b * 2 ^ 256 = m * 2 ^ (p + 256) * 1 := by rw [he, pow_add]; ring
  rw [upshift, hprod, (magOf_roundBits (d := 1) (by norm_num) hm hp').2, mul_one]

theorem upshift_lt {b : ℕ} (h : b < 768 * 2 ^ 52) : upshift b < 1024 * 2 ^ 52 := by
  rw [← magOf_lt_iff, magOf_upshift h, magOf_pow (s := 1024) (by norm_num) (by norm_num)]
  have hlt : magOf b < 2 ^ (51 + 768) := by
    rw [← magOf_pow (s := 768) (by norm_num) (by norm_num)]
    exact magOf_lt_iff.mpr h
  have hpow : 2 ^ (51 + 1024) = 2 ^ (51 + 768) * 2 ^ 256 := by rw [← pow_add]
  rw [hpow]
  exact mul_lt_mul_of_pos_right hlt (by positivity)

theorem smallCode_lt {v : Version} (negative : Bool) {b : ℕ} (h : b < 1023 * 2 ^ 52) :
    smallCode v negative b < 256 ^ 8 := by
  cases v with
  | V0 => cases negative <;> simp only [smallCode, false_eq_true, ↓reduceIte] <;> omega
  | V1 =>
    simp only [smallCode]
    split_ifs with hb
    · omega
    · have hu := upshift_lt (not_le.mp hb)
      omega

theorem smallCode_strictMonoOn (negative : Bool) :
    StrictMonoOn (smallCode v negative) {b | b < 1023 * 2 ^ 52} := by
  intro b hb c hc hlt
  simp only [Set.mem_ofPred_eq] at hb hc
  cases v with
  | V0 => cases negative <;> simp only [smallCode, false_eq_true, ↓reduceIte] <;> omega
  | V1 =>
    simp only [smallCode]
    split_ifs with h₁ h₂ h₂
    · omega
    · omega
    · -- the two prefixes `01` and `10` are below the prefix `11`
      have hu := upshift_lt (not_le.mp h₁)
      omega
    · have hup : upshift b < upshift c := by
        rw [← magOf_lt_iff, magOf_upshift (not_le.mp h₁), magOf_upshift (not_le.mp h₂)]
        exact mul_lt_mul_of_pos_right (magOf_lt_iff.mpr hlt) (by positivity)
      omega

theorem largeCode_lt {v : Version} (negative : Bool) {b : ℕ} (h : b ≤ infBits) :
    largeCode v negative b < 256 ^ 8 := by
  have hinf := infBits_eq
  cases v with
  | V0 => cases negative <;> simp only [largeCode, false_eq_true, ↓reduceIte] <;> omega
  | V1 =>
    simp only [largeCode]
    split_ifs <;> omega

theorem largeCode_strictMonoOn (negative : Bool) :
    StrictMonoOn (largeCode v negative) {b | 1086 * 2 ^ 52 ≤ b ∧ b ≤ infBits} := by
  intro b hb c hc hlt
  simp only [Set.mem_ofPred_eq] at hb hc
  have hinf := infBits_eq
  cases v with
  | V0 => cases negative <;> simp only [largeCode, false_eq_true, ↓reduceIte] <;> omega
  | V1 =>
    simp only [largeCode]
    split_ifs <;> omega

theorem then_of_ne_eq {o : Ordering} (h : o ≠ .eq) (p : Ordering) : o.then p = o := by
  cases o <;> simp_all

theorem compare_neg (a b : ℤ) : compare (-a) (-b) = (compare a b).swap :=
  compare_congr_swap (by omega) (by omega)

namespace Magnitude
variable {v : Version} {m n : Magnitude v}

theorem toNat_pos (m : Magnitude v) : 0 < m.toNat := by
  cases m with
  | small b pos lt =>
    have h : magOf 0 < magOf b := magOf_lt_iff.mpr pos
    exact (zero_le _).trans_lt h
  | middle ip frac pos lt frac_lt kept =>
    have h := mul_pos pos Binary64.one_pos
    simp only [toNat]
    omega
  | large b ge le =>
    have h : magOf 0 < magOf b := magOf_lt_iff.mpr (by omega)
    exact (zero_le _).trans_lt h

theorem cls_le (m : Magnitude v) : m.cls ≤ 9 := by
  cases m with
  | small b pos lt => exact zero_le 9
  | middle ip frac pos lt frac_lt kept => exact (integerBytes_le pos lt).2.trans (by norm_num)
  | large b ge le => exact le_rfl

theorem toNat_lt_of_cls_lt (h : m.cls < n.cls) : m.toNat < n.toNat := by
  have hone := Binary64.one_pos
  cases m with
  | small b pos lt =>
    have hm : magOf b < one := by
      rw [← magOf_one]
      exact magOf_lt_iff.mpr lt
    cases n with
    | small => exact absurd h (lt_irrefl 0)
    | middle ip frac hip hlt =>
      have hmul : 1 * one ≤ ip * one := mul_le_mul_right one hip
      simp only [toNat]
      omega
    | large c ge le => exact magOf_lt_iff.mpr (by omega)
  | middle ip frac hip hlt hfrac =>
    cases n with
    | small => exact absurd h (not_lt_zero _)
    | middle ip' frac' hip' hlt' hfrac' =>
      have hlt : ip < ip' := by
        by_contra hge
        exact absurd (integerBytes_mono (not_lt.mp hge)) (not_le.mpr h)
      have hmul : (ip + 1) * one ≤ ip' * one := mul_le_mul_right one hlt
      rw [succ_mul] at hmul
      simp only [toNat]
      omega
    | large c ge le =>
      have hc : 2 ^ 63 * one ≤ magOf c := by
        rw [← magOf_two_pow_63]
        exact magOf_strictMono.monotone ge
      have hmul : (ip + 1) * one ≤ 2 ^ 63 * one := mul_le_mul_right one hlt
      rw [succ_mul] at hmul
      simp only [toNat]
      omega
  | large b ge le => exact absurd (cls_le n) (not_le.mpr h)

theorem compare_toNat_of_cls_ne (h : m.cls ≠ n.cls) :
    compare m.toNat n.toNat = compare m.cls n.cls :=
  compare_of_rank_ne toNat_lt_of_cls_lt h

private theorem compare_markedInteger {ip ip' f f' : ℕ}
    (h : markedInteger ip f ≠ markedInteger ip' f') (hf : f < one) (hf' : f' < one) :
    compare (markedInteger ip f) (markedInteger ip' f') =
      compare (ip * one + f) (ip' * one + f') := by
  rw [mul_comm ip, mul_comm ip', compare_nat_mul_add hf hf']
  rcases lt_trichotomy ip ip' with hip | rfl | hip
  · have hlt : markedInteger ip f < markedInteger ip' f' := by
      unfold markedInteger
      split_ifs <;> omega
    rw [compare_lt_iff_lt.mpr hip, compare_lt_iff_lt.mpr hlt]
    rfl
  · unfold markedInteger at h ⊢
    rw [compare_self]
    split_ifs at h ⊢ with h₁ h₂ h₂
    · exact absurd rfl h
    · rw [h₁, compare_lt_iff_lt.mpr (by omega), compare_lt_iff_lt.mpr (by omega)]
      rfl
    · rw [h₂, compare_gt_iff_gt.mpr (by omega), compare_gt_iff_gt.mpr (by omega)]
      rfl
    · exact absurd rfl h
  · have hlt : markedInteger ip' f' < markedInteger ip f := by
      unfold markedInteger
      split_ifs <;> omega
    rw [compare_gt_iff_gt.mpr hip, compare_gt_iff_gt.mpr hlt]
    rfl

private theorem eq_of_markedInteger_eq {ip ip' f f' : ℕ}
    (h : markedInteger ip f = markedInteger ip' f') : ip = ip' ∧ (f = 0 ↔ f' = 0) := by
  unfold markedInteger at h
  split_ifs at h <;> constructor <;> omega

theorem compare_payload (d negative : Bool) (h : m.cls = n.cls) (s t : List UInt8) :
    compare (flipIf d (m.payload negative) ++ s) (flipIf d (n.payload negative) ++ t) =
      (directed d (compare m.toNat n.toNat)).then (compare s t) := by
  cases m with
  | small b pos lt =>
    cases n with
    | small c pos' lt' =>
      rw [payload, payload, compare_flipIf_beBytes d (smallCode_lt _ lt) (smallCode_lt _ lt'),
        compare_of_strictMonoOn (smallCode_strictMonoOn v negative) lt lt', toNat, toNat,
        compare_magOf]
    | middle ip f hip hlt =>
      exact absurd h.symm (ne_of_gt (integerBytes_le hip hlt).1)
    | large => exact absurd h (by norm_num [cls])
  | middle ip f hip hlt hf hk =>
    cases n with
    | small => exact absurd h (ne_of_gt (integerBytes_le hip hlt).1)
    | middle ip' f' hip' hlt' hf' hk' =>
      have hw : integerBytes ip = integerBytes ip' := h
      have hm' := markedInteger_lt ip' f'
      rw [← hw] at hm'
      simp only [payload, toNat, flipIf_append, List.append_assoc]
      rw [← hw, compare_flipIf_beBytes d (markedInteger_lt ip f) hm']
      by_cases hmark : markedInteger ip f = markedInteger ip' f'
      · obtain ⟨rfl, hzero⟩ := eq_of_markedInteger_eq hmark
        rw [hmark, compare_self, directed_eq, Ordering.eq_then, mul_comm ip,
          compare_nat_mul_add hf hf', compare_self, Ordering.eq_then]
        by_cases h0 : f = 0
        · simp [h0, hzero.mp h0]
        · rw [if_neg h0, if_neg (mt hzero.mpr h0),
            compare_flipIf_beBytes d (fractionCode_lt _ _ hf) (fractionCode_lt _ _ hf'),
            compare_fractionCode hk hk']
      · have hne := directed_compare_ne d hmark
        rw [compare_markedInteger hmark hf hf'] at hne ⊢
        rw [then_of_ne_eq hne, then_of_ne_eq hne]
    | large => exact absurd h (lt_succ_of_le (integerBytes_le hip hlt).2).ne
  | large b ge le =>
    cases n with
    | small => exact absurd h (by norm_num [cls])
    | middle ip f hip hlt =>
      exact absurd h.symm (lt_succ_of_le (integerBytes_le hip hlt).2).ne
    | large c ge' le' =>
      rw [payload, payload, compare_flipIf_beBytes d (largeCode_lt _ le) (largeCode_lt _ le'),
        compare_of_strictMonoOn (largeCode_strictMonoOn v negative) ⟨ge, le⟩ ⟨ge', le'⟩, toNat,
        toNat, compare_magOf]

theorem compare_ctype (negative : Bool) (m n : Magnitude v) :
    compare (m.ctype negative) (n.ctype negative) = directed negative (compare m.cls n.cls) := by
  have hm := cls_le m
  have hn := cls_le n
  rw [compare_byte_eq]
  cases negative with
  | false =>
    simp only [ctype, false_eq_true, ↓reduceIte, directed_false]
    rw [toNat_byte (by omega), toNat_byte (by omega)]
    exact compare_of_strictMonoOn (s := Set.univ) (fun a _ b _ hab => by omega) trivial trivial
  | true =>
    simp only [ctype, ↓reduceIte, directed_true]
    rw [toNat_byte (by omega), toNat_byte (by omega)]
    exact compare_congr_swap (by omega) (by omega)

theorem compare_encode (invert negative : Bool) (m n : Magnitude v) (s t : List UInt8) :
    compare (m.encode invert negative ++ s) (n.encode invert negative ++ t) =
      (directed (invert != negative) (compare m.toNat n.toNat)).then (compare s t) := by
  have hdir : ∀ o, directed invert (directed negative o) = directed (invert != negative) o := by
    intro o
    cases invert <;> cases negative <;> simp
  simp only [encode, List.append_assoc]
  rw [compare_flipIf_singleton, compare_ctype, hdir]
  by_cases h : m.cls = n.cls
  · rw [h, compare_self, directed_eq, Ordering.eq_then, compare_payload _ _ h]
  · have hne := directed_compare_ne (invert != negative) h
    rw [compare_toNat_of_cls_ne h, then_of_ne_eq hne, then_of_ne_eq hne]

end Magnitude

/-- A number as the writer sees it. -/
inductive NumericForm (v : Version) where
  | nan
  | zero
  | signed (negative : Bool) (m : Magnitude v)

namespace NumericForm
variable {v : Version} (invert : Bool) (f : NumericForm v)

def key : NumericForm v → WithBot ℤ
  | nan => ⊥
  | zero => ((0 : ℤ) : WithBot ℤ)
  | signed negative m => ((if negative then -(m.toNat : ℤ) else m.toNat : ℤ) : WithBot ℤ)

def lead : NumericForm v → UInt8
  | nan => CType.kNumericNaN
  | zero => CType.kNumericZero
  | signed negative m => m.ctype negative

def rest : NumericForm v → List UInt8
  | nan | zero => []
  | signed negative m => flipIf (invert != negative) (m.payload negative)

def encode : List UInt8 :=
  flipIf invert [f.lead] ++ f.rest invert

def region : NumericForm v → ℕ
  | nan => 0
  | signed true _ => 1
  | zero => 2
  | signed false _ => 3

theorem lead_region :
    match f.region with
    | 0 => f.lead.toNat = 30
    | 1 => 31 ≤ f.lead.toNat ∧ f.lead.toNat ≤ 40
    | 2 => f.lead.toNat = 41
    | _ => 42 ≤ f.lead.toNat ∧ f.lead.toNat ≤ 51 := by
  cases f with
  | nan => rfl
  | zero => rfl
  | signed negative m =>
    have hm := m.cls_le
    cases negative with
    | true =>
      simp only [region, lead, Magnitude.ctype, ↓reduceIte]
      rw [toNat_byte (by omega)]
      omega
    | false =>
      simp only [region, lead, Magnitude.ctype, false_eq_true, ↓reduceIte]
      rw [toNat_byte (by omega)]
      omega

theorem region_le : f.region ≤ 3 := by
  cases f with
  | nan => simp [region]
  | zero => simp [region]
  | signed negative m => cases negative <;> simp [region]

theorem lead_lt_of_region_lt {f g : NumericForm v} (h : f.region < g.region) :
    f.lead.toNat < g.lead.toNat := by
  have hf := lead_region f
  have hg := lead_region g
  have hle := region_le g
  interval_cases hrg : g.region <;> interval_cases hrf : f.region <;> simp only at hf hg <;> omega

theorem key_lt_of_region_lt {f g : NumericForm v} (h : f.region < g.region) : f.key < g.key := by
  have hbot : ∀ z : ℤ, (⊥ : WithBot ℤ) < (z : WithBot ℤ) := WithBot.bot_lt_coe
  cases f with
  | nan =>
    cases g with
    | nan => exact absurd h (lt_irrefl 0)
    | zero => exact hbot 0
    | signed negative m => exact hbot _
  | zero =>
    cases g with
    | nan => exact absurd h (by simp [region])
    | zero => exact absurd h (lt_irrefl 2)
    | signed negative m =>
      have hm := m.toNat_pos
      cases negative with
      | true => exact absurd h (by simp [region])
      | false => exact WithBot.coe_lt_coe.mpr (by simpa using hm)
  | signed negative m =>
    have hm := m.toNat_pos
    cases negative with
    | true =>
      cases g with
      | nan => exact absurd h (by simp [region])
      | zero => exact WithBot.coe_lt_coe.mpr (by simpa using hm)
      | signed negative' m' =>
        cases negative' with
        | true => exact absurd h (lt_irrefl 1)
        | false =>
          apply WithBot.coe_lt_coe.mpr
          simp only [↓reduceIte, false_eq_true]
          omega
    | false => exact absurd (region_le g) (not_le.mpr h)

/-- The byte order of encoded numbers, followed by any tails, is the order of keys. -/
theorem compare_encode (f g : NumericForm v) (s t : List UInt8) :
    compare (f.encode invert ++ s) (g.encode invert ++ t) =
      (directed invert (compare f.key g.key)).then (compare s t) := by
  by_cases h : f.region = g.region
  · cases f with
    | nan =>
      cases g with
      | nan => simp [key]
      | zero => exact absurd h (by simp [region])
      | signed negative m => cases negative <;> exact absurd h (by simp [region])
    | zero =>
      cases g with
      | nan => exact absurd h (by simp [region])
      | zero => simp [key]
      | signed negative m => cases negative <;> exact absurd h (by simp [region])
    | signed negative m =>
      cases g with
      | nan | zero => cases negative <;> exact absurd h (by simp [region])
      | signed negative' m' =>
        have hneg : negative = negative' := by
          cases negative <;> cases negative' <;> simp [region] at h ⊢
        subst hneg
        have hm := Magnitude.compare_encode invert negative m m' s t
        simp only [Magnitude.encode] at hm
        simp only [encode, lead, rest, key, compare_coe]
        rw [hm]
        congr 1
        cases negative with
        | false => cases invert <;> simp [compare_natCast]
        | true => cases invert <;> simp [compare_natCast, compare_neg]
  · have hlead : compare f.lead g.lead = compare f.region g.region := by
      rw [compare_byte_eq]
      exact compare_of_rank_ne (f := fun f => f.lead.toNat) lead_lt_of_region_lt h
    have hdec := directed_compare_ne invert h
    rw [compare_of_rank_ne (f := key) key_lt_of_region_lt h]
    simp only [encode, List.append_assoc]
    rw [compare_flipIf_singleton, hlead, then_of_ne_eq hdec, then_of_ne_eq hdec]

end NumericForm
end MongoServer.KeyString
