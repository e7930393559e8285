import MongoServer.KeyString.NumericOrder

/-!
Record ids as they end a key or start a value. The number of bytes between the first and
the last byte is stored in both of them, so an id can be read from either end, and ids of
different lengths are already ordered by their first byte.
-/
namespace MongoServer
open Nat

/-- A signed 64-bit number. -/
structure RecordId where
  repr : BitVec 64
  deriving DecidableEq

variable {value : ℕ} {id : RecordId} {a b : ℕ}

namespace RecordId

def min : RecordId := ⟨BitVec.intMin 64⟩

/-- The ids of records; all others are sentinels. -/
def isNormal (id : RecordId) : Prop := 0 < id.repr.toInt ∧ id.repr.toInt < 2 ^ 63 - 1

instance (id : RecordId) : Decidable id.isNormal := inferInstanceAs (Decidable (_ ∧ _))

instance : LT RecordId := ⟨fun a b => a.repr.toInt < b.repr.toInt⟩

instance (a b : RecordId) : Decidable (a < b) :=
  inferInstanceAs (Decidable (a.repr.toInt < b.repr.toInt))

theorem lt_iff {a b : RecordId} : a < b ↔ a.repr.toInt < b.repr.toInt := Iff.rfl

theorem lt_trans {a b c : RecordId} (hab : a < b) (hbc : b < c) : a < c :=
  Int.lt_trans (lt_iff.mp hab) (lt_iff.mp hbc)

theorem lt_irrefl (a : RecordId) : ¬a < a := Int.lt_irrefl a.repr.toInt

theorem eq_of_not_lt {a b : RecordId} (hab : ¬a < b) (hba : ¬b < a) : a = b := by
  rw [lt_iff, not_lt] at hab hba
  have hrepr : a.repr = b.repr := BitVec.eq_of_toInt_eq (le_antisymm hba hab)
  cases a
  cases b
  simpa using hrepr

theorem toNat_of_nonneg (h : 0 ≤ id.repr.toInt) : (id.repr.toNat : ℤ) = id.repr.toInt := by
  have hlt := id.repr.isLt
  rw [BitVec.toInt_eq_toNat_cond] at h ⊢
  split_ifs at h ⊢ <;> omega

end RecordId

namespace KeyString
open ByteOrder

/-- Bytes besides the first and the last; those two hold ten bits of the id. -/
def extraBytesNeeded (value : ℕ) : ℕ :=
  let bitsNeeded := 64 - countLeadingZeros64 value
  if bitsNeeded ≤ 10 then 0 else (bitsNeeded - 10 + 7) / 8

def recordIdBytes (value : ℕ) : List UInt8 :=
  let extraBytes := extraBytesNeeded value
  let firstByte := UInt8.ofNat (extraBytes <<< 5 ||| value >>> (5 + extraBytes * 8))
  let lastByte := UInt8.ofNat (value <<< 3 ||| extraBytes)
  [firstByte] ++ beBytes extraBytes (value >>> 5) ++ [lastByte]

/-- No negative id but the least is written, and that one as zero. -/
def appendRecordId (loc : RecordId) : Option (List UInt8) :=
  let raw := loc.repr.toInt
  if raw < 0 then
    if loc = RecordId.min then some (recordIdBytes 0) else none
  else some (recordIdBytes raw.toNat)

abbrev BufReader := StateT (List UInt8) Option

def BufReader.readByte : BufReader UInt8
  | [] => none
  | b :: rest => some (b, rest)

/-- The bytes between the first and the last, folded into a 64-bit word. -/
def decodeExtraBytes : ℕ → ℕ → BufReader ℕ
  | 0, repr => pure repr
  | n + 1, repr => do
      let b ← BufReader.readByte
      decodeExtraBytes n ((repr <<< 8 ||| b.toNat) % 2 ^ 64)

def decodeRecordId : BufReader RecordId := do
  let firstByte ← BufReader.readByte
  let numExtraBytes := firstByte.toNat >>> 5
  let repr ← decodeExtraBytes numExtraBytes (firstByte.toNat &&& 0x1f)
  let lastByte ← BufReader.readByte
  if lastByte.toNat &&& 0x7 = numExtraBytes then
    return ⟨BitVec.ofNat 64 (repr <<< 5 ||| lastByte.toNat >>> 3)⟩
  else fun _ => none

/-- The id at the end of a buffer, found from its last byte. -/
def decodeRecordIdAtEnd (buffer : List UInt8) : Option RecordId :=
  if buffer.length < 2 then none
  else
    let lastByte := buffer.getLastD 0
    let ridSize := 2 + (lastByte.toNat &&& 0x7)
    if buffer.length < ridSize then none
    else (decodeRecordId (buffer.drop (buffer.length - ridSize))).map Prod.fst

section Layout

/-- The number an encoded id spells: the count in front, the id, and the count again. -/
def recordIdCode (value : ℕ) : ℕ :=
  extraBytesNeeded value * 2 ^ (13 + 8 * extraBytesNeeded value) + value * 8 +
    extraBytesNeeded value

theorem ofNat_eq_of_mod (h : a % 256 = b % 256) : UInt8.ofNat a = UInt8.ofNat b := by
  apply UInt8.toNat_inj.mp
  rw [UInt8.toNat_ofNat', UInt8.toNat_ofNat']
  exact h

theorem lastByte_eq {n : ℕ} (value : ℕ) (hn : n ≤ 7) : value <<< 3 ||| n = value * 8 + n := by
  rw [← Nat.shiftLeft_add_eq_or_of_lt (show n < 2 ^ 3 by omega), Nat.shiftLeft_eq]

theorem compare_recordIdCode (hn : extraBytesNeeded a = extraBytesNeeded b) :
    compare (recordIdCode a) (recordIdCode b) = compare a b := by
  rw [recordIdCode, recordIdCode, hn]
  exact compare_congr (by omega) (by omega)

section
variable (h : value < 2 ^ 63)
include h

theorem extraBytesNeeded_bounds :
    extraBytesNeeded value ≤ 7 ∧ value < 2 ^ (10 + 8 * extraBytesNeeded value) ∧
      (extraBytesNeeded value ≠ 0 → 2 ^ (2 + 8 * extraBytesNeeded value) ≤ value) := by
  rcases Nat.eq_zero_or_pos value with rfl | hpos
  · exact ⟨by decide, by decide, by decide⟩
  · have hlog : log2 value < 63 := (log2_lt hpos.ne').mpr h
    have hself : 2 ^ log2 value ≤ value := log2_self_le hpos.ne'
    have hlt : value < 2 ^ (log2 value + 1) := lt_log2_self
    have hbits : 64 - countLeadingZeros64 value = log2 value + 1 := by
      rw [countLeadingZeros64_eq hpos]
      omega
    simp only [extraBytesNeeded, hbits]
    split_ifs with hsmall
    · refine ⟨by omega, ?_, fun h0 => absurd rfl h0⟩
      exact hlt.trans_le (Nat.pow_le_pow_right (by norm_num) (by omega))
    · refine ⟨by omega, ?_, fun _ => ?_⟩
      · exact hlt.trans_le (Nat.pow_le_pow_right (by norm_num) (by omega))
      · exact (Nat.pow_le_pow_right (by norm_num) (by omega)).trans hself

theorem firstByte_eq : extraBytesNeeded value <<< 5 ||| value >>> (5 + extraBytesNeeded value * 8) =
        extraBytesNeeded value * 32 + value / 32 / 256 ^ extraBytesNeeded value ∧
      value / 32 / 256 ^ extraBytesNeeded value < 32 := by
  obtain ⟨-, hhigh, -⟩ := extraBytesNeeded_bounds h
  generalize extraBytesNeeded value = n at hhigh ⊢
  have hpow : 32 * 256 ^ n = 2 ^ (5 + n * 8) := by
    rw [pow_add, mul_comm n 8, pow_mul]
    norm_num
  have hlt : value / 32 / 256 ^ n < 32 := by
    rw [Nat.div_div_eq_div_mul, Nat.div_lt_iff_lt_mul (by positivity), hpow]
    calc value < 2 ^ (10 + 8 * n) := hhigh
      _ = 32 * 2 ^ (5 + n * 8) := by
        rw [show 10 + 8 * n = 5 + (5 + n * 8) by omega, pow_add]
        rfl
  refine ⟨?_, hlt⟩
  rw [Nat.shiftRight_eq_div_pow, ← hpow, ← Nat.div_div_eq_div_mul,
    ← Nat.shiftLeft_add_eq_or_of_lt (show _ < 2 ^ 5 from hlt), Nat.shiftLeft_eq]

theorem toNat_firstByte : (UInt8.ofNat (extraBytesNeeded value <<< 5 |||
        value >>> (5 + extraBytesNeeded value * 8))).toNat =
      extraBytesNeeded value * 32 + value / 32 / 256 ^ extraBytesNeeded value := by
  obtain ⟨hn, -, -⟩ := extraBytesNeeded_bounds h
  obtain ⟨hfirst, hlt⟩ := firstByte_eq h
  rw [hfirst, UInt8.toNat_ofNat', mod_eq_of_lt]
  omega

theorem recordIdBytes_eq :
    recordIdBytes value = beBytes (extraBytesNeeded value + 2) (recordIdCode value) := by
  obtain ⟨hn, -, -⟩ := extraBytesNeeded_bounds h
  obtain ⟨hfirst, hlt⟩ := firstByte_eq h
  simp only [recordIdBytes, hfirst, lastByte_eq value hn, recordIdCode]
  generalize extraBytesNeeded value = n at hn hlt ⊢
  have hpow : 2 ^ (13 + 8 * n) = 256 * (32 * 256 ^ n) := by
    rw [pow_add, pow_mul]
    norm_num
    ring
  have hdiv : (n * 2 ^ (13 + 8 * n) + value * 8 + n) / 256 = n * 32 * 256 ^ n + value / 32 := by
    rw [hpow]
    have hcomm : n * (256 * (32 * 256 ^ n)) = 256 * (n * 32 * 256 ^ n) := by ring
    rw [hcomm]
    omega
  rw [show n + 2 = (1 + n) + 1 by omega, beBytes_add, beBytes_add, pow_one, hdiv]
  have hmid : beBytes n (n * 32 * 256 ^ n + value / 32) = beBytes n (value >>> 5) := by
    rw [← beBytes_mod, mul_add_mod_self_right, beBytes_mod, shiftRight_eq_div_pow]
  have htop : (n * 32 * 256 ^ n + value / 32) / 256 ^ n = n * 32 + value / 32 / 256 ^ n := by
    rw [add_comm, add_mul_div_right _ _ (by positivity), add_comm]
  have hlast : UInt8.ofNat (value * 8 + n) =
      UInt8.ofNat (n * 2 ^ (13 + 8 * n) + value * 8 + n) := by
    apply ofNat_eq_of_mod
    rw [hpow]
    have hcomm : n * (256 * (32 * 256 ^ n)) = 256 * (n * 32 * 256 ^ n) := by ring
    rw [hcomm]
    omega
  rw [hmid, htop, hlast]
  simp [beBytes]

theorem recordIdCode_lt : recordIdCode value < 256 ^ (extraBytesNeeded value + 2) := by
  obtain ⟨hn, hhigh, -⟩ := extraBytesNeeded_bounds h
  rw [recordIdCode]
  generalize extraBytesNeeded value = n at hn hhigh ⊢
  have hlow : value * 8 + n < 2 ^ (13 + 8 * n) := by
    have hpow : 2 ^ (13 + 8 * n) = 2 ^ (10 + 8 * n) * 8 := by
      rw [show 13 + 8 * n = 10 + 8 * n + 3 by omega, pow_add _ (10 + 8 * n) 3]
      rfl
    omega
  calc n * 2 ^ (13 + 8 * n) + value * 8 + n < (n + 1) * 2 ^ (13 + 8 * n) := by
        rw [Nat.add_mul, Nat.one_mul]
        omega
    _ ≤ 8 * 2 ^ (13 + 8 * n) := mul_le_mul_right _ (by omega)
    _ = 256 ^ (n + 2) := by
        rw [show 256 = 2 ^ 8 from rfl, ← pow_mul, show 8 * (n + 2) = 3 + (13 + 8 * n) by omega,
          pow_add _ 3]
        rfl

end

theorem extraBytesNeeded_mono (hb : b < 2 ^ 63) (h : a ≤ b) :
    extraBytesNeeded a ≤ extraBytesNeeded b := by
  by_contra hgt
  obtain ⟨-, -, hlow⟩ := extraBytesNeeded_bounds (h.trans_lt hb)
  obtain ⟨-, hhigh, -⟩ := extraBytesNeeded_bounds hb
  have hle := hlow (by omega)
  have hpow : 2 ^ (10 + 8 * extraBytesNeeded b) ≤ 2 ^ (2 + 8 * extraBytesNeeded a) :=
    Nat.pow_le_pow_right (by norm_num) (by omega)
  omega

/-- Ids are ordered by their bytes, and no encoded id starts another one. -/
theorem ordersAs_recordId {T : List UInt8 → Prop} (ha : a < 2 ^ 63) (hb : b < 2 ^ 63) :
    OrdersAs T (recordIdBytes a) (recordIdBytes b) (compare a b) := by
  by_cases hn : extraBytesNeeded a = extraBytesNeeded b
  · have hcode : compare (recordIdBytes a) (recordIdBytes b) = compare a b := by
      have hlt := recordIdCode_lt ha
      rw [hn] at hlt
      rw [recordIdBytes_eq ha, recordIdBytes_eq hb, hn, compare_beBytes hlt (recordIdCode_lt hb),
        compare_recordIdCode hn]
    have hlen : (recordIdBytes a).length = (recordIdBytes b).length := by
      rw [recordIdBytes_eq ha, recordIdBytes_eq hb, length_beBytes, length_beBytes, hn]
    rw [← hcode]
    exact OrdersAs.flipIf_of_length_eq false hlen
  · -- the count in the first byte decides
    have hcmp : compare (UInt8.ofNat (extraBytesNeeded a <<< 5 |||
          a >>> (5 + extraBytesNeeded a * 8)))
        (UInt8.ofNat (extraBytesNeeded b <<< 5 ||| b >>> (5 + extraBytesNeeded b * 8))) =
          compare a b := by
      obtain ⟨-, hlta⟩ := firstByte_eq ha
      obtain ⟨-, hltb⟩ := firstByte_eq hb
      rw [compare_byte_eq, toNat_firstByte ha, toNat_firstByte hb]
      generalize a / 32 / 256 ^ extraBytesNeeded a = x at hlta ⊢
      generalize b / 32 / 256 ^ extraBytesNeeded b = y at hltb ⊢
      rcases lt_trichotomy a b with h | h | h
      · have hmono := extraBytesNeeded_mono hb h.le
        rw [compare_lt_iff_lt.mpr h, compare_lt_iff_lt]
        omega
      · exact absurd (congrArg extraBytesNeeded h) hn
      · have hmono := extraBytesNeeded_mono ha h.le
        rw [compare_gt_iff_gt.mpr h, compare_gt_iff_gt]
        omega
    have hne : compare a b ≠ .eq := by
      intro he
      exact hn (congrArg extraBytesNeeded (compare_eq_iff_eq.mp he))
    simp only [recordIdBytes, List.append_assoc]
    rw [← hcmp] at hne ⊢
    exact (OrdersAs.flipIf_singleton false _ _).append_of_ne hne _ _

end Layout

section Decoding

theorem decodeExtraBytes_beBytes (n : ℕ) {repr x : ℕ} (hfit : (repr + 1) * 256 ^ n ≤ 2 ^ 64)
    (rest : List UInt8) :
    decodeExtraBytes n repr (beBytes n x ++ rest) = some (repr * 256 ^ n + x % 256 ^ n, rest) := by
  induction n generalizing repr with
  | zero =>
    simp only [decodeExtraBytes, beBytes, List.nil_append, pow_zero, mod_one, mul_one, add_zero]
    rfl
  | succ n ih =>
    have hbyte : (UInt8.ofNat (x / 256 ^ n)).toNat = x / 256 ^ n % 256 := by
      rw [UInt8.toNat_ofNat']
    have hlt : x / 256 ^ n % 256 < 256 := mod_lt _ (by norm_num)
    have hpos : 0 < 256 ^ n := by positivity
    rw [pow_succ] at hfit
    have hor : (repr <<< 8 ||| (UInt8.ofNat (x / 256 ^ n)).toNat) % 2 ^ 64 =
        repr * 256 + x / 256 ^ n % 256 := by
      rw [hbyte, ← Nat.shiftLeft_add_eq_or_of_lt (show _ < 2 ^ 8 from hlt), Nat.shiftLeft_eq]
      apply mod_eq_of_lt
      nlinarith
    have hstep : decodeExtraBytes (n + 1) repr (beBytes (n + 1) x ++ rest) =
        decodeExtraBytes n ((repr <<< 8 ||| (UInt8.ofNat (x / 256 ^ n)).toNat) % 2 ^ 64)
          (beBytes n x ++ rest) := rfl
    rw [hstep, hor, ih (by nlinarith)]
    have hsplit : x % 256 ^ (n + 1) = x / 256 ^ n % 256 * 256 ^ n + x % 256 ^ n := by
      rw [pow_succ, mod_mul, add_comm, mul_comm]
    rw [hsplit, pow_succ]
    congr 2
    ring

theorem recordId_ends (value : ℕ) {n hi : ℕ} (hn : n ≤ 7) (hhi : hi < 32) :
    (n * 32 + hi) >>> 5 = n ∧ (n * 32 + hi) &&& 0x1f = hi ∧ (value * 8 + n) % 256 &&& 0x7 = n ∧
      (value / 32) <<< 5 ||| ((value * 8 + n) % 256) >>> 3 = value := by
  have hlow : (value * 8 + n) % 256 / 8 < 2 ^ 5 := by omega
  refine ⟨?_, ?_, ?_, ?_⟩
  · rw [shiftRight_eq_div_pow]
    omega
  · rw [show 0x1f = 2 ^ 5 - 1 from rfl, and_two_pow_sub_one_eq_mod]
    omega
  · rw [show 0x7 = 2 ^ 3 - 1 from rfl, and_two_pow_sub_one_eq_mod]
    omega
  · rw [shiftRight_eq_div_pow, show 2 ^ 3 = 8 from rfl, ← shiftLeft_add_eq_or_of_lt hlow,
      Nat.shiftLeft_eq]
    omega

theorem decodeRecordId_recordIdBytes (h : value < 2 ^ 63) (rest : List UInt8) :
    decodeRecordId (recordIdBytes value ++ rest) = some (⟨BitVec.ofNat 64 value⟩, rest) := by
  obtain ⟨hn, -, -⟩ := extraBytesNeeded_bounds h
  obtain ⟨-, hlt⟩ := firstByte_eq h
  obtain ⟨hcount, hhigh, hcheck, hvalue⟩ := recordId_ends value hn hlt
  have hlast : (UInt8.ofNat (value <<< 3 ||| extraBytesNeeded value)).toNat =
      (value * 8 + extraBytesNeeded value) % 256 := by
    rw [lastByte_eq value hn, UInt8.toNat_ofNat']
  have hmiddle : ∀ s, decodeExtraBytes (extraBytesNeeded value)
      (value / 32 / 256 ^ extraBytesNeeded value) (beBytes (extraBytesNeeded value) (value >>> 5) ++ s) =
        some (value / 32, s) := by
    intro s
    have hfit : (value / 32 / 256 ^ extraBytesNeeded value + 1) * 256 ^ extraBytesNeeded value ≤
        2 ^ 64 := by
      calc _ ≤ 32 * 256 ^ 7 :=
            Nat.mul_le_mul hlt (Nat.pow_le_pow_right (by norm_num) hn)
        _ ≤ 2 ^ 64 := by norm_num
    rw [decodeExtraBytes_beBytes _ hfit, shiftRight_eq_div_pow, div_add_mod']
  simp only [recordIdBytes, decodeRecordId, bind, StateT.bind, BufReader.readByte,
    List.append_assoc, List.cons_append, List.nil_append, Option.bind_some, toNat_firstByte h,
    hcount, hhigh, hmiddle, hlast, hcheck, ↓reduceIte, hvalue]
  rfl

theorem toNat_lt_of_nonneg (h : 0 ≤ id.repr.toInt) : id.repr.toNat < 2 ^ 63 := by
  have hnat := RecordId.toNat_of_nonneg h
  have hlt := BitVec.toInt_lt (x := id.repr)
  omega

def idBytes (id : RecordId) : List UInt8 := recordIdBytes id.repr.toNat

theorem appendRecordId_eq (h : 0 ≤ id.repr.toInt) : appendRecordId id = some (idBytes id) := by
  rw [appendRecordId, if_neg (not_lt.mpr h), idBytes, ← RecordId.toNat_of_nonneg h,
    Int.toNat_natCast]

theorem decodeRecordId_bytes (h : 0 ≤ id.repr.toInt) (rest : List UInt8) :
    decodeRecordId (idBytes id ++ rest) = some (id, rest) := by
  rw [idBytes, decodeRecordId_recordIdBytes (toNat_lt_of_nonneg h), BitVec.ofNat_toNat,
    BitVec.setWidth_eq]

theorem ordersAs_bytes {T : List UInt8 → Prop} {a b : RecordId} (ha : 0 ≤ a.repr.toInt)
    (hb : 0 ≤ b.repr.toInt) :
    OrdersAs T (idBytes a) (idBytes b) (compare a.repr.toInt b.repr.toInt) := by
  rw [← RecordId.toNat_of_nonneg ha, ← RecordId.toNat_of_nonneg hb, compare_natCast]
  exact ordersAs_recordId (toNat_lt_of_nonneg ha) (toNat_lt_of_nonneg hb)

theorem length_recordIdBytes (h : value < 2 ^ 63) :
    (recordIdBytes value).length = extraBytesNeeded value + 2 := by
  rw [recordIdBytes_eq h, length_beBytes]

theorem decodeRecordIdAtEnd_append (h : 0 ≤ id.repr.toInt) (p : List UInt8) :
    decodeRecordIdAtEnd (p ++ idBytes id) = some id := by
  obtain ⟨hn, -, -⟩ := extraBytesNeeded_bounds (toNat_lt_of_nonneg h)
  have hlen := length_recordIdBytes (toNat_lt_of_nonneg h)
  have hlast : ((p ++ idBytes id).getLastD 0).toNat &&& 0x7 = extraBytesNeeded id.repr.toNat := by
    obtain ⟨-, -, hcheck, -⟩ := recordId_ends id.repr.toNat hn (show 0 < 32 by norm_num)
    simp only [idBytes, recordIdBytes, ← List.append_assoc, List.getLastD_concat, lastByte_eq _ hn]
    rw [UInt8.toNat_ofNat']
    exact hcheck
  have hdrop : (p ++ idBytes id).drop ((p ++ idBytes id).length -
      (2 + extraBytesNeeded id.repr.toNat)) = idBytes id ++ [] := by
    rw [List.append_nil, List.length_append]
    apply List.drop_left'
    rw [idBytes, hlen]
    omega
  have hlen' : (p ++ idBytes id).length = p.length + (extraBytesNeeded id.repr.toNat + 2) := by
    rw [List.length_append, idBytes, hlen]
  rw [decodeRecordIdAtEnd, if_neg (by omega)]
  simp only [hlast]
  rw [if_neg (by omega), hdrop, decodeRecordId_bytes h]
  rfl

end Decoding
end KeyString
end MongoServer
