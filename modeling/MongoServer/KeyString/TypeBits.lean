import Mathlib.Data.List.GetD
import Mathlib.Data.Nat.Bitwise
import MongoServer.Bson.Value

/-!
The side stream that restores original types. The writer packs bits into data bytes
from low to high; `getBuffer` chooses one of three encodings of the bytes, and
`resetFromBuffer` reads any of them back.
-/
namespace MongoServer.KeyString
open List

inductive Version where
  | V0
  | V1
  deriving DecidableEq

/-- The bytes that follow the size byte, and whether any bit is set. -/
structure TypeBits where
  curBit : ℕ
  isAllZeros : Bool
  data : List UInt8
  deriving DecidableEq

variable {tb : TypeBits} {bits : List Bool}

namespace TypeBits

def kMaxBytesNeeded : ℕ := 127

def reset : TypeBits := ⟨0, true, []⟩

def bitByte (bit : Bool) : UInt8 := if bit then 1 else 0

/-- A bit at offset zero opens a new byte. -/
def appendBit (tb : TypeBits) (bit : Bool) : TypeBits where
  curBit := tb.curBit + 1
  isAllZeros := tb.isAllZeros && !bit
  data :=
    if tb.curBit % 8 = 0 then tb.data.take (tb.curBit / 8) ++ [bitByte bit]
    else tb.data.modify (tb.curBit / 8) fun b => b ||| (bitByte bit <<< UInt8.ofNat (tb.curBit % 8))

def appendBits (tb : TypeBits) (bits : List Bool) : TypeBits := bits.foldl appendBit tb

def stringBits : List Bool := [false]
def symbolBits : List Bool := [true]
def numberIntBits : List Bool := [false, false]
def numberLongBits : List Bool := [false, true]
def numberDoubleBits : List Bool := [true, false]

/-- Negative zero: `11` in V0 and `11000` in V1. -/
def negativeDoubleZeroBits : Version → List Bool
  | .V0 => [true, true]
  | .V1 => [true, true, false, false, false]

def getSize (tb : TypeBits) : ℕ :=
  if tb.isAllZeros then 1
  else if tb.data.length = 1 ∧ (tb.data.headD 0) &&& 0x80 = 0 then 1
  else tb.data.length + 1

/-- The encoded form: the size byte is skipped when one byte says it all. -/
def getBuffer (tb : TypeBits) : List UInt8 :=
  if tb.getSize = 1 then [tb.data.headD 0]
  else (0x80 ||| UInt8.ofNat tb.data.length) :: tb.data

/-- `resetFromBuffer` on the remaining bytes; an empty buffer stands for zeros only. -/
def fromBuffer : List UInt8 → Option (TypeBits × List UInt8)
  | [] => some (reset, [])
  | firstByte :: rest =>
      if firstByte &&& 0x80 ≠ 0 then
        let remainingBytes := (firstByte &&& 0x7f).toNat
        if rest.length < remainingBytes then none
        else some (⟨0, false, rest.take remainingBytes⟩, rest.drop remainingBytes)
      else if firstByte = 0 then some (reset, rest)
      else some (⟨0, false, [firstByte]⟩, rest)

def bitAt? (tb : TypeBits) (i : ℕ) : Option Bool :=
  tb.data[i / 8]?.map fun b => decide (b &&& (1 <<< UInt8.ofNat (i % 8)) ≠ 0)

section Bytes

theorem toNat_shiftLeft_one {k : ℕ} (h : k < 8) : ((1 : UInt8) <<< UInt8.ofNat k).toNat = 2 ^ k := by
  interval_cases k <;> rfl

theorem bit_eq_testBit (b : UInt8) {k : ℕ} (h : k < 8) :
    decide (b &&& (1 <<< UInt8.ofNat k) ≠ 0) = b.toNat.testBit k := by
  have hand : (b &&& (1 <<< UInt8.ofNat k)).toNat = (b.toNat.testBit k).toNat * 2 ^ k := by
    rw [UInt8.toNat_and, toNat_shiftLeft_one h, Nat.and_two_pow]
  cases hb : b.toNat.testBit k with
  | false =>
    rw [hb, Bool.toNat_false, Nat.zero_mul] at hand
    have hz : b &&& (1 <<< UInt8.ofNat k) = 0 := UInt8.toNat_inj.mp hand
    simp [hz]
  | true =>
    rw [hb, Bool.toNat_true, Nat.one_mul] at hand
    have hpos : 0 < 2 ^ k := by positivity
    have hnz : b &&& (1 <<< UInt8.ofNat k) ≠ 0 := by
      intro hz
      rw [hz, show (0 : UInt8).toNat = 0 from rfl] at hand
      omega
    simpa using hnz

theorem testBit_bitByte_shift (bit : Bool) {k : ℕ} (h : k < 8) (i : ℕ) :
    (bitByte bit <<< UInt8.ofNat k).toNat.testBit i = (bit && decide (i = k)) := by
  cases bit with
  | false =>
    have hz : (bitByte false <<< UInt8.ofNat k).toNat = 0 := by interval_cases k <;> rfl
    rw [hz, Nat.zero_testBit]
    rfl
  | true =>
    rw [bitByte, if_pos rfl, toNat_shiftLeft_one h, Nat.testBit_two_pow]
    simp [eq_comm]

theorem eq_zero_of_testBit {b : UInt8} (h : ∀ k < 8, b.toNat.testBit k = false) : b = 0 := by
  apply UInt8.toNat_inj.mp
  apply Nat.eq_of_testBit_eq
  intro k
  by_cases hk : k < 8
  · rw [h k hk]
    simp
  · have hlt : b.toNat < 2 ^ k :=
      b.toNat_lt.trans_le (Nat.pow_le_pow_right (by norm_num) (not_lt.mp hk))
    rw [Nat.testBit_lt_two_pow hlt]
    simp

end Bytes

/-- The data bytes hold `bits` from low to high, padded with zeros. -/
structure Packs (tb : TypeBits) (bits : List Bool) : Prop where
  curBit_eq : tb.curBit = bits.length
  zeros_iff : tb.isAllZeros = bits.all (! ·)
  length_eq : tb.data.length = (bits.length + 7) / 8
  bit_eq : ∀ i, i / 8 < tb.data.length → tb.bitAt? i = some (bits.getD i false)

theorem packs_reset : Packs reset [] where
  curBit_eq := rfl
  zeros_iff := rfl
  length_eq := rfl
  bit_eq := by
    intro i hi
    simp [reset] at hi

theorem bitAt?_eq_testBit {i : ℕ} (h : i / 8 < tb.data.length) :
    tb.bitAt? i = some (tb.data[i / 8].toNat.testBit (i % 8)) := by
  rw [bitAt?, List.getElem?_eq_getElem h, Option.map_some,
    bit_eq_testBit _ (Nat.mod_lt i (by norm_num))]

theorem getD_append_singleton (bits : List Bool) (bit : Bool) (i : ℕ) :
    (bits ++ [bit]).getD i false =
      if i = bits.length then bit else bits.getD i false := by
  rcases lt_trichotomy i bits.length with h | h | h
  · rw [getD_append _ _ _ _ h, if_neg h.ne]
  · subst h
    simp
  · rw [if_neg h.ne', getD_eq_default _ _ (by simp; omega), getD_eq_default _ _ h.le]

theorem Packs.appendBit (h : Packs tb bits) (bit : Bool) :
    Packs (tb.appendBit bit) (bits ++ [bit]) := by
  have hcur := h.curBit_eq
  have hlen := h.length_eq
  refine ⟨by simp [TypeBits.appendBit, hcur], by simp [TypeBits.appendBit, h.zeros_iff], ?_, ?_⟩
  · simp only [TypeBits.appendBit, hcur, length_append, length_singleton]
    split_ifs with h8
    · rw [length_append, length_take, length_singleton]
      omega
    · rw [length_modify]
      omega
  · intro i hi
    rw [bitAt?_eq_testBit hi, getD_append_singleton]
    by_cases h8 : bits.length % 8 = 0
    · -- a new byte holds the bit at offset zero
      have hdata : (tb.appendBit bit).data = tb.data ++ [bitByte bit] := by
        simp only [TypeBits.appendBit, hcur, h8, ↓reduceIte]
        rw [take_of_length_le (by omega)]
      have hi' : i / 8 < tb.data.length + 1 := by
        rw [hdata, length_append, length_singleton] at hi
        exact hi
      simp only [hdata]
      by_cases hlast : i / 8 < tb.data.length
      · have hne : i ≠ bits.length := by omega
        rw [getElem_append_left hlast, if_neg hne, ← bitAt?_eq_testBit hlast, h.bit_eq i hlast]
      · have hidx : i / 8 = tb.data.length := by omega
        rw [getElem_append_right (by omega)]
        simp only [hidx, Nat.sub_self, getElem_cons_zero, Option.some.injEq]
        have hbit := testBit_bitByte_shift bit (k := 0) (by norm_num) (i % 8)
        have hshift : bitByte bit <<< UInt8.ofNat 0 = bitByte bit := by cases bit <;> rfl
        rw [hshift] at hbit
        rw [hbit]
        by_cases hoff : i = bits.length
        · have h0 : i % 8 = 0 := by omega
          rw [if_pos hoff, h0]
          simp
        · have h0 : i % 8 ≠ 0 := by omega
          rw [if_neg hoff, getD_eq_default _ _ (by omega)]
          simp [h0]
    · have hpos : bits.length / 8 < tb.data.length := by omega
      have hdata : (tb.appendBit bit).data = tb.data.modify (bits.length / 8)
          (fun b => b ||| (bitByte bit <<< UInt8.ofNat (bits.length % 8))) := by
        simp [TypeBits.appendBit, hcur, h8]
      have hi' : i / 8 < tb.data.length := by
        rw [hdata, length_modify] at hi
        exact hi
      have hold := h.bit_eq i hi'
      rw [bitAt?_eq_testBit hi', Option.some.injEq] at hold
      simp only [hdata, getElem_modify, Option.some.injEq]
      have hbit := testBit_bitByte_shift bit (Nat.mod_lt bits.length (show 8 > 0 by norm_num))
      split_ifs with hbyte hoff hoff
      · rw [UInt8.toNat_or, Nat.testBit_or, hold, hbit, hoff, getD_eq_default _ _ le_rfl]
        simp
      · have hne : i % 8 ≠ bits.length % 8 := by omega
        rw [UInt8.toNat_or, Nat.testBit_or, hold, hbit]
        simp [hne]
      · omega
      · exact hold

theorem packs_appendBits (bits : List Bool) : Packs (reset.appendBits bits) bits := by
  have hgen : ∀ (more : List Bool) (tb : TypeBits) (seen : List Bool), Packs tb seen →
      Packs (tb.appendBits more) (seen ++ more) := by
    intro more
    induction more with
    | nil =>
      intro tb seen h
      simpa [TypeBits.appendBits] using h
    | cons bit rest ih =>
      intro tb seen h
      have hstep := ih (tb.appendBit bit) (seen ++ [bit]) (h.appendBit bit)
      simpa [TypeBits.appendBits] using hstep
  simpa using hgen bits reset [] packs_reset

/-- What the writer maintains between calls. -/
structure WellFormed (tb : TypeBits) : Prop where
  fits : tb.data.length ≤ kMaxBytesNeeded
  zero : tb.isAllZeros = true → tb.data.headD 0 = 0
  nonempty : tb.isAllZeros = false → tb.data ≠ []
  single : tb.isAllZeros = false → tb.data.length = 1 → tb.data.headD 0 ≠ 0

/-- The type bits as read back: positioned at their start, and empty if all are zero. -/
def reread (tb : TypeBits) : TypeBits := if tb.isAllZeros then reset else ⟨0, false, tb.data⟩

private theorem sizeByte_facts : ∀ n : Fin 128, (0x80 ||| UInt8.ofNat n) &&& 0x80 ≠ 0 ∧
    ((0x80 ||| UInt8.ofNat n) &&& 0x7f).toNat = n := by
  decide

/-- Reading undoes writing, whatever follows in the buffer. -/
theorem fromBuffer_getBuffer (h : WellFormed tb) (rest : List UInt8) :
    fromBuffer (tb.getBuffer ++ rest) = some (tb.reread, rest) := by
  cases hz : tb.isAllZeros with
  | true =>
    have hbuf : tb.getBuffer = [0] := by
      simp only [getBuffer, getSize, hz, ↓reduceIte, h.zero hz]
    have hre : tb.reread = reset := by simp [reread, hz]
    rw [hbuf, hre]
    rfl
  | false =>
    have hre : tb.reread = ⟨0, false, tb.data⟩ := by simp [reread, hz]
    have hne := h.nonempty hz
    rw [hre]
    by_cases hone : tb.data.length = 1 ∧ tb.data.headD 0 &&& 0x80 = 0
    · obtain ⟨b, hb⟩ := length_eq_one_iff.mp hone.1
      have hb0 : b ≠ 0 := by simpa [hb] using h.single hz hone.1
      have hhigh : b &&& 0x80 = 0 := by simpa [hb] using hone.2
      have hbuf : tb.getBuffer = [b] := by simp [getBuffer, getSize, hz, hb, hhigh]
      simp [hbuf, fromBuffer, hhigh, hb0, hb]
    · have hpos : tb.data.length ≠ 0 := fun h0 => hne (length_eq_zero_iff.mp h0)
      have hlt : tb.data.length < 128 := Nat.lt_succ_of_le h.fits
      have hbuf : tb.getBuffer = (0x80 ||| UInt8.ofNat tb.data.length) :: tb.data := by
        simp only [getBuffer, getSize, hz, hone, Bool.false_eq_true, ↓reduceIte]
        rw [if_neg (by omega)]
      obtain ⟨hhigh, hlow⟩ := sizeByte_facts ⟨tb.data.length, hlt⟩
      simp only at hhigh hlow
      rw [hbuf, cons_append, fromBuffer, if_pos hhigh]
      simp only [hlow, length_append]
      rw [if_neg (by omega), take_left, drop_left]

theorem Packs.wellFormed (h : Packs tb bits)
    (hfit : bits.length ≤ 8 * kMaxBytesNeeded) : WellFormed tb := by
  have hlen := h.length_eq
  -- a first byte exists as soon as there is a bit, and then it holds the first bits
  have hhead : ∀ b rest, tb.data = b :: rest → ∀ k < 8, b.toNat.testBit k = bits.getD k false := by
    intro b rest hdata k hk
    have hk0 : k / 8 < tb.data.length := by rw [hdata, length_cons]; omega
    have hbit := h.bit_eq k hk0
    rw [bitAt?_eq_testBit hk0, Option.some.injEq, Nat.mod_eq_of_lt hk] at hbit
    simp only [show k / 8 = 0 by omega, hdata, getElem_cons_zero] at hbit
    exact hbit
  refine ⟨by rw [hlen]; unfold kMaxBytesNeeded at *; omega, ?_, ?_, ?_⟩
  · intro hz
    rw [h.zeros_iff] at hz
    cases hdata : tb.data with
    | nil => rfl
    | cons b rest =>
      apply eq_zero_of_testBit
      intro k hk
      rw [headD_cons, hhead b rest hdata k hk]
      by_cases hkl : k < bits.length
      · rw [getD_eq_getElem _ _ hkl]
        simpa using all_eq_true.mp hz _ (getElem_mem hkl)
      · exact getD_eq_default _ _ (not_lt.mp hkl)
  · intro hz hnil
    rw [hnil, length_nil] at hlen
    have hb : bits = [] := length_eq_zero_iff.mp (by omega)
    rw [h.zeros_iff, hb] at hz
    simp at hz
  · intro hz hone h0
    obtain ⟨b, hb⟩ := length_eq_one_iff.mp hone
    have hb0 : b = 0 := by simpa [hb] using h0
    rw [h.zeros_iff] at hz
    have hall : bits.all (! ·) = true := by
      rw [all_eq_true]
      intro x hx
      obtain ⟨k, hk, rfl⟩ := getElem_of_mem hx
      have hbit := hhead b [] hb k (by omega)
      rw [hb0, show (0 : UInt8).toNat = 0 from rfl, Nat.zero_testBit,
        getD_eq_getElem _ _ hk] at hbit
      simp [← hbit]
    rw [hall] at hz
    simp at hz

def Holds (tb : TypeBits) (cur : ℕ) (bits : List Bool) : Prop :=
  if tb.isAllZeros then ∀ b ∈ bits, b = false
  else ∀ i < bits.length, tb.bitAt? (cur + i) = some (bits.getD i false)

theorem Packs.holds_reread (h : Packs tb bits) : Holds tb.reread 0 bits := by
  cases hz : tb.isAllZeros with
  | true =>
    have hre : tb.reread = reset := by simp [reread, hz]
    rw [h.zeros_iff, all_eq_true] at hz
    rw [hre, Holds, if_pos (show reset.isAllZeros = true from rfl)]
    intro b hb
    simpa using hz b hb
  | false =>
    have hre : tb.reread = ⟨0, false, tb.data⟩ := by simp [reread, hz]
    rw [hre, Holds, if_neg (by simp)]
    intro i hi
    have hlen := h.length_eq
    rw [Nat.zero_add]
    exact h.bit_eq i (by omega)

end TypeBits
end MongoServer.KeyString
