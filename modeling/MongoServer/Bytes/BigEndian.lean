import MongoServer.Bytes.LexOrder

/-! Fixed-width big-endian numerals: byte order is numeric order, and reading undoes writing. -/
namespace ByteOrder
open Nat

def beBytes : ℕ → ℕ → List UInt8
  | 0, _ => []
  | k + 1, n => UInt8.ofNat (n / 256 ^ k) :: beBytes k n

def ofBE (bs : List UInt8) : ℕ := bs.foldl (fun acc b => acc * 256 + b.toNat) 0

@[simp] theorem length_beBytes (k n : ℕ) : (beBytes k n).length = k := by
  induction k with
  | zero => rfl
  | succ k ih => simp [beBytes, ih]

theorem beBytes_mod (k n : ℕ) : beBytes k (n % 256 ^ k) = beBytes k n := by
  induction k generalizing n with
  | zero => rfl
  | succ k ih =>
    have hd : n % 256 ^ (k + 1) / 256 ^ k = n / 256 ^ k % 256 := by
      rw [pow_succ, mod_mul_right_div_self]
    have hm : n % 256 ^ (k + 1) % 256 ^ k = n % 256 ^ k :=
      mod_mod_of_dvd n (pow_dvd_pow 256 (le_succ k))
    simp only [beBytes]
    rw [← ih (n % 256 ^ (k + 1)), hm, ih n, hd]
    congr 1
    apply UInt8.toNat_inj.mp
    simp [UInt8.toNat_ofNat']

theorem beBytes_add (j k n : ℕ) : beBytes (j + k) n = beBytes j (n / 256 ^ k) ++ beBytes k n := by
  induction j with
  | zero => simp [beBytes]
  | succ j ih =>
    rw [succ_add]
    simp only [beBytes, List.cons_append]
    rw [ih, Nat.div_div_eq_div_mul, ← pow_add, Nat.add_comm k j]

theorem compare_nat_mul_add {b q q' r r' : ℕ} (hr : r < b) (hr' : r' < b) :
    compare (b * q + r) (b * q' + r') = (compare q q').then (compare r r') := by
  rcases lt_trichotomy q q' with h | h | h
  · have hm : b * (q + 1) ≤ b * q' := mul_le_mul_left b h
    rw [mul_succ] at hm
    rw [compare_lt_iff_lt.mpr h, compare_lt_iff_lt.mpr (by omega)]
    rfl
  · subst h
    rcases lt_trichotomy r r' with h | h | h
    · rw [compare_lt_iff_lt.mpr h, compare_lt_iff_lt.mpr (by omega)]
      simp
    · simp [h]
    · rw [compare_gt_iff_gt.mpr h, compare_gt_iff_gt.mpr (by omega)]
      simp
  · have hm : b * (q' + 1) ≤ b * q := mul_le_mul_left b h
    rw [mul_succ] at hm
    rw [compare_gt_iff_gt.mpr h, compare_gt_iff_gt.mpr (by omega)]
    rfl

theorem compare_nat_div_mod {b : ℕ} (hb : 0 < b) (m n : ℕ) :
    compare m n = (compare (m / b) (n / b)).then (compare (m % b) (n % b)) := by
  conv_lhs => rw [← div_add_mod m b, ← div_add_mod n b]
  exact compare_nat_mul_add (mod_lt m hb) (mod_lt n hb)

theorem compare_beBytes {k m n : ℕ} (hm : m < 256 ^ k) (hn : n < 256 ^ k) :
    compare (beBytes k m) (beBytes k n) = compare m n := by
  induction k generalizing m n with
  | zero =>
    have hm0 : m = 0 := by simpa using hm
    have hn0 : n = 0 := by simpa using hn
    simp [hm0, hn0, beBytes]
  | succ k ih =>
    have hk : 0 < 256 ^ k := by positivity
    have hdm : m / 256 ^ k < 256 := Nat.div_lt_of_lt_mul (by rwa [pow_succ] at hm)
    have hdn : n / 256 ^ k < 256 := Nat.div_lt_of_lt_mul (by rwa [pow_succ] at hn)
    rw [compare_nat_div_mod hk m n]
    simp only [beBytes, List.compare_cons_cons]
    rw [← beBytes_mod k m, ← beBytes_mod k n, ih (mod_lt m hk) (mod_lt n hk),
      compare_byte_eq, UInt8.toNat_ofNat_of_lt' hdm, UInt8.toNat_ofNat_of_lt' hdn]

theorem compare_flipIf_beBytes (d : Bool) {k m n : ℕ} (hm : m < 256 ^ k) (hn : n < 256 ^ k)
    (s t : List UInt8) :
    compare (flipIf d (beBytes k m) ++ s) (flipIf d (beBytes k n) ++ t) =
      (directed d (compare m n)).then (compare s t) := by
  rw [compare_flipIf_append d (by simp), compare_beBytes hm hn]

theorem foldl_be_eq (bs : List UInt8) (acc : ℕ) :
    bs.foldl (fun acc b => acc * 256 + b.toNat) acc = acc * 256 ^ bs.length + ofBE bs := by
  induction bs generalizing acc with
  | nil => simp [ofBE]
  | cons b bs ih =>
    simp only [List.foldl_cons, List.length_cons, ofBE]
    rw [ih, ih (0 * 256 + b.toNat)]
    ring

@[simp] theorem ofBE_nil : ofBE [] = 0 := rfl

theorem ofBE_cons (b : UInt8) (bs : List UInt8) :
    ofBE (b :: bs) = b.toNat * 256 ^ bs.length + ofBE bs := by
  have h := foldl_be_eq bs b.toNat
  simpa [ofBE] using h

theorem ofBE_lt (bs : List UInt8) : ofBE bs < 256 ^ bs.length := by
  induction bs with
  | nil => simp
  | cons b bs ih =>
    have hb := b.toNat_lt
    rw [ofBE_cons, List.length_cons, pow_succ]
    have hmul : b.toNat * 256 ^ bs.length ≤ 255 * 256 ^ bs.length :=
      mul_le_mul_right _ (by omega)
    omega

theorem ofBE_beBytes (k n : ℕ) : ofBE (beBytes k n) = n % 256 ^ k := by
  induction k with
  | zero => simp [beBytes, mod_one]
  | succ k ih =>
    have hp : n % 256 ^ (k + 1) = n % 256 ^ k + 256 ^ k * (n / 256 ^ k % 256) := by
      rw [pow_succ, mod_mul]
    rw [beBytes, ofBE_cons, length_beBytes, ih, hp, UInt8.toNat_ofNat']
    rw [mul_comm, add_comm]

theorem ofBE_beBytes_of_lt {k n : ℕ} (h : n < 256 ^ k) : ofBE (beBytes k n) = n := by
  rw [ofBE_beBytes, mod_eq_of_lt h]

end ByteOrder
