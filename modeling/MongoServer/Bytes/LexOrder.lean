import Mathlib.Data.List.Basic
import Mathlib.Order.Compare
import Mathlib.Tactic

/-!
Three-way comparison of byte strings. Encodings are compared through one property,
`OrdersAs`: followed by admissible tails, two strings compare as a given order and then
as the tails do. The property composes along concatenation, and complemented strings
have it for the reversed order.
-/
namespace ByteOrder
open List

variable {as bs : List UInt8}

section Congruence
variable {α β : Type*} [LinearOrder α] [LinearOrder β] {a b : α} {c d : β}

theorem compare_congr (hlt : a < b ↔ c < d) (hgt : b < a ↔ d < c) : compare a b = compare c d := by
  rcases lt_trichotomy a b with h | h | h
  · rw [compare_lt_iff_lt.mpr h, compare_lt_iff_lt.mpr (hlt.mp h)]
  · have hcd : c = d := le_antisymm (not_lt.mp fun hdc => (hgt.mpr hdc).ne' h)
      (not_lt.mp fun hcd => (hlt.mpr hcd).ne h)
    rw [compare_eq_iff_eq.mpr h, compare_eq_iff_eq.mpr hcd]
  · rw [compare_gt_iff_gt.mpr h, compare_gt_iff_gt.mpr (hgt.mp h)]

theorem compare_congr_swap (hlt : a < b ↔ d < c) (hgt : b < a ↔ c < d) :
    compare a b = (compare c d).swap := by
  rw [← Std.OrientedOrd.eq_swap]
  exact compare_congr hlt hgt

/-- What grows with a rank compares as the ranks where they differ. -/
theorem compare_of_rank_ne {ι : Type*} {rank : ι → α} {f : ι → β} {i j : ι}
    (hf : ∀ {i j}, rank i < rank j → f i < f j) (h : rank i ≠ rank j) :
    compare (f i) (f j) = compare (rank i) (rank j) := by
  rcases lt_or_gt_of_ne h with h | h
  · rw [compare_lt_iff_lt.mpr h, compare_lt_iff_lt.mpr (hf h)]
  · rw [compare_gt_iff_gt.mpr h, compare_gt_iff_gt.mpr (hf h)]

end Congruence

def ofSign (x : ℤ) : Ordering := compare x 0

def toSign : Ordering → ℤ
  | .lt => -1
  | .eq => 0
  | .gt => 1

@[simp] theorem ofSign_toSign (o : Ordering) : ofSign (toSign o) = o := by
  cases o <;> decide

@[simp] theorem ofSign_zero : ofSign 0 = .eq := rfl

theorem ofSign_eq_iff {x : ℤ} : ofSign x = .eq ↔ x = 0 := by
  simp [ofSign]

theorem ofSign_neg (x : ℤ) : ofSign (-x) = (ofSign x).swap := by
  exact compare_congr_swap (by omega) (by omega)

theorem ofSign_sub (x y : ℤ) : ofSign (x - y) = compare x y := by
  exact compare_congr (by omega) (by omega)

/-- Returning the first non-zero result is the lexicographic combination. -/
theorem ofSign_ite (x y : ℤ) : ofSign (if x ≠ 0 then x else y) = (ofSign x).then (ofSign y) := by
  by_cases h : x = 0
  · simp [h]
  · have hx : ofSign x ≠ .eq := fun he => h (ofSign_eq_iff.mp he)
    simp only [ne_eq, h, not_false_eq_true, ↓reduceIte]
    cases ho : ofSign x <;> simp_all

theorem iff_of_ofSign {α : Type*} [LinearOrder α] {a b : α} {x : ℤ} (h : ofSign x = compare a b) :
    (x < 0 ↔ a < b) ∧ (x = 0 ↔ a = b) ∧ (x ≤ 0 ↔ a ≤ b) := by
  rw [← compare_lt_iff_lt (a := a), ← compare_eq_iff_eq (a := a), ← compare_le_iff_le (a := a), ← h]
  exact ⟨compare_lt_iff_lt.symm, ofSign_eq_iff.symm, compare_le_iff_le.symm⟩

theorem sign_eq_toSign (x : ℤ) : x.sign = toSign (ofSign x) := by
  unfold ofSign
  rcases lt_trichotomy x 0 with h | h | h
  · rw [compare_lt_iff_lt.mpr h, Int.sign_eq_neg_one_of_neg h]
    rfl
  · subst h
    rfl
  · rw [compare_gt_iff_gt.mpr h, Int.sign_eq_one_of_pos h]
    rfl

def directed (descending : Bool) (o : Ordering) : Ordering :=
  if descending then o.swap else o

@[simp] theorem directed_false (o : Ordering) : directed false o = o := rfl
@[simp] theorem directed_true (o : Ordering) : directed true o = o.swap := rfl
@[simp] theorem directed_eq (d : Bool) : directed d .eq = .eq := by cases d <;> rfl

theorem directed_then (d : Bool) (o₁ o₂ : Ordering) :
    directed d (o₁.then o₂) = (directed d o₁).then (directed d o₂) := by
  cases d <;> simp [directed, Ordering.swap_then]

theorem directed_eq_eq_iff {d : Bool} {o : Ordering} : directed d o = .eq ↔ o = .eq := by
  cases d <;> cases o <;> decide

theorem directed_compare_ne {α : Type*} [LinearOrder α] {a b : α} (d : Bool) (h : a ≠ b) :
    directed d (compare a b) ≠ .eq := by
  rw [ne_eq, directed_eq_eq_iff]
  simpa using h

/-- Bytes as stored for a direction: complemented when descending. -/
def flipIf (d : Bool) (bs : List UInt8) : List UInt8 :=
  if d then bs.map (fun b => ~~~b) else bs

@[simp] theorem flipIf_false (bs : List UInt8) : flipIf false bs = bs := rfl
@[simp] theorem flipIf_nil (d : Bool) : flipIf d [] = [] := by cases d <;> rfl

@[simp] theorem flipIf_append (d : Bool) (as bs : List UInt8) :
    flipIf d (as ++ bs) = flipIf d as ++ flipIf d bs := by
  cases d <;> simp [flipIf]

theorem flipIf_cons (d : Bool) (b : UInt8) (bs : List UInt8) :
    flipIf d (b :: bs) = (if d then ~~~b else b) :: flipIf d bs := by
  cases d <;> simp [flipIf]

@[simp] theorem length_flipIf (d : Bool) (bs : List UInt8) : (flipIf d bs).length = bs.length := by
  cases d <;> simp [flipIf]

theorem uint8_not_not (b : UInt8) : ~~~(~~~b) = b := by
  apply UInt8.toNat_inj.mp
  have hb := b.toNat_lt
  simp only [UInt8.toNat_not, UInt8.size]
  omega

@[simp] theorem flipIf_flipIf (d : Bool) (bs : List UInt8) : flipIf d (flipIf d bs) = bs := by
  cases d with
  | false => rfl
  | true =>
    simp only [flipIf, ↓reduceIte, map_map]
    conv_rhs => rw [← map_id bs]
    apply map_congr_left
    intro b _
    exact uint8_not_not b

theorem toNat_byte {n : ℕ} (h : n < 256) : (UInt8.ofNat n).toNat = n :=
  UInt8.toNat_ofNat_of_lt' h

theorem compare_byte_eq (a b : UInt8) : compare a b = compare a.toNat b.toNat := by
  change compareOfLessAndEq a b = compareOfLessAndEq a.toNat b.toNat
  simp only [compareOfLessAndEq, UInt8.lt_iff_toNat_lt, ← UInt8.toNat_inj]

theorem compare_byte_not (a b : UInt8) : compare (~~~a) (~~~b) = (compare a b).swap := by
  have ha := a.toNat_lt
  have hb := b.toNat_lt
  rw [compare_byte_eq, compare_byte_eq, UInt8.toNat_not, UInt8.toNat_not]
  simp only [UInt8.size]
  exact compare_congr_swap (by omega) (by omega)

theorem compare_flipIf_byte (d : Bool) (a b : UInt8) :
    compare (if d then ~~~a else a) (if d then ~~~b else b) = directed d (compare a b) := by
  cases d
  · rfl
  · exact compare_byte_not a b

theorem compare_flipIf_append (d : Bool) (h : as.length = bs.length) (s t : List UInt8) :
    compare (flipIf d as ++ s) (flipIf d bs ++ t) =
      (directed d (compare as bs)).then (compare s t) := by
  induction as generalizing bs with
  | nil =>
    have hb : bs = [] := length_eq_zero_iff.mp h.symm
    simp [hb]
  | cons a as ih =>
    cases bs with
    | nil => simp at h
    | cons b bs =>
      simp only [flipIf_cons, List.cons_append, List.compare_cons_cons, compare_flipIf_byte,
        directed_then, Ordering.then_assoc]
      rw [ih (by simpa using h)]

theorem compare_append (h : as.length = bs.length) (s t : List UInt8) :
    compare (as ++ s) (bs ++ t) = (compare as bs).then (compare s t) :=
  compare_flipIf_append false h s t

@[simp] theorem compare_append_left (p s t : List UInt8) :
    compare (p ++ s) (p ++ t) = compare s t := by
  rw [compare_append rfl, Std.ReflOrd.compare_self]
  rfl

theorem compare_flipIf_singleton (d : Bool) (a b : UInt8) (s t : List UInt8) :
    compare (flipIf d [a] ++ s) (flipIf d [b] ++ t) =
      (directed d (compare a b)).then (compare s t) := by
  rw [compare_flipIf_append d (by simp), List.compare_cons_cons, List.compare_nil_nil,
    Ordering.then_eq]

theorem compare_cons_of_ne {a b : UInt8} (h : a ≠ b) (s t : List UInt8) :
    compare (a :: s) (b :: t) = compare a b := by
  rw [List.compare_cons_cons]
  have hne : compare a b ≠ .eq := fun he => h (Std.LawfulEqOrd.eq_of_compare he)
  cases hc : compare a b <;> simp_all

/-- Comparing the prefixes up to the shorter length and then the lengths is comparing. -/
theorem compare_take_then_length (l r : List UInt8) :
    (compare (l.take (min l.length r.length)) (r.take (min l.length r.length))).then
      (compare l.length r.length) = compare l r := by
  induction l generalizing r with
  | nil =>
    cases r with
    | nil => rfl
    | cons b r => simp [compare_lt_iff_lt]
  | cons a l ih =>
    cases r with
    | nil => simp [compare_gt_iff_gt]
    | cons b r =>
      have hlen : compare (l.length + 1) (r.length + 1) = compare l.length r.length :=
        compare_congr (by omega) (by omega)
      simp only [List.length_cons, Nat.succ_min_succ, List.take_succ_cons, List.compare_cons_cons,
        Ordering.then_assoc, hlen]
      rw [ih]

section OrdersAs
variable {T T' : List UInt8 → Prop} {p q p' q' : List UInt8} {o o' : Ordering}

/-- Followed by tails that `T` admits, the two strings compare as `o` and then as the
tails do. -/
def OrdersAs (T : List UInt8 → Prop) (p q : List UInt8) (o : Ordering) : Prop :=
  ∀ s t, T s → T t → compare (p ++ s) (q ++ t) = o.then (compare s t)

namespace OrdersAs

theorem append (h : OrdersAs T' p q o) (h' : OrdersAs T p' q' o')
    (hp : ∀ s, T s → T' (p' ++ s)) (hq : ∀ s, T s → T' (q' ++ s)) :
    OrdersAs T (p ++ p') (q ++ q') (o.then o') := by
  intro s t hs ht
  rw [append_assoc, append_assoc, h _ _ (hp s hs) (hq t ht), h' s t hs ht, Ordering.then_assoc]

theorem append_any (h : OrdersAs (fun _ => True) p q o) (h' : OrdersAs T p' q' o') :
    OrdersAs T (p ++ p') (q ++ q') (o.then o') :=
  h.append h' (fun _ _ => trivial) (fun _ _ => trivial)

theorem flipIf_of_length_eq (d : Bool) (h : p.length = q.length) :
    OrdersAs T (flipIf d p) (flipIf d q) (directed d (compare p q)) :=
  fun s t _ _ => compare_flipIf_append d h s t

theorem flipIf_singleton (d : Bool) (a b : UInt8) :
    OrdersAs T (flipIf d [a]) (flipIf d [b]) (directed d (compare a b)) :=
  fun s t _ _ => compare_flipIf_singleton d a b s t

theorem append_left (p : List UInt8) (h : OrdersAs T p' q' o) :
    OrdersAs T (p ++ p') (p ++ q') o := by
  intro s t hs ht
  rw [append_assoc, append_assoc, compare_append_left, h s t hs ht]

theorem append_of_ne (h : OrdersAs (fun _ => True) p q o) (ho : o ≠ .eq)
    (p' q' : List UInt8) : OrdersAs T (p ++ p') (q ++ q') o := by
  intro s t _ _
  rw [append_assoc, append_assoc, h _ _ trivial trivial]
  cases o <;> simp_all

theorem of_ne (d : Bool) {a b : UInt8} (h : a ≠ b) (p q : List UInt8) :
    OrdersAs T (flipIf d [a] ++ p) (flipIf d [b] ++ q) (directed d (compare a b)) := by
  apply (flipIf_singleton d a b).append_of_ne
  rw [ne_eq, directed_eq_eq_iff]
  exact fun he => h (Std.LawfulEqOrd.eq_of_compare he)

end OrdersAs

end OrdersAs
end ByteOrder
