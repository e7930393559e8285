import MongoServer.Bson.ObjectOrder
import MongoServer.Matcher.MatchExpression

/-!
Which elements a comparison matches, in terms of the total order of values.
-/
namespace MongoServer

section Values
variable {v w : BSONValue}

section
variable (h : canonicalizeBSONType v = canonicalizeBSONType w)
include h

theorem woCompareElement_of_type :
    woCompareElement false (CString.empty, v) (CString.empty, w) = compareElementValues v w := by
  simp [woCompareElement, elementOrder, h]

theorem compareElementValues_lt_iff : compareElementValues v w < 0 ↔ v.rank < w.rank := by
  rw [← woCompareElement_of_type h, woCompareElement_lt_iff]

theorem compareElementValues_eq_iff : compareElementValues v w = 0 ↔ v.rank = w.rank := by
  rw [← woCompareElement_of_type h, woCompareElement_eq_iff]

end

theorem canonicalizeBSONType_of_rank_eq (h : v.rank = w.rank) :
    canonicalizeBSONType v = canonicalizeBSONType w :=
  le_antisymm (BSONValue.type_le_of_rank_le h.le) (BSONValue.type_le_of_rank_le h.ge)

theorem isNaN_number_iff (n : Number) : (BSONValue.number n).isNaN = true ↔ n.key = ⊥ := by
  cases n with
  | numberDouble d =>
    simp only [BSONValue.isNaN, Number.key, doubleKey]
    split_ifs with h
    · simp [h]
    · simp [h]
  | numberInt n | numberLong n => simp [BSONValue.isNaN, Number.key, integerKey, -WithBot.coe_mul]

theorem rank_number_eq_iff (x y : Number) :
    (BSONValue.number x).rank = (BSONValue.number y).rank ↔ x.key = y.key := by
  have htype : canonicalizeBSONType (.number x) = canonicalizeBSONType (.number y) := rfl
  rw [← compareElementValues_eq_iff htype, compareElementValues, ← compare_eq_iff_eq (a := x.key),
    ← ofSign_compareNumbers, ByteOrder.ofSign, compare_eq_iff_eq]

theorem BSONValue.exists_number_of_isNaN (h : v.isNaN = true) : ∃ n, v = .number n := by
  cases v with
  | number n => exact ⟨n, rfl⟩
  | _ => cases h

theorem BSONValue.isNaN_of_rank_eq (h : v.rank = w.rank) (hv : v.isNaN = true) : w.isNaN = true := by
  obtain ⟨x, rfl⟩ := BSONValue.exists_number_of_isNaN hv
  have htype := canonicalizeBSONType_of_rank_eq h
  cases w with
  | number y =>
    rw [isNaN_number_iff] at hv ⊢
    rw [← hv]
    exact ((rank_number_eq_iff x y).mp h).symm
  | _ => simp [canonicalizeBSONType] at htype

theorem BSONValue.rank_eq_of_isNaN (hv : v.isNaN = true) (hw : w.isNaN = true) : v.rank = w.rank := by
  obtain ⟨x, rfl⟩ := BSONValue.exists_number_of_isNaN hv
  obtain ⟨y, rfl⟩ := BSONValue.exists_number_of_isNaN hw
  rw [isNaN_number_iff] at hv hw
  rw [rank_number_eq_iff, hv, hw]

end Values

theorem elementOrder_eq_zero_iff {considerFieldName : Bool} {l r : CString × BSONValue} {x : ℤ} :
    elementOrder considerFieldName l r x = 0 ↔ canonicalizeBSONType l.2 = canonicalizeBSONType r.2 ∧
        (considerFieldName = true → strcmp l.1 r.1 = 0) ∧ x = 0 := by
  have hnumbers (h : l.2.isNumber = true ∧ r.2.isNumber = true) :
      canonicalizeBSONType l.2 = canonicalizeBSONType r.2 := by
    obtain ⟨ln, lv⟩ := l
    obtain ⟨rn, rv⟩ := r
    cases lv <;> cases rv <;> simp_all [BSONValue.isNumber, canonicalizeBSONType]
  simp only [elementOrder]
  split_ifs with htype hname hx hx
  · have hne : canonicalizeBSONType l.2 ≠ canonicalizeBSONType r.2 := sub_ne_zero.mp htype.1
    simp [sub_eq_zero, hne]
  all_goals
    have hsame : canonicalizeBSONType l.2 = canonicalizeBSONType r.2 := by
      by_contra hne
      simp only [ne_eq, sub_eq_zero, hne, not_false_eq_true, Bool.or_eq_true, Bool.not_eq_true',
        true_and, not_or, Bool.not_eq_false] at htype
      exact hne (hnumbers htype)
    simp_all

theorem then_eq_zero_iff {x y : ℤ} : (if x ≠ 0 then x else y) = 0 ↔ x = 0 ∧ y = 0 := by
  split_ifs with h
  · simp [h]
  · simp [not_not.mp h]

section Keys
variable (key : List UInt8 → List UInt8)

theorem compareElementStringValues_eq_zero_iff {l r : List UInt8} :
    compareElementStringValues l r = 0 ↔ l = r := by
  rw [← compare_eq_iff_eq (a := compareElementStringValues l r), ← ByteOrder.ofSign,
    ofSign_compareElementStringValues, Std.LawfulEqCmp.compare_eq_iff_eq]

@[simp] theorem canonicalizeBSONType_collate (v : BSONValue) :
    canonicalizeBSONType (v.collate key) = canonicalizeBSONType v := by
  cases v <;> simp [BSONValue.collate, canonicalizeBSONType]

mutual
theorem compareElementValues_collate (v w : BSONValue)
    (htype : canonicalizeBSONType v = canonicalizeBSONType w) (h : compareElementValues v w = 0) :
    compareElementValues (v.collate key) (w.collate key) = 0 := by
  cases v with
  | object fields =>
    cases w <;> simp [canonicalizeBSONType] at htype
    simp only [BSONValue.collate, compareElementValues] at h ⊢
    exact woCompareNested_collate fields _ h
  | array elems =>
    cases w <;> simp [canonicalizeBSONType] at htype
    simp only [BSONValue.collate, compareElementValues] at h ⊢
    exact woCompareArrays_collate elems _ h
  | string s | symbol s =>
    cases w <;> simp [canonicalizeBSONType] at htype
    all_goals
      simp only [BSONValue.collate, compareElementValues,
        compareElementStringValues_eq_zero_iff] at h ⊢
      rw [h]
  | _ =>
    cases w <;> exact h

theorem woCompareNested_collate (l r : List (CString × BSONValue)) (h : woCompareNested l r = 0) :
    woCompareNested (collateFields key l) (collateFields key r) = 0 := by
  match l, r with
  | [], [] => rfl
  | [], _ :: _ | _ :: _, [] => simp [woCompareNested] at h
  | (ln, lv) :: ls, (rn, rv) :: rs =>
    simp only [woCompareNested, then_eq_zero_iff, elementOrder_eq_zero_iff] at h
    obtain ⟨⟨htype, hname, hvalue⟩, hrest⟩ := h
    simp only [collateFields, woCompareNested, then_eq_zero_iff, elementOrder_eq_zero_iff,
      canonicalizeBSONType_collate]
    exact ⟨⟨htype, hname, compareElementValues_collate lv rv htype hvalue⟩,
      woCompareNested_collate ls rs hrest⟩

theorem woCompareArrays_collate (l r : List BSONValue) (h : woCompareArrays l r = 0) :
    woCompareArrays (collateElements key l) (collateElements key r) = 0 := by
  match l, r with
  | [], [] => rfl
  | [], _ :: _ | _ :: _, [] => simp [woCompareArrays] at h
  | lv :: ls, rv :: rs =>
    simp only [woCompareArrays, then_eq_zero_iff, elementOrder_eq_zero_iff] at h
    obtain ⟨⟨htype, hname, hvalue⟩, hrest⟩ := h
    simp only [collateElements, woCompareArrays, then_eq_zero_iff, elementOrder_eq_zero_iff,
      canonicalizeBSONType_collate]
    exact ⟨⟨htype, hname, compareElementValues_collate lv rv htype hvalue⟩,
      woCompareArrays_collate ls rs hrest⟩
end

end Keys

section Collation
variable {Collator : Type*} (lib : MatcherLibrary Collator) (collator : Option Collator)
  (v : BSONValue)

namespace MatcherLibrary

/-- A value as a collator sees it. -/
def collated : BSONValue :=
  collator.elim v fun c => v.collate (lib.comparisonKey c)

/-- The place of a value in the order under a collator. -/
def rank : Rank := (lib.collated collator v).rank

theorem compare_eq (l r : BSONValue) : lib.compare collator l r =
      compareElementValues (lib.collated collator l) (lib.collated collator r) := by
  cases collator with
  | none => rfl
  | some c => rfl

@[simp] theorem rank_none : lib.rank none v = v.rank := rfl

@[simp] theorem canonicalizeBSONType_collated :
    canonicalizeBSONType (lib.collated collator v) = canonicalizeBSONType v := by
  cases collator with
  | none => rfl
  | some c => exact canonicalizeBSONType_collate _ v

@[simp] theorem isNaN_collated : (lib.collated collator v).isNaN = v.isNaN := by
  cases collator with
  | none => rfl
  | some c => cases v <;> simp [collated, BSONValue.collate, BSONValue.isNaN]

end MatcherLibrary

variable {l r : BSONValue}

namespace MatcherLibrary

theorem compare_lt_iff (h : canonicalizeBSONType l = canonicalizeBSONType r) :
    lib.compare collator l r < 0 ↔ lib.rank collator l < lib.rank collator r := by
  rw [lib.compare_eq]
  exact compareElementValues_lt_iff (by simpa using h)

theorem compare_eq_iff (h : canonicalizeBSONType l = canonicalizeBSONType r) :
    lib.compare collator l r = 0 ↔ lib.rank collator l = lib.rank collator r := by
  rw [lib.compare_eq]
  exact compareElementValues_eq_iff (by simpa using h)

theorem canonicalizeBSONType_of_rank_eq (h : lib.rank collator l = lib.rank collator r) :
    canonicalizeBSONType l = canonicalizeBSONType r := by
  simpa using MongoServer.canonicalizeBSONType_of_rank_eq h

theorem isNaN_eq_of_rank_eq (h : lib.rank collator l = lib.rank collator r) :
    l.isNaN = r.isNaN := by
  rw [Bool.eq_iff_iff]
  constructor
  · intro hl
    simpa using BSONValue.isNaN_of_rank_eq h (by simpa using hl)
  · intro hr
    simpa using BSONValue.isNaN_of_rank_eq h.symm (by simpa using hr)

theorem rank_eq_of_isNaN (hl : l.isNaN = true) (hr : r.isNaN = true) :
    lib.rank collator l = lib.rank collator r :=
  BSONValue.rank_eq_of_isNaN (by simpa using hl) (by simpa using hr)

theorem rank_eq_of_rank_eq (h : l.rank = r.rank) : lib.rank collator l = lib.rank collator r := by
  cases collator with
  | none => exact h
  | some c =>
    have htype := MongoServer.canonicalizeBSONType_of_rank_eq h
    rw [← lib.compare_eq_iff (some c) htype]
    rw [← compareElementValues_eq_iff htype] at h
    exact compareElementValues_collate _ l r htype h

end MatcherLibrary

end Collation

/-- On the side of a value that the comparison asks for, and not equal to it. -/
def ComparisonType.strictly : ComparisonType → Rank → Rank → Prop
  | .LT, a, b | .LTE, a, b => a < b
  | .GT, a, b | .GTE, a, b => b < a
  | .EQ, _, _ => False

open ComparisonType

/-- How the rank of a matching value compares. -/
def ComparisonType.relates : ComparisonType → Rank → Rank → Prop
  | .LT, a, b => a < b
  | .LTE, a, b => a ≤ b
  | .EQ, a, b => a = b
  | .GT, a, b => b < a
  | .GTE, a, b => b ≤ a

theorem ComparisonType.relates_iff {matchType : ComparisonType} {a b : Rank} :
    matchType.relates a b ↔ matchType.supportsEquality = true ∧ a = b ∨ matchType.strictly a b := by
  cases matchType with
  | LTE => simp [relates, supportsEquality, strictly, le_iff_eq_or_lt]
  | GTE => simp [relates, supportsEquality, strictly, le_iff_eq_or_lt, eq_comm]
  | _ => simp [relates, supportsEquality, strictly]

namespace MatchExpression
variable {Collator : Type*} (lib : MatcherLibrary Collator) (collator : Option Collator)
  {matchType : ComparisonType} {rhs v : BSONValue}

theorem comparisonMatches_of_type (h : canonicalizeBSONType v = canonicalizeBSONType rhs) :
    comparisonMatches lib matchType rhs collator (some v) = true ↔
      (matchType.supportsEquality = true ∧ lib.rank collator v = lib.rank collator rhs) ∨
      (v.isNaN = false ∧ rhs.isNaN = false ∧
        matchType.strictly (lib.rank collator v) (lib.rank collator rhs)) := by
  have hlt := lib.compare_lt_iff collator h
  have heq := lib.compare_eq_iff collator h
  simp only [comparisonMatches, canonicalType, Option.map_some, Option.getD_some, h, ne_eq,
    not_true_eq_false, if_false]
  have hgt : 0 < lib.compare collator v rhs ↔ lib.rank collator rhs < lib.rank collator v := by
    rw [← not_le, le_iff_lt_or_eq, hlt, heq, ← le_iff_lt_or_eq, not_le]
  cases hv : v.isNaN with
  | true =>
    cases hrhs : rhs.isNaN with
    | true => simp [lib.rank_eq_of_isNaN collator hv hrhs]
    | false =>
      have hne : lib.rank collator v ≠ lib.rank collator rhs := by
        intro hrank
        have := lib.isNaN_eq_of_rank_eq collator hrank
        simp [hv, hrhs] at this
      simp [hne]
  | false =>
    cases hrhs : rhs.isNaN with
    | true =>
      have hne : lib.rank collator v ≠ lib.rank collator rhs := by
        intro hrank
        have := lib.isNaN_eq_of_rank_eq collator hrank
        simp [hv, hrhs] at this
      simp [hne]
    | false =>
      cases matchType with
      | EQ => simp [holds, supportsEquality, strictly, heq]
      | LT => simp [holds, supportsEquality, strictly, hlt]
      | GT => simp [holds, supportsEquality, strictly, hgt]
      | LTE =>
        simp [holds, supportsEquality, strictly, le_iff_lt_or_eq, hlt, heq, or_comm]
      | GTE =>
        simp [holds, supportsEquality, strictly,
          le_iff_lt_or_eq, hgt, eq_comm (a := (0 : ℤ)), heq, or_comm]

theorem extreme_iff_type (v : BSONValue) : (v.type = 127 ∨ v.type = -1) ↔
    (canonicalizeBSONType v = 127 ∨ canonicalizeBSONType v = -1) := by
  cases v with
  | number n => cases n <;> simp [BSONValue.type, canonicalizeBSONType]
  | _ => simp [BSONValue.type, canonicalizeBSONType]

theorem comparisonMatches_congr {rhs' : BSONValue}
    (h : lib.rank collator rhs = lib.rank collator rhs') (e : Option BSONValue) :
    comparisonMatches lib matchType rhs collator e =
      comparisonMatches lib matchType rhs' collator e := by
  have htype := lib.canonicalizeBSONType_of_rank_eq collator h
  have hkeys : (rhs.type = 127 ∨ rhs.type = -1) ↔ (rhs'.type = 127 ∨ rhs'.type = -1) := by
    rw [extreme_iff_type, extreme_iff_type, htype]
  by_cases he : canonicalType e = canonicalizeBSONType rhs
  · cases e with
    | none => simp [comparisonMatches, ← htype, he]
    | some v =>
      rw [Bool.eq_iff_iff, comparisonMatches_of_type lib collator he,
        comparisonMatches_of_type lib collator (he.trans htype), h,
        lib.isNaN_eq_of_rank_eq collator h]
  · have he' : canonicalType e ≠ canonicalizeBSONType rhs' := fun heq => he (heq.trans htype.symm)
    simp [comparisonMatches, he', htype, hkeys]

/-- A value of another type is matched by a comparison with null or with an extreme key only. -/
theorem comparisonMatches_of_type_ne {e : Option BSONValue}
    (h : canonicalType e ≠ canonicalizeBSONType rhs) :
    comparisonMatches lib matchType rhs collator e = true ↔
      (canonicalType e + canonicalizeBSONType rhs = 5 ∧ matchType.supportsEquality = true) ∨
      (canonicalType e + canonicalizeBSONType rhs ≠ 5 ∧ (rhs.type = 127 ∨ rhs.type = -1) ∧
        matchType ≠ .EQ) := by
  simp only [comparisonMatches, ne_eq, h, not_false_eq_true, if_true]
  split_ifs with hsum hextreme
  · simp [hsum]
  · simp [hsum, hextreme]
  · simp [hsum, hextreme]

theorem type_eq_null_iff (v : BSONValue) : v.type = 10 ↔ v = .jstNULL := by
  cases v with
  | number n => cases n <;> simp [BSONValue.type]
  | _ => simp [BSONValue.type]

theorem type_eq_undefined_iff (v : BSONValue) : v.type = 6 ↔ v = .undefined := by
  cases v with
  | number n => cases n <;> simp [BSONValue.type]
  | _ => simp [BSONValue.type]

theorem eq_undefined_of_type (h : canonicalType none = canonicalizeBSONType v) : v = .undefined := by
  cases v <;> simp [canonicalType, canonicalizeBSONType] at h ⊢

theorem null_or_undefined_of_sum {e : Option BSONValue}
    (h : canonicalType e + canonicalizeBSONType rhs = 5) : rhs = .jstNULL ∨ rhs = .undefined := by
  have helement : -1 ≤ canonicalType e ∧ canonicalType e ≠ 6 := by
    cases e with
    | none => decide
    | some v => cases v <;> simp [canonicalType, canonicalizeBSONType]
  cases rhs with
  | jstNULL => exact .inl rfl
  | undefined => exact .inr rfl
  | _ =>
    simp only [canonicalizeBSONType] at h
    omega

/-- An equality with a value that is not null matches the values of its rank. -/
theorem comparisonMatches_eq_iff (hnull : rhs ≠ .jstNULL) (hundefined : rhs ≠ .undefined)
    (e : Option BSONValue) :
    comparisonMatches lib .EQ rhs collator e = true ↔
      ∃ v, e = some v ∧ lib.rank collator v = lib.rank collator rhs := by
  by_cases htype : canonicalType e = canonicalizeBSONType rhs
  · cases e with
    | none =>
      exact (hundefined (eq_undefined_of_type htype)).elim
    | some v =>
      rw [comparisonMatches_of_type lib collator htype]
      simp [supportsEquality, strictly]
  · have hsum : ¬canonicalType e + canonicalizeBSONType rhs = 5 := fun hsum =>
      (null_or_undefined_of_sum hsum).elim hnull hundefined
    have hrank : ¬∃ v, e = some v ∧ lib.rank collator v = lib.rank collator rhs := by
      rintro ⟨v, rfl, hrank⟩
      exact htype (lib.canonicalizeBSONType_of_rank_eq collator hrank)
    simp [comparisonMatches, htype, hsum, hrank]

end MatchExpression
end MongoServer
