import Mathlib.Data.Prod.Lex
import MongoServer.KeyString.Order

/-!
The comparison of documents and values as a linear order. Encoded bytes order as `woCompare`
does, so the encoding ranks documents, and two have the same rank when they compare equal.
-/
namespace MongoServer
open ByteOrder KeyString List Std.ReflOrd

def Rank : Type := List ℕ

instance : LinearOrder Rank := inferInstanceAs (LinearOrder (List ℕ))

def Rank.ofBytes (bytes : List UInt8) : Rank := bytes.map UInt8.toNat

def BSONObj.rank (obj : BSONObj) : Rank := .ofBytes ((appendBson .V1 false obj).bytes ++ [0])

/-- The same for values, which compare without names. -/
def BSONValue.rank (v : BSONValue) : Rank :=
  .ofBytes ((appendBsonValue .V1 false v).bytes ++ [0])

open BSONValue

section Bytes

theorem compare_bytes_lt_iff {l r : List UInt8} :
    compare l r = .lt ↔ Rank.ofBytes l < Rank.ofBytes r := by
  have hnat : compare l r = .lt ↔ l.map UInt8.toNat < r.map UInt8.toNat := by
    induction l generalizing r with
    | nil => cases r <;> simp
    | cons a l ih =>
      cases r with
      | nil => simp
      | cons b r =>
        rw [List.compare_cons_cons, Ordering.then_eq_lt, List.map_cons, List.map_cons,
          cons_lt_cons_iff, ih, compare_byte_eq, compare_lt_iff_lt, compare_eq_iff_eq]
  exact hnat

theorem compare_bytes_eq_iff {l r : List UInt8} :
    compare l r = .eq ↔ Rank.ofBytes l = Rank.ofBytes r := by
  rw [Std.compare_eq_iff_eq]
  exact (map_injective_iff.mpr fun a b => UInt8.toNat_inj.mp).eq_iff.symm

end Bytes

section Ranks

theorem afterString_nul : AfterString false [0] := ⟨0, [], rfl, by decide⟩

theorem compare_bson (l r : BSONObj) :
    compare ((appendBson .V1 false l).bytes ++ [0]) ((appendBson .V1 false r).bytes ++ [0]) =
      ofSign (woCompareNested l r) := by
  rw [ordersAs_bson .V1 false l r [0] [0] afterString_nul afterString_nul,
    compare_self, Ordering.then_eq, directed_false]

theorem compare_bsonValue (l r : BSONValue) (ln rn : CString) :
    compare ((appendBsonValue .V1 false l).bytes ++ [0])
        ((appendBsonValue .V1 false r).bytes ++ [0]) =
      ofSign (woCompareElement false (ln, l) (rn, r)) := by
  rw [ordersAs_value .V1 false l r ln rn [0] [0] afterString_nul afterString_nul,
    compare_self, Ordering.then_eq, directed_false]

theorem compare_ofBytes (l r : List UInt8) :
    compare (Rank.ofBytes l) (Rank.ofBytes r) = compare l r := by
  cases h : compare l r with
  | lt => exact compare_lt_iff_lt.mpr (compare_bytes_lt_iff.mp h)
  | eq => exact compare_eq_iff_eq.mpr (compare_bytes_eq_iff.mp h)
  | gt => exact compare_gt_iff_gt.mpr (compare_bytes_lt_iff.mp (Std.OrientedCmp.lt_of_gt h))

theorem ofSign_woCompareNested (l r : BSONObj) :
    ofSign (woCompareNested l r) = compare l.rank r.rank := by
  rw [BSONObj.rank, BSONObj.rank, compare_ofBytes, compare_bson]

theorem woCompareNested_lt_iff {l r : BSONObj} : woCompareNested l r < 0 ↔ l.rank < r.rank :=
  (iff_of_ofSign (ofSign_woCompareNested l r)).1

theorem woCompareNested_eq_iff {l r : BSONObj} : woCompareNested l r = 0 ↔ l.rank = r.rank :=
  (iff_of_ofSign (ofSign_woCompareNested l r)).2.1

theorem woCompareNested_le_iff {l r : BSONObj} : woCompareNested l r ≤ 0 ↔ l.rank ≤ r.rank :=
  (iff_of_ofSign (ofSign_woCompareNested l r)).2.2

section Elements
variable {l r : CString × BSONValue}

theorem ofSign_woCompareElement_false (l r : CString × BSONValue) :
    ofSign (woCompareElement false l r) = compare l.2.rank r.2.rank := by
  rw [BSONValue.rank, BSONValue.rank, compare_ofBytes, compare_bsonValue l.2 r.2 l.1 r.1]

theorem woCompareElement_lt_iff : woCompareElement false l r < 0 ↔ l.2.rank < r.2.rank :=
  (iff_of_ofSign (ofSign_woCompareElement_false l r)).1

theorem woCompareElement_eq_iff : woCompareElement false l r = 0 ↔ l.2.rank = r.2.rank :=
  (iff_of_ofSign (ofSign_woCompareElement_false l r)).2.1

theorem woCompareElement_le_iff : woCompareElement false l r ≤ 0 ↔ l.2.rank ≤ r.2.rank :=
  (iff_of_ofSign (ofSign_woCompareElement_false l r)).2.2

end Elements

variable (considerFieldName : Bool)

/-- Elements order by canonical type, then by name where it is considered, then by value. -/
def elementRank (e : CString × BSONValue) : ℤ ×ₗ Rank ×ₗ Rank :=
  toLex (canonicalizeBSONType e.2,
    toLex (.ofBytes (if considerFieldName then e.1.bytes else []), e.2.rank))

theorem ofSign_woCompareElement (l r : CString × BSONValue) :
    ofSign (woCompareElement considerFieldName l r) =
      compare (elementRank considerFieldName l) (elementRank considerFieldName r) := by
  have hranks := ofSign_woCompareElement_false l r
  simp only [woCompareElement, ofSign_elementOrder, elementRank, Prod.Lex.compare_def, compareLex,
    compareOn, ofLex_toLex, compare_ofBytes] at hranks ⊢
  rw [← hranks]
  cases compare (canonicalizeBSONType l.2) (canonicalizeBSONType r.2) <;>
    cases considerFieldName <;> simp [compare_self]

/-- The comparison of elements is a total preorder, whether names count or not. -/
theorem woCompareElement_total_preorder (x y z : CString × BSONValue) :
    woCompareElement considerFieldName x x = 0 ∧ (woCompareElement considerFieldName x y).sign =
        -(woCompareElement considerFieldName y x).sign ∧
      (woCompareElement considerFieldName x y ≤ 0 → woCompareElement considerFieldName y z ≤ 0 →
        woCompareElement considerFieldName x z ≤ 0) := by
  have hrank := ofSign_woCompareElement considerFieldName
  refine ⟨(iff_of_ofSign (hrank x x)).2.1.mpr rfl, ?_, fun hxy hyz => ?_⟩
  · rw [sign_eq_toSign, sign_eq_toSign, hrank, hrank, Std.OrientedOrd.eq_swap]
    cases compare (elementRank considerFieldName y) (elementRank considerFieldName x) <;> rfl
  · rw [(iff_of_ofSign (hrank _ _)).2.2] at hxy hyz ⊢
    exact hxy.trans hyz

end Ranks

section Fields
variable {n : CString} {v w : BSONValue} {l r : BSONObj}

theorem woCompareNested_cons (n : CString) (v w : BSONValue) (l r : BSONObj) :
    woCompareNested ((n, v) :: l) ((n, w) :: r) =
      if woCompareElement false (n, v) (n, w) ≠ 0 then woCompareElement false (n, v) (n, w)
      else woCompareNested l r := by
  have hname : strcmp n n = 0 := by
    unfold strcmp
    rw [compare_self]
    rfl
  have helement : elementOrder true (n, v) (n, w) (compareElementValues v w) =
      woCompareElement false (n, v) (n, w) := by
    simp only [woCompareElement, elementOrder, hname, ite_self]
  simp only [woCompareNested, helement]

/-- Fields of one name are compared first, and what follows them if they are equal. -/
theorem BSONObj.rank_cons_lt_iff : BSONObj.rank ((n, v) :: l) < BSONObj.rank ((n, w) :: r) ↔
      v.rank < w.rank ∨ v.rank = w.rank ∧ l.rank < r.rank := by
  rw [← woCompareNested_lt_iff, woCompareNested_cons]
  split_ifs with h
  · have hne : ¬v.rank = w.rank := fun heq =>
      h ((woCompareElement_eq_iff (l := (n, v)) (r := (n, w))).mpr heq)
    rw [woCompareElement_lt_iff]
    simp [hne]
  · have heq : v.rank = w.rank :=
      (woCompareElement_eq_iff (l := (n, v)) (r := (n, w))).mp (not_not.mp h)
    rw [woCompareNested_lt_iff]
    simp [heq]

theorem BSONObj.rank_cons_eq_iff : BSONObj.rank ((n, v) :: l) = BSONObj.rank ((n, w) :: r) ↔
      v.rank = w.rank ∧ l.rank = r.rank := by
  constructor
  · intro h
    have hl : ¬_ := (BSONObj.rank_cons_lt_iff (n := n) (l := l) (r := r)).not.mp h.not_lt
    have hr : ¬_ := (BSONObj.rank_cons_lt_iff (n := n) (l := r) (r := l)).not.mp h.not_gt
    push Not at hl hr
    have hv := le_antisymm hr.1 hl.1
    exact ⟨hv, le_antisymm (hr.2 hv.symm) (hl.2 hv)⟩
  · rintro ⟨hv, hl⟩
    apply le_antisymm
    · rw [← not_lt, BSONObj.rank_cons_lt_iff]
      simp [hv, hl]
    · rw [← not_lt, BSONObj.rank_cons_lt_iff]
      simp [hv, hl]

/-- The same names, and values that are in order one by one. -/
def BSONObj.FieldsLe (l r : BSONObj) : Prop :=
  List.Forall₂ (fun a b => a.1 = b.1 ∧ a.2.rank ≤ b.2.rank) l r

theorem BSONObj.rank_le_of_fields (h : l.FieldsLe r) : l.rank ≤ r.rank := by
  induction h with
  | nil => exact le_refl _
  | @cons a b l r hab h ih =>
    obtain ⟨n, v⟩ := a
    obtain ⟨m, w⟩ := b
    obtain ⟨rfl, hvw⟩ := hab
    rw [← not_lt, BSONObj.rank_cons_lt_iff]
    rintro (hlt | ⟨-, hlt⟩)
    · exact absurd hvw (not_le.mpr hlt)
    · exact absurd ih (not_le.mpr hlt)

end Fields

section Types
variable {v w : BSONValue}

theorem BSONValue.rank_lt_of_type (h : canonicalizeBSONType v < canonicalizeBSONType w) :
    v.rank < w.rank := by
  have hnumber : ∀ u : BSONValue, u.isNumber = true → canonicalizeBSONType u = 10 := by
    intro u hu
    cases u <;> simp_all [isNumber, canonicalizeBSONType]
  have hnot : (!v.isNumber || !w.isNumber) = true := by
    by_contra hboth
    simp only [Bool.or_eq_true, Bool.not_eq_true', not_or, Bool.not_eq_false] at hboth
    rw [hnumber v hboth.1, hnumber w hboth.2] at h
    exact lt_irrefl _ h
  have hcmp : woCompareElement false (CString.empty, v) (CString.empty, w) =
      canonicalizeBSONType v - canonicalizeBSONType w :=
    if_pos ⟨sub_ne_zero.mpr h.ne, hnot⟩
  refine (woCompareElement_lt_iff (l := (CString.empty, v)) (r := (CString.empty, w))).mp ?_
  rw [hcmp]
  exact sub_neg.mpr h

theorem BSONValue.type_le_of_rank_le (h : v.rank ≤ w.rank) :
    canonicalizeBSONType v ≤ canonicalizeBSONType w := by
  by_contra hlt
  exact absurd (rank_lt_of_type (not_le.mp hlt)) (not_lt.mpr h)

theorem canonicalizeBSONType_lt_maxKey (h : v ≠ .maxKey) :
    canonicalizeBSONType v < canonicalizeBSONType .maxKey := by
  cases v <;> simp_all [canonicalizeBSONType]

theorem BSONValue.rank_lt_maxKey (h : v ≠ .maxKey) : v.rank < maxKey.rank :=
  rank_lt_of_type (canonicalizeBSONType_lt_maxKey h)

theorem BSONValue.rank_le_maxKey (v : BSONValue) : v.rank ≤ maxKey.rank := by
  by_cases h : v = .maxKey
  · rw [h]
  · exact (rank_lt_maxKey h).le

theorem BSONValue.rank_eq_maxKey_iff : v.rank = maxKey.rank ↔ v = .maxKey := by
  constructor
  · intro h
    by_contra hne
    exact absurd h (rank_lt_maxKey hne).ne
  · rintro rfl
    rfl

theorem BSONValue.minKey_le_rank (v : BSONValue) : minKey.rank ≤ v.rank := by
  by_cases h : v = .minKey
  · rw [h]
  · have htype : canonicalizeBSONType .minKey < canonicalizeBSONType v := by
      cases v <;> simp_all [canonicalizeBSONType]
    exact (rank_lt_of_type htype).le

/-- A document lies between those that have the lowest or the highest value in each field. -/
theorem BSONObj.rank_bounds (obj : BSONObj) :
    BSONObj.rank (obj.map fun e => (e.1, .minKey)) ≤ obj.rank ∧
      obj.rank ≤ BSONObj.rank (obj.map fun e => (e.1, .maxKey)) := by
  constructor
  · apply BSONObj.rank_le_of_fields
    rw [BSONObj.FieldsLe, forall₂_map_left_iff]
    exact forall₂_same.mpr fun e _ => ⟨rfl, e.2.minKey_le_rank⟩
  · apply BSONObj.rank_le_of_fields
    rw [BSONObj.FieldsLe, forall₂_map_right_iff]
    exact forall₂_same.mpr fun e _ => ⟨rfl, e.2.rank_le_maxKey⟩

end Types

end MongoServer
