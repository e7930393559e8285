import MongoServer.Bson.ObjectOrder

/-!
The comparison of documents by the directions of a pattern. It is a total preorder: of two documents
one comes before the other or they are equal, field by field.
-/
namespace MongoServer

/-- `BSONElement::number`, which is zero for what is no number. -/
def BSONValue.numberDouble : BSONValue → BitVec 64
  | .number (.numberInt n) => Binary64.ofInt n.toInt
  | .number (.numberLong n) => Binary64.ofInt n.toInt
  | .number (.numberDouble d) => d
  | _ => 0

def isDescending (pattern : BSONObj) : Bool :=
  pattern.head?.any fun o => Binary64.lt o.2.numberDouble 0

/-- `BSONObj::woCompare` with a pattern and without field names. Fields past the end of the pattern
are in ascending order. -/
def woCompareBy (idxKey : BSONObj) : BSONObj → BSONObj → ℤ
  | [], [] => 0
  | [], _ :: _ => -1
  | _ :: _, [] => 1
  | l :: ls, r :: rs =>
      let x := woCompareElement false l r
      let x := if isDescending idxKey then -x else x
      if x ≠ 0 then x else woCompareBy idxKey.tail ls rs

section Order
variable {pattern : BSONObj} {a b c : BSONObj}

/-- The value comes strictly first in the direction of the first field. -/
def IsBefore (pattern : BSONObj) (v w : BSONValue) : Prop :=
  if isDescending pattern then w.rank < v.rank else v.rank < w.rank

theorem IsBefore.trans {u v w : BSONValue} (huv : IsBefore pattern u v)
    (hvw : IsBefore pattern v w) : IsBefore pattern u w := by
  unfold IsBefore at *
  split_ifs at * with h
  · exact hvw.trans huv
  · exact huv.trans hvw

theorem woCompareBy_cons_le_iff {l r : CString × BSONValue} :
    woCompareBy pattern (l :: a) (r :: b) ≤ 0 ↔
      IsBefore pattern l.2 r.2 ∨ l.2.rank = r.2.rank ∧ woCompareBy pattern.tail a b ≤ 0 := by
  have hlt := woCompareElement_lt_iff (l := l) (r := r)
  have heq := woCompareElement_eq_iff (l := l) (r := r)
  have hle := woCompareElement_le_iff (l := l) (r := r)
  simp only [woCompareBy, IsBefore]
  cases isDescending pattern with
  | true =>
    simp only [if_true, ne_eq, neg_eq_zero]
    by_cases h : woCompareElement false l r = 0
    · rw [if_neg (not_not.mpr h)]
      simp [heq.mp h]
    · rw [if_pos h]
      have hne : l.2.rank ≠ r.2.rank := fun hrank => h (heq.mpr hrank)
      simp only [hne, false_and, or_false, Left.neg_nonpos_iff]
      rw [← not_le, ← hle]
      omega
  | false =>
    simp only [Bool.false_eq_true, if_false]
    by_cases h : woCompareElement false l r = 0
    · rw [if_neg (not_not.mpr h)]
      simp [heq.mp h]
    · rw [if_pos h]
      have hne : l.2.rank ≠ r.2.rank := fun hrank => h (heq.mpr hrank)
      simp only [hne, false_and, or_false]
      rw [← hlt]
      omega

theorem woCompareBy_trans (hab : woCompareBy pattern a b ≤ 0) (hbc : woCompareBy pattern b c ≤ 0) :
    woCompareBy pattern a c ≤ 0 := by
  induction a generalizing pattern b c with
  | nil => cases c <;> simp [woCompareBy]
  | cons x a ih =>
    cases b with
    | nil => simp [woCompareBy] at hab
    | cons y b =>
      cases c with
      | nil => simp [woCompareBy] at hbc
      | cons z c =>
        rw [woCompareBy_cons_le_iff] at *
        rcases hab with hxy | ⟨hxy, hab⟩
        · rcases hbc with hyz | ⟨hyz, -⟩
          · exact Or.inl (hxy.trans hyz)
          · unfold IsBefore at *
            rw [← hyz]
            exact Or.inl hxy
        · rcases hbc with hyz | ⟨hyz, hbc⟩
          · unfold IsBefore at *
            rw [hxy]
            exact Or.inl hyz
          · exact Or.inr ⟨hxy.trans hyz, ih hab hbc⟩

theorem woCompareBy_total : woCompareBy pattern a b ≤ 0 ∨ woCompareBy pattern b a ≤ 0 := by
  induction a generalizing pattern b with
  | nil => cases b <;> simp [woCompareBy]
  | cons x a ih =>
    cases b with
    | nil => simp [woCompareBy]
    | cons y b =>
      rw [woCompareBy_cons_le_iff, woCompareBy_cons_le_iff]
      unfold IsBefore
      rcases lt_trichotomy x.2.rank y.2.rank with h | h | h
      · split_ifs
        · exact Or.inr (Or.inl h)
        · exact Or.inl (Or.inl h)
      · have hrest : woCompareBy pattern.tail a b ≤ 0 ∨ woCompareBy pattern.tail b a ≤ 0 := ih
        rcases hrest with hab | hba
        · exact Or.inl (Or.inr ⟨h, hab⟩)
        · exact Or.inr (Or.inr ⟨h.symm, hba⟩)
      · split_ifs
        · exact Or.inl (Or.inl h)
        · exact Or.inr (Or.inl h)

end Order
end MongoServer
