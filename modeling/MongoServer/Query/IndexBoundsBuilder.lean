import MongoServer.Matcher.Comparisons
import MongoServer.Query.IndexBounds

/-!
Bounds for comparisons with null, MinKey and MaxKey, on an index that is not hashed and has no
collator. Each of these types has a single value, so the least and the greatest value of the
operand's type are the operand itself.
-/
namespace MongoServer.IndexBoundsBuilder
open MatchExpression

inductive BoundsTightness where
  | EXACT
  | INEXACT_FETCH
  deriving DecidableEq

def allValues : Interval := ⟨.minKey, true, .maxKey, true⟩

def isNull (i : Interval) : Bool :=
  (!i.startInclusive || !i.stopInclusive) && compareValues i.start i.stop = 0

def unlessNull (interval : Interval) : List Interval := if isNull interval then [] else [interval]

/-- For one of the three operands: none is a number, and no type of them has exact bounds. -/
def translate (matchType : ComparisonType) (data : BSONValue) : List Interval × BoundsTightness :=
  match matchType with
  | .EQ => ([⟨data, true, data, true⟩], if data.type = 10 then .INEXACT_FETCH else .EXACT)
  | .LTE =>
      if data.type = 127 then ([allValues], .EXACT)
      else ([⟨data, true, data, true⟩], .INEXACT_FETCH)
  | .LT =>
      if data.type = 127 then ([allValues], .EXACT)
      else (unlessNull ⟨data, true, data, false⟩, .INEXACT_FETCH)
  | .GT =>
      if data.type = -1 then ([allValues], .EXACT)
      else (unlessNull ⟨data, false, data, true⟩, .INEXACT_FETCH)
  | .GTE =>
      if data.type = -1 then ([allValues], .EXACT)
      else ([⟨data, true, data, true⟩], .INEXACT_FETCH)

def Within (matchType : ComparisonType) (data v : BSONValue) : Prop :=
  ∃ i ∈ (translate matchType data).1, i.contains v = true

/-- Where bounds and matching disagree: undefined equals null to the matcher only, every other
value is on both sides of an extreme key, and the bounds that leave out nothing are exact. -/
def Slips : ComparisonType → BSONValue → BSONValue → Prop
  | .EQ, data, v => data = .jstNULL ∧ v = .undefined
  | .LTE, data, v => data = .jstNULL ∧ v = .undefined ∨ data = .minKey ∧ v ≠ .minKey
  | .GTE, data, v => data = .jstNULL ∧ v = .undefined ∨ data = .maxKey ∧ v ≠ .maxKey
  | .LT, data, v => data = .minKey ∧ v ≠ .minKey ∨ data = .maxKey ∧ v = .maxKey
  | .GT, data, v => data = .maxKey ∧ v ≠ .maxKey ∨ data = .minKey ∧ v = .minKey

variable {Collator : Type*} {data : BSONValue}

theorem contains_allValues (v : BSONValue) : allValues.contains v = true := by
  cases v <;> rfl

theorem contains_data (hdata : data = .jstNULL ∨ data = .minKey ∨ data = .maxKey)
    (v : BSONValue) : (Interval.mk data true data true).contains v = true ↔ v = data := by
  rw [Interval.contains_iff]
  constructor
  · rintro ⟨hstart, hstop⟩
    have htype : canonicalizeBSONType v = canonicalizeBSONType data :=
      canonicalizeBSONType_of_rank_eq (le_antisymm (hstop.elim le_of_lt fun h => h.1.le)
        (hstart.elim le_of_lt fun h => h.1.ge))
    rcases hdata with rfl | rfl | rfl <;> cases v <;> simp [canonicalizeBSONType] at htype ⊢
  · rintro rfl
    simp

theorem matches_data (lib : MatcherLibrary Collator) (matchType : ComparisonType)
    (hdata : data = .jstNULL ∨ data = .minKey ∨ data = .maxKey) (v : BSONValue) :
    comparisonMatches lib matchType data none (some v) = true ↔
      (v = data ∨ data = .jstNULL ∧ v = .undefined) ∧ matchType.supportsEquality = true ∨
        data ≠ .jstNULL ∧ v ≠ data ∧ matchType ≠ .EQ := by
  by_cases htype : canonicalizeBSONType v = canonicalizeBSONType data
  · rw [comparisonMatches_of_type lib none htype]
    rcases hdata with rfl | rfl | rfl <;> cases v <;> simp [canonicalizeBSONType] at htype ⊢
    all_goals cases matchType <;> simp [ComparisonType.strictly]
  · rw [comparisonMatches_of_type_ne lib none (by simpa [canonicalType] using htype)]
    rcases hdata with rfl | rfl | rfl <;> cases v <;>
      simp [canonicalizeBSONType, canonicalType, BSONValue.type] at htype ⊢

/-- A value that matches is within the bounds, and one within exact bounds matches, except for
the slips. -/
theorem translate_agrees_iff (lib : MatcherLibrary Collator) (matchType : ComparisonType)
    (hdata : data = .jstNULL ∨ data = .minKey ∨ data = .maxKey) (v : BSONValue) :
    ((comparisonMatches lib matchType data none (some v) = true → Within matchType data v) ∧
      ((translate matchType data).2 = .EXACT → Within matchType data v →
        comparisonMatches lib matchType data none (some v) = true)) ↔
      ¬Slips matchType data v := by
  have hcontains := contains_data hdata v
  have hall := contains_allValues v
  have hopen : unlessNull ⟨data, true, data, false⟩ = [] ∧
      unlessNull ⟨data, false, data, true⟩ = [] := by
    simp [unlessNull, isNull, compareValues_eq_iff]
  rw [matches_data lib matchType hdata v]
  unfold Within
  rcases hdata with rfl | rfl | rfl <;> cases matchType <;>
    simp [translate, Slips, hcontains, hall, hopen, BSONValue.type, ComparisonType.supportsEquality]
  all_goals cases v <;> simp

theorem translate_agrees_null_null :
    comparisonMatches MatcherLibrary.plain .EQ .jstNULL none (some .jstNULL) = true ∧
      Within .EQ .jstNULL .jstNULL :=
  ⟨by decide, ((translate_agrees_iff MatcherLibrary.plain .EQ (.inl rfl) .jstNULL).mpr
    (by simp [Slips])).1 (by decide)⟩

/-- Undefined equals null, and is not within the bounds for null. -/
theorem undefined_outside_null_bounds :
    comparisonMatches MatcherLibrary.plain .EQ .jstNULL none (some .undefined) = true ∧
      ∀ i ∈ (translate .EQ .jstNULL).1, i.contains .undefined = false := by
  decide

end MongoServer.IndexBoundsBuilder
