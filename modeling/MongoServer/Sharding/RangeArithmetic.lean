import MongoServer.Ranges.SortedRanges
import MongoServer.Sharding.ChunkOperations

/-!
Maps from the lower to the upper bounds of ranges, and what of them overlaps a given range.
-/
namespace MongoServer
open List

theorem woCompareNested_pos_iff {l r : BSONObj} :
    0 < woCompareNested l r ↔ woCompareNested r l < 0 := by
  rw [← not_le, woCompareNested_le_iff, woCompareNested_lt_iff, not_le]

structure CachedChunkInfo where
  maxKey : BSONObj
  version : ChunkVersion

/-- Entries in the order of their keys. An iterator is a position, and the end is the number of
entries. -/
structure RangeMap where
  entries : List (BSONObj × CachedChunkInfo)
  sorted : entries.Pairwise fun a b => woCompareNested a.1 b.1 < 0

def rangeContains (inclusiveLower exclusiveUpper point : BSONObj) : Bool :=
  0 ≤ woCompareNested point inclusiveLower && woCompareNested point exclusiveUpper < 0

namespace RangeMap

def empty : RangeMap := ⟨[], List.Pairwise.nil⟩

variable (ranges : RangeMap) (key : BSONObj)

def isEmpty : Bool := ranges.entries.isEmpty

def lowerBound : ℕ :=
  ranges.entries.findIdx fun e => 0 ≤ woCompareNested e.1 key

def upperBound : ℕ :=
  ranges.entries.findIdx fun e => 0 < woCompareNested e.1 key

def before (it : ℕ) : Option (BSONObj × CachedChunkInfo) :=
  if it = 0 then none else ranges.entries[it - 1]?

def find : Option (BSONObj × CachedChunkInfo) :=
  ranges.entries.find? fun e => woCompareNested e.1 key = 0

def erase : RangeMap where
  entries := ranges.entries.filter fun e => woCompareNested e.1 key ≠ 0
  sorted := ranges.sorted.filter _

/-- Nothing happens if the key is present. -/
def emplace (info : CachedChunkInfo) : RangeMap where
  entries := if (ranges.find key).isSome then ranges.entries
    else (ranges.entries.filter fun e => woCompareNested e.1 key < 0) ++ (key, info) ::
      ranges.entries.filter fun e => 0 < woCompareNested e.1 key
  sorted := by
    split_ifs
    · exact ranges.sorted
    refine pairwise_append.mpr ⟨ranges.sorted.filter _,
      pairwise_cons.mpr ⟨?_, ranges.sorted.filter _⟩, ?_⟩
    · intro b hb
      exact woCompareNested_pos_iff.mp (of_decide_eq_true (mem_filter.mp hb).2)
    · intro a ha b hb
      have hlt : woCompareNested a.1 key < 0 := of_decide_eq_true (mem_filter.mp ha).2
      rcases mem_cons.mp hb with rfl | hb
      · exact hlt
      · have hgt : 0 < woCompareNested b.1 key := of_decide_eq_true (mem_filter.mp hb).2
        rw [woCompareNested_pos_iff, woCompareNested_lt_iff] at hgt
        rw [woCompareNested_lt_iff] at hlt ⊢
        exact hlt.trans hgt

end RangeMap

/-- The first entry that overlaps a range, and the first after it that does not. -/
def rangeMapOverlapBounds (ranges : RangeMap) (inclusiveLower exclusiveUpper : BSONObj) : ℕ × ℕ :=
  let low := ranges.lowerBound inclusiveLower
  -- the range before may reach into this one
  let low := if (ranges.before low).any fun prev =>
    ¬woCompareNested prev.2.maxKey inclusiveLower < 1 then low - 1 else low
  (low, ranges.lowerBound exclusiveUpper)

def getRangeMapOverlap (ranges : RangeMap) (inclusiveLower exclusiveUpper : BSONObj) :
    List (BSONObj × BSONObj) :=
  let bounds := rangeMapOverlapBounds ranges inclusiveLower exclusiveUpper
  ((ranges.entries.take bounds.2).drop bounds.1).map fun e => (e.1, e.2.maxKey)

def rangeMapOverlaps (ranges : RangeMap) (inclusiveLower exclusiveUpper : BSONObj) : Bool :=
  let bounds := rangeMapOverlapBounds ranges inclusiveLower exclusiveUpper
  bounds.1 ≠ bounds.2

def rangeMapContains (ranges : RangeMap) (inclusiveLower exclusiveUpper : BSONObj) : Bool :=
  let bounds := rangeMapOverlapBounds ranges inclusiveLower exclusiveUpper
  ranges.entries[bounds.1]?.any fun e =>
    woCompareNested e.1 inclusiveLower = 0 && woCompareNested e.2.maxKey exclusiveUpper = 0

section Ranks
open Ranges

def rangeLo (e : BSONObj × CachedChunkInfo) : Rank := e.1.rank

def rangeHi (e : BSONObj × CachedChunkInfo) : Rank := e.2.maxKey.rank

/-- The ranges of a map are not empty, and no two of them overlap. -/
def RangeMap.Disjoint (ranges : RangeMap) : Prop := Ranges.Apart rangeLo rangeHi ranges.entries

variable {ranges : RangeMap} {key lower upper : BSONObj}

theorem rangeContains_iff : rangeContains lower upper key = true ↔
    lower.rank ≤ key.rank ∧ key.rank < upper.rank := by
  unfold rangeContains
  rw [Bool.and_eq_true, decide_eq_true_iff, decide_eq_true_iff, woCompareNested_lt_iff, ← not_lt,
    woCompareNested_lt_iff, not_lt]

theorem RangeMap.lowerBound_eq :
    ranges.lowerBound key = ranges.entries.findIdx fun e => key.rank ≤ rangeLo e := by
  unfold lowerBound
  congr 1
  funext e
  rw [decide_eq_decide, ← not_lt, woCompareNested_lt_iff, not_lt]
  rfl

theorem RangeMap.upperBound_eq :
    ranges.upperBound key = ranges.entries.findIdx fun e => key.rank < rangeLo e := by
  unfold upperBound
  congr 1
  funext e
  rw [decide_eq_decide, woCompareNested_pos_iff, woCompareNested_lt_iff]
  rfl

section
variable (h : ranges.Disjoint)
include h

namespace RangeMap.Disjoint

theorem before_upperBound : ranges.before (ranges.upperBound key) =
      (ranges.entries.filter fun e => !(key.rank < rangeLo e : Bool)).getLast? := by
  rw [upperBound_eq, before]
  exact (h.upward_lt_lo key.rank).getElem?_before

theorem getElem?_upperBound : ranges.entries[ranges.upperBound key]? =
      (ranges.entries.filter fun e => (key.rank < rangeLo e : Bool)).head? := by
  rw [upperBound_eq]
  exact (h.upward_lt_lo key.rank).getElem?_findIdx

theorem overlapBounds_eq : rangeMapOverlapBounds ranges lower upper =
      (ranges.entries.findIdx fun e => lower.rank < rangeHi e,
        ranges.entries.findIdx fun e => upper.rank ≤ rangeLo e) := by
  have hreaches : ∀ e : BSONObj × CachedChunkInfo,
      (¬woCompareNested e.2.maxKey lower < 1) ↔ lower.rank < rangeHi e := by
    intro e
    have hpos : 0 < woCompareNested e.2.maxKey lower ↔ lower.rank < rangeHi e :=
      woCompareNested_pos_iff.trans woCompareNested_lt_iff
    rw [← hpos]
    omega
  simp [rangeMapOverlapBounds, RangeMap.lowerBound_eq, h.findIdx_lt_hi, RangeMap.before, hreaches]

theorem getRangeMapOverlap_eq (hlt : lower.rank < upper.rank) :
    getRangeMapOverlap ranges lower upper =
      (ranges.entries.filter fun e => rangeLo e < upper.rank && lower.rank < rangeHi e).map
        fun e => (e.1, e.2.maxKey) := by
  unfold getRangeMapOverlap
  rw [h.overlapBounds_eq]
  exact congrArg _ (h.slice_eq_filter hlt)

theorem rangeMapOverlaps_iff (hlt : lower.rank < upper.rank) :
    rangeMapOverlaps ranges lower upper = true ↔
      ∃ e ∈ ranges.entries, rangeLo e < upper.rank ∧ lower.rank < rangeHi e := by
  have hslice := h.slice_eq_filter hlt
  have hlength := congrArg List.length hslice
  have hle := h.findIdx_hi_le_lo hlt
  have hbound : (ranges.entries.findIdx fun e => upper.rank ≤ rangeLo e) ≤
      ranges.entries.length := findIdx_le_length
  rw [length_drop, length_take, min_eq_left hbound] at hlength
  unfold rangeMapOverlaps
  rw [h.overlapBounds_eq, decide_eq_true_iff]
  have hpos : (ranges.entries.findIdx fun e => lower.rank < rangeHi e) ≠
      (ranges.entries.findIdx fun e => upper.rank ≤ rangeLo e) ↔
      0 < (ranges.entries.filter fun e => rangeLo e < upper.rank && lower.rank < rangeHi e).length := by
    omega
  rw [hpos, length_pos_iff_exists_mem]
  simp only [mem_filter, Bool.and_eq_true, decide_eq_true_iff]

theorem rangeMapContains_iff (hlt : lower.rank < upper.rank) :
    rangeMapContains ranges lower upper = true ↔
      ∃ e ∈ ranges.entries, rangeLo e = lower.rank ∧ rangeHi e = upper.rank := by
  simp only [rangeMapContains, h.overlapBounds_eq, (h.upward_lt_hi lower.rank).getElem?_findIdx,
    Option.any_eq_true, Bool.and_eq_true, decide_eq_true_iff, woCompareNested_eq_iff]
  constructor
  · rintro ⟨e, he, hlo, hhi⟩
    exact ⟨e, (mem_filter.mp (mem_of_mem_head? he)).1, hlo, hhi⟩
  · rintro ⟨e, he, hlo, hhi⟩
    refine ⟨e, ?_, hlo, hhi⟩
    have hmem : e ∈ ranges.entries.filter fun e => lower.rank < rangeHi e :=
      mem_filter.mpr ⟨he, decide_eq_true (hhi ▸ hlt)⟩
    cases hhead : (ranges.entries.filter fun e => lower.rank < rangeHi e).head? with
    | none => simp [List.head?_eq_none_iff.mp hhead] at hmem
    | some d =>
      obtain ⟨hd, hdhi⟩ := mem_filter.mp (mem_of_mem_head? hhead)
      have hdhi := of_decide_eq_true hdhi
      obtain ⟨ys, hys⟩ := List.head?_eq_some_iff.mp hhead
      rw [hys] at hmem
      rcases mem_cons.mp hmem with rfl | hlater
      · rfl
      · -- a range that ends after the lower bound cannot come before the one that starts there
        have hordered : (d :: ys).Pairwise fun a b => rangeHi a ≤ rangeLo b :=
          hys ▸ h.ordered.filter _
        exact absurd (hdhi.trans_le (rel_of_pairwise_cons hordered hlater)) hlo.not_gt

end RangeMap.Disjoint

end

end Ranks
end MongoServer
