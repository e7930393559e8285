import MongoServer.Bson.ObjectOrder
import Mathlib.Data.Prod.Lex
import Mathlib.Data.Sum.Order

/-!
Intervals of values, and the bounds of an index scan: one ordered list of intervals for each
field of a key.
-/
namespace MongoServer
open List

def compareValues (l r : BSONValue) : ℤ :=
  woCompareElement false (CString.empty, l) (CString.empty, r)

theorem compareValues_lt_iff {l r : BSONValue} : compareValues l r < 0 ↔ l.rank < r.rank :=
  woCompareElement_lt_iff

theorem compareValues_eq_iff {l r : BSONValue} : compareValues l r = 0 ↔ l.rank = r.rank :=
  woCompareElement_eq_iff

theorem compareValues_pos_iff {l r : BSONValue} : 0 < compareValues l r ↔ r.rank < l.rank := by
  rw [← not_le, ← not_le]
  exact woCompareElement_le_iff.not

section Directed

abbrev DirectedRank := Rank ⊕ₗ Rankᵒᵈ

/-- Orders values in a direction, which is one or minus one. -/
def directedRank (direction : ℤ) (v : BSONValue) : DirectedRank :=
  if direction = 1 then toLex (.inl v.rank) else toLex (.inr (OrderDual.toDual v.rank))

variable {d : ℤ} {a b : BSONValue}

theorem directedRank_one_le_iff : directedRank 1 a ≤ directedRank 1 b ↔ a.rank ≤ b.rank := by
  simp only [directedRank, if_true]
  exact Sum.Lex.inl_le_inl_iff

theorem directedRank_eq_iff : directedRank d a = directedRank d b ↔ a.rank = b.rank := by
  unfold directedRank
  split_ifs
  · simp
  · simp

theorem sign_compareValues_zero_iff :
    (compareValues a b).sign = 0 ↔ directedRank d a = directedRank d b := by
  rw [Int.sign_eq_zero_iff_zero, compareValues_eq_iff, directedRank_eq_iff]

theorem sign_compareValues_iff (hd : d = 1 ∨ d = -1) :
    (compareValues a b).sign = d ↔ directedRank d b < directedRank d a := by
  rcases hd with rfl | rfl
  · rw [Int.sign_eq_one_iff_pos, compareValues_pos_iff, ← not_le, ← not_le, directedRank_one_le_iff]
  · rw [Int.sign_eq_neg_one_iff_neg, compareValues_lt_iff]
    exact (Sum.Lex.inr_lt_inr_iff.trans OrderDual.toDual_lt_toDual).symm

theorem sign_compareValues_neg_iff (hd : d = 1 ∨ d = -1) :
    (compareValues a b).sign = -d ↔ directedRank d a < directedRank d b := by
  rcases hd with rfl | rfl
  · rw [Int.sign_eq_neg_one_iff_neg, compareValues_lt_iff, ← not_le, ← not_le,
      directedRank_one_le_iff]
  · rw [neg_neg, Int.sign_eq_one_iff_pos, compareValues_pos_iff]
    exact (Sum.Lex.inr_lt_inr_iff.trans OrderDual.toDual_lt_toDual).symm

end Directed

/-- The end of the source is `stop` here. -/
structure Interval where
  start : BSONValue
  startInclusive : Bool
  stop : BSONValue
  stopInclusive : Bool

variable {i : Interval}

namespace Interval

def isPoint (i : Interval) : Bool :=
  i.startInclusive && i.stopInclusive && compareValues i.start i.stop = 0

/-- A value lies in an interval that does not descend. -/
def contains (i : Interval) (v : BSONValue) : Bool :=
  (0 < compareValues v i.start || compareValues v i.start = 0 && i.startInclusive) &&
    (compareValues v i.stop < 0 || compareValues v i.stop = 0 && i.stopInclusive)

theorem contains_iff {v : BSONValue} : i.contains v = true ↔
      (i.start.rank < v.rank ∨ v.rank = i.start.rank ∧ i.startInclusive = true) ∧
      (v.rank < i.stop.rank ∨ v.rank = i.stop.rank ∧ i.stopInclusive = true) := by
  simp [contains, compareValues_pos_iff, compareValues_eq_iff, compareValues_lt_iff]

theorem bounds_of_contains {v : BSONValue} (h : i.contains v = true) :
    i.start.rank ≤ v.rank ∧ v.rank ≤ i.stop.rank := by
  obtain ⟨hstart, hstop⟩ := contains_iff.mp h
  exact ⟨hstart.elim le_of_lt fun heq => heq.1.ge, hstop.elim le_of_lt fun heq => heq.1.le⟩

/-- A place right before or right after a value, in a direction. -/
abbrev Cut := DirectedRank ×ₗ Bool

def lo (d : ℤ) (i : Interval) : Cut := toLex (directedRank d i.start, !i.startInclusive)

def hi (d : ℤ) (i : Interval) : Cut := toLex (directedRank d i.stop, i.stopInclusive)

def place (d : ℤ) (v : BSONValue) : Cut := toLex (directedRank d v, false)

variable {d : ℤ} {v : BSONValue}

theorem lo_le_place_iff : i.lo d ≤ place d v ↔ directedRank d i.start < directedRank d v ∨
    directedRank d i.start = directedRank d v ∧ i.startInclusive = true := by
  rw [lo, place, Prod.Lex.toLex_le_toLex]
  cases i.startInclusive <;> simp

theorem place_lt_hi_iff : place d v < i.hi d ↔ directedRank d v < directedRank d i.stop ∨
    directedRank d v = directedRank d i.stop ∧ i.stopInclusive = true := by
  rw [hi, place, Prod.Lex.toLex_lt_toLex]
  cases i.stopInclusive <;> simp

theorem lo_lt_hi_iff : i.lo d < i.hi d ↔ directedRank d i.start < directedRank d i.stop ∨
    directedRank d i.start = directedRank d i.stop ∧ i.startInclusive = true ∧
      i.stopInclusive = true := by
  rw [lo, hi, Prod.Lex.toLex_lt_toLex]
  cases i.startInclusive <;> cases i.stopInclusive <;> simp

end Interval

structure OrderedIntervalList where
  name : CString
  intervals : List Interval

structure IndexBounds where
  fields : List OrderedIntervalList

namespace OrderedIntervalList
variable (oil : OrderedIntervalList)

def orientedInterval (expectedOrientation : ℤ) (i : Interval) : Bool :=
  let cmp := (compareValues i.stop i.start).sign
  cmp = 0 && i.startInclusive && i.stopInclusive || cmp = expectedOrientation

def orientedNeighbors (expectedOrientation : ℤ) : List Interval → Bool
  | i :: j :: rest =>
      let cmp := (compareValues j.start i.stop).sign
      (cmp = 0 || cmp = expectedOrientation) && orientedNeighbors expectedOrientation (j :: rest)
  | _ => true

def isValidFor (expectedOrientation : ℤ) : Bool :=
  oil.intervals.all (orientedInterval expectedOrientation) &&
    orientedNeighbors expectedOrientation oil.intervals

/-- A value lies in some interval. -/
def contains (v : BSONValue) : Bool := oil.intervals.any fun i => i.contains v

/-- Every interval runs in a direction or is a point, and each ends before the later ones start. -/
structure Oriented (d : ℤ) (intervals : List Interval) : Prop where
  runs : ∀ i ∈ intervals, directedRank d i.start < directedRank d i.stop ∨
    directedRank d i.start = directedRank d i.stop ∧ i.startInclusive = true ∧
      i.stopInclusive = true
  ordered : intervals.Pairwise fun i j => directedRank d i.stop ≤ directedRank d j.start

theorem Oriented.le {d : ℤ} {intervals : List Interval} (h : Oriented d intervals)
    (hi : i ∈ intervals) : directedRank d i.start ≤ directedRank d i.stop :=
  (h.runs i hi).elim le_of_lt fun heq => heq.1.le

variable {oil} {d : ℤ}

theorem oriented_of_isValidFor (hd : d = 1 ∨ d = -1) (h : oil.isValidFor d = true) :
    Oriented d oil.intervals := by
  obtain ⟨hruns, hnext⟩ := Bool.and_eq_true_iff.mp h
  have hruns : ∀ i ∈ oil.intervals, directedRank d i.start < directedRank d i.stop ∨
      directedRank d i.start = directedRank d i.stop ∧ i.startInclusive = true ∧
        i.stopInclusive = true := by
    intro i hi
    have hi := all_eq_true.mp hruns i hi
    simp only [orientedInterval, Bool.or_eq_true, Bool.and_eq_true, decide_eq_true_eq] at hi
    rcases hi with ⟨⟨hzero, hstart⟩, hstop⟩ | hsign
    · exact Or.inr ⟨(sign_compareValues_zero_iff.mp hzero).symm, hstart, hstop⟩
    · exact Or.inl ((sign_compareValues_iff hd).mp hsign)
  have hle : ∀ i ∈ oil.intervals, directedRank d i.start ≤ directedRank d i.stop :=
    fun i hi => (hruns i hi).elim le_of_lt fun heq => heq.1.le
  refine ⟨hruns, ?_⟩
  clear hruns h
  generalize oil.intervals = intervals at hle hnext
  induction intervals with
  | nil => exact .nil
  | cons i rest ih =>
    cases rest with
    | nil => exact pairwise_singleton _ _
    | cons j rest =>
      simp only [orientedNeighbors, Bool.or_eq_true, Bool.and_eq_true, decide_eq_true_eq] at hnext
      obtain ⟨hsign, hrest⟩ := hnext
      have hij : directedRank d i.stop ≤ directedRank d j.start := by
        rcases hsign with hzero | hsign
        · exact (sign_compareValues_zero_iff.mp hzero).ge
        · exact ((sign_compareValues_iff hd).mp hsign).le
      have hpairs := ih (fun k hk => hle k (mem_cons_of_mem _ hk)) hrest
      refine pairwise_cons.mpr ⟨fun k hk => ?_, hpairs⟩
      rcases mem_cons.mp hk with rfl | hk
      · exact hij
      · have hj := hle j (mem_cons_of_mem _ mem_cons_self)
        exact hij.trans (hj.trans (rel_of_pairwise_cons hpairs hk))

theorem Oriented.lo_lt_hi {intervals : List Interval} (h : Oriented d intervals) (hi : i ∈ intervals) : i.lo d < i.hi d :=
  Interval.lo_lt_hi_iff.mpr (h.runs i hi)

/-- Later intervals start and end no earlier, even where an end is the start of the next. -/
theorem Oriented.pairwise_cuts {intervals : List Interval} (h : Oriented d intervals) :
    intervals.Pairwise fun i j => i.lo d ≤ j.lo d ∧ i.hi d ≤ j.hi d := by
  refine h.ordered.imp_of_mem fun {i j} hi hj hle => ⟨?_, ?_⟩
  · rcases h.runs i hi with hlt | ⟨heq, hinc, -⟩
    · exact (Prod.Lex.toLex_lt_toLex.mpr (.inl (hlt.trans_le hle))).le
    · exact Prod.Lex.toLex_mono ⟨heq.trans_le hle, by simp [hinc]⟩
  · rcases h.runs j hj with hlt | ⟨heq, -, hinc⟩
    · exact (Prod.Lex.toLex_lt_toLex.mpr (.inl (hle.trans_lt hlt))).le
    · exact Prod.Lex.toLex_mono ⟨hle.trans_eq heq, by simp [hinc]⟩

theorem start_le_stop (h : oil.isValidFor 1 = true) (hi : i ∈ oil.intervals) :
    i.start.rank ≤ i.stop.rank :=
  directedRank_one_le_iff.mp ((oriented_of_isValidFor (Or.inl rfl) h).le hi)

/-- Every interval of a valid ascending list ends before the later ones start. -/
theorem pairwise_ascend (h : oil.isValidFor 1 = true) :
    oil.intervals.Pairwise fun i j => i.stop.rank ≤ j.start.rank :=
  (oriented_of_isValidFor (Or.inl rfl) h).ordered.imp directedRank_one_le_iff.mp

end OrderedIntervalList
end MongoServer
