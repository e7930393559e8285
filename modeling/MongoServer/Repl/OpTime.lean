import Mathlib.Order.Defs.LinearOrder
import Mathlib.Tactic.SplitIfs
import Mathlib.Data.Int.Order.Basic

/-!
Optimes and their comparison. Optimes of different protocol versions are compared by their
timestamps alone, so the comparison is an order only on optimes that belong together.
-/
namespace MongoServer

structure Timestamp where
  secs : ℕ
  inc : ℕ
  deriving DecidableEq, Repr

namespace Timestamp

instance : LT Timestamp where
  lt a b := a.secs < b.secs ∨ (a.secs = b.secs ∧ a.inc < b.inc)

instance (a b : Timestamp) : Decidable (a < b) :=
  inferInstanceAs (Decidable (a.secs < b.secs ∨ (a.secs = b.secs ∧ a.inc < b.inc)))

theorem lt_def {a b : Timestamp} : a < b ↔ a.secs < b.secs ∨ (a.secs = b.secs ∧ a.inc < b.inc) :=
  Iff.rfl

theorem eq_def {a b : Timestamp} : a = b ↔ a.secs = b.secs ∧ a.inc = b.inc := by
  cases a
  cases b
  simp

def isNull (t : Timestamp) : Bool := t.secs == 0

end Timestamp

structure OpTime where
  timestamp : Timestamp
  term : ℤ
  deriving DecidableEq, Repr

namespace OpTime

/-- The term of an optime generated by the old protocol version. -/
def kUninitializedTerm : ℤ := -1

def kInitialTerm : ℤ := 0

def null : OpTime := ⟨⟨0, 0⟩, kUninitializedTerm⟩

def isNull (o : OpTime) : Bool := o.timestamp.isNull

/-- Whether only the timestamps of two optimes are compared. -/
def Mixed (a b : OpTime) : Prop := a.term = kUninitializedTerm ∨ b.term = kUninitializedTerm

instance (a b : OpTime) : Decidable (Mixed a b) :=
  inferInstanceAs (Decidable (_ ∨ _))

/-- The source's `operator==`, which is coarser than equality. -/
def Same (a b : OpTime) : Prop :=
  if Mixed a b then a.timestamp = b.timestamp else a.term = b.term ∧ a.timestamp = b.timestamp

instance (a b : OpTime) : Decidable (Same a b) :=
  inferInstanceAs (Decidable (ite _ _ _))

instance : LT OpTime where
  lt a b :=
    if Mixed a b then a.timestamp < b.timestamp
    else a.term < b.term ∨ (a.term = b.term ∧ a.timestamp < b.timestamp)

variable {a b : OpTime}

theorem lt_def : a < b ↔ if Mixed a b then a.timestamp < b.timestamp
    else a.term < b.term ∨ (a.term = b.term ∧ a.timestamp < b.timestamp) :=
  Iff.rfl

instance (a b : OpTime) : Decidable (a < b) :=
  inferInstanceAs (Decidable (ite _ _ _))

instance : LE OpTime where
  le a b := a < b ∨ Same a b

theorem le_def : a ≤ b ↔ a < b ∨ Same a b := Iff.rfl

instance (a b : OpTime) : Decidable (a ≤ b) :=
  inferInstanceAs (Decidable (_ ∨ _))

theorem mixed_comm : Mixed a b ↔ Mixed b a := Or.comm

theorem lt_of_mixed (h : Mixed a b) : a < b ↔ a.timestamp < b.timestamp := by
  rw [lt_def, if_pos h]

theorem lt_of_not_mixed (h : ¬Mixed a b) :
    a < b ↔ a.term < b.term ∨ (a.term = b.term ∧ a.timestamp < b.timestamp) := by
  rw [lt_def, if_neg h]

theorem le_iff_not_lt : a ≤ b ↔ ¬b < a := by
  by_cases h : Mixed a b
  · rw [le_def, lt_of_mixed h, lt_of_mixed (mixed_comm.mp h), Same, if_pos h]
    simp only [Timestamp.lt_def, Timestamp.eq_def]
    omega
  · rw [le_def, lt_of_not_mixed h, lt_of_not_mixed (mt mixed_comm.mp h), Same, if_neg h]
    simp only [Timestamp.lt_def, Timestamp.eq_def]
    omega

theorem lt_iff_not_le : a < b ↔ ¬b ≤ a := by
  rw [le_iff_not_lt, not_not]

theorem le_of_lt (h : a < b) : a ≤ b := .inl h

theorem le_total (a b : OpTime) : a ≤ b ∨ b ≤ a := by
  by_cases h : b < a
  · exact .inr (le_of_lt h)
  · exact .inl (le_iff_not_lt.mpr h)

theorem le_refl (a : OpTime) : a ≤ a := (le_total a a).elim id id

theorem null_le (o : OpTime) : null ≤ o := by
  rw [le_iff_not_lt, lt_of_mixed (.inr rfl), Timestamp.lt_def]
  simp [null]

/-- Optimes that may be compared with each other. -/
structure Comparable (P : OpTime → Prop) : Prop where
  trans : ∀ {a b c : OpTime}, P a → P b → P c → a ≤ b → b ≤ c → a ≤ c

namespace Comparable
variable {P : OpTime → Prop} {a b c : OpTime}

theorem lt_of_lt_of_le (h : Comparable P) (ha : P a) (hb : P b) (hc : P c) (hab : a < b)
    (hbc : b ≤ c) : a < c := by
  rw [lt_iff_not_le] at hab ⊢
  exact fun hca => hab (h.trans hb hc ha hbc hca)

end Comparable

/-- Optimes of protocol version 1, and the default optime of a member not heard from. -/
def ProtocolVersion1 (o : OpTime) : Prop :=
  o = null ∨ (o.term ≠ kUninitializedTerm ∧ null.timestamp < o.timestamp)

instance : DecidablePred ProtocolVersion1 := fun _ =>
  inferInstanceAs (Decidable (_ ∨ _))

theorem comparable_protocolVersion1 : Comparable ProtocolVersion1 where
  trans := by
    intro a b c ha hb hc hab hbc
    rw [le_iff_not_lt, lt_def] at hab hbc ⊢
    rcases ha with rfl | ⟨hta, ha⟩ <;> rcases hb with rfl | ⟨htb, hb⟩ <;>
      rcases hc with rfl | ⟨htc, hc⟩ <;>
      simp only [Mixed, null, Timestamp.lt_def, *, or_self, or_false, or_true,
        ↓reduceIte] at * <;> omega

end OpTime
end MongoServer
