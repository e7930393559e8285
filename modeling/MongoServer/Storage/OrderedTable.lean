import Mathlib.Data.Finset.Max
import Mathlib.Order.RelClasses
import Mathlib.Tactic

/-!
A table with ordered keys, its point operations and its navigation. `Covers` is the
account a scan keeps while the table changes under it: what was returned so far, what is
still ahead, and that nothing present all along falls between the two.
-/
namespace OrderedTable
open Std.OrientedCmp Finset Option

/-- A byte string as a key, in the order of `compare`. -/
structure ByteKey where
  bytes : List UInt8
  deriving DecidableEq

section ByteOrder

instance : LinearOrder ByteKey where
  le a b := compare b.bytes a.bytes ≠ .lt
  lt a b := compare a.bytes b.bytes = .lt
  le_refl a := by simp [Std.ReflOrd.compare_self]
  le_trans a b c hab hbc := by
    intro hca
    cases hba : compare b.bytes a.bytes with
    | lt => exact hab hba
    | eq =>
      rw [← Std.LawfulEqOrd.eq_of_compare hba] at hca
      exact hbc hca
    | gt =>
      have hlt : compare a.bytes b.bytes = .lt := gt_iff_lt.mp hba
      exact hbc (Std.TransCmp.lt_trans hca hlt)
  lt_iff_le_not_ge a b := by
    constructor
    · intro hab
      have hgt : compare b.bytes a.bytes = .gt := gt_iff_lt.mpr hab
      simp [hab, hgt]
    · rintro ⟨-, hnot⟩
      simpa using hnot
  le_antisymm a b hab hba := by
    have hbytes : a.bytes = b.bytes := by
      cases h : compare a.bytes b.bytes with
      | lt => exact absurd h hba
      | eq => exact Std.LawfulEqOrd.eq_of_compare h
      | gt => exact absurd (gt_iff_lt.mp h) hab
    cases a
    cases b
    simpa using hbytes
  le_total a b := by
    by_contra hnot
    rw [not_or, not_not, not_not] at hnot
    have hgt : compare b.bytes a.bytes = .gt := gt_iff_lt.mpr hnot.2
    simp [hnot.1] at hgt
  toDecidableLE a b := inferInstanceAs (Decidable (compare b.bytes a.bytes ≠ .lt))
  toDecidableLT a b := inferInstanceAs (Decidable (compare a.bytes b.bytes = .lt))

theorem ByteKey.lt_iff {a b : ByteKey} : a < b ↔ compare a.bytes b.bytes = .lt := Iff.rfl

end ByteOrder

/-- The keys present, and a value for each of them. -/
structure Table (α β : Type) where
  keys : Finset α
  value : α → β

namespace Table
variable {α β : Type}

def empty [Inhabited β] : Table α β := ⟨∅, fun _ => default⟩

section Points
variable [DecidableEq α] (t : Table α β)

def search (k : α) : Option β := if k ∈ t.keys then some (t.value k) else none

def insert (k : α) (v : β) : Option (Table α β) :=
  if k ∈ t.keys then none else some ⟨Insert.insert k t.keys, Function.update t.value k v⟩

def update (k : α) (v : β) : Option (Table α β) :=
  if k ∈ t.keys then some { t with value := Function.update t.value k v } else none

def remove (k : α) : Option (Table α β) :=
  if k ∈ t.keys then some { t with keys := t.keys.erase k } else none

variable {t} {t' : Table α β} {k : α} {v : β}

theorem search_eq_none_iff : t.search k = none ↔ k ∉ t.keys := by
  simp [search]

theorem mem_keys_of_search {w : β} (h : t.search k = some w) : k ∈ t.keys := by
  by_contra hk
  simp [search_eq_none_iff.mpr hk] at h

theorem exists_insert (h : t.search k = none) (v : β) : ∃ t', t.insert k v = some t' := by
  rw [insert, if_neg (search_eq_none_iff.mp h)]
  exact ⟨_, rfl⟩

theorem insert_eq_none {w : β} (h : t.search k = some w) (v : β) : t.insert k v = none := by
  rw [insert, if_pos (mem_keys_of_search h)]

theorem exists_update {w : β} (h : t.search k = some w) (v : β) : ∃ t', t.update k v = some t' := by
  rw [update, if_pos (mem_keys_of_search h)]
  exact ⟨_, rfl⟩

theorem exists_remove {w : β} (h : t.search k = some w) : ∃ t', t.remove k = some t' := by
  rw [remove, if_pos (mem_keys_of_search h)]
  exact ⟨_, rfl⟩

theorem search_of_insert (h : t.insert k v = some t') (j : α) :
    t'.search j = if j = k then some v else t.search j := by
  rw [insert] at h
  split_ifs at h with hk
  cases h
  by_cases hj : j = k
  · simp [search, hj]
  · simp [search, hj]

theorem search_of_update (h : t.update k v = some t') (j : α) :
    t'.search j = if j = k then some v else t.search j := by
  rw [update] at h
  split_ifs at h with hk
  cases h
  by_cases hj : j = k
  · simp [search, hj, hk]
  · simp [search, hj]

theorem search_of_remove (h : t.remove k = some t') (j : α) :
    t'.search j = if j = k then none else t.search j := by
  rw [remove] at h
  split_ifs at h with hk
  cases h
  by_cases hj : j = k
  · simp [search, hj]
  · simp [search, hj]

end Points

section Navigation
variable [LinearOrder α] (t : Table α β) (forward : Bool)

/-- The key `b` lies beyond `a` in the direction of a scan. -/
def Beyond (a b : α) : Prop := if forward then a < b else b < a

instance (forward : Bool) (a b : α) : Decidable (Beyond forward a b) :=
  inferInstanceAs (Decidable (if forward then a < b else b < a))

/-- The adjacent key beyond `k`. -/
def adjacent (k : α) : Option α :=
  if forward then
    if h : (t.keys.filter (k < ·)).Nonempty then some ((t.keys.filter (k < ·)).min' h) else none
  else
    if h : (t.keys.filter (· < k)).Nonempty then some ((t.keys.filter (· < k)).max' h) else none

def first : Option α :=
  if h : t.keys.Nonempty then some (if forward then t.keys.min' h else t.keys.max' h) else none

/-- The key itself, or an adjacent one with its sign; `smaller` is the side tried first. -/
def searchNear (smaller : Bool) (k : α) : Option (α × ℤ) :=
  let below := (t.adjacent false k).map fun x => (x, (-1 : ℤ))
  let above := (t.adjacent true k).map fun x => (x, (1 : ℤ))
  if k ∈ t.keys then some (k, 0)
  else if smaller then below.or above else above.or below

instance (forward : Bool) : IsStrictTotalOrder α (Beyond forward) := by
  cases forward
  · exact inferInstanceAs (IsStrictTotalOrder α (Function.swap (· < ·)))
  · exact inferInstanceAs (IsStrictTotalOrder α (· < ·))

theorem beyond_flip (a b : α) : Beyond (!forward) a b ↔ Beyond forward b a := by
  cases forward <;> rfl

/-- What the adjacent key is: present, beyond, and with nothing in between. -/
theorem adjacent_eq_some {forward : Bool} {k y : α} (h : t.adjacent forward k = some y) :
    y ∈ t.keys ∧ Beyond forward k y ∧ ∀ z ∈ t.keys, Beyond forward k z → ¬Beyond forward z y := by
  cases forward with
  | true =>
    simp only [adjacent, ↓reduceIte] at h
    split_ifs at h with hne
    cases h
    have hmem := mem_filter.mp (min'_mem _ hne)
    refine ⟨hmem.1, hmem.2, fun z hz hkz => not_lt.mpr ?_⟩
    exact min'_le _ z (mem_filter.mpr ⟨hz, hkz⟩)
  | false =>
    simp only [adjacent, Bool.false_eq_true, ↓reduceIte] at h
    split_ifs at h with hne
    cases h
    have hmem := mem_filter.mp (max'_mem _ hne)
    refine ⟨hmem.1, hmem.2, fun z hz hkz => not_lt.mpr ?_⟩
    exact le_max' _ z (mem_filter.mpr ⟨hz, hkz⟩)

theorem adjacent_eq_none {forward : Bool} {k : α} (h : t.adjacent forward k = none) :
    ∀ z ∈ t.keys, ¬Beyond forward k z := by
  intro z hz hkz
  cases forward with
  | true =>
    have hne : (t.keys.filter (k < ·)).Nonempty := ⟨z, mem_filter.mpr ⟨hz, hkz⟩⟩
    simp [adjacent, hne] at h
  | false =>
    have hne : (t.keys.filter (· < k)).Nonempty := ⟨z, mem_filter.mpr ⟨hz, hkz⟩⟩
    simp [adjacent, hne] at h

theorem adjacent_congr {forward : Bool} {j k : α}
    (h : ∀ z ∈ t.keys, Beyond forward j z ↔ Beyond forward k z) :
    t.adjacent forward j = t.adjacent forward k := by
  cases forward with
  | true =>
    have hfilter : t.keys.filter (j < ·) = t.keys.filter (k < ·) := filter_congr h
    simp [adjacent, hfilter]
  | false =>
    have hfilter : t.keys.filter (· < j) = t.keys.filter (· < k) := filter_congr h
    simp [adjacent, hfilter]

theorem adjacent_skip {k y : α} (hk : k ∉ t.keys)
    (h : t.adjacent (!forward) k = some y) : t.adjacent forward y = t.adjacent forward k := by
  obtain ⟨-, hbehind, hnone⟩ := t.adjacent_eq_some h
  rw [beyond_flip] at hbehind
  apply t.adjacent_congr
  intro z hz
  constructor
  · intro hyz
    have hne : z ≠ k := fun he => hk (he ▸ hz)
    rcases trichotomous_of (Beyond forward) k z with hlt | heq | hgt
    · exact hlt
    · exact absurd heq.symm hne
    · have hnot := hnone z hz ((beyond_flip forward k z).mpr hgt)
      rw [beyond_flip] at hnot
      exact absurd hyz hnot
  · intro hkz
    exact trans_of (Beyond forward) hbehind hkz

theorem searchNear_eq_some {smaller : Bool} {k y : α} {c : ℤ}
    (h : t.searchNear smaller k = some (y, c)) :
    (c = 0 ∧ y = k ∧ k ∈ t.keys) ∨ (c = -1 ∧ k ∉ t.keys ∧ t.adjacent false k = some y) ∨
      (c = 1 ∧ k ∉ t.keys ∧ t.adjacent true k = some y) := by
  simp only [searchNear] at h
  split_ifs at h with hk hs
  · simp only [Option.some.injEq, Prod.mk.injEq] at h
    exact .inl ⟨h.2.symm, h.1.symm, hk⟩
  · simp only [or_eq_some_iff, map_eq_some_iff, Prod.mk.injEq] at h
    rcases h with ⟨x, hx, rfl, rfl⟩ | ⟨-, x, hx, rfl, rfl⟩
    · exact .inr (.inl ⟨rfl, hk, hx⟩)
    · exact .inr (.inr ⟨rfl, hk, hx⟩)
  · simp only [or_eq_some_iff, map_eq_some_iff, Prod.mk.injEq] at h
    rcases h with ⟨x, hx, rfl, rfl⟩ | ⟨-, x, hx, rfl, rfl⟩
    · exact .inr (.inr ⟨rfl, hk, hx⟩)
    · exact .inr (.inl ⟨rfl, hk, hx⟩)

theorem searchNear_eq_none {smaller : Bool} {k : α} (h : t.searchNear smaller k = none) :
    ∀ z, z ∉ t.keys := by
  simp only [searchNear] at h
  have hboth : k ∉ t.keys ∧ t.adjacent false k = none ∧ t.adjacent true k = none := by
    split_ifs at h with hk hs <;>
      simp only [or_eq_none_iff, map_eq_none_iff] at h <;>
      tauto
  obtain ⟨hk, hbelow, habove⟩ := hboth
  intro z hz
  rcases lt_trichotomy z k with hlt | rfl | hgt
  · exact t.adjacent_eq_none hbelow z hz hlt
  · exact hk hz
  · exact t.adjacent_eq_none habove z hz hgt

end Navigation
end Table

section Scan
variable {α : Type} {r : α → α → Prop}

/-- A scan from `start` that stops at `past`: what it returned is in order and in range, and
whatever was present all along is returned already or still ahead. -/
structure Covers (r : α → α → Prop) (start past ahead present : α → Prop) (out : List α) :
    Prop where
  ordered : out.Pairwise r
  behind : ∀ x ∈ out, ∀ y, ahead y → r x y
  within : ∀ x ∈ out, start x ∧ ¬past x
  reached : ∀ y, ahead y → start y
  complete : ∀ x, present x → start x → ¬past x → ahead x ∨ x ∈ out

variable {start past ahead present : α → Prop} {out : List α}

theorem Covers.init (r : α → α → Prop) (start past : α → Prop) :
    Covers r start past start (fun _ => True) [] where
  ordered := List.Pairwise.nil
  behind := by simp
  within := by simp
  reached _ hy := hy
  complete _ _ hstart _ := .inl hstart

theorem Covers.mono {present' : α → Prop} (h : Covers r start past ahead present out)
    (hle : ∀ x, present' x → present x) : Covers r start past ahead present' out :=
  { h with complete := fun x hx => h.complete x (hle x hx) }

theorem Covers.congr {ahead' : α → Prop} (h : Covers r start past ahead present out)
    (heq : ∀ x, ahead' x ↔ ahead x) : Covers r start past ahead' present out where
  ordered := h.ordered
  behind x hx y hy := h.behind x hx y ((heq y).mp hy)
  within := h.within
  reached y hy := h.reached y ((heq y).mp hy)
  complete x hx hstart hp := (h.complete x hx hstart hp).imp_left (heq x).mpr

theorem Covers.step [IsStrictTotalOrder α r] (hup : ∀ x y, start x → r x y → start y)
    (h : Covers r start past ahead present out) {y : α} (hy : ahead y) (hpast : ¬past y)
    (hleast : ∀ z, present z → ahead z → ¬r z y) :
    Covers r start past (r y) present (out ++ [y]) where
  ordered := by
    rw [List.pairwise_append]
    refine ⟨h.ordered, List.pairwise_singleton r y, fun x hx z hz => ?_⟩
    rw [List.mem_singleton.mp hz]
    exact h.behind x hx y hy
  behind := by
    exact List.forall_mem_append.mpr ⟨fun x hx _ hz => trans_of r (h.behind x hx y hy) hz,
      List.forall_mem_singleton.mpr fun _ hz => hz⟩
  within := by
    exact List.forall_mem_append.mpr
      ⟨h.within, List.forall_mem_singleton.mpr ⟨h.reached y hy, hpast⟩⟩
  reached z hz := hup y z (h.reached y hy) hz
  complete := by
    intro x hx hstart hp
    rcases h.complete x hx hstart hp with hahead | hout
    · rcases trichotomous_of r x y with hlt | rfl | hgt
      · exact absurd hlt (hleast x hx hahead)
      · exact .inr (by simp)
      · exact .inl hgt
    · exact .inr (List.mem_append_left _ hout)

theorem Covers.finish (h : Covers r start past ahead present out)
    (hend : ∀ z, present z → ahead z → past z) :
    Covers r start past (fun _ => False) present out where
  ordered := h.ordered
  behind _ _ _ hfalse := hfalse.elim
  within := h.within
  reached _ hfalse := hfalse.elim
  complete := by
    intro x hx hstart hp
    rcases h.complete x hx hstart hp with hahead | hout
    · exact absurd (hend x hx hahead) hp
    · exact .inr hout

end Scan
end OrderedTable
