import MongoServer.Storage.IndexScan
import MongoServer.Bson.ObjectOrder

/-!
The comparison of index entries with each other and with queries. The entries are placed among
byte strings, an exclusive mark before or after everything that follows an equal field; the
comparison is the order of these places unless one key stops where the other goes on with a
descending field.
-/
namespace MongoServer.IndexEntryComparison
open ByteOrder KeyString CString IndexCursor IndexCursor.Query WiredTigerIndexStandard
open List Std.OrientedCmp

/-- An entry of an index, or a query for one. -/
structure IndexKeyEntry where
  key : BSONObj
  loc : RecordId

/-- The first byte of the name: zero in stored keys, `l` or `g` in an exclusive query. -/
def behaviorIfFieldIsEqual (e : CString × BSONValue) : UInt8 := e.1.bytes.headD 0

/-- The loop over the fields; `none` is a failed invariant. -/
def compareKeys (order : KeyOrdering) (locs : ℤ) : BitVec 32 → BSONObj → BSONObj → Option ℤ
  | _, [], [] => some locs
  | _, [], _ :: _ => some (-1)
  | mask, _ :: _, [] => some (if order.bits &&& mask ≠ 0 then -1 else 1)
  | mask, l :: ls, r :: rs =>
      let cmp := woCompareElement false l r
      if cmp ≠ 0 then some (if order.bits &&& mask ≠ 0 then -cmp else cmp)
      else if behaviorIfFieldIsEqual l ≠ 0 then
        if behaviorIfFieldIsEqual r ≠ 0 then none
        else some (if behaviorIfFieldIsEqual l = 'l'.toUInt8 then -1 else 1)
      else if behaviorIfFieldIsEqual r ≠ 0 then
        some (if behaviorIfFieldIsEqual r = 'l'.toUInt8 then 1 else -1)
      else compareKeys order locs (mask <<< 1) ls rs

def compareLocs (l r : RecordId) : ℤ :=
  if l.repr = 0 ∨ r.repr = 0 then 0 else toSign (Ord.compare l.repr.toInt r.repr.toInt)

def compare (order : KeyOrdering) (lhs rhs : IndexKeyEntry) : Option ℤ :=
  compareKeys order (compareLocs lhs.loc rhs.loc) 1 lhs.key rhs.key

/-- One key stops where the other, equal so far, goes on with a descending field. -/
def endsAtDescending (order : KeyOrdering) : BitVec 32 → BSONObj → BSONObj → Bool
  | _, [], [] => false
  | mask, [], _ :: _ => order.bits &&& mask != 0
  | mask, _ :: _, [] => order.bits &&& mask != 0
  | mask, l :: ls, r :: rs => woCompareElement false l r == 0 && behaviorIfFieldIsEqual l == 0 &&
      behaviorIfFieldIsEqual r == 0 && endsAtDescending order (mask <<< 1) ls rs

section Places
variable (order : KeyOrdering)

def place : ℕ → BSONObj → List UInt8
  | _, [] => [kEnd]
  | i, e :: rest => (appendBsonValue .V1 (order.get i == -1) e.2).bytes ++
      if behaviorIfFieldIsEqual e = 0 then place (i + 1) rest
      else [if behaviorIfFieldIsEqual e = 'l'.toUInt8 then kLess else kGreater]

def Stored (obj : BSONObj) : Prop := ∀ e ∈ obj, e.1 = empty

variable {order} {i : ℕ} {x y : BSONObj} {e f : CString × BSONValue}

theorem Stored.tail (h : Stored (e :: x)) : Stored x := fun e he => h e (mem_cons_of_mem _ he)

theorem Stored.head (h : Stored (e :: x)) : behaviorIfFieldIsEqual e = 0 := by
  rw [behaviorIfFieldIsEqual, h e mem_cons_self]
  rfl

theorem Stored.isEmpty (h : Stored (e :: x)) : e.1.bytes.isEmpty = true := by
  rw [h e mem_cons_self]
  rfl

theorem woCompareElement_zero_comm :
    woCompareElement false e f = 0 ↔ woCompareElement false f e = 0 := by
  rw [woCompareElement_eq_iff, woCompareElement_eq_iff, eq_comm]

theorem compare_mark (order : KeyOrdering) (i : ℕ) (x : BSONObj) (less : Bool) :
    Ord.compare [if less then kLess else kGreater] (place order i x) =
      if less then .lt else .gt := by
  cases x with
  | nil => cases less <;> rfl
  | cons e rest =>
    obtain ⟨c, q, he, hgt, hlt⟩ := value_between .V1 (order.get i == -1) e.2
    rw [place, he, List.cons_append, List.compare_cons_cons]
    cases less
    · simp [gt_iff_lt.mpr hlt]
    · simp [gt_iff_lt.mp hgt]

theorem afterString_place (d : Bool) : AfterString d (place order i x) := by
  cases x with
  | nil => exact afterString_kEnd d []
  | cons e rest => exact afterString_value .V1 d _ e.2 _

theorem afterString_rest (d : Bool) :
    AfterString d (if behaviorIfFieldIsEqual e = 0 then place order i x
      else [if behaviorIfFieldIsEqual e = 'l'.toUInt8 then kLess else kGreater]) := by
  split_ifs
  · exact afterString_place d
  · exact afterString_cons d (c := kLess) (by decide) []
  · exact afterString_cons d (c := kGreater) (by decide) []

/-- Without such an end the comparison is the order of the places, then of the record ids. -/
theorem compareKeys_place (order : KeyOrdering) (i : ℕ) (locs : ℤ) (h : Stored x ∨ Stored y)
    (hends : endsAtDescending order (1#32 <<< i) x y = false) :
    ∃ c, compareKeys order locs (1#32 <<< i) x y = some c ∧
      ofSign c = (Ord.compare (place order i x) (place order i y)).then (ofSign locs) := by
  induction x generalizing y i with
  | nil =>
    cases y with
    | nil => exact ⟨locs, rfl, by simp [Std.ReflOrd.compare_self]⟩
    | cons f ys =>
      obtain ⟨c, q, he, hlt⟩ := kEnd_lt_value .V1 (order.get i == -1) f.2
      exact ⟨-1, rfl, by rw [place, place, he, List.cons_append, List.compare_cons_cons, hlt]; rfl⟩
  | cons e xs ih =>
    cases y with
    | nil =>
      obtain ⟨c, q, he, hlt⟩ := kEnd_lt_value .V1 (order.get i == -1) e.2
      have hascending : order.bits &&& 1#32 <<< i = 0 := by simpa [endsAtDescending] using hends
      refine ⟨1, by simp [compareKeys, hascending], ?_⟩
      rw [place, place, he, List.cons_append, List.compare_cons_cons, gt_iff_lt.mpr hlt]
      rfl
    | cons f ys =>
      have hvalue := ordersAs_value .V1 (order.get i == -1) e.2 f.2 e.1 f.1
      simp only [place, compareKeys]
      rw [hvalue _ _ (afterString_rest _) (afterString_rest _)]
      by_cases hw : woCompareElement false e f = 0
      · have hsign : ofSign (woCompareElement false (e.1, e.2) (f.1, f.2)) = .eq :=
          ofSign_eq_iff.mpr hw
        rw [hsign, directed_eq, Ordering.eq_then]
        by_cases hl : behaviorIfFieldIsEqual e = 0
        · by_cases hr : behaviorIfFieldIsEqual f = 0
          · simp only [hw, hl, hr, ne_eq, not_true_eq_false, ↓reduceIte, shift_one_succ]
            apply ih (i + 1) (h.imp Stored.tail Stored.tail)
            simpa [endsAtDescending, hw, hl, hr, shift_one_succ] using hends
          · have hmark := compare_mark order (i + 1) xs
              (decide (behaviorIfFieldIsEqual f = 'l'.toUInt8))
            rw [Std.OrientedOrd.eq_swap]
            simp only [hw, hl, hr, ne_eq, not_true_eq_false, not_false_eq_true, ↓reduceIte,
              decide_eq_true_eq] at hmark ⊢
            rw [hmark]
            split_ifs <;> exact ⟨_, rfl, rfl⟩
        · have hr : behaviorIfFieldIsEqual f = 0 :=
            h.elim (fun hx => absurd hx.head hl) Stored.head
          have hmark := compare_mark order (i + 1) ys
            (decide (behaviorIfFieldIsEqual e = 'l'.toUInt8))
          simp only [hw, hl, hr, ne_eq, not_true_eq_false, not_false_eq_true, ↓reduceIte,
            decide_eq_true_eq] at hmark ⊢
          rw [hmark]
          split_ifs <;> exact ⟨_, rfl, rfl⟩
      · have hsign : directed (order.get i == -1)
            (ofSign (woCompareElement false (e.1, e.2) (f.1, f.2))) ≠ .eq :=
          fun he => hw (ofSign_eq_iff.mp (directed_eq_eq_iff.mp he))
        rw [if_pos hw]
        refine ⟨_, rfl, ?_⟩
        rw [ofSign_direction]
        revert hsign
        cases directed (order.get i == -1) (ofSign (woCompareElement false (e.1, e.2) (f.1, f.2)))
          <;> simp

theorem compareKeys_ends (locs : ℤ) (mask : BitVec 32)
    (hends : endsAtDescending order mask x y = true) :
    compareKeys order locs mask x y = some (-1) ∧ compareKeys order locs mask y x = some (-1) := by
  induction x generalizing y mask with
  | nil =>
    cases y with
    | nil => simp [endsAtDescending] at hends
    | cons f ys => exact ⟨rfl, by simpa [compareKeys, endsAtDescending] using hends⟩
  | cons e xs ih =>
    cases y with
    | nil => exact ⟨by simpa [compareKeys, endsAtDescending] using hends, rfl⟩
    | cons f ys =>
      simp only [endsAtDescending, Bool.and_eq_true, beq_iff_eq] at hends
      obtain ⟨⟨⟨hw, hl⟩, hr⟩, hrest⟩ := hends
      simpa [compareKeys, hw, woCompareElement_zero_comm.mp hw, hl, hr] using ih _ hrest

theorem endsAtDescending_comm (mask : BitVec 32) :
    endsAtDescending order mask x y = endsAtDescending order mask y x := by
  induction x generalizing y mask with
  | nil => cases y <;> rfl
  | cons e xs ih =>
    cases y with
    | nil => rfl
    | cons f ys =>
      have hw : (woCompareElement false e f == 0) = (woCompareElement false f e == 0) := by
        rw [Bool.eq_iff_iff, beq_iff_eq, beq_iff_eq, woCompareElement_zero_comm]
      rw [endsAtDescending, endsAtDescending, hw, ih, Bool.and_right_comm _ (_ == 0) (_ == 0)]

end Places

section Lawful
variable (order : KeyOrdering)

def entryOrder : IndexKeyEntry → IndexKeyEntry → Ordering :=
  compareLex (compareOn fun x => place order 0 x.key) (compareOn fun x => x.loc.repr.toInt)

instance : Std.TransCmp (entryOrder order) := inferInstanceAs (Std.TransCmp (compareLex _ _))

/-- The comparisons in both orders have opposite signs, or are both zero. -/
def Antisymmetric (x y : IndexKeyEntry) : Prop :=
  ∃ c d, compare order x y = some c ∧ compare order y x = some d ∧ c.sign = -d.sign

abbrev EndsAtDescending (x y : IndexKeyEntry) : Prop :=
  endsAtDescending order 1 x.key y.key = true

variable {order} {x y z : IndexKeyEntry}

theorem compare_eq_entryOrder (h : Stored x.key ∨ Stored y.key) (hx : x.loc.repr ≠ 0)
    (hy : y.loc.repr ≠ 0) (hends : ¬EndsAtDescending order x y) :
    ∃ c, compare order x y = some c ∧ ofSign c = entryOrder order x y := by
  obtain ⟨c, hc, hsign⟩ := compareKeys_place order 0 (compareLocs x.loc y.loc) h
    (Bool.not_eq_true _ ▸ hends)
  refine ⟨c, hc, hsign.trans ?_⟩
  rw [compareLocs, if_neg (not_or.mpr ⟨hx, hy⟩), ofSign_toSign]
  rfl

theorem antisymmetric_iff (h : Stored x.key ∨ Stored y.key) (hx : x.loc.repr ≠ 0)
    (hy : y.loc.repr ≠ 0) : Antisymmetric order x y ↔ ¬EndsAtDescending order x y := by
  constructor
  · rintro ⟨c, d, hc, hd, hsign⟩ hends
    obtain ⟨hleft, -⟩ := compareKeys_ends (compareLocs x.loc y.loc) 1 hends
    obtain ⟨-, hright⟩ := compareKeys_ends (compareLocs y.loc x.loc) 1 hends
    obtain rfl := Option.some.inj (hc.symm.trans hleft)
    obtain rfl := Option.some.inj (hd.symm.trans hright)
    exact absurd hsign (by decide)
  · intro hends
    obtain ⟨c, hc, hleft⟩ := compare_eq_entryOrder h hx hy hends
    obtain ⟨d, hd, hright⟩ := compare_eq_entryOrder h.symm hy hx
      (by rwa [EndsAtDescending, endsAtDescending_comm])
    refine ⟨c, d, hc, hd, ?_⟩
    rw [← Int.sign_neg, sign_eq_toSign, sign_eq_toSign, hleft, ofSign_neg, hright, ← eq_swap]

/-- The comparison is lawful on three entries exactly when no two of them are keys of which one
stops, equal so far, where the other goes on with a descending field. -/
theorem compare_lawful_iff (order : KeyOrdering) {x y z : IndexKeyEntry}
    (hxy : Stored x.key ∨ Stored y.key) (hyz : Stored y.key ∨ Stored z.key)
    (hxz : Stored x.key ∨ Stored z.key) (hx : x.loc.repr ≠ 0) (hy : y.loc.repr ≠ 0)
    (hz : z.loc.repr ≠ 0) :
    (Antisymmetric order x y ∧ Antisymmetric order y z ∧ Antisymmetric order x z ∧
      ∀ c d e, compare order x y = some c → compare order y z = some d →
        compare order x z = some e → c ≤ 0 → d ≤ 0 → e ≤ 0) ↔
      ¬EndsAtDescending order x y ∧ ¬EndsAtDescending order y z ∧ ¬EndsAtDescending order x z := by
  rw [antisymmetric_iff hxy hx hy, antisymmetric_iff hyz hy hz, antisymmetric_iff hxz hx hz]
  constructor
  · rintro ⟨h₁, h₂, h₃, -⟩
    exact ⟨h₁, h₂, h₃⟩
  · rintro ⟨h₁, h₂, h₃⟩
    refine ⟨h₁, h₂, h₃, ?_⟩
    intro c d e hc hd he hcle hdle
    obtain ⟨c', hc', hleft⟩ := compare_eq_entryOrder hxy hx hy h₁
    obtain ⟨d', hd', hright⟩ := compare_eq_entryOrder hyz hy hz h₂
    obtain ⟨e', he', hboth⟩ := compare_eq_entryOrder hxz hx hz h₃
    obtain rfl := Option.some.inj (hc.symm.trans hc')
    obtain rfl := Option.some.inj (hd.symm.trans hd')
    obtain rfl := Option.some.inj (he.symm.trans he')
    have hxy' : (entryOrder order x y).isLE := hleft ▸ Std.isLE_compare.mpr hcle
    have hyz' : (entryOrder order y z).isLE := hright ▸ Std.isLE_compare.mpr hdle
    apply Std.isLE_compare.mp
    show (ofSign e).isLE
    rw [hboth]
    exact Std.TransCmp.isLE_trans hxy' hyz'

theorem compare_lawful_first_field :
    Antisymmetric ⟨2⟩ ⟨[(empty, .minKey)], ⟨1⟩⟩ ⟨[(empty, .maxKey), (empty, .maxKey)], ⟨1⟩⟩ :=
  ((compare_lawful_iff ⟨2⟩ (x := ⟨[(empty, .minKey)], ⟨1⟩⟩)
    (y := ⟨[(empty, .maxKey), (empty, .maxKey)], ⟨1⟩⟩)
    (z := ⟨[(empty, .minKey)], ⟨2⟩⟩) (.inl (by simp [Stored])) (.inr (by simp [Stored]))
    (.inl (by simp [Stored])) (by decide) (by decide) (by decide)).mpr
      ⟨by decide +revert, by decide +revert, by decide +revert⟩).1

/-- In an index whose second field descends, a key of one field and a key that adds a field come
before each other. -/
theorem compare_not_antisymmetric : compare ⟨2⟩ ⟨[(empty, .number (.numberInt 1))], ⟨1⟩⟩
        ⟨[(empty, .number (.numberInt 1)), (empty, .number (.numberInt 2))], ⟨1⟩⟩ = some (-1) ∧
      compare ⟨2⟩ ⟨[(empty, .number (.numberInt 1)), (empty, .number (.numberInt 2))], ⟨1⟩⟩
        ⟨[(empty, .number (.numberInt 1))], ⟨1⟩⟩ = some (-1) := by
  decide

end Lawful

section Queries
variable (order : KeyOrdering) (forward : Bool)

/-- A query is compared by its own fields; a mark decides between equal ones, and a query that
stops before the key does is before it. -/
theorem compareKeys_query {i : ℕ} {q k : BSONObj} (hk : Stored k) (hlen : q.length ≤ k.length)
    (hq : Stored q ∨ ∃ front a, q = front ++ [(exclusiveFieldName forward, a)] ∧ Stored front) :
    ∃ c, compareKeys order 0 (1#32 <<< i) q k = some c ∧
      ofSign c = (ofSign (woCompareFrom order false (1#32 <<< i) (k.take q.length) q)).swap.then
        (if q.all fun e => e.1.bytes.isEmpty then (if q.length < k.length then .lt else .eq)
          else if forward then .gt else .lt) := by
  induction q generalizing k i with
  | nil => cases k <;> exact ⟨_, rfl, rfl⟩
  | cons e q ih =>
    obtain ⟨f, k, rfl⟩ := exists_cons_of_length_pos (by simp at hlen; omega : 0 < k.length)
    simp only [compareKeys, woCompareFrom, length_cons, take_succ_cons, shift_one_succ]
    by_cases hw : woCompareElement false e f = 0
    · have hback := woCompareElement_zero_comm.mp hw
      simp only [hw, hback, hk.head, ne_eq, not_true_eq_false, neg_zero, ite_self, ↓reduceIte]
      rcases hq with hall | ⟨_ | ⟨e', front⟩, a, heq, hfront⟩
      · simpa only [hall.head, List.all_cons, hall.isEmpty, Bool.true_and, not_true_eq_false,
          ↓reduceIte, Nat.add_lt_add_iff_right] using
          ih (i := i + 1) hk.tail (by simpa using hlen) (.inl hall.tail)
      · obtain ⟨rfl, rfl⟩ := List.cons.inj heq
        cases forward <;> exact ⟨_, rfl, rfl⟩
      · obtain ⟨rfl, rfl⟩ := List.cons.inj heq
        simpa only [hfront.head, List.all_cons, hfront.isEmpty, Bool.true_and, not_true_eq_false,
          ↓reduceIte, Nat.add_lt_add_iff_right] using
          ih (i := i + 1) hk.tail (by simpa using hlen) (.inr ⟨front, a, rfl, hfront.tail⟩)
    · have hback : ofSign (woCompareElement false f e) ≠ .eq :=
        fun h => hw (woCompareElement_zero_comm.mpr (ofSign_eq_iff.mp h))
      have hswap : ofSign (woCompareElement false e f) =
          (ofSign (woCompareElement false f e)).swap := by
        rw [ofSign_woCompareElement_false, ofSign_woCompareElement_false, ← eq_swap]
      rw [if_pos hw]
      refine ⟨_, rfl, ?_⟩
      rw [ofSign_ite, ofSign_direction, ofSign_direction, hswap]
      generalize ofSign (woCompareElement false f e) = o at hback
      generalize (order.get i == -1) = d
      cases o <;> cases d <;> simp at hback ⊢

/-- The point of a seek to the keys that start with the least value. -/
def leastPoint : IndexSeekPoint := ⟨[(empty, .minKey)], 1, false, [], []⟩

end Queries
end MongoServer.IndexEntryComparison
