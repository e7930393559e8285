import MongoServer.Query.IndexBoundsChecker

/-!
What the checker of index bounds finds out from a key, whichever intervals it took the key to
be in: the key is within the bounds; or no key from there up to the place it asks for is; or no
key from there on is.
-/
namespace MongoServer
open KeyString SkipScan OrderedIntervalList MongoServer.Interval List

namespace IndexBoundsChecker

section Intervals
variable {d : ℤ} {i j : Interval} {v w : BSONValue} {intervals : List Interval}

def Placed (d : ℤ) (intervals : List Interval) (v : BSONValue) : Prop :=
  ∃ i ∈ intervals, intervalCmp i v d = .within

/-- How the search for an interval ends. The intervals before the one found are behind the
value, so that none holds it or a later value. -/
inductive Found (d : ℤ) (intervals : List Interval) (v : BSONValue) :
    Option (Location × Fin intervals.length) → Prop
  | within (k : Fin intervals.length) (h : intervalCmp (intervals.get k) v d = .within) :
      Found d intervals v (some (.within, k))
  | behind (k : Fin intervals.length) (h : intervalCmp (intervals.get k) v d = .behind)
      (hnone : ∀ w, directedRank d v ≤ directedRank d w →
        intervalCmp (intervals.get k) w d = .behind → ¬Placed d intervals w) :
      Found d intervals v (some (.behind, k))
  | ahead (hnone : ∀ w, directedRank d v ≤ directedRank d w → ¬Placed d intervals w) :
      Found d intervals v none

section
variable (hd : d = 1 ∨ d = -1)
include hd

theorem intervalCmp_eq : intervalCmp i v d =
    if place d v < i.lo d then .behind else if i.hi d ≤ place d v then .ahead else .within := by
  have hstart : (compareValues v i.start).sign = d ∨
      (compareValues v i.start).sign = 0 ∧ i.startInclusive = true ↔ i.lo d ≤ place d v := by
    rw [sign_compareValues_iff hd, sign_compareValues_zero_iff (d := d), lo_le_place_iff, eq_comm]
  have hstop : (compareValues v i.stop).sign = -d ∨
      (compareValues v i.stop).sign = 0 ∧ i.stopInclusive = true ↔ place d v < i.hi d := by
    rw [sign_compareValues_neg_iff hd, sign_compareValues_zero_iff (d := d), place_lt_hi_iff]
  simp only [intervalCmp, hstart, hstop, not_le, not_lt]

theorem intervalCmp_behind_iff : intervalCmp i v d = .behind ↔ place d v < i.lo d := by
  rw [intervalCmp_eq hd]
  split_ifs <;> simp [*]

theorem intervalCmp_ahead_iff (hi : i.lo d < i.hi d) :
    intervalCmp i v d = .ahead ↔ i.hi d ≤ place d v := by
  rw [intervalCmp_eq hd]
  split_ifs with hbehind
  · simp [hbehind.trans hi]
  · simp [*]
  · simp [*]

theorem ahead_of_le (hi : i.lo d < i.hi d) (h : intervalCmp i v d = .ahead)
    (hle : directedRank d v ≤ directedRank d w) : intervalCmp i w d = .ahead := by
  rw [intervalCmp_ahead_iff hd hi] at h ⊢
  exact h.trans (Prod.Lex.toLex_mono ⟨hle, le_refl _⟩)

/-- A value that is ahead of an interval is ahead of those before it, and one that is behind an
interval is behind those after it. -/
theorem pairwise_locations (h : Oriented d intervals) :
    intervals.Pairwise fun i j => ∀ v, (intervalCmp j v d = .ahead → intervalCmp i v d = .ahead) ∧
      (intervalCmp i v d = .behind → intervalCmp j v d = .behind) := by
  refine h.pairwise_cuts.imp_of_mem fun {i j} hi hj hle v => ?_
  rw [intervalCmp_ahead_iff hd (h.lo_lt_hi hi), intervalCmp_ahead_iff hd (h.lo_lt_hi hj),
    intervalCmp_behind_iff hd, intervalCmp_behind_iff hd]
  exact ⟨hle.2.trans, fun hv => hv.trans_le hle.1⟩

/-- A value that is behind an interval is in none unless it is in one before that. -/
theorem not_placed_of_behind (h : Oriented d intervals) {k : Fin intervals.length}
    (hk : intervalCmp (intervals.get k) w d = .behind)
    (hbefore : ∀ m < k, intervalCmp (intervals.get m) w d ≠ .within) : ¬Placed d intervals w := by
  rintro ⟨i, hi, hin⟩
  obtain ⟨m, rfl⟩ := get_of_mem hi
  have hpairs := pairwise_iff_get.mp (pairwise_locations hd h)
  rcases lt_trichotomy m k with hlt | rfl | hgt
  · exact hbefore m hlt hin
  · exact absurd (hk.symm.trans hin) (by simp)
  · exact absurd (((hpairs _ _ hgt w).2 hk).symm.trans hin) (by simp)

theorem found_findIntervalForField (h : Oriented d intervals)
    (v : BSONValue) : Found d intervals v (findIntervalForField v intervals d) := by
  unfold findIntervalForField
  dsimp only
  split_ifs with hk
  · have hnot := findIdx_getElem (w := hk)
    simp only [decide_eq_true_eq] at hnot
    cases hloc : intervalCmp (intervals.get ⟨_, hk⟩) v d with
    | behind =>
      refine .behind _ hloc fun w hle hw => not_placed_of_behind hd h hw fun m hlt => ?_
      -- before the one found, where already the value is ahead
      have hahead := not_of_lt_findIdx hlt
      simp only [ne_eq, decide_not, Bool.not_eq_eq_eq_not, Bool.not_false,
        decide_eq_true_eq] at hahead
      have hlater := ahead_of_le hd (h.lo_lt_hi (get_mem _ _)) hahead hle
      exact fun hin => absurd (hlater.symm.trans hin) (by simp)
    | within => exact .within _ hloc
    | ahead => exact absurd hloc hnot
  · refine .ahead fun w hle => ?_
    rintro ⟨i, hi, hin⟩
    have hlength : intervals.findIdx (fun interval => intervalCmp interval v d ≠ .ahead) =
        intervals.length := le_antisymm findIdx_le_length (not_lt.mp hk)
    rw [findIdx_eq_length] at hlength
    have hahead := hlength i hi
    simp only [ne_eq, decide_not, Bool.not_eq_eq_eq_not, Bool.not_false,
      decide_eq_true_eq] at hahead
    have hlater := ahead_of_le hd (h.lo_lt_hi hi) hahead hle
    exact absurd hin (by simp [hlater])

theorem any_within_iff (h : Oriented d intervals) (v : BSONValue) :
    (findIntervalForField v intervals d).any (fun p => p.1 = .within) = true ↔
      Placed d intervals v := by
  cases hfound : findIntervalForField v intervals d with
  | none =>
    have hf := hfound ▸ found_findIntervalForField hd h v
    cases hf with
    | ahead hnone => simp [hnone v (le_refl _)]
  | some p =>
    have hf := hfound ▸ found_findIntervalForField hd h v
    cases hf with
    | within k hk => simpa using ⟨_, get_mem _ k, hk⟩
    | behind k hk hnone => simp [hnone v (le_refl _) hk]

end

end Intervals

section Keys

/-- What stays the same about a field: its intervals and its direction. -/
abbrev DirectedIntervals := List Interval × ℤ

variable {b : DirectedIntervals}

def CheckedField.bounds (field : CheckedField) : DirectedIntervals :=
  (field.intervals, field.expectedDirection)

abbrev boundsOf (fields : List CheckedField) : List DirectedIntervals :=
  fields.map CheckedField.bounds

structure DirectedIntervals.Ok (b : DirectedIntervals) : Prop where
  direction : b.2 = 1 ∨ b.2 = -1
  oriented : Oriented b.2 b.1

def keyRank (bounds : List DirectedIntervals) (values : List BSONValue) : List DirectedRank :=
  List.zipWith (fun b v => directedRank b.2 v) bounds values

/-- Every value lies in an interval of its field. -/
def ValidKey (bounds : List DirectedIntervals) (values : List BSONValue) : Prop :=
  List.Forall₂ (fun b v => Placed b.2 b.1 v) bounds values

/-- The starts of the current intervals, up to the first exclusive one. -/
def startsCut : List CheckedField → List BSONValue × Bool
  | [] => ([], false)
  | field :: fields =>
      if field.current.startInclusive then
        (field.current.start :: (startsCut fields).1, (startsCut fields).2)
      else ([field.current.start], true)

variable {field : CheckedField} {placed fields : List CheckedField}
  {values others pre : List BSONValue} {v w : BSONValue}

theorem not_placed_of_behind_first (hok : field.bounds.Ok) (hfirst : field.curInterval.val = 0)
    (h : intervalCmp field.current v field.expectedDirection = .behind) :
    ¬Placed field.expectedDirection field.intervals v := by
  apply not_placed_of_behind hok.direction hok.oriented h
  intro m hm
  exact absurd (hfirst ▸ Fin.lt_def.mp hm) (Nat.not_lt_zero _)

theorem before_starts_iff (hfield : field.bounds.Ok) :
    Before (keyRank (boundsOf (field :: fields)) (startsCut (field :: fields)).1)
        (startsCut (field :: fields)).2
        (keyRank (boundsOf (field :: fields)) (v :: values)) ↔
      intervalCmp field.current v field.expectedDirection = .behind ∨
        directedRank field.expectedDirection v =
            directedRank field.expectedDirection field.current.start ∧
          field.current.startInclusive = true ∧
          Before (keyRank (boundsOf fields) (startsCut fields).1)
            (startsCut fields).2 (keyRank (boundsOf fields) values) := by
  have hd : field.expectedDirection = 1 ∨ field.expectedDirection = -1 := hfield.direction
  rw [intervalCmp_behind_iff hd, ← not_le, lo_le_place_iff, startsCut]
  split_ifs with hinc
  · simp [keyRank, Before, hinc, CheckedField.bounds, ← le_iff_lt_or_eq]
  · simp [keyRank, Before, hinc, CheckedField.bounds, ← le_iff_lt_or_eq]

theorem not_validKey_of_before_starts (hok : ∀ f ∈ fields, f.bounds.Ok)
    (hfirst : ∀ f ∈ fields, f.curInterval.val = 0)
    (h : Before (keyRank (boundsOf fields) (startsCut fields).1)
      (startsCut fields).2 (keyRank (boundsOf fields) values)) :
    ¬ValidKey (boundsOf fields) values := by
  induction fields generalizing values with
  | nil => exact absurd h (by simp [startsCut, keyRank, Before])
  | cons field fields ih =>
    have hfield := hok field mem_cons_self
    intro hvalid
    obtain ⟨v, values, hv, hrest, rfl⟩ := forall₂_cons_left_iff.mp hvalid
    rcases (before_starts_iff hfield).mp h with hbehind | ⟨-, -, h⟩
    · exact not_placed_of_behind_first hfield (hfirst field mem_cons_self) hbehind hv
    · exact ih (forall_mem_cons.mp hok).2 (forall_mem_cons.mp hfirst).2 h hrest

/-- What follows a key up to a place is not within the bounds, and the key is before the place. -/
structure Passes (bounds : List DirectedIntervals) (values cut : List BSONValue) (after : Bool) :
    Prop where
  current : Before (keyRank bounds cut) after (keyRank bounds values)
  others : ∀ others, LexLe (keyRank bounds values) (keyRank bounds others) →
    Before (keyRank bounds cut) after (keyRank bounds others) → ¬ValidKey bounds others

variable {bounds : List DirectedIntervals}

theorem Passes.cons {cut : List BSONValue} {after : Bool} (h : Passes bounds values cut after)
    (b : DirectedIntervals) (v : BSONValue) :
    Passes (b :: bounds) (v :: values) (v :: cut) after := by
  constructor
  · exact Or.inr ⟨rfl, h.current⟩
  · intro others hle hbefore hvalid
    obtain ⟨w, others, hw, hrest, rfl⟩ := forall₂_cons_left_iff.mp hvalid
    obtain ⟨-, hbefore, hle⟩ := hbefore.tail_of_le hle
    exact h.others others hle hbefore hrest

theorem Passes.append {front : List DirectedIntervals} {cut : List BSONValue} {after : Bool}
    (h : Passes bounds values cut after) (hlength : front.length = pre.length) :
    Passes (front ++ bounds) (pre ++ values) (pre ++ cut) after := by
  induction front generalizing pre with
  | nil =>
    obtain rfl := length_eq_zero_iff.mp hlength.symm
    exact h
  | cons b front ih =>
    cases pre with
    | nil => simp at hlength
    | cons v pre => exact (ih (by simpa using hlength)).cons b v

theorem passes_starts (hfield : field.bounds.Ok) (hok : ∀ f ∈ fields, f.bounds.Ok)
    (hfirst : ∀ f ∈ fields, f.curInterval.val = 0)
    (hbehind : intervalCmp field.current v field.expectedDirection = .behind)
    (hnone : ∀ w, directedRank field.expectedDirection v ≤ directedRank field.expectedDirection w →
      intervalCmp field.current w field.expectedDirection = .behind →
      ¬Placed field.expectedDirection field.intervals w) :
    Passes (boundsOf (field :: fields)) (v :: values)
      (startsCut (field :: fields)).1 (startsCut (field :: fields)).2 := by
  constructor
  · exact (before_starts_iff hfield).mpr (.inl hbehind)
  · intro others hle hbefore hvalid
    obtain ⟨w, others, hw, hrest, rfl⟩ := forall₂_cons_left_iff.mp hvalid
    rcases (before_starts_iff hfield).mp hbefore with hw' | ⟨-, -, hbefore⟩
    · exact hnone w hle.head_le hw' hw
    · exact not_validKey_of_before_starts hok hfirst hbefore hrest

theorem passes_shared (hnone : ∀ w, directedRank b.2 v ≤ directedRank b.2 w → ¬Placed b.2 b.1 w) :
    Passes (b :: bounds) (v :: values) [] true := by
  constructor
  · rfl
  · intro others hle _ hvalid
    obtain ⟨w, others, hw, hrest, rfl⟩ := forall₂_cons_left_iff.mp hvalid
    exact hnone w hle.head_le hw

/-- Nothing from a key on is within the bounds. -/
def Finished (bounds : List DirectedIntervals) (values : List BSONValue) : Prop :=
  ∀ others, LexLe (keyRank bounds values) (keyRank bounds others) → ¬ValidKey bounds others

theorem Finished.cons (h : Finished bounds values)
    (hnone : ∀ w, directedRank b.2 v < directedRank b.2 w → ¬Placed b.2 b.1 w) :
    Finished (b :: bounds) (v :: values) := by
  intro others hle hvalid
  obtain ⟨w, others, hw, hrest, rfl⟩ := forall₂_cons_left_iff.mp hvalid
  rcases hle with hlt | ⟨-, hle⟩
  · exact hnone w hlt hw
  · exact h others hle hrest

theorem not_placed_of_end (hok : field.bounds.Ok)
    (hlast : field.curInterval.val = field.intervals.length - 1)
    (hend : ¬-field.expectedDirection = (compareValues v field.current.stop).sign)
    (hlt : directedRank field.expectedDirection v < directedRank field.expectedDirection w) :
    ¬Placed field.expectedDirection field.intervals w := by
  have hd : field.expectedDirection = 1 ∨ field.expectedDirection = -1 := hok.direction
  have hmem : field.current ∈ field.intervals := get_mem _ _
  have hahead : intervalCmp field.current w field.expectedDirection = .ahead := by
    refine (intervalCmp_ahead_iff hd (hok.oriented.lo_lt_hi hmem)).mpr
      (Prod.Lex.toLex_lt_toLex.mpr (.inl ?_)).le
    have hle : directedRank field.expectedDirection field.current.stop ≤
        directedRank field.expectedDirection v := by
      rw [← not_lt, ← sign_compareValues_neg_iff hd]
      exact fun h => hend h.symm
    exact hle.trans_lt hlt
  rintro ⟨i, hi, hin⟩
  obtain ⟨m, rfl⟩ := get_of_mem hi
  have hpairs := pairwise_iff_get.mp (pairwise_locations hok.direction hok.oriented)
  rcases (show m.val ≤ field.curInterval.val by omega).lt_or_eq with hm | hm
  · exact absurd (((hpairs _ _ (Fin.lt_def.mpr hm) w).1 hahead).symm.trans hin) (by simp)
  · have heq : field.curInterval = m := Fin.ext hm.symm
    rw [CheckedField.current, heq] at hahead
    exact absurd (hahead.symm.trans hin) (by simp)

/-- No field has space left, and the value after them is ahead of all its intervals. -/
theorem finished_of_no_space (hok : ∀ f ∈ placed, f.bounds.Ok)
    (hwithin : List.Forall₂ (fun f v => intervalCmp f.current v f.expectedDirection = .within)
      placed pre)
    (hspace : spaceLeftToAdvance placed pre = false)
    (hnone : ∀ w, directedRank b.2 v ≤ directedRank b.2 w → ¬Placed b.2 b.1 w) :
    Finished (boundsOf placed ++ b :: bounds) (pre ++ v :: values) := by
  induction hwithin with
  | nil =>
    intro others hle hvalid
    exact (passes_shared hnone).others others hle rfl hvalid
  | @cons f u placed pre hf hwithin ih =>
    simp only [spaceLeftToAdvance, Bool.or_eq_false_iff, decide_eq_false_iff_not, not_not] at hspace
    obtain ⟨⟨⟨hlast, -⟩, hend⟩, hspace⟩ := hspace
    exact (ih (forall_mem_cons.mp hok).2 hspace).cons fun w hlt =>
      not_placed_of_end (hok f mem_cons_self) hlast hend hlt

end Keys

section Queries
variable {field : CheckedField} {fields : List CheckedField} {key : BSONObj}

/-- The query for the place before or after what starts with some values. -/
def queryOf (isForward : Bool) : List BSONValue → Bool → BSONObj
  | [], _ => []
  | [c], after => [(if after then exclusiveFieldName isForward else CString.empty, c)]
  | c :: d :: cut, after => (CString.empty, c) :: queryOf isForward (d :: cut) after

theorem queryOf_cons (isForward : Bool) (c : BSONValue) (cut : List BSONValue) (after : Bool)
    (h : cut ≠ [] ∨ after = false) :
    queryOf isForward (c :: cut) after = (CString.empty, c) :: queryOf isForward cut after := by
  cases cut with
  | nil =>
    have hafter := h.resolve_left (not_not.mpr rfl)
    simp [queryOf, hafter]
  | cons d cut => rfl

theorem queryOf_append (isForward : Bool) (pre cut : List BSONValue) (after : Bool)
    (h : cut ≠ [] ∨ after = false) :
    queryOf isForward (pre ++ cut) after =
      pre.map (fun c => (CString.empty, c)) ++ queryOf isForward cut after := by
  induction pre with
  | nil => rfl
  | cons c pre ih =>
    have hrest : pre ++ cut ≠ [] ∨ after = false := by
      rcases h with hne | hafter
      · exact Or.inl (append_ne_nil_of_right_ne_nil _ hne)
      · exact Or.inr hafter
    rw [cons_append, queryOf_cons isForward c _ after hrest, ih]
    rfl

/-- A seek point stands for a place, in both directions of a scan. -/
structure SeeksTo (n : ℕ) (seekPoint : IndexSeekPoint) (cut : List BSONValue) (after : Bool) :
    Prop where
  query : ∀ isForward, makeQueryObject seekPoint isForward = some (queryOf isForward cut after)
  marked : after = true → cut ≠ []
  whole : after = false → cut.length = n
  fits : cut.length ≤ n

theorem startsCut_spec (fields : List CheckedField) :
    ((startsCut fields).1 ≠ [] ∨ (startsCut fields).2 = false) ∧
      ((startsCut fields).2 = false → (startsCut fields).1.length = fields.length) ∧
      (startsCut fields).1.length ≤ fields.length := by
  induction fields with
  | nil => simp [startsCut]
  | cons field fields ih =>
    rw [startsCut]
    split_ifs with hinc
    · refine ⟨.inl (cons_ne_nil _ _), fun h => ?_, ?_⟩
      · simp [ih.2.1 h]
      · simpa using ih.2.2
    · simp

theorem suffixFields_starts (isForward : Bool) (fields : List CheckedField) :
    suffixFields isForward (fields.map fun field => field.current.start)
        (fields.map fun field => field.current.startInclusive) =
      queryOf isForward (startsCut fields).1 (startsCut fields).2 := by
  induction fields with
  | nil => rfl
  | cons field fields ih =>
    rw [map_cons, map_cons, suffixFields, startsCut]
    split_ifs with hinc
    · rw [ih, queryOf_cons isForward _ _ _ (startsCut_spec fields).1]
    · rfl

theorem seeksTo_starts {i n : ℕ} (hkey : i ≤ key.length) (hn : fields.length = n) (hi : i ≤ n) :
    SeeksTo n (seekToStarts key i fields)
      ((key.map Prod.snd).take i ++ (startsCut (fields.drop i)).1)
      (startsCut (fields.drop i)).2 := by
  obtain ⟨hcut, hwhole, hfits⟩ := startsCut_spec (fields.drop i)
  have hlength : ((key.map Prod.snd).take i).length = i := by simp [hkey]
  constructor
  · intro isForward
    rw [queryOf_append isForward _ _ _ hcut, ← suffixFields_starts]
    simp [makeQueryObject, seekToStarts, not_lt.mpr hkey]
  · intro hafter
    exact append_ne_nil_of_right_ne_nil _ (hcut.resolve_right (by simp [hafter]))
  · intro hafter
    rw [length_append, hlength, hwhole hafter, length_drop]
    omega
  · rw [length_append, hlength]
    rw [length_drop] at hfits
    omega

theorem queryOf_concat (isForward : Bool) (pre : List BSONValue) (last : BSONValue) :
    queryOf isForward (pre ++ [last]) true =
      pre.map (fun c => (CString.empty, c)) ++ [(exclusiveFieldName isForward, last)] := by
  rw [queryOf_append isForward pre [last] true (Or.inl (cons_ne_nil _ _))]
  rfl

theorem seeksTo_shared {i n : ℕ} (hi : 0 < i) (hkey : i ≤ key.length) (hn : i ≤ n) :
    SeeksTo n (seekPastPrefix key i) ((key.map Prod.snd).take i) true := by
  have hlength : ((key.map Prod.snd).take i).length = i := by simp [hkey]
  have hne : (key.map Prod.snd).take i ≠ [] := by
    intro hnil
    rw [hnil] at hlength
    exact hi.ne hlength
  constructor
  · intro isForward
    obtain ⟨pre, last, heq⟩ := ((key.map Prod.snd).take i).eq_nil_or_concat'.resolve_left hne
    rw [heq, queryOf_concat]
    have hfields : (key.take i).map Prod.snd = pre ++ [last] := by rw [map_take, heq]
    simp [makeQueryObject, seekPastPrefix, not_lt.mpr hkey, hfields]
  · exact fun _ => hne
  · intro h
    exact absurd h (by simp)
  · rw [hlength]
    exact hn

end Queries

section Checks
variable {field : CheckedField} {placed fields : List CheckedField} {key : BSONObj}
  {values pre : List BSONValue} {bounds : List DirectedIntervals}

/-- What the checker reports about a key is right. -/
inductive Checked (bounds : List DirectedIntervals) (values : List BSONValue) : KeyState → Prop
  | valid (h : ValidKey bounds values) : Checked bounds values .valid
  | mustAdvance {seekPoint : IndexSeekPoint} {cut : List BSONValue} {after : Bool}
      (hseek : SeeksTo bounds.length seekPoint cut after) (h : Passes bounds values cut after) :
      Checked bounds values (.mustAdvance seekPoint)
  | done (h : Finished bounds values) : Checked bounds values .done

def InCurrent (fields : List CheckedField) (values : List BSONValue) : Prop :=
  List.Forall₂ (fun f v => intervalCmp f.current v f.expectedDirection = .within) fields values

theorem InCurrent.validKey (h : InCurrent fields values) : ValidKey (boundsOf fields) values := by
  rw [ValidKey, forall₂_map_left_iff]
  exact h.imp fun f v hv => ⟨f.current, get_mem _ _, hv⟩

theorem InCurrent.concat {v : BSONValue} (h : InCurrent placed pre)
    (hv : intervalCmp field.current v field.expectedDirection = .within) :
    InCurrent (placed ++ [field]) (pre ++ [v]) :=
  rel_append h (.cons hv .nil)

theorem spaceLeftToAdvance_append (h : placed.length = pre.length) (values : List BSONValue) :
    spaceLeftToAdvance placed (pre ++ values) = spaceLeftToAdvance placed pre := by
  induction placed generalizing pre with
  | nil =>
    obtain rfl := length_eq_zero_iff.mp h.symm
    cases values <;> rfl
  | cons f placed ih =>
    cases pre with
    | nil => simp at h
    | cons v pre =>
      rw [cons_append, spaceLeftToAdvance, spaceLeftToAdvance, ih (by simpa using h)]

theorem map_reset_bounds (fields : List CheckedField) :
    boundsOf (fields.map CheckedField.reset) = boundsOf fields := by
  rw [boundsOf, map_map]
  rfl

theorem reset_first (fields : List CheckedField) :
    ∀ f ∈ fields.map CheckedField.reset, f.curInterval.val = 0 := by
  exact forall_mem_map.mpr fun _ _ => rfl

theorem ok_of_bounds_eq {fields' : List CheckedField} (hok : ∀ f ∈ fields, f.bounds.Ok)
    (h : boundsOf fields' = boundsOf fields) :
    ∀ f ∈ fields', f.bounds.Ok := by
  intro f hf
  have hmem : f.bounds ∈ boundsOf fields := h ▸ mem_map_of_mem hf
  obtain ⟨g, hg, heq⟩ := mem_map.mp hmem
  exact heq ▸ hok g hg

theorem checked_starts {v : BSONValue} (hkey : key.map Prod.snd = pre ++ v :: values)
    (hlength : placed.length = pre.length) (hfields : fields.length = values.length)
    (hfield : field.bounds.Ok) (hok : ∀ f ∈ fields, f.bounds.Ok)
    (hfirst : ∀ f ∈ fields, f.curInterval.val = 0)
    (hbehind : intervalCmp field.current v field.expectedDirection = .behind)
    (hnone : ∀ w, directedRank field.expectedDirection v ≤ directedRank field.expectedDirection w →
      intervalCmp field.current w field.expectedDirection = .behind →
      ¬Placed field.expectedDirection field.intervals w) :
    Checked (boundsOf (placed ++ field :: fields)) (pre ++ v :: values)
      (.mustAdvance (seekToStarts key placed.length (placed ++ field :: fields))) := by
  have htotal : key.length = (placed ++ field :: fields).length := by
    rw [← length_map (f := Prod.snd), hkey]
    simp [hlength, hfields]
  have hprefix : placed.length ≤ key.length := by simp [htotal]
  have hseek := seeksTo_starts hprefix (Eq.refl (placed ++ field :: fields).length) (by simp)
  rw [drop_left, hkey, hlength, take_left, ← length_map (f := CheckedField.bounds)] at hseek
  rw [hlength]
  have hstarts : Passes (boundsOf (field :: fields)) (v :: values)
      (startsCut (field :: fields)).1 (startsCut (field :: fields)).2 :=
    passes_starts hfield hok hfirst hbehind hnone
  have hfront : (boundsOf placed).length = pre.length := by simp [hlength]
  have hpasses := hstarts.append hfront
  rw [← map_append] at hpasses
  exact .mustAdvance hseek hpasses

/-- The loop that looks for intervals, after fields whose values are in their current ones. -/
theorem placeFields_spec (hkey : key.map Prod.snd = pre ++ values)
    (hlength : fields.length = values.length) (hplaced : InCurrent placed pre)
    (hok : ∀ f ∈ placed ++ fields, f.bounds.Ok) :
    (placeFields key placed fields values).2.map CheckedField.bounds = boundsOf (placed ++ fields) ∧
      Checked (boundsOf (placed ++ fields)) (pre ++ values)
        (placeFields key placed fields values).1 := by
  induction fields generalizing placed pre values with
  | nil =>
    obtain rfl := length_eq_zero_iff.mp hlength.symm
    rw [append_nil, append_nil]
    exact ⟨rfl, .valid hplaced.validKey⟩
  | cons field fields ih =>
    cases values with
    | nil => simp at hlength
    | cons v values =>
      have hfield := hok field (mem_append_right _ mem_cons_self)
      have hrest : ∀ f ∈ fields, f.bounds.Ok := fun f hf =>
        hok f (mem_append_right _ (mem_cons_of_mem _ hf))
      have hfound := found_findIntervalForField hfield.direction hfield.oriented v
      have hlength : fields.length = values.length := by simpa using hlength
      rw [placeFields]
      cases hfind : findIntervalForField v field.intervals field.expectedDirection with
      | none =>
        rw [show findIntervalForField v field.bounds.1 field.bounds.2 = none from hfind] at hfound
        cases hfound with
        | ahead hnone =>
          dsimp only
          rw [hkey, spaceLeftToAdvance_append hplaced.length_eq]
          split_ifs with hspace
          · refine ⟨?_, ?_⟩
            · rw [map_append, boundsOf, map_append]
              exact congrArg _ (map_reset_bounds _)
            · have hpos : 0 < placed.length := by
                cases placed with
                | nil => exact absurd hspace (by cases pre <;> simp [spaceLeftToAdvance])
                | cons f placed => simp
              have hprefix : placed.length ≤ key.length := by
                rw [← length_map (f := Prod.snd), hkey, hplaced.length_eq]
                simp
              have hseek := seeksTo_shared hpos hprefix
                (show placed.length ≤ (boundsOf (placed ++ field :: fields)).length by simp)
              rw [hkey, hplaced.length_eq, take_left] at hseek
              rw [hplaced.length_eq]
              have hfront : (boundsOf placed).length = pre.length := by
                simp [hplaced.length_eq]
              have hahead : Passes (field.bounds :: boundsOf fields) (v :: values)
                  [] true := passes_shared hnone
              have hpasses := hahead.append hfront
              rw [append_nil] at hpasses
              rw [boundsOf, map_append, map_cons] at hseek ⊢
              exact .mustAdvance hseek hpasses
          · refine ⟨rfl, .done ?_⟩
            rw [boundsOf, map_append, map_cons]
            exact finished_of_no_space (fun f hf => hok f (mem_append_left _ hf)) hplaced
              (by simpa using hspace) hnone
      | some p =>
        rw [show findIntervalForField v field.bounds.1 field.bounds.2 = some p from hfind] at hfound
        cases hfound with
        | within k hk =>
          have hmoved : boundsOf (placed ++ [field.moveTo k] ++ fields) =
              boundsOf (placed ++ field :: fields) := by
            simp [CheckedField.moveTo, CheckedField.bounds]
          have hsplit : key.map Prod.snd = (pre ++ [v]) ++ values := by simp [hkey]
          have hin : InCurrent (placed ++ [field.moveTo k]) (pre ++ [v]) := hplaced.concat hk
          have hnext := ih hsplit hlength hin (ok_of_bounds_eq hok hmoved)
          rw [hmoved, append_assoc] at hnext
          exact hnext
        | behind k hk hnone =>
          dsimp only
          have hmoved : boundsOf (placed ++ field.moveTo k :: fields.map CheckedField.reset) =
              boundsOf (placed ++ field :: fields) := by
            simp only [boundsOf, map_append, map_cons, map_map]
            rfl
          have hmovedOk : (field.moveTo k).bounds.Ok := hfield
          have hchecked := checked_starts hkey hplaced.length_eq (by simp [hlength]) hmovedOk
            (ok_of_bounds_eq hrest (map_reset_bounds fields)) (reset_first fields) hk hnone
          rw [hmoved] at hchecked
          exact ⟨hmoved, hchecked⟩

theorem inCurrent_of_no_problem (hlength : fields.length = values.length)
    (h : findLeftmostProblem fields values = none) : InCurrent fields values := by
  induction fields generalizing values with
  | nil =>
    obtain rfl := length_eq_zero_iff.mp hlength.symm
    exact .nil
  | cons field fields ih =>
    cases values with
    | nil => simp at hlength
    | cons v values =>
      rw [findLeftmostProblem] at h
      cases hloc : intervalCmp field.current v field.expectedDirection with
      | within =>
        rw [hloc] at h
        exact .cons hloc (ih (by simpa using hlength) (Option.map_eq_none_iff.mp h))
      | behind | ahead => rw [hloc] at h; simp at h

/-- The fields and values around a leftmost problem. -/
structure ProblemAt (fields : List CheckedField) (values : List BSONValue) (i : ℕ)
    (loc : Location) (placed : List CheckedField) (field : CheckedField)
    (rest : List CheckedField) (pre : List BSONValue) (v : BSONValue) (post : List BSONValue) :
    Prop where
  fields_eq : fields = placed ++ field :: rest
  values_eq : values = pre ++ v :: post
  position : placed.length = i
  placed_in : InCurrent placed pre
  location : intervalCmp field.current v field.expectedDirection = loc
  not_within : loc ≠ .within

theorem exists_problemAt {i : ℕ} {loc : Location}
    (h : findLeftmostProblem fields values = some (i, loc)) :
    ∃ placed field rest pre v post,
      ProblemAt fields values i loc placed field rest pre v post := by
  induction fields generalizing values i with
  | nil => simp [findLeftmostProblem] at h
  | cons field fields ih =>
    cases values with
    | nil => simp [findLeftmostProblem] at h
    | cons v values =>
      rw [findLeftmostProblem] at h
      by_cases hloc : intervalCmp field.current v field.expectedDirection = .within
      · rw [hloc] at h
        obtain ⟨p, hp, heq⟩ := Option.map_eq_some_iff.mp h
        obtain ⟨rfl, rfl⟩ := Prod.mk.inj heq
        obtain ⟨placed, f, rest, pre, u, post, hproblem⟩ := ih hp
        refine ⟨field :: placed, f, rest, v :: pre, u, post, ?_⟩
        constructor
        · rw [hproblem.fields_eq]
          rfl
        · rw [hproblem.values_eq]
          rfl
        · simp [hproblem.position]
        · exact .cons hloc hproblem.placed_in
        · exact hproblem.location
        · exact hproblem.not_within
      · have hfound : i = 0 ∧ intervalCmp field.current v field.expectedDirection = loc := by
          cases hcmp : intervalCmp field.current v field.expectedDirection with
          | within => exact absurd hcmp hloc
          | behind | ahead =>
            rw [hcmp] at h
            obtain ⟨hi, hl⟩ := Prod.mk.inj (Option.some.inj h)
            exact ⟨hi.symm, hl⟩
        exact ⟨[], field, fields, [], v, values, rfl, rfl, hfound.1.symm, .nil, hfound.2,
          fun hl => hloc (hfound.2.trans hl)⟩

/-- The rest of a check, when fields from the problem on that are behind are at their first
interval. -/
theorem resolveProblem_spec (hlength : key.length = fields.length) (hok : ∀ f ∈ fields, f.bounds.Ok)
    (hfirst : ∀ i, findLeftmostProblem fields (key.map Prod.snd) = some (i, .behind) →
      ∀ f ∈ fields.drop i, f.curInterval.val = 0) :
    (resolveProblem key fields (findLeftmostProblem fields (key.map Prod.snd))).2.map
        CheckedField.bounds = boundsOf fields ∧
      Checked (boundsOf fields) (key.map Prod.snd)
        (resolveProblem key fields (findLeftmostProblem fields (key.map Prod.snd))).1 := by
  have hvalues : fields.length = (key.map Prod.snd).length := by simp [hlength]
  cases hproblem : findLeftmostProblem fields (key.map Prod.snd) with
  | none => exact ⟨rfl, .valid (inCurrent_of_no_problem hvalues hproblem).validKey⟩
  | some p =>
    obtain ⟨i, loc⟩ := p
    obtain ⟨placed, field, rest, pre, v, post, hat⟩ := exists_problemAt hproblem
    have hposition := hat.position
    have hlengths : rest.length = post.length := by
      simpa [hat.fields_eq, hat.values_eq, hat.placed_in.length_eq] using hvalues
    have hdrop : fields.drop i = field :: rest := by
      rw [hat.fields_eq, ← hposition, drop_left]
    cases loc with
    | within => exact absurd rfl hat.not_within
    | behind =>
      have hzero := hfirst i hproblem
      rw [hdrop] at hzero
      have hfield := hok field (by simp [hat.fields_eq])
      have hrest : ∀ f ∈ rest, f.bounds.Ok := fun f hf => hok f (by simp [hat.fields_eq, hf])
      have hchecked := checked_starts hat.values_eq hat.placed_in.length_eq hlengths hfield hrest
        (forall_mem_cons.mp hzero).2 hat.location
        fun w _ hw => not_placed_of_behind_first hfield (hzero field mem_cons_self) hw
      rw [← hat.fields_eq, ← hat.values_eq, hposition] at hchecked
      exact ⟨rfl, hchecked⟩
    | ahead =>
      have htake : fields.take i = placed := by
        rw [hat.fields_eq, ← hposition, take_left]
      have hvdrop : (key.map Prod.snd).drop i = v :: post := by
        rw [hat.values_eq, ← hposition, hat.placed_in.length_eq, drop_left]
      have hplace := placeFields_spec hat.values_eq (by simp [hlengths]) hat.placed_in
        (hat.fields_eq ▸ hok)
      rw [← hat.fields_eq, ← hat.values_eq, ← hvdrop, ← hdrop, ← htake] at hplace
      exact hplace

theorem resetFrom_bounds (i : ℕ) (fields : List CheckedField) :
    boundsOf (resetFrom i fields) = boundsOf fields := by
  have hreset := map_reset_bounds (fields.drop i)
  rw [boundsOf] at hreset
  rw [resetFrom, boundsOf, map_append, hreset, ← map_append, take_append_drop]

/-- After the fields from the leftmost problem on were started over, no problem is further left. -/
theorem resetFrom_first {i j : ℕ} {loc loc' : Location}
    (h : findLeftmostProblem fields values = some (i, loc))
    (h' : findLeftmostProblem (resetFrom i fields) values = some (j, loc')) :
    ∀ f ∈ (resetFrom i fields).drop j, f.curInterval.val = 0 := by
  obtain ⟨placed, field, rest, pre, v, post, hat⟩ := exists_problemAt h
  obtain ⟨placed', field', rest', pre', v', post', hat'⟩ := exists_problemAt h'
  have hreset : resetFrom i fields = placed ++ (field :: rest).map CheckedField.reset := by
    rw [resetFrom, hat.fields_eq, ← hat.position, take_left, drop_left]
  have hij : i ≤ j := by
    by_contra hlt
    -- the field of the second problem would be among those in their current intervals
    have hjlt : j < placed.length := by rw [hat.position]; omega
    have hfield : (resetFrom i fields)[j]? = some field' := by
      rw [hat'.fields_eq, ← hat'.position]
      simp
    have hvalue : values[j]? = some v' := by
      rw [hat'.values_eq, ← hat'.position, hat'.placed_in.length_eq]
      simp
    rw [hreset, List.getElem?_append_left hjlt] at hfield
    rw [hat.values_eq, List.getElem?_append_left (hat.placed_in.length_eq ▸ hjlt)] at hvalue
    obtain ⟨hf, rfl⟩ := List.getElem?_eq_some_iff.mp hfield
    obtain ⟨hv, rfl⟩ := List.getElem?_eq_some_iff.mp hvalue
    have hin := (forall₂_iff_get.mp hat.placed_in).2 j hf hv
    exact hat'.not_within (hat'.location.symm.trans hin)
  intro f hf
  have hmem : f ∈ (field :: rest).map CheckedField.reset := by
    rw [hreset, ← Nat.add_sub_cancel' hij, ← hat.position, ← drop_drop, drop_left] at hf
    exact mem_of_mem_drop hf
  exact reset_first _ f hmem

/-- A check never fails, keeps the bounds, and its report is right. -/
theorem checkKey_spec (hne : fields ≠ []) (hlength : key.length = fields.length)
    (hok : ∀ f ∈ fields, f.bounds.Ok) :
    ∃ state fields', checkKey fields key = some (state, fields') ∧
      boundsOf fields' = boundsOf fields ∧
      Checked (boundsOf fields) (key.map Prod.snd) state := by
  have hassert : ¬(fields.length = 0 ∨ (key.map Prod.snd).length ≠ fields.length) := by
    rintro (hzero | hother)
    · exact hne (length_eq_zero_iff.mp hzero)
    · exact hother (by simpa using hlength)
  rw [checkKey]
  dsimp only
  rw [if_neg hassert]
  split
  · next i hproblem =>
    have hbounds := resetFrom_bounds i fields
    have hcount : (resetFrom i fields).length = fields.length := by
      simpa using congrArg List.length hbounds
    obtain ⟨hsame, hchecked⟩ := resolveProblem_spec (hlength.trans hcount.symm)
      (ok_of_bounds_eq hok hbounds) fun j hj => resetFrom_first hproblem hj
    rw [hbounds] at hsame hchecked
    exact ⟨_, _, rfl, hsame, hchecked⟩
  · next hproblem =>
    obtain ⟨hsame, hchecked⟩ := resolveProblem_spec hlength hok fun i hi =>
      absurd hi (hproblem i)
    exact ⟨_, _, rfl, hsame, hchecked⟩

end Checks
end IndexBoundsChecker
end MongoServer
