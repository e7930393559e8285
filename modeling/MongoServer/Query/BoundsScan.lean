import MongoServer.Query.BoundsChecking

/-!
The scan of an index within bounds emits the keys within the bounds, once and in order. This
needs that checkers and indexes agree on the directions of the fields: a checker takes a field
of the key pattern as ascending if it is at least zero, an index as descending if it is less
than zero, and a field that is not a number at all is neither.
-/
namespace MongoServer
open KeyString SkipScan OrderedIntervalList IndexBoundsChecker
open IndexBounds (fieldsValidFor)
open Binary64 CString IndexKey KeyOrdering List

variable {e : IndexEntry} {n : ℕ} {after : Bool}

section Directions
variable {order : KeyOrdering} {isForward : Bool} {bounds : List DirectedIntervals}

def AgreesFrom (order : KeyOrdering) (isForward : Bool) : ℕ → List DirectedIntervals → Prop
  | _, [] => True
  | j, b :: bounds =>
      (order.bits &&& (1#32 <<< j) ≠ 0 ↔ b.2 = if isForward then -1 else 1) ∧
        AgreesFrom order isForward (j + 1) bounds

def Precedes (isForward : Bool) (cmp : ℤ) : Prop := if isForward then cmp < 0 else 0 < cmp

theorem precedes_iff {j : ℕ} {b : DirectedIntervals} {v c : BSONValue} (hd : b.2 = 1 ∨ b.2 = -1)
    (hbit : order.bits &&& (1#32 <<< j) ≠ 0 ↔ b.2 = if isForward then -1 else 1) :
    Precedes isForward (if order.bits &&& (1#32 <<< j) ≠ 0 then -compareValues v c
        else compareValues v c) ↔
      directedRank b.2 v < directedRank b.2 c := by
  rw [← sign_compareValues_neg_iff hd, if_congr hbit rfl rfl]
  rcases hd with h | h
  · cases isForward <;> simp [Precedes, h, Int.sign_eq_neg_one_iff_neg]
  · cases isForward <;> simp [Precedes, h, Int.sign_eq_one_iff_pos]

theorem exclusiveFieldName_ne (isForward : Bool) : exclusiveFieldName isForward ≠ empty := by
  cases isForward <;> decide

theorem precedes_marked (isForward : Bool) : Precedes isForward
    (if (exclusiveFieldName isForward).bytes.head? = some 'l'.toUInt8 then 1 else -1) := by
  cases isForward
  · exact (by decide : (0 : ℤ) < 1)
  · exact (by decide : (-1 : ℤ) < 0)

theorem compareToQuery_iff {j : ℕ} {cut values : List BSONValue}
    (hd : ∀ b ∈ bounds, b.2 = 1 ∨ b.2 = -1) (hagree : AgreesFrom order isForward j bounds)
    (hlength : bounds.length = values.length) (hmarked : after = true → cut ≠ [])
    (hwhole : after = false → cut.length = values.length) (hfits : cut.length ≤ values.length) :
    Precedes isForward (compareToQuery order (1#32 <<< j) values (queryOf isForward cut after)) ↔
      Before (keyRank bounds cut) after (keyRank bounds values) := by
  induction cut generalizing bounds values j with
  | nil =>
    have hafter : after = false := by
      by_contra h
      exact hmarked (by simpa using h) rfl
    obtain rfl := length_eq_zero_iff.mp (hwhole hafter).symm
    rw [hafter, keyRank, zipWith_nil_right]
    cases isForward <;> simp [queryOf, compareToQuery, Precedes, Before]
  | cons c cut ih =>
    cases values with
    | nil => simp at hfits
    | cons v values =>
      cases bounds with
      | nil => simp at hlength
      | cons b bounds =>
        obtain ⟨hbit, hagree⟩ := hagree
        have hb := hd b mem_cons_self
        have hsign := precedes_iff (v := v) (c := c) hb hbit
        have hzero : compareValues v c = 0 ↔ directedRank b.2 v = directedRank b.2 c := by
          rw [compareValues_eq_iff, directedRank_eq_iff]
        by_cases hlast : cut = [] ∧ after = true
        · -- the marked field, where equal values are passed
          obtain ⟨rfl, rfl⟩ := hlast
          have hname := exclusiveFieldName_ne isForward
          simp only [queryOf, if_true, compareToQuery, hname, ne_eq, not_false_iff]
          have hbefore : Before (keyRank (b :: bounds) [c]) true
                (keyRank (b :: bounds) (v :: values)) ↔
              directedRank b.2 v < directedRank b.2 c ∨
                directedRank b.2 v = directedRank b.2 c := by
            simp [keyRank, Before]
          rw [hbefore]
          by_cases hcmp : compareValues v c = 0
          · simp only [hcmp, not_true, if_false, hzero.mp hcmp, or_true, iff_true]
            exact precedes_marked isForward
          · simp only [hcmp, not_false_iff, if_true, hzero.not.mp hcmp, or_false]
            exact hsign
        · have hrest : cut ≠ [] ∨ after = false := by
            by_contra h
            push Not at h
            exact hlast ⟨h.1, by simpa using h.2⟩
          rw [queryOf_cons isForward c cut after hrest, compareToQuery]
          simp only [ne_eq, not_true, if_false, shift_one_succ]
          have hih := ih (forall_mem_cons.mp hd).2 hagree (by simpa using hlength)
            (fun hafter => hrest.resolve_right (by simp [hafter]))
            (fun hafter => by simpa using hwhole hafter) (by simpa using hfits)
          have hbefore : Before (keyRank (b :: bounds) (c :: cut)) after
                (keyRank (b :: bounds) (v :: values)) ↔
              directedRank b.2 v < directedRank b.2 c ∨ directedRank b.2 v = directedRank b.2 c ∧
                Before (keyRank bounds cut) after (keyRank bounds values) := Iff.rfl
          rw [hbefore]
          by_cases hcmp : compareValues v c = 0
          · simp only [hcmp, not_true, if_false, hzero.mp hcmp, lt_irrefl, false_or, true_and]
            exact hih
          · simp only [hcmp, not_false_iff, if_true, hzero.not.mp hcmp, false_and, or_false]
            exact hsign

theorem lexLe_of_woCompareFrom {j : ℕ} {l r : BSONObj} (hd : ∀ b ∈ bounds, b.2 = 1 ∨ b.2 = -1)
    (hagree : AgreesFrom order isForward j bounds) (hl : l.length = bounds.length)
    (hr : r.length = bounds.length) (h : woCompareFrom order false (1#32 <<< j) l r ≤ 0) :
    if isForward then LexLe (keyRank bounds (l.map Prod.snd)) (keyRank bounds (r.map Prod.snd))
    else LexLe (keyRank bounds (r.map Prod.snd)) (keyRank bounds (l.map Prod.snd)) := by
  induction bounds generalizing l r j with
  | nil => cases isForward <;> simp [keyRank, LexLe]
  | cons b bounds ih =>
    cases l with
    | nil => simp at hl
    | cons e l =>
      cases r with
      | nil => simp at hr
      | cons f r =>
        obtain ⟨hbit, hagree⟩ := hagree
        have hb := hd b mem_cons_self
        have hcompare : woCompareElement false e f = compareValues e.2 f.2 := rfl
        rw [woCompareFrom, hcompare] at h
        have hsign := precedes_iff (v := e.2) (c := f.2) hb hbit
        have hzero : compareValues e.2 f.2 = 0 ↔ directedRank b.2 e.2 = directedRank b.2 f.2 := by
          rw [compareValues_eq_iff, directedRank_eq_iff]
        by_cases hcmp : compareValues e.2 f.2 = 0
        · rw [hcmp, neg_zero, ite_self, if_neg (not_not.mpr rfl), shift_one_succ] at h
          have hih := ih (forall_mem_cons.mp hd).2 hagree (by simpa using hl) (by simpa using hr) h
          cases isForward
          · exact Or.inr ⟨(hzero.mp hcmp).symm, hih⟩
          · exact Or.inr ⟨hzero.mp hcmp, hih⟩
        · have hne : ¬(if order.bits &&& (1#32 <<< j) ≠ 0 then -compareValues e.2 f.2
              else compareValues e.2 f.2) = 0 := by
            split_ifs
            · exact neg_ne_zero.mpr hcmp
            · exact hcmp
          rw [if_pos hne] at h
          have hlt := lt_of_le_of_ne h hne
          cases isForward
          · have hnot := hsign.not.mp (not_lt.mpr hlt.le)
            exact Or.inl (lt_of_le_of_ne (not_lt.mp hnot) fun heq => hcmp (hzero.mpr heq.symm))
          · exact Or.inl (hsign.mp hlt)

end Directions

section KeyPatterns
variable {order : KeyOrdering} {isForward : Bool} {keyPattern : BSONObj}

/-- A field of a key pattern that is not a number in the sense of floating point. -/
def isNaNField (e : CString × BSONValue) : Bool := isNaN e.2.numberDouble

/-- The bits of an ordering, from a field on. -/
def BitsFrom (order : KeyOrdering) : ℕ → BSONObj → Prop
  | _, [] => True
  | n, e :: rest =>
      order.bits.getLsbD n = lt e.2.numberDouble 0 ∧ n < 32 ∧ BitsFrom order (n + 1) rest

theorem getLsbD_one_shift (hn : n < 32) (j : ℕ) : (1#32 <<< n).getLsbD j = decide (j = n) := by
  rw [← BitVec.twoPow_eq, BitVec.getLsbD_twoPow]
  simp [hn, eq_comm]

theorem getLsbD_or_shift (b : BitVec 32) (n j : ℕ) (hn : n < 32) :
    (b ||| (1#32 <<< n)).getLsbD j = (b.getLsbD j || decide (j = n)) := by
  rw [BitVec.getLsbD_or, getLsbD_one_shift hn]

theorem makeFrom_bits {b : BitVec 32} (h : makeFrom n b keyPattern = some order)
    (hzero : ∀ j, n ≤ j → b.getLsbD j = false) :
    (∀ j < n, order.bits.getLsbD j = b.getLsbD j) ∧ BitsFrom order n keyPattern := by
  induction keyPattern generalizing n b with
  | nil =>
    cases h
    exact ⟨fun j _ => rfl, trivial⟩
  | cons e rest ih =>
    rw [makeFrom] at h
    split_ifs at h with hn hneg
    · have hlt : n < 32 := by omega
      obtain ⟨hkept, hrest⟩ := ih h fun j hj => by
        rw [getLsbD_or_shift b n j hlt, hzero j (by omega)]
        simp
        omega
      refine ⟨fun j hj => ?_, ?_, hlt, hrest⟩
      · rw [hkept j (by omega), getLsbD_or_shift b n j hlt]
        simp [hj.ne]
      · rw [hkept n (by omega), getLsbD_or_shift b n n hlt, hneg]
        simp
    · have hlt : n < 32 := by omega
      obtain ⟨hkept, hrest⟩ := ih h fun j hj => hzero j (by omega)
      refine ⟨fun j hj => hkept j (by omega), ?_, hlt, hrest⟩
      rw [hkept n (by omega), hzero n (le_refl n)]
      simpa using (Bool.eq_false_iff.mpr hneg).symm

theorem bitsFrom_of_make (h : make keyPattern = some order) : BitsFrom order 0 keyPattern :=
  (makeFrom_bits h fun j _ => by simp).2

theorem and_shift_ne_zero_iff (bits : BitVec 32) (hn : n < 32) :
    bits &&& (1#32 <<< n) ≠ 0 ↔ bits.getLsbD n = true := by
  have hset := getLsbD_one_shift hn n
  rw [← BitVec.twoPow_eq] at hset ⊢
  rw [BitVec.and_twoPow]
  split_ifs with h
  · refine iff_of_true (fun hzero => ?_) h
    simp [hzero] at hset
  · simp [h]

theorem le_zero_eq_not_lt {d : BitVec 64} (h : isNaN d = false) : le 0 d = !lt d 0 := by
  have hzero : isNaN 0 = false := by decide
  simp only [le, lt, h, hzero, Bool.not_false, Bool.true_and, Bool.and_true]
  rw [← decide_not, decide_eq_decide, not_lt]

theorem indexDirection_eq (v : BSONValue) : indexDirection v = 1 ∨ indexDirection v = -1 := by
  unfold indexDirection
  split_ifs
  · exact Or.inl rfl
  · exact Or.inr rfl

theorem agreesFrom_of_bitsFrom {bounds : List DirectedIntervals}
    (hnan : ∀ e ∈ keyPattern, isNaNField e = false) (hbits : BitsFrom order n keyPattern)
    (hdirections : bounds.map Prod.snd =
      expectedDirections keyPattern (if isForward then 1 else -1)) :
    AgreesFrom order isForward n bounds := by
  induction keyPattern generalizing n bounds with
  | nil =>
    obtain rfl := map_eq_nil_iff.mp hdirections
    trivial
  | cons e rest ih =>
    cases bounds with
    | nil => simp [expectedDirections] at hdirections
    | cons b bounds =>
      rw [expectedDirections, map_cons, map_cons, List.cons.injEq] at hdirections
      obtain ⟨hbit, hn, hbits⟩ := hbits
      refine ⟨?_, ih (forall_mem_cons.mp hnan).2 hbits hdirections.2⟩
      have hle := le_zero_eq_not_lt (hnan e mem_cons_self)
      rw [and_shift_ne_zero_iff _ hn, hbit, hdirections.1, indexDirection, hle]
      cases lt e.2.numberDouble 0 <;> cases isForward <;> simp

end KeyPatterns

section Exact
variable {order : KeyOrdering} {isForward : Bool} {keyPattern : BSONObj} {bounds : IndexBounds}
  {contents : List IndexEntry}

/-- Entries in the order of a key pattern, each with a value for every field. -/
structure SortedContents (keyPattern : BSONObj) (order : KeyOrdering)
    (contents : List IndexEntry) : Prop where
  sorted : contents.Pairwise fun a b => woCompare a.key.obj b.key.obj order false ≤ 0
  complete : ∀ e ∈ contents, e.key.obj.length = keyPattern.length

def IndexEntry.values (e : IndexEntry) : List BSONValue := e.key.obj.map Prod.snd

def inScanOrder (isForward : Bool) (contents : List IndexEntry) : List IndexEntry :=
  if isForward then contents else contents.reverse

variable {oils : List OrderedIntervalList}

theorem checkedFields_spec {direction : ℤ} {fields : List CheckedField}
    (hvalid : fieldsValidFor direction oils keyPattern = true)
    (hdirection : direction = 1 ∨ direction = -1)
    (h : checkedFields oils (expectedDirections keyPattern direction) = some fields) :
    (∀ f ∈ fields, f.bounds.Ok ∧ f.curInterval.val = 0) ∧
      (boundsOf fields).map Prod.snd = expectedDirections keyPattern direction ∧
      (boundsOf fields).map Prod.fst = oils.map OrderedIntervalList.intervals := by
  induction oils generalizing keyPattern fields with
  | nil =>
    cases keyPattern with
    | nil =>
      cases h
      simp [expectedDirections]
    | cons e rest => simp [fieldsValidFor] at hvalid
  | cons oil oils ih =>
    cases keyPattern with
    | nil => simp [fieldsValidFor] at hvalid
    | cons e rest =>
      rw [fieldsValidFor, Bool.and_eq_true, Bool.and_eq_true] at hvalid
      obtain ⟨⟨-, hoil⟩, hrest⟩ := hvalid
      rw [expectedDirections, map_cons, checkedFields] at h
      split_ifs at h with hpos
      obtain ⟨others, hothers, rfl⟩ := Option.map_eq_some_iff.mp h
      obtain ⟨hok, hdirections, hintervals⟩ := ih hrest hothers
      have hd : indexDirection e.2 * direction = 1 ∨ indexDirection e.2 * direction = -1 := by
        rcases indexDirection_eq e.2 with he | he <;> rcases hdirection with hdir | hdir <;>
          simp [he, hdir]
      refine ⟨forall_mem_cons.mpr ⟨⟨⟨hd, ?_⟩, rfl⟩, hok⟩, ?_, ?_⟩
      · exact oriented_of_isValidFor hd (mul_comm direction (indexDirection e.2) ▸ hoil)
      · exact congrArg (cons _) hdirections
      · exact congrArg (cons _) hintervals

variable {values : List BSONValue}

/-- `isValidKey` says whether every value is in an interval of its field. -/
theorem isValidKey_iff {fields : List DirectedIntervals} (hok : ∀ b ∈ fields, b.Ok)
    (hintervals : fields.map Prod.fst = oils.map OrderedIntervalList.intervals)
    (hlength : values.length = fields.length) :
    isValidKey oils (fields.map Prod.snd) values = true ↔ ValidKey fields values := by
  induction fields generalizing oils values with
  | nil =>
    obtain rfl := length_eq_zero_iff.mp hlength
    simp [isValidKey, ValidKey]
  | cons b fields ih =>
    cases values with
    | nil => simp at hlength
    | cons v values =>
      cases oils with
      | nil => simp at hintervals
      | cons oil oils =>
        rw [map_cons, map_cons, List.cons.injEq] at hintervals
        have hb := hok b mem_cons_self
        rw [map_cons, isValidKey, Bool.and_eq_true, ← hintervals.1,
          any_within_iff hb.direction hb.oriented,
          ih (forall_mem_cons.mp hok).2 hintervals.2 (by simpa using hlength)]
        constructor
        · rintro ⟨hv, hrest⟩
          exact .cons hv hrest
        · intro h
          cases h with
          | cons hv hrest => exact ⟨hv, hrest⟩

theorem not_isValidKey_of_empty {directions : List ℤ} (h : checkedFields oils directions = none)
    (hlength : values.length = oils.length) : isValidKey oils directions values = false := by
  induction oils generalizing directions values with
  | nil => simp [checkedFields] at h
  | cons oil oils ih =>
    cases directions with
    | nil => simp [checkedFields] at h
    | cons d directions =>
      cases values with
      | nil => simp at hlength
      | cons v values =>
        rw [checkedFields] at h
        rw [isValidKey]
        split_ifs at h with hpos
        · rw [ih (Option.map_eq_none_iff.mp h) (by simpa using hlength), Bool.and_false]
        · have hnil : oil.intervals = [] := length_eq_zero_iff.mp (by omega)
          have hnone : findIntervalForField v oil.intervals d = none := by
            unfold findIntervalForField
            rw [dif_neg (by simp [hnil])]
          rw [hnone]
          rfl

theorem fieldsValidFor_length {direction : ℤ}
    (h : fieldsValidFor direction oils keyPattern = true) :
    oils.length = keyPattern.length := by
  induction oils generalizing keyPattern with
  | nil =>
    cases keyPattern with
    | nil => rfl
    | cons e rest => simp [fieldsValidFor] at h
  | cons oil oils ih =>
    cases keyPattern with
    | nil => simp [fieldsValidFor] at h
    | cons e rest =>
      rw [fieldsValidFor, Bool.and_eq_true] at h
      simp [ih h.2]

theorem mem_inScanOrder : e ∈ inScanOrder isForward contents ↔ e ∈ contents := by
  cases isForward
  · exact mem_reverse
  · exact Iff.rfl

/-- What a scan starts with: fields at their first intervals, in directions the index agrees on. -/
structure ScanSetup (order : KeyOrdering) (isForward : Bool) (contents : List IndexEntry)
    (fields : List CheckedField) : Prop where
  nonempty : fields ≠ []
  ok : ∀ f ∈ fields, f.bounds.Ok
  agrees : AgreesFrom order isForward 0 (fields.map CheckedField.bounds)
  sorted : contents.Pairwise fun a b => woCompare a.key.obj b.key.obj order false ≤ 0
  complete : ∀ e ∈ contents, e.key.obj.length = fields.length

namespace ScanSetup
variable {fields : List CheckedField} (h : ScanSetup order isForward contents fields)
include h

theorem directions : ∀ b ∈ boundsOf fields, b.2 = 1 ∨ b.2 = -1 := by
  exact forall_mem_map.mpr fun f hf => (h.ok f hf).direction

theorem values_length (he : e ∈ contents) : (boundsOf fields).length = e.values.length := by
  rw [IndexEntry.values, length_map, length_map, h.complete e he]

theorem pairwise_lexLe : (inScanOrder isForward contents).Pairwise fun a b =>
    LexLe (keyRank (boundsOf fields) a.values) (keyRank (boundsOf fields) b.values) := by
  have hpairs := h.sorted.imp_of_mem fun {a b} ha hb hle =>
    lexLe_of_woCompareFrom h.directions h.agrees (by simp [h.complete a ha])
      (by simp [h.complete b hb]) hle
  cases isForward
  · exact pairwise_reverse.mpr hpairs
  · exact hpairs

theorem seekPasses_iff {seekPoint : IndexSeekPoint} {cut : List BSONValue}
    (hseek : SeeksTo (boundsOf fields).length seekPoint cut after)
    (he : e ∈ contents) :
    seekPasses order isForward (queryOf isForward cut after) e = true ↔
      Before (keyRank (boundsOf fields) cut) after (keyRank (boundsOf fields) e.values) := by
  have hlength := h.values_length he
  have hquery := compareToQuery_iff h.directions h.agrees hlength hseek.marked
    (fun hafter => hlength ▸ hseek.whole hafter) (hlength ▸ hseek.fits)
  rw [← hquery]
  cases isForward
  · exact decide_eq_true_iff
  · exact decide_eq_true_iff

theorem isCut {seekPoint : IndexSeekPoint} {cut : List BSONValue}
    (hseek : SeeksTo (boundsOf fields).length seekPoint cut after) :
    IsCut (fun a b : IndexEntry => LexLe (keyRank (boundsOf fields) a.values)
        (keyRank (boundsOf fields) b.values)) (inScanOrder isForward contents)
      (seekPasses order isForward (queryOf isForward cut after)) := by
  intro a ha b hb hle hpassed
  rw [mem_inScanOrder] at ha hb
  rw [h.seekPasses_iff hseek hb] at hpassed
  rw [h.seekPasses_iff hseek ha]
  exact hpassed.of_le hle

/-- At every entry the scan does the right thing, whichever intervals are current. -/
theorem checkEntry_right {wanted : IndexEntry → Bool}
    (hwanted : ∀ e ∈ contents, wanted e = true ↔ ValidKey (boundsOf fields) e.values)
    {current : List CheckedField}
    (hcurrent : boundsOf current = boundsOf fields)
    (he : e ∈ inScanOrder isForward contents) :
    ∃ v, checkEntry order isForward current e = some v ∧
      Right (fun a b : IndexEntry => LexLe (keyRank (boundsOf fields) a.values)
          (keyRank (boundsOf fields) b.values)) wanted
        (inScanOrder isForward contents)
        (fun s => boundsOf s = boundsOf fields) e v := by
  have hmem := mem_inScanOrder.mp he
  have hcount : current.length = fields.length := by simpa using congrArg List.length hcurrent
  have hnot : ∀ a ∈ contents, ¬ValidKey (boundsOf fields) a.values →
      wanted a = false := fun a ha hinvalid => by
    rw [← Bool.not_eq_true, hwanted a ha]
    exact hinvalid
  have hne : current ≠ [] := fun hnil =>
    h.nonempty (length_eq_zero_iff.mp (by rw [← hcount, hnil]; rfl))
  obtain ⟨state, next, hcheck, hsame, hchecked⟩ := checkKey_spec hne
    ((h.complete e hmem).trans hcount.symm) (ok_of_bounds_eq h.ok hcurrent)
  rw [hcurrent] at hsame hchecked
  cases hchecked with
  | valid hvalid =>
    refine ⟨.emit next, by rw [checkEntry, hcheck], hsame, ?_⟩
    exact (hwanted e hmem).mpr hvalid
  | @mustAdvance seekPoint cut after hseek hpasses =>
    have hentry : checkEntry order isForward current e =
        some (.skip next (seekPasses order isForward (queryOf isForward cut after))) := by
      rw [checkEntry, hcheck]
      dsimp only
      rw [hseek.query, Option.map_some]
    refine ⟨_, hentry, hsame, h.isCut hseek, (h.seekPasses_iff hseek hmem).mpr hpasses.current, ?_⟩
    intro a ha hle hpassed
    rw [mem_inScanOrder] at ha
    exact hnot a ha (hpasses.others _ hle ((h.seekPasses_iff hseek ha).mp hpassed))
  | done hfinished =>
    refine ⟨.stop, by rw [checkEntry, hcheck], fun a ha hle => ?_⟩
    exact hnot a (mem_inScanOrder.mp ha) (hfinished _ hle)

end ScanSetup

/-- Where checkers and the index agree on the directions, a scan emits the keys within bounds. -/
theorem indexScan_eq_filter (hne : keyPattern ≠ []) (hmake : make keyPattern = some order)
    (hnan : ∀ e ∈ keyPattern, isNaNField e = false)
    (hvalid : bounds.isValidFor keyPattern (if isForward then 1 else -1) = true)
    (hcontents : SortedContents keyPattern order contents) {steps : ℕ}
    (hsteps : contents.length < steps) :
    indexScan keyPattern bounds order isForward contents steps =
      some ((inScanOrder isForward contents).filter fun e => isValidKey bounds.fields
        (expectedDirections keyPattern (if isForward then 1 else -1)) e.values) := by
  have hlength := fieldsValidFor_length hvalid
  have hdirection : (if isForward then (1 : ℤ) else -1) = 1 ∨
      (if isForward then (1 : ℤ) else -1) = -1 := by
    cases isForward
    · exact Or.inr rfl
    · exact Or.inl rfl
  rw [indexScan]
  set directions := expectedDirections keyPattern (if isForward then 1 else -1)
  cases hfields : checkedFields bounds.fields directions with
  | none =>
    have hnone : ∀ e ∈ inScanOrder isForward contents,
        ¬isValidKey bounds.fields directions e.values = true := by
      intro e he
      have hvalues : e.values.length = bounds.fields.length := by
        rw [IndexEntry.values, length_map, hcontents.complete e (mem_inScanOrder.mp he), hlength]
      rw [not_isValidKey_of_empty hfields hvalues]
      simp
    rw [filter_eq_nil_iff.mpr hnone]
  | some fields =>
    obtain ⟨hok, hdirections, hintervals⟩ := checkedFields_spec hvalid hdirection hfields
    have hcount : fields.length = keyPattern.length := by
      have hmap := congrArg List.length hdirections
      simpa [directions, expectedDirections] using hmap
    have hsetup : ScanSetup order isForward contents fields := by
      constructor
      · intro hnil
        rw [hnil] at hcount
        exact hne (length_eq_zero_iff.mp hcount.symm)
      · exact fun f hf => (hok f hf).1
      · exact agreesFrom_of_bitsFrom hnan (bitsFrom_of_make hmake) hdirections
      · exact hcontents.sorted
      · exact fun e he => (hcontents.complete e he).trans hcount.symm
    have hwanted : ∀ e ∈ contents, isValidKey bounds.fields directions e.values = true ↔
        ValidKey (boundsOf fields) e.values := by
      intro e he
      rw [show directions = _ from hdirections.symm]
      exact isValidKey_iff (forall_mem_map.mpr hsetup.ok) hintervals (hsetup.values_length he).symm
    have hseek : SeeksTo (boundsOf fields).length (getStartSeekPoint fields)
        (startsCut fields).1 (startsCut fields).2 :=
      seeksTo_starts (Nat.zero_le _) (length_map _).symm (Nat.zero_le _)
    dsimp only
    rw [hseek.query]
    dsimp only
    set passes := seekPasses order isForward
      (queryOf isForward (startsCut fields).1 (startsCut fields).2) with hpasses
    have hpassed : ∀ a ∈ inScanOrder isForward contents, passes a = true →
        isValidKey bounds.fields directions a.values = false := by
      intro a ha hpass
      rw [mem_inScanOrder] at ha
      rw [hpasses, hsetup.seekPasses_iff hseek ha] at hpass
      rw [← Bool.not_eq_true, hwanted a ha]
      exact not_validKey_of_before_starts hsetup.ok (fun f hf => (hok f hf).2) hpass
    have hplace : inScanOrder isForward contents =
        (inScanOrder isForward contents).takeWhile passes ++
          (inScanOrder isForward contents).dropWhile passes := takeWhile_append_dropWhile.symm
    have hshort := (length_dropWhile_le passes (inScanOrder isForward contents)).trans_lt
      (show (inScanOrder isForward contents).length < steps by
        cases isForward
        · simpa [inScanOrder] using hsteps
        · exact hsteps)
    have hscan := scan_eq_filter hsetup.pairwise_lexLe (fun a _ => LexLe.refl _)
      (fun s hs e he => hsetup.checkEntry_right hwanted hs he) hplace rfl hshort
    rw [filter_dropWhile hpassed] at hscan
    exact hscan

end Exact

section NotANumber
variable {order : KeyOrdering} {keyPattern : BSONObj}

variable (e : CString × BSONValue)

/-- From five down to three for a field that is not a number, and zero for the others. -/
def nanInterval : Interval :=
  if isNaNField e then ⟨.number (.numberInt 5), true, .number (.numberInt 3), true⟩
  else ⟨.number (.numberInt 0), true, .number (.numberInt 0), true⟩

def nanBounds (keyPattern : BSONObj) : IndexBounds :=
  ⟨keyPattern.map fun e => ⟨e.1, [nanInterval e]⟩⟩

/-- A value for the fields that are not numbers, and zero for the others. -/
def nanValues (v : BSONValue) (keyPattern : BSONObj) : List BSONValue :=
  keyPattern.map fun e => if isNaNField e then v else .number (.numberInt 0)

/-- Three and five, in the order of an index that takes such fields as ascending. -/
def nanContents (keyPattern : BSONObj) : List IndexEntry :=
  [⟨.ofValues (nanValues (.number (.numberInt 3)) keyPattern), ⟨1⟩⟩,
    ⟨.ofValues (nanValues (.number (.numberInt 5)) keyPattern), ⟨2⟩⟩]

abbrev nanStart : BSONValue := .number (.numberInt 5)

abbrev nanEnd : BSONValue := .number (.numberInt 3)

theorem indexDirection_nan {e : CString × BSONValue} (h : isNaNField e = true) :
    indexDirection e.2 = -1 := by
  have hnan : isNaN e.2.numberDouble = true := h
  have hle : ¬le 0 e.2.numberDouble = true := by simp [le, hnan]
  exact if_neg hle

theorem lt_nan {e : CString × BSONValue} (h : isNaNField e = true) :
    lt e.2.numberDouble 0 = false := by
  have hnan : isNaN e.2.numberDouble = true := h
  simp [lt, hnan]

theorem nanInterval_valid (name : CString) :
    (⟨name, [nanInterval e]⟩ : OrderedIntervalList).isValidFor (1 * indexDirection e.2) = true := by
  unfold nanInterval
  split_ifs with h
  · rw [indexDirection_nan h]
    simp only [isValidFor]
    decide +kernel
  · simp only [isValidFor]
    rcases indexDirection_eq e.2 with hd | hd
    · rw [hd]
      decide +kernel
    · rw [hd]
      decide +kernel

theorem nanInterval_holds {v : BSONValue} (hv : v = nanEnd ∨ v = nanStart) :
    intervalCmp (nanInterval e) (if isNaNField e then v else .number (.numberInt 0))
      (indexDirection e.2 * 1) = .within := by
  unfold nanInterval
  split_ifs with h
  · rw [indexDirection_nan h]
    rcases hv with rfl | rfl <;> decide +kernel
  · rcases indexDirection_eq e.2 with hd | hd <;> rw [hd] <;> decide +kernel

theorem nanBounds_valid (keyPattern : BSONObj) :
    (nanBounds keyPattern).isValidFor keyPattern 1 = true := by
  unfold IndexBounds.isValidFor nanBounds
  induction keyPattern with
  | nil => rfl
  | cons e rest ih =>
    simp only [map_cons, fieldsValidFor, nanInterval_valid, decide_true,
      Bool.and_true, Bool.true_and]
    exact ih

theorem nanValues_compare (hbits : BitsFrom order n keyPattern) :
    woCompareFrom order false (1#32 <<< n) (ofValues (nanValues nanEnd keyPattern)).obj
        (ofValues (nanValues nanStart keyPattern)).obj =
      if keyPattern.any isNaNField then -1 else 0 := by
  induction keyPattern generalizing n with
  | nil => rfl
  | cons e rest ih =>
    obtain ⟨hbit, hn, hbits⟩ := hbits
    have hrest := ih hbits
    simp only [ofValues, nanValues, map_cons, woCompareFrom, shift_one_succ, any_cons] at hrest ⊢
    by_cases he : isNaNField e = true
    · have hmask : ¬order.bits &&& 1#32 <<< n ≠ 0 := by
        rw [and_shift_ne_zero_iff _ hn, hbit, lt_nan he]
        simp
      have hcmp : woCompareElement false (empty, nanEnd) (empty, nanStart) = -1 := by
        decide +kernel
      simp only [he, if_true, if_neg hmask, hcmp, Bool.true_or]
      exact if_pos (by decide)
    · have hcmp : woCompareElement false (empty, .number (.numberInt 0))
          (empty, .number (.numberInt 0)) = 0 := by decide +kernel
      simp only [he, Bool.false_eq_true, if_false, hcmp, neg_zero, ite_self, ne_eq, not_true]
      exact hrest

theorem nanContents_sorted (hbits : BitsFrom order 0 keyPattern) :
    SortedContents keyPattern order (nanContents keyPattern) := by
  constructor
  · refine pairwise_pair.mpr ((nanValues_compare hbits).trans_le ?_)
    split_ifs <;> decide
  · simp [nanContents, ofValues, nanValues]

def nanFields (keyPattern : BSONObj) : List CheckedField :=
  keyPattern.map fun e => ⟨[nanInterval e], indexDirection e.2 * 1, ⟨0, by simp⟩⟩

theorem checkedFields_nan (keyPattern : BSONObj) :
    checkedFields (nanBounds keyPattern).fields (expectedDirections keyPattern 1) =
      some (nanFields keyPattern) := by
  unfold nanBounds
  induction keyPattern with
  | nil => rfl
  | cons e rest ih =>
    simp only [expectedDirections, map_cons, checkedFields, length_singleton, zero_lt_one, dif_pos]
    have hrest : checkedFields (rest.map fun e => ⟨e.1, [nanInterval e]⟩)
        (rest.map fun e => indexDirection e.2 * 1) = some (nanFields rest) := ih
    rw [hrest]
    rfl

theorem startsCut_nan (keyPattern : BSONObj) :
    startsCut (nanFields keyPattern) = (nanValues nanStart keyPattern, false) := by
  induction keyPattern with
  | nil => rfl
  | cons e rest ih =>
    have hcurrent : ∀ field ∈ nanFields [e], field.current = nanInterval e := by
      intro field hfield
      rw [mem_singleton.mp hfield]
      rfl
    have hinclusive : (nanInterval e).startInclusive = true := by
      unfold nanInterval
      split_ifs <;> rfl
    have hstart : (nanInterval e).start =
        if isNaNField e then nanStart else .number (.numberInt 0) := by
      unfold nanInterval
      split_ifs <;> rfl
    have hrest : startsCut (rest.map fun e => ⟨[nanInterval e], indexDirection e.2 * 1,
        ⟨0, by simp⟩⟩) = _ := ih
    rw [nanFields, map_cons, startsCut, hcurrent _ mem_cons_self, if_pos hinclusive, hrest, hstart]
    rfl

theorem inCurrent_nan (keyPattern : BSONObj) {v : BSONValue} (hv : v = nanEnd ∨ v = nanStart) :
    InCurrent (nanFields keyPattern) (nanValues v keyPattern) := by
  rw [InCurrent, nanFields, nanValues, forall₂_map_left_iff, forall₂_map_right_iff]
  exact forall₂_same.mpr fun e _ => nanInterval_holds e hv

theorem findLeftmostProblem_none {fields : List CheckedField}
    (h : InCurrent fields values) : findLeftmostProblem fields values = none := by
  induction h with
  | nil => rfl
  | cons hv _ ih =>
    rw [findLeftmostProblem, hv, ih]
    rfl

/-- Without a marked field, keys are compared as by `woCompare`. -/
theorem compareToQuery_eq (order : KeyOrdering) (mask : BitVec 32) {cut values : List BSONValue}
    (h : values.length = cut.length) :
    compareToQuery order mask values (queryOf true cut false) =
      woCompareFrom order false mask (ofValues values).obj (ofValues cut).obj := by
  induction cut generalizing values mask with
  | nil =>
    obtain rfl := length_eq_zero_iff.mp h
    rfl
  | cons c cut ih =>
    cases values with
    | nil => simp at h
    | cons v values =>
      have hrest := ih (mask <<< 1) (Nat.succ.inj h)
      have hcompare : woCompareElement false (empty, v) (empty, c) = compareValues v c := rfl
      rw [queryOf_cons true c cut false (Or.inr rfl), compareToQuery, hrest]
      simp only [ofValues, map_cons, woCompareFrom, hcompare]
      by_cases hcmp : compareValues v c = 0 <;> by_cases hmask : order.bits &&& mask = 0#32 <;>
        simp [hcmp, hmask]

theorem compareToQuery_self (order : KeyOrdering) (mask : BitVec 32) (values : List BSONValue) :
    compareToQuery order mask values (queryOf true values false) = 0 := by
  induction values generalizing mask with
  | nil => rfl
  | cons v values ih =>
    have hself : compareValues v v = 0 := compareValues_eq_iff.mpr rfl
    rw [queryOf_cons true v values false (Or.inr rfl), compareToQuery]
    simp [hself, ih]

/-- With a field that is not a number, the scan starts after the first of two keys within the
bounds. -/
theorem indexScan_nan (hbits : BitsFrom order 0 keyPattern)
    (hnan : keyPattern.any isNaNField = true) :
    indexScan keyPattern (nanBounds keyPattern) order true (nanContents keyPattern) 3 =
      some [⟨.ofValues (nanValues nanStart keyPattern), ⟨2⟩⟩] := by
  have hne : nanFields keyPattern ≠ [] := by
    obtain ⟨e, he, -⟩ := any_eq_true.mp hnan
    simpa [nanFields] using ne_nil_of_mem he
  have hseek : SeeksTo (nanFields keyPattern).length (getStartSeekPoint (nanFields keyPattern))
      (startsCut (nanFields keyPattern)).1 (startsCut (nanFields keyPattern)).2 :=
    seeksTo_starts (Nat.zero_le _) rfl (Nat.zero_le _)
  have hvalues : ∀ v, ((ofValues (nanValues v keyPattern)).obj.map Prod.snd) =
      nanValues v keyPattern := by
    intro v
    simp [ofValues, Function.comp_def]
  have hpassed : seekPasses order true (queryOf true (nanValues nanStart keyPattern) false)
      ⟨.ofValues (nanValues nanEnd keyPattern), ⟨1⟩⟩ = true := by
    have hcompare := nanValues_compare hbits
    rw [if_pos hnan, ← compareToQuery_eq order _ (by simp [nanValues])] at hcompare
    simpa [seekPasses, hvalues] using hcompare.trans_lt (by decide)
  have hfound : ¬seekPasses order true (queryOf true (nanValues nanStart keyPattern) false)
      ⟨.ofValues (nanValues nanStart keyPattern), ⟨2⟩⟩ = true := by
    simp only [seekPasses, if_true, hvalues, compareToQuery_self]
    decide
  have hcheck : checkKey (nanFields keyPattern) (ofValues (nanValues nanStart keyPattern)).obj =
      some (.valid, nanFields keyPattern) := by
    have hassert : ¬((nanFields keyPattern).length = 0 ∨
        (nanValues nanStart keyPattern).length ≠ (nanFields keyPattern).length) := by
      simp only [length_eq_zero_iff, hne, false_or, not_not]
      simp [nanValues, nanFields]
    simp only [checkKey, hvalues, if_neg hassert,
      findLeftmostProblem_none (inCurrent_nan keyPattern (Or.inr rfl))]
    rfl
  rw [indexScan]
  simp only [if_true, checkedFields_nan, hseek.query, startsCut_nan, nanContents]
  rw [dropWhile_cons_of_pos hpassed, dropWhile_cons_of_neg hfound, scan, checkEntry, hcheck]
  rfl

/-- Every scan of every index with a key pattern emits the keys within the bounds, once and in
order, if and only if no field of the pattern is not a number. -/
theorem indexScan_exact_iff (hne : keyPattern ≠ []) (hmake : make keyPattern = some order) :
    (∀ isForward bounds contents,
      bounds.isValidFor keyPattern (if isForward then 1 else -1) = true →
      SortedContents keyPattern order contents → ∀ steps, contents.length < steps →
      indexScan keyPattern bounds order isForward contents steps =
        some ((inScanOrder isForward contents).filter fun e => isValidKey bounds.fields
          (expectedDirections keyPattern (if isForward then 1 else -1)) e.values)) ↔
      ∀ e ∈ keyPattern, isNaNField e = false := by
  constructor
  · intro hexact
    by_contra hnan
    have hnan : keyPattern.any isNaNField = true := by simpa using hnan
    have hbits := bitsFrom_of_make hmake
    have hscan := hexact true (nanBounds keyPattern) (nanContents keyPattern)
      (nanBounds_valid keyPattern) (nanContents_sorted hbits) 3 (show 2 < 3 by decide)
    rw [indexScan_nan hbits hnan] at hscan
    obtain ⟨hok, hdirections, hintervals⟩ := checkedFields_spec (nanBounds_valid keyPattern)
      (Or.inl rfl) (checkedFields_nan keyPattern)
    have hthree : isValidKey (nanBounds keyPattern).fields (expectedDirections keyPattern 1)
        (nanValues nanEnd keyPattern) = true := by
      rw [← hdirections]
      exact (isValidKey_iff (forall_mem_map.mpr fun f hf => (hok f hf).1) hintervals
        (by simp [nanValues, nanFields])).mpr (inCurrent_nan keyPattern (Or.inl rfl)).validKey
    have hmem : (⟨.ofValues (nanValues nanEnd keyPattern), ⟨1⟩⟩ : IndexEntry) ∈
        (inScanOrder true (nanContents keyPattern)).filter fun e => isValidKey
          (nanBounds keyPattern).fields (expectedDirections keyPattern 1) e.values := by
      refine mem_filter.mpr ⟨mem_cons_self, ?_⟩
      have hvalues : (IndexEntry.values ⟨.ofValues (nanValues nanEnd keyPattern), ⟨1⟩⟩) =
          nanValues nanEnd keyPattern := by
        simp [IndexEntry.values, ofValues, Function.comp_def]
      rw [hvalues]
      exact hthree
    have heq := Option.some.inj hscan
    simp only [if_true] at heq
    rw [← heq, mem_singleton] at hmem
    have hloc : (⟨1⟩ : RecordId) = ⟨2⟩ := congrArg IndexEntry.loc hmem
    exact absurd hloc (by decide)
  · intro hnan isForward bounds contents hvalid hcontents steps hsteps
    exact indexScan_eq_filter hne hmake hnan hvalid hcontents hsteps

def mixedPattern : BSONObj :=
  [(⟨[0x61], CString.nul_notMem_a⟩, .number (.numberInt 1)), (⟨[0x62], CString.nul_notMem_b⟩, .number (.numberInt (-1)))]

theorem indexScan_exact_mixedPattern : mixedPattern ≠ [] ∧ make mixedPattern = some ⟨2⟩ ∧
    ∀ isForward bounds contents,
      bounds.isValidFor mixedPattern (if isForward then 1 else -1) = true →
      SortedContents mixedPattern ⟨2⟩ contents → ∀ steps, contents.length < steps →
      indexScan mixedPattern bounds ⟨2⟩ isForward contents steps =
        some ((inScanOrder isForward contents).filter fun e => isValidKey bounds.fields
          (expectedDirections mixedPattern (if isForward then 1 else -1)) e.values) :=
  ⟨cons_ne_nil _ _, by decide +kernel,
    (indexScan_exact_iff (cons_ne_nil _ _) (by decide +kernel)).mpr (by decide +kernel)⟩

def nanPattern : BSONObj := [(⟨[0x61], CString.nul_notMem_a⟩, .number (.numberDouble 0x7ff8000000000000#64))]

def fiveToThree : IndexBounds :=
  ⟨[⟨⟨[0x61], CString.nul_notMem_a⟩, [⟨.number (.numberInt 5), true, .number (.numberInt 3), true⟩]⟩]⟩

/-- Of the keys three and five, in the order of the index and both within bounds that are valid
for the pattern, only five is emitted. -/
theorem scan_misses_key_of_nan_pattern :
    make nanPattern = some ⟨0⟩ ∧ fiveToThree.isValidFor nanPattern 1 = true ∧
    woCompare (ofValues [.number (.numberInt 3)]).obj
      (ofValues [.number (.numberInt 5)]).obj ⟨0⟩ false ≤ 0 ∧
    isValidKey fiveToThree.fields (expectedDirections nanPattern 1) [.number (.numberInt 3)] =
      true ∧
    (indexScan nanPattern fiveToThree ⟨0⟩ true [⟨.ofValues [.number (.numberInt 3)], ⟨1⟩⟩,
      ⟨.ofValues [.number (.numberInt 5)], ⟨2⟩⟩] 3).map (List.map IndexEntry.loc) =
      some [⟨2⟩] := by
  decide +kernel

end NotANumber
end MongoServer
