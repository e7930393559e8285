import MongoServer.KeyString.RecordId
import MongoServer.KeyString.Order

/-!
Key strings with a discriminator. They are never stored: they mark a place between keys,
before or after everything that starts with their own elements.
-/
namespace MongoServer.KeyString
open ByteOrder CString List

def stripFieldNames (query : BSONObj) : BSONObj :=
  if query.any (fun e => !e.1.bytes.isEmpty) then query.map fun e => (empty, e.2) else query

/-- A compound seek point: some fields of a prefix, and a suffix from that position on. -/
structure IndexSeekPoint where
  keyPrefix : BSONObj
  prefixLen : ℕ
  prefixExclusive : Bool
  keySuffix : List BSONValue
  suffixInclusive : List Bool

/-- The name that marks an exclusive field: `g` for forward scans, `l` for reverse ones. -/
def exclusiveFieldName (isForward : Bool) : CString :=
  if isForward then ⟨['g'.toUInt8], by decide⟩ else ⟨['l'.toUInt8], by decide⟩

/-- The suffix up to its first exclusive field. -/
def suffixFields (isForward : Bool) : List BSONValue → List Bool → BSONObj
  | a :: as, inclusive :: rest =>
      if inclusive then (empty, a) :: suffixFields isForward as rest
      else [(exclusiveFieldName isForward, a)]
  | _, _ => []

/-- `none` is a failed invariant. -/
def makeQueryObject (seekPoint : IndexSeekPoint) (isForward : Bool) : Option BSONObj :=
  if seekPoint.keyPrefix.length < seekPoint.prefixLen then none
  else
    let fields := (seekPoint.keyPrefix.take seekPoint.prefixLen).map Prod.snd
    if seekPoint.prefixExclusive then
      match fields.getLast? with
      | none => none
      | some last => some (fields.dropLast.map (fun a => (empty, a)) ++
          [(exclusiveFieldName isForward, last)])
    else if seekPoint.keySuffix.length ≠ seekPoint.suffixInclusive.length then none
    else some (fields.map (fun a => (empty, a)) ++
      suffixFields isForward (seekPoint.keySuffix.drop seekPoint.prefixLen)
        (seekPoint.suffixInclusive.drop seekPoint.prefixLen))

section Bounds
variable (v : Version) (ord : KeyOrdering) (key : IndexKey)

/-- The place right before or right after the keys that start with `values`. -/
def boundBytes (values : BSONObj) (after : Bool) : List UInt8 :=
  (elements v ord 0 values).bytes ++ [if after then kGreater else kLess, kEnd]

def entryBytes (id : RecordId) : List UInt8 :=
  (elements v ord 0 key.obj).bytes ++ kEnd :: idBytes id

theorem stripFieldNames_eq (query : BSONObj) :
    stripFieldNames query = query.map fun e => (empty, e.2) := by
  rw [stripFieldNames]
  split_ifs with hany
  · rfl
  · have hempty : ∀ e ∈ query, e.1 = empty := by
      intro e he
      apply CString.ext
      by_contra hne
      apply hany
      rw [any_eq_true]
      exact ⟨e, he, by simpa [empty] using hne⟩
    conv_lhs => rw [← map_id query]
    apply map_congr_left
    intro e he
    rw [← hempty e he]
    rfl

theorem appendElementsFrom_last (disc : Discriminator) (front : BSONObj)
    (h : ∀ e ∈ front, e.1 = empty) (isForward : Bool) (a : BSONValue) (i : ℕ) :
    appendElementsFrom v ord i (front ++ [(exclusiveFieldName isForward, a)]) disc =
      some (elements v ord i (front ++ [(exclusiveFieldName isForward, a)]),
        if isForward then .kExclusiveAfter else .kExclusiveBefore) := by
  induction front generalizing i with
  | nil =>
    cases isForward <;> rfl
  | cons e front ih =>
    obtain ⟨name, b⟩ := e
    have hname : name = empty := h (name, b) mem_cons_self
    have hrest := ih (forall_mem_cons.mp h).2 (i + 1)
    subst hname
    simp [appendElementsFrom, discriminatorAfter, empty, hrest, elements]

theorem afterString_bound (d : Bool) (i : ℕ) (values : BSONObj) (after : Bool) :
    AfterString d ((elements v ord i values).bytes ++ [if after then kGreater else kLess, kEnd]) := by
  cases values with
  | nil =>
    cases after
    · exact afterString_cons d (c := kLess) (by decide) [kEnd]
    · exact afterString_cons d (c := kGreater) (by decide) [kEnd]
  | cons e rest =>
    simp only [elements, bytes_append, append_assoc]
    exact afterString_value v d (ord.get i == -1) e.2 _

/-- A value is above `kLess` and below `kGreater`, in either direction. -/
theorem value_between (d : Bool) (a : BSONValue) :
    ∃ c r, (appendBsonValue v d a).bytes = c :: r ∧ compare c kLess = .gt ∧
      compare c kGreater = .lt := by
  obtain ⟨c, r, hbytes, hl, hu⟩ := value_first_byte v d a
  exact ⟨c, r, hbytes, (compare_byte_lt (lt_of_lt_of_le (by decide) hl)).2,
    (compare_byte_lt (lt_of_le_of_lt hu (by decide))).1⟩

/-- A key is on the side of a bound that its first fields are on, and on the far side of the
discriminator when they agree. -/
theorem compare_boundFrom (i : ℕ) (obj values : BSONObj) (after : Bool) (s : List UInt8) :
    compare ((elements v ord i obj).bytes ++ kEnd :: s)
        ((elements v ord i values).bytes ++ [if after then kGreater else kLess, kEnd]) =
      (ofSign (woCompareFrom ord false (1#32 <<< i) (obj.take values.length) values)).then
        (if after then .lt else .gt) := by
  induction obj generalizing i values with
  | nil =>
    cases values with
    | nil =>
      cases after <;>
        simp [elements, woCompareFrom, List.compare_cons_cons] <;> rfl
    | cons f values =>
      obtain ⟨c, q, he, hlt⟩ := kEnd_lt_value v (ord.get i == -1) f.2
      simp only [elements, bytes_append, he, woCompareFrom, appendBytes_bytes, flipIf_nil,
        List.nil_append, List.cons_append, List.compare_cons_cons, hlt, List.take_nil]
      rfl
  | cons e rest ih =>
    cases values with
    | nil =>
      obtain ⟨c, q, he, hgt, hlt⟩ := value_between v (ord.get i == -1) e.2
      simp only [elements, bytes_append, he, length_nil, take_zero, woCompareFrom,
        appendBytes_bytes, flipIf_nil, List.nil_append, List.cons_append, List.compare_cons_cons]
      cases after
      · simp [hgt]
      · simp [hlt]
    | cons f values =>
      have hvalue := ordersAs_value v (ord.get i == -1) e.2 f.2 e.1 f.1
      simp only [elements, bytes_append, woCompareFrom, append_assoc, shift_one_succ,
        length_cons, take_succ_cons]
      rw [hvalue _ _ (afterString_elements v ord _ _ rest s) (afterString_bound v ord _ _ values after),
        ih, ofSign_ite, ofSign_direction, Ordering.then_assoc]

theorem compare_bound (id : RecordId) (values : BSONObj) (after : Bool) :
    compare (entryBytes v ord key id) (boundBytes v ord values after) =
      (ofSign (woCompare (key.obj.take values.length) values ord false)).then
        (if after then .lt else .gt) :=
  compare_boundFrom v ord 0 key.obj values after (idBytes id)

theorem compare_entryBytes (a b : IndexKey) {i j : RecordId} (hi : 0 ≤ i.repr.toInt)
    (hj : 0 ≤ j.repr.toInt) :
    compare (entryBytes v ord a i) (entryBytes v ord b j) =
      (ofSign (woCompare a.obj b.obj ord false)).then (compare i.repr.toInt j.repr.toInt) := by
  have hid := ordersAs_bytes (T := fun _ => True) hi hj [] [] trivial trivial
  simp only [append_nil, Std.ReflOrd.compare_self, Ordering.then_eq] at hid
  rw [entryBytes, entryBytes, compare_elements, hid]
  rfl

/-- `resetToKey` with a record id. -/
def resetToKey (obj : BSONObj) (recordId : RecordId) : Option (List UInt8) := do
  let key ← appendAllElementsForIndexing v obj ord .kInclusive
  let loc ← appendRecordId recordId
  pure (key.bytes ++ loc)

theorem resetToKey_eq {id : RecordId} (h : 0 ≤ id.repr.toInt) :
    resetToKey v ord key.obj id = some (entryBytes v ord key id) := by
  simp [resetToKey, appendAllElementsForIndexing_key, appendRecordId_eq h, entryBytes]

/-- Index entries order by their keys and then by their record ids, which are ascending under
every ordering and can be read from the end of the buffer. -/
theorem keyString_recordId_order (a b : IndexKey) {r s : RecordId} (hr : 0 ≤ r.repr.toInt)
    (hs : 0 ≤ s.repr.toInt) :
    ∃ ka kb loc, resetToKey v ord a.obj r = some ka ∧ resetToKey v ord b.obj s = some kb ∧
      (keyStringCompare ka kb).sign = (if woCompare a.obj b.obj ord false ≠ 0 then
        woCompare a.obj b.obj ord false else compareLongs r.repr.toInt s.repr.toInt).sign ∧
      appendRecordId r = some loc ∧ decodeRecordIdAtEnd ka = some r ∧
      ∀ front, decodeRecordIdAtEnd (front ++ loc) = some r := by
  refine ⟨_, _, _, resetToKey_eq v ord a hr, resetToKey_eq v ord b hs, ?_, appendRecordId_eq hr,
    ?_, decodeRecordIdAtEnd_append hr⟩
  · rw [sign_eq_toSign, sign_eq_toSign, ofSign_keyStringCompare, compare_entryBytes v ord a b hr hs,
      ofSign_ite, ofSign_compareLongs]
  · rw [entryBytes, append_cons]
    exact decodeRecordIdAtEnd_append hr _

theorem keyString_recordId_order_zero :
    (resetToKey .V1 ⟨1⟩ (IndexKey.ofValues [.jstNULL]).obj ⟨0⟩).bind decodeRecordIdAtEnd =
      some ⟨0⟩ := by
  obtain ⟨ka, _, _, hka, _, _, _, hdecode, _⟩ :=
    keyString_recordId_order .V1 ⟨1⟩ (.ofValues [.jstNULL]) (.ofValues [.jstNULL]) (r := ⟨0⟩)
      (s := ⟨3⟩) (by decide) (by decide)
  rw [hka]
  exact hdecode

end Bounds
end MongoServer.KeyString
