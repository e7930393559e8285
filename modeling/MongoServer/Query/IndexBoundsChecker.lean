import MongoServer.Bson.PatternOrder
import MongoServer.KeyString.Bounds
import MongoServer.Query.IndexBounds
import MongoServer.Ranges.SkipScan

/-!
Scanning an index within bounds. A checker keeps, for each field, the interval it takes the
current key to be in. That choice may be stale; from the key it finds out whether the key is
within the bounds, where to go on, or that nothing follows.
-/
namespace MongoServer
open KeyString SkipScan

section Directions

/-- The direction of a field, as checkers of bounds see it. -/
def indexDirection (v : BSONValue) : ℤ := if Binary64.le 0 v.numberDouble then 1 else -1

def IndexBounds.fieldsValidFor (direction : ℤ) : List OrderedIntervalList → BSONObj → Bool
  | [], [] => true
  | field :: fields, elt :: pattern =>
      field.name = elt.1 && field.isValidFor (direction * indexDirection elt.2) &&
        fieldsValidFor direction fields pattern
  | _, _ => false

def IndexBounds.isValidFor (bounds : IndexBounds) (keyPattern : BSONObj) (direction : ℤ) : Bool :=
  IndexBounds.fieldsValidFor direction bounds.fields keyPattern

/-- The directions of the fields from the `n`-th on. -/
def KeyOrdering.makeFrom : ℕ → BitVec 32 → BSONObj → Option KeyOrdering
  | _, b, [] => some ⟨b⟩
  | n, b, e :: rest =>
      if 31 < n then none
      else makeFrom (n + 1) (if Binary64.lt e.2.numberDouble 0 then b ||| (1#32 <<< n) else b) rest

/-- `Ordering::make`; `none` for too many compound keys. -/
def KeyOrdering.make (keyPattern : BSONObj) : Option KeyOrdering := makeFrom 0 0 keyPattern

end Directions

namespace IndexBoundsChecker

inductive Location where
  | behind
  | within
  | ahead
  deriving DecidableEq

def intervalCmp (interval : Interval) (key : BSONValue) (expectedDirection : ℤ) : Location :=
  let cmp := (compareValues key interval.start).sign
  if ¬(cmp = expectedDirection ∨ cmp = 0 ∧ interval.startInclusive = true) then .behind
  else
    let cmp := (compareValues key interval.stop).sign
    if ¬(cmp = -expectedDirection ∨ cmp = 0 ∧ interval.stopInclusive = true) then .ahead
    else .within

/-- The first interval that a value is not ahead of, and whether it is within or behind it. A value
ahead of all has none. -/
def findIntervalForField (elt : BSONValue) (intervals : List Interval) (expectedDirection : ℤ) :
    Option (Location × Fin intervals.length) :=
  let i := intervals.findIdx fun interval =>
    intervalCmp interval elt expectedDirection ≠ .ahead
  if h : i < intervals.length then
    some (intervalCmp (intervals.get ⟨i, h⟩) elt expectedDirection, ⟨i, h⟩)
  else none

def expectedDirections (keyPattern : BSONObj) (scanDirection : ℤ) : List ℤ :=
  keyPattern.map fun e => indexDirection e.2 * scanDirection

def isValidKey : List OrderedIntervalList → List ℤ → List BSONValue → Bool
  | _, _, [] => true
  | oil :: fields, direction :: directions, elt :: key =>
      (findIntervalForField elt oil.intervals direction).any (fun p => p.1 = .within) &&
        isValidKey fields directions key
  | _, _, _ => false

/-- A field of the bounds with its direction and the interval the current key is taken to be in. -/
structure CheckedField where
  intervals : List Interval
  expectedDirection : ℤ
  curInterval : Fin intervals.length

namespace CheckedField
variable (field : CheckedField)

def current : Interval := field.intervals.get field.curInterval

def moveTo (i : Fin field.intervals.length) : CheckedField := { field with curInterval := i }

def reset : CheckedField := field.moveTo ⟨0, Fin.pos field.curInterval⟩

end CheckedField

/-- The fields of a new checker. A field without interval means that no entry can match. -/
def checkedFields : List OrderedIntervalList → List ℤ → Option (List CheckedField)
  | oil :: fields, direction :: directions =>
      if h : 0 < oil.intervals.length then
        (checkedFields fields directions).map (⟨oil.intervals, direction, ⟨0, h⟩⟩ :: ·)
      else none
  | _, _ => some []

/-- The seek point with some fields of a key and the starts of the current intervals after them;
what is before `prefixLen` is not read. -/
def seekToStarts (key : BSONObj) (prefixLen : ℕ) (fields : List CheckedField) : IndexSeekPoint :=
  ⟨key, prefixLen, false, fields.map fun field => field.current.start,
    fields.map fun field => field.current.startInclusive⟩

/-- The seek point after all keys that share some fields with a key. -/
def seekPastPrefix (key : BSONObj) (prefixLen : ℕ) : IndexSeekPoint :=
  ⟨key, prefixLen, true, [], []⟩

def getStartSeekPoint (fields : List CheckedField) : IndexSeekPoint := seekToStarts [] 0 fields

def findLeftmostProblem : List CheckedField → List BSONValue → Option (ℕ × Location)
  | field :: fields, elt :: keyValues =>
      match intervalCmp field.current elt field.expectedDirection with
      | .within => (findLeftmostProblem fields keyValues).map fun p => (p.1 + 1, p.2)
      | cmp => some (0, cmp)
  | _, _ => none

/-- Some of the fields is not at the end of its bounds. -/
def spaceLeftToAdvance : List CheckedField → List BSONValue → Bool
  | field :: fields, elt :: keyValues =>
      field.curInterval.val ≠ field.intervals.length - 1 ||
      !field.current.stopInclusive ||
      (-field.expectedDirection = (compareValues elt field.current.stop).sign : Bool) ||
      spaceLeftToAdvance fields keyValues
  | _, _ => false

inductive KeyState where
  | valid
  | mustAdvance (seekPoint : IndexSeekPoint)
  | done

def resetFrom (i : ℕ) (fields : List CheckedField) : List CheckedField :=
  fields.take i ++ (fields.drop i).map CheckedField.reset

/-- The loop that looks for intervals from a field on. The fields before it are placed. -/
def placeFields (key : BSONObj) (placed : List CheckedField) :
    List CheckedField → List BSONValue → KeyState × List CheckedField
  | field :: fields, elt :: keyValues =>
      match findIntervalForField elt field.intervals field.expectedDirection with
      | some (.within, i) => placeFields key (placed ++ [field.moveTo i]) fields keyValues
      | some (_, i) =>
          let moved := placed ++ field.moveTo i :: fields.map CheckedField.reset
          (.mustAdvance (seekToStarts key placed.length moved), moved)
      | none =>
          if spaceLeftToAdvance placed (key.map Prod.snd) then
            (.mustAdvance (seekPastPrefix key placed.length),
              placed ++ (field :: fields).map CheckedField.reset)
          else (.done, placed ++ field :: fields)
  | _, _ => (.valid, placed)

/-- From the leftmost problem on, after intervals that may be wrong were started over. -/
def resolveProblem (key : BSONObj) (fields : List CheckedField) :
    Option (ℕ × Location) → KeyState × List CheckedField
  | none => (.valid, fields)
  | some (i, .behind) => (.mustAdvance (seekToStarts key i fields), fields)
  | some (i, _) => placeFields key (fields.take i) (fields.drop i) ((key.map Prod.snd).drop i)

/-- `none` is a failed assertion. -/
def checkKey (fields : List CheckedField) (key : BSONObj) : Option (KeyState × List CheckedField) :=
  let keyValues := key.map Prod.snd
  if fields.length = 0 ∨ keyValues.length ≠ fields.length then none
  else
    match findLeftmostProblem fields keyValues with
    | some (i, .behind) =>
        let fields := resetFrom i fields
        some (resolveProblem key fields (findLeftmostProblem fields keyValues))
    | problem => some (resolveProblem key fields problem)

end IndexBoundsChecker

section Scan
open IndexBoundsChecker

structure IndexEntry where
  key : IndexKey
  loc : RecordId

/-- `IndexEntryComparison::compare` of a stored key with a query, from the field `mask` selects. The
names of a stored key are empty; the name of a query's field says how to compare equal values. -/
def compareToQuery (order : KeyOrdering) : BitVec 32 → List BSONValue → BSONObj → ℤ
  | mask, l :: ls, r :: rs =>
      let cmp := compareValues l r.2
      if cmp ≠ 0 then (if order.bits &&& mask ≠ 0 then -cmp else cmp)
      else if r.1 ≠ CString.empty then
        (if r.1.bytes.head? = some 'l'.toUInt8 then 1 else -1)
      else compareToQuery order (mask <<< 1) ls rs
  | mask, _ :: _, [] => if order.bits &&& mask ≠ 0 then -1 else 1
  | _, [], _ :: _ => -1
  | _, [], [] => 0

/-- Where a seek goes: past the entries that come before the query in the direction of the scan. -/
def seekPasses (order : KeyOrdering) (isForward : Bool) (query : BSONObj) (entry : IndexEntry) :
    Bool :=
  let cmp := compareToQuery order 1 (entry.key.obj.map Prod.snd) query
  if isForward then cmp < 0 else 0 < cmp

/-- Checks a key and turns what the checker asks for into a move of the cursor. -/
def checkEntry (order : KeyOrdering) (isForward : Bool) (fields : List CheckedField)
    (entry : IndexEntry) : Option (Verdict (List CheckedField) IndexEntry) :=
  match checkKey fields entry.key.obj with
  | none => none
  | some (.valid, fields) => some (.emit fields)
  | some (.mustAdvance seekPoint, fields) =>
      (makeQueryObject seekPoint isForward).map fun query =>
        .skip fields (seekPasses order isForward query)
  | some (.done, _) => some .stop

/-- The scan of an index whose contents are given in the order of its key pattern. -/
def indexScan (keyPattern : BSONObj) (bounds : IndexBounds) (order : KeyOrdering) (isForward : Bool)
    (contents : List IndexEntry) (steps : ℕ) : Option (List IndexEntry) :=
  let entries := if isForward then contents else contents.reverse
  let directions := expectedDirections keyPattern (if isForward then 1 else -1)
  match checkedFields bounds.fields directions with
  | none => some []
  | some fields =>
      match makeQueryObject (getStartSeekPoint fields) isForward with
      | none => none
      | some query => scan (checkEntry order isForward) entries steps fields
          (entries.dropWhile (seekPasses order isForward query))

end Scan
end MongoServer
