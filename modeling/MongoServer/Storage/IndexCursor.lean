import MongoServer.KeyString.Bounds
import MongoServer.Storage.WiredTigerIndex

/-!
Standard indexes and their cursors. A cursor keeps the key it returned last; the position
of the underlying table cursor is lost on a save and found again, or found missing, on a
restore. Where `search_near` may answer with either neighbour, the choice is an argument.
-/
namespace MongoServer
open OrderedTable KeyString WiredTigerIndex

namespace WiredTigerIndexStandard
variable (cfg : Config)

def keyString (key : IndexKey) (id : RecordId) : Option (ByteKey × TypeBits) := do
  let data ← appendAllElementsForIndexing cfg.keyStringVersion key.obj cfg.ordering .kInclusive
  let rid ← appendRecordId id
  return (⟨data.bytes ++ rid⟩, TypeBits.reset.appendBits data.bits)

/-- An entry that is already there is left alone. -/
def insert (t : IndexTable) (key : IndexKey) (id : RecordId) : Option IndexTable := do
  let (keyItem, typeBits) ← keyString cfg key id
  let valueItem := if typeBits.isAllZeros then [] else typeBits.getBuffer
  match t.insert keyItem valueItem with
  | some t' => return t'
  | none => return t

def unindex (t : IndexTable) (key : IndexKey) (id : RecordId) : Option IndexTable := do
  let (item, _) ← keyString cfg key id
  match t.remove item with
  | some t' => return t'
  | none => triggerWriteConflictAtPoint t item

end WiredTigerIndexStandard

/-- What a cursor returns; the key is the key string that its document is rebuilt from. -/
structure IndexKeyEntry where
  key : List UInt8
  typeBits : TypeBits
  loc : RecordId

/-- `WiredTigerIndexCursorBase` with the id and type bits of a standard index. -/
structure IndexCursor where
  forward : Bool
  key : List UInt8
  typeBits : TypeBits
  id : RecordId
  eof : Bool
  cursorAtEof : Bool
  lastMoveWasRestore : Bool
  endPosition : Option (List UInt8)
  /-- Where the table's cursor is; a reset loses it. -/
  position : Option ByteKey

namespace IndexCursor
variable (cfg : Config) (t : IndexTable) (c : IndexCursor) (smaller : Bool)

def new (forward : Bool) : IndexCursor where
  forward := forward
  key := []
  typeBits := TypeBits.reset
  id := ⟨0⟩
  eof := true
  cursorAtEof := false
  lastMoveWasRestore := false
  endPosition := none
  position := none

/-- An empty key scans to the end of the index. -/
def setEndPosition (key : BSONObj) (inclusive : Bool) : Option IndexCursor :=
  if key.isEmpty then some { c with endPosition := none }
  else do
    let discriminator := if c.forward = inclusive then Discriminator.kExclusiveAfter
      else .kExclusiveBefore
    let data ← appendAllElementsForIndexing cfg.keyStringVersion (stripFieldNames key)
      cfg.ordering discriminator
    return { c with endPosition := some data.bytes }

def curr : Option IndexKeyEntry :=
  if c.eof then none else some ⟨c.key, c.typeBits, c.id⟩

def atOrPastEndPointAfterSeeking : Bool :=
  if c.eof then true
  else
    match c.endPosition with
    | none => false
    | some endPosition =>
        let cmp := keyStringCompare c.key endPosition
        if c.forward then decide (cmp > 0) else decide (cmp < 0)

def advanceWTCursor : IndexCursor :=
  let next := match c.position with
    | some k => t.adjacent c.forward k
    | none => t.first c.forward
  match next with
  | none => { c with cursorAtEof := true, position := none }
  | some k => { c with cursorAtEof := false, position := some k }

/-- Lands on the query or beyond it, and tells whether on it. -/
def seekWTCursor (query : List UInt8) (c : IndexCursor) : Bool × IndexCursor :=
  match t.searchNear smaller ⟨query⟩ with
  | none => (false, { c with cursorAtEof := true, position := none })
  | some (k, cmp) =>
      let c := { c with cursorAtEof := false, position := some k }
      if cmp = 0 then (true, c)
      else if (if c.forward then decide (cmp < 0) else decide (cmp > 0)) then
        (false, c.advanceWTCursor t)
      else (false, c)

/-- For a standard index the id is at the end of the key and the value is the type bits. -/
def updateIdAndTypeBits : Option IndexCursor := do
  let id ← decodeRecordIdAtEnd c.key
  let item ← c.position
  let value ← t.search item
  let (typeBits, _) ← TypeBits.fromBuffer value
  return { c with id := id, typeBits := typeBits }

/-- `none` is a failed invariant or, on a next that did not move ahead, a write conflict. -/
def updatePosition (inNext : Bool) (c : IndexCursor) : Option IndexCursor :=
  let c := { c with lastMoveWasRestore := false }
  if c.cursorAtEof then some { c with eof := true, id := ⟨0⟩ }
  else do
    let c := { c with eof := false }
    let item ← c.position
    let isForwardNextCall := c.forward && inNext && !c.key.isEmpty
    let cmp := memcmp c.key item.bytes (min c.key.length item.bytes.length)
    let nextNotIncreasing := decide (cmp > 0) ||
      (decide (cmp = 0) && decide (c.key.length > item.bytes.length))
    if isForwardNextCall && nextNotIncreasing then none
    else
      let c := { c with key := item.bytes }
      if c.atOrPastEndPointAfterSeeking then some { c with eof := true }
      else c.updateIdAndTypeBits t

def next : Option (Option IndexKeyEntry × IndexCursor) :=
  if c.eof then some (none, c)
  else do
    let c := if c.lastMoveWasRestore then c else c.advanceWTCursor t
    let c ← c.updatePosition t true
    return (c.curr, c)

/-- A query of `seek`: a key, or a compound seek point. -/
inductive Query where
  | ofKey (key : BSONObj) (inclusive : Bool)
  | ofPoint (seekPoint : IndexSeekPoint)

def Query.keyString (forward : Bool) : Query → Option (List UInt8)
  | .ofKey key inclusive => do
      let discriminator := if forward = inclusive then Discriminator.kExclusiveBefore
        else .kExclusiveAfter
      let data ← appendAllElementsForIndexing cfg.keyStringVersion (stripFieldNames key)
        cfg.ordering discriminator
      return data.bytes
  | .ofPoint seekPoint => do
      let key ← makeQueryObject seekPoint forward
      let discriminator := if forward then Discriminator.kExclusiveBefore else .kExclusiveAfter
      let data ← appendAllElementsForIndexing cfg.keyStringVersion key cfg.ordering discriminator
      return data.bytes

def seek (query : Query) (c : IndexCursor) : Option (Option IndexKeyEntry × IndexCursor) := do
  let bytes ← query.keyString cfg c.forward
  let (_, c) := c.seekWTCursor t smaller bytes
  let c ← c.updatePosition t false
  return (c.curr, c)

def save : IndexCursor := { c with position := none }

def restore (c : IndexCursor) : IndexCursor :=
  if c.eof then c
  else
    let (exact, c) := c.seekWTCursor t smaller c.key
    { c with lastMoveWasRestore := !exact }

end IndexCursor
end MongoServer
