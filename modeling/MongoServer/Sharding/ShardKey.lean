import MongoServer.Sharding.WriteOp

/-!
What may be part of a shard key, and what of it may be stored in the catalog.
-/
namespace MongoServer

/-- How documents, elements, and the parts of elements are printed. -/
structure Rendering where
  obj : BSONObj → String
  element : CString × BSONValue → String
  name : CString → String
  value : BSONValue → String
  oid : OID → String

namespace CString

def startsWithDollar (name : CString) : Bool := name.bytes.head? = some 0x24

def hasDot (name : CString) : Bool := name.bytes.contains 0x2e

def dollarRef : CString := ⟨[0x24, 0x72, 0x65, 0x66], by decide⟩

def dollarId : CString := ⟨[0x24, 0x69, 0x64], by decide⟩

def dollarDb : CString := ⟨[0x24, 0x64, 0x62], by decide⟩

end CString

def BSONValue.isString : BSONValue → Bool
  | .string _ => true
  | _ => false

mutual
/-- The fields of a document that is not a root, from one that is the first or not. -/
def okFields : Bool → List (CString × BSONValue) → Bool
  | _, [] => true
  | first, (name, v) :: rest =>
      if name.startsWithDollar then
        first && name = .dollarRef && v.isString && okReference rest
      else !name.hasDot && okValue v && okFields false rest

/-- What may follow the first field of a database reference. -/
def okReference : List (CString × BSONValue) → Bool
  | [] => false
  | [(name, _)] => name = .dollarId
  | (name, _) :: (db, v) :: rest =>
      name = .dollarId &&
        if db = .dollarDb && v.isString then okFields false rest
        else !db.startsWithDollar && !db.hasDot && okValue v && okFields false rest

/-- What a value encapsulates. The names in an array are its positions. -/
def okValue : BSONValue → Bool
  | .object fields => okFields true fields
  | .array elems => okValues elems
  | .codeWScope _ scope => okFields true scope
  | _ => true

def okValues : List BSONValue → Bool
  | [] => true
  | v :: rest => okValue v && okValues rest
end

def BSONObj.okForStorage (obj : BSONObj) : Bool := okFields true obj

namespace ShardKeyPattern

def kMaxShardKeySizeBytes : ℕ := 512

def isValidShardKeyElement : BSONValue → Bool
  | .array _ => false
  | _ => true

def isValidShardKeyElementForStorage (v : BSONValue) : Bool :=
  isValidShardKeyElement v &&
    match v with
    | .regEx _ _ => false
    | .object fields => BSONObj.okForStorage fields
    | _ => true

def checkShardKeySize (text : Rendering) (shardKey : BSONObj) : Except Status Unit :=
  if shardKey.objsize ≤ kMaxShardKeySizeBytes then .ok ()
  else .error ⟨ErrorCodes.ShardKeyTooBig,
    "shard keys must be less than " ++ toString kMaxShardKeySizeBytes ++ " bytes, but key " ++
      text.obj shardKey ++ " is " ++ toString shardKey.objsize ++ " bytes"⟩

def checkShardKeyIsValidForMetadataStorage (text : Rendering) : BSONObj → Except Status Unit
  | [] => .ok ()
  | elem :: rest =>
      if isValidShardKeyElementForStorage elem.2 then
        checkShardKeyIsValidForMetadataStorage text rest
      else .error ⟨ErrorCodes.BadValue,
        "Shard key element " ++ text.element elem ++ " is not valid for storage"⟩

end ShardKeyPattern
end MongoServer
