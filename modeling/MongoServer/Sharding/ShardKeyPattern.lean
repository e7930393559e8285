import MongoServer.Bson.FieldRef
import MongoServer.Sharding.ShardKey

/-!
Shard key patterns: one hashed field, or a list of ascending paths.
-/
namespace MongoServer

/-- A pattern that is not valid has no fields. -/
structure ShardKeyPattern where
  keyPattern : BSONObj
  keyPatternPaths : List FieldRef

namespace ShardKeyPattern

def HASHED : List UInt8 := [0x68, 0x61, 0x73, 0x68, 0x65, 0x64]

def isHashedPatternEl : BSONValue → Bool
  | .string s => s = HASHED
  | _ => false

/-- What one element of a pattern must be like. -/
def isPatternElement (nFields : ℕ) (patternEl : CString × BSONValue) : Bool :=
  let path := FieldRef.parse patternEl.1.bytes
  path.numParts ≠ 0 && path.dottedField = patternEl.1.bytes && path.parts.all (! ·.isEmpty) &&
    if patternEl.2.isNumber then patternEl.2.numberInt = 1
    else nFields = 1 && isHashedPatternEl patternEl.2

def parseShardKeyPattern (keyPattern : BSONObj) : List FieldRef :=
  if keyPattern.all (isPatternElement keyPattern.length) then
    keyPattern.map fun patternEl => FieldRef.parse patternEl.1.bytes
  else []

def new (keyPattern : BSONObj) : ShardKeyPattern :=
  let paths := parseShardKeyPattern keyPattern
  ⟨if paths.isEmpty then [] else keyPattern, paths⟩

variable (pattern : ShardKeyPattern)

def isValid : Bool := !pattern.keyPattern.isEmpty

def isHashedPattern : Bool := (pattern.keyPattern.head?).any fun e => isHashedPatternEl e.2

end ShardKeyPattern

namespace KeyPattern

variable (pattern : BSONObj)

/-- The rest of a pattern after a bound of no fields, where values that are no number count as
ascending. -/
def extendEmptyBound (makeUpperInclusive : Bool) : BSONObj :=
  pattern.map fun patElt =>
    let order := if patElt.2.isNumber then patElt.2.numberInt else 1
    let order := if makeUpperInclusive then order * -1 else order
    (patElt.1, if 0 < order then .minKey else .maxKey)

def globalMin : BSONObj := extendEmptyBound pattern false

def globalMax : BSONObj := extendEmptyBound pattern true

end KeyPattern
end MongoServer
