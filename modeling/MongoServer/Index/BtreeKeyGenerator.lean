import MongoServer.Bson.Compare
import MongoServer.Bson.Elements
import MongoServer.Bson.FieldRef

/-!
The keys of a document in a V1 or V2 index. Arrays along the indexed paths are expanded, one key an
element; paths through different arrays are refused.
-/
namespace MongoServer

/-- An element of a document, with the names that lead to it for its address. -/
structure LocatedElement where
  address : List (List UInt8)
  value : BSONValue

/-- The element at the end of a path or the first array along it, and the rest of the path. -/
def extractElementAtPathOrArrayAlongPath (address : List (List UInt8)) :
    BSONObj → List (List UInt8) → Option LocatedElement × List (List UInt8)
  | _, [] => (none, [])
  | obj, part :: rest =>
      match obj.getField part with
      | none => (none, rest)
      | some (.array elems) => (some ⟨address ++ [part], .array elems⟩, rest)
      | some (.object fields) =>
          if rest.isEmpty then (some ⟨address ++ [part], .object fields⟩, rest)
          else extractElementAtPathOrArrayAlongPath (address ++ [part]) fields rest
      | some v => if rest.isEmpty then (some ⟨address ++ [part], v⟩, rest) else (none, rest)

inductive KeyGenError where
  /-- An indexed name is both a position of an array and a field of one of its documents. -/
  | ambiguousField (field : List UInt8) (arrayObj : List BSONValue)
  | cannotIndexParallelArrays (first second : List UInt8)
  | unfinished

/-- An array element that a path names by its position, and what the path leads to from there. -/
structure PositionalPathInfo where
  positionallyIndexedElt : BSONValue
  arrayObj : List BSONValue
  dottedElt : Option LocatedElement
  remainingPath : List (List UInt8)

/-- An indexed field: its value once that is found, before that the rest of its path. -/
inductive KeyField where
  | fixed (e : BSONValue)
  | pending (fieldName : List (List UInt8)) (positionalInfo : Option PositionalPathInfo)

/-- What a field is after one extraction: a value, or the rest of a path after an array. -/
inductive ExtractedField where
  | fixed (e : BSONValue)
  | inArray (fieldName : List (List UInt8))

def ExtractedField.value? : ExtractedField → Option BSONValue
  | .fixed e => some e
  | .inArray _ => none

/-- The state of the loop over the indexed fields. -/
structure Extraction where
  arrElt : Option (List (List UInt8) × List BSONValue)
  mayExpandArrayUnembedded : Bool
  numNotFound : ℕ
  fields : List ExtractedField

structure GeneratedKeys where
  keys : List IndexKey
  multikeyPaths : List (List ℕ)

def insertKey (keys : List IndexKey) (key : IndexKey) : List IndexKey :=
  if keys.any fun k => woCompareNested k.obj key.obj = 0 then keys else keys ++ [key]

structure BtreeKeyGenerator where
  fieldNames : List (List UInt8)
  isSparse : Bool
  pathsValid : ∀ name ∈ fieldNames,
    (FieldRef.parse name).parts ≠ [] ∧ [] ∉ (FieldRef.parse name).parts

namespace BtreeKeyGenerator

variable (address : List (List UInt8)) (obj : BSONObj)

/-- The next element of a path, the rest of the path after it, and whether it is an array that the
path names by its position in an array. -/
def extractNextElement (positionalInfo : Option PositionalPathInfo) (field : List (List UInt8)) :
    Except KeyGenError (Option LocatedElement × List (List UInt8) × Bool) :=
  let haveObjField := (obj.getField (field.headD [])).isSome
  match positionalInfo with
  | none =>
      if haveObjField then
        let e := extractElementAtPathOrArrayAlongPath address obj field
        .ok (e.1, e.2, false)
      else .ok (none, field, false)
  | some info =>
      if haveObjField then .error (.ambiguousField (field.headD []) info.arrayObj)
      else .ok (info.dottedElt, info.remainingPath, info.positionallyIndexedElt.type = 4)

/-- One round of the loop over the fields. -/
def extractField (s : Extraction) : KeyField → Except KeyGenError Extraction
  | .fixed e => .ok { s with fields := s.fields ++ [.fixed e] }
  | .pending fieldName positionalInfo =>
      match extractNextElement address obj positionalInfo fieldName with
      | .error err => .error err
      | .ok (none, _, _) =>
          .ok { s with numNotFound := s.numNotFound + 1, fields := s.fields ++ [.fixed .jstNULL] }
      | .ok (some ⟨location, .array elems⟩, rest, arrayNestedArray) =>
          let next : Extraction :=
            { s with
              arrElt := s.arrElt.or (some (location, elems))
              mayExpandArrayUnembedded := s.mayExpandArrayUnembedded && !arrayNestedArray
              fields := s.fields ++ [.inArray rest] }
          match s.arrElt with
          | none => .ok next
          | some arrElt =>
              -- arrays are only expanded on a single path
              if location = arrElt.1 then .ok next
              else .error (.cannotIndexParallelArrays (location.getLastD []) (arrElt.1.getLastD []))
      | .ok (some ⟨_, v⟩, _, _) => .ok { s with fields := s.fields ++ [.fixed v] }

def extractFields (numNotFound : ℕ) (fields : List KeyField) : Except KeyGenError Extraction :=
  fields.foldlM (extractField address obj) ⟨none, true, numNotFound, []⟩

/-- The path goes on with an element of the array that it names by its position. -/
def subPositionalInfo (elems : List BSONValue) : ExtractedField → Option PositionalPathInfo
  | .inArray (part :: rest) =>
      ((BSONObj.ofArray elems).getField part).map fun elt =>
        let dotted :=
          extractElementAtPathOrArrayAlongPath address (BSONObj.ofArray elems) (part :: rest)
        ⟨elt, elems, dotted.1, dotted.2⟩
  | _ => none

/-- The part of a path of a given length that leads to the array, if the array is expanded for it. -/
def arrComponent (mayExpandArrayUnembedded : Bool) (elems : List BSONValue) (pathLength : ℕ) :
    ExtractedField → Option ℕ
  | .fixed _ => none
  | .inArray [] => if mayExpandArrayUnembedded then some (pathLength - 1) else none
  | .inArray (part :: rest) =>
      if ((BSONObj.ofArray elems).getField part).isSome then none
      else some (pathLength - (part :: rest).length - 1)

/-- A field before the recursive call for one entry of an array. -/
def arrEltFixed (arrEntry arrObjElt : BSONValue) (mayExpandArrayUnembedded : Bool)
    (positionalInfo : Option PositionalPathInfo) : ExtractedField → KeyField
  | .fixed e => .fixed e
  | .inArray [] => .fixed (if mayExpandArrayUnembedded then arrEntry else arrObjElt)
  | .inArray rest => .pending rest positionalInfo

def entryObject : BSONValue → BSONObj
  | .object fields => fields
  | _ => []

def insertComponents (multikeyPaths : List (List ℕ)) (components : List (Option ℕ)) :
    List (List ℕ) :=
  multikeyPaths.zipWith (fun paths component => component.elim paths paths.insert) components

variable (generator : BtreeKeyGenerator)

def pathLengths : List ℕ := generator.fieldNames.map fun name => (FieldRef.parse name).numParts

def getKeysImplWithArray : ℕ → List KeyField → List (List UInt8) → BSONObj → ℕ → GeneratedKeys →
    Except KeyGenError GeneratedKeys
  | 0, _, _, _, _, _ => .error .unfinished
  | fuel + 1, fields, address, obj, numNotFound, out =>
      match extractFields address obj numNotFound fields with
      | .error err => .error err
      | .ok s =>
          match s.arrElt with
          | none =>
              if generator.isSparse && s.numNotFound = fields.length then .ok out
              else
                let key := IndexKey.ofValues (s.fields.filterMap ExtractedField.value?)
                .ok ⟨insertKey out.keys key, out.multikeyPaths⟩
          | some (location, []) =>
              -- the matching fields of an empty array are undefined
              getKeysImplWithArray fuel
                (s.fields.map (arrEltFixed .undefined (.array []) true none))
                location [] s.numNotFound out
          | some (location, elem :: elems) =>
              let arrObj := elem :: elems
              let entryFields (arrObjElem : BSONValue) := s.fields.map fun f =>
                arrEltFixed arrObjElem (.array arrObj) s.mayExpandArrayUnembedded
                  (subPositionalInfo location arrObj f) f
              match arrObj.zipIdx.foldlM (fun out entry =>
                getKeysImplWithArray fuel (entryFields entry.1) (location ++ [positionName entry.2])
                  (entryObject entry.1) s.numNotFound out) out with
              | .error err => .error err
              | .ok out =>
                  let components := generator.pathLengths.zipWith
                    (arrComponent s.mayExpandArrayUnembedded arrObj) s.fields
                  if arrObj.length > 1 then
                    .ok ⟨out.keys, insertComponents out.multikeyPaths components⟩
                  else .ok out

def idName : List UInt8 := [0x5f, 0x69, 0x64]

def isIdIndex : Bool := generator.fieldNames = [idName]

def nullKey : IndexKey := .ofValues (generator.fieldNames.map fun _ => .jstNULL)

def getKeysImpl : Except KeyGenError GeneratedKeys :=
  if generator.isIdIndex then
    -- an index of this field is never multikey, since no array is allowed there
    .ok ⟨[((obj.getField idName).map fun e => .ofValues [e]).getD generator.nullKey], [[]]⟩
  else
    generator.getKeysImplWithArray (generator.pathLengths.sum + 1)
      (generator.fieldNames.map fun name => .pending (FieldRef.parse name).parts none) [] obj 0
      ⟨[], generator.fieldNames.map fun _ => []⟩

def getKeys : Except KeyGenError GeneratedKeys :=
  (generator.getKeysImpl obj).map fun out =>
    if out.keys.isEmpty && !generator.isSparse then { out with keys := [generator.nullKey] } else out

end BtreeKeyGenerator
end MongoServer
