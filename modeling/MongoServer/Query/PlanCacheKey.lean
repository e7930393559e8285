import MongoServer.Query.IndexSelection

/-!
The key under which the plan of a query is cached: its match expression without the values, and for
every path of an index one bit for each such index, which says whether the values allow its use. The
sort order and the projection follow.
-/
namespace MongoServer
namespace PlanCache
open MatchExpression QueryPlanner
variable {Collator : Type}

def kEncodeDiscriminatorsBegin : UInt8 := 0x3c
def kEncodeDiscriminatorsEnd : UInt8 := 0x3e
def kEncodeChildrenBegin : UInt8 := 0x5b
def kEncodeChildrenEnd : UInt8 := 0x5d
def kEncodeChildrenSeparator : UInt8 := 0x2c
def kEncodeSortSection : UInt8 := 0x7e
def kEncodeProjectionSection : UInt8 := 0x7c
def kEncodeCollationSection : UInt8 := 0x23
def backslash : UInt8 := 0x5c

def isDelimiter (c : UInt8) : Bool :=
  [kEncodeDiscriminatorsBegin, kEncodeDiscriminatorsEnd, kEncodeChildrenBegin, kEncodeChildrenEnd,
    kEncodeChildrenSeparator, kEncodeSortSection, kEncodeProjectionSection,
    kEncodeCollationSection, backslash].contains c

/-- Delimiters in the name are escaped. -/
def encodeUserString (s : List UInt8) : List UInt8 := Codes.escape isDelimiter backslash s

def encodeMatchType : MatchExpression.MatchType → List UInt8
  | .AND => ascii "an"
  | .OR => ascii "or"
  | .NOR => ascii "nr"
  | .NOT => ascii "nt"
  | .ELEM_MATCH_OBJECT => ascii "eo"
  | .ELEM_MATCH_VALUE => ascii "ev"
  | .SIZE => ascii "sz"
  | .LTE => ascii "le"
  | .LT => ascii "lt"
  | .EQ => ascii "eq"
  | .GT => ascii "gt"
  | .GTE => ascii "ge"
  | .REGEX => ascii "re"
  | .MOD => ascii "mo"
  | .EXISTS => ascii "ex"
  | .MATCH_IN => ascii "in"
  | .TYPE_OPERATOR => ascii "ty"
  | .GEO => ascii "go"
  | .WHERE => ascii "wh"
  | .ALWAYS_FALSE => ascii "af"
  | .GEO_NEAR => ascii "gn"
  | .TEXT => ascii "te"
  | .BITS_ALL_SET => ascii "ls"
  | .BITS_ALL_CLEAR => ascii "lc"
  | .BITS_ANY_SET => ascii "ys"
  | .BITS_ANY_CLEAR => ascii "yc"

/-- Texts that the key takes over from other components. -/
structure KeyTexts where
  encodeGeo : ℕ → List UInt8
  elementToString : BSONValue → List UInt8

structure CanonicalQuery (Collator : Type) where
  root : MatchExpression Collator
  sort : BSONObj
  proj : BSONObj
  collator : Option Collator

section Discriminators
variable [DecidableEq Collator] (lib : MatcherLibrary Collator)
  (index : QueryPlanner.IndexEntry Collator) (path : List UInt8)

/-- The test that is registered for each field of a sparse index. -/
def sparseDiscriminator : MatchExpression Collator → Bool
  | .comparison .EQ _ rhs _ => rhs.type ≠ 10
  | .matchIn _ equalities _ _ => !hasNull equalities
  | _ => true

/-- The test that is registered for each field of an index. -/
def collationDiscriminator (collator : Option Collator) : MatchExpression Collator → Bool
  | .comparison _ _ rhs queryCollator => queryCollator = collator || !isCollatableType rhs
  | .matchIn _ equalities _ queryCollator =>
      queryCollator = collator || !equalities.any isCollatableType
  | _ => true

mutual
def nodes : MatchExpression Collator → List (MatchExpression Collator)
  | .elemMatchObject path sub => nodes sub ++ [.elemMatchObject path sub]
  | .elemMatchValue path subs => nodesOfAll subs ++ [.elemMatchValue path subs]
  | .and expressions => nodesOfAll expressions ++ [.and expressions]
  | .or expressions => nodesOfAll expressions ++ [.or expressions]
  | .nor expressions => nodesOfAll expressions ++ [.nor expressions]
  | .not exp => nodes exp ++ [.not exp]
  | exp => [exp]

def nodesOfAll : List (MatchExpression Collator) → List (MatchExpression Collator)
  | [] => []
  | exp :: rest => nodes exp ++ nodesOfAll rest
end

/-- The nodes of the filter of a partial index to which predicates on the path are compared. -/
def filterNodes : List (MatchExpression Collator) :=
  match index.filterExpr with
  | none => []
  | some filterExpr => (nodes filterExpr).filter fun node => !node.isLogical && node.path = path

def fieldsNamed : BSONObj :=
  index.keyPattern.filter fun elem => elem.1.bytes = path

/-- What `updateDiscriminators` registers for a path under the name of the index. -/
def registered : List (MatchExpression Collator → Bool) :=
  (if index.sparse then (fieldsNamed index path).map fun _ => sparseDiscriminator else []) ++
    (filterNodes index path).map
      (fun filterNode queryExpr => isSubsetOf lib queryExpr filterNode) ++
    (fieldsNamed index path).map fun _ => collationDiscriminator index.collator

/-- The indexes for which something is registered for a path. The names of the indexes of a
collection differ, so that each of them has one entry here. -/
def getDiscriminators (indexEntries : List (QueryPlanner.IndexEntry Collator)) (path : List UInt8) :
    List (List UInt8 × List (MatchExpression Collator → Bool)) :=
  (indexEntries.map fun index => (index.name, registered lib index path)).filter
    fun entry => !entry.2.isEmpty

/-- All that is registered for an index and a path has to agree. -/
def isMatchCompatibleWithIndex (discriminators : List (MatchExpression Collator → Bool))
    (expr : MatchExpression Collator) : Bool :=
  discriminators.all fun discriminator => discriminator expr

end Discriminators

section Encoding
variable [DecidableEq Collator] (lib : MatcherLibrary Collator) (types : TestTypes)
  (texts : KeyTexts) (indexEntries : List (QueryPlanner.IndexEntry Collator))
    (tree : MatchExpression Collator)

def encodeBit (b : Bool) : UInt8 := if b then 0x31 else 0x30

/-- One bit for each index that has something registered for the path of the node. -/
def discriminatorBits : List Bool :=
  (getDiscriminators lib indexEntries tree.path).map fun entry =>
    isMatchCompatibleWithIndex entry.2 tree

def hasRegexes : MatchExpression Collator → Bool
  | .matchIn _ _ regexes _ => !regexes.isEmpty
  | _ => false

def encodeGeometry : MatchExpression Collator → List UInt8
  | .geo _ test => texts.encodeGeo test
  | _ => []

/-- The part of `encodeKeyForMatch` for the node itself. -/
def encodeNode : List UInt8 :=
  encodeMatchType (matchType types tree) ++
    (encodeUserString tree.path ++ encodeGeometry texts tree ++
      (if hasRegexes tree then encodeUserString (ascii "_re") else []) ++
      if (discriminatorBits lib indexEntries tree).isEmpty then []
      else kEncodeDiscriminatorsBegin ::
        ((discriminatorBits lib indexEntries tree).map encodeBit ++ [kEncodeDiscriminatorsEnd]))

mutual
def encodeKeyForMatch : MatchExpression Collator → List UInt8
  | .elemMatchObject path sub =>
      encodeNode lib types texts indexEntries (.elemMatchObject path sub) ++
        kEncodeChildrenBegin :: (encodeKeyForMatch sub ++ [kEncodeChildrenEnd])
  | .elemMatchValue path subs =>
      encodeNode lib types texts indexEntries (.elemMatchValue path subs) ++ encodeChildren subs
  | .and expressions =>
      encodeNode lib types texts indexEntries (.and expressions) ++ encodeChildren expressions
  | .or expressions =>
      encodeNode lib types texts indexEntries (.or expressions) ++ encodeChildren expressions
  | .nor expressions =>
      encodeNode lib types texts indexEntries (.nor expressions) ++ encodeChildren expressions
  | .not exp =>
      encodeNode lib types texts indexEntries (.not exp) ++
        kEncodeChildrenBegin :: (encodeKeyForMatch exp ++ [kEncodeChildrenEnd])
  | tree => encodeNode lib types texts indexEntries tree

def encodeChildren : List (MatchExpression Collator) → List UInt8
  | [] => []
  | child :: rest =>
      kEncodeChildrenBegin :: (encodeKeyForMatch child ++ encodeOtherChildren rest)

def encodeOtherChildren : List (MatchExpression Collator) → List UInt8
  | [] => [kEncodeChildrenEnd]
  | child :: rest =>
      kEncodeChildrenSeparator :: (encodeKeyForMatch child ++ encodeOtherChildren rest)
end

def isTextScoreMeta : BSONValue → Bool
  | .object [(name, .string s)] =>
      -- only the part of the string before a null byte is compared
      name.bytes = ascii "$meta" && s.takeWhile (· ≠ 0) = ascii "textScore"
  | _ => false

def encodeSortField (elt : CString × BSONValue) : List UInt8 :=
  (if isTextScoreMeta elt.2 then ascii "t" else if elt.2.numberInt = 1 then ascii "a"
    else ascii "d") ++ encodeUserString elt.1.bytes

def encodeKeyForSort (sortObj : BSONObj) : List UInt8 :=
  if sortObj.isEmpty then []
  else kEncodeSortSection :: [kEncodeChildrenSeparator].intercalate (sortObj.map encodeSortField)

/-- The fields of the projection by name, each name with the last of its values. -/
def projectedElements (projObj : BSONObj) : BSONObj :=
  let named := projObj.filter fun elt => elt.1.bytes.head? ≠ some 0x24
  let last := named.pwFilter fun a b => a.1.bytes ≠ b.1.bytes
  last.mergeSort fun a b => a.1.bytes ≤ b.1.bytes

def encodeProjectedField (elt : CString × BSONValue) : List UInt8 :=
  (match elt.2 with
    | .object _ => encodeUserString (texts.elementToString elt.2)
    | v => if v.trueValue then ascii "i" else ascii "e") ++ encodeUserString elt.1.bytes

def encodeKeyForProj (projObj : BSONObj) : List UInt8 :=
  if (projectedElements projObj).isEmpty then []
  else kEncodeProjectionSection :: (projectedElements projObj).flatMap (encodeProjectedField texts)

def computeKey (cq : CanonicalQuery Collator) : List UInt8 :=
  encodeKeyForMatch lib types texts indexEntries cq.root ++ encodeKeyForSort cq.sort ++
    encodeKeyForProj texts cq.proj

end Encoding

end PlanCache
end MongoServer
