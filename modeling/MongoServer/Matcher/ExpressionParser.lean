import Mathlib.Data.List.Destutter
import MongoServer.Base.Status
import MongoServer.Matcher.MatchExpression

/-!
The parser of match expressions. A query is a document whose fields are joined by a conjunction: an
operator with a list of queries, or the path of a leaf with a value or a document of operators. Some
operators become negations and conjunctions here.
-/
namespace MongoServer

namespace BSONValue

def isInt (i : ℤ) : BSONValue → Bool
  | .number (.numberInt n) => n.toInt = i
  | .number (.numberLong n) => n.toInt = i
  | .number (.numberDouble d) => Binary64.isFinite d && Binary64.scaled d = i * Binary64.one
  | _ => false

def trueValue : BSONValue → Bool
  | .number (.numberInt n) => n ≠ 0
  | .number (.numberLong n) => n ≠ 0
  | .number (.numberDouble d) => Binary64.magBits d ≠ 0
  | .bool b => b
  | .jstNULL | .undefined => false
  | _ => true

end BSONValue

inductive QueryOperator where
  | LT
  | LTE
  | GTE
  | GT
  | opIN
  | NE
  | opSIZE
  | opALL
  | NIN
  | opEXISTS
  | opMOD
  | opTYPE
  | opREGEX
  | opOPTIONS
  | opELEM_MATCH
  | opNEAR
  | opWITHIN
  | opGEO_INTERSECTS
  | opBITS_ALL_SET
  | opBITS_ALL_CLEAR
  | opBITS_ANY_SET
  | opBITS_ANY_CLEAR
  deriving DecidableEq

def queryOperatorMap : List (List UInt8 × QueryOperator) :=
  [(ascii "lt", .LT), (ascii "lte", .LTE), (ascii "gte", .GTE), (ascii "gt", .GT),
    (ascii "in", .opIN), (ascii "ne", .NE), (ascii "size", .opSIZE), (ascii "all", .opALL),
    (ascii "nin", .NIN), (ascii "exists", .opEXISTS), (ascii "mod", .opMOD),
    (ascii "type", .opTYPE), (ascii "regex", .opREGEX), (ascii "options", .opOPTIONS),
    (ascii "elemMatch", .opELEM_MATCH), (ascii "near", .opNEAR), (ascii "nearSphere", .opNEAR),
    (ascii "geoNear", .opNEAR), (ascii "within", .opWITHIN), (ascii "geoWithin", .opWITHIN),
    (ascii "geoIntersects", .opGEO_INTERSECTS), (ascii "bitsAllSet", .opBITS_ALL_SET),
    (ascii "bitsAllClear", .opBITS_ALL_CLEAR), (ascii "bitsAnySet", .opBITS_ANY_SET),
    (ascii "bitsAnyClear", .opBITS_ANY_CLEAR)]

def isDollar (name : List UInt8) : Bool := name.head? = some 0x24

/-- The operator of a name; `$eq` and `$not` are not among them. -/
def getGtLtOp (name : List UInt8) : Option QueryOperator :=
  if isDollar name then queryOperatorMap.lookup name.tail else none

def typeAliasMap : List (List UInt8 × ℤ) :=
  [(ascii "double", 1), (ascii "string", 2), (ascii "object", 3), (ascii "array", 4),
    (ascii "binData", 5), (ascii "undefined", 6), (ascii "objectId", 7), (ascii "bool", 8),
    (ascii "date", 9), (ascii "null", 10), (ascii "regex", 11), (ascii "dbPointer", 12),
    (ascii "javascript", 13), (ascii "symbol", 14), (ascii "javascriptWithScope", 15),
    (ascii "int", 16), (ascii "timestamp", 17), (ascii "long", 18), (ascii "decimal", 19),
    (ascii "maxKey", 127), (ascii "minKey", -1)]

def kMatchesAllNumbersAlias : List UInt8 := ascii "number"

/-- What the parser takes from elsewhere: the tests of shapes and of bits, with their numbers in the
matcher's library and the operators they are written with, and how documents are printed. -/
structure ParserCallbacks where
  geo : List UInt8 → QueryOperator → BSONObj → Except Status ℕ
  bitTest : QueryOperator → BSONValue → Except Status ℕ
  geoOperators : ℕ → BSONObj
  bitTestOperators : ℕ → BSONObj
  print : BSONObj → String

namespace MatchExpressionParser
variable {Collator : Type}

def badValue {α : Type*} (reason : String) : Except Status α :=
  .error ⟨ErrorCodes.BadValue, reason⟩

section Documents

def hasName (name : String) (obj : BSONObj) : Bool := obj.any fun e => e.1.bytes = ascii name

def isDBRefDocument (obj : BSONObj) (allowIncompleteDBRef : Bool) : Bool :=
  if allowIncompleteDBRef then hasName "$ref" obj || hasName "$id" obj || hasName "$db" obj
  else hasName "$ref" obj && hasName "$id" obj

/-- A document that starts with an operator. -/
def isExpressionDocument (allowIncompleteDBRef : Bool) : BSONValue → Bool
  | .object obj =>
      (obj.head?.any fun e => isDollar e.1.bytes) && !isDBRefDocument obj allowIncompleteDBRef
  | _ => false

def firstName : BSONValue → List UInt8
  | .object ((name, _) :: _) => name.bytes
  | _ => []

/-- The first operator is a search around a point, which takes the whole document. -/
def nearOperator (sub : BSONObj) : Option QueryOperator :=
  match sub with
  | (name, .object _) :: _ | (name, .array _) :: _ =>
      if name.bytes = ascii "$near" ∨ name.bytes = ascii "$nearSphere" ∨
        name.bytes = ascii "$geoNear" then some .opNEAR else none
  | _ => none

end Documents

section Leaves
variable (lib : MatcherLibrary Collator) (collator : Option Collator) (name : List UInt8)

def initComparison (matchType : ComparisonType) (path : List UInt8) (rhs : BSONValue)
    (collator : Option Collator) : Except Status (MatchExpression Collator) :=
  if rhs.type = 6 then badValue "cannot compare to undefined"
  else .ok (.comparison matchType path rhs collator)

def parseComparison (matchType : ComparisonType) (e : BSONValue) :
    Except Status (MatchExpression Collator) :=
  if matchType ≠ .EQ ∧ e.type = 11 then
    badValue ("Can't have RegEx as arg to predicate over field '" ++ printed name ++ "'.")
  else initComparison matchType name e collator

def maxPatternSize : ℕ := 32764

def checkRegex (regex options : List UInt8) : Except Status Unit :=
  if maxPatternSize < regex.length then badValue "Regular expression is too long"
  else if 0 ∈ regex then badValue "Regular expression cannot contain an embedded null byte"
  else if 0 ∈ options then
    badValue "Regular expression options string cannot contain an embedded null byte"
  else .ok ()

def initRegex (path regex options : List UInt8) : Except Status (MatchExpression Collator) := do
  checkRegex regex options
  return .regex path regex options

def parseRegexElement : BSONValue → Except Status (MatchExpression Collator)
  | .regEx pattern flags => initRegex name pattern.bytes flags.bytes
  | _ => badValue "not a regex"

/-- The pattern and the options so far, after one more field. -/
def regexField (regex : List UInt8 × List UInt8) (e : CString × BSONValue) :
    Except Status (List UInt8 × List UInt8) :=
  match getGtLtOp e.1.bytes with
  | some .opREGEX =>
      match e.2 with
      | .string s => .ok (s, regex.2)
      | .regEx pattern flags => .ok (pattern.bytes, flags.bytes)
      | _ => badValue "$regex has to be a string"
  | some .opOPTIONS =>
      match e.2 with
      | .string s => .ok (regex.1, s)
      | _ => badValue "$options has to be a string"
  | _ => .ok regex

def parseRegexDocument (doc : BSONObj) : Except Status (MatchExpression Collator) := do
  let regex ← doc.foldlM regexField ([], [])
  initRegex name regex.1 regex.2

/-- The second check is of the divisor again, so a remainder that is no number is zero. -/
def parseMOD : BSONValue → Except Status (MatchExpression Collator)
  | .array [] => badValue "malformed mod, not enough elements"
  | .array (d :: rest) =>
      if !d.isNumber then badValue "malformed mod, divisor not a number"
      else match rest with
        | [] => badValue "malformed mod, not enough elements"
        | [r] =>
            if d.numberInt = 0 then badValue "divisor cannot be 0"
            else .ok (.mod name d.numberInt r.numberInt)
        | _ => badValue "malformed mod, too many elements"
  | _ => badValue "malformed mod, needs to be an array"

def parseSize (e : BSONValue) : Except Status (MatchExpression Collator) :=
  match e with
  | .number n =>
      if !e.isInt e.numberInt then
        badValue (match n with
          | .numberDouble _ => "$size must be a whole number"
          | _ => "$size must be representable as a 32-bit integer")
      else if e.numberInt < 0 then badValue "$size may not be negative"
      else .ok (.size name e.numberInt)
  | _ => badValue "$size needs a number"

/-- A number that is no 32-bit integer is taken as the type of the least key. -/
def parseType (elt : BSONValue) : Except Status (MatchExpression Collator) :=
  match elt with
  | .number _ =>
      initWithBSONType (if elt.isInt elt.numberInt then elt.numberInt else -1)
  | .string typeAlias =>
      if typeAlias = kMatchesAllNumbersAlias then .ok (.typeOperator name .allNumbers)
      else match typeAliasMap.lookup typeAlias with
        | some typeInt => initWithBSONType typeInt
        | none => badValue ("unknown string alias for $type: " ++ printed typeAlias)
  | _ => .error ⟨ErrorCodes.TypeMismatch, "argument to $type is not a number or a string"⟩
where
  initWithBSONType (type : ℤ) : Except Status (MatchExpression Collator) :=
    if isValidBSONType type then .ok (.typeOperator name (.bsonType type))
    else badValue ("Invalid numerical $type code: " ++ toString type)

/-- Without the names of the elements. -/
def eltCompare (l r : BSONValue) : ℤ :=
  let x := canonicalizeBSONType l - canonicalizeBSONType r
  if x ≠ 0 then x else lib.compare collator l r

/-- Sorted, and only the first of equal values. -/
def equalitySet (equalities : List BSONValue) : List BSONValue :=
  (equalities.mergeSort fun l r => eltCompare lib collator l r ≤ 0).destutter fun l r =>
    eltCompare lib collator l r < 0

def parseInElements : List BSONValue →
    Except Status (List BSONValue × List (List UInt8 × List UInt8))
  | [] => .ok ([], [])
  | e :: rest =>
      -- database references are allowed, but no other names that start with a dollar
      if isExpressionDocument false e then badValue "cannot nest $ under $in"
      else match e with
        | .regEx pattern flags => do
            checkRegex pattern.bytes flags.bytes
            let (equalities, regexes) ← parseInElements rest
            return (equalities, (pattern.bytes, flags.bytes) :: regexes)
        | e => do
            let (equalities, regexes) ← parseInElements rest
            return (e :: equalities, regexes)

def parseIn (op : String) : BSONValue → Except Status (MatchExpression Collator)
  | .array elems => do
      let (equalities, regexes) ← parseInElements elems
      if equalities.any fun v => v.type = 6 then
        badValue "InMatchExpression equality cannot be undefined"
      return .matchIn name (equalitySet lib collator equalities) regexes collator
  | _ => badValue (op ++ " needs an array")

end Leaves

def unwrapRoot : List (MatchExpression Collator) → MatchExpression Collator
  | [exp] => exp
  | children => .and children

def isRegex : MatchExpression Collator → Bool
  | .regex _ _ _ => true
  | _ => false

def isElemMatchValue (e : BSONValue) : Bool :=
  isExpressionDocument true e && firstName e ≠ ascii "$and" && firstName e ≠ ascii "$nor" &&
    firstName e ≠ ascii "$or" && firstName e ≠ ascii "$where"

/-- The elements of an `$all` without `$elemMatch`. -/
def parseAllElement (collator : Option Collator) (name : List UInt8) (e : BSONValue) :
    Except Status (MatchExpression Collator) :=
  match e with
  | .regEx pattern flags => initRegex name pattern.bytes flags.bytes
  | e =>
      if (getGtLtOp (firstName e)).isSome then badValue "no $ expressions in $all"
      else initComparison .EQ name e collator

section Parser
variable (lib : MatcherLibrary Collator) (callbacks : ParserCallbacks) (collator : Option Collator)

mutual
def parse (topLevel : Bool) (obj : BSONObj) : Except Status (MatchExpression Collator) := do
  return unwrapRoot (← parseFields topLevel obj)
termination_by (sizeOf obj, 1)

def parseFields (topLevel : Bool) (obj : BSONObj) :
    Except Status (List (MatchExpression Collator)) :=
  match obj with
  | [] => .ok []
  | (name, e) :: rest => do
      let children ← parseField topLevel name.bytes e
      let others ← parseFields topLevel rest
      return children ++ others
termination_by (sizeOf obj, 0)

def parseField (topLevel : Bool) (name : List UInt8) (e : BSONValue) :
    Except Status (List (MatchExpression Collator)) :=
  if isDollar name then
    if name = ascii "$or" then do return [.or (← parseTreeList "$or" e)]
    else if name = ascii "$and" then do return [.and (← parseTreeList "$and" e)]
    else if name = ascii "$nor" then do return [.nor (← parseTreeList "$nor" e)]
    else if name = ascii "$atomic" ∨ name = ascii "$isolated" then
      if topLevel then .ok [] else badValue "$atomic/$isolated has to be at the top level"
    else if name = ascii "$where" then
      .error ⟨ErrorCodes.NoMatchParseContext, "no context for parsing $where"⟩
    else if name = ascii "$text" then
      .error ⟨ErrorCodes.NoMatchParseContext, "no context for parsing $text"⟩
    else if name = ascii "$comment" then .ok []
    else if name = ascii "$ref" ∨ name = ascii "$id" ∨ name = ascii "$db" then do
      -- only the identifier is compared by the collator
      let eq ← initComparison .EQ name e (if name = ascii "$id" then collator else none)
      return [eq]
    else badValue ("unknown top level operator: " ++ printed name)
  else if isExpressionDocument false e then
    match e with
    | .object sub => parseSub name sub
    | _ => .ok []
  else
    match e with
    | .regEx pattern flags => do return [← initRegex name pattern.bytes flags.bytes]
    | e => do return [← initComparison .EQ name e collator]
termination_by (sizeOf e, 2)

def parseTreeList (op : String) (e : BSONValue) : Except Status (List (MatchExpression Collator)) :=
  match e with
  | .array [] => badValue "$and/$or/$nor must be a nonempty array"
  | .array arr => parseTrees arr
  | _ => badValue (op ++ " must be an array")
termination_by (sizeOf e, 1)

def parseTrees (arr : List BSONValue) : Except Status (List (MatchExpression Collator)) :=
  match arr with
  | [] => .ok []
  | .object obj :: rest => do
      let sub ← parse false obj
      let others ← parseTrees rest
      return sub :: others
  | _ :: _ => badValue "$or/$and/$nor entries need to be full objects"
termination_by (sizeOf arr, 0)

def parseSub (name : List UInt8) (sub : BSONObj) :
    Except Status (List (MatchExpression Collator)) :=
  match nearOperator sub with
  | some op => do return [.geo name (← callbacks.geo name op sub)]
  | none => parseSubFields sub name sub
termination_by (sizeOf sub, 1)

def parseSubFields (context : BSONObj) (name : List UInt8) (sub : BSONObj) :
    Except Status (List (MatchExpression Collator)) :=
  match sub with
  | [] => .ok []
  | (op, e) :: rest => do
      let child ← parseSubField context name op.bytes e
      let others ← parseSubFields context name rest
      return child.toList ++ others
termination_by (sizeOf sub, 0)

/-- What one operator adds to the conjunction; options go with a regular expression. -/
def parseSubField (context : BSONObj) (name op : List UInt8) (e : BSONValue) :
    Except Status (Option (MatchExpression Collator)) :=
  if op = ascii "$eq" then do return some (← parseComparison collator name .EQ e)
  else if op = ascii "$not" then do return some (← parseNot name e)
  else match getGtLtOp op with
    | none =>
        if op = ascii "$where" then badValue "$where cannot be applied to a field"
        else badValue ("unknown operator: " ++ printed op)
    | some .LT => do return some (← parseComparison collator name .LT e)
    | some .LTE => do return some (← parseComparison collator name .LTE e)
    | some .GT => do return some (← parseComparison collator name .GT e)
    | some .GTE => do return some (← parseComparison collator name .GTE e)
    | some .NE =>
        if e.type = 11 then badValue "Can't have regex as arg to $ne."
        else do return some (.not (← parseComparison collator name .EQ e))
    | some .opIN => do return some (← parseIn lib collator name "$in" e)
    | some .NIN => do return some (.not (← parseIn lib collator name "$nin" e))
    | some .opSIZE => do return some (← parseSize name e)
    | some .opEXISTS =>
        if e.trueValue then .ok (some (.exists name)) else .ok (some (.not (.exists name)))
    | some .opTYPE => do return some (← parseType name e)
    | some .opMOD => do return some (← parseMOD name e)
    | some .opOPTIONS =>
        if context.any fun e => getGtLtOp e.1.bytes = some .opREGEX then .ok none
        else badValue "$options needs a $regex"
    | some .opREGEX => do return some (← parseRegexDocument name context)
    | some .opELEM_MATCH => do return some (← parseElemMatch name e)
    | some .opALL => do return some (← parseAll name e)
    | some .opWITHIN => do return some (.geo name (← callbacks.geo name .opWITHIN context))
    | some .opGEO_INTERSECTS => do
        return some (.geo name (← callbacks.geo name .opGEO_INTERSECTS context))
    | some .opNEAR => badValue ("near must be first in: " ++ callbacks.print context)
    | some bits => do return some (.bitTest name (← callbacks.bitTest bits e))
termination_by (sizeOf e, 1)

def parseNot (name : List UInt8) (e : BSONValue) : Except Status (MatchExpression Collator) :=
  match e with
  | .regEx pattern flags => do return .not (← initRegex name pattern.bytes flags.bytes)
  | .object [] => badValue "$not cannot be empty"
  | .object notObject => do
      let theAnd ← parseSub name notObject
      if theAnd.any isRegex then badValue "$not cannot have a regex"
      return .not (.and theAnd)
  | _ => badValue "$not needs a regex or a document"
termination_by (sizeOf e, 0)

def parseElemMatch (name : List UInt8) (e : BSONValue) : Except Status (MatchExpression Collator) :=
  match e with
  | .object obj =>
      if isElemMatchValue (.object obj) then do return .elemMatchValue name (← parseSub [] obj)
      else do return .elemMatchObject name (← parse false obj)
  | _ => badValue "$elemMatch needs an Object"
termination_by (sizeOf e, 0)

def parseAll (name : List UInt8) (e : BSONValue) : Except Status (MatchExpression Collator) :=
  match e with
  | .array [] => .ok (.alwaysFalse name)
  | .array (first :: rest) =>
      if firstName first = ascii "$elemMatch" then do
        return .and (← parseAllElemMatches name (first :: rest))
      else do return .and (← (first :: rest).mapM (parseAllElement collator name))
  | _ => badValue "$all needs an array"
termination_by (sizeOf e, 0)

def parseAllElemMatches (name : List UInt8) (arr : List BSONValue) :
    Except Status (List (MatchExpression Collator)) :=
  match arr with
  | [] => .ok []
  | .object ((op, e) :: _) :: rest =>
      if op.bytes = ascii "$elemMatch" then do
        let inner ← parseElemMatch name e
        let others ← parseAllElemMatches name rest
        return inner :: others
      else badValue "$all/$elemMatch has to be consistent"
  | _ :: _ => badValue "$all/$elemMatch has to be consistent"
termination_by (sizeOf arr, 0)
end

end Parser

end MatchExpressionParser
end MongoServer
