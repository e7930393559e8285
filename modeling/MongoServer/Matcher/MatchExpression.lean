import MongoServer.Bson.Compare
import MongoServer.Matcher.ElementPath

/-!
Match expressions, and the documents and single elements they match. A leaf of an expression
matches a document if it matches one of the elements its path leads to.
-/
namespace MongoServer

/-- What the expressions take from elsewhere: the keys by which a collator compares strings, whether
a regular expression matches somewhere in a string, and the tests of bits and of shapes. -/
structure MatcherLibrary (Collator : Type*) where
  comparisonKey : Collator → List UInt8 → List UInt8
  partialMatch : List UInt8 → List UInt8 → List UInt8 → Bool
  bitTest : ℕ → BSONValue → Bool
  geoTest : ℕ → BSONValue → Bool

/-- A library whose collators compare bytes and whose tests fail. -/
def MatcherLibrary.plain : MatcherLibrary Unit where
  comparisonKey _ s := s
  partialMatch _ _ _ := false
  bitTest _ _ := false
  geoTest _ _ := false

section Collation

mutual
/-- All strings that a collator compares, replaced by their comparison keys. The names of fields
and the scope of code are not compared by it. -/
def BSONValue.collate (key : List UInt8 → List UInt8) : BSONValue → BSONValue
  | .string s => .string (key s)
  | .symbol s => .symbol (key s)
  | .object fields => .object (collateFields key fields)
  | .array elems => .array (collateElements key elems)
  | v => v

def collateFields (key : List UInt8 → List UInt8) :
    List (CString × BSONValue) → List (CString × BSONValue)
  | [] => []
  | (name, v) :: fields => (name, v.collate key) :: collateFields key fields

def collateElements (key : List UInt8 → List UInt8) : List BSONValue → List BSONValue
  | [] => []
  | v :: elems => v.collate key :: collateElements key elems
end

variable {Collator : Type*} (lib : MatcherLibrary Collator)

/-- `compareElementValues` with a collator, or without one. -/
def MatcherLibrary.compare (collator : Option Collator) (l r : BSONValue) : ℤ :=
  match collator with
  | none => compareElementValues l r
  | some c =>
      compareElementValues (l.collate (lib.comparisonKey c)) (r.collate (lib.comparisonKey c))

end Collation

/-- The type of an element by which it is compared; that of a missing one is the same as that of
undefined. -/
def canonicalType (e : Option BSONValue) : ℤ := (e.map canonicalizeBSONType).getD 0

namespace BSONValue

/-- What `numberDouble` returns is not a number. -/
def isNaN : BSONValue → Bool
  | .number (.numberDouble d) => Binary64.isNaN d
  | _ => false

/-- A cast to 64 bits; a double out of range gives the lowest number. -/
def numberLong : BSONValue → ℤ
  | .number (.numberInt n) => n.toInt
  | .number (.numberLong n) => n.toInt
  | .number (.numberDouble d) =>
      if Binary64.isFinite d ∧ -2 ^ 63 ≤ Binary64.trunc d ∧ Binary64.trunc d < 2 ^ 63
      then Binary64.trunc d else -2 ^ 63
  | _ => 0

end BSONValue

inductive ComparisonType where
  | LT
  | LTE
  | EQ
  | GT
  | GTE
  deriving DecidableEq

namespace ComparisonType

def supportsEquality : ComparisonType → Bool
  | .LTE | .EQ | .GTE => true
  | .LT | .GT => false

def holds : ComparisonType → ℤ → Bool
  | .LT, x => x < 0
  | .LTE, x => x ≤ 0
  | .EQ, x => x = 0
  | .GT, x => 0 < x
  | .GTE, x => 0 ≤ x

end ComparisonType

/-- A type to match: one of them, or all numbers. -/
inductive MatchedType where
  | bsonType (type : ℤ)
  | allNumbers
  deriving DecidableEq

inductive MatchExpression (Collator : Type*) where
  | comparison (matchType : ComparisonType) (path : List UInt8) (rhs : BSONValue)
      (collator : Option Collator)
  | regex (path regex flags : List UInt8)
  | mod (path : List UInt8) (divisor remainder : ℤ)
  | exists (path : List UInt8)
  | typeOperator (path : List UInt8) (type : MatchedType)
  | matchIn (path : List UInt8) (equalities : List BSONValue)
      (regexes : List (List UInt8 × List UInt8)) (collator : Option Collator)
  | bitTest (path : List UInt8) (test : ℕ)
  | geo (path : List UInt8) (test : ℕ)
  | size (path : List UInt8) (size : ℤ)
  | elemMatchObject (path : List UInt8) (sub : MatchExpression Collator)
  | elemMatchValue (path : List UInt8) (subs : List (MatchExpression Collator))
  | and (expressions : List (MatchExpression Collator))
  | or (expressions : List (MatchExpression Collator))
  | nor (expressions : List (MatchExpression Collator))
  | not (exp : MatchExpression Collator)
  | alwaysFalse (path : List UInt8)

/-- The end of a document counts as a type. -/
def isValidBSONType (type : ℤ) : Bool := -1 ≤ type && type ≤ 19 || type = 127

namespace MatchExpression
variable {Collator : Type*} (lib : MatcherLibrary Collator) (equalities : List BSONValue)

mutual
/-- What the expressions' `init` functions accept. -/
def valid : MatchExpression Collator → Bool
  | .comparison _ _ rhs _ => rhs.type ≠ 6
  | .mod _ divisor _ => divisor ≠ 0
  | .typeOperator _ (.bsonType type) => isValidBSONType type
  | .matchIn _ equalities _ _ => equalities.all fun v => v.type ≠ 11 && v.type ≠ 6
  | .elemMatchObject _ sub => valid sub
  | .elemMatchValue _ subs => allValid subs
  | .and expressions | .or expressions | .nor expressions => allValid expressions
  | .not exp => valid exp
  | _ => true

def allValid : List (MatchExpression Collator) → Bool
  | [] => true
  | exp :: rest => valid exp && allValid rest
end

section Elements

def comparisonMatches (matchType : ComparisonType) (rhs : BSONValue) (collator : Option Collator)
    (e : Option BSONValue) : Bool :=
  if canonicalType e ≠ canonicalizeBSONType rhs then
    -- null and undefined are treated the same
    if canonicalType e + canonicalizeBSONType rhs = 5 then matchType.supportsEquality
    else if rhs.type = 127 ∨ rhs.type = -1 then matchType ≠ .EQ
    else false
  else
    match e with
    | none => matchType.holds 0
    | some v =>
        if v.isNaN || rhs.isNaN then matchType.supportsEquality && v.isNaN && rhs.isNaN
        else matchType.holds (lib.compare collator v rhs)

def regexMatches (regex flags : List UInt8) : Option BSONValue → Bool
  | some (.string s) | some (.symbol s) => lib.partialMatch regex flags s
  | some (.regEx pattern options) => regex = pattern.bytes && flags = options.bytes
  | _ => false

def modMatches (divisor remainder : ℤ) : Option BSONValue → Bool
  | some v => v.isNumber && v.numberLong.tmod divisor = remainder
  | none => false

def typeMatches : MatchedType → Option BSONValue → Bool
  | .allNumbers, e => e.any BSONValue.isNumber
  | .bsonType type, e => (e.map BSONValue.type).getD 0 = type

def isEqualTo (collator : Option Collator) (e : Option BSONValue) (equality : BSONValue) : Bool :=
  canonicalType e = canonicalizeBSONType equality &&
    match e with
    | none => true
    | some v => lib.compare collator v equality = 0

def equalityFound (collator : Option Collator)
    (e : Option BSONValue) : Bool := equalities.any (isEqualTo lib collator e)

def hasNull : Bool := equalities.any fun v => v.type = 10

def inMatches (regexes : List (List UInt8 × List UInt8))
    (collator : Option Collator) (e : Option BSONValue) : Bool :=
  (hasNull equalities && e.isNone) || equalityFound lib equalities collator e ||
    regexes.any fun r => regexMatches lib r.1 r.2 e

def sizeMatches (size : ℤ) (elems : List BSONValue) : Bool := 0 ≤ size && elems.length = size

end Elements

variable (path : List UInt8)

def leafMatches (matchesSingleElement : Option BSONValue → Bool) (doc : BSONObj) : Bool :=
  ((ElementPath.init path).elements doc).any fun c => matchesSingleElement c.element

/-- The array that a path ends at is not an element of itself. -/
def typeLeafMatches (type : MatchedType) (doc : BSONObj) : Bool :=
  ((ElementPath.init path).elements doc).any fun c =>
    !(type = .bsonType 4 && c.outerArray) && typeMatches type c.element

variable (matchesArray : List BSONValue → Bool)

def arrayMatches (doc : BSONObj) : Bool :=
  (ElementPath.elements ⟨.parse path, true, false⟩ doc).any fun c =>
    match c.element with
    | some (.array elems) => matchesArray elems
    | _ => false

def singleArrayMatches : Option BSONValue → Bool
  | some (.array elems) => matchesArray elems
  | _ => false

mutual
def «matches» : MatchExpression Collator → BSONObj → Bool
  | .comparison matchType path rhs collator, doc =>
      leafMatches path (comparisonMatches lib matchType rhs collator) doc
  | .regex path pattern flags, doc => leafMatches path (regexMatches lib pattern flags) doc
  | .mod path divisor remainder, doc => leafMatches path (modMatches divisor remainder) doc
  | .exists path, doc => leafMatches path Option.isSome doc
  | .typeOperator path type, doc => typeLeafMatches path type doc
  | .matchIn path equalities regexes collator, doc =>
      leafMatches path (inMatches lib equalities regexes collator) doc
  | .bitTest path test, doc => leafMatches path (fun e => e.any (lib.bitTest test)) doc
  | .geo path test, doc => leafMatches path (fun e => e.any (lib.geoTest test)) doc
  | .size path n, doc => arrayMatches path (sizeMatches n) doc
  | .elemMatchObject path sub, doc => arrayMatches path (fun elems => elems.any fun inner =>
      match inner.embeddedObject? with
      | some obj => «matches» sub obj
      | none => false) doc
  | .elemMatchValue path subs, doc => arrayMatches path (fun elems => elems.any fun inner =>
      singleAll subs (some inner)) doc
  | .and expressions, doc => matchesAll expressions doc
  | .or expressions, doc => matchesAny expressions doc
  | .nor expressions, doc => !matchesAny expressions doc
  | .not exp, doc => !«matches» exp doc
  | .alwaysFalse _, _ => false

def matchesAll : List (MatchExpression Collator) → BSONObj → Bool
  | [], _ => true
  | exp :: rest, doc => «matches» exp doc && matchesAll rest doc

def matchesAny : List (MatchExpression Collator) → BSONObj → Bool
  | [], _ => false
  | exp :: rest, doc => «matches» exp doc || matchesAny rest doc

def matchesSingleElement : MatchExpression Collator → Option BSONValue → Bool
  | .comparison matchType _ rhs collator, e => comparisonMatches lib matchType rhs collator e
  | .regex _ pattern flags, e => regexMatches lib pattern flags e
  | .mod _ divisor remainder, e => modMatches divisor remainder e
  | .exists _, e => e.isSome
  | .typeOperator _ type, e => typeMatches type e
  | .matchIn _ equalities regexes collator, e => inMatches lib equalities regexes collator e
  | .bitTest _ test, e => e.any (lib.bitTest test)
  | .geo _ test, e => e.any (lib.geoTest test)
  | .size _ n, e => singleArrayMatches (sizeMatches n) e
  | .elemMatchObject _ sub, e => singleArrayMatches (fun elems => elems.any fun inner =>
      match inner.embeddedObject? with
      | some obj => «matches» sub obj
      | none => false) e
  | .elemMatchValue _ subs, e => singleArrayMatches (fun elems => elems.any fun inner =>
      singleAll subs (some inner)) e
  | .and expressions, e => singleAll expressions e
  | .or expressions, e => singleAny expressions e
  | .nor expressions, e => !singleAny expressions e
  | .not exp, e => !matchesSingleElement exp e
  | .alwaysFalse _, _ => false

def singleAll : List (MatchExpression Collator) → Option BSONValue → Bool
  | [], _ => true
  | exp :: rest, e => matchesSingleElement exp e && singleAll rest e

def singleAny : List (MatchExpression Collator) → Option BSONValue → Bool
  | [], _ => false
  | exp :: rest, e => matchesSingleElement exp e || singleAny rest e
end

variable (expressions : List (MatchExpression Collator))

theorem matchesAll_eq (doc : BSONObj) :
    matchesAll lib expressions doc = expressions.all fun exp => «matches» lib exp doc := by
  induction expressions with
  | nil => rfl
  | cons exp rest ih => rw [matchesAll, ih, List.all_cons]

theorem matchesAny_eq (doc : BSONObj) :
    matchesAny lib expressions doc = expressions.any fun exp => «matches» lib exp doc := by
  induction expressions with
  | nil => rfl
  | cons exp rest ih => rw [matchesAny, ih, List.any_cons]

theorem singleAll_eq (e : Option BSONValue) :
    singleAll lib expressions e = expressions.all fun exp => matchesSingleElement lib exp e := by
  induction expressions with
  | nil => rfl
  | cons exp rest ih => rw [singleAll, ih, List.all_cons]

theorem singleAny_eq (e : Option BSONValue) :
    singleAny lib expressions e = expressions.any fun exp => matchesSingleElement lib exp e := by
  induction expressions with
  | nil => rfl
  | cons exp rest ih => rw [singleAny, ih, List.any_cons]

section Subjects

/-- What an expression is evaluated on: a document, or an element on its own. -/
abbrev Subject := BSONObj ⊕ Option BSONValue

def evaluate (exp : MatchExpression Collator) : Subject → Bool
  | .inl doc => «matches» lib exp doc
  | .inr e => matchesSingleElement lib exp e

def arrayTest : Subject → Bool
  | .inl doc => arrayMatches path matchesArray doc
  | .inr e => singleArrayMatches matchesArray e

variable (expressions : List (MatchExpression Collator)) (exp : MatchExpression Collator)
  (path : List UInt8) (s : Subject)

theorem evaluate_and : evaluate lib (.and expressions) s = expressions.all (evaluate lib · s) := by
  cases s with
  | inl doc => exact matchesAll_eq lib expressions doc
  | inr e => exact singleAll_eq lib expressions e

theorem evaluate_or : evaluate lib (.or expressions) s = expressions.any (evaluate lib · s) := by
  cases s with
  | inl doc => exact matchesAny_eq lib expressions doc
  | inr e => exact singleAny_eq lib expressions e

theorem evaluate_nor : evaluate lib (.nor expressions) s = !expressions.any (evaluate lib · s) := by
  cases s with
  | inl doc => exact congrArg (!·) (matchesAny_eq lib expressions doc)
  | inr e => exact congrArg (!·) (singleAny_eq lib expressions e)

theorem evaluate_not : evaluate lib (.not exp) s = !evaluate lib exp s := by
  cases s <;> rfl

theorem evaluate_elemMatchObject :
    evaluate lib (.elemMatchObject path exp) s = arrayTest path (fun elems => elems.any fun inner =>
      match inner.embeddedObject? with
      | some obj => evaluate lib exp (.inl obj)
      | none => false) s := by
  cases s <;> rfl

theorem evaluate_elemMatchValue :
    evaluate lib (.elemMatchValue path expressions) s = arrayTest path (fun elems =>
      elems.any fun inner => expressions.all (evaluate lib · (.inr (some inner)))) s := by
  have hall := fun inner => singleAll_eq lib expressions (some inner)
  cases s <;> simp only [evaluate, arrayTest, «matches», matchesSingleElement, hall]

/-- What the children match decides, in any order. -/
theorem evaluate_children {lib : MatcherLibrary Collator} {ls rs : List (MatchExpression Collator)}
    (h : (ls.map (evaluate lib)).Perm (rs.map (evaluate lib))) (s : Subject) :
    ls.all (evaluate lib · s) = rs.all (evaluate lib · s) ∧
      ls.any (evaluate lib · s) = rs.any (evaluate lib · s) := by
  have hall := h.all_eq (f := fun test => test s)
  have hany := h.any_eq (f := fun test => test s)
  rw [List.all_map, List.all_map] at hall
  rw [List.any_map, List.any_map] at hany
  exact ⟨hall, hany⟩

end Subjects

end MatchExpression
end MongoServer
