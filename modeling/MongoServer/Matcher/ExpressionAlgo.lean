import MongoServer.Matcher.MatchExpression

/-!
Algorithms on match expressions: whether two are the same, whether one matches a subset of the
documents of the other, and how to split one into a part that does not read given fields and the
rest.
-/
namespace MongoServer
/-- The type as it is stored; all numbers are stored without one. -/
def MatchedType.type : MatchedType → ℤ
  | .bsonType type => type
  | .allNumbers => 0

namespace MatchExpression
variable {Collator : Type*}

/-- The path of a leaf; other nodes have none. -/
def path : MatchExpression Collator → List UInt8
  | .comparison _ path _ _ => path
  | .regex path _ _ => path
  | .mod path _ _ => path
  | .exists path => path
  | .typeOperator path _ => path
  | .matchIn path _ _ _ => path
  | .bitTest path _ => path
  | .geo path _ => path
  | .size path _ => path
  | .elemMatchObject path _ => path
  | .elemMatchValue path _ => path
  | .and _ | .or _ | .nor _ | .not _ | .alwaysFalse _ => []

section Equivalence
variable [DecidableEq Collator] (lib : MatcherLibrary Collator)

def sameElement (collator : Option Collator) (l r : BSONValue) : Bool :=
  canonicalizeBSONType l = canonicalizeBSONType r && lib.compare collator l r = 0

def sameEqualities (collator : Option Collator) (ls rs : List BSONValue) : Bool :=
  ls.length = rs.length && (ls.zip rs).all fun e => sameElement lib collator e.1 e.2

mutual
def equivalent : MatchExpression Collator → MatchExpression Collator → Bool
  | .comparison matchType path rhs collator, other =>
      match other with
      | .comparison matchType' path' rhs' collator' =>
          matchType = matchType' && collator = collator' && path = path' &&
            sameElement lib none rhs rhs'
      | _ => false
  | .regex path pattern flags, other =>
      match other with
      | .regex path' pattern' flags' => path = path' && pattern = pattern' && flags = flags'
      | _ => false
  | .mod path divisor remainder, other =>
      match other with
      | .mod path' divisor' remainder' =>
          path = path' && divisor = divisor' && remainder = remainder'
      | _ => false
  | .exists path, other =>
      match other with
      | .exists path' => path = path'
      | _ => false
  | .typeOperator path type, other =>
      match other with
      | .typeOperator path' type' =>
          path = path' && if type = .allNumbers then type' = .allNumbers else type.type = type'.type
      | _ => false
  | .matchIn path equalities regexes collator, other =>
      match other with
      | .matchIn path' equalities' regexes' collator' =>
          path = path' && hasNull equalities = hasNull equalities' && regexes = regexes' &&
            collator = collator' && sameEqualities lib collator equalities equalities'
      | _ => false
  | .bitTest path test, other =>
      match other with
      | .bitTest path' test' => path = path' && test = test'
      | _ => false
  | .geo path test, other =>
      match other with
      | .geo path' test' => path = path' && test = test'
      | _ => false
  | .size path n, other =>
      match other with
      | .size path' n' => path = path' && n = n'
      | _ => false
  | .elemMatchObject path sub, other =>
      match other with
      | .elemMatchObject path' sub' => path = path' && equivalent sub sub'
      | _ => false
  | .elemMatchValue path subs, other =>
      match other with
      | .elemMatchValue path' subs' => path = path' && equivalentList subs subs'
      | _ => false
  | .and expressions, other =>
      match other with
      | .and expressions' => equivalentList expressions expressions'
      | _ => false
  | .or expressions, other =>
      match other with
      | .or expressions' => equivalentList expressions expressions'
      | _ => false
  | .nor expressions, other =>
      match other with
      | .nor expressions' => equivalentList expressions expressions'
      | _ => false
  | .not exp, other =>
      match other with
      | .not exp' => equivalent exp exp'
      | _ => false
  | .alwaysFalse _, other =>
      match other with
      | .alwaysFalse _ => true
      | _ => false

def equivalentList : List (MatchExpression Collator) → List (MatchExpression Collator) → Bool
  | [], others => others.isEmpty
  | exp :: rest, others =>
      match others with
      | [] => false
      | exp' :: rest' => equivalent exp exp' && equivalentList rest rest'
end

end Equivalence

section Subsets
variable [DecidableEq Collator] (lib : MatcherLibrary Collator) (lhs : MatchExpression Collator)

/-- The types whose values a collation is thought to change. -/
def isCollatableType : BSONValue → Bool
  | .string _ | .object _ | .array _ => true
  | _ => false

/-- A comparison with `lhsData` matches a subset of what one with `rhsData` matches. -/
def comparisonIsSubsetOf (lhsType : ComparisonType) (lhsPath : List UInt8) (lhsData : BSONValue)
    (lhsCollator : Option Collator) (rhsType : ComparisonType) (rhsPath : List UInt8)
    (rhsData : BSONValue) (rhsCollator : Option Collator) : Bool :=
  if lhsPath ≠ rhsPath then false
  else if canonicalizeBSONType lhsData ≠ canonicalizeBSONType rhsData then false
  else if lhsData.isNaN || rhsData.isNaN then
    lhsType.supportsEquality && rhsType.supportsEquality && (lhsData.isNaN && rhsData.isNaN)
  else if lhsCollator ≠ rhsCollator ∧ isCollatableType lhsData then false
  else
    let cmp := lib.compare rhsCollator lhsData rhsData
    if lhsType = rhsType ∧ cmp = 0 then true
    else
      match rhsType, lhsType with
      | .LTE, .LT | .LTE, .LTE | .LTE, .EQ => cmp ≤ 0
      | .LT, .LT | .LT, .LTE | .LT, .EQ => cmp < 0
      | .GTE, .GT | .GTE, .GTE | .GTE, .EQ => cmp ≥ 0
      | .GT, .GT | .GT, .GTE | .GT, .EQ => cmp > 0
      | _, _ => false

def isSubsetOfComparison (rhsType : ComparisonType)
    (rhsPath : List UInt8) (rhsData : BSONValue) (rhsCollator : Option Collator) : Bool :=
  match lhs with
  | .comparison matchType path data collator =>
      comparisonIsSubsetOf lib matchType path data collator rhsType rhsPath rhsData rhsCollator
  | .matchIn path equalities regexes collator =>
      -- every element of the set stands for an equality
      path = rhsPath && regexes.isEmpty && equalities.all fun elem =>
        comparisonIsSubsetOf lib .EQ path elem collator rhsType rhsPath rhsData rhsCollator
  | _ => false

def isSubsetOfExists (rhsPath : List UInt8) : Bool :=
  match lhs with
  | .comparison _ path data _ => path = rhsPath && data.type ≠ 10
  | .elemMatchValue path _ => path = rhsPath
  | .elemMatchObject path _ => path = rhsPath
  | .exists path => path = rhsPath
  | .geo path _ => path = rhsPath
  | .mod path _ _ => path = rhsPath
  | .regex path _ _ => path = rhsPath
  | .size path _ => path = rhsPath
  | .typeOperator path _ => path = rhsPath
  | .matchIn path equalities _ _ => path = rhsPath && !hasNull equalities
  | .not (.comparison .EQ path data _) => path = rhsPath && data.type = 10
  | .not (.matchIn path equalities _ _) => path = rhsPath && hasNull equalities
  | _ => false

def isSubsetOfLeaf (lhs rhs : MatchExpression Collator) : Bool :=
  match rhs with
  | .comparison matchType path data collator =>
      isSubsetOfComparison lib lhs matchType path data collator
  | .exists path => isSubsetOfExists lhs path
  | _ => false

mutual
/-- The part of `isSubsetOf` for an expression `rhs` that is no conjunction; it stays the same. -/
def isSubsetOfClause (rhs : MatchExpression Collator) : MatchExpression Collator → Bool
  | .and expressions => equivalent lib (.and expressions) rhs || anyIsSubsetOf rhs expressions
  | .or expressions => equivalent lib (.or expressions) rhs || allAreSubsetsOf rhs expressions
  | lhs => equivalent lib lhs rhs || isSubsetOfLeaf lib lhs rhs

def anyIsSubsetOf (rhs : MatchExpression Collator) : List (MatchExpression Collator) → Bool
  | [] => false
  | exp :: rest => isSubsetOfClause rhs exp || anyIsSubsetOf rhs rest

def allAreSubsetsOf (rhs : MatchExpression Collator) : List (MatchExpression Collator) → Bool
  | [] => true
  | exp :: rest => isSubsetOfClause rhs exp && allAreSubsetsOf rhs rest
end

mutual
/-- Every document that `lhs` matches is said to be matched by an expression. -/
def isSubsetOf (lhs : MatchExpression Collator) : MatchExpression Collator → Bool
  | .and expressions => equivalent lib lhs (.and expressions) || isSubsetOfAll lhs expressions
  | rhs => isSubsetOfClause lib rhs lhs

def isSubsetOfAll (lhs : MatchExpression Collator) : List (MatchExpression Collator) → Bool
  | [] => true
  | exp :: rest => isSubsetOf lhs exp && isSubsetOfAll lhs rest
end

end Subsets

section Splitting

/-- A dotted path that goes on from another one. -/
def isPathPrefixOf (first second : List UInt8) : Bool :=
  first.length < second.length && first.isPrefixOf second &&
    second[first.length]? = some FieldRef.dot

def isLeafIndependentOf (path : List UInt8) (fields : List (List UInt8)) : Bool :=
  fields.all fun field => !(path = field || isPathPrefixOf path field || isPathPrefixOf field path)

def isLogical : MatchExpression Collator → Bool
  | .and _ | .or _ | .not _ | .nor _ => true
  | _ => false

def isElemMatch : MatchExpression Collator → Bool
  | .elemMatchObject _ _ | .elemMatchValue _ _ => true
  | _ => false

mutual
def isIndependentOf (fields : List (List UInt8)) : MatchExpression Collator → Bool
  | .and expressions | .or expressions | .nor expressions => allIndependentOf fields expressions
  | .not exp => isIndependentOf fields exp
  | exp => !isElemMatch exp && isLeafIndependentOf exp.path fields

def allIndependentOf (fields : List (List UInt8)) : List (MatchExpression Collator) → Bool
  | [] => true
  | exp :: rest => isIndependentOf fields exp && allIndependentOf fields rest
end

def createAndOfNodes : List (MatchExpression Collator) → Option (MatchExpression Collator)
  | [] => none
  | [exp] => some exp
  | children => some (.and children)

def createNorOfNodes : List (MatchExpression Collator) → Option (MatchExpression Collator)
  | [] => none
  | children => some (.nor children)

mutual
/-- A part that is independent of the fields, and the rest. -/
def splitMatchExpressionBy (fields : List (List UInt8)) : MatchExpression Collator →
    Option (MatchExpression Collator) × Option (MatchExpression Collator)
  | .and expressions =>
      if isIndependentOf fields (.and expressions) then (some (.and expressions), none)
      else
        let children := splitChildren fields expressions
        (createAndOfNodes children.1, createAndOfNodes children.2)
  | .nor expressions =>
      if isIndependentOf fields (.nor expressions) then (some (.nor expressions), none)
      else
        -- only whole clauses can be moved out of a negation
        (createNorOfNodes (expressions.filter (isIndependentOf fields)),
          createNorOfNodes (expressions.filter fun exp => !isIndependentOf fields exp))
  | exp => if isIndependentOf fields exp then (some exp, none) else (none, some exp)

def splitChildren (fields : List (List UInt8)) : List (MatchExpression Collator) →
    List (MatchExpression Collator) × List (MatchExpression Collator)
  | [] => ([], [])
  | exp :: rest =>
      let child := splitMatchExpressionBy fields exp
      let children := splitChildren fields rest
      (child.1.toList ++ children.1, child.2.toList ++ children.2)
end

end Splitting

end MatchExpression
end MongoServer
