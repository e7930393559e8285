import MongoServer.Codes.SelfDelimiting
import MongoServer.Query.CanonicalQuery

/-!
Which indexes a predicate can use. `rateIndices` walks over a match expression and gives every
predicate for which bounds can be built the indexes with its path as their first field or as a later
one, as far as the index and the predicate are compatible.
-/
namespace MongoServer
namespace QueryPlanner
open MatchExpression
variable {Collator : Type}

/-- What the planner knows of an index that is a btree. -/
structure IndexEntry (Collator : Type) where
  name : List UInt8
  keyPattern : BSONObj
  sparse : Bool
  filterExpr : Option (MatchExpression Collator)
  collator : Option Collator

namespace Indexability

def isIndexOnOwnFieldTypeNode : MatchExpression Collator → Bool
  | .comparison _ _ _ _ | .regex _ _ _ | .mod _ _ _ | .matchIn _ _ _ _ | .typeOperator _ _
  | .geo _ _ | .exists _ => true
  | _ => false

/-- What `arrayUsesIndexOnOwnField` asks of each child; under a negation it asks its operand. -/
def isIndexableChild : MatchExpression Collator → Bool
  | .not (.mod _ _ _) | .not (.regex _ _ _) | .not (.typeOperator _ _) => false
  | .not notChild => isIndexOnOwnFieldTypeNode notChild
  | child => isIndexOnOwnFieldTypeNode child

def arrayUsesIndexOnOwnField : MatchExpression Collator → Bool
  | .elemMatchValue _ subs => subs.all isIndexableChild
  | _ => false

def nodeCanUseIndexOnOwnField (me : MatchExpression Collator) : Bool :=
  !me.path.isEmpty && (arrayUsesIndexOnOwnField me || isIndexOnOwnFieldTypeNode me)

end Indexability

open Indexability

mutual
/-- A comparison to a value of the type; the elements of the value are not looked at. -/
def boundsGeneratingNodeContainsComparisonToType (type : ℤ) : MatchExpression Collator → Bool
  | .comparison _ _ rhs _ => rhs.type = type
  | .matchIn _ equalities _ _ => equalities.any fun equality => equality.type = type
  | .not exp => boundsGeneratingNodeContainsComparisonToType type exp
  | .elemMatchValue _ subs => anyContainsComparisonToType type subs
  | _ => false

def anyContainsComparisonToType (type : ℤ) : List (MatchExpression Collator) → Bool
  | [] => false
  | exp :: rest => boundsGeneratingNodeContainsComparisonToType type exp ||
      anyContainsComparisonToType type rest
end

def containsCollatableComparison (node : MatchExpression Collator) : Bool :=
  boundsGeneratingNodeContainsComparisonToType 2 node ||
    boundsGeneratingNodeContainsComparisonToType 4 node ||
    boundsGeneratingNodeContainsComparisonToType 3 node

/-- The kinds of predicates whose negation an index cannot answer. -/
def negationUsesIndex : MatchExpression Collator → Bool
  | .regex _ _ _ | .mod _ _ _ | .typeOperator _ _ | .elemMatchValue _ _ => false
  | .matchIn _ _ regexes _ => regexes.isEmpty
  | _ => true

variable [DecidableEq Collator] (index : IndexEntry Collator)

/-- The part of `compatible` for an index that is a btree. -/
def compatible (node : MatchExpression Collator)
    (collator : Option Collator) (elemMatchChild : Bool) : Bool :=
  if containsCollatableComparison node && collator ≠ index.collator then false
  else
    match node with
    | .comparison .EQ _ rhs _ => !(index.sparse && !elemMatchChild && rhs.type = 10)
    | .matchIn _ equalities _ _ => !(index.sparse && !elemMatchChild && hasNull equalities)
    | .geo _ _ => false
    | .not child => !index.sparse && negationUsesIndex child
    | _ => true

def elemMatchValueCompatible (subs : List (MatchExpression Collator))
    (collator : Option Collator) : Bool :=
  subs.all fun child => compatible index child collator true

/-- The tests of `rateIndices` for a field of an index that has the path of the node. -/
def usable (node : MatchExpression Collator) (collator : Option Collator) : Bool :=
  compatible index node collator false &&
    match node with
    | .elemMatchValue _ subs => elemMatchValueCompatible index subs collator
    | _ => true

/-- The positions of the indexes that a predicate can use. -/
structure RelevantTag where
  path : List UInt8
  first : List ℕ
  notFirst : List ℕ

def relevantTag (indices : List (IndexEntry Collator)) (collator : Option Collator)
    (fullPath : List UInt8) (node : MatchExpression Collator) : RelevantTag where
  path := fullPath
  first := indices.zipIdx.flatMap fun (index, i) =>
    (index.keyPattern.take 1).filterMap fun elt =>
      if elt.1.bytes = fullPath && usable index node collator then some i else none
  notFirst := indices.zipIdx.flatMap fun (index, i) =>
    (index.keyPattern.drop 1).filterMap fun elt =>
      if elt.1.bytes = fullPath && usable index node collator then some i else none

section Labels
variable {L : Type} (label : MatchExpression Collator → L)

omit [DecidableEq Collator]

mutual
/-- The tree of an expression with the labels that its nodes have. -/
def labelled : MatchExpression Collator → Codes.Tree L
  | .elemMatchObject path sub => .node (label (.elemMatchObject path sub)) [labelled sub]
  | .elemMatchValue path subs => .node (label (.elemMatchValue path subs)) (labelledAll subs)
  | .and expressions => .node (label (.and expressions)) (labelledAll expressions)
  | .or expressions => .node (label (.or expressions)) (labelledAll expressions)
  | .nor expressions => .node (label (.nor expressions)) (labelledAll expressions)
  | .not exp => .node (label (.not exp)) [labelled exp]
  | exp => .node (label exp) []

def labelledAll : List (MatchExpression Collator) → List (Codes.Tree L)
  | [] => []
  | exp :: rest => labelled exp :: labelledAll rest
end

end Labels

/-- A path below another one. -/
def extendPrefix (pathPrefix path : List UInt8) : List UInt8 :=
  if path.isEmpty then pathPrefix else pathPrefix ++ path ++ [FieldRef.dot]

def untagged (exp : MatchExpression Collator) : Codes.Tree (Option RelevantTag) :=
  labelled (fun _ => none) exp

variable (indices : List (IndexEntry Collator)) (collator : Option Collator)

mutual
/-- The tags of the nodes. A negation shares its tag with the predicate that it negates. -/
def rateIndices (pathPrefix : List UInt8) :
    MatchExpression Collator → Codes.Tree (Option RelevantTag)
  | .nor expressions => untagged (.nor expressions)
  | .not exp =>
      if nodeCanUseIndexOnOwnField exp then
        let rt := relevantTag indices collator (pathPrefix ++ exp.path) (.not exp)
        .node (some rt) [.node (some rt) (labelledAll (fun _ => none) exp.children)]
      else .node none [rateIndices pathPrefix exp]
  | .elemMatchObject path sub => .node none [rateIndices (extendPrefix pathPrefix path) sub]
  | .and expressions | .or expressions => .node none (rateAllIndices pathPrefix expressions)
  | exp =>
      if nodeCanUseIndexOnOwnField exp then
        .node (some (relevantTag indices collator (pathPrefix ++ exp.path) exp))
          (labelledAll (fun _ => none) exp.children)
      else untagged exp

def rateAllIndices (pathPrefix : List UInt8) :
    List (MatchExpression Collator) → List (Codes.Tree (Option RelevantTag))
  | [] => []
  | exp :: rest => rateIndices pathPrefix exp :: rateAllIndices pathPrefix rest
end

end QueryPlanner
end MongoServer
