import MongoServer.Matcher.ParsedExpressions
import MongoServer.Matcher.Serialization

/-!
The canonical form of a match expression: connectives are merged with their children of the same
kind, lists of one element become the predicates they stand for, and children are sorted. A document
matches the canonical form when it matches the expression, except that a list of null alone becomes
an equality with null, which undefined satisfies as well.
-/
namespace MongoServer
open List
namespace MatchExpression
variable {Collator : Type} (lib : MatcherLibrary Collator) (exp : MatchExpression Collator)

/-- The kinds of match expressions, in the order by which they are sorted. -/
inductive MatchType where
  | AND | OR
  | ELEM_MATCH_OBJECT | ELEM_MATCH_VALUE | SIZE
  | EQ | LTE | LT | GT | GTE | REGEX | MOD | EXISTS | MATCH_IN
  | BITS_ALL_SET | BITS_ALL_CLEAR | BITS_ANY_SET | BITS_ANY_CLEAR
  | NOT | NOR
  | TYPE_OPERATOR | GEO | WHERE
  | ALWAYS_FALSE
  | GEO_NEAR | TEXT
  deriving DecidableEq

inductive BitTestType where
  | allSet | allClear | anySet | anyClear

def BitTestType.matchType : BitTestType → MatchType
  | allSet => .BITS_ALL_SET
  | allClear => .BITS_ALL_CLEAR
  | anySet => .BITS_ANY_SET
  | anyClear => .BITS_ANY_CLEAR

inductive GeoType where
  | geo | geoNear

def GeoType.matchType : GeoType → MatchType
  | geo => .GEO
  | geoNear => .GEO_NEAR

/-- The kinds of the tests of bits and of shapes. -/
structure TestTypes where
  bitTest : ℕ → BitTestType
  geo : ℕ → GeoType

section Sorting
variable (types : TestTypes) (expressions : List (MatchExpression Collator))

def matchType : MatchExpression Collator → MatchType
  | .comparison .EQ _ _ _ => .EQ
  | .comparison .LTE _ _ _ => .LTE
  | .comparison .LT _ _ _ => .LT
  | .comparison .GT _ _ _ => .GT
  | .comparison .GTE _ _ _ => .GTE
  | .regex _ _ _ => .REGEX
  | .mod _ _ _ => .MOD
  | .exists _ => .EXISTS
  | .typeOperator _ _ => .TYPE_OPERATOR
  | .matchIn _ _ _ _ => .MATCH_IN
  | .bitTest _ test => (types.bitTest test).matchType
  | .geo _ test => (types.geo test).matchType
  | .size _ _ => .SIZE
  | .elemMatchObject _ _ => .ELEM_MATCH_OBJECT
  | .elemMatchValue _ _ => .ELEM_MATCH_VALUE
  | .and _ => .AND
  | .or _ => .OR
  | .nor _ => .NOR
  | .not _ => .NOT
  | .alwaysFalse _ => .ALWAYS_FALSE

def children : MatchExpression Collator → List (MatchExpression Collator)
  | .elemMatchObject _ sub => [sub]
  | .elemMatchValue _ subs => subs
  | .and expressions | .or expressions | .nor expressions => expressions
  | .not exp => [exp]
  | _ => []

theorem sum_sizeOf_lt : (expressions.map sizeOf).sum < sizeOf expressions := by
  induction expressions with
  | nil => simp
  | cons exp rest ih =>
    simp only [map_cons, sum_cons, List.cons.sizeOf_spec]
    omega

theorem sum_sizeOf_children_lt : (exp.children.map sizeOf).sum < sizeOf exp := by
  cases exp with
  | elemMatchValue path subs =>
    have := sum_sizeOf_lt subs
    simp only [children, elemMatchValue.sizeOf_spec]
    omega
  | and expressions | or expressions | nor expressions =>
    have := sum_sizeOf_lt expressions
    simp only [children, and.sizeOf_spec, or.sizeOf_spec, nor.sizeOf_spec]
    omega
  | _ => simp [children]

mutual
def matchExpressionComparator (lhs rhs : MatchExpression Collator) : ℤ :=
  if matchType types lhs ≠ matchType types rhs then
    if (matchType types lhs).ctorIdx < (matchType types rhs).ctorIdx then -1 else 1
  else
    let pathsCompare := ByteOrder.toSign (compare lhs.path rhs.path)
    if pathsCompare ≠ 0 then pathsCompare else compareChildren lhs.children rhs.children
termination_by (sizeOf lhs, 0)
decreasing_by exact Prod.Lex.left _ _ (sum_sizeOf_children_lt lhs)

def compareChildren (ls rs : List (MatchExpression Collator)) : ℤ :=
  match ls, rs with
  | [], [] => 0
  | [], _ :: _ => -1
  | _ :: _, [] => 1
  | l :: ls, r :: rs =>
      let childCompare := matchExpressionComparator l r
      if childCompare ≠ 0 then childCompare else compareChildren ls rs
termination_by ((ls.map sizeOf).sum, 1 + ls.length)
decreasing_by all_goals simp_all [Prod.lex_def]; omega
end

def matchExpressionLessThan (lhs rhs : MatchExpression Collator) : Bool :=
  matchExpressionComparator types lhs rhs < 0

/-- A stable sort, for one that leaves the order of equal children open. -/
def sortChildren : List (MatchExpression Collator) :=
  expressions.mergeSort fun l r => !matchExpressionLessThan types r l

mutual
def sortTree : MatchExpression Collator → MatchExpression Collator
  | .elemMatchObject path sub => .elemMatchObject path (sortTree sub)
  | .elemMatchValue path subs => .elemMatchValue path (sortChildren types (sortTrees subs))
  | .and expressions => .and (sortChildren types (sortTrees expressions))
  | .or expressions => .or (sortChildren types (sortTrees expressions))
  | .nor expressions => .nor (sortChildren types (sortTrees expressions))
  | .not exp => .not (sortTree exp)
  | exp => exp

def sortTrees : List (MatchExpression Collator) → List (MatchExpression Collator)
  | [] => []
  | exp :: rest => sortTree exp :: sortTrees rest
end

end Sorting

section Normalization

/-- The children with those of the same kind replaced by theirs, which go last. -/
def absorbChildren
    (childrenOf : MatchExpression Collator → Option (List (MatchExpression Collator)))
    (expressions : List (MatchExpression Collator)) : List (MatchExpression Collator) :=
  (expressions.filter fun exp => (childrenOf exp).isNone) ++
    expressions.flatMap fun exp => (childrenOf exp).getD []

def andChildren : MatchExpression Collator → Option (List (MatchExpression Collator))
  | .and expressions => some expressions
  | _ => none

def orChildren : MatchExpression Collator → Option (List (MatchExpression Collator))
  | .or expressions => some expressions
  | _ => none

mutual
/-- The children of an `$elemMatch` of objects stay as they are. -/
def normalizeTree : MatchExpression Collator → MatchExpression Collator
  | .and expressions =>
      match absorbChildren andChildren (normalizeTrees expressions) with
      | [exp] => exp
      | absorbed => .and absorbed
  | .or expressions =>
      match absorbChildren orChildren (normalizeTrees expressions) with
      | [exp] => exp
      | absorbed => .or absorbed
  | .nor expressions =>
      match normalizeTrees expressions with
      | [exp] => .not exp
      | normalized => .nor normalized
  | .not exp => .not (normalizeTree exp)
  | .elemMatchValue path subs => .elemMatchValue path (normalizeTrees subs)
  | .matchIn path [] [r] _ => .regex path r.1 r.2
  | .matchIn path [v] [] collator => .comparison .EQ path v collator
  | exp => exp

def normalizeTrees : List (MatchExpression Collator) → List (MatchExpression Collator)
  | [] => []
  | exp :: rest => normalizeTree exp :: normalizeTrees rest
end

end Normalization

section Lists
variable {ls rs : List (MatchExpression Collator)}

theorem any_congr_mem {α : Type*} {l : List α} {p q : α → Bool} (h : ∀ a ∈ l, p a = q a) :
    l.any p = l.any q := by
  induction l with
  | nil => rfl
  | cons a l ih =>
    obtain ⟨ha, hl⟩ := forall_mem_cons.mp h
    rw [any_cons, any_cons, ha, ih hl]

theorem all_congr_map {α : Type} {g : MatchExpression Collator → α} (h : ls.map g = rs.map g)
    (p : α → Bool) : (ls.all fun exp => p (g exp)) = rs.all fun exp => p (g exp) := by
  have := congrArg (List.all · p) h
  simpa only [all_map, Function.comp_def] using this

theorem any_congr_map {α : Type} {g : MatchExpression Collator → α} (h : ls.map g = rs.map g)
    (p : α → Bool) : (ls.any fun exp => p (g exp)) = rs.any fun exp => p (g exp) := by
  have := congrArg (List.any · p) h
  simpa only [any_map, Function.comp_def] using this

end Lists

section SortTree
variable (types : TestTypes)

theorem sortChildren_perm (expressions : List (MatchExpression Collator)) :
    (sortChildren types expressions).Perm expressions := mergeSort_perm _ _

mutual
theorem evaluate_sortTree (exp : MatchExpression Collator) :
    evaluate lib (sortTree types exp) = evaluate lib exp := by
  funext s
  cases exp with
  | elemMatchObject path sub =>
    rw [sortTree, evaluate_elemMatchObject, evaluate_elemMatchObject, evaluate_sortTree sub]
  | elemMatchValue _ exps | and exps | or exps | nor exps =>
    have hsorted := (sortChildren_perm types (sortTrees types exps)).map (evaluate lib)
    have hkids := evaluate_children (hsorted.trans (.of_eq (evaluate_sortTrees exps)))
    simp only [sortTree, evaluate_elemMatchValue, evaluate_and, evaluate_or, evaluate_nor, hkids]
  | not exp => rw [sortTree, evaluate_not, evaluate_not, evaluate_sortTree exp]
  | _ => rfl

theorem evaluate_sortTrees (expressions : List (MatchExpression Collator)) :
    (sortTrees types expressions).map (evaluate lib) = expressions.map (evaluate lib) := by
  match expressions with
  | [] => rfl
  | exp :: rest =>
    rw [sortTrees, map_cons, map_cons, evaluate_sortTree exp, evaluate_sortTrees rest]
end

end SortTree

section SingleNull

def isUndefined (e : Option BSONValue) : Bool := e.any fun v => v.type = 6

def isNullOrMissing (e : Option BSONValue) : Bool := e.all fun v => v.type = 10

def isNullList (equalities : List BSONValue) (regexes : List (List UInt8 × List UInt8)) : Bool :=
  match equalities, regexes with
  | [v], [] => v.type = 10
  | _, _ => false

theorem inMatches_null (collator : Option Collator) (e : Option BSONValue) :
    inMatches lib [.jstNULL] [] collator e = isNullOrMissing e := by
  cases e with
  | none => rfl
  | some v =>
    simp only [inMatches, Option.isNone_some, Bool.and_false, Bool.false_or, equalityFound,
      any_cons, any_nil, Bool.or_false, isEqualTo, isNullOrMissing, Option.all_some]
    cases v with
    | jstNULL => cases collator <;> rfl
    | number n => cases n <;> rfl
    | _ => rfl

theorem comparisonMatches_null (collator : Option Collator) (e : Option BSONValue) :
    comparisonMatches lib .EQ .jstNULL collator e = (isNullOrMissing e || isUndefined e) := by
  cases e with
  | none => rfl
  | some v =>
    cases v with
    | jstNULL => cases collator <;> rfl
    | number n => cases n <;> rfl
    | _ => rfl

theorem comparisonMatches_eq_inMatches {v : BSONValue} (hundefined : v ≠ .undefined)
    (hnull : v ≠ .jstNULL) (collator : Option Collator) (e : Option BSONValue) :
    comparisonMatches lib .EQ v collator e = inMatches lib [v] [] collator e := by
  have hin : inMatches lib [v] [] collator e = isEqualTo lib collator e v := by
    have htype : v.type ≠ 10 := fun h => hnull ((type_eq_null_iff v).mp h)
    simp [inMatches, hasNull, equalityFound, htype]
  rw [hin, Bool.eq_iff_iff]
  by_cases htype : canonicalType e = canonicalizeBSONType v
  · cases e with
    | none => exact absurd (eq_undefined_of_type htype) hundefined
    | some u =>
      have htype' : canonicalizeBSONType u = canonicalizeBSONType v := htype
      rw [comparisonMatches_of_type lib collator htype']
      simp [ComparisonType.supportsEquality, ComparisonType.strictly, isEqualTo, htype,
        lib.compare_eq_iff collator htype']
  · have hsum : canonicalType e + canonicalizeBSONType v ≠ 5 := fun h =>
      (null_or_undefined_of_sum h).elim hnull hundefined
    rw [comparisonMatches_of_type_ne lib collator htype]
    simp [hsum, isEqualTo, htype]

end SingleNull

section NormalizeTree

mutual
/-- No list of null alone meets an undefined value but no null and nothing missing, where the
document is matched. -/
def nullsAlike : MatchExpression Collator → BSONObj → Bool
  | .matchIn path equalities regexes _, doc =>
      !isNullList equalities regexes || !leafMatches path isUndefined doc ||
        leafMatches path isNullOrMissing doc
  | .elemMatchValue path subs, doc =>
      !arrayMatches path (fun elems => elems.any fun inner =>
        !allNullsAlikeSingle subs (some inner)) doc
  | .and expressions, doc | .or expressions, doc | .nor expressions, doc =>
      allNullsAlike expressions doc
  | .not exp, doc => nullsAlike exp doc
  | _, _ => true

def allNullsAlike : List (MatchExpression Collator) → BSONObj → Bool
  | [], _ => true
  | exp :: rest, doc => nullsAlike exp doc && allNullsAlike rest doc

def nullsAlikeSingle : MatchExpression Collator → Option BSONValue → Bool
  | .matchIn _ equalities regexes _, e => !isNullList equalities regexes || !isUndefined e
  | .elemMatchValue _ subs, e =>
      !singleArrayMatches (fun elems => elems.any fun inner =>
        !allNullsAlikeSingle subs (some inner)) e
  | .and expressions, e | .or expressions, e | .nor expressions, e =>
      allNullsAlikeSingle expressions e
  | .not exp, e => nullsAlikeSingle exp e
  | _, _ => true

def allNullsAlikeSingle : List (MatchExpression Collator) → Option BSONValue → Bool
  | [], _ => true
  | exp :: rest, e => nullsAlikeSingle exp e && allNullsAlikeSingle rest e
end

variable {lib}

section Absorbed
variable {childrenOf : MatchExpression Collator → Option (List (MatchExpression Collator))}
  {f : MatchExpression Collator → Bool}

theorem all_absorbChildren (hf : ∀ exp siblings, childrenOf exp = some siblings →
    f exp = siblings.all f) (expressions : List (MatchExpression Collator)) :
    (absorbChildren childrenOf expressions).all f = expressions.all f := by
  have hone (exp : MatchExpression Collator) :
      ((!(childrenOf exp).isNone || f exp) && ((childrenOf exp).getD []).all f) = f exp := by
    cases h : childrenOf exp with
    | none => simp
    | some siblings => simp [hf exp siblings h]
  rw [absorbChildren, all_append, all_filter, all_flatMap, Bool.eq_iff_iff]
  simp only [Bool.and_eq_true, all_eq_true, ← forall₂_and]
  exact forall₂_congr fun exp _ => by rw [← all_eq_true, ← Bool.and_eq_true, hone]

theorem any_absorbChildren (hf : ∀ exp siblings, childrenOf exp = some siblings →
    f exp = siblings.any f) (expressions : List (MatchExpression Collator)) :
    (absorbChildren childrenOf expressions).any f = expressions.any f := by
  have hnot (exp siblings) (h : childrenOf exp = some siblings) :
      (!f exp) = siblings.all fun exp => !f exp := by
    rw [hf exp siblings h, not_any_eq_all_not]
  have hall := all_absorbChildren hnot expressions
  rw [← not_any_eq_all_not, ← not_any_eq_all_not] at hall
  exact Bool.not_inj hall

end Absorbed

section Unwrapped
variable (lib : MatcherLibrary Collator) (expressions : List (MatchExpression Collator))
  (s : Subject)

theorem evaluate_unwrapAnd : evaluate lib (match expressions with
      | [exp] => exp
      | absorbed => .and absorbed) s = expressions.all (evaluate lib · s) := by
  match expressions with
  | [exp] => simp
  | [] | _ :: _ :: _ => exact evaluate_and lib _ s

theorem evaluate_unwrapOr : evaluate lib (match expressions with
      | [exp] => exp
      | absorbed => .or absorbed) s = expressions.any (evaluate lib · s) := by
  match expressions with
  | [exp] => simp
  | [] | _ :: _ :: _ => exact evaluate_or lib _ s

theorem evaluate_unwrapNor : evaluate lib (match expressions with
      | [exp] => .not exp
      | normalized => .nor normalized) s = !expressions.any (evaluate lib · s) := by
  match expressions with
  | [exp] => simp [evaluate_not]
  | [] | _ :: _ :: _ => exact evaluate_nor lib _ s

theorem evaluate_absorbAnd : (absorbChildren andChildren expressions).all (evaluate lib · s) =
      expressions.all (evaluate lib · s) := by
  apply all_absorbChildren
  intro exp siblings h
  cases exp with
  | and expressions =>
    obtain rfl := Option.some.inj h
    exact evaluate_and lib expressions s
  | _ => simp [andChildren] at h

theorem evaluate_absorbOr : (absorbChildren orChildren expressions).any (evaluate lib · s) =
      expressions.any (evaluate lib · s) := by
  apply any_absorbChildren
  intro exp siblings h
  cases exp with
  | or expressions =>
    obtain rfl := Option.some.inj h
    exact evaluate_or lib expressions s
  | _ => simp [orChildren] at h

end Unwrapped

section Leaves
variable {path : List UInt8} {collator : Option Collator}

theorem leafMatches_or (p q : Option BSONValue → Bool) (doc : BSONObj) :
    leafMatches path (fun e => p e || q e) doc =
      (leafMatches path p doc || leafMatches path q doc) := by
  rw [Bool.eq_iff_iff]
  simp only [leafMatches, any_eq_true, Bool.or_eq_true, and_or_left, exists_or]

/-- With null, the list and the equality differ on undefined. -/
theorem matches_nullList (lib : MatcherLibrary Collator) (path : List UInt8)
    (collator : Option Collator) (doc : BSONObj) :
    «matches» lib (.matchIn path [.jstNULL] [] collator) doc =
        leafMatches path isNullOrMissing doc ∧
      «matches» lib (.comparison .EQ path .jstNULL collator) doc =
        (leafMatches path isNullOrMissing doc || leafMatches path isUndefined doc) := by
  constructor
  · simp [«matches», funext (inMatches_null lib collator)]
  · simp [«matches», funext (comparisonMatches_null lib collator), leafMatches_or]

theorem nullsAlike_nullList (doc : BSONObj) :
    nullsAlike (.matchIn path [.jstNULL] [] collator) doc =
      (!leafMatches path isUndefined doc || leafMatches path isNullOrMissing doc) := rfl

theorem normalizeTree_nullList_iff (doc : BSONObj) :
    «matches» lib (normalizeTree (.matchIn path [.jstNULL] [] collator)) doc =
        «matches» lib (.matchIn path [.jstNULL] [] collator) doc ↔
      nullsAlike (.matchIn path [.jstNULL] [] collator) doc = true := by
  obtain ⟨hlist, hequality⟩ := matches_nullList lib path collator doc
  rw [nullsAlike_nullList, hlist, normalizeTree, hequality]
  cases leafMatches path isNullOrMissing doc <;> cases leafMatches path isUndefined doc <;> simp

/-- No list of null alone treats the subject unlike the equality that it becomes. -/
def nullsAlikeOn : Subject → Bool
  | .inl doc => nullsAlike exp doc
  | .inr e => nullsAlikeSingle exp e

/-- The normalised tree matches the same documents, and the same elements, as long as the lists of
null alone treat them alike. -/
def KeepsMatches (lib : MatcherLibrary Collator) (exp : MatchExpression Collator) : Prop :=
  ∀ s, nullsAlikeOn exp s = true → evaluate lib (normalizeTree exp) s = evaluate lib exp s

theorem keepsMatches_singleton {v : BSONValue} (hv : v.type ≠ 6) :
    KeepsMatches lib (.matchIn path [v] [] collator) := by
  intro s h
  rw [normalizeTree]
  by_cases hnull : v = .jstNULL
  · subst hnull
    cases s with
    | inl doc => exact (normalizeTree_nullList_iff doc).mpr h
    | inr e =>
      have hundefined : isUndefined e = false := by
        simpa [nullsAlikeOn, nullsAlikeSingle, isNullList, BSONValue.type] using h
      rw [evaluate, evaluate, matchesSingleElement, matchesSingleElement, comparisonMatches_null,
        inMatches_null, hundefined, Bool.or_false]
  · have hundefined : v ≠ .undefined := fun h => hv ((type_eq_undefined_iff v).mpr h)
    have hsame := funext (comparisonMatches_eq_inMatches lib hundefined hnull collator)
    cases s with
    | inl doc => rw [evaluate, evaluate, «matches», «matches», hsame]
    | inr e => rw [evaluate, evaluate, matchesSingleElement, matchesSingleElement, hsame]

theorem arrayTest_congr {f g b : List BSONValue → Bool}
    (h : ∀ elems, b elems = false → f elems = g elems) {s : Subject}
    (hbad : arrayTest path b s = false) : arrayTest path f s = arrayTest path g s := by
  have hsingle (e : Option BSONValue) (hbad : singleArrayMatches b e = false) :
      singleArrayMatches f e = singleArrayMatches g e := by
    unfold singleArrayMatches at *
    split at hbad
    · exact h _ hbad
    · rfl
  cases s with
  | inl doc =>
    apply any_congr_mem
    intro c hc
    exact hsingle _ (eq_false_of_ne_true (any_eq_false.mp hbad c hc))
  | inr e => exact hsingle e hbad

theorem inMatches_singleRegex (r : List UInt8 × List UInt8) :
    inMatches lib [] [r] collator = regexMatches lib r.1 r.2 := by
  funext e
  simp [inMatches, hasNull, equalityFound]

end Leaves

theorem keepsMatches_matchIn (path : List UInt8) (equalities : List BSONValue)
    (regexes : List (List UInt8 × List UInt8)) (collator : Option Collator)
    (hvalid : valid (.matchIn path equalities regexes collator) = true) :
    KeepsMatches lib (.matchIn path equalities regexes collator) := by
  match equalities, regexes with
  | [], [r] =>
    rintro (doc | e) -
    · rw [normalizeTree, evaluate, evaluate, «matches», «matches», inMatches_singleRegex]
    · rw [normalizeTree, evaluate, evaluate, matchesSingleElement, matchesSingleElement,
        inMatches_singleRegex]
  | [v], [] =>
    have hv : v.type ≠ 6 := by
      simp only [valid, all_cons, all_nil, Bool.and_true, Bool.and_eq_true,
        decide_eq_true_eq] at hvalid
      exact hvalid.2
    exact keepsMatches_singleton hv
  | [], [] | [], _ :: _ :: _ | [_], _ :: _ | _ :: _ :: _, _ => exact fun _ _ => rfl

def allNullsAlikeOn (expressions : List (MatchExpression Collator)) : Subject → Bool
  | .inl doc => allNullsAlike expressions doc
  | .inr e => allNullsAlikeSingle expressions e

mutual
theorem normalizeTree_keepsMatches (exp : MatchExpression Collator) (hvalid : valid exp = true) :
    KeepsMatches lib exp := by
  cases exp with
  | matchIn path equalities regexes collator =>
    exact keepsMatches_matchIn path equalities regexes collator hvalid
  | elemMatchValue path subs =>
    intro s h
    rw [normalizeTree, evaluate_elemMatchValue, evaluate_elemMatchValue]
    apply arrayTest_congr (b := fun elems =>
      elems.any fun inner => !allNullsAlikeSingle subs (some inner))
    · intro elems hbad
      apply any_congr_mem
      intro inner hinner
      have halike : allNullsAlikeSingle subs (some inner) = true := by
        simpa using any_eq_false.mp hbad inner hinner
      exact all_congr_map (normalizeTrees_keepMatches subs hvalid (.inr (some inner)) halike) id
    · cases s <;>
        simpa [nullsAlikeOn, nullsAlike, nullsAlikeSingle, arrayTest] using h
  | and expressions =>
    intro s h
    have hkids := normalizeTrees_keepMatches expressions hvalid s (by cases s <;> exact h)
    rw [normalizeTree, evaluate_unwrapAnd, evaluate_absorbAnd, evaluate_and]
    exact all_congr_map hkids id
  | or expressions =>
    intro s h
    have hkids := normalizeTrees_keepMatches expressions hvalid s (by cases s <;> exact h)
    rw [normalizeTree, evaluate_unwrapOr, evaluate_absorbOr, evaluate_or]
    exact any_congr_map hkids id
  | nor expressions =>
    intro s h
    have hkids := normalizeTrees_keepMatches expressions hvalid s (by cases s <;> exact h)
    rw [normalizeTree, evaluate_unwrapNor, evaluate_nor]
    exact congrArg (!·) (any_congr_map hkids id)
  | not exp =>
    intro s h
    rw [normalizeTree, evaluate_not, evaluate_not,
      normalizeTree_keepsMatches exp hvalid s (by cases s <;> exact h)]
  | _ => exact fun _ _ => rfl

theorem normalizeTrees_keepMatches (expressions : List (MatchExpression Collator))
    (hvalid : allValid expressions = true) (s : Subject)
    (h : allNullsAlikeOn expressions s = true) :
    (normalizeTrees expressions).map (evaluate lib · s) = expressions.map (evaluate lib · s) := by
  match expressions with
  | [] => rfl
  | exp :: rest =>
    obtain ⟨hexp, hrest⟩ := Bool.and_eq_true_iff.mp hvalid
    have hboth : nullsAlikeOn exp s = true ∧ allNullsAlikeOn rest s = true := by
      cases s <;> exact Bool.and_eq_true_iff.mp h
    rw [normalizeTrees, map_cons, map_cons, normalizeTree_keepsMatches exp hexp s hboth.1,
      normalizeTrees_keepMatches rest hrest s hboth.2]
end

end NormalizeTree

section Canonical
open MatchExpressionParser

/-- The canonical form of a query matches the same documents, as long as no list of null alone meets
an undefined value where there is no null and nothing is missing; for a query that is such a list,
this is what it takes. -/
theorem sortTree_normalizeTree_matches (lib : MatcherLibrary Collator) (types : TestTypes)
    (callbacks : ParserCallbacks) (collator : Option Collator) (topLevel : Bool) (query : BSONObj)
    (exp : MatchExpression Collator) (h : parse lib callbacks collator topLevel query = .ok exp)
    (doc : BSONObj) :
    (nullsAlike exp doc = true →
      «matches» lib (sortTree types (normalizeTree exp)) doc = «matches» lib exp doc) ∧
    ∀ path, exp = .matchIn path [.jstNULL] [] collator →
      («matches» lib (sortTree types (normalizeTree exp)) doc = «matches» lib exp doc ↔
        nullsAlike exp doc = true) := by
  have hsorted : «matches» lib (sortTree types (normalizeTree exp)) doc =
      «matches» lib (normalizeTree exp) doc :=
    congrFun (evaluate_sortTree lib types (normalizeTree exp)) (.inl doc)
  rw [hsorted]
  constructor
  · intro halike
    exact normalizeTree_keepsMatches exp (valid_of_parse h) (.inl doc) halike
  · rintro path rfl
    exact normalizeTree_nullList_iff doc

def someTestTypes : TestTypes := ⟨fun _ => .allSet, fun _ => .geo⟩

def nullListQuery : BSONObj :=
  onPath [0x61] [(operatorName "$in", .array [.jstNULL])]

def nullList : MatchExpression Unit := .matchIn [0x61] [.jstNULL] [] none

def undefinedField : BSONObj := [(⟨[0x61], CString.nul_notMem_a⟩, .undefined)]

theorem parse_nullListQuery : parse .plain noCallbacks none true nullListQuery = .ok nullList := by
  apply parse_onPath ⟨by decide, by decide⟩ rfl rfl
  have hset : equalitySet .plain none [.jstNULL] = [.jstNULL] := by simp [equalitySet]
  have hlist : parseIn .plain none [0x61] "$in" (.array [.jstNULL]) =
      .ok (.matchIn [0x61] (equalitySet .plain none [.jstNULL]) [] none) := rfl
  rw [hset] at hlist
  exact parseSubFields_read (by decide) (parseSubField_in _) hlist

/-- A list of null does not meet undefined; the equality that it becomes does. -/
theorem sortTree_normalizeTree_nullList :
    parse .plain noCallbacks none true nullListQuery = .ok nullList ∧
      «matches» .plain nullList undefinedField = false ∧
      «matches» .plain (sortTree someTestTypes (normalizeTree nullList)) undefinedField = true := by
  refine ⟨parse_nullListQuery, ?_, ?_⟩
  · decide +kernel
  · decide +kernel

theorem sortTree_normalizeTree_matches_missing :
    «matches» .plain (sortTree someTestTypes (normalizeTree nullList)) [] =
      «matches» .plain nullList [] := by
  have h := sortTree_normalizeTree_matches .plain someTestTypes noCallbacks none true nullListQuery
    nullList parse_nullListQuery []
  exact h.1 (by decide +kernel)

end Canonical

end MatchExpression
end MongoServer
