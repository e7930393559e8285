import MongoServer.Matcher.QueryRoundTrip

/-!
Queries whose expressions can be written and read back: no operator on the elements of an array is
read as a negation or a conjunction, and no field of a database reference is compared.
-/
namespace MongoServer
namespace MatchExpressionParser

def isDBRefField (name : List UInt8) : Bool :=
  name = ascii "$ref" || name = ascii "$id" || name = ascii "$db"

def isTreeOperator (name : List UInt8) : Bool :=
  name = ascii "$or" || name = ascii "$and" || name = ascii "$nor"

mutual
def isSpliceableQuery : BSONObj → Bool
  | [] => true
  | (name, e) :: rest => isSpliceableField name.bytes e && isSpliceableQuery rest

def isSpliceableField (name : List UInt8) : BSONValue → Bool
  | .object sub =>
      if isDollar name then !isDBRefField name
      else !isExpressionDocument false (.object sub) || areSpliceable false sub
  | .array arr =>
      if isTreeOperator name then areSpliceableTrees arr else !isDBRefField name
  | _ => !isDBRefField name

def areSpliceableTrees : List BSONValue → Bool
  | [] => true
  | .object obj :: rest => isSpliceableQuery obj && areSpliceableTrees rest
  | _ :: rest => areSpliceableTrees rest

def areSpliceable (ofElements : Bool) : BSONObj → Bool
  | [] => true
  | (op, e) :: rest => !(ofElements && isDesugared op.bytes e) && isSpliceableOperand op.bytes e &&
      areSpliceable ofElements rest

def isSpliceableOperand (op : List UInt8) : BSONValue → Bool
  | .object obj =>
      if op = ascii "$not" then areSpliceable false obj
      else if getGtLtOp op = some .opELEM_MATCH then
        if isElemMatchValue (.object obj) then areSpliceable true obj else isSpliceableQuery obj
      else true
  | .array arr => getGtLtOp op ≠ some .opALL || areSpliceableElemMatches arr
  | _ => true

def areSpliceableElemMatches : List BSONValue → Bool
  | [] => true
  | .object ((_, .object obj) :: _) :: rest =>
      (if isElemMatchValue (.object obj) then areSpliceable true obj else isSpliceableQuery obj) &&
        areSpliceableElemMatches rest
  | _ :: rest => areSpliceableElemMatches rest
end

end MatchExpressionParser

namespace MatchExpression
open MatchExpressionParser
variable {Collator : Type} {lib : MatcherLibrary Collator} {callbacks : ParserCallbacks}
  {collator : Option Collator} {children : List (MatchExpression Collator)}

section Leaves
variable {name : List UInt8} {exp : MatchExpression Collator}
  {expressions : List (MatchExpression Collator)}

/-- What the operators of a document are read as: under an element no negation or conjunction. -/
def SplicesOn (ofElements : Bool) (exp : MatchExpression Collator) : Prop :=
  everyNode isSpliceable exp = true ∧ (ofElements = true → isLogical exp = false)

theorem splicesOn_leaf (hlogical : isLogical exp = false) (helem : isElemMatch exp = false)
    (hpath : exp.leafPath = name) (hname : isDollar name = false) (ofElements : Bool) :
    SplicesOn ofElements exp := by
  subst hpath
  cases exp with
  | and | or | nor | not => simp [isLogical] at hlogical
  | elemMatchObject | elemMatchValue => simp [isElemMatch] at helem
  | _ =>
    refine ⟨?_, fun _ => rfl⟩
    simp [everyNode, isSpliceable, hname]

theorem ParsedLeaf.splicesOn (h : ParsedLeaf lib collator name exp) (hname : isDollar name = false)
    (ofElements : Bool) : SplicesOn ofElements exp := by
  cases h <;> exact splicesOn_leaf rfl rfl (by rfl) hname ofElements

theorem SplicesOn.not {ofElements : Bool} (h : SplicesOn ofElements exp) :
    SplicesOn false (.not exp) := by
  refine ⟨?_, fun hfalse => by simp at hfalse⟩
  simp only [everyNode, h.1, Bool.and_true]
  rfl

theorem splicesOn_and {ofElements : Bool}
    (h : ∀ exp ∈ expressions, SplicesOn ofElements exp) : SplicesOn false (.and expressions) := by
  refine ⟨?_, fun hfalse => by simp at hfalse⟩
  have hall := everyNodeOfAll_iff.mpr fun exp hexp => (h exp hexp).1
  simp only [everyNode, hall, Bool.and_true]
  rfl

end Leaves

section Parser

def isSpliceableElemMatch : BSONValue → Bool
  | .object obj =>
      if isElemMatchValue (.object obj) then areSpliceable true obj else isSpliceableQuery obj
  | _ => true

/-- What the spliceable parts of a query are read as. -/
def SplicesBack : Source → List (MatchExpression Collator) → Prop
  | .query obj, children | .fields obj, children =>
      isSpliceableQuery obj = true → everyNodeOfAll isSpliceable children = true
  | .field name e, children =>
      isSpliceableField name e = true → everyNodeOfAll isSpliceable children = true
  | .trees arr, children =>
      areSpliceableTrees arr = true → everyNodeOfAll isSpliceable children = true
  | .operators name sub, children | .subFields _ name sub, children =>
      isDollar name = false → ∀ ofElements, areSpliceable ofElements sub = true →
        ∀ exp ∈ children, SplicesOn ofElements exp
  | .subField _ name op e, children =>
      isDollar name = false → isSpliceableOperand op e = true →
        ∀ ofElements, (ofElements && isDesugared op e) = false →
          ∀ exp ∈ children, SplicesOn ofElements exp
  | .elemMatch name e, children =>
      isDollar name = false → isSpliceableElemMatch e = true →
        ∀ ofElements, ∀ exp ∈ children, SplicesOn ofElements exp
  | .elemMatches name arr, children =>
      isDollar name = false → areSpliceableElemMatches arr = true →
        ∀ exp ∈ children, SplicesOn false exp

section Operands
variable {name op : List UInt8} {e : BSONValue} {exp : MatchExpression Collator}

theorem isSpliceableElemMatch_of_operand (hop : getGtLtOp op = some .opELEM_MATCH)
    (he : isSpliceableOperand op e = true) : isSpliceableElemMatch e = true := by
  have hnot : op ≠ ascii "$not" := by
    rintro rfl
    have hnone : getGtLtOp (ascii "$not") = none := by decide
    simp [hnone] at hop
  cases e with
  | object obj => simpa [isSpliceableOperand, isSpliceableElemMatch, hnot, hop] using he
  | _ => rfl

/-- What is read as a negation or a conjunction is no operator on elements. -/
theorem splicesBack_desugared {context : BSONObj} (hop : isDesugared op e = true)
    (h : isDollar name = false → isSpliceableOperand op e = true → SplicesOn false exp) :
    SplicesBack (.subField context name op e) [exp] := by
  intro hname he ofElements hsugar
  obtain rfl : ofElements = false := by simpa [hop] using hsugar
  exact List.forall_mem_singleton.mpr (h hname he)

theorem splicesBack_elemMatchValue {obj : BSONObj} (hvalue : isElemMatchValue (.object obj) = true)
    (h : SplicesBack (.operators [] obj) children) :
    SplicesBack (.elemMatch name (.object obj)) [.elemMatchValue name children] := by
  intro hname he ofElements
  simp only [isSpliceableElemMatch, if_pos hvalue] at he
  have hchildren := h rfl true he
  have hall := everyNodeOfAll_iff.mpr fun exp hexp => (hchildren exp hexp).1
  refine List.forall_mem_singleton.mpr ⟨?_, fun _ => rfl⟩
  simp only [everyNode, isSpliceable, hname, hall, Bool.not_false, Bool.true_and, Bool.and_true,
    List.all_eq_true, Bool.not_eq_true']
  exact fun exp hexp => (hchildren exp hexp).2 rfl

theorem splicesBack_elemMatchObject {obj : BSONObj}
    (hvalue : isElemMatchValue (.object obj) = false) (h : SplicesBack (.query obj) [exp]) :
    SplicesBack (.elemMatch name (.object obj)) [.elemMatchObject name exp] := by
  intro hname he ofElements
  simp only [isSpliceableElemMatch, hvalue, Bool.false_eq_true, if_false] at he
  have hnodes := everyNodeOfAll_iff.mp (h he) exp List.mem_cons_self
  refine List.forall_mem_singleton.mpr ⟨?_, fun _ => rfl⟩
  simp [everyNode, isSpliceable, leafPath, path, hname, hnodes]

theorem areSpliceableElemMatches_cons {op : CString} {others : BSONObj} {rest : List BSONValue}
    (h : areSpliceableElemMatches (.object ((op, e) :: others) :: rest) = true) :
    isSpliceableElemMatch e = true ∧ areSpliceableElemMatches rest = true := by
  cases e with
  | object obj => simpa [areSpliceableElemMatches, isSpliceableElemMatch] using h
  | _ => exact ⟨rfl, by simpa [areSpliceableElemMatches] using h⟩

end Operands

section Queries

theorem isDBRefField_eq_false {name : List UInt8} {e : BSONValue} (hdollar : isDollar name = true)
    (hname : isTreeOperator name = false) (he : isSpliceableField name e = true) :
    isDBRefField name = false := by
  cases e with
  | object => simpa [isSpliceableField, hdollar] using he
  | array => simpa [isSpliceableField, hname] using he
  | _ => simpa [isSpliceableField] using he

theorem everyNodeOfAll_unwrapRoot (h : everyNodeOfAll isSpliceable children = true) :
    everyNodeOfAll isSpliceable [unwrapRoot children] = true := by
  match children with
  | [exp] => exact h
  | [] => rfl
  | _ :: _ :: _ =>
    simp only [unwrapRoot, everyNodeOfAll, everyNode, Bool.and_true] at h ⊢
    rw [h]
    rfl

theorem splicesBack_trees {name : List UInt8} {arr : List BSONValue}
    {trees : List (MatchExpression Collator)} {exp : MatchExpression Collator}
    (hname : isTreeOperator name = true) (h : SplicesBack (.trees arr) trees)
    (hexp : exp = .or trees ∨ exp = .and trees ∨ exp = .nor trees) :
    SplicesBack (.field name (.array arr)) [exp] := by
  intro he
  have hall := h (by simpa [isSpliceableField, hname] using he)
  rcases hexp with rfl | rfl | rfl <;>
    simp [everyNodeOfAll, everyNode, hall, isSpliceable, leafPath, path, isDollar]

end Queries

theorem Parsed.splicesBack {source : Source}
    (h : Parsed lib collator source children) : SplicesBack source children := by
  induction h with
  | query _ ih => exact fun hobj => everyNodeOfAll_unwrapRoot (ih hobj)
  | noFields | nothing | noTrees => exact fun _ => rfl
  | fields _ _ ih ihrest =>
    intro hobj
    simp only [isSpliceableQuery, Bool.and_eq_true] at hobj
    have hfirst := everyNodeOfAll_iff.mp (ih hobj.1)
    have hrest := everyNodeOfAll_iff.mp (ihrest hobj.2)
    exact everyNodeOfAll_iff.mpr (List.forall_mem_append.mpr ⟨hfirst, hrest⟩)
  | or _ _ ih => exact splicesBack_trees rfl ih (Or.inl rfl)
  | and _ _ ih => exact splicesBack_trees rfl ih (Or.inr (Or.inl rfl))
  | nor _ _ ih => exact splicesBack_trees rfl ih (Or.inr (Or.inr rfl))
  | @reference name e _ hname _ =>
    intro he
    have hno : isDBRefField name = false := by
      rcases hname with rfl | rfl | rfl <;> exact isDBRefField_eq_false rfl rfl he
    rcases hname with rfl | rfl | rfl <;> cases hno
  | document hname hdocument _ ih =>
    intro he
    have hon := ih hname false (by simpa [isSpliceableField, hname, hdocument] using he)
    exact everyNodeOfAll_iff.mpr fun exp hexp => (hon exp hexp).1
  | value hname h =>
    intro _
    exact everyNodeOfAll_iff.mpr (List.forall_mem_singleton.mpr (h.splicesOn hname false).1)
  | trees _ _ ih ihrest =>
    intro harr
    simp only [areSpliceableTrees, Bool.and_eq_true] at harr
    have hfirst := everyNodeOfAll_iff.mp (ih harr.1) _ List.mem_cons_self
    simp [everyNodeOfAll, hfirst, ihrest harr.2]
  | near =>
    intro hname ofElements _
    exact List.forall_mem_singleton.mpr (splicesOn_leaf rfl rfl (by rfl) hname ofElements)
  | operators _ ih => exact ih
  | noSubFields | options | noElemMatches => simp [SplicesBack]
  | subFields _ _ ih ihrest =>
    intro hname ofElements hsub
    simp only [areSpliceable, Bool.and_eq_true, Bool.not_eq_true'] at hsub
    exact List.forall_mem_append.mpr
      ⟨ih hname hsub.1.2 ofElements hsub.1.1, ihrest hname ofElements hsub.2⟩
  | leaf h =>
    intro hname _ ofElements _
    exact List.forall_mem_singleton.mpr (h.1.splicesOn hname ofElements)
  | regex _ h =>
    intro hname _ ofElements _
    exact List.forall_mem_singleton.mpr (h.splicesOn hname ofElements)
  | test h =>
    intro hname _ ofElements _
    rcases h with rfl | rfl <;>
      exact List.forall_mem_singleton.mpr (splicesOn_leaf rfl rfl (by rfl) hname ofElements)
  | allNothing =>
    intro hname _ ofElements _
    exact List.forall_mem_singleton.mpr (splicesOn_leaf rfl rfl (by rfl) hname ofElements)
  | negation hop h => exact splicesBack_desugared hop fun hname _ => (h.splicesOn hname false).not
  | not _ ih =>
    apply splicesBack_desugared rfl
    intro hname he
    exact (splicesOn_and (ih hname false (by simpa [isSpliceableOperand] using he))).not
  | allElements hop h =>
    apply splicesBack_desugared hop
    exact fun hname _ => splicesOn_and fun exp hexp => (h exp hexp).splicesOn hname false
  | allElemMatches hop hne _ ih =>
    apply splicesBack_desugared (by simp [isDesugared, hop, hne])
    intro hname he
    exact splicesOn_and (ih hname (by simpa [isSpliceableOperand, hop] using he))
  | elemMatch hop _ ih =>
    intro hname he ofElements _
    exact ih hname (isSpliceableElemMatch_of_operand hop he) ofElements
  | elemMatchValue hvalue _ ih => exact splicesBack_elemMatchValue hvalue ih
  | elemMatchObject hvalue _ ih => exact splicesBack_elemMatchObject hvalue ih
  | elemMatches _ _ ih ihrest =>
    intro hname harr
    obtain ⟨hfirst, hrest⟩ := areSpliceableElemMatches_cons harr
    exact List.forall_mem_cons.mpr ⟨ih hname hfirst false _ List.mem_cons_self, ihrest hname hrest⟩

end Parser

section Failures

def numberFive : BSONValue := .number (.numberInt 5)

def elementQuery (op : String) : BSONObj :=
  onPath [0x61] [(operatorName "$elemMatch", .object [(operatorName op, numberFive)])]

theorem parse_elementQuery {op : String} {exp : MatchExpression Unit}
    (hvalue : isElemMatchValue (.object [(operatorName op, numberFive)]) = true)
    (hop : 0 ∉ ascii op)
    (h : parseSubField .plain noCallbacks none [(operatorName op, numberFive)] [] (ascii op)
      numberFive = .ok (some exp)) :
    parse .plain noCallbacks none true (elementQuery op) = .ok (.elemMatchValue [0x61] [exp]) := by
  apply parse_onPath ⟨by decide, by decide⟩ rfl rfl
  apply parseSubFields_singleton (by decide)
  rw [parseSubField_elemMatch, parseElemMatch, hvalue, if_pos rfl, parseSub]
  have hsub := parseSubFields_singleton hop h
  simp only [nearOperator, numberFive] at hsub ⊢
  rw [hsub]
  rfl

def someNotEqual : MatchExpression Unit :=
  .elemMatchValue [0x61] [.not (.comparison .EQ [] numberFive none)]

def negated : BSONObj := [(.empty, .object [(operatorName "$eq", numberFive)])]

/-- A field of some element is this document, by the name of the position of the negated query. -/
def someFieldIs : MatchExpression Unit :=
  .elemMatchObject [0x61] (.comparison .EQ [0x30] (.object negated) none)

def listOfOne : BSONObj := [(⟨[0x61], CString.nul_notMem_a⟩, .array [.number (.numberInt 1)])]

def someGreater : MatchExpression Unit :=
  .elemMatchValue [0x61] [.comparison .GT [] numberFive none]

end Failures

end MatchExpression
end MongoServer
