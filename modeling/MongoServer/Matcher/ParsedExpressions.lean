import MongoServer.Matcher.ExpressionParser
import MongoServer.Transition.Runs

/-!
What the parser makes of a query, as derivations: for each part of the document, the expressions
that it is read as. What holds of every expression that is parsed is shown by induction over them.
-/
namespace MongoServer
open Transition List
namespace MatchExpressionParser

/-- The operator is read as a negation or a conjunction. -/
def isDesugared (op : List UInt8) (e : BSONValue) : Bool :=
  op = ascii "$not" ||
    match getGtLtOp op, e with
    | some .NE, _ | some .NIN, _ => true
    | some .opEXISTS, e => !e.trueValue
    | some .opALL, .array arr => !arr.isEmpty
    | _, _ => false

end MatchExpressionParser

namespace MatchExpression
open MatchExpressionParser
variable {Collator : Type} (lib : MatcherLibrary Collator) (callbacks : ParserCallbacks)
  {matchType : ComparisonType}

def noCallbacks : ParserCallbacks where
  geo _ _ _ := badValue "geo not linked in"
  bitTest _ _ := badValue "not handled"
  geoOperators _ := []
  bitTestOperators _ := []
  print _ := ""

theorem equalitySet_subset (collator : Option Collator) {equalities : List BSONValue}
    {v : BSONValue} (h : v ∈ equalitySet lib collator equalities) : v ∈ equalities :=
  mem_mergeSort.mp ((destutter_sublist _ _).subset h)

section Leaves
variable {lib} {collator : Option Collator} {name : List UInt8} {e : BSONValue}
  {exp : MatchExpression Collator}

/-- The leaves on a path that values and operators are read as. -/
inductive ParsedLeaf (lib : MatcherLibrary Collator) (collator : Option Collator)
    (name : List UInt8) : MatchExpression Collator → Prop
  | comparison {matchType : ComparisonType} {e : BSONValue} (hundefined : e.type ≠ 6)
      (hregex : matchType = .EQ ∨ e.type ≠ 11) :
      ParsedLeaf lib collator name (.comparison matchType name e collator)
  | regex {pattern flags : List UInt8} (hcheck : checkRegex pattern flags = .ok ()) :
      ParsedLeaf lib collator name (.regex name pattern flags)
  | mod {d r : BSONValue} (hzero : d.numberInt ≠ 0) :
      ParsedLeaf lib collator name (.mod name d.numberInt r.numberInt)
  | size {e : BSONValue} (hsize : 0 ≤ e.numberInt) :
      ParsedLeaf lib collator name (.size name e.numberInt)
  | «exists» : ParsedLeaf lib collator name (.exists name)
  | allNumbers : ParsedLeaf lib collator name (.typeOperator name .allNumbers)
  | bsonType {type : ℤ} (hvalid : isValidBSONType type = true) :
      ParsedLeaf lib collator name (.typeOperator name (.bsonType type))
  | matchIn {equalities : List BSONValue} {regexes : List (List UInt8 × List UInt8)}
      (hvalues : ∀ v ∈ equalities, v.type ≠ 6 ∧ v.type ≠ 11 ∧ isExpressionDocument false v = false)
      (hregexes : ∀ r ∈ regexes, checkRegex r.1 r.2 = .ok ()) : ParsedLeaf lib collator name
      (.matchIn name (equalitySet lib collator equalities) regexes collator)

def PlainLeaf (lib : MatcherLibrary Collator) (collator : Option Collator) (name : List UInt8)
    (exp : MatchExpression Collator) : Prop :=
  ParsedLeaf lib collator name exp ∧ isRegex exp = false

theorem initComparison_eq_ok (h : initComparison matchType name e collator = .ok exp) :
    exp = .comparison matchType name e collator ∧ e.type ≠ 6 := by
  unfold initComparison at h
  split_ifs at h with hundefined
  · cases h
  · exact ⟨(Except.ok.inj h).symm, hundefined⟩

theorem parsedLeaf_initComparison (h : initComparison matchType name e collator = .ok exp)
    (hregex : matchType = .EQ ∨ e.type ≠ 11) : PlainLeaf lib collator name exp := by
  obtain ⟨rfl, hundefined⟩ := initComparison_eq_ok h
  exact ⟨.comparison hundefined hregex, rfl⟩

theorem parsedLeaf_parseComparison (h : parseComparison collator name matchType e = .ok exp) :
    PlainLeaf lib collator name exp := by
  unfold parseComparison at h
  split_ifs at h with hregex
  · cases h
  · exact parsedLeaf_initComparison h (by tauto)

theorem parsedLeaf_parseMOD (h : parseMOD name e = .ok exp) : PlainLeaf lib collator name exp := by
  unfold parseMOD at h
  split at h
  · cases h
  · split_ifs at h with hnumber hzero
    · cases h
    all_goals split at h <;> cases h
    exact ⟨.mod hzero, rfl⟩
  · cases h

theorem parsedLeaf_parseSize (h : parseSize name e = .ok exp) :
    PlainLeaf lib collator name exp := by
  unfold parseSize at h
  split at h
  · split_ifs at h with hint hnegative
    · cases h
    · cases h
    · cases h
      exact ⟨.size (not_lt.mp hnegative), rfl⟩
  · cases h

theorem parsedLeaf_initWithBSONType {type : ℤ}
    (h : parseType.initWithBSONType name type = .ok exp) : PlainLeaf lib collator name exp := by
  unfold parseType.initWithBSONType at h
  split_ifs at h with hvalid
  · cases h
    exact ⟨.bsonType hvalid, rfl⟩
  · cases h

theorem parsedLeaf_parseType (h : parseType name e = .ok exp) :
    PlainLeaf lib collator name exp := by
  unfold parseType at h
  split at h
  · exact parsedLeaf_initWithBSONType h
  · split_ifs at h with hnumbers
    · cases h
      exact ⟨.allNumbers, rfl⟩
    · split at h
      · exact parsedLeaf_initWithBSONType h
      · cases h
  · cases h

theorem parsedLeaf_initRegex {pattern flags : List UInt8}
    (h : initRegex name pattern flags = .ok exp) : ParsedLeaf lib collator name exp := by
  obtain ⟨_, hcheck, rfl⟩ := bind_pure_eq_ok.mp h
  exact .regex hcheck

theorem eq_regEx_of_type {v : BSONValue} (h : v.type = 11) :
    ∃ pattern flags, v = .regEx pattern flags := by
  cases v with
  | regEx pattern flags => exact ⟨pattern, flags, rfl⟩
  | number n => cases n <;> simp [BSONValue.type] at h
  | _ => simp [BSONValue.type] at h

theorem parseInElements_eq_ok {elems equalities : List BSONValue}
    {regexes : List (List UInt8 × List UInt8)}
    (h : parseInElements elems = .ok (equalities, regexes)) :
    (∀ v ∈ equalities, v.type ≠ 11 ∧ isExpressionDocument false v = false) ∧
      ∀ r ∈ regexes, checkRegex r.1 r.2 = .ok () := by
  induction elems generalizing equalities regexes with
  | nil =>
    cases h
    simp
  | cons e elems ih =>
    unfold parseInElements at h
    split_ifs at h with hdocument
    · cases h
    · split at h
      · obtain ⟨_, hcheck, hrest⟩ := bind_eq_ok.mp h
        obtain ⟨⟨tail, others⟩, htail, hpure⟩ := bind_eq_ok.mp hrest
        cases hpure
        obtain ⟨hvalues, hothers⟩ := ih htail
        exact ⟨hvalues, forall_mem_cons.mpr ⟨hcheck, hothers⟩⟩
      · rename_i hregex
        obtain ⟨⟨tail, others⟩, htail, hpure⟩ := bind_eq_ok.mp h
        cases hpure
        obtain ⟨hvalues, hothers⟩ := ih htail
        refine ⟨forall_mem_cons.mpr ⟨⟨?_, by simpa using hdocument⟩, hvalues⟩, hothers⟩
        intro htype
        obtain ⟨pattern, flags, rfl⟩ := eq_regEx_of_type htype
        exact hregex pattern flags rfl

theorem parsedLeaf_parseIn {op : String} (h : parseIn lib collator name op e = .ok exp) :
    PlainLeaf lib collator name exp := by
  unfold parseIn at h
  split at h
  · obtain ⟨⟨equalities, regexes⟩, helements, hrest⟩ := bind_eq_ok.mp h
    simp only at hrest
    split_ifs at hrest with hundefined
    · cases hrest
    · cases hrest
      obtain ⟨hvalues, hregexes⟩ := parseInElements_eq_ok helements
      refine ⟨.matchIn ?_ hregexes, rfl⟩
      intro v hv
      refine ⟨fun htype => hundefined ?_, hvalues v hv⟩
      exact any_eq_true.mpr ⟨v, hv, by simpa using htype⟩
  · cases h

theorem parsedLeaf_parseAllElement (h : parseAllElement collator name e = .ok exp) :
    ParsedLeaf lib collator name exp := by
  unfold parseAllElement at h
  split at h
  · exact parsedLeaf_initRegex h
  · split_ifs at h
    · cases h
    · exact (parsedLeaf_initComparison h (Or.inl rfl)).1

theorem parsedLeaf_mapM {elems : List BSONValue} {children : List (MatchExpression Collator)}
    (h : elems.mapM (parseAllElement collator name) = .ok children) :
    ∀ exp ∈ children, ParsedLeaf lib collator name exp := by
  induction elems generalizing children with
  | nil =>
    cases h
    simp
  | cons e elems ih =>
    rw [mapM_cons] at h
    obtain ⟨first, hfirst, h⟩ := bind_eq_ok.mp h
    obtain ⟨others, hothers, rfl⟩ := bind_pure_eq_ok.mp h
    exact forall_mem_cons.mpr ⟨parsedLeaf_parseAllElement hfirst, ih hothers⟩

end Leaves

section Derivations
variable (collator : Option Collator)

/-- The parts of a query that the parser has a function for. -/
inductive Source where
  | query (obj : BSONObj)
  | fields (obj : BSONObj)
  | field (name : List UInt8) (e : BSONValue)
  | trees (arr : List BSONValue)
  | operators (name : List UInt8) (sub : BSONObj)
  | subFields (context : BSONObj) (name : List UInt8) (sub : BSONObj)
  | subField (context : BSONObj) (name op : List UInt8) (e : BSONValue)
  | elemMatch (name : List UInt8) (e : BSONValue)
  | elemMatches (name : List UInt8) (arr : List BSONValue)

/-- The expressions that a part of a query is read as. -/
inductive Parsed : Source → List (MatchExpression Collator) → Prop
  | query {obj : BSONObj} {children : List (MatchExpression Collator)}
      (h : Parsed (.fields obj) children) : Parsed (.query obj) [unwrapRoot children]
  | noFields : Parsed (.fields []) []
  | fields {name : CString} {e : BSONValue} {rest : BSONObj}
      {children others : List (MatchExpression Collator)}
      (h : Parsed (.field name.bytes e) children) (hrest : Parsed (.fields rest) others) :
      Parsed (.fields ((name, e) :: rest)) (children ++ others)
  | or {arr : List BSONValue} {trees : List (MatchExpression Collator)} (hne : arr ≠ [])
      (h : Parsed (.trees arr) trees) : Parsed (.field (ascii "$or") (.array arr)) [.or trees]
  | and {arr : List BSONValue} {trees : List (MatchExpression Collator)} (hne : arr ≠ [])
      (h : Parsed (.trees arr) trees) : Parsed (.field (ascii "$and") (.array arr)) [.and trees]
  | nor {arr : List BSONValue} {trees : List (MatchExpression Collator)} (hne : arr ≠ [])
      (h : Parsed (.trees arr) trees) : Parsed (.field (ascii "$nor") (.array arr)) [.nor trees]
  | nothing {name : List UInt8} {e : BSONValue} : Parsed (.field name e) []
  | reference {name : List UInt8} {e : BSONValue} {c : Option Collator}
      (hname : name = ascii "$ref" ∨ name = ascii "$id" ∨ name = ascii "$db")
      (hundefined : e.type ≠ 6) : Parsed (.field name e) [.comparison .EQ name e c]
  | document {name : List UInt8} {sub : BSONObj} {children : List (MatchExpression Collator)}
      (hname : isDollar name = false) (hdocument : isExpressionDocument false (.object sub) = true)
      (h : Parsed (.operators name sub) children) : Parsed (.field name (.object sub)) children
  | value {name : List UInt8} {e : BSONValue} {exp : MatchExpression Collator}
      (hname : isDollar name = false) (h : ParsedLeaf lib collator name exp) :
      Parsed (.field name e) [exp]
  | noTrees : Parsed (.trees []) []
  | trees {obj : BSONObj} {rest : List BSONValue} {exp : MatchExpression Collator}
      {others : List (MatchExpression Collator)} (h : Parsed (.query obj) [exp])
      (hrest : Parsed (.trees rest) others) : Parsed (.trees (.object obj :: rest)) (exp :: others)
  | near {name : List UInt8} {sub : BSONObj} {test : ℕ} :
      Parsed (.operators name sub) [.geo name test]
  | operators {name : List UInt8} {sub : BSONObj} {children : List (MatchExpression Collator)}
      (h : Parsed (.subFields sub name sub) children) : Parsed (.operators name sub) children
  | noSubFields {context : BSONObj} {name : List UInt8} : Parsed (.subFields context name []) []
  | subFields {context : BSONObj} {name : List UInt8} {op : CString} {e : BSONValue}
      {rest : BSONObj} {children others : List (MatchExpression Collator)}
      (h : Parsed (.subField context name op.bytes e) children)
      (hrest : Parsed (.subFields context name rest) others) :
      Parsed (.subFields context name ((op, e) :: rest)) (children ++ others)
  | options {context : BSONObj} {name op : List UInt8} {e : BSONValue}
      (hop : getGtLtOp op = some .opOPTIONS)
      (hany : (context.any fun e => getGtLtOp e.1.bytes = some .opREGEX) = true) :
      Parsed (.subField context name op e) []
  | leaf {context : BSONObj} {name op : List UInt8} {e : BSONValue} {exp : MatchExpression Collator}
      (h : PlainLeaf lib collator name exp) : Parsed (.subField context name op e) [exp]
  | regex {context : BSONObj} {name op : List UInt8} {e : BSONValue}
      {exp : MatchExpression Collator} (h : parseRegexDocument name context = .ok exp)
      (hleaf : ParsedLeaf lib collator name exp) : Parsed (.subField context name op e) [exp]
  | test {context : BSONObj} {name op : List UInt8} {e : BSONValue} {exp : MatchExpression Collator}
      {test : ℕ} (h : exp = .geo name test ∨ exp = .bitTest name test) :
      Parsed (.subField context name op e) [exp]
  | negation {context : BSONObj} {name op : List UInt8} {e : BSONValue}
      {exp : MatchExpression Collator} (hop : isDesugared op e = true)
      (h : ParsedLeaf lib collator name exp) : Parsed (.subField context name op e) [.not exp]
  | not {context : BSONObj} {name : List UInt8} {sub : BSONObj}
      {children : List (MatchExpression Collator)} (h : Parsed (.operators name sub) children) :
      Parsed (.subField context name (ascii "$not") (.object sub)) [.not (.and children)]
  | allNothing {context : BSONObj} {name op : List UInt8} :
      Parsed (.subField context name op (.array [])) [.alwaysFalse name]
  | allElements {context : BSONObj} {name op : List UInt8} {e : BSONValue}
      {children : List (MatchExpression Collator)} (hop : isDesugared op e = true)
      (h : ∀ exp ∈ children, ParsedLeaf lib collator name exp) :
      Parsed (.subField context name op e) [.and children]
  | allElemMatches {context : BSONObj} {name op : List UInt8} {arr : List BSONValue}
      {children : List (MatchExpression Collator)} (hop : getGtLtOp op = some .opALL)
      (hne : arr ≠ []) (h : Parsed (.elemMatches name arr) children) :
      Parsed (.subField context name op (.array arr)) [.and children]
  | elemMatch {context : BSONObj} {name op : List UInt8} {e : BSONValue}
      {exp : MatchExpression Collator} (hop : getGtLtOp op = some .opELEM_MATCH)
      (h : Parsed (.elemMatch name e) [exp]) : Parsed (.subField context name op e) [exp]
  | elemMatchValue {name : List UInt8} {obj : BSONObj} {children : List (MatchExpression Collator)}
      (hvalue : isElemMatchValue (.object obj) = true) (h : Parsed (.operators [] obj) children) :
      Parsed (.elemMatch name (.object obj)) [.elemMatchValue name children]
  | elemMatchObject {name : List UInt8} {obj : BSONObj} {exp : MatchExpression Collator}
      (hvalue : isElemMatchValue (.object obj) = false) (h : Parsed (.query obj) [exp]) :
      Parsed (.elemMatch name (.object obj)) [.elemMatchObject name exp]
  | noElemMatches {name : List UInt8} : Parsed (.elemMatches name []) []
  | elemMatches {name : List UInt8} {op : CString} {e : BSONValue} {others : BSONObj}
      {rest : List BSONValue} {exp : MatchExpression Collator}
      {tail : List (MatchExpression Collator)} (h : Parsed (.elemMatch name e) [exp])
      (hrest : Parsed (.elemMatches name rest) tail) :
      Parsed (.elemMatches name (.object ((op, e) :: others) :: rest)) (exp :: tail)

end Derivations

section Parser
variable {lib callbacks} {collator : Option Collator}

/-- What the parser makes of smaller documents, as queries and as operators. -/
def ParsedBelow (lib : MatcherLibrary Collator) (callbacks : ParserCallbacks)
    (collator : Option Collator) (n : ℕ) : Prop :=
  ∀ obj : BSONObj, sizeOf obj < n →
    (∀ topLevel exp, parse lib callbacks collator topLevel obj = .ok exp →
      Parsed lib collator (.query obj) [exp]) ∧
    ∀ name children, parseSub lib callbacks collator name obj = .ok children →
      Parsed lib collator (.operators name obj) children

theorem ParsedBelow.mono {m n : ℕ} (h : ParsedBelow lib callbacks collator n) (hmn : m ≤ n) :
    ParsedBelow lib callbacks collator m := fun obj hobj => h obj (hobj.trans_le hmn)

section Operands
variable {context sub : BSONObj} {name op : List UInt8} {e : BSONValue}
  {exp : MatchExpression Collator} {children : List (MatchExpression Collator)}

theorem parsed_parseNot (ih : ParsedBelow lib callbacks collator (sizeOf e))
    (h : parseNot lib callbacks collator name e = .ok exp) :
    Parsed lib collator (.subField context name (ascii "$not") e) [exp] := by
  unfold parseNot at h
  split at h
  · obtain ⟨regex, hregex, rfl⟩ := bind_pure_eq_ok.mp h
    exact .negation rfl (parsedLeaf_initRegex hregex)
  · cases h
  · obtain ⟨theAnd, hand, h⟩ := bind_eq_ok.mp h
    simp only at h
    split_ifs at h
    · cases h
    · cases h
      exact .not ((ih _ (by simp)).2 name theAnd hand)
  · cases h

theorem parsed_parseElemMatch (ih : ParsedBelow lib callbacks collator (sizeOf e))
    (h : parseElemMatch lib callbacks collator name e = .ok exp) :
    Parsed lib collator (.elemMatch name e) [exp] := by
  unfold parseElemMatch at h
  split at h
  · rename_i obj
    split_ifs at h with hvalue
    · obtain ⟨subs, hsubs, rfl⟩ := bind_pure_eq_ok.mp h
      exact .elemMatchValue hvalue ((ih obj (by simp)).2 [] subs hsubs)
    · obtain ⟨sub, hsub, rfl⟩ := bind_pure_eq_ok.mp h
      exact .elemMatchObject (by simpa using hvalue) ((ih obj (by simp)).1 false sub hsub)
  · cases h

theorem parsed_parseAllElemMatches {arr : List BSONValue}
    (ih : ParsedBelow lib callbacks collator (sizeOf arr))
    (h : parseAllElemMatches lib callbacks collator name arr = .ok children) :
    Parsed lib collator (.elemMatches name arr) children := by
  induction arr generalizing children with
  | nil =>
    rw [parseAllElemMatches] at h
    cases h
    exact .noElemMatches
  | cons first rest hrest =>
    unfold parseAllElemMatches at h
    split at h
    · simp_all
    · rename_i op e others rest' heq
      obtain ⟨rfl, rfl⟩ := List.cons.inj heq
      split_ifs at h
      · obtain ⟨inner, hinner, h⟩ := bind_eq_ok.mp h
        obtain ⟨tail, htail, rfl⟩ := bind_pure_eq_ok.mp h
        exact .elemMatches (parsed_parseElemMatch (ih.mono (by simp; omega)) hinner)
          (hrest (ih.mono (by simp)) htail)
      · cases h
    · cases h

theorem parsed_parseAll (hop : getGtLtOp op = some .opALL)
    (ih : ParsedBelow lib callbacks collator (sizeOf e))
    (h : parseAll lib callbacks collator name e = .ok exp) :
    Parsed lib collator (.subField context name op e) [exp] := by
  unfold parseAll at h
  split at h
  · cases h
    exact .allNothing
  · split_ifs at h
    · obtain ⟨children, hchildren, rfl⟩ := bind_pure_eq_ok.mp h
      exact .allElemMatches hop (by simp) (parsed_parseAllElemMatches (ih.mono (by simp)) hchildren)
    · obtain ⟨children, hchildren, rfl⟩ := bind_pure_eq_ok.mp h
      exact .allElements (by simp [isDesugared, hop]) (parsedLeaf_mapM hchildren)
  · cases h

theorem parsed_parseSubField {child : Option (MatchExpression Collator)}
    (ih : ParsedBelow lib callbacks collator (sizeOf e))
    (h : parseSubField lib callbacks collator context name op e = .ok child) :
    Parsed lib collator (.subField context name op e) child.toList := by
  rw [parseSubField] at h
  by_cases heq : op = ascii "$eq"
  · rw [if_pos heq] at h
    obtain ⟨exp, hexp, rfl⟩ := bind_pure_eq_ok.mp h
    exact .leaf (parsedLeaf_parseComparison hexp)
  by_cases hnot : op = ascii "$not"
  · rw [if_neg heq, if_pos hnot] at h
    obtain ⟨exp, hexp, rfl⟩ := bind_pure_eq_ok.mp h
    subst hnot
    exact parsed_parseNot ih hexp
  rw [if_neg heq, if_neg hnot] at h
  split at h
  -- most operators read their operand and then build an expression
  all_goals try split_ifs at h
  all_goals try obtain ⟨exp, hexp, rfl⟩ := bind_pure_eq_ok.mp h
  iterate 2 cases h
  iterate 4 exact .leaf (parsedLeaf_parseComparison hexp)
  · cases h
  · rename_i hop _
    exact .negation (by simp [isDesugared, hop]) (parsedLeaf_parseComparison hexp).1
  · exact .leaf (parsedLeaf_parseIn hexp)
  · rename_i hop
    exact .negation (by simp [isDesugared, hop]) (parsedLeaf_parseIn hexp).1
  · exact .leaf (parsedLeaf_parseSize hexp)
  · cases h
    exact .leaf ⟨.exists, rfl⟩
  · rename_i hop htrue
    cases h
    exact .negation (by simp [isDesugared, hop, htrue]) .exists
  · exact .leaf (parsedLeaf_parseType hexp)
  · exact .leaf (parsedLeaf_parseMOD hexp)
  · rename_i hop hany
    cases h
    exact .options hop hany
  · cases h
  · obtain ⟨regex, -, hinit⟩ := bind_eq_ok.mp hexp
    exact .regex hexp (parsedLeaf_initRegex hinit)
  · rename_i hop
    exact .elemMatch hop (parsed_parseElemMatch ih hexp)
  · rename_i hop
    exact parsed_parseAll hop ih hexp
  iterate 2 exact .test (Or.inl rfl)
  · cases h
  · exact .test (Or.inr rfl)

theorem parsed_parseSubFields (ih : ParsedBelow lib callbacks collator (sizeOf sub))
    (h : parseSubFields lib callbacks collator context name sub = .ok children) :
    Parsed lib collator (.subFields context name sub) children := by
  induction sub generalizing children with
  | nil =>
    rw [parseSubFields] at h
    cases h
    exact .noSubFields
  | cons first rest hrest =>
    obtain ⟨op, e⟩ := first
    rw [parseSubFields] at h
    obtain ⟨child, hchild, h⟩ := bind_eq_ok.mp h
    obtain ⟨others, hothers, rfl⟩ := bind_pure_eq_ok.mp h
    exact .subFields (parsed_parseSubField (ih.mono (by simp; omega)) hchild)
      (hrest (ih.mono (by simp)) hothers)

end Operands

section Queries
variable {topLevel : Bool} {name : List UInt8} {e : BSONValue} {obj : BSONObj}
  {children trees : List (MatchExpression Collator)}

theorem parsed_parseTrees {arr : List BSONValue}
    (ih : ParsedBelow lib callbacks collator (sizeOf arr))
    (h : parseTrees lib callbacks collator arr = .ok trees) :
    Parsed lib collator (.trees arr) trees := by
  induction arr generalizing trees with
  | nil =>
    rw [parseTrees] at h
    cases h
    exact .noTrees
  | cons first rest hrest =>
    unfold parseTrees at h
    split at h
    · simp_all
    · rename_i obj rest' heq
      obtain ⟨rfl, rfl⟩ := List.cons.inj heq
      obtain ⟨sub, hsub, h⟩ := bind_eq_ok.mp h
      obtain ⟨others, hothers, rfl⟩ := bind_pure_eq_ok.mp h
      exact .trees ((ih obj (by simp; omega)).1 false sub hsub) (hrest (ih.mono (by simp)) hothers)
    · cases h

theorem parsed_parseTreeList {op : String} (ih : ParsedBelow lib callbacks collator (sizeOf e))
    (h : parseTreeList lib callbacks collator op e = .ok trees) :
    ∃ arr, e = .array arr ∧ arr ≠ [] ∧ Parsed lib collator (.trees arr) trees := by
  unfold parseTreeList at h
  split at h
  · cases h
  · rename_i arr hne
    exact ⟨arr, rfl, hne, parsed_parseTrees (ih.mono (by simp)) h⟩
  · cases h

theorem parsed_parseField (ih : ParsedBelow lib callbacks collator (sizeOf e))
    (h : parseField lib callbacks collator topLevel name e = .ok children) :
    Parsed lib collator (.field name e) children := by
  unfold parseField at h
  split_ifs at h with hdollar hor hand hnor _ _ _ _ _ href _ hdocument
  · obtain ⟨trees, htrees, rfl⟩ := bind_pure_eq_ok.mp h
    obtain ⟨arr, rfl, hne, hparsed⟩ := parsed_parseTreeList ih htrees
    exact hor ▸ .or hne hparsed
  · obtain ⟨trees, htrees, rfl⟩ := bind_pure_eq_ok.mp h
    obtain ⟨arr, rfl, hne, hparsed⟩ := parsed_parseTreeList ih htrees
    exact hand ▸ .and hne hparsed
  · obtain ⟨trees, htrees, rfl⟩ := bind_pure_eq_ok.mp h
    obtain ⟨arr, rfl, hne, hparsed⟩ := parsed_parseTreeList ih htrees
    exact hnor ▸ .nor hne hparsed
  · cases h
    exact .nothing
  · cases h
  · cases h
    exact .nothing
  iterate 2
    obtain ⟨eq, heq, rfl⟩ := bind_pure_eq_ok.mp h
    obtain ⟨rfl, hundefined⟩ := initComparison_eq_ok heq
    exact .reference href hundefined
  · cases h
  · rw [Bool.not_eq_true] at hdollar
    cases e with
    | object sub => exact .document hdollar hdocument ((ih sub (by simp)).2 name children h)
    | _ => simp [isExpressionDocument] at hdocument
  · rw [Bool.not_eq_true] at hdollar
    split at h
    · obtain ⟨exp, hexp, rfl⟩ := bind_pure_eq_ok.mp h
      exact .value hdollar (parsedLeaf_initRegex hexp)
    · obtain ⟨exp, hexp, rfl⟩ := bind_pure_eq_ok.mp h
      exact .value hdollar (parsedLeaf_initComparison hexp (Or.inl rfl)).1

theorem parsed_parseFields (ih : ParsedBelow lib callbacks collator (sizeOf obj))
    (h : parseFields lib callbacks collator topLevel obj = .ok children) :
    Parsed lib collator (.fields obj) children := by
  induction obj generalizing children with
  | nil =>
    rw [parseFields] at h
    cases h
    exact .noFields
  | cons first rest hrest =>
    obtain ⟨name, e⟩ := first
    rw [parseFields] at h
    obtain ⟨first, hfirst, h⟩ := bind_eq_ok.mp h
    obtain ⟨others, hothers, rfl⟩ := bind_pure_eq_ok.mp h
    exact .fields (parsed_parseField (ih.mono (by simp; omega)) hfirst)
      (hrest (ih.mono (by simp)) hothers)

theorem parsedBelow (n : ℕ) : ParsedBelow lib callbacks collator n := by
  induction n with
  | zero =>
    intro obj hobj
    omega
  | succ n ih =>
    intro obj hobj
    have hbelow := ih.mono (Nat.lt_succ_iff.mp hobj)
    constructor
    · intro topLevel exp h
      rw [parse] at h
      obtain ⟨children, hchildren, rfl⟩ := bind_pure_eq_ok.mp h
      exact .query (parsed_parseFields hbelow hchildren)
    · intro name children h
      rw [parseSub] at h
      split at h
      · obtain ⟨test, -, rfl⟩ := bind_pure_eq_ok.mp h
        exact .near
      · exact .operators (parsed_parseSubFields hbelow h)

/-- What the parser returns has a derivation. -/
theorem parsed_of_parse {exp : MatchExpression Collator}
    (h : parse lib callbacks collator topLevel obj = .ok exp) :
    Parsed lib collator (.query obj) [exp] :=
  (parsedBelow (sizeOf obj + 1) obj (Nat.lt_succ_self _)).1 topLevel exp h

end Queries

section Valid

theorem allValid_iff {expressions : List (MatchExpression Collator)} :
    allValid expressions = true ↔ ∀ exp ∈ expressions, valid exp = true := by
  induction expressions with
  | nil => simp [allValid]
  | cons exp rest ih => simp [allValid, ih]

protected theorem ParsedLeaf.valid {name : List UInt8} {exp : MatchExpression Collator}
    (h : ParsedLeaf lib collator name exp) : valid exp = true := by
  cases h with
  | comparison hundefined => simpa [valid] using hundefined
  | mod hzero => simpa [valid] using hzero
  | bsonType hvalid => exact hvalid
  | matchIn hvalues =>
    simp only [valid, all_eq_true]
    intro v hv
    obtain ⟨hundefined, hregex, -⟩ := hvalues v (equalitySet_subset lib collator hv)
    simp [hundefined, hregex]
  | _ => rfl

protected theorem Parsed.allValid {source : Source} {children : List (MatchExpression Collator)}
    (h : Parsed lib collator source children) : allValid children = true := by
  induction h with
  | @query obj children _ ih =>
    match children with
    | [exp] => exact ih
    | [] => rfl
    | first :: second :: rest => simpa [unwrapRoot, allValid, valid] using ih
  | noFields | nothing | noTrees | noSubFields | noElemMatches | options => rfl
  | fields _ _ ih ihrest | subFields _ _ ih ihrest =>
    rw [allValid_iff] at *
    exact forall_mem_append.mpr ⟨ih, ihrest⟩
  | trees _ _ ih ihrest | elemMatches _ _ ih ihrest =>
    rw [allValid_iff] at *
    exact forall_mem_cons.mpr ⟨ih _ mem_cons_self, ihrest⟩
  | reference _ hundefined => simpa [allValid, valid] using hundefined
  | value _ h | regex _ h | negation _ h =>
    exact allValid_iff.mpr (forall_mem_singleton.mpr h.valid)
  | leaf h => exact allValid_iff.mpr (forall_mem_singleton.mpr h.1.valid)
  | test h => rcases h with rfl | rfl <;> rfl
  | near | allNothing => rfl
  | document _ _ _ ih | operators _ ih | elemMatch _ _ ih => exact ih
  | allElements _ h =>
    have hall := allValid_iff.mpr fun exp hexp => (h exp hexp).valid
    simpa [allValid, valid] using hall
  | or _ _ ih | and _ _ ih | nor _ _ ih | not _ ih | allElemMatches _ _ _ ih
  | elemMatchValue _ _ ih | elemMatchObject _ _ ih =>
    simpa [allValid, valid] using ih

/-- What is parsed has passed the checks of all its nodes. -/
theorem valid_of_parse {topLevel : Bool} {obj : BSONObj} {exp : MatchExpression Collator}
    (h : parse lib callbacks collator topLevel obj = .ok exp) : valid exp = true :=
  allValid_iff.mp (parsed_of_parse h).allValid exp mem_cons_self

end Valid

end Parser

end MatchExpression
end MongoServer
