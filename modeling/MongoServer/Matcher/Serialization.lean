import Mathlib.Data.List.TakeWhile
import MongoServer.Matcher.Comparisons
import MongoServer.Matcher.ExpressionAlgo
import MongoServer.Matcher.ExpressionParser
import MongoServer.Transition.Runs

/-!
Match expressions written back as queries, and what the parser reads from them. A negation is
written as the negation of a list of one query, so reading gives back the same tree up to that.
-/
namespace MongoServer
open List

/-- A name as it is stored, up to a terminator. -/
def CString.ofBytes (bytes : List UInt8) : CString where
  bytes := bytes.takeWhile (· ≠ 0)
  noNul := by
    intro hmem
    simpa using mem_takeWhile_imp hmem

@[simp] theorem CString.bytes_ofBytes {bytes : List UInt8} (h : 0 ∉ bytes) :
    (ofBytes bytes).bytes = bytes := by
  simp only [ofBytes, takeWhile_eq_self_iff, decide_eq_true_eq]
  rintro b hb rfl
  exact h hb

def operatorName (op : String) : CString := .ofBytes (ascii op)

def ComparisonType.opString : ComparisonType → String
  | .LT => "$lt"
  | .LTE => "$lte"
  | .EQ => "$eq"
  | .GT => "$gt"
  | .GTE => "$gte"

namespace MatchExpression
open MatchExpressionParser
variable {Collator : Type} (lib : MatcherLibrary Collator) (callbacks : ParserCallbacks)
  (e : BSONValue)

section Serializer

def onPath (path : List UInt8) (operators : BSONObj) : BSONObj :=
  [(.ofBytes path, .object operators)]

def int32 (n : ℤ) : BSONValue := .number (.numberInt (BitVec.ofInt 32 n))

/-- The document or the array that a document starts with. -/
def firstEmbeddedObject (obj : BSONObj) : BSONObj :=
  (obj.head?.bind fun e => e.2.embeddedObject?).getD []

mutual
def serialize : MatchExpression Collator → BSONObj
  | .comparison matchType path rhs _ => onPath path [(operatorName matchType.opString, rhs)]
  | .regex path pattern flags => onPath path ((operatorName "$regex", .string pattern) ::
      if flags.isEmpty then [] else [(operatorName "$options", .string flags)])
  | .mod path divisor remainder =>
      onPath path [(operatorName "$mod", .array [int32 divisor, int32 remainder])]
  | .exists path => onPath path [(operatorName "$exists", .bool true)]
  | .typeOperator path .allNumbers =>
      onPath path [(operatorName "$type", .string kMatchesAllNumbersAlias)]
  | .typeOperator path (.bsonType type) => onPath path [(operatorName "$type", int32 type)]
  | .matchIn path equalities regexes _ => onPath path [(operatorName "$in",
      .array (equalities ++ regexes.map fun r => .regEx (.ofBytes r.1) (.ofBytes r.2)))]
  | .bitTest path test => onPath path (callbacks.bitTestOperators test)
  | .geo path test => onPath path (callbacks.geoOperators test)
  | .size path n => onPath path [(operatorName "$size", int32 n)]
  | .elemMatchObject path sub =>
      onPath path [(operatorName "$elemMatch", .object (serialize sub))]
  | .elemMatchValue path subs =>
      onPath path [(operatorName "$elemMatch", .object (serializeSubs subs))]
  | .and expressions =>
      -- an empty list is no valid query
      if expressions.isEmpty then []
      else [(operatorName "$and", .array (listToBSON expressions))]
  | .or expressions => [(operatorName "$or", .array (listToBSON expressions))]
  | .nor expressions => [(operatorName "$nor", .array (listToBSON expressions))]
  | .not exp => [(operatorName "$nor", .array [.object (serialize exp)])]
  | .alwaysFalse path => onPath path [(operatorName "$all", .array [])]

def listToBSON : List (MatchExpression Collator) → List BSONValue
  | [] => []
  | exp :: rest => .object (serialize exp) :: listToBSON rest

/-- What stands under the path of each, in one document. -/
def serializeSubs : List (MatchExpression Collator) → BSONObj
  | [] => []
  | exp :: rest => firstEmbeddedObject (serialize exp) ++ serializeSubs rest
end

end Serializer

section Reading

mutual
def reparsed : MatchExpression Collator → MatchExpression Collator
  | .elemMatchObject path sub => .elemMatchObject path (reparsed sub)
  | .elemMatchValue path subs => .elemMatchValue path (reparsedList subs)
  | .and expressions => .and (reparsedList expressions)
  | .or expressions => .or (reparsedList expressions)
  | .nor expressions => .nor (reparsedList expressions)
  | .not exp => .nor [reparsed exp]
  | exp => exp

def reparsedList : List (MatchExpression Collator) → List (MatchExpression Collator)
  | [] => []
  | exp :: rest => reparsed exp :: reparsedList rest
end

mutual
theorem evaluate_reparsed (exp : MatchExpression Collator) :
    evaluate lib (reparsed exp) = evaluate lib exp := by
  funext s
  cases exp with
  | elemMatchObject path sub =>
    rw [reparsed, evaluate_elemMatchObject, evaluate_elemMatchObject, evaluate_reparsed sub]
  | elemMatchValue _ exps | and exps | or exps | nor exps =>
    have hkids := evaluate_children (.of_eq (evaluate_reparsedList exps))
    simp only [reparsed, evaluate_elemMatchValue, evaluate_and, evaluate_or, evaluate_nor, hkids]
  | not exp => simp [reparsed, evaluate_nor, evaluate_not, evaluate_reparsed exp]
  | _ => rfl

theorem evaluate_reparsedList (expressions : List (MatchExpression Collator)) :
    (reparsedList expressions).map (evaluate lib) = expressions.map (evaluate lib) := by
  match expressions with
  | [] => rfl
  | exp :: rest =>
    rw [reparsedList, map_cons, map_cons, evaluate_reparsed exp, evaluate_reparsedList rest]
end

theorem matches_reparsed (exp : MatchExpression Collator) (doc : BSONObj) :
    «matches» lib (reparsed exp) doc = «matches» lib exp doc :=
  congrFun (evaluate_reparsed lib exp) (.inl doc)

end Reading

section Reparsable
variable (collator : Option Collator)

/-- The path of a field, and not the name of an operator. -/
def IsFieldPath (path : List UInt8) : Prop := 0 ∉ path ∧ isDollar path = false

def IsInt32 (n : ℤ) : Prop := -2 ^ 31 ≤ n ∧ n < 2 ^ 31

def leafPath : MatchExpression Collator → List UInt8
  | .alwaysFalse path => path
  | exp => exp.path

mutual
/-- What the parser can read back: its own results, with the paths of fields in the leaves, and
with leaves only under a `$elemMatch` of values, where regular expressions are all the same. -/
def Reparsable : MatchExpression Collator → Prop
  | .comparison matchType path rhs c =>
      IsFieldPath path ∧ rhs.type ≠ 6 ∧ (matchType = .EQ ∨ rhs.type ≠ 11) ∧ c = collator
  | .regex path pattern flags => IsFieldPath path ∧ checkRegex pattern flags = .ok ()
  | .mod path divisor remainder =>
      IsFieldPath path ∧ divisor ≠ 0 ∧ IsInt32 divisor ∧ IsInt32 remainder
  | .exists path | .alwaysFalse path | .typeOperator path .allNumbers => IsFieldPath path
  | .typeOperator path (.bsonType type) => IsFieldPath path ∧ isValidBSONType type = true
  | .matchIn path equalities regexes c =>
      IsFieldPath path ∧ c = collator ∧ equalitySet lib collator equalities = equalities ∧
        (∀ v ∈ equalities, v.type ≠ 6 ∧ v.type ≠ 11 ∧ isExpressionDocument false v = false) ∧
        ∀ r ∈ regexes, checkRegex r.1 r.2 = .ok ()
  | .bitTest _ _ | .geo _ _ => False
  | .size path n => IsFieldPath path ∧ 0 ≤ n ∧ IsInt32 n
  | .elemMatchObject path sub => IsFieldPath path ∧ Reparsable sub
  | .elemMatchValue path subs => IsFieldPath path ∧ subs ≠ [] ∧ AllReparsable subs ∧
      (∀ exp ∈ subs, isLogical exp = false ∧ exp.leafPath = []) ∧
      ∀ exp ∈ subs, ∀ other ∈ subs, isRegex exp = true → isRegex other = true → exp = other
  | .and expressions => AllReparsable expressions
  | .or expressions | .nor expressions => expressions ≠ [] ∧ AllReparsable expressions
  | .not exp => Reparsable exp

def AllReparsable : List (MatchExpression Collator) → Prop
  | [] => True
  | exp :: rest => Reparsable exp ∧ AllReparsable rest
end

end Reparsable

section Operators
variable (collator : Option Collator) {exp : MatchExpression Collator}

def operators (exp : MatchExpression Collator) : BSONObj :=
  firstEmbeddedObject (serialize callbacks exp)

theorem serialize_leaf (h : isLogical exp = false) :
    serialize callbacks exp = onPath exp.leafPath (operators callbacks exp) := by
  unfold operators
  cases exp with
  | and | or | nor | not => simp [isLogical] at h
  | typeOperator path type => cases type <;> rfl
  | _ => simp [serialize, firstEmbeddedObject, onPath, leafPath, path, BSONValue.embeddedObject?]

def writtenOperators : List (List UInt8) :=
  ["$eq", "$lt", "$lte", "$gt", "$gte", "$regex", "$options", "$mod", "$exists", "$type", "$in",
    "$size", "$elemMatch", "$all"].map ascii

/-- A list of operators as leaves are written with them. -/
def Written (obj : BSONObj) : Prop := obj ≠ [] ∧ ∀ e ∈ obj, e.1.bytes ∈ writtenOperators

theorem written_singleton {op : String}
    (hop : (operatorName op).bytes ∈ writtenOperators) : Written [(operatorName op, e)] := by
  constructor
  · simp
  · simpa using hop

theorem Written.append {ls rs : BSONObj} (hl : Written ls)
    (hr : ∀ e ∈ rs, e.1.bytes ∈ writtenOperators) : Written (ls ++ rs) := by
  constructor
  · simp [hl.1]
  · exact forall_mem_append.mpr ⟨hl.2, hr⟩

theorem operators_written (h : isLogical exp = false)
    (hexp : Reparsable lib collator exp) : Written (operators callbacks exp) := by
  cases exp with
  | and | or | nor | not => simp [isLogical] at h
  | bitTest | geo => exact hexp.elim
  | comparison matchType path rhs c =>
    cases matchType <;> exact written_singleton _ (by decide)
  | regex path pattern flags =>
    have hpattern : Written [(operatorName "$regex", .string pattern)] :=
      written_singleton _ (by decide)
    have hoperators : operators callbacks (.regex path pattern flags : MatchExpression Collator) =
      [(operatorName "$regex", .string pattern)] ++
        if flags.isEmpty then [] else [(operatorName "$options", .string flags)] := rfl
    rw [hoperators]
    apply hpattern.append
    split_ifs
    · simp
    · have hoptions : (operatorName "$options").bytes ∈ writtenOperators := by decide
      simpa using hoptions
  | typeOperator path type =>
    cases type <;> exact written_singleton _ (by decide)
  | _ => exact written_singleton _ (by decide)

variable {obj : BSONObj}

theorem Written.hasName_eq_false (h : Written obj) {name : String}
    (hname : ascii name ∉ writtenOperators) : hasName name obj = false := by
  rw [hasName, any_eq_false]
  intro e he heq
  exact hname (of_decide_eq_true heq ▸ h.2 e he)

theorem Written.isExpressionDocument (h : Written obj) (allow : Bool) :
    isExpressionDocument allow (.object obj) = true := by
  have hnone : isDBRefDocument obj allow = false := by
    rw [isDBRefDocument, h.hasName_eq_false (by decide), h.hasName_eq_false (by decide),
      h.hasName_eq_false (by decide)]
    cases allow <;> rfl
  obtain ⟨e, rest, rfl⟩ := exists_cons_of_ne_nil h.1
  have hdollar : ∀ name ∈ writtenOperators, isDollar name = true := by decide
  simp [MatchExpressionParser.isExpressionDocument, hnone, hdollar _ (h.2 e mem_cons_self)]

theorem Written.isElemMatchValue (h : Written obj) : isElemMatchValue (.object obj) = true := by
  have hexp := h.isExpressionDocument true
  obtain ⟨e, rest, rfl⟩ := exists_cons_of_ne_nil h.1
  have hname := h.2 e mem_cons_self
  have hother : ∀ name ∈ writtenOperators, name ≠ ascii "$and" ∧ name ≠ ascii "$nor" ∧
      name ≠ ascii "$or" ∧ name ≠ ascii "$where" := by decide
  simp [MatchExpressionParser.isElemMatchValue, hexp, firstName, hother _ hname]

theorem Written.nearOperator (h : Written obj) : nearOperator obj = none := by
  obtain ⟨⟨name, v⟩, rest, rfl⟩ := exists_cons_of_ne_nil h.1
  have hname := h.2 _ mem_cons_self
  have hother : ∀ name ∈ writtenOperators, ¬(name = ascii "$near" ∨
      name = ascii "$nearSphere" ∨ name = ascii "$geoNear") := by decide
  cases v <;> simp [MatchExpressionParser.nearOperator, hother _ hname]

end Operators

section Steps
variable {lib callbacks} {collator : Option Collator} {context : BSONObj} {name : List UInt8}

theorem parseSubFields_nil : parseSubFields lib callbacks collator context name [] = .ok [] := by
  rw [parseSubFields]

theorem parseSubFields_cons {op : CString} {e : BSONValue} {rest : BSONObj}
    {child : Option (MatchExpression Collator)} {others : List (MatchExpression Collator)}
    (hchild : parseSubField lib callbacks collator context name op.bytes e = .ok child)
    (hothers : parseSubFields lib callbacks collator context name rest = .ok others) :
    parseSubFields lib callbacks collator context name ((op, e) :: rest) =
      .ok (child.toList ++ others) := by
  rw [parseSubFields, hchild, hothers]
  rfl

theorem parseSubFields_singleton {op : String} {e : BSONValue}
    {child : MatchExpression Collator} (hop : 0 ∉ ascii op)
    (hchild : parseSubField lib callbacks collator context name (ascii op) e = .ok (some child)) :
    parseSubFields lib callbacks collator context name [(operatorName op, e)] = .ok [child] := by
  rw [← CString.bytes_ofBytes hop] at hchild
  exact parseSubFields_cons hchild parseSubFields_nil

theorem parseSubFields_read {op : String} {e : BSONValue} {child : MatchExpression Collator}
    {parsed : Except Status (MatchExpression Collator)} (hop : 0 ∉ ascii op)
    (hfield : parseSubField lib callbacks collator context name (ascii op) e = some <$> parsed)
    (h : parsed = .ok child) :
    parseSubFields lib callbacks collator context name [(operatorName op, e)] = .ok [child] := by
  apply parseSubFields_singleton hop
  rw [hfield, h]
  rfl

theorem parseSubFields_append {ls rs : BSONObj} {first others : List (MatchExpression Collator)}
    (hfirst : parseSubFields lib callbacks collator context name ls = .ok first)
    (hothers : parseSubFields lib callbacks collator context name rs = .ok others) :
    parseSubFields lib callbacks collator context name (ls ++ rs) = .ok (first ++ others) := by
  induction ls generalizing first with
  | nil =>
    rw [parseSubFields] at hfirst
    cases hfirst
    exact hothers
  | cons e ls ih =>
    obtain ⟨op, e⟩ := e
    rw [parseSubFields] at hfirst
    obtain ⟨child, hchild, hrest⟩ := Transition.bind_eq_ok.mp hfirst
    obtain ⟨tail, htail, rfl⟩ := Transition.bind_pure_eq_ok.mp hrest
    rw [cons_append, append_assoc]
    exact parseSubFields_cons hchild (ih htail)

theorem parseSubField_in : parseSubField lib callbacks collator context name (ascii "$in") e =
      some <$> parseIn lib collator name "$in" e := by
  rw [parseSubField]
  rfl

theorem parseSubField_elemMatch :
    parseSubField lib callbacks collator context name (ascii "$elemMatch") e =
      some <$> parseElemMatch lib callbacks collator name e := by
  rw [parseSubField]
  rfl

theorem parseSubField_options
    (h : (context.any fun e => getGtLtOp e.1.bytes = some .opREGEX) = true) :
    parseSubField lib callbacks collator context name (ascii "$options") e = .ok none := by
  rw [parseSubField]
  exact if_pos h

end Steps

section Values
variable {collator : Option Collator} {path : List UInt8}

theorem numberInt_int32 {n : ℤ} (h : IsInt32 n) : (int32 n).numberInt = n := by
  have hlow : -(2 : ℤ) ^ 31 ≤ n := h.1
  have hhigh : n < (2 : ℤ) ^ 31 := h.2
  simp only [int32, BSONValue.numberInt, BitVec.toInt_ofInt]
  exact Int.bmod_eq_of_le (by omega) (by omega)

theorem checkRegex_eq_ok_iff {regex options : List UInt8} : checkRegex regex options = .ok () ↔
      regex.length ≤ maxPatternSize ∧ 0 ∉ regex ∧ 0 ∉ options := by
  unfold checkRegex badValue
  split_ifs <;> simp_all

theorem isInt_int32 {n : ℤ} (h : IsInt32 n) : (int32 n).isInt n = true := by
  have hnumber := numberInt_int32 h
  simpa [int32, BSONValue.isInt, BSONValue.numberInt] using hnumber

theorem parseMOD_int32 {divisor remainder : ℤ} (hne : divisor ≠ 0) (hdivisor : IsInt32 divisor)
    (hremainder : IsInt32 remainder) :
    parseMOD path (.array [int32 divisor, int32 remainder]) =
      .ok (.mod path divisor remainder : MatchExpression Collator) := by
  have hnumber : (int32 divisor).isNumber = true := rfl
  simp [parseMOD, hnumber, numberInt_int32 hdivisor, numberInt_int32 hremainder, hne]

theorem parseSize_int32 {n : ℤ} (hnonneg : 0 ≤ n) (h : IsInt32 n) :
    parseSize path (int32 n) = .ok (.size path n : MatchExpression Collator) := by
  have hint := isInt_int32 h
  have hnumber := numberInt_int32 h
  unfold int32 at hint hnumber ⊢
  simp [parseSize, hint, hnumber, hnonneg.not_gt]

theorem parseType_int32 {type : ℤ} (h : isValidBSONType type = true) : parseType path (int32 type) =
      .ok (.typeOperator path (.bsonType type) : MatchExpression Collator) := by
  have hrange : IsInt32 type := by
    unfold isValidBSONType at h
    simp only [Bool.or_eq_true, Bool.and_eq_true, decide_eq_true_eq] at h
    constructor <;> omega
  have hint := isInt_int32 hrange
  have hnumber := numberInt_int32 hrange
  unfold int32 at hint hnumber ⊢
  simp [parseType, hint, hnumber, parseType.initWithBSONType, h]

variable {regexes : List (List UInt8 × List UInt8)} {equalities : List BSONValue}

theorem parseInElements_regexes (h : ∀ r ∈ regexes, checkRegex r.1 r.2 = .ok ()) :
    parseInElements (regexes.map fun r => .regEx (.ofBytes r.1) (.ofBytes r.2)) =
      .ok ([], regexes) := by
  induction regexes with
  | nil => rfl
  | cons r regexes ih =>
    have hr := h r mem_cons_self
    obtain ⟨-, hpattern, hflags⟩ := checkRegex_eq_ok_iff.mp hr
    have hrest := ih (forall_mem_cons.mp h).2
    simp only [map_cons, parseInElements, isExpressionDocument, Bool.false_eq_true, if_false,
      CString.bytes_ofBytes hpattern, CString.bytes_ofBytes hflags, hr, hrest]
    rfl

theorem parseInElements_append {elems : List BSONValue}
    (h : ∀ v ∈ equalities, v.type ≠ 11 ∧ isExpressionDocument false v = false)
    (hrest : parseInElements elems = .ok ([], regexes)) :
    parseInElements (equalities ++ elems) = .ok (equalities, regexes) := by
  induction equalities with
  | nil => exact hrest
  | cons v equalities ih =>
    obtain ⟨htype, hdocument⟩ := h v mem_cons_self
    have htail := ih (forall_mem_cons.mp h).2
    rw [cons_append, parseInElements, hdocument, htail]
    · rfl
    · rintro pattern flags rfl
      exact htype rfl

theorem parseIn_written (hset : equalitySet lib collator equalities = equalities)
    (h : ∀ v ∈ equalities, v.type ≠ 6 ∧ v.type ≠ 11 ∧ isExpressionDocument false v = false)
    (hregexes : ∀ r ∈ regexes, checkRegex r.1 r.2 = .ok ()) (op : String) :
    parseIn lib collator path op
      (.array (equalities ++ regexes.map fun r => .regEx (.ofBytes r.1) (.ofBytes r.2))) =
      .ok (.matchIn path equalities regexes collator) := by
  have hundefined : (equalities.any fun v => v.type = 6) = false := by
    rw [any_eq_false]
    intro v hv
    simpa using (h v hv).1
  have helements := parseInElements_append (fun v hv => (h v hv).2)
    (parseInElements_regexes hregexes)
  simp only [parseIn, helements, bind, Except.bind, hundefined, Bool.false_eq_true, if_false, hset]
  rfl

end Values

section RegexDocuments

def readRegex (regex : List UInt8 × List UInt8) : MatchExpression Collator → List UInt8 × List UInt8
  | .regex _ pattern flags => (pattern, if flags.isEmpty then regex.2 else flags)
  | _ => regex

theorem regexField_of_ne {op : String} (h : 0 ∉ ascii op)
    (hregex : getGtLtOp (ascii op) ≠ some .opREGEX)
    (hoptions : getGtLtOp (ascii op) ≠ some .opOPTIONS) (regex : List UInt8 × List UInt8)
    (e : BSONValue) : regexField regex (operatorName op, e) = .ok regex := by
  unfold regexField operatorName
  rw [CString.bytes_ofBytes h]
  split
  · contradiction
  · contradiction
  · rfl

theorem foldlM_operators {collator : Option Collator} {exp : MatchExpression Collator}
    (h : isLogical exp = false) (hexp : Reparsable lib collator exp)
    (regex : List UInt8 × List UInt8) :
    (operators callbacks exp).foldlM regexField regex = .ok (readRegex regex exp) := by
  have hone (op : String) (e : BSONValue) (h : 0 ∉ ascii op)
      (hregex : getGtLtOp (ascii op) ≠ some .opREGEX)
      (hoptions : getGtLtOp (ascii op) ≠ some .opOPTIONS) :
      [(operatorName op, e)].foldlM regexField regex = .ok regex := by
    rw [foldlM_cons, regexField_of_ne h hregex hoptions]
    rfl
  cases exp with
  | and | or | nor | not => simp [isLogical] at h
  | bitTest | geo => exact hexp.elim
  | comparison matchType path rhs c =>
    cases matchType <;> exact hone _ _ (by decide) (by decide) (by decide)
  | typeOperator path type =>
    cases type <;> exact hone _ _ (by decide) (by decide) (by decide)
  | regex path pattern flags =>
    cases flags with
    | nil => rfl
    | cons c flags => rfl
  | _ => exact hone _ _ (by decide) (by decide) (by decide)

variable {subs : List (MatchExpression Collator)}

theorem foldlM_serializeSubs {collator : Option Collator} (h : ∀ exp ∈ subs, isLogical exp = false)
    (hsubs : AllReparsable lib collator subs) (regex : List UInt8 × List UInt8) :
    (serializeSubs callbacks subs).foldlM regexField regex = .ok (subs.foldl readRegex regex) := by
  induction subs generalizing regex with
  | nil => rfl
  | cons exp subs ih =>
    rw [serializeSubs, foldlM_append]
    have hexp := foldlM_operators lib callbacks (h exp mem_cons_self) hsubs.1 regex
    unfold operators at hexp
    rw [hexp]
    exact ih (forall_mem_cons.mp h).2 hsubs.2 _

theorem foldl_readRegex {path pattern flags : List UInt8} (regex : List UInt8 × List UInt8)
    (hsame : ∀ exp ∈ subs, isRegex exp = true → exp = .regex path pattern flags)
    (hflags : flags = [] → regex.2 = [])
    (hread : .regex path pattern flags ∈ subs ∨ regex = (pattern, flags)) :
    subs.foldl readRegex regex = (pattern, flags) := by
  induction subs generalizing regex with
  | nil => simpa using hread
  | cons exp subs ih =>
    obtain ⟨hexp, hrest⟩ := forall_mem_cons.mp hsame
    cases hregex : isRegex exp with
    | true =>
      rw [foldl_cons, hexp hregex]
      have hnext : readRegex regex (.regex path pattern flags : MatchExpression Collator) =
          (pattern, flags) := by
        cases flags with
        | nil => simp [readRegex, hflags]
        | cons c flags => rfl
      exact ih _ hrest (by simp [hnext]) (Or.inr hnext)
    | false =>
      have hkept : readRegex regex exp = regex := by
        cases exp with
        | regex => simp [isRegex] at hregex
        | _ => rfl
      rw [foldl_cons, hkept]
      refine ih regex hrest hflags (hread.imp_left fun hmem => ?_)
      rcases mem_cons.mp hmem with rfl | hmem
      · simp [isRegex] at hregex
      · exact hmem

end RegexDocuments

section RoundTrip
variable {lib callbacks} {collator : Option Collator}

variable {exp : MatchExpression Collator} {subs : List (MatchExpression Collator)}
  {expressions : List (MatchExpression Collator)} {results : List (MatchExpression Collator)}
  {result : MatchExpression Collator}

theorem Reparsable.isFieldPath (h : isLogical exp = false) (hexp : Reparsable lib collator exp) :
    IsFieldPath exp.leafPath := by
  cases exp with
  | and | or | nor | not => simp [isLogical] at h
  | bitTest | geo => exact hexp.elim
  | «exists» | alwaysFalse => exact hexp
  | typeOperator path type =>
    cases type with
    | allNumbers => exact hexp
    | bsonType => exact hexp.1
  | _ => exact hexp.1

theorem parse_singleton {topLevel : Bool} {name : CString} {e : BSONValue}
    (h : parseField lib callbacks collator topLevel name.bytes e = .ok [exp]) :
    parse lib callbacks collator topLevel [(name, e)] = .ok exp := by
  rw [parse, parseFields, h, parseFields]
  rfl

theorem parse_onPath {path : List UInt8} (hpath : IsFieldPath path) {sub : BSONObj}
    (hdocument : isExpressionDocument false (.object sub) = true) (hnear : nearOperator sub = none)
    (hsub : parseSubFields lib callbacks collator sub path sub = .ok [result]) (topLevel : Bool) :
    parse lib callbacks collator topLevel (onPath path sub) = .ok result := by
  apply parse_singleton
  rw [CString.bytes_ofBytes hpath.1, parseField, hpath.2, hdocument]
  simp only [Bool.false_eq_true, if_false, if_true]
  rw [parseSub, hnear]
  exact hsub

theorem parse_leaf (h : isLogical exp = false) (hexp : Reparsable lib collator exp)
    (hsub : parseSubFields lib callbacks collator (operators callbacks exp) exp.leafPath
      (operators callbacks exp) = .ok [result]) (topLevel : Bool) :
    parse lib callbacks collator topLevel (serialize callbacks exp) = .ok result := by
  have hwritten := operators_written lib callbacks collator h hexp
  rw [serialize_leaf callbacks h]
  exact parse_onPath (hexp.isFieldPath h) (hwritten.isExpressionDocument false)
    hwritten.nearOperator hsub topLevel

theorem parseElemMatch_subs {path : List UInt8} (hwritten : Written (serializeSubs callbacks subs))
    (h : parseSubFields lib callbacks collator (serializeSubs callbacks subs) []
      (serializeSubs callbacks subs) = .ok results) :
    parseElemMatch lib callbacks collator path (.object (serializeSubs callbacks subs)) =
      .ok (.elemMatchValue path results) := by
  rw [parseElemMatch, hwritten.isElemMatchValue, if_pos rfl, parseSub, hwritten.nearOperator]
  simp only [h]
  rfl

theorem serializeSubs_written (hne : subs ≠ []) (h : ∀ exp ∈ subs, isLogical exp = false)
    (hsubs : AllReparsable lib collator subs) : Written (serializeSubs callbacks subs) := by
  induction subs with
  | nil => exact (hne rfl).elim
  | cons exp subs ih =>
    have hfirst := operators_written lib callbacks collator (h exp mem_cons_self) hsubs.1
    apply hfirst.append
    cases subs with
    | nil => simp [serializeSubs]
    | cons next subs =>
      exact (ih (by simp) (forall_mem_cons.mp h).2 hsubs.2).2

/-- A query that is no list of operators, so it is matched with the elements as documents. -/
theorem isElemMatchValue_serialize (hexp : Reparsable lib collator exp) :
    isElemMatchValue (.object (serialize callbacks exp)) = false := by
  cases hlogical : isLogical exp with
  | false =>
    obtain ⟨hnul, hdollar⟩ := hexp.isFieldPath hlogical
    rw [serialize_leaf callbacks hlogical, onPath]
    simp [isElemMatchValue, isExpressionDocument, CString.bytes_ofBytes hnul, hdollar]
  | true =>
    cases exp with
    | and expressions => cases expressions <;> rfl
    | or | nor | not => rfl
    | _ => simp [isLogical] at hlogical

def ReadsRegex (context : BSONObj) (exp : MatchExpression Collator) : Prop :=
  isRegex exp = true → parseRegexDocument exp.leafPath context = .ok exp ∧
    (context.any fun e => getGtLtOp e.1.bytes = some .opREGEX) = true

theorem allReparsable_iff : AllReparsable lib collator expressions ↔
    ∀ exp ∈ expressions, Reparsable lib collator exp := by
  induction expressions with
  | nil => simp [AllReparsable]
  | cons exp rest ih => simp [AllReparsable, ih]

theorem operators_subset_serializeSubs (hexp : exp ∈ subs) :
    operators callbacks exp ⊆ serializeSubs callbacks subs := by
  induction subs with
  | nil => simp at hexp
  | cons first rest ih =>
    intro e he
    rw [serializeSubs, mem_append]
    rcases mem_cons.mp hexp with rfl | hexp
    · exact Or.inl he
    · exact Or.inr (ih hexp he)

theorem readsRegex_serializeSubs (h : ∀ exp ∈ subs, isLogical exp = false)
    (hsame : ∀ exp ∈ subs, ∀ other ∈ subs, isRegex exp = true → isRegex other = true → exp = other)
    (hsubs : AllReparsable lib collator subs) :
    ∀ exp ∈ subs, ReadsRegex (serializeSubs callbacks subs) exp := by
  intro exp hmem hregex
  cases exp with
  | regex path pattern flags =>
    have hread := foldl_readRegex ([], [])
      (fun other hother hregex => hsame _ hother _ hmem hregex rfl) (fun _ => rfl) (Or.inl hmem)
    have hexp := allReparsable_iff.mp hsubs _ hmem
    constructor
    · simp only [leafPath, MatchExpression.path, parseRegexDocument,
        foldlM_serializeSubs lib callbacks h hsubs, hread, bind, Except.bind, initRegex, hexp.2]
      rfl
    · rw [any_eq_true]
      refine ⟨(operatorName "$regex", .string pattern), ?_, by rfl⟩
      exact operators_subset_serializeSubs hmem (mem_cons_self)
  | _ => simp [isRegex] at hregex

theorem readsRegex_operators (h : isLogical exp = false) (hexp : Reparsable lib collator exp) :
    ReadsRegex (operators callbacks exp) exp := by
  have hsubs : ReadsRegex (serializeSubs callbacks [exp]) exp := readsRegex_serializeSubs
    (forall_mem_singleton.mpr h) (by simp) ⟨hexp, trivial⟩ exp mem_cons_self
  rwa [serializeSubs, serializeSubs, append_nil] at hsubs

theorem parseSubFields_operators (hlogical : isLogical exp = false)
    (hexp : Reparsable lib collator exp) (helem : isElemMatch exp = false) {context : BSONObj}
    (hregex : ReadsRegex context exp) :
    parseSubFields lib callbacks collator context exp.leafPath (operators callbacks exp) =
      .ok [reparsed exp] := by
  cases exp with
  | and | or | nor | not => simp [isLogical] at hlogical
  | elemMatchObject | elemMatchValue => simp [isElemMatch] at helem
  | bitTest | geo => exact hexp.elim
  | comparison matchType path rhs c =>
    obtain ⟨-, hundefined, hnotRegex, rfl⟩ := hexp
    have hcmp : parseComparison c path matchType rhs = .ok (.comparison matchType path rhs c) := by
      have hno : ¬(matchType ≠ .EQ ∧ rhs.type = 11) := by
        rintro ⟨hne, htype⟩
        exact hnotRegex.elim hne fun h => h htype
      rw [parseComparison, if_neg hno, initComparison, if_neg hundefined]
    apply parseSubFields_read _ _ hcmp
    · cases matchType <;> decide
    · rw [parseSubField]
      cases matchType <;> rfl
  | regex path pattern flags =>
    obtain ⟨hparse, hany⟩ := hregex rfl
    have hpattern : parseSubFields lib callbacks collator context path
        [(operatorName "$regex", .string pattern)] = .ok [.regex path pattern flags] :=
      parseSubFields_read (by decide) (by rw [parseSubField]; rfl) hparse
    have hoptions : parseSubFields lib callbacks collator context path
        (if flags.isEmpty then [] else [(operatorName "$options", .string flags)]) = .ok [] := by
      split_ifs
      · exact parseSubFields_nil
      · have hoption : parseSubField lib callbacks collator context path
            (operatorName "$options").bytes (.string flags) = .ok none :=
          parseSubField_options _ hany
        exact parseSubFields_cons hoption parseSubFields_nil
    exact parseSubFields_append hpattern hoptions
  | mod path divisor remainder =>
    obtain ⟨-, hne, hdivisor, hremainder⟩ := hexp
    exact parseSubFields_read (by decide) (by rw [parseSubField]; rfl)
      (parseMOD_int32 hne hdivisor hremainder)
  | «exists» path =>
    exact parseSubFields_singleton (by decide) (by rw [parseSubField]; rfl)
  | typeOperator path type =>
    cases type with
    | allNumbers => exact parseSubFields_singleton (by decide) (by rw [parseSubField]; rfl)
    | bsonType type =>
      exact parseSubFields_read (by decide) (by rw [parseSubField]; rfl) (parseType_int32 hexp.2)
  | matchIn path equalities regexes c =>
    obtain ⟨-, rfl, hset, hvalues, hregexes⟩ := hexp
    exact parseSubFields_read (by decide) (parseSubField_in _)
      (parseIn_written lib hset hvalues hregexes "$in")
  | size path n =>
    obtain ⟨-, hnonneg, hrange⟩ := hexp
    exact parseSubFields_read (by decide) (by rw [parseSubField]; rfl)
      (parseSize_int32 hnonneg hrange)
  | alwaysFalse path =>
    exact parseSubFields_read (by decide) (by rw [parseSubField]; rfl) (by rw [parseAll]; rfl)

theorem parseField_and {topLevel : Bool} {elems : List BSONValue} (hne : elems ≠ [])
    (h : parseTrees lib callbacks collator elems = .ok results) :
    parseField lib callbacks collator topLevel (operatorName "$and").bytes (.array elems) =
        .ok [.and results] ∧
      parseField lib callbacks collator topLevel (operatorName "$or").bytes (.array elems) =
        .ok [.or results] ∧
      parseField lib callbacks collator topLevel (operatorName "$nor").bytes (.array elems) =
        .ok [.nor results] := by
  have hlist (op : String) :
      parseTreeList lib callbacks collator op (.array elems) = .ok results := by
    cases elems with
    | nil => exact (hne rfl).elim
    | cons e elems =>
      rw [parseTreeList, h]
      simp
  unfold parseField
  simp only [hlist]
  exact ⟨rfl, rfl, rfl⟩

theorem listToBSON_ne_nil (h : expressions ≠ []) : listToBSON callbacks expressions ≠ [] := by
  cases expressions with
  | nil => exact (h rfl).elim
  | cons exp rest => simp [listToBSON]

mutual
/-- What is written is read back, as operators among others and as a query. -/
theorem parse_serialize (exp : MatchExpression Collator) (hexp : Reparsable lib collator exp) :
    (isLogical exp = false → ∀ context, ReadsRegex context exp →
      parseSubFields lib callbacks collator context exp.leafPath (operators callbacks exp) =
        .ok [reparsed exp]) ∧
    ∀ topLevel, parse lib callbacks collator topLevel (serialize callbacks exp) =
      .ok (reparsed exp) := by
  -- a leaf is read as a query where it is read as operators
  have hleaf (hlogical : isLogical exp = false) (hsub : ∀ context, ReadsRegex context exp →
      parseSubFields lib callbacks collator context exp.leafPath (operators callbacks exp) =
        .ok [reparsed exp]) :=
    And.intro (fun _ : isLogical exp = false => hsub)
      (parse_leaf hlogical hexp (hsub _ (readsRegex_operators hlogical hexp)))
  cases exp with
  | and expressions =>
    refine ⟨fun h => by simp [isLogical] at h, fun topLevel => ?_⟩
    cases expressions with
    | nil =>
      rw [serialize, isEmpty_nil, if_pos rfl, parse, parseFields]
      rfl
    | cons exp rest =>
      obtain ⟨htrees, -⟩ := parse_serializeList (exp :: rest) hexp
      exact parse_singleton (parseField_and (listToBSON_ne_nil (by simp)) htrees).1
  | or expressions =>
    refine ⟨fun h => by simp [isLogical] at h, fun topLevel => ?_⟩
    obtain ⟨htrees, -⟩ := parse_serializeList expressions hexp.2
    exact parse_singleton (parseField_and (listToBSON_ne_nil hexp.1) htrees).2.1
  | nor expressions =>
    refine ⟨fun h => by simp [isLogical] at h, fun topLevel => ?_⟩
    obtain ⟨htrees, -⟩ := parse_serializeList expressions hexp.2
    exact parse_singleton (parseField_and (listToBSON_ne_nil hexp.1) htrees).2.2
  | not exp =>
    refine ⟨fun h => by simp [isLogical] at h, fun topLevel => ?_⟩
    obtain ⟨-, hparse⟩ := parse_serialize exp hexp
    have htrees : parseTrees lib callbacks collator [.object (serialize callbacks exp)] =
        .ok [reparsed exp] := by
      rw [parseTrees, hparse, parseTrees]
      rfl
    exact parse_singleton (parseField_and (by simp) htrees).2.2
  | elemMatchObject path sub =>
    apply hleaf rfl
    intro context _
    obtain ⟨-, hparse⟩ := parse_serialize sub hexp.2
    apply parseSubFields_singleton (by decide)
    rw [parseSubField_elemMatch, parseElemMatch, isElemMatchValue_serialize hexp.2, hparse]
    rfl
  | elemMatchValue path subs =>
    obtain ⟨-, hne, hsubs, hleaves, hsame⟩ := hexp
    apply hleaf rfl
    intro context _
    obtain ⟨-, hparse⟩ := parse_serializeList subs hsubs
    have hplain : ∀ exp ∈ subs, isLogical exp = false := fun exp hmem => (hleaves exp hmem).1
    have hresults := hparse hleaves (serializeSubs callbacks subs)
      (readsRegex_serializeSubs hplain hsame hsubs)
    have hwritten : Written (serializeSubs callbacks subs) :=
      serializeSubs_written hne hplain hsubs
    exact parseSubFields_read (by decide) (parseSubField_elemMatch _)
      (parseElemMatch_subs hwritten hresults)
  | _ => exact hleaf rfl fun context hregex => parseSubFields_operators rfl hexp rfl hregex

theorem parse_serializeList (expressions : List (MatchExpression Collator))
    (hexps : AllReparsable lib collator expressions) :
    parseTrees lib callbacks collator (listToBSON callbacks expressions) =
      .ok (reparsedList expressions) ∧
    ((∀ exp ∈ expressions, isLogical exp = false ∧ exp.leafPath = []) → ∀ context,
      (∀ exp ∈ expressions, ReadsRegex context exp) →
      parseSubFields lib callbacks collator context [] (serializeSubs callbacks expressions) =
        .ok (reparsedList expressions)) := by
  match expressions with
  | [] =>
    refine ⟨?_, fun _ _ _ => parseSubFields_nil⟩
    rw [listToBSON, parseTrees]
    rfl
  | exp :: rest =>
    obtain ⟨hoperators, hparse⟩ := parse_serialize exp hexps.1
    obtain ⟨htrees, hsubs⟩ := parse_serializeList rest hexps.2
    constructor
    · rw [listToBSON, parseTrees, hparse, htrees]
      rfl
    · intro hleaves context hregex
      obtain ⟨hlogical, hpath⟩ := hleaves exp mem_cons_self
      have hfirst := hoperators hlogical context (hregex exp mem_cons_self)
      rw [hpath] at hfirst
      have hothers := hsubs (forall_mem_cons.mp hleaves).2 context (forall_mem_cons.mp hregex).2
      exact parseSubFields_append hfirst hothers
end

end RoundTrip

end MatchExpression
end MongoServer
