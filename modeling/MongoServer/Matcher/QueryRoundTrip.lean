import MongoServer.Matcher.ParsedExpressions
import MongoServer.Matcher.Serialization

/-!
What the parser makes of a query can be written and read back, as long as no `$elemMatch` of values
holds a negation or a conjunction and no field of a database reference is compared.
-/
namespace MongoServer
open List Bool
namespace MatchExpression
open MatchExpressionParser
variable {Collator : Type} (lib : MatcherLibrary Collator) (callbacks : ParserCallbacks)

section Nodes

mutual
def everyNode (test : MatchExpression Collator → Bool) : MatchExpression Collator → Bool
  | .elemMatchObject path sub => test (.elemMatchObject path sub) && everyNode test sub
  | .elemMatchValue path subs => test (.elemMatchValue path subs) && everyNodeOfAll test subs
  | .and expressions => test (.and expressions) && everyNodeOfAll test expressions
  | .or expressions => test (.or expressions) && everyNodeOfAll test expressions
  | .nor expressions => test (.nor expressions) && everyNodeOfAll test expressions
  | .not exp => test (.not exp) && everyNode test exp
  | exp => test exp

def everyNodeOfAll (test : MatchExpression Collator → Bool) : List (MatchExpression Collator) → Bool
  | [] => true
  | exp :: rest => everyNode test exp && everyNodeOfAll test rest
end

/-- Tests of bits and of shapes are written with operators of their own. -/
def hasPlainOperator : MatchExpression Collator → Bool
  | .bitTest _ _ | .geo _ _ => false
  | _ => true

/-- What stands under the path of a node is a document of operators on it: the path is no field of a
database reference, and operators on the elements of an array are no negations or conjunctions. -/
def isSpliceable : MatchExpression Collator → Bool
  | .elemMatchValue path subs => !isDollar path && subs.all fun exp => !isLogical exp
  | exp => !isDollar exp.leafPath

def Writable (exp : MatchExpression Collator) : Prop :=
  everyNode hasPlainOperator exp = true ∧ everyNode isSpliceable exp = true

def AllWritable (expressions : List (MatchExpression Collator)) : Prop :=
  everyNodeOfAll hasPlainOperator expressions = true ∧
    everyNodeOfAll isSpliceable expressions = true

theorem everyNodeOfAll_iff {expressions : List (MatchExpression Collator)}
    {test : MatchExpression Collator → Bool} :
    everyNodeOfAll test expressions = true ↔ ∀ exp ∈ expressions, everyNode test exp = true := by
  induction expressions with
  | nil => simp [everyNodeOfAll]
  | cons exp rest ih => simp [everyNodeOfAll, ih]

theorem allWritable_iff {expressions : List (MatchExpression Collator)} :
    AllWritable expressions ↔ ∀ exp ∈ expressions, Writable exp := by
  simp only [AllWritable, everyNodeOfAll_iff, Writable, forall_and]

theorem Writable.leafPath {exp : MatchExpression Collator} (h : Writable exp) :
    isDollar exp.leafPath = false := by
  have hspliceable := h.2
  cases exp with
  | and | or | nor | not => rfl
  | elemMatchObject | elemMatchValue =>
    simp only [everyNode, isSpliceable, and_eq_true, not_eq_true'] at hspliceable
    first | exact hspliceable.1 | exact hspliceable.1.1
  | _ => simpa [everyNode, isSpliceable] using hspliceable

end Nodes

section Equalities
variable (collator : Option Collator) (l r : BSONValue)

theorem eltCompare_lt_iff :
    eltCompare lib collator l r < 0 ↔ lib.rank collator l < lib.rank collator r := by
  unfold eltCompare
  rcases lt_trichotomy (canonicalizeBSONType l) (canonicalizeBSONType r) with h | h | h
  · have hrank : lib.rank collator l < lib.rank collator r :=
      BSONValue.rank_lt_of_type (by simpa using h)
    rw [if_pos (by omega)]
    exact iff_of_true (by omega) hrank
  · rw [if_neg (by omega)]
    exact lib.compare_lt_iff collator h
  · have hrank : lib.rank collator r < lib.rank collator l :=
      BSONValue.rank_lt_of_type (by simpa using h)
    rw [if_pos (by omega)]
    exact iff_of_false (by omega) hrank.not_gt

theorem equalitySet_idem (equalities : List BSONValue) :
    equalitySet lib collator (equalitySet lib collator equalities) =
      equalitySet lib collator equalities := by
  have hchain : (equalitySet lib collator equalities).IsChain fun l r =>
      eltCompare lib collator l r < 0 := isChain_destutter _ _
  have htrans (a b c : BSONValue) (hab : eltCompare lib collator a b < 0)
      (hbc : eltCompare lib collator b c < 0) : eltCompare lib collator a c < 0 := by
    rw [eltCompare_lt_iff] at *
    exact hab.trans hbc
  have : Trans (fun l r => eltCompare lib collator l r < 0)
      (fun l r => eltCompare lib collator l r < 0) fun l r => eltCompare lib collator l r < 0 :=
    ⟨htrans _ _ _⟩
  have hpairwise := isChain_iff_pairwise.mp hchain
  have hsorted : (equalitySet lib collator equalities).mergeSort
      (fun l r => eltCompare lib collator l r ≤ 0) = equalitySet lib collator equalities := by
    apply mergeSort_of_pairwise
    exact hpairwise.imp fun h => decide_eq_true h.le
  calc equalitySet lib collator (equalitySet lib collator equalities)
      = (equalitySet lib collator equalities).destutter fun l r =>
          eltCompare lib collator l r < 0 := congrArg (List.destutter _) hsorted
    _ = equalitySet lib collator equalities := destutter_of_isChain _ _ hchain

end Equalities

section Leaves
variable {lib} {collator : Option Collator} {name : List UInt8} {exp : MatchExpression Collator}

/-- What an operator on a path gives: leaves are on that path, and it can be read back. -/
def ParsedOn (lib : MatcherLibrary Collator) (collator : Option Collator) (name : List UInt8)
    (exp : MatchExpression Collator) : Prop :=
  (isLogical exp = false → exp.leafPath = name) ∧
    (0 ∉ name → Writable exp → Reparsable lib collator exp)

def PlainOn (lib : MatcherLibrary Collator) (collator : Option Collator) (name : List UInt8)
    (exp : MatchExpression Collator) : Prop := ParsedOn lib collator name exp ∧ isRegex exp = false

theorem ParsedOn.of_leaf (hpath : exp.leafPath = name)
    (h : IsFieldPath name → Reparsable lib collator exp) : ParsedOn lib collator name exp := by
  constructor
  · exact fun _ => hpath
  · intro hname hwritable
    have hdollar := hwritable.leafPath
    rw [hpath] at hdollar
    exact h ⟨hname, hdollar⟩

theorem isInt32_numberInt (v : BSONValue) : IsInt32 v.numberInt := by
  cases v with
  | number n =>
    cases n with
    | numberInt n => exact ⟨BitVec.le_toInt n, BitVec.toInt_lt⟩
    | numberLong n => exact ⟨BitVec.le_toInt _, BitVec.toInt_lt⟩
    | numberDouble d =>
      simp only [BSONValue.numberInt]
      split_ifs with h
      · exact h.2
      · constructor <;> norm_num
  | _ => constructor <;> norm_num [BSONValue.numberInt]

theorem ParsedLeaf.parsedOn (h : ParsedLeaf lib collator name exp) :
    ParsedOn lib collator name exp := by
  cases h with
  | comparison hundefined hregex => exact .of_leaf rfl fun hfield => ⟨hfield, hundefined, hregex, rfl⟩
  | regex hcheck => exact .of_leaf rfl fun hfield => ⟨hfield, hcheck⟩
  | @mod d r hzero =>
    exact .of_leaf rfl fun hfield => ⟨hfield, hzero, isInt32_numberInt d, isInt32_numberInt r⟩
  | @size e hsize => exact .of_leaf rfl fun hfield => ⟨hfield, hsize, isInt32_numberInt e⟩
  | «exists» | allNumbers => exact .of_leaf rfl fun hfield => hfield
  | bsonType hvalid => exact .of_leaf rfl fun hfield => ⟨hfield, hvalid⟩
  | matchIn hvalues hregexes =>
    apply ParsedOn.of_leaf rfl
    intro hfield
    refine ⟨hfield, rfl, equalitySet_idem _ _ _, ?_, hregexes⟩
    exact fun v hv => hvalues v (equalitySet_subset lib collator hv)

end Leaves

section Parser
variable {lib callbacks} {collator : Option Collator}

variable {expressions children : List (MatchExpression Collator)} {name : List UInt8}
  {exp : MatchExpression Collator} {ls rs : List (MatchExpression Collator)}

theorem allReparsable_of_parsedOn (hname : 0 ∉ name)
    (h : ∀ exp ∈ expressions, ParsedOn lib collator name exp)
    (hwritable : AllWritable expressions) : AllReparsable lib collator expressions :=
  allReparsable_iff.mpr fun exp hexp =>
    (h exp hexp).2 hname (allWritable_iff.mp hwritable exp hexp)

theorem ParsedOn.not (h : ParsedOn lib collator name exp) :
    PlainOn lib collator name (.not exp) := by
  refine ⟨⟨fun hlogical => by simp [isLogical] at hlogical, ?_⟩, rfl⟩
  intro hname hwritable
  simp only [Writable, everyNode, and_eq_true] at hwritable
  exact h.2 hname ⟨hwritable.1.2, hwritable.2.2⟩

theorem ParsedOn.and (h : ∀ exp ∈ expressions, ParsedOn lib collator name exp) :
    PlainOn lib collator name (.and expressions) := by
  refine ⟨⟨fun hlogical => by simp [isLogical] at hlogical, ?_⟩, rfl⟩
  intro hname hwritable
  simp only [Writable, everyNode, and_eq_true] at hwritable
  exact allReparsable_of_parsedOn hname h ⟨hwritable.1.2, hwritable.2.2⟩

theorem plainOn_test {test : ℕ} (h : exp = .geo name test ∨ exp = .bitTest name test) :
    PlainOn lib collator name exp := by
  rcases h with rfl | rfl <;>
    exact ⟨⟨fun _ => rfl, fun _ hwritable => by
      simp [Writable, everyNode, hasPlainOperator] at hwritable⟩, rfl⟩

/-- A child of a document of operators: where it is a regular expression, it is the only one that the
document has. -/
def ParsedIn (lib : MatcherLibrary Collator) (collator : Option Collator) (context : BSONObj)
    (name : List UInt8) (exp : MatchExpression Collator) : Prop :=
  ParsedOn lib collator name exp ∧ (isRegex exp = true → parseRegexDocument name context = .ok exp)

theorem PlainOn.parsedIn {context : BSONObj} (h : PlainOn lib collator name exp) :
    ParsedIn lib collator context name exp :=
  ⟨h.1, fun hexp => by simp [h.2] at hexp⟩

theorem Writable.singleton (h : Writable exp) : AllWritable [exp] :=
  allWritable_iff.mpr (forall_mem_singleton.mpr h)

theorem AllWritable.head (h : AllWritable (exp :: expressions)) : Writable exp :=
  allWritable_iff.mp h exp mem_cons_self

theorem reparsable_unwrapRoot (h : AllWritable children → AllReparsable lib collator children)
    (hwritable : Writable (unwrapRoot children)) :
    Reparsable lib collator (unwrapRoot children) := by
  match children with
  | [exp] => exact (h hwritable.singleton).1
  | [] => trivial
  | _ :: _ :: _ =>
    simp only [unwrapRoot, Writable, everyNode, Bool.and_eq_true] at hwritable
    exact h ⟨hwritable.1.2, hwritable.2.2⟩

theorem writable_list (h : AllWritable [.or expressions] ∨ AllWritable [.and expressions] ∨
      AllWritable [.nor expressions]) : AllWritable expressions := by
  simp only [AllWritable, everyNodeOfAll, everyNode, Bool.and_true, Bool.and_eq_true] at h
  rcases h with h | h | h <;> exact ⟨h.1.2, h.2.2⟩

/-- Options alone are refused: where no operator gives a child, all of them are options and one of
the document's is a regular expression. -/
def OnlyOptions (context sub : BSONObj) : Prop :=
  ∀ e ∈ sub, getGtLtOp e.1.bytes = some .opOPTIONS ∧
    (context.any fun e => getGtLtOp e.1.bytes = some .opREGEX) = true

theorem not_onlyOptions {sub : BSONObj} (hsub : sub ≠ []) : ¬OnlyOptions sub sub := by
  intro hoptions
  obtain ⟨first, rest, rfl⟩ := exists_cons_of_ne_nil hsub
  obtain ⟨e, he, hregex⟩ := any_eq_true.mp (hoptions first mem_cons_self).2
  rw [(hoptions e he).1] at hregex
  simp at hregex

def ReadsBack (lib : MatcherLibrary Collator) (collator : Option Collator) :
    Source → List (MatchExpression Collator) → Prop
  | .query _, children | .fields _, children =>
      AllWritable children → AllReparsable lib collator children
  | .field name _, children => 0 ∉ name → AllWritable children → AllReparsable lib collator children
  | .trees arr, children =>
      (arr ≠ [] → children ≠ []) ∧ (AllWritable children → AllReparsable lib collator children)
  | .operators name sub, children =>
      (∀ exp ∈ children, ParsedOn lib collator name exp) ∧ (sub ≠ [] → children ≠ []) ∧
        ∀ exp ∈ children, ∀ other ∈ children,
          isRegex exp = true → isRegex other = true → exp = other
  | .subFields context name sub, children =>
      (∀ exp ∈ children, ParsedIn lib collator context name exp) ∧
        (children = [] → OnlyOptions context sub)
  | .subField context name op _, children =>
      (∀ exp ∈ children, ParsedIn lib collator context name exp) ∧
        (children = [] → getGtLtOp op = some .opOPTIONS ∧
          (context.any fun e => getGtLtOp e.1.bytes = some .opREGEX) = true)
  | .elemMatch name _, children | .elemMatches name _, children =>
      ∀ exp ∈ children, PlainOn lib collator name exp

theorem ReadsBack.subField {context : BSONObj} {op : List UInt8} {e : BSONValue}
    (h : ParsedIn lib collator context name exp) :
    ReadsBack lib collator (.subField context name op e) [exp] :=
  ⟨forall_mem_singleton.mpr h, fun hnil => by simp at hnil⟩

theorem plainOn_elemMatchValue {obj : BSONObj} (hvalue : isElemMatchValue (.object obj) = true)
    (h : ReadsBack lib collator (.operators [] obj) children) :
    PlainOn lib collator name (.elemMatchValue name children) := by
  obtain ⟨hon, hne, hsame⟩ := h
  refine ⟨⟨fun _ => rfl, fun hname hwritable => ?_⟩, rfl⟩
  have hpath := hwritable.leafPath
  simp only [Writable, everyNode, isSpliceable, and_eq_true, all_eq_true, not_eq_true'] at hwritable
  obtain ⟨⟨-, hplain⟩, ⟨-, hleaves⟩, hspliceable⟩ := hwritable
  have hobj : obj ≠ [] := by
    rintro rfl
    simp [isElemMatchValue, isExpressionDocument] at hvalue
  refine ⟨⟨hname, hpath⟩, hne hobj, ?_, ?_, hsame⟩
  · exact allReparsable_of_parsedOn (by simp) hon ⟨hplain, hspliceable⟩
  · exact fun sub hsub => ⟨hleaves sub hsub, (hon sub hsub).1 (hleaves sub hsub)⟩

theorem plainOn_elemMatchObject {obj : BSONObj} (h : ReadsBack lib collator (.query obj) [exp]) :
    PlainOn lib collator name (.elemMatchObject name exp) := by
  refine ⟨⟨fun _ => rfl, fun hname hwritable => ?_⟩, rfl⟩
  have hpath := hwritable.leafPath
  simp only [Writable, everyNode, and_eq_true] at hwritable
  have hexp : Writable exp := ⟨hwritable.1.2, hwritable.2.2⟩
  exact ⟨⟨hname, hpath⟩, (h hexp.singleton).1⟩

theorem readsBack_operators {sub : BSONObj}
    (h : ReadsBack lib collator (.subFields sub name sub) children) :
    ReadsBack lib collator (.operators name sub) children := by
  obtain ⟨hin, hoptions⟩ := h
  refine ⟨fun exp hexp => (hin exp hexp).1, fun hsub hnil => not_onlyOptions hsub (hoptions hnil), ?_⟩
  intro exp hexp other hother hregex hregex'
  have heq := (hin exp hexp).2 hregex
  rw [(hin other hother).2 hregex'] at heq
  exact (Except.ok.inj heq).symm

theorem Parsed.readsBack {source : Source} (h : Parsed lib collator source children) :
    ReadsBack lib collator source children := by
  induction h with
  | query _ ih => exact fun hwritable => ⟨reparsable_unwrapRoot ih hwritable.head, trivial⟩
  | noFields => exact fun _ => trivial
  | @fields name _ _ _ _ _ _ ih ihrest =>
    intro hwritable
    simp only [allWritable_iff, allReparsable_iff, forall_mem_append, ReadsBack] at *
    exact ⟨ih name.noNul hwritable.1, ihrest hwritable.2⟩
  | or hne _ ih =>
    exact fun _ hwritable => ⟨⟨ih.1 hne, ih.2 (writable_list (Or.inl hwritable))⟩, trivial⟩
  | and _ _ ih =>
    exact fun _ hwritable => ⟨ih.2 (writable_list (Or.inr (Or.inl hwritable))), trivial⟩
  | nor hne _ ih =>
    exact fun _ hwritable => ⟨⟨ih.1 hne, ih.2 (writable_list (Or.inr (Or.inr hwritable)))⟩, trivial⟩
  | nothing => exact fun _ _ => trivial
  | reference hname =>
    intro _ hwritable
    have hpath := hwritable.head.leafPath
    rcases hname with rfl | rfl | rfl <;> cases hpath
  | document _ _ _ ih => exact fun hname hwritable => allReparsable_of_parsedOn hname ih.1 hwritable
  | value _ h => exact fun hname hwritable => ⟨h.parsedOn.2 hname hwritable.head, trivial⟩
  | noTrees => exact ⟨fun hne => (hne rfl).elim, fun _ => trivial⟩
  | trees _ _ ih ihrest =>
    refine ⟨fun _ => by simp, fun hwritable => ?_⟩
    have hrest := (forall_mem_cons.mp (allWritable_iff.mp hwritable)).2
    exact ⟨(ih hwritable.head.singleton).1, ihrest.2 (allWritable_iff.mpr hrest)⟩
  | @near name _ test =>
    have hgeo : ParsedOn lib collator name (.geo name test) := (plainOn_test (Or.inl rfl)).1
    simp [ReadsBack, hgeo]
  | operators _ ih => exact readsBack_operators ih
  | noSubFields => simp [ReadsBack, OnlyOptions]
  | subFields _ _ ih ihrest =>
    refine ⟨forall_mem_append.mpr ⟨ih.1, ihrest.1⟩, fun hnil => ?_⟩
    obtain ⟨hchildren, hothers⟩ := append_eq_nil_iff.mp hnil
    exact forall_mem_cons.mpr ⟨ih.2 hchildren, ihrest.2 hothers⟩
  | options hop hany => exact ⟨by simp, fun _ => ⟨hop, hany⟩⟩
  | leaf h => exact .subField (PlainOn.parsedIn ⟨h.1.parsedOn, h.2⟩)
  | regex h hleaf => exact .subField ⟨hleaf.parsedOn, fun _ => h⟩
  | test h => exact .subField (plainOn_test h).parsedIn
  | negation _ h => exact .subField h.parsedOn.not.parsedIn
  | not _ ih => exact .subField (ParsedOn.and ih.1).1.not.parsedIn
  | allNothing => exact .subField (PlainOn.parsedIn ⟨.of_leaf rfl fun hfield => hfield, rfl⟩)
  | allElements _ h => exact .subField (ParsedOn.and fun exp hexp => (h exp hexp).parsedOn).parsedIn
  | allElemMatches _ _ _ ih => exact .subField (ParsedOn.and fun exp hexp => (ih exp hexp).1).parsedIn
  | elemMatch _ _ ih => exact .subField (ih _ mem_cons_self).parsedIn
  | elemMatchValue hvalue _ ih => exact forall_mem_singleton.mpr (plainOn_elemMatchValue hvalue ih)
  | elemMatchObject _ _ ih => exact forall_mem_singleton.mpr (plainOn_elemMatchObject ih)
  | noElemMatches => exact fun exp hexp => by simp at hexp
  | elemMatches _ _ ih ihrest => exact forall_mem_cons.mpr ⟨ih _ mem_cons_self, ihrest⟩

end Parser

end MatchExpression
end MongoServer
