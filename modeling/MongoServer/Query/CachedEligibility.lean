import MongoServer.Query.KeyShapes

/-!
Queries with one key. The key determines the operators and the paths of the match expression, unless
a list with a regular expression is taken for a list on a path that ends in `_re`. Its bits
determine which indexes can be used, as far as they are about the path and the values that decide
on it.
-/
namespace MongoServer
open Bool List
namespace PlanCache
open MatchExpression QueryPlanner Indexability
variable {Collator : Type} {path : List UInt8} {x y : MatchExpression Collator} (v : BSONValue)

section Erased
variable (types : TestTypes) (e : MatchExpression Collator)
  (index : QueryPlanner.IndexEntry Collator)

mutual
/-- An expression without its values. Its operators and paths are left, and whether a list has
regular expressions in it. -/
def erase : MatchExpression Collator → MatchExpression Collator
  | .comparison type path _ _ => .comparison type path .jstNULL none
  | .regex path _ _ => .regex path [] []
  | .mod path _ _ => .mod path 0 0
  | .exists path => .exists path
  | .typeOperator path _ => .typeOperator path .allNumbers
  | .matchIn path _ regexes _ =>
      .matchIn path [] (if regexes.isEmpty then [] else [([], [])]) none
  | .bitTest path _ => .bitTest path 0
  | .geo path _ => .geo path 0
  | .size path _ => .size path 0
  | .elemMatchObject path sub => .elemMatchObject path (erase sub)
  | .elemMatchValue path subs => .elemMatchValue path (eraseAll subs)
  | .and expressions => .and (eraseAll expressions)
  | .or expressions => .or (eraseAll expressions)
  | .nor expressions => .nor (eraseAll expressions)
  | .not exp => .not (erase exp)
  | .alwaysFalse _ => .alwaysFalse []

def eraseAll : List (MatchExpression Collator) → List (MatchExpression Collator)
  | [] => []
  | exp :: rest => erase exp :: eraseAll rest
end

theorem eraseAll_eq_map (exps : List (MatchExpression Collator)) :
    eraseAll exps = exps.map erase := by
  induction exps with
  | nil => rfl
  | cons exp rest ih => rw [eraseAll, ih, map_cons]

/-- The expression without values that has the given operator, path and children. -/
def build (path : List UInt8) (regexes : Bool) (kids : List (MatchExpression Collator)) :
    MatchExpression.MatchType → MatchExpression Collator
  | .AND => .and kids
  | .OR => .or kids
  | .NOR => .nor kids
  | .NOT => .not (kids.headD (.and []))
  | .ELEM_MATCH_OBJECT => .elemMatchObject path (kids.headD (.and []))
  | .ELEM_MATCH_VALUE => .elemMatchValue path kids
  | .EQ => .comparison .EQ path .jstNULL none
  | .LTE => .comparison .LTE path .jstNULL none
  | .LT => .comparison .LT path .jstNULL none
  | .GT => .comparison .GT path .jstNULL none
  | .GTE => .comparison .GTE path .jstNULL none
  | .REGEX => .regex path [] []
  | .MOD => .mod path 0 0
  | .EXISTS => .exists path
  | .TYPE_OPERATOR => .typeOperator path .allNumbers
  | .MATCH_IN => .matchIn path [] (if regexes then [([], [])] else []) none
  | .BITS_ALL_SET | .BITS_ALL_CLEAR | .BITS_ANY_SET | .BITS_ANY_CLEAR => .bitTest path 0
  | .GEO | .GEO_NEAR => .geo path 0
  | .SIZE => .size path 0
  | .ALWAYS_FALSE | .WHERE | .TEXT => .alwaysFalse []

theorem erase_eq_build :
    erase e = build e.path (hasRegexes e) (e.children.map erase) (matchType types e) := by
  cases e with
  | comparison type => cases type <;> rfl
  | bitTest path test =>
    rw [matchType]
    cases types.bitTest test <;> rfl
  | geo path test =>
    rw [matchType]
    cases types.geo test <;> rfl
  | matchIn path equalities regexes => cases regexes <;> rfl
  | elemMatchValue | and | or | nor => rw [erase, eraseAll_eq_map]; rfl
  | _ => rfl

theorem path_erase : (erase e).path = e.path := by
  cases e <;> rfl

theorem eq_not_of_erase {e x : MatchExpression Collator} (h : erase e = .not x) :
    ∃ exp, e = .not exp := by
  cases e with
  | not exp => exact ⟨exp, rfl⟩
  | _ => cases h

theorem eq_matchIn_of_erase {e : MatchExpression Collator}
    {equalities : List BSONValue} {regexes : List (List UInt8 × List UInt8)}
    {collator : Option Collator} (h : erase e = .matchIn path equalities regexes collator) :
    ∃ path equalities regexes collator, e = .matchIn path equalities regexes collator := by
  cases e with
  | matchIn path equalities regexes collator => exact ⟨path, equalities, regexes, collator, rfl⟩
  | _ => cases h

theorem isIndexOnOwnFieldTypeNode_erase :
    isIndexOnOwnFieldTypeNode (erase e) = isIndexOnOwnFieldTypeNode e := by
  cases e <;> rfl

theorem negationUsesIndex_erase : negationUsesIndex (erase e) = negationUsesIndex e := by
  cases e with
  | matchIn path equalities regexes => cases regexes <;> rfl
  | _ => rfl

theorem isIndexableChild_erase : isIndexableChild (erase e) = isIndexableChild e := by
  cases e with
  | not exp => cases exp <;> rfl
  | _ => rfl

theorem nodeCanUseIndexOnOwnField_erase :
    nodeCanUseIndexOnOwnField (erase e) = nodeCanUseIndexOnOwnField e := by
  have harray : arrayUsesIndexOnOwnField (erase e) = arrayUsesIndexOnOwnField e := by
    cases e with
    | elemMatchValue path subs =>
      simp only [erase, eraseAll_eq_map, arrayUsesIndexOnOwnField, all_map]
      exact congrArg subs.all (funext isIndexableChild_erase)
    | _ => rfl
  rw [nodeCanUseIndexOnOwnField, nodeCanUseIndexOnOwnField, harray, path_erase,
    isIndexOnOwnFieldTypeNode_erase]

/-- What `compatible` asks of a predicate whatever its values are. -/
def kindAllows : MatchExpression Collator → Bool
  | .geo _ _ => false
  | .not child => !index.sparse && negationUsesIndex child
  | _ => true

variable (node : MatchExpression Collator)

/-- What `usable` asks of a predicate whatever its values are. -/
def kindsAllow : Bool :=
  kindAllows index node &&
    match node with
    | .elemMatchValue _ subs => subs.all (kindAllows index)
    | _ => true

theorem kindAllows_erase (e : MatchExpression Collator) :
    kindAllows index (erase e) = kindAllows index e := by
  cases e with
  | not exp => rw [erase, kindAllows, kindAllows, negationUsesIndex_erase]
  | _ => rfl

theorem kindsAllow_erase (e : MatchExpression Collator) :
    kindsAllow index (erase e) = kindsAllow index e := by
  unfold kindsAllow
  rw [kindAllows_erase]
  cases e with
  | elemMatchValue path subs =>
    simp only [erase, eraseAll_eq_map, all_map]
    exact congrArg _ (congrArg subs.all (funext (kindAllows_erase index)))
  | _ => rfl

end Erased

section Values
variable [DecidableEq Collator] (index : QueryPlanner.IndexEntry Collator)
  (collator : Option Collator)

/-- What `compatible` asks of the values of a predicate. -/
def valuesAllow (node : MatchExpression Collator) : Bool :=
  !(containsCollatableComparison node && collator ≠ index.collator) &&
    (!index.sparse || sparseDiscriminator node)

theorem compatible_eq (elemMatchChild : Bool) : compatible index node collator elemMatchChild =
      (!(containsCollatableComparison node && collator ≠ index.collator) &&
        (elemMatchChild || !index.sparse || sparseDiscriminator node) &&
          kindAllows index node) := by
  unfold compatible
  by_cases h : (containsCollatableComparison node && decide (collator ≠ index.collator)) = true
  · rw [if_pos h, h]
    rfl
  · rw [if_neg h, eq_false_iff.mpr h]
    cases node with
    | comparison type => cases type <;> cases elemMatchChild <;> simp [sparseDiscriminator, kindAllows]
    | _ => cases elemMatchChild <;> simp [sparseDiscriminator, kindAllows]

omit [DecidableEq Collator] in
theorem anyContainsComparisonToType_eq (type : ℤ) (exps : List (MatchExpression Collator)) :
    anyContainsComparisonToType type exps =
      exps.any (boundsGeneratingNodeContainsComparisonToType type) := by
  induction exps with
  | nil => rfl
  | cons exp rest ih => rw [anyContainsComparisonToType, ih, any_cons]

omit [DecidableEq Collator] in
theorem containsCollatableComparison_of_child
    {subs : List (MatchExpression Collator)} {child : MatchExpression Collator}
    (hchild : child ∈ subs) (h : containsCollatableComparison child = true) :
    containsCollatableComparison (.elemMatchValue path subs) = true := by
  simp only [containsCollatableComparison, boundsGeneratingNodeContainsComparisonToType,
    anyContainsComparisonToType_eq, or_eq_true, any_eq_true] at h ⊢
  rcases h with (h | h) | h
  · exact Or.inl (Or.inl ⟨child, hchild, h⟩)
  · exact Or.inl (Or.inr ⟨child, hchild, h⟩)
  · exact Or.inr ⟨child, hchild, h⟩

/-- Whether an index can be used is decided by the values and by the kinds of predicates. -/
theorem usable_eq :
    usable index node collator = (valuesAllow index collator node && kindsAllow index node) := by
  unfold usable kindsAllow
  rw [compatible_eq, Bool.and_assoc, Bool.false_or]
  change (valuesAllow index collator node && _) = _
  cases hvalues : valuesAllow index collator node with
  | false => rfl
  | true =>
    congr 2
    cases node with
    | elemMatchValue path subs =>
      change elemMatchValueCompatible index subs collator = subs.all (kindAllows index)
      rw [elemMatchValueCompatible, Bool.eq_iff_iff, List.all_eq_true, List.all_eq_true]
      apply forall₂_congr
      intro child hchild
      rw [compatible_eq]
      simp only [valuesAllow, and_eq_true, not_eq_true', and_eq_false_iff] at hvalues
      have hcollation : (containsCollatableComparison child &&
          decide (collator ≠ index.collator)) = false := by
        rw [and_eq_false_iff]
        apply hvalues.1.imp_left
        intro hnone
        by_contra hcontains
        rw [containsCollatableComparison_of_child hchild (by simpa using hcontains)] at hnone
        cases hnone
      rw [hcollation]
      rfl
    | _ => rfl

end Values

section Alike
variable [DecidableEq Collator] (lib : MatcherLibrary Collator) (types : TestTypes)
  (indexEntries : List (QueryPlanner.IndexEntry Collator))

/-- What the key is meant to tell of a node. -/
def signature (e : MatchExpression Collator) : MatchExpression.MatchType × List UInt8 × Bool × List Bool :=
  (matchType types e, e.path, hasRegexes e, discriminatorBits lib indexEntries e)

/-- Expressions that differ at most in values which change no bit. -/
def Alike (e d : MatchExpression Collator) : Prop :=
  labelled (signature lib types indexEntries) e = labelled (signature lib types indexEntries) d

variable {lib types indexEntries} {e d : MatchExpression Collator}

namespace Alike

theorem bits_eq (h : Alike lib types indexEntries e d) :
    discriminatorBits lib indexEntries e = discriminatorBits lib indexEntries d :=
  (Prod.ext_iff.mp (Prod.ext_iff.mp (Prod.ext_iff.mp (label_eq h)).2).2).2

theorem of_not (h : Alike lib types indexEntries (.not e) (.not d)) :
    Alike lib types indexEntries e d := (List.cons.inj (children_eq h)).1

section
variable (h : Alike lib types indexEntries e d)
include h

theorem map_children {M : Type} {g g' : MatchExpression Collator → M}
    (hg : ∀ x ∈ e.children, ∀ y ∈ d.children, Alike lib types indexEntries x y → g x = g' y) :
    e.children.map g = d.children.map g' := by
  have hkids := children_eq h
  rw [labelledAll_eq_map, labelledAll_eq_map] at hkids
  exact map_eq_map_of_forall hkids hg

theorem erase_eq : erase e = erase d := by
  induction e using induction_on_children generalizing d with
  | h e ih =>
    obtain ⟨htype, hrest⟩ := Prod.ext_iff.mp (label_eq h)
    obtain ⟨hpath, hrest⟩ := Prod.ext_iff.mp hrest
    obtain ⟨hregexes, -⟩ := Prod.ext_iff.mp hrest
    dsimp only [signature] at htype hpath hregexes
    rw [erase_eq_build types e, erase_eq_build types d, htype, hpath, hregexes,
      h.map_children fun x hx y _ hxy => ih x hx hxy]

theorem congr {M : Type} {f : MatchExpression Collator → M}
    (hf : ∀ exp, f (erase exp) = f exp) : f e = f d := by
  rw [← hf e, h.erase_eq, hf d]

theorem path_eq : e.path = d.path := h.congr path_erase

end

theorem kindsAllow_eq (index : QueryPlanner.IndexEntry Collator) (h : Alike lib types indexEntries e d) :
    kindsAllow index e = kindsAllow index d := h.congr (kindsAllow_erase index)

theorem eq_not (h : Alike lib types indexEntries (.not e) d) :
    ∃ exp, d = .not exp ∧ Alike lib types indexEntries e exp := by
  obtain ⟨exp, rfl⟩ := eq_not_of_erase h.erase_eq.symm
  exact ⟨exp, rfl, h.of_not⟩

end Alike

end Alike

section Bits
variable [DecidableEq Collator] {lib : MatcherLibrary Collator} {types : TestTypes}
  {indexEntries : List (QueryPlanner.IndexEntry Collator)} {index : QueryPlanner.IndexEntry Collator}
  {e d : MatchExpression Collator}

def hasField (index : QueryPlanner.IndexEntry Collator) (path : List UInt8) : Bool :=
  index.keyPattern.any fun elem => elem.1.bytes = path

omit [DecidableEq Collator] in
theorem fieldsNamed_ne_nil (h : hasField index path = true) :
    ∃ elem rest, fieldsNamed index path = elem :: rest := by
  rw [hasField, any_eq_true] at h
  obtain ⟨elem, hmem, hname⟩ := h
  have hfiltered : elem ∈ fieldsNamed index path := mem_filter.mpr ⟨hmem, hname⟩
  exact exists_cons_of_ne_nil (ne_nil_of_mem hfiltered)

theorem isMatchCompatibleWithIndex_eq (hfield : hasField index path = true)
    (hfilter : filterNodes index path = []) (e : MatchExpression Collator) :
    isMatchCompatibleWithIndex (registered lib index path) e =
      ((!index.sparse || sparseDiscriminator e) && collationDiscriminator index.collator e) := by
  obtain ⟨elem, rest, hfields⟩ := fieldsNamed_ne_nil hfield
  rw [isMatchCompatibleWithIndex, registered, hfilter, hfields]
  have hconst : ∀ (fields : BSONObj) (test : MatchExpression Collator → Bool),
      (((elem :: fields).map fun _ => test).all fun discriminator => discriminator e) = test e := by
    intro fields test
    induction fields with
    | nil => simp
    | cons _ fields ih => simpa using ih
  rw [all_append, all_append, hconst, map_nil]
  cases index.sparse with
  | false => simp
  | true =>
    rw [if_pos rfl, hconst]
    simp

/-- Two nodes on one path with the same bits get the same answer for each index on the path. -/
theorem bit_eq (hindex : index ∈ indexEntries) (hpath : e.path = d.path)
    (hbits : discriminatorBits lib indexEntries e = discriminatorBits lib indexEntries d)
    (hfield : hasField index e.path = true) :
    isMatchCompatibleWithIndex (registered lib index e.path) e =
      isMatchCompatibleWithIndex (registered lib index e.path) d := by
  rw [discriminatorBits, discriminatorBits, ← hpath] at hbits
  have hnonempty : (registered lib index e.path).isEmpty = false := by
    obtain ⟨elem, rest, hfields⟩ := fieldsNamed_ne_nil hfield
    simp [registered, hfields]
  have hmem : (index.name, registered lib index e.path) ∈
      getDiscriminators lib indexEntries e.path := by
    rw [getDiscriminators, mem_filter, mem_map]
    exact ⟨⟨index, hindex, rfl⟩, by rw [hnonempty]; rfl⟩
  exact map_inj_left.mp hbits _ hmem

theorem isCollatableType_eq :
    isCollatableType v = (decide (v.type = 2) || decide (v.type = 4) || decide (v.type = 3)) := by
  cases v with
  | number n => cases n <;> rfl
  | _ => rfl

omit [DecidableEq Collator] in
theorem containsCollatableComparison_matchIn (path : List UInt8) (equalities : List BSONValue)
    (regexes : List (List UInt8 × List UInt8)) (collator : Option Collator) :
    containsCollatableComparison (.matchIn path equalities regexes collator) =
      equalities.any isCollatableType := by
  simp only [containsCollatableComparison, boundsGeneratingNodeContainsComparisonToType]
  induction equalities with
  | nil => rfl
  | cons v rest ih =>
    rw [any_cons, any_cons, any_cons, any_cons, ← ih, isCollatableType_eq]
    ac_rfl

/-- The collation by which a comparison compares its values. -/
def comparisonCollator : MatchExpression Collator → Option (Option Collator)
  | .comparison _ _ _ collator => some collator
  | .matchIn _ _ _ collator => some collator
  | _ => none

theorem collationDiscriminator_eq {collator queryCollator : Option Collator}
    (he : comparisonCollator e = some queryCollator) :
    collationDiscriminator collator e =
      !(containsCollatableComparison e && queryCollator ≠ collator) := by
  cases e with
  | comparison type path rhs c =>
    cases he
    rw [collationDiscriminator, containsCollatableComparison, isCollatableType_eq]
    simp [boundsGeneratingNodeContainsComparisonToType, Bool.or_comm]
  | matchIn path equalities regexes c =>
    cases he
    rw [collationDiscriminator, containsCollatableComparison_matchIn]
    simp [Bool.or_comm]
  | _ => cases he

def comparedBy : MatchExpression Collator → Option (Option Collator)
  | .not exp => comparisonCollator exp
  | exp => comparisonCollator exp

def ownPath : MatchExpression Collator → List UInt8
  | .not exp => exp.path
  | exp => exp.path

theorem bit_eq_valuesAllow {c : Option Collator} (he : comparisonCollator e = some c)
    (hfield : hasField index e.path = true) (hfilter : filterNodes index e.path = []) :
    isMatchCompatibleWithIndex (registered lib index e.path) e = valuesAllow index c e := by
  rw [isMatchCompatibleWithIndex_eq hfield hfilter, collationDiscriminator_eq he, valuesAllow,
    Bool.and_comm]

/-- The values of a negation matter only for an index that is not sparse. -/
theorem valuesAllow_not {c : Option Collator} (hkinds : kindsAllow index (.not e) = true) :
    valuesAllow index c (.not e) = valuesAllow index c e := by
  have hsparse : index.sparse = false := by
    simp only [kindsAllow, kindAllows, and_eq_true, not_eq_true'] at hkinds
    exact hkinds.1.1
  simp [valuesAllow, hsparse, containsCollatableComparison,
    boundsGeneratingNodeContainsComparisonToType]

theorem comparison_valuesAllow_eq {c c' : Option Collator} (hindex : index ∈ indexEntries)
    (h : Alike lib types indexEntries e d) (hfield : hasField index e.path = true)
    (hfilter : filterNodes index e.path = []) (he : comparisonCollator e = some c)
    (hd : comparisonCollator d = some c') : valuesAllow index c e = valuesAllow index c' d := by
  have hbit := bit_eq hindex h.path_eq h.bits_eq hfield
  rw [bit_eq_valuesAllow he hfield hfilter, h.path_eq,
    bit_eq_valuesAllow hd (h.path_eq ▸ hfield) (h.path_eq ▸ hfilter)] at hbit
  exact hbit

omit [DecidableEq Collator] in
theorem comparedBy_of_ne {e : MatchExpression Collator} (hnot : ¬ ∃ exp, e = .not exp) :
    comparedBy e = comparisonCollator e ∧ ownPath e = e.path := by
  cases e with
  | not exp => exact absurd ⟨exp, rfl⟩ hnot
  | _ => exact ⟨rfl, rfl⟩

theorem valuesAllow_eq_of_bits {c c' : Option Collator} (hindex : index ∈ indexEntries)
    (h : Alike lib types indexEntries e d) (hfield : hasField index (ownPath e) = true)
    (hfilter : filterNodes index (ownPath e) = []) (hkinds : kindsAllow index e = true)
    (he : comparedBy e = some c) (hd : comparedBy d = some c') :
    valuesAllow index c e = valuesAllow index c' d := by
  by_cases hnot : ∃ exp, e = .not exp
  · obtain ⟨x, rfl⟩ := hnot
    obtain ⟨y, rfl, hxy⟩ := h.eq_not
    rw [valuesAllow_not hkinds, valuesAllow_not (h.kindsAllow_eq index ▸ hkinds)]
    exact comparison_valuesAllow_eq hindex hxy hfield hfilter he hd
  · have hnot' : ¬ ∃ exp, d = .not exp := by
      rintro ⟨exp, rfl⟩
      exact hnot (eq_not_of_erase h.erase_eq)
    rw [(comparedBy_of_ne hnot).1] at he
    rw [(comparedBy_of_ne hnot').1] at hd
    rw [(comparedBy_of_ne hnot).2] at hfield hfilter
    exact comparison_valuesAllow_eq hindex h hfield hfilter he hd

end Bits

section Rating
variable [DecidableEq Collator] {lib : MatcherLibrary Collator} {types : TestTypes}
  {indexEntries : List (QueryPlanner.IndexEntry Collator)} {collator c c' : Option Collator}
  {pathPrefix : List UInt8} {e d : MatchExpression Collator}

/-- The bits of a comparison at its own path are about the index and about nothing else. -/
def bitsDecide (index : QueryPlanner.IndexEntry Collator) (pathPrefix : List UInt8)
    (node : MatchExpression Collator) : Bool :=
  pathPrefix.isEmpty && (comparedBy node).isSome && (filterNodes index (ownPath node)).isEmpty

section
variable (indexEntries : List (QueryPlanner.IndexEntry Collator)) (collator : Option Collator)

/-- For each index on the path of a predicate, its bit in the key decides whether the values allow
its use, or they do allow it. -/
def decidedAt (pathPrefix : List UInt8) (node : MatchExpression Collator) : Bool :=
  indexEntries.all fun index =>
    !(hasField index (pathPrefix ++ ownPath node) && kindsAllow index node) ||
      if bitsDecide index pathPrefix node then comparedBy node = some collator
      else valuesAllow index collator node

mutual
/-- All predicates to which `rateIndices` gives a tag are decided. -/
def decided (pathPrefix : List UInt8) : MatchExpression Collator → Bool
  | .nor _ => true
  | .not exp =>
      if nodeCanUseIndexOnOwnField exp then decidedAt indexEntries collator pathPrefix (.not exp)
      else decided pathPrefix exp
  | .elemMatchObject path sub => decided (extendPrefix pathPrefix path) sub
  | .and expressions | .or expressions => allDecided pathPrefix expressions
  | exp => !nodeCanUseIndexOnOwnField exp || decidedAt indexEntries collator pathPrefix exp

def allDecided (pathPrefix : List UInt8) : List (MatchExpression Collator) → Bool
  | [] => true
  | exp :: rest => decided pathPrefix exp && allDecided pathPrefix rest
end

end

omit [DecidableEq Collator] in
theorem ownPath_erase (e : MatchExpression Collator) : ownPath (erase e) = ownPath e := by
  cases e with
  | not exp => exact path_erase exp
  | _ => rfl

omit [DecidableEq Collator] in
theorem isSome_comparedBy_erase (e : MatchExpression Collator) :
    (comparedBy (erase e)).isSome = (comparedBy e).isSome := by
  cases e with
  | not exp => cases exp <;> rfl
  | _ => rfl

theorem rateAllIndices_eq_map (indices : List (QueryPlanner.IndexEntry Collator))
    (collator : Option Collator) (pathPrefix : List UInt8)
    (exps : List (MatchExpression Collator)) : rateAllIndices indices collator pathPrefix exps =
      exps.map (rateIndices indices collator pathPrefix) := by
  induction exps with
  | nil => rfl
  | cons exp rest ih => rw [rateAllIndices, ih, map_cons]

theorem allDecided_eq_all (indices : List (QueryPlanner.IndexEntry Collator))
    (collator : Option Collator) (pathPrefix : List UInt8)
    (exps : List (MatchExpression Collator)) : allDecided indices collator pathPrefix exps =
      exps.all (decided indices collator pathPrefix) := by
  induction exps with
  | nil => rfl
  | cons exp rest ih => rw [allDecided, ih, all_cons]

/-- What `rateIndices` does with a node. -/
inductive Visit where
  | stops
  | passes
  | negation
  | predicate

def visit : MatchExpression Collator → Visit
  | .nor _ => .stops
  | .and _ | .or _ | .elemMatchObject _ _ => .passes
  | .not _ => .negation
  | _ => .predicate

omit [DecidableEq Collator] in
theorem visit_erase (e : MatchExpression Collator) : visit (erase e) = visit e := by
  cases e <;> rfl

theorem rateIndices_predicate (h : visit e = .predicate) :
    rateIndices indexEntries collator pathPrefix e =
      if nodeCanUseIndexOnOwnField e then
        .node (some (relevantTag indexEntries collator (pathPrefix ++ ownPath e) e))
          (labelledAll (fun _ => none) e.children)
      else untagged e := by
  cases e with
  | and | or | nor | not | elemMatchObject => cases h
  | _ => rfl

theorem decided_predicate (h : visit e = .predicate) : decided indexEntries collator pathPrefix e =
      (!nodeCanUseIndexOnOwnField e || decidedAt indexEntries collator pathPrefix e) := by
  cases e with
  | and | or | nor | not | elemMatchObject => cases h
  | _ => rfl

theorem rateIndices_passes (h : visit e = .passes) :
    rateIndices indexEntries collator pathPrefix e = .node none (e.children.map
      (rateIndices indexEntries collator (extendPrefix pathPrefix e.path))) := by
  cases e with
  | elemMatchObject path sub => rfl
  | and | or => rw [rateIndices, rateAllIndices_eq_map]; rfl
  | _ => cases h

theorem decided_passes (h : visit e = .passes) : decided indexEntries collator pathPrefix e =
      e.children.all (decided indexEntries collator (extendPrefix pathPrefix e.path)) := by
  cases e with
  | elemMatchObject path sub => simp [decided, children, MatchExpression.path]
  | and | or => rw [decided, allDecided_eq_all]; rfl
  | _ => cases h

section
variable (h : Alike lib types indexEntries e d)
include h

/-- One predicate: the indexes on its path can be used for both queries or for none. -/
theorem usable_congr (he : decidedAt indexEntries c pathPrefix e = true)
    (hd : decidedAt indexEntries c' pathPrefix d = true) {index : QueryPlanner.IndexEntry Collator}
    (hindex : index ∈ indexEntries) (hfield : hasField index (pathPrefix ++ ownPath e) = true) :
    usable index e c = usable index d c' := by
  rw [usable_eq, usable_eq, ← h.kindsAllow_eq index]
  cases hkinds : kindsAllow index e with
  | false => rw [Bool.and_false, Bool.and_false]
  | true =>
    rw [Bool.and_true, Bool.and_true]
    have he' := all_eq_true.mp he index hindex
    have hd' := all_eq_true.mp hd index hindex
    rw [hfield, hkinds, Bool.and_self, Bool.not_true, Bool.false_or] at he'
    rw [← h.congr ownPath_erase, hfield, ← h.kindsAllow_eq index, hkinds, Bool.and_self, Bool.not_true,
      Bool.false_or] at hd'
    have hsame : bitsDecide index pathPrefix d = bitsDecide index pathPrefix e := by
      have hsome := h.congr (f := fun exp => (comparedBy exp).isSome) isSome_comparedBy_erase
      rw [bitsDecide, bitsDecide, ← hsome, h.congr ownPath_erase]
    rw [hsame] at hd'
    cases hbits : bitsDecide index pathPrefix e with
    | true =>
      rw [hbits, if_pos rfl, decide_eq_true_eq] at he' hd'
      simp only [bitsDecide, Bool.and_eq_true, List.isEmpty_iff] at hbits
      rw [hbits.1.1, List.nil_append] at hfield
      exact valuesAllow_eq_of_bits hindex h hfield hbits.2 hkinds he' hd'
    | false =>
      rw [hbits, if_neg Bool.false_ne_true] at he' hd'
      rw [he', hd']

theorem relevantTag_congr (he : decidedAt indexEntries c pathPrefix e = true)
    (hd : decidedAt indexEntries c' pathPrefix d = true) :
    relevantTag indexEntries c (pathPrefix ++ ownPath e) e =
      relevantTag indexEntries c' (pathPrefix ++ ownPath d) d := by
  have hfields : ∀ fields : QueryPlanner.IndexEntry Collator → BSONObj,
      (∀ index, fields index ⊆ index.keyPattern) →
      (indexEntries.zipIdx.flatMap fun p => (fields p.1).filterMap fun elt =>
        if elt.1.bytes = pathPrefix ++ ownPath e && usable p.1 e c then some p.2 else none) =
      indexEntries.zipIdx.flatMap fun p => (fields p.1).filterMap fun elt =>
        if elt.1.bytes = pathPrefix ++ ownPath e && usable p.1 d c' then some p.2 else none := by
    intro fields hsub
    apply flatMap_congr
    rintro ⟨index, i⟩ hindex
    apply filterMap_congr
    intro elt helt
    by_cases hname : elt.1.bytes = pathPrefix ++ ownPath e
    · rw [usable_congr h he hd (fst_mem_of_mem_zipIdx hindex)]
      rw [hasField, any_eq_true]
      exact ⟨elt, hsub index helt, by rw [hname]; simp⟩
    · simp [hname]
  rw [relevantTag, relevantTag, ← h.congr ownPath_erase, hfields _ fun index => take_subset 1 _,
    hfields _ fun index => drop_subset 1 _]

theorem Alike.untagged_eq : untagged e = untagged d :=
  labelled_congr h fun _ _ _ _ _ => rfl

theorem rateIndices_predicate_congr
    (hvisit : visit e = .predicate) (he : decided indexEntries c pathPrefix e = true)
    (hd : decided indexEntries c' pathPrefix d = true) :
    rateIndices indexEntries c pathPrefix e = rateIndices indexEntries c' pathPrefix d := by
  have hvisit' : visit d = .predicate := h.congr visit_erase ▸ hvisit
  have huse := h.congr nodeCanUseIndexOnOwnField_erase
  rw [decided_predicate hvisit] at he
  rw [decided_predicate hvisit', ← huse] at hd
  rw [rateIndices_predicate hvisit, rateIndices_predicate hvisit', ← huse, h.untagged_eq,
    children_eq h.untagged_eq]
  cases huses : nodeCanUseIndexOnOwnField e with
  | false => rfl
  | true =>
    rw [huses, Bool.not_true, Bool.false_or] at he hd
    rw [relevantTag_congr h he hd]

end

theorem rateIndices_not_congr (h : Alike lib types indexEntries (.not x) (.not y))
    (hchild : decided indexEntries c pathPrefix x = true →
      decided indexEntries c' pathPrefix y = true →
      rateIndices indexEntries c pathPrefix x = rateIndices indexEntries c' pathPrefix y)
    (he : decided indexEntries c pathPrefix (.not x) = true)
    (hd : decided indexEntries c' pathPrefix (.not y) = true) :
    rateIndices indexEntries c pathPrefix (.not x) =
      rateIndices indexEntries c' pathPrefix (.not y) := by
  rw [decided] at he hd
  rw [rateIndices, rateIndices]
  rw [← h.of_not.congr nodeCanUseIndexOnOwnField_erase] at hd ⊢
  cases huses : nodeCanUseIndexOnOwnField x with
  | false =>
    rw [huses, if_neg Bool.false_ne_true] at he hd
    rw [if_neg Bool.false_ne_true, if_neg Bool.false_ne_true, hchild he hd]
  | true =>
    rw [huses, if_pos rfl] at he hd
    have htag := relevantTag_congr h he hd
    rw [ownPath, ownPath] at htag
    rw [if_pos rfl, if_pos rfl, htag, children_eq h.of_not.untagged_eq]

theorem rateIndices_congr (h : Alike lib types indexEntries e d)
    (he : decided indexEntries c pathPrefix e = true)
    (hd : decided indexEntries c' pathPrefix d = true) :
    rateIndices indexEntries c pathPrefix e = rateIndices indexEntries c' pathPrefix d := by
  induction e using induction_on_children generalizing d pathPrefix with
  | h e ih =>
    have hvisit' := h.congr visit_erase
    cases hvisit : visit e with
    | stops =>
      rw [hvisit] at hvisit'
      have hstops : ∀ exp : MatchExpression Collator, visit exp = .stops → ∀ collator,
          rateIndices indexEntries collator pathPrefix exp = untagged exp := by
        intro exp hexp collator
        cases exp with
        | nor expressions => rw [rateIndices]
        | _ => cases hexp
      rw [hstops e hvisit, hstops d hvisit'.symm, h.untagged_eq]
    | negation =>
      obtain ⟨x, rfl⟩ : ∃ exp, e = .not exp := by
        cases e with
        | not exp => exact ⟨exp, rfl⟩
        | _ => cases hvisit
      obtain ⟨y, rfl, hxy⟩ := h.eq_not
      exact rateIndices_not_congr h (ih x mem_cons_self hxy) he hd
    | passes =>
      have hpasses : visit d = .passes := hvisit'.symm.trans hvisit
      rw [decided_passes hvisit, all_eq_true] at he
      rw [decided_passes hpasses, ← h.path_eq, all_eq_true] at hd
      rw [rateIndices_passes hvisit, rateIndices_passes hpasses, ← h.path_eq]
      congr 1
      apply h.map_children
      intro x hx y hy hxy
      exact ih x hx hxy (he x hx) (hd y hy)
    | predicate => exact rateIndices_predicate_congr h hvisit he hd

end Rating

section CacheReuse
variable [DecidableEq Collator] (lib : MatcherLibrary Collator) (types : TestTypes)
  (texts : KeyTexts) (indexEntries : List (QueryPlanner.IndexEntry Collator))

/-- A list with a regular expression, and a list without one on a path that ends in `_re`. -/
def isShownAs : MatchExpression Collator → MatchExpression Collator → Bool
  | .matchIn path _ regexes _, .matchIn path' _ regexes' _ =>
      !regexes.isEmpty && regexes'.isEmpty && path' = path ++ ascii "_re"
  | _, _ => false

/-- No list of a query is taken for one of the other query. -/
def listsDiffer (e d : MatchExpression Collator) : Bool :=
  (nodes e).all fun x => (nodes d).all fun y => !isShownAs x y && !isShownAs y x

omit [DecidableEq Collator] in
theorem isShownAs_of_hasRegexes
    (htype : matchType types x = matchType types y) (hpath : shownPath x = shownPath y)
    (hx : hasRegexes x = true) (hy : hasRegexes y = false) : isShownAs x y = true := by
  cases x with
  | matchIn path equalities regexes collator =>
    have hbuilt := erase_eq_build types y
    rw [← htype] at hbuilt
    obtain ⟨path', equalities', regexes', collator', rfl⟩ := eq_matchIn_of_erase hbuilt
    simp only [shownPath, hx, hy, if_pos, if_neg Bool.false_ne_true, List.append_nil] at hpath
    simp only [hasRegexes, not_eq_false'] at hx hy
    simp only [isShownAs, hx, hy, Bool.and_true, Bool.true_and, decide_eq_true_eq]
    exact hpath.symm
  | _ => cases hx

theorem signature_eq_of_shown (h : shown lib types indexEntries x = shown lib types indexEntries y)
    (hxy : isShownAs x y = false) (hyx : isShownAs y x = false) :
    signature lib types indexEntries x = signature lib types indexEntries y := by
  obtain ⟨htype, hrest⟩ := Prod.ext_iff.mp h
  obtain ⟨hpath, hbits⟩ := Prod.ext_iff.mp hrest
  have hregexes : hasRegexes x = hasRegexes y := by
    cases hx : hasRegexes x <;> cases hy : hasRegexes y
    · rfl
    · rw [isShownAs_of_hasRegexes types htype.symm hpath.symm hy hx] at hyx
      cases hyx
    · rw [isShownAs_of_hasRegexes types htype hpath hx hy] at hxy
      cases hxy
    · rfl
  have hown : x.path = y.path := by
    simp only [shown, shownPath, hregexes] at hpath
    exact append_cancel_right hpath
  exact Prod.ext htype (Prod.ext hown (Prod.ext hregexes hbits))

/-- The operators and the paths of an expression. -/
def shape (e : MatchExpression Collator) : Codes.Tree (MatchExpression.MatchType × List UInt8) :=
  labelled (fun node => (matchType types node, node.path)) e

/-- Queries that share a key have the same shape, and their predicates can use the same indexes,
if no list of one is taken for a list of the other and the values of a predicate decide on an index
only where a bit of the key says so. -/
theorem rateIndices_eq_of_computeKey {cq cq' : CanonicalQuery Collator}
    (hgeo : ∀ node ∈ nodes cq.root, isGeo node = false)
    (hgeo' : ∀ node ∈ nodes cq'.root, isGeo node = false)
    (hlists : listsDiffer cq.root cq'.root = true)
    (hdecided : decided indexEntries cq.collator [] cq.root = true)
    (hdecided' : decided indexEntries cq'.collator [] cq'.root = true)
    (hkey : computeKey lib types texts indexEntries cq =
      computeKey lib types texts indexEntries cq') :
    shape types cq.root = shape types cq'.root ∧ rateIndices indexEntries cq.collator [] cq.root =
        rateIndices indexEntries cq'.collator [] cq'.root := by
  have hshown := shown_eq_of_computeKey lib types texts indexEntries hgeo hgeo' hkey
  have halike : Alike lib types indexEntries cq.root cq'.root := by
    apply labelled_congr hshown
    intro x hx y hy heq
    have hdiffer := all_eq_true.mp (all_eq_true.mp hlists x hx) y hy
    simp only [and_eq_true, not_eq_true'] at hdiffer
    exact signature_eq_of_shown lib types indexEntries heq hdiffer.1 hdiffer.2
  constructor
  · apply labelled_congr halike
    intro x _ y _ heq
    exact Prod.ext (Prod.ext_iff.mp heq).1 (Prod.ext_iff.mp (Prod.ext_iff.mp heq).2).1
  · exact rateIndices_congr halike hdecided hdecided'

end CacheReuse

section Examples

def noTexts : KeyTexts := ⟨fun _ => [], fun _ => []⟩

def keyOf (indexEntries : List (QueryPlanner.IndexEntry Unit)) (cq : CanonicalQuery Unit) : List UInt8 :=
  computeKey .plain someTestTypes noTexts indexEntries cq

def number (n : BitVec 32) : BSONValue := .number (.numberInt n)

def indexOn (field : CString) (sparse : Bool) (filterExpr : Option (MatchExpression Unit)) :
    QueryPlanner.IndexEntry Unit := ⟨ascii "index", [(field, number 1)], sparse, filterExpr, none⟩

def fieldA : CString := ⟨ascii "a", by decide⟩

def fieldAB : CString := ⟨ascii "a.b", by decide⟩

/-- `{a: v}` with a collation. -/
def equalTo : CanonicalQuery Unit :=
  ⟨.comparison .EQ (ascii "a") v (some ()), [], [], some ()⟩

theorem rateIndices_eq_of_computeKey_numbers :
    keyOf [indexOn fieldA true none] (equalTo (number 1)) =
      keyOf [indexOn fieldA true none] (equalTo (number 2)) ∧
    shape someTestTypes (equalTo (number 1)).root = shape someTestTypes (equalTo (number 2)).root ∧
    rateIndices [indexOn fieldA true none] (some ()) [] (equalTo (number 1)).root =
      rateIndices [indexOn fieldA true none] (some ()) [] (equalTo (number 2)).root := by
  have hkey : keyOf [indexOn fieldA true none] (equalTo (number 1)) =
      keyOf [indexOn fieldA true none] (equalTo (number 2)) := by decide +kernel
  exact ⟨hkey, rateIndices_eq_of_computeKey .plain someTestTypes noTexts _ (by decide) (by decide)
    (by decide +kernel) (by decide +kernel) (by decide +kernel) hkey⟩

/-- `{a: {$elemMatch: {b: v}}}` -/
def elementWith : CanonicalQuery Unit :=
  ⟨.elemMatchObject (ascii "a") (.comparison .EQ (ascii "b") v none), [], [], none⟩

/-- `{a: {$elemMatch: {$eq: v}}}` with a collation. -/
def elementEqualTo : CanonicalQuery Unit :=
  ⟨.elemMatchValue (ascii "a") [.comparison .EQ [] v (some ())], [], [], some ()⟩

/-- `{a: {$ne: v}}` with a collation. -/
def differentFrom : CanonicalQuery Unit :=
  ⟨.not (.comparison .EQ (ascii "a") v (some ())), [], [], some ()⟩

/-- `{a: {$in: [1, /x/]}}` -/
def listWithRegex : CanonicalQuery Unit :=
  ⟨.matchIn (ascii "a") [number 1] [(ascii "x", [])] none, [], [], none⟩

/-- `{a_re: {$in: [1, 2]}}` -/
def listOfNumbers : CanonicalQuery Unit :=
  ⟨.matchIn (ascii "a_re") [number 1, number 2] [] none, [], [], none⟩

/-- `{a: {$gt: 5}}` -/
def greaterThanFive : MatchExpression Unit := .comparison .GT (ascii "a") (number 5) none

/-- Queries with one key that cannot use the same indexes, or that do not have one shape. A sparse
index below `$elemMatch` is not seen in the key, nor is a collation in an `$elemMatch` of values,
nor one for a predicate that is not in the range of a partial index; and a list with a regular
expression on `a` looks like a list on `a_re`. -/
theorem computeKey_collisions : (keyOf [indexOn fieldAB true none] (elementWith (number 1)) =
        keyOf [indexOn fieldAB true none] (elementWith .jstNULL) ∧
      rateIndices [indexOn fieldAB true none] none [] (elementWith (number 1)).root ≠
        rateIndices [indexOn fieldAB true none] none [] (elementWith .jstNULL).root) ∧
    (keyOf [indexOn fieldA false none] (elementEqualTo (number 1)) =
        keyOf [indexOn fieldA false none] (elementEqualTo (.string (ascii "x"))) ∧
      rateIndices [indexOn fieldA false none] (some ()) [] (elementEqualTo (number 1)).root ≠
        rateIndices [indexOn fieldA false none] (some ()) []
          (elementEqualTo (.string (ascii "x"))).root) ∧
    (keyOf [indexOn fieldA false (some greaterThanFive)] (differentFrom (number 1)) =
        keyOf [indexOn fieldA false (some greaterThanFive)] (differentFrom (.string (ascii "x"))) ∧
      rateIndices [indexOn fieldA false (some greaterThanFive)] (some ()) []
          (differentFrom (number 1)).root ≠
        rateIndices [indexOn fieldA false (some greaterThanFive)] (some ()) []
          (differentFrom (.string (ascii "x"))).root) ∧
    (keyOf [] listWithRegex = keyOf [] listOfNumbers ∧
      shape someTestTypes listWithRegex.root ≠ shape someTestTypes listOfNumbers.root) := by
  have hfirst : ∀ {path path' : List UInt8} {kids kids' : List (Codes.Tree (Option RelevantTag))},
      Codes.Tree.node (some ⟨path, [0], []⟩) kids ≠ .node (some ⟨path', [], []⟩) kids' := by
    intro path path' kids kids' h
    cases h
  refine ⟨⟨by decide +kernel, ?_⟩, ⟨by decide +kernel, ?_⟩, ⟨by decide +kernel, ?_⟩,
    by decide +kernel, ?_⟩
  · exact fun h => hfirst (List.cons.inj (Codes.Tree.node.inj h).2).1
  · exact hfirst
  · exact hfirst
  · intro h
    have hpath := congrArg Prod.snd (Codes.Tree.node.inj h).1
    exact absurd hpath (by decide)

end Examples

end PlanCache
end MongoServer
