import MongoServer.Matcher.ExpressionAlgo

/-!
What a split of a match expression is worth: the parts together match what the expression matches,
and the independent part does not notice changes of the fields, as long as its leaves match no
missing element and name no position of an array that a change goes through.
-/
namespace MongoServer
open ElementPath FieldRef List

variable {field : List UInt8}

section Changes

/-- The elements that the rest of a path leads to from a field, which may be missing. -/
def elementsFrom (leaf : Bool) (path : List (List UInt8)) : Option BSONValue → List Context
  | none => [⟨none, false⟩]
  | some v => valueElements true leaf path v

def isScalar : BSONValue → Bool
  | .object _ | .array _ => false
  | _ => true

/-- Changes of the values at a path, from a field that the rest of the path starts at. A path goes
into every element of an array, and where there is no document it may create one. -/
inductive Changes : List (List UInt8) → Option BSONValue → Option BSONValue → Prop
  | value (v w : Option BSONValue) : Changes [] v w
  | unchanged (path : List (List UInt8)) (v : Option BSONValue) : Changes path v v
  | field {part : List UInt8} {rest : List (List UInt8)} {obj obj' : BSONObj}
      (others : ∀ name, name ≠ part → obj'.getField name = obj.getField name)
      (changes : Changes rest (obj.getField part) (obj'.getField part)) :
      Changes (part :: rest) (some (.object obj)) (some (.object obj'))
  | create {part : List UInt8} {rest : List (List UInt8)} {v : Option BSONValue} {obj : BSONObj}
      (scalar : v.all isScalar = true) (others : ∀ name, name ≠ part → obj.getField name = none)
      (changes : Changes rest none (obj.getField part)) :
      Changes (part :: rest) v (some (.object obj))
  | array {part : List UInt8} {rest : List (List UInt8)} {elems elems' : List BSONValue}
      (length : elems.length = elems'.length)
      (changes : ∀ i : ℕ, Changes (part :: rest) elems[i]? elems'[i]?) :
      Changes (part :: rest) (some (.array elems)) (some (.array elems'))

/-- A path does not lead to what another one changes, below a field that they share. A part that
names a position is dropped where it leads into an element of an array. -/
def Apart : List (List UInt8) → List (List UInt8) → Prop
  | [], _ => False
  | _ :: _, [] => False
  | part :: path, name :: field =>
      hasMore (part :: path) = true ∧ (part = name → Apart path field) ∧
        ((∃ i, isArrayOffsetMatch part i = true) → Apart path (name :: field))

variable {leaf : Bool} {Q : Context → Bool}

theorem fieldElements_eq_elementsFrom (leaf : Bool) (part : List UInt8) (rest : List (List UInt8))
    (obj : BSONObj) :
    fieldElements true leaf part rest obj = elementsFrom leaf rest (obj.getField part) := by
  rw [fieldElements_eq]
  cases obj.getField part <;> rfl

theorem valueElements_scalar {v : BSONValue} (hv : isScalar v = true) {path : List (List UInt8)}
    (hpath : path ≠ []) : valueElements true leaf path v = [⟨none, false⟩] := by
  cases v <;> simp_all [isScalar, valueElements]

theorem innerElements_object (part : List UInt8) (path : List (List UInt8)) (i : ℕ)
    (obj : BSONObj) :
    innerElements leaf (part :: path) i (.object obj) =
      valueElements true leaf (part :: path) (.object obj) ++
        if isArrayOffsetMatch part i then
          if path = [] then [⟨some (.object obj), true⟩]
          else valueElements true leaf path (.object obj)
        else [] := by
  cases path <;> simp [innerElements, valueElements]

theorem innerElements_scalar {v : BSONValue} (hv : isScalar v = true) {part : List UInt8}
    {path field : List (List UInt8)} (h : Apart (part :: path) field) (i : ℕ) :
    innerElements leaf (part :: path) i v = [] := by
  have hlast : ¬(path = [] ∧ isArrayOffsetMatch part i = true) := by
    rintro ⟨rfl, hposition⟩
    cases field with
    | nil => exact h
    | cons name field => exact h.2.2 ⟨i, hposition⟩
  cases v <;> simp_all [isScalar, innerElements]

theorem any_arrayElements_congr {path : List (List UInt8)} {elems elems' : List BSONValue}
    (hlength : elems.length = elems'.length)
    (h : ∀ (j : ℕ) (e e' : BSONValue) (i : ℕ), elems[j]? = some e → elems'[j]? = some e' →
      (innerElements leaf path i e).any Q = (innerElements leaf path i e').any Q) (i : ℕ) :
    (arrayElements leaf path i elems).any Q = (arrayElements leaf path i elems').any Q := by
  induction elems generalizing elems' i with
  | nil =>
    obtain rfl : elems' = [] := length_eq_zero_iff.mp (by simpa using hlength.symm)
    rfl
  | cons e elems ih =>
    cases elems' with
    | nil => simp at hlength
    | cons e' elems' =>
      have hfirst := h 0 e e' i rfl rfl
      have hrest := ih (by simpa using hlength)
        (fun j a a' i ha ha' => h (j + 1) a a' i (by simpa using ha) (by simpa using ha')) (i + 1)
      rw [arrayElements, arrayElements, any_append, any_append, hfirst, hrest]

/-- A path that is apart from the changed one leads to the same elements, up to missing ones. -/
theorem Changes.any_eq {field : List (List UInt8)} {v w : Option BSONValue} (h : Changes field v w)
    (hmissing : Q ⟨none, false⟩ = false) (path : List (List UInt8)) (hpath : Apart path field) :
    (elementsFrom leaf path v).any Q = (elementsFrom leaf path w).any Q ∧
      ∀ e e' i, v = some e → w = some e' → (innerElements leaf path i e).any Q =
        (innerElements leaf path i e').any Q := by
  induction h generalizing path with
  | value v w => cases path <;> exact hpath.elim
  | unchanged field v =>
    refine ⟨rfl, ?_⟩
    rintro e e' i rfl he
    cases he
    rfl
  | @field name field obj obj' others changes ih =>
    -- a document is searched for one field, which is the changed one or the same
    have hobject (path : List (List UInt8)) (hpath : Apart path (name :: field)) :
        (valueElements true leaf path (.object obj)).any Q =
          (valueElements true leaf path (.object obj')).any Q := by
      cases path with
      | nil => exact hpath.elim
      | cons part path =>
        simp only [valueElements, fieldElements_eq_elementsFrom]
        by_cases hpart : part = name
        · subst hpart
          exact (ih path (hpath.2.1 rfl)).1
        · rw [others part hpart]
    refine ⟨hobject path hpath, ?_⟩
    rintro _ _ i ⟨⟩ ⟨⟩
    cases path with
    | nil => exact hpath.elim
    | cons part path =>
      rw [innerElements_object, innerElements_object, any_append, any_append, hobject _ hpath]
      congr 1
      split_ifs with hposition hend
      · subst hend
        exact (hpath.2.2 ⟨i, hposition⟩).elim
      · exact hobject path (hpath.2.2 ⟨i, hposition⟩)
      · rfl
  | @create name field v obj scalar others changes ih =>
    have hobject (path : List (List UInt8)) (hpath : Apart path (name :: field)) :
        (valueElements true leaf path (.object obj)).any Q = false := by
      cases path with
      | nil => exact hpath.elim
      | cons part path =>
        simp only [valueElements, fieldElements_eq_elementsFrom]
        by_cases hpart : part = name
        · subst hpart
          rw [← (ih path (hpath.2.1 rfl)).1]
          simp [elementsFrom, hmissing]
        · rw [others part hpart]
          simp [elementsFrom, hmissing]
    have hne : path ≠ [] := by
      rintro rfl
      exact hpath
    constructor
    · have hw : (elementsFrom leaf path (some (.object obj))).any Q = false := hobject path hpath
      rw [hw]
      cases v with
      | none => simp [elementsFrom, hmissing]
      | some e =>
        rw [elementsFrom, valueElements_scalar (by simpa using scalar) hne]
        simp [hmissing]
    · rintro e _ i rfl ⟨⟩
      obtain ⟨part, path, rfl⟩ := exists_cons_of_ne_nil hne
      rw [innerElements_scalar (by simpa using scalar) hpath, innerElements_object, any_append,
        hobject _ hpath]
      split_ifs with hposition hend
      · subst hend
        exact (hpath.2.2 ⟨i, hposition⟩).elim
      · rw [hobject path (hpath.2.2 ⟨i, hposition⟩)]
        rfl
      · rfl
  | @array name field elems elems' length changes ih =>
    have harray (path : List (List UInt8)) (hpath : Apart path (name :: field)) (i : ℕ) :
        (arrayElements leaf path i elems).any Q = (arrayElements leaf path i elems').any Q :=
      any_arrayElements_congr length (fun j e e' i he he' => (ih j path hpath).2 e e' i he he') i
    cases path with
    | nil => exact hpath.elim
    | cons part path =>
      constructor
      · simp only [elementsFrom, valueElements, hpath.1, if_true]
        exact harray _ hpath 0
      · rintro _ _ i ⟨⟩ ⟨⟩
        simp only [innerElements]
        split_ifs with hposition hend hmore
        · rw [List.isEmpty_iff] at hend
          subst hend
          exact (hpath.2.2 ⟨i, hposition⟩).elim
        · exact harray path (hpath.2.2 ⟨i, hposition⟩) 0
        · have := hpath.2.2 ⟨i, hposition⟩
          cases path with
          | nil => exact this.elim
          | cons next path => exact (hmore this.1).elim
        · rfl

theorem elements_eq_elementsFrom (leaf : Bool) (ref : FieldRef) (doc : BSONObj) :
    elements ⟨ref, true, leaf⟩ doc =
      elementsFrom leaf ref.parts.tail (doc.getField (ref.parts.headD [])) := by
  unfold elements
  cases ref.parts with
  | nil => exact fieldElements_eq_elementsFrom leaf [] [] doc
  | cons part rest => exact fieldElements_eq_elementsFrom leaf part rest doc

/-- A change of one field in a document is noticed only where the first parts are the same. -/
theorem Changes.any_elements_eq {field : List (List UInt8)} {doc doc' : BSONObj}
    (h : Changes field (some (.object doc)) (some (.object doc'))) (hfield : field ≠ [])
    (ref : FieldRef) (hapart : ref.parts.headD [] = field.headD [] →
      Apart ref.parts.tail field.tail ∧ Q ⟨none, false⟩ = false) :
    (elements ⟨ref, true, leaf⟩ doc).any Q = (elements ⟨ref, true, leaf⟩ doc').any Q := by
  rw [elements_eq_elementsFrom, elements_eq_elementsFrom]
  cases h with
  | value => exact (hfield rfl).elim
  | unchanged => rfl
  | @field name field obj obj' others changes =>
    by_cases hhead : ref.parts.headD [] = name
    · obtain ⟨hpath, hmissing⟩ := hapart hhead
      rw [hhead]
      exact (changes.any_eq hmissing _ hpath).1
    · rw [others _ hhead]
  | create scalar => simp [isScalar] at scalar

end Changes

namespace MatchExpression
variable {Collator : Type*} (lib : MatcherLibrary Collator) {exp : MatchExpression Collator}

/-- A document with values set, added or removed at given paths. -/
def Modified (fields : List (List UInt8)) : BSONObj → BSONObj → Prop :=
  Relation.ReflTransGen fun doc doc' =>
    ∃ field ∈ fields, Changes (parse field).parts (some (.object doc)) (some (.object doc'))

/-- A leaf does not read what a change of a field touches: they start differently, or are apart
behind a shared start and the leaf matches no missing element. -/
def ReadsApart (exp : MatchExpression Collator) (field : List UInt8) : Prop :=
  (parse field).parts ≠ [] ∧ ((parse exp.path).parts.headD [] = (parse field).parts.headD [] →
      Apart (parse exp.path).parts.tail (parse field).parts.tail ∧
        matchesSingleElement lib exp none = false)

mutual
def Separate (fields : List (List UInt8)) : MatchExpression Collator → Prop
  | .and expressions | .or expressions | .nor expressions => AllSeparate fields expressions
  | .not exp => Separate fields exp
  | exp => ∀ field ∈ fields, ReadsApart lib exp field

def AllSeparate (fields : List (List UInt8)) : List (MatchExpression Collator) → Prop
  | [] => True
  | exp :: rest => Separate fields exp ∧ AllSeparate fields rest
end

section Leaves
variable {fields : List (List UInt8)} {doc doc' : BSONObj}

theorem ReadsApart.any_elements_eq (hapart : ReadsApart lib exp field) {leaf : Bool}
    {Q : Context → Bool} (hQ : matchesSingleElement lib exp none = Q ⟨none, false⟩)
    (h : Changes (parse field).parts (some (.object doc)) (some (.object doc'))) :
    (elements ⟨.parse exp.path, true, leaf⟩ doc).any Q =
      (elements ⟨.parse exp.path, true, leaf⟩ doc').any Q := by
  refine h.any_elements_eq hapart.1 _ fun hhead => ?_
  rw [← hQ]
  exact hapart.2 hhead

mutual
theorem matches_eq_of_changes (exp : MatchExpression Collator)
    (hfield : field ∈ fields) (hseparate : Separate lib fields exp)
    (h : Changes (parse field).parts (some (.object doc)) (some (.object doc'))) :
    «matches» lib exp doc = «matches» lib exp doc' := by
  cases exp with
  | and expressions =>
    obtain ⟨hall, -⟩ := matchesList_eq_of_changes expressions hfield hseparate h
    exact hall
  | or expressions =>
    obtain ⟨-, hany⟩ := matchesList_eq_of_changes expressions hfield hseparate h
    exact hany
  | nor expressions =>
    obtain ⟨-, hany⟩ := matchesList_eq_of_changes expressions hfield hseparate h
    rw [«matches», «matches», hany]
  | not exp =>
    rw [«matches», «matches», matches_eq_of_changes exp hfield hseparate h]
  | alwaysFalse path => rfl
  | typeOperator path type =>
    exact ReadsApart.any_elements_eq lib (hseparate field hfield) (by simp [matchesSingleElement]) h
  | _ => exact ReadsApart.any_elements_eq lib (hseparate field hfield) rfl h

theorem matchesList_eq_of_changes (expressions : List (MatchExpression Collator))
    (hfield : field ∈ fields) (hseparate : AllSeparate lib fields expressions)
    (h : Changes (parse field).parts (some (.object doc)) (some (.object doc'))) :
    matchesAll lib expressions doc = matchesAll lib expressions doc' ∧
      matchesAny lib expressions doc = matchesAny lib expressions doc' := by
  match expressions with
  | [] => exact ⟨rfl, rfl⟩
  | exp :: rest =>
    have hexp := matches_eq_of_changes exp hfield hseparate.1 h
    obtain ⟨hall, hany⟩ := matchesList_eq_of_changes rest hfield hseparate.2 h
    simp [matchesAll, matchesAny, hexp, hall, hany]
end

theorem matches_eq_of_modified
    (hseparate : Separate lib fields exp) (h : Modified fields doc doc') :
    «matches» lib exp doc = «matches» lib exp doc' := by
  induction h with
  | refl => rfl
  | tail _ hlast ih =>
    obtain ⟨field, hfield, hchanges⟩ := hlast
    exact ih.trans (matches_eq_of_changes lib exp hfield hseparate hchanges)

end Leaves

section Splitting
variable (fields : List (List UInt8)) (doc : BSONObj) (children : List (MatchExpression Collator))

theorem all_createAndOfNodes : (createAndOfNodes children).all (fun exp => «matches» lib exp doc) =
      matchesAll lib children doc := by
  match children with
  | [] => rfl
  | [exp] => simp [createAndOfNodes, matchesAll]
  | _ :: _ :: _ => rfl

theorem all_createNorOfNodes : (createNorOfNodes children).all (fun exp => «matches» lib exp doc) =
      !matchesAny lib children doc := by
  cases children with
  | nil => rfl
  | cons exp rest => rfl

theorem matchesAll_append (ls rs : List (MatchExpression Collator)) :
    matchesAll lib (ls ++ rs) doc = (matchesAll lib ls doc && matchesAll lib rs doc) := by
  simp [matchesAll_eq]

theorem matchesAll_toList (exp : Option (MatchExpression Collator)) :
    matchesAll lib exp.toList doc = exp.all fun exp => «matches» lib exp doc := by
  cases exp <;> simp [matchesAll]

theorem matchesAny_filter (p : MatchExpression Collator → Bool)
    (expressions : List (MatchExpression Collator)) :
    matchesAny lib expressions doc = (matchesAny lib (expressions.filter p) doc ||
      matchesAny lib (expressions.filter fun exp => !p exp) doc) := by
  induction expressions with
  | nil => rfl
  | cons exp rest ih =>
    cases hp : p exp with
    | true => simp [hp, matchesAny, ih, Bool.or_assoc]
    | false => simp [hp, matchesAny, ih, Bool.or_left_comm]

mutual
/-- The parts of an expression match together what it matches. -/
theorem matches_eq_split (exp : MatchExpression Collator) : «matches» lib exp doc =
      ((splitMatchExpressionBy fields exp).1.all (fun exp => «matches» lib exp doc) &&
        (splitMatchExpressionBy fields exp).2.all fun exp => «matches» lib exp doc) := by
  cases exp with
  | and expressions =>
    simp only [splitMatchExpressionBy]
    split_ifs
    · simp
    · rw [all_createAndOfNodes, all_createAndOfNodes]
      exact matchesAll_eq_split expressions
  | nor expressions =>
    simp only [splitMatchExpressionBy]
    split_ifs
    · simp
    · rw [all_createNorOfNodes, all_createNorOfNodes, «matches»,
        matchesAny_filter lib doc (isIndependentOf fields), Bool.not_or]
  | _ =>
    simp only [splitMatchExpressionBy]
    split_ifs <;> simp

theorem matchesAll_eq_split (expressions : List (MatchExpression Collator)) :
    matchesAll lib expressions doc = (matchesAll lib (splitChildren fields expressions).1 doc &&
        matchesAll lib (splitChildren fields expressions).2 doc) := by
  match expressions with
  | [] => rfl
  | exp :: rest =>
    rw [splitChildren, matchesAll_append, matchesAll_append, matchesAll_toList, matchesAll_toList,
      matchesAll, matches_eq_split exp, matchesAll_eq_split rest]
    simp only [Bool.and_assoc, Bool.and_left_comm]
end

end Splitting

section Independence

theorem isPathPrefixOf_append (path rest : List UInt8) :
    isPathPrefixOf path (path ++ dot :: rest) = true := by
  simp [isPathPrefixOf]

theorem intercalate_append {sep : List UInt8} {ls rs : List (List UInt8)} (hl : ls ≠ [])
    (hr : rs ≠ []) :
    sep.intercalate (ls ++ rs) = sep.intercalate ls ++ sep ++ sep.intercalate rs := by
  induction ls with
  | nil => exact (hl rfl).elim
  | cons l ls ih =>
    by_cases hls : ls = []
    · simp [hls, intercalate_cons_of_ne_nil hr]
    · simp [intercalate_cons_of_ne_nil, hls, ih hls]

theorem intercalate_parts (path : List UInt8) : [dot].intercalate (parse path).parts = path := by
  have := dottedField_parse path
  simpa [dottedField, dottedSubstring, numParts] using this

theorem related_of_prefix {path field : List UInt8} (hpath : (parse path).parts ≠ [])
    (h : (parse path).parts <+: (parse field).parts) :
    path = field ∨ isPathPrefixOf path field = true := by
  obtain ⟨rest, hrest⟩ := h
  rw [← intercalate_parts path, ← intercalate_parts field, ← hrest]
  cases rest with
  | nil => simp
  | cons next rest =>
    right
    rw [intercalate_append hpath (by simp), append_assoc]
    exact isPathPrefixOf_append _ _

theorem not_prefix_of_independent {path field : List UInt8} {fields : List (List UInt8)}
    (hpath : (parse path).parts ≠ []) (hfield : (parse field).parts ≠ [])
    (hmem : field ∈ fields) (h : isLeafIndependentOf path fields = true) :
    ¬(parse path).parts <+: (parse field).parts ∧ ¬(parse field).parts <+: (parse path).parts := by
  have hall := all_eq_true.mp h field hmem
  simp only [Bool.not_eq_true', Bool.or_eq_false_iff, decide_eq_false_iff_not] at hall
  constructor
  · intro hprefix
    rcases related_of_prefix hpath hprefix with heq | hpre
    · exact hall.1.1 heq
    · simp [hall.1.2] at hpre
  · intro hprefix
    rcases related_of_prefix hfield hprefix with heq | hpre
    · exact hall.1.1 heq.symm
    · simp [hall.2] at hpre

/-- Names are apart if neither path starts with the other. -/
theorem apart_of_nonNumeric {path field : List (List UInt8)} (hnames : NonNumeric path)
    (hpath : ¬path <+: field) (hfield : ¬field <+: path) : Apart path field := by
  induction path generalizing field with
  | nil => exact hpath nil_prefix
  | cons part path ih =>
    cases field with
    | nil => exact hfield nil_prefix
    | cons name field =>
      have hpart := hnames part mem_cons_self
      refine ⟨hasMore_cons (ne_nil_of_not_digits hpart) path, ?_, ?_⟩
      · rintro rfl
        apply ih (forall_mem_cons.mp hnames).2
        · exact fun h => hpath (prefix_cons_inj part |>.mpr h)
        · exact fun h => hfield (prefix_cons_inj part |>.mpr h)
      · rintro ⟨i, hposition⟩
        rw [isArrayOffsetMatch_of_not_digits hpart] at hposition
        cases hposition

/-- What independence leaves open, for a leaf and a field that start with the same part: the leaf
must match no missing element, and a number in its path must not bring the two together. -/
def LeafSafe (exp : MatchExpression Collator) (field : List UInt8) : Prop :=
  (parse field).parts ≠ [] ∧ ((parse exp.path).parts.headD [] = (parse field).parts.headD [] →
      matchesSingleElement lib exp none = false ∧ (NonNumeric (parse exp.path).parts.tail ∨
          Apart (parse exp.path).parts.tail (parse field).parts.tail))

mutual
def Safe (fields : List (List UInt8)) : MatchExpression Collator → Prop
  | .and expressions | .or expressions | .nor expressions => AllSafe fields expressions
  | .not exp => Safe fields exp
  | exp => ∀ field ∈ fields, LeafSafe lib exp field

def AllSafe (fields : List (List UInt8)) : List (MatchExpression Collator) → Prop
  | [] => True
  | exp :: rest => Safe fields exp ∧ AllSafe fields rest
end

variable {fields : List (List UInt8)} {children : List (MatchExpression Collator)}

theorem path_ne_nil_of_independent {path field : List UInt8} (hfield : (parse field).parts ≠ [])
    (hmem : field ∈ fields) (hhead : (parse path).parts.headD [] = (parse field).parts.headD [])
    (h : isLeafIndependentOf path fields = true) : (parse path).parts ≠ [] := by
  intro hpath
  have hempty : path = [] := by
    rw [← intercalate_parts path, hpath]
    rfl
  obtain ⟨part, rest, hparts⟩ := exists_cons_of_ne_nil hfield
  obtain rfl : [] = part := by simpa [hpath, hparts] using hhead
  have hall := all_eq_true.mp h field hmem
  cases rest with
  | nil =>
    have : field = [] := by
      rw [← intercalate_parts field, hparts]
      rfl
    simp [this, parse] at hparts
  | cons next rest =>
    have hprefix := isPathPrefixOf_append [] ([dot].intercalate (next :: rest))
    rw [← intercalate_parts field, hparts, hempty] at hall
    simp_all

theorem tail_prefix_iff {ps qs : List (List UInt8)} (hp : ps ≠ []) (hq : qs ≠ [])
    (hhead : ps.headD [] = qs.headD []) : ps.tail <+: qs.tail ↔ ps <+: qs := by
  obtain ⟨p, ps, rfl⟩ := exists_cons_of_ne_nil hp
  obtain ⟨q, qs, rfl⟩ := exists_cons_of_ne_nil hq
  obtain rfl : p = q := hhead
  exact (prefix_cons_inj p).symm

theorem LeafSafe.readsApart (hsafe : LeafSafe lib exp field) (hmem : field ∈ fields)
    (h : isLeafIndependentOf exp.path fields = true) : ReadsApart lib exp field := by
  refine ⟨hsafe.1, fun hhead => ?_⟩
  obtain ⟨hmissing, hnames | hapart⟩ := hsafe.2 hhead
  · have hpath := path_ne_nil_of_independent hsafe.1 hmem hhead h
    obtain ⟨hleft, hright⟩ := not_prefix_of_independent hpath hsafe.1 hmem h
    refine ⟨apart_of_nonNumeric hnames ?_ ?_, hmissing⟩
    · rwa [tail_prefix_iff hpath hsafe.1 hhead]
    · rwa [tail_prefix_iff hsafe.1 hpath hhead.symm]
  · exact ⟨hapart, hmissing⟩

mutual
theorem Safe.separate (exp : MatchExpression Collator) (hsafe : Safe lib fields exp)
    (h : isIndependentOf fields exp = true) : Separate lib fields exp := by
  cases exp with
  | and expressions | or expressions | nor expressions =>
    exact AllSafe.allSeparate expressions hsafe h
  | not exp => exact Safe.separate exp hsafe h
  | _ =>
    intro field hmem
    simp only [isIndependentOf, Bool.and_eq_true] at h
    exact (hsafe field hmem).readsApart lib hmem h.2

theorem AllSafe.allSeparate (expressions : List (MatchExpression Collator))
    (hsafe : AllSafe lib fields expressions) (h : allIndependentOf fields expressions = true) :
    AllSeparate lib fields expressions := by
  match expressions with
  | [] => trivial
  | exp :: rest =>
    simp only [allIndependentOf, Bool.and_eq_true] at h
    exact ⟨Safe.separate exp hsafe.1 h.1, AllSafe.allSeparate rest hsafe.2 h.2⟩
end

theorem allIndependentOf_eq (expressions : List (MatchExpression Collator)) :
    allIndependentOf fields expressions = expressions.all (isIndependentOf fields) := by
  induction expressions with
  | nil => rfl
  | cons exp rest ih => simp [allIndependentOf, ih]

theorem isIndependentOf_createAndOfNodes (h : ∀ exp ∈ children, isIndependentOf fields exp = true)
    (hexp : createAndOfNodes children = some exp) : isIndependentOf fields exp = true := by
  match children, hexp with
  | [child], hexp =>
    obtain rfl : child = exp := by simpa [createAndOfNodes] using hexp
    exact h child mem_cons_self
  | child :: next :: rest, hexp =>
    obtain rfl : .and (child :: next :: rest) = exp := by simpa [createAndOfNodes] using hexp
    simpa [isIndependentOf, allIndependentOf_eq] using h

theorem isIndependentOf_createNorOfNodes (h : ∀ exp ∈ children, isIndependentOf fields exp = true)
    (hexp : createNorOfNodes children = some exp) : isIndependentOf fields exp = true := by
  cases children with
  | nil => simp [createNorOfNodes] at hexp
  | cons child rest =>
    obtain rfl : .nor (child :: rest) = exp := by simpa [createNorOfNodes] using hexp
    simpa [isIndependentOf, allIndependentOf_eq] using h

mutual
/-- The first part of a split is independent of the fields as the code sees it. -/
theorem isIndependentOf_split (exp : MatchExpression Collator) {first : MatchExpression Collator}
    (h : (splitMatchExpressionBy fields exp).1 = some first) :
    isIndependentOf fields first = true := by
  cases exp with
  | and expressions =>
    simp only [splitMatchExpressionBy] at h
    split_ifs at h with hwhole
    · obtain rfl := Option.some_injective _ h
      exact hwhole
    · exact isIndependentOf_createAndOfNodes (isIndependentOf_splitChildren expressions) h
  | nor expressions =>
    simp only [splitMatchExpressionBy] at h
    split_ifs at h with hwhole
    · obtain rfl := Option.some_injective _ h
      exact hwhole
    · exact isIndependentOf_createNorOfNodes (fun _ hmem => (mem_filter.mp hmem).2) h
  | _ =>
    simp only [splitMatchExpressionBy] at h
    split_ifs at h with hwhole
    obtain rfl := Option.some_injective _ h
    exact hwhole

theorem isIndependentOf_splitChildren (expressions : List (MatchExpression Collator)) :
    ∀ exp ∈ (splitChildren fields expressions).1, isIndependentOf fields exp = true := by
  match expressions with
  | [] => simp [splitChildren]
  | exp :: rest =>
    exact forall_mem_append.mpr ⟨fun child hchild => isIndependentOf_split exp
      (Option.mem_toList.mp hchild), isIndependentOf_splitChildren rest⟩
end

end Independence

section Failures

def pathToB : List UInt8 := [0x61, 0x2e, 0x62]

def pathToC : List UInt8 := [0x61, 0x2e, 0x63]

/-- The field `b` of the first element of `a` is one. -/
def firstIsOne : MatchExpression Unit :=
  .comparison .EQ [0x61, 0x2e, 0x30, 0x2e, 0x62] (.number (.numberInt 1)) none

/-- A document with a list of elements. -/
def listDocument (elems : List BSONValue) : BSONObj := [(⟨[0x61], by decide⟩, .array elems)]

/-- An element of the list, with one in the field `c`. -/
def elementWith (b : BitVec 32) : BSONValue :=
  .object [(⟨[0x62], by decide⟩, .number (.numberInt b)),
    (⟨[0x63], by decide⟩, .number (.numberInt 1))]

theorem modified_listDocument {field name : List UInt8} {v w : BSONValue}
    (hfield : (parse field).parts = [[0x61], name]) (h : Changes [name] (some v) (some w)) :
    Modified [field] (listDocument [v]) (listDocument [w]) := by
  apply Relation.ReflTransGen.single
  refine ⟨field, mem_singleton_self field, ?_⟩
  rw [hfield]
  apply Changes.field
  · intro other hother
    simp [listDocument, BSONObj.getField_cons, hother.symm]
  · have harray : (∀ i : ℕ, Changes [name] [v][i]? [w][i]?) →
        Changes [name] (some (.array [v])) (some (.array [w])) := Changes.array rfl
    apply harray
    rintro (_ | i)
    · exact h
    · exact .unchanged _ _

theorem changes_elementWith (b b' : BitVec 32) :
    Changes [[0x62]] (some (elementWith b)) (some (elementWith b')) := by
  apply Changes.field
  · intro other hother
    simp [BSONObj.getField_cons, hother.symm]
  · exact .value _ _

/-- The field `b` is null or missing in an element of `a`. -/
def missingB : MatchExpression Unit := .comparison .EQ pathToB .jstNULL none

/-- A change makes a document of a number, and a field of it is missing then. -/
theorem splitMatchExpressionBy_missingB :
    splitMatchExpressionBy [pathToC] missingB = (some missingB, none) ∧
      Modified [pathToC] (listDocument [.number (.numberInt 5)])
        (listDocument [.object [(⟨[0x63], by decide⟩, .number (.numberInt 1))]]) ∧
      «matches» .plain missingB (listDocument [.number (.numberInt 5)]) = false ∧
      «matches» .plain missingB
        (listDocument [.object [(⟨[0x63], by decide⟩, .number (.numberInt 1))]]) = true := by
  refine ⟨by rfl, ?_, by decide +kernel, by decide +kernel⟩
  have hparts : (parse pathToC).parts = [[0x61], [0x63]] := by decide
  apply modified_listDocument hparts
  apply Changes.create rfl
  · intro other hother
    simp [BSONObj.getField_cons, hother.symm]
  · exact .value _ _

/-- The field `c` of some element is one. -/
def someIsOne : MatchExpression Unit := .comparison .EQ pathToC (.number (.numberInt 1)) none

end Failures

end MatchExpression
end MongoServer
