import MongoServer.Matcher.Comparisons
import MongoServer.Matcher.ExpressionAlgo

/-!
When the answers of `isSubsetOf` can be relied on. Equivalent expressions match the same documents,
except that the type of a missing element is taken for that of all numbers; and a comparison, a type
or a negation can match a document in which the path does not exist.
-/
namespace MongoServer
open ComparisonType ElementPath FieldRef List
open Bool (and_eq_true false_eq_true or_eq_true)
namespace MatchExpression
variable {Collator : Type*} (lib : MatcherLibrary Collator) {doc : BSONObj} {path : List UInt8}
  {regexes : List (List UInt8 × List UInt8)}

section Equivalence

mutual
def typesAgree : MatchExpression Collator → MatchExpression Collator → Bool
  | .typeOperator _ type, .typeOperator _ type' => type = type'
  | .elemMatchObject _ sub, .elemMatchObject _ sub' => typesAgree sub sub'
  | .elemMatchValue _ subs, .elemMatchValue _ subs' => allTypesAgree subs subs'
  | .and expressions, .and expressions' => allTypesAgree expressions expressions'
  | .or expressions, .or expressions' => allTypesAgree expressions expressions'
  | .nor expressions, .nor expressions' => allTypesAgree expressions expressions'
  | .not exp, .not exp' => typesAgree exp exp'
  | _, _ => true

def allTypesAgree : List (MatchExpression Collator) → List (MatchExpression Collator) → Bool
  | exp :: rest, exp' :: rest' => typesAgree exp exp' && allTypesAgree rest rest'
  | _, _ => true
end

variable {collator : Option Collator}

theorem sameElement_iff {l r : BSONValue} :
    sameElement lib collator l r = true ↔ lib.rank collator l = lib.rank collator r := by
  simp only [sameElement, and_eq_true, decide_eq_true_eq]
  constructor
  · rintro ⟨htype, hcompare⟩
    exact (lib.compare_eq_iff collator htype).mp hcompare
  · intro hrank
    have htype := lib.canonicalizeBSONType_of_rank_eq collator hrank
    exact ⟨htype, (lib.compare_eq_iff collator htype).mpr hrank⟩

theorem isEqualTo_congr {q q' : BSONValue} (h : lib.rank collator q = lib.rank collator q')
    (e : Option BSONValue) : isEqualTo lib collator e q = isEqualTo lib collator e q' := by
  have htype := lib.canonicalizeBSONType_of_rank_eq collator h
  cases e with
  | none => simp [isEqualTo, htype]
  | some v =>
    by_cases hv : canonicalizeBSONType v = canonicalizeBSONType q
    · have hv' := hv.trans htype
      simp [isEqualTo, canonicalType, hv, htype, lib.compare_eq_iff collator hv,
        lib.compare_eq_iff collator hv', h]
    · have hv' : canonicalizeBSONType v ≠ canonicalizeBSONType q' := fun heq =>
        hv (heq.trans htype.symm)
      simp [isEqualTo, canonicalType, hv, hv']

theorem equalityFound_congr {ls rs : List BSONValue} (h : sameEqualities lib collator ls rs = true)
    (e : Option BSONValue) : equalityFound lib ls collator e = equalityFound lib rs collator e := by
  simp only [sameEqualities, and_eq_true, decide_eq_true_eq] at h
  obtain ⟨hlength, hsame⟩ := h
  unfold equalityFound
  induction ls generalizing rs with
  | nil =>
    obtain rfl : rs = [] := length_eq_zero_iff.mp (by simpa using hlength.symm)
    rfl
  | cons l ls ih =>
    cases rs with
    | nil => simp at hlength
    | cons r rs =>
      simp only [zip_cons_cons, all_cons, and_eq_true, sameElement_iff] at hsame
      rw [any_cons, any_cons, isEqualTo_congr lib hsame.1, ih (by simpa using hlength) hsame.2]

variable [DecidableEq Collator]

mutual
/-- Equivalent expressions that ask for the same types match the same. -/
theorem equivalent_sound (l r : MatchExpression Collator) (h : equivalent lib l r = true)
    (htypes : typesAgree l r = true) : evaluate lib l = evaluate lib r := by
  funext s
  cases l with
  | comparison matchType path rhs collator =>
    cases r with
    | comparison matchType' path' rhs' collator' =>
      simp only [equivalent, and_eq_true, decide_eq_true_eq, sameElement_iff] at h
      obtain ⟨⟨⟨rfl, rfl⟩, rfl⟩, hrank⟩ := h
      have hsame : comparisonMatches lib matchType rhs collator =
          comparisonMatches lib matchType rhs' collator :=
        funext (comparisonMatches_congr lib collator (lib.rank_eq_of_rank_eq collator hrank))
      cases s <;> simp [evaluate, «matches», matchesSingleElement, hsame]
    | _ => simp [equivalent] at h
  | matchIn path equalities regexes collator =>
    cases r with
    | matchIn path' equalities' regexes' collator' =>
      simp only [equivalent, and_eq_true, decide_eq_true_eq] at h
      obtain ⟨⟨⟨⟨rfl, hnull⟩, rfl⟩, rfl⟩, hequalities⟩ := h
      have hsame : inMatches lib equalities regexes collator =
          inMatches lib equalities' regexes collator := by
        funext e
        simp [inMatches, hnull, equalityFound_congr lib hequalities]
      cases s <;> simp [evaluate, «matches», matchesSingleElement, hsame]
    | _ => simp [equivalent] at h
  | elemMatchObject path sub =>
    cases r <;> simp only [equivalent, and_eq_true, decide_eq_true_eq, false_eq_true] at h
    rw [evaluate_elemMatchObject, evaluate_elemMatchObject, h.1, equivalent_sound sub _ h.2 htypes]
  | elemMatchValue path exps =>
    cases r <;> simp only [equivalent, and_eq_true, decide_eq_true_eq, false_eq_true] at h
    have hkids := evaluate_children (.of_eq (equivalentList_sound exps _ h.2 htypes))
    simp only [evaluate_elemMatchValue, h.1, hkids]
  | and exps | or exps | nor exps =>
    cases r <;> simp only [equivalent, false_eq_true] at h
    have hkids := evaluate_children (.of_eq (equivalentList_sound exps _ h htypes))
    simp only [evaluate_and, evaluate_or, evaluate_nor, hkids]
  | not exp =>
    cases r <;> simp only [equivalent, false_eq_true] at h
    rw [evaluate_not, evaluate_not, equivalent_sound exp _ h htypes]
  | alwaysFalse path =>
    cases r <;> simp [equivalent] at h
    cases s <;> rfl
  | _ => cases r <;> simp_all [equivalent, typesAgree]

theorem equivalentList_sound (ls rs : List (MatchExpression Collator))
    (h : equivalentList lib ls rs = true) (htypes : allTypesAgree ls rs = true) :
    ls.map (evaluate lib) = rs.map (evaluate lib) := by
  match ls, rs with
  | [], [] => rfl
  | [], _ :: _ | _ :: _, [] => simp [equivalentList] at h
  | l :: ls, r :: rs =>
    simp only [equivalentList, and_eq_true] at h
    simp only [allTypesAgree, and_eq_true] at htypes
    rw [map_cons, map_cons, equivalent_sound l r h.1 htypes.1,
      equivalentList_sound ls rs h.2 htypes.2]
end

end Equivalence

section Comparisons

def isSymbol : BSONValue → Bool
  | .symbol _ => true
  | _ => false

/-- A collator changes strings, symbols, and what is in documents and arrays. -/
theorem rank_eq_of_not_collatable {c c' : Option Collator} {v w : BSONValue}
    (hcollatable : isCollatableType v = false) (hsymbol : isSymbol v = false)
    (htype : canonicalizeBSONType w = canonicalizeBSONType v) : lib.rank c w = lib.rank c' w := by
  have hsame (c : Option Collator) : lib.collated c w = w := by
    cases c with
    | none => rfl
    | some c =>
      cases w with
      | string s | symbol s =>
        cases v <;> simp_all [isCollatableType, isSymbol, canonicalizeBSONType]
      | object fields | array elems => cases v <;> simp_all [isCollatableType, canonicalizeBSONType]
      | _ => rfl
  rw [MatcherLibrary.rank, MatcherLibrary.rank, hsame c, hsame c']

/-- What the table of `comparisonIsSubsetOf` asks of the ranks of the two values. -/
def within (lhsType rhsType : ComparisonType) (a b : Rank) : Prop :=
  lhsType = rhsType ∧ a = b ∨
    match rhsType, lhsType with
    | .LTE, .LT | .LTE, .LTE | .LTE, .EQ => a ≤ b
    | .LT, .LT | .LT, .LTE | .LT, .EQ => a < b
    | .GTE, .GT | .GTE, .GTE | .GTE, .EQ => b ≤ a
    | .GT, .GT | .GT, .GTE | .GT, .EQ => b < a
    | _, _ => False

section Within
variable {lt rt : ComparisonType} {a b x : Rank}

theorem within_sound (h : within lt rt a b) (hx : lt.relates x a) : rt.relates x b := by
  rcases h with ⟨rfl, rfl⟩ | h
  · exact hx
  · cases rt <;> cases lt <;> simp only [relates] at h hx ⊢
    all_goals first
      | exact h.elim
      | order

theorem within_supportsEquality (h : within lt rt a a) (hlt : lt.supportsEquality = true) :
    rt.supportsEquality = true := by
  rcases h with ⟨rfl, -⟩ | h
  · exact hlt
  · cases rt <;> cases lt <;> simp_all [supportsEquality]

theorem within_ne_eq (h : within lt rt a b) (hlt : lt ≠ .EQ) : rt ≠ .EQ := by
  rcases h with ⟨rfl, -⟩ | h
  · exact hlt
  · cases rt <;> cases lt <;> simp_all

end Within

section
variable [DecidableEq Collator] {lt rt : ComparisonType} {lpath rpath : List UInt8}
  {lhs rhs : BSONValue} {lc rc : Option Collator}

section
variable (h : comparisonIsSubsetOf lib lt lpath lhs lc rt rpath rhs rc = true)
include h

theorem comparisonIsSubsetOf_cases :
    lpath = rpath ∧ canonicalizeBSONType lhs = canonicalizeBSONType rhs ∧
      ((lhs.isNaN = true ∧ rhs.isNaN = true ∧
          lt.supportsEquality = true ∧ rt.supportsEquality = true) ∨
        (lhs.isNaN = false ∧ rhs.isNaN = false ∧ (lc = rc ∨ isCollatableType lhs = false) ∧
          within lt rt (lib.rank rc lhs) (lib.rank rc rhs))) := by
  unfold comparisonIsSubsetOf at h
  split_ifs at h with hpath htype hnan hmixed
  · simp only [and_eq_true] at h
    exact ⟨not_not.mp hpath, not_not.mp htype, .inl ⟨h.2.1, h.2.2, h.1.1, h.1.2⟩⟩
  · have htype' := not_not.mp htype
    simp only [or_eq_true, not_or, Bool.not_eq_true] at hnan
    have hcollator : lc = rc ∨ isCollatableType lhs = false := by
      by_cases hc : lc = rc
      · exact .inl hc
      · exact .inr (by simpa [hc] using hmixed)
    refine ⟨not_not.mp hpath, htype', .inr ⟨hnan.1, hnan.2, hcollator, ?_⟩⟩
    have hlt := lib.compare_lt_iff rc htype'
    have heq := lib.compare_eq_iff rc htype'
    have hle : lib.compare rc lhs rhs ≤ 0 ↔ lib.rank rc lhs ≤ lib.rank rc rhs := by
      rw [le_iff_lt_or_eq, hlt, heq, ← le_iff_lt_or_eq]
    have hge : lib.compare rc lhs rhs ≥ 0 ↔ lib.rank rc rhs ≤ lib.rank rc lhs := by
      rw [ge_iff_le, ← not_lt, hlt, not_lt]
    have hgt : lib.compare rc lhs rhs > 0 ↔ lib.rank rc rhs < lib.rank rc lhs := by
      rw [gt_iff_lt, ← not_le, hle, not_le]
    dsimp only at h
    split_ifs at h with hsame
    · exact .inl ⟨hsame.1, heq.mp hsame.2⟩
    · right
      cases rt <;> cases lt <;> simp_all

/-- The answers for comparisons are right, unless symbols are compared under two collations. -/
theorem comparisonIsSubsetOf_sound
    (hvalid : lhs ≠ .undefined) (hcollator : lc = rc ∨ isSymbol lhs = false) {e : Option BSONValue}
    (he : comparisonMatches lib lt lhs lc e = true) : comparisonMatches lib rt rhs rc e = true := by
  obtain ⟨-, htype, hcases⟩ := comparisonIsSubsetOf_cases lib h
  by_cases hsame : canonicalType e = canonicalizeBSONType lhs
  · cases e with
    | none => exact (hvalid (eq_undefined_of_type hsame)).elim
    | some w =>
      -- both collators rank the values of this type in the same way
      have hrank {w : BSONValue} (hw : canonicalizeBSONType w = canonicalizeBSONType lhs) :
          lib.rank lc w = lib.rank rc w := by
        rcases hcollator with rfl | hsymbol
        · rfl
        · have hplain : lc = rc ∨ isCollatableType lhs = false := by
            rcases hcases with ⟨hnan, -⟩ | ⟨-, -, hplain, -⟩
            · obtain ⟨n, rfl⟩ := BSONValue.exists_number_of_isNaN hnan
              exact .inr rfl
            · exact hplain
          rcases hplain with rfl | hcollatable
          · rfl
          · exact rank_eq_of_not_collatable lib hcollatable hsymbol hw
      rw [comparisonMatches_of_type lib lc hsame, hrank hsame, hrank rfl] at he
      rw [comparisonMatches_of_type lib rc (Eq.trans hsame htype)]
      rcases hcases with ⟨hl, hr, -, hsupports⟩ | ⟨hl, hr, -, hwithin⟩
      · rcases he with ⟨-, heq⟩ | ⟨-, hfalse, -⟩
        · exact .inl ⟨hsupports, heq.trans (lib.rank_eq_of_isNaN rc hl hr)⟩
        · simp [hl] at hfalse
      · have hw : w.isNaN = false := by
          rcases he with ⟨-, heq⟩ | ⟨hw, -⟩
          · rw [lib.isNaN_eq_of_rank_eq rc heq, hl]
          · exact hw
        have hrelates : lt.relates (lib.rank rc w) (lib.rank rc lhs) := by
          rw [relates_iff]
          exact he.imp_right fun hstrict => hstrict.2.2
        have hgoal := relates_iff.mp (within_sound hwithin hrelates)
        exact hgoal.imp_right fun hstrict => ⟨hw, hr, hstrict⟩
  · have hother : canonicalType e ≠ canonicalizeBSONType rhs := fun heq => hsame (heq.trans htype.symm)
    rw [comparisonMatches_of_type_ne lib lc hsame] at he
    rw [comparisonMatches_of_type_ne lib rc hother, ← htype]
    -- only null and the extreme keys are left, which are numbers under no collation
    have hwithin (hkind : lhs = .jstNULL ∨ lhs.type = 127 ∨ lhs.type = -1) :
        within lt rt (lib.rank rc lhs) (lib.rank rc rhs) := by
      rcases hcases with ⟨hnan, -⟩ | ⟨-, -, -, hwithin⟩
      · obtain ⟨n, rfl⟩ := BSONValue.exists_number_of_isNaN hnan
        rcases hkind with hkind | hkind
        · cases hkind
        · cases n <;> simp [BSONValue.type] at hkind
      · exact hwithin
    rcases he with ⟨hsum, hsupports⟩ | ⟨hsum, hextreme, hne⟩
    · have hnull : lhs = .jstNULL := (null_or_undefined_of_sum hsum).resolve_right hvalid
      have hrhs : rhs = .jstNULL := by
        subst hnull
        cases rhs <;> simp_all [canonicalizeBSONType]
      have := hwithin (.inl hnull)
      rw [hnull, hrhs] at this
      exact .inl ⟨hsum, within_supportsEquality this hsupports⟩
    · have hextreme' : rhs.type = 127 ∨ rhs.type = -1 := by
        rwa [extreme_iff_type, ← htype, ← extreme_iff_type]
      exact .inr ⟨hsum, hextreme', within_ne_eq (hwithin (.inr hextreme)) hne⟩

end

end

end Comparisons

section Presence

variable {equalities : List BSONValue} {collator : Option Collator} {e : Option BSONValue}

theorem hasNull_iff : hasNull equalities = true ↔ .jstNULL ∈ equalities := by
  simp [hasNull, type_eq_null_iff]

theorem comparisonMatches_null_none (collator : Option Collator) :
    comparisonMatches lib .EQ .jstNULL collator none = true := rfl

theorem comparisonMatches_of_isEqualTo {q : BSONValue} (hq : q ≠ .undefined)
    (h : isEqualTo lib collator e q = true) : comparisonMatches lib .EQ q collator e = true := by
  simp only [isEqualTo, and_eq_true, decide_eq_true_eq] at h
  obtain ⟨htype, h⟩ := h
  cases e with
  | none => exact (hq (eq_undefined_of_type htype)).elim
  | some v =>
    have hrank := (lib.compare_eq_iff collator htype).mp (by simpa using h)
    rw [comparisonMatches_of_type lib collator htype]
    exact .inl ⟨rfl, hrank⟩

theorem exists_of_inMatches (hvalid : ∀ q ∈ equalities, q ≠ .undefined)
    (h : inMatches lib equalities [] collator e = true) :
    ∃ q ∈ equalities, comparisonMatches lib .EQ q collator e = true := by
  simp only [inMatches, any_nil, Bool.or_false, or_eq_true, and_eq_true,
    Option.isNone_iff_eq_none] at h
  rcases h with ⟨hnull, rfl⟩ | hfound
  · exact ⟨.jstNULL, hasNull_iff.mp hnull, comparisonMatches_null_none lib collator⟩
  · obtain ⟨q, hq, hequal⟩ := any_eq_true.mp hfound
    exact ⟨q, hq, comparisonMatches_of_isEqualTo lib (hvalid q hq) hequal⟩

theorem isSome_of_comparisonMatches {matchType : ComparisonType} {rhs : BSONValue}
    (hnull : rhs ≠ .jstNULL) (hundefined : rhs ≠ .undefined)
    (hextreme : matchType = .EQ ∨ ¬(rhs.type = 127 ∨ rhs.type = -1))
    (h : comparisonMatches lib matchType rhs collator e = true) : e.isSome = true := by
  cases e with
  | some v => rfl
  | none =>
    have htype : canonicalType none ≠ canonicalizeBSONType rhs := fun heq =>
      hundefined (eq_undefined_of_type heq)
    rw [comparisonMatches_of_type_ne lib collator htype] at h
    rcases h with ⟨hsum, -⟩ | ⟨-, hkey, hne⟩
    · exact ((null_or_undefined_of_sum hsum).elim hnull hundefined).elim
    · rcases hextreme with heq | hother
      · exact (hne heq).elim
      · exact (hother hkey).elim

theorem isSome_of_inMatches
    (hvalid : ∀ q ∈ equalities, q ≠ .undefined) (hnull : hasNull equalities = false)
    (h : inMatches lib equalities regexes collator e = true) : e.isSome = true := by
  cases e with
  | some v => rfl
  | none =>
    have hregex : (regexes.any fun r => regexMatches lib r.1 r.2 none) = false := by
      simp [regexMatches]
    simp only [inMatches, hnull, hregex, Bool.false_and, Bool.false_or, Bool.or_false] at h
    obtain ⟨q, hq, hequal⟩ := any_eq_true.mp h
    simp only [isEqualTo, Bool.and_true, decide_eq_true_eq] at hequal
    exact (hvalid q hq (eq_undefined_of_type hequal)).elim

theorem leafMatches_mono {q q' : Option BSONValue → Bool} (hmono : ∀ e, q e = true → q' e = true)
    (h : leafMatches path q doc = true) : leafMatches path q' doc = true := by
  obtain ⟨c, hc, hq⟩ := any_eq_true.mp h
  exact any_eq_true.mpr ⟨c, hc, hmono _ hq⟩

theorem exists_of_arrayMatches {matchesArray : List BSONValue → Bool}
    (h : arrayMatches path matchesArray doc = true) :
    leafMatches path Option.isSome doc = true := by
  obtain ⟨c, hc, hmatch⟩ := any_eq_true.mp h
  refine any_eq_true.mpr ⟨c, elements_subset _ _ _ hc, ?_⟩
  cases hc : c.element with
  | none => simp [hc] at hmatch
  | some v => rfl

theorem exists_of_typeLeafMatches {type : MatchedType} (htype : type ≠ .bsonType 0)
    (h : typeLeafMatches path type doc = true) : leafMatches path Option.isSome doc = true := by
  obtain ⟨c, hc, hmatch⟩ := any_eq_true.mp h
  refine any_eq_true.mpr ⟨c, hc, ?_⟩
  rw [and_eq_true] at hmatch
  cases hc : c.element with
  | some v => rfl
  | none =>
    cases type with
    | allNumbers => simp [hc, typeMatches] at hmatch
    | bsonType n =>
      have hn : 0 = n := by simpa [hc, typeMatches] using hmatch.2
      exact (htype (by rw [hn])).elim

/-- A path can go into an array that has nothing for it. -/
def leadsNowhere (path : List UInt8) : Bool :=
  match (parse path).parts with
  | [] => false
  | _ :: rest => hasMore rest

/-- Where a path always leads somewhere, what matches no missing element exists. -/
theorem exists_of_not_leafMatches {q : Option BSONValue → Bool}
    (hpath : leadsNowhere path = false) (hq : q none = true) (h : leafMatches path q doc = false) :
    leafMatches path Option.isSome doc = true := by
  have hnonempty : (init path).elements doc ≠ [] := by
    unfold elements init
    unfold leadsNowhere at hpath
    cases hparts : (parse path).parts with
    | nil => exact fieldElements_nil_ne_nil _ _ _
    | cons part rest =>
      rw [hparts] at hpath
      exact fieldElements_ne_nil hpath _ _ _
  obtain ⟨c, hc⟩ := exists_mem_of_ne_nil _ hnonempty
  have hno : q c.element = false := by
    simpa using any_eq_false.mp h c hc
  refine any_eq_true.mpr ⟨c, hc, ?_⟩
  cases helement : c.element with
  | some v => rfl
  | none => simp [helement, hq] at hno

end Presence

section Slips

/-- A symbol is compared under two collations. -/
def mixesCollators [DecidableEq Collator] (rhsCollator : Option Collator) :
    MatchExpression Collator → Bool
  | .comparison _ _ data collator => collator ≠ rhsCollator && isSymbol data
  | .matchIn _ equalities _ collator => collator ≠ rhsCollator && equalities.any isSymbol
  | _ => false

/-- An expression that counts as one for which a path has to exist, and can match without it. -/
def matchesMissing : MatchExpression Collator → Bool
  | .comparison matchType _ data _ => matchType ≠ .EQ && (data.type = 127 || data.type = -1)
  | .typeOperator _ type => type = .bsonType 0
  | .not exp => leadsNowhere exp.path
  | _ => false

theorem ne_undefined_of_valid {equalities : List BSONValue} {collator : Option Collator}
    (h : valid (.matchIn path equalities regexes collator) = true) :
    ∀ q ∈ equalities, q ≠ .undefined := by
  intro q hq
  simp only [valid, all_eq_true, and_eq_true, decide_eq_true_eq, ne_eq, type_eq_undefined_iff] at h
  exact (h q hq).2

variable {lhs}

theorem isSubsetOfExists_sound (h : isSubsetOfExists lhs path = true) (hvalid : lhs.valid = true)
    (hmissing : matchesMissing lhs = false) (hdoc : «matches» lib lhs doc = true) :
    leafMatches path Option.isSome doc = true := by
  cases lhs with
  | comparison matchType p data collator =>
    simp only [isSubsetOfExists, and_eq_true, decide_eq_true_eq, ne_eq, type_eq_null_iff] at h
    simp only [valid, ne_eq, decide_eq_true_eq, type_eq_undefined_iff] at hvalid
    obtain ⟨rfl, hnull⟩ := h
    have hextreme : matchType = .EQ ∨ ¬(data.type = 127 ∨ data.type = -1) := by
      by_cases heq : matchType = .EQ
      · exact .inl heq
      · exact .inr (by simpa [matchesMissing, heq] using hmissing)
    exact leafMatches_mono (fun e => isSome_of_comparisonMatches lib hnull hvalid hextreme) hdoc
  | matchIn p equalities regexes collator =>
    simp only [isSubsetOfExists, and_eq_true, decide_eq_true_eq, Bool.not_eq_true'] at h
    obtain ⟨rfl, hnull⟩ := h
    exact leafMatches_mono
      (fun e => isSome_of_inMatches lib (ne_undefined_of_valid hvalid) hnull) hdoc
  | typeOperator p type =>
    obtain rfl : p = path := by simpa [isSubsetOfExists] using h
    exact exists_of_typeLeafMatches (by simpa [matchesMissing] using hmissing) hdoc
  | not exp =>
    have hpath : leadsNowhere exp.path = false := hmissing
    have hnot : «matches» lib exp doc = false := by simpa [«matches»] using hdoc
    cases exp with
    | comparison matchType p data collator =>
      cases matchType with
      | EQ =>
        simp only [isSubsetOfExists, and_eq_true, decide_eq_true_eq, type_eq_null_iff] at h
        obtain ⟨rfl, rfl⟩ := h
        exact exists_of_not_leafMatches hpath (comparisonMatches_null_none lib collator) hnot
      | _ => simp [isSubsetOfExists] at h
    | matchIn p equalities regexes collator =>
      simp only [isSubsetOfExists, and_eq_true, decide_eq_true_eq] at h
      obtain ⟨rfl, hnull⟩ := h
      have hmatch : inMatches lib equalities regexes collator none = true := by
        simp [inMatches, hnull]
      exact exists_of_not_leafMatches hpath hmatch hnot
    | _ => simp [isSubsetOfExists] at h
  | elemMatchObject p sub | elemMatchValue p subs | size p n =>
    obtain rfl : p = path := by simpa [isSubsetOfExists] using h
    exact exists_of_arrayMatches hdoc
  | «exists» p =>
    obtain rfl : p = path := by simpa [isSubsetOfExists] using h
    exact hdoc
  | geo p test | mod p divisor remainder | regex p pattern flags =>
    obtain rfl : p = path := by simpa [isSubsetOfExists] using h
    exact leafMatches_mono (by intro e; cases e <;> simp [modMatches, regexMatches]) hdoc
  | _ => simp [isSubsetOfExists] at h

variable [DecidableEq Collator] {lhs rhs : MatchExpression Collator}

theorem isSubsetOfComparison_sound {matchType : ComparisonType}
    {data : BSONValue} {collator : Option Collator}
    (h : isSubsetOfComparison lib lhs matchType path data collator = true)
    (hvalid : lhs.valid = true) (hcollators : mixesCollators collator lhs = false)
    (hdoc : «matches» lib lhs doc = true) :
    leafMatches path (comparisonMatches lib matchType data collator) doc = true := by
  cases lhs with
  | comparison lhsType lhsPath lhsData lhsCollator =>
    simp only [valid, ne_eq, decide_eq_true_eq, type_eq_undefined_iff] at hvalid
    have hsymbol : lhsCollator = collator ∨ isSymbol lhsData = false := by
      by_cases heq : lhsCollator = collator
      · exact .inl heq
      · exact .inr (by simpa [mixesCollators, heq] using hcollators)
    obtain ⟨rfl, -⟩ := comparisonIsSubsetOf_cases lib h
    exact leafMatches_mono (fun e => comparisonIsSubsetOf_sound lib h hvalid hsymbol) hdoc
  | matchIn lhsPath equalities regexes lhsCollator =>
    simp only [isSubsetOfComparison, and_eq_true, decide_eq_true_eq, List.isEmpty_iff,
      all_eq_true] at h
    obtain ⟨⟨rfl, rfl⟩, hall⟩ := h
    have hequalities := ne_undefined_of_valid hvalid
    have hsymbol (q : BSONValue) (hq : q ∈ equalities) :
        lhsCollator = collator ∨ isSymbol q = false := by
      by_cases heq : lhsCollator = collator
      · exact .inl heq
      · simp only [mixesCollators, ne_eq, heq, not_false_eq_true, decide_true, Bool.true_and,
          any_eq_false, Bool.not_eq_true] at hcollators
        exact .inr (hcollators q hq)
    refine leafMatches_mono (fun e he => ?_) hdoc
    obtain ⟨q, hq, hmatch⟩ := exists_of_inMatches lib hequalities he
    exact comparisonIsSubsetOf_sound lib (hall q hq) (hequalities q hq) (hsymbol q hq) hmatch
  | _ => simp [isSubsetOfComparison] at h

/-- The clauses for which the answer can be wrong. -/
def leafSlips (lhs rhs : MatchExpression Collator) : Bool :=
  match rhs with
  | .comparison _ _ _ collator => mixesCollators collator lhs
  | .exists _ => matchesMissing lhs
  | _ => false

mutual
/-- The answer for a clause rests on one of these, or on expressions that are taken to be equivalent
and ask for different types. -/
def clauseSlips (rhs : MatchExpression Collator) : MatchExpression Collator → Bool
  | .and expressions =>
      if equivalent lib (.and expressions) rhs then !typesAgree (.and expressions) rhs
      else firstSlips rhs expressions
  | .or expressions =>
      if equivalent lib (.or expressions) rhs then !typesAgree (.or expressions) rhs
      else anySlips rhs expressions
  | lhs => if equivalent lib lhs rhs then !typesAgree lhs rhs else leafSlips lhs rhs

/-- The first clause of a conjunction for which the answer is yes decides. -/
def firstSlips (rhs : MatchExpression Collator) : List (MatchExpression Collator) → Bool
  | [] => false
  | exp :: rest =>
      if isSubsetOfClause lib rhs exp then clauseSlips rhs exp else firstSlips rhs rest

def anySlips (rhs : MatchExpression Collator) : List (MatchExpression Collator) → Bool
  | [] => false
  | exp :: rest => clauseSlips rhs exp || anySlips rhs rest
end

mutual
/-- The answer of `isSubsetOf` rests on clauses for which it can be wrong. -/
def slips (lhs : MatchExpression Collator) : MatchExpression Collator → Bool
  | .and expressions =>
      if equivalent lib lhs (.and expressions) then !typesAgree lhs (.and expressions)
      else slipsForAny lhs expressions
  | rhs => clauseSlips lib rhs lhs

def slipsForAny (lhs : MatchExpression Collator) : List (MatchExpression Collator) → Bool
  | [] => false
  | exp :: rest => slips lhs exp || slipsForAny lhs rest
end

theorem isSubsetOfLeaf_sound (h : isSubsetOfLeaf lib lhs rhs = true) (hvalid : lhs.valid = true)
    (hslips : leafSlips lhs rhs = false) (hdoc : «matches» lib lhs doc = true) :
    «matches» lib rhs doc = true := by
  cases rhs with
  | comparison matchType path data collator =>
    exact isSubsetOfComparison_sound lib h hvalid hslips hdoc
  | «exists» path => exact isSubsetOfExists_sound lib h hvalid hslips hdoc
  | _ => simp [isSubsetOfLeaf] at h

theorem matches_of_equivalent
    (h : equivalent lib lhs rhs = true) (htypes : typesAgree lhs rhs = true)
    (hdoc : «matches» lib lhs doc = true) : «matches» lib rhs doc = true :=
  (congrFun (equivalent_sound lib lhs rhs h htypes) (.inl doc)).symm.trans hdoc

mutual
theorem isSubsetOfClause_sound (rhs lhs : MatchExpression Collator) (doc : BSONObj)
    (h : isSubsetOfClause lib rhs lhs = true) (hvalid : lhs.valid = true)
    (hslips : clauseSlips lib rhs lhs = false) (hdoc : «matches» lib lhs doc = true) :
    «matches» lib rhs doc = true := by
  by_cases hequivalent : equivalent lib lhs rhs = true
  · have htypes : typesAgree lhs rhs = true := by
      cases lhs <;> simpa [clauseSlips, hequivalent] using hslips
    exact matches_of_equivalent lib hequivalent htypes hdoc
  · cases lhs <;> simp only [isSubsetOfClause, hequivalent, Bool.false_or] at h <;>
      simp only [clauseSlips, hequivalent] at hslips
    case and expressions => exact anyIsSubsetOf_sound rhs expressions doc h hvalid hslips hdoc
    case or expressions => exact allAreSubsetsOf_sound rhs expressions doc h hvalid hslips hdoc
    all_goals exact isSubsetOfLeaf_sound lib h hvalid hslips hdoc

theorem anyIsSubsetOf_sound (rhs : MatchExpression Collator)
    (expressions : List (MatchExpression Collator)) (doc : BSONObj)
    (h : anyIsSubsetOf lib rhs expressions = true) (hvalid : allValid expressions = true)
    (hslips : firstSlips lib rhs expressions = false)
    (hdoc : matchesAll lib expressions doc = true) : «matches» lib rhs doc = true := by
  match expressions with
  | [] => simp [anyIsSubsetOf] at h
  | exp :: rest =>
    simp only [allValid, and_eq_true] at hvalid
    simp only [matchesAll, and_eq_true] at hdoc
    by_cases hexp : isSubsetOfClause lib rhs exp = true
    · simp only [firstSlips, hexp, if_true] at hslips
      exact isSubsetOfClause_sound rhs exp doc hexp hvalid.1 hslips hdoc.1
    · simp only [anyIsSubsetOf, hexp, Bool.false_or] at h
      simp only [firstSlips, hexp] at hslips
      exact anyIsSubsetOf_sound rhs rest doc h hvalid.2 hslips hdoc.2

theorem allAreSubsetsOf_sound (rhs : MatchExpression Collator)
    (expressions : List (MatchExpression Collator)) (doc : BSONObj)
    (h : allAreSubsetsOf lib rhs expressions = true) (hvalid : allValid expressions = true)
    (hslips : anySlips lib rhs expressions = false)
    (hdoc : matchesAny lib expressions doc = true) : «matches» lib rhs doc = true := by
  match expressions with
  | [] => simp [matchesAny] at hdoc
  | exp :: rest =>
    simp only [allAreSubsetsOf, and_eq_true] at h
    simp only [allValid, and_eq_true] at hvalid
    simp only [anySlips, Bool.or_eq_false_iff] at hslips
    simp only [matchesAny, or_eq_true] at hdoc
    rcases hdoc with hdoc | hdoc
    · exact isSubsetOfClause_sound rhs exp doc h.1 hvalid.1 hslips.1 hdoc
    · exact allAreSubsetsOf_sound rhs rest doc h.2 hvalid.2 hslips.2 hdoc
end

mutual
/-- Every document that `lhs` matches is matched by `rhs` where `isSubsetOf` says so, unless its
answer rests on clauses for which it can be wrong. -/
theorem matches_of_isSubsetOf (lhs rhs : MatchExpression Collator) (doc : BSONObj)
    (h : isSubsetOf lib lhs rhs = true) (hvalid : lhs.valid = true)
    (hslips : slips lib lhs rhs = false) (hdoc : «matches» lib lhs doc = true) :
    «matches» lib rhs doc = true := by
  cases rhs with
  | and expressions =>
    by_cases hequivalent : equivalent lib lhs (.and expressions) = true
    · have htypes : typesAgree lhs (.and expressions) = true := by
        simpa [slips, hequivalent] using hslips
      exact matches_of_equivalent lib hequivalent htypes hdoc
    · simp only [isSubsetOf, hequivalent, Bool.false_or] at h
      simp only [slips, hequivalent] at hslips
      exact matchesAll_of_isSubsetOfAll lhs expressions doc h hvalid hslips hdoc
  | _ => exact isSubsetOfClause_sound lib _ lhs doc h hvalid hslips hdoc

theorem matchesAll_of_isSubsetOfAll (lhs : MatchExpression Collator)
    (expressions : List (MatchExpression Collator)) (doc : BSONObj)
    (h : isSubsetOfAll lib lhs expressions = true) (hvalid : lhs.valid = true)
    (hslips : slipsForAny lib lhs expressions = false) (hdoc : «matches» lib lhs doc = true) :
    matchesAll lib expressions doc = true := by
  match expressions with
  | [] => rfl
  | exp :: rest =>
    simp only [isSubsetOfAll, and_eq_true] at h
    simp only [slipsForAny, Bool.or_eq_false_iff] at hslips
    rw [matchesAll, and_eq_true]
    exact ⟨matches_of_isSubsetOf lhs exp doc h.1 hvalid hslips.1 hdoc,
      matchesAll_of_isSubsetOfAll lhs rest doc h.2 hvalid hslips.2 hdoc⟩
end

end Slips

section Failures

theorem elements_nil (path : List UInt8) : (init path).elements [] = [⟨none, false⟩] := by
  unfold elements init
  cases (parse path).parts <;> rfl

theorem mem_path_of_mem_part {path part : List UInt8} {rest : List (List UInt8)} {b : UInt8}
    (hparts : (parse path).parts = part :: rest) (hb : b ∈ part) : b ∈ path := by
  have hpath := dottedField_parse path
  simp only [dottedField, dottedSubstring, numParts, hparts, take_length, drop_zero] at hpath
  rw [← hpath]
  cases rest with
  | nil => simpa using hb
  | cons next rest => simp [hb]

/-- Whenever a clause can match without the path, there is a document that it matches without. -/
theorem exists_unmatched_of_matchesMissing
    (h : isSubsetOfExists lhs path = true) (hmissing : matchesMissing lhs = true)
    (hpath : 0 ∉ path) :
    ∃ doc, «matches» lib lhs doc = true ∧ leafMatches path Option.isSome doc = false := by
  have hempty : leafMatches path Option.isSome [] = false := by
    simp [leafMatches, elements_nil]
  cases lhs with
  | comparison matchType p data collator =>
    refine ⟨[], ?_, hempty⟩
    simp only [matchesMissing, ne_eq, and_eq_true, decide_eq_true_eq, or_eq_true] at hmissing
    have htype : canonicalType none ≠ canonicalizeBSONType data := by
      intro heq
      rw [eq_undefined_of_type heq] at hmissing
      simp [BSONValue.type] at hmissing
    simp only [«matches», leafMatches, elements_nil, any_cons, any_nil, Bool.or_false]
    rw [comparisonMatches_of_type_ne lib collator htype]
    have hsum : canonicalType none + canonicalizeBSONType data ≠ 5 := by
      intro hsum
      rcases null_or_undefined_of_sum hsum with rfl | rfl <;> simp [BSONValue.type] at hmissing
    exact .inr ⟨hsum, hmissing.2, hmissing.1⟩
  | typeOperator p type =>
    obtain rfl : type = .bsonType 0 := by simpa [matchesMissing] using hmissing
    refine ⟨[], ?_, hempty⟩
    simp [«matches», typeLeafMatches, elements_nil, typeMatches]
  | not exp =>
    obtain rfl : exp.path = path := by
      cases exp with
      | comparison matchType p data collator =>
        cases matchType <;> simp_all [isSubsetOfExists, MatchExpression.path]
      | _ => simp_all [isSubsetOfExists, MatchExpression.path]
    simp only [matchesMissing, leadsNowhere] at hmissing
    cases hparts : (parse exp.path).parts with
    | nil => simp [hparts] at hmissing
    | cons part rest =>
      have hmore : hasMore rest = true := by simpa [hparts] using hmissing
      have hpart : 0 ∉ part := fun hb => hpath (mem_path_of_mem_part hparts hb)
      -- an empty array under the first part of the path
      have hnone : (init exp.path).elements [(⟨part, hpart⟩, .array [])] = [] := by
        simp [elements, init, hparts, fieldElements, valueElements, hmore, arrayElements]
      have hleaf (q : Option BSONValue → Bool) :
          leafMatches exp.path q [(⟨part, hpart⟩, .array [])] = false := by
        simp [leafMatches, hnone]
      refine ⟨[(⟨part, hpart⟩, .array [])], ?_, hleaf _⟩
      cases exp with
      | comparison matchType p data collator | matchIn p equalities regexes collator =>
        rw [«matches», Bool.not_eq_true']
        exact hleaf _
      | _ => simp [isSubsetOfExists] at h
  | _ => simp [matchesMissing] at hmissing

def belowMaxKey : MatchExpression Unit := .comparison .LT [0x61] .maxKey none

def fieldExists : MatchExpression Unit := .exists [0x61]

end Failures

end MatchExpression
end MongoServer
