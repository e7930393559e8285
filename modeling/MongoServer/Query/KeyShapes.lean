import MongoServer.Query.PlanCacheKey

/-!
What a key tells of a match expression. The code of an expression can be read back from the key: the
types of its nodes, their paths as they are shown there and the bits of the indexes.
-/
namespace MongoServer
open Codes List
namespace PlanCache
open MatchExpression QueryPlanner
variable {Collator : Type} {e d : MatchExpression Collator}

section Labels
variable {L M : Type} {f : MatchExpression Collator → L} {g : MatchExpression Collator → M}

theorem labelledAll_eq_map (f : MatchExpression Collator → L)
    (exps : List (MatchExpression Collator)) : labelledAll f exps = exps.map (labelled f) := by
  induction exps with
  | nil => rfl
  | cons exp rest ih => rw [labelledAll, ih, map_cons]

theorem labelled_eq (f : MatchExpression Collator → L) (exp : MatchExpression Collator) :
    labelled f exp = .node (f exp) (labelledAll f exp.children) := by
  cases exp <;> rfl

theorem label_eq (h : labelled f e = labelled f d) : f e = f d := by
  rw [labelled_eq, labelled_eq, Codes.Tree.node.injEq] at h
  exact h.1

theorem children_eq (h : labelled f e = labelled f d) :
    labelledAll f e.children = labelledAll f d.children := by
  rw [labelled_eq, labelled_eq, Codes.Tree.node.injEq] at h
  exact h.2

theorem self_mem_nodes (e : MatchExpression Collator) : e ∈ nodes e := by
  cases e <;> simp [nodes]

theorem nodesOfAll_eq_flatMap (exps : List (MatchExpression Collator)) :
    nodesOfAll exps = exps.flatMap nodes := by
  induction exps with
  | nil => rfl
  | cons exp rest ih => rw [nodesOfAll, ih, flatMap_cons]

theorem mem_nodes_of_child {e child node : MatchExpression Collator} (hchild : child ∈ e.children)
    (hnode : node ∈ nodes child) : node ∈ nodes e := by
  cases e <;> simp only [children, mem_singleton, not_mem_nil] at hchild
  case elemMatchObject path sub =>
    subst hchild
    exact mem_append_left _ hnode
  case not exp =>
    subst hchild
    exact mem_append_left _ hnode
  all_goals
    simp only [nodes, nodesOfAll_eq_flatMap, mem_append, mem_flatMap]
    exact Or.inl ⟨child, hchild, hnode⟩

theorem sizeOf_child_lt {e child : MatchExpression Collator} (h : child ∈ e.children) :
    sizeOf child < sizeOf e := by
  cases e <;> simp only [children, mem_singleton, not_mem_nil] at h
  case elemMatchObject path sub =>
    subst h
    simp
  case not exp =>
    subst h
    simp
  all_goals
    have hlt := sizeOf_lt_of_mem h
    simp
    omega

/-- Induction over an expression, from the children of a node to the node. -/
theorem induction_on_children {P : MatchExpression Collator → Prop}
    (h : ∀ e, (∀ child ∈ e.children, P child) → P e) (e : MatchExpression Collator) : P e :=
  h e fun child _ => induction_on_children h child
termination_by sizeOf e
decreasing_by exact sizeOf_child_lt ‹_›

theorem map_eq_map_of_forall {α : Type} {f : α → L} {g g' : α → M} {es ds : List α}
    (heq : es.map f = ds.map f) (h : ∀ e ∈ es, ∀ d ∈ ds, f e = f d → g e = g' d) :
    es.map g = ds.map g' := by
  induction es generalizing ds with
  | nil => simp_all
  | cons e es ih =>
    cases ds with
    | nil => simp at heq
    | cons d ds =>
      rw [map_cons, map_cons, List.cons.injEq] at heq ⊢
      constructor
      · exact h e mem_cons_self d mem_cons_self heq.1
      · apply ih heq.2
        intro e' he' d' hd'
        exact h e' (mem_cons_of_mem _ he') d' (mem_cons_of_mem _ hd')

/-- Labels that are determined by other labels are the same where those are. -/
theorem labelled_congr (heq : labelled f e = labelled f d)
    (h : ∀ x ∈ nodes e, ∀ y ∈ nodes d, f x = f y → g x = g y) : labelled g e = labelled g d := by
  induction e using induction_on_children generalizing d with
  | h e ih =>
    have hkids := children_eq heq
    rw [labelledAll_eq_map, labelledAll_eq_map] at hkids
    rw [labelled_eq, labelled_eq, h e (self_mem_nodes e) d (self_mem_nodes d) (label_eq heq),
      labelledAll_eq_map, labelledAll_eq_map]
    congr 1
    apply map_eq_map_of_forall hkids
    intro child hchild child' hchild' hsame
    apply ih child hchild hsame
    intro x hx y hy
    exact h x (mem_nodes_of_child hchild hx) y (mem_nodes_of_child hchild' hy)

end Labels

section Key
variable [DecidableEq Collator] (lib : MatcherLibrary Collator) (types : TestTypes)
  (texts : KeyTexts) (indexEntries : List (QueryPlanner.IndexEntry Collator))
    (type : MatchExpression.MatchType)

def shownPath (e : MatchExpression Collator) : List UInt8 :=
  e.path ++ if hasRegexes e then ascii "_re" else []

/-- What the key shows of a node. -/
def shown (e : MatchExpression Collator) : MatchExpression.MatchType × List UInt8 × List Bool :=
  (matchType types e, shownPath e, discriminatorBits lib indexEntries e)

/-- The code of a label. -/
def encodeLabel (l : MatchExpression.MatchType × List UInt8 × List Bool) : List UInt8 :=
  encodeMatchType l.1 ++ (encodeUserString l.2.1 ++
    bracketed kEncodeDiscriminatorsBegin kEncodeDiscriminatorsEnd encodeBit l.2.2)

def isGeo : MatchExpression Collator → Bool
  | .geo _ _ => true
  | _ => false

omit [DecidableEq Collator] in
theorem encodeGeometry_eq_nil {e : MatchExpression Collator} (hgeo : isGeo e = false) :
    encodeGeometry texts e = [] := by
  cases e <;> first | rfl | cases hgeo

theorem encodeNode_eq {e : MatchExpression Collator} (hgeo : isGeo e = false) :
    encodeNode lib types texts indexEntries e = encodeLabel (shown lib types indexEntries e) := by
  have hpath : encodeUserString (shownPath e) = encodeUserString e.path ++
      if hasRegexes e then encodeUserString (ascii "_re") else [] := by
    rw [shownPath, encodeUserString, escape_append]
    split <;> rfl
  have hbits : ∀ bits : List Bool, (if bits.isEmpty then []
      else kEncodeDiscriminatorsBegin :: (bits.map encodeBit ++ [kEncodeDiscriminatorsEnd])) =
      bracketed kEncodeDiscriminatorsBegin kEncodeDiscriminatorsEnd encodeBit bits := by
    intro bits
    cases bits <;> rfl
  rw [encodeNode, encodeGeometry_eq_nil texts hgeo, hbits, encodeLabel, shown, hpath, append_nil]

def encodeShown : Codes.Tree (MatchExpression.MatchType × List UInt8 × List Bool) → List UInt8 :=
  encodeTree kEncodeChildrenBegin kEncodeChildrenEnd kEncodeChildrenSeparator encodeLabel

theorem encodeOtherChildren_eq {exps : List (MatchExpression Collator)}
    (hkids : ∀ exp ∈ exps, encodeKeyForMatch lib types texts indexEntries exp =
      encodeShown (labelled (shown lib types indexEntries) exp)) :
    encodeOtherChildren lib types texts indexEntries exps =
      encodeRest kEncodeChildrenBegin kEncodeChildrenEnd kEncodeChildrenSeparator encodeLabel
        (labelledAll (shown lib types indexEntries) exps) := by
  induction exps with
  | nil => rfl
  | cons exp rest ih =>
    rw [encodeOtherChildren, labelledAll, encodeRest, hkids exp mem_cons_self,
      ih fun exp' hexp' => hkids exp' (mem_cons_of_mem _ hexp')]
    rfl

theorem encodeKeyForMatch_children (e : MatchExpression Collator) :
    encodeKeyForMatch lib types texts indexEntries e = encodeNode lib types texts indexEntries e ++
        encodeChildren lib types texts indexEntries e.children := by
  cases e <;> simp [encodeKeyForMatch, encodeChildren, encodeOtherChildren, children]

theorem encodeKeyForMatch_eq (e : MatchExpression Collator) :
    (∀ node ∈ nodes e, isGeo node = false) →
    encodeKeyForMatch lib types texts indexEntries e =
      encodeShown (labelled (shown lib types indexEntries) e) := by
  induction e using induction_on_children with
  | h e ih =>
    intro hgeo
    have hkids : ∀ exp ∈ e.children, encodeKeyForMatch lib types texts indexEntries exp =
        encodeShown (labelled (shown lib types indexEntries) exp) := fun exp hexp =>
      ih exp hexp fun node hnode => hgeo node (mem_nodes_of_child hexp hnode)
    rw [encodeKeyForMatch_children, encodeNode_eq lib types texts indexEntries
      (hgeo e (self_mem_nodes e)), labelled_eq]
    generalize e.children = kids at hkids
    cases kids with
    | nil => exact append_nil _
    | cons kid kids =>
      rw [encodeChildren, hkids kid mem_cons_self, encodeOtherChildren_eq lib types texts
        indexEntries (forall_mem_cons.mp hkids).2]
      rfl

/-- Where the code of a match expression ends in a key. -/
def endsMatch (c : UInt8) : Prop :=
  c = kEncodeChildrenEnd ∨ c = kEncodeChildrenSeparator ∨ c = kEncodeSortSection ∨
    c = kEncodeProjectionSection

def decodeMatchType (code : List UInt8) : Option MatchExpression.MatchType :=
  [.AND, .OR, .NOR, .NOT, .ELEM_MATCH_OBJECT, .ELEM_MATCH_VALUE, .SIZE, .LTE, .LT, .EQ, .GT, .GTE,
    .REGEX, .MOD, .EXISTS, .MATCH_IN, .TYPE_OPERATOR, .GEO, .WHERE, .ALWAYS_FALSE, .GEO_NEAR, .TEXT,
    .BITS_ALL_SET, .BITS_ALL_CLEAR, .BITS_ANY_SET, .BITS_ANY_CLEAR].find?
    fun type => encodeMatchType type = code

theorem decodeMatchType_encodeMatchType : decodeMatchType (encodeMatchType type) = some type := by
  cases type <;> decide +kernel

theorem encodeMatchType_injective : Function.Injective encodeMatchType := by
  intro a b h
  have hdecoded := congrArg decodeMatchType h
  rw [decodeMatchType_encodeMatchType, decodeMatchType_encodeMatchType] at hdecoded
  exact Option.some.inj hdecoded

theorem length_encodeMatchType : (encodeMatchType type).length = 2 := by
  cases type <;> rfl

theorem encodeLabel_selfDelimiting :
    Codes.SelfDelimiting (fun c => endsMatch c ∨ c = kEncodeChildrenBegin) encodeLabel := by
  have hbits : Codes.SelfDelimiting (fun c => endsMatch c ∨ c = kEncodeChildrenBegin)
      (bracketed kEncodeDiscriminatorsBegin kEncodeDiscriminatorsEnd encodeBit) := by
    apply (bracketed_selfDelimiting _ _ _ (by decide) (by decide)).mono
    rintro c ((rfl | rfl | rfl | rfl) | rfl) <;> decide
  have hpath : Codes.SelfDelimiting (fun c => endsMatch c ∨ c = kEncodeChildrenBegin)
      fun p : List UInt8 × List Bool => encodeUserString p.1 ++
        bracketed kEncodeDiscriminatorsBegin kEncodeDiscriminatorsEnd encodeBit p.2 := by
    apply Codes.SelfDelimiting.append (escape_selfDelimiting _ _ (by decide)) hbits
    have hle : ∀ c, (endsMatch c ∨ c = kEncodeChildrenBegin) ∨ c = kEncodeDiscriminatorsBegin →
        isDelimiter c ∧ c ≠ backslash := by
      rintro c (((rfl | rfl | rfl | rfl) | rfl) | rfl) <;> decide
    exact fun bits r hr => (bracketed_stops _ _ _ hr).mono hle
  have htype : Codes.SelfDelimiting (fun _ => True) encodeMatchType :=
    .of_length length_encodeMatchType encodeMatchType_injective
  exact htype.append hpath fun _ _ _ _ _ => trivial

theorem encodeShown_selfDelimiting : Codes.SelfDelimiting endsMatch encodeShown := by
  apply encodeTree_selfDelimiting encodeLabel_selfDelimiting
  · rintro (h | h | h | h) <;> exact absurd h (by decide)
  · exact Or.inl rfl
  · exact Or.inr (Or.inl rfl)
  · decide

omit [DecidableEq Collator] in
theorem sections_stop (cq : CanonicalQuery Collator) :
    Codes.Stops endsMatch (encodeKeyForSort cq.sort ++ encodeKeyForProj texts cq.proj) := by
  unfold encodeKeyForSort encodeKeyForProj
  split_ifs
  · exact Codes.Stops.nil _
  · exact stops_cons.mpr (Or.inr (Or.inr (Or.inr rfl)))
  · exact stops_cons.mpr (Or.inr (Or.inr (Or.inl rfl)))
  · exact stops_cons.mpr (Or.inr (Or.inr (Or.inl rfl)))

/-- What a key shows of the nodes of a match expression is known from it. -/
theorem shown_eq_of_computeKey {cq cq' : CanonicalQuery Collator}
    (hgeo : ∀ node ∈ nodes cq.root, isGeo node = false)
    (hgeo' : ∀ node ∈ nodes cq'.root, isGeo node = false)
    (h : computeKey lib types texts indexEntries cq = computeKey lib types texts indexEntries cq') :
    labelled (shown lib types indexEntries) cq.root =
      labelled (shown lib types indexEntries) cq'.root := by
  rw [computeKey, computeKey, append_assoc, append_assoc,
    encodeKeyForMatch_eq lib types texts indexEntries cq.root hgeo,
    encodeKeyForMatch_eq lib types texts indexEntries cq'.root hgeo'] at h
  exact (encodeShown_selfDelimiting _ _ _ _ (sections_stop texts cq) (sections_stop texts cq') h).1

end Key

end PlanCache
end MongoServer
