import MongoServer.Matcher.SplitByFields

/-!
The fields that a `$match` declares it reads, and the part of a document it is evaluated on. Paths
are joined from the root of the expression to each node, and only their first part is looked up.
-/
namespace MongoServer.DocumentSourceMatch
open FieldRef List MatchExpression

variable {Collator : Type*}

/-- The path of a node below another; an empty one adds nothing. -/
def join (above path : List UInt8) : List UInt8 :=
  if path.isEmpty then above else if above.isEmpty then path else above ++ dot :: path

def record (path : List UInt8) : List (List UInt8) := if path.isEmpty then [] else [path]

mutual
/-- What `mapOver` adds for all nodes, from a path on. -/
def addDependencies (above : List UInt8) : MatchExpression Collator → List (List UInt8)
  | .elemMatchObject path sub => addDependencies (join above path) sub ++ record (join above path)
  | .elemMatchValue path subs => addChildren (join above path) subs ++ record (join above path)
  | .and expressions | .or expressions | .nor expressions =>
      addChildren above expressions ++ if expressions.isEmpty then record above else []
  | .not exp => addDependencies above exp
  | .alwaysFalse path => record (join above path)
  | exp => record (join above exp.path)

def addChildren (above : List UInt8) : List (MatchExpression Collator) → List (List UInt8)
  | [] => []
  | exp :: rest => addDependencies above exp ++ addChildren above rest
end

def extractFirstFieldFromDottedPath (path : List UInt8) : List UInt8 := path.takeWhile (· ≠ dot)

def firstFields (fields : List (List UInt8)) : List (List UInt8) :=
  fields.map extractFirstFieldFromDottedPath

/-- Each first field once, if the document has it. -/
def getObjectForMatch (input : BSONObj) (fields : List (List UInt8)) : BSONObj :=
  (firstFields fields).dedup.filterMap fun first => input.find? fun e => e.1.bytes = first

theorem extractFirstFieldFromDottedPath_eq (path : List UInt8) :
    extractFirstFieldFromDottedPath path = (parse path).parts.headD [] := by
  have hhead (path : List UInt8) : (path.splitOn dot).headD [] = path.takeWhile (· ≠ dot) := by
    induction path with
    | nil => rfl
    | cons b path ih =>
      rw [splitOn, splitOnP_cons_eq_if_modifyHead]
      by_cases hb : b = dot
      · simp [hb]
      · have hne := splitOnP_ne_nil (· == dot) path
        obtain ⟨part, rest, hsplit⟩ := exists_cons_of_ne_nil hne
        simp only [splitOn, hsplit, headD_cons] at ih
        simp [hb, hsplit, ih]
  unfold parse
  split_ifs with h
  · rw [isEmpty_iff.mp h]
    rfl
  · exact (hhead path).symm

variable {doc doc' input : BSONObj} {path name : List UInt8} {fields : List (List UInt8)}

/-- The documents have the same first fields of what is declared. -/
def Agree (doc doc' : BSONObj) (fields : List (List UInt8)) : Prop :=
  ∀ field ∈ fields, doc.getField (extractFirstFieldFromDottedPath field) =
    doc'.getField (extractFirstFieldFromDottedPath field)

theorem any_elements_congr (hunnamed : doc.getField [] = doc'.getField [])
    (h : Agree doc doc' (record (join [] path))) (leaf : Bool) (Q : ElementPath.Context → Bool) :
    (ElementPath.elements ⟨.parse path, true, leaf⟩ doc).any Q =
      (ElementPath.elements ⟨.parse path, true, leaf⟩ doc').any Q := by
  rw [elements_eq_elementsFrom, elements_eq_elementsFrom, ← extractFirstFieldFromDottedPath_eq]
  congr 2
  cases path with
  | nil => exact hunnamed
  | cons b path => exact h _ mem_cons_self

variable (lib : MatcherLibrary Collator)

mutual
theorem matches_congr (hunnamed : doc.getField [] = doc'.getField [])
    (exp : MatchExpression Collator) (h : Agree doc doc' (addDependencies [] exp)) :
    «matches» lib exp doc = «matches» lib exp doc' := by
  cases exp with
  | and expressions => exact (matchesList_congr hunnamed expressions (forall_mem_append.mp h).1).1
  | or expressions => exact (matchesList_congr hunnamed expressions (forall_mem_append.mp h).1).2
  | nor expressions =>
    have hany := (matchesList_congr hunnamed expressions (forall_mem_append.mp h).1).2
    rw [«matches», «matches», hany]
  | not exp => rw [«matches», «matches», matches_congr hunnamed exp h]
  | alwaysFalse path => rfl
  | elemMatchObject path sub | elemMatchValue path subs =>
    exact any_elements_congr hunnamed (forall_mem_append.mp h).2 _ _
  | _ => exact any_elements_congr hunnamed h _ _

theorem matchesList_congr (hunnamed : doc.getField [] = doc'.getField [])
    (expressions : List (MatchExpression Collator))
    (h : Agree doc doc' (addChildren [] expressions)) :
    matchesAll lib expressions doc = matchesAll lib expressions doc' ∧
      matchesAny lib expressions doc = matchesAny lib expressions doc' := by
  cases expressions with
  | nil => exact ⟨rfl, rfl⟩
  | cons exp rest =>
    obtain ⟨hfirst, hrest⟩ := forall_mem_append.mp h
    have hexp := matches_congr hunnamed exp hfirst
    obtain ⟨hall, hany⟩ := matchesList_congr hunnamed rest hrest
    simp [matchesAll, matchesAny, hexp, hall, hany]
end

theorem getField_getObjectForMatch (h : name ∈ firstFields fields ∨ input.getField name = none) :
    (getObjectForMatch input fields).getField name = input.getField name := by
  have hnamed {first : List UInt8} {e : CString × BSONValue}
      (he : (input.find? fun e => e.1.bytes = first) = some e) : e.1.bytes = first := by
    simpa using find?_some he
  unfold getObjectForMatch BSONObj.getField at *
  rw [find?_filterMap]
  congr 1
  cases hfirst : find? _ (firstFields fields).dedup with
  | none =>
    cases hfind : input.find? fun e => e.1.bytes = name with
    | none => rfl
    | some e =>
      rcases h with hmem | hnone
      · have hnot := find?_eq_none.mp hfirst name (mem_dedup.mpr hmem)
        simp [hfind, hnamed hfind] at hnot
      · simp [hfind] at hnone
  | some first =>
    have hany := find?_some hfirst
    cases hfind : input.find? fun e => e.1.bytes = first with
    | none => simp [hfind] at hany
    | some e =>
      obtain rfl : first = name := by simpa [hfind, hnamed hfind] using hany
      rfl

def withoutUnnamed (input : BSONObj) : BSONObj := input.filter fun e => !e.1.bytes.isEmpty

theorem getObjectForMatch_withoutUnnamed (h : [] ∉ firstFields fields) :
    getObjectForMatch (withoutUnnamed input) fields = getObjectForMatch input fields := by
  refine filterMap_congr fun first hfirst => ?_
  rw [withoutUnnamed, find?_filter]
  congr 1
  funext e
  have hne : first ≠ [] := fun heq => h (heq ▸ mem_dedup.mp hfirst)
  by_cases he : e.1.bytes = first
  · simp [he, hne]
  · simp [he]

theorem matches_of_unnamed {exp : MatchExpression Collator}
    (hfields : addDependencies [] exp ⊆ fields)
    (h : [] ∈ firstFields fields ∨ input.getField [] = none) :
    «matches» lib exp (getObjectForMatch input fields) = «matches» lib exp input := by
  refine matches_congr lib (getField_getObjectForMatch h) exp fun field hfield => ?_
  exact getField_getObjectForMatch (.inl (mem_map_of_mem (hfields hfield)))

end MongoServer.DocumentSourceMatch
