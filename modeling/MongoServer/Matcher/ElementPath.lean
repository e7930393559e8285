import MongoServer.Bson.Elements
import MongoServer.Bson.FieldRef

/-!
The elements that a path leads to in a document. A path goes through embedded documents, into
every document of an array, and into the array element that a number in the path names. If it ends
at an array, it leads to all elements of the array and to the array itself.
-/
namespace MongoServer
open List (Subset.refl)

variable {part : List UInt8}

structure ElementPath where
  fieldRef : FieldRef
  shouldTraverseNonleafArrays : Bool
  shouldTraverseLeafArray : Bool

namespace ElementPath

/-- What the iterator returns. There is no element where the path ends before its last part. -/
structure Context where
  element : Option BSONValue
  outerArray : Bool

def init (path : List UInt8) : ElementPath := ⟨.parse path, true, true⟩

/-- There is a rest of the path; a single empty part is none. -/
def hasMore (rest : List (List UInt8)) : Bool := !([FieldRef.dot].intercalate rest).isEmpty

/-- The next part of the path is the position of an array element. -/
def isArrayOffsetMatch (part : List UInt8) (i : ℕ) : Bool :=
  isAllDigits part && part = positionName i

def leafArray (elems : List BSONValue) : List Context :=
  elems.map (fun e => ⟨some e, false⟩) ++ [⟨some (.array elems), true⟩]

mutual
def fieldElements (nonleaf leaf : Bool) (part : List UInt8) (rest : List (List UInt8)) :
    List (CString × BSONValue) → List Context
  | [] => [⟨none, false⟩]
  | (name, v) :: fields =>
      if name.bytes = part then valueElements nonleaf leaf rest v
      else fieldElements nonleaf leaf part rest fields

def valueElements (nonleaf leaf : Bool) (rest : List (List UInt8)) : BSONValue → List Context
  | .object fields =>
      match rest with
      | [] => [⟨some (.object fields), false⟩]
      | part :: rest => fieldElements nonleaf leaf part rest fields
  | .array elems =>
      if hasMore rest then
        if nonleaf then arrayElements leaf rest 0 elems else []
      else if leaf then leafArray elems
      else [⟨some (.array elems), true⟩]
  | v => if rest.isEmpty then [⟨some v, false⟩] else [⟨none, false⟩]

def arrayElements (leaf : Bool) (rest : List (List UInt8)) (i : ℕ) : List BSONValue → List Context
  | [] => []
  | eltInArray :: elems =>
      innerElements leaf rest i eltInArray ++ arrayElements leaf rest (i + 1) elems

/-- From one element of an array on. -/
def innerElements (leaf : Bool) (rest : List (List UInt8)) (i : ℕ) : BSONValue → List Context
  | .object fields =>
      match rest with
      | [] => []
      | part :: rest =>
          -- a document is searched for the whole rest, and at its position for what follows
          fieldElements true leaf part rest fields ++
            if isArrayOffsetMatch part i then
              match rest with
              | [] => [⟨some (.object fields), true⟩]
              | next :: rest => fieldElements true leaf next rest fields
            else []
  | .array elems =>
      match rest with
      | [] => []
      | part :: rest =>
          if isArrayOffsetMatch part i then
            if rest.isEmpty then [⟨some (.array elems), false⟩]
            else if hasMore rest then arrayElements leaf rest 0 elems
            else leafArray elems
          else []
  | v => if rest.length = 1 && isArrayOffsetMatch (rest.headD []) i then [⟨some v, false⟩] else []
end

/-- All elements that the iterator returns for a document. A path without parts is the field with
the empty name. -/
def elements (path : ElementPath) (doc : BSONObj) : List Context :=
  match path.fieldRef.parts with
  | [] => fieldElements path.shouldTraverseNonleafArrays path.shouldTraverseLeafArray [] [] doc
  | part :: rest =>
      fieldElements path.shouldTraverseNonleafArrays path.shouldTraverseLeafArray part rest doc

theorem fieldElements_eq (nonleaf leaf : Bool) (part : List UInt8) (rest : List (List UInt8))
    (obj : BSONObj) :
    fieldElements nonleaf leaf part rest obj =
      match obj.getField part with
      | none => [⟨none, false⟩]
      | some v => valueElements nonleaf leaf rest v := by
  induction obj with
  | nil => rfl
  | cons e obj ih =>
    obtain ⟨name, v⟩ := e
    rw [fieldElements, BSONObj.getField_cons]
    split_ifs with hname
    · rfl
    · exact ih

theorem hasMore_cons (hpart : part ≠ []) (rest : List (List UInt8)) :
    hasMore (part :: rest) = true := by
  cases rest with
  | nil | cons next rest => simp [hasMore, hpart]

theorem ne_nil_of_not_digits (h : isAllDigits part = false) : part ≠ [] := by
  rintro rfl
  cases h

theorem isArrayOffsetMatch_of_not_digits (h : isAllDigits part = false) (i : ℕ) :
    isArrayOffsetMatch part i = false := by
  simp [isArrayOffsetMatch, h]

theorem arrayElements_of_name (h : isAllDigits part = false) (leaf : Bool)
    (rest : List (List UInt8)) (i : ℕ) (elems : List BSONValue) :
    arrayElements leaf (part :: rest) i elems =
      elems.flatMap fun e => e.object?.elim [] (fieldElements true leaf part rest) := by
  induction elems generalizing i with
  | nil => rfl
  | cons e elems ih =>
    rw [arrayElements, ih, List.flatMap_cons]
    congr 1
    cases e <;> simp [innerElements, BSONValue.object?, isArrayOffsetMatch_of_not_digits h]

section LeafArrays

theorem array_subset_leafArray (elems : List BSONValue) :
    [(⟨some (.array elems), true⟩ : Context)] ⊆ leafArray elems := by
  simp [leafArray]

theorem append_subset_append {l l' m m' : List Context} (hl : l ⊆ l') (hm : m ⊆ m') :
    l ++ m ⊆ l' ++ m' :=
  List.append_subset.mpr ⟨List.subset_append_of_subset_left m' hl,
    List.subset_append_of_subset_right l' hm⟩

mutual
theorem fieldElements_subset (nonleaf : Bool) (part : List UInt8) (rest : List (List UInt8))
    (obj : List (CString × BSONValue)) :
    fieldElements nonleaf false part rest obj ⊆ fieldElements nonleaf true part rest obj := by
  match obj with
  | [] => exact Subset.refl _
  | (name, v) :: obj =>
    rw [fieldElements, fieldElements]
    split_ifs
    · exact valueElements_subset nonleaf rest v
    · exact fieldElements_subset nonleaf part rest obj

theorem valueElements_subset (nonleaf : Bool) (rest : List (List UInt8)) (v : BSONValue) :
    valueElements nonleaf false rest v ⊆ valueElements nonleaf true rest v := by
  cases v with
  | object fields =>
    cases rest with
    | nil => exact Subset.refl _
    | cons part rest => exact fieldElements_subset nonleaf part rest fields
  | array elems =>
    simp only [valueElements, Bool.false_eq_true, if_false, if_true]
    split_ifs
    · exact arrayElements_subset rest 0 elems
    · exact Subset.refl _
    · exact array_subset_leafArray elems
  | _ => exact Subset.refl _

theorem arrayElements_subset (rest : List (List UInt8)) (i : ℕ) (elems : List BSONValue) :
    arrayElements false rest i elems ⊆ arrayElements true rest i elems := by
  match elems with
  | [] => exact Subset.refl _
  | e :: elems =>
    rw [arrayElements, arrayElements]
    exact append_subset_append (innerElements_subset rest i e)
      (arrayElements_subset rest (i + 1) elems)

theorem innerElements_subset (rest : List (List UInt8)) (i : ℕ) (v : BSONValue) :
    innerElements false rest i v ⊆ innerElements true rest i v := by
  cases v with
  | object fields =>
    cases rest with
    | nil => exact Subset.refl _
    | cons part rest =>
      simp only [innerElements]
      apply append_subset_append (fieldElements_subset true part rest fields)
      split_ifs
      · cases rest with
        | nil => exact Subset.refl _
        | cons next rest => exact fieldElements_subset true next rest fields
      · exact Subset.refl _
  | array elems =>
    cases rest with
    | nil => exact Subset.refl _
    | cons part rest =>
      simp only [innerElements]
      split_ifs
      · exact Subset.refl _
      · exact arrayElements_subset rest 0 elems
      · exact Subset.refl _
      · exact Subset.refl _
  | _ => exact Subset.refl _
end

theorem elements_subset (ref : FieldRef) (nonleaf : Bool) (doc : BSONObj) :
    elements ⟨ref, nonleaf, false⟩ doc ⊆ elements ⟨ref, nonleaf, true⟩ doc := by
  unfold elements
  cases ref.parts with
  | nil | cons part rest => exact fieldElements_subset _ _ _ _

end LeafArrays

section Presence

theorem valueElements_nil_ne_nil (nonleaf : Bool) (v : BSONValue) :
    valueElements nonleaf true [] v ≠ [] := by
  cases v <;> simp [valueElements, hasMore, leafArray]

theorem fieldElements_nil_ne_nil (nonleaf : Bool) (part : List UInt8) (obj : BSONObj) :
    fieldElements nonleaf true part [] obj ≠ [] := by
  rw [fieldElements_eq]
  cases obj.getField part with
  | none => simp
  | some v => exact valueElements_nil_ne_nil nonleaf v

theorem eq_singleton_nil_of_not_hasMore {rest : List (List UInt8)} (h : hasMore rest = false) :
    rest = [] ∨ rest = [[]] := by
  match rest with
  | [] => exact .inl rfl
  | [part] =>
    right
    simpa [hasMore] using h
  | part :: next :: rest => simp [hasMore] at h

theorem fieldElements_ne_nil {rest : List (List UInt8)} (h : hasMore rest = false) (nonleaf : Bool)
    (part : List UInt8) (obj : BSONObj) : fieldElements nonleaf true part rest obj ≠ [] := by
  rcases eq_singleton_nil_of_not_hasMore h with rfl | rfl
  · exact fieldElements_nil_ne_nil nonleaf part obj
  · rw [fieldElements_eq]
    cases obj.getField part with
    | none => simp
    | some v =>
      cases v with
      | object fields => exact fieldElements_nil_ne_nil nonleaf [] fields
      | _ => simp [valueElements, hasMore, leafArray]

end Presence

end ElementPath
end MongoServer
