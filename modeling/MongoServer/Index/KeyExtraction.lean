import MongoServer.Index.BtreeKeyGenerator
import MongoServer.Transition.Runs

/-!
What one call of the key generator extracts for paths without numbers: every field is looked up in
the same document, and all arrays found are one array.
-/
namespace MongoServer
open List

theorem BSONObj.getField_ofArray {part : List UInt8} (h : isAllDigits part = false)
    (elems : List BSONValue) : (BSONObj.ofArray elems).getField part = none := by
  simp only [BSONObj.getField, BSONObj.ofArray, Option.map_eq_none_iff, find?_eq_none,
    mem_map, decide_eq_true_eq]
  rintro _ ⟨e, -, rfl⟩ rfl
  rw [isAllDigits_positionName] at h
  cases h

/-- The value that a path leads to through embedded documents only. -/
def storedAt : List (List UInt8) → BSONObj → Option BSONValue
  | [], _ => none
  | part :: rest, obj =>
      match obj.getField part with
      | some (.object fields) => if rest.isEmpty then some (.object fields) else storedAt rest fields
      | some v => if rest.isEmpty then some v else none
      | none => none

theorem extract_storedAt {path : List (List UInt8)} {address location rest : List (List UInt8)}
    {obj : BSONObj} {v : BSONValue}
    (h : extractElementAtPathOrArrayAlongPath address obj path = (some ⟨location, v⟩, rest)) :
    ∃ pre, pre ≠ [] ∧ path = pre ++ rest ∧ location = address ++ pre ∧ storedAt pre obj = some v := by
  induction path generalizing address obj with
  | nil => simp [extractElementAtPathOrArrayAlongPath] at h
  | cons part path ih =>
    have hone (w : BSONValue) (hw : obj.getField part = some w)
        (heq : (some (LocatedElement.mk (address ++ [part]) w), path) =
          (some (LocatedElement.mk location v), rest)) :
        ∃ pre, pre ≠ [] ∧ part :: path = pre ++ rest ∧ location = address ++ pre ∧
          storedAt pre obj = some v := by
      simp only [Prod.mk.injEq, Option.some.injEq, LocatedElement.mk.injEq] at heq
      obtain ⟨⟨rfl, rfl⟩, rfl⟩ := heq
      refine ⟨[part], by simp, rfl, rfl, ?_⟩
      cases w <;> simp [storedAt, hw]
    cases hfield : obj.getField part with
    | none => simp [extractElementAtPathOrArrayAlongPath, hfield] at h
    | some w =>
      cases w with
      | object fields =>
        simp only [extractElementAtPathOrArrayAlongPath, hfield] at h
        split_ifs at h with hend
        · exact hone _ hfield h
        · obtain ⟨pre, hpre, hpath, hlocation, hstored⟩ := ih h
          refine ⟨part :: pre, by simp, by simp [hpath], by simp [hlocation], ?_⟩
          simp [storedAt, hfield, hpre, hstored]
      | array elems =>
        simp only [extractElementAtPathOrArrayAlongPath, hfield] at h
        exact hone _ hfield h
      | _ =>
        simp only [extractElementAtPathOrArrayAlongPath, hfield] at h
        split_ifs at h with hend
        · exact hone _ hfield h
        · simp at h

theorem eq_of_extract {β : Type*} {walk : List (List UInt8) → BSONObj → β} (value : BSONValue → β)
    {array : List (List UInt8) → List BSONValue → β}
    (hnil : ∀ obj, walk [] obj = value .jstNULL)
    (hcons : ∀ part rest obj, walk (part :: rest) obj =
      match obj.getField part with
      | none => value .jstNULL
      | some (.array elems) => array rest elems
      | some (.object fields) => if rest.isEmpty then value (.object fields) else walk rest fields
      | some v => if rest.isEmpty then value v else value .jstNULL)
    (address path : List (List UInt8)) (obj : BSONObj) :
    walk path obj =
      match extractElementAtPathOrArrayAlongPath address obj path with
      | (none, _) => value .jstNULL
      | (some ⟨_, .array elems⟩, rest) => array rest elems
      | (some ⟨_, v⟩, _) => value v := by
  induction path generalizing address obj with
  | nil => exact hnil obj
  | cons part rest ih =>
    rw [hcons, extractElementAtPathOrArrayAlongPath]
    cases hfield : obj.getField part with
    | none => rfl
    | some v =>
      cases v with
      | object fields =>
        dsimp only
        split_ifs with hend
        · rfl
        · exact ih (address ++ [part]) fields
      | array elems => rfl
      | _ =>
        dsimp only
        split_ifs with hend <;> rfl

namespace BtreeKeyGenerator

/-- What becomes of a field. -/
def extracted (address : List (List UInt8)) (obj : BSONObj) : KeyField → ExtractedField
  | .fixed e => .fixed e
  | .pending path _ =>
      match extractElementAtPathOrArrayAlongPath address obj path with
      | (none, _) => .fixed .jstNULL
      | (some ⟨_, .array _⟩, rest) => .inArray rest
      | (some ⟨_, v⟩, _) => .fixed v

def FindsArray (address : List (List UInt8)) (obj : BSONObj)
    (arrElt : List (List UInt8) × List BSONValue) : KeyField → Prop
  | .fixed _ => False
  | .pending path _ =>
      (extractElementAtPathOrArrayAlongPath address obj path).1 = some ⟨arrElt.1, .array arrElt.2⟩

def Plain : KeyField → Prop
  | .fixed _ => True
  | .pending path info => NonNumeric path ∧ info = none

variable {arrElt : List (List UInt8) × List BSONValue} {done : List KeyField}

section Extraction
variable {address : List (List UInt8)} {obj : BSONObj}

variable {path rest : List (List UInt8)} {s : Extraction} {f : KeyField}
  {location : List (List UInt8)}

theorem extractNextElement_none
    (h : (extractElementAtPathOrArrayAlongPath address obj path).1 = none) :
    ∃ rest, extractNextElement address obj none path = .ok (none, rest, false) := by
  simp only [extractNextElement]
  split_ifs
  · exact ⟨_, by rw [h]⟩
  · exact ⟨_, rfl⟩

theorem extractNextElement_some {e : LocatedElement}
    (h : extractElementAtPathOrArrayAlongPath address obj path = (some e, rest)) :
    extractNextElement address obj none path = .ok (some e, rest, false) := by
  have hfield : (obj.getField (path.headD [])).isSome := by
    cases path with
    | nil => simp [extractElementAtPathOrArrayAlongPath] at h
    | cons part path =>
      by_contra hnone
      simp only [headD_cons, Option.not_isSome_iff_eq_none] at hnone
      simp [extractElementAtPathOrArrayAlongPath, hnone] at h
  simp only [extractNextElement, hfield, if_true, h]

theorem FindsArray.elems_eq {f g : KeyField}
    {elems elems' : List BSONValue} (hf : FindsArray address obj (location, elems) f)
    (hg : FindsArray address obj (location, elems') g) : elems = elems' := by
  cases f with
  | fixed e => exact hf.elim
  | pending path info =>
    cases g with
    | fixed e => exact hg.elim
    | pending path' info' =>
      obtain ⟨pre, -, -, hlocation, hstored⟩ := extract_storedAt (Prod.ext hf rfl)
      obtain ⟨pre', -, -, hlocation', hstored'⟩ := extract_storedAt (Prod.ext hg rfl)
      have hpre : pre = pre' := append_cancel_left (hlocation.symm.trans hlocation')
      rw [← hpre, hstored] at hstored'
      injection hstored' with harray
      injection harray

/-- After some of the fields. -/
structure Extracted (address : List (List UInt8)) (obj : BSONObj) (done : List KeyField)
    (s : Extraction) : Prop where
  fields : s.fields = done.map (extracted address obj)
  mayExpand : s.mayExpandArrayUnembedded = true
  array : ∀ arrElt, s.arrElt = some arrElt ↔ ∃ f ∈ done, FindsArray address obj arrElt f

theorem Extracted.fixed {v : BSONValue}
    (hs : Extracted address obj done s) (hv : extracted address obj f = .fixed v)
    (hnone : ∀ arrElt, ¬FindsArray address obj arrElt f) (n : ℕ) :
    Extracted address obj (done ++ [f])
      { s with numNotFound := n, fields := s.fields ++ [.fixed v] } where
  fields := by simp [hs.fields, hv]
  mayExpand := hs.mayExpand
  array := by
    intro arrElt
    simp [hs.array, or_and_right, exists_or, hnone]

theorem Extracted.inArray (hs : Extracted address obj done s)
    (hrest : extracted address obj f = .inArray rest)
    (hfinds : ∀ found, FindsArray address obj found f ↔ found = arrElt)
    (hdone : ∀ found, s.arrElt = some found → found = arrElt) :
    Extracted address obj (done ++ [f])
      { s with arrElt := some arrElt, fields := s.fields ++ [.inArray rest] } where
  fields := by simp [hs.fields, hrest]
  mayExpand := hs.mayExpand
  array := by
    intro found
    simp only [Option.some.injEq, mem_append, mem_singleton]
    constructor
    · rintro rfl
      exact ⟨f, .inr rfl, (hfinds _).mpr rfl⟩
    · rintro ⟨g, hmem | rfl, hg⟩
      · exact (hdone found ((hs.array found).mpr ⟨g, hmem, hg⟩)).symm
      · exact ((hfinds found).mp hg).symm

theorem findsArray_iff {elems : List BSONValue} (found : List (List UInt8) × List BSONValue)
    (h : extractElementAtPathOrArrayAlongPath address obj path = (some ⟨location, .array elems⟩, rest)) :
    FindsArray address obj found (.pending path none) ↔ found = (location, elems) := by
  simp only [FindsArray, h, Option.some.injEq, LocatedElement.mk.injEq, BSONValue.array.injEq]
  constructor
  · rintro ⟨rfl, rfl⟩
    rfl
  · rintro rfl
    exact ⟨rfl, rfl⟩

protected theorem Extracted.extractField {s' : Extraction}
    (hs : Extracted address obj done s) (hf : Plain f) (h : extractField address obj s f = .ok s') :
    Extracted address obj (done ++ [f]) s' := by
  cases f with
  | fixed e =>
    cases h
    exact hs.fixed rfl (by simp [FindsArray]) _
  | pending path info =>
    obtain ⟨-, rfl⟩ := hf
    rcases hext : extractElementAtPathOrArrayAlongPath address obj path with ⟨_ | ⟨location, v⟩, rest⟩
    · obtain ⟨rest', hnext⟩ := extractNextElement_none (congrArg Prod.fst hext)
      simp only [extractField, hnext] at h
      cases h
      exact hs.fixed (by simp [extracted, hext]) (by simp [FindsArray, hext]) _
    · by_cases harray : ∃ elems, v = .array elems
      · obtain ⟨elems, rfl⟩ := harray
        simp only [extractField, extractNextElement_some hext] at h
        have hextracted : extracted address obj (.pending path none) = .inArray rest := by
          simp [extracted, hext]
        have hnext (hdone : ∀ found, s.arrElt = some found → found = (location, elems)) :=
          hs.inArray hextracted (findsArray_iff · hext) hdone
        cases harr : s.arrElt with
        | none =>
          simp only [harr, Option.none_or, Bool.not_false, Bool.and_true, Except.ok.injEq] at h
          subst h
          exact hnext (by simp [harr])
        | some found =>
          simp only [harr, Option.some_or, Bool.not_false, Bool.and_true] at h
          split_ifs at h with hsame
          cases h
          obtain ⟨foundAt, foundElems⟩ := found
          subst hsame
          -- the array found before is at the same address
          obtain ⟨g, -, hg⟩ := (hs.array _).mp harr
          obtain rfl := FindsArray.elems_eq ((findsArray_iff _ hext).mpr rfl) hg
          exact hnext (by simp [harr])
      · have hvalue : extracted address obj (.pending path none) = .fixed v := by
          cases v <;> simp_all [extracted]
        have hok : s' = { s with fields := s.fields ++ [.fixed v] } := by
          cases v <;> simp_all [extractField, extractNextElement_some hext]
        subst hok
        apply hs.fixed hvalue
        intro arrElt hfinds
        simp only [FindsArray, hext, Option.some.injEq, LocatedElement.mk.injEq] at hfinds
        exact harray ⟨_, hfinds.2⟩

theorem extracted_of_extractFields {fields : List KeyField} {n : ℕ} (hplain : ∀ f ∈ fields, Plain f)
    (h : extractFields address obj n fields = .ok s) : Extracted address obj fields s := by
  refine Transition.foldlM_invariant ⟨rfl, rfl, by simp⟩ ?_ h
  intro done f hf s s' hdone hstep
  exact hdone.extractField (hplain f hf) hstep

theorem Extracted.value_of_no_array {fields : List KeyField} (hs : Extracted address obj fields s)
    (hnone : s.arrElt = none) (hf : f ∈ fields) : ∃ v, extracted address obj f = .fixed v := by
  cases f with
  | fixed e => exact ⟨e, rfl⟩
  | pending path info =>
    rcases hext : extractElementAtPathOrArrayAlongPath address obj path with ⟨_ | ⟨location, v⟩, rest⟩
    · exact ⟨.jstNULL, by simp [extracted, hext]⟩
    · cases v with
      | array elems =>
        have := (hs.array (location, elems)).mpr ⟨_, hf, by simp [FindsArray, hext]⟩
        simp [hnone] at this
      | _ => simp [extracted, hext]

theorem extracted_inArray (h : extracted address obj f = .inArray rest) :
    ∃ path info location elems, f = .pending path info ∧
      extractElementAtPathOrArrayAlongPath address obj path =
        (some ⟨location, .array elems⟩, rest) ∧
      rest.length < path.length ∧ (NonNumeric path → NonNumeric rest) := by
  cases f with
  | fixed e => cases h
  | pending path info =>
    rcases hext : extractElementAtPathOrArrayAlongPath address obj path with ⟨_ | ⟨location, v⟩, _⟩
    · simp [extracted, hext] at h
    · cases v with
      | array elems =>
        simp only [extracted, hext, ExtractedField.inArray.injEq] at h
        subst h
        obtain ⟨pre, hpre, rfl, -, -⟩ := extract_storedAt hext
        have := length_pos_of_ne_nil hpre
        exact ⟨_, info, location, elems, rfl, hext, by simp; omega, NonNumeric.of_append⟩
      | _ => simp [extracted, hext] at h

end Extraction

section Recursion

theorem subPositionalInfo_eq_none {location rest : List (List UInt8)} (elems : List BSONValue)
    (h : NonNumeric rest) : subPositionalInfo location elems (.inArray rest) = none := by
  cases rest with
  | nil => rfl
  | cons part rest =>
    simp [subPositionalInfo, BSONObj.getField_ofArray (h part mem_cons_self)]

variable {address : List (List UInt8)} {obj : BSONObj} {f : KeyField}

protected theorem Plain.subPositionalInfo (hf : Plain f) (location : List (List UInt8))
    (elems : List BSONValue) :
    subPositionalInfo location elems (extracted address obj f) = none := by
  cases hext : extracted address obj f with
  | fixed e => rfl
  | inArray rest =>
    obtain ⟨path, _, _, _, rfl, _, _, hnames⟩ := extracted_inArray hext
    exact subPositionalInfo_eq_none _ (hnames hf.1)

protected theorem Plain.arrEltFixed (hf : Plain f) (e arr : BSONValue) (m : Bool) :
    Plain (arrEltFixed e arr m none (extracted address obj f)) := by
  cases hext : extracted address obj f with
  | fixed e => trivial
  | inArray rest =>
    obtain ⟨path, _, _, _, rfl, _, _, hnames⟩ := extracted_inArray hext
    cases rest with
    | nil => trivial
    | cons part rest => exact ⟨hnames hf.1, rfl⟩

def partsLeft : KeyField → ℕ
  | .fixed _ => 0
  | .pending path _ => path.length

theorem partsLeft_arrEltFixed (e arr : BSONValue) (m : Bool) :
    partsLeft (arrEltFixed e arr m none (extracted address obj f)) ≤ partsLeft f := by
  cases hext : extracted address obj f with
  | fixed e => exact Nat.zero_le _
  | inArray rest =>
    obtain ⟨path, _, _, _, rfl, _, hlength, _⟩ := extracted_inArray hext
    cases rest with
    | nil => exact Nat.zero_le _
    | cons part rest => exact hlength.le

theorem partsLeft_arrEltFixed_lt (hfinds : FindsArray address obj arrElt f) (e arr : BSONValue)
    (m : Bool) : partsLeft (arrEltFixed e arr m none (extracted address obj f)) < partsLeft f := by
  cases f with
  | fixed e => exact hfinds.elim
  | pending path info =>
    have hext : extracted address obj (.pending path info) =
        .inArray (extractElementAtPathOrArrayAlongPath address obj path).2 := by
      rcases hpair : extractElementAtPathOrArrayAlongPath address obj path with ⟨e, rest⟩
      simp only [FindsArray, hpair] at hfinds
      simp [extracted, hpair, hfinds]
    obtain ⟨_, _, _, _, ⟨⟩, _, hlength, _⟩ := extracted_inArray hext
    rw [hext]
    generalize (extractElementAtPathOrArrayAlongPath address obj path).2 = rest at hlength
    cases rest <;> exact hlength

end Recursion

section Calls
variable {generator : BtreeKeyGenerator}

variable {fields : List KeyField} {address location : List (List UInt8)} {obj : BSONObj} {n : ℕ}
  {s : Extraction}

def entryFields (address : List (List UInt8)) (obj : BSONObj) (elems : List BSONValue)
    (entry : BSONValue) (fields : List KeyField) : List KeyField :=
  fields.map fun f => arrEltFixed entry (.array elems) true none (extracted address obj f)

/-- An empty array is indexed as undefined. -/
def arrayEntries (elems : List BSONValue) : List BSONValue :=
  if elems.isEmpty then [.undefined] else elems

section
variable (hplain : ∀ f ∈ fields, Plain f)
include hplain

section
variable (hs : extractFields address obj n fields = .ok s)
include hs

theorem getKeysImplWithArray_of_no_array (harr : s.arrElt = none) (fuel : ℕ) (out : GeneratedKeys) :
    generator.getKeysImplWithArray (fuel + 1) fields address obj n out =
      .ok (if generator.isSparse && s.numNotFound = fields.length then out
        else ⟨insertKey out.keys (.ofValues
          ((fields.map (extracted address obj)).filterMap ExtractedField.value?)),
          out.multikeyPaths⟩) := by
  simp only [getKeysImplWithArray, hs, harr, (extracted_of_extractFields hplain hs).fields]
  split_ifs <;> rfl

variable (generator) in
/-- One call for each entry of the array, the fields of an empty array being undefined. -/
theorem getKeysImplWithArray_of_array {elems : List BSONValue}
    (harr : s.arrElt = some (location, elems)) (fuel : ℕ) (out : GeneratedKeys) :
    ∃ calls : List (BSONValue × List (List UInt8)), calls.map Prod.fst = arrayEntries elems ∧
      generator.getKeysImplWithArray (fuel + 1) fields address obj n out =
        (calls.foldlM (fun out call =>
          generator.getKeysImplWithArray fuel (entryFields address obj elems call.1 fields)
            call.2 (entryObject call.1) s.numNotFound out) out).map
          fun out =>
            if elems.length > 1 then
              ⟨out.keys, insertComponents out.multikeyPaths (generator.pathLengths.zipWith
                (arrComponent true elems) (fields.map (extracted address obj)))⟩
            else out := by
  have hinv := extracted_of_extractFields hplain hs
  cases elems with
  | nil =>
    refine ⟨[(.undefined, location)], rfl, ?_⟩
    simp only [getKeysImplWithArray, hs, harr, hinv.fields, map_map, foldlM_cons, foldlM_nil,
      bind_pure]
    exact (id_map _).symm
  | cons elem elems =>
    have hfields (e : BSONValue) : (s.fields.map fun f =>
        arrEltFixed e (.array (elem :: elems)) s.mayExpandArrayUnembedded
          (subPositionalInfo location (elem :: elems) f) f) =
        entryFields address obj (elem :: elems) e fields := by
      rw [hinv.fields, hinv.mayExpand, map_map]
      apply map_congr_left
      intro f hf
      simp only [Function.comp_apply, (hplain f hf).subPositionalInfo]
    refine ⟨(elem :: elems).zipIdx.map fun e => (e.1, location ++ [positionName e.2]), ?_, ?_⟩
    · simp [Function.comp_def, arrayEntries]
    · simp only [getKeysImplWithArray, hs, harr, hfields, foldlM_map]
      rw [hinv.mayExpand, hinv.fields]
      split
      · next err hfold =>
        rw [hfold]
        rfl
      · next out hfold =>
        rw [hfold]
        simp only [Except.map]
        split_ifs <;> rfl

end

theorem plain_entryFields (elems : List BSONValue)
    (entry : BSONValue) : ∀ f ∈ entryFields address obj elems entry fields, Plain f := by
  intro _ hmem
  obtain ⟨f, hf, rfl⟩ := mem_map.mp hmem
  exact (hplain f hf).arrEltFixed _ _ _

end

@[simp] theorem length_entryFields (elems : List BSONValue) (entry : BSONValue) :
    (entryFields address obj elems entry fields).length = fields.length := by
  simp [entryFields]

theorem partsLeft_entryFields (hs : Extracted address obj fields s) (harr : s.arrElt = some arrElt)
    (elems : List BSONValue) (entry : BSONValue) :
    ((entryFields address obj elems entry fields).map partsLeft).sum <
      (fields.map partsLeft).sum := by
  obtain ⟨f, hf, hfinds⟩ := (hs.array arrElt).mp harr
  rw [entryFields, map_map]
  apply sum_lt_sum
  · intro g _
    exact partsLeft_arrEltFixed _ _ _
  · exact ⟨f, hf, partsLeft_arrEltFixed_lt hfinds _ _ _⟩

theorem extractField_ne_unfinished (address : List (List UInt8)) (obj : BSONObj) (s : Extraction)
    (f : KeyField) : extractField address obj s f ≠ .error .unfinished := by
  intro h
  cases f with
  | fixed e => cases h
  | pending path info =>
    have hnext : extractNextElement address obj info path ≠ .error .unfinished := by
      cases info with
      | none | some info => simp only [extractNextElement]; split_ifs <;> simp
    rcases hres : extractNextElement address obj info path with
      err | ⟨_ | ⟨location, v⟩, rest, nested⟩
    · simp only [extractField, hres, Except.error.injEq] at h
      exact hnext (h ▸ hres)
    · simp [extractField, hres] at h
    · cases v with
      | array elems =>
        simp only [extractField, hres] at h
        cases harr : s.arrElt with
        | none => simp [harr] at h
        | some found =>
          simp only [harr] at h
          split_ifs at h
          cases h
      | _ => simp [extractField, hres] at h

/-- As many calls as there are parts of paths, and one more, are enough. -/
theorem getKeysImplWithArray_ne_unfinished {fuel : ℕ} (hplain : ∀ f ∈ fields, Plain f)
    (hfuel : (fields.map partsLeft).sum < fuel) (address : List (List UInt8)) (obj : BSONObj) (n : ℕ)
    (out : GeneratedKeys) :
    generator.getKeysImplWithArray fuel fields address obj n out ≠ .error .unfinished := by
  induction fuel generalizing fields address obj n out with
  | zero => omega
  | succ fuel ih =>
    cases hs : extractFields address obj n fields with
    | error err =>
      intro h
      simp only [getKeysImplWithArray, hs, Except.error.injEq] at h
      subst h
      exact Transition.foldlM_ne_error (fun s f _ => extractField_ne_unfinished address obj s f) hs
    | ok s =>
      have hinv := extracted_of_extractFields hplain hs
      rcases harr : s.arrElt with _ | ⟨location, elems⟩
      · rw [getKeysImplWithArray_of_no_array hplain hs harr]
        simp
      · obtain ⟨calls, -, heq⟩ := generator.getKeysImplWithArray_of_array hplain hs harr fuel out
        rw [heq]
        refine Transition.map_ne_error (Transition.foldlM_ne_error fun out call _ => ?_)
        have hless := partsLeft_entryFields hinv harr elems call.1
        exact ih (plain_entryFields hplain elems call.1) (by omega) _ _ _ _

end Calls

end BtreeKeyGenerator
end MongoServer
