import MongoServer.Index.KeyExtraction

/-!
When the only key of a document holds the values stored in it. An array of one element makes one
key as well, and does not make the index multikey.
-/
namespace MongoServer
open FieldRef List Transition
namespace BtreeKeyGenerator

/-- The key of a path through arrays that have one element at most. -/
def pathValue : List (List UInt8) → BSONObj → BSONValue
  | [], _ => .jstNULL
  | part :: rest, obj =>
      match obj.getField part with
      | none => .jstNULL
      | some (.array elems) =>
          if rest.isEmpty then elems.headD .undefined
          else pathValue rest (entryObject (elems.headD .undefined))
      | some (.object fields) => if rest.isEmpty then .object fields else pathValue rest fields
      | some v => if rest.isEmpty then v else .jstNULL

def keyValue (obj : BSONObj) : KeyField → BSONValue
  | .fixed e => e
  | .pending path _ => pathValue path obj

section PathValue
variable {address location rest path : List (List UInt8)} {obj : BSONObj}

/-- The value after an array. -/
def entryValue (rest : List (List UInt8)) (elems : List BSONValue) : BSONValue :=
  if rest.isEmpty then elems.headD .undefined
  else pathValue rest (entryObject (elems.headD .undefined))

theorem pathValue_eq (address path : List (List UInt8)) (obj : BSONObj) : pathValue path obj =
      match extractElementAtPathOrArrayAlongPath address obj path with
      | (none, _) => .jstNULL
      | (some ⟨_, .array elems⟩, rest) => entryValue rest elems
      | (some ⟨_, v⟩, _) => v :=
  eq_of_extract id (fun _ => rfl) (fun _ _ _ => rfl) address path obj

theorem keyValue_of_extracted {f : KeyField} {v : BSONValue}
    (h : extracted address obj f = .fixed v) : keyValue obj f = v := by
  cases f with
  | fixed e =>
    injection h
  | pending path info =>
    rw [keyValue, pathValue_eq address]
    rcases hext : extractElementAtPathOrArrayAlongPath address obj path with ⟨_ | ⟨location, w⟩, rest⟩
    · simpa [extracted, hext] using h
    · cases w <;> simp_all [extracted]

theorem keyValue_entry {f : KeyField} {elems : List BSONValue}
    (hsame : ∀ arrElt, FindsArray address obj arrElt f → arrElt.2 = elems) :
    keyValue (entryObject (elems.headD .undefined))
      (arrEltFixed (elems.headD .undefined) (.array elems) true none (extracted address obj f)) =
      keyValue obj f := by
  cases hext : extracted address obj f with
  | fixed v => exact (keyValue_of_extracted hext).symm
  | inArray rest =>
    obtain ⟨path, _, location, found, rfl, hfound, -, -⟩ := extracted_inArray hext
    obtain rfl : found = elems := hsame (location, found) (by simp [FindsArray, hfound])
    rw [keyValue, pathValue_eq address, hfound]
    cases rest <;> rfl

end PathValue

section Components

theorem length_insertComponents {multikeyPaths : List (List ℕ)} {components : List (Option ℕ)}
    (h : components.length = multikeyPaths.length) :
    (insertComponents multikeyPaths components).length = multikeyPaths.length := by
  simp [insertComponents, h]

theorem exists_mem_insertComponents {multikeyPaths : List (List ℕ)} {components : List (Option ℕ)}
    (h : components.length = multikeyPaths.length) {c : ℕ} (hc : some c ∈ components) :
    ∃ paths ∈ insertComponents multikeyPaths components, paths ≠ [] := by
  obtain ⟨i, hi, hget⟩ := getElem_of_mem hc
  have hi' : i < (insertComponents multikeyPaths components).length := by
    rw [length_insertComponents h]
    omega
  refine ⟨_, getElem_mem hi', ?_⟩
  simp only [insertComponents, getElem_zipWith, hget, Option.elim_some]
  exact ne_nil_of_mem mem_insert_self

variable {generator : BtreeKeyGenerator} {fields : List KeyField}
  {address location : List (List UInt8)} {obj : BSONObj} {n : ℕ} {s : Extraction}

theorem some_mem_components {elems : List BSONValue} (hplain : ∀ f ∈ fields, Plain f)
    (hlength : fields.length = generator.fieldNames.length)
    (hs : Extracted address obj fields s) (harr : s.arrElt = some (location, elems)) :
    ∃ c, some c ∈ generator.pathLengths.zipWith (arrComponent true elems)
      (fields.map (extracted address obj)) := by
  obtain ⟨f, hf, hfinds⟩ := (hs.array _).mp harr
  obtain ⟨i, hi, rfl⟩ := getElem_of_mem hf
  have hcomponent (len : ℕ) : ∃ c, arrComponent true elems len (extracted address obj fields[i]) =
      some c := by
    cases hfield : fields[i] with
    | fixed e => simp [hfield, FindsArray] at hfinds
    | pending path info =>
      rcases hext : extractElementAtPathOrArrayAlongPath address obj path with ⟨e, rest⟩
      have he : e = some ⟨location, .array elems⟩ := by simpa [hfield, FindsArray, hext] using hfinds
      subst he
      have hin : extracted address obj (.pending path info) = .inArray rest := by
        simp [extracted, hext]
      rw [hin]
      cases rest with
      | nil => exact ⟨len - 1, rfl⟩
      | cons part rest =>
        obtain ⟨_, _, _, _, ⟨⟩, _, _, hnames⟩ := extracted_inArray hin
        have hpath : NonNumeric path := by
          have := hplain _ (getElem_mem hi)
          rw [hfield] at this
          exact this.1
        have hpart := hnames hpath part mem_cons_self
        exact ⟨_, by simp only [arrComponent, BSONObj.getField_ofArray hpart]; rfl⟩
  have hi' : i < generator.pathLengths.length := by
    simp only [pathLengths, length_map]
    omega
  obtain ⟨c, hc⟩ := hcomponent generator.pathLengths[i]
  refine ⟨c, mem_iff_getElem.mpr ⟨i, by simp; omega, ?_⟩⟩
  simp [hc]

end Components

section Calls
variable {generator : BtreeKeyGenerator} {fields : List KeyField} {address : List (List UInt8)}
  {obj : BSONObj} {n : ℕ} {out out' : GeneratedKeys}

/-- As long as no array has several elements, a call inserts one key at most. -/
theorem keys_of_no_multikeyPaths {fuel : ℕ} (hplain : ∀ f ∈ fields, Plain f)
    (hfields : fields.length = generator.fieldNames.length)
    (hout : out.multikeyPaths.length = generator.fieldNames.length)
    (h : generator.getKeysImplWithArray fuel fields address obj n out = .ok out') :
    out'.multikeyPaths.length = generator.fieldNames.length ∧
      ((∀ paths ∈ out'.multikeyPaths, paths = []) →
        (generator.isSparse = true ∧ out'.keys = out.keys) ∨
          out'.keys = insertKey out.keys (.ofValues (fields.map (keyValue obj)))) := by
  induction fuel generalizing fields address obj n out out' with
  | zero => cases h
  | succ fuel ih =>
    cases hs : extractFields address obj n fields with
    | error err => simp [getKeysImplWithArray, hs] at h
    | ok s =>
      have hinv := extracted_of_extractFields hplain hs
      -- the values of the fields are those of the fields in the only entry
      have hentry {location : List (List UInt8)} {elems : List BSONValue}
          (harr : s.arrElt = some (location, elems)) :
          (entryFields address obj elems (elems.headD .undefined) fields).map
            (keyValue (entryObject (elems.headD .undefined))) = fields.map (keyValue obj) := by
        rw [entryFields, map_map]
        apply map_congr_left
        intro f hf
        refine keyValue_entry fun arrElt hfinds => ?_
        have hsame := (hinv.array arrElt).mpr ⟨f, hf, hfinds⟩
        rw [harr] at hsame
        exact (congrArg Prod.snd (Option.some.inj hsame)).symm
      rcases harr : s.arrElt with _ | ⟨location, elems⟩
      · rw [getKeysImplWithArray_of_no_array hplain hs harr] at h
        injection h with h
        have hvalues : (fields.map (extracted address obj)).filterMap ExtractedField.value? =
            fields.map (keyValue obj) := by
          rw [filterMap_map, ← filterMap_eq_map]
          apply filterMap_congr
          intro f hf
          obtain ⟨v, hv⟩ := hinv.value_of_no_array harr hf
          simp [hv, ExtractedField.value?, keyValue_of_extracted hv]
        rw [hvalues] at h
        subst h
        split_ifs with hsparse
        · rw [Bool.and_eq_true] at hsparse
          exact ⟨hout, fun _ => .inl ⟨hsparse.1, rfl⟩⟩
        · exact ⟨hout, fun _ => .inr rfl⟩
      · obtain ⟨calls, hcalls, heq⟩ := generator.getKeysImplWithArray_of_array hplain hs harr fuel out
        rw [heq, map_eq_ok] at h
        obtain ⟨last, hlast, rfl⟩ := h
        have hlength : last.multikeyPaths.length = generator.fieldNames.length := by
          refine foldlM_invariant
            (P := fun _ out => out.multikeyPaths.length = generator.fieldNames.length) hout ?_ hlast
          intro _ entry _ out out' hout hstep
          exact (ih (plain_entryFields hplain _ _) (by simpa using hfields) hout hstep).1
        have hcomponents : (generator.pathLengths.zipWith (arrComponent true elems)
            (fields.map (extracted address obj))).length = last.multikeyPaths.length := by
          simp [pathLengths, hfields, hlength]
        split_ifs with hmany
        · -- several elements leave a component
          refine ⟨(length_insertComponents hcomponents).trans hlength, fun hpaths => ?_⟩
          obtain ⟨c, hc⟩ := some_mem_components hplain hfields hinv harr
          obtain ⟨paths, hmem, hnonempty⟩ := exists_mem_insertComponents hcomponents hc
          exact (hnonempty (hpaths paths hmem)).elim
        · have hone : arrayEntries elems = [elems.headD .undefined] := by
            rcases elems with _ | ⟨elem, _ | _⟩ <;> simp_all [arrayEntries]
          obtain ⟨⟨_, location⟩, rfl, rfl⟩ := map_eq_singleton_iff.mp (hcalls.trans hone)
          simp only [foldlM_cons, foldlM_nil, bind_pure] at hlast
          rw [← hentry harr]
          exact ih (plain_entryFields hplain _ _) (by simpa using hfields) hout hlast

end Calls

section Stored

/-- Through embedded documents and the first elements of arrays, a path leads nowhere, to null or
to an array that starts with null. -/
def leadsToNull : List (List UInt8) → BSONObj → Bool
  | [], _ => true
  | part :: rest, obj =>
      match obj.getField part with
      | none | some .jstNULL | some (.array (.jstNULL :: _)) => true
      | some (.object fields) | some (.array (.object fields :: _)) =>
          !rest.isEmpty && leadsToNull rest fields
      | some _ => !rest.isEmpty

/-- A path meets no array in a document; or it goes on after the first array, and leads to nothing
but null there. -/
def holdsStored : List (List UInt8) → BSONObj → Bool
  | [], _ => true
  | part :: rest, obj =>
      match obj.getField part with
      | some (.object fields) => rest.isEmpty || holdsStored rest fields
      | some (.array elems) =>
          !rest.isEmpty && leadsToNull rest (entryObject (elems.headD .undefined))
      | _ => true

theorem pathValue_eq_null_iff (path : List (List UInt8)) (obj : BSONObj) :
    pathValue path obj = .jstNULL ↔ leadsToNull path obj = true := by
  induction path generalizing obj with
  | nil => simp [pathValue, leadsToNull]
  | cons part rest ih =>
    cases hfield : obj.getField part with
    | none => simp [pathValue, leadsToNull, hfield]
    | some v =>
      cases v with
      | object fields => cases rest <;> simp_all [pathValue, leadsToNull]
      | array elems =>
        rcases elems with _ | ⟨elem, elems⟩
        · cases rest <;> simp [pathValue, leadsToNull, hfield, entryObject]
        · cases elem <;> cases rest <;> simp_all [pathValue, leadsToNull, entryObject]
      | _ => cases rest <;> simp [pathValue, leadsToNull, hfield]

theorem headD_ne_array (elems : List BSONValue) : elems.headD .undefined ≠ .array elems := by
  cases elems with
  | nil => simp
  | cons elem elems =>
    intro h
    have := congrArg sizeOf h
    simp only [headD_cons, BSONValue.array.sizeOf_spec, List.cons.sizeOf_spec] at this
    omega

theorem pathValue_eq_stored_iff (path : List (List UInt8)) (obj : BSONObj) :
    pathValue path obj = (storedAt path obj).getD .jstNULL ↔ holdsStored path obj = true := by
  induction path generalizing obj with
  | nil => simp [pathValue, storedAt, holdsStored]
  | cons part rest ih =>
    cases hfield : obj.getField part with
    | none => simp [pathValue, storedAt, holdsStored, hfield]
    | some v =>
      cases v with
      | object fields => cases rest <;> simp_all [pathValue, storedAt, holdsStored]
      | array elems =>
        cases rest with
        | nil =>
          have := headD_ne_array elems
          simpa [pathValue, storedAt, holdsStored, hfield] using this
        | cons next rest =>
          have hnull := pathValue_eq_null_iff (next :: rest) (entryObject (elems.headD .undefined))
          rw [pathValue, storedAt, holdsStored, hfield]
          simpa using hnull
      | _ => cases rest <;> simp [pathValue, storedAt, holdsStored, hfield]

end Stored

variable (generator : BtreeKeyGenerator)

theorem plain_start (hnames : ∀ name ∈ generator.fieldNames, NonNumeric (parse name).parts) :
    ∀ f ∈ generator.fieldNames.map (fun name => KeyField.pending (parse name).parts none),
      Plain f := by
  intro _ hmem
  obtain ⟨name, hname, rfl⟩ := mem_map.mp hmem
  exact ⟨hnames name hname, rfl⟩

theorem getKeysImpl_of_not_id (hid : generator.isIdIndex = false) (doc : BSONObj) :
    generator.getKeysImpl doc = generator.getKeysImplWithArray (generator.pathLengths.sum + 1)
      (generator.fieldNames.map fun name => .pending (parse name).parts none) [] doc 0
      ⟨[], generator.fieldNames.map fun _ => []⟩ := by
  simp [getKeysImpl, hid]

/-- The generator always ends. -/
theorem getKeys_ne_unfinished
    (hnames : ∀ name ∈ generator.fieldNames, NonNumeric (parse name).parts)
    (doc : BSONObj) : generator.getKeys doc ≠ .error .unfinished := by
  have hends : generator.getKeysImpl doc ≠ .error .unfinished := by
    cases hid : generator.isIdIndex with
    | true => simp [getKeysImpl, hid]
    | false =>
      rw [getKeysImpl_of_not_id generator hid]
      apply getKeysImplWithArray_ne_unfinished (generator.plain_start hnames)
      simp [pathLengths, partsLeft, Function.comp_def, numParts]
  exact map_ne_error hends

theorem insertKey_nil (key : IndexKey) : insertKey [] key = [key] := rfl

/-- The only key of a document that does not make the index multikey holds the stored values exactly
if the paths meet no array, except for one whose element leads to nothing but null. -/
theorem getKeys_holds_stored_iff
    (hnames : ∀ name ∈ generator.fieldNames, NonNumeric (parse name).parts)
    {doc : BSONObj} {out : GeneratedKeys} {key : IndexKey} (h : generator.getKeys doc = .ok out)
    (hkeys : out.keys = [key]) (hpaths : ∀ paths ∈ out.multikeyPaths, paths = []) :
    key.obj.map Prod.snd = generator.fieldNames.map
        (fun name => (storedAt (parse name).parts doc).getD .jstNULL) ↔
      generator.isIdIndex = true ∨
        ∀ name ∈ generator.fieldNames, holdsStored (parse name).parts doc = true := by
  rw [getKeys, map_eq_ok] at h
  obtain ⟨generated, hgenerated, rfl⟩ := h
  cases hid : generator.isIdIndex with
  | true =>
    have hfields : generator.fieldNames = [idName] := by simpa [isIdIndex] using hid
    have hparts : (parse idName).parts = [idName] := by decide
    have hstored : storedAt [idName] doc = doc.getField idName := by
      cases hfield : doc.getField idName with
      | none => simp [storedAt, hfield]
      | some v => cases v <;> simp [storedAt, hfield]
    simp only [getKeysImpl, hid, if_true, Except.ok.injEq] at hgenerated
    subst hgenerated
    simp only [isEmpty_cons, Bool.false_and, Bool.false_eq_true, if_false,
      List.cons.injEq, and_true] at hkeys
    simp only [← hkeys, hfields, map_cons, map_nil, hparts, hstored, true_or, iff_true]
    cases doc.getField idName <;> simp [nullKey, hfields, IndexKey.ofValues]
  | false =>
    rw [getKeysImpl_of_not_id generator hid] at hgenerated
    have hpaths' : ∀ paths ∈ generated.multikeyPaths, paths = [] := by
      split_ifs at hpaths <;> exact hpaths
    have hone := keys_of_no_multikeyPaths (generator.plain_start hnames) (by simp) (by simp)
      hgenerated
    have hinserted : generated.keys = [.ofValues (generator.fieldNames.map fun name =>
        pathValue (parse name).parts doc)] := by
      rcases hone.2 hpaths' with ⟨hsparse, hnone⟩ | hone
      · -- a sparse index without a key stays without one
        rw [hnone] at hkeys
        simp [hsparse, hnone] at hkeys
      · simpa [insertKey_nil, Function.comp_def, keyValue] using hone
    simp only [hinserted, isEmpty_cons, Bool.false_and, Bool.false_eq_true, if_false,
      List.cons.injEq, and_true] at hkeys
    rw [← hkeys]
    simp only [IndexKey.ofValues, map_map, Function.comp_def, Bool.false_eq_true, false_or]
    rw [map_inj_left]
    simp [pathValue_eq_stored_iff]

def indexOnA : BtreeKeyGenerator := ⟨[[0x61]], false, by decide⟩

def arrayOfFive : BSONObj := [(⟨[0x61], CString.nul_notMem_a⟩, .array [.number (.numberInt 5)])]

theorem nonNumeric_indexOnA : ∀ name ∈ indexOnA.fieldNames, NonNumeric (parse name).parts := by
  have hparts : ∀ name ∈ indexOnA.fieldNames, ∀ part ∈ (parse name).parts,
      isAllDigits part = false := by decide
  exact hparts

/-- The key is the number, and the array is stored. -/
theorem getKeys_arrayOfFive : ∃ out key, indexOnA.getKeys arrayOfFive = .ok out ∧ out.keys = [key] ∧
      (∀ paths ∈ out.multikeyPaths, paths = []) ∧
      key.obj.map Prod.snd ≠ indexOnA.fieldNames.map
        (fun name => (storedAt (parse name).parts arrayOfFive).getD .jstNULL) := by
  refine ⟨⟨[.ofValues [.number (.numberInt 5)]], [[]]⟩, _, by rfl, rfl, by simp, ?_⟩
  have hstored : indexOnA.fieldNames.map
      (fun name => (storedAt (parse name).parts arrayOfFive).getD .jstNULL) =
      [.array [.number (.numberInt 5)]] := by rfl
  simp [hstored, IndexKey.ofValues]

def documentOfFive : BSONObj := [(⟨[0x61], CString.nul_notMem_a⟩, .number (.numberInt 5))]

theorem getKeys_holds_stored_iff_five :
    (IndexKey.ofValues [.number (.numberInt 5)]).obj.map Prod.snd = indexOnA.fieldNames.map
      (fun name => (storedAt (parse name).parts documentOfFive).getD .jstNULL) := by
  have hget : indexOnA.getKeys documentOfFive =
      .ok ⟨[.ofValues [.number (.numberInt 5)]], [[]]⟩ := by rfl
  exact (getKeys_holds_stored_iff indexOnA nonNumeric_indexOnA hget rfl (by simp)).mpr
    (.inr (by decide))

end BtreeKeyGenerator
end MongoServer
