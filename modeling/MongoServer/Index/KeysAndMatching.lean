import MongoServer.Index.KeyExtraction
import MongoServer.Matcher.Comparisons

/-!
The keys of a document in an index on one path, and the equalities on that path that the document
matches. Both go through the same values, apart from nulls, undefined values and arrays.
-/
namespace MongoServer
open ElementPath FieldRef IndexKey MatchExpression List
namespace BtreeKeyGenerator

def pathKeys : List (List UInt8) → BSONObj → List BSONValue
  | [], _ => [.jstNULL]
  | part :: rest, obj =>
      match obj.getField part with
      | none => [.jstNULL]
      | some (.array elems) =>
          if rest.isEmpty then arrayEntries elems
          else (arrayEntries elems).flatMap fun e => pathKeys rest (entryObject e)
      | some (.object fields) => if rest.isEmpty then [.object fields] else pathKeys rest fields
      | some v => if rest.isEmpty then [v] else [.jstNULL]

def fieldKeys (obj : BSONObj) : KeyField → List BSONValue
  | .fixed e => [e]
  | .pending path _ => pathKeys path obj

def entryKeys (rest : List (List UInt8)) (elems : List BSONValue) : List BSONValue :=
  if rest.isEmpty then arrayEntries elems
  else (arrayEntries elems).flatMap fun e => pathKeys rest (entryObject e)

theorem pathKeys_eq (address path : List (List UInt8)) (obj : BSONObj) : pathKeys path obj =
      match extractElementAtPathOrArrayAlongPath address obj path with
      | (none, _) => [.jstNULL]
      | (some ⟨_, .array elems⟩, rest) => entryKeys rest elems
      | (some ⟨_, v⟩, _) => [v] :=
  eq_of_extract (fun v => [v]) (fun _ => rfl) (fun _ _ _ => rfl) address path obj

section Keys
variable {address location : List (List UInt8)} {obj : BSONObj} {f : KeyField}

theorem fieldKeys_of_extracted {v : BSONValue} (h : extracted address obj f = .fixed v) :
    fieldKeys obj f = [v] := by
  cases f with
  | fixed e =>
    injection h with h
    rw [h]
    rfl
  | pending path info =>
    rw [fieldKeys, pathKeys_eq address]
    rcases hext : extractElementAtPathOrArrayAlongPath address obj path with ⟨_ | ⟨location, w⟩, rest⟩
    · simp_all [extracted]
    · cases w <;> simp_all [extracted]

/-- The keys of a field are those of the calls for the entries of its array. -/
theorem fieldKeys_entries {elems : List BSONValue}
    (h : FindsArray address obj (location, elems) f) :
    fieldKeys obj f = (arrayEntries elems).flatMap fun e =>
      fieldKeys (entryObject e) (arrEltFixed e (.array elems) true none (extracted address obj f)) := by
  cases f with
  | fixed e => exact h.elim
  | pending path info =>
    rcases hext : extractElementAtPathOrArrayAlongPath address obj path with ⟨found, rest⟩
    have hfound : found = some ⟨location, .array elems⟩ := by simpa [FindsArray, hext] using h
    subst hfound
    have hin : extracted address obj (.pending path info) = .inArray rest := by
      simp [extracted, hext]
    rw [fieldKeys, pathKeys_eq address, hext, hin]
    cases rest with
    | nil | cons part rest => simp [entryKeys, arrEltFixed, fieldKeys]

def insertValues (keys : List IndexKey) (values : List BSONValue) : List IndexKey :=
  values.foldl (fun keys v => insertKey keys (.ofValues [v])) keys

theorem insertValues_append (keys : List IndexKey) (vs ws : List BSONValue) :
    insertValues keys (vs ++ ws) = insertValues (insertValues keys vs) ws :=
  foldl_append

variable {generator : BtreeKeyGenerator} {n : ℕ} {out out' : GeneratedKeys}

theorem keys_of_single {fuel : ℕ} (hsparse : generator.isSparse = false) (hf : Plain f)
    (h : generator.getKeysImplWithArray fuel [f] address obj n out = .ok out') :
    out'.keys = insertValues out.keys (fieldKeys obj f) := by
  induction fuel generalizing f address obj n out out' with
  | zero => cases h
  | succ fuel ih =>
    have hplain : ∀ g ∈ [f], Plain g := by simpa using hf
    cases hs : extractFields address obj n [f] with
    | error err => simp [getKeysImplWithArray, hs] at h
    | ok s =>
      have hinv := extracted_of_extractFields hplain hs
      rcases harr : s.arrElt with _ | ⟨location, elems⟩
      · obtain ⟨v, hv⟩ := hinv.value_of_no_array harr List.mem_cons_self
        rw [getKeysImplWithArray_of_no_array hplain hs harr] at h
        simp only [hsparse, Bool.false_and, Bool.false_eq_true, if_false, Except.ok.injEq] at h
        subst h
        simp [fieldKeys_of_extracted hv, hv, ExtractedField.value?, insertValues]
      · have hfinds : FindsArray address obj (location, elems) f := by
          obtain ⟨g, hg, hfinds⟩ := (hinv.array _).mp harr
          rwa [← List.mem_singleton.mp hg]
        -- the call for an entry, by induction
        have hentry {e : BSONValue} {location : List (List UInt8)} {out out' : GeneratedKeys}
            (h : generator.getKeysImplWithArray fuel (entryFields address obj elems e [f]) location
              (entryObject e) s.numNotFound out = .ok out') :=
          ih (hf.arrEltFixed e (.array elems) true) h
        rw [fieldKeys_entries hfinds]
        obtain ⟨calls, hcalls, heq⟩ := generator.getKeysImplWithArray_of_array hplain hs harr fuel out
        rw [heq, Transition.map_eq_ok] at h
        obtain ⟨last, hlast, rfl⟩ := h
        have hkeys : last.keys = insertValues out.keys ((calls.map Prod.fst).flatMap fun e =>
            fieldKeys (entryObject e)
              (arrEltFixed e (.array elems) true none (extracted address obj f))) := by
          refine Transition.foldlM_invariant (P := fun done out' =>
            out'.keys = insertValues out.keys ((done.map Prod.fst).flatMap fun e =>
              fieldKeys (entryObject e)
                (arrEltFixed e (.array elems) true none (extracted address obj f)))) rfl ?_ hlast
          intro done entry _ out₁ out₂ hdone hstep
          rw [hentry hstep, hdone, ← insertValues_append]
          simp
        rw [← hcalls]
        split_ifs <;> exact hkeys

end Keys

section Matching

/-- What matches no missing field, null, undefined value or array. -/
structure Selective (q : Option BSONValue → Bool) : Prop where
  missing : q none = false
  null : q (some .jstNULL) = false
  undefined : q (some .undefined) = false
  array : ∀ elems, q (some (.array elems)) = false

variable {q : Option BSONValue → Bool}

theorem Selective.any_arrayEntries (hq : Selective q) (elems : List BSONValue) :
    (arrayEntries elems).any (fun v => q (some v)) = elems.any fun v => q (some v) := by
  cases elems with
  | nil => simp [arrayEntries, hq.undefined]
  | cons v elems => simp [arrayEntries]

theorem pathKeys_nil_obj (path : List (List UInt8)) : pathKeys path [] = [.jstNULL] := by
  cases path with
  | nil => rfl
  | cons part rest => simp [pathKeys]

/-- A path leads to the same values in matching, apart from those that are not selected. -/
theorem Selective.any_fieldElements (hq : Selective q) {part : List UInt8}
    {rest : List (List UInt8)} (hnames : NonNumeric (part :: rest)) (obj : BSONObj) :
    ((fieldElements true true part rest obj).any fun c => q c.element) =
      (pathKeys (part :: rest) obj).any fun v => q (some v) := by
  induction rest generalizing part obj with
  | nil =>
    rw [fieldElements_eq, pathKeys]
    cases hfield : obj.getField part with
    | none => simp [hq.missing, hq.null]
    | some v =>
      cases v with
      | array elems =>
        simp [valueElements, hasMore, leafArray, hq.array, hq.any_arrayEntries, Function.comp_def]
      | _ => simp [valueElements]
  | cons next rest ih =>
    have hrest : NonNumeric (next :: rest) := fun p hp => hnames p (mem_cons_of_mem _ hp)
    have hnext : isAllDigits next = false := hrest next mem_cons_self
    rw [fieldElements_eq, pathKeys]
    cases hfield : obj.getField part with
    | none => simp [hq.missing, hq.null]
    | some v =>
      cases v with
      | object fields => simpa [valueElements] using ih hrest fields
      | array elems =>
        -- an entry that is no document leads nowhere, and is indexed as null
        have hentry (e : BSONValue) :
            ((e.object?.elim [] (fieldElements true true next rest)).any fun c =>
              q c.element) =
            (pathKeys (next :: rest) (entryObject e)).any fun v => q (some v) := by
          cases e with
          | object fields => exact ih hrest fields
          | _ => simp [BSONValue.object?, entryObject, pathKeys_nil_obj, hq.null]
        have hempty : (pathKeys (next :: rest) (entryObject .undefined)).any
            (fun v => q (some v)) = false := by
          simp [entryObject, pathKeys_nil_obj, hq.null]
        simp only [valueElements, hasMore_cons (ne_nil_of_not_digits hnext),
          arrayElements_of_name hnext, if_true, any_flatMap, hentry,
          isEmpty_cons, Bool.false_eq_true, if_false]
        cases elems with
        | nil => simp [arrayEntries, hempty]
        | cons e elems => rfl
      | _ => simp [valueElements, hq.missing, hq.null]

end Matching

section Agreement

theorem exists_mem_insertKey {P : IndexKey → Prop} {keys : List IndexKey} {key : IndexKey}
    (hP : ∀ k, woCompareNested k.obj key.obj = 0 → P key → P k) :
    (∃ k ∈ insertKey keys key, P k) ↔ (∃ k ∈ keys, P k) ∨ P key := by
  unfold insertKey
  split_ifs with h
  · simp only [any_eq_true, decide_eq_true_eq] at h
    obtain ⟨k, hk, hsame⟩ := h
    constructor
    · exact .inl
    · rintro (hex | hkey)
      · exact hex
      · exact ⟨k, hk, hP k hsame hkey⟩
  · simp [or_and_right, exists_or]

/-- A key has an element of the same rank as a value. -/
def HasElement (v : BSONValue) (key : IndexKey) : Prop := ∃ e ∈ key.obj, e.2.rank = v.rank

theorem HasElement.of_compare_eq {v w : BSONValue} {key : IndexKey}
    (h : woCompareNested key.obj (ofValues [w]).obj = 0)
    (hw : HasElement v (.ofValues [w])) : HasElement v key := by
  have hrank : w.rank = v.rank := by simpa [HasElement, ofValues] using hw
  cases hobj : key.obj with
  | nil => simp [hobj, ofValues, woCompareNested] at h
  | cons e rest =>
    obtain ⟨name, u⟩ := e
    have hname : name = CString.empty := key.unnamed (name, u) (by simp [hobj])
    subst hname
    rw [hobj, woCompareNested_eq_iff] at h
    have hu : u.rank = w.rank := (BSONObj.rank_cons_eq_iff.mp h).1
    exact ⟨(CString.empty, u), by simp [hobj], hu.trans hrank⟩

theorem exists_mem_insertValues (v : BSONValue) (values : List BSONValue) (keys : List IndexKey) :
    (∃ key ∈ insertValues keys values, HasElement v key) ↔
      (∃ key ∈ keys, HasElement v key) ∨ ∃ w ∈ values, w.rank = v.rank := by
  induction values generalizing keys with
  | nil => simp [insertValues]
  | cons w values ih =>
    have hfirst : HasElement v (.ofValues [w]) ↔ w.rank = v.rank := by
      simp [HasElement, ofValues]
    have hstep : insertValues keys (w :: values) =
        insertValues (insertKey keys (.ofValues [w])) values := rfl
    rw [hstep, ih, exists_mem_insertKey (fun k => HasElement.of_compare_eq), hfirst]
    simp [or_assoc]

theorem insertKey_ne_nil (keys : List IndexKey) (key : IndexKey) : insertKey keys key ≠ [] := by
  unfold insertKey
  split_ifs with h
  · rintro rfl
    cases h
  · simp

theorem insertValues_ne_nil (keys : List IndexKey) {values : List BSONValue} (h : values ≠ []) :
    insertValues keys values ≠ [] := by
  induction values using reverseRecOn with
  | nil => exact (h rfl).elim
  | append_singleton values v ih =>
    rw [insertValues_append]
    exact insertKey_ne_nil _ _

theorem pathKeys_ne_nil (path : List (List UInt8)) (obj : BSONObj) : pathKeys path obj ≠ [] := by
  induction path generalizing obj with
  | nil => simp [pathKeys]
  | cons part rest ih =>
    have hentries (elems : List BSONValue) : arrayEntries elems ≠ [] := by
      cases elems <;> simp [arrayEntries]
    rw [pathKeys]
    cases hfield : obj.getField part with
    | none => simp
    | some v =>
      cases v with
      | object fields =>
        dsimp only
        split_ifs with hend
        · simp
        · exact ih fields
      | array elems =>
        dsimp only
        split_ifs with hend
        · exact hentries elems
        · obtain ⟨e, entries, heq⟩ := exists_cons_of_ne_nil (hentries elems)
          simp [heq, ih]
      | _ =>
        dsimp only
        split_ifs with hend <;> simp

theorem keys_eq_pathKeys {generator : BtreeKeyGenerator} {path : List UInt8} {doc : BSONObj}
    {out : GeneratedKeys} (hfields : generator.fieldNames = [path])
    (hsparse : generator.isSparse = false) (hnames : NonNumeric (parse path).parts)
    (hid : path = idName → ∀ elems, doc.getField idName ≠ some (.array elems))
    (h : generator.getKeysImpl doc = .ok out) :
    out.keys = insertValues [] (pathKeys (parse path).parts doc) := by
  unfold getKeysImpl at h
  split_ifs at h with hidIndex
  · have hpath : path = idName := by simpa [isIdIndex, hfields] using hidIndex
    have hparts : (parse path).parts = [idName] := by
      rw [hpath]
      decide
    cases h
    rw [hparts, pathKeys]
    cases hfield : doc.getField idName with
    | none => simp [nullKey, hfields, insertValues, insertKey]
    | some v =>
      cases v with
      | array elems => exact (hid hpath elems hfield).elim
      | _ => simp [insertValues, insertKey]
  · have hplain : Plain (.pending (parse path).parts none) := ⟨hnames, rfl⟩
    rw [hfields] at h
    exact keys_of_single hsparse hplain h

variable {Collator : Type*} (lib : MatcherLibrary Collator)

theorem selective_equality {v : BSONValue} (harray : ∀ elems, v ≠ .array elems)
    (hnull : v ≠ .jstNULL) (hundefined : v ≠ .undefined) :
    Selective (comparisonMatches lib .EQ v none) := by
  have hno {w : BSONValue} (htype : canonicalizeBSONType w ≠ canonicalizeBSONType v) :
      comparisonMatches lib .EQ v none (some w) = false := by
    rw [← Bool.not_eq_true, comparisonMatches_eq_iff lib none hnull hundefined]
    rintro ⟨u, hu, hrank⟩
    cases hu
    exact htype (canonicalizeBSONType_of_rank_eq hrank)
  constructor
  · rw [← Bool.not_eq_true, comparisonMatches_eq_iff lib none hnull hundefined]
    simp
  all_goals
    intros
    exact hno (by cases v <;> simp_all [canonicalizeBSONType])

/-- An equality matches a document exactly if the value is one of the document's keys, apart from
arrays as `_id`. -/
theorem getKeys_agrees_with_equality {generator : BtreeKeyGenerator} {path : List UInt8}
    {doc : BSONObj} {out : GeneratedKeys} {v : BSONValue} (hfields : generator.fieldNames = [path])
    (hsparse : generator.isSparse = false) (hnames : NonNumeric (parse path).parts)
    (hid : path = idName → ∀ elems, doc.getField idName ≠ some (.array elems))
    (h : generator.getKeys doc = .ok out) (harray : ∀ elems, v ≠ .array elems)
    (hnull : v ≠ .jstNULL) (hundefined : v ≠ .undefined) :
    MatchExpression.matches lib (.comparison .EQ path v none) doc = true ↔
      ∃ key ∈ out.keys, ∃ e ∈ key.obj, woCompareElement false e (CString.empty, v) = 0 := by
  rw [getKeys, Transition.map_eq_ok] at h
  obtain ⟨generated, hgenerated, rfl⟩ := h
  have hkeys := keys_eq_pathKeys hfields hsparse hnames hid hgenerated
  obtain ⟨part, rest, hparts⟩ : ∃ part rest, (parse path).parts = part :: rest :=
    List.exists_cons_of_ne_nil (generator.pathsValid path (by simp [hfields])).1
  rw [hparts] at hkeys hnames
  have hnonempty : generated.keys.isEmpty = false := by
    rw [hkeys, List.isEmpty_eq_false_iff]
    exact insertValues_ne_nil [] (pathKeys_ne_nil _ doc)
  simp only [hnonempty, Bool.false_and, Bool.false_eq_true, if_false, woCompareElement_eq_iff]
  rw [hkeys]
  have hexists := exists_mem_insertValues v (pathKeys (part :: rest) doc) []
  simp only [HasElement, List.not_mem_nil, false_and, exists_false, false_or] at hexists
  rw [hexists, MatchExpression.matches, leafMatches, elements, init, hparts]
  simp only
  rw [(selective_equality lib harray hnull hundefined).any_fieldElements hnames]
  simp [List.any_eq_true, comparisonMatches_eq_iff lib none hnull hundefined]

def indexOnId : BtreeKeyGenerator := ⟨[idName], false, by decide⟩

def numberOne : BSONValue := .number (.numberInt 1)

def arrayAsId : BSONObj := [(⟨idName, by decide⟩, .array [numberOne])]

/-- The key is the whole array, and the array has a number that matches. -/
theorem getKeys_arrayAsId : ∃ out, indexOnId.getKeys arrayAsId = .ok out ∧
      MatchExpression.matches .plain (.comparison .EQ idName numberOne none) arrayAsId = true ∧
      ¬∃ key ∈ out.keys, ∃ e ∈ key.obj, woCompareElement false e (CString.empty, numberOne) = 0 := by
  refine ⟨⟨[.ofValues [.array [numberOne]]], [[]]⟩, by rfl, by decide +kernel, ?_⟩
  simp [ofValues, numberOne, woCompareElement, elementOrder, canonicalizeBSONType,
    BSONValue.isNumber]

def indexOnNumbers : BtreeKeyGenerator := ⟨[[0x61, 0x2e, 0x62]], false, by decide⟩

def listOfNumbers : BSONObj :=
  [(⟨[0x61], CString.nul_notMem_a⟩, .array [.object [(⟨[0x62], CString.nul_notMem_b⟩, numberOne)],
    .object [(⟨[0x62], CString.nul_notMem_b⟩, .number (.numberInt 2))]])]

theorem getKeys_agrees_with_equality_listOfNumbers :
    ∃ key ∈ [ofValues [numberOne], ofValues [.number (.numberInt 2)]],
      ∃ e ∈ key.obj, woCompareElement false e (CString.empty, numberOne) = 0 := by
  have hget : indexOnNumbers.getKeys listOfNumbers = .ok
      ⟨[.ofValues [numberOne], .ofValues [.number (.numberInt 2)]], [[0]]⟩ := by rfl
  have hnames : NonNumeric (parse [0x61, 0x2e, 0x62]).parts := by
    have hparts : ∀ part ∈ (parse [0x61, 0x2e, 0x62]).parts, isAllDigits part = false := by
      decide
    exact hparts
  exact (getKeys_agrees_with_equality .plain rfl rfl hnames (by simp [idName]) hget (by simp [numberOne])
    (by simp [numberOne]) (by simp [numberOne])).mp (by decide +kernel)

end Agreement

end BtreeKeyGenerator
end MongoServer
