import MongoServer.Storage.WiredTigerIndex

/-!
Unique indexes on a table from key strings to value bytes. A value lists the record ids of
its key, each followed by the type bits of the key it was inserted with; type bits that
are all zero are left out when there is only one id.
-/
namespace MongoServer
open OrderedTable KeyString WiredTigerIndex List TypeBits

namespace KeyString.TypeBits

/-- `KeyString::appendTypeBits`: zeros only are a single zero byte. -/
def appendTypeBits (tb : TypeBits) : List UInt8 := if tb.isAllZeros then [0] else tb.getBuffer

end KeyString.TypeBits

namespace WiredTigerIndexUnique

inductive Status where
  | ok
  | duplicateKey (key : BSONObj)

variable (cfg : Config) {fuel : ℕ} (record : RecordId × TypeBits)

def keyString (key : IndexKey) : Option (ByteKey × TypeBits) := do
  let data ← appendAllElementsForIndexing cfg.keyStringVersion key.obj cfg.ordering .kInclusive
  return (⟨data.bytes⟩, reset.appendBits data.bits)

/-- The result of walking through an old value. -/
inductive Merge where
  | alreadyInIndex
  | merged (insertedId : Bool) (value : List UInt8)

/-- The loop of `_insert` over the bytes `br` of the old value, which adds to `value`. -/
def mergeLoop (id : RecordId) (typeBits : TypeBits) :
    ℕ → Bool → List UInt8 → List UInt8 → Option Merge
  | 0, _, _, _ => none
  | fuel + 1, insertedId, value, br =>
      if br.isEmpty then some (.merged insertedId value)
      else do
        let (idInIndex, br) ← decodeRecordId br
        if id = idInIndex then return .alreadyInIndex
        else do
          let here := !insertedId && decide (id < idInIndex)
          let new ← appendRecordId id
          let value := if here then value ++ new ++ typeBits.appendTypeBits else value
          let old ← appendRecordId idInIndex
          let (oldBits, br) ← fromBuffer br
          mergeLoop id typeBits fuel (insertedId || here) (value ++ old ++ oldBits.appendTypeBits) br

/-- `none` is a failed invariant or a value that does not parse. -/
def insert (t : IndexTable) (key : IndexKey) (id : RecordId) (dupsAllowed : Bool) :
    Option (Status × IndexTable) := do
  let (keyItem, typeBits) ← keyString cfg key
  let newId ← appendRecordId id
  let value := if typeBits.isAllZeros then newId else newId ++ typeBits.appendTypeBits
  match t.insert keyItem value with
  | some t' => return (.ok, t')
  | none => do
      let old ← t.search keyItem
      match ← mergeLoop id typeBits (old.length + 1) false [] old with
      | .alreadyInIndex => return (.ok, t)
      | .merged insertedId value =>
          if !dupsAllowed then return (.duplicateKey key.obj, t)
          else do
            let value := if insertedId then value else value ++ newId ++ typeBits.appendTypeBits
            let t' ← t.update keyItem value
            return (.ok, t')

/-- The loop of `_unindex`: the records other than `id`, and whether `id` was found.
The outer `none` is a value that does not parse; the inner one, that `id` is alone. -/
def collectLoop (id : RecordId) : ℕ → Bool → List (RecordId × TypeBits) → List UInt8 →
    Option (Option (Bool × List (RecordId × TypeBits)))
  | 0, _, _, _ => none
  | fuel + 1, foundId, records, br =>
      if br.isEmpty then some (some (foundId, records))
      else do
        let (idInIndex, br) ← decodeRecordId br
        let (typeBits, br) ← fromBuffer br
        if id = idInIndex then
          if records.isEmpty && br.isEmpty then return none
          else collectLoop id fuel true records br
        else collectLoop id fuel foundId (records ++ [(idInIndex, typeBits)]) br

/-- The value for the records of a key, at least one. -/
def valueOf (records : List (RecordId × TypeBits)) : Option (List UInt8) := do
  let parts ← records.mapM fun (id, typeBits) => do
    let newId ← appendRecordId id
    return if typeBits.isAllZeros && records.length == 1 then newId
      else newId ++ typeBits.appendTypeBits
  return parts.flatten

def unindex (t : IndexTable) (key : IndexKey) (id : RecordId) (dupsAllowed : Bool) :
    Option IndexTable := do
  let (keyItem, _) ← keyString cfg key
  if !dupsAllowed then
    match t.search keyItem with
    | none => triggerWriteConflictAtPoint t keyItem
    | some value =>
        if cfg.isPartial then
          let (idInIndex, br) ← decodeRecordId value
          if idInIndex ≠ id then return t
          else do
            let (_, br) ← fromBuffer br
            if br.isEmpty then t.remove keyItem else none
        else t.remove keyItem
  else
    match t.search keyItem with
    | none => triggerWriteConflictAtPoint t keyItem
    | some old => do
        match ← collectLoop id (old.length + 1) false [] old with
        | none => t.remove keyItem
        | some (foundId, records) =>
            if !foundId then return t
            else if records.isEmpty then none
            else do
              let newValue ← valueOf records
              t.update keyItem newValue

def decodeValue : ℕ → List UInt8 → Option (List (RecordId × TypeBits))
  | 0, _ => none
  | fuel + 1, br =>
      if br.isEmpty then some []
      else do
        let (id, br) ← decodeRecordId br
        let (typeBits, br) ← fromBuffer br
        let rest ← decodeValue fuel br
        return (id, typeBits) :: rest

section Parsing

/-- The records that reading a value to its end produces. -/
inductive Parses : List UInt8 → List (RecordId × TypeBits) → Prop
  | nil : Parses [] []
  | cons {br br₁ br₂ : List UInt8} {id : RecordId} {typeBits : TypeBits}
      {records : List (RecordId × TypeBits)} (hid : decodeRecordId br = some (id, br₁))
      (hbits : fromBuffer br₁ = some (typeBits, br₂)) (hlt : br₂.length < br.length)
      (hrest : Parses br₂ records) : Parses br ((id, typeBits) :: records)

variable {records : List (RecordId × TypeBits)} {br : List UInt8}

theorem Parses.isEmpty_eq (h : Parses br records) : br.isEmpty = records.isEmpty := by
  cases h with
  | nil => rfl
  | @cons _ _ _ _ _ _ _ _ hlt _ =>
    cases br with
    | nil => simp at hlt
    | cons b bs => rfl

/-- The records read with `fuel` rounds of a loop. -/
inductive ParsesIn : ℕ → List UInt8 → List (RecordId × TypeBits) → Prop
  | nil {fuel : ℕ} : ParsesIn (fuel + 1) [] []
  | cons {fuel : ℕ} {br br₁ br₂ : List UInt8} {record : RecordId × TypeBits}
      {records : List (RecordId × TypeBits)} (hne : br.isEmpty = false)
      (hid : decodeRecordId br = some (record.1, br₁))
      (hbits : fromBuffer br₁ = some (record.2, br₂))
      (hrest : ParsesIn fuel br₂ records) : ParsesIn (fuel + 1) br (record :: records)

theorem Parses.within (h : Parses br records) (hfuel : br.length < fuel) :
    ParsesIn fuel br records := by
  induction h generalizing fuel with
  | nil =>
    obtain ⟨fuel, rfl⟩ := Nat.exists_eq_add_of_lt hfuel
    exact ParsesIn.nil
  | @cons br br₁ br₂ id typeBits records hid hbits hlt hrest ih =>
    cases fuel with
    | zero => omega
    | succ fuel =>
      exact .cons (Parses.cons hid hbits hlt hrest).isEmpty_eq hid hbits (ih (by omega))

theorem ParsesIn.isEmpty_eq (h : ParsesIn fuel br records) : br.isEmpty = records.isEmpty := by
  cases h with
  | nil => rfl
  | cons hne _ _ _ => exact hne

theorem Parses.rounds (h : Parses br records) : ParsesIn (br.length + 1) br records :=
  h.within (Nat.lt_succ_self _)

theorem ParsesIn.decodeValue_eq (h : ParsesIn fuel br records) :
    decodeValue fuel br = some records := by
  induction h with
  | nil => rfl
  | cons hne hid hbits _ ih => simp [decodeValue, hne, hid, hbits, ih]

/-- A record as it can stand in a value. -/
structure ValidRecord (record : RecordId × TypeBits) : Prop where
  normal : record.1.isNormal
  wellFormed : record.2.WellFormed
  canonical : record.2.reread = record.2

def recordBytes : List UInt8 :=
  idBytes record.1 ++ record.2.appendTypeBits

theorem fromBuffer_appendTypeBits {tb : TypeBits} (h : tb.WellFormed) (rest : List UInt8) :
    fromBuffer (tb.appendTypeBits ++ rest) = some (tb.reread, rest) := by
  cases hz : tb.isAllZeros with
  | true =>
    rw [TypeBits.appendTypeBits, if_pos hz, TypeBits.reread, if_pos hz]
    rfl
  | false =>
    rw [TypeBits.appendTypeBits, if_neg (by simp [hz])]
    exact fromBuffer_getBuffer h rest

theorem length_idBytes_pos {id : RecordId} (h : id.isNormal) : 0 < (idBytes id).length := by
  rw [idBytes, length_recordIdBytes (toNat_lt_of_nonneg h.1.le)]
  omega

theorem Parses.append_record {record : RecordId × TypeBits} (h : ValidRecord record)
    (hrest : Parses br records) : Parses (recordBytes record ++ br) (record :: records) := by
  have hid : decodeRecordId (recordBytes record ++ br) =
      some (record.1, record.2.appendTypeBits ++ br) := by
    rw [recordBytes, append_assoc, decodeRecordId_bytes h.normal.1.le]
  have hbits := fromBuffer_appendTypeBits h.wellFormed br
  rw [h.canonical] at hbits
  have hpos := length_idBytes_pos h.normal
  refine Parses.cons hid hbits ?_ hrest
  simp only [recordBytes, length_append]
  omega

theorem parses_records (h : ∀ record ∈ records, ValidRecord record) :
    Parses (records.flatMap recordBytes) records := by
  induction records with
  | nil => exact Parses.nil
  | cons record records ih =>
    rw [flatMap_cons]
    exact (ih (forall_mem_cons.mp h).2).append_record (h record mem_cons_self)

theorem parses_single {id : RecordId} (h : id.isNormal) : Parses (idBytes id) [(id, reset)] := by
  have hid := decodeRecordId_bytes h.1.le []
  rw [append_nil] at hid
  exact Parses.cons hid rfl (length_idBytes_pos h) Parses.nil

end Parsing

section Loops
variable {id : RecordId} {typeBits : TypeBits} {br : List UInt8}
  {records : List (RecordId × TypeBits)}

/-- A new record in front of the first greater id. -/
def insertSorted (new : RecordId × TypeBits) :
    List (RecordId × TypeBits) → List (RecordId × TypeBits)
  | [] => [new]
  | record :: records =>
      if new.1 < record.1 then new :: record :: records else record :: insertSorted new records

theorem mem_insertSorted (new record : RecordId × TypeBits) :
    record ∈ insertSorted new records ↔ record = new ∨ record ∈ records := by
  induction records with
  | nil => simp [insertSorted]
  | cons head records ih =>
    rw [insertSorted]
    split_ifs with hlt
    · simp
    · simp only [mem_cons, ih]
      tauto

theorem pairwise_insertSorted {new : RecordId × TypeBits}
    (hsorted : records.Pairwise (·.1 < ·.1)) (hnew : ∀ record ∈ records, record.1 ≠ new.1) :
    (insertSorted new records).Pairwise (·.1 < ·.1) := by
  induction records with
  | nil => exact pairwise_singleton _ _
  | cons head records ih =>
    rw [pairwise_cons] at hsorted
    obtain ⟨hhead, htail⟩ := hsorted
    rw [insertSorted]
    split_ifs with hlt
    · refine pairwise_cons.mpr ⟨?_, pairwise_cons.mpr ⟨hhead, htail⟩⟩
      exact forall_mem_cons.mpr ⟨hlt, fun record hrecord =>
        RecordId.lt_trans hlt (hhead record hrecord)⟩
    · refine pairwise_cons.mpr ⟨?_, ih htail (forall_mem_cons.mp hnew).2⟩
      intro record hrecord
      rcases (mem_insertSorted new record).mp hrecord with rfl | hrecord
      · by_contra hnot
        exact hnew head mem_cons_self (RecordId.eq_of_not_lt hnot hlt)
      · exact hhead record hrecord

theorem mergeLoop_cons (hnormal : id.isNormal) {record : RecordId × TypeBits}
    (hrecord : record.1.isNormal) {br₁ br₂ : List UInt8}
    (hid : decodeRecordId br = some (record.1, br₁))
    (hbits : fromBuffer br₁ = some (record.2, br₂)) (hne : br.isEmpty = false)
    (fuel : ℕ) (insertedId : Bool) (value : List UInt8) :
    mergeLoop id typeBits (fuel + 1) insertedId value br =
      if id = record.1 then some .alreadyInIndex
      else
        mergeLoop id typeBits fuel (insertedId || (!insertedId && decide (id < record.1)))
          ((if !insertedId && decide (id < record.1) then value ++ recordBytes (id, typeBits)
            else value) ++ recordBytes record) br₂ := by
  rw [mergeLoop, if_neg (by simp [hne]), hid]
  by_cases heq : id = record.1
  · simp [heq]
  · simp [heq, appendRecordId_eq hnormal.1.le, appendRecordId_eq hrecord.1.le, hbits, recordBytes,
      append_assoc]

theorem mergeLoop_copies (typeBits : TypeBits) (hnormal : id.isNormal)
    (h : ParsesIn fuel br records) (hvalid : ∀ record ∈ records, ValidRecord record)
    (hnew : ∀ record ∈ records, record.1 ≠ id) (value : List UInt8) :
    mergeLoop id typeBits fuel true value br =
      some (.merged true (value ++ records.flatMap recordBytes)) := by
  induction h generalizing value with
  | nil => simp [mergeLoop]
  | cons hne hid hbits _ ih =>
    obtain ⟨hrecord, hvalid⟩ := forall_mem_cons.mp hvalid
    obtain ⟨hi, hnew⟩ := forall_mem_cons.mp hnew
    rw [mergeLoop_cons hnormal hrecord.normal hid hbits hne]
    simp [hi.symm, ih hvalid hnew]

theorem mergeLoop_new {readBits : TypeBits}
    (hread : recordBytes (id, typeBits) = recordBytes (id, readBits)) (hnormal : id.isNormal)
    (h : ParsesIn fuel br records) (hvalid : ∀ record ∈ records, ValidRecord record)
    (hnew : ∀ record ∈ records, record.1 ≠ id) (value : List UInt8) :
    ∃ insertedId merged,
      mergeLoop id typeBits fuel false value br = some (.merged insertedId merged) ∧
      (if insertedId then merged else merged ++ recordBytes (id, typeBits)) =
        value ++ (insertSorted (id, readBits) records).flatMap recordBytes := by
  induction h generalizing value with
  | nil => exact ⟨false, value, by simp [mergeLoop], by simp [insertSorted, hread]⟩
  | @cons _ _ _ _ record _ hne hid hbits hrest ih =>
    obtain ⟨hrecord, hvalid⟩ := forall_mem_cons.mp hvalid
    obtain ⟨hi, hnew⟩ := forall_mem_cons.mp hnew
    rw [mergeLoop_cons hnormal hrecord.normal hid hbits hne, if_neg hi.symm]
    by_cases hbefore : id < record.1
    · have hcopy := mergeLoop_copies typeBits hnormal hrest hvalid hnew
        (value ++ recordBytes (id, typeBits) ++ recordBytes record)
      refine ⟨true, _, by simpa [hbefore] using hcopy, ?_⟩
      simp [insertSorted, hbefore, hread]
    · obtain ⟨insertedId, merged, hrun, hbytes⟩ := ih hvalid hnew (value ++ recordBytes record)
      refine ⟨insertedId, merged, by simpa [hbefore] using hrun, ?_⟩
      rw [hbytes]
      simp [insertSorted, hbefore]

theorem mergeLoop_present (typeBits : TypeBits) (hnormal : id.isNormal)
    (h : ParsesIn fuel br records) (hvalid : ∀ record ∈ records, ValidRecord record)
    (hmem : id ∈ records.map Prod.fst) (insertedId : Bool) (value : List UInt8) :
    mergeLoop id typeBits fuel insertedId value br = some .alreadyInIndex := by
  induction h generalizing insertedId value with
  | nil => simp at hmem
  | @cons _ _ _ _ record _ hne hid hbits _ ih =>
    obtain ⟨hrecord, hvalid⟩ := forall_mem_cons.mp hvalid
    rw [mergeLoop_cons hnormal hrecord.normal hid hbits hne]
    by_cases hi : id = record.1
    · rw [if_pos hi]
    · rw [if_neg hi]
      exact ih hvalid ((mem_cons.mp hmem).resolve_left hi) _ _

theorem collectLoop_cons {br₁ br₂ : List UInt8} (hid : decodeRecordId br = some (record.1, br₁))
    (hbits : fromBuffer br₁ = some (record.2, br₂)) (hne : br.isEmpty = false)
    (fuel : ℕ) (foundId : Bool) (kept : List (RecordId × TypeBits)) :
    collectLoop id (fuel + 1) foundId kept br =
      if id = record.1 then
        if kept.isEmpty && br₂.isEmpty then some none else collectLoop id fuel true kept br₂
      else collectLoop id fuel foundId (kept ++ [record]) br₂ := by
  rw [collectLoop, if_neg (by simp [hne]), hid]
  simp only [Option.bind_eq_bind, Option.bind_some, hbits]
  rfl

theorem collectLoop_absent (h : ParsesIn fuel br records) (hnew : ∀ record ∈ records, record.1 ≠ id)
    (foundId : Bool) (kept : List (RecordId × TypeBits)) :
    collectLoop id fuel foundId kept br = some (some (foundId, kept ++ records)) := by
  induction h generalizing kept with
  | nil => simp [collectLoop]
  | cons hne hid hbits _ ih =>
    obtain ⟨hi, hnew⟩ := forall_mem_cons.mp hnew
    rw [collectLoop_cons _ hid hbits hne, if_neg hi.symm, ih hnew]
    simp

theorem collectLoop_present (h : ParsesIn fuel br records) (hsorted : records.Pairwise (·.1 < ·.1))
    (hmem : id ∈ records.map Prod.fst) (foundId : Bool) (kept : List (RecordId × TypeBits)) :
    collectLoop id fuel foundId kept br =
      some (if (kept ++ records.filter (·.1 ≠ id)).isEmpty then none
        else some (true, kept ++ records.filter (·.1 ≠ id))) := by
  induction h generalizing foundId kept with
  | nil => simp at hmem
  | @cons _ _ _ _ record records hne hid hbits hrest ih =>
    obtain ⟨hhead, htail⟩ := pairwise_cons.mp hsorted
    rw [collectLoop_cons _ hid hbits hne]
    by_cases hi : id = record.1
    · have hothers : ∀ other ∈ records, other.1 ≠ id := by
        intro other hother heq
        have hlt := hhead other hother
        rw [heq, hi] at hlt
        exact RecordId.lt_irrefl _ hlt
      have hfilter : (record :: records).filter (·.1 ≠ id) = records := by
        rw [filter_cons_of_neg (by simp [hi]), filter_eq_self]
        intro other hother
        simpa using hothers other hother
      have hempty : (kept ++ records).isEmpty = (kept.isEmpty && records.isEmpty) := by
        cases kept <;> simp
      rw [if_pos hi, hfilter, hrest.isEmpty_eq, ← hempty, collectLoop_absent hrest hothers]
      split_ifs <;> rfl
    · have hfilter : (record :: records).filter (·.1 ≠ id) = record :: records.filter (·.1 ≠ id) :=
        filter_cons_of_pos (by simpa using fun he => hi he.symm)
      rw [if_neg hi, ih htail ((mem_cons.mp hmem).resolve_left hi), hfilter]
      simp

theorem mapM_eq_map {α β : Type} {f : α → Option β} {g : α → β} {l : List α}
    (h : ∀ x ∈ l, f x = some (g x)) : l.mapM f = some (l.map g) := by
  induction l with
  | nil => rfl
  | cons x l ih =>
    rw [mapM_cons, h x mem_cons_self, ih (forall_mem_cons.mp h).2]
    rfl

/-- The value written for some records reads back as those records. -/
theorem parses_valueOf (hne : records ≠ []) (hvalid : ∀ record ∈ records, ValidRecord record) :
    ∃ value, valueOf records = some value ∧ Parses value records := by
  by_cases hsingle : ∃ i tb, records = [(i, tb)] ∧ tb.isAllZeros = true
  · obtain ⟨i, tb, rfl, hz⟩ := hsingle
    have hrecord := hvalid (i, tb) mem_cons_self
    have hcanon : tb.reread = tb := hrecord.canonical
    have htb : tb = reset := by
      rw [← hcanon, reread, if_pos hz]
    refine ⟨idBytes i, ?_, ?_⟩
    · simp [valueOf, appendRecordId_eq hrecord.normal.1.le, hz]
    · rw [htb]
      exact parses_single hrecord.normal
  · have hparts : ∀ record ∈ records, (do
        let newId ← appendRecordId record.1
        return if record.2.isAllZeros && records.length == 1 then newId
          else newId ++ record.2.appendTypeBits : Option (List UInt8)) =
          some (recordBytes record) := by
      intro record hrecord
      have hnot : (record.2.isAllZeros && records.length == 1) = false := by
        rw [Bool.and_eq_false_iff]
        by_contra hboth
        rw [not_or] at hboth
        have hlen : records.length = 1 := by simpa using hboth.2
        obtain ⟨e, rfl⟩ := length_eq_one_iff.mp hlen
        obtain rfl := mem_singleton.mp hrecord
        exact hsingle ⟨record.1, record.2, rfl, by simpa using hboth.1⟩
      simp [appendRecordId_eq (hvalid record hrecord).normal.1.le, hnot, recordBytes]
    refine ⟨records.flatMap recordBytes, ?_, parses_records hvalid⟩
    have hmap := mapM_eq_map hparts
    rw [valueOf, hmap]
    simp [List.flatMap]

end Loops

end WiredTigerIndexUnique
end MongoServer
