import MongoServer.Storage.UniqueIndex
import MongoServer.Transition.Runs

/-!
What the values of a unique index mean. `Contents` is the index as a map from keys and
record ids to type bits, `Represents` ties a table to it, and every call on the table does
to the contents what its name says.
-/
namespace MongoServer
namespace WiredTigerIndexUnique
open OrderedTable KeyString WiredTigerIndex Function TypeBits List

variable (cfg : Config) (calls : List Call) {ids : RecordId → Option TypeBits} {tb : TypeBits}

section Contents

/-- What an index means: the type bits of each record id under each key. -/
abbrev Contents := ByteKey → RecordId → Option TypeBits

/-- A present id keeps its type bits. -/
def Contents.insert (c : Contents) (key : ByteKey) (id : RecordId) (typeBits : TypeBits) :
    Contents :=
  if (c key id).isSome then c
  else update c key (update (c key) id (some typeBits))

def Contents.unindex (c : Contents) (key : ByteKey) (id : RecordId) : Contents :=
  update c key (update (c key) id none)

/-- A value that lists these records, each id once and in order. -/
structure Lists (value : List UInt8) (records : List (RecordId × TypeBits)) : Prop where
  parses : Parses value records
  nonempty : records ≠ []
  sorted : records.Pairwise (·.1 < ·.1)
  valid : ∀ record ∈ records, ValidRecord record

/-- The value of a key stands for the contents under it. -/
def Stands : Option (List UInt8) → (RecordId → Option TypeBits) → Prop
  | none, ids => ∀ id, ids id = none
  | some value, ids => ∃ records, Lists value records ∧
      ∀ id typeBits, (id, typeBits) ∈ records ↔ ids id = some typeBits

def Represents (t : IndexTable) (c : Contents) : Prop := ∀ key, Stands (t.search key) (c key)

variable {t t' : IndexTable} {c : Contents} {k : ByteKey}

theorem Represents.stands {value : Option (List UInt8)} (h : Represents t c)
    (hsearch : t.search k = value) : Stands value (c k) :=
  hsearch ▸ h k

theorem Represents.replace (h : Represents t c) {value : Option (List UInt8)}
    (hstands : Stands value ids)
    (hsearch : ∀ j, t'.search j = if j = k then value else t.search j) :
    Represents t' (update c k ids) := by
  intro j
  rw [hsearch j]
  by_cases hj : j = k
  · subst hj
    simpa using hstands
  · simpa [hj] using h j

theorem recordBytes_reread (id : RecordId) (tb : TypeBits) :
    recordBytes (id, tb) = recordBytes (id, tb.reread) := by
  cases hz : tb.isAllZeros with
  | true => simp [recordBytes, TypeBits.appendTypeBits, TypeBits.reread, hz, TypeBits.reset]
  | false =>
    simp [recordBytes, TypeBits.appendTypeBits, TypeBits.reread, hz, TypeBits.getBuffer,
      TypeBits.getSize]

theorem validRecord_reread {id : RecordId} (h : id.isNormal) (htb : tb.WellFormed) :
    ValidRecord (id, tb.reread) := by
  cases hz : tb.isAllZeros with
  | true =>
    have hre : tb.reread = reset := by simp [reread, hz]
    rw [hre]
    exact ⟨h, (packs_reset).wellFormed (Nat.zero_le _), rfl⟩
  | false =>
    have hre : tb.reread = ⟨0, false, tb.data⟩ := by simp [reread, hz]
    rw [hre]
    refine ⟨h, ⟨htb.fits, by simp, fun _ => htb.nonempty hz, fun _ => htb.single hz⟩, rfl⟩

end Contents

section Refinement
variable {t : IndexTable} {c : Contents}

def keyItem (key : IndexKey) : ByteKey :=
  ⟨(elements cfg.keyStringVersion cfg.ordering 0 key.obj).bytes ++ [kEnd]⟩

theorem keyString_eq (key : IndexKey) :
    keyString cfg key = some (keyItem cfg key, keyTypeBits cfg key) := by
  rw [keyString, appendAllElementsForIndexing_key]
  simp [keyItem, keyTypeBits, ByteOrder.flipIf]

variable {id : RecordId} {records : List (RecordId × TypeBits)}

theorem lists_first (hid : id.isNormal) (htb : tb.WellFormed) :
    Lists (if tb.isAllZeros then idBytes id else idBytes id ++ tb.appendTypeBits)
      [(id, tb.reread)] where
  parses := by
    cases hz : tb.isAllZeros with
    | true =>
      have hre : tb.reread = reset := by simp [reread, hz]
      rw [hre]
      exact parses_single hid
    | false =>
      have hparse := Parses.nil.append_record (validRecord_reread hid htb)
      rw [append_nil, ← recordBytes_reread] at hparse
      exact hparse
  nonempty := cons_ne_nil _ _
  sorted := pairwise_singleton _ _
  valid := by
    intro record hrecord
    rw [mem_singleton.mp hrecord]
    exact validRecord_reread hid htb

theorem Contents.insert_of_none {k : ByteKey} (h : c k id = none) (typeBits : TypeBits) :
    c.insert k id typeBits = update c k (update (c k) id (some typeBits)) := by
  rw [Contents.insert, if_neg (by simp [h])]

theorem insert_key (h : Represents t c) (key : IndexableKey) (hid : id.isNormal)
    (habsent : t.search (keyItem cfg key.toIndexKey) = none) (dupsAllowed : Bool) :
    ∃ t', insert cfg t key.toIndexKey id dupsAllowed = some (.ok, t') ∧ Represents t'
        (c.insert (keyItem cfg key.toIndexKey) id (storedTypeBits cfg key.toIndexKey)) := by
  have hnone : ∀ i, c (keyItem cfg key.toIndexKey) i = none := h.stands habsent
  obtain ⟨t', hinsert⟩ := Table.exists_insert habsent
    (if (keyTypeBits cfg key.toIndexKey).isAllZeros then idBytes id
      else idBytes id ++ (keyTypeBits cfg key.toIndexKey).appendTypeBits)
  refine ⟨t', ?_, ?_⟩
  · simp [insert, keyString_eq, appendRecordId_eq hid.1.le, hinsert]
  · rw [Contents.insert_of_none (hnone id)]
    refine h.replace ?_ (Table.search_of_insert hinsert)
    refine ⟨_, lists_first hid (wellFormed_keyTypeBits cfg key), fun i tb => ?_⟩
    by_cases hi : i = id
    · subst hi
      simp [storedTypeBits, eq_comm]
    · simp [hi, hnone i]

theorem insert_present (h : Represents t c) (key : IndexableKey) (hid : id.isNormal)
    (hpresent : c (keyItem cfg key.toIndexKey) id = some tb) (dupsAllowed : Bool) :
    insert cfg t key.toIndexKey id dupsAllowed = some (.ok, t) := by
  cases hsearch : t.search (keyItem cfg key.toIndexKey) with
  | none =>
    have hnone : c (keyItem cfg key.toIndexKey) id = none := h.stands hsearch id
    simp [hnone] at hpresent
  | some value =>
    obtain ⟨records, hlists, hmem⟩ := h.stands hsearch
    have hmerge := mergeLoop_present (keyTypeBits cfg key.toIndexKey) hid
      hlists.parses.rounds hlists.valid (mem_map_of_mem ((hmem id tb).mpr hpresent))
      false []
    simp [insert, keyString_eq, appendRecordId_eq hid.1.le, Table.insert_eq_none hsearch, hsearch, hmerge]

theorem others_of_none (hmem : ∀ i tb, (i, tb) ∈ records ↔ ids i = some tb)
    (hnone : ids id = none) : ∀ record ∈ records, record.1 ≠ id := by
  intro record hrecord heq
  have hsome := (hmem record.1 record.2).mp hrecord
  simp [heq, hnone] at hsome

theorem insert_further (h : Represents t c) (key : IndexableKey) (hid : id.isNormal)
    (hnew : c (keyItem cfg key.toIndexKey) id = none) {value : List UInt8}
    (hsearch : t.search (keyItem cfg key.toIndexKey) = some value) :
    insert cfg t key.toIndexKey id false = some (.duplicateKey key.obj, t) ∧
      ∃ t', insert cfg t key.toIndexKey id true = some (.ok, t') ∧ Represents t'
          (c.insert (keyItem cfg key.toIndexKey) id (storedTypeBits cfg key.toIndexKey)) := by
  obtain ⟨records, hlists, hmem⟩ := h.stands hsearch
  have hothers := others_of_none hmem hnew
  obtain ⟨insertedId, merged, hmerge, hbytes⟩ := mergeLoop_new
    (recordBytes_reread id (keyTypeBits cfg key.toIndexKey)) hid hlists.parses.rounds
    hlists.valid hothers []
  rw [nil_append] at hbytes
  have hvalid : ∀ record ∈ insertSorted (id, storedTypeBits cfg key.toIndexKey) records,
      ValidRecord record := by
    intro record hrecord
    rcases (mem_insertSorted _ record).mp hrecord with rfl | hrecord
    · exact validRecord_reread hid (wellFormed_keyTypeBits cfg key)
    · exact hlists.valid record hrecord
  obtain ⟨t', hupdate⟩ := Table.exists_update hsearch
    ((insertSorted (id, storedTypeBits cfg key.toIndexKey) records).flatMap recordBytes)
  refine ⟨?_, t', ?_, ?_⟩
  · simp [insert, keyString_eq, appendRecordId_eq hid.1.le, Table.insert_eq_none hsearch, hsearch,
      hmerge]
  · have hvalue : (if insertedId = true then merged else merged ++ (idBytes id ++
        (keyTypeBits cfg key.toIndexKey).appendTypeBits)) =
          (insertSorted (id, storedTypeBits cfg key.toIndexKey) records).flatMap recordBytes :=
      hbytes
    simp [insert, keyString_eq, appendRecordId_eq hid.1.le, Table.insert_eq_none hsearch, hsearch,
      hmerge, hvalue, hupdate]
  · rw [Contents.insert_of_none hnew]
    refine h.replace ?_ (Table.search_of_update hupdate)
    refine ⟨_, ⟨parses_records hvalid, ?_, pairwise_insertSorted hlists.sorted hothers, hvalid⟩, ?_⟩
    · intro hnil
      have hself : (id, storedTypeBits cfg key.toIndexKey) ∈
          insertSorted (id, storedTypeBits cfg key.toIndexKey) records :=
        (mem_insertSorted _ _).mpr (.inl rfl)
      simp [hnil] at hself
    · intro i tb
      rw [mem_insertSorted]
      by_cases hi : i = id
      · subst hi
        have hnot : (i, tb) ∉ records := fun hin => hothers (i, tb) hin rfl
        simp [hnot, eq_comm]
      · simp [hi, hmem i tb]

theorem Contents.unindex_of_none {k : ByteKey} (h : c k id = none) : c.unindex k id = c := by
  rw [Contents.unindex, ← h, update_eq_self, update_eq_self]

theorem Lists.without {value : List UInt8}
    (h : Lists value records) (hne : records.filter (·.1 ≠ id) ≠ []) :
    ∃ rest, valueOf (records.filter (·.1 ≠ id)) = some rest ∧
      Lists rest (records.filter (·.1 ≠ id)) := by
  have hvalid : ∀ record ∈ records.filter (·.1 ≠ id), ValidRecord record :=
    fun record hrecord => h.valid record (mem_filter.mp hrecord).1
  obtain ⟨rest, hrest, hparses⟩ := parses_valueOf hne hvalid
  exact ⟨rest, hrest, hparses, hne, h.sorted.filter _, hvalid⟩

theorem mem_without
    (hmem : ∀ i tb, (i, tb) ∈ records ↔ ids i = some tb) (id i : RecordId) (tb : TypeBits) :
    (i, tb) ∈ records.filter (·.1 ≠ id) ↔ update ids id none i = some tb := by
  by_cases hi : i = id
  · simp [hi]
  · simp [hi, hmem i tb]

theorem unindex_spec (h : Represents t c) (key : IndexKey) (id : RecordId) :
    ∃ t', unindex cfg t key id true = some t' ∧ Represents t' (c.unindex (keyItem cfg key) id) := by
  cases hsearch : t.search (keyItem cfg key) with
  | none =>
    obtain ⟨t', htrigger, hsame⟩ := triggerWriteConflict_spec hsearch
    refine ⟨t', by simp [unindex, keyString_eq, hsearch, htrigger], ?_⟩
    rw [Contents.unindex_of_none (h.stands hsearch id)]
    intro k
    rw [hsame k]
    exact h k
  | some value =>
    obtain ⟨records, hlists, hmem⟩ := h.stands hsearch
    cases hid : c (keyItem cfg key) id with
    | none =>
      have hcollect :=
        collectLoop_absent hlists.parses.rounds (others_of_none hmem hid) false []
      refine ⟨t, by simp [unindex, keyString_eq, hsearch, hcollect], ?_⟩
      rwa [Contents.unindex_of_none hid]
    | some tb =>
      have hcollect := collectLoop_present hlists.parses.rounds hlists.sorted
        (mem_map_of_mem ((hmem id tb).mpr hid)) false []
      rw [nil_append] at hcollect
      by_cases hempty : records.filter (·.1 ≠ id) = []
      · -- the only id: the key goes with it
        rw [hempty] at hcollect
        obtain ⟨t', hremove⟩ := Table.exists_remove hsearch
        refine ⟨t', by simp [unindex, keyString_eq, hsearch, hcollect, hremove], ?_⟩
        refine h.replace ?_ (Table.search_of_remove hremove)
        intro i
        cases hi : update (c (keyItem cfg key)) id none i with
        | none => rfl
        | some tb' =>
          have hin := (mem_without hmem id i tb').mpr hi
          rw [hempty] at hin
          exact absurd hin (by simp)
      · obtain ⟨rest, hrest, hlists'⟩ := hlists.without hempty
        obtain ⟨t', hupdate⟩ := Table.exists_update hsearch rest
        refine ⟨t', ?_, ?_⟩
        · generalize records.filter (·.1 ≠ id) = kept at hcollect hempty hrest
          simp [unindex, keyString_eq, hsearch, hcollect, hempty, hrest, hupdate]
        · refine h.replace ?_ (Table.search_of_update hupdate)
          exact ⟨_, hlists', mem_without hmem id⟩

end Refinement

section Runs

/-- A call that an index with duplicates receives. -/
inductive Call where
  | insert (key : IndexableKey) (id : RecordId) (normal : id.isNormal)
  | unindex (key : IndexKey) (id : RecordId) (normal : id.isNormal)

def Call.run (t : IndexTable) : Call → Option IndexTable
  | .insert key id _ => (WiredTigerIndexUnique.insert cfg t key.toIndexKey id true).map Prod.snd
  | .unindex key id _ => WiredTigerIndexUnique.unindex cfg t key id true

/-- What a call means. -/
def Call.apply (c : Contents) : Call → Contents
  | .insert key id _ => c.insert (keyItem cfg key.toIndexKey) id (storedTypeBits cfg key.toIndexKey)
  | .unindex key id _ => c.unindex (keyItem cfg key) id

def runCalls : Option IndexTable := calls.foldlM (Call.run cfg) Table.empty

/-- The ids inserted and not removed since, with their type bits. -/
def contentsOf : Contents :=
  calls.foldl (Call.apply cfg) fun _ _ => none

theorem insert_spec {t : IndexTable} {c : Contents} (h : Represents t c) (key : IndexableKey)
    {id : RecordId} (hid : id.isNormal) :
    ∃ t', insert cfg t key.toIndexKey id true = some (.ok, t') ∧ Represents t'
        (c.insert (keyItem cfg key.toIndexKey) id (storedTypeBits cfg key.toIndexKey)) := by
  cases hpresent : c (keyItem cfg key.toIndexKey) id with
  | some tb =>
    refine ⟨t, insert_present cfg h key hid hpresent true, ?_⟩
    rwa [Contents.insert, if_pos (by simp [hpresent])]
  | none =>
    cases hsearch : t.search (keyItem cfg key.toIndexKey) with
    | none => exact insert_key cfg h key hid hsearch true
    | some value => exact (insert_further cfg h key hid hpresent hsearch).2

theorem Call.run_represents {t : IndexTable} {c : Contents} (h : Represents t c) (call : Call) :
    ∃ t', call.run cfg t = some t' ∧ Represents t' (call.apply cfg c) := by
  cases call with
  | insert key id normal =>
    obtain ⟨t', hrun, hrep⟩ := insert_spec cfg h key normal
    exact ⟨t', by simp [Call.run, hrun], hrep⟩
  | unindex key id normal => exact unindex_spec cfg h key id

theorem runCalls_represents :
    ∃ t, runCalls cfg calls = some t ∧ Represents t (contentsOf cfg calls) := by
  refine Transition.foldlM_simulates (fun _ _ call h => call.run_represents cfg h) fun key => ?_
  rw [show Table.search Table.empty key = none from Table.search_eq_none_iff.mpr (by simp [Table.empty])]
  exact fun _ => rfl

/-- After any calls every stored value lists exactly the ids inserted and not removed, and
an insertion without duplicates is refused exactly at a key that holds only other ids. -/
theorem unique_index_values (calls : List Call) :
    ∃ t, runCalls cfg calls = some t ∧ (∀ key, match t.search key with
        | none => ∀ id, contentsOf cfg calls key id = none
        | some value => ∃ records, decodeValue (value.length + 1) value = some records ∧
            records ≠ [] ∧ records.Pairwise (·.1 < ·.1) ∧
            ∀ id typeBits, (id, typeBits) ∈ records ↔ contentsOf cfg calls key id = some typeBits) ∧
      (∀ (key : IndexableKey) (id : RecordId), id.isNormal → ∀ dupsAllowed,
        contentsOf cfg calls (keyItem cfg key.toIndexKey) id ≠ none →
        insert cfg t key.toIndexKey id dupsAllowed = some (.ok, t)) ∧
      (∀ (key : IndexableKey) (id : RecordId), id.isNormal →
        ∃ status t', insert cfg t key.toIndexKey id false = some (status, t') ∧
          ((status = .duplicateKey key.obj ∧ t' = t) ↔
            t.search (keyItem cfg key.toIndexKey) ≠ none ∧
              contentsOf cfg calls (keyItem cfg key.toIndexKey) id = none)) := by
  obtain ⟨t, hrun, hrep⟩ := runCalls_represents cfg calls
  refine ⟨t, hrun, ?_, ?_, ?_⟩
  · intro key
    cases hsearch : t.search key with
    | none => exact hrep.stands hsearch
    | some value =>
      obtain ⟨records, hlists, hmem⟩ := hrep.stands hsearch
      exact ⟨records, hlists.parses.rounds.decodeValue_eq, hlists.nonempty, hlists.sorted, hmem⟩
  · intro key id hid dupsAllowed hpresent
    obtain ⟨tb, htb⟩ := Option.ne_none_iff_exists'.mp hpresent
    exact insert_present cfg hrep key hid htb dupsAllowed
  · intro key id hid
    cases hpresent : contentsOf cfg calls (keyItem cfg key.toIndexKey) id with
    | some tb =>
      exact ⟨_, _, insert_present cfg hrep key hid hpresent false, by simp⟩
    | none =>
      cases hsearch : t.search (keyItem cfg key.toIndexKey) with
      | none =>
        obtain ⟨t', hinsert, -⟩ := insert_key cfg hrep key hid hsearch false
        exact ⟨_, _, hinsert, by simp⟩
      | some value =>
        exact ⟨_, _, (insert_further cfg hrep key hid hpresent hsearch).1, by simp⟩

end Runs

end WiredTigerIndexUnique
end MongoServer
