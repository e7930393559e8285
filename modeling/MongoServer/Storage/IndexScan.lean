import MongoServer.Storage.IndexCursor
import MongoServer.Transition.Runs

/-!
Scans of a standard index that are interrupted by yields. Whatever happens to the table
between a save and a restore, the next entry returned is the one adjacent to the last one
returned, so a scan keeps the account of `OrderedTable.Covers`.
-/
namespace MongoServer
open OrderedTable KeyString WiredTigerIndex ByteOrder List Option TypeBits
open Table (Beyond)

variable {k : ByteKey} {saved : Bool}

section Rows
variable (cfg : Config)

def entryItem (key : IndexKey) (id : RecordId) : ByteKey :=
  ⟨entryBytes cfg.keyStringVersion cfg.ordering key id⟩

/-- Every row is an entry, with the type bits of the key it was inserted with. -/
def Rows (t : IndexTable) : Prop :=
  ∀ k ∈ t.keys, ∃ (key : IndexableKey) (id : RecordId), id.isNormal ∧
    k = entryItem cfg key.toIndexKey id ∧
    fromBuffer (t.value k) = some (storedTypeBits cfg key.toIndexKey, [])

theorem standard_keyString_eq (key : IndexKey) {id : RecordId} (hid : id.isNormal) :
    WiredTigerIndexStandard.keyString cfg key id =
      some (entryItem cfg key id, keyTypeBits cfg key) := by
  rw [WiredTigerIndexStandard.keyString, appendAllElementsForIndexing_key, appendRecordId_eq hid.1.le]
  simp [entryItem, entryBytes, keyTypeBits]

theorem fromBuffer_valueItem (key : IndexableKey) :
    fromBuffer (if (keyTypeBits cfg key.toIndexKey).isAllZeros then []
        else (keyTypeBits cfg key.toIndexKey).getBuffer) =
      some (storedTypeBits cfg key.toIndexKey, []) := by
  cases hz : (keyTypeBits cfg key.toIndexKey).isAllZeros with
  | true =>
    rw [storedTypeBits, reread, if_pos hz]
    rfl
  | false =>
    have hread := fromBuffer_getBuffer (wellFormed_keyTypeBits cfg key) []
    rw [append_nil] at hread
    exact hread

/-- An index call made by anybody while a cursor is saved. -/
inductive Change where
  | insert (key : IndexableKey) (id : RecordId) (normal : id.isNormal)
  | unindex (key : IndexKey) (id : RecordId) (normal : id.isNormal)

def Change.run (t : IndexTable) : Change → Option IndexTable
  | .insert key id _ => WiredTigerIndexStandard.insert cfg t key.toIndexKey id
  | .unindex key id _ => WiredTigerIndexStandard.unindex cfg t key id

theorem Change.run_rows {t : IndexTable} (h : Rows cfg t) (change : Change) :
    ∃ t', change.run cfg t = some t' ∧ Rows cfg t' := by
  cases change with
  | insert key id normal =>
    have hread := fromBuffer_valueItem cfg key
    simp only [Change.run, WiredTigerIndexStandard.insert,
      standard_keyString_eq cfg key.toIndexKey normal, bind_eq_bind, bind_some]
    generalize (if (keyTypeBits cfg key.toIndexKey).isAllZeros then []
      else (keyTypeBits cfg key.toIndexKey).getBuffer) = value at hread ⊢
    by_cases hmem : entryItem cfg key.toIndexKey id ∈ t.keys
    · exact ⟨t, by simp [Table.insert, hmem], h⟩
    · refine ⟨_, by rw [Table.insert, if_neg hmem]; rfl, ?_⟩
      intro k hk
      by_cases heq : k = entryItem cfg key.toIndexKey id
      · refine ⟨key, id, normal, heq, ?_⟩
        subst heq
        simpa using hread
      · have hold : k ∈ t.keys := (Finset.mem_insert.mp hk).resolve_left heq
        simpa [heq] using h k hold
  | unindex key id normal =>
    simp only [Change.run, WiredTigerIndexStandard.unindex, standard_keyString_eq cfg key normal,
      bind_eq_bind, bind_some]
    by_cases hmem : entryItem cfg key id ∈ t.keys
    · refine ⟨_, by rw [Table.remove, if_pos hmem]; rfl, ?_⟩
      exact fun k hk => h k (Finset.mem_of_mem_erase hk)
    · have htrigger : triggerWriteConflictAtPoint t (entryItem cfg key id) =
          some ⟨t.keys, Function.update t.value (entryItem cfg key id) []⟩ := by
        simp [triggerWriteConflictAtPoint, Table.insert, Table.remove, hmem]
      refine ⟨_, by rw [Table.remove, if_neg hmem]; exact htrigger, ?_⟩
      intro k hk
      have hne : k ≠ entryItem cfg key id := fun he => hmem (he ▸ hk)
      simpa [hne] using h k hk

/-- What a change is to a set of entries. -/
def Change.apply (entries : Finset ByteKey) : Change → Finset ByteKey
  | .insert key id _ => Insert.insert (entryItem cfg key.toIndexKey id) entries
  | .unindex key id _ => entries.erase (entryItem cfg key id)

theorem Change.run_keys (t : IndexTable) (change : Change) :
    ∃ t', change.run cfg t = some t' ∧ t'.keys = change.apply cfg t.keys := by
  cases change with
  | insert key id normal =>
    simp only [Change.run, WiredTigerIndexStandard.insert,
      standard_keyString_eq cfg key.toIndexKey normal, bind_eq_bind, bind_some]
    by_cases hmem : entryItem cfg key.toIndexKey id ∈ t.keys
    · exact ⟨t, by simp [Table.insert, hmem], (Finset.insert_eq_of_mem hmem).symm⟩
    · exact ⟨_, by rw [Table.insert, if_neg hmem]; rfl, rfl⟩
  | unindex key id normal =>
    simp only [Change.run, WiredTigerIndexStandard.unindex, standard_keyString_eq cfg key normal,
      bind_eq_bind, bind_some]
    by_cases hmem : entryItem cfg key id ∈ t.keys
    · exact ⟨_, by rw [Table.remove, if_pos hmem]; rfl, rfl⟩
    · -- the dummy entry is gone again
      refine ⟨⟨t.keys, Function.update t.value (entryItem cfg key id) []⟩, ?_,
        (Finset.erase_eq_of_notMem hmem).symm⟩
      simp [triggerWriteConflictAtPoint, Table.insert, Table.remove, hmem]

end Rows

namespace IndexCursor
variable {t : IndexTable}

section Moves

variable (c : IndexCursor)

/-- The cursor with the table's cursor moved to a key, or off the end. -/
def place : Option ByteKey → IndexCursor
  | none => { c with cursorAtEof := true, position := none }
  | some k => { c with cursorAtEof := false, position := some k }

theorem advanceWTCursor_eq (h : c.position = some k) :
    c.advanceWTCursor t = c.place (t.adjacent c.forward k) := by
  simp only [advanceWTCursor, h]
  cases t.adjacent c.forward k <;> rfl

theorem place_place (k : ByteKey) (o : Option ByteKey) :
    (c.place (some k)).place o = c.place o := by
  cases o <;> rfl

theorem seekWTCursor_found {smaller : Bool} {query : List UInt8} {cmp : ℤ}
    (h : t.searchNear smaller ⟨query⟩ = some (k, cmp)) :
    c.seekWTCursor t smaller query =
      if cmp = 0 then (true, c.place (some k))
      else if (if c.forward then decide (cmp < 0) else decide (cmp > 0)) then
        (false, (c.place (some k)).place (t.adjacent c.forward k))
      else (false, c.place (some k)) := by
  have hadvance := advanceWTCursor_eq (t := t) (c.place (some k)) rfl
  rw [seekWTCursor, h]
  change (if cmp = 0 then (true, c.place (some k))
    else if (if c.forward then decide (cmp < 0) else decide (cmp > 0)) then
      (false, (c.place (some k)).advanceWTCursor t)
    else (false, c.place (some k))) = _
  rw [hadvance]
  rfl

theorem seekWTCursor_eq (smaller : Bool) (query : List UInt8) (c : IndexCursor) :
    c.seekWTCursor t smaller query =
      if (⟨query⟩ : ByteKey) ∈ t.keys then (true, c.place (some ⟨query⟩))
      else (false, c.place (t.adjacent c.forward ⟨query⟩)) := by
  cases hnear : t.searchNear smaller ⟨query⟩ with
  | none =>
    have hempty := t.searchNear_eq_none hnear
    have hadjacent : t.adjacent c.forward ⟨query⟩ = none := by
      cases h : t.adjacent c.forward ⟨query⟩ with
      | none => rfl
      | some y => exact absurd (t.adjacent_eq_some h).1 (hempty y)
    rw [if_neg (hempty _), hadjacent, seekWTCursor, hnear]
    rfl
  | some found =>
    obtain ⟨y, cmp⟩ := found
    rw [seekWTCursor_found c hnear, place_place]
    rcases t.searchNear_eq_some hnear with ⟨rfl, rfl, hmem⟩ | ⟨rfl, hmem, hbelow⟩ |
      ⟨rfl, hmem, habove⟩
    · rw [if_pos rfl, if_pos hmem]
    · -- the table's cursor is before the query, so a forward scan steps over it
      rw [if_neg hmem]
      cases hf : c.forward with
      | true =>
        rw [t.adjacent_skip true hmem hbelow]
        rfl
      | false =>
        rw [hbelow]
        rfl
    · rw [if_neg hmem]
      cases hf : c.forward with
      | true =>
        rw [habove]
        rfl
      | false =>
        rw [t.adjacent_skip false hmem habove]
        rfl

/-- The key lies past the end position. -/
def PastEnd (k : ByteKey) : Prop :=
  ∃ e, c.endPosition = some e ∧ Beyond c.forward ⟨e⟩ k

theorem atOrPastEndPoint_iff {c : IndexCursor} (h : c.eof = false) :
    c.atOrPastEndPointAfterSeeking = true ↔ c.PastEnd ⟨c.key⟩ := by
  simp only [atOrPastEndPointAfterSeeking, h, Bool.false_eq_true, ↓reduceIte, PastEnd]
  cases hend : c.endPosition with
  | none => simp
  | some e =>
    simp only [Option.some.injEq, exists_eq_left']
    have hsign := ofSign_keyStringCompare c.key e
    cases hf : c.forward with
    | true =>
      simp only [↓reduceIte, Beyond, ByteKey.lt_iff, decide_eq_true_eq]
      rw [← Std.OrientedCmp.gt_iff_lt, ← hsign]
      exact compare_gt_iff_gt.symm
    | false =>
      simp only [Bool.false_eq_true, ↓reduceIte, Beyond, ByteKey.lt_iff, decide_eq_true_eq]
      rw [← hsign]
      exact compare_lt_iff_lt.symm

end Moves

section Landing
variable (cfg : Config)

theorem not_nextNotIncreasing {a b : List UInt8} (h : compare a b = .lt) :
    (decide (memcmp a b (min a.length b.length) > 0) ||
      (decide (memcmp a b (min a.length b.length) = 0) && decide (a.length > b.length))) = false := by
  have hcmp := ofSign_memcmp a b (min a.length b.length)
  have hboth := compare_take_then_length a b
  rw [← hcmp, h] at hboth
  rw [Bool.or_eq_false_iff, decide_eq_false_iff_not, Bool.and_eq_false_iff,
    decide_eq_false_iff_not, decide_eq_false_iff_not]
  rcases lt_trichotomy (memcmp a b (min a.length b.length)) 0 with hlt | heq | hgt
  · exact ⟨by omega, .inl hlt.ne⟩
  · rw [heq, ofSign_zero, Ordering.eq_then, compare_lt_iff_lt] at hboth
    exact ⟨by omega, .inr (by omega)⟩
  · simp [ofSign, compare_gt_iff_gt.mpr hgt] at hboth

def landed (c : IndexCursor) (k : ByteKey) : IndexCursor :=
  { c with lastMoveWasRestore := false, eof := false, cursorAtEof := false, position := some k,
           key := k.bytes }

theorem updatePosition_place {c : IndexCursor} {inNext : Bool}
    (hahead : inNext = true → c.forward = true → compare c.key k.bytes = .lt) :
    (c.place (some k)).updatePosition t inNext =
      if (c.landed k).atOrPastEndPointAfterSeeking then some { c.landed k with eof := true }
      else (c.landed k).updateIdAndTypeBits t := by
  have hguard : (c.forward && inNext && !c.key.isEmpty &&
      (decide (memcmp c.key k.bytes (min c.key.length k.bytes.length) > 0) ||
        (decide (memcmp c.key k.bytes (min c.key.length k.bytes.length) = 0) &&
          decide (c.key.length > k.bytes.length)))) = false := by
    cases hf : c.forward with
    | false => rfl
    | true =>
      cases hn : inNext with
      | false => rfl
      | true => simp [not_nextNotIncreasing (hahead hn hf)]
  exact if_neg (Bool.eq_false_iff.mp hguard)

/-- What a returned entry is made of. -/
structure IsEntry (x : IndexKeyEntry) (key : IndexableKey) (id : RecordId) : Prop where
  normal : id.isNormal
  key_eq : x.key = entryBytes cfg.keyStringVersion cfg.ordering key.toIndexKey id
  loc_eq : x.loc = id
  typeBits_eq : x.typeBits = storedTypeBits cfg key.toIndexKey

theorem updateIdAndTypeBits_landed (hrows : Rows cfg t) (c : IndexCursor) (hk : k ∈ t.keys) :
    ∃ c' key id, (c.landed k).updateIdAndTypeBits t = some c' ∧
      c' = { c.landed k with id := c'.id, typeBits := c'.typeBits } ∧
      IsEntry cfg ⟨c'.key, c'.typeBits, c'.id⟩ key id := by
  obtain ⟨key, id, hid, rfl, hbits⟩ := hrows k hk
  have hdecode : decodeRecordIdAtEnd (entryItem cfg key.toIndexKey id).bytes = some id := by
    have hsplit := decodeRecordIdAtEnd_append hid.1.le
      ((elements cfg.keyStringVersion cfg.ordering 0 key.obj).bytes ++ [kEnd])
    rw [append_assoc] at hsplit
    exact hsplit
  have hsearch : t.search (entryItem cfg key.toIndexKey id) =
      some (t.value (entryItem cfg key.toIndexKey id)) := by
    rw [Table.search, if_pos hk]
  refine ⟨{ c.landed (entryItem cfg key.toIndexKey id) with
    id := id, typeBits := storedTypeBits cfg key.toIndexKey }, key, id, ?_, rfl, hid, rfl, rfl, rfl⟩
  simp [updateIdAndTypeBits, landed, hdecode, hsearch, hbits]

theorem updatePosition_adjacent (hrows : Rows cfg t) (c : IndexCursor) (inNext : Bool) (q : ByteKey)
    (hq : inNext = true → q = ⟨c.key⟩) :
    ∃ c', (c.place (t.adjacent c.forward q)).updatePosition t inNext = some c' ∧
      c'.forward = c.forward ∧ c'.endPosition = c.endPosition ∧
      ((c'.eof = true ∧ ∀ z ∈ t.keys, Beyond c.forward q z → c.PastEnd z) ∨
        (c'.eof = false ∧ c'.lastMoveWasRestore = false ∧ c'.position = some ⟨c'.key⟩ ∧
          Beyond c.forward q ⟨c'.key⟩ ∧
          (∀ z ∈ t.keys, Beyond c.forward q z → ¬Beyond c.forward z ⟨c'.key⟩) ∧
          ¬c.PastEnd ⟨c'.key⟩ ∧ ∃ key id, IsEntry cfg ⟨c'.key, c'.typeBits, c'.id⟩ key id)) := by
  cases hadjacent : t.adjacent c.forward q with
  | none =>
    refine ⟨_, rfl, rfl, rfl, .inl ⟨rfl, fun z hz hbeyond => ?_⟩⟩
    exact absurd hbeyond (t.adjacent_eq_none hadjacent z hz)
  | some k =>
    obtain ⟨hk, hbeyond, hleast⟩ := t.adjacent_eq_some hadjacent
    have hahead : inNext = true → c.forward = true → compare c.key k.bytes = .lt := by
      intro hnext hforward
      rw [hq hnext, hforward] at hbeyond
      exact hbeyond
    rw [updatePosition_place hahead]
    have hpast : (c.landed k).atOrPastEndPointAfterSeeking = true ↔ c.PastEnd k :=
      atOrPastEndPoint_iff rfl
    by_cases hend : c.PastEnd k
    · rw [if_pos (hpast.mpr hend)]
      refine ⟨_, rfl, rfl, rfl, .inl ⟨rfl, fun z hz hz' => ?_⟩⟩
      obtain ⟨e, he, hek⟩ := hend
      refine ⟨e, he, ?_⟩
      rcases trichotomous_of (Beyond c.forward) k z with hkz | rfl | hzk
      · exact trans_of (Beyond c.forward) hek hkz
      · exact hek
      · exact absurd hzk (hleast z hz hz')
    · rw [if_neg (fun h => hend (hpast.mp h))]
      obtain ⟨c', key, id, hrun, hc', hentry⟩ := updateIdAndTypeBits_landed cfg hrows c hk
      refine ⟨c', hrun, ?_⟩
      have hkey : c'.key = k.bytes := by rw [hc']; rfl
      rw [hkey]
      refine ⟨by rw [hc']; rfl, by rw [hc']; rfl, .inr ⟨by rw [hc']; rfl, by rw [hc']; rfl,
        by rw [hc']; rfl, hbeyond, hleast, hend, key, id, ?_⟩⟩
      rw [hkey] at hentry
      exact hentry

end Landing

section Steps
variable (cfg : Config)

/-- A cursor that knows where to go on: at its key, or already on the key after it. -/
def Ready (t : IndexTable) (c : IndexCursor) : Prop :=
  if c.lastMoveWasRestore then c = c.place (t.adjacent c.forward ⟨c.key⟩)
  else c.position = some ⟨c.key⟩

theorem next_eq {c : IndexCursor} (heof : c.eof = false) (h : Ready t c) :
    c.next t = ((c.place (t.adjacent c.forward ⟨c.key⟩)).updatePosition t true).map
      fun c' => (c'.curr, c') := by
  have hmove : (if c.lastMoveWasRestore then c else c.advanceWTCursor t) =
      c.place (t.adjacent c.forward ⟨c.key⟩) := by
    unfold Ready at h
    split_ifs at h ⊢ with hrestore
    · exact h
    · exact advanceWTCursor_eq c h
  simp only [next, heof, Bool.false_eq_true, ↓reduceIte, hmove]
  cases (c.place (t.adjacent c.forward ⟨c.key⟩)).updatePosition t true <;> rfl

theorem restore_ready (c : IndexCursor) (smaller : Bool) (heof : c.eof = false) :
    Ready t (c.restore t smaller) ∧ (c.restore t smaller).key = c.key ∧
      (c.restore t smaller).eof = false ∧ (c.restore t smaller).forward = c.forward ∧
      (c.restore t smaller).endPosition = c.endPosition := by
  simp only [restore, heof, Bool.false_eq_true, ↓reduceIte, seekWTCursor_eq]
  split_ifs with hmem
  · exact ⟨rfl, rfl, heof, rfl, rfl⟩
  · cases hadjacent : t.adjacent c.forward ⟨c.key⟩ with
    | none | some k =>
      refine ⟨?_, rfl, heof, rfl, rfl⟩
      change _ = place _ (t.adjacent c.forward ⟨c.key⟩)
      rw [hadjacent]
      rfl

/-- What happens between two seeks. -/
inductive Step where
  | next
  | save
  | restore (smaller : Bool)
  | change (made : Change)

/-- A cursor is used only while it is not saved, and the table changes only while it is. -/
def disciplined : Bool → List Step → Bool
  | _, [] => true
  | saved, .next :: rest => !saved && disciplined saved rest
  | _, .save :: rest => disciplined true rest
  | _, .restore _ :: rest => disciplined false rest
  | saved, .change _ :: rest => saved && disciplined saved rest

/-- One step, and what it returns if it is a next. -/
def Step.run (t : IndexTable) (c : IndexCursor) :
    Step → Option (IndexTable × IndexCursor × List (Option IndexKeyEntry))
  | .next => do
      let (out, c) ← c.next t
      return (t, c, [out])
  | .save => some (t, c.save, [])
  | .restore smaller => some (t, c.restore t smaller, [])
  | .change made => do
      let t ← made.run cfg t
      return (t, c, [])

def runSteps : List Step → IndexTable → IndexCursor → Option (List (Option IndexKeyEntry))
  | [], _, _ => some []
  | step :: rest, t, c => do
      let (t, c, outs) ← step.run cfg t c
      let more ← runSteps rest t c
      return outs ++ more

/-- The key is in the table now and after every step. -/
def PresentThroughout (k : ByteKey) : List Step → IndexTable → Prop
  | [], t => k ∈ t.keys
  | .change made :: rest, t =>
      k ∈ t.keys ∧ ∀ t', made.run cfg t = some t' → PresentThroughout k rest t'
  | _ :: rest, t => PresentThroughout k rest t

theorem PresentThroughout.now {steps : List Step} {t : IndexTable}
    (h : PresentThroughout cfg k steps t) : k ∈ t.keys := by
  induction steps with
  | nil => exact h
  | cons step rest ih =>
    cases step with
    | change made => exact h.1
    | next | save | restore smaller => exact ih h

/-- The entries among what the seek and the nexts returned. -/
def returned (outs : List (Option IndexKeyEntry)) : List IndexKeyEntry :=
  outs.filterMap fun out => out

/-- A scan in progress: the direction and the end are fixed, the account is kept, and a
cursor that is not saved knows where to go on. -/
structure InProgress (forward : Bool) (start past : ByteKey → Prop) (saved : Bool)
    (present : ByteKey → Prop) (t : IndexTable) (c : IndexCursor)
    (outs : List (Option IndexKeyEntry)) : Prop where
  direction : c.forward = forward
  pastEnd : ∀ k, c.PastEnd k ↔ past k
  rows : Rows cfg t
  present_le : ∀ k, present k → k ∈ t.keys
  covers : Covers (Beyond forward) start past
    (fun k => c.eof = false ∧ Beyond forward ⟨c.key⟩ k) present
    ((returned outs).map fun x => ⟨x.key⟩)
  ended : none ∈ outs → c.eof = true
  ready : saved = false → c.eof = false → Ready t c
  entries : ∀ x ∈ returned outs, ∃ key id, IsEntry cfg x key id

variable {forward : Bool} {start past present : ByteKey → Prop}
  {c : IndexCursor} {outs : List (Option IndexKeyEntry)}

theorem inProgress_of_update (hup : ∀ x y, start x → Beyond forward x y → start y)
    (hdir : c.forward = forward) (hpast : ∀ k, c.PastEnd k ↔ past k) (hrows : Rows cfg t)
    (hpresent : ∀ k, present k → k ∈ t.keys) {q : ByteKey}
    (hcovers : Covers (Beyond forward) start past (Beyond forward q) present
      ((returned outs).map fun x => ⟨x.key⟩))
    (hnone : none ∉ outs) (hentries : ∀ x ∈ returned outs, ∃ key id, IsEntry cfg x key id)
    (inNext : Bool) (hq : inNext = true → q = ⟨c.key⟩) :
    ∃ c', (c.place (t.adjacent c.forward q)).updatePosition t inNext = some c' ∧
      InProgress cfg forward start past false present t c' (outs ++ [c'.curr]) := by
  obtain ⟨c', hrun, hforward, hend, hcases⟩ := updatePosition_adjacent cfg hrows c inNext q hq
  rw [hdir] at hcases hforward
  have hpast' : ∀ k, c'.PastEnd k ↔ past k := by
    intro k
    rw [← hpast k, PastEnd, PastEnd, hend, hforward, hdir]
  refine ⟨c', hrun, ?_⟩
  rcases hcases with ⟨heof, hall⟩ | ⟨heof, hlast, hposition, hbeyond, hleast, hnot, key, id, hentry⟩
  · have hcurr : c'.curr = none := by simp [curr, heof]
    have hout : returned (outs ++ [c'.curr]) = returned outs := by
      simp [returned, hcurr]
    have hfinish := hcovers.finish fun z hz hz' => (hpast z).mp (hall z (hpresent z hz) hz')
    refine ⟨hforward, hpast', hrows, hpresent, ?_, fun _ => heof, ?_, ?_⟩
    · rw [hout]
      exact hfinish.congr fun k => by simp [heof]
    · intro _ hf
      simp [heof] at hf
    · rw [hout]
      exact hentries
  · have hcurr : c'.curr = some ⟨c'.key, c'.typeBits, c'.id⟩ := by simp [curr, heof]
    have hout : returned (outs ++ [c'.curr]) = returned outs ++ [⟨c'.key, c'.typeBits, c'.id⟩] := by
      simp [returned, hcurr]
    have hstep := hcovers.step hup hbeyond (fun h => hnot ((hpast _).mpr h))
      fun z hz hz' => hleast z (hpresent z hz) hz'
    refine ⟨hforward, hpast', hrows, hpresent, ?_, ?_, ?_, ?_⟩
    · rw [hout, map_append]
      exact hstep.congr fun k => by simp [heof]
    · simp [hcurr, hnone]
    · intro _ _
      rw [Ready, if_neg (by simp [hlast])]
      exact hposition
    · rw [hout]
      exact forall_mem_append.mpr ⟨hentries, forall_mem_singleton.mpr ⟨key, id, hentry⟩⟩

namespace InProgress

theorem next (hup : ∀ x y, start x → Beyond forward x y → start y)
    (h : InProgress cfg forward start past false present t c outs) :
    ∃ c' out, c.next t = some (out, c') ∧
      InProgress cfg forward start past false present t c' (outs ++ [out]) := by
  cases heof : c.eof with
  | true =>
    have hout : returned (outs ++ [none]) = returned outs := by simp [returned]
    refine ⟨c, none, by simp [IndexCursor.next, heof], ?_⟩
    exact { h with covers := hout ▸ h.covers, ended := fun _ => heof, entries := hout ▸ h.entries }
  | false =>
    have hnone : none ∉ outs := by
      intro hmem
      simp [h.ended hmem] at heof
    have hcovers : Covers (Beyond forward) start past (Beyond forward ⟨c.key⟩) present
        ((returned outs).map fun x => ⟨x.key⟩) := h.covers.congr fun k => by simp [heof]
    obtain ⟨c', hrun, hprogress⟩ := inProgress_of_update cfg hup h.direction h.pastEnd h.rows
      h.present_le hcovers hnone h.entries true fun _ => rfl
    exact ⟨c', c'.curr, by rw [next_eq heof (h.ready rfl heof), hrun]; rfl, hprogress⟩

section
variable (h : InProgress cfg forward start past saved present t c outs)
include h

theorem save : InProgress cfg forward start past true present t c.save outs :=
  { h with ready := by simp }

theorem restore (smaller : Bool) :
    InProgress cfg forward start past false present t (c.restore t smaller) outs := by
  cases heof : c.eof with
  | true =>
    have hsame : c.restore t smaller = c := by simp [IndexCursor.restore, heof]
    rw [hsame]
    refine { h with ready := ?_ }
    intro _ hf
    simp [heof] at hf
  | false =>
    obtain ⟨hready, hkey, heof', hforward, hend⟩ := restore_ready (t := t) c smaller heof
    refine { h with
      direction := hforward.trans h.direction, pastEnd := ?_, covers := ?_, ended := ?_
      ready := fun _ _ => hready }
    · intro k
      rw [← h.pastEnd k, PastEnd, PastEnd, hend, hforward]
    · exact h.covers.congr fun k => by rw [hkey, heof', heof]
    · intro hmem
      simp [h.ended hmem] at heof

end

theorem change (h : InProgress cfg forward start past true present t c outs)
    {t' : IndexTable} (hrows : Rows cfg t') :
    InProgress cfg forward start past true (fun k => present k ∧ k ∈ t'.keys) t' c outs :=
  { h with
    rows := hrows, present_le := fun _ hk => hk.2, covers := h.covers.mono fun _ hk => hk.1
    ready := by simp }

theorem mono {present' : ByteKey → Prop}
    (h : InProgress cfg forward start past saved present t c outs)
    (hle : ∀ k, present' k → present k) :
    InProgress cfg forward start past saved present' t c outs :=
  { h with present_le := fun k hk => h.present_le k (hle k hk), covers := h.covers.mono hle }

theorem run (hup : ∀ x y, start x → Beyond forward x y → start y)
    (steps : List Step) (hsteps : disciplined saved steps = true)
    (h : InProgress cfg forward start past saved present t c outs) :
    ∃ more t' c' saved', runSteps cfg steps t c = some more ∧
      InProgress cfg forward start past saved'
        (fun k => present k ∧ PresentThroughout cfg k steps t) t' c' (outs ++ more) := by
  induction steps generalizing saved present t c outs with
  | nil =>
    refine ⟨[], t, c, saved, rfl, ?_⟩
    rw [append_nil]
    exact h.mono cfg fun k hk => hk.1
  | cons step rest ih =>
    cases step with
    | next =>
      rw [disciplined, Bool.and_eq_true, Bool.not_eq_true'] at hsteps
      obtain ⟨rfl, hrest⟩ := hsteps
      obtain ⟨c₁, out, hnext, h₁⟩ := h.next cfg hup
      obtain ⟨more, t', c', saved', hrun, h'⟩ := ih hrest h₁
      refine ⟨out :: more, t', c', saved', by simp [runSteps, Step.run, hnext, hrun], ?_⟩
      rw [append_assoc] at h'
      exact h'
    | save =>
      obtain ⟨more, t', c', saved', hrun, h'⟩ := ih hsteps (h.save cfg)
      exact ⟨more, t', c', saved', by simp [runSteps, Step.run, hrun], h'⟩
    | restore smaller =>
      obtain ⟨more, t', c', saved', hrun, h'⟩ := ih hsteps (h.restore cfg smaller)
      exact ⟨more, t', c', saved', by simp [runSteps, Step.run, hrun], h'⟩
    | change made =>
      rw [disciplined, Bool.and_eq_true] at hsteps
      obtain ⟨rfl, hrest⟩ := hsteps
      obtain ⟨t₁, hmade, hrows⟩ := made.run_rows cfg h.rows
      obtain ⟨more, t', c', saved', hrun, h'⟩ := ih hrest (h.change cfg hrows)
      refine ⟨more, t', c', saved', by simp [runSteps, Step.run, hmade, hrun], h'.mono cfg ?_⟩
      intro k hk
      have hthrough := hk.2.2 t₁ hmade
      exact ⟨⟨hk.1, hthrough.now⟩, hthrough⟩

end InProgress

end Steps

section Bounds
variable (cfg : Config) (forward : Bool)

/-- Where a query stands: before or after the keys that start with these elements. -/
def Query.bound : Query → Option (BSONObj × Bool)
  | .ofKey key inclusive => some (stripFieldNames key, inclusive)
  | .ofPoint seekPoint => (makeQueryObject seekPoint forward).map fun obj =>
      (obj, obj.all fun e => e.1.bytes.isEmpty)

theorem appendAll_unnamed (disc : Discriminator) {obj : BSONObj}
    (h : ∀ e ∈ obj, e.1 = CString.empty) :
    appendAllElementsForIndexing cfg.keyStringVersion obj cfg.ordering disc =
      some (elements cfg.keyStringVersion cfg.ordering 0 obj ++ appendDiscriminator disc ++
        appendByte kEnd false) := by
  simp [appendAllElementsForIndexing, appendElementsFrom_unnamed _ _ disc obj h]

theorem stripFieldNames_names (query : BSONObj) :
    ∀ e ∈ stripFieldNames query, e.1 = CString.empty := by
  rw [stripFieldNames_eq, List.forall_mem_map]
  exact fun _ _ => rfl

theorem suffixFields_shape (as : List BSONValue) (inclusive : List Bool) :
    (∀ e ∈ suffixFields forward as inclusive, e.1 = CString.empty) ∨
      ∃ front a, suffixFields forward as inclusive = front ++ [(exclusiveFieldName forward, a)] ∧
        ∀ e ∈ front, e.1 = CString.empty := by
  induction as generalizing inclusive with
  | nil => exact .inl (by simp [suffixFields])
  | cons a as ih =>
    cases inclusive with
    | nil => exact .inl (by simp [suffixFields])
    | cons first rest =>
      cases first with
      | false => exact .inr ⟨[], a, by simp [suffixFields], by simp⟩
      | true =>
        rcases ih rest with hall | ⟨front, b, heq, hfront⟩
        · exact .inl (by simpa [suffixFields] using hall)
        · exact .inr ⟨(CString.empty, a) :: front, b, by simp [suffixFields, heq],
            by simpa using hfront⟩

/-- A query object has no names, or one that marks its last element as exclusive. -/
theorem makeQueryObject_shape {seekPoint : IndexSeekPoint} {forward : Bool} {obj : BSONObj}
    (h : makeQueryObject seekPoint forward = some obj) :
    (∀ e ∈ obj, e.1 = CString.empty) ∨ ∃ front a, obj = front ++ [(exclusiveFieldName forward, a)] ∧
        ∀ e ∈ front, e.1 = CString.empty := by
  have hunnamed : ∀ (as : List BSONValue), ∀ e ∈ as.map (fun a => (CString.empty, a)),
      e.1 = CString.empty := fun _ => List.forall_mem_map.mpr fun _ _ => rfl
  simp only [makeQueryObject] at h
  split_ifs at h with hlen hexclusive hsize
  · cases hlast : ((seekPoint.keyPrefix.take seekPoint.prefixLen).map Prod.snd).getLast? with
    | none =>
      rw [hlast] at h
      exact absurd h (by simp)
    | some last =>
      rw [hlast] at h
      exact .inr ⟨_, last, (Option.some.inj h).symm, hunnamed _⟩
  · cases h
    rcases suffixFields_shape forward (seekPoint.keySuffix.drop seekPoint.prefixLen)
        (seekPoint.suffixInclusive.drop seekPoint.prefixLen) with hall | ⟨front, a, heq, hfront⟩
    · exact .inl (forall_mem_append.mpr ⟨hunnamed _, hall⟩)
    · exact .inr ⟨_ ++ front, a, by rw [heq, append_assoc],
        forall_mem_append.mpr ⟨hunnamed _, hfront⟩⟩

theorem discriminator_bytes (after : Bool) (disc : Discriminator)
    (h : disc = if after then .kExclusiveAfter else .kExclusiveBefore) (obj : BSONObj) :
    (elements cfg.keyStringVersion cfg.ordering 0 obj ++ appendDiscriminator disc ++
      appendByte kEnd false).bytes = boundBytes cfg.keyStringVersion cfg.ordering obj after := by
  subst h
  cases after <;> simp [appendDiscriminator, boundBytes]

/-- Both kinds of query mark a place between keys. -/
theorem Query.keyString_eq {query : Query} {forward : Bool} {values : BSONObj} {inclusive : Bool}
    (h : query.bound forward = some (values, inclusive)) :
    query.keyString cfg forward =
      some (boundBytes cfg.keyStringVersion cfg.ordering values (forward != inclusive)) := by
  cases query with
  | ofKey key inc =>
    simp only [bound, Option.some.injEq, Prod.mk.injEq] at h
    obtain ⟨rfl, rfl⟩ := h
    rw [keyString, appendAll_unnamed cfg _ (stripFieldNames_names key)]
    simp only [Option.bind_eq_bind, Option.bind_some, Option.pure_def, Option.some.injEq]
    apply discriminator_bytes
    cases forward <;> cases inc <;> rfl
  | ofPoint seekPoint =>
    simp only [bound, map_eq_some_iff, Prod.mk.injEq] at h
    obtain ⟨obj, hobj, rfl, rfl⟩ := h
    rcases makeQueryObject_shape hobj with hall | ⟨front, a, rfl, hfront⟩
    · have hinclusive : (obj.all fun e => e.1.bytes.isEmpty) = true := by
        rw [List.all_eq_true]
        intro e he
        rw [hall e he]
        rfl
      rw [keyString, hobj, hinclusive]
      simp only [bind_eq_bind, bind_some, appendAll_unnamed cfg _ hall,
        Option.pure_def, Option.some.injEq]
      apply discriminator_bytes
      cases forward <;> rfl
    · have hexclusive : ((front ++ [(exclusiveFieldName forward, a)]).all
          fun e => e.1.bytes.isEmpty) = false := by
        rw [all_append, Bool.and_eq_false_iff]
        right
        cases forward <;> rfl
      rw [keyString, hobj, hexclusive]
      simp only [bind_eq_bind, bind_some, appendAllElementsForIndexing,
        appendElementsFrom_last _ _ _ front hfront, Option.pure_def, Option.some.injEq]
      apply discriminator_bytes
      cases forward <;> rfl

/-- The side of a place that a scan covers, by the comparison of a key with the place. -/
def OnSide (forward inclusive : Bool) (cmp : ℤ) : Prop :=
  if forward then (if inclusive then 0 ≤ cmp else 0 < cmp)
  else (if inclusive then cmp ≤ 0 else cmp < 0)

def compareToBound (key : IndexKey) (values : BSONObj) : ℤ :=
  woCompare (key.obj.take values.length) values cfg.ordering false

/-- One entry comes before another in the direction of a scan: by key, then by record id. -/
def EntryBefore (a : IndexKey) (i : RecordId) (b : IndexKey) (j : RecordId) : Prop :=
  if forward then
    woCompare a.obj b.obj cfg.ordering false < 0 ∨
      (woCompare a.obj b.obj cfg.ordering false = 0 ∧ i < j)
  else
    0 < woCompare a.obj b.obj cfg.ordering false ∨
      (woCompare a.obj b.obj cfg.ordering false = 0 ∧ j < i)

/-- Within the end of a scan; an empty end key is no end. -/
def WithinEnd (endKey : BSONObj) (endInclusive : Bool) (key : IndexKey) : Prop :=
  endKey.isEmpty ∨ OnSide (!forward) endInclusive (compareToBound cfg key (stripFieldNames endKey))

theorem ofSign_cases (x : ℤ) :
    (ofSign x = .lt ↔ x < 0) ∧ (ofSign x = .eq ↔ x = 0) ∧ (ofSign x = .gt ↔ 0 < x) :=
  ⟨compare_lt_iff_lt, compare_eq_iff_eq, compare_gt_iff_gt⟩

abbrev boundItem (values : BSONObj) (after : Bool) : ByteKey :=
  ⟨boundBytes cfg.keyStringVersion cfg.ordering values after⟩

theorem beyond_bound (forward inclusive : Bool) (key : IndexKey) (id : RecordId)
    (values : BSONObj) :
    Beyond forward (boundItem cfg values (forward != inclusive)) (entryItem cfg key id) ↔
      OnSide forward inclusive (compareToBound cfg key values) := by
  have hcmp := compare_bound cfg.keyStringVersion cfg.ordering key id values (forward != inclusive)
  obtain ⟨hlt, heq, hgt⟩ := ofSign_cases (compareToBound cfg key values)
  rw [← compareToBound] at hcmp
  have hstart : Beyond forward (boundItem cfg values (forward != inclusive))
      (entryItem cfg key id) ↔ compare (entryItem cfg key id).bytes
          (boundBytes cfg.keyStringVersion cfg.ordering values (forward != inclusive)) =
            if forward then .gt else .lt := by
    cases forward
    · exact Iff.rfl
    · exact Std.OrientedCmp.gt_iff_lt.symm
  rw [hstart, entryItem, hcmp]
  rcases lt_trichotomy (compareToBound cfg key values) 0 with h | h | h
  · rw [hlt.mpr h]
    cases forward <;> cases inclusive <;> simp [OnSide] <;> omega
  · rw [heq.mpr h]
    cases forward <;> cases inclusive <;> simp [OnSide, h]
  · rw [hgt.mpr h]
    cases forward <;> cases inclusive <;> simp [OnSide] <;> omega

theorem entryItem_ne_bound (key : IndexKey) (id : RecordId) (values : BSONObj) (after : Bool) :
    entryItem cfg key id ≠ boundItem cfg values after := by
  intro he
  have hcmp := compare_bound cfg.keyStringVersion cfg.ordering key id values after
  have hbytes : entryBytes cfg.keyStringVersion cfg.ordering key id =
      boundBytes cfg.keyStringVersion cfg.ordering values after := congrArg ByteKey.bytes he
  rw [hbytes, Std.ReflOrd.compare_self] at hcmp
  cases hs : ofSign (woCompare (key.obj.take values.length) values cfg.ordering false) <;>
    cases after <;> simp [hs] at hcmp

theorem beyond_entry {forward : Bool} {a b : IndexKey} {i j : RecordId} (hi : i.isNormal)
    (hj : j.isNormal) (h : Beyond forward (entryItem cfg a i) (entryItem cfg b j)) :
    EntryBefore cfg forward a i b j := by
  have hcmp := compare_entryBytes cfg.keyStringVersion cfg.ordering a b hi.1.le hj.1.le
  obtain ⟨hlt, heq, hgt⟩ := ofSign_cases (woCompare a.obj b.obj cfg.ordering false)
  have hstart : compare (entryBytes cfg.keyStringVersion cfg.ordering a i)
      (entryBytes cfg.keyStringVersion cfg.ordering b j) = if forward then .lt else .gt := by
    cases forward
    · exact Std.OrientedCmp.gt_iff_lt.mpr h
    · exact h
  rw [hcmp] at hstart
  rcases lt_trichotomy (woCompare a.obj b.obj cfg.ordering false) 0 with hs | hs | hs
  · rw [hlt.mpr hs] at hstart
    cases forward
    · simp at hstart
    · exact .inl hs
  · rw [heq.mpr hs, Ordering.eq_then] at hstart
    cases forward
    · exact .inr ⟨hs, compare_gt_iff_gt.mp hstart⟩
    · exact .inr ⟨hs, compare_lt_iff_lt.mp hstart⟩
  · rw [hgt.mpr hs] at hstart
    cases forward
    · exact .inl hs
    · simp at hstart

end Bounds

section Scans
variable (cfg : Config)

/-- A seek and the steps after it, with everything they return. -/
def scan (t : IndexTable) (c : IndexCursor) (smaller : Bool) (query : Query) (steps : List Step) :
    Option (List (Option IndexKeyEntry)) := do
  let (out, c) ← c.seek cfg t smaller query
  let more ← runSteps cfg steps t c
  return out :: more

theorem rows_of_changes (changes : List Change) :
    ∃ t, changes.foldlM (Change.run cfg) Table.empty = some t ∧ Rows cfg t :=
  Transition.foldlM_simulates (τ := Unit) (g := fun _ _ => ()) (R := fun t _ => Rows cfg t)
    (fun _ _ change h => change.run_rows cfg h) (t := ()) (by simp [Rows, Table.empty])

theorem setEndPosition_spec (c₀ : IndexCursor) (endKey : BSONObj) (endInclusive : Bool) :
    ∃ c, c₀.setEndPosition cfg endKey endInclusive = some c ∧ c.forward = c₀.forward ∧
      ∀ (key : IndexKey) (id : RecordId), c.PastEnd (entryItem cfg key id) ↔
        ¬WithinEnd cfg c₀.forward endKey endInclusive key := by
  cases hempty : endKey.isEmpty with
  | true =>
    refine ⟨{ c₀ with endPosition := none }, by simp [setEndPosition, hempty], rfl, ?_⟩
    intro key id
    simp [PastEnd, WithinEnd, hempty]
  | false =>
    have hdisc := discriminator_bytes cfg (c₀.forward == endInclusive)
      (if c₀.forward = endInclusive then .kExclusiveAfter else .kExclusiveBefore)
      (by cases c₀.forward <;> cases endInclusive <;> rfl) (stripFieldNames endKey)
    refine ⟨{ c₀ with endPosition := some (boundBytes cfg.keyStringVersion cfg.ordering
      (stripFieldNames endKey) (c₀.forward == endInclusive)) }, ?_, rfl, ?_⟩
    · simp only [setEndPosition, hempty, Bool.false_eq_true, ↓reduceIte,
        appendAll_unnamed cfg _ (stripFieldNames_names endKey), bind_eq_bind,
        bind_some, hdisc]
      rfl
    · intro key id
      have hside := beyond_bound cfg (!c₀.forward) endInclusive key id (stripFieldNames endKey)
      have hafter : ((!c₀.forward) != endInclusive) = (c₀.forward == endInclusive) := by
        cases c₀.forward <;> cases endInclusive <;> rfl
      rw [hafter, Table.beyond_flip] at hside
      have hne := entryItem_ne_bound cfg key id (stripFieldNames endKey)
        (c₀.forward == endInclusive)
      rw [WithinEnd, hempty, ← hside]
      simp only [PastEnd, Option.some.injEq, exists_eq_left', Bool.false_eq_true, false_or]
      constructor
      · intro hbeyond hback
        exact asymm_of (Beyond c₀.forward) hbeyond hback
      · intro hnot
        rcases trichotomous_of (Beyond c₀.forward) (entryItem cfg key id)
          (boundItem cfg (stripFieldNames endKey) (c₀.forward == endInclusive)) with h | h | h
        · exact absurd h hnot
        · exact absurd h hne
        · exact h

theorem seek_inProgress {t : IndexTable} (hrows : Rows cfg t) (c : IndexCursor) (smaller : Bool)
    {query : Query} {values : BSONObj} {inclusive : Bool}
    (hquery : query.bound c.forward = some (values, inclusive)) :
    ∃ c' out, c.seek cfg t smaller query = some (out, c') ∧ InProgress cfg c.forward
        (Beyond c.forward (boundItem cfg values (c.forward != inclusive))) c.PastEnd false (fun k => k ∈ t.keys) t c' [out] := by
  have hbytes := Query.keyString_eq cfg hquery
  have habsent : boundItem cfg values (c.forward != inclusive) ∉ t.keys := by
    intro hmem
    obtain ⟨key, id, -, heq, -⟩ := hrows _ hmem
    exact entryItem_ne_bound cfg key.toIndexKey id values _ heq.symm
  have hinit : Covers (Beyond c.forward)
      (Beyond c.forward (boundItem cfg values (c.forward != inclusive))) c.PastEnd _ (fun k => k ∈ t.keys) ((returned []).map fun x => ⟨x.key⟩) :=
    (Covers.init _ _ _).mono fun _ _ => trivial
  obtain ⟨c', hrun, hprogress⟩ := inProgress_of_update cfg
    (fun x y hx hxy => trans_of (Beyond c.forward) hx hxy) rfl (fun _ => Iff.rfl) hrows
    (fun k hk => hk) hinit (by simp) (by simp [returned]) false (by simp)
  refine ⟨c', c'.curr, ?_, hprogress⟩
  simp only [seek, hbytes, bind_eq_bind, bind_some, seekWTCursor_eq, if_neg habsent, hrun]
  rfl

/-- Entries come in order of key and record id, none lies beyond the end, and once the end is
reported every entry in range that was there all along has been returned exactly once. -/
theorem scan_across_yields (changes : List Change) (c₀ : IndexCursor) (endKey : BSONObj)
    (endInclusive : Bool) (query : Query) (values : BSONObj) (inclusive : Bool)
    (hquery : query.bound c₀.forward = some (values, inclusive)) (smaller : Bool)
    (steps : List Step) (hsteps : disciplined false steps = true) :
    ∃ t c outs, changes.foldlM (Change.run cfg) Table.empty = some t ∧
      c₀.setEndPosition cfg endKey endInclusive = some c ∧
      scan cfg t c smaller query steps = some outs ∧
      (∀ x ∈ returned outs, ∃ key id, IsEntry cfg x key id ∧
        OnSide c₀.forward inclusive (compareToBound cfg key.toIndexKey values) ∧
        WithinEnd cfg c₀.forward endKey endInclusive key.toIndexKey) ∧
      (returned outs).Pairwise (fun x y => ∀ key id key' id', IsEntry cfg x key id →
        IsEntry cfg y key' id' →
        EntryBefore cfg c₀.forward key.toIndexKey id key'.toIndexKey id') ∧
      (none ∈ outs → ∀ key id, PresentThroughout cfg (entryItem cfg key id) steps t →
        OnSide c₀.forward inclusive (compareToBound cfg key values) →
        WithinEnd cfg c₀.forward endKey endInclusive key →
        ((returned outs).map IndexKeyEntry.key).count
          (entryBytes cfg.keyStringVersion cfg.ordering key id) = 1) := by
  obtain ⟨t, hchanges, hrows⟩ := rows_of_changes cfg changes
  obtain ⟨c, hc, hforward, hpast⟩ := setEndPosition_spec cfg c₀ endKey endInclusive
  rw [← hforward] at hquery hpast ⊢
  obtain ⟨c₁, out, hseek, hstart⟩ := seek_inProgress cfg hrows c smaller hquery
  obtain ⟨more, t', c', saved', hmore, h⟩ := hstart.run cfg
    (fun x y hx hxy => trans_of (Beyond c.forward) hx hxy) steps hsteps
  have hin := h.covers.within
  have hordered := pairwise_map.mp h.covers.ordered
  refine ⟨t, c, out :: more, hchanges, hc, by simp [scan, hseek, hmore], ?_, ?_, ?_⟩
  · intro x hx
    obtain ⟨key, id, hentry⟩ := h.entries x hx
    have hitem : (⟨x.key⟩ : ByteKey) = entryItem cfg key.toIndexKey id :=
      congrArg ByteKey.mk hentry.key_eq
    obtain ⟨hside, hnot⟩ := hin ⟨x.key⟩ (mem_map.mpr ⟨x, hx, rfl⟩)
    rw [hitem] at hside hnot
    rw [hpast, not_not] at hnot
    exact ⟨key, id, hentry, (beyond_bound cfg _ _ _ id values).mp hside, hnot⟩
  · refine hordered.imp fun {x y} hxy key id key' id' hx hy => ?_
    have hitem : Beyond c.forward (entryItem cfg key.toIndexKey id)
        (entryItem cfg key'.toIndexKey id') := by
      rw [entryItem, entryItem, ← hx.key_eq, ← hy.key_eq]
      exact hxy
    exact beyond_entry cfg hx.normal hy.normal hitem
  · intro hnone key id hthrough hside hend
    have heof : c'.eof = true := h.ended hnone
    have hnodup : ((returned (out :: more)).map IndexKeyEntry.key).Nodup := by
      refine pairwise_map.mpr (hordered.imp fun {x y} hxy heq => ?_)
      rw [heq] at hxy
      exact irrefl_of (Beyond c.forward) _ hxy
    rcases h.covers.complete (entryItem cfg key id) ⟨hthrough.now, hthrough⟩
        ((beyond_bound cfg _ _ key id values).mpr hside)
        (fun hp => (hpast key id).mp hp hend) with hahead | hmem
    · rw [heof] at hahead
      exact absurd hahead.1 (by simp)
    · obtain ⟨x, hx, hxkey⟩ := mem_map.mp hmem
      exact count_eq_one_of_mem hnodup (mem_map.mpr ⟨x, hx, congrArg ByteKey.bytes hxkey⟩)

/-- A reverse scan from the end of the index: the entry it is on is removed while it is saved. -/
theorem scan_across_yields_reverse : (Query.ofKey [] true).bound false = some ([], true) ∧
      disciplined false [.save, .change (.unindex (.ofValues [.jstNULL]) ⟨2⟩ (by decide)),
        .restore true, .next, .next] = true ∧
      ∃ t c outs, [Change.insert ⟨.ofValues [.jstNULL], by decide⟩ ⟨1⟩ (by decide),
          .insert ⟨.ofValues [.jstNULL], by decide⟩ ⟨2⟩ (by decide)].foldlM
            (Change.run ⟨.V1, ⟨0⟩, false⟩) Table.empty = some t ∧
        (new false).setEndPosition ⟨.V1, ⟨0⟩, false⟩ [] true = some c ∧
        scan ⟨.V1, ⟨0⟩, false⟩ t c false (.ofKey [] true)
          [.save, .change (.unindex (.ofValues [.jstNULL]) ⟨2⟩ (by decide)), .restore true,
            .next, .next] = some outs ∧
        (returned outs).Pairwise (fun x y => ∀ key id key' id',
          IsEntry ⟨.V1, ⟨0⟩, false⟩ x key id → IsEntry ⟨.V1, ⟨0⟩, false⟩ y key' id' →
          EntryBefore ⟨.V1, ⟨0⟩, false⟩ false key.toIndexKey id key'.toIndexKey id') := by
  refine ⟨rfl, rfl, ?_⟩
  obtain ⟨t, c, outs, hchanges, hc, hscan, -, hordered, -⟩ := scan_across_yields
    ⟨.V1, ⟨0⟩, false⟩ [.insert ⟨.ofValues [.jstNULL], by decide⟩ ⟨1⟩ (by decide),
      .insert ⟨.ofValues [.jstNULL], by decide⟩ ⟨2⟩ (by decide)] (new false) [] true
    (.ofKey [] true) [] true rfl false
    [.save, .change (.unindex (.ofValues [.jstNULL]) ⟨2⟩ (by decide)), .restore true, .next, .next]
    rfl
  exact ⟨t, c, outs, hchanges, hc, hscan, hordered⟩

end Scans
end IndexCursor
end MongoServer
