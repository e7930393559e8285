import Mathlib.Data.List.Count
import Mathlib.Data.List.MinMax
import MongoServer.Transition.Runs

/-!
What a forward cursor on the oplog may return. A writer registers the ids of its entries
before it inserts them. An id leaves the list of uncommitted ids when its unit of work has
ended; after a commit that a newer registration has overtaken it first waits for the journal.
Ids are numbers, and the null id is zero.
-/
namespace MongoServer.Oplog
open List Option

open Transition

/-- A unit of work, with the ids whose change handlers have not run yet. -/
inductive UnitOfWork where
  | active (ids : List ℕ)
  | committed (ids : List ℕ)
  | rolledBack (ids : List ℕ)

def UnitOfWork.ids : UnitOfWork → List ℕ
  | .active ids => ids
  | .committed ids => ids
  | .rolledBack ids => ids

/-- The record store, the committed records in the storage engine and the writers. -/
structure Store where
  records : List ℕ
  uncommittedRecordIds : List ℕ
  oplogHighestSeen : ℕ
  opsWaitingForJournal : List ℕ
  /-- Those that the journal thread waits for. -/
  opsAboutToBeJournaled : List ℕ
  units : List UnitOfWork

inductive StoreAction where
  | beginUnitOfWork
  | oplogDiskLocRegister (w id : ℕ)
  | commitUnitOfWork (w : ℕ)
  | abortUnitOfWork (w : ℕ)
  | runHandler (w : ℕ)
  | swapOpsWaitingForJournal
  | eraseJournaled

namespace Store

/-- An oplog as it is opened: the newest record is the highest id seen. -/
def opened (records : List ℕ) : Store := ⟨records, [], records.foldr max 0, [], [], []⟩

def dealtWithCappedId (id : ℕ) (didCommit : Bool) (s : Store) : Store :=
  if didCommit ∧ id ≠ s.oplogHighestSeen then
    { s with opsWaitingForJournal := s.opsWaitingForJournal ++ [id] }
  else { s with uncommittedRecordIds := s.uncommittedRecordIds.erase id }

def isCappedHidden (id : ℕ) (s : Store) : Bool :=
  match s.uncommittedRecordIds with
  | [] => false
  | front :: _ => front ≤ id

def oplogSetStartHack (s : Store) : ℕ :=
  match s.uncommittedRecordIds with
  | [] => s.oplogHighestSeen
  | front :: _ => front

def setUnit (w : ℕ) (u : UnitOfWork) (s : Store) : Store := { s with units := s.units.set w u }

def step (s : Store) : StoreAction → Option Store
  | .beginUnitOfWork => some { s with units := s.units ++ [.active []] }
  | .oplogDiskLocRegister w id =>
    match s.units[w]? with
    | some (.active ids) =>
      if s.oplogHighestSeen < id then
        some { s.setUnit w (.active (ids ++ [id])) with
          uncommittedRecordIds := s.uncommittedRecordIds ++ [id], oplogHighestSeen := id }
      else none
    | _ => none
  -- the storage transaction ends first, then the handlers run one by one
  | .commitUnitOfWork w =>
    match s.units[w]? with
    | some (.active ids) => some { s.setUnit w (.committed ids) with records := s.records ++ ids }
    | _ => none
  | .abortUnitOfWork w =>
    match s.units[w]? with
    | some (.active ids) => some (s.setUnit w (.rolledBack ids.reverse))
    | _ => none
  | .runHandler w =>
    match s.units[w]? with
    | some (.committed (id :: ids)) =>
      some ((s.setUnit w (.committed ids)).dealtWithCappedId id true)
    | some (.rolledBack (id :: ids)) =>
      some ((s.setUnit w (.rolledBack ids)).dealtWithCappedId id false)
    | _ => none
  | .swapOpsWaitingForJournal =>
    if s.opsAboutToBeJournaled = [] then
      some { s with
        opsAboutToBeJournaled := s.opsWaitingForJournal, opsWaitingForJournal := [] }
    else none
  | .eraseJournaled =>
    some { s with
      uncommittedRecordIds := s.uncommittedRecordIds.diff s.opsAboutToBeJournaled
      opsAboutToBeJournaled := [] }

/-- The ids of units of work that have not ended or whose handlers have not run. -/
def pending (s : Store) : List ℕ := s.units.flatMap UnitOfWork.ids

/-- An uncommitted id is pending or waits for the journal. -/
structure Tracked (s : Store) : Prop where
  sorted : s.uncommittedRecordIds.Pairwise (· < ·)
  seen : ∀ id ∈ s.uncommittedRecordIds, 0 < id ∧ id ≤ s.oplogHighestSeen
  counted : ∀ id, s.uncommittedRecordIds.count id = s.pending.count id +
    s.opsWaitingForJournal.count id + s.opsAboutToBeJournaled.count id

/-- No id below the limit is pending, nor will one be registered. -/
structure Settled (limit : ℕ) (s : Store) : Prop where
  seen : limit ≤ s.oplogHighestSeen
  pending : ∀ id ∈ s.pending, limit ≤ id

variable {s s' : Store} {a : StoreAction} {w limit : ℕ} {u : UnitOfWork}

theorem pending_setUnit (h : s.units[w]? = some u) : ∃ rest, s.pending.Perm (u.ids ++ rest) ∧
      ∀ u', ((s.units.set w u').flatMap UnitOfWork.ids).Perm (u'.ids ++ rest) := by
  obtain ⟨hlt, rfl⟩ := List.getElem?_eq_some_iff.mp h
  have hset (u' : UnitOfWork) : ((s.units.set w u').flatMap UnitOfWork.ids).Perm
      (u'.ids ++ (s.units.take w ++ s.units.drop (w + 1)).flatMap UnitOfWork.ids) := by
    rw [set_eq_take_append_cons_drop, if_pos hlt]
    simp only [flatMap_append, flatMap_cons]
    apply perm_append_comm_assoc
  refine ⟨_, ?_, hset⟩
  have hsame := hset s.units[w]
  rwa [set_getElem_self] at hsame

/-- What a step of a writer or of the journal thread can do. -/
theorem step_cases (h : s.step a = some s') :
    (∃ units records, (units.flatMap UnitOfWork.ids).Perm s.pending ∧
      (∀ id ∈ records, id ∈ s.records ∨ id ∈ s.pending) ∧ s' = { s with records, units }) ∨
    (∃ units id, s.oplogHighestSeen < id ∧ (units.flatMap UnitOfWork.ids).Perm (id :: s.pending) ∧
      s' = { s with
        units, uncommittedRecordIds := s.uncommittedRecordIds ++ [id], oplogHighestSeen := id }) ∨
    (∃ units id didCommit, s.pending.Perm (id :: units.flatMap UnitOfWork.ids) ∧
      s' = { s with units }.dealtWithCappedId id didCommit) ∨
    (s.opsAboutToBeJournaled = [] ∧ s' = { s with
      opsAboutToBeJournaled := s.opsWaitingForJournal, opsWaitingForJournal := [] }) ∨
    s' = { s with
      uncommittedRecordIds := s.uncommittedRecordIds.diff s.opsAboutToBeJournaled
      opsAboutToBeJournaled := [] } := by
  cases a with
  | beginUnitOfWork =>
    cases h
    exact .inl ⟨_, _, by simp [pending, UnitOfWork.ids], fun _ => .inl, rfl⟩
  | oplogDiskLocRegister w id =>
    simp only [step] at h
    split at h
    · rename_i ids hw
      split_ifs at h with hid
      cases h
      obtain ⟨rest, hold, hnew⟩ := pending_setUnit hw
      refine .inr (.inl ⟨_, id, hid, (hnew _).trans ?_, rfl⟩)
      simpa [UnitOfWork.ids] using perm_middle.trans (hold.symm.cons id)
    · cases h
  | commitUnitOfWork w =>
    simp only [step] at h
    split at h <;> cases h
    rename_i ids hw
    obtain ⟨rest, hold, hnew⟩ := pending_setUnit hw
    refine .inl ⟨_, _, (hnew (.committed ids)).trans hold.symm, fun id hid => ?_, rfl⟩
    refine (mem_append.mp hid).imp_right fun hid => ?_
    exact hold.mem_iff.mpr (mem_append_left rest hid)
  | abortUnitOfWork w =>
    simp only [step] at h
    split at h <;> cases h
    rename_i ids hw
    obtain ⟨rest, hold, hnew⟩ := pending_setUnit hw
    refine .inl ⟨_, _, (hnew _).trans (.trans ?_ hold.symm), fun _ => .inl, rfl⟩
    exact ids.reverse_perm.append_right rest
  | runHandler w =>
    simp only [step] at h
    split at h <;> cases h
    all_goals
      rename_i id ids hw
      obtain ⟨rest, hold, hnew⟩ := pending_setUnit hw
      refine .inr (.inr (.inl ⟨_, id, _, hold.trans ?_, rfl⟩))
      exact List.Perm.symm (.cons id (hnew _))
  | swapOpsWaitingForJournal =>
    simp only [step] at h
    split_ifs at h with hidle
    cases h
    exact .inr (.inr (.inr (.inl ⟨hidle, rfl⟩)))
  | eraseJournaled =>
    cases h
    exact .inr (.inr (.inr (.inr rfl)))

theorem Tracked.opened (records : List ℕ) : (opened records).Tracked := by
  constructor <;> simp [Store.opened, pending]

theorem Tracked.step (h : s.Tracked) (hstep : s.step a = some s') : s'.Tracked := by
  rcases step_cases hstep with ⟨units, records, hperm, -, rfl⟩ | ⟨units, id, hid, hperm, rfl⟩ |
    ⟨units, id, didCommit, hperm, rfl⟩ | ⟨hidle, rfl⟩ | rfl
  · refine ⟨h.sorted, h.seen, fun id => ?_⟩
    simpa [pending, hperm.count_eq id] using h.counted id
  · have hlt (x : ℕ) (hx : x ∈ s.uncommittedRecordIds) : x < id := (h.seen x hx).2.trans_lt hid
    refine ⟨?_, ?_, fun x => ?_⟩
    · simpa [pairwise_append, h.sorted] using hlt
    · exact forall_mem_append.mpr ⟨fun x hx => ⟨(h.seen x hx).1, (hlt x hx).le⟩,
        forall_mem_singleton.mpr ⟨Nat.zero_lt_of_lt hid, le_rfl⟩⟩
    · have hcounted := h.counted x
      simp [pending, hperm.count_eq x, count_cons] at hcounted ⊢
      omega
  · have hcount (x : ℕ) := hperm.count_eq x
    simp only [count_cons] at hcount
    unfold dealtWithCappedId
    split_ifs
    · refine ⟨h.sorted, h.seen, fun x => ?_⟩
      have hcounted := h.counted x
      have := hcount x
      simp [pending, count_cons] at this hcounted ⊢
      omega
    · refine ⟨h.sorted.sublist erase_sublist, ?_, fun x => ?_⟩
      · intro x hx
        exact h.seen x (mem_of_mem_erase hx)
      · have hcounted := h.counted x
        have := hcount x
        simp [pending, count_erase] at this hcounted ⊢
        omega
  · refine ⟨h.sorted, h.seen, fun x => ?_⟩
    simpa [hidle, pending] using h.counted x
  · refine ⟨h.sorted.sublist (diff_sublist _ _), ?_, fun x => ?_⟩
    · intro x hx
      exact h.seen x ((diff_sublist _ _).subset hx)
    · have hcounted := h.counted x
      simp [pending, count_diff] at hcounted ⊢
      omega

/-- The ids that can be pending or committed after a step. -/
theorem step_ids (hstep : s.step a = some s') : s.oplogHighestSeen ≤ s'.oplogHighestSeen ∧
    (∀ id ∈ s'.pending, id ∈ s.pending ∨ s.oplogHighestSeen < id) ∧
    ∀ id ∈ s'.records, id ∈ s.records ∨ id ∈ s.pending := by
  rcases step_cases hstep with ⟨units, records, hperm, hrecords, rfl⟩ |
    ⟨units, id, hid, hperm, rfl⟩ | ⟨units, id, didCommit, hperm, rfl⟩ | ⟨-, rfl⟩ | rfl
  · exact ⟨le_rfl, fun id hid => .inl (hperm.mem_iff.mp hid), hrecords⟩
  · refine ⟨hid.le, fun x hx => ?_, fun _ => .inl⟩
    rcases mem_cons.mp (hperm.mem_iff.mp hx) with rfl | hx
    · exact .inr hid
    · exact .inl hx
  · have hless (x : ℕ) (hx : x ∈ units.flatMap UnitOfWork.ids) : x ∈ s.pending :=
      hperm.mem_iff.mpr (mem_cons_of_mem id hx)
    unfold dealtWithCappedId
    split_ifs <;> exact ⟨le_rfl, fun x hx => .inl (hless x hx), fun _ => .inl⟩
  · exact ⟨le_rfl, fun _ => .inl, fun _ => .inl⟩
  · exact ⟨le_rfl, fun _ => .inl, fun _ => .inl⟩

theorem Settled.step (h : s.Settled limit) (hstep : s.step a = some s') : s'.Settled limit := by
  obtain ⟨hseen, hpending, -⟩ := step_ids hstep
  refine ⟨h.seen.trans hseen, fun id hid => ?_⟩
  rcases hpending id hid with hid | hid
  · exact h.pending id hid
  · exact h.seen.trans hid.le

/-- The limit a cursor is given: nothing below it is pending. -/
theorem Tracked.settled (h : s.Tracked) : s.Settled s.oplogSetStartHack := by
  have hmem (id : ℕ) (hid : id ∈ s.pending) : id ∈ s.uncommittedRecordIds := by
    have hcounted := h.counted id
    have hpos := count_pos_iff.mpr hid
    exact count_pos_iff.mp (by omega)
  unfold oplogSetStartHack
  split
  · rename_i hnone
    refine ⟨le_rfl, fun id hid => ?_⟩
    simpa [hnone] using hmem id hid
  · rename_i front rest hcons
    have hsorted := h.sorted
    rw [hcons, pairwise_cons] at hsorted
    refine ⟨(h.seen front (by simp [hcons])).2, fun id hid => ?_⟩
    have hid := hmem id hid
    rw [hcons, mem_cons] at hid
    rcases hid with rfl | hid
    · exact le_rfl
    · exact (hsorted.1 id hid).le

theorem Tracked.oplogSetStartHack_ne_zero (h : s.Tracked) (hseen : s.oplogHighestSeen ≠ 0) :
    s.oplogSetStartHack ≠ 0 := by
  unfold oplogSetStartHack
  split
  · exact hseen
  · rename_i front rest hcons
    exact (h.seen front (by simp [hcons])).1.ne'

end Store

structure Cursor where
  readUntilForOplog : ℕ
  /-- The records its storage transaction sees, when one is open. -/
  snapshot : Option (List ℕ)
  lastReturnedId : ℕ
  eof : Bool

inductive CursorAction where
  | getSession
  | next
  | seekExact (id : ℕ)
  | saveUnpositioned
  | abandonSnapshot
  | restore

namespace Cursor

def isVisible (s : Store) (c : Cursor) (id : ℕ) : Bool :=
  -- the normal capped case
  if c.readUntilForOplog = 0 then !s.isCappedHidden id
  else if id = c.readUntilForOplog then !s.isCappedHidden id
  else id < c.readUntilForOplog

/-- Opens the storage transaction unless one is open. -/
def getSession (s : Store) (c : Cursor) : Cursor :=
  { c with snapshot := some (c.snapshot.getD s.records) }

def next (s : Store) (snapshot : List ℕ) (c : Cursor) : Option ℕ × Cursor :=
  if c.eof then (none, c)
  else
    match (snapshot.filter (c.lastReturnedId < ·)).min? with
    | none => (none, { c with eof := true })
    | some id =>
      if c.isVisible s id then (some id, { c with lastReturnedId := id })
      else (none, { c with eof := true })

def seekExact (snapshot : List ℕ) (id : ℕ) (c : Cursor) : Cursor :=
  if id ∈ snapshot then { c with lastReturnedId := id, eof := false } else { c with eof := true }

def restore (s : Store) (c : Cursor) : Cursor :=
  let c := c.getSession s
  if c.eof ∨ c.lastReturnedId = 0 ∨ c.lastReturnedId ∈ c.snapshot.getD [] then c
  else { c with eof := true }

def step (s : Store) (c : Cursor) : CursorAction → Option Cursor
  | .getSession => some (c.getSession s)
  | .next => c.snapshot.map fun snapshot => (c.next s snapshot).2
  | .seekExact id => c.snapshot.map fun snapshot => c.seekExact snapshot id
  | .saveUnpositioned => some { c with lastReturnedId := 0 }
  | .abandonSnapshot => some { c with snapshot := none }
  | .restore => some (c.restore s)

/-- What is below the limit has been decided, and the snapshot has all of it. -/
structure Covered (s : Store) (c : Cursor) : Prop where
  settled : s.Settled c.readUntilForOplog
  complete : ∀ snapshot, c.snapshot = some snapshot →
    ∀ id ∈ s.records, id < c.readUntilForOplog → id ∈ snapshot

variable {s s' : Store} {c c' : Cursor} {a : CursorAction} {snapshot : List ℕ} {r : ℕ}

/-- What a step of a cursor can do to its limit and its snapshot. -/
theorem step_cases (h : c.step s a = some c') : c'.readUntilForOplog = c.readUntilForOplog ∧
    (c'.snapshot = c.snapshot ∨ c'.snapshot = none ∨ c'.snapshot = (c.getSession s).snapshot) := by
  cases a with
  | getSession =>
    cases h
    exact ⟨rfl, .inr (.inr rfl)⟩
  | next =>
    obtain ⟨snapshot, -, rfl⟩ := map_eq_some_iff.mp h
    unfold next
    split_ifs
    · exact ⟨rfl, .inl rfl⟩
    · split
      · exact ⟨rfl, .inl rfl⟩
      · split_ifs <;> exact ⟨rfl, .inl rfl⟩
  | seekExact id =>
    obtain ⟨snapshot, -, rfl⟩ := map_eq_some_iff.mp h
    unfold seekExact
    split_ifs <;> exact ⟨rfl, .inl rfl⟩
  | saveUnpositioned =>
    cases h
    exact ⟨rfl, .inl rfl⟩
  | abandonSnapshot =>
    cases h
    exact ⟨rfl, .inr (.inl rfl)⟩
  | restore =>
    cases h
    unfold restore
    dsimp only
    split_ifs <;> exact ⟨rfl, .inr (.inr rfl)⟩

theorem Covered.step (h : c.Covered s) (hstep : c.step s a = some c') : c'.Covered s := by
  obtain ⟨hlimit, hsnapshot⟩ := step_cases hstep
  refine ⟨hlimit ▸ h.settled, fun snapshot hs id hid hlt => ?_⟩
  rw [hlimit] at hlt
  rcases hsnapshot with hsame | hnone | hopened
  · exact h.complete snapshot (hsame ▸ hs) id hid hlt
  · rw [hnone] at hs
    cases hs
  · rw [hopened, getSession] at hs
    cases hs
    cases hold : c.snapshot with
    | none => exact hid
    | some snapshot => exact h.complete snapshot hold id hid hlt

theorem Covered.storeStep {a : StoreAction} (h : c.Covered s) (hstep : s.step a = some s') :
    c.Covered s' := by
  refine ⟨h.settled.step hstep, fun snapshot hsnapshot id hid hlt => ?_⟩
  rcases (Store.step_ids hstep).2.2 id hid with hid | hid
  · exact h.complete snapshot hsnapshot id hid hlt
  · exact absurd (h.settled.pending id hid) (not_le.mpr hlt)

theorem next_le (hlimit : c.readUntilForOplog ≠ 0) (h : (c.next s snapshot).1 = some r) :
    r ≤ c.readUntilForOplog := by
  unfold next at h
  split_ifs at h
  split at h
  · cases h
  · split_ifs at h with hvisible
    cases h
    unfold isVisible at hvisible
    rw [if_neg hlimit] at hvisible
    split_ifs at hvisible with heq
    · exact heq.le
    · exact (of_decide_eq_true hvisible).le

end Cursor

/-- The record store with the forward cursors on it. -/
structure System where
  store : Store
  cursors : List Cursor

inductive Action where
  | store (a : StoreAction)
  | getCursor
  | cursor (k : ℕ) (a : CursorAction)

namespace System

def opened (records : List ℕ) : System := ⟨Store.opened records, []⟩

def step (s : System) : Action → Option System
  | .store a => (s.store.step a).map fun store => { s with store }
  | .getCursor =>
    some { s with cursors := s.cursors ++ [⟨s.store.oplogSetStartHack, none, 0, false⟩] }
  | .cursor k a => (s.cursors[k]?.bind fun c => c.step s.store a).map fun c =>
      { s with cursors := s.cursors.set k c }

/-- Every cursor is taken when some entry has been registered or was there at the start. -/
def EntrySeen (s : System) (a : Action) : Prop :=
  a matches .getCursor → s.store.oplogHighestSeen ≠ 0

instance : DecidableRel EntrySeen := fun _ _ => inferInstanceAs (Decidable (_ → _))

structure Sound (s : System) : Prop where
  tracked : s.store.Tracked
  covered : ∀ c ∈ s.cursors, c.readUntilForOplog ≠ 0 ∧ c.Covered s.store

variable {s s' : System} {a : Action}

theorem Sound.step (h : s.Sound) (hok : EntrySeen s a) (hstep : s.step a = some s') : s'.Sound := by
  cases a with
  | store a =>
    obtain ⟨store, hstore, rfl⟩ := map_eq_some_iff.mp hstep
    exact ⟨h.tracked.step hstore, fun c hc => (h.covered c hc).imp_right (·.storeStep hstore)⟩
  | getCursor =>
    cases hstep
    exact ⟨h.tracked, forall_mem_append.mpr ⟨h.covered, forall_mem_singleton.mpr
      ⟨h.tracked.oplogSetStartHack_ne_zero (hok rfl), h.tracked.settled, nofun⟩⟩⟩
  | cursor k a =>
    obtain ⟨new, hnew, rfl⟩ := map_eq_some_iff.mp hstep
    obtain ⟨old, hold, hcursor⟩ := bind_eq_some_iff.mp hnew
    refine ⟨h.tracked, fun c hc => ?_⟩
    rcases mem_or_eq_of_mem_set hc with hc | rfl
    · exact h.covered c hc
    · obtain ⟨hlimit, hcovered⟩ := h.covered old (mem_of_getElem? hold)
      exact ⟨(Cursor.step_cases hcursor).1 ▸ hlimit, hcovered.step hcursor⟩

/-- When a cursor returns an entry, every older entry that is or ever will be committed is in
the cursor's snapshot. -/
theorem next_complete {records : List ℕ} {c : Cursor} {snapshot : List ℕ} {r id : ℕ}
    (hrun : Steps step EntrySeen (opened records) s) (hc : c ∈ s.cursors)
    (hsnapshot : c.snapshot = some snapshot) (hnext : (c.next s.store snapshot).1 = some r)
    (hlater : Steps step (fun _ _ => True) s s') (hid : id ∈ s'.store.records) (hlt : id < r) :
    id ∈ snapshot := by
  have hsound : s.Sound := hrun.invariant ⟨.opened records, nofun⟩ fun _ _ _ h => h.step
  obtain ⟨hlimit, hcovered⟩ := hsound.covered c hc
  -- what the writers do later keeps the cursor covered as it is now
  have hstays : c.Covered s'.store := by
    apply hlater.invariant hcovered
    intro s a s' hs _ hstep
    cases a with
    | store a =>
      obtain ⟨store, hstore, rfl⟩ := map_eq_some_iff.mp hstep
      exact hs.storeStep hstore
    | getCursor =>
      cases hstep
      exact hs
    | cursor k a =>
      obtain ⟨c, -, rfl⟩ := map_eq_some_iff.mp hstep
      exact hs
  have hle := Cursor.next_le hlimit hnext
  exact hstays.complete snapshot hsnapshot id hid (hlt.trans_le hle)

theorem next_complete_second :
    (Cursor.next (Store.opened [1, 2]) [1, 2] ⟨2, some [1, 2], 1, false⟩).1 = some 2 ∧
      1 ∈ [1, 2] := by
  have hrun : Steps step EntrySeen (opened [1, 2])
      ⟨Store.opened [1, 2], [⟨2, some [1, 2], 1, false⟩]⟩ :=
    Steps.of_runGuarded [.getCursor, .cursor 0 .getSession, .cursor 0 .next] rfl
  exact ⟨rfl, next_complete hrun (mem_singleton_self _) rfl rfl (Steps.refl _)
    (by decide) (by decide : 1 < 2)⟩

/-- A cursor taken on an empty oplog has no limit: it returns the second entry, which was
committed first, after the first one has left the list of uncommitted ids. -/
theorem next_skips_first_entry : ∃ s c, Steps step (fun _ _ => True) (opened []) s ∧ c ∈ s.cursors ∧
      c.snapshot = some [2] ∧ (c.next s.store [2]).1 = some 2 ∧ 1 ∈ s.store.records := by
  refine ⟨⟨⟨[2, 1], [], 2, [], [], [.committed [], .committed []]⟩, [⟨0, some [2], 0, false⟩]⟩,
    ⟨0, some [2], 0, false⟩, Steps.of_runGuarded [.getCursor, .store .beginUnitOfWork,
    .store .beginUnitOfWork, .store (.oplogDiskLocRegister 0 1),
    .store (.oplogDiskLocRegister 1 2), .store (.commitUnitOfWork 1), .store (.runHandler 1),
    .cursor 0 .getSession, .store (.commitUnitOfWork 0), .store (.runHandler 0),
    .store .swapOpsWaitingForJournal, .store .eraseJournaled] rfl, ?_⟩
  exact ⟨mem_singleton_self _, rfl, rfl, by decide⟩

end System
end MongoServer.Oplog
