import Mathlib.Order.Nat
import Mathlib.Tactic.ByContra
import MongoServer.Transition.Runs

/-!
The recipient of a chunk, from the clone to the end of the migration. The batch inserter is
a thread with a client of its own, the other writes are made by the migrate thread's client,
and `lastOpApplied` follows only the latter. Optimes are numbers that grow with every write
on the node.
-/
namespace MongoServer.MigrationDestinationManager

open Transition List

inductive State where
  | clone | catchup | steady | commitStart | done | fail | abort
  deriving DecidableEq

/-- What a transferred modification comes to on the recipient. -/
inductive Modification where
  | outOfRange
  | deleteMissing
  | delete
  | upsert
  | overridesLocalId
  deriving DecidableEq

/-- Where the driver is. In the loop that waits for the commit it keeps `transferAfterCommit`;
modifications are applied in that loop and before it, while catching up. -/
inductive Phase where
  /-- The queue of batches, the rest of the batch being inserted, and which side has ended. -/
  | clone (batch : Option ℕ) (rest : ℕ) (fetched inserted : Bool)
  | catchup
  | catchupWait
  | waitForReplication
  | loop (transferAfterCommit : Bool)
  | transfer (transferAfterCommit : Bool)
  | apply (transferAfterCommit : Option Bool) (mods : List Modification) (didAnything : Bool)
  | check (transferAfterCommit : Bool)
  | afterLoop
  | done
  | failed
  deriving DecidableEq

structure Recipient where
  state : State
  phase : Phase
  /-- The newest optime of the node. -/
  newest : ℕ
  migrateLastOp : ℕ
  inserterLastOp : ℕ
  lastOpApplied : ℕ
  /-- The optime of the last successful `_flushPendingWrites`. -/
  flushed : Option ℕ
  inserted : List ℕ
  modified : List ℕ
  deriving DecidableEq

inductive Event where
  | otherWrite
  | abort
  | startCommit
  | startCommitTimeout
  | interrupt
  | fetchBatch (size : ℕ)
  | popBatch
  | insert
  | joinInserter
  | transferMods (mods : Option (List Modification))
  | applyMigrateOp
  | opReplicatedEnough (enough : Bool)
  | giveUpWaiting
  | driver
  deriving DecidableEq

namespace Recipient

/-- After the clean-up; the migrate thread may have written, and others after it. -/
def start (lastOp later : ℕ) : Recipient :=
  ⟨.clone, .clone none 0 false false, lastOp + later, lastOp, 0, 0, none, [], []⟩

variable (s : Recipient)

def fail : Recipient := { s with state := .fail, phase := .failed }

/-- A write by the migrate thread's client. -/
def modify : Recipient :=
  { s with
    newest := s.newest + 1
    migrateLastOp := s.newest + 1
    lastOpApplied := s.newest + 1
    modified := s.modified ++ [s.newest + 1] }

/-- One round of the loops in `_applyMigrateOp`, and whether it did anything; it may throw. -/
def applyOne : Modification → Option (Recipient × Bool)
  | .outOfRange => some (s, false)
  | .deleteMissing => some ({ s with lastOpApplied := s.migrateLastOp }, true)
  | .delete => some (s.modify, true)
  | .upsert => some (s.modify, true)
  | .overridesLocalId => none

def step : Event → Option Recipient
  | .otherWrite => some { s with newest := s.newest + 1 }
  | .abort => some { s with state := .abort }
  | .startCommit => if s.state = .steady then some { s with state := .commitStart } else none
  | .startCommitTimeout => some { s with state := .fail }
  | .interrupt => some s.fail
  | .fetchBatch size =>
    match s.phase with
    | .clone none rest false inserted =>
      some { s with phase := .clone (some size) rest (size == 0) inserted }
    | _ => none
  | .popBatch =>
    match s.phase with
    | .clone (some size) 0 fetched false =>
      some { s with phase := .clone none size fetched (size == 0) }
    | _ => none
  | .insert =>
    match s.phase with
    | .clone batch (rest + 1) fetched inserted =>
      some { s with
        phase := .clone batch rest fetched inserted
        newest := s.newest + 1
        inserterLastOp := s.newest + 1
        inserted := s.inserted ++ [s.newest + 1] }
    | _ => none
  | .joinInserter =>
    match s.phase with
    | .clone _ _ true true =>
      some { s with phase := .catchup, state := .catchup, lastOpApplied := s.migrateLastOp }
    | _ => none
  | .transferMods mods =>
    match s.phase, mods with
    | .catchup, none => some s.fail
    | .catchup, some [] => some { s with phase := .waitForReplication }
    | .catchup, some mods => some { s with phase := .apply none mods false }
    | .transfer _, none => some s.fail
    | .transfer committing, some [] => some { s with phase := .check committing }
    | .transfer committing, some mods =>
      some { s with phase := .apply (some committing) mods false }
    | _, _ => none
  | .applyMigrateOp =>
    match s.phase with
    | .apply caller (m :: mods) did =>
      match s.applyOne m with
      | none => some s.fail
      | some (s', did') => some { s' with phase := .apply caller mods (did || did') }
    | .apply none [] _ => some { s with phase := .catchupWait }
    | .apply (some committing) [] did =>
      some { s with phase := if did then .loop committing else .check committing }
    | _ => none
  | .opReplicatedEnough enough =>
    match s.phase with
    | .catchupWait =>
      if s.state = .abort then some { s with phase := .failed }
      else some { s with phase := if enough then .catchup else .catchupWait }
    | .waitForReplication =>
      if s.state = .abort then some { s with phase := .failed }
      else if enough then
        some { s with flushed := some s.lastOpApplied, phase := .loop false, state := .steady }
      else some s
    | .check committing =>
      if s.state = .abort then some { s with phase := .failed }
      else if s.state = .commitStart ∧ committing then
        if enough then some { s with flushed := some s.lastOpApplied, phase := .afterLoop }
        else some { s with phase := .loop committing }
      else some { s with phase := .loop committing }
    | _ => none
  | .giveUpWaiting =>
    match s.phase with
    | .catchupWait => some s.fail
    | .waitForReplication => some s.fail
    | _ => none
  | .driver =>
    match s.phase with
    | .loop committing =>
      if s.state = .steady ∨ s.state = .commitStart then
        some { s with phase := .transfer (committing || s.state = .commitStart) }
      else some { s with phase := .afterLoop }
    | .afterLoop =>
      if s.state = .fail then some { s with phase := .failed }
      else some { s with phase := .done, state := .done }
    | _ => none

/-- In the loop that waits for the commit, or just after it. -/
def inLoop : Bool :=
  match s.phase with
  | .loop _ => true
  | .transfer _ => true
  | .apply (some _) _ _ => true
  | .check _ => true
  | .afterLoop => true
  | _ => false

/-- No abort is received in the loop that waits for the commit. -/
def NotAborted (e : Event) : Prop := e = .abort → s.inLoop = false

instance : DecidableRel NotAborted := fun _ _ => inferInstanceAs (Decidable (_ → _))

/-- The migrate thread's client starts to write after the clone. -/
structure Ordered (newest migrateLastOp : ℕ) (inserted modified : List ℕ) : Prop where
  lastOp_le : migrateLastOp ≤ newest
  inserted_le : ∀ t ∈ inserted, t ≤ newest
  modified_le : ∀ t ∈ modified, t ≤ migrateLastOp
  before : modified = [] → ∀ t ∈ inserted, migrateLastOp < t
  after : modified ≠ [] → ∀ t ∈ inserted, t ≤ migrateLastOp

/-- What is known of `lastOpApplied`, the state and the last flush in each phase. -/
def Known : Prop :=
  match s.phase with
  | .clone _ _ _ _ => s.modified = []
  | .failed => True
  | .afterLoop => s.lastOpApplied = s.migrateLastOp ∧
      (s.state = .fail ∨ s.state ≠ .abort ∧ s.flushed = some s.lastOpApplied)
  | .done => s.lastOpApplied = s.migrateLastOp ∧ s.flushed = some s.lastOpApplied
  | _ => s.lastOpApplied = s.migrateLastOp ∧
      (s.inLoop → s.state = .steady ∨ s.state = .commitStart ∨ s.state = .fail)

def Inv : Prop :=
  Ordered s.newest s.migrateLastOp s.inserted s.modified ∧ s.Known

variable {s s' : Recipient} {e : Event} {newest lastOp later : ℕ} {inserted modified : List ℕ}

theorem Ordered.otherWrite (h : Ordered newest lastOp inserted modified) :
    Ordered (newest + 1) lastOp inserted modified :=
  ⟨h.lastOp_le.trans (Nat.le_succ _), fun t ht => (h.inserted_le t ht).trans (Nat.le_succ _),
    h.modified_le, h.before, h.after⟩

theorem Ordered.insert (h : Ordered newest lastOp inserted []) :
    Ordered (newest + 1) lastOp (inserted ++ [newest + 1]) [] := by
  have hle := h.lastOp_le
  refine ⟨by omega, forall_mem_append.mpr ⟨fun t ht => ?_, forall_mem_singleton.mpr le_rfl⟩, nofun,
    fun _ => forall_mem_append.mpr ⟨h.before rfl, forall_mem_singleton.mpr (by omega)⟩,
    fun hne => absurd rfl hne⟩
  exact (h.inserted_le t ht).trans (Nat.le_succ _)

theorem Ordered.modify (h : Ordered newest lastOp inserted modified) :
    Ordered (newest + 1) (newest + 1) inserted (modified ++ [newest + 1]) := by
  have hle := h.lastOp_le
  have hinserted (t : ℕ) (ht : t ∈ inserted) : t ≤ newest + 1 :=
    (h.inserted_le t ht).trans (Nat.le_succ _)
  refine ⟨le_rfl, hinserted, forall_mem_append.mpr ⟨fun t ht => ?_, forall_mem_singleton.mpr le_rfl⟩,
    fun hnil => absurd hnil (by simp), fun _ => hinserted⟩
  exact (h.modified_le t ht).trans (hle.trans (Nat.le_succ _))

theorem Inv.applyOne {m : Modification} {mods : List Modification} {caller : Option Bool}
    {did did' : Bool} (h : s.Inv) (hphase : s.phase = .apply caller (m :: mods) did)
    (happly : s.applyOne m = some (s', did')) :
    Inv { s' with phase := .apply caller mods (did || did') } := by
  obtain ⟨hordered, hknown⟩ := h
  cases m with
  | overridesLocalId => cases happly
  | outOfRange | deleteMissing =>
    cases happly
    exact ⟨hordered, by grind [Known, inLoop]⟩
  | delete | upsert =>
    cases happly
    exact ⟨hordered.modify, by grind [Known, inLoop, Recipient.modify]⟩

theorem Inv.step (h : s.Inv) (hok : NotAborted s e) (hstep : s.step e = some s') : s'.Inv := by
  have hinv := h
  obtain ⟨hordered, hknown⟩ := h
  -- the steps that write nothing leave the order alone
  cases e with
  | otherWrite =>
    cases hstep
    exact ⟨hordered.otherWrite, hknown⟩
  | insert =>
    simp only [Recipient.step] at hstep
    split at hstep <;> cases hstep
    rename_i hphase
    have hmodified : s.modified = [] := by simpa [Known, hphase] using hknown
    refine ⟨?_, hmodified⟩
    rw [hmodified] at hordered ⊢
    exact hordered.insert
  | applyMigrateOp =>
    simp only [Recipient.step] at hstep
    split at hstep
    · rename_i hphase
      split at hstep <;> cases hstep
      · exact ⟨hordered, trivial⟩
      · rename_i happly
        exact hinv.applyOne hphase happly
    all_goals
      cases hstep
      try exact ⟨hordered, by grind [Known, inLoop]⟩
  | abort =>
    cases hstep
    have := hok rfl
    exact ⟨hordered, by grind [Known, inLoop]⟩
  | interrupt =>
    cases hstep
    exact ⟨hordered, trivial⟩
  | startCommitTimeout =>
    cases hstep
    exact ⟨hordered, by grind [Known, inLoop]⟩
  | transferMods mods =>
    simp only [Recipient.step] at hstep
    split at hstep <;> cases hstep
    all_goals exact ⟨hordered, by grind [Known, inLoop, fail]⟩
  | _ =>
    simp only [Recipient.step] at hstep
    repeat' split at hstep
    all_goals cases hstep
    all_goals exact ⟨hordered, by grind [Known, inLoop, fail]⟩

/-- Unless it is aborted while it waits for the commit, a migration that ends has flushed all
its writes to a majority exactly if it cloned nothing or has applied a modification. -/
theorem done_flushed_iff (h : Steps step NotAborted (start lastOp later) s)
    (hdone : s.phase = .done) :
    (∀ t ∈ s.inserted ++ s.modified, ∃ flushed, s.flushed = some flushed ∧ t ≤ flushed) ↔
      s.inserted = [] ∨ s.modified ≠ [] := by
  have hstart : (start lastOp later).Inv :=
    ⟨⟨Nat.le_add_right _ _, nofun, nofun, nofun, nofun⟩, rfl⟩
  obtain ⟨hordered, hknown⟩ := h.invariant hstart fun _ _ _ h => h.step
  simp only [Known, hdone] at hknown
  obtain ⟨hlast, hflushed⟩ := hknown
  simp only [hflushed, hlast, Option.some.injEq, exists_eq_left', mem_append]
  constructor
  · intro hall
    by_contra hnot
    obtain ⟨hinserted, hmodified⟩ := not_or.mp hnot
    obtain ⟨t, ht⟩ := exists_mem_of_ne_nil _ hinserted
    have hlt := hordered.before (not_not.mp hmodified) t ht
    exact absurd (hall t (.inl ht)) (not_le.mpr hlt)
  · rintro hcase t (ht | ht)
    · rcases hcase with hnone | hsome
      · simp [hnone] at ht
      · exact hordered.after hsome t ht
    · exact hordered.modified_le t ht

theorem done_flushed_iff_modified : ∃ s, Steps step NotAborted (start 0 0) s ∧ s.phase = .done ∧
      ((∀ t ∈ s.inserted ++ s.modified, ∃ flushed, s.flushed = some flushed ∧ t ≤ flushed) ↔
        s.inserted = [] ∨ s.modified ≠ []) := by
  have hrun : Steps step NotAborted (start 0 0) ⟨.done, .done, 2, 2, 1, 2, some 2, [1], [2]⟩ :=
    Steps.of_runGuarded [.fetchBatch 1, .popBatch, .insert, .fetchBatch 0, .popBatch,
      .joinInserter, .transferMods (some [.upsert]), .applyMigrateOp, .applyMigrateOp,
      .opReplicatedEnough true, .transferMods (some []), .opReplicatedEnough true, .startCommit,
      .driver, .transferMods (some []), .opReplicatedEnough true, .driver] rfl
  exact ⟨_, hrun, rfl, done_flushed_iff hrun rfl⟩

/-- A migration that clones one document and has nothing to modify. -/
theorem done_without_flushing_clone :
    ∃ s, Steps step (fun _ _ => True) (start 0 0) s ∧ s.phase = .done ∧ s.inserted = [1] ∧
      s.flushed = some 0 := by
  refine ⟨⟨.done, .done, 1, 0, 1, 0, some 0, [1], []⟩, Steps.of_runGuarded [.fetchBatch 1,
    .popBatch, .insert, .fetchBatch 0, .popBatch, .joinInserter, .transferMods (some []),
    .opReplicatedEnough true, .startCommit, .driver, .transferMods (some []),
    .opReplicatedEnough true, .driver] rfl, rfl, rfl, rfl⟩

/-- An abort between the check for it and the loop condition ends the loop without a flush, and
the migration is done. -/
theorem done_after_abort :
    ∃ s, Steps step (fun _ _ => True) (start 0 0) s ∧ s.phase = .done ∧ s.modified = [1] ∧
      s.flushed = some 0 := by
  refine ⟨⟨.done, .done, 1, 1, 0, 1, some 0, [], [1]⟩, Steps.of_runGuarded [.fetchBatch 0,
    .popBatch, .joinInserter, .transferMods (some []), .opReplicatedEnough true, .driver,
    .transferMods (some [.upsert]), .applyMigrateOp, .applyMigrateOp, .abort, .driver,
    .driver] rfl, rfl, rfl, rfl⟩

/-- The writes are in order, and no modification comes before the clone ends. -/
def InOrder (s : Recipient) : Prop :=
  (s.inserted ++ s.modified).Pairwise (· < ·) ∧ (∀ t ∈ s.inserted ++ s.modified, t ≤ s.newest) ∧
    ∀ batch rest fetched ended, s.phase = .clone batch rest fetched ended → s.modified = []

theorem InOrder.step (h : s.InOrder) (hstep : s.step e = some s') : s'.InOrder := by
  obtain ⟨hsorted, hle, hclone⟩ := h
  have hwrite : (s.inserted ++ s.modified ++ [s.newest + 1]).Pairwise (· < ·) ∧
      ∀ t ∈ s.inserted ++ s.modified ++ [s.newest + 1], t ≤ s.newest + 1 := by
    simp only [pairwise_append, mem_append] at hsorted hle ⊢
    grind
  cases e with
  | insert =>
    simp only [Recipient.step] at hstep
    split at hstep <;> cases hstep
    have hnone := hclone _ _ _ _ ‹_›
    simpa [InOrder, hnone] using hwrite
  | applyMigrateOp =>
    simp only [Recipient.step] at hstep
    split at hstep
    · rename_i m _ _ _
      cases m <;> cases hstep
      all_goals simp_all [InOrder, modify, fail]
    all_goals
      cases hstep
      try exact ⟨hsorted, hle, by grind⟩
  | otherWrite =>
    cases hstep
    exact ⟨hsorted, fun t ht => (hle t ht).trans (Nat.le_succ _), hclone⟩
  | _ =>
    simp only [Recipient.step] at hstep
    repeat' split at hstep
    all_goals cases hstep
    all_goals exact ⟨hsorted, hle, by grind [fail]⟩

end Recipient
end MongoServer.MigrationDestinationManager
