import Mathlib.Data.List.Sort
import MongoServer.Repl.OpTime
import MongoServer.Repl.ReplSetConfig

/-!
The part of the replication coordinator that follows member progress: the recorded optimes
of all members, the commit point, and the snapshots that wait for it. Every function is one
critical section of the coordinator's mutex; a failed `invariant()` is an error that names
the function it stands in.
-/
namespace MongoServer

inductive MemberState where
  | startup | primary | secondary | recovering | startup2 | unknown | arbiter | down | rollback
  | removed
  deriving DecidableEq, Repr

/-- The recorded progress of a member. -/
structure SlaveInfo where
  memberId : ℤ
  lastDurableOpTime : OpTime
  lastAppliedOpTime : OpTime

abbrev SnapshotName := Fin (2 ^ 64)

/-- No name compares greater. -/
def SnapshotName.max : SnapshotName := Fin.last _

structure SnapshotInfo where
  opTime : OpTime
  name : SnapshotName
  deriving DecidableEq

namespace SnapshotInfo

/-- Pairs are compared as tuples are: the name counts when neither optime is less. -/
instance : LT SnapshotInfo where
  lt a b := a.opTime < b.opTime ∨ (¬b.opTime < a.opTime ∧ a.name < b.name)

instance (a b : SnapshotInfo) : Decidable (a < b) :=
  inferInstanceAs (Decidable (_ ∨ _))

theorem lt_def {a b : SnapshotInfo} :
    a < b ↔ a.opTime < b.opTime ∨ (¬b.opTime < a.opTime ∧ a.name < b.name) :=
  Iff.rfl

end SnapshotInfo

/-- Where an `invariant()` failed. -/
inductive FailedInvariant where
  | setMyLastAppliedOpTime
  | setMyLastAppliedOpTimeForward
  | setMyLastDurableOpTime
  | setLastOptime
  | updateLastCommittedOpTime
  | updateMemberState
  | createSnapshot
  | updateCommittedSnapshot
  deriving DecidableEq

def invariant (cond : Prop) [Decidable cond] (site : FailedInvariant) :
    Except FailedInvariant Unit :=
  if cond then .ok () else .error site

/-- Who moved the commit point. -/
inductive CommitSource where
  | memberProgress
  | learned
  deriving DecidableEq

/-- A change of the commit point, and what the node knew when it was made. -/
structure Advance where
  source : CommitSource
  before : OpTime
  after : OpTime
  memberState : MemberState
  firstOpTimeOfMyTerm : OpTime
  slaveInfo : List SlaveInfo

structure ReplicationCoordinator where
  memberState : MemberState
  stepDownPending : Bool
  slaveInfo : List SlaveInfo
  lastCommittedOpTime : OpTime
  firstOpTimeOfMyTerm : OpTime
  uncommittedSnapshots : List SnapshotInfo
  currentCommittedSnapshot : Option SnapshotInfo
  /-- The changes of the commit point so far; no function reads them. -/
  advances : List Advance

namespace ReplicationCoordinator

variable (newCommittedSnapshot : SnapshotInfo)

def checkCurrent : Option SnapshotInfo → Except FailedInvariant Unit
  | none => .ok ()
  | some current => do
      invariant (¬newCommittedSnapshot.opTime < current.opTime) .updateCommittedSnapshot
      invariant (current.name < newCommittedSnapshot.name) .updateCommittedSnapshot

def checkFront : List SnapshotInfo → Except FailedInvariant Unit
  | [] => .ok ()
  | front :: _ => invariant (newCommittedSnapshot < front) .updateCommittedSnapshot

def updateCommittedSnapshot (s : ReplicationCoordinator) :
    Except FailedInvariant ReplicationCoordinator := do
  invariant (newCommittedSnapshot.opTime.isNull = false) .updateCommittedSnapshot
  invariant (newCommittedSnapshot.opTime ≤ s.lastCommittedOpTime) .updateCommittedSnapshot
  checkCurrent newCommittedSnapshot s.currentCommittedSnapshot
  checkFront newCommittedSnapshot s.uncommittedSnapshots
  return { s with currentCommittedSnapshot := some newCommittedSnapshot }

/-- A snapshot joins the queue behind all others, and with a newer name. -/
def checkBack (snapshotInfo : SnapshotInfo) : Option SnapshotInfo → Except FailedInvariant Unit
  | none => .ok ()
  | some back => do
      invariant (back < snapshotInfo) .createSnapshot
      invariant (back.name < snapshotInfo.name) .createSnapshot

def createSnapshot (timeOfSnapshot : OpTime) (name : SnapshotName) (s : ReplicationCoordinator) :
    Except FailedInvariant ReplicationCoordinator :=
  if timeOfSnapshot ≤ s.lastCommittedOpTime then do
    invariant (s.uncommittedSnapshots = []) .createSnapshot
    updateCommittedSnapshot ⟨timeOfSnapshot, name⟩ s
  else do
    checkBack ⟨timeOfSnapshot, name⟩ s.uncommittedSnapshots.getLast?
    return { s with uncommittedSnapshots := s.uncommittedSnapshots ++ [⟨timeOfSnapshot, name⟩] }

def dropAllSnapshots (s : ReplicationCoordinator) : ReplicationCoordinator :=
  { s with uncommittedSnapshots := [], currentCommittedSnapshot := none }

/-- The snapshots up to a commit point, which a sorted queue has in front of all others. -/
def ready (committedOpTime : OpTime) (s : ReplicationCoordinator) : List SnapshotInfo :=
  s.uncommittedSnapshots.takeWhile fun x => !decide (⟨committedOpTime, SnapshotName.max⟩ < x)

/-- The newest snapshot up to the commit point is committed, and the older ones forgotten. -/
def blessSnapshots (committedOpTime : OpTime) (s : ReplicationCoordinator) :
    Except FailedInvariant ReplicationCoordinator :=
  match (s.ready committedOpTime).getLast? with
  | none => .ok s
  | some newSnapshot =>
      updateCommittedSnapshot newSnapshot { s with
          uncommittedSnapshots := s.uncommittedSnapshots.drop (s.ready committedOpTime).length }

/-- The recorded applied optime of a member; `_updateSlaveInfoAppliedOpTime_inlock` follows it
with a new computation of the commit point. -/
def storeApplied (index : ℕ) (opTime : OpTime) (s : ReplicationCoordinator) :
    ReplicationCoordinator :=
  { s with slaveInfo := s.slaveInfo.modify index fun sI => { sI with lastAppliedOpTime := opTime } }

def storeDurable (index : ℕ) (opTime : OpTime) (s : ReplicationCoordinator) :
    ReplicationCoordinator :=
  { s with slaveInfo := s.slaveInfo.modify index fun sI => { sI with lastDurableOpTime := opTime } }

section Self
variable (cfg : ReplSetConfig) (self : ℕ) (s : ReplicationCoordinator) (opTime : OpTime)
  (isRollbackAllowed : Bool)

def myLastAppliedOpTime : OpTime :=
  (s.slaveInfo[self]?.map SlaveInfo.lastAppliedOpTime).getD .null

def myLastDurableOpTime : OpTime :=
  (s.slaveInfo[self]?.map SlaveInfo.lastDurableOpTime).getD .null

variable (s : ReplicationCoordinator)

/-- Own progress only grows, in time as in the order of optimes, unless a rollback is allowed. -/
def checkMyLastAppliedOpTime : Except FailedInvariant Unit :=
  if isRollbackAllowed ∨ OpTime.Same opTime (s.myLastAppliedOpTime self) then .ok ()
  else do
    invariant (¬opTime ≤ s.myLastAppliedOpTime self) .setMyLastAppliedOpTime
    invariant (opTime.Mixed (s.myLastAppliedOpTime self) ∨
      (s.myLastAppliedOpTime self).timestamp < opTime.timestamp) .setMyLastAppliedOpTime

/-- An arbiter takes the commit point for its own progress. It is no primary, so this cannot
move the commit point again. -/
def followCommitPoint (committedOpTime : OpTime) (s : ReplicationCoordinator) :
    Except FailedInvariant ReplicationCoordinator :=
  if s.memberState = .arbiter then do
    checkMyLastAppliedOpTime self committedOpTime false s
    return s.storeApplied self committedOpTime
  else .ok s

def advanceCommitPoint (source : CommitSource) (committedOpTime : OpTime)
    (s : ReplicationCoordinator) : Except FailedInvariant ReplicationCoordinator :=
  if OpTime.Same committedOpTime s.lastCommittedOpTime then .ok s
  else if committedOpTime < s.lastCommittedOpTime then .ok s
  else if s.memberState = .primary ∧ committedOpTime < s.firstOpTimeOfMyTerm then .ok s
  else do
    let stored ← followCommitPoint self committedOpTime s
    blessSnapshots committedOpTime { stored with
        lastCommittedOpTime := committedOpTime
        advances := s.advances ++ [⟨source, s.lastCommittedOpTime, committedOpTime, s.memberState,
          s.firstOpTimeOfMyTerm, s.slaveInfo⟩] }

/-- The optime that counts for the commit point. -/
def countedOpTime (sI : SlaveInfo) : OpTime :=
  if cfg.writeConcernMajorityShouldJournal then sI.lastDurableOpTime else sI.lastAppliedOpTime

def votingNodesOpTimes : List SlaveInfo → Except FailedInvariant (List OpTime)
  | [] => .ok []
  | sI :: rest =>
      match cfg.findMemberByID sI.memberId with
      | none => .error .updateLastCommittedOpTime
      | some memberConfig => do
          let opTimes ← votingNodesOpTimes rest
          return if memberConfig.isVoter then countedOpTime cfg sI :: opTimes else opTimes

def updateLastCommittedOpTime : Except FailedInvariant ReplicationCoordinator :=
  if s.memberState ≠ .primary ∨ s.stepDownPending then .ok s
  else do
    let opTimes ← votingNodesOpTimes cfg s.slaveInfo
    invariant (0 < opTimes.length) .updateLastCommittedOpTime
    if opTimes.length < cfg.writeMajority then return s
    let sorted := opTimes.insertionSort (· ≤ ·)
    match sorted[sorted.length - cfg.writeMajority]? with
    | none => return s
    | some committedOpTime => advanceCommitPoint self .memberProgress committedOpTime s

def updateSlaveInfoAppliedOpTime (index : ℕ) (opTime : OpTime) (s : ReplicationCoordinator) :
    Except FailedInvariant ReplicationCoordinator :=
  updateLastCommittedOpTime cfg self (s.storeApplied index opTime)

/-- Durable progress ahead of the applied progress is not recorded. -/
def updateSlaveInfoDurableOpTime (index : ℕ) (opTime : OpTime) (s : ReplicationCoordinator) :
    Except FailedInvariant ReplicationCoordinator :=
  match s.slaveInfo[index]? with
  | none => .ok s
  | some sI =>
      if sI.lastAppliedOpTime < opTime then .ok s
      else updateLastCommittedOpTime cfg self (s.storeDurable index opTime)

def recordProgress (index : ℕ) (appliedOpTime durableOpTime : OpTime)
    (s : ReplicationCoordinator) : Except FailedInvariant ReplicationCoordinator :=
  match s.slaveInfo[index]? with
  | none => .ok s
  | some sI => do
      let applied ← (if sI.lastAppliedOpTime < appliedOpTime then
        updateSlaveInfoAppliedOpTime cfg self index appliedOpTime s else .ok s)
      if sI.lastDurableOpTime < durableOpTime then
        updateSlaveInfoDurableOpTime cfg self index durableOpTime applied
      else .ok applied

structure UpdateInfo where
  durableOpTime : OpTime
  appliedOpTime : OpTime
  cfgver : ℤ
  memberId : ℤ

/-- What a position update is answered with. -/
inductive UpdateStatus where
  | ok
  | nodeNotFound (errmsg : String)
  | invalidReplicaSetConfig (errmsg : String) (configVersion : ℤ)

def setLastOptime (args : UpdateInfo) (s : ReplicationCoordinator) :
    Except FailedInvariant (ReplicationCoordinator × UpdateStatus) :=
  if args.memberId < 0 then
    .ok (s, .nodeNotFound ("Received replSetUpdatePosition for node with memberId " ++
      toString args.memberId ++ " which is negative and therefore invalid"))
  else if (cfg.members[self]?.map MemberConfig.id) = some args.memberId then
    -- Remote nodes do not tell a node what its own optime is.
    .ok (s, .ok)
  else if args.cfgver ≠ cfg.configVersion then
    .ok (s, .invalidReplicaSetConfig ("Received replSetUpdatePosition for node with memberId " ++
      toString args.memberId ++ " whose config version of " ++ toString args.cfgver ++
      " doesn't match our config version of " ++ toString cfg.configVersion) cfg.configVersion)
  else
    match s.slaveInfo.findIdx? (fun sI => sI.memberId == args.memberId) with
    | none => do
        invariant ((cfg.findMemberByID args.memberId).isNone) .setLastOptime
        return (s, .nodeNotFound ("Received replSetUpdatePosition for node with memberId " ++
          toString args.memberId ++ " which doesn't exist in our config"))
    | some index => do
        let s ← recordProgress cfg self index args.appliedOpTime args.durableOpTime s
        return (s, .ok)

/-- Position updates of the old form carry one optime for both. -/
def setLastOptimeOld (ts : OpTime) (cfgver memberId : ℤ) (s : ReplicationCoordinator) :
    Except FailedInvariant (ReplicationCoordinator × UpdateStatus) :=
  setLastOptime cfg self ⟨ts, ts, cfgver, memberId⟩ s

def updateOpTimesFromHeartbeat (targetIndex : ℕ) (durableOpTime appliedOpTime : OpTime)
    (s : ReplicationCoordinator) : Except FailedInvariant ReplicationCoordinator :=
  recordProgress cfg self targetIndex appliedOpTime durableOpTime s

def setMyLastAppliedOpTime : Except FailedInvariant ReplicationCoordinator := do
  checkMyLastAppliedOpTime self opTime isRollbackAllowed s
  updateSlaveInfoAppliedOpTime cfg self self opTime s

def setMyLastDurableOpTime : Except FailedInvariant ReplicationCoordinator := do
  invariant (isRollbackAllowed ∨ s.myLastDurableOpTime self ≤ opTime) .setMyLastDurableOpTime
  if s.myLastAppliedOpTime self < opTime then return s
  updateSlaveInfoDurableOpTime cfg self self opTime s

def setMyLastAppliedOpTimeForward : Except FailedInvariant ReplicationCoordinator :=
  if ¬opTime ≤ s.myLastAppliedOpTime self then setMyLastAppliedOpTime cfg self opTime false s
  else if OpTime.Same opTime (s.myLastAppliedOpTime self) then .ok s
  else do
    invariant (opTime.Mixed (s.myLastAppliedOpTime self) ∨
      opTime.timestamp < (s.myLastAppliedOpTime self).timestamp) .setMyLastAppliedOpTimeForward
    return s

def setMyLastDurableOpTimeForward : Except FailedInvariant ReplicationCoordinator :=
  if ¬opTime ≤ s.myLastDurableOpTime self then setMyLastDurableOpTime cfg self opTime false s
  else .ok s

def resetMyLastOpTimes :
    Except FailedInvariant ReplicationCoordinator := do
  let s ← setMyLastAppliedOpTime cfg self .null true s
  setMyLastDurableOpTime cfg self .null true s

/-- A change of the member state ends a pending step down, and a rollback drops the snapshots. -/
def updateMemberState (newState : MemberState) (s : ReplicationCoordinator) :
    Except FailedInvariant ReplicationCoordinator :=
  if newState = s.memberState then .ok s
  else do
    let pending := if s.memberState = .primary ∨ newState = .removed ∨ newState = .rollback
      then false else s.stepDownPending
    let dropped := if newState = .rollback then s.dropAllSnapshots else s
    invariant (s.memberState = .rollback → dropped.currentCommittedSnapshot = none ∧
      dropped.uncommittedSnapshots = []) .updateMemberState
    return { dropped with memberState := newState, stepDownPending := pending }

/-- What happens to the coordinator, one critical section at a time. -/
inductive Event where
  | setLastOptime (args : UpdateInfo)
  | setLastOptimeOld (ts : OpTime) (cfgver memberId : ℤ)
  | heartbeat (targetIndex : ℕ) (durableOpTime appliedOpTime : OpTime)
  | setMyLastAppliedOpTime (opTime : OpTime)
  | setMyLastDurableOpTime (opTime : OpTime)
  | setMyLastAppliedOpTimeForward (opTime : OpTime)
  | setMyLastDurableOpTimeForward (opTime : OpTime)
  | resetMyLastOpTimes
  | advanceCommitPoint (committedOpTime : OpTime)
  | setFirstOpTimeOfMyTerm (newOpTime : OpTime)
  | updateLastCommittedOpTime
  | stepDownStart
  | updateMemberState (newState : MemberState)
  | createSnapshot (timeOfSnapshot : OpTime) (name : SnapshotName)
  | dropAllSnapshots

def step : Event → Except FailedInvariant ReplicationCoordinator
  | .setLastOptime args => (s.setLastOptime cfg self args).map Prod.fst
  | .setLastOptimeOld ts cfgver memberId =>
      (s.setLastOptimeOld cfg self ts cfgver memberId).map Prod.fst
  | .heartbeat i durable applied => s.updateOpTimesFromHeartbeat cfg self i durable applied
  | .setMyLastAppliedOpTime opTime => s.setMyLastAppliedOpTime cfg self opTime false
  | .setMyLastDurableOpTime opTime => s.setMyLastDurableOpTime cfg self opTime false
  | .setMyLastAppliedOpTimeForward opTime => s.setMyLastAppliedOpTimeForward cfg self opTime
  | .setMyLastDurableOpTimeForward opTime => s.setMyLastDurableOpTimeForward cfg self opTime
  | .resetMyLastOpTimes => s.resetMyLastOpTimes cfg self
  | .advanceCommitPoint opTime => s.advanceCommitPoint self .learned opTime
  | .setFirstOpTimeOfMyTerm opTime => .ok { s with firstOpTimeOfMyTerm := opTime }
  | .updateLastCommittedOpTime => s.updateLastCommittedOpTime cfg self
  | .stepDownStart => .ok { s with stepDownPending := true }
  | .updateMemberState newState => s.updateMemberState newState
  | .createSnapshot timeOfSnapshot name => s.createSnapshot timeOfSnapshot name
  | .dropAllSnapshots => .ok s.dropAllSnapshots

def init (memberState : MemberState) : ReplicationCoordinator where
  memberState := memberState
  stepDownPending := false
  slaveInfo := cfg.members.map fun m => ⟨m.id, .null, .null⟩
  lastCommittedOpTime := .null
  firstOpTimeOfMyTerm := .null
  uncommittedSnapshots := []
  currentCommittedSnapshot := none
  advances := []

end Self
end ReplicationCoordinator
end MongoServer
