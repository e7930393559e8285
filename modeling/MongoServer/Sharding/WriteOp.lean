import Mathlib.Data.String.Basic
import MongoServer.Base.Status
import MongoServer.Bson.Compare
import MongoServer.Sharding.ChunkVersion

/-!
One write of a client's batch at the router. It is targeted at the shards that may hold what
it writes, with one child for each of them, and collects what becomes of the children. Where
the children's errors allow it the write is targeted again.
-/
namespace MongoServer
open ByteOrder ChunkVersion

structure ShardEndpoint where
  shardName : String
  shardVersion : ChunkVersion
  deriving DecidableEq

theorem ShardEndpoint.ext {a b : ShardEndpoint} (hname : a.shardName = b.shardName)
    (hversion : a.shardVersion = b.shardVersion) : a = b := by
  cases a
  cases b
  simp only at hname hversion
  rw [hname, hversion]

/-- The difference of the versions is computed in a `long` and returned as an `int`. -/
def compareEndpoints (endpointA endpointB : ShardEndpoint) : ℤ :=
  match compare endpointA.shardName endpointB.shardName with
  | .lt => -1
  | .gt => 1
  | .eq =>
      let shardVersionDiff := endpointA.shardVersion.toLong - endpointB.shardVersion.toLong
      if shardVersionDiff ≠ 0 then shardVersionDiff.toUInt32.toInt32.toInt
      else memcmp endpointA.shardVersion.epoch.bytes endpointB.shardVersion.epoch.bytes 12

structure BatchedUpdateDocument where
  query : BSONObj
  updateExpr : BSONObj
  collation : Option BSONObj

structure BatchedDeleteDocument where
  query : BSONObj
  collation : Option BSONObj

inductive BatchItem where
  | insert (document : BSONObj)
  | update (document : BatchedUpdateDocument)
  | delete (document : BatchedDeleteDocument)

inductive BatchType where
  | insert | update | delete
  deriving DecidableEq

def BatchItem.opType : BatchItem → BatchType
  | .insert _ => .insert
  | .update _ => .update
  | .delete _ => .delete

/-- What a targeter answers until it is refreshed. -/
structure NSTargeter where
  targetInsert : BSONObj → Except Status ShardEndpoint
  targetUpdate : BatchedUpdateDocument → Except Status (List ShardEndpoint)
  targetDelete : BatchedDeleteDocument → Except Status (List ShardEndpoint)
  targetCollection : Except Status (List ShardEndpoint)
  targetAllShards : Except Status (List ShardEndpoint)

structure WriteErrorDetail where
  errCode : ℤ
  index : ℤ
  errMessage : String
  deriving DecidableEq

/-- The error of a whole write, with the errors it was combined from. -/
structure OpError where
  detail : WriteErrorDetail
  causedBy : List WriteErrorDetail
  deriving DecidableEq

inductive WriteOpState where
  | ready | pending | completed | error | cancelled
  deriving DecidableEq

/-- A write for one shard, and the item and child it belongs to. -/
structure TargetedWrite where
  endpoint : ShardEndpoint
  writeOpRef : ℕ × ℕ
  deriving DecidableEq

structure ChildWriteOp where
  state : WriteOpState
  pendingWrite : Option TargetedWrite
  endpoint : Option ShardEndpoint
  error : Option WriteErrorDetail
  deriving DecidableEq

structure WriteOp where
  itemIndex : ℕ
  item : BatchItem
  state : WriteOpState
  childOps : List ChildWriteOp
  error : Option OpError
  history : List ChildWriteOp

variable (targeter : NSTargeter) (isIndexInsert : Bool)

/-- The first targeting call for an item. -/
def NSTargeter.targetOne : BatchItem → Except Status (List ShardEndpoint)
  | .update document => targeter.targetUpdate document
  | .delete document => targeter.targetDelete document
  | .insert document =>
      if isIndexInsert then targeter.targetCollection
      else (targeter.targetInsert document).map fun endpoint => [endpoint]

/-- The endpoints of an item. More than one of an update or delete means all shards. -/
def NSTargeter.targetItem (item : BatchItem) : Except Status (List ShardEndpoint) := do
  let endpoints ← targeter.targetOne isIndexInsert item
  if 1 < endpoints.length ∧ !isIndexInsert then targeter.targetAllShards else return endpoints

/-- Several endpoints are not versioned, as half of a write cannot be tried again. -/
def broadcastEndpoints (endpoints : List ShardEndpoint) : List ShardEndpoint :=
  if endpoints.length = 1 then endpoints
  else endpoints.map fun endpoint => ⟨endpoint.shardName, .IGNORED⟩

namespace WriteOp
variable (op : WriteOp) (write : TargetedWrite)

def new (itemIndex : ℕ) (item : BatchItem) : WriteOp :=
  ⟨itemIndex, item, .ready, [], none, []⟩

def targetWrites : Except Status (List TargetedWrite × WriteOp) := do
  let endpoints ← targeter.targetItem isIndexInsert op.item
  let writes := (broadcastEndpoints endpoints).mapIdx fun k endpoint =>
    (⟨endpoint, (op.itemIndex, op.childOps.length + k)⟩ : TargetedWrite)
  return (writes, { op with
    state := .pending
    childOps := op.childOps ++ writes.map fun write => ⟨.pending, some write, none, none⟩ })

def isRetryErrCode (errCode : ℤ) : Bool := errCode == ErrorCodes.StaleShardVersion

def combineOpErrors (errors : List WriteErrorDetail) : OpError :=
  match errors with
  | [error] => ⟨error, []⟩
  | _ =>
      ⟨⟨ErrorCodes.MultipleErrorsOccurred, (errors.head?.map WriteErrorDetail.index).getD 0,
        "multiple errors for op : " ++ " :: and :: ".intercalate (errors.map (·.errMessage))⟩,
        errors⟩

def childErrors : List WriteErrorDetail :=
  op.childOps.filterMap fun child => if child.state = .error then child.error else none

def updateOpState : WriteOp :=
  if op.childOps.any fun child => child.state ≠ .completed ∧ child.state ≠ .error then op
  else
    let op' := { op with history := op.history ++ op.childOps, childOps := [] }
    if op.childErrors = [] then { op' with state := .completed }
    else if op.childErrors.all fun error => isRetryErrCode error.errCode then
      { op' with state := .ready }
    else { op' with state := .error, error := some (combineOpErrors op.childErrors) }

def cancelWrites (why : Option WriteErrorDetail) : WriteOp :=
  let cancelled := op.childOps.map fun child =>
    if child.state = .pending then
      { child with
        endpoint := child.pendingWrite.map TargetedWrite.endpoint
        error := why.or child.error
        state := .cancelled }
    else child
  { op with state := .ready, childOps := [], history := op.history ++ cancelled }

/-- The child a response is for; none if it is not there any more. -/
def finishChild (state : WriteOpState) (error : Option WriteErrorDetail) : Option WriteOp :=
  if write.writeOpRef.2 < op.childOps.length then
    some { op with childOps := op.childOps.modify write.writeOpRef.2 fun child =>
      { child with
        pendingWrite := none
        endpoint := some write.endpoint
        error := error.or child.error
        state := state } }
  else none

def noteWriteComplete : Option WriteOp :=
  (op.finishChild write .completed none).map updateOpState

def noteWriteError (error : WriteErrorDetail) : Option WriteOp :=
  (op.finishChild write .error (some { error with index := op.itemIndex })).map updateOpState

def setOpError (error : WriteErrorDetail) : WriteOp :=
  { op with state := .error, error := some ⟨{ error with index := op.itemIndex }, []⟩ }

end WriteOp

theorem toInt_toInt32_eq_zero_iff (a : UInt32) : a.toInt32.toInt = 0 ↔ a = 0 := by
  constructor
  · intro h
    have h0 : a.toInt32 = 0 := Int32.toInt_inj.mp h
    have h1 := congrArg Int32.toUInt32 h0
    rw [UInt32.toUInt32_toInt32] at h1
    exact h1
  · rintro rfl
    rfl

theorem compareEndpoints_eq_zero_iff {a b : ShardEndpoint} :
    compareEndpoints a b = 0 ↔ a.shardName = b.shardName ∧
      a.shardVersion.minorVersion = b.shardVersion.minorVersion ∧
      (a.shardVersion.majorVersion = b.shardVersion.majorVersion →
        a.shardVersion.epoch = b.shardVersion.epoch) := by
  unfold compareEndpoints
  by_cases hname : a.shardName = b.shardName
  · have hcompare : compare a.shardName b.shardName = .eq := compare_eq_iff_eq.mpr hname
    rw [hcompare]
    by_cases hdiff : a.shardVersion.toLong = b.shardVersion.toLong
    · obtain ⟨hmajor, hminor⟩ := combined_eq_iff.mp hdiff
      simp only [hdiff]
      have hepoch : memcmp a.shardVersion.epoch.bytes b.shardVersion.epoch.bytes 12 = 0 ↔
          a.shardVersion.epoch = b.shardVersion.epoch := by
        rw [← ofSign_eq_iff, ofSign_memcmp_of_le (le_of_eq a.shardVersion.epoch.length_eq)
          (le_of_eq b.shardVersion.epoch.length_eq), Std.compare_eq_iff_eq]
        exact ⟨OID.ext, fun h => h ▸ rfl⟩
      simp [hepoch, hname, hmajor, hminor]
    · have hsub : a.shardVersion.toLong - b.shardVersion.toLong ≠ 0 := by grind
      simp only [hsub, ne_eq, not_false_eq_true, if_true]
      have hminor : (a.shardVersion.toLong - b.shardVersion.toLong).toUInt32.toInt32.toInt = 0 ↔
          a.shardVersion.minorVersion = b.shardVersion.minorVersion := by
        rw [toInt_toInt32_eq_zero_iff, UInt64.toUInt32_sub, minorVersion_eq, minorVersion_eq]
        unfold toLong
        grind
      rw [hminor]
      refine ⟨fun h => ⟨hname, h, fun hmajor => ?_⟩, fun h => h.2.1⟩
      exact absurd (combined_eq_iff.mpr ⟨hmajor, h⟩) hdiff
  · have hcompare : compare a.shardName b.shardName ≠ .eq := fun h => hname (compare_eq_iff_eq.mp h)
    cases h : compare a.shardName b.shardName with
    | lt => simp [hname]
    | gt => simp [hname]
    | eq => exact absurd h hcompare
end MongoServer
