import MongoServer.Quorum.OrderStatistic
import MongoServer.Sharding.OrderedWrites

/-!
Runs of a batch of writes, over any targeters and any answers that shards may give: no shard
applies an operation twice, an operation that is completed was applied by every shard it was
last targeted at, and an ordered batch is executed in order.
-/
namespace MongoServer.BatchWriteExec
open BatchWriteOp List Option
open TargetedWriteBatch (writes)

open Transition

variable {s s' : State} {state : WriteOpState} {i : ℕ} {response : BatchedCommandResponse}

def outstanding (s : State) : List TargetedWriteBatch :=
  s.childBatches ++ s.pendingBatches.map Prod.snd

/-- An error for a whole batch lets writes be tried again only if they went to one shard. -/
def ErrorOk (s : State) (batch : TargetedWriteBatch) (code : ℤ) : Prop :=
  code = ErrorCodes.StaleShardVersion →
    ∀ write ∈ batch.writes, (s.lastTargeting write.writeOpRef.1).length = 1

/-- The errors by item: distinct, in range, at most one if ordered, and none that lets a write
for several shards be tried again. -/
def ItemErrorsOk (s : State) (batch : TargetedWriteBatch) (errDetails : List WriteErrorDetail) :
    Prop :=
  (errDetails.map WriteErrorDetail.index).Nodup ∧
  (∀ error ∈ errDetails, 0 ≤ error.index ∧ error.index < batch.writes.length) ∧
  (s.batchOp.clientRequest.ordered = true → errDetails.length ≤ 1) ∧
  ∀ error ∈ errDetails, error.errCode = ErrorCodes.StaleShardVersion →
    ∀ write ∈ batch.writes[error.index.toNat]?, (s.lastTargeting write.writeOpRef.1).length = 1

def ResponseOk (s : State) (batch : TargetedWriteBatch) (response : BatchedCommandResponse) :
    Prop :=
  if response.ok then ItemErrorsOk s batch response.errDetails
  else ErrorOk s batch response.errCode

/-- What the targeters and the shards may do. -/
def Admissible (lawful : NSTargeter → Prop) (s : State) : Action → Prop
  | .targetBatch targeter => lawful targeter
  | .hostNotFound i status => ∀ batch ∈ s.childBatches[i]?, ErrorOk s batch status.code
  | .receive i response => ∀ pending ∈ s.pendingBatches[i]?, ResponseOk s pending.2 response
  | .receiveFailed i status => ∀ pending ∈ s.pendingBatches[i]?, ErrorOk s pending.2 status.code
  | _ => True

/-- No operation had failed when the batch was sent, and for each of its writes the earlier
operations were completed, or come before it in the batch, then the only one of its round. -/
def SentInOrder (sent : SentBatch) : Prop :=
  (∀ state ∈ sent.states, state ≠ .error) ∧
  ∀ k : ℕ, ∀ write ∈ sent.batch.writes[k]?, ∀ j : ℕ, j < write.writeOpRef.1 →
    sent.states[j]? = some .completed ∨ sent.round = [sent.batch] ∧
        ∃ k' : ℕ, k' < k ∧ ∃ earlier ∈ sent.batch.writes[k']?, earlier.writeOpRef.1 = j

/-- What every run keeps. -/
structure Inv (s : State) : Prop where
  tracked : Tracked s.batchOp.writeOps ((outstanding s).flatMap writes)
    s.acknowledged s.lastTargeting
  ordered : s.batchOp.clientRequest.ordered = true → s.phase ≠ .done →
    InOrder s.batchOp.writeOps s.lastTargeting s.round (outstanding s)
  idle : s.phase ≠ .sending → outstanding s = []
  unfinished : s.phase = .targeting → s.batchOp.isFinished = false
  sent : s.batchOp.clientRequest.ordered = true → ∀ sent ∈ s.sent, SentInOrder sent

section Answers
variable {batch : TargetedWriteBatch} {rest : List TargetedWriteBatch}
  {errDetails : List WriteErrorDetail} {batchOp : BatchWriteOp} {ordered : Bool}

theorem sorted_errors (hnodup : (errDetails.map WriteErrorDetail.index).Nodup) :
    (errDetails.insertionSort fun a b => a.index ≤ b.index).Pairwise
      fun a b => a.index < b.index := by
  have hle : (errDetails.insertionSort fun a b => a.index ≤ b.index).Pairwise
      fun a b => a.index ≤ b.index :=
    Quorum.pairwise_insertionSort_on (P := fun _ => True)
      (fun a b : WriteErrorDetail => le_total a.index b.index)
      (fun a b c _ _ _ => le_trans) fun _ _ => trivial
  have hperm := perm_insertionSort (fun a b : WriteErrorDetail => a.index ≤ b.index) errDetails
  have hne : (errDetails.insertionSort fun a b => a.index ≤ b.index).Pairwise
      fun a b => a.index ≠ b.index :=
    pairwise_map.mp ((hperm.map _).nodup_iff.mpr hnodup)
  exact hle.imp₂ (fun a b h₁ h₂ => lt_of_le_of_ne h₁ h₂) hne

theorem Inv.noteItemErrors (h : Inv s) (hphase : s.phase ≠ .done)
    (hout : (outstanding s).Perm (batch :: rest))
    (hnodup : (errDetails.map WriteErrorDetail.index).Nodup)
    (hrange : ∀ error ∈ errDetails, 0 ≤ error.index)
    (hone : s.batchOp.clientRequest.ordered = true → errDetails.length ≤ 1)
    (hstale : ∀ error ∈ errDetails, error.errCode = ErrorCodes.StaleShardVersion →
      ∀ write ∈ batch.writes[error.index.toNat]?, (s.lastTargeting write.writeOpRef.1).length = 1)
    (hnote : s.batchOp.noteItemErrors batch errDetails = some batchOp) :
    batchOp.clientRequest = s.batchOp.clientRequest ∧
    Tracked batchOp.writeOps (rest.flatMap writes)
      (s.acknowledged ++ (applied s.batchOp.clientRequest.ordered errDetails 0
        batch.writes).map fun write => (write.writeOpRef.1, write.endpoint.shardName))
      s.lastTargeting ∧
    (s.batchOp.clientRequest.ordered = true →
      InOrder batchOp.writeOps s.lastTargeting s.round rest) := by
  unfold BatchWriteOp.noteItemErrors at hnote
  obtain ⟨writeOps, hwrites, rfl⟩ := bind_pure_eq_some.mp hnote
  have hperm := perm_insertionSort (fun a b : WriteErrorDetail => a.index ≤ b.index) errDetails
  have hsorted := sorted_errors hnodup
  have hrange' : ∀ error ∈ errDetails.insertionSort fun a b => a.index ≤ b.index,
      ((0 : ℕ) : ℤ) ≤ error.index := fun error herror => hrange error (hperm.mem_iff.mp herror)
  have hone' : s.batchOp.clientRequest.ordered = true →
      (errDetails.insertionSort fun a b => a.index ≤ b.index).length ≤ 1 := by
    rw [hperm.length_eq]
    exact hone
  have htracked : Tracked s.batchOp.writeOps
      (batch.writes ++ rest.flatMap writes) s.acknowledged s.lastTargeting :=
    h.tracked.perm (by simpa using hout.flatMap_right writes)
  have horder : s.batchOp.clientRequest.ordered = true →
      InOrder s.batchOp.writeOps s.lastTargeting s.round (batch :: rest) := fun ho =>
    (h.ordered ho hphase).perm hout
  have happlied : applied s.batchOp.clientRequest.ordered errDetails 0 batch.writes =
      applied s.batchOp.clientRequest.ordered
        (errDetails.insertionSort fun a b => a.index ≤ b.index) 0 batch.writes :=
    applied_congr fun k _ => hperm.any_eq.symm
  refine ⟨rfl, ?_, fun ho => ?_⟩
  · rw [happlied]
    refine htracked.noteWrites hsorted hrange' (fun k write hk error herror heq hretry => ?_)
      (fun ho => ⟨rfl, hone' ho, (horder ho).batch_cases⟩) hwrites
    refine hstale error (hperm.mem_iff.mp herror) (by simpa [WriteOp.isRetryErrCode] using hretry)
      write ?_
    rw [heq]
    simpa using hk
  · rw [ho] at hwrites
    exact (horder ho).noteWrites htracked hsorted hrange' (hone' ho) hwrites

theorem any_toWriteErrors (error : WriteErrorDetail) (numWrites k : ℕ) :
    (toWriteErrors error ordered numWrites).any (fun error => decide (error.index = (k : ℤ))) =
      decide (k < if ordered then 1 else numWrites) := by
  unfold toWriteErrors
  rw [List.any_map, Bool.eq_iff_iff]
  simp [Function.comp_def]

theorem applied_toWriteErrors (error : WriteErrorDetail) {writes : List TargetedWrite}
    {index numWrites : ℕ} (hindex : ordered = true → index = 0)
    (hlength : index + writes.length = numWrites) :
    applied ordered (toWriteErrors error ordered numWrites) index writes = [] := by
  induction writes generalizing index with
  | nil => rfl
  | cons write rest ih =>
    rw [length_cons] at hlength
    unfold applied
    cases ordered with
    | true => simp only [any_toWriteErrors, hindex rfl, if_true, Nat.zero_lt_one, decide_true]
    | false =>
      have hlt : index < numWrites := by omega
      simp only [any_toWriteErrors, hlt, Bool.false_eq_true, if_false, decide_true, if_true]
      exact ih (by simp) (by omega)

theorem Inv.noteBatchError (h : Inv s) (hphase : s.phase ≠ .done)
    (hout : (outstanding s).Perm (batch :: rest)) {error : WriteErrorDetail}
    (herror : ErrorOk s batch error.errCode)
    (hnote : s.batchOp.noteBatchError batch error = some batchOp) :
    batchOp.clientRequest = s.batchOp.clientRequest ∧
    Tracked batchOp.writeOps (rest.flatMap writes) s.acknowledged s.lastTargeting ∧
    (s.batchOp.clientRequest.ordered = true →
      InOrder batchOp.writeOps s.lastTargeting s.round rest) := by
  unfold BatchWriteOp.noteBatchError at hnote
  have hmem : ∀ e ∈ toWriteErrors error s.batchOp.clientRequest.ordered
      batch.writes.length, 0 ≤ e.index ∧ e.errCode = error.errCode := by
    intro e he
    obtain ⟨i, -, rfl⟩ := mem_map.mp he
    exact ⟨Int.natCast_nonneg i, rfl⟩
  have hnodup : ((toWriteErrors error s.batchOp.clientRequest.ordered
      batch.writes.length).map WriteErrorDetail.index).Nodup := by
    unfold toWriteErrors
    rw [List.map_map]
    exact nodup_range.map Nat.cast_injective
  have hone : s.batchOp.clientRequest.ordered = true → (toWriteErrors error
      s.batchOp.clientRequest.ordered batch.writes.length).length ≤ 1 := by
    intro ho
    simp [toWriteErrors, ho]
  have hnoted := h.noteItemErrors hphase hout hnodup (fun e he => (hmem e he).1) hone
    (fun e he hstale write hwrite => herror ((hmem e he).2 ▸ hstale) write
      (mem_of_getElem? hwrite)) hnote
  rw [applied_toWriteErrors error (fun _ => rfl) (Nat.zero_add _), map_nil, append_nil] at hnoted
  exact hnoted

end Answers

section Rounds

variable {ops : List WriteOp} {acks : List (ℕ × String)} {last : ℕ → List ShardEndpoint}

theorem Tracked.not_pending (h : Tracked ops [] acks last) : ∀ op ∈ ops, op.state ≠ .pending := by
  intro op hop hpending
  obtain ⟨i, hi⟩ := mem_iff_getElem?.mp hop
  obtain ⟨-, hstate⟩ := h.op i op hi
  rw [hpending] at hstate
  obtain ⟨child, hchild, hwaits⟩ := hstate.waits
  obtain ⟨c, hc⟩ := mem_iff_getElem?.mp hchild
  have hlt := hstate.length ▸ (List.getElem?_eq_some_iff.mp hc).1
  have hchildOk := hstate.children c _ child (List.getElem?_eq_getElem hlt) hc
  rw [ChildOk, hwaits] at hchildOk
  exact absurd hchildOk.1 (by simp)

theorem Looping.start (h : Tracked ops [] acks last) : Looping [] ops [] acks last := by
  have htargeting : targeting ops last = last := by
    funext i
    cases hi : ops[i]? with
    | none => simp [targeting, hi]
    | some op => exact targeting_of_not_pending hi (h.not_pending op (mem_of_getElem? hi))
  constructor
  · rw [nil_append, htargeting]
    exact h
  · simp [TargetedBatchMap.writes]
  · simp [TargetedBatchMap.writes]

theorem Tracked.not_cancelled {out : List TargetedWrite} (h : Tracked ops out acks last) :
    ∀ op ∈ ops, op.state ≠ .cancelled := by
  intro op hop hcancelled
  obtain ⟨i, hi⟩ := mem_iff_getElem?.mp hop
  obtain ⟨-, hstate⟩ := h.op i op hi
  rw [hcancelled] at hstate
  exact hstate

theorem isFinishedFrom_error {l r : List WriteOp} {op : WriteOp}
    (hl : ∀ op ∈ l, op.state = .completed) (hop : op.state = .error) :
    isFinishedFrom true (l ++ op :: r) = true := by
  induction l with
  | nil => simp [isFinishedFrom, isUnfinished, hop]
  | cons first rest ih =>
    have hfirst := hl first mem_cons_self
    have hrest := ih (forall_mem_cons.mp hl).2
    simp [isFinishedFrom, isUnfinished, hfirst, hrest]

theorem mem_take_state {k : ℕ} (h : ∀ j, j < k → StateAt ops j state) :
    ∀ op ∈ ops.take k, op.state = state := by
  intro op hop
  obtain ⟨j, hj⟩ := mem_iff_getElem?.mp hop
  have hlt : j < k := by
    have := (List.getElem?_eq_some_iff.mp hj).1
    rw [length_take] at this
    omega
  rw [getElem?_take_of_lt hlt] at hj
  exact h j hlt op hj

theorem mem_drop_state {k : ℕ} (h : ∀ j, k ≤ j → StateAt ops j state) :
    ∀ op ∈ ops.drop k, op.state = state := by
  intro op hop
  obtain ⟨j, hj⟩ := mem_iff_getElem?.mp hop
  rw [getElem?_drop] at hj
  exact h (k + j) (Nat.le_add_right k j) op hj

theorem InOrder.start {round : List TargetedWriteBatch} (h : InOrder ops last round [])
    (htracked : Tracked ops [] acks last)
    (hunfinished : isFinishedFrom true ops = false) : OrderedLoop last [] ops [] := by
  obtain ⟨k, -, hbefore, hafter, -⟩ := h
  refine .start (by simp) ?_
  have hl := mem_take_state hbefore
  have hr := mem_drop_state (k := k + 1) hafter
  by_cases hk : k < ops.length
  · have hsplit : ops = ops.take k ++ ops[k] :: ops.drop (k + 1) := by
      rw [getElem_cons_drop, take_append_drop]
    have hmem := getElem_mem hk
    cases hstate : ops[k].state with
    | ready =>
      exact ⟨ops.take k, ops[k] :: ops.drop (k + 1), hsplit, hl, forall_mem_cons.mpr ⟨hstate, hr⟩⟩
    | pending => exact absurd hstate (htracked.not_pending _ hmem)
    | completed =>
      exact ⟨ops.take k ++ [ops[k]], ops.drop (k + 1), by simp,
        forall_mem_append.mpr ⟨hl, forall_mem_singleton.mpr hstate⟩, hr⟩
    | error =>
      rw [hsplit, isFinishedFrom_error hl hstate] at hunfinished
      exact absurd hunfinished (by simp)
    | cancelled => exact absurd hstate (htracked.not_cancelled _ hmem)
  · refine ⟨ops, [], by simp, fun op hop => ?_, by simp⟩
    rw [← take_of_length_le (not_lt.mp hk)] at hop
    exact hl op hop

theorem abortOps_getElem? {ordered : Bool} {error : WriteErrorDetail} {op' : WriteOp}
    (h : (abortOps ordered error ops)[i]? = some op') :
    ∃ op : WriteOp, ops[i]? = some op ∧ (op' = op ∨ op' = op.setOpError error) := by
  induction ops generalizing i with
  | nil => simp [abortOps] at h
  | cons first rest ih =>
    unfold abortOps at h
    cases i with
    | zero =>
      refine ⟨first, rfl, ?_⟩
      split_ifs at h
      · exact .inr (Option.some.inj h).symm
      · exact .inr (Option.some.inj h).symm
      · exact .inl (Option.some.inj h).symm
    | succ i =>
      split_ifs at h
      · exact ⟨op', h, .inl rfl⟩
      · exact ih h
      · exact ih h

theorem Tracked.abortOps (h : Tracked ops [] acks last) (ordered : Bool)
    (error : WriteErrorDetail) :
    Tracked (abortOps ordered error ops) [] acks last := by
  refine ⟨fun i op' hi => ?_, by simp, nodup_nil, h.acks_nodup⟩
  obtain ⟨op, hget, rfl | rfl⟩ := abortOps_getElem? hi
  · exact h.op i _ hget
  · exact ⟨(h.op i op hget).1, by simp [WriteOp.setOpError, NoneOut]⟩

end Rounds

section Sending
variable {ops : List WriteOp} {acks : List (ℕ × String)} {last : ℕ → List ShardEndpoint}
  {round batches : List TargetedWriteBatch} {batch : TargetedWriteBatch}

theorem Tracked.pending (h : Tracked ops (batches.flatMap writes) acks last)
    (hbatch : batch ∈ batches) {write : TargetedWrite} (hwrite : write ∈ batch.writes) :
    write.writeOpRef.1 < ops.length ∧ StateAt ops write.writeOpRef.1 .pending := by
  have hout : write ∈ batches.flatMap writes :=
    mem_flatMap.mpr ⟨batch, hbatch, hwrite⟩
  exact ⟨h.inside write hout, fun op hop => ((h.op _ op hop).pending hout rfl).1⟩

theorem StateAt.getElem?_map {j : ℕ} (h : StateAt ops j state)
    (hj : j < ops.length) : (ops.map WriteOp.state)[j]? = some state := by
  have hget := getElem?_eq_getElem hj
  rw [List.getElem?_map, hget, map_some, h _ hget]

theorem map_state_ne_error (h : ∀ j, ∃ state, state ≠ .error ∧ StateAt ops j state) :
    ∀ state ∈ ops.map WriteOp.state, state ≠ .error := by
  intro state hstate
  obtain ⟨op, hop, rfl⟩ := mem_map.mp hstate
  obtain ⟨j, hj⟩ := mem_iff_getElem?.mp hop
  obtain ⟨state, hne, hat⟩ := h j
  rw [hat op hj]
  exact hne

theorem InOrder.sent (h : InOrder ops last round batches)
    (htracked : Tracked ops (batches.flatMap writes) acks last)
    (hbatch : batch ∈ batches) : SentInOrder ⟨batch, round, ops.map WriteOp.state⟩ := by
  cases h with
  | single k _ hbefore hafter hbatches =>
    obtain ⟨write, hwrites, hk⟩ := hbatches batch hbatch
    have hwrite : write ∈ batch.writes := by simp [hwrites]
    obtain ⟨hlt, hpending⟩ := htracked.pending hbatch hwrite
    rw [hk] at hlt hpending
    constructor
    · refine map_state_ne_error fun j => ?_
      rcases lt_trichotomy j k with hj | rfl | hj
      · exact ⟨_, by simp, hbefore j hj⟩
      · exact ⟨_, by simp, hpending⟩
      · exact ⟨_, by simp, hafter j hj⟩
    · intro m write' hwrite' j hj
      have hmem : write' ∈ batch.writes := mem_of_getElem? hwrite'
      rw [hwrites, mem_singleton] at hmem
      rw [hmem, hk] at hj
      exact .inl ((hbefore j hj).getElem?_map (by omega))
  | sequence k only hbefore hrefs hafter _ hround =>
    obtain rfl := mem_singleton.mp hbatch
    have href : ∀ m (hm : m < batch.writes.length), batch.writes[m].writeOpRef.1 = k + m := by
      intro m hm
      have hget : (batch.writes.map (·.writeOpRef.1))[m]? =
          (range' k batch.writes.length)[m]? := by rw [hrefs]
      simpa [hm] using hget
    constructor
    · refine map_state_ne_error fun j => ?_
      by_cases hj : j < k
      · exact ⟨_, by simp, hbefore j hj⟩
      by_cases hj' : j < k + batch.writes.length
      · have hm : j - k < batch.writes.length := by omega
        have hpending := (htracked.pending hbatch (getElem_mem hm)).2
        rw [href (j - k) hm, Nat.add_sub_cancel' (not_lt.mp hj)] at hpending
        exact ⟨_, by simp, hpending⟩
      · exact ⟨_, by simp, hafter j (not_lt.mp hj')⟩
    · intro m write hwrite j hj
      obtain ⟨hm, rfl⟩ : ∃ hm : m < batch.writes.length, batch.writes[m] = write :=
        List.getElem?_eq_some_iff.mp hwrite
      have hlt := (htracked.pending hbatch (getElem_mem hm)).1
      rw [href m hm] at hj hlt
      by_cases hjk : j < k
      · exact .inl ((hbefore j hjk).getElem?_map (by omega))
      · have hm' : j - k < batch.writes.length := by omega
        refine .inr ⟨hround, j - k, by omega, batch.writes[j - k], getElem?_eq_getElem hm', ?_⟩
        rw [href (j - k) hm', Nat.add_sub_cancel' (not_lt.mp hjk)]

end Sending

section Steps

protected theorem Inv.init (request : BatchedCommandRequest) : Inv (init request) := by
  have hop : ∀ i (op : WriteOp), (request.items.mapIdx WriteOp.new)[i]? = some op →
      op.itemIndex = i ∧ op.state = .ready ∧ op.childOps = [] := by
    intro i op hi
    rw [getElem?_mapIdx] at hi
    obtain ⟨item, -, rfl⟩ := map_eq_some_iff.mp hi
    exact ⟨rfl, rfl, rfl⟩
  constructor
  · refine ⟨fun i op hi => ?_, by simp [outstanding, init],
      by simp [outstanding, init], by simp [init]⟩
    obtain ⟨hindex, hready, hchildren⟩ := hop i op hi
    refine ⟨hindex, ?_⟩
    rw [hready]
    exact ⟨hchildren, by simp [NoneOut, outstanding, init], by simp [NoneAcked, init]⟩
  · intro _ _
    exact .single 0 _ (by simp) (fun j _ op hj => (hop j op hj).2.1) (by simp [outstanding, init])
  · intro _
    rfl
  · intro htargeting
    simpa [init] using htargeting
  · simp [init]

theorem perm_eraseIdx {α : Type*} {l : List α} {a : α} (h : l[i]? = some a) :
    l.Perm (a :: l.eraseIdx i) := by
  obtain ⟨hlt, rfl⟩ := List.getElem?_eq_some_iff.mp h
  exact (getElem_cons_eraseIdx_perm hlt).symm

theorem outstanding_child {batch : TargetedWriteBatch}
    (h : s.childBatches[i]? = some batch) : (outstanding s).Perm
      (batch :: (s.childBatches.eraseIdx i ++ s.pendingBatches.map Prod.snd)) :=
  (perm_eraseIdx h).append_right _

theorem outstanding_pending {pending : String × TargetedWriteBatch}
    (h : s.pendingBatches[i]? = some pending) : (outstanding s).Perm
      (pending.2 :: (s.childBatches ++ (s.pendingBatches.eraseIdx i).map Prod.snd)) := by
  have hpending := ((perm_eraseIdx h).map Prod.snd).append_left s.childBatches
  exact hpending.trans perm_middle

/-- A step keeps the invariant and the request. -/
def Kept (s s' : State) : Prop :=
  Inv s' ∧ s'.batchOp.clientRequest = s.batchOp.clientRequest

section
variable (h : Inv s)
include h

theorem Inv.targetBatch {targeter : NSTargeter} (hT : Targets targeter)
    (hstep : step s (.targetBatch targeter) = some s') : Kept s s' := by
  rw [step] at hstep
  split_ifs at hstep with hphase
  cases hstep
  have hnone : outstanding s = [] := h.idle (by simp [hphase])
  have hpending : s.pendingBatches = [] := by
    simpa using (append_eq_nil_iff.mp hnone).2
  have htracked := h.tracked
  rw [hnone, flatMap_nil] at htracked
  have hloop := Looping.start htracked
  refine ⟨?_, rfl⟩
  constructor
  · have := hloop.targetOps s.batchOp hT s.refreshedTargeter
    simpa [outstanding, hpending, BatchWriteOp.targetBatch] using this
  · intro ho _
    have hordered : s.batchOp.clientRequest.ordered = true := ho
    have horder := h.ordered hordered (by simp [hphase])
    rw [hnone] at horder
    have hunfinished := h.unfinished hphase
    rw [isFinished, hordered] at hunfinished
    have := OrderedLoop.targetOps s.batchOp hordered hT s.refreshedTargeter hloop
      (horder.start htracked hunfinished)
    simpa [outstanding, hpending, BatchWriteOp.targetBatch] using this
  · simp
  · simp
  · exact h.sent

theorem Inv.sending_of_mem {batch : TargetedWriteBatch}
    (hbatch : batch ∈ outstanding s) : s.phase = .sending := by
  by_contra hphase
  rw [h.idle hphase] at hbatch
  simp at hbatch

/-- What was outstanding without a batch is left when the answer for the batch was noted. -/
theorem Inv.answered {batch : TargetedWriteBatch}
    (hout : (outstanding s).Perm (batch :: outstanding s')) (hphase : s'.phase = s.phase)
    (hround : s'.round = s.round) (hlast : s'.lastTargeting = s.lastTargeting)
    (hsent : s'.sent = s.sent)
    (hnoted : s.phase ≠ .done → s'.batchOp.clientRequest = s.batchOp.clientRequest ∧
      Tracked s'.batchOp.writeOps ((outstanding s').flatMap writes) s'.acknowledged
        s.lastTargeting ∧
      (s.batchOp.clientRequest.ordered = true →
        InOrder s'.batchOp.writeOps s.lastTargeting s.round (outstanding s'))) : Kept s s' := by
  have hsending := h.sending_of_mem (hout.mem_iff.mpr mem_cons_self)
  obtain ⟨hrequest, htracked, horder⟩ := hnoted (by simp [hsending])
  refine ⟨?_, hrequest⟩
  constructor
  · rwa [hlast]
  · intro ho _
    rw [hlast, hround]
    exact horder (hrequest ▸ ho)
  · simp [hphase, hsending]
  · simp [hphase, hsending]
  · rw [hrequest, hsent]
    exact h.sent

theorem Inv.hostNotFound {status : Status} (hok : Admissible Targets s (.hostNotFound i status))
    (hstep : step s (.hostNotFound i status) = some s') : Kept s s' := by
  obtain ⟨batch, hbatch, hstep⟩ := bind_eq_some_iff.mp hstep
  obtain ⟨batchOp, hnote, rfl⟩ := bind_pure_eq_some.mp hstep
  have hout := outstanding_child hbatch
  exact h.answered hout rfl rfl rfl rfl fun hphase =>
    h.noteBatchError hphase hout (hok batch hbatch) hnote

theorem Inv.receiveFailed {status : Status} (hok : Admissible Targets s (.receiveFailed i status))
    (hstep : step s (.receiveFailed i status) = some s') : Kept s s' := by
  obtain ⟨pending, hpending, hstep⟩ := bind_eq_some_iff.mp hstep
  obtain ⟨batchOp, hnote, rfl⟩ := bind_pure_eq_some.mp hstep
  have hout := outstanding_pending hpending
  exact h.answered hout rfl rfl rfl rfl fun hphase =>
    h.noteBatchError hphase hout (hok pending hpending) hnote

theorem Inv.receive (hok : Admissible Targets s (.receive i response))
    (hstep : step s (.receive i response) = some s') : Kept s s' := by
  obtain ⟨pending, hpending, hstep⟩ := bind_eq_some_iff.mp hstep
  obtain ⟨batchOp, hnote, rfl⟩ := bind_pure_eq_some.mp hstep
  have hresponse := hok pending hpending
  have hout := outstanding_pending hpending
  refine h.answered hout rfl rfl rfl rfl fun hphase => ?_
  unfold noteBatchResponse at hnote
  unfold ResponseOk at hresponse
  dsimp only
  unfold acknowledges
  split_ifs at hnote hresponse ⊢
  · obtain ⟨hnodup, hrange, hone, hstale⟩ := hresponse
    exact h.noteItemErrors hphase hout hnodup (fun error herror => (hrange error herror).1) hone
      hstale hnote
  · rw [append_nil]
    exact h.noteBatchError hphase hout hresponse hnote

theorem Inv.send {host : String} (hstep : step s (.send i host) = some s') : Kept s s' := by
  obtain ⟨batch, hbatch, hstep⟩ := bind_eq_some_iff.mp hstep
  split_ifs at hstep
  cases hstep
  have hout := outstanding_child hbatch
  have hmem := hout.mem_iff.mpr mem_cons_self
  have hsending := h.sending_of_mem hmem
  have hperm : (outstanding s).Perm
      (s.childBatches.eraseIdx i ++ (s.pendingBatches ++ [(host, batch)]).map Prod.snd) := by
    rw [map_append, ← append_assoc]
    exact hout.trans (perm_append_singleton _ _).symm
  refine ⟨?_, rfl⟩
  constructor
  · exact h.tracked.perm (hperm.flatMap_right _)
  · intro ho hphase
    exact (h.ordered ho hphase).perm hperm
  · intro hphase
    exact absurd hsending hphase
  · intro hphase
    exact absurd (hsending.symm.trans hphase) (by simp)
  · exact fun ho => forall_mem_append.mpr ⟨h.sent ho, forall_mem_singleton.mpr
      ((h.ordered ho (by simp [hsending])).sent h.tracked hmem)⟩

theorem Inv.endRound {changed : Bool}
    (hstep : step s (.endRound changed) = some s') : Kept s s' := by
  rw [step] at hstep
  split_ifs at hstep with hround
  cases hstep
  obtain ⟨hsending, hchild, hpending⟩ := hround
  have hnone : outstanding s = [] := by
    rw [outstanding, isEmpty_iff.mp hchild, isEmpty_iff.mp hpending]
    rfl
  have htracked := h.tracked
  unfold nextRound
  dsimp only
  split_ifs with hfinished hrounds
  · exact ⟨⟨htracked, by simp, fun _ => hnone, by simp, h.sent⟩, rfl⟩
  · refine ⟨⟨?_, by simp, fun _ => hnone, by simp, h.sent⟩, rfl⟩
    rw [hnone, flatMap_nil] at htracked
    change Tracked _ ((outstanding s).flatMap writes) _ _
    rw [hnone, flatMap_nil]
    exact htracked.abortOps s.batchOp.clientRequest.ordered _
  · exact ⟨⟨htracked, fun ho _ => h.ordered ho (by simp [hsending]), fun _ => hnone,
      fun _ => by simpa using hfinished, h.sent⟩, rfl⟩

theorem Inv.step {a : Action} (hok : Admissible Targets s a)
    (hstep : step s a = some s') : Kept s s' := by
  cases a with
  | targetBatch targeter => exact h.targetBatch hok hstep
  | hostNotFound i status => exact h.hostNotFound hok hstep
  | send i host => exact h.send hstep
  | receive i response => exact h.receive hok hstep
  | receiveFailed i status => exact h.receiveFailed hok hstep
  | endRound changed => exact h.endRound hstep

end

end Steps

/-- If every call of a targeter returns distinct shards, then no shard acknowledges an operation
twice, a completed operation was acknowledged by all shards it was last targeted at, and an
ordered batch is sent in order. -/
theorem executeBatch_safety (request : BatchedCommandRequest) (s : State)
    (h : Steps step (Admissible Targets) (init request) s) :
    s.acknowledged.Nodup ∧
    (∀ i op, s.batchOp.writeOps[i]? = some op → op.state = .completed →
      s.lastTargeting i ≠ [] ∧ ∀ e ∈ s.lastTargeting i, (i, e.shardName) ∈ s.acknowledged) ∧
    (request.ordered = true → ∀ sent ∈ s.sent, SentInOrder sent) := by
  have hinv : Inv s ∧ s.batchOp.clientRequest = request :=
    h.invariant (P := fun s => Inv s ∧ s.batchOp.clientRequest = request)
      ⟨Inv.init request, rfl⟩ fun _ _ _ hs hok hstep =>
        (hs.1.step hok hstep).imp_right fun hrequest => hrequest.trans hs.2
  obtain ⟨hinv, rfl⟩ := hinv
  refine ⟨hinv.tracked.acks_nodup, fun i op hop hcompleted => ?_, hinv.sent⟩
  obtain ⟨-, hstate⟩ := hinv.tracked.op i op hop
  rw [hcompleted] at hstate
  exact hstate.2

section Runs

instance (s : State) (batch : TargetedWriteBatch) (code : ℤ) : Decidable (ErrorOk s batch code) :=
  inferInstanceAs (Decidable (_ → _))

instance (s : State) (batch : TargetedWriteBatch) (errDetails : List WriteErrorDetail) :
    Decidable (ItemErrorsOk s batch errDetails) :=
  inferInstanceAs (Decidable (_ ∧ _ ∧ _ ∧ _))

instance (s : State) (batch : TargetedWriteBatch) (response : BatchedCommandResponse) :
    Decidable (ResponseOk s batch response) :=
  inferInstanceAs (Decidable (ite _ _ _))

instance (s : State) (a : Action) : Decidable (Admissible (fun _ => True) s a) :=
  match a with
  | .targetBatch _ => .isTrue trivial
  | .hostNotFound i status =>
      inferInstanceAs (Decidable (∀ batch ∈ s.childBatches[i]?, ErrorOk s batch status.code))
  | .send _ _ => .isTrue trivial
  | .receive i response =>
      inferInstanceAs (Decidable (∀ pending ∈ s.pendingBatches[i]?,
        ResponseOk s pending.2 response))
  | .receiveFailed i status =>
      inferInstanceAs (Decidable (∀ pending ∈ s.pendingBatches[i]?,
        ErrorOk s pending.2 status.code))
  | .endRound _ => .isTrue trivial

/-- A run in which every step may be taken, if the targeters are lawful. -/
theorem Steps.of_targeters {lawful : NSTargeter → Prop} (as : List Action)
    (hlawful : ∀ targeter, .targetBatch targeter ∈ as → lawful targeter)
    (h : runGuarded step (Admissible fun _ => True) as s = some s') :
    Transition.Steps step (Admissible lawful) s s' := by
  refine Steps.of_runGuarded_of_mem as (fun s a ha hok => ?_) h
  cases a with
  | targetBatch targeter => exact hlawful targeter ha
  | hostNotFound i status | send i host | receive i response | receiveFailed i status
  | endRound changed => exact hok

/-- An update of documents of shard `A`, then one of everything. -/
def orderedUpdates : BatchedCommandRequest where
  nss := ⟨"db", "coll"⟩
  batchType := .update
  items := [.update ⟨[(.empty, .jstNULL)], [], none⟩, .update ⟨[], [], none⟩]
  items_opType := by simp [BatchItem.opType]
  ordered := true

theorem targets_twoShards : Targets twoShards := by
  have hboth : [shardA, shardB] ≠ [] ∧ ([shardA, shardB].map ShardEndpoint.shardName).Nodup := by
    decide
  constructor
  · intro document endpoints h
    cases h
    split_ifs
    · exact hboth
    · decide
  · intro document endpoints h
    cases h
    decide
  · intro endpoints h
    cases h
    exact hboth
  · intro endpoints h
    cases h
    exact hboth

def answered : BatchedCommandResponse := ⟨true, 0, "", []⟩

/-- The first update is tried again, and the second one follows it. -/
def orderedRun : List Action :=
  [.targetBatch twoShards, .send 0 "a",
    .receive 0 ⟨true, 0, "", [⟨ErrorCodes.StaleShardVersion, 0, "stale"⟩]⟩, .endRound true,
    .targetBatch twoShards, .send 0 "a", .receive 0 answered, .endRound false,
    .targetBatch twoShards, .send 1 "b", .send 0 "a", .receive 0 answered, .receive 0 answered,
    .endRound false]

theorem executeBatch_safety_orderedRun :
    ∃ s, Transition.Steps step (Admissible Targets) (init orderedUpdates) s ∧
      s.acknowledged = [(0, "A"), (1, "B"), (1, "A")] ∧ s.acknowledged.Nodup ∧
      ∀ sent ∈ s.sent, SentInOrder sent := by
  have hrun : Transition.Steps step (Admissible Targets) (init orderedUpdates) _ :=
    Steps.of_targeters orderedRun (by simp [orderedRun, targets_twoShards]) rfl
  have hsafe := executeBatch_safety orderedUpdates _ hrun
  exact ⟨_, hrun, rfl, hsafe.1, hsafe.2.2 rfl⟩

/-- Every call that succeeds returns an endpoint. -/
structure TargetsSome (targeter : NSTargeter) : Prop where
  update : ∀ document, targeter.targetUpdate document ≠ .ok []
  delete : ∀ document, targeter.targetDelete document ≠ .ok []
  collection : targeter.targetCollection ≠ .ok []
  allShards : targeter.targetAllShards ≠ .ok []

def oneShardTwice : NSTargeter := { twoShards with targetAllShards := .ok [shardA, shardA] }

theorem targetsSome_oneShardTwice : TargetsSome oneShardTwice := by
  constructor
  · intro document h
    have hnil := Except.ok.inj h
    split_ifs at hnil
  · intro document h
    exact absurd (Except.ok.inj h) (by decide)
  · intro h
    exact absurd (Except.ok.inj h) (by decide)
  · intro h
    exact absurd (Except.ok.inj h) (by decide)

def repeatedRun : List Action :=
  [.targetBatch oneShardTwice, .send 0 "a", .receive 0 answered]

/-- A shard that a targeter names twice applies the operation twice. -/
theorem acknowledged_twice :
    ∃ s, Transition.Steps step (Admissible TargetsSome) (init orderedUpdates) s ∧
      ¬s.acknowledged.Nodup := by
  have hrun : Transition.Steps step (Admissible TargetsSome) (init orderedUpdates) _ :=
    Steps.of_targeters repeatedRun (by simp [repeatedRun, targetsSome_oneShardTwice]) rfl
  refine ⟨_, hrun, ?_⟩
  change ¬[(0, "A"), (1, "A"), (1, "A")].Nodup
  decide

end Runs

end MongoServer.BatchWriteExec
