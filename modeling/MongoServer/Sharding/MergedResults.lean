import MongoServer.Sharding.AsyncResultsMerger
import MongoServer.Transition.Merging

/-!
Runs of the merger and its remotes. The merger takes the first result of one remote at a time, as a
merge of their streams does: a buffer and what its remote has not sent make up what remains of the
stream, and the queue holds the remotes with something in their buffers.
-/
namespace MongoServer
open Transition Function List RemoteCursorData Prod

namespace AsyncResultsMerger
variable {n : ℕ} {params : ClusterClientCursorParams} {arm arm' : AsyncResultsMerger n}
  {front : ClusterQueryResult} {rest : List ClusterQueryResult}

/-- Whether a remote has a cursor yet. -/
inductive Remote where
  | shard (cmdObj : BSONObj)
  | cursor (cursorId : ℤ)

def Remote.start : Remote → RemoteCursorData
  | .shard cmdObj => { initialCmdObj := some cmdObj, cursorId := none }
  | .cursor cursorId => { initialCmdObj := none, cursorId := some cursorId }

def start (remotes : Fin n → Remote) : AsyncResultsMerger n :=
  { remotes := fun i => (remotes i).start }

def Scheduling.succeeds : Scheduling := ⟨.ok (), .ok ()⟩

open AsyncResultsMerger.Scheduling

/-- The merger, what its remotes have still to send, and what it has returned. -/
structure MergeSystem (n : ℕ) where
  arm : AsyncResultsMerger n
  unsent : Fin n → List BSONObj
  returned : List (Fin n × ClusterQueryResult)

def returnedBy {α : Type*} : Except Status (Option α) → List α
  | .ok (some a) => [a]
  | _ => []

/-- What may happen: the caller asks for an event, or whether a result is ready, or takes one that
is; an awaited response arrives with some of what is left, all of it if the cursor is closed, or
with an error after which the cursor is asked for again. -/
inductive MergeStep (params : ClusterClientCursorParams) : MergeSystem n → MergeSystem n → Prop
  | nextEvent (s : MergeSystem n) :
      MergeStep params s { s with arm := (nextEvent params s.arm fun _ => succeeds).2 }
  | ready (s : MergeSystem n) : MergeStep params s { s with arm := (ready params s.arm).2 }
  | nextReady {s : MergeSystem n} {result : Except Status (Option (Fin n × ClusterQueryResult))}
      {arm : AsyncResultsMerger n} (hready : (ready params s.arm).1 = true)
      (h : NextReady params (ready params s.arm).2 result arm) :
      MergeStep params s ⟨arm, s.unsent, s.returned ++ returnedBy result⟩
  | batch {s : MergeSystem n} {i : Fin n} {response : BatchResponse} {cursorId : ℤ}
      {docs rest : List BSONObj} (hawaited : (s.arm.remotes i).cbHandle.isSome = true)
      (hparsed : response.cursorResponse = .ok ⟨cursorId, docs⟩)
      (hunsent : s.unsent i = docs ++ rest) (hclosed : cursorId = 0 → rest = [])
      (hsame : ∀ c, (s.arm.remotes i).cursorId = some c → cursorId = 0 ∨ cursorId = c) :
      MergeStep params s ⟨handleBatchResponse params s.arm i response succeeds,
        update s.unsent i rest, s.returned⟩
  | retry {s : MergeSystem n} {i : Fin n} {response : BatchResponse} {status : Status}
      (hawaited : (s.arm.remotes i).cbHandle.isSome = true)
      (hfailed : response.cursorResponse = .error status)
      (hview : status.code ≠ ErrorCodes.CommandOnShardedViewNotSupportedOnMongod)
      (hretriable : response.isRetriableError = some true)
      (hcursor : (s.arm.remotes i).cursorId = none)
      (hcount : (s.arm.remotes i).retryCount < kMaxNumFailedHostRetryAttempts) :
      MergeStep params s { s with
        arm := handleBatchResponse params s.arm i response succeeds }

section Sound

def buffers (arm : AsyncResultsMerger n) (i : Fin n) : List ClusterQueryResult :=
  (arm.remotes i).docBuffer

/-- The queue holds each remote with something in its buffer, once, and by what is first there. -/
structure Queued (queue : List (Fin n × ClusterQueryResult))
    (buffers : Fin n → List ClusterQueryResult) : Prop where
  nodup : (queue.map fst).Nodup
  stable : ∀ entry ∈ queue, (buffers entry.1).head? = some entry.2
  all : ∀ i, buffers i ≠ [] → i ∈ queue.map fst

/-- One remote is not on the queue, and all others are as they should be. -/
structure QueuedExcept (i : Fin n) (queue : List (Fin n × ClusterQueryResult))
    (buffers : Fin n → List ClusterQueryResult) : Prop where
  nodup : (queue.map fst).Nodup
  stable : ∀ entry ∈ queue, (buffers entry.1).head? = some entry.2
  notMem : i ∉ queue.map fst
  others : ∀ j, j ≠ i → buffers j ≠ [] → j ∈ queue.map fst

/-- No error has been seen, requests are made for empty buffers only, and a cursor that is closed
has nothing left to send. -/
structure Sound (params : ClusterClientCursorParams) (unsent : Fin n → List BSONObj)
    (arm : AsyncResultsMerger n) : Prop where
  ok : arm.status = none
  notEof : arm.eofNext = false
  remoteOk : ∀ i, (arm.remotes i).status = none
  inRange : 0 < n → arm.gettingFromRemote < n
  idle : ∀ i, (arm.remotes i).cbHandle.isSome = true → arm.buffers i = []
  closed : ∀ i, (arm.remotes i).exhausted = true → unsent i = []
  queued : params.hasSort = true → Queued arm.mergeQueue arm.buffers

/-- A change that leaves all buffers as they are. -/
def Kept (params : ClusterClientCursorParams) (unsent : Fin n → List BSONObj)
    (arm arm' : AsyncResultsMerger n) : Prop :=
  Sound params unsent arm' ∧ arm'.buffers = arm.buffers

variable {unsent : Fin n → List BSONObj} {i : Fin n} {remote : RemoteCursorData}

@[simp] theorem setRemote_self : (arm.setRemote i remote).remotes i = remote :=
  update_self ..

theorem setRemote_of_ne {j : Fin n} (h : j ≠ i) :
    (arm.setRemote i remote).remotes j = arm.remotes j := update_of_ne h ..

@[simp] theorem buffers_setRemote :
    (arm.setRemote i remote).buffers = update arm.buffers i remote.docBuffer := by
  funext j
  by_cases h : j = i
  · subst h
    simp [buffers]
  · simp [buffers, setRemote_of_ne h, update_of_ne h]

theorem pushRemote_eq (arm : AsyncResultsMerger n) (i : Fin n) : arm.pushRemote i = { arm with
    mergeQueue := arm.mergeQueue ++ (arm.buffers i).head?.toList.map fun front => (i, front) } := by
  unfold pushRemote
  split
  · rename_i hbuffer
    simp [buffers, hbuffer]
  · rename_i front rest hbuffer
    simp [buffers, hbuffer]

section Queue
variable {queue : List (Fin n × ClusterQueryResult)} {buffers : Fin n → List ClusterQueryResult}

theorem QueuedExcept.push (h : QueuedExcept i queue buffers) :
    Queued (queue ++ (buffers i).head?.toList.map fun front => (i, front)) buffers := by
  cases hbuffer : buffers i with
  | nil =>
    simp only [head?_nil, Option.toList_none, map_nil, append_nil]
    refine ⟨h.nodup, h.stable, fun j hj => h.others j ?_ hj⟩
    rintro rfl
    exact hj hbuffer
  | cons front rest =>
    simp only [head?_cons, Option.toList_some, map_cons, map_nil]
    constructor
    · rw [map_append, nodup_append']
      refine ⟨h.nodup, nodup_singleton i, ?_⟩
      simpa using h.notMem
    · exact forall_mem_append.mpr ⟨h.stable, forall_mem_singleton.mpr (by rw [hbuffer, head?_cons])⟩
    · intro j hj
      rw [map_append, mem_append]
      by_cases hji : j = i
      · exact Or.inr (by simp [hji])
      · exact Or.inl (h.others j hji hj)

theorem Queued.except_of_erase (h : Queued queue buffers) (l : List ClusterQueryResult) :
    QueuedExcept i (queue.eraseP fun entry => entry.1 = i) (update buffers i l) := by
  have hsub : (queue.eraseP fun entry => entry.1 = i).Sublist queue := eraseP_sublist
  have herase : (queue.eraseP fun entry => entry.1 = i).map fst = (queue.map fst).erase i := by
    rw [erase_eq_eraseP', eraseP_map]
    rfl
  have hnotMem : i ∉ (queue.eraseP fun entry => entry.1 = i).map fst := by
    rw [herase]
    exact h.nodup.not_mem_erase
  refine ⟨h.nodup.sublist (hsub.map _), ?_, hnotMem, ?_⟩
  · intro entry hentry
    have hne : entry.1 ≠ i := by
      rintro rfl
      exact hnotMem (mem_map_of_mem hentry)
    rw [update_of_ne hne]
    exact h.stable entry (hsub.subset hentry)
  · intro j hj hbuffer
    rw [update_of_ne hj] at hbuffer
    obtain ⟨entry, hentry, rfl⟩ := mem_map.mp (h.all j hbuffer)
    exact mem_map_of_mem ((mem_eraseP_of_neg (by simpa using hj)).mpr hentry)

theorem Queued.except_of_nil (h : Queued queue buffers) (hempty : buffers i = [])
    (l : List ClusterQueryResult) : QueuedExcept i queue (update buffers i l) := by
  have hnone : ∀ entry ∈ queue, ¬decide (entry.1 = i) = true := by
    intro entry hentry heq
    have := h.stable entry hentry
    simp [of_decide_eq_true heq, hempty] at this
  have hexcept := h.except_of_erase (i := i) l
  rwa [eraseP_of_forall_not hnone] at hexcept

end Queue

theorem established_ne_error {remotes : List RemoteCursorData}
    (h : ∀ remote ∈ remotes, remote.status = none) (status : Status) :
    established remotes ≠ .error status := by
  induction remotes with
  | nil => simp [established]
  | cons remote rest ih =>
    obtain ⟨hremote, hrest⟩ := forall_mem_cons.mp h
    simp only [established, hremote]
    split_ifs
    · simp
    · exact ih hrest

section
variable (h : Sound params unsent arm)
include h

/-- Without errors, asking whether a result is ready changes nothing. -/
theorem Sound.ready_snd : (ready params arm).2 = arm := by
  unfold ready
  rw [if_neg (by simp [h.notEof])]
  split
  · rename_i status hstatus
    exact absurd hstatus (established_ne_error (forall_mem_ofFn_iff.mpr h.remoteOk) status)
  · rfl
  · rfl

theorem Sound.setEvent (event : Bool) : Sound params unsent { arm with currentEvent := event } :=
  { h with }

theorem Sound.signal : Kept params unsent arm (signalCurrentEventIfReady params arm) := by
  have hready := h.ready_snd
  unfold signalCurrentEventIfReady
  split
  · rename_i arm' heq
    obtain rfl : arm' = arm := by rw [← hready, heq]
    exact ⟨h.setEvent false, rfl⟩
  · rename_i arm' heq
    obtain rfl : arm' = arm := by rw [← hready, heq]
    exact ⟨h, rfl⟩

theorem Sound.replace {rest : List BSONObj}
    {queue : List (Fin n × ClusterQueryResult)} (hok : remote.status = none)
    (hidle : remote.cbHandle.isSome = true → remote.docBuffer = [])
    (hclosed : remote.exhausted = true → rest = []) (hqueued : params.hasSort = true →
      Queued queue (update arm.buffers i remote.docBuffer)) :
    Sound params (update unsent i rest) { arm.setRemote i remote with mergeQueue := queue } := by
  refine ⟨h.ok, h.notEof, ?_, h.inRange, ?_, ?_, ?_⟩
  · exact (forall_update_iff arm.remotes fun _ r => r.status = none).mpr
      ⟨hok, fun j _ => h.remoteOk j⟩
  · exact (forall_update_iff arm.remotes fun _ r => r.cbHandle.isSome = true → r.docBuffer = []).mpr
      ⟨hidle, fun j _ => h.idle j⟩
  · intro j hexhausted
    change ((arm.setRemote i remote).remotes j).exhausted = true at hexhausted
    by_cases hj : j = i
    · subst hj
      rw [setRemote_self] at hexhausted
      rw [update_self]
      exact hclosed hexhausted
    · rw [setRemote_of_ne hj] at hexhausted
      rw [update_of_ne hj]
      exact h.closed j hexhausted
  · intro hsort
    change Queued queue (arm.setRemote i remote).buffers
    rw [buffers_setRemote]
    exact hqueued hsort

protected theorem Sound.setRemote (hbuffer : remote.docBuffer = arm.buffers i)
    (hok : remote.status = none) (hidle : remote.cbHandle.isSome = true → arm.buffers i = [])
    (hclosed : remote.exhausted = true → unsent i = []) :
    Kept params unsent arm (arm.setRemote i remote) := by
  have hsame : update arm.buffers i remote.docBuffer = arm.buffers := by
    rw [hbuffer, update_eq_self]
  constructor
  · have hqueued (hsort : params.hasSort = true) :
        Queued arm.mergeQueue (update arm.buffers i remote.docBuffer) := by
      rw [hsame]
      exact h.queued hsort
    have hreplaced := h.replace hok (fun hhandle => hbuffer.trans (hidle hhandle)) hclosed hqueued
    rwa [update_eq_self] at hreplaced
  · rw [buffers_setRemote, hsame]

end

end Sound

section Requests
variable {unsent : Fin n → List BSONObj} {i : Fin n}

/-- A request that can be sent changes only what is awaited, and how much was fetched. -/
theorem askForNextBatch_succeeds (params : ClusterClientCursorParams)
    (arm : AsyncResultsMerger n) (i : Fin n) :
    ∃ request count, askForNextBatch params arm i succeeds = (.ok (), arm.setRemote i
        { arm.remotes i with cbHandle := some request, fetchedCount := count }) := by
  unfold askForNextBatch
  dsimp only
  split
  · exact ⟨_, (arm.remotes i).fetchedCount, rfl⟩
  · exact ⟨_, 0, rfl⟩

theorem Sound.askForNextBatch (h : Sound params unsent arm) (hbuffer : arm.buffers i = []) :
    ∃ arm', askForNextBatch params arm i succeeds = (.ok (), arm') ∧
      Kept params unsent arm arm' := by
  obtain ⟨request, count, hask⟩ := askForNextBatch_succeeds params arm i
  refine ⟨_, hask, ?_⟩
  exact h.setRemote rfl (h.remoteOk i) (fun _ => hbuffer) (h.closed i)

protected theorem Sound.scheduleRequests (h : Sound params unsent arm) (indices : List (Fin n)) :
    ∃ arm', scheduleRequests params (fun _ => succeeds) indices arm = (.ok (), arm') ∧
      Kept params unsent arm arm' := by
  induction indices generalizing arm with
  | nil => exact ⟨arm, rfl, h, rfl⟩
  | cons i rest ih =>
    simp only [scheduleRequests, h.remoteOk i]
    split_ifs with hneeds
    · have hbuffer : arm.buffers i = [] := by
        simp only [needsBatch, hasNext, Bool.and_eq_true, Bool.not_not, List.isEmpty_iff] at hneeds
        exact hneeds.1.1
      obtain ⟨next, hask, hnext, hsame⟩ := h.askForNextBatch hbuffer
      obtain ⟨last, hrest, hlast, hsame'⟩ := ih hnext
      rw [hask]
      exact ⟨last, hrest, hlast, hsame'.trans hsame⟩
    · exact ih h

protected theorem Sound.nextEvent (h : Sound params unsent arm) :
    Kept params unsent arm (nextEvent params arm fun _ => succeeds).2 := by
  unfold nextEvent
  split_ifs
  · exact ⟨h, rfl⟩
  · obtain ⟨next, hschedule, hnext, hsame⟩ := h.scheduleRequests (finRange n)
    rw [hschedule]
    obtain ⟨hsignal, hbuffers⟩ := (hnext.setEvent true).signal
    exact ⟨hsignal, hbuffers.trans hsame⟩

end Requests

section Responses
variable {unsent : Fin n → List BSONObj} {i : Fin n}

theorem bufferBatch_ok {docs : List BSONObj} (remote : RemoteCursorData)
    (hkeys : params.hasSort = true → ∀ obj ∈ docs, hasSortKey obj = true) :
    ∃ filled, bufferBatch params remote docs = (filled, true) ∧
      filled.docBuffer = remote.docBuffer ++ docs.map .result ∧
      filled.status = remote.status ∧ filled.cbHandle = remote.cbHandle ∧
      filled.cursorId = remote.cursorId := by
  induction docs generalizing remote with
  | nil => exact ⟨remote, by simp [bufferBatch]⟩
  | cons obj docs ih =>
    have hkey : ¬(params.hasSort && !hasSortKey obj) = true := by
      intro h
      rw [Bool.and_eq_true, Bool.not_eq_true'] at h
      simp [hkeys h.1 obj mem_cons_self] at h
    rw [bufferBatch, if_neg hkey]
    obtain ⟨filled, hrest, hbuffer, hsame⟩ := ih { remote with
      docBuffer := remote.docBuffer ++ [.result obj]
      fetchedCount := remote.fetchedCount + 1 }
      fun hsort obj hobj => hkeys hsort obj (mem_cons_of_mem _ hobj)
    exact ⟨filled, hrest, by simpa using hbuffer, hsame⟩

section
variable (h : Sound params unsent arm)
include h

theorem Sound.fillBuffer {remote : RemoteCursorData}
    {docs rest : List BSONObj} (hempty : arm.buffers i = []) (hok : remote.status = none)
    (hhandle : remote.cbHandle = none) (hclosed : remote.exhausted = true → rest = [])
    (hbuffer : remote.docBuffer = docs.map .result) :
    ∃ queue, (if params.hasSort && !docs.isEmpty then (arm.setRemote i remote).pushRemote i
        else arm.setRemote i remote) = { arm.setRemote i remote with mergeQueue := queue } ∧
      Sound params (update unsent i rest) { arm.setRemote i remote with mergeQueue := queue } := by
  have hidle : remote.cbHandle.isSome = true → remote.docBuffer = [] := by simp [hhandle]
  cases hsort : params.hasSort with
  | false =>
    refine ⟨arm.mergeQueue, by simp [setRemote], ?_⟩
    exact h.replace hok hidle hclosed (by simp [hsort])
  | true =>
    have hexcept := (h.queued hsort).except_of_nil hempty remote.docBuffer
    have hqueued := hexcept.push
    refine ⟨_, ?_, h.replace hok hidle hclosed fun _ => hqueued⟩
    rw [update_self, hbuffer]
    cases docs with
    | nil => simp [setRemote]
    | cons obj docs => simp [pushRemote_eq, setRemote, buffers, hbuffer]

protected theorem Sound.askRightAway (hbuffer : arm.buffers i = []) :
    Kept params unsent arm (askRightAway params arm i succeeds) := by
  obtain ⟨next, hask, hnext, hsame⟩ := h.askForNextBatch hbuffer
  have hempty : next.buffers i = [] := by rw [hsame, hbuffer]
  have hset : Kept params unsent next (next.setRemote i { next.remotes i with status := none }) :=
    hnext.setRemote rfl rfl (fun _ => hempty) (hnext.closed i)
  unfold askRightAway
  rw [hask]
  exact ⟨hset.1, hset.2.trans hsame⟩

protected theorem Sound.handleCursorResponse {remote : RemoteCursorData}
    (htailable : params.isTailable = false) (response : CursorResponse) {rest : List BSONObj}
    (hempty : arm.buffers i = []) (hbuffer : remote.docBuffer = []) (hok : remote.status = none)
    (hhandle : remote.cbHandle = none) (hclosed : response.cursorId = 0 → rest = [])
    (hkeys : params.hasSort = true → ∀ obj ∈ response.batch, hasSortKey obj = true) :
    Sound params (Function.update unsent i rest)
        (handleCursorResponse params arm i remote response succeeds) ∧
      (handleCursorResponse params arm i remote response succeeds).buffers =
        Function.update arm.buffers i (response.batch.map .result) := by
  obtain ⟨filled, hbatch, hdocs, hstatus, hcb, hcursor⟩ := bufferBatch_ok
    { remote with cursorId := some response.cursorId, initialCmdObj := none } hkeys
  have hdocs' : filled.docBuffer = response.batch.map .result := by
    simpa [hbuffer] using hdocs
  have hexhausted : filled.exhausted = true → rest = [] := by
    simpa [exhausted, hcursor] using hclosed
  obtain ⟨queue, hfilled, hsound⟩ := h.fillBuffer (i := i) hempty (hstatus.trans hok)
    (hcb.trans hhandle) hexhausted hdocs'
  have hbuffers : (arm.setRemote i filled).buffers =
      Function.update arm.buffers i (response.batch.map .result) := by
    rw [buffers_setRemote, hdocs']
  unfold handleCursorResponse
  rw [hbatch]
  dsimp only
  rw [hfilled, htailable]
  simp only [Bool.false_and, Bool.false_eq_true, if_false, Bool.not_false, Bool.true_and]
  split_ifs with hask
  · have hnone : response.batch.map ClusterQueryResult.result = [] := by
      simp only [RemoteCursorData.hasNext, Bool.and_eq_true, Bool.not_not, List.isEmpty_iff] at hask
      rw [← hdocs', hask.1]
    have hempty' : (arm.setRemote i filled).buffers i = [] := by
      rw [hbuffers, update_self, hnone]
    obtain ⟨hasked, hsame⟩ := hsound.askRightAway hempty'
    exact ⟨hasked, hsame.trans hbuffers⟩
  · exact ⟨hsound, hbuffers⟩

/-- A response with a batch, and a buffer that is empty since it was asked for. -/
theorem Sound.batch (htailable : params.isTailable = false) {response : BatchResponse}
    {cursorId : ℤ} {docs rest : List BSONObj} (hawaited : (arm.remotes i).cbHandle.isSome = true)
    (hparsed : response.cursorResponse = .ok ⟨cursorId, docs⟩) (hclosed : cursorId = 0 → rest = [])
    (hsame : ∀ c, (arm.remotes i).cursorId = some c → cursorId = 0 ∨ cursorId = c)
    (hkeys : params.hasSort = true → ∀ obj ∈ docs, hasSortKey obj = true) :
    Sound params (update unsent i rest) (handleBatchResponse params arm i response succeeds) ∧
      (handleBatchResponse params arm i response succeeds).buffers =
        update arm.buffers i (docs.map .result) := by
  have hempty := h.idle i hawaited
  have hcheck : response.cursorResponse.bind (checkCursorId (arm.remotes i).clearHandle) =
      .ok ⟨cursorId, docs⟩ := by
    rw [hparsed]
    simp only [Except.bind, checkCursorId, clearHandle]
    split
    · rename_i c hc
      rw [if_neg]
      rintro ⟨hne, hdiffers⟩
      exact (hsame c hc).elim hne fun heq => hdiffers heq.symm
    · rfl
  have hclear : (arm.remotes i).clearHandle.docBuffer = [] := hempty
  have hresponse := h.handleCursorResponse htailable ⟨cursorId, docs⟩ hempty hclear (h.remoteOk i)
    rfl hclosed hkeys
  obtain ⟨hsignal, hsame'⟩ := hresponse.1.signal
  unfold handleBatchResponse
  rw [hcheck]
  exact ⟨hsignal, hsame'.trans hresponse.2⟩

theorem Sound.retry {response : BatchResponse} {status : Status}
    (hfailed : response.cursorResponse = .error status)
    (hview : status.code ≠ ErrorCodes.CommandOnShardedViewNotSupportedOnMongod)
    (hretriable : response.isRetriableError = some true) (hcursor : (arm.remotes i).cursorId = none)
    (hcount : (arm.remotes i).retryCount < kMaxNumFailedHostRetryAttempts) :
    Kept params unsent arm (handleBatchResponse params arm i response succeeds) := by
  let retried := { (arm.remotes i).clearHandle with
    retryCount := (arm.remotes i).retryCount + 1, status := none }
  have hset : Kept params unsent arm (arm.setRemote i retried) :=
    h.setRemote rfl rfl (by simp [retried, clearHandle]) (h.closed i)
  obtain ⟨hsignal, hbuffers⟩ := (hset.1.setEvent false).signal
  have herror : handleErrorResponse params arm i (arm.remotes i).clearHandle status response =
      { arm.setRemote i retried with currentEvent := false } := by
    simp [handleErrorResponse, hview, hretriable, hcursor, hcount, retried, clearHandle]
  unfold handleBatchResponse
  rw [hfailed]
  simp only [Except.bind]
  rw [herror]
  exact ⟨hsignal, hbuffers.trans hset.2⟩

end

end Responses

section NextReady
variable {unsent : Fin n → List BSONObj} {i : Fin n}

section
variable (h : Sound params unsent arm)
include h

/-- What the answer that a result is ready means, where no error has been seen. -/
theorem Sound.of_ready (hready : (ready params arm).1 = true) :
    if params.hasSort then ∀ i, arm.buffers i ≠ [] ∨ unsent i = []
    else (∃ i, arm.buffers i ≠ []) ∨ ∀ i, unsent i = [] := by
  unfold ready at hready
  rw [if_neg (by simp [h.notEof])] at hready
  split at hready
  · rename_i status hstatus
    exact absurd hstatus (established_ne_error (forall_mem_ofFn_iff.mpr h.remoteOk) status)
  · simp at hready
  · split_ifs at hready ⊢
    · intro i
      simp only [readySorted, all_eq_true, forall_mem_ofFn_iff, Bool.or_eq_true] at hready
      rcases hready i with hnext | hexhausted
      · left
        simpa [hasNext, buffers] using hnext
      · exact Or.inr (h.closed i hexhausted)
    · simp only [readyUnsorted, Bool.or_eq_true, any_eq_true, all_eq_true,
        forall_mem_ofFn_iff] at hready
      rcases hready with ⟨remote, hremote, hnext⟩ | hexhausted
      · obtain ⟨i, rfl⟩ := (mem_ofFn' _ _).mp hremote
        exact Or.inl ⟨i, by simpa [hasNext, buffers] using hnext⟩
      · exact Or.inr fun i => h.closed i (hexhausted i)

theorem Sound.pop (hfront : arm.buffers i = front :: rest)
    (queue : List (Fin n × ClusterQueryResult))
    (hqueued : params.hasSort = true → Queued queue (update arm.buffers i rest)) :
    Sound params unsent
      { arm.setRemote i { arm.remotes i with docBuffer := rest } with mergeQueue := queue } := by
  have hidle : (arm.remotes i).cbHandle.isSome = true → rest = [] := by
    intro hhandle
    have := h.idle i hhandle
    simp [hfront] at this
  let popped := { arm.remotes i with docBuffer := rest }
  have hok : popped.status = none := h.remoteOk i
  have hsound := h.replace hok hidle (h.closed i) hqueued
  rwa [update_eq_self] at hsound

protected theorem Sound.popSorted (hfront : arm.buffers i = front :: rest) :
    Sound params unsent (popSorted arm i rest) ∧
      (popSorted arm i rest).buffers = update arm.buffers i rest := by
  let popped := { arm.remotes i with docBuffer := rest }
  have hsound := h.pop hfront _ fun hsort => ((h.queued hsort).except_of_erase rest).push
  have hpop : popSorted arm i rest = { arm.setRemote i popped with
      mergeQueue := (arm.mergeQueue.eraseP fun entry => entry.1 = i) ++
        (update arm.buffers i popped.docBuffer i).head?.toList.map fun front => (i, front) } := by
    unfold popSorted
    rw [pushRemote_eq]
    simp [buffers, setRemote, popped]
  rw [hpop]
  exact ⟨hsound, buffers_setRemote⟩

protected theorem Sound.nextReadyUnsorted
    (htailable : params.isTailable = false) (hsort : params.hasSort = false) (attempts : ℕ) :
    (∃ i front rest arm', nextReadyUnsorted params attempts arm = (some (i, front), arm') ∧
      arm.buffers i = front :: rest ∧ Sound params unsent arm' ∧
      arm'.buffers = Function.update arm.buffers i rest) ∨
    ∃ arm', nextReadyUnsorted params attempts arm = (none, arm') ∧
      Sound params unsent arm' ∧ arm'.buffers = arm.buffers ∧
      ∀ t < attempts, ∀ i : Fin n, i = (arm.gettingFromRemote + t) % n → arm.buffers i = [] := by
  induction attempts generalizing arm with
  | zero => exact Or.inr ⟨arm, rfl, h, rfl, by simp⟩
  | succ attempts ih =>
    by_cases hrange : arm.gettingFromRemote < n
    · cases hbuffer : (arm.remotes ⟨arm.gettingFromRemote, hrange⟩).docBuffer with
      | cons front rest =>
        left
        let i : Fin n := ⟨arm.gettingFromRemote, hrange⟩
        have hsound := h.pop hbuffer arm.mergeQueue (by simp [hsort])
        refine ⟨i, front, rest, _, ?_, hbuffer, hsound, buffers_setRemote⟩
        rw [nextReadyUnsorted, dif_pos hrange]
        simp only [hbuffer, htailable, Bool.false_and, Bool.or_false]
        rfl
      | nil =>
        let next := { arm with gettingFromRemote :=
          if arm.gettingFromRemote + 1 = n then 0 else arm.gettingFromRemote + 1 }
        have hmod : next.gettingFromRemote = (arm.gettingFromRemote + 1) % n := by
          simp only [next]
          split_ifs with heq
          · rw [heq, Nat.mod_self]
          · rw [Nat.mod_eq_of_lt (by omega)]
        have hnext : Sound params unsent next := by
          refine { h with inRange := fun hpos => ?_ }
          rw [hmod]
          exact Nat.mod_lt _ hpos
        have hstep : nextReadyUnsorted params (attempts + 1) arm =
            nextReadyUnsorted params attempts next := by
          rw [nextReadyUnsorted, dif_pos hrange]
          simp only [hbuffer]
          rfl
        rw [hstep]
        rcases ih hnext with hfound | ⟨arm', hnone, hsound, hsame, hempty⟩
        · exact Or.inl hfound
        · refine Or.inr ⟨arm', hnone, hsound, hsame, ?_⟩
          intro t ht i hi
          cases t with
          | zero =>
            obtain rfl : i = ⟨arm.gettingFromRemote, hrange⟩ := by
              apply Fin.ext
              rw [hi, Nat.add_zero, Nat.mod_eq_of_lt hrange]
            exact hbuffer
          | succ t =>
            apply hempty t (by omega) i
            rw [hmod, Nat.mod_add_mod, hi]
            congr 1
            omega
    · right
      have hzero : n = 0 := by
        have := h.inRange
        omega
      refine ⟨arm, ?_, h, rfl, fun _ _ i => by subst hzero; exact i.elim0⟩
      rw [nextReadyUnsorted, dif_neg hrange]

end

end NextReady

theorem exists_turn {g k m : ℕ} (hg : g < m) (hk : k < m) : ∃ t < m, (g + t) % m = k := by
  by_cases h : g ≤ k
  · refine ⟨k - g, by omega, ?_⟩
    rw [Nat.add_sub_cancel' h, Nat.mod_eq_of_lt hk]
  · refine ⟨m + k - g, by omega, ?_⟩
    rw [Nat.add_sub_cancel' (by omega), Nat.add_mod_left, Nat.mod_eq_of_lt hk]

section Order

/-- One result may come before another by the sort. -/
def sortLe (sort : BSONObj) (l r : ClusterQueryResult) : Prop :=
  woCompareBy sort l.sortKey r.sortKey ≤ 0

instance (sort : BSONObj) : IsTrans ClusterQueryResult (sortLe sort) :=
  ⟨fun _ _ _ => woCompareBy_trans⟩

theorem mergingComparator_eq_false_iff {i j : Fin n} {a b : ClusterQueryResult}
    (hi : (arm.buffers i).head? = some a) (hj : (arm.buffers j).head? = some b) :
    mergingComparator params arm i j = false ↔ sortLe params.sort a b := by
  unfold buffers at hi hj
  simp [mergingComparator, hi, hj, sortLe]

end Order

section Runs
variable {s s' : MergeSystem n} {streams : Fin n → List BSONObj}

/-- What is left of a stream: what is buffered and what was not sent. -/
def MergeSystem.remaining (s : MergeSystem n) (i : Fin n) : List ClusterQueryResult :=
  s.arm.buffers i ++ (s.unsent i).map .result

/-- The state of a run: a merge of the streams, which is in order if they are. -/
structure MergeSystem.Inv (params : ClusterClientCursorParams) (streams : Fin n → List BSONObj)
    (s : MergeSystem n) : Prop where
  sound : Sound params s.unsent s.arm
  keys : params.hasSort = true → ∀ i, ∀ obj ∈ s.unsent i, hasSortKey obj = true
  merging : Merging (fun i => (streams i).map .result) s.remaining s.returned
  ordered : params.hasSort = true →
    (∀ i, ((streams i).map ClusterQueryResult.result).Pairwise (sortLe params.sort)) →
    OrderedMerging (sortLe params.sort) s.remaining s.returned

namespace MergeSystem

protected theorem Inv.start (params : ClusterClientCursorParams) (remotes : Fin n → Remote)
    (streams : Fin n → List BSONObj) (hclosed : ∀ i, remotes i = .cursor 0 → streams i = [])
    (hkeys : params.hasSort = true → ∀ i, ∀ obj ∈ streams i, hasSortKey obj = true) :
    Inv params streams ⟨start remotes, streams, []⟩ := by
  have hbuffers : ∀ i, (start remotes).buffers i = [] := by
    intro i
    cases hremote : remotes i <;> simp [buffers, start, Remote.start, hremote]
  have hremaining : remaining ⟨start remotes, streams, []⟩ = fun i => (streams i).map .result := by
    funext i
    simp [remaining, hbuffers]
  refine ⟨⟨rfl, rfl, ?_, fun hpos => hpos, fun i _ => hbuffers i, ?_, ?_⟩, hkeys, ?_, ?_⟩
  · intro i
    cases hremote : remotes i <;> simp [start, Remote.start, hremote]
  · intro i hexhausted
    apply hclosed i
    cases hremote : remotes i with
    | shard cmdObj =>
      simp [start, Remote.start, hremote, exhausted] at hexhausted
    | cursor cursorId =>
      simp only [start, Remote.start, hremote, exhausted,
        Option.some.injEq, decide_eq_true_eq] at hexhausted
      rw [hexhausted]
  · intro _
    exact ⟨nodup_nil, by simp [start], fun i hne => absurd (hbuffers i) hne⟩
  · rw [hremaining]
    exact Merging.start _
  · intro _ hstreams
    rw [hremaining]
    exact OrderedMerging.start hstreams

section
variable (h : Inv params streams s)
include h

theorem Inv.of_remaining {unsent : Fin n → List BSONObj} (hsound : Sound params unsent arm)
    (hkeys : params.hasSort = true → ∀ i, ∀ obj ∈ unsent i, hasSortKey obj = true)
    (hremaining : ∀ i, arm.buffers i ++ (unsent i).map .result = s.remaining i) :
    Inv params streams ⟨arm, unsent, s.returned⟩ := by
  have hsame : remaining ⟨arm, unsent, s.returned⟩ = s.remaining := funext hremaining
  refine ⟨hsound, hkeys, ?_, ?_⟩
  · rw [hsame]
    exact h.merging
  · rw [hsame]
    exact h.ordered

theorem Inv.of_kept (hkept : Kept params s.unsent s.arm arm) :
    Inv params streams ⟨arm, s.unsent, s.returned⟩ :=
  h.of_remaining hkept.1 h.keys fun i => by rw [hkept.2, remaining]

/-- A result is taken from the front of a buffer; where there is a sort, it is a least one. -/
theorem Inv.take {i : Fin n} (hfront : s.arm.buffers i = front :: rest)
    (hsound : Sound params s.unsent arm)
    (hbuffers : arm.buffers = update s.arm.buffers i rest)
    (hleast : params.hasSort = true → ∀ j, j ≠ i → ∀ b tail, s.remaining j = b :: tail →
      sortLe params.sort front b) :
    Inv params streams ⟨arm, s.unsent, s.returned ++ [(i, front)]⟩ := by
  have htaken : s.remaining i = front :: (rest ++ (s.unsent i).map .result) := by
    simp [remaining, hfront]
  have hremaining : remaining ⟨arm, s.unsent, s.returned ++ [(i, front)]⟩ =
      update s.remaining i (rest ++ (s.unsent i).map .result) := by
    funext j
    by_cases hj : j = i
    · subst hj
      simp [remaining, hbuffers]
    · simp [remaining, hbuffers, update_of_ne hj]
  refine ⟨hsound, h.keys, ?_, ?_⟩
  · rw [hremaining]
    exact h.merging.take htaken
  · intro hsort hstreams
    rw [hremaining]
    exact (h.ordered hsort hstreams).take htaken (hleast hsort)

theorem Inv.interleaves (hbuffers : ∀ i, s.arm.buffers i = []) (hunsent : ∀ i, s.unsent i = []) :
    Interleaves (fun i => (streams i).map .result) (s.returned.map snd) := by
  apply h.merging.interleaves
  intro i
  simp [remaining, hbuffers i, hunsent i]

/-- The top of the queue is a least one of what is left, when all remotes have something buffered
or nothing left. -/
theorem Inv.top_least (hsort : params.hasSort = true)
    (hready : ∀ i, s.arm.buffers i ≠ [] ∨ s.unsent i = []) {top : Fin n}
    (htop : IsTop params s.arm top) (hfront : s.arm.buffers top = front :: rest) {j : Fin n}
    {b : ClusterQueryResult} {tail : List ClusterQueryResult} (hj : s.remaining j = b :: tail) :
    sortLe params.sort front b := by
  have hqueued := h.sound.queued hsort
  have hbuffer : s.arm.buffers j ≠ [] := by
    intro hempty
    have hunsent := (hready j).resolve_left (not_not.mpr hempty)
    simp [remaining, hempty, hunsent] at hj
  have hhead : (s.arm.buffers j).head? = some b := by
    obtain ⟨first, others, hfirst⟩ := exists_cons_of_ne_nil hbuffer
    simp only [remaining, hfirst, cons_append, List.cons.injEq] at hj
    rw [hfirst, head?_cons, hj.1]
  obtain ⟨entry, hentry, rfl⟩ := mem_map.mp (hqueued.all j hbuffer)
  have hcompare := htop.2 hqueued.stable entry hentry
  rwa [mergingComparator_eq_false_iff (by rw [hfront, head?_cons]) hhead] at hcompare

/-- What `nextReady` gives when a result is ready: a result, or the end, when all has been
returned. -/
theorem Inv.nextReady (htailable : params.isTailable = false)
    (hready : (ready params s.arm).1 = true)
    {result : Except Status (Option (Fin n × ClusterQueryResult))}
    (hnext : NextReady params (ready params s.arm).2 result arm) :
    Inv params streams ⟨arm, s.unsent, s.returned ++ returnedBy result⟩ ∧
      ((∃ p, result = .ok (some p)) ∨ result = .ok none ∧
        Interleaves (fun i => (streams i).map .result) (s.returned.map snd)) := by
  have hmeans := h.sound.of_ready hready
  rw [h.sound.ready_snd] at hnext
  cases hnext with
  | failed hfailed => simp [h.sound.ok] at hfailed
  | endOfBatch _ heof => simp [h.sound.notEof] at heof
  | sortedEnd _ _ hsort hempty =>
    rw [if_pos hsort] at hmeans
    have hqueued := h.sound.queued hsort
    have hbuffers : ∀ i, s.arm.buffers i = [] := by
      intro i
      by_contra hne
      simpa [hempty] using hqueued.all i hne
    have hunsent : ∀ i, s.unsent i = [] := fun i =>
      (hmeans i).resolve_left (not_not.mpr (hbuffers i))
    constructor
    · simpa [returnedBy] using h
    · exact Or.inr ⟨rfl, h.interleaves hbuffers hunsent⟩
  | sorted _ _ hsort htop hfront =>
    rw [if_pos hsort] at hmeans
    obtain ⟨hsound, hbuffers⟩ := h.sound.popSorted hfront
    constructor
    · apply h.take hfront hsound hbuffers
      intro _ j _ b tail hj
      exact h.top_least hsort hmeans htop hfront hj
    · exact Or.inl ⟨_, rfl⟩
  | unsorted _ _ hsort =>
    rw [if_neg (by simp [hsort])] at hmeans
    rcases h.sound.nextReadyUnsorted htailable hsort n with
      ⟨i, front, rest, arm', hfound, hfront, hsound, hbuffers⟩ |
      ⟨arm', hnone, hsound, hsame, hempty⟩
    · rw [hfound]
      constructor
      · exact h.take hfront hsound hbuffers (by simp [hsort])
      · exact Or.inl ⟨_, rfl⟩
    · have hbuffers : ∀ i, s.arm.buffers i = [] := by
        intro i
        obtain ⟨t, ht, hi⟩ := exists_turn (h.sound.inRange i.pos) i.isLt
        exact hempty t ht i hi.symm
      have hunsent : ∀ i, s.unsent i = [] := by
        apply hmeans.resolve_left
        rintro ⟨i, hi⟩
        exact hi (hbuffers i)
      rw [hnone]
      constructor
      · simp only [returnedBy, append_nil]
        exact h.of_kept ⟨hsound, hsame⟩
      · exact Or.inr ⟨rfl, h.interleaves hbuffers hunsent⟩

/-- Some result or the end can be returned when a result is ready: no remote on the queue has an
empty buffer. -/
theorem Inv.exists_nextReady :
    ∃ result arm, NextReady params (ready params s.arm).2 result arm := by
  rw [h.sound.ready_snd]
  cases hsort : params.hasSort with
  | false => exact ⟨_, _, .unsorted h.sound.ok h.sound.notEof hsort⟩
  | true =>
    have hqueued := h.sound.queued hsort
    by_cases hempty : s.arm.mergeQueue = []
    · exact ⟨_, _, .sortedEnd h.sound.ok h.sound.notEof hsort hempty⟩
    · obtain ⟨entry, hentry, hleast⟩ := exists_least
        (r := fun l r : Fin n × ClusterQueryResult => sortLe params.sort l.2 r.2)
        (fun _ _ => woCompareBy_total) (fun _ _ _ => woCompareBy_trans) hempty
      have hhead := hqueued.stable entry hentry
      obtain ⟨rest, hfront⟩ := head?_eq_some_iff.mp hhead
      have htop : IsTop params s.arm entry.1 := by
        refine ⟨mem_map_of_mem hentry, fun _ other hother => ?_⟩
        rw [mergingComparator_eq_false_iff hhead (hqueued.stable other hother)]
        exact hleast other hother
      exact ⟨_, _, .sorted h.sound.ok h.sound.notEof hsort htop hfront⟩

/-- Every step keeps the state a merge of the streams. -/
theorem Inv.step (htailable : params.isTailable = false)
    (hstep : MergeStep params s s') : Inv params streams s' := by
  cases hstep with
  | nextEvent => exact h.of_kept h.sound.nextEvent
  | ready =>
    rw [h.sound.ready_snd]
    exact h
  | nextReady hready hnext => exact (h.nextReady htailable hready hnext).1
  | @batch i response cursorId docs rest hawaited hparsed hunsent hclosed hsame =>
    have hkeys (hsort : params.hasSort = true) : ∀ obj ∈ docs, hasSortKey obj = true := by
      intro obj hobj
      exact h.keys hsort i obj (by simp [hunsent, hobj])
    obtain ⟨hsound, hbuffers⟩ := h.sound.batch htailable hawaited hparsed hclosed hsame hkeys
    apply h.of_remaining hsound
    · intro hsort j obj hobj
      apply h.keys hsort j obj
      by_cases hj : j = i
      · subst hj
        rw [hunsent]
        simp only [update_self] at hobj
        exact mem_append_right docs hobj
      · simpa [update_of_ne hj] using hobj
    · intro j
      by_cases hj : j = i
      · subst hj
        simp [remaining, hbuffers, hunsent, h.sound.idle j hawaited]
      · simp [remaining, hbuffers, update_of_ne hj]
  | @retry i response status hawaited hfailed hview hretriable hcursor hcount =>
    exact h.of_kept (h.sound.retry hfailed hview hretriable hcursor hcount)

end

end MergeSystem

/-- Whatever the order in which batches arrive and results are taken, the results that are returned
are a merge of the streams: in the order of each stream, in the order of the sort if the streams are
in this order, and complete when the end is returned. A call never fails. -/
theorem mergeSteps_interleave (params : ClusterClientCursorParams)
    (htailable : params.isTailable = false) (remotes : Fin n → Remote)
    (streams : Fin n → List BSONObj) (hclosed : ∀ i, remotes i = .cursor 0 → streams i = [])
    (hkeys : params.hasSort = true → ∀ i, ∀ obj ∈ streams i, hasSortKey obj = true)
    (s : MergeSystem n)
    (hrun : Relation.ReflTransGen (MergeStep params) ⟨start remotes, streams, []⟩ s) :
    (∀ i, takenFrom s.returned i <+: (streams i).map .result) ∧
    (∃ result arm, NextReady params (ready params s.arm).2 result arm) ∧
    (∀ result arm, (ready params s.arm).1 = true →
      NextReady params (ready params s.arm).2 result arm →
      (∃ p, result = .ok (some p)) ∨ result = .ok none ∧
        Interleaves (fun i => (streams i).map .result) (s.returned.map snd)) ∧
    (params.hasSort = true →
      (∀ i, ((streams i).map ClusterQueryResult.result).Pairwise (sortLe params.sort)) →
      (s.returned.map snd).Pairwise (sortLe params.sort)) := by
  have hinv : s.Inv params streams := by
    induction hrun with
    | refl => exact .start params remotes streams hclosed hkeys
    | tail _ hstep ih => exact ih.step htailable hstep
  refine ⟨?_, hinv.exists_nextReady, ?_, ?_⟩
  · intro i
    exact ⟨s.remaining i, hinv.merging i⟩
  · intro result arm hready hnext
    exact (hinv.nextReady htailable hready hnext).2
  · intro hsort hstreams
    exact (hinv.ordered hsort hstreams).sorted

def unsortedParams : ClusterClientCursorParams := ⟨[], none, false, false⟩

def numbered (i : Fin 2) : BSONObj :=
  [(⟨[0x61], CString.nul_notMem_a⟩, .number (.numberInt (BitVec.ofNat 32 i.val)))]

def twoRemotes : MergeSystem 2 := ⟨start fun _ => .shard [], fun i => [numbered i], []⟩

def lastBatch (s : MergeSystem 2) (i : Fin 2) : MergeSystem 2 :=
  ⟨handleBatchResponse unsortedParams s.arm i ⟨.ok ⟨0, [numbered i]⟩, [], none⟩
    succeeds, update s.unsent i [], s.returned⟩

def takeNext (s : MergeSystem 2) : MergeSystem 2 :=
  ⟨(nextReadyUnsorted unsortedParams 2 (ready unsortedParams s.arm).2).2, s.unsent,
    s.returned ++ returnedBy
      (.ok (nextReadyUnsorted unsortedParams 2 (ready unsortedParams s.arm).2).1)⟩

def twoSent : MergeSystem 2 :=
  lastBatch (lastBatch { twoRemotes with
    arm := (nextEvent unsortedParams twoRemotes.arm fun _ => succeeds).2 } 1) 0

theorem lastBatch_step {s : MergeSystem 2} {i : Fin 2}
    (hawaited : (s.arm.remotes i).cbHandle.isSome = true)
    (hcursor : (s.arm.remotes i).cursorId = none) (hunsent : s.unsent i = [numbered i]) :
    MergeStep unsortedParams s (lastBatch s i) :=
  .batch hawaited rfl (by simpa using hunsent) (fun _ => rfl) (by simp [hcursor])

theorem takeNext_step {s : MergeSystem 2} (hready : (ready unsortedParams s.arm).1 = true)
    (hok : (ready unsortedParams s.arm).2.status = none)
    (heof : (ready unsortedParams s.arm).2.eofNext = false) :
    MergeStep unsortedParams s (takeNext s) := .nextReady hready (.unsorted hok heof rfl)

theorem twoSent_run : Relation.ReflTransGen (MergeStep unsortedParams) twoRemotes
    (takeNext (takeNext twoSent)) := by
  have hevent : MergeStep unsortedParams twoRemotes { twoRemotes with
      arm := (nextEvent unsortedParams twoRemotes.arm fun _ => succeeds).2 } :=
    .nextEvent twoRemotes
  have hasked := Relation.ReflTransGen.single hevent
  have hsecond := hasked.tail (lastBatch_step (i := 1) rfl rfl rfl)
  have hfirst := hsecond.tail (lastBatch_step (i := 0) rfl rfl rfl)
  have hone := hfirst.tail (takeNext_step rfl rfl rfl)
  exact hone.tail (takeNext_step rfl rfl rfl)

theorem mergeSteps_interleave_two :
    Interleaves (fun i : Fin 2 => [ClusterQueryResult.result (numbered i)])
      [.result (numbered 0), .result (numbered 1)] := by
  have h := mergeSteps_interleave unsortedParams rfl (fun _ => .shard []) (fun i => [numbered i])
    (by simp) (by simp [ClusterClientCursorParams.hasSort, unsortedParams]) _ twoSent_run
  rcases h.2.2.1 _ _ rfl (.unsorted rfl rfl rfl) with ⟨p, hp⟩ | ⟨-, hall⟩
  · cases hp
  · exact hall

end Runs

end AsyncResultsMerger
end MongoServer
