import MongoServer.Sharding.BatchWriteRuns

/-!
Ordered batches. All operations before the first that is not completed are completed, and all
after it are ready, except that one batch on the way may hold a sequence of operations for one
shard. Targeting a round and hearing of a batch both keep this.
-/
namespace MongoServer.BatchWriteExec
open BatchWriteOp List ShardEndpoint TargetedBatchMap TargetedBatchMap.BatchEntry TargetedWrite

variable {ops ops' before after : List WriteOp} {out : List TargetedWrite}
  {acks : List (ℕ × String)} {last : ℕ → List ShardEndpoint} {batchMap : TargetedBatchMap}
  {targeter : NSTargeter} {op op' : WriteOp} {writes : List TargetedWrite}
    {batch : TargetedWriteBatch} {state : WriteOpState} {j : ℕ}

/-- The operation at a position, if there is one, is in a state. -/
def StateAt (ops : List WriteOp) (j : ℕ) (state : WriteOpState) : Prop :=
  ∀ op, ops[j]? = some op → op.state = state

/-- The batches on the way hold one operation, or are one batch with a sequence of them. -/
inductive InOrder (ops : List WriteOp) (last : ℕ → List ShardEndpoint)
    (round : List TargetedWriteBatch) : List TargetedWriteBatch → Prop
  | single (k : ℕ) (batches : List TargetedWriteBatch)
      (hbefore : ∀ j, j < k → StateAt ops j .completed)
      (hafter : ∀ j, k < j → StateAt ops j .ready)
      (hbatches : ∀ batch ∈ batches, ∃ write, batch.writes = [write] ∧ write.writeOpRef.1 = k) :
      InOrder ops last round batches
  | sequence (k : ℕ) (batch : TargetedWriteBatch) (hbefore : ∀ j, j < k → StateAt ops j .completed)
      (hrefs : batch.writes.map (·.writeOpRef.1) = range' k batch.writes.length)
      (hafter : ∀ j, k + batch.writes.length ≤ j → StateAt ops j .ready)
      (hsingle : ∀ write ∈ batch.writes, (last write.writeOpRef.1).length = 1)
      (hround : round = [batch]) : InOrder ops last round [batch]

section Targeting

theorem stateAt_append_left (hj : j < before.length) :
    StateAt (before ++ after) j state ↔ StateAt before j state := by
  unfold StateAt
  rw [getElem?_append_left hj]

theorem stateAt_of_mem (h : ∀ op ∈ ops, op.state = state) : StateAt ops j state :=
  fun op hop => h op (mem_of_getElem? hop)

theorem stateAt_append_right (hj : before.length ≤ j)
    (h : ∀ op ∈ after, op.state = state) : StateAt (before ++ after) j state := by
  intro op hop
  rw [getElem?_append_right hj] at hop
  exact h op (mem_of_getElem? hop)

theorem length_insert (entry : BatchEntry) :
    (insert entry batchMap).length = batchMap.length + 1 := by
  induction batchMap with
  | nil => rfl
  | cons first rest ih =>
    unfold TargetedBatchMap.insert
    split_ifs
    · rfl
    · rw [length_cons, ih, length_cons]

theorem addWrites_distinct (writeSizeBytes : ℕ) (batchMap : TargetedBatchMap)
    (writes : List TargetedWrite)
    (hnames : ((writes.map endpoint).map shardName).Nodup)
    (hnew : ∀ entry ∈ batchMap, ∀ write ∈ writes,
      entry.batch.endpoint.shardName ≠ write.endpoint.shardName)
    (hone : ∀ entry ∈ batchMap, ∃ write, entry.batch.writes = [write]) :
    (∀ entry ∈ writes.foldl (addWrite writeSizeBytes) batchMap,
      ∃ write, entry.batch.writes = [write]) ∧
    (writes.foldl (addWrite writeSizeBytes) batchMap).length = batchMap.length + writes.length := by
  induction writes generalizing batchMap with
  | nil => exact ⟨hone, rfl⟩
  | cons write rest ih =>
    obtain ⟨hfirst, hnames'⟩ := nodup_cons.mp hnames
    rcases addWrite_cases writeSizeBytes batchMap write with
      ⟨l, entry, r, rfl, heq, -, -⟩ | ⟨-, hadd⟩
    · exact absurd (compareEndpoints_eq_zero_iff.mp heq).1
        (hnew entry (by simp) write mem_cons_self)
    · have hmem : ∀ entry ∈ addWrite writeSizeBytes batchMap write,
          entry = ⟨⟨write.endpoint, [write]⟩, 1, writeSizeBytes⟩ ∨ entry ∈ batchMap := by
        intro entry hentry
        rw [hadd] at hentry
        exact mem_insert.mp hentry
      have hnew' : ∀ entry ∈ addWrite writeSizeBytes batchMap write,
          ∀ w ∈ rest, entry.batch.endpoint.shardName ≠ w.endpoint.shardName := by
        intro entry hentry w hw
        rcases hmem entry hentry with rfl | hentry
        · intro hname
          exact hfirst (by rw [hname]; exact mem_map_of_mem (mem_map_of_mem hw))
        · exact hnew entry hentry w (mem_cons_of_mem _ hw)
      have hone' : ∀ entry ∈ addWrite writeSizeBytes batchMap write,
          ∃ w, entry.batch.writes = [w] := by
        intro entry hentry
        rcases hmem entry hentry with rfl | hentry
        · exact ⟨write, rfl⟩
        · exact hone entry hentry
      obtain ⟨hall, hlength⟩ := ih _ hnames' hnew' hone'
      refine ⟨hall, ?_⟩
      rw [foldl_cons, hlength, hadd, length_insert, length_cons]
      omega

theorem addWrite_found (writeSizeBytes : ℕ) (entry : BatchEntry) (write : TargetedWrite)
    (h : isNewBatchRequired [write] [entry] = false) :
    addWrite writeSizeBytes [entry] write = [addWrite entry writeSizeBytes write] := by
  rcases addWrite_cases writeSizeBytes [entry] write with
    ⟨l, entry', r, heq, -, -, hadd⟩ | ⟨hnone, -⟩
  · rw [hadd]
    cases l with
    | nil =>
      obtain ⟨rfl, rfl⟩ := List.cons.inj heq
      rfl
    | cons first rest => simp at heq
  · have hfind : find [entry] write.endpoint = none := by
      refine find?_eq_none.mpr fun entry' hentry' hat => ?_
      exact hnone entry' hentry' (isAt_iff.mp hat)
    simp [isNewBatchRequired, hfind] at h

theorem eq_singleton_of_found {entry : BatchEntry} (hne : writes ≠ [])
    (hnames : ((writes.map endpoint).map shardName).Nodup)
    (h : isNewBatchRequired writes [entry] = false) : ∃ write, writes = [write] := by
  have hname : ∀ write ∈ writes, write.endpoint.shardName = entry.batch.endpoint.shardName := by
    intro write hwrite
    have hsome := any_eq_false.mp h write hwrite
    rw [Option.isNone_iff_eq_none] at hsome
    obtain ⟨entry', hfind⟩ := Option.ne_none_iff_exists'.mp hsome
    obtain rfl := mem_singleton.mp (mem_of_find?_eq_some hfind)
    have hat := isAt_iff.mp (find?_some hfind)
    exact (compareEndpoints_eq_zero_iff.mp hat).1.symm
  cases writes with
  | nil => exact absurd rfl hne
  | cons first rest =>
    cases rest with
    | nil => exact ⟨first, rfl⟩
    | cons second rest =>
      have hsame := (hname first (by simp)).trans (hname second (by simp)).symm
      simp [hsame] at hnames

/-- The loop over an ordered batch: nothing is targeted yet, or one batch with the operations
that come next. -/
inductive OrderedLoop (last : ℕ → List ShardEndpoint) (before after : List WriteOp) :
    TargetedBatchMap → Prop
  | start (hbefore : ∀ op ∈ before, op.state = .completed)
      (hafter : ∃ l r, after = l ++ r ∧ (∀ op ∈ l, op.state = .completed) ∧
        ∀ op ∈ r, op.state = .ready) : OrderedLoop last before after []
  | filling (k : ℕ) (entry : BatchEntry) (hbefore : ∀ j, j < k → StateAt before j .completed)
      (hrefs : entry.batch.writes.map (·.writeOpRef.1) = range' k entry.batch.writes.length)
      (hlength : before.length = k + entry.batch.writes.length)
      (hafter : ∀ op ∈ after, op.state = .ready)
      (hsingle : ∀ write ∈ entry.batch.writes,
        (targeting before last write.writeOpRef.1).length = 1) :
      OrderedLoop last before after [entry]

theorem mem_refs {k : ℕ} {write : TargetedWrite}
    (hrefs : batch.writes.map (·.writeOpRef.1) = range' k batch.writes.length)
    (hw : write ∈ batch.writes) :
    k ≤ write.writeOpRef.1 ∧ write.writeOpRef.1 < k + batch.writes.length := by
  have hmem : write.writeOpRef.1 ∈ range' k batch.writes.length :=
    hrefs ▸ mem_map_of_mem hw
  obtain ⟨i, hi, heq⟩ := mem_range'.mp hmem
  omega

theorem OrderedLoop.send {k : ℕ} {entry : BatchEntry} (rest : List WriteOp)
    (hbefore : ∀ j, j < k → StateAt before j .completed)
    (hrefs : entry.batch.writes.map (·.writeOpRef.1) = range' k entry.batch.writes.length)
    (hlength : before.length = k + entry.batch.writes.length)
    (hafter : ∀ op ∈ rest, op.state = .ready) (hsingle : ∀ write ∈ entry.batch.writes,
      (targeting before last write.writeOpRef.1).length = 1) :
    InOrder (before ++ rest) (targeting (before ++ rest) last) [entry.batch] [entry.batch] := by
  refine .sequence k entry.batch (fun j hj => ?_) hrefs (fun j hj => ?_) (fun write hw => ?_) rfl
  · exact (stateAt_append_left (by omega)).mpr (hbefore j hj)
  · exact stateAt_append_right (by omega) hafter
  · have hlt := (mem_refs hrefs hw).2
    rw [targeting_eq_of_getElem? (getElem?_append_left (by omega))]
    exact hsingle write hw

theorem OrderedLoop.abort {why : WriteErrorDetail}
    (h : OrderedLoop last before (op :: after) batchMap) (round : List TargetedWriteBatch) :
    InOrder (cancelBatches why before batchMap ++ op :: after)
      (targeting (cancelBatches why before batchMap ++ op :: after) last) round [] := by
  cases h with
  | start hbefore hafter =>
    obtain ⟨l, r, heq, hl, hr⟩ := hafter
    have hcompleted : ∀ op' ∈ before ++ l, op'.state = .completed :=
      forall_mem_append.mpr ⟨hbefore, hl⟩
    refine .single (before ++ l).length [] (fun j hj => ?_) (fun j hj => ?_) (by simp)
    · rw [heq]
      change StateAt (before ++ (l ++ r)) j .completed
      rw [← append_assoc, stateAt_append_left hj]
      exact stateAt_of_mem hcompleted
    · rw [heq]
      change StateAt (before ++ (l ++ r)) j .ready
      rw [← append_assoc]
      exact stateAt_append_right (by omega) hr
  | filling k entry hbefore hrefs hlength hafter hsingle =>
    have hwrites : TargetedBatchMap.writes [entry] = entry.batch.writes := by
      simp [TargetedBatchMap.writes]
    refine .single k [] (fun j hj => ?_) (fun j hj => ?_) (by simp)
    · rw [stateAt_append_left (by rw [length_cancelBatches]; omega)]
      intro op' hop'
      obtain ⟨op₀, hop₀, ⟨hmem, -⟩ | ⟨-, rfl⟩⟩ := cancelBatches_getElem? hop'
      · rw [hwrites] at hmem
        obtain ⟨write, hwrite, rfl⟩ := mem_map.mp hmem
        have hle := (mem_refs hrefs hwrite).1
        omega
      · exact hbefore j hj op' hop₀
    · by_cases hlt : j < before.length
      · rw [stateAt_append_left (by rw [length_cancelBatches]; omega)]
        intro op' hop'
        obtain ⟨op₀, hop₀, ⟨-, -, hready, -⟩ | ⟨hmem, -⟩⟩ := cancelBatches_getElem? hop'
        · exact hready
        · rw [hwrites, hrefs] at hmem
          exact absurd (mem_range'.mpr ⟨j - k, by omega, by omega⟩) hmem
      · exact stateAt_append_right (by rw [length_cancelBatches]; omega) hafter

theorem inOrder_nil (hbefore : ∀ op ∈ before, op.state = .completed)
    (hafter : ∀ op ∈ after, op.state = .ready) (round : List TargetedWriteBatch) :
    InOrder (before ++ op' :: after) (targeting (before ++ op' :: after) last) round [] := by
  refine .single before.length [] (fun j hj => ?_) (fun j hj => ?_) (by simp)
  · exact (stateAt_append_left hj).mpr (stateAt_of_mem hbefore)
  · rw [append_cons]
    exact stateAt_append_right (by simpa using hj) hafter

theorem Looping.target_spec (h : Looping before (op :: after) batchMap acks last)
    (hready : op.state = .ready) (hT : Targets targeter) {isIndexInsert : Bool}
    (htarget : op.targetWrites targeter isIndexInsert = .ok (writes, op')) :
    writes ≠ [] ∧ ((writes.map endpoint).map shardName).Nodup ∧
      (∀ write ∈ writes, write.writeOpRef.1 = before.length) ∧
      (targeting (before ++ [op']) last before.length).length = writes.length := by
  have hget : (before ++ op :: after)[before.length]? = some op := by simp
  obtain ⟨hindex, hstate⟩ := h.tracked.op _ op hget
  obtain ⟨-, hrefs, -⟩ := (h.tracked.op _ op hget).target hready hT htarget
  rw [hready] at hstate
  obtain ⟨hne, hnames, -, rfl⟩ := targetWrites_spec hT hstate.1 htarget
  refine ⟨hne, hnames, hrefs, ?_⟩
  unfold targeting
  simp [filterMap_map]

theorem OrderedLoop.after_ready (h : OrderedLoop last before (op :: after) batchMap)
    (hready : op.state = .ready) : ∀ o ∈ after, o.state = .ready := by
  cases h with
  | start hbefore hafter =>
    obtain ⟨l, r, heq, hl, hr⟩ := hafter
    cases l with
    | nil =>
      obtain rfl : r = op :: after := heq.symm
      exact (forall_mem_cons.mp hr).2
    | cons first l =>
      obtain ⟨rfl, rfl⟩ := List.cons.inj heq
      exact absurd (hready.symm.trans (hl op mem_cons_self)) (by simp)
  | filling k entry hbefore hrefs hlength hafter =>
    exact (forall_mem_cons.mp hafter).2

theorem OrderedLoop.fill (h : OrderedLoop last before (op :: after) batchMap)
    (hready : op.state = .ready) (hne : writes ≠ [])
    (hnames : ((writes.map endpoint).map shardName).Nodup)
    (hrefs' : ∀ write ∈ writes, write.writeOpRef.1 = before.length)
    (hlast : (targeting (before ++ [op']) last before.length).length = writes.length)
    (hfound : batchMap ≠ [] → isNewBatchRequired writes batchMap = false) {size : ℕ}
    (hone : (writes.foldl (addWrite size) batchMap).length ≤ 1) :
    OrderedLoop last (before ++ [op']) after (writes.foldl (addWrite size) batchMap) := by
  have hafter' := h.after_ready hready
  cases h with
  | start hbefore =>
    have hlength := (addWrites_distinct size [] writes hnames (by simp) (by simp)).2
    rw [hlength, length_nil, Nat.zero_add] at hone
    have hpos := length_pos_of_ne_nil hne
    obtain ⟨write, rfl⟩ := length_eq_one_iff.mp (show writes.length = 1 by omega)
    have href := hrefs' write mem_cons_self
    refine .filling before.length ⟨⟨write.endpoint, [write]⟩, 1, size⟩ (fun j hj => ?_) ?_ ?_
      hafter' fun w hw => ?_
    · exact (stateAt_append_left hj).mpr (stateAt_of_mem hbefore)
    · simp [href]
    · simp
    · rw [mem_singleton.mp hw, href, hlast]
      rfl
  | filling k entry hbefore hrefs hlength hafter hsingle =>
    obtain ⟨write, rfl⟩ := eq_singleton_of_found hne hnames (hfound (by simp))
    have href := hrefs' write mem_cons_self
    rw [foldl_cons, foldl_nil, addWrite_found size entry write (hfound (by simp))]
    refine .filling k _ (fun j hj => ?_) ?_ ?_ hafter' fun w hw => ?_
    · exact (stateAt_append_left (by omega)).mpr (hbefore j hj)
    · simp only [TargetedBatchMap.BatchEntry.addWrite, map_append, hrefs, map_cons,
        map_nil, length_append, length_cons, length_nil, range'_concat]
      rw [href, hlength]
      simp
    · simp only [TargetedBatchMap.BatchEntry.addWrite, length_append, length_cons, length_nil]
      omega
    · rcases mem_append.mp hw with hw | hw
      · have hlt := (mem_refs hrefs hw).2
        rw [targeting_eq_of_getElem? (getElem?_append_left (by omega))]
        exact hsingle w hw
      · rw [mem_singleton.mp hw, href, hlast]
        rfl

theorem OrderedLoop.targetOps (self : BatchWriteOp) (hordered : self.clientRequest.ordered = true)
    (hT : Targets targeter) (recordTargetErrors : Bool)
    (hloop : Looping before after batchMap acks last) (h : OrderedLoop last before after batchMap) :
    InOrder (self.targetOps targeter recordTargetErrors before after batchMap).writeOps
      (targeting (self.targetOps targeter recordTargetErrors before after batchMap).writeOps last)
      (self.targetOps targeter recordTargetErrors before after batchMap).batches
      (self.targetOps targeter recordTargetErrors before after batchMap).batches := by
  induction after generalizing before batchMap with
  | nil =>
    unfold targetOps
    cases h with
    | start hbefore =>
      refine .single before.length [] (fun j _ => stateAt_of_mem hbefore) (fun j hj op hop => ?_)
        (by simp)
      have hlt : j < before.length := (List.getElem?_eq_some_iff.mp hop).1
      omega
    | filling k entry hbefore hrefs hlength hafter hsingle =>
      have hsend := OrderedLoop.send [] hbefore hrefs hlength hafter hsingle
      rw [append_nil] at hsend
      exact hsend
  | cons op after ih =>
    have hcases := targetOp_targeting self targeter recordTargetErrors op batchMap
    unfold targetOps
    cases hstep : self.targetOp targeter recordTargetErrors op batchMap with
    | abort status => exact h.abort []
    | next op' batchMap' =>
      rw [hstep] at hcases
      cases hcases with
      | skip hstate =>
        refine ih (hloop.unsent (.inl rfl)) ?_
        cases h with
        | start hbefore hafter =>
          obtain ⟨l, r, heq, hl, hr⟩ := hafter
          cases l with
          | nil =>
            obtain rfl : r = op :: after := heq.symm
            exact absurd (hr op mem_cons_self) hstate
          | cons first l =>
            obtain ⟨rfl, rfl⟩ := List.cons.inj heq
            obtain ⟨hop, hl⟩ := forall_mem_cons.mp hl
            exact .start (forall_mem_append.mpr ⟨hbefore, forall_mem_singleton.mpr hop⟩)
              ⟨l, r, rfl, hl, hr⟩
        | filling k entry hbefore hrefs hlength hafter =>
          exact absurd (hafter op mem_cons_self) hstate
      | record _ _ hnot => exact absurd (hordered.symm.trans hnot) (by simp)
      | next writes _ hready htarget hfound hone =>
        refine ih (hloop.target hready hT htarget _) ?_
        obtain ⟨hne, hnames, hrefs', hlast⟩ := hloop.target_spec hready hT htarget
        exact h.fill hready hne hnames hrefs' hlast (hfound hordered) (hone hordered)
    | stop op' batchMap' =>
      rw [hstep] at hcases
      cases hcases with
      | fail _ hunsent hempty =>
        subst hempty
        have hafter := h.after_ready hunsent.1
        cases h with
        | start hbefore => exact inOrder_nil hbefore hafter []
      | wait _ hunsent hready' =>
        have hafter := h.after_ready hunsent.1
        cases h with
        | start hbefore => exact inOrder_nil hbefore hafter []
        | filling k entry hbefore hrefs hlength _ hsingle =>
          exact OrderedLoop.send _ hbefore hrefs hlength
            (forall_mem_cons.mpr ⟨hready', hafter⟩) hsingle
      | last writes _ hready htarget hfound hmany =>
        obtain ⟨hne, hnames, hrefs', -⟩ := hloop.target_spec hready hT htarget
        have hafter := h.after_ready hready
        cases h with
        | start hbefore =>
          have hsingle := (addWrites_distinct (getWriteSizeBytes op'.item) [] writes hnames
            (by simp) (by simp)).1
          refine .single before.length _ (fun j hj => ?_) (fun j hj => ?_) fun batch hbatch => ?_
          · exact (stateAt_append_left hj).mpr (stateAt_of_mem hbefore)
          · change StateAt (before ++ op' :: after) j .ready
            rw [append_cons]
            exact stateAt_append_right (by simpa using hj) hafter
          · obtain ⟨entry, hentry, rfl⟩ := mem_map.mp hbatch
            obtain ⟨write, hwrite⟩ := hsingle entry hentry
            refine ⟨write, hwrite, hrefs' write ?_⟩
            have hmem : write ∈ TargetedBatchMap.writes (writes.foldl
                (addWrite (getWriteSizeBytes op'.item)) []) :=
              mem_flatMap.mpr ⟨entry, hentry, hwrite ▸ mem_cons_self⟩
            exact (writes_addWrites _ [] writes).mem_iff.mp hmem
        | filling k entry =>
          obtain ⟨write, rfl⟩ := eq_singleton_of_found hne hnames (hfound hordered (by simp))
          rw [foldl_cons, foldl_nil,
            addWrite_found _ entry write (hfound hordered (by simp))] at hmany
          simp at hmany

end Targeting

section Responses
variable {write : TargetedWrite} {index : ℕ} {round : List TargetedWriteBatch}

theorem stateAt_set_ne {i j : ℕ} (h : i ≠ j) :
    StateAt (ops.set i op') j state ↔ StateAt ops j state := by
  unfold StateAt
  rw [getElem?_set_ne h]

theorem stateAt_set_self {i : ℕ} : StateAt (ops.set i op') i op'.state := by
  intro op hop
  have hlt := (List.getElem?_eq_some_iff.mp hop).1
  rw [length_set] at hlt
  rw [List.getElem?_set_self hlt] at hop
  exact Option.some.inj hop ▸ rfl

theorem Tracked.completed (h : Tracked ops (write :: out) acks last)
    (hop : ops[write.writeOpRef.1]? = some op) (hsingle : (last write.writeOpRef.1).length = 1)
    (hnote : op.noteWriteComplete write = some op') : op'.state = .completed := by
  have hnot := (nodup_cons.mp h.out_nodup).1
  obtain ⟨hstate, hpending⟩ := (h.op _ op hop).pending mem_cons_self rfl
  obtain ⟨child, hchild, -⟩ := hpending.child mem_cons_self rfl
  obtain ⟨hzero, ⟨child', hchildOps⟩, -⟩ := hpending.single rfl hnot hsingle
  unfold WriteOp.noteWriteComplete at hnote
  rw [finishChild_some hchild] at hnote
  cases hnote
  exact updateOpState_completed (by rw [hzero, hchildOps, modify_zero_cons]) rfl

theorem noteWrites_cancelled {error : WriteErrorDetail}
    (hnote : noteWrites true writes index [] (some error) ops = some ops') (j : ℕ) :
    (j ∈ writes.map (·.writeOpRef.1) → StateAt ops' j .ready) ∧
      (j ∉ writes.map (·.writeOpRef.1) → ops'[j]? = ops[j]?) := by
  induction writes generalizing index ops with
  | nil =>
    cases hnote
    exact ⟨by simp, fun _ => rfl⟩
  | cons write rest ih =>
    obtain ⟨op, op', hop, hop', hnote⟩ := noteWrites_cons hnote
    cases hop'
    obtain ⟨hin, hnot⟩ := ih hnote
    constructor
    · intro hj
      by_cases hrest : j ∈ rest.map (·.writeOpRef.1)
      · exact hin hrest
      · obtain rfl : j = write.writeOpRef.1 := by simpa [hrest] using hj
        intro o ho
        rw [hnot hrest] at ho
        exact stateAt_set_self o ho
    · intro hj
      rw [map_cons, mem_cons, not_or] at hj
      rw [hnot hj.2, getElem?_set_ne (Ne.symm hj.1)]

variable {errors : List WriteErrorDetail} {rest : List TargetedWriteBatch}

/-- A sequence of operations for one shard: some are completed, the one after them may have
failed, and the rest is ready. -/
theorem noteWrites_sequence {k : ℕ} (h : Tracked ops (writes ++ out) acks last)
    (hsorted : errors.Pairwise fun a b => a.index < b.index)
    (hrange : ∀ error ∈ errors, (index : ℤ) ≤ error.index) (hone : errors.length ≤ 1)
    (hsingle : ∀ write ∈ writes, (last write.writeOpRef.1).length = 1)
    (hbefore : ∀ j, j < k → StateAt ops j .completed)
    (hrefs : writes.map (·.writeOpRef.1) = range' k writes.length)
    (hafter : ∀ j, k + writes.length ≤ j → StateAt ops j .ready)
    (hnote : noteWrites true writes index errors none ops = some ops') :
    ∃ k', (∀ j, j < k' → StateAt ops' j .completed) ∧ ∀ j, k' < j → StateAt ops' j .ready := by
  induction writes generalizing index ops acks k with
  | nil =>
    cases hnote
    exact ⟨k, hbefore, fun j hj => hafter j (by simpa using hj.le)⟩
  | cons write rest ih =>
    rw [map_cons, length_cons, range'_succ] at hrefs
    obtain ⟨href, hrest⟩ := List.cons.inj hrefs
    have hsame : ∀ {state : WriteOpState} {o : WriteOp} {j : ℕ}, j ≠ k →
        (StateAt (ops.set write.writeOpRef.1 o) j state ↔ StateAt ops j state) :=
      fun hj => stateAt_set_ne (href ▸ Ne.symm hj)
    obtain ⟨op, op', hop, hop', hnote⟩ := noteWrites_cons hnote
    rcases takeError_cases hsorted hrange with ⟨error, errors', rfl, hat, htake⟩ | ⟨hnone, htake⟩
    · rw [htake] at hop' hnote
      obtain rfl : errors' = [] := by simpa using hone
      refine ⟨k, fun j hj o ho => ?_, fun j hj => ?_⟩
      · rw [(noteWrites_cancelled hnote j).2 fun hmem => ?_] at ho
        · exact (hsame (by omega)).mpr (hbefore j hj) o ho
        · rw [hrest] at hmem
          obtain ⟨i, -, rfl⟩ := mem_range'.mp hmem
          omega
      · by_cases hmem : j ∈ rest.map (·.writeOpRef.1)
        · exact (noteWrites_cancelled hnote j).1 hmem
        · intro o ho
          rw [(noteWrites_cancelled hnote j).2 hmem] at ho
          refine (hsame (by omega)).mpr (hafter j ?_) o ho
          rw [length_cons]
          by_contra hlt
          rw [hrest] at hmem
          exact hmem (mem_range'.mpr ⟨j - (k + 1), by omega, by omega⟩)
    · rw [htake] at hop' hnote
      have hcomplete : op.noteWriteComplete write = some op' := by
        simpa [noteWrite] using hop'
      have hstate := h.completed hop (hsingle write mem_cons_self) hcomplete
      refine ih (h.noteWriteComplete hop hcomplete) (fun error herror => ?_)
        (forall_mem_cons.mp hsingle).2 (fun j hj => ?_) hrest
        (fun j hj => ?_) hnote
      · have hle := hrange error herror
        have hne := hnone error herror
        push_cast
        omega
      · by_cases hjk : j = k
        · rw [hjk, ← href, ← hstate]
          exact stateAt_set_self
        · exact (hsame hjk).mpr (hbefore j (by omega))
      · refine (hsame (by omega)).mpr (hafter j ?_)
        rw [length_cons]
        omega

theorem noteWrites_single {ordered : Bool} {lastError : Option WriteErrorDetail}
    (hnote : noteWrites ordered [write] index errors lastError ops = some ops')
    (hj : j ≠ write.writeOpRef.1) : ops'[j]? = ops[j]? := by
  obtain ⟨op, op', hop, hop', hnote⟩ := noteWrites_cons hnote
  cases hnote
  exact getElem?_set_ne (Ne.symm hj)

theorem InOrder.perm {batches batches' : List TargetedWriteBatch}
    (h : InOrder ops last round batches) (hperm : batches.Perm batches') :
    InOrder ops last round batches' := by
  cases h with
  | single k _ hbefore hafter hbatches =>
    exact .single k batches' hbefore hafter fun b hb => hbatches b (hperm.mem_iff.mpr hb)
  | sequence k batch hbefore hrefs hafter hsingle hround =>
    obtain rfl := perm_singleton.mp hperm.symm
    exact .sequence k batch hbefore hrefs hafter hsingle hround

theorem InOrder.batch_cases (h : InOrder ops last round (batch :: rest)) :
    batch.writes.length ≤ 1 ∨ ∀ write ∈ batch.writes, (last write.writeOpRef.1).length = 1 := by
  cases h with
  | single k _ hbefore hafter hbatches =>
    obtain ⟨write, hwrite, -⟩ := hbatches batch mem_cons_self
    exact .inl (by simp [hwrite])
  | sequence k _ hbefore hrefs hafter hsingle => exact .inr hsingle

theorem InOrder.noteWrites (h : InOrder ops last round (batch :: rest))
    (htracked : Tracked ops (batch.writes ++ out) acks last)
    (hsorted : errors.Pairwise fun a b => a.index < b.index)
    (hrange : ∀ error ∈ errors, 0 ≤ error.index) (hone : errors.length ≤ 1)
    (hnote : noteWrites true batch.writes 0 errors none ops = some ops') :
    InOrder ops' last round rest := by
  cases h with
  | single k _ hbefore hafter hbatches =>
    obtain ⟨write, hwrite, rfl⟩ := hbatches batch mem_cons_self
    rw [hwrite] at hnote
    refine .single write.writeOpRef.1 rest (fun j hj o ho => ?_) (fun j hj o ho => ?_)
      (forall_mem_cons.mp hbatches).2
    · rw [noteWrites_single hnote (by omega)] at ho
      exact hbefore j hj o ho
    · rw [noteWrites_single hnote (by omega)] at ho
      exact hafter j hj o ho
  | sequence k _ hbefore hrefs hafter hsingle =>
    obtain ⟨k', hbefore', hafter'⟩ := noteWrites_sequence htracked hsorted (by simpa using hrange)
      hone hsingle hbefore hrefs hafter hnote
    exact .single k' [] hbefore' hafter' (by simp)

end Responses

end MongoServer.BatchWriteExec
