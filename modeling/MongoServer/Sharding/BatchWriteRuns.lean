import MongoServer.Sharding.WriteOpTracking

/-!
Whole runs of a batch of writes. A round of targeting puts ready operations on the way and
keeps the account; in an ordered batch it sends one operation, or operations in sequence to
one shard, and only when all before them are completed.
-/
namespace MongoServer.BatchWriteExec
open List TargetedBatchMap

variable {ops ops' before after : List WriteOp} {out : List TargetedWrite}
  {acks : List (ℕ × String)} {last : ℕ → List ShardEndpoint} {batchMap : TargetedBatchMap}
  {targeter : NSTargeter} {op op' : WriteOp} {writes : List TargetedWrite} {i : ℕ}

section Targeting

theorem writes_insert (entry : BatchEntry) : (TargetedBatchMap.writes (insert entry batchMap)).Perm
      (batchMap.writes ++ entry.batch.writes) := by
  induction batchMap with
  | nil => simp [TargetedBatchMap.writes, TargetedBatchMap.insert]
  | cons first rest ih =>
    unfold TargetedBatchMap.insert
    unfold TargetedBatchMap.writes at ih ⊢
    split_ifs
    · rw [flatMap_cons]
      exact perm_append_comm
    · rw [flatMap_cons, flatMap_cons, append_assoc]
      exact ih.append_left _

theorem writes_addWrite (writeSizeBytes : ℕ) (batchMap : TargetedBatchMap) (write : TargetedWrite) :
    (addWrite writeSizeBytes batchMap write).writes.Perm (batchMap.writes ++ [write]) := by
  rcases addWrite_cases writeSizeBytes batchMap write with
    ⟨l, entry, r, rfl, -, -, hadd⟩ | ⟨-, hadd⟩
  · rw [hadd]
    simp only [TargetedBatchMap.writes, TargetedBatchMap.BatchEntry.addWrite,
      flatMap_append, flatMap_cons, append_assoc]
    have hswap : ([write] ++ r.flatMap fun entry => entry.batch.writes).Perm
        ((r.flatMap fun entry => entry.batch.writes) ++ [write]) := perm_append_comm
    exact (hswap.append_left _).append_left _
  · rw [hadd]
    exact writes_insert _

/-- Grouping loses no write and adds none. -/
theorem writes_addWrites (writeSizeBytes : ℕ) (batchMap : TargetedBatchMap)
    (writes : List TargetedWrite) :
    TargetedBatchMap.writes (writes.foldl (addWrite writeSizeBytes) batchMap) |>.Perm
      (batchMap.writes ++ writes) := by
  induction writes generalizing batchMap with
  | nil => rw [foldl_nil, append_nil]
  | cons write rest ih =>
    rw [foldl_cons, append_cons]
    exact (ih _).trans ((writes_addWrite _ _ _).append_right rest)

theorem targeting_eq_of_getElem? (h : ops'[i]? = ops[i]?) :
    targeting ops' last i = targeting ops last i := by
  unfold targeting
  rw [h]

theorem targeting_of_not_pending (hop : ops[i]? = some op) (h : op.state ≠ .pending) :
    targeting ops last i = last i := by
  unfold targeting
  rw [hop]
  exact if_neg h

theorem Tracked.replace {out' : List TargetedWrite}
    (h : Tracked (before ++ op :: after) out acks (targeting (before ++ op :: after) last))
    (hi : before.length = i)
    (hop : OpOk i op' out' acks (targeting (before ++ op' :: after) last i))
    (hout : ∀ write : TargetedWrite, write.writeOpRef.1 ≠ i → (write ∈ out' ↔ write ∈ out))
    (hnodup : out'.Nodup) :
    Tracked (before ++ op' :: after) out' acks (targeting (before ++ op' :: after) last) := by
  subst hi
  refine ⟨fun j opj hj => ?_, fun w hw => ?_, hnodup, h.acks_nodup⟩
  swap
  · rw [length_append, length_cons]
    by_cases hi : w.writeOpRef.1 = before.length
    · omega
    · have hlt := h.inside w ((hout w hi).mp hw)
      rw [length_append, length_cons] at hlt
      exact hlt
  by_cases hij : before.length = j
  · subst hij
    rw [getElem?_append_right (le_refl _), Nat.sub_self] at hj
    cases hj
    exact hop
  · have hsame : (before ++ op' :: after)[j]? = (before ++ op :: after)[j]? := by
      rcases Nat.lt_or_gt_of_ne hij with hlt | hgt
      · obtain ⟨k, rfl⟩ := Nat.exists_eq_add_of_lt hlt
        rw [getElem?_append_right (by omega), getElem?_append_right (by omega)]
        have hk : before.length + k + 1 - before.length = k + 1 := by omega
        rw [hk, getElem?_cons_succ, getElem?_cons_succ]
      · rw [getElem?_append_left hgt, getElem?_append_left hgt]
    rw [targeting_eq_of_getElem? hsame]
    rw [hsame] at hj
    exact (h.op j opj hj).congr (fun w hw => hout w fun he => hij (he ▸ hw)) fun _ _ => Iff.rfl

/-- A ready operation got an error, or is ready as before. -/
def Unsent (op op' : WriteOp) : Prop :=
  op.state = .ready ∧ op'.itemIndex = op.itemIndex ∧
    (op'.state = .error ∨ op'.state = .ready ∧ op'.childOps = [])

theorem OpOk.unsent {endpoints endpoints' : List ShardEndpoint}
    (h : OpOk i op out acks endpoints) (hop : Unsent op op') : OpOk i op' out acks endpoints' := by
  obtain ⟨hready, hindex, hstate⟩ := hop
  obtain ⟨hi, hok⟩ := h
  rw [hready] at hok
  refine ⟨hindex.trans hi, ?_⟩
  rcases hstate with hs | ⟨hs, hchildren⟩
  · rw [hs]
    exact hok.2.1
  · rw [hs]
    exact ⟨hchildren, hok.2⟩

section
variable (self : BatchWriteOp) (targeter : NSTargeter) (op : WriteOp) (batchMap : TargetedBatchMap)

inductive Targeting : TargetStep → Prop
  | skip (hstate : op.state ≠ .ready) : Targeting (.next op batchMap)
  | abort (status : Status) : Targeting (.abort status)
  | record (op' : WriteOp) (hunsent : Unsent op op') (hordered : self.clientRequest.ordered = false) :
      Targeting (.next op' batchMap)
  | fail (op' : WriteOp) (hunsent : Unsent op op') (hempty : batchMap = []) :
      Targeting (.stop op' batchMap)
  | wait (op' : WriteOp) (hunsent : Unsent op op') (hready : op'.state = .ready) :
      Targeting (.stop op' batchMap)
  | next (writes : List TargetedWrite) (op' : WriteOp) (hready : op.state = .ready)
      (htarget : op.targetWrites targeter self.clientRequest.isInsertIndexRequest =
        .ok (writes, op'))
      (hfound : self.clientRequest.ordered = true → batchMap ≠ [] →
        isNewBatchRequired writes batchMap = false)
      (hone : self.clientRequest.ordered = true → (writes.foldl
        (addWrite (getWriteSizeBytes op'.item)) batchMap).length ≤ 1) :
      Targeting (.next op' (writes.foldl (addWrite (getWriteSizeBytes op'.item)) batchMap))
  | last (writes : List TargetedWrite) (op' : WriteOp) (hready : op.state = .ready)
      (htarget : op.targetWrites targeter self.clientRequest.isInsertIndexRequest =
        .ok (writes, op'))
      (hfound : self.clientRequest.ordered = true → batchMap ≠ [] →
        isNewBatchRequired writes batchMap = false)
      (hmany : 1 < (writes.foldl (addWrite (getWriteSizeBytes op'.item)) batchMap).length) :
      Targeting (.stop op' (writes.foldl (addWrite (getWriteSizeBytes op'.item)) batchMap))

end

theorem targetOp_targeting (self : BatchWriteOp) (targeter : NSTargeter)
    (recordTargetErrors : Bool) (op : WriteOp) (batchMap : TargetedBatchMap) :
    Targeting self targeter op batchMap
      (self.targetOp targeter recordTargetErrors op batchMap) := by
  unfold BatchWriteOp.targetOp
  by_cases hready : op.state = .ready
  · rw [if_neg (not_not.mpr hready)]
    cases htarget : op.targetWrites targeter self.clientRequest.isInsertIndexRequest with
    | error status =>
      cases recordTargetErrors with
      | false => exact .abort status
      | true =>
        simp only [Bool.not_true, if_neg Bool.false_ne_true]
        unfold recordTargetError
        split_ifs with hordered hempty
        · exact .record _ ⟨hready, rfl, .inl rfl⟩ (by simpa using hordered)
        · exact .fail _ ⟨hready, rfl, .inl rfl⟩ (by simpa using hempty)
        · exact .wait _ ⟨hready, rfl, .inr ⟨rfl, rfl⟩⟩ rfl
    | ok result =>
      obtain ⟨writes, op'⟩ := result
      have hindex : op'.itemIndex = op.itemIndex := by
        unfold WriteOp.targetWrites at htarget
        obtain ⟨found, -, hok⟩ := Transition.bind_eq_ok.mp htarget
        exact ((Prod.mk.inj (Except.ok.inj hok)).2 ▸ rfl)
      unfold addTargeted
      dsimp only
      split_ifs with hnew hbig hmany
      · exact .wait _ ⟨hready, hindex, .inr ⟨rfl, rfl⟩⟩ rfl
      · exact .wait _ ⟨hready, hindex, .inr ⟨rfl, rfl⟩⟩ rfl
      · simp only [Bool.and_eq_true, decide_eq_true_eq] at hmany
        refine .last writes op' hready htarget (fun hordered hne => ?_) hmany.2
        simpa [hordered, hne] using hnew
      · refine .next writes op' hready htarget (fun hordered hne => ?_) fun hordered => ?_
        · simpa [hordered, hne] using hnew
        · simpa [hordered] using hmany
  · rw [if_pos hready]
    exact .skip hready

theorem cancelBatches_getElem? {why : WriteErrorDetail} {j : ℕ}
    (h : (cancelBatches why ops batchMap)[j]? = some op') :
    ∃ op, ops[j]? = some op ∧
      ((j ∈ batchMap.writes.map (·.writeOpRef.1) ∧ op'.itemIndex = op.itemIndex ∧
        op'.state = .ready ∧ op'.childOps = []) ∨
      (j ∉ batchMap.writes.map (·.writeOpRef.1) ∧ op' = op)) := by
  unfold cancelBatches at h
  generalize batchMap.writes = writes at h
  induction writes generalizing ops with
  | nil => exact ⟨op', h, .inr ⟨by simp, rfl⟩⟩
  | cons write rest ih =>
    obtain ⟨op₁, hop₁, hcases⟩ := ih h
    rw [getElem?_modify] at hop₁
    obtain ⟨op, hop, heq⟩ := Option.map_eq_some_iff.mp hop₁
    refine ⟨op, hop, ?_⟩
    by_cases hj : write.writeOpRef.1 = j
    · rw [if_pos hj] at heq
      refine .inl ⟨by simp [hj], ?_⟩
      rcases hcases with ⟨-, hindex, hstate, hchildren⟩ | ⟨-, rfl⟩
      · exact ⟨hindex.trans (heq ▸ rfl), hstate, hchildren⟩
      · exact heq ▸ ⟨rfl, rfl, rfl⟩
    · rw [if_neg hj] at heq
      obtain rfl : op = op₁ := heq
      rcases hcases with ⟨hmem, hrest⟩ | ⟨hmem, hrest⟩
      · exact .inl ⟨mem_cons_of_mem _ hmem, hrest⟩
      · exact .inr ⟨by simpa [Ne.symm hj] using hmem, hrest⟩

theorem length_cancelBatches (why : WriteErrorDetail) (ops : List WriteOp)
    (batchMap : TargetedBatchMap) : (cancelBatches why ops batchMap).length = ops.length := by
  unfold cancelBatches
  generalize batchMap.writes = writes
  induction writes generalizing ops with
  | nil => rfl
  | cons write rest ih => rw [foldl_cons, ih, length_modify]

/-- The account inside the loop; none of the writes put on the way was acknowledged before. -/
structure Looping (before after : List WriteOp) (batchMap : TargetedBatchMap)
    (acks : List (ℕ × String)) (last : ℕ → List ShardEndpoint) : Prop where
  tracked : Tracked (before ++ after) batchMap.writes acks (targeting (before ++ after) last)
  inside : ∀ write ∈ batchMap.writes, write.writeOpRef.1 < before.length
  unacked : ∀ write ∈ batchMap.writes, NoneAcked write.writeOpRef.1 acks

theorem Looping.cancelBatches (h : Looping before after batchMap acks last)
    (why : WriteErrorDetail) :
    Tracked (MongoServer.cancelBatches why before batchMap ++ after) [] acks
      (targeting (MongoServer.cancelBatches why before batchMap ++ after) last) := by
  refine ⟨fun j op' hj => ?_, by simp, nodup_nil, h.tracked.acks_nodup⟩
  have hold : ∃ op, (before ++ after)[j]? = some op ∧
      ((j ∈ batchMap.writes.map (·.writeOpRef.1) ∧ op'.itemIndex = op.itemIndex ∧
        op'.state = .ready ∧ op'.childOps = []) ∨
      (j ∉ batchMap.writes.map (·.writeOpRef.1) ∧ op' = op)) := by
    by_cases hlt : j < before.length
    · rw [getElem?_append_left (by rwa [length_cancelBatches])] at hj
      rw [getElem?_append_left hlt]
      exact cancelBatches_getElem? hj
    · rw [getElem?_append_right (by rw [length_cancelBatches]; omega), length_cancelBatches] at hj
      refine ⟨op', by rw [getElem?_append_right (by omega), hj], .inr ⟨fun hmem => hlt ?_, rfl⟩⟩
      obtain ⟨write, hwrite, rfl⟩ := mem_map.mp hmem
      exact h.inside write hwrite
  obtain ⟨op, hop, hcases⟩ := hold
  obtain ⟨hindex, hok⟩ := h.tracked.op j op hop
  rcases hcases with ⟨hmem, hindex', hstate, hchildren⟩ | ⟨hmem, rfl⟩
  · refine ⟨hindex'.trans hindex, ?_⟩
    rw [hstate]
    obtain ⟨write, hwrite, rfl⟩ := mem_map.mp hmem
    exact ⟨hchildren, by simp [NoneOut], h.unacked write hwrite⟩
  · have hpending : op'.state ≠ .pending := by
      intro hs
      rw [hs] at hok
      obtain ⟨child, hchild, hstate⟩ := hok.waits
      obtain ⟨c, hc⟩ := mem_iff_getElem?.mp hchild
      have hlt := (List.getElem?_eq_some_iff.mp hc).1
      rw [hok.length] at hlt
      have hchildOk := hok.children c _ child (getElem?_eq_getElem hlt) hc
      unfold ChildOk at hchildOk
      rw [hstate] at hchildOk
      exact hmem (mem_map.mpr ⟨_, hchildOk.1, rfl⟩)
    refine ⟨hindex, ?_⟩
    rw [targeting_of_not_pending hj hpending]
    rw [targeting_of_not_pending hop hpending] at hok
    cases hs : op'.state <;> rw [hs] at hok <;> simp only at hok ⊢
    case ready => exact ⟨hok.1, by simp [NoneOut], hok.2.2⟩
    case pending => exact absurd hs hpending
    case completed => exact ⟨by simp [NoneOut], hok.2⟩
    case error => simp [NoneOut]

theorem Looping.unsent (h : Looping before (op :: after) batchMap acks last)
    (hop : op' = op ∨ Unsent op op') : Looping (before ++ [op']) after batchMap acks last := by
  have hget : (before ++ op :: after)[before.length]? = some op := by simp
  refine ⟨?_, fun write hw => ?_, h.unacked⟩
  · rw [append_assoc, singleton_append]
    rcases hop with rfl | hop
    · exact h.tracked
    · exact h.tracked.replace rfl ((h.tracked.op _ op hget).unsent hop) (fun _ _ => Iff.rfl)
        h.tracked.out_nodup
  · have hlt := h.inside write hw
    rw [length_append]
    omega

theorem Looping.target (h : Looping before (op :: after) batchMap acks last)
    (hready : op.state = .ready) (hT : Targets targeter) {isIndexInsert : Bool}
    (htarget : op.targetWrites targeter isIndexInsert = .ok (writes, op')) (writeSizeBytes : ℕ) :
    Looping (before ++ [op']) after
      (writes.foldl (addWrite writeSizeBytes) batchMap) acks last := by
  have hget : (before ++ op :: after)[before.length]? = some op := by simp
  have hget' : (before ++ op' :: after)[before.length]? = some op' := by simp
  have hperm := writes_addWrites writeSizeBytes batchMap writes
  obtain ⟨hindex, hstate⟩ := h.tracked.op _ op hget
  rw [hready] at hstate
  obtain ⟨hok, hrefs, hnodup, hout⟩ := (h.tracked.op _ op hget).target hready hT htarget
  have hlast : targeting (before ++ op' :: after) last before.length =
      writes.map TargetedWrite.endpoint := by
    obtain ⟨-, -, -, rfl⟩ := targetWrites_spec hT hstate.1 htarget
    unfold targeting
    rw [hget']
    simp [filterMap_map]
  have hdisjoint : ∀ a ∈ batchMap.writes, ∀ b ∈ writes, a ≠ b := by
    intro a ha b hb heq
    exact hout a ha (heq ▸ hrefs b hb)
  refine ⟨?_, fun write hw => ?_, fun write hw => ?_⟩
  · rw [append_assoc, singleton_append]
    refine (h.tracked.replace rfl (hlast ▸ hok) (fun w hw => ?_) ?_).perm hperm.symm
    · rw [mem_append]
      exact ⟨fun hor => hor.resolve_right fun hmem => hw (hrefs w hmem), .inl⟩
    · exact nodup_append.mpr ⟨h.tracked.out_nodup, hnodup, hdisjoint⟩
  · rw [length_append, length_singleton]
    rcases mem_append.mp (hperm.mem_iff.mp hw) with hw | hw
    · exact Nat.lt_succ_of_lt (h.inside write hw)
    · rw [hrefs write hw]
      omega
  · rcases mem_append.mp (hperm.mem_iff.mp hw) with hw | hw
    · exact h.unacked write hw
    · rw [hrefs write hw]
      exact hstate.2.2

theorem writes_map_batch (batchMap : TargetedBatchMap) :
    (batchMap.map BatchEntry.batch).flatMap TargetedWriteBatch.writes = batchMap.writes := by
  rw [flatMap_map]
  rfl

theorem Looping.targetOps (self : BatchWriteOp) (hT : Targets targeter) (recordTargetErrors : Bool)
    (h : Looping before after batchMap acks last) :
    Tracked (self.targetOps targeter recordTargetErrors before after batchMap).writeOps
      ((self.targetOps targeter recordTargetErrors before after batchMap).batches.flatMap
        TargetedWriteBatch.writes) acks
      (targeting (self.targetOps targeter recordTargetErrors before after batchMap).writeOps
        last) := by
  induction after generalizing before batchMap with
  | nil =>
    unfold BatchWriteOp.targetOps
    rw [writes_map_batch]
    have htracked := h.tracked
    rw [append_nil] at htracked
    exact htracked
  | cons op after ih =>
    unfold BatchWriteOp.targetOps
    have hcases := targetOp_targeting self targeter recordTargetErrors op batchMap
    cases hstep : self.targetOp targeter recordTargetErrors op batchMap with
    | abort status => exact h.cancelBatches _
    | next op' batchMap' =>
      rw [hstep] at hcases
      cases hcases with
      | skip => exact ih (h.unsent (.inl rfl))
      | record _ hunsent => exact ih (h.unsent (.inr hunsent))
      | next writes _ hready htarget => exact ih (h.target hready hT htarget _)
    | stop op' batchMap' =>
      have hlooping : Looping (before ++ [op']) after batchMap' acks last := by
        rw [hstep] at hcases
        cases hcases with
        | fail _ hunsent | wait _ hunsent => exact h.unsent (.inr hunsent)
        | last writes _ hready htarget => exact h.target hready hT htarget _
      have htracked := hlooping.tracked
      rw [append_assoc, singleton_append] at htracked
      rw [writes_map_batch]
      exact htracked

end Targeting

end MongoServer.BatchWriteExec
