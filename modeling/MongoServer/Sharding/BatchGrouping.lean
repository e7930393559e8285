import MongoServer.Sharding.BatchWriteOp

/-!
Which writes share a batch. The map of batches finds a write's endpoint by a comparison that
keeps only the lower half of the difference of two versions, so two versions of one shard with
the same minor number are one key. All batches are uniform exactly when no two writes of one
type can be targeted with two such versions.
-/
namespace MongoServer
open ByteOrder List

variable (targeter : NSTargeter)

def NSTargeter.endpoints (isIndexInsert : Bool) (item : BatchItem) : List ShardEndpoint :=
  match targeter.targetItem isIndexInsert item with
  | .ok endpoints => broadcastEndpoints endpoints
  | .error _ => []

/-- Whatever two items of one type that fit into one batch are targeted with, the versions of
one shard that share their minor number share their major number. -/
def NSTargeter.Separated : Prop :=
  ∀ item item' : BatchItem, item.opType = item'.opType →
    getWriteSizeBytes item + getWriteSizeBytes item' ≤ BSONObjMaxUserSize →
    ∀ e ∈ targeter.endpoints false item, ∀ e' ∈ targeter.endpoints false item',
      e.shardName = e'.shardName →
      e.shardVersion.minorVersion = e'.shardVersion.minorVersion →
      e.shardVersion.majorVersion = e'.shardVersion.majorVersion

section Comparison

theorem eq_zero_of_nonneg {u v : UInt32} (hsum : u + v = 0) (hu : 0 ≤ u.toInt32.toInt)
    (hv : 0 ≤ v.toInt32.toInt) : u.toInt32.toInt = 0 := by
  have hu' : 0 ≤ u.toBitVec.toInt := hu
  have hv' : 0 ≤ v.toBitVec.toInt := hv
  have hzero : u.toBitVec + v.toBitVec = 0#32 := congrArg UInt32.toBitVec hsum
  have hnat := congrArg BitVec.toNat hzero
  have hnone : (0#32).toNat = 0 := rfl
  rw [BitVec.toNat_add, hnone] at hnat
  rw [BitVec.toInt_eq_toNat_cond] at hu' hv'
  change u.toBitVec.toInt = 0
  rw [BitVec.toInt_eq_toNat_cond]
  split_ifs at hu' hv' ⊢ <;> omega

variable {a b : ShardEndpoint}

theorem compareEndpoints_symm (h : compareEndpoints a b = 0) : compareEndpoints b a = 0 := by
  rw [compareEndpoints_eq_zero_iff] at h ⊢
  exact ⟨h.1.symm, h.2.1.symm, fun hmajor => (h.2.2 hmajor.symm).symm⟩

theorem not_endpointComp_iff :
    (¬compareEndpoints a b < 0 ∧ ¬compareEndpoints b a < 0) ↔ compareEndpoints a b = 0 := by
  constructor
  · rintro ⟨hab, hba⟩
    unfold compareEndpoints at hab hba ⊢
    have hswap : compare b.shardName a.shardName = (compare a.shardName b.shardName).swap :=
      Std.OrientedCmp.eq_swap
    rw [hswap] at hba
    cases hname : compare a.shardName b.shardName with
    | lt => simp [hname] at hab
    | gt => simp [hname] at hba
    | eq =>
      simp only [hname, Ordering.swap_eq] at hab hba ⊢
      by_cases hdiff : a.shardVersion.toLong - b.shardVersion.toLong = 0
      · have hback : b.shardVersion.toLong - a.shardVersion.toLong = 0 := by grind
        simp only [hdiff, hback, ne_eq, not_true_eq_false, if_false] at hab hba ⊢
        unfold memcmp at hab hba ⊢
        have hback : compare (b.shardVersion.epoch.bytes.take 12)
            (a.shardVersion.epoch.bytes.take 12) = (compare (a.shardVersion.epoch.bytes.take 12)
            (b.shardVersion.epoch.bytes.take 12)).swap := Std.OrientedCmp.eq_swap
        rw [hback] at hba
        cases hepoch : compare (a.shardVersion.epoch.bytes.take 12)
            (b.shardVersion.epoch.bytes.take 12) with
        | lt => simp [hepoch, toSign] at hab
        | gt => simp [hepoch, toSign] at hba
        | eq => rfl
      · have hback : b.shardVersion.toLong - a.shardVersion.toLong ≠ 0 := by grind
        simp only [hdiff, hback, ne_eq, not_false_eq_true, if_true, not_lt] at hab hba ⊢
        refine eq_zero_of_nonneg ?_ hab hba
        rw [UInt64.toUInt32_sub, UInt64.toUInt32_sub]
        grind
  · intro h
    simp [h, compareEndpoints_symm h]

theorem eq_of_compareEndpoints (h : compareEndpoints a b = 0)
    (hmajor : a.shardVersion.majorVersion = b.shardVersion.majorVersion) : a = b := by
  obtain ⟨hname, hminor, hepoch⟩ := compareEndpoints_eq_zero_iff.mp h
  have hcombined := ChunkVersion.combined_eq_iff.mpr ⟨hmajor, hminor⟩
  exact ShardEndpoint.ext hname (ChunkVersion.ext hcombined (hepoch hmajor))

end Comparison

namespace TargetedBatchMap
variable {batchMap : TargetedBatchMap} {write : TargetedWrite} (writeSizeBytes : ℕ)
  {endpoint : ShardEndpoint} {item : BatchItem} {endpoints : List ShardEndpoint}
  {e e' : ShardEndpoint} (writes : List TargetedWrite)

def keys (batchMap : TargetedBatchMap) : List ShardEndpoint :=
  batchMap.map fun entry => entry.batch.endpoint

/-- Every write is in a batch for its own endpoint. -/
def Uniform (batchMap : TargetedBatchMap) : Prop :=
  ∀ entry ∈ batchMap, ∀ write ∈ entry.batch.writes, write.endpoint = entry.batch.endpoint

theorem isAt_iff {entry : BatchEntry} :
    isAt endpoint entry = true ↔ compareEndpoints entry.batch.endpoint endpoint = 0 := by
  unfold isAt EndpointComp
  rw [← not_endpointComp_iff]
  simp

theorem mem_insert {entry entry' : BatchEntry} :
    entry' ∈ insert entry batchMap ↔ entry' = entry ∨ entry' ∈ batchMap := by
  induction batchMap with
  | nil => simp [insert]
  | cons first rest ih =>
    unfold insert
    split_ifs
    · simp
    · simp only [mem_cons, ih]
      tauto

theorem addToFound_cases (batchMap : TargetedBatchMap) (write : TargetedWrite) :
    (∃ l entry r, batchMap = l ++ entry :: r ∧ isAt write.endpoint entry = true ∧
      batchMap.find write.endpoint = some entry ∧
      addToFound writeSizeBytes write batchMap =
        some (l ++ BatchEntry.addWrite entry writeSizeBytes write :: r)) ∨
    ((∀ entry ∈ batchMap, isAt write.endpoint entry = false) ∧
      addToFound writeSizeBytes write batchMap = none) := by
  induction batchMap with
  | nil => exact .inr ⟨by simp, rfl⟩
  | cons first rest ih =>
    unfold addToFound find
    cases hfirst : isAt write.endpoint first with
    | true => exact .inl ⟨[], first, rest, rfl, hfirst, by simp [hfirst], by simp⟩
    | false =>
      rcases ih with ⟨l, entry, r, rfl, hat, hfind, hadd⟩ | ⟨hnone, hadd⟩
      · refine .inl ⟨first :: l, entry, r, rfl, hat, ?_, by simp [hadd]⟩
        rw [find?_cons_of_neg (by simp [hfirst])]
        exact hfind
      · exact .inr ⟨by simpa [hfirst] using hnone, by simp [hadd]⟩

theorem addWrite_cases (batchMap : TargetedBatchMap) (write : TargetedWrite) :
    (∃ l entry r, batchMap = l ++ entry :: r ∧
      compareEndpoints entry.batch.endpoint write.endpoint = 0 ∧
      batchMap.find write.endpoint = some entry ∧
      addWrite writeSizeBytes batchMap write =
        l ++ BatchEntry.addWrite entry writeSizeBytes write :: r) ∨
    ((∀ entry ∈ batchMap, compareEndpoints entry.batch.endpoint write.endpoint ≠ 0) ∧
      addWrite writeSizeBytes batchMap write =
        insert ⟨⟨write.endpoint, [write]⟩, 1, writeSizeBytes⟩ batchMap) := by
  unfold addWrite
  rcases addToFound_cases writeSizeBytes batchMap write with
    ⟨l, entry, r, hmap, hat, hfind, hadd⟩ | ⟨hnone, hadd⟩
  · exact .inl ⟨l, entry, r, hmap, isAt_iff.mp hat, hfind, by rw [hadd]⟩
  · refine .inr ⟨fun entry hentry h => ?_, by rw [hadd]⟩
    exact absurd (isAt_iff.mpr h) (by simp [hnone entry hentry])

theorem find_insert {new entry : BatchEntry}
    (h : find (insert new batchMap) endpoint = some entry) :
    entry = new ∨ batchMap.find endpoint = some entry := by
  induction batchMap with
  | nil =>
    obtain rfl := mem_singleton.mp (mem_of_find?_eq_some h)
    exact .inl rfl
  | cons first rest ih =>
    unfold insert at h
    unfold find at h ih ⊢
    split_ifs at h with hless
    · cases hnew : isAt endpoint new with
      | true =>
        rw [find?_cons_of_pos hnew] at h
        exact .inl (Option.some.inj h).symm
      | false =>
        rw [find?_cons_of_neg (by simp [hnew])] at h
        exact .inr h
    · cases hfirst : isAt endpoint first with
      | true =>
        rw [find?_cons_of_pos hfirst] at h ⊢
        exact .inr h
      | false =>
        rw [find?_cons_of_neg (by simp [hfirst])] at h ⊢
        exact ih h

theorem find_replace {l r : TargetedBatchMap} {old new entry : BatchEntry}
    (hkey : new.batch.endpoint = old.batch.endpoint)
    (h : find (l ++ new :: r) endpoint = some entry) :
    ∃ entry', find (l ++ old :: r) endpoint = some entry' ∧
      entry'.batch.endpoint = entry.batch.endpoint := by
  have hat : isAt endpoint new = isAt endpoint old := by
    unfold isAt
    rw [hkey]
  unfold find at h ⊢
  rw [find?_append] at h ⊢
  cases hl : l.find? (isAt endpoint) with
  | some found =>
    rw [hl] at h
    obtain rfl := Option.some.inj h
    exact ⟨found, rfl, rfl⟩
  | none =>
    rw [hl, Option.none_or] at h
    rw [Option.none_or]
    cases hold : isAt endpoint old with
    | true =>
      rw [find?_cons_of_pos (hat.trans hold)] at h
      cases h
      exact ⟨old, find?_cons_of_pos hold, hkey.symm⟩
    | false =>
      rw [find?_cons_of_neg (by simp [hat, hold])] at h
      exact ⟨entry, by rw [find?_cons_of_neg (by simp [hold]), h], rfl⟩

/-- What is found for any of the endpoints is a batch for that endpoint. -/
def Agrees (endpoints : List ShardEndpoint) (batchMap : TargetedBatchMap) : Prop :=
  ∀ e ∈ endpoints, ∀ entry, batchMap.find e = some entry → entry.batch.endpoint = e

section
variable (hself : ∀ e ∈ endpoints, ∀ e' ∈ endpoints, compareEndpoints e e' = 0 → e = e')
include hself

theorem addWrite_uniform (hwrite : write.endpoint ∈ endpoints) (hagrees : Agrees endpoints batchMap)
    (huniform : batchMap.Uniform) :
    Agrees endpoints (addWrite writeSizeBytes batchMap write) ∧
      Uniform (addWrite writeSizeBytes batchMap write) := by
  rcases addWrite_cases writeSizeBytes batchMap write with
    ⟨l, entry, r, rfl, -, hfind, hadd⟩ | ⟨-, hadd⟩
  · rw [hadd]
    have hkey : entry.batch.endpoint = write.endpoint := hagrees _ hwrite entry hfind
    constructor
    · intro e he found hfound
      have hsamekey : (BatchEntry.addWrite entry writeSizeBytes write).batch.endpoint =
          entry.batch.endpoint := rfl
      obtain ⟨found', hfound', hsame⟩ := find_replace hsamekey hfound
      rw [← hsame]
      exact hagrees e he found' hfound'
    · rw [Uniform, forall_mem_append, forall_mem_cons] at huniform ⊢
      obtain ⟨hl, hentry, hr⟩ := huniform
      exact ⟨hl, forall_mem_append.mpr ⟨hentry, forall_mem_singleton.mpr hkey.symm⟩, hr⟩
  · rw [hadd]
    constructor
    · intro e he found hfound
      rcases find_insert hfound with rfl | hold
      · exact hself _ hwrite e he (isAt_iff.mp (find?_some hfound))
      · exact hagrees e he found hold
    · intro entry' hentry' write' hwrite'
      rcases mem_insert.mp hentry' with rfl | hold
      · rw [mem_singleton.mp hwrite']
      · exact huniform entry' hold write' hwrite'

theorem addWrites_uniform
    (writes : List TargetedWrite) (hwrites : ∀ write ∈ writes, write.endpoint ∈ endpoints)
    (hagrees : Agrees endpoints batchMap) (huniform : batchMap.Uniform) :
    Uniform (writes.foldl (addWrite writeSizeBytes) batchMap) := by
  induction writes generalizing batchMap with
  | nil => exact huniform
  | cons write rest ih =>
    obtain ⟨hagrees', huniform'⟩ := addWrite_uniform writeSizeBytes hself
      (hwrites write mem_cons_self) hagrees huniform
    exact ih (fun w hw => hwrites w (mem_cons_of_mem write hw)) hagrees' huniform'

end

/-- Every batch was started by an item of the type, and is at least of its size. -/
def Origin (isIndexInsert : Bool) (type : BatchType) (batchMap : TargetedBatchMap) : Prop :=
  ∀ entry ∈ batchMap, ∃ item : BatchItem, item.opType = type ∧
    entry.batch.endpoint ∈ targeter.endpoints isIndexInsert item ∧
    getWriteSizeBytes item ≤ entry.sizeBytes

theorem addWrites_origin {targeter : NSTargeter} {isIndexInsert : Bool}
    (hwrites : ∀ write ∈ writes, write.endpoint ∈ targeter.endpoints isIndexInsert item)
    (horigin : Origin targeter isIndexInsert item.opType batchMap) :
    Origin targeter isIndexInsert item.opType
      (writes.foldl (addWrite (getWriteSizeBytes item)) batchMap) := by
  induction writes generalizing batchMap with
  | nil => exact horigin
  | cons write rest ih =>
    refine ih (fun w hw => hwrites w (mem_cons_of_mem write hw)) ?_
    rcases addWrite_cases (getWriteSizeBytes item) batchMap write with
      ⟨l, entry, r, rfl, -, -, hadd⟩ | ⟨-, hadd⟩
    · rw [hadd]
      rw [Origin, forall_mem_append, forall_mem_cons] at horigin ⊢
      obtain ⟨hl, ⟨item₀, htype, hmem, hsize⟩, hr⟩ := horigin
      exact ⟨hl, ⟨item₀, htype, hmem, hsize.trans (Nat.le_add_right _ _)⟩, hr⟩
    · rw [hadd]
      intro entry' hentry'
      rcases mem_insert.mp hentry' with rfl | hold
      · exact ⟨item, rfl, hwrites write mem_cons_self, le_refl _⟩
      · exact horigin entry' hold

theorem addWrites_keep_foreign (h : ¬batchMap.Uniform) :
    ¬Uniform (writes.foldl (addWrite writeSizeBytes) batchMap) := by
  induction writes generalizing batchMap with
  | nil => exact h
  | cons write rest ih =>
    refine ih fun huniform => h ?_
    rcases addWrite_cases writeSizeBytes batchMap write with
      ⟨l, entry, r, rfl, -, -, hadd⟩ | ⟨-, hadd⟩
    · rw [hadd] at huniform
      rw [Uniform, forall_mem_append, forall_mem_cons] at huniform ⊢
      obtain ⟨hl, hentry, hr⟩ := huniform
      exact ⟨hl, fun write' hwrite' => hentry write' (mem_append_left _ hwrite'), hr⟩
    · rw [hadd] at huniform
      exact fun entry hentry => huniform entry (mem_insert.mpr (.inr hentry))

/-- A write whose endpoint is hidden by another key ends up in a foreign batch. -/
theorem addWrites_not_uniform (heq : compareEndpoints e e' = 0) (writes : List TargetedWrite)
    (hmem : ∃ write ∈ writes, write.endpoint = e') (he : e ∈ batchMap.keys)
    (he' : e' ∉ batchMap.keys) : ¬Uniform (writes.foldl (addWrite writeSizeBytes) batchMap) := by
  induction writes generalizing batchMap with
  | nil =>
    obtain ⟨write, hwrite, -⟩ := hmem
    cases hwrite
  | cons write rest ih =>
    rw [foldl_cons]
    by_cases hwrite : write.endpoint = e'
    · apply addWrites_keep_foreign
      intro huniform
      rcases addWrite_cases writeSizeBytes batchMap write with
        ⟨l, entry, r, rfl, -, -, hadd⟩ | ⟨hnone, -⟩
      · rw [hadd] at huniform
        have hkey := huniform (BatchEntry.addWrite entry writeSizeBytes write) (by simp) write
          (mem_append_right _ (mem_singleton.mpr rfl))
        rw [hwrite] at hkey
        exact he' (mem_map.mpr ⟨entry, by simp, hkey.symm⟩)
      · obtain ⟨entry, hentry, rfl⟩ := mem_map.mp he
        exact hnone entry hentry (hwrite ▸ heq)
    · have hrest := ((exists_mem_cons_iff _ _ _).mp hmem).resolve_left hwrite
      rcases addWrite_cases writeSizeBytes batchMap write with
        ⟨l, entry, r, rfl, -, -, hadd⟩ | ⟨-, hadd⟩
      · have hkeys : keys (addWrite writeSizeBytes (l ++ entry :: r) write) =
            keys (l ++ entry :: r) := by
          rw [hadd]
          simp [keys, BatchEntry.addWrite]
        exact ih hrest (hkeys ▸ he) (hkeys ▸ he')
      · have hkeys : ∀ k, k ∈ keys (addWrite writeSizeBytes batchMap write) ↔
            k = write.endpoint ∨ k ∈ batchMap.keys := by
          intro k
          rw [hadd]
          simp only [keys, mem_map, mem_insert]
          grind
        refine ih hrest ((hkeys e).mpr (.inr he)) fun hk => ?_
        rcases (hkeys e').mp hk with hk | hk
        · exact hwrite hk.symm
        · exact he' hk

end TargetedBatchMap

section Targeting
variable {targeter : NSTargeter} {isIndexInsert : Bool} {request : BatchedCommandRequest}
  {writes : List TargetedWrite} {op op' : WriteOp} {item item' : BatchItem} (self : BatchWriteOp)
  {batchMap batchMap' : TargetedBatchMap}

theorem broadcastEndpoints_self (he : e ∈ broadcastEndpoints endpoints)
    (he' : e' ∈ broadcastEndpoints endpoints) (hname : e.shardName = e'.shardName) : e = e' := by
  unfold broadcastEndpoints at he he'
  split_ifs at he he' with hone
  · obtain ⟨e₀, rfl⟩ := length_eq_one_iff.mp hone
    rw [mem_singleton.mp he, mem_singleton.mp he']
  · obtain ⟨a, -, rfl⟩ := mem_map.mp he
    obtain ⟨b, -, rfl⟩ := mem_map.mp he'
    exact congrArg (fun name => (⟨name, .IGNORED⟩ : ShardEndpoint)) hname

theorem NSTargeter.endpoints_self (he : e ∈ targeter.endpoints isIndexInsert item)
    (he' : e' ∈ targeter.endpoints isIndexInsert item) (hname : e.shardName = e'.shardName) :
    e = e' := by
  unfold NSTargeter.endpoints at he he'
  split at he
  case h_1 endpoints htarget =>
    rw [htarget] at he'
    exact broadcastEndpoints_self he he' hname
  case h_2 => cases he

theorem NSTargeter.endpoints_cases {e : ShardEndpoint}
    (he : e ∈ targeter.endpoints isIndexInsert item) :
    targeter.endpoints isIndexInsert item = [e] ∨ e.shardVersion = .IGNORED := by
  unfold NSTargeter.endpoints at he ⊢
  split at he
  case h_1 endpoints htarget =>
    unfold broadcastEndpoints at he ⊢
    split_ifs at he ⊢ with hone
    · obtain ⟨e₀, rfl⟩ := length_eq_one_iff.mp hone
      exact .inl (congrArg (· :: []) (mem_singleton.mp he).symm)
    · obtain ⟨a, -, rfl⟩ := mem_map.mp he
      exact .inr rfl
  case h_2 => cases he

theorem NSTargeter.endpoints_indexInsert (hitem : item.opType = .insert)
    (hitem' : item'.opType = .insert) :
    targeter.endpoints true item = targeter.endpoints true item' := by
  cases item <;> cases hitem
  cases item' <;> cases hitem'
  rfl

theorem NSTargeter.Separated.eq (hT : targeter.Separated) (hitem : item.opType = request.batchType)
    (hitem' : item'.opType = request.batchType)
    (hfit : getWriteSizeBytes item + getWriteSizeBytes item' ≤ BSONObjMaxUserSize)
    (he : e ∈ targeter.endpoints request.isInsertIndexRequest item)
    (he' : e' ∈ targeter.endpoints request.isInsertIndexRequest item')
    (hcompare : compareEndpoints e e' = 0) : e = e' := by
  obtain ⟨hname, hminor, -⟩ := compareEndpoints_eq_zero_iff.mp hcompare
  cases hindex : request.isInsertIndexRequest with
  | true =>
    rw [hindex] at he he'
    have htype : request.batchType = .insert := by
      unfold BatchedCommandRequest.isInsertIndexRequest at hindex
      exact (of_decide_eq_true hindex).1
    rw [NSTargeter.endpoints_indexInsert (hitem'.trans htype) (hitem.trans htype)] at he'
    exact NSTargeter.endpoints_self he he' hname
  | false =>
    rw [hindex] at he he'
    exact eq_of_compareEndpoints hcompare
      (hT item item' (hitem.trans hitem'.symm) hfit e he e' he' hname hminor)

theorem targetWrites_ok (h : op.targetWrites targeter isIndexInsert = .ok (writes, op')) :
    writes.map TargetedWrite.endpoint = targeter.endpoints isIndexInsert op.item ∧
      op'.item = op.item := by
  unfold WriteOp.targetWrites at h
  unfold NSTargeter.endpoints
  cases htarget : targeter.targetItem isIndexInsert op.item with
  | error status =>
    rw [htarget] at h
    cases h
  | ok endpoints =>
    rw [htarget] at h
    obtain ⟨rfl, rfl⟩ := Prod.mk.inj (Except.ok.inj h)
    constructor
    · apply ext_getElem?
      intro i
      simp [Function.comp_def]
    · rfl

namespace TargetedBatchMap

/-- The batches under construction hold their own writes only. -/
structure Grouped (targeter : NSTargeter) (request : BatchedCommandRequest)
    (batchMap : TargetedBatchMap) : Prop where
  uniform : batchMap.Uniform
  origin : Origin targeter request.isInsertIndexRequest request.batchType batchMap

theorem Grouped.agrees {batchMap : TargetedBatchMap} (h : Grouped targeter request batchMap)
    (hT : targeter.Separated) (hitem : item.opType = request.batchType)
    (hwrites : writes.map TargetedWrite.endpoint =
      targeter.endpoints request.isInsertIndexRequest item)
    (hfits : wouldMakeBatchesTooBig writes (getWriteSizeBytes item) batchMap = false) :
    Agrees (targeter.endpoints request.isInsertIndexRequest item) batchMap := by
  intro e he entry hfind
  obtain ⟨write, hwrite, rfl⟩ := mem_map.mp (hwrites ▸ he)
  have hentry : entry ∈ batchMap := mem_of_find?_eq_some hfind
  obtain ⟨item₀, htype, hmem, hsize⟩ := h.origin entry hentry
  have hsmall := any_eq_false.mp hfits write hwrite
  simp only [hfind, decide_eq_true_eq, not_or, not_lt] at hsmall
  refine hT.eq htype hitem (by omega) hmem he ?_
  exact isAt_iff.mp (find?_some hfind)

end TargetedBatchMap

theorem BatchWriteOp.targetOp_grouped (hT : targeter.Separated) {recordTargetErrors : Bool}
    (hop : op.item.opType = self.clientRequest.batchType)
    (h : batchMap.Grouped targeter self.clientRequest)
    (hstep : self.targetOp targeter recordTargetErrors op batchMap = .next op' batchMap' ∨
      self.targetOp targeter recordTargetErrors op batchMap = .stop op' batchMap') :
    batchMap'.Grouped targeter self.clientRequest := by
  have hsame : batchMap' = batchMap ∨ ∃ writes op₁,
      op.targetWrites targeter self.clientRequest.isInsertIndexRequest = .ok (writes, op₁) ∧
      wouldMakeBatchesTooBig writes (getWriteSizeBytes op₁.item) batchMap = false ∧
      batchMap' = writes.foldl
        (TargetedBatchMap.addWrite (getWriteSizeBytes op₁.item)) batchMap := by
    unfold BatchWriteOp.targetOp recordTargetError addTargeted at hstep
    grind
  rcases hsame with rfl | ⟨writes, op₁, htarget, hfits, rfl⟩
  · exact h
  · obtain ⟨hwrites, hitem⟩ := targetWrites_ok htarget
    rw [hitem] at hfits ⊢
    have hmem : ∀ write ∈ writes, write.endpoint ∈
        targeter.endpoints self.clientRequest.isInsertIndexRequest op.item :=
      fun write hwrite => hwrites ▸ mem_map_of_mem hwrite
    constructor
    · refine TargetedBatchMap.addWrites_uniform _ (fun e he e' he' hcompare => ?_) writes hmem
        (h.agrees hT hop hwrites hfits) h.uniform
      exact NSTargeter.endpoints_self he he' (compareEndpoints_eq_zero_iff.mp hcompare).1
    · have horigin := h.origin
      rw [← hop] at horigin ⊢
      exact TargetedBatchMap.addWrites_origin writes hmem horigin

open BatchWriteOp

theorem BatchWriteOp.targetOps_uniform (hT : targeter.Separated)
    (recordTargetErrors : Bool) (before after : List WriteOp) (batchMap : TargetedBatchMap)
    (hafter : ∀ op ∈ after, op.item.opType = self.clientRequest.batchType)
    (h : batchMap.Grouped targeter self.clientRequest) :
    ∀ batch ∈ (self.targetOps targeter recordTargetErrors before after batchMap).batches,
      ∀ write ∈ batch.writes, write.endpoint = batch.endpoint := by
  induction after generalizing before batchMap with
  | nil =>
    exact forall_mem_map.mpr h.uniform
  | cons op after ih =>
    have hop := hafter op mem_cons_self
    unfold targetOps
    split
    case h_1 => simp
    case h_2 op' batchMap' hstep =>
      exact forall_mem_map.mpr (self.targetOp_grouped hT hop h (.inr hstep)).uniform
    case h_3 op' batchMap' hstep =>
      exact ih _ _ (fun op₀ hop₀ => hafter op₀ (mem_cons_of_mem op hop₀))
        (self.targetOp_grouped hT hop h (.inl hstep))

theorem targetOp_unordered (recordTargetErrors : Bool) (batchMap : TargetedBatchMap)
    (hordered : self.clientRequest.ordered = false) (hready : op.state = .ready)
    (htarget : op.targetWrites targeter self.clientRequest.isInsertIndexRequest = .ok (writes, op'))
    (hfits : wouldMakeBatchesTooBig writes (getWriteSizeBytes op'.item) batchMap = false) :
    self.targetOp targeter recordTargetErrors op batchMap = .next op'
      (writes.foldl (TargetedBatchMap.addWrite (getWriteSizeBytes op'.item)) batchMap) := by
  unfold targetOp addTargeted
  simp [hready, htarget, hordered, hfits]

theorem targetOps_next {self : BatchWriteOp} {recordTargetErrors : Bool}
    (before after : List WriteOp)
    (hstep : self.targetOp targeter recordTargetErrors op batchMap = .next op' batchMap') :
    self.targetOps targeter recordTargetErrors before (op :: after) batchMap =
      self.targetOps targeter recordTargetErrors (before ++ [op']) after batchMap' := by
  rw [targetOps, hstep]

theorem targetWrites_of_mem {op : WriteOp} {e : ShardEndpoint}
    (he : e ∈ targeter.endpoints isIndexInsert op.item) :
    ∃ writes op', op.targetWrites targeter isIndexInsert = .ok (writes, op') := by
  unfold NSTargeter.endpoints at he
  unfold WriteOp.targetWrites
  cases htarget : targeter.targetItem isIndexInsert op.item with
  | error status =>
    rw [htarget] at he
    cases he
  | ok endpoints => exact ⟨_, _, rfl⟩

theorem fits_after_one (write : TargetedWrite) {size size' : ℕ} (writes : List TargetedWrite)
    (hfit : size + size' ≤ BSONObjMaxUserSize) :
    wouldMakeBatchesTooBig writes size' [⟨⟨write.endpoint, [write]⟩, 1, size⟩] = false := by
  unfold wouldMakeBatchesTooBig
  rw [any_eq_false]
  intro write' hwrite'
  split
  · simp
  · rename_i entry hfind
    obtain rfl := mem_singleton.mp (mem_of_find?_eq_some hfind)
    simp only [decide_eq_true_eq, not_or, not_le, not_lt]
    exact ⟨by decide, hfit⟩

/-- An unordered batch of two items that hide one another has a foreign write. -/
theorem exists_foreign_write
    (hfit : getWriteSizeBytes item + getWriteSizeBytes item' ≤ BSONObjMaxUserSize)
    (he : targeter.endpoints false item = [e]) (he' : e' ∈ targeter.endpoints false item')
    (hcompare : compareEndpoints e e' = 0) (hne : e ≠ e') (hitems : request.items = [item, item'])
    (hordered : request.ordered = false) (hindex : request.nss.isSystemDotIndexes = false) :
    ∃ batch ∈ ((initClientRequest request).targetBatch targeter false).batches,
      ∃ write ∈ batch.writes, write.endpoint ≠ batch.endpoint := by
  have hflag : request.isInsertIndexRequest = false := by
    simp [BatchedCommandRequest.isInsertIndexRequest, hindex]
  have hops : (initClientRequest request).writeOps = [.new 0 item, .new 1 item'] := by
    simp [initClientRequest, hitems]
  have hfirst : e ∈ targeter.endpoints request.isInsertIndexRequest (WriteOp.new 0 item).item := by
    rw [hflag]
    exact he ▸ mem_singleton_self e
  have hsecond : e' ∈ targeter.endpoints request.isInsertIndexRequest
      (WriteOp.new 1 item').item := by
    rw [hflag]
    exact he'
  obtain ⟨writes, op, htarget⟩ := targetWrites_of_mem hfirst
  obtain ⟨writes', op', htarget'⟩ := targetWrites_of_mem hsecond
  obtain ⟨hwrites, hitem⟩ := targetWrites_ok htarget
  obtain ⟨hwrites', hitem'⟩ := targetWrites_ok htarget'
  rw [hflag] at hwrites hwrites'
  obtain ⟨write, rfl⟩ : ∃ write, writes = [write] := by
    have hlength := congrArg length (hwrites.trans he)
    rw [length_map] at hlength
    exact length_eq_one_iff.mp hlength
  have hkey : write.endpoint = e := head_eq_of_cons_eq (hwrites.trans he)
  have hsize : getWriteSizeBytes op.item = getWriteSizeBytes item := congrArg _ hitem
  have hsize' : getWriteSizeBytes op'.item = getWriteSizeBytes item' := congrArg _ hitem'
  have hstep := targetOp_unordered (.initClientRequest request) false [] hordered rfl htarget rfl
  rw [hsize] at hstep
  have hfits := fits_after_one write writes' hfit
  rw [← hsize'] at hfits
  have hstep' := targetOp_unordered (.initClientRequest request) false _ hordered rfl htarget' hfits
  have hbad : ¬TargetedBatchMap.Uniform
      (writes'.foldl (TargetedBatchMap.addWrite (getWriteSizeBytes op'.item))
        [⟨⟨write.endpoint, [write]⟩, 1, getWriteSizeBytes item⟩]) :=
    TargetedBatchMap.addWrites_not_uniform _ hcompare writes' (mem_map.mp (hwrites' ▸ he'))
      (by simp [TargetedBatchMap.keys, hkey]) (by simp [TargetedBatchMap.keys, hkey, hne.symm])
  have hbatches : ((initClientRequest request).targetBatch targeter false).batches =
      (writes'.foldl (TargetedBatchMap.addWrite (getWriteSizeBytes op'.item))
        [⟨⟨write.endpoint, [write]⟩, 1, getWriteSizeBytes item⟩]).map BatchEntry.batch := by
    unfold targetBatch
    rw [hops, targetOps_next _ _ hstep]
    exact congrArg TargetResult.batches (targetOps_next _ _ hstep')
  unfold TargetedBatchMap.Uniform at hbad
  push Not at hbad
  obtain ⟨entry, hentry, write', hwrite', hforeign⟩ := hbad
  exact ⟨entry.batch, hbatches ▸ mem_map_of_mem hentry, write', hwrite', hforeign⟩

theorem initClientRequest_items (request : BatchedCommandRequest) :
    (initClientRequest request).writeOps.map WriteOp.item = request.items := by
  apply ext_getElem?
  intro i
  simp [initClientRequest, WriteOp.new, Function.comp_def]

/-- In every batch that targeting produces the writes have the shard and the version of the
request built for it, exactly when the targeter's versions are separated. -/
theorem batches_uniform_iff :
    (∀ self : BatchWriteOp, self.writeOps.map WriteOp.item = self.clientRequest.items →
      ∀ recordTargetErrors, ∀ batch ∈ (self.targetBatch targeter recordTargetErrors).batches,
        ∀ write ∈ batch.writes, write.endpoint.shardName = batch.endpoint.shardName ∧
          write.endpoint.shardVersion = (self.buildBatchRequest batch).shardVersion) ↔
      targeter.Separated := by
  constructor
  · intro h item item' htype hfit e he e' he' hname hminor
    by_contra hmajor
    have hne : e ≠ e' := fun heq => hmajor (heq ▸ rfl)
    have hcompare : compareEndpoints e e' = 0 :=
      compareEndpoints_eq_zero_iff.mpr ⟨hname, hminor, fun heq => absurd heq hmajor⟩
    have hforeign : ∀ request : BatchedCommandRequest,
        ¬∃ batch ∈ ((initClientRequest request).targetBatch targeter false).batches,
          ∃ write ∈ batch.writes, write.endpoint ≠ batch.endpoint := by
      rintro request ⟨batch, hbatch, write, hwrite, hne⟩
      obtain ⟨hshard, hversion⟩ := h (.initClientRequest request)
        (initClientRequest_items request) false batch hbatch write hwrite
      exact hne (ShardEndpoint.ext hshard hversion)
    -- broadcast writes for one shard have the same version, so one of the two is the only one
    rcases NSTargeter.endpoints_cases he with hsingle | hignored
    · exact hforeign ⟨⟨"db", "coll"⟩, item.opType, [item, item'], by simp [htype], false⟩
        (exists_foreign_write hfit hsingle he' hcompare hne rfl rfl rfl)
    · rcases NSTargeter.endpoints_cases he' with hsingle' | hignored'
      · exact hforeign ⟨⟨"db", "coll"⟩, item.opType, [item', item], by simp [htype], false⟩
          (exists_foreign_write (by omega) hsingle' he (compareEndpoints_symm hcompare)
            (Ne.symm hne) rfl rfl rfl)
      · exact hmajor (by rw [hignored, hignored'])
  · intro hT self hitems recordTargetErrors batch hbatch write hwrite
    have hafter : ∀ op ∈ self.writeOps, op.item.opType = self.clientRequest.batchType := by
      intro op hop
      exact self.clientRequest.items_opType _ (hitems ▸ mem_map_of_mem hop)
    have hempty : TargetedBatchMap.Grouped targeter self.clientRequest [] :=
      ⟨by simp [TargetedBatchMap.Uniform], by simp [TargetedBatchMap.Origin]⟩
    have heq := self.targetOps_uniform hT recordTargetErrors [] self.writeOps [] hafter hempty
      batch hbatch write hwrite
    rw [heq]
    exact ⟨rfl, rfl⟩

def shardA : ShardEndpoint := ⟨"A", .ofParts 5 0 ⟨replicate 12 7, rfl⟩⟩

def shardB : ShardEndpoint := ⟨"B", .ofParts 4 1 ⟨replicate 12 7, rfl⟩⟩

/-- Updates with an empty query go everywhere, the others to `A`. -/
def twoShards : NSTargeter where
  targetInsert _ := .ok shardA
  targetUpdate document := .ok (if document.query.isEmpty then [shardA, shardB] else [shardA])
  targetDelete _ := .ok [shardA]
  targetCollection := .ok [shardA, shardB]
  targetAllShards := .ok [shardA, shardB]

/-- An update of everything, then one of documents of shard `A`. -/
def mixedUpdates : BatchedCommandRequest where
  nss := ⟨"db", "coll"⟩
  batchType := .update
  items := [.update ⟨[], [], none⟩, .update ⟨[(.empty, .jstNULL)], [], none⟩]
  items_opType := by simp [BatchItem.opType]
  ordered := false

/-- The write that was targeted with version 5|0 is sent in a batch whose version is ignored. -/
theorem mixedUpdates_foreign :
    ∃ batch ∈ ((initClientRequest mixedUpdates).targetBatch twoShards false).batches,
      ((initClientRequest mixedUpdates).buildBatchRequest batch).shardVersion = .IGNORED ∧
      ∃ write ∈ batch.writes, write.endpoint.shardVersion = shardA.shardVersion ∧
        shardA.shardVersion ≠ .IGNORED := by
  refine ⟨⟨⟨"A", .IGNORED⟩, [⟨⟨"A", .IGNORED⟩, (0, 0)⟩, ⟨shardA, (1, 0)⟩]⟩, ?_, rfl,
    ⟨shardA, (1, 0)⟩, by simp, rfl, by decide⟩
  decide

end Targeting

end MongoServer
