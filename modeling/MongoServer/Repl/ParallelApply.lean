import MongoServer.Repl.SyncTail

/-!
A secondary applies the oplog in batches that are consecutive pieces of the queue, and within a
batch by several threads at once. Operations that depend on each other go to the same writer, and
the writer keeps their order.
-/
namespace MongoServer
open Transition List
open OplogEntry (new)

section Batches

namespace OplogEntry

/-- A command, or an index build. -/
def IsSolitary (entry : OplogEntry) : Prop :=
  entry.isCommand = true ∨ entry.isIndexBuild = .ok true

theorem mustBeAlone_of_isSolitary {entry : OplogEntry} (h : entry.IsSolitary) :
    entry.mustBeAlone = .ok true := by
  unfold mustBeAlone
  split_ifs with hempty
  · rfl
  · rcases h with hcommand | hbuild
    · simp [hcommand] at hempty
    · exact hbuild

end OplogEntry

namespace OpQueueBatcher

/-- Nothing that arrived is lost or applied twice, and nothing that must be alone is in a batch
with others. -/
structure InOrder (batcher : OpQueueBatcher) : Prop where
  whole : batcher.batches.flatten ++ batcher.ops.batch ++ batcher.networkQueue.map new =
    batcher.arrived.map new
  alone : ∀ b ∈ batcher.batches, ∀ e ∈ b, e.mustBeAlone = .ok true → b = [e]
  together : ∀ e ∈ batcher.ops.batch, e.mustBeAlone = .ok false

/-- One call leaves everything as it is, or moves the first operation of the queue to the end of
the batch. An operation that must be alone makes up a batch. -/
theorem tryPopAndWaitForMore_cases {limits : BatchLimits} {rsSyncApplyStop inShutdown ended : Bool}
    {queue queue' : List BSONObj} {ops ops' : OpQueue}
    (h : tryPopAndWaitForMore limits rsSyncApplyStop inShutdown queue ops =
      .ok (ended, queue', ops')) :
    (ended = true ∧ queue' = queue ∧ ops'.batch = ops.batch) ∨
    ∃ op, queue = op :: queue' ∧ ops'.batch = ops.batch ++ [new op] ∧
      ((new op).mustBeAlone = .ok false ∨
        (new op).mustBeAlone = .ok true ∧ ops.batch = [] ∧ ended = true) := by
  cases queue with
  | nil =>
    rw [tryPopAndWaitForMore] at h
    split_ifs at h
    all_goals
      obtain ⟨rfl, rfl, rfl⟩ := by simpa using h
      exact .inl ⟨rfl, rfl, rfl⟩
  | cons op rest =>
    have hsame : (Except.ok (true, op :: rest, ops) : Except SyncTailError _) =
        .ok (ended, queue', ops') → ended = true ∧ queue' = op :: rest ∧ ops'.batch = ops.batch := by
      intro heq
      obtain ⟨rfl, rfl, rfl⟩ := by simpa using heq
      exact ⟨rfl, rfl, rfl⟩
    cases hversion : (new op).getVersion with
    | error e =>
      simp only [tryPopAndWaitForMore, hversion] at h
      split_ifs at h <;> exact .inl (hsame h)
    | ok curVersion =>
      cases halone : (new op).mustBeAlone with
      | error e =>
        simp only [tryPopAndWaitForMore, hversion, halone] at h
        split_ifs at h <;> exact .inl (hsame h)
      | ok alone =>
        cases alone with
        | true =>
          simp only [tryPopAndWaitForMore, hversion, halone] at h
          split_ifs at h with _ _ _ _ hempty
          · exact .inl (hsame h)
          · exact .inl (hsame h)
          · exact .inl (hsame h)
          · obtain ⟨rfl, rfl, rfl⟩ := by simpa using h
            exact .inr ⟨op, rfl, rfl, .inr ⟨halone, isEmpty_iff.mp hempty, rfl⟩⟩
          · exact .inl (hsame h)
        | false =>
          simp only [tryPopAndWaitForMore, hversion, halone] at h
          split_ifs at h
          · exact .inl (hsame h)
          · exact .inl (hsame h)
          · exact .inl (hsame h)
          · obtain ⟨-, rfl, rfl⟩ := by simpa using h
            exact .inr ⟨op, rfl, rfl, .inl halone⟩

theorem finishBatch_cases (batcher : OpQueueBatcher) : batcher.finishBatch.ops.batch = [] ∧
    batcher.finishBatch.networkQueue = batcher.networkQueue ∧
    batcher.finishBatch.arrived = batcher.arrived ∧
    (batcher.finishBatch.batches = batcher.batches ++ [batcher.ops.batch] ∨
      batcher.ops.batch = [] ∧ batcher.finishBatch.batches = batcher.batches) := by
  unfold finishBatch
  split_ifs with hempty
  · simp only [Bool.and_eq_true, List.isEmpty_iff] at hempty
    exact ⟨rfl, rfl, rfl, .inr ⟨hempty.1, rfl⟩⟩
  · exact ⟨rfl, rfl, rfl, .inl rfl⟩

theorem InOrder.finishBatch {batcher : OpQueueBatcher}
    (hwhole : batcher.batches.flatten ++ batcher.ops.batch ++
      batcher.networkQueue.map new = batcher.arrived.map new)
    (halone : ∀ b ∈ batcher.batches, ∀ e ∈ b, e.mustBeAlone = .ok true → b = [e])
    (hlast : ∀ e ∈ batcher.ops.batch, e.mustBeAlone = .ok true → batcher.ops.batch = [e]) :
    batcher.finishBatch.InOrder := by
  obtain ⟨hbatch, hqueue, harrived, hbatches⟩ := finishBatch_cases batcher
  constructor
  · rw [hbatch, hqueue, harrived, ← hwhole]
    rcases hbatches with heq | ⟨hnil, heq⟩
    · simp [heq]
    · simp [heq, hnil]
  · rcases hbatches with heq | ⟨-, heq⟩
    · rw [heq]
      exact forall_mem_append.mpr ⟨halone, forall_mem_singleton.mpr hlast⟩
    · rwa [heq]
  · rw [hbatch]
    simp

theorem InOrder.step {batcher batcher' : OpQueueBatcher} {event : Event} (h : batcher.InOrder)
    (hstep : batcher.step event = some batcher') : batcher'.InOrder := by
  cases event with
  | arrive op =>
    cases hstep
    refine ⟨?_, h.alone, h.together⟩
    simp [← h.whole]
  | pop limits rsSyncApplyStop inShutdown =>
    rw [OpQueueBatcher.step] at hstep
    split_ifs at hstep with hdead
    split at hstep
    · cases hstep
    · rename_i ended queue' ops' hpop
      cases hstep
      rcases tryPopAndWaitForMore_cases hpop with
        ⟨rfl, rfl, hbatch⟩ | ⟨op, hqueue, hbatch, halone | ⟨halone, hnil, rfl⟩⟩
      · refine InOrder.finishBatch ?_ h.alone fun e he hsolo => ?_
        · simpa only [hbatch] using h.whole
        · simp only [hbatch] at he
          simp [h.together e he] at hsolo
      · -- the operation joins the batch
        have hwhole : batcher.batches.flatten ++ ops'.batch ++ queue'.map new =
            batcher.arrived.map new := by
          rw [← h.whole, hqueue, hbatch]
          simp
        have htogether : ∀ e ∈ ops'.batch, e.mustBeAlone = .ok false := by
          rw [hbatch]
          exact forall_mem_append.mpr ⟨h.together, forall_mem_singleton.mpr halone⟩
        split_ifs
        · refine InOrder.finishBatch hwhole h.alone fun e he hsolo => ?_
          simp [htogether e he] at hsolo
        · exact ⟨hwhole, h.alone, htogether⟩
      · refine InOrder.finishBatch ?_ h.alone fun e he _ => ?_
        · simp [← h.whole, hqueue, hbatch]
        · simp only [hbatch, hnil, nil_append, mem_singleton] at he ⊢
          rw [he]

/-- Whatever arrives, and with whatever limits the thread is called. -/
theorem inOrder_of_steps {batcher : OpQueueBatcher}
    (h : Steps OpQueueBatcher.step (fun _ _ => True) init batcher) : batcher.InOrder :=
  h.invariant ⟨rfl, by simp [init], by simp [init, OpQueue.empty]⟩
    fun _ _ _ hin _ hstep => hin.step hstep

end OpQueueBatcher
end Batches

section Order
variable {Collator : Type*} (env : ApplyEnvironment Collator)

/-- The document is there, and so is what the `_id` is looked up in. -/
def OplogEntry.WellFormed (entry : OplogEntry) : Prop :=
  (∃ size, entry.documentSize = .ok size) ∧ ∃ id, entry.getIdElement = .ok id

variable (sameId : Option Collator → Option BSONValue → Option BSONValue → Prop)

/-- Operations whose order matters: on one collection, and on one document, unless the collection is
capped or the storage engine does not lock documents. -/
def Dependent (p q : OplogEntry) : Prop :=
  p.isCrudOpType = true ∧ q.isCrudOpType = true ∧ p.ns = q.ns ∧
    (env.supportsDocLocking = false ∨ env.isCapped p.ns = true ∨
      ∃ x y, p.getIdElement = .ok x ∧ q.getIdElement = .ok y ∧ sameId (env.collator p.ns) x y)

namespace ApplyEnvironment

def writerOf (numWriters : ℕ) (p : OperationPtr) : ℕ :=
  match env.writerHash p.1 with
  | .ok hash => hash.toNat % numWriters
  | .error _ => 0

theorem writerHash_markCapped (op : OplogEntry) :
    env.writerHash (env.markCapped op) = env.writerHash op := by
  unfold markCapped
  split_ifs <;> rfl

theorem documentSize_markCapped (op : OplogEntry) :
    (env.markCapped op).documentSize = op.documentSize := by
  unfold markCapped
  split_ifs <;> rfl

theorem exists_writerHash {op : OplogEntry} (h : op.WellFormed) :
    ∃ hash, env.writerHash op = .ok hash := by
  obtain ⟨id, hid⟩ := h.2
  unfold writerHash
  split_ifs
  · exact ⟨_, by rw [hid]; rfl⟩
  · exact ⟨_, rfl⟩

theorem writerOf_eq_of_dependent
    {sameId : Option Collator → Option BSONValue → Option BSONValue → Prop}
    (hhash : ∀ collator x y, sameId collator x y → env.hashId collator x = env.hashId collator y)
    {numWriters : ℕ} {p q : OperationPtr} (h : Dependent env sameId p.1 q.1) :
    env.writerOf numWriters p = env.writerOf numWriters q := by
  obtain ⟨hp, hq, hns, hcase⟩ := h
  have hequal : env.writerHash p.1 = env.writerHash q.1 := by
    rcases hcase with hlock | hcapped | ⟨x, y, hx, hy, hxy⟩
    · simp [writerHash, hlock, hns]
    · simp [writerHash, hns, hns ▸ hcapped]
    · simp only [writerHash, hp, hq, hns, hx, hy, Except.map]
      rw [hns] at hxy
      rw [hhash _ _ _ hxy]
  unfold writerOf
  rw [hequal]

theorem fillFrom_spec {ops : List OplogEntry} (i : ℕ) (vectors : List (List OperationPtr))
    (hpos : 0 < vectors.length) (hops : ∀ op ∈ ops, op.WellFormed) :
    ∃ filled, env.fillFrom i ops vectors = .ok filled ∧ filled.length = vectors.length ∧
      ∀ k, filled.getD k [] = vectors.getD k [] ++
        ((ops.map env.markCapped).zipIdx i).filter fun p => env.writerOf vectors.length p = k := by
  induction ops generalizing i vectors with
  | nil => exact ⟨vectors, rfl, rfl, by simp⟩
  | cons op rest ih =>
    obtain ⟨hop, hrest⟩ := forall_mem_cons.mp hops
    obtain ⟨hash, hhash⟩ := env.exists_writerHash hop
    have howner : env.writerOf vectors.length (env.markCapped op, i) =
        hash.toNat % vectors.length := by
      simp [writerOf, env.writerHash_markCapped, hhash]
    have hlt : hash.toNat % vectors.length < vectors.length := Nat.mod_lt _ hpos
    obtain ⟨filled, hfill, hlength, hvectors⟩ := ih (i + 1)
      (vectors.modify (hash.toNat % vectors.length) (· ++ [(env.markCapped op, i)]))
      (by simpa using hpos) hrest
    refine ⟨filled, ?_, by simpa using hlength, fun k => ?_⟩
    · rw [fillFrom, hhash]
      exact hfill
    · rw [hvectors k, length_modify, map_cons, zipIdx_cons]
      by_cases hk : hash.toNat % vectors.length = k
      · subst hk
        rw [filter_cons_of_pos (by simp [howner]), getD_eq_getElem?_getD,
          getElem?_modify_eq, getD_eq_getElem?_getD, getElem?_eq_getElem hlt]
        simp
      · rw [filter_cons_of_neg (by simp [howner, hk])]
        simp [hk]

end ApplyEnvironment

namespace Writer

theorem start_pairwise {v : List OperationPtr} (h : v.Pairwise fun p q => p.2 < q.2) :
    (start v).ops.Pairwise fun p q => p.1.ns = q.1.ns → p.2 < q.2 := by
  unfold start
  split_ifs
  · have htrans : ∀ a b c : OperationPtr, decide (¬b.1.ns < a.1.ns) = true →
        decide (¬c.1.ns < b.1.ns) = true → decide (¬c.1.ns < a.1.ns) = true := by
      intro a b c hab hbc
      have hab : a.1.ns ≤ b.1.ns := of_decide_eq_true hab
      have hbc : b.1.ns ≤ c.1.ns := of_decide_eq_true hbc
      exact decide_eq_true (List.le_trans hab hbc)
    have htotal : ∀ a b : OperationPtr,
        (decide (¬b.1.ns < a.1.ns) || decide (¬a.1.ns < b.1.ns)) = true := by
      intro a b
      rw [Bool.or_eq_true, decide_eq_true_iff, decide_eq_true_iff]
      exact List.le_total a.1.ns b.1.ns
    apply pairwise_of_filter fun p : OperationPtr => p.1.ns
    intro ns
    -- what is on one namespace comes out as it went in
    have hsame : (v.filter fun p => p.1.ns = ns).Sublist
        ((v.mergeSort fun l r => ¬r.1.ns < l.1.ns).filter fun p => p.1.ns = ns) := by
      have hpairwise : (v.filter fun p => p.1.ns = ns).Pairwise
          fun l r => decide (¬r.1.ns < l.1.ns) = true := by
        refine pairwise_of_forall_mem_list fun p hp q hq => ?_
        have hpns : p.1.ns = ns := of_decide_eq_true (mem_filter.mp hp).2
        have hqns : q.1.ns = ns := of_decide_eq_true (mem_filter.mp hq).2
        rw [hpns, hqns]
        exact decide_eq_true (List.lt_irrefl ns)
      have hsub := sublist_mergeSort htrans htotal hpairwise filter_sublist
      have hfilter := hsub.filter fun p => p.1.ns = ns
      simpa only [filter_filter, Bool.and_self] using hfilter
    have hperm : ((v.mergeSort fun l r => ¬r.1.ns < l.1.ns).filter fun p => p.1.ns = ns).length =
        (v.filter fun p => p.1.ns = ns).length :=
      ((mergeSort_perm v _).filter _).length_eq
    rw [← hsame.eq_of_length hperm.symm]
    exact h.filter _
  · apply h.imp
    intro p q hlt _
    exact hlt

theorem start_perm (v : List OperationPtr) : (start v).ops.Perm v := by
  unfold start
  split_ifs
  · exact mergeSort_perm v _
  · exact List.Perm.refl v

theorem groupLength_le {ns : List UInt8} {size count n : ℕ} {rest : List OperationPtr}
    (h : groupLength ns size count rest = .ok n) : n ≤ rest.length := by
  induction rest generalizing size count n with
  | nil =>
    cases h
    exact le_refl _
  | cons next rest ih =>
    rw [groupLength] at h
    cases hsize : next.1.documentSize with
    | error e => simp [hsize] at h
    | ok s =>
      simp only [hsize] at h
      split_ifs at h
      · cases h
        exact Nat.zero_le _
      · obtain ⟨m, hm, rfl⟩ := map_eq_ok.mp h
        exact Nat.succ_le_succ (ih hm)

theorem exists_groupLength (ns : List UInt8) (size count : ℕ) {rest : List OperationPtr}
    (h : ∀ p ∈ rest, ∃ size, p.1.documentSize = .ok size) :
    ∃ n, groupLength ns size count rest = .ok n := by
  induction rest generalizing size count with
  | nil => exact ⟨0, rfl⟩
  | cons next rest ih =>
    obtain ⟨⟨s, hs⟩, hrest⟩ := forall_mem_cons.mp h
    obtain ⟨n, hn⟩ := ih (size + s) (count + 1) hrest
    rw [groupLength]
    simp only [hs, hn, Except.map]
    split_ifs
    · exact ⟨0, rfl⟩
    · exact ⟨n + 1, rfl⟩

theorem applyNext_spec {w w' : Writer} {b : Bool} {out : List OperationPtr}
    (h : w.applyNext b = some (out, w')) :
    w'.ops = w.ops ∧ w.it < w'.it ∧ w'.it ≤ w.ops.length ∧
      w'.ops.take w'.it = w.ops.take w.it ++ out := by
  unfold applyNext at h
  cases hop : w.ops[w.it]? with
  | none => simp [hop] at h
  | some op =>
    obtain ⟨hlt, hget⟩ := List.getElem?_eq_some_iff.mp hop
    have hnext : w.ops.take (w.it + 1) = w.ops.take w.it ++ [op] := by
      rw [take_succ_eq_append_getElem hlt, hget]
    have halone : ∀ point, some ([op], (⟨w.ops, w.it + 1, point⟩ : Writer)) = some (out, w') →
        w'.ops = w.ops ∧ w.it < w'.it ∧ w'.it ≤ w.ops.length ∧
          w'.ops.take w'.it = w.ops.take w.it ++ out := by
      intro point heq
      obtain ⟨rfl, rfl⟩ := by simpa using heq
      exact ⟨rfl, Nat.lt_succ_self _, hlt, hnext⟩
    cases hlast : w.endOfGroupableOps op.1 with
    | error e =>
      simp only [hop, hlast] at h
      split_ifs at h
      exact halone _ h
    | ok last =>
      simp only [hop, hlast] at h
      split_ifs at h with _ hlong
      · obtain ⟨rfl, rfl⟩ := by simpa using h
        have hle : last ≤ w.ops.length := by
          unfold endOfGroupableOps at hlast
          cases hsize : op.1.documentSize with
          | error e => simp [hsize] at hlast
          | ok size =>
            rw [hsize] at hlast
            obtain ⟨n, hn, rfl⟩ := map_eq_ok.mp hlast
            have hn := groupLength_le hn
            rw [length_drop] at hn
            omega
        have hsum : last = w.it + (last - w.it) := by omega
        refine ⟨rfl, by dsimp only; omega, hle, ?_⟩
        dsimp only
        rw [← take_add, ← hsum]
      · exact halone _ h
      · exact halone _ h
      · exact halone _ h

theorem exists_applyNext {w : Writer} (b : Bool) (hit : w.it < w.ops.length)
    (hops : ∀ p ∈ w.ops, ∃ size, p.1.documentSize = .ok size) : ∃ r, w.applyNext b = some r := by
  have hop : w.ops[w.it]? = some w.ops[w.it] := getElem?_eq_getElem hit
  obtain ⟨size, hsize⟩ := hops _ (getElem_mem hit)
  obtain ⟨n, hn⟩ := exists_groupLength w.ops[w.it].1.ns size 1
    fun p hp => hops p (mem_of_mem_drop hp)
  have hlast : w.endOfGroupableOps w.ops[w.it].1 = .ok (w.it + 1 + n) := by
    unfold endOfGroupableOps
    rw [hsize]
    dsimp only
    rw [hn]
    rfl
  unfold applyNext
  simp only [hop, hlast]
  split_ifs
  all_goals exact ⟨_, rfl⟩

end Writer
def Unfinished (t : Threads ℕ Writer OperationPtr) : Prop :=
  ∃ k, (t.state k).it < (t.state k).ops.length

section Interleavings
variable {env} {batch : List OplogEntry} {vectors : List (List OperationPtr)} {numWriters : ℕ}
  {t : Threads ℕ Writer OperationPtr}

/-- In every interleaving the log holds, of each writer, what this writer has gone through. -/
theorem log_of_writer (hvectors : ∀ k, vectors.getD k [] =
      (batch.map env.markCapped).zipIdx.filter fun p => env.writerOf numWriters p = k)
    (h : Interleaved Writer.applyNext (SyncTail.applyOps vectors) t) (k : ℕ) :
    ((t.state k).ops = (Writer.start (vectors.getD k [])).ops ∧
      (t.state k).it ≤ (t.state k).ops.length) ∧
    t.log.filter (fun p => env.writerOf numWriters p = k) =
      (t.state k).ops.take (t.state k).it := by
  refine h.filter_log (env.writerOf numWriters) (fun w => w.ops.take w.it)
    (fun k w => w.ops = (Writer.start (vectors.getD k [])).ops ∧ w.it ≤ w.ops.length) ?_ ?_ k
  · rintro k w b out w' ⟨hops, -⟩ hnext
    obtain ⟨hsame, -, hle, hout⟩ := Writer.applyNext_spec hnext
    refine ⟨⟨hsame.trans hops, hsame ▸ hle⟩, hout, fun p hp => ?_⟩
    have hmem : p ∈ w'.ops := mem_of_mem_take (hout ▸ mem_append_right _ hp)
    rw [hsame, hops] at hmem
    have hmem := (Writer.start_perm _).mem_iff.mp hmem
    rw [hvectors] at hmem
    exact of_decide_eq_true (mem_filter.mp hmem).2
  · intro k
    exact ⟨⟨rfl, Nat.zero_le _⟩, rfl⟩

theorem zipIdx_pairwise (ops : List OplogEntry) : ops.zipIdx.Pairwise fun p q => p.2 < q.2 := by
  have hsorted : (ops.zipIdx.map Prod.snd).Pairwise (· < ·) := by
    rw [zipIdx_map_snd]
    exact pairwise_lt_range'
  exact pairwise_map.mp hsorted

end Interleavings

/-- The batches are consecutive pieces of what arrives, and commands and index builds are alone in
theirs. Within a batch, however the writers interleave and whichever groups of inserts fail, every
operation is applied at most once, and once when all writers have finished, which they can; and
operations that depend on each other are applied in the order of the batch. -/
theorem oplogApplication_keeps_order
    (hhash : ∀ collator x y, sameId collator x y → env.hashId collator x = env.hashId collator y) :
    (∀ batcher, Steps OpQueueBatcher.step (fun _ _ => True) OpQueueBatcher.init batcher →
      batcher.batches.flatten ++ batcher.ops.batch ++ batcher.networkQueue.map new =
        batcher.arrived.map new ∧
      ∀ b ∈ batcher.batches, ∀ e ∈ b, e.IsSolitary → b = [e]) ∧
    ∀ (batch : List OplogEntry) (numWriters : ℕ), 0 < numWriters → (∀ op ∈ batch, op.WellFormed) →
      ∃ vectors, env.fillWriterVectors numWriters batch = .ok vectors ∧
        ∀ t, Interleaved Writer.applyNext (SyncTail.applyOps vectors) t →
          t.log.Subperm (batch.map env.markCapped).zipIdx ∧
          t.log.Pairwise (fun p q => Dependent env sameId p.1 q.1 → p.2 < q.2) ∧
          (¬Unfinished t → t.log.Perm (batch.map env.markCapped).zipIdx) ∧
          (Unfinished t → ∀ groupSucceeds, ∃ k t', t.step Writer.applyNext (k, groupSucceeds) =
            some t' ∧ t.log.length < t'.log.length) := by
  constructor
  · intro batcher hsteps
    have hin := OpQueueBatcher.inOrder_of_steps hsteps
    exact ⟨hin.whole, fun b hb e he hsolo =>
      hin.alone b hb e he (OplogEntry.mustBeAlone_of_isSolitary hsolo)⟩
  · intro batch numWriters hpos hops
    obtain ⟨vectors, hfill, -, hvectors⟩ := env.fillFrom_spec 0
      (replicate numWriters []) (by simpa using hpos) hops
    have hvectors : ∀ k, vectors.getD k [] =
        (batch.map env.markCapped).zipIdx.filter fun p => env.writerOf numWriters p = k := by
      intro k
      have hnone : (replicate numWriters ([] : List OperationPtr)).getD k [] = [] := by
        rw [getD_eq_getElem?_getD, getElem?_replicate]
        split_ifs <;> rfl
      rw [hvectors k, length_replicate, hnone, nil_append]
    refine ⟨vectors, hfill, fun t hreach => ?_⟩
    have hlog := log_of_writer hvectors hreach
    have hgiven : ∀ k, (t.state k).ops.Perm
        ((batch.map env.markCapped).zipIdx.filter fun p => env.writerOf numWriters p = k) := by
      intro k
      rw [(hlog k).1.1, ← hvectors k]
      exact Writer.start_perm _
    refine ⟨?_, ?_, ?_, ?_⟩
    · refine subperm_of_filter (env.writerOf numWriters) fun k => ?_
      rw [(hlog k).2]
      exact (take_sublist _ _).subperm.trans (hgiven k).subperm
    · have hordered : t.log.Pairwise fun p q =>
          env.writerOf numWriters p = env.writerOf numWriters q → p.1.ns = q.1.ns → p.2 < q.2 := by
        refine pairwise_of_filter (env.writerOf numWriters) fun k => ?_
        rw [(hlog k).2, (hlog k).1.1]
        refine (Writer.start_pairwise ?_).sublist (take_sublist _ _)
        rw [hvectors]
        exact (zipIdx_pairwise _).filter _
      exact hordered.imp fun hlt hdep =>
        hlt (env.writerOf_eq_of_dependent hhash hdep) hdep.2.2.1
    · intro hfinished
      refine perm_of_filter (env.writerOf numWriters) fun k => ?_
      have hall : (t.state k).ops.length ≤ (t.state k).it := not_lt.mp fun hlt => hfinished ⟨k, hlt⟩
      rw [(hlog k).2, take_of_length_le hall]
      exact hgiven k
    · rintro ⟨k, hk⟩ groupSucceeds
      have hsizes : ∀ p ∈ (t.state k).ops, ∃ size, p.1.documentSize = .ok size := by
        intro p hp
        have hmem := (mem_filter.mp ((hgiven k).mem_iff.mp hp)).1
        obtain ⟨op, hop, hmark⟩ := mem_map.mp (fst_mem_of_mem_zipIdx hmem)
        rw [← hmark, env.documentSize_markCapped]
        exact (hops op hop).1
      obtain ⟨⟨out, w⟩, hnext⟩ := Writer.exists_applyNext groupSucceeds hk hsizes
      refine ⟨k, ⟨Function.update t.state k w, t.log ++ out⟩, ?_, ?_⟩
      · simp [Threads.step, hnext]
      · obtain ⟨hsame, hlt, hle, hout⟩ := Writer.applyNext_spec hnext
        have hlength := congrArg length hout
        rw [length_append, length_take, length_take, hsame] at hlength
        rw [length_append]
        omega

def lockingEnvironment : ApplyEnvironment Unit where
  supportsDocLocking := true
  isCapped := fun _ => false
  collator := fun _ => none
  hashNs := fun ns => ns.length.toUInt32
  hashId := fun _ id => if id.isSome then 1 else 0
  murmurHash3 := fun idHash hash => hash + idHash.toUInt32

/-- An insert or a delete of the document with `_id` 1 in the collection `a.b`. -/
def opOnOne (letter : UInt8) : OplogEntry :=
  new [ (⟨[0x6f, 0x70], by decide⟩, .string [letter]),
    (⟨[0x6e, 0x73], by decide⟩, .string [0x61, 0x2e, 0x62]),
    (⟨[0x6f], by decide⟩, .object [(⟨[0x5f, 0x69, 0x64], by decide⟩, .number (.numberInt 1))])]

/-- An insert and a delete of one document, by two writers. -/
theorem oplogApplication_keeps_order_insertDelete :
    ∃ vectors, lockingEnvironment.fillWriterVectors 2 [opOnOne 0x69, opOnOne 0x64] = .ok vectors ∧
      ∀ t, Interleaved Writer.applyNext (SyncTail.applyOps vectors) t → t.log.Pairwise fun p q =>
          Dependent lockingEnvironment (fun _ x y => x = y) p.1 q.1 → p.2 < q.2 := by
  have h := (oplogApplication_keeps_order lockingEnvironment (fun _ x y => x = y)
    fun _ x y hxy => by rw [hxy]).2 [opOnOne 0x69, opOnOne 0x64] 2 (by decide)
  have hwell : ∀ op ∈ [opOnOne 0x69, opOnOne 0x64], op.WellFormed := by
    rw [forall_mem_cons, forall_mem_singleton]
    exact ⟨⟨⟨_, rfl⟩, ⟨_, rfl⟩⟩, ⟨⟨_, rfl⟩, ⟨_, rfl⟩⟩⟩
  obtain ⟨vectors, hfill, hall⟩ := h hwell
  exact ⟨vectors, hfill, fun t ht => (hall t ht).2.1⟩

end Order
end MongoServer
