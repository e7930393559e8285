import MongoServer.Sharding.BatchGrouping
import MongoServer.Sharding.BatchWriteExec
import MongoServer.Transition.Runs

/-!
What the router knows of each write agrees with what the shards said: a child that waits has
its write on the way, a completed one was acknowledged, and a write that is ready again has no
acknowledgement behind it.
-/
namespace MongoServer.BatchWriteExec
open BatchWriteOp List ShardEndpoint WriteOp

def NoneOut (i : ℕ) (out : List TargetedWrite) : Prop := ∀ write ∈ out, write.writeOpRef.1 ≠ i

def NoneAcked (i : ℕ) (acks : List (ℕ × String)) : Prop := ∀ ack ∈ acks, ack.1 ≠ i

/-- One child of a pending operation, by the endpoint it was targeted at. -/
def ChildOk (i c : ℕ) (out : List TargetedWrite) (acks : List (ℕ × String)) (e : ShardEndpoint)
    (child : ChildWriteOp) : Prop :=
  match child.state with
  | .pending => ⟨e, (i, c)⟩ ∈ out ∧ (i, e.shardName) ∉ acks
  | .completed => ⟨e, (i, c)⟩ ∉ out ∧ (i, e.shardName) ∈ acks
  | .error => ⟨e, (i, c)⟩ ∉ out ∧ (i, e.shardName) ∉ acks ∧
      ∃ error, child.error = some error ∧ isRetryErrCode error.errCode = false
  | _ => False

structure PendingOk (i : ℕ) (childOps : List ChildWriteOp) (out : List TargetedWrite)
    (acks : List (ℕ × String)) (last : List ShardEndpoint) : Prop where
  length : childOps.length = last.length
  names : (last.map shardName).Nodup
  children : ∀ c e child, last[c]? = some e → childOps[c]? = some child →
    ChildOk i c out acks e child
  waits : ∃ child ∈ childOps, child.state = .pending
  outs : ∀ write ∈ out, write.writeOpRef.1 = i → last[write.writeOpRef.2]? = some write.endpoint
  acked : ∀ ack ∈ acks, ack.1 = i → ack.2 ∈ last.map shardName

/-- One operation, by its state. -/
def OpOk (i : ℕ) (op : WriteOp) (out : List TargetedWrite) (acks : List (ℕ × String))
    (last : List ShardEndpoint) : Prop :=
  op.itemIndex = i ∧
    match op.state with
    | .ready => op.childOps = [] ∧ NoneOut i out ∧ NoneAcked i acks
    | .pending => PendingOk i op.childOps out acks last
    | .completed => NoneOut i out ∧ last ≠ [] ∧ ∀ e ∈ last, (i, e.shardName) ∈ acks
    | .error => NoneOut i out
    | .cancelled => False

/-- All operations, with the writes on the way and the acknowledgements so far. -/
structure Tracked (ops : List WriteOp) (out : List TargetedWrite) (acks : List (ℕ × String))
    (last : ℕ → List ShardEndpoint) : Prop where
  op : ∀ i op, ops[i]? = some op → OpOk i op out acks (last i)
  inside : ∀ write ∈ out, write.writeOpRef.1 < ops.length
  out_nodup : out.Nodup
  acks_nodup : acks.Nodup

variable {i : ℕ} {op op' : WriteOp} {ops ops' : List WriteOp} {out out' : List TargetedWrite}
  {acks acks' : List (ℕ × String)} {last last' : ℕ → List ShardEndpoint}
  {endpoints : List ShardEndpoint} {write : TargetedWrite} {index : ℕ}

section Congruence

theorem ChildOk.congr {c : ℕ} {e : ShardEndpoint} {child : ChildWriteOp}
    (h : ChildOk i c out acks e child)
    (hout : (⟨e, (i, c)⟩ : TargetedWrite) ∈ out' ↔ (⟨e, (i, c)⟩ : TargetedWrite) ∈ out)
    (hacks : (i, e.shardName) ∈ acks' ↔ (i, e.shardName) ∈ acks) :
    ChildOk i c out' acks' e child := by
  unfold ChildOk at h ⊢
  rw [hout, hacks]
  exact h

theorem OpOk.congr (h : OpOk i op out acks endpoints)
    (hout : ∀ write : TargetedWrite, write.writeOpRef.1 = i → (write ∈ out' ↔ write ∈ out))
    (hacks : ∀ ack : ℕ × String, ack.1 = i → (ack ∈ acks' ↔ ack ∈ acks)) :
    OpOk i op out' acks' endpoints := by
  have hnone : NoneOut i out → NoneOut i out' :=
    fun hn write hw hi => hn write ((hout write hi).mp hw) hi
  obtain ⟨hindex, hstate⟩ := h
  refine ⟨hindex, ?_⟩
  cases hs : op.state <;> rw [hs] at hstate <;> simp only at hstate ⊢
  case ready =>
    exact ⟨hstate.1, hnone hstate.2.1, fun ack ha hi => hstate.2.2 ack ((hacks ack hi).mp ha) hi⟩
  case pending =>
    exact ⟨hstate.length, hstate.names,
      fun c e child he hc => (hstate.children c e child he hc).congr (hout _ rfl) (hacks _ rfl),
      hstate.waits, fun write hw hi => hstate.outs write ((hout write hi).mp hw) hi,
      fun ack ha hi => hstate.acked ack ((hacks ack hi).mp ha) hi⟩
  case completed =>
    exact ⟨hnone hstate.1, hstate.2.1, fun e he => (hacks _ rfl).mpr (hstate.2.2 e he)⟩
  case error => exact hnone hstate

theorem Tracked.perm (h : Tracked ops out acks last) (hperm : out.Perm out') :
    Tracked ops out' acks last :=
  ⟨fun i op hop => (h.op i op hop).congr (fun _ _ => hperm.mem_iff.symm) fun _ _ => Iff.rfl,
    fun write hw => h.inside write (hperm.mem_iff.mpr hw), hperm.nodup_iff.mp h.out_nodup,
    h.acks_nodup⟩

theorem Tracked.set (h : Tracked ops (write :: out) acks last)
    (hop : OpOk write.writeOpRef.1 op' out acks' (last write.writeOpRef.1))
    (hacks : ∀ ack : ℕ × String, ack.1 ≠ write.writeOpRef.1 → (ack ∈ acks' ↔ ack ∈ acks))
    (hnodup : acks'.Nodup) : Tracked (ops.set write.writeOpRef.1 op') out acks' last := by
  refine ⟨fun j op hj => ?_, fun w hw => ?_, (nodup_cons.mp h.out_nodup).2, hnodup⟩
  swap
  · rw [length_set]
    exact h.inside w (mem_cons_of_mem _ hw)
  by_cases hi : write.writeOpRef.1 = j
  · subst hi
    have hlt := (List.getElem?_eq_some_iff.mp hj).1
    rw [length_set] at hlt
    rw [List.getElem?_set_self hlt] at hj
    cases hj
    exact hop
  · rw [List.getElem?_set_ne hi] at hj
    refine (h.op j op hj).congr (fun w hw => ?_) fun ack hack => hacks ack fun he => hi (he ▸ hack)
    rw [mem_cons]
    refine ⟨.inr, fun hmem => hmem.resolve_left fun heq => hi ?_⟩
    rw [← heq]
    exact hw

end Congruence

section Responses

theorem OpOk.pending (h : OpOk i op out acks endpoints) (hw : write ∈ out)
    (hi : write.writeOpRef.1 = i) :
    op.state = .pending ∧ PendingOk i op.childOps out acks endpoints := by
  obtain ⟨-, hstate⟩ := h
  cases hs : op.state <;> rw [hs] at hstate <;> simp only at hstate
  case ready => exact absurd hi (hstate.2.1 write hw)
  case pending => exact ⟨rfl, hstate⟩
  case completed => exact absurd hi (hstate.1 write hw)
  case error => exact absurd hi (hstate write hw)

theorem updateOpState_waiting (h : ∃ child ∈ op.childOps, child.state = .pending) :
    op.updateOpState = op := by
  obtain ⟨child, hchild, hstate⟩ := h
  unfold updateOpState
  rw [if_pos]
  exact any_eq_true.mpr ⟨child, hchild, by simp [hstate]⟩

theorem updateOpState_done
    (h : ∀ child ∈ op.childOps, child.state = .completed ∨ child.state = .error) :
    op.updateOpState.itemIndex = op.itemIndex ∧ op.updateOpState.childOps = [] ∧
      op.updateOpState.state =
        if op.childErrors = [] then .completed
        else if op.childErrors.all fun error => isRetryErrCode error.errCode then .ready
        else .error := by
  have hnone : (op.childOps.any fun child =>
      decide (child.state ≠ .completed ∧ child.state ≠ .error)) = false := by
    rw [any_eq_false]
    intro child hchild
    rcases h child hchild with hs | hs <;> simp [hs]
  unfold updateOpState
  rw [hnone, if_neg Bool.false_ne_true]
  split_ifs <;> exact ⟨rfl, rfl, rfl⟩

variable {error : WriteErrorDetail} {childOps : List ChildWriteOp} {errors : List WriteErrorDetail}
  {writes : List TargetedWrite}

theorem mem_childErrors : error ∈ op.childErrors ↔
      ∃ child ∈ op.childOps, child.state = .error ∧ child.error = some error := by
  unfold childErrors
  rw [mem_filterMap]
  constructor
  · rintro ⟨child, hchild, hsome⟩
    split_ifs at hsome with hs
    exact ⟨child, hchild, hs, hsome⟩
  · rintro ⟨child, hchild, hs, hsome⟩
    exact ⟨child, hchild, by rw [if_pos hs, hsome]⟩

theorem updateOpState_completed {child : ChildWriteOp} (h : op.childOps = [child])
    (hs : child.state = .completed) : op.updateOpState.state = .completed := by
  simp [updateOpState, childErrors, h, hs]

theorem opOk_retry {child : ChildWriteOp} (hindex : op.itemIndex = i) (h : op.childOps = [child])
    (hs : child.state = .error)
    (hretry : ∃ error, child.error = some error ∧ isRetryErrCode error.errCode = true)
    (hout : NoneOut i out) (hacks : NoneAcked i acks) :
    OpOk i op.updateOpState out acks endpoints := by
  obtain ⟨error, herror, hretry⟩ := hretry
  simp [OpOk, updateOpState, childErrors, h, hs, herror, hretry, hindex, hout, hacks]

theorem eta_write (hi : write.writeOpRef.1 = i) :
    (⟨write.endpoint, (i, write.writeOpRef.2)⟩ : TargetedWrite) = write := by
  rw [← hi]

/-- One child is done: what is left of the account of a pending operation. -/
structure Settled (i : ℕ) (childOps : List ChildWriteOp) (out : List TargetedWrite)
    (acks : List (ℕ × String)) (endpoints : List ShardEndpoint) : Prop where
  length : childOps.length = endpoints.length
  names : (endpoints.map shardName).Nodup
  children : ∀ c e child, endpoints[c]? = some e → childOps[c]? = some child →
    ChildOk i c out acks e child
  outs : ∀ write ∈ out, write.writeOpRef.1 = i →
    endpoints[write.writeOpRef.2]? = some write.endpoint
  acked : ∀ ack ∈ acks, ack.1 = i → ack.2 ∈ endpoints.map shardName

theorem PendingOk.settled (h : PendingOk i childOps out acks endpoints) :
    Settled i childOps out acks endpoints :=
  { h with }

theorem Settled.child_at {c : ℕ} {e : ShardEndpoint} (h : Settled i childOps out acks endpoints)
    (he : endpoints[c]? = some e) :
    ∃ child, childOps[c]? = some child ∧ ChildOk i c out acks e child := by
  have hlt := (List.getElem?_eq_some_iff.mp he).1
  rw [← h.length] at hlt
  have hget := List.getElem?_eq_getElem hlt
  exact ⟨_, hget, h.children c e _ he hget⟩

theorem PendingOk.settle {f : ChildWriteOp → ChildWriteOp}
    (h : PendingOk i childOps (write :: out) acks endpoints) (hi : write.writeOpRef.1 = i)
    (hnew : ∀ child, ChildOk i write.writeOpRef.2 out acks' write.endpoint (f child))
    (hacks : ∀ ack, ack ≠ (i, write.endpoint.shardName) → (ack ∈ acks' ↔ ack ∈ acks)) :
    Settled i (childOps.modify write.writeOpRef.2 f) out acks' endpoints := by
  have hat : endpoints[write.writeOpRef.2]? = some write.endpoint :=
    h.outs write mem_cons_self hi
  refine ⟨by rw [length_modify, h.length], h.names, fun c e child he hc => ?_,
    fun w hw hwi => h.outs w (mem_cons_of_mem _ hw) hwi, fun ack ha hai => ?_⟩
  · rw [List.getElem?_modify] at hc
    obtain ⟨child₀, hchild₀, rfl⟩ := Option.map_eq_some_iff.mp hc
    by_cases hcc : write.writeOpRef.2 = c
    · subst hcc
      rw [if_pos rfl]
      rw [hat] at he
      cases he
      exact hnew child₀
    · rw [if_neg hcc]
      refine (h.children c e child₀ he hchild₀).congr ?_ (hacks _ fun heq => hcc ?_)
      · rw [mem_cons]
        refine ⟨.inr, fun hmem => hmem.resolve_left fun heq => hcc ?_⟩
        rw [← heq]
      · have hname : e.shardName = write.endpoint.shardName := (Prod.mk.inj heq).2
        have hleft : (endpoints.map shardName)[write.writeOpRef.2]? =
            some write.endpoint.shardName := by rw [List.getElem?_map, hat]; rfl
        have hright : (endpoints.map shardName)[c]? =
            some write.endpoint.shardName := by rw [List.getElem?_map, he, ← hname]; rfl
        exact (List.getElem?_inj (List.getElem?_eq_some_iff.mp hleft).1 h.names).mp
          (hleft.trans hright.symm)
  · by_cases heq : ack = (i, write.endpoint.shardName)
    · rw [heq]
      exact mem_map_of_mem (mem_of_getElem? hat)
    · exact h.acked ack ((hacks ack heq).mp ha) hai

theorem Settled.opOk (h : Settled i op.childOps out acks endpoints) (hindex : op.itemIndex = i)
    (hpending : op.state = .pending) (hne : endpoints ≠ []) :
    OpOk i op.updateOpState out acks endpoints := by
  by_cases hwaits : ∃ child ∈ op.childOps, child.state = .pending
  · rw [updateOpState_waiting hwaits]
    refine ⟨hindex, ?_⟩
    rw [hpending]
    exact { h with waits := hwaits }
  · have hchild : ∀ child ∈ op.childOps, ∃ c e, endpoints[c]? = some e ∧
        op.childOps[c]? = some child ∧ ChildOk i c out acks e child := by
      intro child hmem
      obtain ⟨c, hc⟩ := mem_iff_getElem?.mp hmem
      have hlt := (List.getElem?_eq_some_iff.mp hc).1
      rw [h.length] at hlt
      exact ⟨c, _, List.getElem?_eq_getElem hlt, hc,
        h.children c _ child (List.getElem?_eq_getElem hlt) hc⟩
    have hdone : ∀ child ∈ op.childOps, child.state = .completed ∨ child.state = .error := by
      intro child hmem
      obtain ⟨c, e, -, -, hok⟩ := hchild child hmem
      unfold ChildOk at hok
      cases hs : child.state <;> rw [hs] at hok <;> simp only at hok
      case pending => exact absurd ⟨child, hmem, hs⟩ hwaits
      case completed => exact .inl rfl
      case error => exact .inr rfl
    have hout : NoneOut i out := by
      intro w hw hwi
      obtain ⟨child, hc, hok⟩ := h.child_at (h.outs w hw hwi)
      unfold ChildOk at hok
      rw [eta_write hwi] at hok
      rcases hdone _ (mem_of_getElem? hc) with hs | hs <;> rw [hs] at hok
      · exact hok.1 hw
      · exact hok.1 hw
    obtain ⟨hindex', hchildren, hstate⟩ := updateOpState_done hdone
    refine ⟨hindex'.trans hindex, ?_⟩
    by_cases hnone : op.childErrors = []
    · rw [if_pos hnone] at hstate
      rw [hstate]
      refine ⟨hout, hne, fun e he => ?_⟩
      obtain ⟨c, hc⟩ := mem_iff_getElem?.mp he
      obtain ⟨child, hget, hok⟩ := h.child_at hc
      unfold ChildOk at hok
      rcases hdone _ (mem_of_getElem? hget) with hs | hs <;> rw [hs] at hok
      · exact hok.2
      · obtain ⟨error, herror, -⟩ := hok.2.2
        have hmem := mem_childErrors.mpr ⟨_, mem_of_getElem? hget, hs, herror⟩
        rw [hnone] at hmem
        cases hmem
    · rw [if_neg hnone] at hstate
      obtain ⟨error, herror⟩ := exists_mem_of_ne_nil _ hnone
      obtain ⟨child, hmem, hs, hsome⟩ := mem_childErrors.mp herror
      obtain ⟨c, e, -, -, hok⟩ := hchild child hmem
      unfold ChildOk at hok
      rw [hs] at hok
      obtain ⟨error', herror', hretry⟩ := hok.2.2
      obtain rfl := Option.some.inj (hsome.symm.trans herror')
      have hall : (op.childErrors.all fun error => isRetryErrCode error.errCode) = false :=
        all_eq_false.mpr ⟨error, herror, by simp [hretry]⟩
      rw [hall, if_neg (by simp)] at hstate
      rw [hstate]
      exact hout

theorem PendingOk.child (h : PendingOk i childOps out acks endpoints) (hw : write ∈ out)
    (hi : write.writeOpRef.1 = i) :
    ∃ child, childOps[write.writeOpRef.2]? = some child ∧ (i, write.endpoint.shardName) ∉ acks := by
  obtain ⟨child, hget, hok⟩ := h.settled.child_at (h.outs write hw hi)
  refine ⟨child, hget, ?_⟩
  unfold ChildOk at hok
  rw [eta_write hi] at hok
  cases hs : child.state <;> rw [hs] at hok <;> simp only at hok
  case pending => exact hok.2
  case completed => exact absurd hw hok.1
  case error => exact absurd hw hok.1

theorem ne_nil_of_out (h : PendingOk i childOps out acks endpoints) (hw : write ∈ out)
    (hi : write.writeOpRef.1 = i) : endpoints ≠ [] := by
  rintro rfl
  have he := h.outs write hw hi
  simp at he

theorem PendingOk.single (h : PendingOk i childOps (write :: out) acks endpoints)
    (hi : write.writeOpRef.1 = i) (hnot : write ∉ out) (hsingle : endpoints.length = 1) :
    write.writeOpRef.2 = 0 ∧ (∃ child, childOps = [child]) ∧ NoneOut i out ∧
      NoneAcked i acks := by
  have hat := h.outs write mem_cons_self hi
  obtain ⟨e, rfl⟩ := length_eq_one_iff.mp hsingle
  obtain ⟨child, hchild⟩ := length_eq_one_iff.mp (h.length.trans hsingle)
  have hzero : ∀ {w : TargetedWrite}, [e][w.writeOpRef.2]? = some w.endpoint →
      w.writeOpRef.2 = 0 ∧ w.endpoint = e := by
    intro w hw
    have hlt := (List.getElem?_eq_some_iff.mp hw).1
    have h0 : w.writeOpRef.2 = 0 := Nat.lt_one_iff.mp hlt
    rw [h0] at hw
    exact ⟨h0, (Option.some.inj hw).symm⟩
  obtain ⟨hc, he⟩ := hzero hat
  obtain ⟨-, -, hack⟩ := h.child mem_cons_self hi
  refine ⟨hc, ⟨child, hchild⟩, fun w hw hwi => hnot ?_, fun ack ha hai => hack ?_⟩
  · obtain ⟨hc', he'⟩ := hzero (h.outs w (mem_cons_of_mem _ hw) hwi)
    have heq : w = write := by
      rw [← eta_write hwi, ← eta_write hi, hc, hc', he, he']
    exact heq ▸ hw
  · have hname := h.acked ack ha hai
    rw [map_singleton, mem_singleton] at hname
    have heq : (i, write.endpoint.shardName) = ack := by
      rw [he, ← hname, ← hai]
    exact heq ▸ ha

theorem finishChild_some {state : WriteOpState} {error : Option WriteErrorDetail}
    {child : ChildWriteOp} (hchild : op.childOps[write.writeOpRef.2]? = some child) :
    op.finishChild write state error = some { op with
      childOps := op.childOps.modify write.writeOpRef.2 fun child =>
        ⟨state, none, some write.endpoint, error.or child.error⟩ } := by
  unfold finishChild
  rw [if_pos (List.getElem?_eq_some_iff.mp hchild).1]

section
variable (h : OpOk i op (write :: out) acks endpoints)
include h

theorem OpOk.noteWriteComplete (hi : write.writeOpRef.1 = i) (hnot : write ∉ out)
    (hnote : op.noteWriteComplete write = some op') :
    OpOk i op' out (acks ++ [(i, write.endpoint.shardName)]) endpoints ∧
      (i, write.endpoint.shardName) ∉ acks := by
  obtain ⟨hstate, hpending⟩ := h.pending mem_cons_self hi
  obtain ⟨child, hchild, hack⟩ := hpending.child mem_cons_self hi
  have hne := ne_nil_of_out hpending mem_cons_self hi
  unfold WriteOp.noteWriteComplete at hnote
  rw [finishChild_some hchild] at hnote
  cases hnote
  refine ⟨Settled.opOk (hpending.settle hi (fun child => ?_) fun ack hne => ?_) h.1 hstate hne,
    hack⟩
  · refine ⟨?_, by simp⟩
    rw [eta_write hi]
    exact hnot
  · simp [hne]

theorem OpOk.noteWriteError (hi : write.writeOpRef.1 = i) (hnot : write ∉ out)
    (hstale : isRetryErrCode error.errCode = true → endpoints.length = 1)
    (hnote : op.noteWriteError write error = some op') : OpOk i op' out acks endpoints := by
  obtain ⟨hstate, hpending⟩ := h.pending mem_cons_self hi
  obtain ⟨child, hchild, hack⟩ := hpending.child mem_cons_self hi
  have hne := ne_nil_of_out hpending mem_cons_self hi
  unfold WriteOp.noteWriteError at hnote
  rw [finishChild_some hchild] at hnote
  cases hnote
  cases hretry : isRetryErrCode error.errCode with
  | false =>
    refine Settled.opOk (hpending.settle hi (fun child => ?_) fun ack _ => Iff.rfl) h.1 hstate hne
    refine ⟨?_, hack, _, rfl, hretry⟩
    rw [eta_write hi]
    exact hnot
  | true =>
    -- the only child failed, and the operation is ready for another try
    obtain ⟨hzero, ⟨child', hchildOps⟩, hout, hacks⟩ := hpending.single hi hnot (hstale hretry)
    rw [hzero, hchildOps, modify_zero_cons]
    exact opOk_retry h.1 rfl rfl ⟨_, rfl, hretry⟩ hout hacks

theorem OpOk.cancelWrites
    (hi : write.writeOpRef.1 = i) (hnot : write ∉ out) (hsingle : endpoints.length = 1)
    (why : Option WriteErrorDetail) : OpOk i (op.cancelWrites why) out acks endpoints := by
  obtain ⟨hstate, hpending⟩ := h.pending mem_cons_self hi
  obtain ⟨-, -, hout, hacks⟩ := hpending.single hi hnot hsingle
  exact ⟨h.1, rfl, hout, hacks⟩

end

section
variable (h : Tracked ops (write :: out) acks last)
include h

section
variable (hop : ops[write.writeOpRef.1]? = some op)
include hop

theorem Tracked.noteWriteComplete (hnote : op.noteWriteComplete write = some op') :
    Tracked (ops.set write.writeOpRef.1 op') out
      (acks ++ [(write.writeOpRef.1, write.endpoint.shardName)]) last := by
  have hnot := (nodup_cons.mp h.out_nodup).1
  obtain ⟨hok, hnew⟩ := (h.op _ op hop).noteWriteComplete rfl hnot hnote
  refine h.set hok (fun ack hne => ?_) ?_
  · rw [mem_append, mem_singleton]
    exact ⟨fun hor => hor.resolve_right fun heq => hne (heq ▸ rfl), .inl⟩
  · exact nodup_append.mpr ⟨h.acks_nodup, nodup_singleton _, fun a ha b hb heq =>
      hnew (mem_singleton.mp hb ▸ heq ▸ ha)⟩

theorem Tracked.noteWriteError
    (hstale : isRetryErrCode error.errCode = true → (last write.writeOpRef.1).length = 1)
    (hnote : op.noteWriteError write error = some op') :
    Tracked (ops.set write.writeOpRef.1 op') out acks last :=
  h.set ((h.op _ op hop).noteWriteError rfl (nodup_cons.mp h.out_nodup).1 hstale hnote)
    (fun _ _ => Iff.rfl) h.acks_nodup

theorem Tracked.cancelWrites (hsingle : (last write.writeOpRef.1).length = 1)
    (why : Option WriteErrorDetail) :
    Tracked (ops.set write.writeOpRef.1 (op.cancelWrites why)) out acks last :=
  h.set ((h.op _ op hop).cancelWrites rfl (nodup_cons.mp h.out_nodup).1 hsingle why)
    (fun _ _ => Iff.rfl) h.acks_nodup

end

end

theorem takeError_cases (hsorted : errors.Pairwise fun a b => a.index < b.index)
    (hrange : ∀ error ∈ errors, (index : ℤ) ≤ error.index) :
    (∃ error rest, errors = error :: rest ∧ error.index = index ∧
      takeError index errors = (some error, rest)) ∨
    ((∀ error ∈ errors, error.index ≠ index) ∧ takeError index errors = (none, errors)) := by
  cases errors with
  | nil => exact .inr ⟨by simp, rfl⟩
  | cons error rest =>
    unfold takeError
    by_cases hat : error.index = index
    · exact .inl ⟨error, rest, rfl, hat, if_pos hat⟩
    · refine .inr ⟨forall_mem_cons.mpr ⟨hat, fun error' hmem => ?_⟩, if_neg hat⟩
      have hfirst := hrange error mem_cons_self
      have hlt := (pairwise_cons.mp hsorted).1 error' hmem
      omega

theorem noteWrites_cons {ordered : Bool} {lastError : Option WriteErrorDetail}
    (h : noteWrites ordered (write :: writes) index errors lastError ops = some ops') :
    ∃ op op', ops[write.writeOpRef.1]? = some op ∧
      noteWrite ordered write (takeError index errors).1 lastError op = some op' ∧
      noteWrites ordered writes (index + 1) (takeError index errors).2
        ((takeError index errors).1.or lastError) (ops.set write.writeOpRef.1 op') = some ops' := by
  obtain ⟨op, hop, h⟩ := Option.bind_eq_some_iff.mp h
  obtain ⟨op', hop', h⟩ := Option.bind_eq_some_iff.mp h
  exact ⟨op, op', hop, hop', h⟩

theorem applied_congr {ordered : Bool} {errors' : List WriteErrorDetail}
    (h : ∀ k, index ≤ k → (errors.any fun error => decide (error.index = (k : ℤ))) =
      errors'.any fun error => decide (error.index = (k : ℤ))) :
    applied ordered errors index writes = applied ordered errors' index writes := by
  induction writes generalizing index with
  | nil => rfl
  | cons write rest ih =>
    unfold applied
    rw [h index (le_refl _), ih fun k hk => h k (by omega)]

theorem Tracked.noteWrites_cancel (h : Tracked ops (writes ++ out) acks last)
    (hsingle : ∀ write ∈ writes, (last write.writeOpRef.1).length = 1)
    (hnote : noteWrites true writes index [] (some error) ops = some ops') :
    Tracked ops' out acks last := by
  induction writes generalizing index ops with
  | nil =>
    cases hnote
    exact h
  | cons write rest ih =>
    obtain ⟨op, op', hop, hop', hnote⟩ := noteWrites_cons hnote
    cases hop'
    exact ih (h.cancelWrites hop (hsingle write mem_cons_self) (some error))
      (forall_mem_cons.mp hsingle).2 hnote

theorem Tracked.noteWrites {ordered : Bool}
    {lastError : Option WriteErrorDetail} (h : Tracked ops (writes ++ out) acks last)
    (hsorted : errors.Pairwise fun a b => a.index < b.index)
    (hrange : ∀ error ∈ errors, (index : ℤ) ≤ error.index)
    (hstale : ∀ k write, writes[k]? = some write → ∀ error ∈ errors,
      error.index = ((index + k : ℕ) : ℤ) → isRetryErrCode error.errCode = true →
      (last write.writeOpRef.1).length = 1)
    (hordered : ordered = true → lastError = none ∧ errors.length ≤ 1 ∧
      (writes.length ≤ 1 ∨ ∀ write ∈ writes, (last write.writeOpRef.1).length = 1))
    (hnote : noteWrites ordered writes index errors lastError ops = some ops') :
    Tracked ops' out (acks ++ (applied ordered errors index writes).map fun write =>
      (write.writeOpRef.1, write.endpoint.shardName)) last := by
  induction writes generalizing index errors lastError ops acks with
  | nil =>
    cases hnote
    rw [applied, map_nil, append_nil]
    exact h
  | cons write rest ih =>
    obtain ⟨op, op', hop, hop', hnote⟩ := noteWrites_cons hnote
    have hrest : ordered = true → rest.length ≤ 1 ∨
        ∀ write ∈ rest, (last write.writeOpRef.1).length = 1 := fun ho =>
      (hordered ho).2.2.imp (fun hle => by simp at hle; simp [hle])
        fun hall w hw => hall w (mem_cons_of_mem _ hw)
    rcases takeError_cases hsorted hrange with ⟨error, errors', rfl, hat, htake⟩ | ⟨hnone, htake⟩
    · rw [htake] at hop' hnote
      have hfirst := h.noteWriteError hop (hstale 0 write rfl error mem_cons_self hat) hop'
      have hhere : ((error :: errors').any fun error => decide (error.index = (index : ℤ))) =
          true := by simp [hat]
      rw [applied, hhere, if_pos rfl]
      cases ordered with
      | true =>
        obtain ⟨rfl, hone, hsingle⟩ := hordered rfl
        obtain rfl : errors' = [] := by simpa using hone
        rw [if_pos rfl, map_nil, append_nil]
        refine hfirst.noteWrites_cancel (fun w hw => ?_) hnote
        rcases hsingle with hle | hall
        · simp at hle
          simp [hle] at hw
        · exact hall w (mem_cons_of_mem _ hw)
      | false =>
        rw [if_neg Bool.false_ne_true]
        have hlater : ∀ error' ∈ errors', ((index + 1 : ℕ) : ℤ) ≤ error'.index := by
          intro error' herror'
          have hlt := (pairwise_cons.mp hsorted).1 error' herror'
          push_cast
          omega
        have hskip : applied false (error :: errors') (index + 1) rest =
            applied false errors' (index + 1) rest := by
          apply applied_congr
          intro k hk
          have hneq : error.index ≠ (k : ℤ) := by omega
          simp [hneq]
        rw [hskip]
        exact ih hfirst (pairwise_cons.mp hsorted).2 hlater
          (fun k w hw error' herror' heq => hstale (k + 1) w hw error'
            (mem_cons_of_mem _ herror') (heq.trans (by push_cast; omega)))
          (fun ho => absurd ho Bool.false_ne_true) hnote
    · rw [htake] at hop' hnote
      have hcomplete : op.noteWriteComplete write = some op' := by
        unfold noteWrite at hop'
        cases ordered with
        | true =>
          obtain ⟨rfl, -⟩ := hordered rfl
          simpa using hop'
        | false => simpa using hop'
      have hfirst := h.noteWriteComplete hop hcomplete
      have hhere : (errors.any fun error => decide (error.index = (index : ℤ))) = false := by
        rw [any_eq_false]
        intro error herror
        simp [hnone error herror]
      rw [applied, hhere, if_neg Bool.false_ne_true, map_cons, append_cons]
      refine ih hfirst hsorted (fun error herror => ?_) (fun k w hw error herror heq =>
        hstale (k + 1) w hw error herror (heq.trans (by push_cast; omega)))
        (fun ho => ⟨?_, (hordered ho).2.1, hrest ho⟩) hnote
      · have hle := hrange error herror
        have hne := hnone error herror
        push_cast
        omega
      · rw [(hordered ho).1]
        rfl

end Responses

section Targeting
variable {targeter : NSTargeter} {isIndexInsert : Bool} {writes : List TargetedWrite}

/-- No targeting call succeeds without an endpoint, or names a shard twice. -/
structure Targets (targeter : NSTargeter) : Prop where
  update : ∀ document endpoints, targeter.targetUpdate document = .ok endpoints →
    endpoints ≠ [] ∧ (endpoints.map shardName).Nodup
  delete : ∀ document endpoints, targeter.targetDelete document = .ok endpoints →
    endpoints ≠ [] ∧ (endpoints.map shardName).Nodup
  collection : ∀ endpoints, targeter.targetCollection = .ok endpoints →
    endpoints ≠ [] ∧ (endpoints.map shardName).Nodup
  allShards : ∀ endpoints, targeter.targetAllShards = .ok endpoints →
    endpoints ≠ [] ∧ (endpoints.map shardName).Nodup

theorem Targets.targetItem (hT : Targets targeter) {item : BatchItem}
    (h : targeter.targetItem isIndexInsert item = .ok endpoints) :
    endpoints ≠ [] ∧ (endpoints.map shardName).Nodup := by
  unfold NSTargeter.targetItem at h
  obtain ⟨found, hfound, h⟩ := Transition.bind_eq_ok.mp h
  split_ifs at h
  · exact hT.allShards endpoints h
  · obtain rfl := Except.ok.inj h
    cases item with
    | update document => exact hT.update document found hfound
    | delete document => exact hT.delete document found hfound
    | insert document =>
      unfold NSTargeter.targetOne at hfound
      split_ifs at hfound
      · exact hT.collection found hfound
      · obtain ⟨endpoint, -, rfl⟩ := Transition.map_eq_ok.mp hfound
        simp

theorem shardNames_broadcastEndpoints (endpoints : List ShardEndpoint) :
    (broadcastEndpoints endpoints).map shardName = endpoints.map shardName := by
  unfold broadcastEndpoints
  split_ifs
  · rfl
  · rw [map_map]
    rfl

theorem targetWrites_spec (hT : Targets targeter) (hready : op.childOps = [])
    (h : op.targetWrites targeter isIndexInsert = .ok (writes, op')) :
    writes ≠ [] ∧ ((writes.map TargetedWrite.endpoint).map shardName).Nodup ∧
      (∀ (c : ℕ) (write : TargetedWrite), writes[c]? = some write →
        write.writeOpRef = (op.itemIndex, c)) ∧
      op' = { op with
        state := .pending
        childOps := writes.map fun write => ⟨.pending, some write, none, none⟩ } := by
  unfold targetWrites at h
  obtain ⟨found, hfound, h⟩ := Transition.bind_eq_ok.mp h
  obtain ⟨hne, hnodup⟩ := hT.targetItem hfound
  obtain ⟨rfl, rfl⟩ := Prod.mk.inj (Except.ok.inj h)
  have hendpoints : ((broadcastEndpoints found).mapIdx fun k endpoint =>
      (⟨endpoint, (op.itemIndex, op.childOps.length + k)⟩ : TargetedWrite)).map
        TargetedWrite.endpoint = broadcastEndpoints found := by
    apply ext_getElem?
    intro i
    simp [Function.comp_def]
  refine ⟨?_, ?_, fun c write hc => ?_, ?_⟩
  · intro hnil
    have hnone := congrArg (fun l => (l.map TargetedWrite.endpoint).map shardName) hnil
    simp only [hendpoints, shardNames_broadcastEndpoints, map_nil, map_eq_nil_iff] at hnone
    exact hne hnone
  · rw [hendpoints, shardNames_broadcastEndpoints]
    exact hnodup
  · rw [List.getElem?_mapIdx] at hc
    obtain ⟨e, -, rfl⟩ := Option.map_eq_some_iff.mp hc
    simp [hready]
  · rw [hready, nil_append]

theorem OpOk.target (h : OpOk i op out acks endpoints) (hready : op.state = .ready)
    (hT : Targets targeter) (htarget : op.targetWrites targeter isIndexInsert = .ok (writes, op')) :
    OpOk i op' (out ++ writes) acks (writes.map TargetedWrite.endpoint) ∧
      (∀ write ∈ writes, write.writeOpRef.1 = i) ∧ writes.Nodup ∧ NoneOut i out := by
  obtain ⟨hindex, hstate⟩ := h
  rw [hready] at hstate
  obtain ⟨hchildren, hout, hacks⟩ := hstate
  obtain ⟨hne, hnodup, hrefs, rfl⟩ := targetWrites_spec hT hchildren htarget
  rw [hindex] at hrefs
  have hmem : ∀ write ∈ writes, write.writeOpRef.1 = i := by
    intro write hwrite
    obtain ⟨c, hc⟩ := mem_iff_getElem?.mp hwrite
    rw [hrefs c write hc]
  refine ⟨⟨hindex, ?_, hnodup, fun c e child he hc => ?_, ?_, fun write hw hi => ?_,
    fun ack ha hi => absurd hi (hacks ack ha)⟩, hmem, ?_, hout⟩
  · simp
  · rw [List.getElem?_map] at he hc
    obtain ⟨write, hwrite, rfl⟩ := Option.map_eq_some_iff.mp he
    rw [hwrite] at hc
    cases hc
    refine ⟨mem_append_right _ ?_, fun ha => hacks _ ha rfl⟩
    rw [← hrefs c write hwrite]
    exact mem_of_getElem? hwrite
  · obtain ⟨write, hwrite⟩ := exists_mem_of_ne_nil _ hne
    exact ⟨_, mem_map_of_mem hwrite, rfl⟩
  · rcases mem_append.mp hw with hw | hw
    · exact absurd hi (hout write hw)
    · obtain ⟨c, hc⟩ := mem_iff_getElem?.mp hw
      rw [hrefs c write hc, List.getElem?_map, hc]
      rfl
  · exact (hnodup.of_map _).of_map _

end Targeting

end MongoServer.BatchWriteExec
