import MongoServer.Repl.CommitPoint
import MongoServer.Quorum.OrderStatistic
import MongoServer.Transition.Runs

/-!
The commit point of a node. It only grows, a primary never moves it to an optime from before
its own term, and when member progress moves it, a write majority of data-bearing voters has
reached it. What carries this is that an arbiter's recorded optime never passes the commit
point, so that an arbiter is never among those counted for a new one.
-/
namespace MongoServer.ReplicationCoordinator
open List MemberConfig OpTime

open Transition

variable (cfg : ReplSetConfig) (self : ℕ) (P : OpTime → Prop) {t : OpTime}

/-- Distinct voters that bear data and are recorded at or beyond an optime. -/
def HeldByWriteMajority (slaveInfo : List SlaveInfo) (t : OpTime) : Prop :=
  ∃ M : List MemberConfig, M.Nodup ∧ cfg.writeMajority ≤ M.length ∧
    ∀ m ∈ M, m ∈ cfg.members ∧ m.isVoter = true ∧ m.isArbiter = false ∧
      ∃ sI ∈ slaveInfo, sI.memberId = m.id ∧ t ≤ countedOpTime cfg sI

/-- Why a change of the commit point was right. -/
structure Justified (a : Advance) : Prop where
  grows : a.before < a.after
  ownTerm : a.memberState = .primary → ¬a.after < a.firstOpTimeOfMyTerm
  majority : a.source = .memberProgress → HeldByWriteMajority cfg a.slaveInfo a.after

/-- The recorded optimes of arbiters stay at or below the commit point. -/
def ArbitersBehind (slaveInfo : List SlaveInfo) (committed : OpTime) : Prop :=
  ∀ sI ∈ slaveInfo, ∀ m ∈ cfg.members, m.id = sI.memberId → m.isArbiter = true →
    sI.lastAppliedOpTime ≤ committed ∧ sI.lastDurableOpTime ≤ committed

structure Tracked (s : ReplicationCoordinator) : Prop where
  ids : s.slaveInfo.map SlaveInfo.memberId = cfg.members.map MemberConfig.id
  recorded : ∀ sI ∈ s.slaveInfo, P sI.lastAppliedOpTime ∧ P sI.lastDurableOpTime
  committed : P s.lastCommittedOpTime
  arbiters : ArbitersBehind cfg s.slaveInfo s.lastCommittedOpTime
  advances : ∀ a ∈ s.advances, Justified cfg a

variable {cfg self P} {s s' : ReplicationCoordinator}

section Results

structure SameProgress (s s' : ReplicationCoordinator) : Prop where
  memberState : s'.memberState = s.memberState
  slaveInfo : s'.slaveInfo = s.slaveInfo
  lastCommitted : s'.lastCommittedOpTime = s.lastCommittedOpTime
  advances : s'.advances = s.advances

theorem updateCommittedSnapshot_progress {x : SnapshotInfo}
    (h : updateCommittedSnapshot x s = .ok s') :
    s' = { s with currentCommittedSnapshot := some x } := by
  simp only [updateCommittedSnapshot, bind_eq_ok] at h
  obtain ⟨_, _, _, _, _, _, _, _, h⟩ := h
  exact (Except.ok.inj h).symm

theorem blessSnapshots_progress (h : blessSnapshots t s = .ok s') : SameProgress s s' := by
  rw [blessSnapshots] at h
  split at h
  · cases h
    exact ⟨rfl, rfl, rfl, rfl⟩
  · rw [updateCommittedSnapshot_progress h]
    exact ⟨rfl, rfl, rfl, rfl⟩

theorem createSnapshot_progress {name : SnapshotName} (h : createSnapshot t name s = .ok s') :
    SameProgress s s' := by
  simp only [createSnapshot] at h
  split_ifs at h
  · obtain ⟨_, _, h⟩ := bind_eq_ok.mp h
    rw [updateCommittedSnapshot_progress h]
    exact ⟨rfl, rfl, rfl, rfl⟩
  · obtain ⟨_, _, rfl⟩ := bind_pure_eq_ok.mp h
    exact ⟨rfl, rfl, rfl, rfl⟩

theorem updateMemberState_progress {st : MemberState} (h : updateMemberState st s = .ok s') :
    s'.slaveInfo = s.slaveInfo ∧ s'.lastCommittedOpTime = s.lastCommittedOpTime ∧
      s'.advances = s.advances := by
  simp only [updateMemberState] at h
  split_ifs at h
  · cases h
    exact ⟨rfl, rfl, rfl⟩
  all_goals
    obtain ⟨_, _, rfl⟩ := bind_pure_eq_ok.mp h
    exact ⟨rfl, rfl, rfl⟩

end Results

section Advance

/-- What an advance of the commit point does: nothing, or a move that is recorded. -/
theorem advanceCommitPoint_cases {source : CommitSource}
    (h : advanceCommitPoint self source t s = .ok s') :
    s' = s ∨ (s.lastCommittedOpTime < t ∧ (s.memberState = .primary → ¬t < s.firstOpTimeOfMyTerm) ∧
        s'.lastCommittedOpTime = t ∧
        s'.advances = s.advances ++ [⟨source, s.lastCommittedOpTime, t, s.memberState,
          s.firstOpTimeOfMyTerm, s.slaveInfo⟩] ∧
        (s'.slaveInfo = s.slaveInfo ∨ s'.slaveInfo = (s.storeApplied self t).slaveInfo)) := by
  simp only [advanceCommitPoint] at h
  split_ifs at h with hsame hlt hterm
  · exact .inl (Except.ok.inj h).symm
  · exact .inl (Except.ok.inj h).symm
  · exact .inl (Except.ok.inj h).symm
  · obtain ⟨stored, hstored, h⟩ := bind_eq_ok.mp h
    have hgrows : s.lastCommittedOpTime < t := by
      rw [lt_iff_not_le, le_def]
      exact fun hle => hle.elim hlt hsame
    have hown : s.memberState = .primary → ¬t < s.firstOpTimeOfMyTerm :=
      fun hprimary hbefore => hterm ⟨hprimary, hbefore⟩
    have hkeep := blessSnapshots_progress h
    refine .inr ⟨hgrows, hown, hkeep.lastCommitted, hkeep.advances, ?_⟩
    rw [hkeep.slaveInfo]
    rw [followCommitPoint] at hstored
    split_ifs at hstored
    · obtain ⟨_, _, rfl⟩ := bind_pure_eq_ok.mp hstored
      exact .inr rfl
    · cases hstored
      exact .inl rfl

end Advance

section Majority
variable {pairs : List (MemberConfig × SlaveInfo)}

theorem zip_ids {slaveInfo : List SlaveInfo}
    (hids : slaveInfo.map SlaveInfo.memberId = cfg.members.map MemberConfig.id)
    {p : MemberConfig × SlaveInfo} (hp : p ∈ cfg.members.zip slaveInfo) :
    p.2.memberId = p.1.id := by
  obtain ⟨i, hi, rfl⟩ := mem_iff_getElem.mp hp
  have hget := congrArg (fun l => l[i]?) hids
  simp only [length_zip, lt_min_iff] at hi
  simpa [hi.1, hi.2] using hget

/-- With one record for each member, in order, the voters' optimes are read off the pairs. -/
theorem votingNodesOpTimes_pairs (hmem : ∀ p ∈ pairs, p.1 ∈ cfg.members)
    (hid : ∀ p ∈ pairs, p.2.memberId = p.1.id) :
    votingNodesOpTimes cfg (pairs.map Prod.snd) =
      .ok ((pairs.filter fun p => p.1.isVoter).map fun p => countedOpTime cfg p.2) := by
  induction pairs with
  | nil => rfl
  | cons p pairs ih =>
    have hfind : cfg.findMemberByID p.2.memberId = some p.1 := by
      rw [hid p mem_cons_self]
      exact cfg.findMemberByID_mem (hmem p mem_cons_self)
    have hrest := ih (forall_mem_cons.mp hmem).2 (forall_mem_cons.mp hid).2
    simp only [map_cons, votingNodesOpTimes, hfind, hrest, filter_cons]
    cases p.1.isVoter <;> rfl

theorem held_of_countP {slaveInfo : List SlaveInfo}
    (hids : slaveInfo.map SlaveInfo.memberId = cfg.members.map MemberConfig.id)
    (harbiter : ∀ sI ∈ slaveInfo, ∀ m ∈ cfg.members, m.id = sI.memberId → m.isArbiter = true →
      ¬t ≤ countedOpTime cfg sI)
    (hcount : cfg.writeMajority ≤ (((cfg.members.zip slaveInfo).filter fun p => p.1.isVoter).map
      fun p => countedOpTime cfg p.2).countP fun x => decide (t ≤ x)) :
    HeldByWriteMajority cfg slaveInfo t := by
  have hlen : cfg.members.length = slaveInfo.length := by
    simpa using (congrArg length hids).symm
  refine ⟨((cfg.members.zip slaveInfo).filter fun p =>
    p.1.isVoter && decide (t ≤ countedOpTime cfg p.2)).map Prod.fst, ?_, ?_, ?_⟩
  · have hsub := (filter_sublist (l := cfg.members.zip slaveInfo) (p := fun p =>
      p.1.isVoter && decide (t ≤ countedOpTime cfg p.2))).map Prod.fst
    rw [map_fst_zip hlen.le] at hsub
    exact hsub.nodup cfg.members_nodup
  · rw [countP_map, countP_filter] at hcount
    rw [length_map, ← countP_eq_length_filter]
    refine hcount.trans (le_of_eq (countP_congr fun p _ => ?_))
    simp [and_comm]
  · intro m hm
    obtain ⟨⟨m', sI⟩, hp, rfl⟩ := mem_map.mp hm
    obtain ⟨hzip, hpass⟩ := mem_filter.mp hp
    rw [Bool.and_eq_true, decide_eq_true_eq] at hpass
    obtain ⟨hvoter, hreached⟩ := hpass
    have hmem := (of_mem_zip hzip).1
    have hsI := (of_mem_zip hzip).2
    have hid : sI.memberId = m'.id := zip_ids hids hzip
    refine ⟨hmem, hvoter, ?_, sI, hsI, hid, hreached⟩
    by_contra harb
    exact harbiter sI hsI m' hmem hid.symm (by simpa using harb) hreached

end Majority

section Kept

/-- What every critical section keeps: the account, and a commit point that does not fall. -/
structure Kept (cfg : ReplSetConfig) (P : OpTime → Prop) (s s' : ReplicationCoordinator) : Prop where
  tracked : Tracked cfg P s'
  grows : s.lastCommittedOpTime ≤ s'.lastCommittedOpTime

theorem Kept.refl (h : Tracked cfg P s) : Kept cfg P s s :=
  ⟨h, le_refl _⟩

theorem Tracked.of_ok (h : Tracked cfg P s)
    (hrun : Except.ok s = (.ok s' : Except FailedInvariant _)) : Kept cfg P s s' := by
  cases hrun
  exact Kept.refl h

theorem Kept.trans {s'' : ReplicationCoordinator} (hP : OpTime.Comparable P) (hs : Tracked cfg P s)
    (h : Kept cfg P s s') (h' : Kept cfg P s' s'') : Kept cfg P s s'' :=
  ⟨h'.tracked, hP.trans hs.committed h.tracked.committed h'.tracked.committed h.grows h'.grows⟩

theorem Tracked.of_same (h : Tracked cfg P s) (hslave : s'.slaveInfo = s.slaveInfo)
    (hcommitted : s'.lastCommittedOpTime = s.lastCommittedOpTime)
    (hadvances : s'.advances = s.advances) : Kept cfg P s s' := by
  constructor
  · exact ⟨hslave ▸ h.ids, hslave ▸ h.recorded, hcommitted ▸ h.committed,
      hslave ▸ hcommitted ▸ h.arbiters, hadvances ▸ h.advances⟩
  · rw [hcommitted]
    exact le_refl _

/-- What may be recorded for a member: an optime that can be compared, and for an arbiter one
that is committed. -/
def Reportable (cfg : ReplSetConfig) (P : OpTime → Prop) (s : ReplicationCoordinator) (index : ℕ)
    (o : OpTime) : Prop :=
  P o ∧ ∀ m ∈ cfg.members[index]?, m.isArbiter = true → o ≤ s.lastCommittedOpTime

variable {index : ℕ} {o : OpTime}

theorem Reportable.mono (hP : OpTime.Comparable P) (hs : Tracked cfg P s)
    (h : Reportable cfg P s index o) (hkept : Kept cfg P s s') : Reportable cfg P s' index o :=
  ⟨h.1, fun m hm harb => hP.trans h.1 hs.committed hkept.tracked.committed (h.2 m hm harb)
    hkept.grows⟩

theorem Tracked.modify (h : Tracked cfg P s) {f : SlaveInfo → SlaveInfo}
    (hid : ∀ sI, (f sI).memberId = sI.memberId)
    (happlied : ∀ sI, (f sI).lastAppliedOpTime = sI.lastAppliedOpTime ∨ (f sI).lastAppliedOpTime = o)
    (hdurable : ∀ sI, (f sI).lastDurableOpTime = sI.lastDurableOpTime ∨ (f sI).lastDurableOpTime = o)
    (ho : Reportable cfg P s index o) :
    Tracked cfg P { s with slaveInfo := s.slaveInfo.modify index f } := by
  have hold : ∀ sI ∈ s.slaveInfo.modify index f, sI ∈ s.slaveInfo ∨
      ∃ old, s.slaveInfo[index]? = some old ∧ sI = f old := by
    intro sI hsI
    obtain ⟨i, hi⟩ := mem_iff_getElem?.mp hsI
    rw [getElem?_modify] at hi
    obtain ⟨old, hget, hold⟩ := Option.map_eq_some_iff.mp hi
    split_ifs at hold with heq
    · subst heq
      exact .inr ⟨old, hget, hold.symm⟩
    · exact .inl (hold ▸ mem_of_getElem? hget)
  have hboth (Q : OpTime → Prop) (sI : SlaveInfo)
      (hsI : Q sI.lastAppliedOpTime ∧ Q sI.lastDurableOpTime) (ho : Q o) :
      Q (f sI).lastAppliedOpTime ∧ Q (f sI).lastDurableOpTime := by
    constructor
    · exact (happlied sI).elim (· ▸ hsI.1) (· ▸ ho)
    · exact (hdurable sI).elim (· ▸ hsI.2) (· ▸ ho)
  refine ⟨?_, ?_, h.committed, ?_, h.advances⟩
  · rw [← h.ids]
    refine ext_getElem? fun i => ?_
    rw [getElem?_map, getElem?_map, getElem?_modify]
    cases s.slaveInfo[i]? with
    | none => rfl
    | some sI => by_cases heq : index = i <;> simp [heq, hid]
  · intro sI hsI
    rcases hold sI hsI with hsI | ⟨old, hget, rfl⟩
    · exact h.recorded sI hsI
    · exact hboth P old (h.recorded old (mem_of_getElem? hget)) ho.1
  · intro sI hsI m hm hmid harb
    rcases hold sI hsI with hsI | ⟨old, hget, rfl⟩
    · exact h.arbiters sI hsI m hm hmid harb
    · rw [hid] at hmid
      have hat : cfg.members[index]? = some m := by
        have hids := congrArg (fun l => l[index]?) h.ids
        simp only [getElem?_map, hget, Option.map_some] at hids
        obtain ⟨m', hm', hm'id⟩ := Option.map_eq_some_iff.mp hids.symm
        rw [hm', cfg.eq_of_id_eq (mem_of_getElem? hm') hm (hm'id.trans hmid.symm)]
      exact hboth (· ≤ _) old (h.arbiters old (mem_of_getElem? hget) m hm hmid harb)
        (ho.2 m hat harb)

theorem Tracked.storeApplied (h : Tracked cfg P s) (ho : Reportable cfg P s index o) :
    Tracked cfg P (s.storeApplied index o) :=
  h.modify (fun _ => rfl) (fun _ => .inr rfl) (fun _ => .inl rfl) ho

theorem Tracked.storeDurable (h : Tracked cfg P s) (ho : Reportable cfg P s index o) :
    Tracked cfg P (s.storeDurable index o) :=
  h.modify (fun _ => rfl) (fun _ => .inl rfl) (fun _ => .inr rfl) ho

protected theorem Tracked.advanceCommitPoint (hP : OpTime.Comparable P) (h : Tracked cfg P s)
    {source : CommitSource} (ht : P t)
    (hheld : source = .memberProgress → s.lastCommittedOpTime < t →
      HeldByWriteMajority cfg s.slaveInfo t)
    (hrun : advanceCommitPoint self source t s = .ok s') :
    Kept cfg P s s' := by
  rcases advanceCommitPoint_cases hrun with
    rfl | ⟨hgrows, hown, hcommitted, hadvances, hslave⟩
  · exact Kept.refl h
  · -- Arbiters behind the old commit point are behind the new one.
    have hmoved : Tracked cfg P { s with lastCommittedOpTime := t } := by
      refine { h with committed := ht, arbiters := fun sI hsI m hm hmid harb => ?_ }
      have hrec := h.recorded sI hsI
      have hbehind := h.arbiters sI hsI m hm hmid harb
      exact ⟨hP.trans hrec.1 h.committed ht hbehind.1 (le_of_lt hgrows),
        hP.trans hrec.2 h.committed ht hbehind.2 (le_of_lt hgrows)⟩
    have hself : Reportable cfg P { s with lastCommittedOpTime := t } self t :=
      ⟨ht, fun _ _ _ => le_refl t⟩
    have hstored := hmoved.storeApplied hself
    have hjust : ∀ a ∈ s'.advances, Justified cfg a := by
      rw [hadvances]
      exact forall_mem_append.mpr ⟨h.advances,
        forall_mem_singleton.mpr ⟨hgrows, hown, fun hsource => hheld hsource hgrows⟩⟩
    refine ⟨?_, by rw [hcommitted]; exact le_of_lt hgrows⟩
    rcases hslave with hslave | hslave
    · exact ⟨hslave ▸ h.ids, hslave ▸ h.recorded, hcommitted ▸ ht,
        hslave ▸ hcommitted ▸ hmoved.arbiters, hjust⟩
    · exact ⟨hslave ▸ hstored.ids, hslave ▸ hstored.recorded, hcommitted ▸ ht,
        hslave ▸ hcommitted ▸ hstored.arbiters, hjust⟩

/-- A computation of the commit point does nothing, or advances it to the optime that a write
majority of the voters has reached. -/
theorem updateLastCommittedOpTime_cases (hrun : updateLastCommittedOpTime cfg self s = .ok s') :
    s' = s ∨ ∃ opTimes t, votingNodesOpTimes cfg s.slaveInfo = .ok opTimes ∧
      cfg.writeMajority ≤ opTimes.length ∧
      (opTimes.insertionSort (· ≤ ·))[opTimes.length - cfg.writeMajority]? = some t ∧
      advanceCommitPoint self .memberProgress t s = .ok s' := by
  unfold updateLastCommittedOpTime at hrun
  split_ifs at hrun
  · exact .inl (Except.ok.inj hrun).symm
  · obtain ⟨opTimes, hopTimes, hrun⟩ := bind_eq_ok.mp hrun
    obtain ⟨_, _, hrun⟩ := bind_eq_ok.mp hrun
    split_ifs at hrun with hshort
    · exact .inl (Except.ok.inj hrun).symm
    · simp only [length_insertionSort] at hrun
      split at hrun
      · exact .inl (Except.ok.inj hrun).symm
      · next t ht => exact .inr ⟨opTimes, t, hopTimes, Nat.le_of_not_lt hshort, ht, hrun⟩

protected theorem Tracked.countedOpTime (h : Tracked cfg P s) {sI : SlaveInfo} (hsI : sI ∈ s.slaveInfo) :
    P (countedOpTime cfg sI) ∧ ∀ m ∈ cfg.members, m.id = sI.memberId → m.isArbiter = true →
      countedOpTime cfg sI ≤ s.lastCommittedOpTime := by
  have hrec := h.recorded sI hsI
  unfold countedOpTime
  split_ifs
  · exact ⟨hrec.2, fun m hm hmid harb => (h.arbiters sI hsI m hm hmid harb).2⟩
  · exact ⟨hrec.1, fun m hm hmid harb => (h.arbiters sI hsI m hm hmid harb).1⟩

section
variable (hP : OpTime.Comparable P)
include hP

section
variable (h : Tracked cfg P s)
include h

namespace Tracked

protected theorem updateLastCommittedOpTime
    (hrun : updateLastCommittedOpTime cfg self s = .ok s') : Kept cfg P s s' := by
  have hlen : cfg.members.length = s.slaveInfo.length := by
    simpa using (congrArg length h.ids).symm
  have hvotes : votingNodesOpTimes cfg ((cfg.members.zip s.slaveInfo).map Prod.snd) = _ :=
    votingNodesOpTimes_pairs (fun p hp => (of_mem_zip hp).1) (fun p hp => zip_ids h.ids hp)
  rw [map_snd_zip hlen.ge] at hvotes
  rcases updateLastCommittedOpTime_cases hrun with rfl | ⟨opTimes, t, hopTimes, hlong, ht, hadvance⟩
  · exact Kept.refl h
  · obtain rfl := Except.ok.inj (hvotes.symm.trans hopTimes)
    have hall : ∀ o ∈ ((cfg.members.zip s.slaveInfo).filter fun p => p.1.isVoter).map
        (fun p => countedOpTime cfg p.2), P o :=
      forall_mem_map.mpr fun p hp => (h.countedOpTime (of_mem_zip (mem_filter.mp hp).1).2).1
    have hsorted := Quorum.pairwise_insertionSort_on (P := P) le_total
      (fun a b c ha hb hc => hP.trans ha hb hc) hall
    have htP : P t := hall t ((mem_insertionSort _).mp (mem_of_getElem? ht))
    refine h.advanceCommitPoint hP htP (fun _ hgrows => ?_) hadvance
    refine held_of_countP h.ids (fun sI hsI m hm hmid harb hreached => ?_) ?_
    · -- An arbiter's optime is committed already, and the new one lies beyond.
      obtain ⟨hcounted, hbehind⟩ := h.countedOpTime hsI
      exact lt_iff_not_le.mp hgrows
        (hP.trans htP hcounted h.committed hreached (hbehind m hm hmid harb))
    · rw [← (perm_insertionSort (· ≤ ·) _).countP_eq]
      refine Quorum.le_countP_of_pairwise hsorted le_refl ?_ ?_
      · rw [length_insertionSort]
        exact hlong
      · rw [length_insertionSort]
        exact ht

protected theorem updateSlaveInfoAppliedOpTime (ho : Reportable cfg P s index o)
    (hrun : updateSlaveInfoAppliedOpTime cfg self index o s = .ok s') : Kept cfg P s s' :=
  have hkept := (h.storeApplied ho).updateLastCommittedOpTime hP hrun
  ⟨hkept.tracked, hkept.grows⟩

protected theorem updateSlaveInfoDurableOpTime (ho : Reportable cfg P s index o)
    (hrun : updateSlaveInfoDurableOpTime cfg self index o s = .ok s') : Kept cfg P s s' := by
  unfold updateSlaveInfoDurableOpTime at hrun
  split at hrun
  · exact h.of_ok hrun
  · split_ifs at hrun
    · exact h.of_ok hrun
    · have hkept := (h.storeDurable ho).updateLastCommittedOpTime hP hrun
      exact ⟨hkept.tracked, hkept.grows⟩

protected theorem recordProgress {applied durable : OpTime}
    (happlied : Reportable cfg P s index applied) (hdurable : Reportable cfg P s index durable)
    (hrun : recordProgress cfg self index applied durable s = .ok s') : Kept cfg P s s' := by
  unfold recordProgress at hrun
  split at hrun
  · exact h.of_ok hrun
  · obtain ⟨s₁, hfirst, hsecond⟩ := bind_eq_ok.mp hrun
    have hkept₁ : Kept cfg P s s₁ := by
      split_ifs at hfirst
      · exact h.updateSlaveInfoAppliedOpTime hP happlied hfirst
      · exact h.of_ok hfirst
    refine hkept₁.trans hP h ?_
    split_ifs at hsecond
    · exact hkept₁.tracked.updateSlaveInfoDurableOpTime hP (hdurable.mono hP h hkept₁) hsecond
    · exact hkept₁.tracked.of_ok hsecond

protected theorem setMyLastAppliedOpTime {allowed : Bool} (ho : Reportable cfg P s self o)
    (hrun : setMyLastAppliedOpTime cfg self o allowed s = .ok s') : Kept cfg P s s' := by
  obtain ⟨_, _, hrun⟩ := bind_eq_ok.mp hrun
  exact h.updateSlaveInfoAppliedOpTime hP ho hrun

protected theorem setMyLastDurableOpTime {allowed : Bool} (ho : Reportable cfg P s self o)
    (hrun : setMyLastDurableOpTime cfg self o allowed s = .ok s') : Kept cfg P s s' := by
  obtain ⟨_, _, hrun⟩ := bind_eq_ok.mp hrun
  split_ifs at hrun
  · exact h.of_ok hrun
  · exact h.updateSlaveInfoDurableOpTime hP ho hrun

end Tracked

end

end

end Kept

section Runs

def indexOf (cfg : ReplSetConfig) (memberId : ℤ) : ℕ :=
  cfg.members.findIdx fun m => m.id == memberId

/-- An event that reports only optimes that can be compared, and committed ones for arbiters. -/
def Event.Reports (cfg : ReplSetConfig) (self : ℕ) (P : OpTime → Prop)
    (s : ReplicationCoordinator) : Event → Prop
  | .setLastOptime args =>
      Reportable cfg P s (indexOf cfg args.memberId) args.appliedOpTime ∧
        Reportable cfg P s (indexOf cfg args.memberId) args.durableOpTime
  | .setLastOptimeOld ts _ memberId => Reportable cfg P s (indexOf cfg memberId) ts
  | .heartbeat i durable applied => Reportable cfg P s i applied ∧ Reportable cfg P s i durable
  | .setMyLastAppliedOpTime o => Reportable cfg P s self o
  | .setMyLastDurableOpTime o => Reportable cfg P s self o
  | .setMyLastAppliedOpTimeForward o => Reportable cfg P s self o
  | .setMyLastDurableOpTimeForward o => Reportable cfg P s self o
  | .advanceCommitPoint o => P o
  | _ => True

theorem findIdx_slaveInfo (h : Tracked cfg P s) {memberId : ℤ} {index : ℕ}
    (hfind : s.slaveInfo.findIdx? (fun sI => sI.memberId == memberId) = some index) :
    index = indexOf cfg memberId := by
  have hslave : s.slaveInfo.findIdx (fun sI => sI.memberId == memberId) = index :=
    (findIdx?_eq_some_iff_findIdx_eq.mp hfind).2
  have hids : (s.slaveInfo.map SlaveInfo.memberId).findIdx (· == memberId) =
      (cfg.members.map MemberConfig.id).findIdx (· == memberId) := by
    rw [h.ids]
  rw [findIdx_map, findIdx_map] at hids
  rw [← hslave]
  exact hids

protected theorem Tracked.setLastOptime (hP : OpTime.Comparable P) (h : Tracked cfg P s) (args : UpdateInfo)
    (happlied : Reportable cfg P s (indexOf cfg args.memberId) args.appliedOpTime)
    (hdurable : Reportable cfg P s (indexOf cfg args.memberId) args.durableOpTime)
    (hrun : (setLastOptime cfg self args s).map Prod.fst = .ok s') :
    Kept cfg P s s' := by
  unfold setLastOptime at hrun
  split_ifs at hrun
  · exact h.of_ok hrun
  · exact h.of_ok hrun
  · exact h.of_ok hrun
  · split at hrun
    · obtain ⟨r, hr, rfl⟩ := map_eq_ok.mp hrun
      obtain ⟨_, _, hr⟩ := bind_eq_ok.mp hr
      exact Except.ok.inj hr ▸ Kept.refl h
    · next index hfind =>
      obtain ⟨r, hr, rfl⟩ := map_eq_ok.mp hrun
      obtain ⟨s₁, hrecord, rfl⟩ := bind_pure_eq_ok.mp hr
      rw [← findIdx_slaveInfo h hfind] at happlied hdurable
      exact h.recordProgress hP happlied hdurable hrecord

protected theorem Tracked.step (hP : OpTime.Comparable P) (hnull : P .null) (h : Tracked cfg P s)
    {e : Event} (he : e.Reports cfg self P s)
    (hrun : step cfg self s e = .ok s') : Kept cfg P s s' := by
  have hreset : ∀ (s : ReplicationCoordinator) (index : ℕ), Reportable cfg P s index .null :=
    fun s _ => ⟨hnull, fun _ _ _ => null_le s.lastCommittedOpTime⟩
  cases e with
  | setLastOptime args => exact h.setLastOptime hP args he.1 he.2 hrun
  | setLastOptimeOld ts cfgver memberId => exact h.setLastOptime hP ⟨ts, ts, cfgver, memberId⟩ he he hrun
  | heartbeat i durable applied => exact h.recordProgress hP he.1 he.2 hrun
  | setMyLastAppliedOpTime o => exact h.setMyLastAppliedOpTime hP he hrun
  | setMyLastDurableOpTime o => exact h.setMyLastDurableOpTime hP he hrun
  | setMyLastAppliedOpTimeForward o =>
    simp only [step, setMyLastAppliedOpTimeForward] at hrun
    split_ifs at hrun
    · exact h.of_ok hrun
    · obtain ⟨_, _, hrun⟩ := bind_eq_ok.mp hrun
      exact h.of_ok hrun
    · exact h.setMyLastAppliedOpTime hP he hrun
  | setMyLastDurableOpTimeForward o =>
    simp only [step, setMyLastDurableOpTimeForward] at hrun
    split_ifs at hrun
    · exact h.of_ok hrun
    · exact h.setMyLastDurableOpTime hP he hrun
  | resetMyLastOpTimes =>
    obtain ⟨s₁, hfirst, hsecond⟩ := bind_eq_ok.mp hrun
    have hkept₁ := h.setMyLastAppliedOpTime hP (hreset s self) hfirst
    exact hkept₁.trans hP h (hkept₁.tracked.setMyLastDurableOpTime hP (hreset s₁ self) hsecond)
  | advanceCommitPoint o => exact h.advanceCommitPoint hP he (by simp) hrun
  | setFirstOpTimeOfMyTerm o | stepDownStart | dropAllSnapshots =>
    exact Except.ok.inj hrun ▸ h.of_same rfl rfl rfl
  | updateLastCommittedOpTime => exact h.updateLastCommittedOpTime hP hrun
  | updateMemberState newState =>
    obtain ⟨hslave, hcommitted, hadvances⟩ := updateMemberState_progress hrun
    exact h.of_same hslave hcommitted hadvances
  | createSnapshot t name =>
    have hkeep := createSnapshot_progress hrun
    exact h.of_same hkeep.slaveInfo hkeep.lastCommitted hkeep.advances

theorem tracked_init (hnull : P .null) (st : MemberState) : Tracked cfg P (init cfg st) := by
  refine ⟨?_, ?_, hnull, ?_, by simp [init]⟩
  · simp [init, Function.comp_def]
  · exact forall_mem_map.mpr fun _ _ => ⟨hnull, hnull⟩
  · exact forall_mem_map.mpr fun _ _ _ _ _ _ => ⟨le_refl _, le_refl _⟩

/-- The machine of the critical sections; a failed invariant stops the node. -/
def machine (cfg : ReplSetConfig) (self : ℕ) (s : ReplicationCoordinator) (e : Event) :
    Option ReplicationCoordinator :=
  (step cfg self s e).toOption

theorem machine_eq_some {e : Event} : machine cfg self s e = some s' ↔ step cfg self s e = .ok s' := by
  unfold machine
  cases step cfg self s e <;> simp [Except.toOption]

theorem Tracked.run (hP : OpTime.Comparable P) (hnull : P .null) (h : Tracked cfg P s)
    (hrun : Steps (machine cfg self) (Event.Reports cfg self P) s s') : Kept cfg P s s' :=
  hrun.invariant (Kept.refl h) fun _ _ _ hkept he hstep =>
    hkept.trans hP h (hkept.tracked.step hP hnull he (machine_eq_some.mp hstep))

/-- The commit point only grows, stays within a primary's own term, and member progress moves
it only to optimes that a write majority of data-bearing voters has reached. -/
theorem commit_point_safe (cfg : ReplSetConfig) (self : ℕ) (P : OpTime → Prop)
    (hP : OpTime.Comparable P) (hnull : P .null) (st : MemberState) (s s' : ReplicationCoordinator)
    (hs : Steps (machine cfg self) (Event.Reports cfg self P) (init cfg st) s)
    (hs' : Steps (machine cfg self) (Event.Reports cfg self P) s s') :
    s.lastCommittedOpTime ≤ s'.lastCommittedOpTime ∧ ∀ a ∈ s'.advances, a.before < a.after ∧
        (a.memberState = .primary → ¬a.after < a.firstOpTimeOfMyTerm) ∧
        (a.source = .memberProgress → HeldByWriteMajority cfg a.slaveInfo a.after) := by
  have hinit : Tracked cfg P (init cfg st) := tracked_init hnull st
  have hstart := hinit.run hP hnull hs
  have hkept := hstart.tracked.run hP hnull hs'
  refine ⟨hkept.grows, fun a ha => ?_⟩
  have hjust := hkept.tracked.advances a ha
  exact ⟨hjust.grows, hjust.ownTerm, hjust.majority⟩

section Decidable
variable [DecidablePred P]

instance (index : ℕ) (o : OpTime) : Decidable (Reportable cfg P s index o) :=
  inferInstanceAs (Decidable (_ ∧ _))

instance (e : Event) : Decidable (e.Reports cfg self P s) :=
  match e with
  | .setLastOptime _ => inferInstanceAs (Decidable (_ ∧ _))
  | .setLastOptimeOld _ _ _ => inferInstanceAs (Decidable (Reportable _ _ _ _ _))
  | .heartbeat _ _ _ => inferInstanceAs (Decidable (_ ∧ _))
  | .setMyLastAppliedOpTime _ => inferInstanceAs (Decidable (Reportable _ _ _ _ _))
  | .setMyLastDurableOpTime _ => inferInstanceAs (Decidable (Reportable _ _ _ _ _))
  | .setMyLastAppliedOpTimeForward _ => inferInstanceAs (Decidable (Reportable _ _ _ _ _))
  | .setMyLastDurableOpTimeForward _ => inferInstanceAs (Decidable (Reportable _ _ _ _ _))
  | .advanceCommitPoint o => inferInstanceAs (Decidable (P o))
  | .resetMyLastOpTimes => .isTrue trivial
  | .setFirstOpTimeOfMyTerm _ => .isTrue trivial
  | .updateLastCommittedOpTime => .isTrue trivial
  | .stepDownStart => .isTrue trivial
  | .updateMemberState _ => .isTrue trivial
  | .createSnapshot _ _ => .isTrue trivial
  | .dropAllSnapshots => .isTrue trivial

end Decidable

/-- Two data-bearing members and an arbiter; commits do not wait for the journal. -/
def withArbiter : ReplSetConfig where
  replSetName := "rs"
  configVersion := 1
  members := [.electing 0, .electing 1, ⟨2, 1, 0, true, by decide, by decide, by decide⟩]
  writeConcernMajorityShouldJournal := false
  ids_nodup := by decide
  electable := by decide

theorem commit_point_safe_withArbiter :
    ∃ s, Steps (machine withArbiter 0) (Event.Reports withArbiter 0 OpTime.ProtocolVersion1)
        (init withArbiter .secondary) s ∧ s.lastCommittedOpTime = ⟨⟨7, 1⟩, 1⟩ ∧
      ∀ a ∈ s.advances, a.before < a.after ∧
        (a.memberState = .primary → ¬a.after < a.firstOpTimeOfMyTerm) ∧
        (a.source = .memberProgress → HeldByWriteMajority withArbiter a.slaveInfo a.after) := by
  have hrun : Steps (machine withArbiter 0) (Event.Reports withArbiter 0 OpTime.ProtocolVersion1)
      (init withArbiter .secondary) _ := Steps.of_runGuarded [.updateMemberState .primary,
        .setFirstOpTimeOfMyTerm ⟨⟨7, 1⟩, 1⟩, .setMyLastAppliedOpTime ⟨⟨7, 1⟩, 1⟩,
        .setLastOptime ⟨.null, ⟨⟨7, 1⟩, 1⟩, 1, 1⟩] rfl
  exact ⟨_, hrun, rfl, (commit_point_safe withArbiter 0 OpTime.ProtocolVersion1
    comparable_protocolVersion1 (.inl rfl) .secondary _ _ hrun (Steps.refl _)).2⟩

/-- After a change of the protocol version a committed arbiter can compare above a new optime:
the commit point then moves to an optime that only the primary has. -/
theorem commit_point_mixed_protocols :
    ∃ s, Steps (machine withArbiter 0) (Event.Reports withArbiter 0 fun _ => True)
        (init withArbiter .secondary) s ∧
      ∃ a ∈ s.advances, a.source = .memberProgress ∧
        ¬HeldByWriteMajority withArbiter a.slaveInfo a.after := by
  have hrun : Steps (machine withArbiter 0) (Event.Reports withArbiter 0 fun _ => True)
      (init withArbiter .secondary) _ := Steps.of_runGuarded [.advanceCommitPoint ⟨⟨6, 0⟩, -1⟩,
        .setLastOptime ⟨.null, ⟨⟨5, 0⟩, 2⟩, 1, 2⟩, .updateMemberState .primary,
        .setMyLastAppliedOpTime ⟨⟨7, 0⟩, 1⟩] rfl
  refine ⟨_, hrun, _, mem_of_getElem? (i := 1) rfl, rfl, ?_⟩
  rintro ⟨M, hnodup, hlen, hM⟩
  have hall : ∀ m ∈ M, m.id = 0 := by
    intro m hm
    obtain ⟨hmem, -, harb, sI, hsI, hid, hreached⟩ := hM m hm
    have hrecords : ∀ sI ∈ [(⟨0, .null, ⟨⟨7, 0⟩, 1⟩⟩ : SlaveInfo), ⟨1, .null, .null⟩,
        ⟨2, .null, ⟨⟨5, 0⟩, 2⟩⟩], (⟨⟨7, 0⟩, 1⟩ : OpTime) ≤ sI.lastAppliedOpTime →
        sI.memberId = 0 ∨ sI.memberId = 2 := by decide
    have hdata : ∀ m ∈ withArbiter.members, m.isArbiter = false → m.id = 0 ∨ m.id = 1 := by decide
    have h := hrecords sI hsI hreached
    rcases hdata m hmem harb with h0 | h1
    · exact h0
    · omega
  have hids : (M.map MemberConfig.id).Nodup :=
    hnodup.map_on fun m hm m' hm' hid =>
      withArbiter.eq_of_id_eq (hM m hm).1 (hM m' hm').1 hid
  have hone : M.map MemberConfig.id = replicate M.length 0 := by
    rw [eq_replicate_iff]
    exact ⟨length_map _, by simpa using hall⟩
  rw [hone, nodup_replicate] at hids
  exact absurd (hlen.trans hids) (by decide)

end Runs
end MongoServer.ReplicationCoordinator
