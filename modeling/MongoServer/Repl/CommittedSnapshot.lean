import Mathlib.Data.List.TakeWhile
import MongoServer.Repl.CommitPointSafety

/-!
Which snapshot is the committed one. On a node that is not primary, the snapshots created
since the last drop are always the committed ones followed by the queue, so the committed
snapshot is the newest one at or before the commit point.
-/
namespace MongoServer.ReplicationCoordinator
open List OpTime

open Transition

/-- The calls that create, commit and drop snapshots. -/
inductive SnapshotCall where
  | createSnapshot (snapshot : SnapshotInfo)
  | advanceCommitPoint (committedOpTime : OpTime)
  | dropAllSnapshots

def SnapshotCall.toEvent : SnapshotCall → Event
  | .createSnapshot x => .createSnapshot x.opTime x.name
  | .advanceCommitPoint t => .advanceCommitPoint t
  | .dropAllSnapshots => .dropAllSnapshots

def runCalls (cfg : ReplSetConfig) (self : ℕ) (calls : List SnapshotCall)
    (s : ReplicationCoordinator) : Except FailedInvariant ReplicationCoordinator :=
  calls.foldlM (fun s call => step cfg self s call.toEvent) s

def created : List SnapshotCall → List SnapshotInfo
  | [] => []
  | .createSnapshot x :: rest => x :: created rest
  | _ :: rest => created rest

def createdSinceDrop (since : List SnapshotInfo) : List SnapshotCall → List SnapshotInfo
  | [] => since
  | .createSnapshot x :: rest => createdSinceDrop (since ++ [x]) rest
  | .advanceCommitPoint _ :: rest => createdSinceDrop since rest
  | .dropAllSnapshots :: rest => createdSinceDrop [] rest

/-- Snapshots are created in order, each with a newer name. -/
def Newer (a b : SnapshotInfo) : Prop := a < b ∧ a.name < b.name

instance : DecidableRel Newer := fun _ _ => inferInstanceAs (Decidable (_ ∧ _))

/-- The optimes of the calls can be compared, and no snapshot is taken at the null optime. -/
def SnapshotCall.Proper (P : OpTime → Prop) : SnapshotCall → Prop
  | .createSnapshot x => P x.opTime ∧ x.opTime.isNull = false
  | .advanceCommitPoint t => P t
  | .dropAllSnapshots => True

/-- The account of the snapshots: what was committed, then what waits. -/
structure Account (P : OpTime → Prop) (st : MemberState) (since older : List SnapshotInfo)
    (s : ReplicationCoordinator) : Prop where
  memberState : s.memberState = st
  committed : P s.lastCommittedOpTime
  split : since = older ++ s.uncommittedSnapshots
  proper : ∀ x ∈ since, P x.opTime ∧ x.opTime.isNull = false
  increasing : since.Pairwise Newer
  behind : ∀ x ∈ older, x.opTime ≤ s.lastCommittedOpTime
  ahead : ∀ x ∈ s.uncommittedSnapshots, s.lastCommittedOpTime < x.opTime
  current : s.currentCommittedSnapshot = older.getLast?

variable {P : OpTime → Prop} {st : MemberState}
  {since older : List SnapshotInfo} {s : ReplicationCoordinator} {x : SnapshotInfo} {t : OpTime}

theorem Newer.opTime_le {a b : SnapshotInfo} (h : Newer a b) : a.opTime ≤ b.opTime := by
  rcases SnapshotInfo.lt_def.mp h.1 with hlt | ⟨hnot, -⟩
  · exact le_of_lt hlt
  · exact le_iff_not_lt.mpr hnot

theorem updateCommittedSnapshot_ok (hnull : x.opTime.isNull = false)
    (hle : x.opTime ≤ s.lastCommittedOpTime)
    (hcurrent : ∀ c, s.currentCommittedSnapshot = some c → Newer c x)
    (hfront : ∀ y ∈ s.uncommittedSnapshots, Newer x y) :
    updateCommittedSnapshot x s = .ok { s with currentCommittedSnapshot := some x } := by
  have hcheck : checkCurrent x s.currentCommittedSnapshot = .ok () := by
    cases hc : s.currentCommittedSnapshot with
    | none => rfl
    | some c =>
      have hnewer := hcurrent c hc
      simp [checkCurrent, invariant, le_iff_not_lt.mp hnewer.opTime_le, hnewer.2, bind, Except.bind]
  have hqueue : checkFront x s.uncommittedSnapshots = .ok () := by
    cases hu : s.uncommittedSnapshots with
    | nil => rfl
    | cons front rest =>
      have hnewer := hfront front (hu ▸ mem_cons_self)
      simp [checkFront, invariant, hnewer.1]
  simp [updateCommittedSnapshot, invariant, hnull, hle, hcheck, hqueue, bind, Except.bind, pure,
    Except.pure]

protected theorem Account.createSnapshot (hP : OpTime.Comparable P) (h : Account P st since older s)
    (hx : P x.opTime ∧ x.opTime.isNull = false) (hnewer : ∀ y ∈ since, Newer y x) :
    ∃ s' older', createSnapshot x.opTime x.name s = .ok s' ∧
      Account P st (since ++ [x]) older' s' := by
  have hproper : ∀ y ∈ since ++ [x], P y.opTime ∧ y.opTime.isNull = false := by
    exact forall_mem_append.mpr ⟨h.proper, forall_mem_singleton.mpr hx⟩
  have hincreasing : (since ++ [x]).Pairwise Newer := by
    rw [pairwise_append]
    refine ⟨h.increasing, pairwise_singleton _ _, fun y hy z hz => ?_⟩
    exact mem_singleton.mp hz ▸ hnewer y hy
  unfold createSnapshot
  by_cases hle : x.opTime ≤ s.lastCommittedOpTime
  · have hempty : s.uncommittedSnapshots = [] := by
      refine eq_nil_iff_forall_not_mem.mpr fun y hy => ?_
      have hy' : y ∈ since := h.split ▸ mem_append_right _ hy
      exact lt_iff_not_le.mp (h.ahead y hy) (hP.trans (h.proper y hy').1 hx.1 h.committed
        (hnewer y hy').opTime_le hle)
    have hok := updateCommittedSnapshot_ok (s := s) hx.2 hle
      (fun c hc => hnewer c (h.split ▸ mem_append_left _
        (mem_of_getLast? (h.current ▸ hc)))) (by simp [hempty])
    refine ⟨_, older ++ [x], by simp [hle, hempty, invariant, bind, Except.bind]; exact hok, ?_⟩
    refine ⟨h.memberState, h.committed, ?_, hproper, hincreasing, ?_, by simp [hempty], by simp⟩
    · simp [h.split, hempty]
    · exact forall_mem_append.mpr ⟨h.behind, forall_mem_singleton.mpr hle⟩
  · have hback : checkBack x s.uncommittedSnapshots.getLast? = .ok () := by
      cases hlast : s.uncommittedSnapshots.getLast? with
      | none => rfl
      | some back =>
        have hback := hnewer back (h.split ▸ mem_append_right _ (mem_of_getLast? hlast))
        simp [checkBack, invariant, hback.1, hback.2, bind, Except.bind]
    refine ⟨_, older, by simp [hle, hback, bind, Except.bind]; rfl, ?_⟩
    refine { h with
      split := by simp [h.split], proper := hproper, increasing := hincreasing, ahead := ?_ }
    exact forall_mem_append.mpr ⟨h.ahead, forall_mem_singleton.mpr (lt_iff_not_le.mpr hle)⟩

theorem ready_iff :
    (!decide ((⟨t, SnapshotName.max⟩ : SnapshotInfo) < x)) = true ↔ x.opTime ≤ t := by
  have hmax : ¬SnapshotName.max < x.name := not_lt.mpr (Fin.le_last _)
  rw [Bool.not_eq_true', decide_eq_false_iff_not, SnapshotInfo.lt_def, le_iff_not_lt]
  simp [hmax]

theorem Account.lt_of_mem_drop (hP : OpTime.Comparable P) (h : Account P st since older s)
    (ht : P t) (hx : x ∈ s.uncommittedSnapshots.drop (s.ready t).length) : t < x.opTime := by
  have hproper : ∀ y ∈ s.uncommittedSnapshots, P y.opTime := fun y hy =>
    (h.proper y (h.split ▸ mem_append_right _ hy)).1
  have hincreasing : s.uncommittedSnapshots.Pairwise Newer :=
    (pairwise_append.mp (h.split ▸ h.increasing)).2.1
  unfold ready at hx
  generalize s.uncommittedSnapshots = queue at hx hproper hincreasing
  induction queue with
  | nil => simp at hx
  | cons y queue ih =>
    by_cases hy : y.opTime ≤ t
    · rw [takeWhile_cons, if_pos (ready_iff.mpr hy)] at hx
      exact ih hx (forall_mem_cons.mp hproper).2 hincreasing.of_cons
    · rw [takeWhile_cons, if_neg (mt ready_iff.mp hy)] at hx
      have hty : t < y.opTime := lt_iff_not_le.mpr hy
      rcases mem_cons.mp hx with rfl | hx
      · exact hty
      · have hyx := (rel_of_pairwise_cons hincreasing hx).opTime_le
        exact hP.lt_of_lt_of_le ht (hproper y mem_cons_self)
          (hproper x (mem_cons_of_mem _ hx)) hty hyx

theorem ready_append_drop (t : OpTime) (s : ReplicationCoordinator) :
    s.ready t ++ s.uncommittedSnapshots.drop (s.ready t).length = s.uncommittedSnapshots := by
  have htake : s.ready t = s.uncommittedSnapshots.take (s.ready t).length :=
    prefix_iff_eq_take.mp ( takeWhile_prefix _)
  nth_rewrite 1 [htake]
  exact take_append_drop _ _

/-- Once the commit point has moved, the snapshots it passed are committed. -/
protected theorem Account.blessSnapshots (hP : OpTime.Comparable P) (h : Account P st since older s)
    (ht : P t) (hgrows : s.lastCommittedOpTime < t) {s₁ : ReplicationCoordinator}
    (hstate : s₁.memberState = st) (hcommitted : s₁.lastCommittedOpTime = t)
    (hqueue : s₁.uncommittedSnapshots = s.uncommittedSnapshots)
    (hcurrent : s₁.currentCommittedSnapshot = s.currentCommittedSnapshot) :
    ∃ s' older', blessSnapshots t s₁ = .ok s' ∧ Account P st since older' s' := by
  have hready : s₁.ready t = s.ready t := by
    unfold ready
    rw [hqueue]
  have hsplit : since = (older ++ s.ready t) ++ s.uncommittedSnapshots.drop (s.ready t).length := by
    rw [append_assoc, ready_append_drop]
    exact h.split
  have hpairs := pairwise_append.mp (hsplit ▸ h.increasing)
  have hbehind : ∀ x ∈ older ++ s.ready t, x.opTime ≤ t := by
    refine forall_mem_append.mpr ⟨fun x hx => ?_, fun x hx => ?_⟩
    · have hold := h.proper x (h.split ▸ mem_append_left _ hx)
      exact hP.trans hold.1 h.committed ht (h.behind x hx) (le_of_lt hgrows)
    · exact ready_iff.mp (mem_takeWhile_imp
        (p := fun x => !decide ((⟨t, SnapshotName.max⟩ : SnapshotInfo) < x)) hx)
  unfold blessSnapshots
  rw [hready, hqueue]
  cases hlast : (s.ready t).getLast? with
  | none =>
    rw [List.getLast?_eq_none_iff.mp hlast] at hsplit
    refine ⟨s₁, older, rfl, hstate, hcommitted ▸ ht, by simpa [hqueue] using hsplit, h.proper,
      h.increasing, fun x hx => ?_, fun x hx => ?_, hcurrent.trans h.current⟩
    · rw [hcommitted]
      exact hbehind x (mem_append_left _ hx)
    · rw [hcommitted]
      refine h.lt_of_mem_drop hP ht ?_
      rw [List.getLast?_eq_none_iff.mp hlast]
      exact hqueue ▸ hx
  | some x =>
    have hmem : x ∈ s.ready t := mem_of_getLast? hlast
    have hold : x ∈ older ++ s.ready t := mem_append_right _ hmem
    have hok := updateCommittedSnapshot_ok (s := { s₁ with
        uncommittedSnapshots := s.uncommittedSnapshots.drop (s.ready t).length })
      (h.proper x (hsplit ▸ mem_append_left _ hold)).2
      (by rw [hcommitted]; exact hbehind x hold)
      (fun c hc => (pairwise_append.mp hpairs.1).2.2 c
        (mem_of_getLast? (h.current ▸ hcurrent ▸ hc)) x hmem)
      (fun y hy => hpairs.2.2 x hold y hy)
    refine ⟨_, older ++ s.ready t, hok, hstate, hcommitted ▸ ht, hsplit, h.proper, h.increasing,
      fun y hy => ?_, fun y hy => ?_, ?_⟩
    · rw [hcommitted]
      exact hbehind y hy
    · rw [hcommitted]
      exact h.lt_of_mem_drop hP ht hy
    · simp [List.getLast?_append, hlast]

theorem invariant_cases (cond : Prop) [Decidable cond] (site : FailedInvariant) :
    invariant cond site = .ok () ∨ invariant cond site = .error site := by
  by_cases h : cond
  · exact .inl (if_pos h)
  · exact .inr (if_neg h)

theorem checkMyLastAppliedOpTime_cases (self : ℕ) (t : OpTime) (s : ReplicationCoordinator) :
    checkMyLastAppliedOpTime self t false s = .ok () ∨
      checkMyLastAppliedOpTime self t false s = .error .setMyLastAppliedOpTime := by
  unfold checkMyLastAppliedOpTime
  by_cases hsame : false = true ∨ t.Same (s.myLastAppliedOpTime self)
  · rw [if_pos hsame]
    exact .inl rfl
  · rw [if_neg hsame]
    rcases invariant_cases (¬t ≤ s.myLastAppliedOpTime self) .setMyLastAppliedOpTime with
      hfirst | hfirst
    · rw [hfirst]
      exact invariant_cases _ .setMyLastAppliedOpTime
    · rw [hfirst]
      exact .inr rfl

protected theorem Account.advanceCommitPoint (self : ℕ) (hP : OpTime.Comparable P) (hst : st ≠ .primary)
    (h : Account P st since older s) (ht : P t) :
    (∃ s' older', advanceCommitPoint self .learned t s = .ok s' ∧ Account P st since older' s') ∨
      (st = .arbiter ∧ advanceCommitPoint self .learned t s = .error .setMyLastAppliedOpTime) := by
  unfold advanceCommitPoint
  split_ifs with hsame hlt hprimary
  · exact .inl ⟨s, older, rfl, h⟩
  · exact .inl ⟨s, older, rfl, h⟩
  · exact absurd (h.memberState ▸ hprimary.1) hst
  · have hgrows : s.lastCommittedOpTime < t := by
      rw [lt_iff_not_le, le_def]
      exact fun hle => hle.elim hlt hsame
    unfold followCommitPoint
    split_ifs with harbiter
    · rcases checkMyLastAppliedOpTime_cases self t s with hok | herror
      · rw [hok]
        exact .inl (h.blessSnapshots hP ht hgrows h.memberState rfl rfl rfl)
      · rw [herror]
        exact .inr ⟨h.memberState.symm.trans harbiter, rfl⟩
    · exact .inl (h.blessSnapshots hP ht hgrows h.memberState rfl rfl rfl)

theorem Account.run (cfg : ReplSetConfig) (self : ℕ) (hP : OpTime.Comparable P)
    (hst : st ≠ .primary) (calls : List SnapshotCall) (h : Account P st since older s) (hproper : ∀ call ∈ calls, call.Proper P)
    (hnewer : (since ++ created calls).Pairwise Newer) :
    (∃ s' older', runCalls cfg self calls s = .ok s' ∧
      Account P st (createdSinceDrop since calls) older' s') ∨
      (st = .arbiter ∧ runCalls cfg self calls s = .error .setMyLastAppliedOpTime) := by
  induction calls generalizing since older s with
  | nil => exact .inl ⟨s, older, rfl, h⟩
  | cons call calls ih =>
    have hfirst := hproper call mem_cons_self
    have hrest : ∀ call ∈ calls, call.Proper P :=
      (forall_mem_cons.mp hproper).2
    unfold runCalls
    rw [foldlM_cons]
    cases call with
    | createSnapshot x =>
      have hbefore : ∀ y ∈ since, Newer y x := fun y hy =>
        (pairwise_append.mp hnewer).2.2 y hy x mem_cons_self
      obtain ⟨s₁, older₁, hrun, h₁⟩ := h.createSnapshot hP hfirst hbefore
      have hnext := ih h₁ hrest (by simpa [created] using hnewer)
      change (∃ s' older', (createSnapshot x.opTime x.name s >>= _) = _ ∧
        _) ∨ (_ ∧ (createSnapshot x.opTime x.name s >>= _) = _)
      rw [hrun]
      exact hnext
    | advanceCommitPoint t =>
      rcases h.advanceCommitPoint self hP hst hfirst with
        ⟨s₁, older₁, hrun, h₁⟩ | ⟨harbiter, herror⟩
      · have hnext := ih h₁ hrest hnewer
        change (∃ s' older', (advanceCommitPoint self .learned t s >>= _) =
          _ ∧ _) ∨ (_ ∧ (advanceCommitPoint self .learned t s >>= _) = _)
        rw [hrun]
        exact hnext
      · right
        refine ⟨harbiter, ?_⟩
        change (advanceCommitPoint self .learned t s >>= _) = _
        rw [herror]
        rfl
    | dropAllSnapshots =>
      have hdropped : Account P st [] [] s.dropAllSnapshots :=
        ⟨h.memberState, h.committed, rfl, by simp, List.Pairwise.nil, by simp,
          by simp [dropAllSnapshots], rfl⟩
      exact ih hdropped hrest (pairwise_append.mp hnewer).2.1

/-- On a node that is not primary no check about snapshots fails, the queue is sorted and
beyond the commit point, and the committed snapshot is the greatest one at or before it. -/
theorem committed_snapshot_greatest (cfg : ReplSetConfig) (self : ℕ) (P : OpTime → Prop)
    (hP : OpTime.Comparable P) (s₀ : ReplicationCoordinator) (hstate : s₀.memberState ≠ .primary)
    (hcommitted : P s₀.lastCommittedOpTime) (hqueue : s₀.uncommittedSnapshots = [])
    (hcurrent : s₀.currentCommittedSnapshot = none) (calls : List SnapshotCall)
    (hproper : ∀ call ∈ calls, call.Proper P) (hnewer : (created calls).Pairwise Newer) :
    (∀ site, runCalls cfg self calls s₀ = .error site →
      site ≠ .createSnapshot ∧ site ≠ .updateCommittedSnapshot) ∧
    ∀ s, runCalls cfg self calls s₀ = .ok s → s.uncommittedSnapshots.Pairwise (· < ·) ∧
      (∀ x ∈ s.uncommittedSnapshots, s.lastCommittedOpTime < x.opTime) ∧
      ∀ x ∈ createdSinceDrop [] calls, x.opTime ≤ s.lastCommittedOpTime →
        ∃ c, s.currentCommittedSnapshot = some c ∧ c ∈ createdSinceDrop [] calls ∧
          c.opTime ≤ s.lastCommittedOpTime ∧
          ∀ y ∈ createdSinceDrop [] calls, y.opTime ≤ s.lastCommittedOpTime → y = c ∨ y < c := by
  have hinit : Account P s₀.memberState [] [] s₀ :=
    ⟨rfl, hcommitted, by rw [hqueue]; rfl, by simp, List.Pairwise.nil, by simp, by simp [hqueue],
      hcurrent⟩
  rcases hinit.run cfg self hP hstate calls hproper hnewer with
    ⟨s', older, hrun, h⟩ | ⟨-, herror⟩
  · refine ⟨fun site hsite => by simp [hrun] at hsite, fun s hs => ?_⟩
    obtain rfl := Except.ok.inj (hrun.symm.trans hs)
    have hpairs := pairwise_append.mp (h.split ▸ h.increasing)
    refine ⟨hpairs.2.1.imp fun hxy => hxy.1, h.ahead, fun x hx hle => ?_⟩
    have hold : ∀ y ∈ createdSinceDrop [] calls, y.opTime ≤ s'.lastCommittedOpTime → y ∈ older := by
      intro y hy hyle
      rw [h.split] at hy
      rcases mem_append.mp hy with hy | hy
      · exact hy
      · exact absurd hyle (lt_iff_not_le.mp (h.ahead y hy))
    obtain ⟨front, c, rfl⟩ := (eq_nil_or_concat' older).resolve_left (ne_nil_of_mem (hold x hx hle))
    refine ⟨c, by simp [h.current], ?_, h.behind c (by simp), fun y hy hyle => ?_⟩
    · rw [h.split]
      simp
    · rcases mem_append.mp (hold y hy hyle) with hmem | hmem
      · exact .inr ((pairwise_append.mp hpairs.1).2.2 y hmem c (by simp)).1
      · exact .inl (mem_singleton.mp hmem)
  · refine ⟨fun site hsite => ?_, fun s hs => by simp [herror] at hs⟩
    obtain rfl := Except.error.inj (herror.symm.trans hsite)
    exact ⟨by decide, by decide⟩

/-- Two snapshots, the second one after the commit point passed it. -/
theorem committed_snapshot_greatest_late :
    ∃ s, runCalls withArbiter 1 [.createSnapshot ⟨⟨⟨5, 0⟩, 1⟩, 1⟩, .advanceCommitPoint ⟨⟨6, 0⟩, 1⟩,
        .createSnapshot ⟨⟨⟨6, 0⟩, 1⟩, 2⟩] (init withArbiter .secondary) = .ok s ∧
      s.uncommittedSnapshots.Pairwise (· < ·) ∧
      (∀ x ∈ s.uncommittedSnapshots, s.lastCommittedOpTime < x.opTime) ∧
      s.currentCommittedSnapshot = some ⟨⟨⟨6, 0⟩, 1⟩, 2⟩ := by
  have h := (committed_snapshot_greatest withArbiter 1 OpTime.ProtocolVersion1
    comparable_protocolVersion1 (init withArbiter .secondary) (by decide) (.inl rfl) rfl rfl
    [.createSnapshot ⟨⟨⟨5, 0⟩, 1⟩, 1⟩, .advanceCommitPoint ⟨⟨6, 0⟩, 1⟩,
      .createSnapshot ⟨⟨⟨6, 0⟩, 1⟩, 2⟩]
    (by simp only [mem_cons, not_mem_nil, or_false, forall_eq_or_imp, forall_eq,
          SnapshotCall.Proper]; decide)
    (by decide)).2 _ rfl
  exact ⟨_, rfl, h.1, h.2.1, rfl⟩

/-- A snapshot at the null optime counts as committed at once, and may not be. -/
theorem null_snapshot_fails :
    runCalls withArbiter 1 [.createSnapshot ⟨.null, 1⟩] (init withArbiter .secondary) =
      .error .updateCommittedSnapshot :=
  rfl

end MongoServer.ReplicationCoordinator
