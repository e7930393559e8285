import MongoServer.Base.Status
import MongoServer.Bson.Value
import MongoServer.Repl.OpTime

/-!
The search for the common point of two oplogs. The remote oplog is read from its newest entry
on, one entry a call; every call rolls back the local entries that the remote entry shows to be
missing there, until an entry with the same timestamp and hash is met.
-/
namespace MongoServer
open List Timestamp

/-- An operation of the oplog, with the fields of it that are read. -/
structure OplogOperation where
  ts : Timestamp
  h : ℤ
  t : ℤ
  raw : BSONObj

abbrev OplogValue := OplogOperation × ℤ

def getOpTime (value : OplogValue) : OpTime := ⟨value.1.ts, value.1.t⟩

abbrev RollbackCommonPoint := OpTime × ℤ

/-- The function that rolls back one operation. It may keep a state of its own, so what it
returns depends on the operations it was called with before. -/
abbrev RollbackOperationFn := List OplogOperation → OplogOperation → Except Status Unit

structure RollBackLocalOperations where
  /-- What the iterator has not returned yet. -/
  localOplogIterator : List OplogValue
  localOplogValue : OplogValue
  scanned : ℕ
  /-- What the function was called with so far. -/
  rolledBack : List OplogOperation

namespace RollBackLocalOperations

def create (localOplog : List OplogValue) : RollBackLocalOperations where
  localOplogIterator := localOplog
  localOplogValue := (⟨⟨0, 0⟩, 0, OpTime.kUninitializedTerm, []⟩, 0)
  scanned := 0
  rolledBack := []

variable (rollbackOperation : RollbackOperationFn)

/-- Rolls back the current local operation and reads the next one. -/
def rollBackCurrent (reason : String) (finder : RollBackLocalOperations) :
    Except Failure Unit × RollBackLocalOperations :=
  let called := { finder with
    scanned := finder.scanned + 1
    rolledBack := finder.rolledBack ++ [finder.localOplogValue.1] }
  match rollbackOperation finder.rolledBack finder.localOplogValue.1 with
  | .error status =>
      if status.code = ErrorCodes.NoSuchKey then (.error .invariant, called)
      else (.error (.status status), called)
  | .ok () =>
      match finder.localOplogIterator with
      | [] => (.error (.status ⟨ErrorCodes.NoMatchingDocument, reason⟩), called)
      | value :: rest =>
          (.ok (), { called with localOplogIterator := rest, localOplogValue := value })

theorem rollBackCurrent_length {reason : String} {finder next : RollBackLocalOperations}
    (h : rollBackCurrent rollbackOperation reason finder = (.ok (), next)) :
    next.localOplogIterator.length < finder.localOplogIterator.length := by
  unfold rollBackCurrent at h
  split at h
  · split at h <;> simp at h
  · split at h
    · simp at h
    · rename_i value rest hrest
      obtain ⟨-, rfl⟩ := Prod.mk.inj h
      simp [hrest]

variable (operation : OplogOperation)

def rollBackNewer (finder : RollBackLocalOperations) :
    Except Failure Unit × RollBackLocalOperations :=
  if operation.ts < finder.localOplogValue.1.ts then
    match h : rollBackCurrent rollbackOperation
        "RS101 reached beginning of local oplog [2]" finder with
    | (.error failure, next) => (.error failure, next)
    | (.ok (), next) => rollBackNewer next
  else (.ok (), finder)
termination_by finder.localOplogIterator.length
decreasing_by exact rollBackCurrent_length rollbackOperation h

/-- What a call does once the first local operation has been read. -/
def compareWithRemote (finder : RollBackLocalOperations) :
    Except Failure RollbackCommonPoint × RollBackLocalOperations :=
  match rollBackNewer rollbackOperation operation finder with
  | (.error failure, next) => (.error failure, next)
  | (.ok (), finder) =>
      if finder.localOplogValue.1.ts = operation.ts then
        if finder.localOplogValue.1.h = operation.h then
          (.ok (getOpTime finder.localOplogValue, finder.localOplogValue.2),
            { finder with scanned := finder.scanned + 1 })
        else
          match rollBackCurrent rollbackOperation
              "RS101 reached beginning of local oplog [1]" finder with
          | (.error failure, next) => (.error failure, next)
          | (.ok (), next) =>
              (.error (.status ⟨ErrorCodes.NoSuchKey,
                "Unable to determine common point - same timestamp but different hash. " ++
                "Need to process additional remote operations."⟩), next)
      else if finder.localOplogValue.1.ts < operation.ts then
        (.error (.status ⟨ErrorCodes.NoSuchKey, "Unable to determine common point. " ++
          "Need to process additional remote operations."⟩),
          { finder with scanned := finder.scanned + 1 })
      else (.error .invariant, finder)

def onRemoteOperation (finder : RollBackLocalOperations) :
    Except Failure RollbackCommonPoint × RollBackLocalOperations :=
  if finder.scanned = 0 then
    match finder.localOplogIterator with
    | [] => (.error (.status ⟨ErrorCodes.OplogStartMissing, "no oplog during initsync"⟩), finder)
    | value :: rest =>
        let finder := { finder with localOplogIterator := rest, localOplogValue := value }
        let diff : ℤ := value.1.ts.secs - operation.ts.secs
        if diff > 1800 then
          (.error (.status ⟨ErrorCodes.ExceededTimeLimit,
            "rollback error: not willing to roll back more than 30 minutes of data"⟩), finder)
        else compareWithRemote rollbackOperation operation finder
  else compareWithRemote rollbackOperation operation finder

/-- The loop over the remote oplog. -/
def findCommonPoint : List OplogValue → RollBackLocalOperations →
    Except Failure RollbackCommonPoint × RollBackLocalOperations
  | [], finder => (.error (.status ⟨ErrorCodes.NoMatchingDocument,
      "RS100 reached beginning of remote oplog [1]"⟩), finder)
  | (theirObj, _) :: remoteIterator, finder =>
      match onRemoteOperation rollbackOperation theirObj finder with
      | (.ok point, next) => (.ok point, next)
      | (.error (.status status), next) =>
          if status.code ≠ ErrorCodes.NoSuchKey then (.error (.status status), next)
          else findCommonPoint remoteIterator next
      | (.error .invariant, next) => (.error .invariant, next)

end RollBackLocalOperations

variable (localOplog remoteOplog : List OplogValue)

/-- What the search returns, and what the function was called with, in order. -/
def syncRollBackLocalOperations (rollbackOperation : RollbackOperationFn) :
    Except Failure RollbackCommonPoint × List OplogOperation :=
  match remoteOplog with
  | [] => (.error (.status ⟨ErrorCodes.InvalidSyncSource, "remote oplog empty or unreadable"⟩), [])
  | _ :: _ =>
      let result := RollBackLocalOperations.findCommonPoint rollbackOperation remoteOplog
        (RollBackLocalOperations.create localOplog)
      (result.1, result.2.rolledBack)

/-- A local entry whose timestamp and hash occur in the remote oplog. -/
def InBoth (remoteOplog : List OplogValue) (entry : OplogValue) : Prop :=
  ∃ remote ∈ remoteOplog, remote.1.ts = entry.1.ts ∧ remote.1.h = entry.1.h

instance (remoteOplog : List OplogValue) : DecidablePred (InBoth remoteOplog) :=
  fun entry => inferInstanceAs
    (Decidable (∃ remote ∈ remoteOplog, remote.1.ts = entry.1.ts ∧ remote.1.h = entry.1.h))

/-- Newest first, with strictly decreasing timestamps. -/
def NewestFirst (oplog : List OplogValue) : Prop :=
  oplog.Pairwise fun newer older => older.1.ts < newer.1.ts

/-- The search as it is meant: local entries are rolled back from the newest one on, until one
is in the remote oplog too. -/
def rollBackToCommonPoint (rollbackOperation : RollbackOperationFn)
    (remoteOplog : List OplogValue) : List OplogOperation → List OplogValue →
    Option (RollbackCommonPoint × List OplogOperation)
  | _, [] => none
  | rolledBack, entry :: older =>
      if InBoth remoteOplog entry then some ((getOpTime entry, entry.2), rolledBack)
      else
        match rollbackOperation rolledBack entry.1 with
        | .error _ => none
        | .ok () =>
            rollBackToCommonPoint rollbackOperation remoteOplog (rolledBack ++ [entry.1]) older

def found : Except Failure RollbackCommonPoint × RollBackLocalOperations →
    Option (RollbackCommonPoint × List OplogOperation)
  | (.ok point, finder) => some (point, finder.rolledBack)
  | (.error _, _) => none

section InBoth

variable {remote entry : OplogValue} {remoteOplog oplog : List OplogValue}
  {rollbackOperation : RollbackOperationFn}

theorem not_inBoth_of_newer (hremote : NewestFirst (remote :: remoteOplog))
    (hnewer : remote.1.ts < entry.1.ts) : ¬ InBoth (remote :: remoteOplog) entry := by
  rintro ⟨other, hother, hts, -⟩
  rcases mem_cons.mp hother with rfl | hmem
  · rw [hts, lt_def] at hnewer
    omega
  · have holder := (pairwise_cons.mp hremote).1 other hmem
    rw [hts, lt_def] at holder
    rw [lt_def] at hnewer
    omega

theorem not_inBoth_of_hash (hremote : NewestFirst (remote :: remoteOplog))
    (hts : entry.1.ts = remote.1.ts) (hhash : entry.1.h ≠ remote.1.h) :
    ¬ InBoth (remote :: remoteOplog) entry := by
  rintro ⟨other, hother, hts', hh⟩
  rcases mem_cons.mp hother with rfl | hmem
  · exact hhash hh.symm
  · have holder := (pairwise_cons.mp hremote).1 other hmem
    rw [hts', hts, lt_def] at holder
    omega

theorem inBoth_cons_of_older (holder : entry.1.ts < remote.1.ts) :
    InBoth (remote :: remoteOplog) entry ↔ InBoth remoteOplog entry := by
  rw [InBoth, exists_mem_cons_iff, or_iff_right, InBoth]
  rintro ⟨hts, -⟩
  rw [hts, lt_def] at holder
  omega

theorem rollBackToCommonPoint_nil (rolledBack : List OplogOperation) :
    rollBackToCommonPoint rollbackOperation [] rolledBack oplog = none := by
  induction oplog generalizing rolledBack with
  | nil => rfl
  | cons entry older ih =>
    rw [rollBackToCommonPoint, if_neg (by simp [InBoth])]
    split
    · rfl
    · exact ih _

theorem rollBackToCommonPoint_cons
    (holder : ∀ entry ∈ oplog, entry.1.ts < remote.1.ts) (rolledBack : List OplogOperation) :
    rollBackToCommonPoint rollbackOperation (remote :: remoteOplog) rolledBack oplog =
      rollBackToCommonPoint rollbackOperation remoteOplog rolledBack oplog := by
  induction oplog generalizing rolledBack with
  | nil => rfl
  | cons entry older ih =>
    have hentry := holder entry mem_cons_self
    have hrest := ih (forall_mem_cons.mp holder).2
    simp only [rollBackToCommonPoint, inBoth_cons_of_older hentry, hrest]

end InBoth

namespace RollBackLocalOperations

variable {rollbackOperation : RollbackOperationFn} {remoteOplog : List OplogValue}

/-- The local operations that are not rolled back yet. -/
def remaining (finder : RollBackLocalOperations) : List OplogValue :=
  finder.localOplogValue :: finder.localOplogIterator

def EndsSearch (failure : Failure) : Prop :=
  ∀ status, failure = .status status → status.code ≠ ErrorCodes.NoSuchKey

variable (rollbackOperation) in
theorem rollBackCurrent_step (reason : String) (finder : RollBackLocalOperations)
    (hnot : ¬ InBoth remoteOplog finder.localOplogValue) :
    (∃ failure next, rollBackCurrent rollbackOperation reason finder = (.error failure, next) ∧
      EndsSearch failure ∧ rollBackToCommonPoint rollbackOperation remoteOplog finder.rolledBack
        finder.remaining = none) ∨
    ∃ next, rollBackCurrent rollbackOperation reason finder = (.ok (), next) ∧
      finder.localOplogIterator = next.remaining ∧ next.scanned ≠ 0 ∧
      rollBackToCommonPoint rollbackOperation remoteOplog finder.rolledBack finder.remaining =
        rollBackToCommonPoint rollbackOperation remoteOplog next.rolledBack next.remaining := by
  unfold rollBackCurrent
  simp only [remaining, rollBackToCommonPoint, hnot, if_false]
  cases hfn : rollbackOperation finder.rolledBack finder.localOplogValue.1 with
  | error status =>
    left
    by_cases hcode : status.code = ErrorCodes.NoSuchKey
    · exact ⟨.invariant, _, if_pos hcode, by simp [EndsSearch], rfl⟩
    · refine ⟨.status status, _, if_neg hcode, ?_, rfl⟩
      rintro _ ⟨⟩
      exact hcode
  | ok =>
    cases hrest : finder.localOplogIterator with
    | nil =>
      left
      refine ⟨_, _, rfl, ?_, rfl⟩
      rintro _ ⟨⟩
      simp [ErrorCodes.NoMatchingDocument, ErrorCodes.NoSuchKey]
    | cons value rest =>
      right
      exact ⟨_, rfl, rfl, Nat.succ_ne_zero _, rfl⟩

/-- What the loop over the remote oplog does with the result of a call. -/
def afterCall (rollbackOperation : RollbackOperationFn) (remoteIterator : List OplogValue) :
    Except Failure RollbackCommonPoint × RollBackLocalOperations →
    Except Failure RollbackCommonPoint × RollBackLocalOperations
  | (.ok point, next) => (.ok point, next)
  | (.error (.status status), next) =>
      if status.code ≠ ErrorCodes.NoSuchKey then (.error (.status status), next)
      else findCommonPoint rollbackOperation remoteIterator next
  | (.error .invariant, next) => (.error .invariant, next)

variable {remoteIterator : List OplogValue} {finder : RollBackLocalOperations}
  {operation : OplogOperation}

theorem found_afterCall_of_endsSearch {failure : Failure} (hends : EndsSearch failure)
    (next : RollBackLocalOperations) :
    found (afterCall rollbackOperation remoteIterator (.error failure, next)) = none := by
  cases failure with
  | invariant => rfl
  | status status => simp only [afterCall, if_pos (hends status rfl), found]

theorem compareWithRemote_of_newer (hnewer : operation.ts < finder.localOplogValue.1.ts) :
    compareWithRemote rollbackOperation operation finder =
      match rollBackCurrent rollbackOperation
        "RS101 reached beginning of local oplog [2]" finder with
      | (.error failure, next) => (.error failure, next)
      | (.ok (), next) => compareWithRemote rollbackOperation operation next := by
  have hround : rollBackNewer rollbackOperation operation finder =
      match rollBackCurrent rollbackOperation
        "RS101 reached beginning of local oplog [2]" finder with
      | (.error failure, next) => (.error failure, next)
      | (.ok (), next) => rollBackNewer rollbackOperation operation next := by
    rw [rollBackNewer, if_pos hnewer]
    split <;> rename_i hcurrent <;> rw [hcurrent]
  rw [compareWithRemote, hround]
  rcases rollBackCurrent rollbackOperation "RS101 reached beginning of local oplog [2]" finder
    with ⟨_ | _, next⟩ <;> rfl

/-- The search goes on correctly from any state in which the first call has been made. -/
def SearchesBelow (rollbackOperation : RollbackOperationFn) (remoteIterator : List OplogValue) :
    Prop :=
  ∀ finder : RollBackLocalOperations, finder.scanned ≠ 0 → NewestFirst finder.remaining →
    found (findCommonPoint rollbackOperation remoteIterator finder) =
      rollBackToCommonPoint rollbackOperation remoteIterator finder.rolledBack finder.remaining

theorem found_compareWithRemote {remote : OplogValue}
    (hremote : NewestFirst (remote :: remoteIterator))
    (ih : SearchesBelow rollbackOperation remoteIterator) (finder : RollBackLocalOperations)
    (hlocal : NewestFirst finder.remaining) :
    found (afterCall rollbackOperation remoteIterator
        (compareWithRemote rollbackOperation remote.1 finder)) =
      rollBackToCommonPoint rollbackOperation (remote :: remoteIterator) finder.rolledBack
        finder.remaining := by
  -- the loop over the local entries gets shorter with every entry it rolls back
  induction hn : finder.localOplogIterator.length using Nat.strong_induction_on
    generalizing finder with
  | _ n ihn =>
  have holder := (pairwise_cons.mp hlocal).1
  by_cases hnewer : remote.1.ts < finder.localOplogValue.1.ts
  · rw [compareWithRemote_of_newer hnewer]
    rcases rollBackCurrent_step rollbackOperation "RS101 reached beginning of local oplog [2]"
      finder (not_inBoth_of_newer hremote hnewer) with
      ⟨failure, next, hrun, hends, hnone⟩ | ⟨next, hrun, hrest, -, hsame⟩
    · simp only [hrun, hnone, found_afterCall_of_endsSearch hends]
    · simp only [hrun, hsame]
      have hshorter := rollBackCurrent_length rollbackOperation hrun
      have hnext : NewestFirst next.remaining := hrest ▸ hlocal.tail
      exact ihn _ (hn ▸ hshorter) next hnext rfl
  rw [compareWithRemote, rollBackNewer, if_neg hnewer]
  by_cases hts : finder.localOplogValue.1.ts = remote.1.ts
  · simp only [hts, if_true]
    by_cases hhash : finder.localOplogValue.1.h = remote.1.h
    · have hboth : InBoth (remote :: remoteIterator) finder.localOplogValue :=
        ⟨remote, mem_cons_self, hts.symm, hhash.symm⟩
      simp only [hhash, if_true, afterCall, found, remaining, rollBackToCommonPoint, hboth]
    · simp only [hhash, if_false]
      rcases rollBackCurrent_step rollbackOperation "RS101 reached beginning of local oplog [1]"
        finder (not_inBoth_of_hash hremote hts hhash) with
        ⟨failure, next, hrun, hends, hnone⟩ | ⟨next, hrun, hrest, hscanned, hsame⟩
      · simp only [hrun, hnone, found_afterCall_of_endsSearch hends]
      · have hnext : NewestFirst next.remaining := hrest ▸ hlocal.tail
        have hbelow : ∀ entry ∈ next.remaining, entry.1.ts < remote.1.ts := by
          intro entry hentry
          exact hts ▸ holder entry (hrest ▸ hentry)
        simp only [hrun, hsame, rollBackToCommonPoint_cons hbelow]
        exact ih next hscanned hnext
  · have hlt : finder.localOplogValue.1.ts < remote.1.ts := by
      rw [lt_def] at hnewer ⊢
      rw [eq_def] at hts
      omega
    have hbelow : ∀ entry ∈ finder.remaining, entry.1.ts < remote.1.ts := by
      refine forall_mem_cons.mpr ⟨hlt, fun entry hentry => ?_⟩
      have := holder entry hentry
      rw [lt_def] at this hlt ⊢
      omega
    simp only [hts, hlt, if_false, if_true, rollBackToCommonPoint_cons hbelow]
    exact ih { finder with scanned := finder.scanned + 1 } (Nat.succ_ne_zero _) hlocal

theorem findCommonPoint_cons {remote : OplogValue} (finder : RollBackLocalOperations) :
    findCommonPoint rollbackOperation (remote :: remoteIterator) finder =
      afterCall rollbackOperation remoteIterator
        (onRemoteOperation rollbackOperation remote.1 finder) := by
  rw [findCommonPoint]
  split <;> simp_all [afterCall]

theorem searchesBelow (hremote : NewestFirst remoteOplog) :
    SearchesBelow rollbackOperation remoteOplog := by
  induction remoteOplog with
  | nil =>
    intro finder _ _
    rw [rollBackToCommonPoint_nil]
    rfl
  | cons remote remoteIterator ih =>
    intro finder hscanned hlocal
    rw [findCommonPoint_cons, onRemoteOperation, if_neg hscanned]
    exact found_compareWithRemote hremote (ih hremote.tail) finder hlocal

end RollBackLocalOperations

/-- The function succeeds on every one of the entries when it is called on them in turn. -/
def Succeeds (rollbackOperation : RollbackOperationFn) :
    List OplogOperation → List OplogValue → Prop
  | _, [] => True
  | rolledBack, entry :: older =>
      rollbackOperation rolledBack entry.1 = .ok () ∧
        Succeeds rollbackOperation (rolledBack ++ [entry.1]) older

def newerThan (oplog : List OplogValue) (common : OplogValue) : List OplogValue :=
  oplog.filter fun entry => common.1.ts < entry.1.ts

/-- The newest entry whose timestamp and hash occur in both oplogs. -/
def IsNewestInBoth (common : OplogValue) : Prop :=
  common ∈ localOplog ∧ InBoth remoteOplog common ∧
    ∀ entry ∈ localOplog, InBoth remoteOplog entry → ¬ common.1.ts < entry.1.ts

section NewestInBoth

variable {localOplog remoteOplog older : List OplogValue} {common entry : OplogValue}

theorem newerThan_head (hlocal : NewestFirst (common :: older)) :
    newerThan (common :: older) common = [] := by
  rw [newerThan, filter_eq_nil_iff]
  intro entry hentry
  rcases mem_cons.mp hentry with rfl | hentry
  · simp [lt_def]
  · have := (pairwise_cons.mp hlocal).1 entry hentry
    simp only [lt_def, decide_eq_true_eq] at this ⊢
    omega

theorem newerThan_cons (hlocal : NewestFirst (entry :: older)) (hcommon : common ∈ older) :
    newerThan (entry :: older) common = entry :: newerThan older common := by
  have hnewer := (pairwise_cons.mp hlocal).1 common hcommon
  simp [newerThan, hnewer]

theorem isNewestInBoth_head (hlocal : NewestFirst (common :: older))
    (hboth : InBoth remoteOplog common) : IsNewestInBoth (common :: older) remoteOplog common := by
  refine ⟨mem_cons_self, hboth, ?_⟩
  intro entry hentry _ hnewer
  have hmem : entry ∈ newerThan (common :: older) common :=
    mem_filter.mpr ⟨hentry, by simpa using hnewer⟩
  rw [newerThan_head hlocal] at hmem
  exact not_mem_nil hmem

theorem isNewestInBoth_cons_iff (hnot : ¬ InBoth remoteOplog entry) :
    IsNewestInBoth (entry :: older) remoteOplog common ↔
      IsNewestInBoth older remoteOplog common := by
  constructor
  · rintro ⟨hmem, hboth, hnewest⟩
    rcases mem_cons.mp hmem with rfl | hmem
    · exact absurd hboth hnot
    · exact ⟨hmem, hboth, (forall_mem_cons.mp hnewest).2⟩
  · rintro ⟨hmem, hboth, hnewest⟩
    exact ⟨mem_cons_of_mem _ hmem, hboth,
      forall_mem_cons.mpr ⟨fun hentry => absurd hentry hnot, hnewest⟩⟩

theorem exists_isNewestInBoth (hlocal : NewestFirst localOplog)
    (hboth : ∃ entry ∈ localOplog, InBoth remoteOplog entry) :
    ∃ common, IsNewestInBoth localOplog remoteOplog common := by
  induction localOplog with
  | nil => simp at hboth
  | cons entry older ih =>
    by_cases hentry : InBoth remoteOplog entry
    · exact ⟨entry, isNewestInBoth_head hlocal hentry⟩
    · obtain ⟨common, hcommon⟩ := ih hlocal.tail
        (((exists_mem_cons_iff _ _ _).mp hboth).resolve_left hentry)
      exact ⟨common, (isNewestInBoth_cons_iff hentry).mpr hcommon⟩

variable {rollbackOperation : RollbackOperationFn}

/-- A search that ends with a common point has found the newest one. -/
theorem isNewestInBoth_of_rollBackToCommonPoint {rolledBack calls : List OplogOperation}
    {point : RollbackCommonPoint} (hlocal : NewestFirst localOplog)
    (h : rollBackToCommonPoint rollbackOperation remoteOplog rolledBack localOplog =
      some (point, calls)) :
    ∃ common, IsNewestInBoth localOplog remoteOplog common ∧ point = (getOpTime common, common.2) ∧
      calls = rolledBack ++ (newerThan localOplog common).map Prod.fst := by
  induction localOplog generalizing rolledBack with
  | nil => simp [rollBackToCommonPoint] at h
  | cons entry older ih =>
    rw [rollBackToCommonPoint] at h
    by_cases hentry : InBoth remoteOplog entry
    · rw [if_pos hentry] at h
      obtain ⟨rfl, rfl⟩ := Prod.mk.inj (Option.some.inj h)
      exact ⟨entry, isNewestInBoth_head hlocal hentry, rfl, by simp [newerThan_head hlocal]⟩
    · rw [if_neg hentry] at h
      split at h
      · simp at h
      · obtain ⟨common, hcommon, hpoint, hcalls⟩ := ih hlocal.tail h
        refine ⟨common, (isNewestInBoth_cons_iff hentry).mpr hcommon, hpoint, ?_⟩
        simp [hcalls, newerThan_cons hlocal hcommon.1]

/-- The search ends with a common point if the function succeeds on all that is newer. -/
theorem rollBackToCommonPoint_of_succeeds {rolledBack : List OplogOperation}
    (hlocal : NewestFirst localOplog) (hcommon : IsNewestInBoth localOplog remoteOplog common)
    (hsucceeds : Succeeds rollbackOperation rolledBack (newerThan localOplog common)) :
    ∃ point calls, rollBackToCommonPoint rollbackOperation remoteOplog rolledBack localOplog =
      some (point, calls) := by
  induction localOplog generalizing rolledBack with
  | nil => exact absurd hcommon.1 not_mem_nil
  | cons entry older ih =>
    rw [rollBackToCommonPoint]
    by_cases hentry : InBoth remoteOplog entry
    · exact ⟨_, _, if_pos hentry⟩
    · rw [isNewestInBoth_cons_iff hentry] at hcommon
      rw [newerThan_cons hlocal hcommon.1] at hsucceeds
      rw [if_neg hentry, hsucceeds.1]
      exact ih hlocal.tail hcommon hsucceeds.2

end NewestInBoth

/-- The newest local entry is at most half an hour ahead of the newest remote one. -/
def WithinTimeLimit : Prop :=
  ∀ ours ∈ localOplog.head?, ∀ theirs ∈ remoteOplog.head?, ours.1.ts.secs ≤ theirs.1.ts.secs + 1800

open RollBackLocalOperations in
theorem syncRollBackLocalOperations_eq {rollbackOperation : RollbackOperationFn}
    {localOplog remoteOplog : List OplogValue} (hlocal : NewestFirst localOplog)
    (hremote : NewestFirst remoteOplog) (htime : WithinTimeLimit localOplog remoteOplog)
    {point : RollbackCommonPoint} {calls : List OplogOperation} :
    syncRollBackLocalOperations localOplog remoteOplog rollbackOperation = (.ok point, calls) ↔
      rollBackToCommonPoint rollbackOperation remoteOplog [] localOplog = some (point, calls) := by
  have hfound : ∀ run : Except Failure RollbackCommonPoint × RollBackLocalOperations,
      (run.1, run.2.rolledBack) = (.ok point, calls) ↔ found run = some (point, calls) := by
    rintro ⟨_ | _, finder⟩ <;> simp [found]
  cases remoteOplog with
  | nil =>
    simp [syncRollBackLocalOperations, rollBackToCommonPoint_nil]
  | cons remote remoteIterator =>
    rw [syncRollBackLocalOperations, hfound, findCommonPoint_cons, onRemoteOperation]
    cases localOplog with
    | nil =>
      simp [create, afterCall, found, rollBackToCommonPoint, ErrorCodes.OplogStartMissing,
        ErrorCodes.NoSuchKey]
    | cons ours older =>
      have hdiff := htime ours rfl remote rfl
      have hnot : ¬ ((ours.1.ts.secs : ℤ) - remote.1.ts.secs > 1800) := by omega
      simp only [create, if_true, hnot, if_false]
      rw [found_compareWithRemote hremote (searchesBelow hremote.tail) ⟨older, ours, 0, []⟩ hlocal]
      rfl

/-- The search returns a common point if and only if there is one; it is the newest one, and the
function has been called on the local entries that are newer, once each, the newest first. -/
theorem syncRollBackLocalOperations_newest_common (rollbackOperation : RollbackOperationFn)
    (localOplog remoteOplog : List OplogValue) (hlocal : NewestFirst localOplog)
    (hremote : NewestFirst remoteOplog) (htime : WithinTimeLimit localOplog remoteOplog)
    (hsucceeds : ∀ common, IsNewestInBoth localOplog remoteOplog common →
      Succeeds rollbackOperation [] (newerThan localOplog common)) :
    ((∃ point calls, syncRollBackLocalOperations localOplog remoteOplog rollbackOperation =
        (.ok point, calls)) ↔ ∃ entry ∈ localOplog, InBoth remoteOplog entry) ∧
      ∀ point calls, syncRollBackLocalOperations localOplog remoteOplog rollbackOperation =
        (.ok point, calls) → ∃ common, IsNewestInBoth localOplog remoteOplog common ∧
          point = (getOpTime common, common.2) ∧
          calls = (newerThan localOplog common).map Prod.fst := by
  simp only [syncRollBackLocalOperations_eq hlocal hremote htime]
  refine ⟨⟨?_, ?_⟩, fun point calls hrun => ?_⟩
  · rintro ⟨point, calls, hrun⟩
    obtain ⟨common, hcommon, -⟩ := isNewestInBoth_of_rollBackToCommonPoint hlocal hrun
    exact ⟨common, hcommon.1, hcommon.2.1⟩
  · intro hboth
    obtain ⟨common, hcommon⟩ := exists_isNewestInBoth hlocal hboth
    exact rollBackToCommonPoint_of_succeeds hlocal hcommon (hsucceeds common hcommon)
  · simpa using isNewestInBoth_of_rollBackToCommonPoint hlocal hrun

def plainEntry (secs : ℕ) (h : ℤ) : OplogValue := (⟨⟨secs, 1⟩, h, 1, []⟩, secs)

/-- A divergent entry with the timestamp of a remote one, and one that is newer than all. -/
theorem syncRollBackLocalOperations_divergent : ∃ point calls, syncRollBackLocalOperations
      [plainEntry 40 4, plainEntry 30 3, plainEntry 20 2, plainEntry 10 1]
      [plainEntry 30 7, plainEntry 20 2, plainEntry 10 1] (fun _ _ => .ok ()) =
        (.ok point, calls) := by
  apply (syncRollBackLocalOperations_newest_common _ _ _ _ _ _ _).1.mpr
  · exact ⟨plainEntry 20 2, by simp, plainEntry 20 2, by simp, rfl, rfl⟩
  · simp [NewestFirst, plainEntry, lt_def]
  · simp [NewestFirst, plainEntry, lt_def]
  · simp [WithinTimeLimit, plainEntry]
  · intro common _
    generalize newerThan _ _ = newer
    generalize ([] : List OplogOperation) = rolledBack
    induction newer generalizing rolledBack with
    | nil => trivial
    | cons entry older ih => exact ⟨rfl, ih _⟩

end MongoServer
