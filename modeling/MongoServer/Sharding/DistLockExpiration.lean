import Mathlib.Logic.Function.Basic
import Mathlib.Tactic.Push
import Mathlib.Tactic.SplitIfs
import MongoServer.Base.Status
import MongoServer.Bson.Value

/-!
When a distributed lock may be taken from its owner. The manager remembers for each lock what it
last saw of the owner and the time of the config server, which it learns after a round trip.
-/
namespace MongoServer.ReplSetDistLockManager
open List Function ErrorCodes

structure LocksType where
  name : String
  process : String
  lockID : OID

structure LockpingsType where
  process : Option String
  ping : Option ℤ

def LockpingsType.validate (doc : LockpingsType) : Except Status Unit :=
  if doc.process.getD "" = "" then .error ⟨NoSuchKey, "missing _id field"⟩
  else if doc.ping.isNone then .error ⟨NoSuchKey, "missing ping field"⟩
  else .ok ()

structure ServerInfo where
  serverTime : ℤ
  electionId : OID

structure DistLockPingInfo where
  lastPing : ℤ
  configLocalTime : ℤ
  lockSessionId : OID
  electionId : OID

/-- A call with the answers it gets from the config server and the time the second one takes. -/
structure Call where
  lockDoc : LocksType
  lockExpiration : ℤ
  getPing : Except Status LockpingsType
  getServerInfo : Except Status ServerInfo
  millis : ℕ

abbrev PingHistory := String → Option DistLockPingInfo

namespace Call

def pingValue (call : Call) : Except Status ℤ :=
  match call.getPing with
  | .ok pingDoc =>
    match pingDoc.validate with
    | .ok () => .ok (pingDoc.ping.getD 0)
    | .error status => .error ⟨UnsupportedFormat, "invalid ping document for " ++
        call.lockDoc.process ++ ": NoSuchKey: " ++ status.reason⟩
  | .error status => if status.code = NoMatchingDocument then .ok 0 else .error status

def delay (call : Call) : ℤ := (call.millis / 2 : ℕ)

/-- What the config server's clock said, if the call learns it. -/
def serverTime (call : Call) : ℤ :=
  match call.getServerInfo with
  | .ok serverInfo => serverInfo.serverTime
  | .error _ => 0

/-- The session id, the ping and the election id, if the call learns all of them. -/
def seen (call : Call) : Option (OID × ℤ × OID) :=
  match call.pingValue, call.getServerInfo with
  | .ok pingValue, .ok serverInfo => some (call.lockDoc.lockID, pingValue, serverInfo.electionId)
  | _, _ => none

end Call

def DistLockPingInfo.seen (info : DistLockPingInfo) : OID × ℤ × OID :=
  (info.lockSessionId, info.lastPing, info.electionId)

def isLockExpired (call : Call) (pingHistory : PingHistory) : Except Status Bool × PingHistory :=
  match call.pingValue, call.getServerInfo with
  | .error status, _ => (.error status, pingHistory)
  | .ok _, .error status =>
    (if status.code = NotMaster then .ok false else .error status, pingHistory)
  | .ok pingValue, .ok serverInfo =>
    match pingHistory call.lockDoc.name with
    | none =>
      (.ok false, update pingHistory call.lockDoc.name
        (some ⟨pingValue, serverInfo.serverTime, call.lockDoc.lockID, serverInfo.electionId⟩))
    | some pingInfo =>
      let configServerLocalTime := serverInfo.serverTime - call.delay
      if pingInfo.lastPing ≠ pingValue ∨ pingInfo.lockSessionId ≠ call.lockDoc.lockID ∨
          pingInfo.electionId ≠ serverInfo.electionId then
        (.ok false, update pingHistory call.lockDoc.name
          (some ⟨pingValue, configServerLocalTime, call.lockDoc.lockID, serverInfo.electionId⟩))
      else if configServerLocalTime < pingInfo.configLocalTime then (.ok false, pingHistory)
      else (.ok (configServerLocalTime - pingInfo.configLocalTime ≥ call.lockExpiration),
        pingHistory)

def run (calls : List Call) : PingHistory :=
  calls.foldl (fun pingHistory call => (isLockExpired call pingHistory).2) fun _ => none

/-- A call saw this of the lock, and no later one saw anything different. -/
def SeenSince (calls : List Call) (name : String) (seen : OID × ℤ × OID) (earlier : Call) : Prop :=
  ∃ l m, calls = l ++ earlier :: m ∧ earlier.lockDoc.name = name ∧ earlier.seen = some seen ∧
    ∀ other ∈ m, other.lockDoc.name = name → other.seen = none ∨ other.seen = some seen

/-- What was seen was seen before, and the config server's clock has advanced since. -/
def ExpiredSince (calls : List Call) (call : Call) : Prop :=
  ∃ seen earlier, call.seen = some seen ∧ SeenSince calls call.lockDoc.name seen earlier ∧
    call.lockExpiration ≤ call.serverTime - earlier.serverTime

variable {calls : List Call} {call : Call} {pingHistory : PingHistory}

/-- The history is kept unless it says something different of the lock, and then the time that is
recorded may be early by the delay. -/
theorem isLockExpired_cases (call : Call) (pingHistory : PingHistory) :
    ((isLockExpired call pingHistory).2 = pingHistory ∧
      (∀ info, pingHistory call.lockDoc.name = some info →
        call.seen = none ∨ call.seen = some info.seen) ∧
      ((isLockExpired call pingHistory).1 = .ok true → ∃ info,
        pingHistory call.lockDoc.name = some info ∧ call.seen = some info.seen ∧
        call.lockExpiration ≤ call.serverTime - call.delay - info.configLocalTime)) ∨
    ∃ info, isLockExpired call pingHistory =
        (.ok false, update pingHistory call.lockDoc.name (some info)) ∧
      call.seen = some info.seen ∧ call.serverTime ≤ info.configLocalTime + call.delay := by
  unfold isLockExpired Call.seen Call.serverTime
  cases call.pingValue with
  | error status => exact .inl ⟨rfl, fun _ _ => .inl rfl, fun h => by cases h⟩
  | ok pingValue =>
    cases call.getServerInfo with
    | error status =>
      refine .inl ⟨rfl, fun _ _ => .inl rfl, fun h => ?_⟩
      dsimp only at h
      split_ifs at h
      cases h
    | ok server =>
      cases pingHistory call.lockDoc.name with
      | none => exact .inr ⟨_, rfl, rfl, le_add_of_nonneg_right (Int.natCast_nonneg _)⟩
      | some info =>
        dsimp only
        split_ifs with hdiffers
        · exact .inr ⟨_, rfl, rfl, by simp⟩
        all_goals
          push Not at hdiffers
          obtain ⟨rfl, hsession, helection⟩ := hdiffers
          have hseen : (call.lockDoc.lockID, info.lastPing, server.electionId) = info.seen := by
            rw [DistLockPingInfo.seen, hsession, helection]
          refine .inl ⟨rfl, ?_, fun h => ?_⟩
          · rintro _ ⟨⟩
            exact .inr (congrArg some hseen)
        · cases h
        · exact ⟨info, rfl, congrArg some hseen, of_decide_eq_true (Except.ok.inj h)⟩

/-- Every entry comes from a call since which nothing different was seen. -/
def Recorded (calls : List Call) (pingHistory : PingHistory) : Prop :=
  ∀ name info, pingHistory name = some info → ∃ earlier, SeenSince calls name info.seen earlier ∧
      earlier.serverTime ≤ info.configLocalTime + earlier.delay

theorem SeenSince.append {name : String} {seen : OID × ℤ × OID} {earlier : Call}
    (h : SeenSince calls name seen earlier)
    (hcall : call.lockDoc.name = name → call.seen = none ∨ call.seen = some seen) :
    SeenSince (calls ++ [call]) name seen earlier := by
  obtain ⟨l, m, rfl, hname, hseen, hm⟩ := h
  refine ⟨l, m ++ [call], by simp, hname, hseen, ?_⟩
  exact forall_mem_append.mpr ⟨hm, forall_mem_singleton.mpr hcall⟩

theorem Recorded.isLockExpired (h : Recorded calls pingHistory) (call : Call) :
    Recorded (calls ++ [call]) (isLockExpired call pingHistory).2 := by
  intro name info hinfo
  rcases isLockExpired_cases call pingHistory with ⟨heq, hsame, -⟩ | ⟨new, heq, hnew⟩
  · rw [heq] at hinfo
    obtain ⟨earlier, hsince, htime⟩ := h name info hinfo
    refine ⟨earlier, hsince.append ?_, htime⟩
    rintro rfl
    exact hsame info hinfo
  · rw [heq] at hinfo
    dsimp only at hinfo
    by_cases hname : name = call.lockDoc.name
    · subst hname
      rw [update_self] at hinfo
      cases hinfo
      exact ⟨call, ⟨calls, [], rfl, rfl, hnew.1, by simp⟩, hnew.2⟩
    · rw [update_of_ne hname] at hinfo
      obtain ⟨earlier, hsince, htime⟩ := h name info hinfo
      exact ⟨earlier, hsince.append fun heq => absurd heq.symm hname, htime⟩

theorem recorded_run (calls : List Call) : Recorded calls (run calls) := by
  induction calls using List.reverseRecOn with
  | nil => simp [Recorded, run]
  | append_singleton calls call ih =>
    rw [run, foldl_append]
    exact ih.isLockExpired call

/-- A lock is forced only after its expiration on the config server's clock, if no earlier call that
saw the same of the lock was delayed for longer. -/
theorem expiredSince_of_isLockExpired (calls : List Call) (call : Call)
    (hdelay : ∀ other ∈ calls, other.lockDoc.name = call.lockDoc.name → other.seen = call.seen →
      other.delay ≤ call.delay)
    (h : (isLockExpired call (run calls)).1 = .ok true) : ExpiredSince calls call := by
  rcases isLockExpired_cases call (run calls) with ⟨-, -, htrue⟩ | ⟨_, heq, -⟩
  · obtain ⟨info, hinfo, hsame, hforced⟩ := htrue h
    obtain ⟨earlier, hsince, htime⟩ := recorded_run calls _ info hinfo
    refine ⟨info.seen, earlier, hsame, hsince, ?_⟩
    obtain ⟨l, m, rfl, hname, hseen, -⟩ := hsince
    have hle := hdelay earlier (by simp) hname (hseen.trans hsame.symm)
    omega
  · rw [heq] at h
    cases h

/-- A call that sees a ping of the owner and a time of the config server. -/
def callAt (ping time : ℤ) (millis : ℕ) : Call where
  lockDoc := ⟨"test.coll", "owner", ⟨_, OID.length_sevens⟩⟩
  lockExpiration := 900000
  getPing := .ok ⟨some "owner", some ping⟩
  getServerInfo := .ok ⟨time, ⟨_, OID.length_sevens⟩⟩
  millis := millis

theorem expiredSince_callAt : ExpiredSince [callAt 1 0 0, callAt 2 1000 0] (callAt 2 901000 0) := by
  apply expiredSince_of_isLockExpired
  · simp [callAt, Call.delay]
  · rfl

/-- A new ping is seen after a round trip of two seconds. The time recorded is a second early, and
the lock is forced a second before its expiration. -/
theorem forced_early : (isLockExpired (callAt 2 900000 0)
      (run [callAt 1 0 0, callAt 2 1000 2000])).1 = .ok true ∧
    ¬ ExpiredSince [callAt 1 0 0, callAt 2 1000 2000] (callAt 2 900000 0) := by
  refine ⟨rfl, ?_⟩
  rintro ⟨seen, earlier, hseen, ⟨l, m, hsplit, -, hearlier, -⟩, hle⟩
  rw [← hseen] at hearlier
  have hmem : earlier ∈ [callAt 1 0 0, callAt 2 1000 2000] := by simp [hsplit]
  rcases mem_pair.mp hmem with rfl | rfl
  · cases hearlier
  · exact absurd hle (by decide)

end MongoServer.ReplSetDistLockManager
