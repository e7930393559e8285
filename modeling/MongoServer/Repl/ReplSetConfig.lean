import Mathlib.Data.List.Nodup
import Mathlib.Data.Rat.Defs
import Mathlib.Tactic

/-!
Replica set configurations: who votes, who bears data, and the majorities that follow.
The fields that are proofs are what `MemberConfig::validate` and `ReplSetConfig::validate`
let through.
-/
namespace MongoServer

structure MemberConfig where
  id : ℤ
  votes : ℤ
  priority : ℚ
  arbiterOnly : Bool
  id_nonneg : 0 ≤ id
  arbiter_votes : arbiterOnly = true → votes ≠ 0
  priority_votes : priority ≠ 0 → votes ≠ 0

namespace MemberConfig

/-- A member with one vote that can be elected. -/
def electing (id : ℕ) : MemberConfig :=
  ⟨id, 1, 1, false, Int.natCast_nonneg id, by decide, by decide⟩

def isVoter (m : MemberConfig) : Bool := m.votes != 0

def isArbiter (m : MemberConfig) : Bool := m.arbiterOnly

def isElectable (m : MemberConfig) : Bool := !m.isArbiter && decide (0 < m.priority)

theorem isVoter_of_isArbiter {m : MemberConfig} (h : m.isArbiter = true) : m.isVoter = true := by
  simpa [isVoter] using m.arbiter_votes h

theorem isVoter_of_isElectable {m : MemberConfig} (h : m.isElectable = true) :
    m.isVoter = true := by
  have hpriority : 0 < m.priority := of_decide_eq_true (Bool.and_eq_true_iff.mp h).2
  simpa [isVoter] using m.priority_votes (ne_of_gt hpriority)

end MemberConfig

structure ReplSetConfig where
  replSetName : String
  configVersion : ℤ
  members : List MemberConfig
  writeConcernMajorityShouldJournal : Bool
  ids_nodup : (members.map MemberConfig.id).Nodup
  electable : ∃ m ∈ members, m.isElectable = true

namespace ReplSetConfig
variable (cfg : ReplSetConfig)

def totalVotingMembers : ℕ := cfg.members.countP MemberConfig.isVoter

def arbiterCount : ℕ := cfg.members.countP MemberConfig.isArbiter

def majorityVoteCount : ℕ := cfg.totalVotingMembers / 2 + 1

/-- The subtraction cannot run below zero: arbiters vote. -/
def writeMajority : ℕ := min cfg.majorityVoteCount (cfg.totalVotingMembers - cfg.arbiterCount)

def findMemberByID (id : ℤ) : Option MemberConfig := cfg.members.find? fun m => m.id == id

theorem members_nodup : cfg.members.Nodup := cfg.ids_nodup.of_map _

theorem eq_of_id_eq {m m' : MemberConfig} (h : m ∈ cfg.members) (h' : m' ∈ cfg.members)
    (hid : m.id = m'.id) : m = m' :=
  List.inj_on_of_nodup_map cfg.ids_nodup h h' hid

theorem findMemberByID_mem {m : MemberConfig} (h : m ∈ cfg.members) :
    cfg.findMemberByID m.id = some m := by
  cases hfind : cfg.findMemberByID m.id with
  | none =>
    have hnone := List.find?_eq_none.mp hfind m h
    simp at hnone
  | some m' =>
    have hid : m'.id = m.id := by simpa using List.find?_some hfind
    rw [cfg.eq_of_id_eq (List.mem_of_find?_eq_some hfind) h hid]

end ReplSetConfig
end MongoServer
