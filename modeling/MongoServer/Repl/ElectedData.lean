import MongoServer.Repl.ElectionSafety

/-!
What an election says about data. A voter that grants its vote has applied nothing after the
candidate's last durable optime. Any majority of the votes meets any set that satisfies a
majority write, although arbiters vote and store no data: where arbiters make the write
majority smaller than the vote majority, it takes every voter that bears data, and so the
candidate.
-/
namespace MongoServer.Election
open Finset

variable {cfg : ReplSetConfig} (candidate : NodeId cfg) (args : ReplSetRequestVotesArgs)

/-- A voter as it decides a request, and whether its answer reaches the requester. -/
structure Ballot (cfg : ReplSetConfig) where
  voter : NodeId cfg
  node : Node cfg.members.length
  lastAppliedOpTime : OpTime
  betterPrimary : Option ℕ
  delivered : Bool

namespace Ballot

def response (b : Ballot cfg) (args : ReplSetRequestVotesArgs) :
    Option ReplSetRequestVotesResponse :=
  if b.delivered then
    some (b.node.processReplSetRequestVotes b.voter args b.lastAppliedOpTime b.betterPrimary).1
  else none

def granted (b : Ballot cfg) (args : ReplSetRequestVotesArgs) : Bool :=
  (b.response args).any fun r => r.voteGranted

end Ballot

namespace VoteRequester

def started : VoteRequester cfg.members.length :=
  ⟨0, args.term, args.dryRun, targets candidate, false, 0, 1⟩

def collect (ballots : List (Ballot cfg)) : VoteRequester cfg.members.length :=
  ballots.foldl (fun r b => r.processResponse b.voter (b.response args)) (started candidate args)

theorem processResponse_votes (r : VoteRequester cfg.members.length) (b : Ballot cfg)
    (args : ReplSetRequestVotesArgs) :
    (r.processResponse b.voter (b.response args)).votes =
      r.votes + if b.granted args then 1 else 0 := by
  unfold processResponse Ballot.granted
  cases b.response args with
  | none => rfl
  | some response =>
    cases hvote : response.voteGranted with
    | false => simp [hvote]
    | true => simp [hvote]

theorem collect_votes (ballots : List (Ballot cfg)) :
    (collect candidate args ballots).votes = 1 + ballots.countP fun b => b.granted args := by
  have hfold : ∀ r : VoteRequester cfg.members.length,
      (ballots.foldl (fun r b => r.processResponse b.voter (b.response args)) r).votes =
        r.votes + ballots.countP fun b => b.granted args := by
    induction ballots with
    | nil => simp
    | cons b ballots ih =>
      intro r
      rw [List.foldl_cons, ih, processResponse_votes, List.countP_cons]
      omega
  exact hfold _

theorem votes_of_successfullyElected {r : VoteRequester cfg.members.length}
    (h : r.getResult cfg = .successfullyElected) : cfg.majorityVoteCount ≤ r.votes := by
  unfold getResult at h
  split_ifs at h
  assumption

end VoteRequester

/-- Whoever votes for a candidate has applied nothing after what the candidate has made durable. -/
theorem Ballot.lastApplied_le {b : Ballot cfg} {args : ReplSetRequestVotesArgs}
    (h : b.granted args = true) : b.lastAppliedOpTime ≤ args.lastDurableOpTime := by
  rw [OpTime.le_iff_not_lt]
  intro hstale
  unfold granted response at h
  split_ifs at h
  · unfold Node.processReplSetRequestVotes at h
    split_ifs at h
    all_goals simp at h
  · simp at h

section Quorums

theorem card_data_voters : (Finset.univ.filter fun v : NodeId cfg =>
      isVoter v = true ∧ (cfg.members.get v).isArbiter = false).card + cfg.arbiterCount =
        cfg.totalVotingMembers := by
  have harbiters : (Finset.univ.filter fun v : NodeId cfg =>
      isVoter v = true ∧ ¬(cfg.members.get v).isArbiter = false).card = cfg.arbiterCount := by
    have hvote : ∀ v : NodeId cfg, (isVoter v = true ∧ ¬(cfg.members.get v).isArbiter = false) ↔
        (cfg.members.get v).isArbiter = true := by
      intro v
      rw [Bool.not_eq_false]
      exact ⟨fun h => h.2, fun h => ⟨MemberConfig.isVoter_of_isArbiter h, h⟩⟩
    rw [filter_congr fun v _ => hvote v]
    exact card_filter_members MemberConfig.isArbiter
  have hsplit := card_filter_add_card_filter_not (s := Finset.univ.filter
    fun v : NodeId cfg => isVoter v = true) fun v => (cfg.members.get v).isArbiter = false
  rw [filter_filter, filter_filter, harbiters, card_voters] at hsplit
  exact hsplit

/-- A majority of the votes that a candidate is part of meets every write majority. -/
theorem vote_majority_meets_write_majority {candidate : NodeId cfg}
    (helectable : (cfg.members.get candidate).isElectable = true) {V W : Finset (NodeId cfg)}
    (hcandidate : candidate ∈ V) (hV : ∀ v ∈ V, isVoter v = true)
    (hVcard : cfg.majorityVoteCount ≤ V.card)
    (hW : ∀ w ∈ W, isVoter w = true ∧ (cfg.members.get w).isArbiter = false)
    (hWcard : cfg.writeMajority ≤ W.card) : (V ∩ W).Nonempty := by
  rcases le_or_gt cfg.majorityVoteCount W.card with hmajority | hfewer
  · have hvoters : ∀ Q : Finset (NodeId cfg), (∀ u ∈ Q, isVoter u = true) →
        Q ⊆ Finset.univ.filter fun v : NodeId cfg => isVoter v = true :=
      fun Q hQ u hu => mem_filter.mpr ⟨mem_univ u, hQ u hu⟩
    refine inter_nonempty_of_card_lt_card_add_card (hvoters V hV)
      (hvoters W fun w hw => (hW w hw).1) ?_
    rw [card_voters]
    unfold ReplSetConfig.majorityVoteCount at hVcard hmajority
    omega
  · -- the arbiters dominate, and every voter that bears data has the write
    have hdata : _ + cfg.arbiterCount = cfg.totalVotingMembers := card_data_voters
    have hsubset : W ⊆ Finset.univ.filter fun v : NodeId cfg =>
        isVoter v = true ∧ (cfg.members.get v).isArbiter = false :=
      fun w hw => mem_filter.mpr ⟨mem_univ w, hW w hw⟩
    have hall : W = Finset.univ.filter fun v : NodeId cfg =>
        isVoter v = true ∧ (cfg.members.get v).isArbiter = false := by
      apply eq_of_subset_of_card_le hsubset
      unfold ReplSetConfig.writeMajority at hWcard
      omega
    have hmember : candidate ∈ W := by
      rw [hall, mem_filter]
      refine ⟨mem_univ _, hV candidate hcandidate, ?_⟩
      simpa using (Bool.and_eq_true_iff.mp helectable).1
    exact ⟨candidate, mem_inter.mpr ⟨hcandidate, hmember⟩⟩

end Quorums

/-- A candidate that wins an election has everything that a write majority had, each member
as of its vote. -/
theorem elected_candidate_has_majority_writes (cfg : ReplSetConfig) (candidate : NodeId cfg)
    (args : ReplSetRequestVotesArgs) (ballots : List (Ballot cfg)) (had : NodeId cfg → OpTime)
    (P : OpTime → Prop) (p : OpTime) (W : Finset (NodeId cfg)) (hP : OpTime.Comparable P)
    (hcomparable : P p ∧ ∀ v, P (had v))
    (helectable : (cfg.members.get candidate).isElectable = true)
    (hdistinct : (ballots.map Ballot.voter).Nodup)
    (hothers : ∀ b ∈ ballots, b.voter ∈ targets candidate)
    (happlied : ∀ b ∈ ballots, had b.voter = b.lastAppliedOpTime)
    (hdurable : had candidate = args.lastDurableOpTime)
    (helected : (VoteRequester.collect candidate args ballots).getResult cfg = .successfullyElected)
    (hW : ∀ w ∈ W, isVoter w = true ∧ (cfg.members.get w).isArbiter = false)
    (hWcard : cfg.writeMajority ≤ W.card) (hheld : ∀ w ∈ W, p ≤ had w) :
    p ≤ args.lastDurableOpTime := by
  let yes := (ballots.filter fun b => b.granted args).map Ballot.voter
  have hyes : yes.Nodup := ((List.filter_sublist (l := ballots)).map Ballot.voter).nodup hdistinct
  have htargets : ∀ v ∈ yes, v ∈ targets candidate := by
    intro v hv
    obtain ⟨b, hb, rfl⟩ := List.mem_map.mp hv
    exact hothers b (List.mem_filter.mp hb).1
  have hself : candidate ∉ yes.toFinset := fun hmem =>
    (mem_targets.mp (htargets candidate (List.mem_toFinset.mp hmem))).2 rfl
  have hvotes : cfg.majorityVoteCount ≤ (insert candidate yes.toFinset).card := by
    have hcount := VoteRequester.votes_of_successfullyElected helected
    rw [VoteRequester.collect_votes, List.countP_eq_length_filter] at hcount
    rw [card_insert_of_notMem hself, List.toFinset_card_of_nodup hyes, List.length_map]
    omega
  have hV : ∀ v ∈ insert candidate yes.toFinset, isVoter v = true := by
    intro v hv
    rcases mem_insert.mp hv with rfl | hv
    · exact MemberConfig.isVoter_of_isElectable helectable
    · exact (mem_targets.mp (htargets v (List.mem_toFinset.mp hv))).1
  obtain ⟨v, hv⟩ := vote_majority_meets_write_majority helectable (mem_insert_self _ _) hV
    hvotes hW hWcard
  obtain ⟨hvote, hwrite⟩ := mem_inter.mp hv
  rcases mem_insert.mp hvote with rfl | hvote
  · rw [← hdurable]
    exact hheld v hwrite
  · obtain ⟨b, hb, rfl⟩ := List.mem_map.mp (List.mem_toFinset.mp hvote)
    obtain ⟨hb, hgranted⟩ := List.mem_filter.mp hb
    have hle : had b.voter ≤ had candidate := by
      rw [happlied b hb, hdurable]
      exact Ballot.lastApplied_le hgranted
    rw [← hdurable]
    exact hP.trans hcomparable.1 (hcomparable.2 _) (hcomparable.2 _) (hheld _ hwrite) hle

def nodeBInTerm3 : Node threeMembers.members.length :=
  ⟨3, .follower, .initial, false, none, none, none, .idle, [], 0⟩

/-- Node B answers a request, and nothing is heard of node C. -/
def ballotOfB (lastApplied : OpTime) : List (Ballot threeMembers) :=
  [⟨nodeB, nodeBInTerm3, lastApplied, none, true⟩, ⟨nodeC, nodeBInTerm3, lastApplied, none, false⟩]

def requestOfA (lastDurable : OpTime) : ReplSetRequestVotesArgs :=
  ⟨"rs", false, 3, 0, 1, lastDurable⟩

theorem elected_candidate_has_majority_writes_nodeA :
    (VoteRequester.collect nodeA (requestOfA ⟨⟨9, 1⟩, 2⟩) (ballotOfB ⟨⟨8, 1⟩, 2⟩)).getResult
        threeMembers = .successfullyElected ∧
      (⟨⟨7, 1⟩, 1⟩ : OpTime) ≤ (requestOfA ⟨⟨9, 1⟩, 2⟩).lastDurableOpTime := by
  have helected : (VoteRequester.collect nodeA (requestOfA ⟨⟨9, 1⟩, 2⟩)
      (ballotOfB ⟨⟨8, 1⟩, 2⟩)).getResult threeMembers = .successfullyElected := by decide +kernel
  refine ⟨helected, elected_candidate_has_majority_writes threeMembers nodeA _ _
    (fun v => if v = nodeA then ⟨⟨9, 1⟩, 2⟩ else ⟨⟨8, 1⟩, 2⟩) OpTime.ProtocolVersion1 _
    {nodeB, nodeC} OpTime.comparable_protocolVersion1 ?_ (by decide) (by decide) (by decide)
    (by decide) (by decide) helected (by decide) (by decide) (by decide)⟩
  decide

/-- After a change of the protocol version nodes B and C have an optime without a term. Node A has
not, but its last optime is of a higher term than node B's, and it is elected. -/
theorem elected_without_old_protocol_write :
    (VoteRequester.collect nodeA (requestOfA ⟨⟨3, 0⟩, 2⟩) (ballotOfB ⟨⟨10, 0⟩, 1⟩)).getResult
        threeMembers = .successfullyElected ∧
      threeMembers.writeMajority ≤ ({nodeB, nodeC} : Finset (NodeId threeMembers)).card ∧
      (⟨⟨5, 0⟩, OpTime.kUninitializedTerm⟩ : OpTime) ≤ ⟨⟨10, 0⟩, 1⟩ ∧
      ¬(⟨⟨5, 0⟩, OpTime.kUninitializedTerm⟩ : OpTime) ≤
        (requestOfA ⟨⟨3, 0⟩, 2⟩).lastDurableOpTime := by
  decide +kernel

end MongoServer.Election
