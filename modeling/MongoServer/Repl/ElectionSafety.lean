import Mathlib.Data.Finset.Card
import Mathlib.Data.Fintype.Fin
import MongoServer.Repl.VoteLedger
import MongoServer.Transition.Runs

/-!
At most one winner in a term, in runs where no node votes in a term before that of its last
vote: the account of the votes is kept by every step, and two winners of one term would have
a voter in common. A leader that steps down for a vote request votes without adopting the
term of the request, and can then vote in an earlier term and in the same term again.
-/
namespace MongoServer.Election

open Transition Option List Finset

variable {cfg : ReplSetConfig}

/-- A node that gives a vote has given none in a later term. -/
def Ascending (c : Cluster cfg.members.length) : Action cfg → Prop
  | .processReplSetRequestVotes v i _ _ =>
      ∀ h ∈ (c.node v).handlers[i]?,
        h.request.args.dryRun = false → (c.node v).lastVote.term ≤ h.request.args.term
  | .onDryRunComplete v => (c.node v).lastVote.term ≤ (c.node v).term
  | _ => True

instance (c : Cluster cfg.members.length) (a : Action cfg) : Decidable (Ascending c a) :=
  match a with
  | .processReplSetRequestVotes v i _ _ =>
      inferInstanceAs (Decidable (∀ h ∈ (c.node v).handlers[i]?,
        h.request.args.dryRun = false → (c.node v).lastVote.term ≤ h.request.args.term))
  | .onDryRunComplete v =>
      inferInstanceAs (Decidable ((c.node v).lastVote.term ≤ (c.node v).term))
  | .updateTerm _ _ | .stepDownFinish _ _ | .becomeCandidate _ | .startElectSelfV1 _ _
  | .writeLastVoteForMyElection _ _ | .startVoteRequester _ _ | .onVoteRequestComplete _
  | .deliverRequest _ | .storeVote _ _ _ | .respond _ _ | .deliverResponse _
  | .requestFailed _ _ | .journal _ | .crash _ _ => inferInstanceAs (Decidable True)

section Step
variable {given : Votes cfg} {c c' : Cluster cfg.members.length} {v : NodeId cfg}

section
variable (h : Ledger given c)
include h

namespace Ledger

theorem map_processLoseElection
    (hstep : (c.node v).processLoseElection.map (c.setNode v) = some c') : Ledger given c' := by
  obtain ⟨nd, hnd, rfl⟩ := map_eq_some_iff.mp hstep
  exact h.processLoseElection hnd

theorem modifyHandlers {role : Role} {pending : Bool} {i : ℕ} {f : Handler _ → Handler _}
    (helectable : role = .candidate → (cfg.members.get v).isElectable = true)
    (hf : ∀ h₀, h₀.request = (f h₀).request ∧
      (HandlerOk given v (c.node v) h₀ → HandlerOk given v (c.node v) (f h₀))) :
    Ledger given (c.setNode v { c.node v with
      role := role, stepDownPending := pending, handlers := (c.node v).handlers.modify i f }) := by
  have hok := h.nodes v
  have hready : ∀ h' ∈ (c.node v).handlers.modify i f, ∃ h₀ ∈ (c.node v).handlers,
      h₀.request = h'.request ∧
        (HandlerOk given v (c.node v) h₀ → HandlerOk given v (c.node v) h') := by
    intro h' hh'
    obtain ⟨j, hj⟩ := mem_iff_getElem?.mp hh'
    rw [getElem?_modify] at hj
    obtain ⟨h₀, hh₀, heq⟩ := map_eq_some_iff.mp hj
    refine ⟨h₀, mem_of_getElem? hh₀, ?_⟩
    split_ifs at heq
    · exact heq ▸ hf h₀
    · exact heq ▸ ⟨rfl, id⟩
  have hmove := (hok.moves_role (c.node v).term role pending helectable).withHandlers _
    fun h' hh' => by
      obtain ⟨h₀, hmem, -, himp⟩ := hready h' hh'
      exact himp (hok.handlers h₀ hmem)
  refine h.setNode hmove (fun h' hh' => ?_) fun t ht => hmove.grows_setNode h ht rfl
  obtain ⟨h₀, hmem, hrequest, -⟩ := hready h' hh'
  exact hrequest ▸ sent_handler hmem

theorem stepDownFinish {handler : Option ℕ}
    (hstep : step c (.stepDownFinish v handler) = some c') : Ledger given c' := by
  simp only [step] at hstep
  obtain ⟨nd, hnd, hstep⟩ := bind_eq_some_iff.mp hstep
  have hok := h.nodes v
  have hrole : ∃ role pending, nd = { c.node v with role := role, stepDownPending := pending } ∧
      (role = .candidate → (cfg.members.get v).isElectable = true) := by
    unfold Node.stepDownIfPending at hnd
    split_ifs at hnd
    · exact ⟨.follower, false, (Option.some.inj hnd).symm, by simp⟩
    · exact ⟨(c.node v).role, (c.node v).stepDownPending, (Option.some.inj hnd).symm, hok.electable⟩
  obtain ⟨role, pending, rfl, helectable⟩ := hrole
  cases handler with
  | none =>
    cases hstep
    exact h.setRole (c.node v).term role pending helectable
  | some i =>
    cases hstep
    apply h.modifyHandlers helectable
    intro h₀
    cases hphase : h₀.phase <;> simp [HandlerOk, hphase]

theorem startElectSelf {lastOpTime : OpTime}
    (hstep : step c (.startElectSelfV1 v lastOpTime) = some c') : Ledger given c' := by
  simp only [step] at hstep
  split_ifs at hstep with hidle
  · exact h.map_processLoseElection hstep
  · cases hstep
    have hok := h.nodes v
    exact h.startVoteRequester (hok.moves_handlers _ hok.handlers) rfl rfl lastOpTime trivial
      (hok.electable hidle.1) (by simp)

theorem onDryRunComplete (hlast : (c.node v).lastVote.term ≤ (c.node v).term)
    (hstep : step c (.onDryRunComplete v) = some c') : ∃ given', Ledger given' c' := by
  simp only [step] at hstep
  split at hstep
  case h_1 originalTerm r hphase hr =>
    split_ifs at hstep with hlost
    · exact ⟨given, h.map_processLoseElection hstep⟩
    · obtain ⟨hterm, -⟩ := not_or.mp hlost
      split at hstep
      case h_1 nd hupdate =>
        cases hstep
        exact ⟨_, h.voteForMyself hphase (not_not.mp hterm) hlast hupdate⟩
      case h_2 => cases hstep
  case h_2 => cases hstep

theorem onWritten {succeeds : Bool}
    (hstep : step c (.writeLastVoteForMyElection v succeeds) = some c') : Ledger given c' := by
  simp only [step] at hstep
  split at hstep
  case h_1 lastVote hphase =>
    split_ifs at hstep
    · cases hstep
      exact h.writeLastVote hphase
    · exact h.map_processLoseElection hstep
  case h_2 => cases hstep

theorem requestVotes {lastOpTime : OpTime}
    (hstep : step c (.startVoteRequester v lastOpTime) = some c') : Ledger given c' := by
  simp only [step] at hstep
  split at hstep
  case h_1 lastVote hphase =>
    have hok := h.nodes v
    split_ifs at hstep with hterm
    · obtain ⟨nd, hnd, rfl⟩ := map_eq_some_iff.mp hstep
      have hset : c.setNode v nd = (c.setNode v (c.node v).waitUntilDurable).setNode v nd := by
        simp [Cluster.setNode]
      rw [hset]
      refine h.waitUntilDurable.processLoseElection ?_
      simpa [Cluster.setNode] using hnd
    · cases hstep
      have hwritten := hok.phase
      rw [hphase] at hwritten
      exact h.startVoteRequester hok.moves_waitUntilDurable rfl rfl lastOpTime hwritten
        (hok.active (by simp [hphase])) fun t ht => ⟨Phase.requesting.inj ht, rfl⟩
  case h_2 => cases hstep

theorem onVoteRequestComplete
    (hstep : step c (.onVoteRequestComplete v) = some c') : Ledger given c' := by
  simp only [step] at hstep
  split at hstep
  case h_1 newTerm r hphase hr =>
    split_ifs at hstep with hlost
    · exact h.map_processLoseElection hstep
    · obtain ⟨hterm, hresult⟩ := not_or.mp hlost
      obtain ⟨nd, hnd, rfl⟩ := bind_pure_eq_some.mp hstep
      exact h.processWinElection hphase hr (not_not.mp hterm) (not_not.mp hresult) hnd
  case h_2 => cases hstep

theorem judge {i : ℕ} {lastApplied : OpTime} {betterPrimary : Option ℕ}
    (hasc : Ascending c (.processReplSetRequestVotes v i lastApplied betterPrimary))
    (hstep : step c (.processReplSetRequestVotes v i lastApplied betterPrimary) = some c') :
    ∃ given', Ledger given' c' := by
  simp only [step] at hstep
  obtain ⟨h₀, hh₀, hstep⟩ := bind_eq_some_iff.mp hstep
  have hlast := hasc h₀ hh₀
  rcases processReplSetRequestVotes_cases (c.node v) v h₀.request.args lastApplied betterPrimary
    with ⟨hnd, hnot⟩ | ⟨hreal, hne, hgranted, hnd⟩
  · split at hstep
    · rw [if_neg hnot, hnd] at hstep
      cases hstep
      exact ⟨given, h.refuse hh₀ (by simpa using hnot)⟩
    · cases hstep
  · split at hstep
    · rw [if_pos ⟨hreal, hgranted⟩, hnd] at hstep
      cases hstep
      exact ⟨_, h.grant hh₀ (lt_of_le_of_ne (hlast hreal) hne) _⟩
    · cases hstep

theorem onVoteStored {i : ℕ} {succeeds : Bool}
    (hstep : step c (.storeVote v i succeeds) = some c') : Ledger given c' := by
  simp only [step] at hstep
  obtain ⟨h₀, hh₀, hstep⟩ := bind_eq_some_iff.mp hstep
  split at hstep
  case h_1 response hphase =>
    split_ifs at hstep
    · cases hstep
      exact h.storeVote hh₀ hphase h₀.request.args.candidateIndex
    · cases hstep
      exact h.refuse hh₀ (by simp)
  case h_2 => cases hstep

theorem onResponse {i : ℕ} (hstep : step c (.deliverResponse i) = some c') : Ledger given c' := by
  simp only [step] at hstep
  obtain ⟨rp, hrp, hstep⟩ := bind_eq_some_iff.mp hstep
  split at hstep
  case h_1 =>
    cases hstep
    exact h.dropResponse i
  case h_2 r hr =>
    split_ifs at hstep with hknown
    · cases hstep
      exact h.deliverResponse hrp hr hknown.1 hknown.2
    · cases hstep
      exact h.dropResponse i

/-- Every step keeps the account, where votes go by ascending terms. -/
theorem step {a : Action cfg} (hasc : Ascending c a)
    (hstep : step c a = some c') : ∃ given', Ledger given' c' := by
  cases a with
  | updateTerm v term =>
    cases hstep
    exact ⟨given, h.updateTerm term⟩
  | stepDownFinish v handler => exact ⟨given, h.stepDownFinish hstep⟩
  | becomeCandidate v =>
    simp only [Election.step] at hstep
    split_ifs at hstep with hfollower
    cases hstep
    exact ⟨given, h.setRole _ .candidate _ fun _ => hfollower.2⟩
  | startElectSelfV1 v lastOpTime => exact ⟨given, h.startElectSelf hstep⟩
  | onDryRunComplete v => exact h.onDryRunComplete hasc hstep
  | writeLastVoteForMyElection v succeeds => exact ⟨given, h.onWritten hstep⟩
  | startVoteRequester v lastOpTime => exact ⟨given, h.requestVotes hstep⟩
  | onVoteRequestComplete v => exact ⟨given, h.onVoteRequestComplete hstep⟩
  | deliverRequest i =>
    simp only [Election.step] at hstep
    obtain ⟨rq, hrq, rfl⟩ := bind_pure_eq_some.mp hstep
    refine ⟨given, h.deliverRequest hrq ?_⟩
    split_ifs
    · exact .inl rfl
    · exact .inr rfl
  | processReplSetRequestVotes v i lastApplied betterPrimary => exact h.judge hasc hstep
  | storeVote v i succeeds => exact ⟨given, h.onVoteStored hstep⟩
  | respond v i =>
    simp only [Election.step] at hstep
    obtain ⟨h₀, hh₀, hstep⟩ := bind_eq_some_iff.mp hstep
    split at hstep
    case h_1 response hphase =>
      cases hstep
      exact ⟨given, h.respond hh₀ hphase⟩
    case h_2 => cases hstep
  | deliverResponse i => exact ⟨given, h.onResponse hstep⟩
  | requestFailed v target =>
    simp only [Election.step] at hstep
    split at hstep
    case h_1 => cases hstep
    case h_2 r hr =>
      split_ifs at hstep with htarget
      cases hstep
      exact ⟨given, h.processResponse hr htarget (by simp)⟩
  | journal v =>
    cases hstep
    exact ⟨given, h.waitUntilDurable⟩
  | crash v lastOpTerm =>
    cases hstep
    exact ⟨_, h.restart lastOpTerm⟩

end Ledger

end

end Step

theorem card_filter_members (p : MemberConfig → Bool) :
    (univ.filter fun v : NodeId cfg => p (cfg.members.get v) = true).card =
      cfg.members.countP p := by
  have hmembers : cfg.members = (finRange cfg.members.length).map cfg.members.get := by simp
  have hcount : cfg.members.countP p =
      (finRange cfg.members.length).countP fun v => p (cfg.members.get v) := by
    conv_lhs => rw [hmembers, countP_map]
    rfl
  rw [hcount, countP_eq_length_filter, Fin.univ_def]
  simp [Finset.card, Finset.filter]

theorem card_voters : (univ.filter fun v : NodeId cfg => isVoter v = true).card =
    cfg.totalVotingMembers :=
  card_filter_members MemberConfig.isVoter

theorem WonBy.unique {given : Votes cfg} {node : NodeId cfg → Node cfg.members.length} {t : ℤ}
    {a b : NodeId cfg} (ha : WonBy given node t a) (hb : WonBy given node t b) : a = b := by
  obtain ⟨Qa, hcarda, hQa⟩ := ha
  obtain ⟨Qb, hcardb, hQb⟩ := hb
  have hvoters : ∀ Q : Finset (NodeId cfg), (∀ u ∈ Q, isVoter u = true) →
      Q ⊆ univ.filter fun v : NodeId cfg => isVoter v = true :=
    fun Q hQ u hu => mem_filter.mpr ⟨mem_univ u, hQ u hu⟩
  have hmeet : (Qa ∩ Qb).Nonempty := by
    refine inter_nonempty_of_card_lt_card_add_card (hvoters Qa fun u hu => (hQa u hu).1)
      (hvoters Qb fun u hu => (hQb u hu).1) ?_
    rw [card_voters]
    unfold ReplSetConfig.majorityVoteCount at hcarda hcardb
    omega
  obtain ⟨u, hu⟩ := hmeet
  obtain ⟨hua, hub⟩ := mem_inter.mp hu
  exact Option.some.inj ((hQa u hua).2.1.symm.trans (hQb u hub).2.1)

theorem ledger_init (cfg : ReplSetConfig) : Ledger (fun _ _ => none) (init cfg) := by
  refine ⟨fun v => ⟨by simp, ?_, ?_, by simp [init], by simp [init], trivial, by simp [init],
    by simp [init]⟩, ?_, by simp [init], by simp [init], by simp [init]⟩
  · rintro t ⟨d, hd, -⟩
    cases hd
  · rintro t ⟨d, hd, -⟩
    cases hd
  · rintro rq (hrq | ⟨v, h, hh, -⟩ | ⟨rp, hrp, -⟩)
    · cases hrq
    · cases hh
    · cases hrp

/-- In every run in which votes go by ascending terms, a term has at most one winner. -/
theorem election_safety (cfg : ReplSetConfig) (c : Cluster cfg.members.length)
    (hrun : Steps step Ascending (init cfg) c) (t : ℤ) (a b : NodeId cfg)
    (ha : (t, a) ∈ c.won) (hb : (t, b) ∈ c.won) : a = b := by
  have hledger : ∃ given, Ledger given c := by
    refine hrun.invariant (P := fun c => ∃ given, Ledger given c) ⟨_, ledger_init cfg⟩ ?_
    rintro s a s' ⟨given, h⟩ hasc hstep
    exact h.step hasc hstep
  obtain ⟨given, h⟩ := hledger
  exact (h.won _ ha).unique (h.won _ hb)

def threeMembers : ReplSetConfig where
  replSetName := "rs"
  configVersion := 1
  members := [.electing 0, .electing 1, .electing 2]
  writeConcernMajorityShouldJournal := false
  ids_nodup := by decide
  electable := by decide

def nodeA : NodeId threeMembers := ⟨0, by decide⟩

def nodeB : NodeId threeMembers := ⟨1, by decide⟩

def nodeC : NodeId threeMembers := ⟨2, by decide⟩

/-- Node A is elected with the vote of node C. -/
def firstElection : List (Action threeMembers) :=
  [.becomeCandidate nodeA, .startElectSelfV1 nodeA ⟨⟨1, 1⟩, 0⟩, .deliverRequest 1,
    .processReplSetRequestVotes nodeC 0 ⟨⟨1, 1⟩, 0⟩ none, .deliverResponse 0,
    .onDryRunComplete nodeA, .writeLastVoteForMyElection nodeA true,
    .startVoteRequester nodeA ⟨⟨1, 1⟩, 0⟩, .deliverRequest 2,
    .processReplSetRequestVotes nodeC 0 ⟨⟨1, 1⟩, 0⟩ none, .storeVote nodeC 0 true,
    .respond nodeC 0, .deliverResponse 0, .onVoteRequestComplete nodeA]

/-- Node A steps down for node B and votes for it, without adopting its term. -/
def secondElection : List (Action threeMembers) :=
  [.updateTerm nodeB 1, .becomeCandidate nodeB, .startElectSelfV1 nodeB ⟨⟨1, 1⟩, 0⟩,
    .deliverRequest 3, .processReplSetRequestVotes nodeC 0 ⟨⟨1, 1⟩, 0⟩ none, .deliverResponse 0,
    .onDryRunComplete nodeB, .writeLastVoteForMyElection nodeB true,
    .startVoteRequester nodeB ⟨⟨1, 1⟩, 0⟩, .deliverRequest 3, .stepDownFinish nodeA (some 0),
    .processReplSetRequestVotes nodeA 0 ⟨⟨1, 1⟩, 0⟩ none, .storeVote nodeA 0 true,
    .respond nodeA 0, .deliverResponse 0, .onVoteRequestComplete nodeB]

/-- Node A stands in the term it has just voted in. -/
def thirdElection : List (Action threeMembers) :=
  [.becomeCandidate nodeA, .startElectSelfV1 nodeA ⟨⟨1, 1⟩, 0⟩, .deliverRequest 5,
    .processReplSetRequestVotes nodeC 0 ⟨⟨1, 1⟩, 0⟩ none, .deliverResponse 0,
    .onDryRunComplete nodeA, .writeLastVoteForMyElection nodeA true,
    .startVoteRequester nodeA ⟨⟨1, 1⟩, 0⟩, .deliverRequest 6,
    .processReplSetRequestVotes nodeC 0 ⟨⟨1, 1⟩, 0⟩ none, .storeVote nodeC 0 true,
    .respond nodeC 0, .deliverResponse 0, .onVoteRequestComplete nodeA]

theorem election_safety_firstElection :
    ∃ c, Steps step Ascending (init threeMembers) c ∧ (1, nodeA) ∈ c.won ∧
      ∀ b, (1, b) ∈ c.won → nodeA = b := by
  have hrun : Steps step Ascending (init threeMembers) _ := Steps.of_runGuarded firstElection rfl
  exact ⟨_, hrun, List.mem_singleton.mpr rfl, fun b hb =>
    election_safety threeMembers _ hrun 1 nodeA b (List.mem_singleton.mpr rfl) hb⟩

/-- Without the condition nodes B and A both win term 2. -/
theorem two_winners_in_one_term : ∃ c, Steps step (fun _ _ => True) (init threeMembers) c ∧
      (2, nodeB) ∈ c.won ∧ (2, nodeA) ∈ c.won ∧ nodeA ≠ nodeB := by
  have hrun : Steps step (fun _ _ => True) (init threeMembers) _ :=
    Steps.of_runGuarded (firstElection ++ secondElection ++ thirdElection) rfl
  exact ⟨_, hrun, mem_of_getElem? (i := 1) rfl, mem_of_getElem? (i := 2) rfl, by decide⟩

end MongoServer.Election
