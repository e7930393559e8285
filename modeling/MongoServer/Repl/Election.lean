import Mathlib.Data.Fintype.Basic
import MongoServer.Repl.OpTime
import MongoServer.Repl.ReplSetConfig

/-!
Elections of protocol version 1. Each node runs its own critical sections: it learns terms,
answers vote requests, and stands for election in a dry run and then in earnest. Votes are
recorded in memory first and written to the lastVote document afterwards, so a request is
answered in several steps and a crash between them loses what was not durable. Requests and
responses wait in the network until they are delivered, in any order, or never.
-/
namespace MongoServer

structure LastVote where
  term : ℤ
  candidateIndex : ℤ
  deriving DecidableEq

def LastVote.initial : LastVote := ⟨OpTime.kInitialTerm, -1⟩

inductive Role where
  | follower | candidate | leader
  deriving DecidableEq

inductive UpdateTermResult where
  | alreadyUpToDate | triggerStepDown | updatedTerm
  deriving DecidableEq

structure ReplSetRequestVotesArgs where
  setName : String
  dryRun : Bool
  term : ℤ
  candidateIndex : ℤ
  configVersion : ℤ
  lastDurableOpTime : OpTime

/-- Why a vote was refused. -/
inductive VoteRefusal where
  | lowerTerm (candidates mine : ℤ)
  | configVersion (candidates mine : ℤ)
  | setName (candidates mine : String)
  | staleData (candidates mine : OpTime)
  | alreadyVoted (candidateIndex : ℤ) (term : ℤ)
  | healthyPrimary (index : ℕ)

structure ReplSetRequestVotesResponse where
  term : ℤ
  voteGranted : Bool
  reason : Option VoteRefusal

namespace Election

/-- A vote request on its way from a candidate's requester to a voter. -/
structure VoteRequest (n : ℕ) where
  requester : ℕ
  source : Fin n
  target : Fin n
  args : ReplSetRequestVotesArgs

/-- The answer to a request; none if the command failed. -/
structure VoteResponse (n : ℕ) where
  request : VoteRequest n
  response : Option ReplSetRequestVotesResponse

/-- `VoteRequester::Algorithm` with the runner that calls it once for each target. -/
structure VoteRequester (n : ℕ) where
  id : ℕ
  term : ℤ
  dryRun : Bool
  outstanding : List (Fin n)
  staleTerm : Bool
  responsesProcessed : ℕ
  votes : ℕ

/-- What a candidate's election waits for. -/
inductive Phase where
  | idle
  | dryRun (originalTerm : ℤ)
  | writing (lastVote : LastVote)
  | written (lastVote : LastVote)
  | requesting (newTerm : ℤ)
  deriving DecidableEq

/-- How far the answer to a vote request has come. -/
inductive HandlerPhase where
  | waiting
  | ready
  | voted (response : ReplSetRequestVotesResponse)
  | stored (response : ReplSetRequestVotesResponse)

structure Handler (n : ℕ) where
  request : VoteRequest n
  phase : HandlerPhase

structure Node (n : ℕ) where
  term : ℤ
  role : Role
  lastVote : LastVote
  stepDownPending : Bool
  /-- The lastVote document as the node sees it, and what of it a crash leaves. -/
  voteDocument : Option LastVote
  durableVoteDocument : Option LastVote
  voteRequester : Option (VoteRequester n)
  phase : Phase
  handlers : List (Handler n)
  nextRequester : ℕ

structure Cluster (n : ℕ) where
  node : Fin n → Node n
  requests : List (VoteRequest n)
  responses : List (VoteResponse n)
  /-- The elections won so far, by term and winner; no function reads them. -/
  won : List (ℤ × Fin n)

namespace Node
variable {n : ℕ} (nd : Node n)

def updateTerm (term : ℤ) : UpdateTermResult × Node n :=
  if term ≤ nd.term then (.alreadyUpToDate, nd)
  else if nd.role = .leader then (.triggerStepDown, { nd with stepDownPending := true })
  else (.updatedTerm, { nd with term := term })

/-- A leader with a pending step down becomes a follower; it keeps its term. -/
def stepDownIfPending : Option (Node n) :=
  if nd.stepDownPending then
    if nd.role = .leader then some { nd with role := .follower, stepDownPending := false } else none
  else some nd

def voteForMyselfV1 (self : Fin n) : Node n :=
  { nd with lastVote := ⟨nd.term, self.val⟩ }

def processLoseElection : Option (Node n) :=
  if nd.role = .candidate then some { nd with role := .follower, voteRequester := none, phase := .idle }
  else none

def processWinElection : Option (Node n) :=
  if nd.role = .candidate then some { nd with role := .leader, voteRequester := none, phase := .idle }
  else none

/-- The document is replaced only by one of a higher term. -/
def storeLocalLastVoteDocument (lastVote : LastVote) : Node n :=
  match nd.voteDocument with
  | none => { nd with voteDocument := some lastVote }
  | some old =>
      if old.term < lastVote.term then { nd with voteDocument := some lastVote } else nd

def waitUntilDurable : Node n := { nd with durableVoteDocument := nd.voteDocument }

/-- What is left of a node after a crash, with the term of its last oplog entry. -/
def restart (lastOpTerm : ℤ) : Node n :=
  let term := match nd.durableVoteDocument with
    | none => lastOpTerm
    | some lastVote => if lastOpTerm < lastVote.term then lastVote.term else lastOpTerm
  { term := if term ≤ OpTime.kInitialTerm then OpTime.kInitialTerm else term
    role := .follower
    lastVote := nd.durableVoteDocument.getD .initial
    stepDownPending := false
    voteDocument := nd.durableVoteDocument
    durableVoteDocument := nd.durableVoteDocument
    voteRequester := none
    phase := .idle
    handlers := []
    nextRequester := nd.nextRequester }

end Node

namespace VoteRequester
variable {n : ℕ} (r : VoteRequester n)

def processResponse (target : Fin n) (response : Option ReplSetRequestVotesResponse) :
    VoteRequester n :=
  let r := { r with
    outstanding := r.outstanding.erase target, responsesProcessed := r.responsesProcessed + 1 }
  match response with
  | none => r
  | some response =>
      { r with
        votes := if response.voteGranted then r.votes + 1 else r.votes
        staleTerm := r.staleTerm || decide (r.term < response.term) }

inductive Result where
  | staleTerm | successfullyElected | insufficientVotes
  deriving DecidableEq

def getResult (cfg : ReplSetConfig) : Result :=
  if r.staleTerm then .staleTerm
  else if cfg.majorityVoteCount ≤ r.votes then .successfullyElected
  else .insufficientVotes

end VoteRequester

section Steps
variable (cfg : ReplSetConfig)

abbrev NodeId := Fin cfg.members.length

variable {cfg} (c : Cluster cfg.members.length)

def isVoter (v : NodeId cfg) : Bool := (cfg.members.get v).isVoter

def targets (self : NodeId cfg) : List (NodeId cfg) :=
  (List.finRange cfg.members.length).filter fun v => isVoter v && decide (v ≠ self)

def Node.processReplSetRequestVotes (nd : Node cfg.members.length) (self : NodeId cfg)
    (args : ReplSetRequestVotesArgs) (lastAppliedOpTime : OpTime) (betterPrimary : Option ℕ) :
    ReplSetRequestVotesResponse × Node cfg.members.length :=
  if args.term < nd.term then (⟨nd.term, false, some (.lowerTerm args.term nd.term)⟩, nd)
  else if args.configVersion ≠ cfg.configVersion then
    (⟨nd.term, false, some (.configVersion args.configVersion cfg.configVersion)⟩, nd)
  else if args.setName ≠ cfg.replSetName then
    (⟨nd.term, false, some (.setName args.setName cfg.replSetName)⟩, nd)
  else if args.lastDurableOpTime < lastAppliedOpTime then
    (⟨nd.term, false, some (.staleData args.lastDurableOpTime lastAppliedOpTime)⟩, nd)
  else if args.dryRun = false ∧ nd.lastVote.term = args.term then
    (⟨nd.term, false, some (.alreadyVoted nd.lastVote.candidateIndex nd.lastVote.term)⟩, nd)
  else
    match betterPrimary, (cfg.members.get self).isArbiter with
    | some index, true => (⟨nd.term, false, some (.healthyPrimary index)⟩, nd)
    | _, _ =>
        (⟨nd.term, true, none⟩,
          if args.dryRun then nd else { nd with lastVote := ⟨args.term, args.candidateIndex⟩ })

def Cluster.setNode (v : NodeId cfg) (nd : Node cfg.members.length) : Cluster cfg.members.length :=
  { c with node := Function.update c.node v nd }

/-- A new requester, and the requests it sends to every other voter. -/
def Cluster.startVoteRequester (self : NodeId cfg) (nd : Node cfg.members.length) (term : ℤ)
    (dryRun : Bool) (lastOpTime : OpTime) (phase : Phase) : Cluster cfg.members.length :=
  let started := c.setNode self { nd with
    phase := phase
    voteRequester := some ⟨nd.nextRequester, term, dryRun, targets self, false, 0, 1⟩
    nextRequester := nd.nextRequester + 1 }
  { started with
    requests := c.requests ++ (targets self).map fun target =>
      ⟨nd.nextRequester, self, target, ⟨cfg.replSetName, dryRun, term, self.val, cfg.configVersion,
        lastOpTime⟩⟩ }

/-- What can happen in a replica set, one critical section or message at a time. -/
inductive Action (cfg : ReplSetConfig) where
  | updateTerm (v : NodeId cfg) (term : ℤ)
  | stepDownFinish (v : NodeId cfg) (handler : Option ℕ)
  | becomeCandidate (v : NodeId cfg)
  | startElectSelfV1 (v : NodeId cfg) (lastOpTime : OpTime)
  | onDryRunComplete (v : NodeId cfg)
  | writeLastVoteForMyElection (v : NodeId cfg) (succeeds : Bool)
  | startVoteRequester (v : NodeId cfg) (lastOpTime : OpTime)
  | onVoteRequestComplete (v : NodeId cfg)
  | deliverRequest (i : ℕ)
  | processReplSetRequestVotes (v : NodeId cfg) (handler : ℕ) (lastAppliedOpTime : OpTime)
      (betterPrimary : Option ℕ)
  | storeVote (v : NodeId cfg) (handler : ℕ) (succeeds : Bool)
  | respond (v : NodeId cfg) (handler : ℕ)
  | deliverResponse (i : ℕ)
  | requestFailed (v : NodeId cfg) (target : NodeId cfg)
  | journal (v : NodeId cfg)
  | crash (v : NodeId cfg) (lastOpTerm : ℤ)

/-- One action, where it is possible. -/
def step : Action cfg → Option (Cluster cfg.members.length)
  | .updateTerm v term => some (c.setNode v ((c.node v).updateTerm term).2)
  | .stepDownFinish v handler => do
      let nd ← (c.node v).stepDownIfPending
      match handler with
      | none => return c.setNode v nd
      | some i => return c.setNode v { nd with
          handlers := nd.handlers.modify i fun h =>
            match h.phase with
            | .waiting => { h with phase := .ready }
            | _ => h }
  | .becomeCandidate v =>
      if (c.node v).role = .follower ∧ (cfg.members.get v).isElectable then
        some (c.setNode v { c.node v with role := .candidate })
      else none
  | .startElectSelfV1 v lastOpTime =>
      if (c.node v).role = .candidate ∧ (c.node v).phase = .idle then
        if lastOpTime.Same .null then (c.node v).processLoseElection.map (c.setNode v)
        else some (c.startVoteRequester v (c.node v) (c.node v).term true lastOpTime
          (.dryRun (c.node v).term))
      else none
  | .onDryRunComplete v =>
      match (c.node v).phase, (c.node v).voteRequester with
      | .dryRun originalTerm, some r =>
          if (c.node v).term ≠ originalTerm ∨ r.getResult cfg ≠ .successfullyElected then
            (c.node v).processLoseElection.map (c.setNode v)
          else
            match (c.node v).updateTerm (originalTerm + 1) with
            | (.updatedTerm, nd) =>
                some (c.setNode v { nd.voteForMyselfV1 v with
                  phase := .writing ⟨originalTerm + 1, v.val⟩ })
            | _ => none
      | _, _ => none
  | .writeLastVoteForMyElection v succeeds =>
      match (c.node v).phase with
      | .writing lastVote =>
          if succeeds then
            some (c.setNode v { (c.node v).storeLocalLastVoteDocument lastVote with
              phase := .written lastVote })
          else (c.node v).processLoseElection.map (c.setNode v)
      | _ => none
  | .startVoteRequester v lastOpTime =>
      match (c.node v).phase with
      | .written lastVote =>
          if (c.node v).term ≠ lastVote.term then
            (c.node v).waitUntilDurable.processLoseElection.map (c.setNode v)
          else some (c.startVoteRequester v (c.node v).waitUntilDurable lastVote.term false lastOpTime
            (.requesting lastVote.term))
      | _ => none
  | .onVoteRequestComplete v =>
      match (c.node v).phase, (c.node v).voteRequester with
      | .requesting newTerm, some r =>
          if (c.node v).term ≠ newTerm ∨ r.getResult cfg ≠ .successfullyElected then
            (c.node v).processLoseElection.map (c.setNode v)
          else do
            let nd ← (c.node v).processWinElection
            return { c.setNode v nd with won := c.won ++ [((c.node v).term, v)] }
      | _, _ => none
  | .deliverRequest i => do
      let request ← c.requests[i]?
      let (result, nd) := (c.node request.target).updateTerm request.args.term
      let phase : HandlerPhase := if result = .triggerStepDown then .waiting else .ready
      return { c.setNode request.target { nd with handlers := nd.handlers ++ [⟨request, phase⟩] } with
        requests := c.requests.eraseIdx i }
  | .processReplSetRequestVotes v i lastAppliedOpTime betterPrimary => do
      let h ← (c.node v).handlers[i]?
      match h.phase with
      | .ready =>
          let (response, nd) := (c.node v).processReplSetRequestVotes v h.request.args
            lastAppliedOpTime betterPrimary
          if h.request.args.dryRun = false ∧ response.voteGranted then
            return c.setNode v { nd with handlers := nd.handlers.set i ⟨h.request, .voted response⟩ }
          else
            return { c.setNode v { nd with handlers := nd.handlers.eraseIdx i } with
              responses := c.responses ++ [⟨h.request, some response⟩] }
      | _ => none
  | .storeVote v i succeeds => do
      let h ← (c.node v).handlers[i]?
      match h.phase with
      | .voted response =>
          if succeeds then
            let nd := (c.node v).storeLocalLastVoteDocument
              ⟨h.request.args.term, h.request.args.candidateIndex⟩
            return c.setNode v { nd with handlers := nd.handlers.set i ⟨h.request, .stored response⟩ }
          else
            return { c.setNode v { c.node v with handlers := (c.node v).handlers.eraseIdx i } with
              responses := c.responses ++ [⟨h.request, none⟩] }
      | _ => none
  | .respond v i => do
      let h ← (c.node v).handlers[i]?
      match h.phase with
      | .stored response =>
          let nd := (c.node v).waitUntilDurable
          return { c.setNode v { nd with handlers := nd.handlers.eraseIdx i } with
            responses := c.responses ++ [⟨h.request, some response⟩] }
      | _ => none
  | .deliverResponse i => do
      let rp ← c.responses[i]?
      let rest : Cluster cfg.members.length := { c with responses := c.responses.eraseIdx i }
      match (c.node rp.request.source).voteRequester with
      | none => return rest
      | some r =>
          if r.id = rp.request.requester ∧ rp.request.target ∈ r.outstanding then
            return rest.setNode rp.request.source { c.node rp.request.source with
              voteRequester := some (r.processResponse rp.request.target rp.response) }
          else return rest
  | .requestFailed v target =>
      match (c.node v).voteRequester with
      | none => none
      | some r =>
          if target ∈ r.outstanding then
            some (c.setNode v { c.node v with voteRequester := some (r.processResponse target none) })
          else none
  | .journal v => some (c.setNode v (c.node v).waitUntilDurable)
  | .crash v lastOpTerm => some (c.setNode v ((c.node v).restart lastOpTerm))

def init (cfg : ReplSetConfig) : Cluster cfg.members.length where
  node _ := ⟨OpTime.kInitialTerm, .follower, .initial, false, none, none, none, .idle, [], 0⟩
  requests := []
  responses := []
  won := []

end Steps
end Election
end MongoServer
