import Mathlib.Data.Finset.Card
import MongoServer.Repl.Election

/-!
The account of all votes of an election: in each term each node gives at most one vote. A
vote that somebody else may count is durable, so a crash takes back only votes nobody has
seen. Every step of a node keeps the account, as long as the node does not vote in a term
before that of its last vote.
-/
namespace MongoServer.Election
open Function List Node

variable {cfg : ReplSetConfig} {lastVote : LastVote} {t : ℤ} {i : ℕ}
  {rq : VoteRequest cfg.members.length} {rp : VoteResponse cfg.members.length}

abbrev Votes (cfg : ReplSetConfig) := NodeId cfg → ℤ → Option (NodeId cfg)

/-- The durable document is of this term or a later one. -/
def Durable {n : ℕ} (nd : Node n) (t : ℤ) : Prop := ∃ d ∈ nd.durableVoteDocument, t ≤ d.term

/-- The document is of this term or a later one. -/
def Stored {n : ℕ} (nd : Node n) (t : ℤ) : Prop := ∃ d ∈ nd.voteDocument, t ≤ d.term

variable (given : Votes cfg)

variable (node : NodeId cfg → Node cfg.members.length)

/-- A vote that no crash takes back. -/
def Secured (u : NodeId cfg) (t : ℤ) (x : NodeId cfg) : Prop :=
  given u t = some x ∧ Durable (node u) t

/-- Secured votes stay secured while votes are added and documents grow. -/
def Grows (given' : Votes cfg) (node' : NodeId cfg → Node cfg.members.length) : Prop :=
  ∀ u t x, Secured given node u t x → Secured given' node' u t x

/-- A request asks another voter for a vote for its sender, on behalf of the requester it
names, which is either the sender's current one or gone. -/
structure RequestOk (node : NodeId cfg → Node cfg.members.length)
    (rq : VoteRequest cfg.members.length) : Prop where
  candidate : rq.args.candidateIndex = (rq.source.val : ℤ)
  voter : isVoter rq.target = true
  other : rq.target ≠ rq.source
  known : rq.requester < (node rq.source).nextRequester
  current : ∀ r, (node rq.source).voteRequester = some r → r.id = rq.requester →
    rq.args.term = r.term ∧ rq.args.dryRun = r.dryRun

/-- What an unfinished answer has done. -/
def HandlerOk (v : NodeId cfg) (nd : Node cfg.members.length)
    (h : Handler cfg.members.length) : Prop :=
  h.request.target = v ∧
    match h.phase with
    | .waiting => True
    | .ready => True
    | .voted _ => given v h.request.args.term = some h.request.source
    | .stored _ =>
        given v h.request.args.term = some h.request.source ∧ Stored nd h.request.args.term

/-- What a candidate has done for itself. -/
def PhaseOk (v : NodeId cfg) (nd : Node cfg.members.length) : Phase → Prop
  | .idle => True
  | .dryRun _ => True
  | .writing lastVote => given v lastVote.term = some v
  | .written lastVote => given v lastVote.term = some v ∧ Stored nd lastVote.term
  | .requesting newTerm => given v newTerm = some v ∧ Durable nd newTerm

/-- The account of one node. -/
structure NodeOk (given : Votes cfg) (v : NodeId cfg) (nd : Node cfg.members.length) : Prop where
  given_le : ∀ t x, given v t = some x → t ≤ nd.lastVote.term
  stored_le : ∀ t, Stored nd t → t ≤ nd.lastVote.term
  durable_stored : ∀ t, Durable nd t → Stored nd t
  electable : nd.role = .candidate → (cfg.members.get v).isElectable = true
  handlers : ∀ h ∈ nd.handlers, HandlerOk given v nd h
  phase : PhaseOk given v nd nd.phase
  active : nd.phase ≠ .idle → (cfg.members.get v).isElectable = true
  requester : ∀ r, nd.voteRequester = some r → r.id < nd.nextRequester

/-- The votes a requester has counted, apart from the candidate's own. -/
def RequesterOk (v : NodeId cfg) (newTerm : ℤ) (r : VoteRequester cfg.members.length) : Prop :=
  r.term = newTerm ∧ r.dryRun = false ∧ r.outstanding.Nodup ∧
    ∃ S : Finset (NodeId cfg), r.votes = S.card + 1 ∧
      ∀ u ∈ S, isVoter u = true ∧ u ≠ v ∧ u ∉ r.outstanding ∧ Secured given node u newTerm v

/-- A response that grants a real vote is backed by a durable one. -/
def ResponseOk (rp : VoteResponse cfg.members.length) : Prop :=
  ∀ response ∈ rp.response, response.voteGranted = true → rp.request.args.dryRun = false →
    Secured given node rp.request.target rp.request.args.term rp.request.source

/-- A quorum stands behind a winner. -/
def WonBy (t : ℤ) (x : NodeId cfg) : Prop :=
  ∃ Q : Finset (NodeId cfg), cfg.majorityVoteCount ≤ Q.card ∧
    ∀ u ∈ Q, isVoter u = true ∧ Secured given node u t x

/-- The requests that are on their way, being answered, or answered. -/
def Sent (c : Cluster cfg.members.length) (rq : VoteRequest cfg.members.length) : Prop :=
  rq ∈ c.requests ∨ (∃ v, ∃ h ∈ (c.node v).handlers, h.request = rq) ∨
    ∃ rp ∈ c.responses, rp.request = rq

structure Ledger (given : Votes cfg) (c : Cluster cfg.members.length) : Prop where
  nodes : ∀ v, NodeOk given v (c.node v)
  sent : ∀ rq, Sent c rq → RequestOk c.node rq
  requesting : ∀ v t, (c.node v).phase = .requesting t →
    ∃ r, (c.node v).voteRequester = some r ∧ RequesterOk given c.node v t r
  responses : ∀ rp ∈ c.responses, ResponseOk given c.node rp
  won : ∀ p ∈ c.won, WonBy given c.node p.1 p.2

variable {given given' : Votes cfg} {c c' : Cluster cfg.members.length}
  {node node' : NodeId cfg → Node cfg.members.length} {v x : NodeId cfg}
  {nd nd' : Node cfg.members.length} {r : VoteRequester cfg.members.length}

theorem HandlerOk.mono {handler : Handler cfg.members.length} (hok : HandlerOk given v nd handler)
    (hgiven : ∀ t x, given v t = some x → given' v t = some x)
    (hstored : ∀ t, Stored nd t → Stored nd' t) : HandlerOk given' v nd' handler := by
  unfold HandlerOk at hok ⊢
  cases hphase : handler.phase <;> rw [hphase] at hok
  · exact hok
  · exact hok
  · exact ⟨hok.1, hgiven _ _ hok.2⟩
  · exact ⟨hok.1, hgiven _ _ hok.2.1, hstored _ hok.2.2⟩

theorem PhaseOk.mono {phase : Phase} (hok : PhaseOk given v nd phase)
    (hgiven : ∀ t x, given v t = some x → given' v t = some x)
    (hstored : ∀ t, Stored nd t → Stored nd' t) (hdurable : ∀ t, Durable nd t → Durable nd' t) :
    PhaseOk given' v nd' phase := by
  cases phase
  · trivial
  · trivial
  · exact hgiven _ _ hok
  · exact ⟨hgiven _ _ hok.1, hstored _ hok.2⟩
  · exact ⟨hgiven _ _ hok.1, hdurable _ hok.2⟩

theorem RequesterOk.mono (h : RequesterOk given node v t r) (hg : Grows given node given' node') :
    RequesterOk given' node' v t r := by
  obtain ⟨hterm, hdry, hnodup, S, hvotes, hS⟩ := h
  refine ⟨hterm, hdry, hnodup, S, hvotes, fun u hu => ?_⟩
  obtain ⟨hvoter, hne, hout, hsecured⟩ := hS u hu
  exact ⟨hvoter, hne, hout, hg u t v hsecured⟩

theorem ResponseOk.mono (h : ResponseOk given node rp)
    (hg : Grows given node given' node') : ResponseOk given' node' rp :=
  fun response hr hgranted hreal => hg _ _ _ (h response hr hgranted hreal)

theorem WonBy.mono (h : WonBy given node t x)
    (hg : Grows given node given' node') : WonBy given' node' t x := by
  obtain ⟨Q, hcard, hQ⟩ := h
  exact ⟨Q, hcard, fun u hu => ⟨(hQ u hu).1, hg u t x (hQ u hu).2⟩⟩

/-- What one node does when it moves: it keeps its durable votes and the identity of its
requester, or takes a new one. -/
structure Moves (given given' : Votes cfg) (v : NodeId cfg) (nd nd' : Node cfg.members.length) :
    Prop where
  others : ∀ u, u ≠ v → given' u = given u
  keeps : ∀ t x, given v t = some x → Durable nd t → given' v t = some x
  durable : ∀ t, Durable nd t → Durable nd' t
  node : NodeOk given' v nd'
  next : nd.nextRequester ≤ nd'.nextRequester
  requester : ∀ r, nd'.voteRequester = some r → nd.nextRequester ≤ r.id ∨
    ∃ r₀, nd.voteRequester = some r₀ ∧ r₀.id = r.id ∧ r₀.term = r.term ∧ r₀.dryRun = r.dryRun

theorem Moves.grows (h : Moves given given' v (node v) nd') :
    Grows given node given' (update node v nd') := by
  intro u t x hsecured
  unfold Secured
  by_cases hu : u = v
  · subst hu
    rw [update_self]
    exact ⟨h.keeps t x hsecured.1 hsecured.2, h.durable t hsecured.2⟩
  · rw [update_of_ne hu, h.others u hu]
    exact hsecured

theorem Moves.requestOk (h : Moves given given' v (node v) nd') (hrq : RequestOk node rq) :
    RequestOk (update node v nd') rq := by
  refine ⟨hrq.candidate, hrq.voter, hrq.other, ?_, ?_⟩
  · by_cases hv : rq.source = v
    · rw [hv, update_self]
      exact lt_of_lt_of_le (hv ▸ hrq.known) h.next
    · rw [update_of_ne hv]
      exact hrq.known
  · intro r hr hid
    by_cases hv : rq.source = v
    · rw [hv, update_self] at hr
      have hknown := hrq.known
      have hcurrent := hrq.current
      rw [hv] at hknown hcurrent
      rcases h.requester r hr with hfresh | ⟨r₀, hr₀, hid₀, hterm, hdry⟩
      · omega
      · rw [← hterm, ← hdry]
        exact hcurrent r₀ hr₀ (hid₀.trans hid)
    · rw [update_of_ne hv] at hr
      exact hrq.current r hr hid

theorem sent_handler (hh : h ∈ (c.node v).handlers) : Sent c h.request :=
  .inr (.inl ⟨v, h, hh, rfl⟩)

theorem Moves.grows_setNode (hmove : Moves given given' v (c.node v) nd')
    (h : Ledger given c) (hphase : (c.node v).phase = .requesting t)
    (hrequester : nd'.voteRequester = (c.node v).voteRequester) :
    ∃ r, nd'.voteRequester = some r ∧ RequesterOk given' (update c.node v nd') v t r := by
  obtain ⟨r, hr, hok⟩ := h.requesting v t hphase
  exact ⟨r, hrequester.trans hr, hok.mono hmove.grows⟩

/-- A node moves when it keeps the account and what is durable, with the same requester. -/
theorem NodeOk.moves (h : NodeOk given v nd') (hdurable : ∀ t, Durable nd t → Durable nd' t)
    (hrequester : nd'.voteRequester = nd.voteRequester)
    (hnext : nd'.nextRequester = nd.nextRequester) : Moves given given v nd nd' :=
  ⟨fun _ _ => rfl, fun _ _ hg _ => hg, hdurable, h, hnext.ge,
    fun r hr => .inr ⟨r, hrequester ▸ hr, rfl, rfl, rfl⟩⟩

theorem storeLocalLastVoteDocument_eq (nd : Node cfg.members.length) (lastVote : LastVote) :
    ∃ d, nd.storeLocalLastVoteDocument lastVote = { nd with voteDocument := some d } ∧
      lastVote.term ≤ d.term ∧ (∀ t, Stored nd t → t ≤ d.term) ∧
      (d = lastVote ∨ Stored nd d.term) := by
  unfold storeLocalLastVoteDocument Stored
  cases hdoc : nd.voteDocument with
  | none => exact ⟨lastVote, rfl, le_refl _, by simp, .inl rfl⟩
  | some old =>
    by_cases hlt : old.term < lastVote.term
    · refine ⟨lastVote, by simp [hlt], le_refl _, ?_, .inl rfl⟩
      rintro t ⟨d, hd, ht⟩
      cases hd
      omega
    · refine ⟨old, ?_, not_lt.mp hlt, ?_, .inr ⟨old, rfl, le_refl _⟩⟩
      · dsimp only
        rw [if_neg hlt, ← hdoc]
      · rintro t ⟨d, hd, ht⟩
        cases hd
        exact ht

def Votes.cast (v : NodeId cfg) (t : ℤ) (x : NodeId cfg) : Votes cfg :=
  update given v (update (given v) t (some x))

theorem Votes.cast_self (t : ℤ) (x : NodeId cfg) : given.cast v t x v t = some x := by
  simp [Votes.cast]

/-- After a crash only the durable votes count. -/
noncomputable def Votes.restrict (v : NodeId cfg) (nd : Node cfg.members.length) : Votes cfg :=
  open Classical in
  update given v fun t => if Durable nd t then given v t else none

theorem mem_targets {u : NodeId cfg} : u ∈ targets v ↔ isVoter u = true ∧ u ≠ v := by
  simp [targets]

theorem nodup_targets (v : NodeId cfg) : (targets v).Nodup :=
  (nodup_finRange _).filter _

theorem processReplSetRequestVotes_cases (nd : Node cfg.members.length) (v : NodeId cfg)
    (args : ReplSetRequestVotesArgs) (lastApplied : OpTime) (betterPrimary : Option ℕ) :
    ((nd.processReplSetRequestVotes v args lastApplied betterPrimary).2 = nd ∧
      ¬(args.dryRun = false ∧
        (nd.processReplSetRequestVotes v args lastApplied betterPrimary).1.voteGranted = true)) ∨
    (args.dryRun = false ∧ nd.lastVote.term ≠ args.term ∧
      (nd.processReplSetRequestVotes v args lastApplied betterPrimary).1.voteGranted = true ∧
      (nd.processReplSetRequestVotes v args lastApplied betterPrimary).2 =
        { nd with lastVote := ⟨args.term, args.candidateIndex⟩ }) := by
  unfold processReplSetRequestVotes
  split_ifs with _ _ _ _ hvoted hdry
  all_goals try exact .inl ⟨rfl, by simp⟩
  · split <;> exact .inl ⟨rfl, by simp [hdry]⟩
  · rw [Bool.not_eq_true] at hdry
    split
    · exact .inl ⟨rfl, by simp⟩
    · exact .inr ⟨hdry, fun heq => hvoted ⟨hdry, heq⟩, rfl, rfl⟩

section
variable (h : NodeOk given v nd)
include h

theorem NodeOk.role (term : ℤ) (role : Role) (pending : Bool)
    (helectable : role = .candidate → (cfg.members.get v).isElectable = true) :
    NodeOk given v { nd with term := term, role := role, stepDownPending := pending } :=
  { h with electable := helectable }

theorem NodeOk.moves_role (term : ℤ) (role : Role) (pending : Bool)
    (helectable : role = .candidate → (cfg.members.get v).isElectable = true) :
    Moves given given v nd { nd with term := term, role := role, stepDownPending := pending } :=
  (h.role term role pending helectable).moves (fun _ => id) rfl rfl

theorem NodeOk.moves_idle (role : Role) (hrole : role ≠ .candidate) :
    Moves given given v nd { nd with role := role, voteRequester := none, phase := .idle } :=
  ⟨fun _ _ => rfl, fun _ _ hg _ => hg, fun _ hd => hd, { h with
      electable := fun hc => absurd hc hrole, phase := trivial, active := by simp
      requester := by simp }, le_refl _, by simp⟩

theorem NodeOk.store (hgiven : given v lastVote.term = some x) :
    NodeOk given v (nd.storeLocalLastVoteDocument lastVote) ∧
      Stored (nd.storeLocalLastVoteDocument lastVote) lastVote.term := by
  obtain ⟨d, heq, hle, hkeep, hfrom⟩ := storeLocalLastVoteDocument_eq nd lastVote
  rw [heq]
  have hkeep' : ∀ t, Stored nd t → Stored { nd with voteDocument := some d } t :=
    fun t ht => ⟨d, rfl, hkeep t ht⟩
  have hd : d.term ≤ nd.lastVote.term := by
    rcases hfrom with rfl | hstored
    · exact h.given_le _ x hgiven
    · exact h.stored_le _ hstored
  refine ⟨{ h with
    stored_le := ?_
    durable_stored := fun t ht => hkeep' t (h.durable_stored t ht)
    handlers := fun h' hh => (h.handlers h' hh).mono (fun _ _ => id) hkeep'
    phase := h.phase.mono (fun _ _ => id) hkeep' fun _ => id }, ⟨d, rfl, hle⟩⟩
  rintro t ⟨d', hd', ht⟩
  cases hd'
  exact ht.trans hd

theorem NodeOk.moves_store (hgiven : given v lastVote.term = some x) :
    Moves given given v nd (nd.storeLocalLastVoteDocument lastVote) := by
  have hstore := (h.store hgiven).1
  obtain ⟨d, heq, -⟩ := storeLocalLastVoteDocument_eq nd lastVote
  rw [heq] at hstore ⊢
  exact hstore.moves (fun _ => id) rfl rfl

theorem NodeOk.waitUntilDurable : NodeOk given v nd.waitUntilDurable :=
  { h with
    durable_stored := fun _ ht => ht
    phase := h.phase.mono (fun _ _ => id) (fun _ => id) h.durable_stored }

theorem NodeOk.moves_waitUntilDurable : Moves given given v nd nd.waitUntilDurable :=
  h.waitUntilDurable.moves h.durable_stored rfl rfl

theorem NodeOk.cast_of_given {t t₀ : ℤ} {x₀ : NodeId cfg}
    (ht : nd.lastVote.term < t) (hgiven : given v t₀ = some x₀) :
    given.cast v t x v t₀ = some x₀ := by
  have hne : t₀ ≠ t := by
    have hle := h.given_le t₀ x₀ hgiven
    omega
  simp [Votes.cast, hne, hgiven]

theorem NodeOk.cast (ht : nd.lastVote.term < t) (candidateIndex : ℤ) :
    NodeOk (given.cast v t x) v { nd with lastVote := ⟨t, candidateIndex⟩ } := by
  refine ⟨fun t₀ x₀ hgiven => ?_, fun t₀ hstored => (h.stored_le t₀ hstored).trans ht.le,
    h.durable_stored, h.electable,
    fun h' hh => (h.handlers h' hh).mono (fun _ _ => h.cast_of_given ht) fun _ => id,
    h.phase.mono (fun _ _ => h.cast_of_given ht) (fun _ => id) fun _ => id, h.active, h.requester⟩
  by_cases heq : t₀ = t
  · exact heq.le
  · rw [Votes.cast, update_self, update_of_ne heq] at hgiven
    exact (h.given_le t₀ x₀ hgiven).trans ht.le

theorem NodeOk.moves_cast (ht : nd.lastVote.term < t) (hnode : NodeOk (given.cast v t x) v nd')
    (hdurable : nd'.durableVoteDocument = nd.durableVoteDocument)
    (hrequester : nd'.voteRequester = nd.voteRequester)
    (hnext : nd'.nextRequester = nd.nextRequester) : Moves given (given.cast v t x) v nd nd' := by
  refine ⟨fun u hu => update_of_ne hu _ _, fun t₀ x₀ hgiven _ => h.cast_of_given ht hgiven,
    fun t₀ hd => ?_, hnode, hnext.ge, fun r hr => .inr ⟨r, hrequester ▸ hr, rfl, rfl, rfl⟩⟩
  unfold Durable at hd ⊢
  rwa [hdurable]

theorem NodeOk.withHandlers (handlers : List (Handler _))
    (hhandlers : ∀ h' ∈ handlers, HandlerOk given v nd h') :
    NodeOk given v { nd with handlers := handlers } :=
  { h with handlers := hhandlers }

end

theorem updateTerm_eq (nd : Node cfg.members.length) (term : ℤ) :
    ∃ t pending, (nd.updateTerm term).2 =
      { nd with term := t, role := nd.role, stepDownPending := pending } := by
  unfold updateTerm
  split_ifs
  · exact ⟨nd.term, nd.stepDownPending, rfl⟩
  · exact ⟨nd.term, true, rfl⟩
  · exact ⟨term, nd.stepDownPending, rfl⟩

theorem Moves.withHandlers {nd₀ : Node cfg.members.length} (h : Moves given given' v nd₀ nd)
    (handlers : List (Handler _)) (hhandlers : ∀ h' ∈ handlers, HandlerOk given' v nd h') :
    Moves given given' v nd₀ { nd with handlers := handlers } :=
  { h with node := h.node.withHandlers handlers hhandlers }

theorem NodeOk.moves_handlers (h : NodeOk given v nd) (handlers : List (Handler _))
    (hhandlers : ∀ h' ∈ handlers, HandlerOk given v nd h') :
    Moves given given v nd { nd with handlers := handlers } :=
  (h.withHandlers handlers hhandlers).moves (fun _ => id) rfl rfl

section
variable (h : Ledger given c)
include h

theorem Ledger.move
    (hmove : Moves given given' v (c.node v) nd') (hnode : c'.node = update c.node v nd')
    (hhandlers : ∀ h ∈ nd'.handlers, Sent c h.request)
    (hrequests : ∀ rq ∈ c'.requests, Sent c rq ∨ RequestOk c'.node rq)
    (hrequesting : ∀ t, nd'.phase = .requesting t →
      ∃ r, nd'.voteRequester = some r ∧ RequesterOk given' c'.node v t r)
    (hresponses : ∀ rp ∈ c'.responses, rp ∈ c.responses ∨
      Sent c rp.request ∧ ResponseOk given' c'.node rp)
    (hwon : ∀ p ∈ c'.won, p ∈ c.won ∨ WonBy given' c'.node p.1 p.2) : Ledger given' c' := by
  have hgrows : Grows given c.node given' c'.node := hnode ▸ hmove.grows
  have hsent : ∀ rq, Sent c rq → RequestOk c'.node rq := fun rq hrq =>
    hnode ▸ hmove.requestOk (h.sent rq hrq)
  refine ⟨fun u => ?_, fun rq hrq => ?_, fun u t hu => ?_, fun rp hrp => ?_, fun p hp => ?_⟩
  · rw [hnode]
    by_cases hu : u = v
    · subst hu
      rw [update_self]
      exact hmove.node
    · rw [update_of_ne hu]
      have hold := h.nodes u
      have heq := hmove.others u hu
      have hsame : ∀ t x, given u t = some x → given' u t = some x := by simp [heq]
      exact ⟨heq ▸ hold.given_le, hold.stored_le, hold.durable_stored, hold.electable,
        fun h' hh' => (hold.handlers h' hh').mono hsame fun _ => id,
        hold.phase.mono hsame (fun _ => id) fun _ => id, hold.active, hold.requester⟩
  · rcases hrq with hrq | ⟨u, h', hh, rfl⟩ | ⟨rp, hrp, rfl⟩
    · exact (hrequests rq hrq).elim (hsent rq) id
    · apply hsent
      rw [hnode] at hh
      by_cases hu : u = v
      · subst hu
        rw [update_self] at hh
        exact hhandlers h' hh
      · rw [update_of_ne hu] at hh
        exact sent_handler hh
    · exact hsent _ ((hresponses rp hrp).elim (fun hold => .inr (.inr ⟨rp, hold, rfl⟩)) And.left)
  · by_cases hv : u = v
    · subst hv
      rw [hnode, update_self] at hu ⊢
      exact hnode ▸ hrequesting t hu
    · rw [hnode, update_of_ne hv] at hu ⊢
      obtain ⟨r, hr, hok⟩ := h.requesting u t hu
      exact ⟨r, hr, hnode ▸ hok.mono hgrows⟩
  · rcases hresponses rp hrp with hold | hnew
    · exact (h.responses rp hold).mono hgrows
    · exact hnew.2
  · rcases hwon p hp with hold | hnew
    · exact (h.won p hold).mono hgrows
    · exact hnew

theorem Ledger.setNode (hmove : Moves given given' v (c.node v) nd')
    (hhandlers : ∀ h ∈ nd'.handlers, Sent c h.request)
    (hrequesting : ∀ t, nd'.phase = .requesting t → ∃ r, nd'.voteRequester = some r ∧
      RequesterOk given' (update c.node v nd') v t r) :
    Ledger given' (c.setNode v nd') :=
  h.move hmove rfl hhandlers (fun _ hrq => .inl (.inl hrq)) hrequesting (fun _ hrp => .inl hrp)
    fun _ hp => .inl hp

theorem Ledger.setRole (term : ℤ) (role : Role) (pending : Bool)
    (helectable : role = .candidate → (cfg.members.get v).isElectable = true) :
    Ledger given (c.setNode v
      { c.node v with term := term, role := role, stepDownPending := pending }) := by
  have hmove := (h.nodes v).moves_role term role pending helectable
  refine h.setNode hmove (fun h' hh => sent_handler hh) fun t ht => ?_
  exact hmove.grows_setNode h ht rfl

theorem Ledger.updateTerm (term : ℤ) :
    Ledger given (c.setNode v ((c.node v).updateTerm term).2) := by
  obtain ⟨t, pending, heq⟩ := updateTerm_eq (c.node v) term
  rw [heq]
  exact h.setRole t (c.node v).role pending (h.nodes v).electable

theorem Ledger.processLoseElection
    (hlost : (c.node v).processLoseElection = some nd') : Ledger given (c.setNode v nd') := by
  unfold Node.processLoseElection at hlost
  split_ifs at hlost
  cases hlost
  exact h.setNode ((h.nodes v).moves_idle .follower (by simp)) (fun h' hh => sent_handler hh) (by simp)

theorem Ledger.waitUntilDurable : Ledger given (c.setNode v (c.node v).waitUntilDurable) := by
  have hmove := (h.nodes v).moves_waitUntilDurable
  exact h.setNode hmove (fun h' hh => sent_handler hh) fun t ht => hmove.grows_setNode h ht rfl

theorem Ledger.restart (lastOpTerm : ℤ) :
    Ledger (given.restrict v (c.node v)) (c.setNode v ((c.node v).restart lastOpTerm)) := by
  have hlast : ∀ t, Durable (c.node v) t → t ≤ ((c.node v).restart lastOpTerm).lastVote.term := by
    rintro t ⟨d, hd, ht⟩
    rw [Option.mem_def] at hd
    simpa [Node.restart, hd] using ht
  have hmove : Moves given (given.restrict v (c.node v)) v (c.node v)
      ((c.node v).restart lastOpTerm) := by
    refine ⟨fun u hu => update_of_ne hu _ _, fun t x hgiven hd => ?_, fun t hd => hd, ?_,
      le_refl _, by simp [Node.restart]⟩
    · simp [Votes.restrict, hd, hgiven]
    · refine ⟨fun t x hgiven => ?_, hlast, fun t ht => ht, by simp [Node.restart],
        by simp [Node.restart], trivial, by simp [Node.restart], by simp [Node.restart]⟩
      refine hlast t ?_
      by_contra hd
      simp [Votes.restrict, hd] at hgiven
  exact h.setNode hmove (by simp [Node.restart]) (by simp [Node.restart])

theorem Ledger.startVoteRequester (hmove : Moves given given v (c.node v) nd)
    (hhandlers : nd.handlers = (c.node v).handlers)
    (hnext : nd.nextRequester = (c.node v).nextRequester) {term : ℤ} {dryRun : Bool}
    (lastOpTime : OpTime) {phase : Phase} (hphase : PhaseOk given v nd phase)
    (helectable : (cfg.members.get v).isElectable = true)
    (hreal : ∀ t, phase = .requesting t → term = t ∧ dryRun = false) :
    Ledger given (c.startVoteRequester v nd term dryRun lastOpTime phase) := by
  have hok := hmove.node
  have hmove' : Moves given given v (c.node v) { nd with
      phase := phase
      voteRequester := some ⟨nd.nextRequester, term, dryRun, targets v, false, 0, 1⟩
      nextRequester := nd.nextRequester + 1 } := by
    refine { hmove with node := ?_, next := ?_, requester := ?_ }
    · refine { hok with phase := ?_, active := fun _ => helectable, requester := ?_ }
      · cases phase <;> exact hphase
      · rintro r hr
        cases hr
        exact Nat.lt_succ_self _
    · exact hmove.next.trans (Nat.le_succ _)
    · rintro r hr
      cases hr
      exact .inl hnext.ge
  have hnode : (c.startVoteRequester v nd term dryRun lastOpTime phase).node =
      update c.node v { nd with
        phase := phase
        voteRequester := some ⟨nd.nextRequester, term, dryRun, targets v, false, 0, 1⟩
        nextRequester := nd.nextRequester + 1 } := rfl
  refine h.move hmove' hnode (fun h' hh => sent_handler (hhandlers ▸ hh)) ?_ (fun t ht => ?_)
    (fun rp hrp => .inl hrp) (fun p hp => .inl hp)
  · refine forall_mem_append.mpr ⟨fun rq hrq => .inl (.inl hrq), forall_mem_map.mpr ?_⟩
    intro target htarget
    obtain ⟨hvoter, hne⟩ := mem_targets.mp htarget
    refine .inr ⟨rfl, hvoter, hne, ?_, fun r hr _ => ?_⟩
    · rw [hnode, update_self]
      exact Nat.lt_succ_self _
    · rw [hnode, update_self] at hr
      cases hr
      exact ⟨rfl, rfl⟩
  · obtain ⟨hterm, hdry⟩ := hreal t ht
    exact ⟨_, rfl, hterm, hdry, nodup_targets v, ∅, rfl, by simp⟩

theorem Ledger.voteForMyself {originalTerm : ℤ}
    (hphase : (c.node v).phase = .dryRun originalTerm) (hterm : (c.node v).term = originalTerm)
    (hlast : (c.node v).lastVote.term ≤ (c.node v).term)
    (hupdate : (c.node v).updateTerm (originalTerm + 1) = (.updatedTerm, nd)) :
    Ledger (given.cast v (originalTerm + 1) v) (c.setNode v { nd.voteForMyselfV1 v with
      phase := .writing ⟨originalTerm + 1, v.val⟩ }) := by
  have hok := h.nodes v
  have hlt : (c.node v).lastVote.term < originalTerm + 1 := by omega
  have hnd : nd = { c.node v with term := originalTerm + 1 } := by
    unfold Node.updateTerm at hupdate
    split_ifs at hupdate
    · exact absurd (Prod.mk.inj hupdate).1 (by simp)
    · exact absurd (Prod.mk.inj hupdate).1 (by simp)
    · exact (Prod.mk.inj hupdate).2.symm
  have hcast := hok.cast (x := v) hlt v.val
  have hnode : NodeOk (given.cast v (originalTerm + 1) v) v { nd.voteForMyselfV1 v with
      phase := .writing ⟨originalTerm + 1, v.val⟩ } := by
    rw [hnd]
    exact { hcast with
      phase := Votes.cast_self _ _, active := fun _ => hok.active (by simp [hphase]) }
  refine h.setNode (hok.moves_cast hlt hnode ?_ ?_ ?_) (fun h' hh => ?_) (by simp)
  · rw [hnd]
    rfl
  · rw [hnd]
    rfl
  · rw [hnd]
    rfl
  · rw [hnd] at hh
    exact sent_handler hh

theorem Ledger.writeLastVote (hphase : (c.node v).phase = .writing lastVote) :
    Ledger given (c.setNode v { (c.node v).storeLocalLastVoteDocument lastVote with
      phase := .written lastVote }) := by
  have hok := h.nodes v
  have hgiven : given v lastVote.term = some v := by
    have hp := hok.phase
    rwa [hphase] at hp
  have hactive := hok.active (by simp [hphase])
  obtain ⟨hstore, hstored⟩ := hok.store hgiven
  obtain ⟨d, heq, -, hkeep, -⟩ := storeLocalLastVoteDocument_eq (c.node v) lastVote
  rw [heq] at hstore hstored ⊢
  have hmove : Moves given given v (c.node v)
      { c.node v with voteDocument := some d, phase := .written lastVote } :=
    NodeOk.moves { hstore with phase := ⟨hgiven, hstored⟩, active := fun _ => hactive }
      (fun _ => id) rfl rfl
  exact h.setNode hmove (fun h' hh => sent_handler hh) (by simp)

theorem Ledger.win {newTerm : ℤ}
    (hphase : (c.node v).phase = .requesting newTerm) (hr : (c.node v).voteRequester = some r)
    (hresult : r.getResult cfg = .successfullyElected) : WonBy given c.node newTerm v := by
  have hok := h.nodes v
  have hown : given v newTerm = some v ∧ Durable (c.node v) newTerm := by
    have hp := hok.phase
    rwa [hphase] at hp
  have hvoter : isVoter v = true :=
    MemberConfig.isVoter_of_isElectable (hok.active (by simp [hphase]))
  obtain ⟨r', hr', -, -, -, S, hvotes, hS⟩ := h.requesting v newTerm hphase
  obtain rfl := Option.some.inj (hr.symm.trans hr')
  have hnot : v ∉ S := fun hv => (hS v hv).2.1 rfl
  have hmajority : cfg.majorityVoteCount ≤ r.votes := by
    unfold VoteRequester.getResult at hresult
    split_ifs at hresult with hstale hcount
    exact hcount
  refine ⟨insert v S, ?_, fun u hu => ?_⟩
  · rw [Finset.card_insert_of_notMem hnot, ← hvotes]
    exact hmajority
  · rcases Finset.mem_insert.mp hu with rfl | hu
    · exact ⟨hvoter, hown⟩
    · exact ⟨(hS u hu).1, (hS u hu).2.2.2⟩

theorem Ledger.processWinElection {newTerm : ℤ}
    (hphase : (c.node v).phase = .requesting newTerm) (hr : (c.node v).voteRequester = some r)
    (hterm : (c.node v).term = newTerm) (hresult : r.getResult cfg = .successfullyElected)
    (hwin : (c.node v).processWinElection = some nd') :
    Ledger given { c.setNode v nd' with won := c.won ++ [((c.node v).term, v)] } := by
  have hwon : WonBy given c.node (c.node v).term v := hterm ▸ h.win hphase hr hresult
  unfold Node.processWinElection at hwin
  split_ifs at hwin
  cases hwin
  have hmove := (h.nodes v).moves_idle .leader (by simp)
  have hset := h.setNode hmove (fun h' hh => sent_handler hh) (by simp)
  exact { hset with won :=
    forall_mem_append.mpr ⟨hset.won, forall_mem_singleton.mpr (hwon.mono hmove.grows)⟩ }

theorem Ledger.answer (hmove : Moves given given' v (c.node v) nd')
    (hhandlers : ∀ h ∈ nd'.handlers, Sent c h.request) (hphase : nd'.phase = (c.node v).phase)
    (hrequester : nd'.voteRequester = (c.node v).voteRequester) (hsent : Sent c rp.request)
    (hrp : ResponseOk given' (update c.node v nd') rp) :
    Ledger given' { c.setNode v nd' with responses := c.responses ++ [rp] } := by
  refine h.move hmove rfl hhandlers (fun rq hrq => .inl (.inl hrq)) (fun t ht => ?_) ?_
    (fun p hp => .inl hp)
  · exact hmove.grows_setNode h (hphase ▸ ht) hrequester
  · exact forall_mem_append.mpr ⟨fun rp' => .inl, forall_mem_singleton.mpr (.inr ⟨hsent, hrp⟩)⟩

theorem Ledger.deliverRequest (hrq : c.requests[i]? = some rq)
    {phase : HandlerPhase} (hphase : phase = .waiting ∨ phase = .ready) :
    Ledger given { c.setNode rq.target { ((c.node rq.target).updateTerm rq.args.term).2 with
        handlers := ((c.node rq.target).updateTerm rq.args.term).2.handlers ++ [⟨rq, phase⟩] } with
      requests := c.requests.eraseIdx i } := by
  have hmem : rq ∈ c.requests := mem_of_getElem? hrq
  have hok := h.nodes rq.target
  obtain ⟨t, pending, heq⟩ := updateTerm_eq (c.node rq.target) rq.args.term
  rw [heq]
  have hnew : ∀ h' ∈ (c.node rq.target).handlers ++ [⟨rq, phase⟩],
      HandlerOk given rq.target (c.node rq.target) h' := by
    refine forall_mem_append.mpr ⟨hok.handlers, forall_mem_singleton.mpr ?_⟩
    rcases hphase with rfl | rfl <;> exact ⟨rfl, trivial⟩
  have hmove := (hok.moves_role t (c.node rq.target).role pending hok.electable).withHandlers _ hnew
  refine h.move hmove rfl ?_ (fun rq hrq => .inl (.inl (mem_of_mem_eraseIdx hrq)))
    (fun t ht => hmove.grows_setNode h ht rfl) (fun rp hrp => .inl hrp) (fun p hp => .inl hp)
  exact forall_mem_append.mpr ⟨fun h' hh => sent_handler hh, forall_mem_singleton.mpr (.inl hmem)⟩

end

variable {h₀ : Handler cfg.members.length} {response : ReplSetRequestVotesResponse}

theorem HandlerOk.of_mem_set {l : List (Handler cfg.members.length)} (i : ℕ)
    (hl : ∀ h ∈ l, HandlerOk given v nd h) (h₀ok : HandlerOk given v nd h₀) :
    ∀ h ∈ l.set i h₀, HandlerOk given v nd h := by
  intro h hh
  rcases mem_or_eq_of_mem_set hh with hh | rfl
  · exact hl h hh
  · exact h₀ok

theorem sent_of_mem_set {h' : Handler cfg.members.length} {phase : HandlerPhase}
    (hmem : h₀ ∈ (c.node v).handlers) (hh' : h' ∈ (c.node v).handlers.set i ⟨h₀.request, phase⟩) :
    Sent c h'.request := by
  rcases mem_or_eq_of_mem_set hh' with hh' | rfl
  · exact sent_handler hh'
  · exact (sent_handler hmem : Sent c h₀.request)

theorem RequesterOk.processResponse {target : NodeId cfg}
    {response : Option ReplSetRequestVotesResponse}
    (h : RequesterOk given node v t r) (htarget : target ∈ r.outstanding)
    (hgranted : ∀ response' ∈ response, response'.voteGranted = true →
      isVoter target = true ∧ target ≠ v ∧ Secured given node target t v) :
    RequesterOk given node v t (r.processResponse target response) := by
  obtain ⟨hterm, hdry, hnodup, S, hvotes, hS⟩ := h
  have hout : target ∉ r.outstanding.erase target := hnodup.not_mem_erase
  have hold : ∀ u ∈ S, isVoter u = true ∧ u ≠ v ∧ u ∉ r.outstanding.erase target ∧
      Secured given node u t v := fun u hu =>
    ⟨(hS u hu).1, (hS u hu).2.1, fun hmem => (hS u hu).2.2.1 (mem_of_mem_erase hmem),
      (hS u hu).2.2.2⟩
  unfold VoteRequester.processResponse
  cases response with
  | none => exact ⟨hterm, hdry, hnodup.erase target, S, hvotes, hold⟩
  | some response =>
    cases hvote : response.voteGranted with
    | false => exact ⟨hterm, hdry, hnodup.erase target, S, by simpa [hvote] using hvotes, hold⟩
    | true =>
      obtain ⟨hvoter, hne, hsecured⟩ := hgranted response rfl hvote
      have hnew : target ∉ S := fun hmem => (hS target hmem).2.2.1 htarget
      refine ⟨hterm, hdry, hnodup.erase target, insert target S, ?_, fun u hu => ?_⟩
      · simp [hvote, Finset.card_insert_of_notMem hnew, hvotes]
      · rcases Finset.mem_insert.mp hu with rfl | hu
        · exact ⟨hvoter, hne, hout, hsecured⟩
        · exact hold u hu

section
variable (h : Ledger given c)
include h

section
variable (hh₀ : (c.node v).handlers[i]? = some h₀)
include hh₀

/-- An answer that grants no vote, or none at all. -/
theorem Ledger.refuse {answer : Option ReplSetRequestVotesResponse}
    (hnot : ∀ response ∈ answer, ¬(h₀.request.args.dryRun = false ∧ response.voteGranted = true)) :
    Ledger given { c.setNode v { c.node v with handlers := (c.node v).handlers.eraseIdx i } with
      responses := c.responses ++ [⟨h₀.request, answer⟩] } := by
  have hmove := (h.nodes v).moves_handlers ((c.node v).handlers.eraseIdx i)
    fun h' hh' => (h.nodes v).handlers h' (mem_of_mem_eraseIdx hh')
  refine h.answer hmove (fun h' hh' => sent_handler (mem_of_mem_eraseIdx hh')) rfl rfl
    (sent_handler (mem_of_getElem? hh₀)) ?_
  intro response hr hgrant hreal
  exact absurd ⟨hreal, hgrant⟩ (hnot response hr)

theorem Ledger.grant (hlt : (c.node v).lastVote.term < h₀.request.args.term)
    (response : ReplSetRequestVotesResponse) :
    Ledger (given.cast v h₀.request.args.term h₀.request.source) (c.setNode v { c.node v with
        lastVote := ⟨h₀.request.args.term, h₀.request.args.candidateIndex⟩
        handlers := (c.node v).handlers.set i ⟨h₀.request, .voted response⟩ }) := by
  have hmem := mem_of_getElem? hh₀
  have hok := h.nodes v
  have hcast := hok.cast (x := h₀.request.source) hlt h₀.request.args.candidateIndex
  have hvoted : HandlerOk (given.cast v h₀.request.args.term h₀.request.source) v
      { c.node v with lastVote := ⟨h₀.request.args.term, h₀.request.args.candidateIndex⟩ }
      ⟨h₀.request, .voted response⟩ := ⟨(hok.handlers h₀ hmem).1, Votes.cast_self _ _⟩
  have hnode := hcast.withHandlers _ (HandlerOk.of_mem_set i hcast.handlers hvoted)
  have hmove := hok.moves_cast hlt hnode rfl rfl rfl
  refine h.setNode hmove (fun h' hh' => ?_) fun t ht => hmove.grows_setNode h ht rfl
  exact sent_of_mem_set hmem hh'

theorem Ledger.storeVote (hphase : h₀.phase = .voted response) (candidateIndex : ℤ) :
    Ledger given (c.setNode v
      { (c.node v).storeLocalLastVoteDocument ⟨h₀.request.args.term, candidateIndex⟩ with
        handlers := ((c.node v).storeLocalLastVoteDocument
          ⟨h₀.request.args.term, candidateIndex⟩).handlers.set i
            ⟨h₀.request, .stored response⟩ }) := by
  have hmem := mem_of_getElem? hh₀
  have hok := h.nodes v
  have hhok := hok.handlers h₀ hmem
  unfold HandlerOk at hhok
  rw [hphase] at hhok
  have hgiven : given v (⟨h₀.request.args.term, candidateIndex⟩ : LastVote).term =
      some h₀.request.source := hhok.2
  obtain ⟨hstore, hstored⟩ := hok.store hgiven
  have hmove := (hok.moves_store hgiven).withHandlers _ (HandlerOk.of_mem_set i hstore.handlers
    (⟨hhok.1, hgiven, hstored⟩ : HandlerOk given v _ ⟨h₀.request, .stored response⟩))
  obtain ⟨d, heq, -⟩ := storeLocalLastVoteDocument_eq (c.node v)
    ⟨h₀.request.args.term, candidateIndex⟩
  rw [heq] at hmove ⊢
  refine h.setNode hmove (fun h' hh' => ?_) fun t ht => hmove.grows_setNode h ht rfl
  exact sent_of_mem_set hmem hh'

theorem Ledger.respond (hphase : h₀.phase = .stored response) :
    Ledger given { c.setNode v { (c.node v).waitUntilDurable with
        handlers := (c.node v).waitUntilDurable.handlers.eraseIdx i } with
      responses := c.responses ++ [⟨h₀.request, some response⟩] } := by
  have hmem := mem_of_getElem? hh₀
  have hok := h.nodes v
  have hhok := hok.handlers h₀ hmem
  unfold HandlerOk at hhok
  rw [hphase] at hhok
  have hmove := hok.moves_waitUntilDurable.withHandlers
    ((c.node v).waitUntilDurable.handlers.eraseIdx i) fun h' hh' =>
      hok.waitUntilDurable.handlers h' (mem_of_mem_eraseIdx hh')
  refine h.answer hmove (fun h' hh' => sent_handler (mem_of_mem_eraseIdx hh')) rfl rfl
    (sent_handler hmem) ?_
  intro response' _ _ _
  unfold Secured
  rw [hhok.1, update_self]
  exact hhok.2

end

theorem Ledger.processResponse {target : NodeId cfg}
    {response : Option ReplSetRequestVotesResponse} (hr : (c.node v).voteRequester = some r)
    (htarget : target ∈ r.outstanding)
    (hgranted : r.dryRun = false → ∀ response' ∈ response, response'.voteGranted = true →
      isVoter target = true ∧ target ≠ v ∧ Secured given c.node target r.term v) :
    Ledger given (c.setNode v { c.node v with
      voteRequester := some (r.processResponse target response) }) := by
  have hok := h.nodes v
  have hsame : (r.processResponse target response).id = r.id ∧
      (r.processResponse target response).term = r.term ∧
      (r.processResponse target response).dryRun = r.dryRun := by
    unfold VoteRequester.processResponse
    cases response <;> exact ⟨rfl, rfl, rfl⟩
  have hmove : Moves given given v (c.node v) { c.node v with
      voteRequester := some (r.processResponse target response) } := by
    refine ⟨fun _ _ => rfl, fun _ _ hg _ => hg, fun _ hd => hd,
      { hok with requester := fun r' hr' => ?_ }, le_refl _, fun r' hr' => ?_⟩
    · cases hr'
      exact hsame.1 ▸ hok.requester r hr
    · cases hr'
      exact .inr ⟨r, hr, hsame.1.symm, hsame.2.1.symm, hsame.2.2.symm⟩
  refine h.setNode hmove (fun h' hh => sent_handler hh) fun t ht => ?_
  obtain ⟨r', hr', hcount⟩ := h.requesting v t ht
  obtain rfl := Option.some.inj (hr.symm.trans hr')
  refine ⟨_, rfl, RequesterOk.mono (hcount.processResponse htarget ?_) hmove.grows⟩
  intro response' hresponse hvote
  exact hcount.1 ▸ hgranted hcount.2.1 response' hresponse hvote

theorem Ledger.dropResponse (i : ℕ) :
    Ledger given { c with responses := c.responses.eraseIdx i } := by
  refine ⟨h.nodes, fun rq hrq => h.sent rq ?_, h.requesting,
    fun rp hrp => h.responses rp (mem_of_mem_eraseIdx hrp), h.won⟩
  rcases hrq with hrq | hrq | ⟨rp, hrp, rfl⟩
  · exact .inl hrq
  · exact .inr (.inl hrq)
  · exact .inr (.inr ⟨rp, mem_of_mem_eraseIdx hrp, rfl⟩)

theorem Ledger.deliverResponse
    (hrp : c.responses[i]? = some rp) (hr : (c.node rp.request.source).voteRequester = some r)
    (hid : r.id = rp.request.requester) (htarget : rp.request.target ∈ r.outstanding) :
    Ledger given (Cluster.setNode { c with responses := c.responses.eraseIdx i } rp.request.source
      { c.node rp.request.source with
        voteRequester := some (r.processResponse rp.request.target rp.response) }) := by
  have hmem := mem_of_getElem? hrp
  have hrq := h.sent rp.request (.inr (.inr ⟨rp, hmem, rfl⟩))
  obtain ⟨hterm, hdry⟩ := hrq.current r hr hid
  refine (h.dropResponse i).processResponse hr htarget fun hreal response hresponse hvote => ?_
  have hsecured := h.responses rp hmem response hresponse hvote (hdry.trans hreal)
  exact ⟨hrq.voter, hrq.other, hterm ▸ hsecured⟩

end

end MongoServer.Election
