/-
Quorums that are reached are acted on, if there is more than one node.

A candidate counts its votes, and a leader the replicas of an entry, only when a
reply comes in.  So whatever else moves a count must not complete a quorum: a new
campaign starts with one vote, and a new entry has one replica.  In a cluster of
one node that is a quorum.

* `Acted` — no candidate has the votes it needs, and no leader the replicas of an
  entry of its term beyond its commit index;
* `advanceLoop_complete` — `_advance_commit_index` leaves no such entry;
* `quorum_acted_on` — all nodes of a cluster have always acted, if and only if it is
  not a cluster of one; `quorum_not_acted_on` — a lone node that never leads.
-/
import Dssd.RaftRange

open Function (update)

namespace Raft

variable {Cmd : Type} {M : Membership} {g g' : Ghost Cmd} {w w' : Cluster Cmd}
  {e : Event Cmd}

namespace Node

variable {r : Node Cmd}

/-- How many peers are known to have the entry at index `n`. -/
def holders (r : Node Cmd) (n : ℕ) : ℕ :=
  (r.cfg.peers.filter fun p => (r.matchIndex p).any (n ≤ ·)).length

/-- No quorum is waiting: a candidate lacks votes, and an entry of a leader's term beyond its
commit index lacks replicas. -/
structure Acted (r : Node Cmd) : Prop where
  votes : r.role = .candidate → r.votes r.currentTerm < r.majority
  commit : r.role = .leader → ∀ (n : ℕ) (e : LogEntry Cmd), r.commitIndex < n → r.log[n]? = some e →
    e.term = r.currentTerm → 1 + r.holders n < r.majority

theorem Acted.of_follower (h : r.role = .follower) : Acted r :=
  ⟨fun hr => absurd (h.symm.trans hr) (by simp), fun hr => absurd (h.symm.trans hr) (by simp)⟩

theorem two_le_majority (h : r.cfg.peers ≠ []) : 2 ≤ r.majority := by
  have := List.length_pos_iff.mpr h
  unfold majority
  omega

/-- Nobody has what is beyond the last index of anyone. -/
theorem holders_eq_zero {n : ℕ} (h : ∀ p ∈ r.cfg.peers, ∀ m, r.matchIndex p = some m → m < n) :
    r.holders n = 0 := by
  unfold holders
  rw [List.length_eq_zero_iff, List.filter_eq_nil_iff]
  intro p hp hany
  cases hm : r.matchIndex p with
  | none => simp [hm] at hany
  | some m =>
    rw [hm, Option.any_some, decide_eq_true_eq] at hany
    have := h p hp m hm
    omega

/-! ### Methods -/

/-- The loop leaves no index up to `n` whose entry could be committed. -/
theorem advanceLoop_complete {r' : Node Cmd} : ∀ {n : ℕ}, r.advanceLoop n = .ok r' →
    ∀ (k : ℕ) (e : LogEntry Cmd), r'.commitIndex < k → k ≤ n → r.log[k]? = some e →
      e.term = r.currentTerm → 1 + r.holders k < r.majority := by
  intro n
  induction n with
  | zero =>
    intro _ k _ hk hkn
    omega
  | succ n ih =>
    intro h k e hk hkn he het
    rw [advanceLoop] at h
    split at h
    -- the loop has come down to the commit index
    · cases h
      omega
    rename_i hlt
    split at h
    · cases h
    rename_i f hf
    split at h
    · -- an entry of an older term is passed over
      rename_i hterm
      rcases hkn.lt_or_eq with hlt | rfl
      · exact ih h k e hk (by omega) he het
      · rw [hf, Option.some_inj] at he
        exact absurd (he ▸ het) hterm
    split at h
    · cases h
    rename_i c hc
    split at h
    · cases h
      dsimp only at hk
      omega
    · -- too few replicas
      rename_i hmaj
      rcases hkn.lt_or_eq with hlt | rfl
      · exact ih h k e hk (by omega) he het
      · have hcount := replicas_spec hc
        unfold holders
        omega

theorem acted_propose (h : Acted r) (command : Cmd)
    (hm : r.role = .leader → ∀ p ∈ r.cfg.peers, ∃ m, r.matchIndex p = some m ∧ m < r.log.length)
    (hmaj : r.role = .leader → 2 ≤ r.majority) : Acted (r.propose command).1 := by
  unfold propose
  split
  · exact h
  rename_i hr
  have hlead := not_not.mp hr
  refine ⟨h.votes, fun _ n e hn he het => ?_⟩
  rcases lt_or_ge n r.log.length with hlt | hge
  -- an entry from before
  · dsimp only at he
    rw [List.getElem?_append_left hlt] at he
    exact h.commit hlead n e hn he het
  -- the new entry, which is beyond every match index
  · have hzero : r.holders n = 0 := holders_eq_zero fun p hp m hpm => by
      obtain ⟨m', hm', hlt⟩ := hm hlead p hp
      rw [hm', Option.some_inj] at hpm
      omega
    have := hmaj hlead
    show 1 + r.holders n < r.majority
    omega

theorem acted_observe (h : Acted r) (t : ℕ) : Acted (r.observe t) := by
  unfold observe
  split
  · exact .of_follower rfl
  · exact h

theorem acted_handleRequestVote [Inhabited Cmd] (h : Acted r) (args : RequestVoteArgs) :
    Acted (r.handleRequestVote args).1 := by
  have hobs := acted_observe h args.term
  unfold handleRequestVote
  dsimp only
  split
  · exact ⟨hobs.votes, hobs.commit⟩
  · exact hobs

theorem acted_handleAppendEntries (h : Acted r) (args : AppendEntriesArgs Cmd) :
    Acted (r.handleAppendEntries args).1 := by
  unfold handleAppendEntries
  dsimp only
  split
  · exact acted_observe h args.term
  split
  · exact .of_follower rfl
  · split <;> exact .of_follower rfl

/-- Nobody has the no-op of a new leader. -/
theorem acted_becomeLeader [Inhabited Cmd] (hr : r.role = .candidate) (hmaj : 2 ≤ r.majority) :
    Acted r.becomeLeader := by
  rw [becomeLeader, if_neg (by simp [hr]), propose, if_neg (by simp)]
  refine ⟨fun h => absurd h (by simp), fun _ n e hn _ _ => ?_⟩
  dsimp only at hn
  have hnil : (r.cfg.peers.filter fun p =>
      (if p ∈ r.cfg.peers then some 0 else none : Option ℕ).any (n ≤ ·)) = [] := by
    refine List.filter_eq_nil_iff.mpr fun p hp => ?_
    rw [if_pos hp, Option.any_some, decide_eq_true_eq]
    omega
  show 1 + List.length _ < r.majority
  rw [hnil]
  exact hmaj

/-- A vote that does not make the majority is counted. -/
theorem acted_onVoteReply [Inhabited Cmd] (h : Acted r) (t : ℕ) (reply : RequestVoteReply)
    (hmaj : r.role = .candidate → 2 ≤ r.majority) : Acted (r.onVoteReply t reply) := by
  unfold onVoteReply
  split
  · exact .of_follower rfl
  split
  swap
  · exact h
  rename_i hcond
  obtain ⟨hrole, hterm, -⟩ := hcond
  dsimp only
  split
  · exact acted_becomeLeader hrole (hmaj hrole)
  · rename_i hless
    refine ⟨fun _ => ?_, fun hr => absurd (hrole.symm.trans hr) (by simp)⟩
    rw [hterm]
    exact not_le.mp hless

/-- A reply that adds a replica is followed by `_advance_commit_index`. -/
theorem acted_onAppendReply (h : Acted r) (hne : r.log ≠ []) (peer : String) (t : ℕ)
    (args : AppendEntriesArgs Cmd) (reply : AppendEntriesReply)
    (hm : r.role = .leader → ∀ p ∈ r.cfg.peers, ∃ m, r.matchIndex p = some m) :
    Acted (r.onAppendReply peer t args reply).1 := by
  unfold onAppendReply
  split
  · exact .of_follower rfl
  split
  · exact h
  rename_i hcond
  push Not at hcond
  obtain ⟨hrole, -⟩ := hcond
  split
  · dsimp only
    set r₁ : Node Cmd := { r with
      matchIndex := update r.matchIndex peer (some (args.prevLogIndex + args.entries.length))
      nextIndex := update r.nextIndex peer
        (some (args.prevLogIndex + args.entries.length + 1)) } with hr₁
    obtain ⟨r', hr'⟩ := advance_ok (r := r₁) hne fun p hp => by
      by_cases hpp : p = peer
      · exact ⟨_, by rw [hpp]; exact Function.update_self _ _ _⟩
      · obtain ⟨m, hm⟩ := hm hrole p hp
        exact ⟨m, by rw [← hm]; exact Function.update_of_ne hpp _ _⟩
    -- whatever the loop leaves uncommitted lacks replicas
    have hall := advanceLoop_complete hr'
    have hlen : ∀ {k : ℕ} {e : LogEntry Cmd}, r₁.log[k]? = some e → k ≤ r₁.log.length - 1 :=
      fun he => Nat.le_sub_one_of_lt (Ledger.lt_length_of_getElem? he)
    rw [hr']
    have hspec := advanceLoop_spec hr'
    refine ⟨fun hr => ?_, fun _ n e hn he het => ?_⟩
    · rcases hspec with rfl | ⟨k, c, f, rfl, -⟩ <;> exact absurd (hrole.symm.trans hr) (by simp)
    · rcases hspec with rfl | ⟨k, c, f, rfl, -⟩ <;> exact hall n e hn (hlen he) he het
  -- a refusal changes no match index
  · have hsame : ∀ next, Acted { r with nextIndex := next } := fun _ => ⟨h.votes, h.commit⟩
    split
    · exact h
    · split
      · exact hsame _
      · exact h

end Node

/-! ### Steps -/

section steps

open Node (Acted)

theorem acted_set (h : ∀ i, Acted (w.node i)) {j : String} {r : Node Cmd} (hr : Acted r)
    (i : String) : Acted ((w.set j r).node i) := by
  by_cases hij : i = j
  · subst hij
    rwa [Cluster.set_node_self]
  · rw [Cluster.set_node_ne _ _ hij]
    exact h i

variable [Inhabited Cmd]

/-- A member of a larger cluster has peers. -/
theorem Sim.majority_of_mem (h : Sim M g w) (hM : M.ids.length ≠ 1) {i : String}
    (hmem : i ∈ M.ids) : 2 ≤ (w.node i).majority := by
  have hlen := M.peers_length hmem
  refine Node.two_le_majority fun hnil => ?_
  rw [h.peers_eq] at hnil
  rw [hnil] at hlen
  exact hM hlen.symm

/-- Only members campaign or lead. -/
theorem Sim.majority (h : Sim M g w) (hM : M.ids.length ≠ 1) {i : String}
    (hr : (w.node i).role ≠ .follower) : 2 ≤ (w.node i).majority :=
  h.majority_of_mem hM ((h.node i).active hr).2

/-- One case for each event. -/
theorem Sim.acted_step (h : Sim M g w) (hM : M.ids.length ≠ 1) (ha : ∀ i, Acted (w.node i))
    (he : Cluster.step M w e = some w') (i : String) : Acted (w'.node i) := by
  cases e with
  | start n =>
    obtain ⟨-, ⟨⟩⟩ := Option.ite_none_right_eq_some.mp he
    exact acted_set ha (.of_follower (r := (w.node n).start) rfl) i
  | stop n =>
    obtain ⟨-, ⟨⟩⟩ := Option.ite_none_right_eq_some.mp he
    exact ha i
  | electionTimeout n =>
    obtain ⟨⟨hn, -⟩, ⟨⟩⟩ := Option.ite_none_right_eq_some.mp he
    refine acted_set ha ⟨fun _ => ?_, fun hr => absurd hr (by simp)⟩ i
    -- its own vote is not enough
    have hone : (w.node n).startElection.1.votes ((w.node n).currentTerm + 1) = 1 :=
      Function.update_self _ _ _
    have hmaj := h.majority_of_mem hM hn
    show (w.node n).startElection.1.votes ((w.node n).currentTerm + 1) < (w.node n).majority
    omega
  | propose n command =>
    obtain ⟨-, ⟨⟩⟩ := Option.ite_none_right_eq_some.mp he
    refine acted_set ha (Node.acted_propose (ha n) command (fun hr p hp => ?_) fun hr => ?_) i
    -- match indices are in the log
    · obtain ⟨m, -, hm, -, -, -, hlt, -⟩ := (h.node n).tracks hr p (h.peers_eq n ▸ hp)
      exact ⟨m, hm, hlt⟩
    · exact h.majority hM (by simp [hr])
  | replicate n peer term =>
    rw [Cluster.step] at he
    split at he
    swap
    · cases he
    split at he <;> cases he <;> exact ha i
  | handleRequestVote k =>
    obtain ⟨c, -, rfl⟩ := Option.map_eq_some_iff.mp he
    exact acted_set ha (Node.acted_handleRequestVote (ha _) _) i
  | voteReply k =>
    obtain ⟨c, -, rfl⟩ := Option.map_eq_some_iff.mp he
    exact acted_set ha (Node.acted_onVoteReply (ha _) _ _ fun hr => h.majority hM (by simp [hr])) i
  | handleAppendEntries k =>
    obtain ⟨c, -, rfl⟩ := Option.map_eq_some_iff.mp he
    exact acted_set ha (Node.acted_handleAppendEntries (ha _) _) i
  | appendReply k =>
    obtain ⟨c, -, rfl⟩ := Option.map_eq_some_iff.mp he
    refine acted_set ha (Node.acted_onAppendReply (ha _) (h.log_ne_nil _) _ _ _ _
      fun hr p hp => ?_) i
    obtain ⟨m, hm, -⟩ := (h.inRange c.leader).matched hr p hp
    exact ⟨m, hm⟩
  | loseVoteCall k | loseVoteReturn k | loseAppendCall k | loseAppendReturn k =>
    cases he
    exact ha i
  | applier n =>
    obtain ⟨-, ⟨⟩⟩ := Option.ite_none_right_eq_some.mp he
    have hr : Acted (w.node n).applier.1 := by
      rw [h.applier_eq]
      exact ⟨(ha n).votes, (ha n).commit⟩
    exact acted_set ha hr i

theorem Reachable.acted (h : Reachable M w) (hM : M.ids.length ≠ 1) (i : String) :
    Acted (w.node i) := by
  have key : (∃ g : Ghost Cmd, Sim M g w) ∧ ∀ i, Acted (w.node i) := by
    refine Run.invariant (P := fun w => (∃ g : Ghost Cmd, Sim M g w) ∧ ∀ i, Acted (w.node i))
      ?_ h ⟨⟨_, sim_init M⟩, fun i => .of_follower rfl⟩
    rintro w w' ⟨e, he⟩ ⟨⟨g, hg⟩, ha⟩
    obtain ⟨g', -, -, hg'⟩ := hg.step he
    exact ⟨⟨g', hg'⟩, hg.acted_step hM ha he⟩
  exact key.2 i

/-- A node without peers has the majority of its own vote, and nobody to tell it so. -/
theorem exists_not_acted {n : String} (hn : M.ids = [n]) :
    ∃ w : Cluster Cmd, Reachable M w ∧ ¬ Acted (w.node n) := by
  have hmem : n ∈ M.ids := by simp [hn]
  -- it is started, and its election timeout passes
  let w₀ : Cluster Cmd := Cluster.init M
  let w₁ : Cluster Cmd :=
    { w₀.set n (w₀.node n).start with running := update w₀.running n true }
  have h₁ : Cluster.step M w₀ (.start n) = some w₁ := if_pos hmem
  have hnode : w₁.node n = (Node.init (M.config n)).start := Cluster.set_node_self _ n _
  have h₂ : Cluster.step M w₁ (.electionTimeout n) = some (w₁.campaign M n) := by
    refine if_pos ⟨hmem, Function.update_self _ _ _, ?_⟩
    rw [hnode]
    simp [Node.start]
  -- its one vote is the majority, but there is no reply to count it with
  have hself : (w₁.campaign M n).node n = (w₁.node n).startElection.1 := Cluster.set_node_self _ _ _
  have hpeers : M.peers n = [] := by
    have hlen := M.peers_length hmem
    rw [hn, List.length_singleton] at hlen
    exact List.length_eq_zero_iff.mp (by omega)
  refine ⟨w₁.campaign M n, .tail (.single ⟨_, h₁⟩) ⟨_, h₂⟩, fun ha => ?_⟩
  have hless := ha.votes (by rw [hself]; rfl)
  rw [hself, hnode] at hless
  have hmaj : ((Node.init (M.config n) : Node Cmd).start.startElection.1).majority = 1 := by
    show ((M.peers n).length + 1) / 2 + 1 = 1
    rw [hpeers]
    rfl
  rw [hmaj] at hless
  have hone : ((Node.init (M.config n) : Node Cmd).start.startElection.1).votes 1 = 1 := by
    simp [Node.startElection, Node.start, Node.init]
  exact absurd (hone.symm.trans_lt hless) (lt_irrefl 1)

/-- **A reached quorum is acted on**, by every node in every reachable state, if and only if the
cluster is not a single node. -/
theorem quorum_acted_on (M : Membership) :
    (∀ w : Cluster Cmd, Reachable M w → ∀ i ∈ M.ids, Acted (w.node i)) ↔ M.ids.length ≠ 1 := by
  constructor
  · intro h hone
    obtain ⟨n, hn⟩ := List.length_eq_one_iff.mp hone
    obtain ⟨w, hw, hnot⟩ := @exists_not_acted Cmd M _ n hn
    exact hnot (h w hw n (by simp [hn]))
  · exact fun hM w hw i _ => hw.acted hM i

/-! ### A lone node -/

def lone : Membership := .ofIds ["a"] (by decide) (by decide)

/-- `a` has its own vote, which is a majority of one, and waits for replies that nobody sends. -/
theorem quorum_not_acted_on : ∃ w : Cluster ℕ, Reachable lone w ∧ w.running "a" = true ∧
    (w.node "a").role = .candidate ∧ (w.node "a").majority = 1 ∧
      (w.node "a").votes (w.node "a").currentTerm = 1 ∧ w.voteCalls.length = 0 :=
  ⟨(Run.exec (Cluster.step lone) (Cluster.init lone) [.start "a", .electionTimeout "a"]).get
      (by decide +kernel),
    Run.steps_get _, by decide +kernel, by decide +kernel, by decide +kernel, by decide +kernel,
    by decide +kernel⟩

end steps

end Raft
