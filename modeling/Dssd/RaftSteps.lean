/-
What one step of a cluster does to one node.

* `Node.Internal` — every method but `propose` and the applier leaves
  `_last_applied` alone, and if the node leads afterwards then it led this term
  before, with the same log, or was a candidate and has added its no-op;
* `step_leader` — the second half for every step but a `propose`;
* `step_elected` — a node becomes leader only by a vote that makes its majority.
-/
import Dssd.RaftCluster
import Dssd.RaftMethods

open Function (update)

namespace Raft

variable {Cmd : Type} [Inhabited Cmd]

namespace Node

/-- A node that leads in state `r'` led the same term in state `r`, with the same log, or has
just won it and added its no-op. -/
def Promotes (r r' : Node Cmd) : Prop :=
  r'.role = .leader → r'.currentTerm = r.currentTerm ∧
    (r.role = .leader ∧ r'.log = r.log ∨
      r.role = .candidate ∧ r'.log = r.log ++ [⟨r.currentTerm, r.log.length, default⟩])

/-- What every method but `propose` and the applier may do to a node. -/
structure Internal (r r' : Node Cmd) : Prop where
  lastApplied : r'.lastApplied = r.lastApplied
  promotes : Promotes r r'

theorem Promotes.of_eq {r r' : Node Cmd} (ht : r'.currentTerm = r.currentTerm)
    (hr : r'.role = r.role) (hl : r'.log = r.log) : Promotes r r' :=
  fun h => ⟨ht, .inl ⟨hr ▸ h, hl⟩⟩

theorem Internal.refl (r : Node Cmd) : Internal r r := ⟨rfl, .of_eq rfl rfl rfl⟩

theorem Internal.of_ne {r r' : Node Cmd} (ha : r'.lastApplied = r.lastApplied)
    (h : r'.role ≠ .leader) : Internal r r' :=
  ⟨ha, fun hr => absurd hr h⟩

theorem internal_becomeFollower (r : Node Cmd) (t : ℕ) : Internal r (r.becomeFollower t) :=
  .of_ne rfl (by simp [becomeFollower])

theorem internal_observe (r : Node Cmd) (t : ℕ) : Internal r (r.observe t) := by
  unfold observe
  split
  · exact internal_becomeFollower r t
  · exact .refl r

theorem internal_handleRequestVote (r : Node Cmd) (args : RequestVoteArgs) :
    Internal r (r.handleRequestVote args).1 := by
  obtain ⟨h₁, h₂⟩ := internal_observe r args.term
  unfold handleRequestVote
  dsimp only
  split
  · exact ⟨h₁, h₂⟩
  · exact ⟨h₁, h₂⟩

theorem internal_handleAppendEntries (r : Node Cmd) (args : AppendEntriesArgs Cmd) :
    Internal r (r.handleAppendEntries args).1 := by
  have hobs := internal_observe r args.term
  unfold handleAppendEntries
  dsimp only
  split
  · exact hobs
  split
  · exact .of_ne hobs.lastApplied (by simp)
  · split <;> exact .of_ne hobs.lastApplied (by simp)

theorem internal_onVoteReply (r : Node Cmd) (t : ℕ) (reply : RequestVoteReply) :
    Internal r (r.onVoteReply t reply) := by
  unfold onVoteReply
  split
  · exact internal_becomeFollower r _
  split
  · rename_i hcond
    dsimp only
    split
    · -- the vote that makes the majority
      rw [becomeLeader, if_neg (by simp [hcond.1]), propose, if_neg (by simp)]
      exact ⟨rfl, fun _ => ⟨rfl, .inr ⟨hcond.1, rfl⟩⟩⟩
    · exact ⟨rfl, .of_eq rfl rfl rfl⟩
  · exact .refl r

/-- The reply brings the candidate its majority. -/
def Wins (r : Node Cmd) (term : ℕ) (reply : RequestVoteReply) : Prop :=
  reply.term ≤ r.currentTerm ∧ r.role = .candidate ∧ r.currentTerm = term ∧
    reply.voteGranted = true ∧ r.majority ≤ r.votes term + 1

instance (r : Node Cmd) (term : ℕ) (reply : RequestVoteReply) : Decidable (r.Wins term reply) := by
  unfold Wins
  infer_instance

theorem wins_of_onVoteReply {r : Node Cmd} {t : ℕ} {reply : RequestVoteReply}
    (h : (r.onVoteReply t reply).role = .leader) (hr : r.role ≠ .leader) : r.Wins t reply := by
  unfold onVoteReply at h
  split at h
  · exact absurd h (by simp [becomeFollower])
  rename_i hterm
  split at h
  · rename_i hcond
    dsimp only at h
    split at h
    · rename_i hmaj
      refine ⟨not_lt.mp hterm, hcond.1, hcond.2.1, hcond.2.2, ?_⟩
      simpa [majority] using hmaj
    · exact absurd h hr
  · exact absurd h hr

omit [Inhabited Cmd] in
theorem role_observe {r : Node Cmd} {t : ℕ} (h : (r.observe t).role = .leader) :
    r.role = .leader := by
  unfold observe at h
  split at h
  · exact absurd h (by simp [becomeFollower])
  · exact h

theorem role_handleRequestVote {r : Node Cmd} {args : RequestVoteArgs}
    (h : (r.handleRequestVote args).1.role = .leader) : r.role = .leader := by
  unfold handleRequestVote at h
  dsimp only at h
  split at h <;> exact role_observe h

omit [Inhabited Cmd] in
theorem role_handleAppendEntries {r : Node Cmd} {args : AppendEntriesArgs Cmd}
    (h : (r.handleAppendEntries args).1.role = .leader) : r.role = .leader := by
  unfold handleAppendEntries at h
  dsimp only at h
  split at h
  · exact role_observe h
  split at h
  · exact absurd h (by simp)
  · split at h <;> exact absurd h (by simp)

omit [Inhabited Cmd] in
theorem role_onAppendReply {r : Node Cmd} {peer : String} {t : ℕ} {args : AppendEntriesArgs Cmd}
    {reply : AppendEntriesReply} (h : (r.onAppendReply peer t args reply).1.role = .leader) :
    r.role = .leader := by
  unfold onAppendReply at h
  split at h
  · exact absurd h (by simp [becomeFollower])
  split at h
  · exact h
  · rename_i hcond
    exact not_not.mp fun hr => hcond (.inl hr)

theorem internal_onAppendReply (r : Node Cmd) (peer : String) (t : ℕ)
    (args : AppendEntriesArgs Cmd) (reply : AppendEntriesReply) :
    Internal r (r.onAppendReply peer t args reply).1 := by
  unfold onAppendReply
  split
  · exact internal_becomeFollower r _
  split
  · exact .refl r
  split
  · dsimp only
    split
    · rename_i r' hadv
      rcases advanceLoop_spec hadv with rfl | ⟨k, c, e, rfl, -⟩ <;>
        exact ⟨rfl, .of_eq rfl rfl rfl⟩
    · exact ⟨rfl, .of_eq rfl rfl rfl⟩
  · split
    · exact .refl r
    · split <;> exact ⟨rfl, .of_eq rfl rfl rfl⟩

end Node

/-! ### Steps -/

/-- Is this a call of `propose`? -/
def Event.isPropose : Event Cmd → Bool
  | .propose _ _ => true
  | _ => false

section steps

variable {M : Membership} {w w' : Cluster Cmd} {e : Event Cmd}

theorem internal_set {j : String} {r : Node Cmd} (hr : Node.Internal (w.node j) r) (i : String) :
    Node.Internal (w.node i) ((w.set j r).node i) := by
  by_cases hij : i = j
  · subst hij
    rwa [Cluster.set_node_self]
  · rw [Cluster.set_node_ne _ _ hij]
    exact .refl _

/-- Steps other than `propose` and the applier, one case for each event. -/
theorem step_internal (he : Cluster.step M w e = some w') (hp : e.isPropose = false)
    (ha : ∀ n, e ≠ .applier n) (i : String) :
    Node.Internal (w.node i) (w'.node i) ∧ w'.applied i = w.applied i := by
  cases e with
  | start n =>
    obtain ⟨-, ⟨⟩⟩ := Option.ite_none_right_eq_some.mp he
    have hr : Node.Internal (w.node n) (w.node n).start := .of_ne rfl (by simp [Node.start])
    exact ⟨internal_set hr i, rfl⟩
  | stop n =>
    obtain ⟨-, ⟨⟩⟩ := Option.ite_none_right_eq_some.mp he
    exact ⟨.refl _, rfl⟩
  | electionTimeout n =>
    obtain ⟨-, ⟨⟩⟩ := Option.ite_none_right_eq_some.mp he
    have hr : Node.Internal (w.node n) (w.node n).startElection.1 :=
      .of_ne rfl (by simp [Node.startElection])
    exact ⟨internal_set hr i, rfl⟩
  | propose n command => exact absurd hp (by simp [Event.isPropose])
  | replicate n peer term =>
    rw [Cluster.step] at he
    split at he
    swap
    · cases he
    split at he <;> cases he <;> exact ⟨.refl _, rfl⟩
  | handleRequestVote k =>
    obtain ⟨c, -, rfl⟩ := Option.map_eq_some_iff.mp he
    exact ⟨internal_set (Node.internal_handleRequestVote _ _) i, rfl⟩
  | voteReply k =>
    obtain ⟨c, -, rfl⟩ := Option.map_eq_some_iff.mp he
    exact ⟨internal_set (Node.internal_onVoteReply _ _ _) i, rfl⟩
  | loseVoteCall k | loseVoteReturn k | loseAppendCall k | loseAppendReturn k =>
    cases he
    exact ⟨.refl _, rfl⟩
  | handleAppendEntries k =>
    obtain ⟨c, -, rfl⟩ := Option.map_eq_some_iff.mp he
    exact ⟨internal_set (Node.internal_handleAppendEntries _ _) i, rfl⟩
  | appendReply k =>
    obtain ⟨c, -, rfl⟩ := Option.map_eq_some_iff.mp he
    exact ⟨internal_set (Node.internal_onAppendReply _ _ _ _ _) i, rfl⟩
  | applier n => exact absurd rfl (ha n)

/-- After a step that is no `propose`, a leader has led before with this log, or has just won. -/
theorem step_leader (he : Cluster.step M w e = some w') (hp : e.isPropose = false) (i : String) :
    Node.Promotes (w.node i) (w'.node i) := by
  by_cases ha : ∃ n, e = .applier n
  · obtain ⟨n, rfl⟩ := ha
    obtain ⟨-, ⟨⟩⟩ := Option.ite_none_right_eq_some.mp he
    by_cases hin : i = n
    · subst hin
      show Node.Promotes _ ((w.set i (w.node i).applier.1).node i)
      rw [Cluster.set_node_self]
      exact .of_eq rfl rfl rfl
    · show Node.Promotes _ ((w.set n (w.node n).applier.1).node i)
      rw [Cluster.set_node_ne _ _ hin]
      exact .of_eq rfl rfl rfl
  · exact (step_internal he hp (fun n hn => ha ⟨n, hn⟩) i).1.promotes

/-- A leader was leader or candidate of its term one step before. -/
theorem step_role (he : Cluster.step M w e = some w') (i : String)
    (hr : (w'.node i).role = .leader) :
    (w'.node i).currentTerm = (w.node i).currentTerm ∧ (w.node i).role ≠ .follower := by
  cases e with
  | propose n command =>
    obtain ⟨-, ⟨⟩⟩ := Option.ite_none_right_eq_some.mp he
    have hsame : ((w.set n ((w.node n).propose command).1).node i).role = (w.node i).role ∧
        ((w.set n ((w.node n).propose command).1).node i).currentTerm =
          (w.node i).currentTerm := by
      by_cases hin : i = n
      · subst hin
        rw [Cluster.set_node_self, Node.propose]
        split <;> exact ⟨rfl, rfl⟩
      · rw [Cluster.set_node_ne _ _ hin]
        exact ⟨rfl, rfl⟩
    rw [hsame.1] at hr
    exact ⟨hsame.2, by simp [hr]⟩
  | _ =>
    obtain ⟨ht, ⟨h, -⟩ | ⟨h, -⟩⟩ := step_leader he rfl i hr <;> exact ⟨ht, by simp [h]⟩

omit [Inhabited Cmd] in
theorem role_set {i j : String} {r : Node Cmd} (hr : ((w.set j r).node i).role = .leader)
    (h : r.role = .leader → (w.node j).role = .leader) : (w.node i).role = .leader := by
  by_cases hij : i = j
  · subst hij
    rw [Cluster.set_node_self] at hr
    exact h hr
  · rwa [Cluster.set_node_ne _ _ hij] at hr

/-- Only a vote makes a leader, one case for each event. -/
theorem step_elected (he : Cluster.step M w e = some w') {i : String}
    (hr : (w'.node i).role = .leader) (hn : (w.node i).role ≠ .leader) :
    ∃ k c, e = .voteReply k ∧ w.voteReturns[k]? = some c ∧ c.candidate = i ∧
      (w.node i).Wins c.term c.reply := by
  cases e with
  | start n =>
    obtain ⟨-, ⟨⟩⟩ := Option.ite_none_right_eq_some.mp he
    exact absurd (role_set hr fun h => absurd h (by simp [Node.start])) hn
  | stop n =>
    obtain ⟨-, ⟨⟩⟩ := Option.ite_none_right_eq_some.mp he
    exact absurd hr hn
  | electionTimeout n =>
    obtain ⟨-, ⟨⟩⟩ := Option.ite_none_right_eq_some.mp he
    exact absurd (role_set hr fun h => absurd h (by simp)) hn
  | propose n command =>
    obtain ⟨-, ⟨⟩⟩ := Option.ite_none_right_eq_some.mp he
    refine absurd (role_set hr fun h => ?_) hn
    rw [Node.propose] at h
    split at h <;> exact h
  | replicate n peer term =>
    rw [Cluster.step] at he
    split at he
    swap
    · cases he
    split at he <;> cases he <;> exact absurd hr hn
  | handleRequestVote k =>
    obtain ⟨c, -, rfl⟩ := Option.map_eq_some_iff.mp he
    exact absurd (role_set hr Node.role_handleRequestVote) hn
  | voteReply k =>
    obtain ⟨c, hc, rfl⟩ := Option.map_eq_some_iff.mp he
    by_cases hi : c.candidate = i
    · subst hi
      refine ⟨k, c, rfl, hc, rfl, ?_⟩
      change ((w.set _ _).node _).role = _ at hr
      rw [Cluster.set_node_self] at hr
      exact Node.wins_of_onVoteReply hr hn
    · change ((w.set _ _).node i).role = _ at hr
      rw [Cluster.set_node_ne _ _ (Ne.symm hi)] at hr
      exact absurd hr hn
  | loseVoteCall k | loseVoteReturn k | loseAppendCall k | loseAppendReturn k =>
    cases he
    exact absurd hr hn
  | handleAppendEntries k =>
    obtain ⟨c, -, rfl⟩ := Option.map_eq_some_iff.mp he
    exact absurd (role_set hr Node.role_handleAppendEntries) hn
  | appendReply k =>
    obtain ⟨c, -, rfl⟩ := Option.map_eq_some_iff.mp he
    exact absurd (role_set hr Node.role_onAppendReply) hn
  | applier n =>
    obtain ⟨-, ⟨⟩⟩ := Option.ite_none_right_eq_some.mp he
    exact absurd (role_set hr id) hn

end steps

end Raft
