/-
What `leader_hint()` says, and when it is true.

`leader_id` and `current_term` are two fields, and `_become_follower` moves on to a
new term without a word about who led the old one.

* `Annals` — a cluster together with who has won which term so far;
* `TruePairs` — every hint names a leader and the term it was elected in;
* `Fits` — no vote request, and no reply, takes a node that knows a leader into a
  term that this leader has not won;
* `Reachable.leaderHint` — a leader names itself;
* `hint_is_true_pair` — along every run the hints are true pairs just as long as all
  steps fit; `hint_is_false_pair` — a run with one that does not.
-/
import Dssd.RaftAppend

open Function (update)

namespace Raft

variable {Cmd : Type} {M : Membership} {g g' : Ghost Cmd} {w w' : Cluster Cmd}
  {e : Event Cmd}

/-! ### Who was elected -/

/-- The cluster, and the elections so far: who has won which term. -/
structure Annals (Cmd : Type) where
  cluster : Cluster Cmd
  elected : List (String × ℕ)

namespace Annals

variable [Inhabited Cmd]

def init (M : Membership) : Annals Cmd := ⟨Cluster.init M, []⟩

/-- Who leads in `w'` and did not in `w`, with the term. -/
def wins (M : Membership) (w w' : Cluster Cmd) : List (String × ℕ) :=
  (M.ids.filter fun i => (w'.node i).role = .leader ∧ (w.node i).role ≠ .leader).map fun i =>
    (i, (w'.node i).currentTerm)

/-- A step of the cluster, and the elections it decides. -/
def step (M : Membership) (a : Annals Cmd) (e : Event Cmd) : Option (Annals Cmd) :=
  (Cluster.step M a.cluster e).map fun w => ⟨w, a.elected ++ wins M a.cluster w⟩

omit [Inhabited Cmd] in
theorem mem_wins {i : String} {t : ℕ} : (i, t) ∈ wins M w w' ↔
    i ∈ M.ids ∧ (w'.node i).role = .leader ∧ (w.node i).role ≠ .leader ∧
      (w'.node i).currentTerm = t := by
  simp only [wins, List.mem_map, List.mem_filter, decide_eq_true_eq, Prod.mk.injEq]
  constructor
  · rintro ⟨i, ⟨hi, hl, hn⟩, rfl, rfl⟩
    exact ⟨hi, hl, hn, rfl⟩
  · rintro ⟨hi, hl, hn, rfl⟩
    exact ⟨i, ⟨hi, hl, hn⟩, rfl, rfl⟩

/-- Whoever is recorded has led the term at some time before. -/
theorem exists_leader {a : Annals Cmd}
    (h : Relation.ReflTransGen (Run.Step (step M)) (init M) a) {i : String} {t : ℕ}
    (hi : (i, t) ∈ a.elected) : ∃ a₀, Relation.ReflTransGen (Run.Step (step M)) (init M) a₀ ∧
      Relation.ReflTransGen (Run.Step (step M)) a₀ a ∧ (a₀.cluster.node i).state = (t, true) := by
  induction h with
  | refl => exact absurd hi (by simp [init])
  | @tail a a' ha hs ih =>
    obtain ⟨e, he⟩ := id hs
    obtain ⟨w', -, rfl⟩ := Option.map_eq_some_iff.mp he
    rcases List.mem_append.mp hi with hi | hi
    -- recorded before this step
    · obtain ⟨a₀, h₀, h₁, h₂⟩ := ih hi
      exact ⟨a₀, h₀, h₁.tail hs, h₂⟩
    -- elected in it
    · obtain ⟨-, hl, -, ht⟩ := mem_wins.mp hi
      exact ⟨_, ha.tail hs, .refl, Node.state_eq_true.mpr ⟨ht, hl⟩⟩

/-- Leaders and the senders of requests in flight are on record, besides the cluster's history. -/
structure Told (M : Membership) (a : Annals Cmd) : Prop where
  sim : ∃ g : Ghost Cmd, Sim M g a.cluster
  leaders : ∀ i, (a.cluster.node i).role = .leader →
    (i, (a.cluster.node i).currentTerm) ∈ a.elected
  calls : ∀ c ∈ a.cluster.appendCalls, (c.args.leaderId, c.args.term) ∈ a.elected

theorem told_init (M : Membership) : Told M (init M : Annals Cmd) where
  sim := ⟨_, sim_init M⟩
  leaders _ h := absurd h (by simp [init, Cluster.init, Node.init])
  calls _ h := absurd h (by simp [init, Cluster.init])

theorem Told.step {a a' : Annals Cmd} (h : Told M a) (hs : step M a e = some a') : Told M a' := by
  obtain ⟨w', he, rfl⟩ := Option.map_eq_some_iff.mp hs
  obtain ⟨g, hg⟩ := h.sim
  obtain ⟨g', -, -, hg'⟩ := hg.step he
  refine ⟨⟨g', hg'⟩, fun i hr => List.mem_append.mpr ?_, fun c hc => List.mem_append.mpr ?_⟩
  · by_cases hold : (a.cluster.node i).role = .leader
    · -- a leader that stays one keeps its term
      left
      rw [show (w'.node i).currentTerm = _ from (step_role he i hr).1]
      exact h.leaders i hold
    · change (w'.node i).role = .leader at hr
      exact .inr (mem_wins.mpr ⟨((hg'.node i).active (by simp [hr])).2, hr, hold, rfl⟩)
  · left
    rcases step_appendCalls he hc with hc | hsent
    · exact h.calls c hc
    -- a request is sent by a leader of its term
    · obtain ⟨hr, ht, -, -, hid, -⟩ := Node.replicateTo_spec hsent
      have := h.leaders c.leader hr
      rwa [ht, show c.leader = c.args.leaderId by rw [hid, (hg.node c.leader).cfg]; rfl] at this

/-! ### Hints -/

/-- Every hint names a leader and the term it was elected in. -/
def TruePairs (a : Annals Cmd) : Prop :=
  ∀ i L t, (a.cluster.node i).leaderHint = (L, t) → L ≠ "" → (L, t) ∈ a.elected

/-- Node `n` may move on to term `t`, should that be a later one, without being told who leads:
it knows no leader, or the one it knows has won `t` too. -/
def MayPass (a : Annals Cmd) (n : String) (t : ℕ) : Prop :=
  (a.cluster.node n).currentTerm < t →
    (a.cluster.node n).leaderId = "" ∨ ((a.cluster.node n).leaderId, t) ∈ a.elected

instance (a : Annals Cmd) (n : String) (t : ℕ) : Decidable (a.MayPass n t) := by
  unfold MayPass
  infer_instance

/-- The calls of `_become_follower` that no append request follows up. -/
def Fits (a : Annals Cmd) : Event Cmd → Prop
  | .handleRequestVote k => ∀ c ∈ a.cluster.voteCalls[k]?, a.MayPass c.peer c.args.term
  | .voteReply k => ∀ c ∈ a.cluster.voteReturns[k]?, a.MayPass c.candidate c.reply.term
  | .appendReply k => ∀ c ∈ a.cluster.appendReturns[k]?, a.MayPass c.leader c.reply.term
  | _ => True

end Annals

namespace Node

variable {r r' : Node Cmd}

theorem hint_observe (r : Node Cmd) (t : ℕ) : (r.observe t).leaderId = r.leaderId ∧
    (r.observe t).currentTerm = max r.currentTerm t := by
  unfold observe
  split
  · exact ⟨rfl, by simp only [becomeFollower]; omega⟩
  · exact ⟨rfl, by omega⟩

theorem hint_handleRequestVote [Inhabited Cmd] (r : Node Cmd) (args : RequestVoteArgs) :
    (r.handleRequestVote args).1.leaderHint = (r.leaderId, max r.currentTerm args.term) := by
  obtain ⟨hid, hterm⟩ := hint_observe r args.term
  unfold handleRequestVote leaderHint
  dsimp only
  split <;> rw [hid, hterm]

/-- A reply of a later term is all a node looks at. -/
theorem hint_onVoteReply_of_lt [Inhabited Cmd] {t : ℕ} {reply : RequestVoteReply}
    (h : r.currentTerm < reply.term) :
    (r.onVoteReply t reply).leaderHint = (r.leaderId, reply.term) := by
  rw [onVoteReply, if_pos h]
  rfl

theorem hint_onVoteReply_of_ge [Inhabited Cmd] {t : ℕ} {reply : RequestVoteReply}
    (h : reply.term ≤ r.currentTerm) :
    (r.onVoteReply t reply).leaderHint = r.leaderHint ∨
      (r.onVoteReply t reply).leaderHint = (r.cfg.id, r.currentTerm) ∧
        (r.onVoteReply t reply).role = .leader ∧ r.role = .candidate := by
  unfold onVoteReply
  rw [if_neg (not_lt.mpr h)]
  split
  · rename_i hcond
    dsimp only
    split
    · rw [becomeLeader, if_neg (by simp [hcond.1]), propose, if_neg (by simp)]
      exact .inr ⟨rfl, rfl, hcond.1⟩
    · exact .inl rfl
  · exact .inl rfl

theorem hint_handleAppendEntries (r : Node Cmd) (args : AppendEntriesArgs Cmd) :
    (r.handleAppendEntries args).1.leaderHint = r.leaderHint ∨
      (r.handleAppendEntries args).1.leaderHint = (args.leaderId, args.term) := by
  obtain ⟨hid, hterm⟩ := hint_observe r args.term
  unfold handleAppendEntries leaderHint
  dsimp only
  split
  · rename_i hlt
    -- the request is from a term that is over
    rw [hid, hterm, max_eq_left (by omega)]
    exact .inl rfl
  · rename_i hge
    -- the term and the leader are those of the request
    have hterm' : (r.observe args.term).currentTerm = args.term := by omega
    split
    · exact .inr (by rw [hterm'])
    · split <;> exact .inr (by rw [hterm'])

theorem hint_onAppendReply_of_lt (peer : String) (t : ℕ) (args : AppendEntriesArgs Cmd)
    {reply : AppendEntriesReply} (h : r.currentTerm < reply.term) :
    (r.onAppendReply peer t args reply).1.leaderHint = (r.leaderId, reply.term) := by
  rw [onAppendReply, if_pos h]
  rfl

theorem hint_onAppendReply_of_ge {peer : String} {t : ℕ} {args : AppendEntriesArgs Cmd}
    {reply : AppendEntriesReply} (h : reply.term ≤ r.currentTerm) :
    (r.onAppendReply peer t args reply).1.leaderHint = r.leaderHint := by
  unfold onAppendReply
  rw [if_neg (not_lt.mpr h)]
  split
  · rfl
  split
  · dsimp only
    split
    · rename_i r' hadv
      rcases advanceLoop_spec hadv with rfl | ⟨k, c, e, rfl, -⟩ <;> rfl
    · rfl
  · split
    · rfl
    · split <;> rfl

/-- A leader names itself. -/
def Named (r : Node Cmd) : Prop := r.role = .leader → r.leaderId = r.cfg.id

theorem Named.of_ne (h : r.role ≠ .leader) : r.Named := fun hr => absurd hr h

theorem Named.observe (h : r.Named) (t : ℕ) : (r.observe t).Named := by
  unfold Node.observe
  split
  · exact .of_ne (by simp [becomeFollower])
  · exact h

theorem Named.handleRequestVote [Inhabited Cmd] (h : r.Named) (args : RequestVoteArgs) :
    (r.handleRequestVote args).1.Named := by
  unfold Node.handleRequestVote
  dsimp only
  split <;> exact h.observe args.term

theorem Named.onVoteReply [Inhabited Cmd] (h : r.Named) (t : ℕ) (reply : RequestVoteReply) :
    (r.onVoteReply t reply).Named := by
  unfold Node.onVoteReply
  split
  · exact .of_ne (by simp [becomeFollower])
  split
  · rename_i hcond
    dsimp only
    split
    · rw [becomeLeader, if_neg (by simp [hcond.1]), propose, if_neg (by simp)]
      exact fun _ => rfl
    · exact .of_ne (by simp [hcond.1])
  · exact h

theorem Named.handleAppendEntries (h : r.Named) (args : AppendEntriesArgs Cmd) :
    (r.handleAppendEntries args).1.Named := by
  unfold Node.handleAppendEntries
  dsimp only
  split
  · exact h.observe args.term
  split
  · exact .of_ne (by simp)
  · split <;> exact .of_ne (by simp)

theorem Named.onAppendReply (h : r.Named) (peer : String) (t : ℕ) (args : AppendEntriesArgs Cmd)
    (reply : AppendEntriesReply) : (r.onAppendReply peer t args reply).1.Named := by
  unfold Node.onAppendReply
  split
  · exact .of_ne (by simp [becomeFollower])
  split
  · exact h
  split
  · dsimp only
    split
    · rename_i r' hadv
      rcases advanceLoop_spec hadv with rfl | ⟨k, c, e, rfl, -⟩ <;> exact h
    · exact h
  · split
    · exact h
    · split <;> exact h

end Node

namespace Annals

variable {a a' : Annals Cmd}

/-- One node changes; its hint stays, is gone, or is on record. -/
theorem TruePairs.set (h : TruePairs a) {n : String} {r : Node Cmd} {es : List (String × ℕ)}
    {w' : Cluster Cmd} (hw : w'.node = (a.cluster.set n r).node)
    (hr : r.leaderHint = (a.cluster.node n).leaderHint ∨ r.leaderId = "" ∨
      r.leaderHint ∈ a.elected ++ es) : TruePairs ⟨w', a.elected ++ es⟩ := by
  intro i L t hi hL
  show (L, t) ∈ a.elected ++ es
  rw [show (w'.node i) = (a.cluster.set n r).node i by rw [hw]] at hi
  by_cases hin : i = n
  · subst hin
    rw [Cluster.set_node_self] at hi
    rcases hr with hr | hr | hr
    · exact List.mem_append_left _ (h i L t (hr ▸ hi) hL)
    · exact absurd ((congrArg Prod.fst hi).symm.trans hr) hL
    · exact hi ▸ hr
  · rw [Cluster.set_node_ne _ _ hin] at hi
    exact List.mem_append_left _ (h i L t hi hL)

theorem TruePairs.same (h : TruePairs a) {es : List (String × ℕ)} {w' : Cluster Cmd}
    (hw : w'.node = a.cluster.node) : TruePairs ⟨w', a.elected ++ es⟩ := by
  intro i L t hi hL
  rw [show (w'.node i) = a.cluster.node i by rw [hw]] at hi
  exact List.mem_append_left _ (h i L t hi hL)

/-- Where a node passes on to a later term with the `leader_id` it has, hints stay true if and
only if it may. -/
theorem TruePairs.set_iff (h : TruePairs a) {n : String} {r : Node Cmd} {t : ℕ}
    {es : List (String × ℕ)} {w' : Cluster Cmd} (hw : w'.node = (a.cluster.set n r).node)
    (hlater : (a.cluster.node n).currentTerm < t →
      r.leaderHint = ((a.cluster.node n).leaderId, t) ∧ es = [])
    (hrest : t ≤ (a.cluster.node n).currentTerm →
      r.leaderHint = (a.cluster.node n).leaderHint ∨ r.leaderHint ∈ a.elected ++ es) :
    TruePairs ⟨w', a.elected ++ es⟩ ↔ a.MayPass n t := by
  constructor
  · intro h' hlt
    obtain ⟨hhint, hes⟩ := hlater hlt
    by_cases hid : (a.cluster.node n).leaderId = ""
    · exact .inl hid
    · have hnode : (w'.node n).leaderHint = ((a.cluster.node n).leaderId, t) := by
        rw [hw, Cluster.set_node_self, hhint]
      have hpair : ((a.cluster.node n).leaderId, t) ∈ a.elected ++ es := h' n _ _ hnode hid
      rw [hes, List.append_nil] at hpair
      exact .inr hpair
  · intro hmay
    refine h.set hw ?_
    rcases lt_or_ge (a.cluster.node n).currentTerm t with hlt | hge
    · obtain ⟨hhint, -⟩ := hlater hlt
      rcases hmay hlt with hid | hin
      · exact .inr (.inl ((congrArg Prod.fst hhint).trans hid))
      · exact .inr (.inr (hhint ▸ List.mem_append_left _ hin))
    · exact (hrest hge).imp_right .inr

variable [Inhabited Cmd]

/-- A step that is no election won makes nobody a leader. -/
theorem wins_eq_nil (he : Cluster.step M w e = some w')
    (h : ∀ k c, e = .voteReply k → w.voteReturns[k]? = some c →
      (w.node c.candidate).currentTerm < c.reply.term) : wins M w w' = [] := by
  refine List.eq_nil_iff_forall_not_mem.mpr ?_
  rintro ⟨i, t⟩ hi
  obtain ⟨-, hl, hn, -⟩ := mem_wins.mp hi
  obtain ⟨k, c, hk, hc, rfl, hwin⟩ := step_elected he hl hn
  have := h k c hk hc
  have := hwin.1
  omega

/-- **One step** keeps the hints true if and only if it fits, one case for each event. -/
theorem truePairs_step (h : Told M a) (hp : TruePairs a) (hs : step M a e = some a') :
    TruePairs a' ↔ a.Fits e := by
  obtain ⟨w', he, rfl⟩ := Option.map_eq_some_iff.mp hs
  obtain ⟨g, hg⟩ := h.sim
  cases e with
  | start n =>
    obtain ⟨-, ⟨⟩⟩ := Option.ite_none_right_eq_some.mp he
    exact ⟨fun _ => trivial, fun _ => hp.set (n := n) rfl (.inr (.inl rfl))⟩
  | electionTimeout n =>
    obtain ⟨-, ⟨⟩⟩ := Option.ite_none_right_eq_some.mp he
    exact ⟨fun _ => trivial, fun _ => hp.set (n := n) rfl (.inr (.inl rfl))⟩
  | stop n =>
    obtain ⟨-, ⟨⟩⟩ := Option.ite_none_right_eq_some.mp he
    exact ⟨fun _ => trivial, fun _ => hp.same rfl⟩
  | propose n command =>
    obtain ⟨-, ⟨⟩⟩ := Option.ite_none_right_eq_some.mp he
    refine ⟨fun _ => trivial, fun _ => hp.set (n := n) rfl (.inl ?_)⟩
    unfold Node.propose
    split <;> rfl
  | replicate n peer term =>
    rw [Cluster.step] at he
    split at he
    swap
    · cases he
    split at he <;> cases he <;> exact ⟨fun _ => trivial, fun _ => hp.same rfl⟩
  | loseVoteCall k | loseVoteReturn k | loseAppendCall k | loseAppendReturn k =>
    cases he
    exact ⟨fun _ => trivial, fun _ => hp.same rfl⟩
  | applier n =>
    obtain ⟨-, ⟨⟩⟩ := Option.ite_none_right_eq_some.mp he
    exact ⟨fun _ => trivial, fun _ => hp.set (n := n) rfl (.inl rfl)⟩
  | handleAppendEntries k =>
    -- an append request names a leader of its own term
    obtain ⟨c, hc, rfl⟩ := Option.map_eq_some_iff.mp he
    refine ⟨fun _ => trivial, fun _ => hp.set (n := c.peer)
      (r := ((a.cluster.node c.peer).handleAppendEntries c.args).1) rfl ?_⟩
    rcases Node.hint_handleAppendEntries (a.cluster.node c.peer) c.args with hsame | hnew
    · exact .inl hsame
    · right; right
      rw [hnew]
      exact List.mem_append_left _ (h.calls c (List.mem_of_getElem? hc))
  | handleRequestVote k =>
    have hnil := wins_eq_nil he fun k c h => by cases h
    obtain ⟨c, hc, rfl⟩ := Option.map_eq_some_iff.mp he
    have hhint := Node.hint_handleRequestVote (a.cluster.node c.peer) c.args
    -- the node keeps `leader_id` and takes over the term of the request
    refine (hp.set_iff (n := c.peer) (r := ((a.cluster.node c.peer).handleRequestVote c.args).1)
      (t := c.args.term) rfl (fun hlt => ?_) fun hge => ?_).trans (by simp [Fits, hc])
    · exact ⟨by rw [hhint, max_eq_right hlt.le], hnil⟩
    · left
      rw [hhint, max_eq_left hge]
      rfl
  | voteReply k =>
    obtain ⟨c, hc, hw⟩ := Option.map_eq_some_iff.mp he
    -- a reply of a later term, or a vote that may be the last one needed
    refine (hp.set_iff (n := c.candidate)
      (r := (a.cluster.node c.candidate).onVoteReply c.term c.reply) (t := c.reply.term)
      (by rw [← hw]) (fun hlt => ⟨Node.hint_onVoteReply_of_lt hlt, ?_⟩) fun hge => ?_).trans
        (by simp [Fits, hc])
    · refine wins_eq_nil he fun k' c' h h' => ?_
      cases h
      obtain rfl := Option.some_inj.mp (hc.symm.trans h')
      exact hlt
    · rcases Node.hint_onVoteReply_of_ge (t := c.term) hge with hsame | ⟨hnew, hl, hcand⟩
      · exact .inl hsame
      · -- it has just been elected
        right
        have hmem := (hg.voteReturns c (List.mem_of_getElem? hc)).candidate_mem
        have hid : (a.cluster.node c.candidate).cfg.id = c.candidate := by
          rw [(hg.node c.candidate).cfg]
          rfl
        have hself : w'.node c.candidate =
            (a.cluster.node c.candidate).onVoteReply c.term c.reply := by
          rw [← hw]
          exact Cluster.set_node_self _ _ _
        rw [hnew, hid]
        refine List.mem_append_right _ (mem_wins.mpr ⟨hmem, ?_, by simp [hcand], ?_⟩)
        · rw [hself, hl]
        · rw [hself]
          exact congrArg Prod.snd hnew
  | appendReply k =>
    have hnil := wins_eq_nil he fun k c h => by cases h
    obtain ⟨c, hc, hw⟩ := Option.map_eq_some_iff.mp he
    -- the node keeps `leader_id`, in the term of the reply
    exact (hp.set_iff (n := c.leader)
      (r := ((a.cluster.node c.leader).onAppendReply c.peer c.args.term c.args c.reply).1)
      (t := c.reply.term) (by rw [← hw])
      (fun hlt => ⟨Node.hint_onAppendReply_of_lt c.peer c.args.term c.args hlt, hnil⟩)
      fun hge => .inl (Node.hint_onAppendReply_of_ge hge)).trans (by simp [Fits, hc])

end Annals

/-! ### The hint of a leader -/

theorem named_set (h : ∀ i, (w.node i).Named) {j : String} {r : Node Cmd} (hr : r.Named)
    (i : String) : ((w.set j r).node i).Named := by
  by_cases hij : i = j
  · subst hij
    rwa [Cluster.set_node_self]
  · rw [Cluster.set_node_ne _ _ hij]
    exact h i

variable [Inhabited Cmd]

/-- One case for each event. -/
theorem named_step (h : ∀ i, (w.node i).Named) (he : Cluster.step M w e = some w') (i : String) :
    (w'.node i).Named := by
  cases e with
  | start n =>
    obtain ⟨-, ⟨⟩⟩ := Option.ite_none_right_eq_some.mp he
    exact named_set h (.of_ne (by simp [Node.start])) i
  | electionTimeout n =>
    obtain ⟨-, ⟨⟩⟩ := Option.ite_none_right_eq_some.mp he
    exact named_set h (.of_ne (by simp)) i
  | stop n =>
    obtain ⟨-, ⟨⟩⟩ := Option.ite_none_right_eq_some.mp he
    exact h i
  | propose n command =>
    obtain ⟨-, ⟨⟩⟩ := Option.ite_none_right_eq_some.mp he
    refine named_set h ?_ i
    unfold Node.propose
    split <;> exact h n
  | replicate n peer term =>
    rw [Cluster.step] at he
    split at he
    swap
    · cases he
    split at he <;> cases he <;> exact h i
  | handleRequestVote k =>
    obtain ⟨c, -, rfl⟩ := Option.map_eq_some_iff.mp he
    exact named_set h ((h c.peer).handleRequestVote _) i
  | voteReply k =>
    obtain ⟨c, -, rfl⟩ := Option.map_eq_some_iff.mp he
    exact named_set h ((h c.candidate).onVoteReply _ _) i
  | handleAppendEntries k =>
    obtain ⟨c, -, rfl⟩ := Option.map_eq_some_iff.mp he
    exact named_set h ((h c.peer).handleAppendEntries _) i
  | appendReply k =>
    obtain ⟨c, -, rfl⟩ := Option.map_eq_some_iff.mp he
    exact named_set h ((h c.leader).onAppendReply _ _ _ _) i
  | loseVoteCall k | loseVoteReturn k | loseAppendCall k | loseAppendReturn k =>
    cases he
    exact h i
  | applier n =>
    obtain ⟨-, ⟨⟩⟩ := Option.ite_none_right_eq_some.mp he
    exact named_set (r := (w.node n).applier.1) h (h n) i

/-- **A leader names itself.** -/
theorem Reachable.leaderHint (h : Reachable M w) {n : String} {t : ℕ}
    (hn : (w.node n).state = (t, true)) : (w.node n).leaderHint = (n, t) := by
  obtain ⟨g, hg⟩ := h.exists_history
  obtain ⟨hterm, hrole⟩ := Node.state_eq_true.mp hn
  have hnamed : (w.node n).Named :=
    Run.invariant (P := fun w : Cluster Cmd => ∀ i, (w.node i).Named)
      (fun _ _ ⟨_, he⟩ h => named_step h he) h
      (fun _ => .of_ne (by simp [Cluster.init, Node.init])) n
  rw [Node.leaderHint, hnamed hrole, hterm, (hg.node n).cfg]
  rfl

/-! ### Hints along a run -/

/-- **Hints are true pairs** in all states of a run if and only if every step of it fits. -/
theorem hint_is_true_pair (M : Membership) (es : List (Event Cmd)) :
    Run.Always (Annals.step M) Annals.TruePairs (Annals.init M) es ↔
      Run.Meets (Annals.step M) Annals.Fits (Annals.init M) es := by
  refine Run.always_iff_meets (fun a e a' hs (h : Annals.Told M a) => h.step hs)
    (fun a e a' hs h hp => Annals.truePairs_step h hp hs) (Annals.told_init M) ?_ es
  intro i L t hi hL
  exact absurd (congrArg Prod.fst hi).symm hL

/-- `b` has heard of leader `a` in term 1 when `c`, which has lost an election before, asks it
for its vote in term 2. -/
def trioAsks : List (Event ℕ) :=
  trioElects ++ [.replicate "a" "b" 1, .handleAppendEntries 0, .electionTimeout "c",
    .electionTimeout "c", .handleRequestVote 4]

/-- `b` says that `a` leads term 2, which nobody has won. -/
theorem hint_is_false_pair : ∃ a : Annals ℕ,
    Relation.ReflTransGen (Run.Step (Annals.step trio)) (Annals.init trio) a ∧
      (a.cluster.node "b").leaderHint = ("a", 2) ∧ a.elected = [("a", 1)] :=
  ⟨(Run.exec (Annals.step trio) (Annals.init trio) trioAsks).get (by decide +kernel),
    Run.steps_get _, by decide +kernel, by decide +kernel⟩

end Raft
