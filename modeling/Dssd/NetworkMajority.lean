/-
The side of a split that has a majority (`playground.py`).

* `Mesh.Together` — some nodes are up and on one side, whatever the others are;
* `Mesh.Onward` — runs in which only these nodes take part, in one group, and the network
  delivers what they send; `Mesh.exists_onward` — every run of their Raft cluster is one of
  the mesh;
* `Mesh.loss_bounds` — the network always has a chance to deliver;
* **`Mesh.majority_side_makes_progress`** — so a majority that is together can elect a leader
  and commit a new command, and neither the other nodes nor the other groups notice.
-/
import Dssd.NetworkSplit
import Dssd.RaftProgress
import Mathlib.Tactic.NormNum

namespace Mesh

open Raft (Cluster LogEntry Node RequestVoteArgs RequestVoteReply AppendEntriesArgs
  AppendEntriesReply VoteCall VoteReturn AppendCall AppendReturn)

variable {Cmd : Type} [Inhabited Cmd] {S : Setup} {m m' : Mesh Cmd} {A : Finset String}
  {g n : String} {k : ℕ}

/-- The nodes of `A` are up and on one side. -/
structure Together (A : Finset String) (net : MemoryNetwork) : Prop where
  up : ∀ a ∈ A, a ∉ net.down
  side : ∀ a ∈ A, ∀ b ∈ A, net.side a = net.side b

instance (A : Finset String) (net : MemoryNetwork) : Decidable (Together A net) :=
  decidable_of_iff ((∀ a ∈ A, a ∉ net.down) ∧ ∀ a ∈ A, ∀ b ∈ A, net.side a = net.side b)
    ⟨fun h => ⟨h.1, h.2⟩, fun h => ⟨h.up, h.side⟩⟩

/-- An RPC between nodes of `A`. -/
def Rpc.Inside (A : Finset String) (g : String) (c : Rpc Cmd) : Prop :=
  c.group = g ∧ c.me ∈ A ∧ c.peer ∈ A

/-- Nodes of `A` do something in a group, and what they send is delivered. -/
def Event.Within (A : Finset String) (g : String) (m : Mesh Cmd) : Event Cmd → Prop
  | .electionTimeout n h | .propose n h _ | .applier n h => n ∈ A ∧ h = g
  | .replicate n h peer _ => n ∈ A ∧ peer ∈ A ∧ h = g
  | .send k random => (0 ≤ random ∧ random < 1) ∧ ∀ c ∈ m.rpcs[k]?, c.Inside A g ∧
      m.net.delivers c.me c.peer random
  | .arrive k random => (0 ≤ random ∧ random < 1) ∧ ∀ c ∈ m.rpcs[k]?, c.Inside A g ∧
      m.net.delivers c.peer c.me random
  | .finish k => ∀ c ∈ m.rpcs[k]?, c.Inside A g
  | _ => False

/-- A run of the nodes of `A` in a group. -/
def Onward (S : Setup) (A : Finset String) (g : String) (m m' : Mesh Cmd) : Prop :=
  Relation.ReflTransGen (Run.StepWhere (step S) (Event.Within A g)) m m'

theorem Onward.trans {m₁ : Mesh Cmd} (h : Onward S A g m m₁) (h' : Onward S A g m₁ m') :
    Onward S A g m m' :=
  Relation.ReflTransGen.trans h h'

theorem Onward.of_step {e : Event Cmd} (he : e.Within A g m) (hs : step S m e = some m') :
    Onward S A g m m' :=
  .single ⟨e, he, hs⟩

/-! ### The network -/

/-- What an event does to the network. -/
def Event.control : Event Cmd → MemoryNetwork → MemoryNetwork
  | .kill n, net => { net with down := insert n net.down }
  | .revive n, net => { net with down := net.down.erase n }
  | .partition groups, net => net.partition groups
  | .setLoss fraction, net => net.setLoss fraction
  | _, net => net

theorem net_step {e : Event Cmd} (he : step S m e = some m') : m'.net = e.control m.net := by
  cases e with
  | start | stop | electionTimeout | propose | applier =>
    obtain ⟨-, ⟨⟩⟩ := Option.ite_none_right_eq_some.mp he
    rfl
  | replicate n h peer term =>
    rw [step] at he
    split at he
    swap
    · cases he
    split at he <;> cases he <;> rfl
  | send k random =>
    obtain ⟨c, -, hs⟩ := Option.bind_eq_some_iff.mp he
    obtain ⟨request, -, rfl⟩ := Option.map_eq_some_iff.mp hs
    split <;> rfl
  | arrive k random =>
    obtain ⟨c, -, hs⟩ := Option.bind_eq_some_iff.mp he
    obtain ⟨out, -, rfl⟩ := Option.map_eq_some_iff.mp hs
    split <;> rfl
  | finish k =>
    obtain ⟨c, -, hs⟩ := Option.bind_eq_some_iff.mp he
    obtain ⟨r, -, rfl⟩ := Option.map_eq_some_iff.mp hs
    rfl
  | drop | kill | revive | partition | setLoss =>
    cases he
    rfl

omit [Inhabited Cmd] in
theorem Event.Within.elsewhere {e : Event Cmd} (he : e.Within A g m) {h : String} (hne : h ≠ g) :
    e.Elsewhere m h := by
  cases e with
  | electionTimeout n i | propose n i | applier n i => exact he.2.trans_ne hne.symm
  | replicate n i peer term => exact he.2.2.trans_ne hne.symm
  | send k random | arrive k random => exact fun c hc => (he.2 c hc).1.1.trans_ne hne.symm
  | finish k => exact fun c hc => (he c hc).1.trans_ne hne.symm
  | start | stop | drop => exact he.elim
  | kill | revive | partition | setLoss => trivial

omit [Inhabited Cmd] in
theorem Event.Within.control {e : Event Cmd} (he : e.Within A g m) (net : MemoryNetwork) :
    e.control net = net := by
  cases e with
  | kill | revive | partition | setLoss => exact he.elim
  | _ => rfl

/-- The network always has a chance to deliver. -/
theorem loss_bounds (h : Reachable S m) : 0 ≤ m.net.loss ∧ m.net.loss < 1 := by
  refine Run.invariant (P := fun m : Mesh Cmd => 0 ≤ m.net.loss ∧ m.net.loss < 1) ?_ h
    ⟨le_refl _, zero_lt_one⟩
  rintro m m' ⟨e, he⟩ hm
  rw [net_step he]
  cases e with
  | setLoss fraction =>
    have hlt : min (9 / 10) fraction < (1 : ℚ) :=
      (min_le_left _ _).trans_lt (by norm_num)
    exact ⟨le_max_left _ _, max_lt zero_lt_one hlt⟩
  | _ => exact hm

/-- The switches of the network stay as they are, and so do the other groups. -/
theorem Onward.frame (h : Onward S A g m m') :
    m'.net = m.net ∧ ∀ i ≠ g, m'.group i = m.group i := by
  refine Run.invariant (P := fun x : Mesh Cmd => x.net = m.net ∧ ∀ i ≠ g, x.group i = m.group i)
    ?_ h ⟨rfl, fun _ _ => rfl⟩
  rintro x x' ⟨e, he, hs⟩ ⟨hnet, hother⟩
  refine ⟨?_, fun i hi => (group_elsewhere hs (he.elsewhere hi)).trans (hother i hi)⟩
  rw [net_step hs, he.control, hnet]

/-- What nodes that are together send is delivered if nothing is lost by chance. -/
theorem Together.delivers {net : MemoryNetwork} (h : Together A net) {a b : String} (ha : a ∈ A)
    (hb : b ∈ A) : net.delivers a b net.loss :=
  ⟨⟨h.up a ha, h.up b hb, h.side a ha b hb⟩, le_rfl⟩

/-! ### Runs of the cluster -/

/-- The network delivers between the nodes of `A`, with a value that `random.random()` has. -/
structure Delivering (A : Finset String) (net : MemoryNetwork) : Prop extends Together A net where
  loss : 0 ≤ net.loss ∧ net.loss < 1

/-- A request that has not arrived yet can be on its way. -/
theorem exists_sent (h : Delivering A m.net) {c : Rpc Cmd} (hc : c.Inside A g)
    (hk : m.rpcs[k]? = some c) {request : Request Cmd}
    (hs : c.request = request ∨ c.request.sent = some request) :
    ∃ m₁, Onward S A g m m₁ ∧ m₁.group g = m.group g ∧ m₁.net = m.net ∧
      m₁.rpcs[k]? = some { c with request } ∧ m₁.rpcs.eraseIdx k = m.rpcs.eraseIdx k := by
  rcases hs with rfl | hs
  · exact ⟨m, .refl, rfl, rfl, hk, rfl⟩
  · have hdel := h.delivers hc.2.1 hc.2.2
    have hstep : step S m (.send k m.net.loss) =
        some { m with rpcs := m.rpcs.set k { c with request } } := by
      rw [step, hk, Option.bind_some, send, hs, Option.map_some, if_pos hdel]
    obtain ⟨hlt, -⟩ := List.getElem?_eq_some_iff.mp hk
    refine ⟨_, .of_step (e := .send k m.net.loss) ⟨h.loss, fun c' hc' => ?_⟩ hstep,
      group_set_sent hk hs g, rfl, by simp [hlt], List.eraseIdx_set_eq⟩
    rw [hk] at hc'
    cases hc'
    exact ⟨hc, hdel⟩

/-- A request that has been sent can arrive and be answered. -/
theorem step_arrive (h : Delivering A m.net) (hg : g ∈ S.groups) {c : Rpc Cmd} (hc : c.Inside A g)
    (hk : m.rpcs[k]? = some c) {out : Node Cmd × Request Cmd}
    (ho : c.request.handle (m.raft c.peer g) = some out) :
    Onward S A g m { m.set c.peer g out.1 with
      rpcs := m.rpcs.eraseIdx k ++ [{ c with request := out.2 }] } := by
  have hdel := h.delivers hc.2.2 hc.2.1
  obtain ⟨rfl, hme, hpeer⟩ := hc
  have hstep : step S m (.arrive k m.net.loss) = some { m.set c.peer c.group out.1 with
      rpcs := m.rpcs.eraseIdx k ++ [{ c with request := out.2 }] } := by
    rw [step, hk, Option.bind_some, arrive, ho, Option.map_some, if_neg (not_not.mpr hg),
      if_pos hdel]
  refine .of_step (e := .arrive k m.net.loss) ⟨h.loss, fun c' hc' => ?_⟩ hstep
  rw [hk] at hc'
  cases hc'
  exact ⟨⟨rfl, hme, hpeer⟩, hdel⟩

/-- A reply that has been sent can arrive. -/
theorem step_finish {c : Rpc Cmd} (hc : c.Inside A g) (hk : m.rpcs[k]? = some c) {r : Node Cmd}
    (hr : c.request.resume (m.raft c.me g) c.peer = some r) :
    Onward S A g m { m.set c.me g r with rpcs := m.rpcs.eraseIdx k } := by
  obtain ⟨rfl, hin⟩ := hc
  have hstep : step S m (.finish k) =
      some { m.set c.me c.group r with rpcs := m.rpcs.eraseIdx k } := by
    rw [step, hk, Option.bind_some, finish, hr, Option.map_some]
  refine .of_step (e := .finish k) (fun c' hc' => ?_) hstep
  rw [hk] at hc'
  cases hc'
  exact ⟨rfl, hin⟩

omit [Inhabited Cmd] in
/-- Where the vote requests of a group come from. -/
theorem exists_rpc_voteCall {vc : VoteCall} (hk : (m.group g).voteCalls[k]? = some vc) :
    ∃ j stage, m.rpcs[j]? = some ⟨g, vc.candidate, vc.peer, .vote vc.args stage⟩ ∧
      (stage = .called ∨ stage = .sent) ∧
      (m.rpcs.filterMap (Rpc.voteCall g)).eraseIdx k =
        (m.rpcs.eraseIdx j).filterMap (Rpc.voteCall g) := by
  obtain ⟨j, c, hj, hc, herase⟩ := exists_of_getElem?_filterMap hk
  obtain ⟨h, me, peer, ⟨args, stage⟩ | ⟨args, stage⟩⟩ := c <;> cases stage <;> try cases hc
  all_goals
    obtain ⟨rfl, ⟨⟩⟩ := Option.ite_none_right_eq_some.mp hc
    exact ⟨j, _, hj, by simp, herase⟩

omit [Inhabited Cmd] in
theorem exists_rpc_appendCall {ac : AppendCall Cmd} (hk : (m.group g).appendCalls[k]? = some ac) :
    ∃ j stage, m.rpcs[j]? = some ⟨g, ac.leader, ac.peer, .append ac.args stage⟩ ∧
      (stage = .called ∨ stage = .sent) ∧
      (m.rpcs.filterMap (Rpc.appendCall g)).eraseIdx k =
        (m.rpcs.eraseIdx j).filterMap (Rpc.appendCall g) := by
  obtain ⟨j, c, hj, hc, herase⟩ := exists_of_getElem?_filterMap hk
  obtain ⟨h, me, peer, ⟨args, stage⟩ | ⟨args, stage⟩⟩ := c <;> cases stage <;> try cases hc
  all_goals
    obtain ⟨rfl, ⟨⟩⟩ := Option.ite_none_right_eq_some.mp hc
    exact ⟨j, _, hj, by simp, herase⟩

omit [Inhabited Cmd] in
theorem exists_rpc_voteReturn {vr : VoteReturn} (hk : (m.group g).voteReturns[k]? = some vr) :
    ∃ j args, m.rpcs[j]? = some ⟨g, vr.candidate, vr.peer, .vote args (.answered vr.reply)⟩ ∧
      args.term = vr.term ∧
      (m.rpcs.filterMap (Rpc.voteReturn g)).eraseIdx k =
        (m.rpcs.eraseIdx j).filterMap (Rpc.voteReturn g) := by
  obtain ⟨j, c, hj, hc, herase⟩ := exists_of_getElem?_filterMap hk
  obtain ⟨h, me, peer, ⟨args, stage⟩ | ⟨args, stage⟩⟩ := c <;> cases stage <;> try cases hc
  obtain ⟨rfl, ⟨⟩⟩ := Option.ite_none_right_eq_some.mp hc
  exact ⟨j, args, hj, rfl, herase⟩

omit [Inhabited Cmd] in
theorem exists_rpc_appendReturn {ar : AppendReturn Cmd}
    (hk : (m.group g).appendReturns[k]? = some ar) :
    ∃ j, m.rpcs[j]? = some ⟨g, ar.leader, ar.peer, .append ar.args (.answered ar.reply)⟩ ∧
      (m.rpcs.filterMap (Rpc.appendReturn g)).eraseIdx k =
        (m.rpcs.eraseIdx j).filterMap (Rpc.appendReturn g) := by
  obtain ⟨j, c, hj, hc, herase⟩ := exists_of_getElem?_filterMap hk
  obtain ⟨h, me, peer, ⟨args, stage⟩ | ⟨args, stage⟩⟩ := c <;> cases stage <;> try cases hc
  obtain ⟨rfl, ⟨⟩⟩ := Option.ite_none_right_eq_some.mp hc
  exact ⟨j, hj, herase⟩

/-- **What the nodes of `A` can do as a cluster, they can do over the network.** -/
theorem exists_onward_step (h : Delivering A m.net) (hg : g ∈ S.groups) {e : Raft.Event Cmd}
    (he : e.Within A (m.group g)) {w' : Cluster Cmd}
    (hs : Cluster.step S.M (m.group g) e = some w') :
    ∃ m', Onward S A g m m' ∧ m'.group g = w' := by
  cases e with
  | start | stop => exact he.elim
  | loseVoteCall | loseVoteReturn | loseAppendCall | loseAppendReturn => exact he.elim
  | electionTimeout n =>
    obtain ⟨⟨hn, hrun, hrole⟩, ⟨⟩⟩ := Option.ite_none_right_eq_some.mp hs
    exact ⟨m.campaign S n g, .of_step (e := .electionTimeout n g) ⟨he, rfl⟩
      (if_pos ⟨hn, hg, hrun, hrole⟩), group_campaign S m n g⟩
  | propose n command =>
    obtain ⟨hn, ⟨⟩⟩ := Option.ite_none_right_eq_some.mp hs
    exact ⟨_, .of_step (e := .propose n g command) ⟨he, rfl⟩ (if_pos ⟨hn, hg⟩), group_set⟩
  | applier n =>
    obtain ⟨⟨hn, hrun⟩, ⟨⟩⟩ := Option.ite_none_right_eq_some.mp hs
    exact ⟨_, .of_step (e := .applier n g) ⟨he, rfl⟩ (if_pos ⟨hn, hg, hrun⟩), group_deliver⟩
  | replicate n peer term =>
    rw [Cluster.step] at hs
    split at hs
    swap
    · cases hs
    rename_i hcond
    obtain ⟨hn, hrun, hpeer⟩ := hcond
    have hif : n ∈ S.M.ids ∧ g ∈ S.groups ∧ m.running n g = true ∧ peer ∈ S.M.peers n :=
      ⟨hn, hg, hrun, hpeer⟩
    split at hs <;> cases hs
    · rename_i args hargs
      refine ⟨_, .of_step (e := .replicate n g peer term) ⟨he.1, he.2, rfl⟩ ?_, group_replicate⟩
      rw [step, if_pos hif, show (m.raft n g).replicateTo peer term = _ from hargs]
    · exact ⟨m, .refl, rfl⟩
  | handleRequestVote k =>
    obtain ⟨vc, hk, rfl⟩ := Option.map_eq_some_iff.mp hs
    obtain ⟨j, stage, hj, hstage, herase⟩ := exists_rpc_voteCall hk
    have hin : (⟨g, vc.candidate, vc.peer, .vote vc.args stage⟩ : Rpc Cmd).Inside A g :=
      ⟨rfl, he vc hk⟩
    obtain ⟨m₁, hon, hgroup, hnet, hj₁, herase₁⟩ := exists_sent (S := S) h hin hj
      (show _ = Request.vote vc.args .sent ∨ _ by
        rcases hstage with rfl | rfl <;> simp [Request.sent])
    have hcalls : m₁.rpcs.filterMap (Rpc.voteCall g) = m.rpcs.filterMap (Rpc.voteCall g) :=
      congrArg Cluster.voteCalls hgroup
    have hanswer := group_answerVote hj₁ ((congrArg (·.eraseIdx k) hcalls).trans
      (herase.trans (congrArg (·.filterMap (Rpc.voteCall g)) herase₁.symm)))
    rw [hgroup] at hanswer
    exact ⟨_, hon.trans (step_arrive (hnet ▸ h) hg ⟨rfl, he vc hk⟩ hj₁ rfl), hanswer⟩
  | handleAppendEntries k =>
    obtain ⟨ac, hk, rfl⟩ := Option.map_eq_some_iff.mp hs
    obtain ⟨j, stage, hj, hstage, herase⟩ := exists_rpc_appendCall hk
    have hin : (⟨g, ac.leader, ac.peer, .append ac.args stage⟩ : Rpc Cmd).Inside A g :=
      ⟨rfl, he ac hk⟩
    obtain ⟨m₁, hon, hgroup, hnet, hj₁, herase₁⟩ := exists_sent (S := S) h hin hj
      (show _ = Request.append ac.args .sent ∨ _ by
        rcases hstage with rfl | rfl <;> simp [Request.sent])
    have hcalls : m₁.rpcs.filterMap (Rpc.appendCall g) = m.rpcs.filterMap (Rpc.appendCall g) :=
      congrArg Cluster.appendCalls hgroup
    have hanswer := group_answerAppend hj₁ ((congrArg (·.eraseIdx k) hcalls).trans
      (herase.trans (congrArg (·.filterMap (Rpc.appendCall g)) herase₁.symm)))
    rw [hgroup] at hanswer
    exact ⟨_, hon.trans (step_arrive (hnet ▸ h) hg ⟨rfl, he ac hk⟩ hj₁ rfl), hanswer⟩
  | voteReply k =>
    obtain ⟨vr, hk, rfl⟩ := Option.map_eq_some_iff.mp hs
    obtain ⟨j, args, hj, hterm, herase⟩ := exists_rpc_voteReturn hk
    exact ⟨_, step_finish ⟨rfl, he vr hk⟩ hj (congrArg some (by rw [hterm]; rfl)),
      group_finishVote hj herase⟩
  | appendReply k =>
    obtain ⟨ar, hk, rfl⟩ := Option.map_eq_some_iff.mp hs
    obtain ⟨j, hj, herase⟩ := exists_rpc_appendReturn hk
    exact ⟨_, step_finish ⟨rfl, he ar hk⟩ hj rfl, group_finishAppend hj herase⟩

theorem exists_onward (h : Delivering A m.net) (hg : g ∈ S.groups) {w' : Cluster Cmd}
    (hw : Raft.Onward S.M A (m.group g) w') : ∃ m', Onward S A g m m' ∧ m'.group g = w' := by
  induction hw with
  | refl => exact ⟨m, .refl, rfl⟩
  | @tail w₁ w' _ hstep ih =>
    obtain ⟨m₁, hon, rfl⟩ := ih
    obtain ⟨e, he, hs⟩ := hstep
    obtain ⟨m', hon', hgroup⟩ := exists_onward_step (hon.frame.1 ▸ h) hg he hs
    exact ⟨m', hon.trans hon', hgroup⟩

/-- **The side of a split that has a majority goes on.**  From every reachable state of the mesh in
which the running nodes of a majority are up and on one side, whatever else is cut off, down or on
its way, there is a run of these nodes alone, in one group, after which one of them leads and a new
entry with the given command is applied by all of them.  The nodes that are not among them, the
other groups and the network are as before. -/
theorem majority_side_makes_progress (hM : S.M.ids.length ≠ 1) (h : Reachable S m)
    (hg : g ∈ S.groups) (hA : Ledger.IsQuorum S.M.members A)
    (hrun : ∀ n ∈ A, m.running n g = true) (hnet : Together A m.net) (command : Cmd) :
    ∃ m', Onward S A g m m' ∧ (∃ n ∈ A, ∃ e : LogEntry Cmd,
      (m'.raft n g).state = (e.term, true) ∧ e.command = command ∧
      ∀ p ∈ A, (m.applied p g).length < e.index ∧ (m'.applied p g)[e.index - 1]? = some e) ∧
      (∀ p ∉ A, m'.raft p g = m.raft p g ∧ m'.applied p g = m.applied p g) ∧
      ∀ i ≠ g, m'.group i = m.group i := by
  obtain ⟨w', hon, n, hn, e, hstate, hcommand, happlied⟩ :=
    Raft.exists_committed hM (group_reachable h g) hA hrun command
  obtain ⟨m', hon', rfl⟩ := exists_onward ⟨hnet, loss_bounds h⟩ hg hon
  exact ⟨m', hon', ⟨n, hn, e, hstate, hcommand, happlied⟩, hon.frame.2, hon'.frame.2⟩

theorem trioSplit_running : ∀ n ∈ ({"b", "c"} : Finset String), trioSplit.running n "" = true := by
  decide +kernel

theorem trioSplit_together : Together {"b", "c"} trioSplit.net := by
  decide +kernel

/-- `a` leads and is cut off; `b` and `c` commit 9. -/
theorem majority_side_makes_progress_trio :
    ∃ m', Onward trio {"b", "c"} "" trioSplit m' ∧ (∃ n ∈ ({"b", "c"} : Finset String),
      ∃ e : LogEntry ℕ, (m'.raft n "").state = (e.term, true) ∧ e.command = 9 ∧
      ∀ p ∈ ({"b", "c"} : Finset String), (trioSplit.applied p "").length < e.index ∧
        (m'.applied p "")[e.index - 1]? = some e) ∧
      (∀ p ∉ ({"b", "c"} : Finset String), m'.raft p "" = trioSplit.raft p "" ∧
        m'.applied p "" = trioSplit.applied p "") ∧
      ∀ i ≠ "", m'.group i = trioSplit.group i :=
  majority_side_makes_progress (by decide) trioSplit_reachable (by decide) Raft.trio_isQuorum
    trioSplit_running trioSplit_together 9

end Mesh
