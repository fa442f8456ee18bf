/-
A cluster of Raft nodes over a network that may lose, delay and reorder.

`Cluster` is every node's state plus what is on the wire: requests not yet
handled and replies not yet processed.  Taking an element off its list is the
only way to handle it, so each RPC is handled at most once and each reply is
processed at most once; an element may also be lost at any time (an unreachable
peer, or a caller whose `wait_for` has run out).

`step` is one step of the event loops: a timer, a client call, a handler, a
coroutine resumed by its reply, the applier, `start` or `stop`.  Timers are not
timed: an election may start at any moment, and `_replicate_to` may run for any
peer and term, which covers every schedule of `_run`.  Handlers and `propose`
work on a stopped node too; its own tasks do not run.  A reply may even reach a
task that outlived `stop`, which asyncio's cancellation does not quite rule out.
-/
import Dssd.RaftNode
import Dssd.Runs

open Function (update)

namespace Raft

/-- The members of a cluster: distinct, non-empty ids, each one's peers being
exactly the other ids. -/
structure Membership where
  ids : List String
  peers : String → List String
  nodup : ids.Nodup
  nonempty : "" ∉ ids
  peers_nodup : ∀ i ∈ ids, (peers i).Nodup
  mem_peers : ∀ i ∈ ids, ∀ p, p ∈ peers i ↔ p ∈ ids ∧ p ≠ i

/-- The cluster of the given members. -/
def Membership.ofIds (ids : List String) (nodup : ids.Nodup) (nonempty : "" ∉ ids) :
    Membership where
  ids := ids
  peers i := ids.filter (· ≠ i)
  nodup := nodup
  nonempty := nonempty
  peers_nodup _ _ := nodup.filter _
  mem_peers i _ p := by simp

/-- The configuration of member `i`. -/
def Membership.config (M : Membership) (i : String) : Config := ⟨i, M.peers i⟩

/-- A `RequestVote` request on its way to `peer`. -/
structure VoteCall where
  candidate : String
  peer : String
  args : RequestVoteArgs

/-- A reply of `peer` on its way back to the `ask` of the election of `term`. -/
structure VoteReturn where
  candidate : String
  peer : String
  term : ℕ
  reply : RequestVoteReply

/-- An `AppendEntries` request on its way to `peer`. -/
structure AppendCall (Cmd : Type) where
  leader : String
  peer : String
  args : AppendEntriesArgs Cmd

/-- A reply of `peer` on its way back to the `_replicate_to` that sent `args`. -/
structure AppendReturn (Cmd : Type) where
  leader : String
  peer : String
  args : AppendEntriesArgs Cmd
  reply : AppendEntriesReply

/-- The nodes, the wire, and what each node has handed to its `apply` so far. -/
structure Cluster (Cmd : Type) where
  node : String → Node Cmd
  running : String → Bool
  voteCalls : List VoteCall
  voteReturns : List VoteReturn
  appendCalls : List (AppendCall Cmd)
  appendReturns : List (AppendReturn Cmd)
  applied : String → List (LogEntry Cmd)

inductive Event (Cmd : Type)
  | start (n : String)
  | stop (n : String)
  | electionTimeout (n : String)
  | propose (n : String) (command : Cmd)
  | replicate (n peer : String) (term : ℕ)
  | handleRequestVote (k : ℕ)
  | voteReply (k : ℕ)
  | loseVoteCall (k : ℕ)
  | loseVoteReturn (k : ℕ)
  | handleAppendEntries (k : ℕ)
  | appendReply (k : ℕ)
  | loseAppendCall (k : ℕ)
  | loseAppendReturn (k : ℕ)
  | applier (n : String)

variable {Cmd : Type}

namespace Cluster

/-- Put `r` in the place of node `n`. -/
def set (w : Cluster Cmd) (n : String) (r : Node Cmd) : Cluster Cmd :=
  { w with node := update w.node n r }

@[simp] theorem set_node_self (w : Cluster Cmd) (n : String) (r : Node Cmd) :
    (w.set n r).node n = r := by
  simp [set]

theorem set_node_ne (w : Cluster Cmd) {n m : String} (r : Node Cmd) (h : m ≠ n) :
    (w.set n r).node m = w.node m := by
  simp [set, h]

@[simp] theorem set_set (w : Cluster Cmd) (n : String) (r r' : Node Cmd) :
    (w.set n r).set n r' = w.set n r' := by
  simp [set]

variable [Inhabited Cmd]

/-- All members freshly constructed, nothing on the wire. -/
def init (M : Membership) : Cluster Cmd where
  node i := Node.init (M.config i)
  running _ := false
  voteCalls := []
  voteReturns := []
  appendCalls := []
  appendReturns := []
  applied _ := []

/-- `_start_election` on node `n`, whose requests go on the wire. -/
def campaign (M : Membership) (w : Cluster Cmd) (n : String) : Cluster Cmd :=
  let (r, args) := (w.node n).startElection
  { w.set n r with voteCalls := w.voteCalls ++ (M.peers n).map fun p => ⟨n, p, args⟩ }

/-- The peer handles vote request `c`, its reply goes on the wire. -/
def answerVote (w : Cluster Cmd) (c : VoteCall) : Cluster Cmd :=
  let (r, reply) := (w.node c.peer).handleRequestVote c.args
  { w.set c.peer r with
    voteReturns := w.voteReturns ++ [⟨c.candidate, c.peer, c.args.term, reply⟩] }

/-- The peer handles append request `c`, its reply goes on the wire. -/
def answerAppend (w : Cluster Cmd) (c : AppendCall Cmd) : Cluster Cmd :=
  let (r, reply) := (w.node c.peer).handleAppendEntries c.args
  { w.set c.peer r with
    appendReturns := w.appendReturns ++ [⟨c.leader, c.peer, c.args, reply⟩] }

/-- `_applier` on node `n`: the entries it applies are recorded. -/
def deliver (w : Cluster Cmd) (n : String) : Cluster Cmd :=
  let (r, es, _) := (w.node n).applier
  { w.set n r with applied := update w.applied n (w.applied n ++ es) }

/-- One step of the cluster; `none` if the event cannot happen now. -/
def step (M : Membership) (w : Cluster Cmd) : Event Cmd → Option (Cluster Cmd)
  | .start n =>
    if n ∈ M.ids then
      some { w.set n (w.node n).start with running := update w.running n true }
    else none
  | .stop n => if n ∈ M.ids then some { w with running := update w.running n false } else none
  | .electionTimeout n =>
    if n ∈ M.ids ∧ w.running n = true ∧ (w.node n).role ≠ .leader then some (w.campaign M n)
    else none
  -- `propose` and the handlers do not ask whether the tasks of the node run
  | .propose n command =>
    if n ∈ M.ids then some (w.set n ((w.node n).propose command).1) else none
  | .replicate n peer term =>
    if n ∈ M.ids ∧ w.running n = true ∧ peer ∈ M.peers n then
      match (w.node n).replicateTo peer term with
      | .ok (some args) => some { w with appendCalls := w.appendCalls ++ [⟨n, peer, args⟩] }
      -- nothing is sent
      | _ => some w
    else none
  | .handleRequestVote k =>
    w.voteCalls[k]?.map fun c => { w with voteCalls := w.voteCalls.eraseIdx k }.answerVote c
  | .voteReply k =>
    w.voteReturns[k]?.map fun c =>
      { w.set c.candidate ((w.node c.candidate).onVoteReply c.term c.reply) with
        voteReturns := w.voteReturns.eraseIdx k }
  | .loseVoteCall k => some { w with voteCalls := w.voteCalls.eraseIdx k }
  | .loseVoteReturn k => some { w with voteReturns := w.voteReturns.eraseIdx k }
  | .handleAppendEntries k =>
    w.appendCalls[k]?.map fun c => { w with appendCalls := w.appendCalls.eraseIdx k }.answerAppend c
  | .appendReply k =>
    w.appendReturns[k]?.map fun c =>
      { w.set c.leader ((w.node c.leader).onAppendReply c.peer c.args.term c.args c.reply).1 with
        appendReturns := w.appendReturns.eraseIdx k }
  | .loseAppendCall k => some { w with appendCalls := w.appendCalls.eraseIdx k }
  | .loseAppendReturn k => some { w with appendReturns := w.appendReturns.eraseIdx k }
  | .applier n => if n ∈ M.ids ∧ w.running n = true then some (w.deliver n) else none

end Cluster

variable [Inhabited Cmd]

/-- Some step of the cluster leads from `w` to `w'`. -/
def Step (M : Membership) (w w' : Cluster Cmd) : Prop := Run.Step (Cluster.step M) w w'

/-- A run of the cluster leads from `w` to `w'`. -/
def Steps (M : Membership) (w w' : Cluster Cmd) : Prop := Relation.ReflTransGen (Step M) w w'

/-- The states some run from the initial state leads to. -/
def Reachable (M : Membership) (w : Cluster Cmd) : Prop := Steps M (Cluster.init M) w

end Raft
