/-
The region servers: `sharding/shard_state.py`, `sharding/handoff.py` and
`sharding/region_server.py` over one Raft cluster per shard.

Every node takes part in every shard.  A `World` has the shards' clusters, each
replica's registry and lock, each node's tick, and the hand-off calls on the
wire.  Coroutines are cut at their `await`s:

* `add_agent` waits for the lock (`World.waiting`), then holds it in
  `wait_caught_up` (`Holder.catchUp`) and in `_wait_applied` (`Holder.place`);
* `tick` visits the shards (`Tick.visit`, and `Tick.enter` while it waits for a
  lock), hands its crossers off one after the other (`Tick.handOff`,
  `Tick.await`), and removes them (`Tick.remove`, with `Holder.remove` while it
  holds a lock).

A sleeping `_wait_applied` may wake up (`poll`) or find its deadline passed
(`expire`) at any time; an `add_agent` call and a tick may be cancelled at any
`await`, which is what a crash, a server stop or a caller's deadline does to
them.  Locks are granted in any order.

`placed`, `spawns` and `spawned`, and the `mark` of a departure, are history:
the snapshots that `add_agent` has proposed, the agents that it did that for when
called by `spawn_agent`, those for which `spawn_agent` has returned `True`, and
when the departure was.  No part of the program reads them.
-/
import Dssd.AgentWorld
import Dssd.RaftSteps

open Function (update)

namespace Region

open Raft (Cluster LogEntry Membership Node)

/-- A log command: `none` is the empty command of a new leader's no-op, `some` the JSON
list of a shard's agents. -/
abbrev Snapshot := Option (List AgentState)

/-- `_snapshot()` -/
def Registry.snapshot (r : Registry) : Snapshot := some r.agents

/-- `_apply(entry)` -/
def Registry.apply (r : Registry) (entry : LogEntry Snapshot) : Registry :=
  match entry.command with
  | none => r
  | some l => .ofList l

/-- `caught_up()` -/
def caughtUp (r : Node Snapshot) : Prop := r.lastApplied ≥ r.lastIndex

instance (r : Node Snapshot) : Decidable (caughtUp r) := by
  unfold caughtUp
  infer_instance

/-- The same nodes take part in every shard of the grid. -/
structure Setup where
  M : Membership
  grid : GridConfig

/-- `DT`, the simulated time per tick. -/
def dt : ℚ := 1

/-! ### State -/

/-- An agent that phase 1 of a tick moved out of `shard`; `mark` entries had been placed by then. -/
structure Departure where
  shard : String
  agent : AgentState
  dest : String
  mark : ℕ
  deriving DecidableEq

/-- A `HandOff` call: what is sent to node `target`, and the caller and the departure it is for. -/
structure Call where
  id : ℕ
  caller : String
  target : String
  term : ℕ
  departure : Departure
  deriving DecidableEq

structure HandOffResponse where
  accepted : Bool
  reason : String
  deriving DecidableEq

/-- A call of `add_agent` that waits for the lock; `caller` is `none` for `spawn_agent`. -/
structure AddCall where
  shard : String
  node : String
  agent : AgentState
  caller : Option Call

/-- Who holds the lock of a replica, and where it sleeps: in `_wait_applied` of `index`,
which it called as leader of `term`. -/
inductive Holder
  | catchUp (agent : AgentState) (caller : Option Call) (term index : ℕ)
  | place (agent : AgentState) (caller : Option Call) (term index : ℕ) (before : Registry)
  | remove (ids : List String) (term index : ℕ)
  deriving DecidableEq

namespace Holder

def term : Holder → ℕ
  | catchUp _ _ t _ => t
  | place _ _ t _ _ => t
  | remove _ t _ => t

def index : Holder → ℕ
  | catchUp _ _ _ i => i
  | place _ _ _ i _ => i
  | remove _ _ i => i

/-- The copy that a failed `add_agent` puts back. -/
def before : Holder → Option Registry
  | place _ _ _ _ r => some r
  | _ => none

/-- The ids that a tick waits to pop. -/
def ids : Holder → List String
  | remove l _ _ => l
  | _ => []

end Holder

/-- `agents` and `lock` of a `ShardStateMachine`. -/
structure Replica where
  agents : Registry
  lock : Option Holder

/-- Where `tick` of a node is. -/
inductive Tick
  | idle
  | visit (shards : List String) (departures : List Departure)
  | enter (shard : String) (shards : List String) (departures : List Departure)
  | handOff (departures accepted : List Departure)
  | await (call : Call) (departures accepted : List Departure)
  | remove (shards : List String) (accepted : List Departure)
  deriving DecidableEq

/-- A snapshot that `add_agent` proposed. -/
structure Placement where
  shard : String
  agent : AgentState
  term : ℕ
  index : ℕ
  deriving DecidableEq

/-- All `ShardStateMachine` objects: the Raft cluster of each shard, and the replica of each
shard on each node. -/
structure Shards where
  raft : String → Cluster Snapshot
  replica : String → String → Replica
  placed : List Placement

structure World extends Shards where
  tick : String → Tick
  waiting : List AddCall
  requests : List Call
  replies : List (Call × HandOffResponse)
  nextCall : ℕ
  spawns : List String
  spawned : List String

inductive Event
  | raft (shard : String) (e : Raft.Event Snapshot)
  | spawn (node : String) (agent : AgentState)
  | handle (k : ℕ)
  | loseRequest (k : ℕ)
  | loseReply (k : ℕ)
  | acquire (k : ℕ)
  | poll (shard node : String)
  | expire (shard node : String)
  | cancelAdd (shard node : String)
  | cancelWaiting (k : ℕ)
  | tickStart (node : String)
  | tickVisit (node : String)
  | tickEnter (node : String)
  | tickSend (node : String)
  | tickReply (k : ℕ)
  | tickTimeout (node : String)
  | tickRemove (node : String)
  | tickKill (node : String)

namespace Shards

def node (v : Shards) (s n : String) : Node Snapshot := (v.raft s).node n

def agents (v : Shards) (s n : String) : Registry := (v.replica s n).agents

def lock (v : Shards) (s n : String) : Option Holder := (v.replica s n).lock

def setReplica (v : Shards) (s n : String) (r : Replica) : Shards :=
  { v with replica := update v.replica s (update (v.replica s) n r) }

/-- `propose_tick()` -/
def proposeTick (v : Shards) (s n : String) : Shards :=
  { v with
    raft := update v.raft s ((v.raft s).set n ((v.node s n).propose (v.agents s n).snapshot).1) }

/-- `agents[agent.id] = agent`, proposed by a leader; `before` is the copy to go back to. -/
def place (v : Shards) (s n : String) (agent : AgentState) (caller : Option Call) : Shards :=
  let before := v.agents s n
  let r := v.node s n
  { (v.setReplica s n ⟨before.set agent,
      some (.place agent caller r.currentTerm r.log.length before)⟩).proposeTick s n with
    placed := v.placed ++ [⟨s, agent, r.currentTerm, r.log.length⟩] }

/-- A step of the shard's Raft group, its `apply` callback included. -/
def raftStep (S : Setup) (v : Shards) (s : String) (e : Raft.Event Snapshot) : Option Shards :=
  if e.isPropose = true then none
  else
    (Cluster.step S.M (v.raft s) e).map fun c =>
      let v' := { v with raft := update v.raft s c }
      match e with
      | .applier n =>
        v'.setReplica s n
          ⟨(v.node s n).applier.2.1.foldl Registry.apply (v.agents s n), v.lock s n⟩
      | _ => v'

end Shards

namespace World

def init (S : Setup) : World where
  raft _ := Cluster.init S.M
  replica _ _ := ⟨.empty, none⟩
  placed := []
  tick _ := .idle
  waiting := []
  requests := []
  replies := []
  nextCall := 0
  spawns := []
  spawned := []

def setReplica (w : World) (s n : String) (r : Replica) : World :=
  { w with toShards := w.toShards.setReplica s n r }

def proposeTick (w : World) (s n : String) : World :=
  { w with toShards := w.toShards.proposeTick s n }

def setTick (w : World) (n : String) (t : Tick) : World := { w with tick := update w.tick n t }

/-! ### Coroutines -/

/-- A call of `add_agent` returns `ok`. -/
def finish (w : World) (agent : AgentState) (ok : Bool) : Option Call → World
  | some c =>
    { w with
      replies := w.replies ++ [(c, if ok = true then ⟨true, ""⟩
        else ⟨false, "lost leadership before the hand-off committed"⟩)] }
  | none => if ok = true then { w with spawned := w.spawned ++ [agent.id] } else w

/-- `add_agent` after `wait_caught_up`: change the registry and propose. -/
def place (w : World) (s n : String) (agent : AgentState) (caller : Option Call) : World :=
  if (w.node s n).role = .leader then
    { w with
      toShards := w.toShards.place s n agent caller
      spawns := w.spawns ++ caller.elim [agent.id] fun _ => [] }
  else (w.setReplica s n ⟨w.agents s n, none⟩).finish agent false caller

/-- `_handoff` up to its `await`. -/
def send (S : Setup) (w : World) (n : String) (d : Departure) (ds done : List Departure) : World :=
  let (leaderId, term) := (w.node d.dest n).leaderHint
  if leaderId ∉ S.M.ids then w.setTick n (.handOff ds done)
  else
    let c : Call := ⟨w.nextCall, n, leaderId, term, d⟩
    { w.setTick n (.await c ds done) with
      requests := w.requests ++ [c], nextCall := w.nextCall + 1 }

/-- `HandOff(request)` up to its `await`. -/
def handOff (S : Setup) (w : World) (c : Call) : World :=
  let (term, isLeader) := (w.node c.departure.dest c.target).state
  let refuse := fun reason => { w with replies := w.replies ++ [(c, ⟨false, reason⟩)] }
  if c.departure.dest ∉ allShardIds S.grid then refuse ("unknown shard " ++ c.departure.dest)
  else if isLeader = false then refuse "not the leader for this shard"
  else if term ≠ c.term then refuse ("stale term: current is " ++ toString term)
  else
    { w with waiting := w.waiting ++ [⟨c.departure.dest, c.target, c.departure.agent, some c⟩] }

/-- Phase 1 of `tick` in one shard, with the lock held. -/
def move (S : Setup) (w : World) (s n : String) (shards : List String) (ds : List Departure) :
    World :=
  if ¬ caughtUp (w.node s n) then w.setTick n (.visit shards ds)
  else
    let moved := (w.agents s n).step dt S.grid
    let crossers := moved.agents.filter fun a => a.shardId S.grid ≠ s
    ((w.setReplica s n ⟨moved, none⟩).proposeTick s n).setTick n
      (.visit shards (ds ++ crossers.map fun a => ⟨s, a, a.shardId S.grid, w.placed.length⟩))

/-- `tick` has dealt with the first of the shards it removes agents from. -/
def next (w : World) (n : String) : World :=
  match w.tick n with
  | .remove (_ :: shards) done => w.setTick n (.remove shards done)
  | _ => w

/-- A sleeping `_wait_applied` wakes up; `none` if it goes on sleeping. -/
def poll (w : World) (s n : String) : Option World :=
  let r := w.node s n
  let agents := w.agents s n
  match w.lock s n with
  | none => none
  | some (.catchUp a caller t i) =>
    if r.state ≠ (t, true) then some ((w.setReplica s n ⟨agents, none⟩).finish a false caller)
    else if r.lastApplied ≥ i then some (w.place s n a caller)
    else none
  | some (.place a caller t i before) =>
    if r.state ≠ (t, true) then some ((w.setReplica s n ⟨before, none⟩).finish a false caller)
    else if r.lastApplied ≥ i then some ((w.setReplica s n ⟨agents, none⟩).finish a true caller)
    else none
  | some (.remove ids t i) =>
    if r.state ≠ (t, true) then some ((w.setReplica s n ⟨agents, none⟩).next n)
    else if r.lastApplied ≥ i then
      some (((w.setReplica s n ⟨ids.foldl Registry.pop agents, none⟩).proposeTick s n).next n)
    else none

/-- The `add_agent` that holds the lock returns `True` when it next wakes up: entry `i` has
placed `a`. -/
def Accepts (w : World) (s n : String) (a : AgentState) (i : ℕ) : Prop :=
  ∃ caller t before, w.lock s n = some (.place a caller t i before) ∧
    (w.node s n).state = (t, true) ∧ i ≤ (w.node s n).lastApplied

/-- The tick that holds the lock pops `id` when it next wakes up. -/
def Removes (w : World) (s n id : String) : Prop :=
  ∃ ids t i, w.lock s n = some (.remove ids t i) ∧ id ∈ ids ∧
    (w.node s n).state = (t, true) ∧ i ≤ (w.node s n).lastApplied

/-- A sleeping `_wait_applied` finds that its deadline has passed. -/
def expire (w : World) (s n : String) : Option World :=
  let r := w.node s n
  let agents := w.agents s n
  match w.lock s n with
  | none => none
  | some h =>
    if r.state ≠ (h.term, true) ∨ r.lastApplied ≥ h.index then none
    else match h with
      | .catchUp a caller _ _ => some ((w.setReplica s n ⟨agents, none⟩).finish a false caller)
      | .place a caller _ _ before => some ((w.setReplica s n ⟨before, none⟩).finish a false caller)
      | .remove _ _ _ => some ((w.setReplica s n ⟨agents, none⟩).next n)

/-- A waiting `add_agent` takes the lock. -/
def acquire (w : World) (k : ℕ) (t : AddCall) : World :=
  let r := w.node t.shard t.node
  let w := { w with waiting := w.waiting.eraseIdx k }
  if r.state.2 = true then
    w.setReplica t.shard t.node
      ⟨w.agents t.shard t.node, some (.catchUp t.agent t.caller r.currentTerm r.lastIndex)⟩
  else w.finish t.agent false t.caller

/-- `tick` takes the lock of the next shard it removes agents from. -/
def startRemove (w : World) (n s : String) (shards : List String) (done : List Departure) : World :=
  let r := w.node s n
  if r.state.2 = true then
    w.setReplica s n ⟨w.agents s n,
      some (.remove ((done.filter fun d => d.shard = s).map fun d => d.agent.id)
        r.currentTerm r.lastIndex)⟩
  else w.setTick n (.remove shards done)

/-! ### Steps -/

/-- One step of the world; `none` if the event cannot happen now. -/
def step (S : Setup) (w : World) : Event → Option World
  | .raft s e => (w.toShards.raftStep S s e).map fun v => { w with toShards := v }
  | .spawn n a =>
    let s := a.shardId S.grid
    if s ∈ allShardIds S.grid ∧ (w.node s n).state.2 = true then
      some { w with waiting := w.waiting ++ [⟨s, n, a, none⟩] }
    else some w
  | .handle k =>
    w.requests[k]?.map fun c => { w with requests := w.requests.eraseIdx k }.handOff S c
  | .loseRequest k => some { w with requests := w.requests.eraseIdx k }
  | .loseReply k => some { w with replies := w.replies.eraseIdx k }
  | .acquire k =>
    match w.waiting[k]? with
    | none => none
    | some t => if (w.lock t.shard t.node).isNone = true then some (w.acquire k t) else none
  | .poll s n => w.poll s n
  | .expire s n => w.expire s n
  | .cancelAdd s n =>
    match w.lock s n with
    | some (.catchUp _ _ _ _) | some (.place _ _ _ _ _) =>
      some (w.setReplica s n ⟨w.agents s n, none⟩)
    | _ => none
  | .cancelWaiting k => some { w with waiting := w.waiting.eraseIdx k }
  | .tickStart n =>
    match w.tick n with
    | .idle => some (w.setTick n (.visit (allShardIds S.grid) []))
    | _ => none
  | .tickVisit n =>
    match w.tick n with
    | .visit [] ds => some (w.setTick n (.handOff ds []))
    | .visit (s :: shards) ds =>
      if (w.node s n).state.2 = true then some (w.setTick n (.enter s shards ds))
      else some (w.setTick n (.visit shards ds))
    | _ => none
  | .tickEnter n =>
    match w.tick n with
    | .enter s shards ds =>
      if (w.lock s n).isNone = true then some (w.move S s n shards ds) else none
    | _ => none
  | .tickSend n =>
    match w.tick n with
    | .handOff (d :: ds) done => some (w.send S n d ds done)
    | .handOff [] done => some (w.setTick n (.remove (done.map Departure.shard).eraseDups done))
    | _ => none
  | .tickReply k =>
    match w.replies[k]? with
    | none => none
    | some (c, reply) =>
      match w.tick c.caller with
      | .await c' ds done =>
        if c' = c then
          some ({ w with replies := w.replies.eraseIdx k }.setTick c.caller
            (.handOff ds (if reply.accepted = true then done ++ [c.departure] else done)))
        else none
      | _ => none
  | .tickTimeout n =>
    match w.tick n with
    | .await _ ds done => some (w.setTick n (.handOff ds done))
    | _ => none
  | .tickRemove n =>
    match w.tick n with
    | .remove [] _ => some (w.setTick n .idle)
    | .remove (s :: shards) done =>
      if (w.lock s n).isNone = true then some (w.startRemove n s shards done) else none
    | _ => none
  | .tickKill n =>
    match w.tick n with
    | .remove (s :: _) _ =>
      match w.lock s n with
      | some (.remove _ _ _) => some ((w.setReplica s n ⟨w.agents s n, none⟩).setTick n .idle)
      | _ => some (w.setTick n .idle)
    | _ => some (w.setTick n .idle)

end World

/-- Some step of the world leads from `w` to `w'`. -/
def Step (S : Setup) (w w' : World) : Prop := Run.Step (World.step S) w w'

def Steps (S : Setup) (w w' : World) : Prop := Relation.ReflTransGen (Step S) w w'

def Reachable (S : Setup) (w : World) : Prop := Steps S (World.init S) w

/-- Reachable by events that all meet `ok` in the state they happen in. -/
def ReachableWhere (S : Setup) (ok : World → Event → Prop) (w : World) : Prop :=
  Relation.ReflTransGen (Run.StepWhere (World.step S) ok) (World.init S) w

end Region
