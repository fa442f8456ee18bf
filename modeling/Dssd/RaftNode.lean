/-
One Raft node: the state of `raft.Raft` and its methods, as pure functions.

Each method takes the node's state and returns the new one, with its return
value or the messages it sends.  Coroutines are cut at their `await`:
`_start_election` and its inner `ask` become `startElection` and `onVoteReply`,
`_replicate_to` becomes `replicateTo` and `onAppendReply`.

Left out: the clock fields (`_last_contact`, `_election_timeout`,
`_last_heartbeat_sent`), which only decide *when* a method runs, and `group`,
which is the same on every message of a cluster.
-/
import Mathlib.Data.Nat.Notation
import Mathlib.Logic.Function.Basic

open Function (update)

namespace Raft

/-- `LogEntry` of the wire format.  Commands are opaque; `default` plays the
empty command `b""` of a new leader's no-op. -/
structure LogEntry (Cmd : Type) where
  term : ℕ
  index : ℕ
  command : Cmd
  deriving DecidableEq, Repr

structure RequestVoteArgs where
  term : ℕ
  candidateId : String
  lastLogIndex : ℕ
  lastLogTerm : ℕ
  deriving DecidableEq, Repr

structure RequestVoteReply where
  term : ℕ
  voteGranted : Bool
  deriving DecidableEq, Repr

structure AppendEntriesArgs (Cmd : Type) where
  term : ℕ
  leaderId : String
  prevLogIndex : ℕ
  prevLogTerm : ℕ
  entries : List (LogEntry Cmd)
  leaderCommit : ℕ
  deriving DecidableEq, Repr

structure AppendEntriesReply where
  term : ℕ
  success : Bool
  deriving DecidableEq, Repr

inductive Role
  | follower
  | candidate
  | leader
  deriving DecidableEq, Repr

/-- What a Python list or dict access, or a negative protobuf integer, may raise. -/
inductive PyError
  | keyError
  | indexError
  | valueError
  deriving DecidableEq, Repr

structure Config where
  id : String
  peers : List String
  deriving DecidableEq, Repr

/-- The fields of a `Raft` object.  `votes t` is the variable `votes` of the
election this node started in term `t`, which the `ask` coroutines share. -/
structure Node (Cmd : Type) where
  cfg : Config
  currentTerm : ℕ
  votedFor : String
  log : List (LogEntry Cmd)
  role : Role
  leaderId : String
  commitIndex : ℕ
  lastApplied : ℕ
  nextIndex : String → Option ℕ
  matchIndex : String → Option ℕ
  votes : ℕ → ℕ

section methods

variable {Cmd : Type} [Inhabited Cmd]

/-- `log[0]` of every node. -/
def sentinel : LogEntry Cmd := ⟨0, 0, default⟩

namespace Node

/-- `Raft.__init__` -/
def init (cfg : Config) : Node Cmd where
  cfg := cfg
  currentTerm := 0
  votedFor := ""
  log := [sentinel]
  role := .follower
  leaderId := ""
  commitIndex := 0
  lastApplied := 0
  nextIndex := fun _ => none
  matchIndex := fun _ => none
  votes := fun _ => 0

/-- `start()`: term, vote and log survive, but a restarted node is a follower. -/
def start (r : Node Cmd) : Node Cmd := { r with role := .follower, leaderId := "" }

/-- `state()` -/
def state (r : Node Cmd) : ℕ × Bool := (r.currentTerm, r.role = .leader)

/-- `leader_hint()` -/
def leaderHint (r : Node Cmd) : String × ℕ := (r.leaderId, r.currentTerm)

/-- `last_index()` -/
def lastIndex (r : Node Cmd) : ℕ := r.log.length - 1

/-- `_log[-1]` -/
def last (r : Node Cmd) : LogEntry Cmd := r.log.getLastD sentinel

/-- `_majority()` -/
def majority (r : Node Cmd) : ℕ := (r.cfg.peers.length + 1) / 2 + 1

/-- `propose(command)`: `(index, term, is_leader)` and the new state. -/
def propose (r : Node Cmd) (command : Cmd) : Node Cmd × (ℕ × ℕ × Bool) :=
  if r.role ≠ .leader then (r, (0, 0, false))
  else
    ({ r with log := r.log ++ [⟨r.currentTerm, r.log.length, command⟩] },
      (r.log.length, r.currentTerm, true))

/-- `_become_follower(term)` -/
def becomeFollower (r : Node Cmd) (term : ℕ) : Node Cmd :=
  { r with currentTerm := term, votedFor := "", role := .follower }

/-- `_become_leader()` -/
def becomeLeader (r : Node Cmd) : Node Cmd :=
  if r.role ≠ .candidate then r
  else
    (propose
      { r with
        role := .leader
        leaderId := r.cfg.id
        nextIndex := fun p => if p ∈ r.cfg.peers then some r.log.length else none
        matchIndex := fun p => if p ∈ r.cfg.peers then some 0 else none }
      default).1

/-- `_start_election()`: the new state and the request every peer is asked. -/
def startElection (r : Node Cmd) : Node Cmd × RequestVoteArgs :=
  ({ r with
      role := .candidate
      currentTerm := r.currentTerm + 1
      votedFor := r.cfg.id
      leaderId := ""
      votes := update r.votes (r.currentTerm + 1) 1 },
    { term := r.currentTerm + 1
      candidateId := r.cfg.id
      lastLogIndex := r.last.index
      lastLogTerm := r.last.term })

/-- `ask`, once the reply is there; `term` is the term its election was started in. -/
def onVoteReply (r : Node Cmd) (term : ℕ) (reply : RequestVoteReply) : Node Cmd :=
  if reply.term > r.currentTerm then r.becomeFollower reply.term
  -- votes of an election that is over are not counted
  else if r.role = .candidate ∧ r.currentTerm = term ∧ reply.voteGranted = true then
    let r := { r with votes := update r.votes term (r.votes term + 1) }
    if r.votes term ≥ r.majority then r.becomeLeader else r
  else r

/-- The comparison `(last_log_term, last_log_index) >= (last.term, last.index)`. -/
def logOk (r : Node Cmd) (args : RequestVoteArgs) : Prop :=
  r.last.term < args.lastLogTerm ∨
    r.last.term = args.lastLogTerm ∧ r.last.index ≤ args.lastLogIndex

instance (r : Node Cmd) (args : RequestVoteArgs) : Decidable (r.logOk args) := by
  unfold logOk
  infer_instance

/-- `if args.term > self._current_term: self._become_follower(args.term)`, which
opens both handlers. -/
def observe (r : Node Cmd) (term : ℕ) : Node Cmd :=
  if term > r.currentTerm then r.becomeFollower term else r

/-- The condition under which a vote is granted. -/
def grants (r : Node Cmd) (args : RequestVoteArgs) : Prop :=
  args.term = r.currentTerm ∧ (r.votedFor = "" ∨ r.votedFor = args.candidateId) ∧ r.logOk args

instance (r : Node Cmd) (args : RequestVoteArgs) : Decidable (r.grants args) := by
  unfold grants
  infer_instance

/-- `handle_request_vote(args)` -/
def handleRequestVote (r : Node Cmd) (args : RequestVoteArgs) : Node Cmd × RequestVoteReply :=
  let r := r.observe args.term
  if r.grants args then
    ({ r with votedFor := args.candidateId }, ⟨r.currentTerm, true⟩)
  else (r, ⟨r.currentTerm, false⟩)

/-- The loop of `handle_append_entries` over the sent entries, from position `index` on:
skip what is there, and replace the rest of the log at the first difference. -/
def mergeEntries (log : List (LogEntry Cmd)) (index : ℕ) :
    List (LogEntry Cmd) → List (LogEntry Cmd)
  | [] => log
  | entry :: rest =>
    if (log[index]?.map LogEntry.term) = some entry.term then mergeEntries log (index + 1) rest
    else log.take index ++ entry :: rest

/-- `handle_append_entries(args)` -/
def handleAppendEntries (r : Node Cmd) (args : AppendEntriesArgs Cmd) :
    Node Cmd × AppendEntriesReply :=
  let r := r.observe args.term
  if args.term < r.currentTerm then (r, ⟨r.currentTerm, false⟩)
  else
    let r := { r with role := .follower, leaderId := args.leaderId }
    -- no entry at `prev_log_index`, or one of another term
    if (r.log[args.prevLogIndex]?.map LogEntry.term) ≠ some args.prevLogTerm then
      (r, ⟨r.currentTerm, false⟩)
    else
      let r := { r with log := mergeEntries r.log (args.prevLogIndex + 1) args.entries }
      let r :=
        if args.leaderCommit > r.commitIndex then
          { r with commitIndex := min args.leaderCommit (r.log.length - 1) }
        else r
      (r, ⟨r.currentTerm, true⟩)

/-- `_replicate_to(peer, term)` up to its `await`: the request, if one is sent. -/
def replicateTo (r : Node Cmd) (peer : String) (term : ℕ) :
    Except PyError (Option (AppendEntriesArgs Cmd)) :=
  if r.role ≠ .leader ∨ r.currentTerm ≠ term then .ok none
  else
    match r.nextIndex peer with
    | none => .error .keyError
    -- `prev_log_index` would be -1
    | some 0 => .error .valueError
    | some (prev + 1) =>
      match r.log[prev]? with
      | none => .error .indexError
      | some entry =>
        .ok (some
          { term := term
            leaderId := r.cfg.id
            prevLogIndex := prev
            prevLogTerm := entry.term
            entries := r.log.drop (prev + 1)
            leaderCommit := r.commitIndex })

/-- `sum(1 for p in peers if self._match_index[p] >= n)` -/
def replicas (r : Node Cmd) (n : ℕ) : List String → Except PyError ℕ
  | [] => .ok 0
  | p :: ps =>
    match r.matchIndex p, replicas r n ps with
    | some m, .ok c => .ok (if m ≥ n then c + 1 else c)
    | none, _ => .error .keyError
    | _, .error e => .error e

/-- The loop of `_advance_commit_index`, from `n` down to `_commit_index + 1`. -/
def advanceLoop (r : Node Cmd) : ℕ → Except PyError (Node Cmd)
  | 0 => .ok r
  | n + 1 =>
    if n + 1 ≤ r.commitIndex then .ok r
    else
      match r.log[n + 1]? with
      | none => .error .indexError
      | some entry =>
        -- only entries of the current term are counted
        if entry.term ≠ r.currentTerm then advanceLoop r n
        else
          match r.replicas (n + 1) r.cfg.peers with
          | .error e => .error e
          | .ok c => if 1 + c ≥ r.majority then .ok { r with commitIndex := n + 1 }
            else advanceLoop r n

/-- `_advance_commit_index()` -/
def advanceCommitIndex (r : Node Cmd) : Except PyError (Node Cmd) :=
  r.advanceLoop (r.log.length - 1)

/-- `_replicate_to`, once the reply to `args` is there.  A raised exception ends the
task, and what was assigned before stays. -/
def onAppendReply (r : Node Cmd) (peer : String) (term : ℕ) (args : AppendEntriesArgs Cmd)
    (reply : AppendEntriesReply) : Node Cmd × Except PyError Unit :=
  if reply.term > r.currentTerm then (r.becomeFollower reply.term, .ok ())
  -- the reply to a term that is over
  else if r.role ≠ .leader ∨ r.currentTerm ≠ term then (r, .ok ())
  else if reply.success = true then
    let m := args.prevLogIndex + args.entries.length
    let r := { r with
      matchIndex := update r.matchIndex peer (some m)
      nextIndex := update r.nextIndex peer (some (m + 1)) }
    match r.advanceCommitIndex with
    | .ok r' => (r', .ok ())
    | .error e => (r, .error e)
  else
    match r.nextIndex peer with
    | none => (r, .error .keyError)
    | some n =>
      if n > 1 then ({ r with nextIndex := update r.nextIndex peer (some (n - 1)) }, .ok ())
      else (r, .ok ())

/-- The inner loop of `_applier`, `n` rounds of it: `_last_applied` afterwards, the
entries handed to `apply`, and the exception if an access raised. -/
def applyLoop (log : List (LogEntry Cmd)) (lastApplied : ℕ) :
    ℕ → ℕ × List (LogEntry Cmd) × Except PyError Unit
  | 0 => (lastApplied, [], .ok ())
  | n + 1 =>
    match log[lastApplied + 1]? with
    -- `_last_applied` goes up before the entry is read
    | none => (lastApplied + 1, [], .error .indexError)
    | some entry =>
      let (k, es, x) := applyLoop log (lastApplied + 1) n
      (k, entry :: es, x)

/-- One wake-up of `_applier`: apply everything up to the commit index. -/
def applier (r : Node Cmd) : Node Cmd × List (LogEntry Cmd) × Except PyError Unit :=
  let (k, es, x) := applyLoop r.log r.lastApplied (r.commitIndex - r.lastApplied)
  ({ r with lastApplied := k }, es, x)

end Node

end methods

end Raft
