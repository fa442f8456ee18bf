/-
The indices of a Raft node stay in range, so none of its list or dict accesses raises.

* `tryAppendEntries` — `handle_append_entries` with every access that could raise,
  which is `handleAppendEntries` and never does (`tryAppendEntries_eq`);
* `InRange` — what holds of the indices of one node, the leader's included;
* `indices_in_range` — it holds in every reachable state, `commit_index` and
  `last_applied` never go back, and nothing raises (`NeverRaises`).
-/
import Dssd.RaftAppend

open Function (update)
open Ledger.State (Ext)

namespace Raft

variable {Cmd : Type} {M : Membership} {g g' : Ghost Cmd} {w w' : Cluster Cmd}
  {e : Event Cmd}

namespace Node

variable {r : Node Cmd}

/-! ### Accesses -/

/-- `self._log[index]` -/
def entryAt (log : List (LogEntry Cmd)) (index : ℕ) : Except PyError (LogEntry Cmd) :=
  match log[index]? with
  | some entry => .ok entry
  | none => .error .indexError

theorem entryAt_of_lt {log : List (LogEntry Cmd)} {index : ℕ} (h : index < log.length) :
    entryAt log index = .ok log[index] := by
  rw [entryAt, List.getElem?_eq_getElem h]

/-- The loop of `handle_append_entries`, as it reads the log. -/
def tryMergeEntries (log : List (LogEntry Cmd)) (index : ℕ) :
    List (LogEntry Cmd) → Except PyError (List (LogEntry Cmd))
  | [] => .ok log
  | entry :: rest =>
    if index < log.length then
      match entryAt log index with
      | .error e => .error e
      | .ok old =>
        if old.term = entry.term then tryMergeEntries log (index + 1) rest
        else .ok (log.take index ++ entry :: rest)
    -- past the end of the log nothing is read
    else .ok (log.take index ++ entry :: rest)

/-- `handle_append_entries(args)`, as it reads the log. -/
def tryAppendEntries (r : Node Cmd) (args : AppendEntriesArgs Cmd) :
    Except PyError (Node Cmd × AppendEntriesReply) :=
  let r := r.observe args.term
  if args.term < r.currentTerm then .ok (r, ⟨r.currentTerm, false⟩)
  else
    let r := { r with role := .follower, leaderId := args.leaderId }
    if args.prevLogIndex ≥ r.log.length then .ok (r, ⟨r.currentTerm, false⟩)
    else
      match entryAt r.log args.prevLogIndex with
      | .error e => .error e
      | .ok prev =>
        if prev.term ≠ args.prevLogTerm then .ok (r, ⟨r.currentTerm, false⟩)
        else
          match tryMergeEntries r.log (args.prevLogIndex + 1) args.entries with
          | .error e => .error e
          | .ok log =>
            let r := { r with log := log }
            let r :=
              if args.leaderCommit > r.commitIndex then
                { r with commitIndex := min args.leaderCommit (r.log.length - 1) }
              else r
            .ok (r, ⟨r.currentTerm, true⟩)

theorem tryMergeEntries_eq {log entries : List (LogEntry Cmd)} {index : ℕ} :
    tryMergeEntries log index entries = .ok (mergeEntries log index entries) := by
  induction entries generalizing index with
  | nil => rfl
  | cons entry rest ih =>
    rw [tryMergeEntries, mergeEntries]
    by_cases hlt : index < log.length
    · rw [if_pos hlt, entryAt_of_lt hlt, List.getElem?_eq_getElem hlt, Option.map_some]
      dsimp only
      by_cases hterm : log[index].term = entry.term
      · rw [if_pos hterm, if_pos (congrArg some hterm)]
        exact ih
      · rw [if_neg hterm, if_neg fun h => hterm (Option.some_inj.mp h)]
    · rw [if_neg hlt, List.getElem?_eq_none (not_lt.mp hlt), if_neg (by simp)]

/-- Every access of `handle_append_entries` is guarded. -/
theorem tryAppendEntries_eq (r : Node Cmd) (args : AppendEntriesArgs Cmd) :
    r.tryAppendEntries args = .ok (r.handleAppendEntries args) := by
  unfold tryAppendEntries handleAppendEntries
  dsimp only
  split
  · rfl
  by_cases hlt : args.prevLogIndex < (r.observe args.term).log.length
  · rw [if_neg (not_le.mpr hlt), entryAt_of_lt hlt, List.getElem?_eq_getElem hlt, Option.map_some]
    dsimp only
    by_cases hterm : (r.observe args.term).log[args.prevLogIndex].term = args.prevLogTerm
    · rw [if_neg (not_not.mpr hterm), if_neg (not_not.mpr (congrArg some hterm)),
        tryMergeEntries_eq]
    · rw [if_pos hterm, if_pos fun h => hterm (Option.some_inj.mp h)]
  · rw [if_pos (not_lt.mp hlt), List.getElem?_eq_none (not_lt.mp hlt), if_pos (by simp)]

/-! ### Indices that only go up -/

/-- Neither `commit_index` nor `last_applied` goes back. -/
def Forward (r r' : Node Cmd) : Prop :=
  r.commitIndex ≤ r'.commitIndex ∧ r.lastApplied ≤ r'.lastApplied

theorem Forward.of_eq {r' : Node Cmd} (hc : r'.commitIndex = r.commitIndex)
    (ha : r'.lastApplied = r.lastApplied) : Forward r r' :=
  ⟨hc.ge, ha.ge⟩

theorem commitIndex_handleRequestVote [Inhabited Cmd] (r : Node Cmd) (args : RequestVoteArgs) :
    (r.handleRequestVote args).1.commitIndex = r.commitIndex := by
  unfold handleRequestVote
  dsimp only
  split <;> exact commitIndex_observe r args.term

theorem commitIndex_onVoteReply [Inhabited Cmd] (r : Node Cmd) (t : ℕ) (reply : RequestVoteReply) :
    (r.onVoteReply t reply).commitIndex = r.commitIndex := by
  unfold onVoteReply
  split
  · rfl
  split
  · rename_i hcond
    dsimp only
    split
    · -- a new leader appends its no-op, and commits nothing
      rw [becomeLeader, if_neg (by simp [hcond.1]), propose, if_neg (by simp)]
    · rfl
  · rfl

theorem commitIndex_le_onAppendReply (r : Node Cmd) (peer : String) (t : ℕ)
    (args : AppendEntriesArgs Cmd) (reply : AppendEntriesReply) :
    r.commitIndex ≤ (r.onAppendReply peer t args reply).1.commitIndex := by
  unfold onAppendReply
  split
  · exact le_rfl
  split
  · exact le_rfl
  split
  · dsimp only
    split
    -- only a success gets to `_advance_commit_index`, which looks beyond the commit index
    · rename_i r' hadv
      rcases advanceLoop_spec hadv with rfl | ⟨k, c, e, rfl, hlt, -⟩
      · exact le_rfl
      · exact hlt.le
    · exact le_rfl
  · split
    · exact le_rfl
    · split <;> exact le_rfl

end Node

theorem forward_set {j : String} {r : Node Cmd} (hr : Node.Forward (w.node j) r) (i : String) :
    Node.Forward (w.node i) ((w.set j r).node i) := by
  by_cases hij : i = j
  · subst hij
    rwa [Cluster.set_node_self]
  · rw [Cluster.set_node_ne _ _ hij]
    exact .of_eq rfl rfl

variable [Inhabited Cmd]

/-- A request in flight does not take a follower's commit index back: its entries reach
beyond the index it names. -/
theorem Sim.commitIndex_le_handle (h : Sim M g w) {c : AppendCall Cmd} (hc : AppendCallOk M g c) :
    (w.node c.peer).commitIndex ≤
      ((w.node c.peer).handleAppendEntries c.args).1.commitIndex := by
  by_cases hacc : (w.node c.peer).Accepts c.args
  swap
  · exact (Node.handle_of_not_accepts hacc).2.2.ge
  have ha := hc.args
  -- the log the request was built from
  set k := c.args.prevLogIndex + 1 + c.args.entries.length with hk
  set led := (g.ledger c.args.term).take k with hled
  have hfits := ha.fits
  have hpre : led <+: g.ledger c.args.term := List.take_prefix _ _
  have hlen : led.length = k := by
    rw [hled, List.length_take]
    omega
  have htail : c.args.TailOf led := by
    refine ⟨?_, ?_⟩
    · rw [hled, List.getElem?_take_of_lt (by omega)]
      exact ha.prev
    · rw [hled, List.drop_take, show k - (c.args.prevLogIndex + 1) = c.args.entries.length by omega]
      exact ha.entries
  -- all of it is in the log that is stored
  have hm := matches_of_wellFormed (h.wellFormed c.peer) ((h.inv.wf_ledger _).of_isPrefix hpre)
  have hstored := (Node.handle_isPrefix hm htail hacc).1.length_le
  have hcommit := ha.commit_le
  rw [Node.handle_of_accepts hacc] at hstored ⊢
  change _ ≤ (Node.mergeEntries _ _ _).length at hstored
  change _ ≤ Node.learn _ _ _
  unfold Node.learn
  split
  · -- the bound by the last index does not bind
    rw [min_eq_left (by omega)]
    omega
  · exact le_rfl

/-- One case for each event. -/
theorem Sim.forward (h : Sim M g w) (he : Cluster.step M w e = some w') (i : String) :
    Node.Forward (w.node i) (w'.node i) := by
  cases e with
  | start n =>
    obtain ⟨-, ⟨⟩⟩ := Option.ite_none_right_eq_some.mp he
    have hr : Node.Forward (w.node n) (w.node n).start := .of_eq rfl rfl
    exact forward_set hr i
  | stop n =>
    obtain ⟨-, ⟨⟩⟩ := Option.ite_none_right_eq_some.mp he
    exact .of_eq rfl rfl
  | electionTimeout n =>
    obtain ⟨-, ⟨⟩⟩ := Option.ite_none_right_eq_some.mp he
    have hr : Node.Forward (w.node n) (w.node n).startElection.1 := .of_eq rfl rfl
    exact forward_set hr i
  | propose n command =>
    obtain ⟨-, ⟨⟩⟩ := Option.ite_none_right_eq_some.mp he
    refine forward_set ?_ i
    unfold Node.propose
    split <;> exact .of_eq rfl rfl
  | replicate n peer term =>
    rw [Cluster.step] at he
    split at he
    swap
    · cases he
    split at he <;> cases he <;> exact .of_eq rfl rfl
  | handleRequestVote k =>
    obtain ⟨c, -, rfl⟩ := Option.map_eq_some_iff.mp he
    exact forward_set (.of_eq (Node.commitIndex_handleRequestVote _ _)
      (Node.internal_handleRequestVote _ _).lastApplied) i
  | voteReply k =>
    obtain ⟨c, -, rfl⟩ := Option.map_eq_some_iff.mp he
    exact forward_set (.of_eq (Node.commitIndex_onVoteReply _ _ _)
      (Node.internal_onVoteReply _ _ _).lastApplied) i
  | handleAppendEntries k =>
    obtain ⟨c, hc, rfl⟩ := Option.map_eq_some_iff.mp he
    exact forward_set ⟨h.commitIndex_le_handle (h.appendCalls c (List.mem_of_getElem? hc)),
      (Node.internal_handleAppendEntries _ _).lastApplied.ge⟩ i
  | appendReply k =>
    obtain ⟨c, -, rfl⟩ := Option.map_eq_some_iff.mp he
    exact forward_set ⟨Node.commitIndex_le_onAppendReply _ _ _ _ _,
      (Node.internal_onAppendReply _ _ _ _ _).lastApplied.ge⟩ i
  | loseVoteCall k | loseVoteReturn k | loseAppendCall k | loseAppendReturn k =>
    cases he
    exact .of_eq rfl rfl
  | applier n =>
    obtain ⟨-, ⟨⟩⟩ := Option.ite_none_right_eq_some.mp he
    have hr : Node.Forward (w.node n) (w.node n).applier.1 := by
      rw [h.applier_eq]
      exact ⟨le_rfl, (h.node n).lastApplied⟩
    exact forward_set hr i

/-- Over any run, too. -/
theorem Sim.forward_steps (h : Sim M g w) (hs : Steps M w w') (i : String) :
    Node.Forward (w.node i) (w'.node i) := by
  have key : (∃ g', Sim M g' w') ∧ Node.Forward (w.node i) (w'.node i) := by
    refine Run.invariant (P := fun v => (∃ g', Sim M g' v) ∧ Node.Forward (w.node i) (v.node i))
      ?_ hs ⟨⟨g, h⟩, .of_eq rfl rfl⟩
    rintro v v' ⟨e, he⟩ ⟨⟨g₁, h₁⟩, hc, ha⟩
    obtain ⟨g₂, -, -, h₂⟩ := h₁.step he
    obtain ⟨hc', ha'⟩ := h₁.forward he i
    exact ⟨⟨g₂, h₂⟩, hc.trans hc', ha.trans ha'⟩
  exact key.2

/-! ### Ranges -/

/-- Indices and terms of a node are in order and in range. -/
structure InRange (r : Node Cmd) : Prop where
  nonempty : r.log ≠ []
  index : ∀ (n : ℕ) (e : LogEntry Cmd), r.log[n]? = some e → e.index = n
  sorted : (r.log.map LogEntry.term).Pairwise (· ≤ ·)
  term : ∀ e ∈ r.log, e.term ≤ r.currentTerm
  applied : r.lastApplied ≤ r.commitIndex
  commit : r.commitIndex ≤ r.lastIndex
  next : r.role = .leader → ∀ p ∈ r.cfg.peers, ∃ n, r.nextIndex p = some n ∧ 1 ≤ n ∧
    n ≤ r.log.length
  matched : r.role = .leader → ∀ p ∈ r.cfg.peers, ∃ m, r.matchIndex p = some m ∧ m ≤ r.lastIndex

/-- No method raises: `_replicate_to` before and after its `await`, `_advance_commit_index`,
`_applier` and `handle_append_entries`. -/
structure NeverRaises (M : Membership) (w : Cluster Cmd) : Prop where
  replicate : ∀ i, ∀ p ∈ M.peers i, ∀ t, ∃ o, (w.node i).replicateTo p t = .ok o
  reply : ∀ c ∈ w.appendReturns,
    ((w.node c.leader).onAppendReply c.peer c.args.term c.args c.reply).2 = .ok ()
  advance : ∀ i, (w.node i).role = .leader → ∃ r, (w.node i).advanceCommitIndex = .ok r
  applier : ∀ i, (w.node i).applier.2.2 = .ok ()
  handle : ∀ i args, (w.node i).tryAppendEntries args = .ok ((w.node i).handleAppendEntries args)

theorem Sim.peers_eq (h : Sim M g w) (i : String) : (w.node i).cfg.peers = M.peers i := by
  rw [(h.node i).cfg]
  rfl

theorem Sim.inRange (h : Sim M g w) (i : String) : InRange (w.node i) := by
  have hi := h.node i
  have hlt := h.commit_lt i
  exact {
    nonempty := h.log_ne_nil i
    index := fun n e => h.index_eq
    sorted := by
      rw [List.pairwise_iff_getElem]
      intro m n hm hn hmn
      rw [List.length_map] at hm hn
      rw [List.getElem_map, List.getElem_map]
      exact h.inv.sorted (h.wellFormed i) hmn.le (List.getElem?_eq_getElem hm)
        (List.getElem?_eq_getElem hn)
    term := fun e he => by
      have := h.inv.log_le i e (hi.log ▸ he)
      rwa [hi.term] at this
    applied := hi.lastApplied
    commit := Nat.le_sub_one_of_lt hlt
    next := fun hr p hp => by
      obtain ⟨m, n, -, hn, h₁, h₂, -⟩ := hi.tracks hr p (h.peers_eq i ▸ hp)
      exact ⟨n, hn, h₁, h₂⟩
    matched := fun hr p hp => by
      obtain ⟨m, n, hm, -, -, -, h₁, -⟩ := hi.tracks hr p (h.peers_eq i ▸ hp)
      exact ⟨m, hm, Nat.le_sub_one_of_lt h₁⟩ }

omit [Inhabited Cmd] in
theorem Node.advance_ok {r : Node Cmd} (hne : r.log ≠ [])
    (hm : ∀ p ∈ r.cfg.peers, ∃ m, r.matchIndex p = some m) :
    ∃ r', r.advanceCommitIndex = .ok r' := by
  have := List.length_pos_iff.mpr hne
  exact advanceLoop_ok hm (by omega)

theorem Sim.neverRaises (h : Sim M g w) : NeverRaises M w where
  replicate i p hp t := by
    unfold Node.replicateTo
    split
    · exact ⟨_, rfl⟩
    rename_i hcond
    push Not at hcond
    obtain ⟨n, hn, hpos, hle⟩ := (h.inRange i).next hcond.1 p (h.peers_eq i ▸ hp)
    -- `_next_index` is at least 1, and the entry before it is in the log
    obtain ⟨prev, rfl⟩ : ∃ prev, n = prev + 1 := ⟨n - 1, by omega⟩
    rw [hn]
    dsimp only
    rw [List.getElem?_eq_getElem (by omega)]
    exact ⟨_, rfl⟩
  reply c hc := by
    have hret := h.appendReturns c hc
    unfold Node.onAppendReply
    split
    · rfl
    split
    · rfl
    rename_i hcond
    push Not at hcond
    obtain ⟨hrole, -⟩ := hcond
    split
    · -- every peer has a match index, the one that answered a new one
      obtain ⟨r', hr'⟩ := Node.advance_ok (r := { w.node c.leader with
          matchIndex := update (w.node c.leader).matchIndex c.peer
            (some (c.args.prevLogIndex + c.args.entries.length))
          nextIndex := update (w.node c.leader).nextIndex c.peer
            (some (c.args.prevLogIndex + c.args.entries.length + 1)) })
        (h.log_ne_nil c.leader) fun p hp => by
          by_cases hpp : p = c.peer
          · exact ⟨_, by rw [hpp]; exact Function.update_self _ _ _⟩
          · obtain ⟨m, hm, -⟩ := (h.inRange c.leader).matched hrole p hp
            exact ⟨m, by rw [← hm]; exact Function.update_of_ne hpp _ _⟩
      dsimp only
      rw [hr']
    -- a refusal only looks at `_next_index`
    · obtain ⟨n, hn, -⟩ := (h.inRange c.leader).next hrole c.peer
        (h.peers_eq c.leader ▸ hret.peer_mem)
      rw [hn]
      dsimp only
      split <;> rfl
  advance i hr := Node.advance_ok (h.log_ne_nil i) fun p hp => by
    obtain ⟨m, hm, -⟩ := (h.inRange i).matched hr p hp
    exact ⟨m, hm⟩
  applier i := by rw [h.applier_eq]
  handle i args := Node.tryAppendEntries_eq _ args

/-- **Indices stay in range** in every reachable state, `commit_index` and `last_applied`
never go back, and so nothing raises. -/
theorem indices_in_range (h : Reachable M w) : (∀ i, InRange (w.node i)) ∧
    (∀ w', Steps M w w' → ∀ i, (w.node i).commitIndex ≤ (w'.node i).commitIndex ∧
      (w.node i).lastApplied ≤ (w'.node i).lastApplied) ∧ NeverRaises M w := by
  obtain ⟨g, hg⟩ := h.exists_history
  exact ⟨hg.inRange, fun w' hs i => hg.forward_steps hs i, hg.neverRaises⟩

/-- `a` leads and has committed with `b`; `c` has yet to hear of it. -/
theorem indices_in_range_trio :
    ((trioAfter trioCommits trioCommits_runs).node "a").nextIndex "b" = some 3 ∧
      ((trioAfter trioCommits trioCommits_runs).node "a").nextIndex "c" = some 1 ∧
      ((trioAfter trioCommits trioCommits_runs).node "a").commitIndex = 2 ∧
      ∀ i, InRange ((trioAfter trioCommits trioCommits_runs).node i) :=
  ⟨by decide +kernel, by decide +kernel, by decide +kernel,
    (indices_in_range (trio_reachable _)).1⟩

end Raft
