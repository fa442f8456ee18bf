/-
The invariant of a Raft cluster: it simulates a term ledger.

`Ghost` is a term ledger together with the voters each campaign has counted.
`Sim M w g` says that `g` is a history of the cluster `w`: terms, logs and votes
are those of the nodes, a leader's log is the ledger of its term, what is on the
wire was true when it was sent, and everything committed is chosen.

This file has the definition, the initial state, and the frame rules: `Sim.set`
(one node and its part of the history change), `Sim.shrink` (elements leave the
wire) and one rule for each kind of message that is put on the wire.
-/
import Dssd.RaftCluster
import Dssd.RaftMethods
import Mathlib.Data.List.Perm.Basic
import Mathlib.Data.List.Perm.Subperm

open Function (update)
open Ledger.State (Ext)

namespace Raft

variable {Cmd : Type}

/-- A term ledger, with the voters counted by the campaign of each node and term. -/
structure Ghost (Cmd : Type) extends Ledger.State String (LogEntry Cmd) where
  tally : String → ℕ → List String

/-- The history after a move of its term ledger. -/
def Ghost.move (g : Ghost Cmd) (s : Ledger.State String (LogEntry Cmd)) : Ghost Cmd := ⟨s, g.tally⟩

@[simp] theorem Ghost.move_toState (g : Ghost Cmd) (s : Ledger.State String (LogEntry Cmd)) :
    (g.move s).toState = s := rfl

/-- The history after the campaign of `c` in term `t` has counted `j`. -/
def Ghost.count (g : Ghost Cmd) (c : String) (t : ℕ) (j : String) : Ghost Cmd :=
  ⟨g.toState, update g.tally c (update (g.tally c) t (j :: g.tally c t))⟩

def Membership.members (M : Membership) : Finset String := M.ids.toFinset

theorem Membership.mem_members {M : Membership} {i : String} : i ∈ M.members ↔ i ∈ M.ids :=
  List.mem_toFinset

theorem Membership.card_members (M : Membership) : M.members.card = M.ids.length :=
  List.toFinset_card_of_nodup M.nodup

theorem Membership.peers_length (M : Membership) {i : String} (hi : i ∈ M.ids) :
    (M.peers i).length + 1 = M.ids.length := by
  have hperm : (i :: M.peers i).Perm M.ids := by
    refine (List.perm_ext_iff_of_nodup ?_ M.nodup).mpr fun p => ?_
    · exact List.nodup_cons.mpr ⟨fun h => ((M.mem_peers i hi i).mp h).2 rfl, M.peers_nodup i hi⟩
    · rw [List.mem_cons, M.mem_peers i hi]
      constructor
      · rintro (rfl | ⟨hp, -⟩)
        · exact hi
        · exact hp
      · intro hp
        by_cases h : p = i
        · exact .inl h
        · exact .inr ⟨hp, h⟩
  rw [← hperm.length_eq, List.length_cons]

/-- A list of distinct members that is as long as `_majority()` asks is a quorum. -/
theorem Membership.isQuorum (M : Membership) {i : String} (hi : i ∈ M.ids) {l : List String}
    (hl : ∀ j ∈ l, j ∈ M.ids) (hnd : l.Nodup)
    (hmaj : ((M.peers i).length + 1) / 2 + 1 ≤ l.length) :
    Ledger.IsQuorum M.members l.toFinset := by
  refine ⟨fun j hj => M.mem_members.mpr (hl j (List.mem_toFinset.mp hj)), ?_⟩
  rw [M.card_members, List.toFinset_card_of_nodup hnd]
  rw [M.peers_length hi] at hmaj
  omega

/-- The peers a campaign has asked and not yet heard. -/
def outstanding (w : Cluster Cmd) (c : String) (t : ℕ) : List String :=
  (w.voteCalls.filter fun m => m.candidate = c ∧ m.args.term = t).map VoteCall.peer ++
    (w.voteReturns.filter fun m => m.candidate = c ∧ m.term = t).map VoteReturn.peer

section invariant

variable [Inhabited Cmd] (M : Membership) (g : Ghost Cmd)

/-- Positions up to `c` of the log `l` are chosen in a term up to `t`. -/
def Committed (l : List (LogEntry Cmd)) (c t : ℕ) : Prop :=
  c = 0 ∨ ∃ u ≤ t, ∃ n, c ≤ n ∧ g.Chosen M.members u n ∧ g.Holds l u c

/-- What a leader knows of peer `p`: both indices are there and in range, and what
it takes for replicated is acknowledged. -/
def Tracks (r : Node Cmd) (p : String) : Prop :=
  ∃ m n, r.matchIndex p = some m ∧ r.nextIndex p = some n ∧ 1 ≤ n ∧ n ≤ r.log.length ∧
    m < r.log.length ∧ (0 < m → m < g.acked p r.currentTerm)

/-- Node `i` in state `r`, which has handed `done` to its `apply`. -/
structure NodeOk (i : String) (r : Node Cmd) (done : List (LogEntry Cmd)) : Prop where
  cfg : r.cfg = M.config i
  term : g.term i = r.currentTerm
  log : g.log i = r.log
  base : r.log[0]? = some sentinel
  ballot : g.vote i r.currentTerm = if r.votedFor = "" then none else some r.votedFor
  active : r.role ≠ .follower → 0 < r.currentTerm ∧ i ∈ M.ids
  leader : r.role = .leader → g.owner r.currentTerm = some i ∧
    g.ledger r.currentTerm = r.log ∧ g.acked i r.currentTerm = r.log.length
  candidate : r.role = .candidate → g.owner r.currentTerm ≠ some i
  owned : ∀ t, g.owner t = some i → t ≤ r.currentTerm
  tracks : r.role = .leader → ∀ p ∈ M.peers i, Tracks g r p
  commit : Committed M g r.log r.commitIndex r.currentTerm
  lastApplied : r.lastApplied ≤ r.commitIndex
  applied : done = (r.log.take (r.lastApplied + 1)).drop 1

/-- The vote of `j` in term `t` went to `c`, and while `c`, in state `r`, campaigns in
that term its log carries what `j` had acknowledged. -/
def Supports (r : Node Cmd) (j c : String) (t : ℕ) : Prop :=
  g.vote j t = some c ∧
    (r.role = .candidate → r.currentTerm = t → g.Carries M.members j r.log t)

/-- A vote request of candidate `c.candidate`, which is in state `r`. -/
structure VoteCallOk (r : Node Cmd) (c : VoteCall) : Prop where
  candidate_mem : c.candidate ∈ M.ids
  peer_mem : c.peer ∈ M.peers c.candidate
  candidateId : c.args.candidateId = c.candidate
  pos : 0 < c.args.term
  term : c.args.term ≤ r.currentTerm
  last : r.role = .candidate → r.currentTerm = c.args.term →
    c.args.lastLogTerm = r.last.term ∧ c.args.lastLogIndex = r.last.index

/-- A reply to a vote request of candidate `c.candidate`, which is in state `r`. -/
structure VoteReturnOk (r : Node Cmd) (c : VoteReturn) : Prop where
  candidate_mem : c.candidate ∈ M.ids
  peer_mem : c.peer ∈ M.peers c.candidate
  term : c.term ≤ r.currentTerm
  granted : c.reply.voteGranted = true → Supports M g r c.peer c.candidate c.term

/-- The arguments are a piece of the ledger of their term, up to some moment's end. -/
structure ArgsOk (leader : String) (args : AppendEntriesArgs Cmd) : Prop where
  owner : g.owner args.term = some leader
  leaderId : args.leaderId = leader
  fits : args.prevLogIndex + 1 + args.entries.length ≤ (g.ledger args.term).length
  prev : ((g.ledger args.term)[args.prevLogIndex]?).map LogEntry.term = some args.prevLogTerm
  entries : args.entries =
    ((g.ledger args.term).drop (args.prevLogIndex + 1)).take args.entries.length
  commit_le : args.leaderCommit ≤ args.prevLogIndex + args.entries.length
  commit : Committed M g (g.ledger args.term) args.leaderCommit args.term

/-- An append request on the wire. -/
structure AppendCallOk (c : AppendCall Cmd) : Prop where
  leader_mem : c.leader ∈ M.ids
  peer_mem : c.peer ∈ M.peers c.leader
  args : ArgsOk M g c.leader c.args

/-- A reply to an append request: a success means the entries were acknowledged. -/
structure AppendReturnOk (c : AppendReturn Cmd) : Prop where
  leader_mem : c.leader ∈ M.ids
  peer_mem : c.peer ∈ M.peers c.leader
  success : c.reply.success = true →
    c.args.prevLogIndex + c.args.entries.length < g.acked c.peer c.args.term

/-- **The invariant**: `g` is a history of the cluster `w`. -/
structure Sim (w : Cluster Cmd) : Prop where
  inv : Ledger.Inv M.members g.toState
  indexed : ∀ t n (e : LogEntry Cmd), (g.ledger t)[n]? = some e → e.index = n
  node : ∀ i, NodeOk M g i (w.node i) (w.applied i)
  voteCalls : ∀ c ∈ w.voteCalls, VoteCallOk M (w.node c.candidate) c
  voteReturns : ∀ c ∈ w.voteReturns, VoteReturnOk M g (w.node c.candidate) c
  appendCalls : ∀ c ∈ w.appendCalls, AppendCallOk M g c
  appendReturns : ∀ c ∈ w.appendReturns, AppendReturnOk M g c
  /-- Counted voters are members that support the candidate. -/
  tally : ∀ c t, ∀ j ∈ g.tally c t,
    j ∈ M.ids ∧ t ≤ (w.node c).currentTerm ∧ Supports M g (w.node c) j c t
  votes : ∀ c t, (w.node c).votes t = (g.tally c t).length
  /-- No peer is counted, asked or heard twice in one campaign. -/
  once : ∀ c t, (g.tally c t ++ outstanding w c t).Nodup

end invariant

/-! ### Stability -/

section stability

variable {M : Membership} {g g' : Ghost Cmd}

theorem Committed.ext {l : List (LogEntry Cmd)} {c t t' : ℕ} (h : Committed M g l c t)
    (hx : Ext g.toState g'.toState) (ht : t ≤ t') : Committed M g' l c t' := by
  rcases h with rfl | ⟨u, hu, n, hn, hch, hh⟩
  · exact .inl rfl
  · refine .inr ⟨u, hu.trans ht, n, hn, hch.ext hx, hh.ext hx ?_⟩
    exact hn.trans_lt hch.1.lt_length

theorem Committed.mono {l l' : List (LogEntry Cmd)} {c t : ℕ} (h : Committed M g l c t)
    (hl : l <+: l') : Committed M g l' c t :=
  h.imp id fun ⟨u, hu, n, hn, hch, hh⟩ => ⟨u, hu, n, hn, hch, hh.mono hl⟩

theorem Committed.lt_length [Inhabited Cmd] {l : List (LogEntry Cmd)} {c t : ℕ}
    (h : Committed M g l c t)
    (hl : l[0]? = some sentinel) : c < l.length := by
  rcases h with rfl | ⟨u, -, n, hn, hch, hh⟩
  · exact Ledger.lt_length_of_getElem? hl
  · have h₁ := hh.length_le
    have h₂ := hch.1.lt_length
    rw [List.length_take] at h₁
    omega

theorem Tracks.ext {r : Node Cmd} {p : String} (h : Tracks g r p)
    (hx : Ext g.toState g'.toState) : Tracks g' r p := by
  obtain ⟨m, n, h₁, h₂, h₃, h₄, h₅, h₆⟩ := h
  exact ⟨m, n, h₁, h₂, h₃, h₄, h₅, fun hm => (h₆ hm).trans_le (hx.acked_le p _)⟩

theorem Supports.ext {r : Node Cmd} {j c : String} {t : ℕ} (h : Supports M g r j c t)
    (hi : Ledger.Inv M.members g.toState) (hx : Ext g.toState g'.toState) :
    Supports M g' r j c t :=
  ⟨hx.vote _ _ _ h.1, fun hr ht => (h.2 hr ht).ext hi hx (hi.vote_term j t c h.1)⟩

theorem Supports.drift {r r' : Node Cmd} {j c : String} {t : ℕ} (h : Supports M g r j c t)
    (hd : Node.Drift r r') (ht : t ≤ r.currentTerm) : Supports M g r' j c t := by
  refine ⟨h.1, fun hr htt => ?_⟩
  rcases hd.2 hr with hlt | ⟨hrole, hterm, hlog⟩
  · omega
  · rw [hlog]
    exact h.2 hrole (by omega)

theorem VoteCallOk.drift [Inhabited Cmd] {r r' : Node Cmd} {c : VoteCall} (h : VoteCallOk M r c)
    (hd : Node.Drift r r') : VoteCallOk M r' c where
  candidate_mem := h.candidate_mem
  peer_mem := h.peer_mem
  candidateId := h.candidateId
  pos := h.pos
  term := h.term.trans hd.1
  last hr ht := by
    have hle := h.term
    rcases hd.2 hr with hlt | ⟨hrole, hterm, hlog⟩
    · omega
    · have := h.last hrole (by omega)
      rwa [Node.last, hlog]

theorem VoteReturnOk.drift {r r' : Node Cmd} {c : VoteReturn} (h : VoteReturnOk M g r c)
    (hd : Node.Drift r r') : VoteReturnOk M g r' c where
  candidate_mem := h.candidate_mem
  peer_mem := h.peer_mem
  term := h.term.trans hd.1
  granted hg := (h.granted hg).drift hd h.term

theorem VoteReturnOk.ext {r : Node Cmd} {c : VoteReturn} (h : VoteReturnOk M g r c)
    (hi : Ledger.Inv M.members g.toState) (hx : Ext g.toState g'.toState) :
    VoteReturnOk M g' r c where
  candidate_mem := h.candidate_mem
  peer_mem := h.peer_mem
  term := h.term
  granted hg := (h.granted hg).ext hi hx

theorem ArgsOk.ext {leader : String} {args : AppendEntriesArgs Cmd} (h : ArgsOk M g leader args)
    (hx : Ext g.toState g'.toState) : ArgsOk M g' leader args := by
  have hled := hx.ledger args.term
  exact {
    owner := hx.owner _ _ h.owner
    leaderId := h.leaderId
    fits := h.fits.trans hled.length_le
    prev := by
      obtain ⟨e, he, het⟩ := Option.map_eq_some_iff.mp h.prev
      rw [Ledger.getElem?_of_isPrefix hled he, Option.map_some, het]
    entries := by
      obtain ⟨rest, hrest⟩ := hled
      have hfits := h.fits
      have hent := h.entries
      rw [← hrest, List.drop_append_of_le_length (by omega),
        List.take_append_of_le_length (by rw [List.length_drop]; omega)]
      exact hent
    commit_le := h.commit_le
    commit := (h.commit.ext hx le_rfl).mono hled }

theorem AppendCallOk.ext {c : AppendCall Cmd} (h : AppendCallOk M g c)
    (hx : Ext g.toState g'.toState) : AppendCallOk M g' c :=
  ⟨h.leader_mem, h.peer_mem, h.args.ext hx⟩

theorem AppendReturnOk.ext {c : AppendReturn Cmd} (h : AppendReturnOk M g c)
    (hx : Ext g.toState g'.toState) : AppendReturnOk M g' c where
  leader_mem := h.leader_mem
  peer_mem := h.peer_mem
  success hs := (h.success hs).trans_le (hx.acked_le _ _)

/-- The histories `g` and `g'` differ only in what node `i` may write. -/
structure Touches (i : String) (g g' : Ghost Cmd) : Prop where
  ext : Ext g.toState g'.toState
  term : ∀ j ≠ i, g'.term j = g.term j
  log : ∀ j ≠ i, g'.log j = g.log j
  vote : ∀ j ≠ i, g'.vote j = g.vote j
  acked : ∀ j ≠ i, g'.acked j = g.acked j
  owner : ∀ t j, j ≠ i → g'.owner t = some j → g.owner t = some j
  ledger : ∀ t j, j ≠ i → g.owner t = some j → g'.ledger t = g.ledger t

theorem Touches.refl (i : String) (g : Ghost Cmd) : Touches i g g where
  ext := Ext.refl _
  term _ _ := rfl
  log _ _ := rfl
  vote _ _ := rfl
  acked _ _ := rfl
  owner _ _ _ h := h
  ledger _ _ _ _ := rfl

theorem Touches.trans {i : String} {g'' : Ghost Cmd} (h : Touches i g g')
    (h' : Touches i g' g'') : Touches i g g'' where
  ext := h.ext.trans h'.ext
  term j hj := (h'.term j hj).trans (h.term j hj)
  log j hj := (h'.log j hj).trans (h.log j hj)
  vote j hj := (h'.vote j hj).trans (h.vote j hj)
  acked j hj := (h'.acked j hj).trans (h.acked j hj)
  owner t j hj ho := h.owner t j hj (h'.owner t j hj ho)
  ledger t j hj ho := (h'.ledger t j hj (h.ext.owner t j ho)).trans (h.ledger t j hj ho)

/-- What node `i` writes into the history does not concern node `j`. -/
theorem NodeOk.frame [Inhabited Cmd] {i j : String} {r : Node Cmd} {done : List (LogEntry Cmd)}
    (h : NodeOk M g j r done) (hT : Touches i g g') (hj : j ≠ i) : NodeOk M g' j r done where
  cfg := h.cfg
  term := by rw [hT.term j hj, h.term]
  log := by rw [hT.log j hj, h.log]
  base := h.base
  ballot := by rw [hT.vote j hj, h.ballot]
  active := h.active
  leader hr := by
    obtain ⟨h₁, h₂, h₃⟩ := h.leader hr
    refine ⟨hT.ext.owner _ _ h₁, ?_, ?_⟩
    · rw [hT.ledger _ j hj h₁, h₂]
    · rw [hT.acked j hj, h₃]
  candidate hr hown := h.candidate hr (hT.owner _ j hj hown)
  owned t ht := h.owned t (hT.owner _ j hj ht)
  tracks hr p hp := (h.tracks hr p hp).ext hT.ext
  commit := h.commit.ext hT.ext le_rfl
  lastApplied := h.lastApplied
  applied := h.applied

end stability

/-! ### Frame rules -/

section frame

variable [Inhabited Cmd] {M : Membership} {g g' : Ghost Cmd} {w w' : Cluster Cmd}

/-- Node `i` moves to state `r` and has applied `done` by then, the history follows. -/
theorem Sim.setApplied (h : Sim M g w) {i : String} {r : Node Cmd} {done : List (LogEntry Cmd)}
    (hT : Touches i g g') (hinv : Ledger.Inv M.members g'.toState)
    (hidx : ∀ t n (e : LogEntry Cmd), (g'.ledger t)[n]? = some e → e.index = n)
    (htally : g'.tally = g.tally) (hd : Node.Drift (w.node i) r)
    (hvotes : r.votes = (w.node i).votes) (hn : NodeOk M g' i r done) :
    Sim M g' { w.set i r with applied := update w.applied i done } := by
  have hnode : ∀ c, Node.Drift (w.node c) ((w.set i r).node c) := fun c => by
    by_cases hc : c = i
    · subst hc
      simpa using hd
    · rw [Cluster.set_node_ne _ _ hc]
      exact .of_eq rfl rfl rfl
  exact {
    inv := hinv
    indexed := hidx
    node := fun j => by
      show NodeOk M g' j ((w.set i r).node j) (update w.applied i done j)
      by_cases hj : j = i
      · subst hj
        rw [Cluster.set_node_self, Function.update_self]
        exact hn
      · rw [Cluster.set_node_ne _ _ hj, Function.update_of_ne hj]
        exact (h.node j).frame hT hj
    voteCalls := fun c hc => (h.voteCalls c hc).drift (hnode _)
    voteReturns := fun c hc => ((h.voteReturns c hc).ext h.inv hT.ext).drift (hnode _)
    appendCalls := fun c hc => (h.appendCalls c hc).ext hT.ext
    appendReturns := fun c hc => (h.appendReturns c hc).ext hT.ext
    tally := fun c t j hj => by
      rw [htally] at hj
      obtain ⟨h₁, h₂, h₃⟩ := h.tally c t j hj
      exact ⟨h₁, h₂.trans (hnode c).1, (h₃.ext h.inv hT.ext).drift (hnode c) h₂⟩
    votes := fun c t => by
      rw [htally, ← h.votes c t]
      by_cases hc : c = i
      · subst hc
        rw [Cluster.set_node_self, hvotes]
      · rw [Cluster.set_node_ne _ _ hc]
    once := fun c t => by
      rw [htally]
      exact h.once c t }

/-- Node `i` moves to state `r` and applies nothing. -/
theorem Sim.set (h : Sim M g w) {i : String} {r : Node Cmd} (hT : Touches i g g')
    (hinv : Ledger.Inv M.members g'.toState)
    (hidx : ∀ t n (e : LogEntry Cmd), (g'.ledger t)[n]? = some e → e.index = n)
    (htally : g'.tally = g.tally) (hd : Node.Drift (w.node i) r)
    (hvotes : r.votes = (w.node i).votes) (hn : NodeOk M g' i r (w.applied i)) :
    Sim M g' (w.set i r) := by
  have h' := h.setApplied hT hinv hidx htally hd hvotes hn
  rwa [Function.update_eq_self] at h'

/-- Elements leave the wire. -/
theorem Sim.shrink (h : Sim M g w) (hnode : w'.node = w.node) (happ : w'.applied = w.applied)
    (h₁ : w'.voteCalls.Sublist w.voteCalls) (h₂ : w'.voteReturns.Sublist w.voteReturns)
    (h₃ : w'.appendCalls.Sublist w.appendCalls) (h₄ : w'.appendReturns.Sublist w.appendReturns) :
    Sim M g w' where
  inv := h.inv
  indexed := h.indexed
  node i := by
    rw [hnode, happ]
    exact h.node i
  voteCalls c hc := by
    rw [hnode]
    exact h.voteCalls c (h₁.subset hc)
  voteReturns c hc := by
    rw [hnode]
    exact h.voteReturns c (h₂.subset hc)
  appendCalls c hc := h.appendCalls c (h₃.subset hc)
  appendReturns c hc := h.appendReturns c (h₄.subset hc)
  tally c t j hj := by
    rw [hnode]
    exact h.tally c t j hj
  votes c t := by
    rw [hnode]
    exact h.votes c t
  once c t := by
    refine (h.once c t).sublist ((List.Sublist.refl _).append ?_)
    exact ((h₁.filter _).map _).append ((h₂.filter _).map _)

/-- A new append request goes on the wire. -/
theorem Sim.addAppendCall (h : Sim M g w) {c : AppendCall Cmd} (hc : AppendCallOk M g c) :
    Sim M g { w with appendCalls := w.appendCalls ++ [c] } :=
  { h with
    appendCalls := fun d hd => by
      rcases List.mem_append.mp hd with hd | hd
      · exact h.appendCalls d hd
      · exact List.mem_singleton.mp hd ▸ hc }

/-- A reply to an append request goes on the wire. -/
theorem Sim.addAppendReturn (h : Sim M g w) {c : AppendReturn Cmd} (hc : AppendReturnOk M g c) :
    Sim M g { w with appendReturns := w.appendReturns ++ [c] } :=
  { h with
    appendReturns := fun d hd => by
      rcases List.mem_append.mp hd with hd | hd
      · exact h.appendReturns d hd
      · exact List.mem_singleton.mp hd ▸ hc }

/-- Peer `p` is neither counted, asked nor heard in the campaign of `c` in term `t`. -/
def Fresh (g : Ghost Cmd) (w : Cluster Cmd) (c : String) (t : ℕ) (p : String) : Prop :=
  p ∉ g.tally c t ++ outstanding w c t

/-- A reply to a vote request goes on the wire. -/
theorem Sim.addVoteReturn (h : Sim M g w) {c : VoteReturn}
    (hc : VoteReturnOk M g (w.node c.candidate) c) (hf : Fresh g w c.candidate c.term c.peer) :
    Sim M g { w with voteReturns := w.voteReturns ++ [c] } :=
  { h with
    voteReturns := fun d hd => by
      rcases List.mem_append.mp hd with hd | hd
      · exact h.voteReturns d hd
      · exact List.mem_singleton.mp hd ▸ hc
    once := fun d t => by
      have hd := h.once d t
      unfold outstanding at hd ⊢
      rw [List.filter_append, List.map_append, ← List.append_assoc, ← List.append_assoc]
      by_cases hm : c.candidate = d ∧ c.term = t
      · obtain ⟨rfl, rfl⟩ := hm
        rw [List.filter_cons_of_pos (by simp), List.filter_nil, List.map_singleton,
          List.append_assoc (g.tally _ _), ← List.concat_eq_append, List.nodup_concat]
        exact ⟨hf, hd⟩
      · rw [List.filter_cons_of_neg (by simpa using hm), List.filter_nil, List.map_nil,
          List.append_nil, List.append_assoc]
        exact hd }

/-- Taking an element off a list leaves it with one fewer. -/
theorem perm_eraseIdx {α : Type*} {l : List α} {k : ℕ} {a : α} (h : l[k]? = some a) :
    l.Perm (a :: l.eraseIdx k) := by
  obtain ⟨hk, rfl⟩ := List.getElem?_eq_some_iff.mp h
  exact (List.getElem_cons_eraseIdx_perm hk).symm

/-- A vote request that is taken off the wire frees its peer. -/
theorem Sim.fresh_of_voteCall (h : Sim M g w) {k : ℕ} {c : VoteCall}
    (hk : w.voteCalls[k]? = some c) :
    Fresh g { w with voteCalls := w.voteCalls.eraseIdx k } c.candidate c.args.term c.peer := by
  have hperm : (outstanding w c.candidate c.args.term).Perm
      (c.peer :: outstanding { w with voteCalls := w.voteCalls.eraseIdx k }
        c.candidate c.args.term) := by
    unfold outstanding
    have := ((perm_eraseIdx hk).filter
      fun m => m.candidate = c.candidate ∧ m.args.term = c.args.term).map VoteCall.peer
    rw [List.filter_cons_of_pos (by simp), List.map_cons] at this
    exact this.append_right _
  have hnd := ((hperm.append_left _).nodup_iff).mp (h.once c.candidate c.args.term)
  exact (List.nodup_middle.mp hnd).notMem

/-- A vote reply that is taken off the wire frees its peer. -/
theorem Sim.fresh_of_voteReturn (h : Sim M g w) {k : ℕ} {c : VoteReturn}
    (hk : w.voteReturns[k]? = some c) :
    Fresh g { w with voteReturns := w.voteReturns.eraseIdx k } c.candidate c.term c.peer := by
  have hperm : (outstanding w c.candidate c.term).Perm
      (c.peer :: outstanding { w with voteReturns := w.voteReturns.eraseIdx k }
        c.candidate c.term) := by
    unfold outstanding
    have := ((perm_eraseIdx hk).filter
      fun m => m.candidate = c.candidate ∧ m.term = c.term).map VoteReturn.peer
    rw [List.filter_cons_of_pos (by simp), List.map_cons] at this
    exact (this.append_left _).trans List.perm_middle
  have hnd := ((hperm.append_left _).nodup_iff).mp (h.once c.candidate c.term)
  exact (List.nodup_middle.mp hnd).notMem

/-- A vote is counted. -/
theorem Sim.count (h : Sim M g w) {c j : String} {t : ℕ} (hj : j ∈ M.ids)
    (ht : t ≤ (w.node c).currentTerm) (hs : Supports M g (w.node c) j c t) (hf : Fresh g w c t j) :
    Sim M (g.count c t j)
      (w.set c { w.node c with votes := update (w.node c).votes t ((w.node c).votes t + 1) }) := by
  set r : Node Cmd :=
    { w.node c with votes := update (w.node c).votes t ((w.node c).votes t + 1) } with hr
  set G : Ghost Cmd := g.count c t j with hG
  have htally : ∀ d u, G.tally d u = if d = c ∧ u = t then j :: g.tally d u else g.tally d u := by
    intro d u
    rw [hG]
    by_cases hdu : d = c ∧ u = t
    · obtain ⟨rfl, rfl⟩ := hdu
      simp [Ghost.count]
    · rw [if_neg hdu]
      exact Ledger.update_update_ne (by tauto)
  -- no field but `votes` changes
  have hsame : ∀ d, (w.set c r).node d = w.node d ∨ d = c ∧ (w.set c r).node d = r := fun d => by
    by_cases hd : d = c
    · subst hd
      exact .inr ⟨rfl, Cluster.set_node_self _ _ _⟩
    · exact .inl (Cluster.set_node_ne _ _ hd)
  have hdrift : ∀ d, Node.Drift (w.node d) ((w.set c r).node d) := fun d => by
    rcases hsame d with hd | ⟨rfl, hd⟩ <;> rw [hd] <;> exact .of_eq rfl rfl rfl
  exact {
    inv := h.inv
    indexed := h.indexed
    node := fun d => by
      rcases hsame d with hd | ⟨rfl, hd⟩ <;> rw [hd]
      · exact { h.node d with }
      · exact { h.node d with }
    voteCalls := fun d hd => (h.voteCalls d hd).drift (hdrift _)
    voteReturns := fun d hd => by
      have hd' : VoteReturnOk M G (w.node d.candidate) d :=
        (h.voteReturns d hd).ext h.inv (Ext.refl _)
      exact hd'.drift (hdrift _)
    appendCalls := fun d hd => (h.appendCalls d hd).ext (Ext.refl _)
    appendReturns := fun d hd => (h.appendReturns d hd).ext (Ext.refl _)
    tally := fun d u k hk => by
      have hbase : k ∈ M.ids ∧ u ≤ (w.node d).currentTerm ∧ Supports M g (w.node d) k d u := by
        rw [htally] at hk
        split at hk
        · rename_i hdu
          obtain ⟨rfl, rfl⟩ := hdu
          rcases List.mem_cons.mp hk with rfl | hk
          · exact ⟨hj, ht, hs⟩
          · exact h.tally _ _ k hk
        · exact h.tally d u k hk
      exact ⟨hbase.1, hbase.2.1.trans (hdrift d).1, hbase.2.2.drift (hdrift d) hbase.2.1⟩
    votes := fun d u => by
      rw [htally]
      rcases hsame d with hd | ⟨rfl, hd⟩
      · rw [hd, h.votes]
        split
        · rename_i hdu
          obtain ⟨rfl, rfl⟩ := hdu
          rw [Cluster.set_node_self] at hd
          have := congrFun (congrArg Node.votes hd) u
          simp [hr] at this
        · rfl
      · rw [hd, hr]
        by_cases hu : u = t
        · subst hu
          simp [h.votes]
        · simp [hu, h.votes]
    once := fun d u => by
      rw [htally]
      split
      · rename_i hdu
        obtain ⟨rfl, rfl⟩ := hdu
        exact List.nodup_cons.mpr ⟨hf, h.once _ _⟩
      · exact h.once d u }

end frame

/-! ### The initial state -/

section init

variable [Inhabited Cmd]

/-- Nobody has led; term 0 has the log every node starts with. -/
def Ghost.init : Ghost Cmd where
  term _ := 0
  log _ := [sentinel]
  ledger t := if t = 0 then [sentinel] else []
  acked _ _ := 0
  vote _ _ := none
  owner _ := none
  tally _ _ := []

theorem sim_init (M : Membership) : Sim M (Ghost.init : Ghost Cmd) (Cluster.init M) where
  inv := by
    have hwf : (Ghost.init : Ghost Cmd).WellFormed [sentinel] := by
      intro n e he
      obtain ⟨rfl, rfl⟩ : n = 0 ∧ e = sentinel := by
        rcases n with _ | n
        · simpa using he.symm
        · simp at he
      exact List.prefix_rfl
    exact {
      wf_log := fun _ => hwf
      wf_ledger := fun t => by
        by_cases ht : t = 0
        · simpa [Ghost.init, ht] using hwf
        · intro n e he
          simp [Ghost.init, ht] at he
      log_le := fun _ e he => by
        obtain rfl := List.mem_singleton.mp he
        exact le_rfl
      ledger_le := fun t e he => by
        by_cases ht : t = 0
        · obtain rfl : e = sentinel := by simpa [Ghost.init, ht] using he
          exact Nat.zero_le _
        · simp [Ghost.init, ht] at he
      unowned := fun t ht _ => by simp [Ghost.init, ht.ne']
      acked_le := fun _ _ => Nat.zero_le _
      acked_term := fun _ _ h => absurd h (lt_irrefl 0)
      vote_term := fun _ _ _ h => absurd h (by simp [Ghost.init])
      elected := fun _ _ h => absurd h (by simp [Ghost.init])
      kept := fun _ _ _ h => absurd h (Nat.not_lt_zero _)
      safe := fun _ h => absurd rfl h }
  indexed t n e he := by
    by_cases ht : t = 0
    · rcases n with _ | n
      · obtain rfl : e = sentinel := by simpa [Ghost.init, ht] using he.symm
        rfl
      · simp [Ghost.init, ht] at he
    · simp [Ghost.init, ht] at he
  node i :=
    { cfg := rfl
      term := rfl
      log := rfl
      base := rfl
      ballot := rfl
      active := fun h => absurd rfl h
      leader := fun h => absurd h (by simp [Cluster.init, Node.init])
      candidate := fun h => absurd h (by simp [Cluster.init, Node.init])
      owned := fun _ h => absurd h (by simp [Ghost.init])
      tracks := fun h => absurd h (by simp [Cluster.init, Node.init])
      commit := .inl rfl
      lastApplied := le_rfl
      applied := rfl }
  voteCalls _ h := absurd h (by simp [Cluster.init])
  voteReturns _ h := absurd h (by simp [Cluster.init])
  appendCalls _ h := absurd h (by simp [Cluster.init])
  appendReturns _ h := absurd h (by simp [Cluster.init])
  tally _ _ _ h := absurd h (by simp [Ghost.init])
  votes _ _ := rfl
  once _ _ := by simp [Ghost.init, outstanding, Cluster.init]

end init

end Raft
