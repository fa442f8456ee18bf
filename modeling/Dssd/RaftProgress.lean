/-
A majority can always make progress.

From every reachable state, whatever was lost, is late or was left half done, the running
nodes of a majority can elect a leader among themselves and have it commit any command,
while the other nodes do nothing at all.

* `Event.Within`, `Onward` — steps and runs in which only nodes of `q` take part, and nothing
  crashes, restarts or gets lost; `Onward.frame` — they leave the other nodes alone;
* `Onward.ask`, `Onward.exchange` — a vote, and an append request, with the answer;
* `exists_campaign`, `exists_elected` — a member of `q` with the longest log gets the votes
  of all of `q`;
* `exists_repaired`, `exists_notified` — a leader brings a follower its log, and then its
  commit index;
* **`majority_makes_progress`** — so `q` can commit and apply a new command.
-/
import Dssd.RaftHint
import Dssd.RaftQuorum
import Dssd.RaftRepair
import Mathlib.Data.Finset.Max
import Mathlib.Data.Prod.Lex

open Function (update)

namespace Raft

variable {Cmd : Type} [Inhabited Cmd] {M : Membership} {q : Finset String} {w w' : Cluster Cmd}
  {n p : String}

/-! ### Steps of a quorum -/

/-- The nodes that take part are in `q`; nothing crashes, restarts or is lost. -/
def Event.Within (q : Finset String) (w : Cluster Cmd) : Event Cmd → Prop
  | .electionTimeout n | .propose n _ | .applier n => n ∈ q
  | .replicate n peer _ => n ∈ q ∧ peer ∈ q
  | .handleRequestVote k => ∀ c ∈ w.voteCalls[k]?, c.candidate ∈ q ∧ c.peer ∈ q
  | .voteReply k => ∀ c ∈ w.voteReturns[k]?, c.candidate ∈ q ∧ c.peer ∈ q
  | .handleAppendEntries k => ∀ c ∈ w.appendCalls[k]?, c.leader ∈ q ∧ c.peer ∈ q
  | .appendReply k => ∀ c ∈ w.appendReturns[k]?, c.leader ∈ q ∧ c.peer ∈ q
  | .start _ | .stop _ => False
  | .loseVoteCall _ | .loseVoteReturn _ | .loseAppendCall _ | .loseAppendReturn _ => False

/-- A run of the nodes in `q`. -/
def Onward (M : Membership) (q : Finset String) (w w' : Cluster Cmd) : Prop :=
  Relation.ReflTransGen (Run.StepWhere (Cluster.step M) (Event.Within q)) w w'

theorem Onward.steps (h : Onward M q w w') : Steps M w w' :=
  Relation.ReflTransGen.mono (fun _ _ hs => Run.StepWhere.step hs) _ _ h

theorem Onward.trans {w₁ : Cluster Cmd} (h : Onward M q w w₁) (h' : Onward M q w₁ w') :
    Onward M q w w' :=
  Relation.ReflTransGen.trans h h'

theorem Onward.of_step {e : Event Cmd} (he : e.Within q w) (hs : Cluster.step M w e = some w') :
    Onward M q w w' :=
  .single ⟨e, he, hs⟩

/-- A step of `q` has an effect on nodes of `q` only, one case for each event. -/
theorem frame_step {e : Event Cmd} (he : e.Within q w) (hs : Cluster.step M w e = some w') :
    w'.running = w.running ∧ ∀ m ∉ q, w'.node m = w.node m ∧ w'.applied m = w.applied m := by
  have hset : ∀ {i : String} (r : Node Cmd), i ∈ q → ∀ m ∉ q, (w.set i r).node m = w.node m :=
    fun r hi m hm => Cluster.set_node_ne w r fun heq => hm (heq ▸ hi)
  cases e with
  | start n | stop n => exact he.elim
  | loseVoteCall k | loseVoteReturn k | loseAppendCall k | loseAppendReturn k => exact he.elim
  | electionTimeout n =>
    obtain ⟨-, ⟨⟩⟩ := Option.ite_none_right_eq_some.mp hs
    exact ⟨rfl, fun m hm => ⟨hset _ he m hm, rfl⟩⟩
  | propose n command =>
    obtain ⟨-, ⟨⟩⟩ := Option.ite_none_right_eq_some.mp hs
    exact ⟨rfl, fun m hm => ⟨hset _ he m hm, rfl⟩⟩
  | replicate n peer term =>
    rw [Cluster.step] at hs
    split at hs
    swap
    · cases hs
    split at hs <;> cases hs <;> exact ⟨rfl, fun m _ => ⟨rfl, rfl⟩⟩
  | handleRequestVote k =>
    obtain ⟨c, hc, rfl⟩ := Option.map_eq_some_iff.mp hs
    exact ⟨rfl, fun m hm => ⟨hset _ (he c hc).2 m hm, rfl⟩⟩
  | voteReply k =>
    obtain ⟨c, hc, rfl⟩ := Option.map_eq_some_iff.mp hs
    exact ⟨rfl, fun m hm => ⟨hset _ (he c hc).1 m hm, rfl⟩⟩
  | handleAppendEntries k =>
    obtain ⟨c, hc, rfl⟩ := Option.map_eq_some_iff.mp hs
    exact ⟨rfl, fun m hm => ⟨hset _ (he c hc).2 m hm, rfl⟩⟩
  | appendReply k =>
    obtain ⟨c, hc, rfl⟩ := Option.map_eq_some_iff.mp hs
    exact ⟨rfl, fun m hm => ⟨hset _ (he c hc).1 m hm, rfl⟩⟩
  | applier n =>
    obtain ⟨-, ⟨⟩⟩ := Option.ite_none_right_eq_some.mp hs
    refine ⟨rfl, fun m hm => ⟨hset _ he m hm, Function.update_of_ne ?_ _ _⟩⟩
    rintro rfl
    exact hm he

/-- **The others are left alone** by a run of `q`. -/
theorem Onward.frame (h : Onward M q w w') :
    w'.running = w.running ∧ ∀ m ∉ q, w'.node m = w.node m ∧ w'.applied m = w.applied m := by
  refine Run.invariant (P := fun x => x.running = w.running ∧
    ∀ m ∉ q, x.node m = w.node m ∧ x.applied m = w.applied m) ?_ h ⟨rfl, fun _ _ => ⟨rfl, rfl⟩⟩
  rintro x x' ⟨e, he, hs⟩ ⟨hrun, hrest⟩
  obtain ⟨hrun', hrest'⟩ := frame_step he hs
  refine ⟨hrun'.trans hrun, fun m hm => ?_⟩
  obtain ⟨hnode, happ⟩ := hrest m hm
  obtain ⟨hnode', happ'⟩ := hrest' m hm
  exact ⟨hnode'.trans hnode, happ'.trans happ⟩

/-! ### Requests with their answers -/

theorem eraseIdx_length {α : Type*} (l : List α) (x : α) : (l ++ [x]).eraseIdx l.length = l := by
  rw [List.eraseIdx_append_of_length_le le_rfl]
  simp

/-- `p` answers the vote request of `n`, and `n` gets the answer; the other requests stay. -/
theorem Onward.ask {args : RequestVoteArgs} (hn : n ∈ q) (hp : p ∈ q) (hne : p ≠ n)
    (hc : ⟨n, p, args⟩ ∈ w.voteCalls) :
    ∃ calls, (∀ c ∈ w.voteCalls, c.peer ≠ p → c ∈ calls) ∧
      Onward M q w
        { (w.set p ((w.node p).handleRequestVote args).1).set n
            ((w.node n).onVoteReply args.term ((w.node p).handleRequestVote args).2) with
          voteCalls := calls } := by
  obtain ⟨k, hk⟩ := List.getElem?_of_mem hc
  set r := (w.node p).handleRequestVote args with hr
  let w₁ : Cluster Cmd :=
    { w.set p r.1 with
      voteCalls := w.voteCalls.eraseIdx k
      voteReturns := w.voteReturns ++ [⟨n, p, args.term, r.2⟩] }
  have h₁ : Cluster.step M w (.handleRequestVote k) = some w₁ := by
    rw [Cluster.step, hk]
    rfl
  have hreturn : w₁.voteReturns[w.voteReturns.length]? = some ⟨n, p, args.term, r.2⟩ :=
    List.getElem?_concat_length
  have herase : w₁.voteReturns.eraseIdx w.voteReturns.length = w.voteReturns := eraseIdx_length _ _
  have hnode : w₁.node n = w.node n := Cluster.set_node_ne w _ hne.symm
  have h₂ : Cluster.step M w₁ (.voteReply w.voteReturns.length) =
      some { (w.set p r.1).set n ((w.node n).onVoteReply args.term r.2) with
        voteCalls := w.voteCalls.eraseIdx k } := by
    rw [Cluster.step, hreturn, Option.map_some, herase, hnode]
    rfl
  refine ⟨w.voteCalls.eraseIdx k, fun c hcs hcp => ?_,
    (Onward.of_step ?_ h₁).trans (Onward.of_step ?_ h₂)⟩
  · obtain ⟨j, hj⟩ := List.getElem?_of_mem hcs
    have hjk : j ≠ k := by
      rintro rfl
      rw [hk] at hj
      exact hcp (Option.some.inj hj ▸ rfl)
    exact List.mem_eraseIdx_iff_getElem?.mpr ⟨j, hjk, hj⟩
  · intro c hc'
    rw [hk] at hc'
    cases hc'
    exact ⟨hn, hp⟩
  · intro c hc'
    rw [hreturn] at hc'
    cases hc'
    exact ⟨hn, hp⟩

/-- `n` sends `p` what `_replicate_to` builds now, `p` handles it, and `n` gets the answer. -/
theorem Onward.exchange {args : AppendEntriesArgs Cmd} (hmem : n ∈ M.ids)
    (hrun : w.running n = true) (hn : n ∈ q) (hp : p ∈ q) (hpeer : p ∈ M.peers n)
    (hsend : (w.node n).replicateTo p (w.node n).currentTerm = .ok (some args)) :
    Onward M q w ((w.set p ((w.node p).handleAppendEntries args).1).set n
      ((w.node n).onAppendReply p (w.node n).currentTerm args
        ((w.node p).handleAppendEntries args).2).1) := by
  have hne : p ≠ n := ((M.mem_peers n hmem p).mp hpeer).2
  obtain ⟨-, -, -, hterm, -⟩ := Node.replicateTo_spec hsend
  set r := (w.node p).handleAppendEntries args with hr
  let w₁ : Cluster Cmd := { w with appendCalls := w.appendCalls ++ [⟨n, p, args⟩] }
  let w₂ : Cluster Cmd :=
    { w.set p r.1 with appendReturns := w.appendReturns ++ [⟨n, p, args, r.2⟩] }
  have h₁ : Cluster.step M w (.replicate n p (w.node n).currentTerm) = some w₁ := by
    rw [Cluster.step, if_pos ⟨hmem, hrun, hpeer⟩, hsend]
  have hcall : w₁.appendCalls[w.appendCalls.length]? = some ⟨n, p, args⟩ :=
    List.getElem?_concat_length
  have hcalls : w₁.appendCalls.eraseIdx w.appendCalls.length = w.appendCalls := eraseIdx_length _ _
  have h₂ : Cluster.step M w₁ (.handleAppendEntries w.appendCalls.length) = some w₂ := by
    rw [Cluster.step, hcall, Option.map_some, hcalls]
    rfl
  have hreturn : w₂.appendReturns[w.appendReturns.length]? = some ⟨n, p, args, r.2⟩ :=
    List.getElem?_concat_length
  have hreturns : w₂.appendReturns.eraseIdx w.appendReturns.length = w.appendReturns :=
    eraseIdx_length _ _
  have hnode : w₂.node n = w.node n := Cluster.set_node_ne w _ hne.symm
  have h₃ : Cluster.step M w₂ (.appendReply w.appendReturns.length) =
      some ((w.set p r.1).set n
        ((w.node n).onAppendReply p (w.node n).currentTerm args r.2).1) := by
    rw [Cluster.step, hreturn, Option.map_some, hreturns, hnode]
    dsimp only
    rw [hterm]
    rfl
  refine (Onward.of_step (e := .replicate n p (w.node n).currentTerm) ⟨hn, hp⟩ h₁).trans
    ((Onward.of_step ?_ h₂).trans (Onward.of_step ?_ h₃))
  · intro c hc
    rw [hcall] at hc
    cases hc
    exact ⟨hn, hp⟩
  · intro c hc
    rw [hreturn] at hc
    cases hc
    exact ⟨hn, hp⟩

/-! ### Elections -/

/-- A leader that asks a node of a later term steps down; the logs stay as they are. -/
theorem exists_stepdown (h : Reachable M w) (hmem : n ∈ M.ids) (hrun : w.running n = true)
    (hn : n ∈ q) (hp : p ∈ q) (hpeer : p ∈ M.peers n) (hr : (w.node n).role = .leader)
    (hterm : (w.node n).currentTerm < (w.node p).currentTerm) :
    Onward M q w (w.set n ((w.node n).becomeFollower (w.node p).currentTerm)) := by
  obtain ⟨g, hg⟩ := h.exists_history
  obtain ⟨o, ho⟩ := hg.neverRaises.replicate n p hpeer (w.node n).currentTerm
  obtain ⟨args, rfl⟩ : ∃ args, o = some args := by
    obtain ⟨k, hk, hpos, hle⟩ := (hg.inRange n).next hr p (hg.peers_eq n ▸ hpeer)
    obtain ⟨prev, rfl⟩ : ∃ prev, k = prev + 1 := ⟨k - 1, by omega⟩
    rw [Node.replicateTo_of_next hr hk (by omega)] at ho
    exact ⟨_, (Except.ok.inj ho).symm⟩
  obtain ⟨-, -, -, hargs, -⟩ := Node.replicateTo_spec ho
  -- the request is refused, in a later term
  have hhandle : (w.node p).handleAppendEntries args =
      (w.node p, ⟨(w.node p).currentTerm, false⟩) := by
    unfold Node.handleAppendEntries
    dsimp only
    rw [Node.observe_of_ge (by omega), if_pos (by omega)]
  have hex := Onward.exchange hmem hrun hn hp hpeer ho
  rw [hhandle] at hex
  have hself : w.set p (w.node p) = w := by
    unfold Cluster.set
    rw [Function.update_eq_self]
  rw [hself, Node.onAppendReply, if_pos hterm] at hex
  exact hex

omit [Inhabited Cmd] in
theorem log_becomeFollower (p : String) (t m) :
    ((w.set p ((w.node p).becomeFollower t)).node m).log = (w.node m).log := by
  by_cases hm : m = p
  · subst hm
    rw [Cluster.set_node_self]
    rfl
  · rw [Cluster.set_node_ne _ _ hm]

/-- Terms only go up. -/
theorem term_le_steps (h : Reachable M w) (hs : Steps M w w') (i : String) :
    (w.node i).currentTerm ≤ (w'.node i).currentTerm := by
  obtain ⟨g, hg⟩ := h.exists_history
  obtain ⟨g', hx, hg'⟩ := hg.steps hs
  have hle := hx.term_le i
  rwa [(hg.node i).term, (hg'.node i).term] at hle

/-- What a candidate asks its peers. -/
def Node.plea (r : Node Cmd) : RequestVoteArgs :=
  ⟨r.currentTerm, r.cfg.id, r.last.index, r.last.term⟩

/-- Candidate `n` has asked all its peers and has counted its own vote only. -/
structure Stands (M : Membership) (n : String) (w : Cluster Cmd) : Prop where
  role : (w.node n).role = .candidate
  votes : (w.node n).votes (w.node n).currentTerm = 1
  calls : ∀ p ∈ M.peers n, ⟨n, p, (w.node n).plea⟩ ∈ w.voteCalls

theorem stands_campaign : Stands M n (w.campaign M n) ∧
    ((w.campaign M n).node n).currentTerm = (w.node n).currentTerm + 1 ∧
      ((w.campaign M n).node n).log = (w.node n).log ∧
        ∀ m ≠ n, (w.campaign M n).node m = w.node m := by
  have hself : (w.campaign M n).node n = (w.node n).startElection.1 := Cluster.set_node_self _ n _
  refine ⟨⟨?_, ?_, fun p hp => ?_⟩, ?_, ?_, fun m hm => Cluster.set_node_ne w _ hm⟩
  · rw [hself]
    rfl
  · rw [hself]
    exact Function.update_self _ _ _
  · rw [hself]
    exact List.mem_append_right _ (List.mem_map_of_mem hp)
  · rw [hself]
    rfl
  · rw [hself]
    rfl

/-- A node that does not lead can stand in a term beyond any bound. -/
theorem exists_campaign (hmem : n ∈ M.ids) (hn : n ∈ q) (bound d : ℕ)
    (hrun : w.running n = true) (hr : (w.node n).role ≠ .leader)
    (hd : bound ≤ (w.node n).currentTerm + d) :
    ∃ w', Onward M q w w' ∧ Stands M n w' ∧ bound < (w'.node n).currentTerm ∧
      (w'.node n).log = (w.node n).log ∧ ∀ m ≠ n, w'.node m = w.node m := by
  -- each time-out leads to the next term
  induction d generalizing w with
  | zero =>
    obtain ⟨hstands, hterm, hlog, hothers⟩ := stands_campaign (M := M) (n := n) (w := w)
    exact ⟨_, .of_step (e := .electionTimeout n) hn (if_pos ⟨hmem, hrun, hr⟩), hstands, by omega,
      hlog, hothers⟩
  | succ d ih =>
    obtain ⟨hstands, hterm, hlog, hothers⟩ := stands_campaign (M := M) (n := n) (w := w)
    obtain ⟨w', hon, hstands', hbound, hlog', hothers'⟩ := ih (w := w.campaign M n) hrun
      (by rw [hstands.role]; simp) (by omega)
    exact ⟨w', (Onward.of_step (e := .electionTimeout n) hn (if_pos ⟨hmem, hrun, hr⟩)).trans hon,
      hstands', hbound, hlog'.trans hlog, fun m hm => (hothers' m hm).trans (hothers m hm)⟩

/-- A voter of an earlier term whose log is no longer than the candidate's gives its vote. -/
theorem Node.vote_granted {r : Node Cmd} {args : RequestVoteArgs}
    (hterm : r.currentTerm < args.term)
    (hlog : r.logOk args) :
    (r.handleRequestVote args).2 = ⟨args.term, true⟩ ∧
      (r.handleRequestVote args).1.currentTerm = args.term ∧
        (r.handleRequestVote args).1.log = r.log := by
  have hobs : r.observe args.term = r.becomeFollower args.term := if_pos hterm
  have hgrants : (r.observe args.term).grants args := by
    rw [hobs]
    exact ⟨rfl, .inl rfl, hlog⟩
  unfold handleRequestVote
  dsimp only
  rw [if_pos hgrants, hobs]
  exact ⟨rfl, rfl, rfl⟩

/-- A candidate counts a vote of its term, and leads or has one vote more. -/
theorem Node.vote_counted {r : Node Cmd} (hr : r.role = .candidate) :
    let r' := r.onVoteReply r.currentTerm ⟨r.currentTerm, true⟩
    r'.currentTerm = r.currentTerm ∧
      (r'.role = .leader ∨
        r'.role = .candidate ∧ r'.votes r.currentTerm = r.votes r.currentTerm + 1) := by
  unfold onVoteReply
  rw [if_neg (lt_irrefl _), if_pos ⟨hr, rfl, rfl⟩]
  dsimp only
  split
  · rw [becomeLeader, if_neg (by simp [hr]), propose, if_neg (by simp)]
    exact ⟨rfl, .inl rfl⟩
  · exact ⟨rfl, .inr ⟨hr, Function.update_self _ _ _⟩⟩

/-- A leader does not look at the votes of its own term that are still to come. -/
theorem Node.vote_ignored {r : Node Cmd} (hr : r.role = .leader) (t : ℕ) (granted : Bool) :
    r.onVoteReply t ⟨r.currentTerm, granted⟩ = r := by
  unfold onVoteReply
  rw [if_neg (lt_irrefl _), if_neg (by simp [hr])]

/-- `n` gets the votes of the nodes `ps`, unless it leads before that. -/
theorem exists_elected {T v : ℕ} {args : RequestVoteArgs} {ps : List String} (hn : n ∈ q)
    (hargs : args.term = T) (hnodup : ps.Nodup)
    (hps : ∀ p ∈ ps, p ∈ q ∧ p ≠ n ∧ ⟨n, p, args⟩ ∈ w.voteCalls ∧ (w.node p).currentTerm < T ∧
      (w.node p).logOk args)
    (hterm : (w.node n).currentTerm = T)
    (hrole : (w.node n).role = .leader ∨ (w.node n).role = .candidate ∧ (w.node n).votes T = v) :
    ∃ w', Onward M q w w' ∧ (w'.node n).currentTerm = T ∧
      ((w'.node n).role = .leader ∨
        (w'.node n).role = .candidate ∧ (w'.node n).votes T = v + ps.length) ∧
      (∀ p ∈ ps, (w'.node p).currentTerm = T) ∧ ∀ m ≠ n, m ∉ ps → w'.node m = w.node m := by
  induction ps generalizing w v with
  | nil => exact ⟨w, .refl, hterm, hrole, fun p hp => absurd hp (by simp), fun _ _ _ => rfl⟩
  | cons p ps ih =>
    obtain ⟨hp, hps⟩ := List.forall_mem_cons.mp hps
    obtain ⟨hpq, hne, hcall, hlt, hlog⟩ := hp
    rw [List.nodup_cons] at hnodup
    obtain ⟨hreply, hpterm, -⟩ := Node.vote_granted (hargs ▸ hlt) hlog
    obtain ⟨calls, hcalls, hask⟩ := Onward.ask (M := M) hn hpq hne hcall
    rw [hreply, hargs, ← hterm] at hask
    set r := (w.node n).onVoteReply (w.node n).currentTerm ⟨(w.node n).currentTerm, true⟩ with hr
    set w₁ : Cluster Cmd := { (w.set p ((w.node p).handleRequestVote args).1).set n r with
      voteCalls := calls } with hw₁
    have hself : w₁.node n = r := Cluster.set_node_self _ n _
    have hpeer : w₁.node p = ((w.node p).handleRequestVote args).1 := by
      rw [hw₁]
      exact (Cluster.set_node_ne _ _ hne).trans (Cluster.set_node_self _ p _)
    have hothers : ∀ m ≠ n, m ≠ p → w₁.node m = w.node m := fun m hm hmp => by
      rw [hw₁]
      exact (Cluster.set_node_ne _ _ hm).trans (Cluster.set_node_ne _ _ hmp)
    -- the vote makes a leader, or is one more
    have hcount : r.currentTerm = T ∧
        (r.role = .leader ∨ r.role = .candidate ∧ r.votes T = v + 1) := by
      rcases hrole with hlead | ⟨hcand, hvotes⟩
      · rw [hr, Node.vote_ignored hlead]
        exact ⟨hterm, .inl hlead⟩
      · obtain ⟨hterm', hcase⟩ := Node.vote_counted hcand
        rw [← hr] at hterm' hcase
        rw [hterm, hvotes] at hcase
        exact ⟨hterm'.trans hterm, hcase⟩
    obtain ⟨w', hon, hterm', hrole', hps', hothers'⟩ := ih (w := w₁) (v := v + 1) hnodup.2
      (fun p' hp' => by
        obtain ⟨hq', hne', hcall', hlt', hlog'⟩ := hps p' hp'
        have hpp : p' ≠ p := fun heq => hnodup.1 (heq ▸ hp')
        rw [hothers p' hne' hpp]
        exact ⟨hq', hne', hcalls _ hcall' hpp, hlt', hlog'⟩)
      (by rw [hself]; exact hcount.1) (by rw [hself]; exact hcount.2)
    refine ⟨w', hask.trans hon, hterm', ?_, ?_, fun m hm hmps => ?_⟩
    · rw [List.length_cons, Nat.add_comm ps.length, ← Nat.add_assoc]
      exact hrole'
    · rw [List.forall_mem_cons]
      refine ⟨?_, hps'⟩
      rw [hothers' p hne hnodup.1, hpeer, hpterm, hargs]
    · rw [List.mem_cons, not_or] at hmps
      exact (hothers' m hm hmps.2).trans (hothers m hm hmps.1)

section quorum

variable (hM : M.ids.length ≠ 1) (hq : Ledger.IsQuorum M.members q)
include hq

theorem mem_ids_of_quorum (hn : n ∈ q) : n ∈ M.ids := M.mem_members.mp (hq.1 hn)

theorem mem_peers_of_quorum (hn : n ∈ q) (hp : p ∈ q) (hne : p ≠ n) : p ∈ M.peers n :=
  (M.mem_peers n (mem_ids_of_quorum hq hn) p).mpr ⟨mem_ids_of_quorum hq hp, hne⟩

/-- A quorum is as large as `_majority()` asks. -/
theorem majority_le_card {g : Ghost Cmd} (h : Sim M g w) (hn : n ∈ q) :
    (w.node n).majority ≤ q.card := by
  have hlen := M.peers_length (mem_ids_of_quorum hq hn)
  have hcard := hq.2
  rw [M.card_members] at hcard
  rw [Node.majority, h.peers_eq]
  omega

include hM

/-- A leader can be made to step down; the logs stay as they are. -/
theorem exists_deposed (h : Reachable M w) (hrun : ∀ n ∈ q, w.running n = true) (hn : n ∈ q) :
    ∃ w', Onward M q w w' ∧ (∀ m, (w'.node m).log = (w.node m).log) ∧
      (w'.node n).role ≠ .leader := by
  by_cases hr : (w.node n).role = .leader
  swap
  · exact ⟨w, .refl, fun _ => rfl, hr⟩
  -- there is somebody else
  obtain ⟨p, hp, hpn⟩ : ∃ p ∈ q, p ≠ n := by
    have hcard := hq.2
    rw [M.card_members] at hcard
    have hpos := List.length_pos_iff.mpr (List.ne_nil_of_mem (mem_ids_of_quorum hq hn))
    exact Finset.exists_mem_ne (by omega) n
  have hmemp := mem_ids_of_quorum hq hp
  -- who leads no term, and can stand in a later one
  obtain ⟨w₁, hon₁, hlog₁, hsame, hrole⟩ : ∃ w₁, Onward M q w w₁ ∧
      (∀ m, (w₁.node m).log = (w.node m).log) ∧ w₁.node n = w.node n ∧
        ((w₁.node p).role ≠ .leader ∨ (w.node n).currentTerm < (w₁.node p).currentTerm) := by
    by_cases hrp : (w.node p).role = .leader
    swap
    · exact ⟨w, .refl, fun _ => rfl, rfl, .inl hrp⟩
    rcases lt_trichotomy (w.node n).currentTerm (w.node p).currentTerm with hlt | heq | hgt
    · exact ⟨w, .refl, fun _ => rfl, rfl, .inr hlt⟩
    · obtain ⟨g, hg⟩ := h.exists_history
      have hown := hg.owner_of_state (Node.state_eq_true.mpr ⟨rfl, hr⟩)
      rw [hg.owner_of_state (Node.state_eq_true.mpr ⟨heq.symm, hrp⟩)] at hown
      exact absurd (Option.some_inj.mp hown) hpn
    · refine ⟨_, exists_stepdown h hmemp (hrun p hp) hp hn (mem_peers_of_quorum hq hp hn hpn.symm)
        hrp hgt, log_becomeFollower p _, Cluster.set_node_ne _ _ hpn.symm, .inl ?_⟩
      rw [Cluster.set_node_self]
      simp [Node.becomeFollower]
  have hrun₁ : ∀ m ∈ q, w₁.running m = true := fun m hm => by
    rw [hon₁.frame.1]
    exact hrun m hm
  obtain ⟨w₂, hon₂, hlog₂, hsame₂, hlt⟩ : ∃ w₂, Onward M q w₁ w₂ ∧
      (∀ m, (w₂.node m).log = (w.node m).log) ∧ w₂.node n = w.node n ∧
        (w₂.node n).currentTerm < (w₂.node p).currentTerm := by
    rcases hrole with hrole | hlt
    swap
    · exact ⟨w₁, .refl, hlog₁, hsame, hsame ▸ hlt⟩
    obtain ⟨w₂, hon₂, -, hbound, hlog, hothers⟩ := exists_campaign hmemp hp
      (w.node n).currentTerm (w.node n).currentTerm (hrun₁ p hp) hrole (Nat.le_add_left _ _)
    refine ⟨w₂, hon₂, fun m => ?_, (hothers n hpn.symm).trans hsame, ?_⟩
    · by_cases hm : m = p
      · rw [hm, hlog, hlog₁]
      · rw [hothers m hm, hlog₁]
    · rw [hothers n hpn.symm, hsame]
      exact hbound
  -- it steps down when it hears from there
  have hon := hon₁.trans hon₂
  have h₂ : Reachable M w₂ := Relation.ReflTransGen.trans h hon.steps
  refine ⟨_, hon.trans (exists_stepdown h₂ (mem_ids_of_quorum hq hn) (by
    rw [hon₂.frame.1]; exact hrun₁ n hn) hn hp (mem_peers_of_quorum hq hn hp hpn)
    (by rw [hsame₂]; exact hr) hlt), fun m => ?_, ?_⟩
  · rw [log_becomeFollower, hlog₂]
  · rw [Cluster.set_node_self]
    simp [Node.becomeFollower]

/-- **A majority can elect one of its nodes**, in a term that is new to all of them. -/
theorem exists_leader_of_quorum (h : Reachable M w) (hrun : ∀ n ∈ q, w.running n = true) :
    ∃ n ∈ q, ∃ w', Onward M q w w' ∧ (w'.node n).role = .leader ∧ ∀ p ∈ q,
      (w.node p).currentTerm < (w'.node n).currentTerm ∧
        (w'.node p).currentTerm ≤ (w'.node n).currentTerm := by
  have hne : q.Nonempty := by
    rw [← Finset.card_pos]
    have := hq.2
    omega
  -- a node whose last entry is the newest
  obtain ⟨n, hn, hmax⟩ := Finset.exists_max_image q
    (fun i => toLex ((w.node i).last.term, (w.node i).last.index)) hne
  have hmem := mem_ids_of_quorum hq hn
  refine ⟨n, hn, ?_⟩
  obtain ⟨w₁, hon₁, hlog₁, hr⟩ := exists_deposed hM hq h hrun hn
  -- it stands in a term beyond all of theirs
  have hrun₁ : w₁.running n = true := by
    rw [hon₁.frame.1]
    exact hrun n hn
  obtain ⟨w₂, hon₂, hstands, hbound, hlog₂, hothers⟩ :=
    exists_campaign hmem hn (q.sup fun p => (w₁.node p).currentTerm)
      (q.sup fun p => (w₁.node p).currentTerm) hrun₁ hr (Nat.le_add_left _ _)
  have hlog : ∀ m, (w₂.node m).log = (w.node m).log := by
    intro m
    by_cases hm : m = n
    · rw [hm, hlog₂, hlog₁]
    · rw [hothers m hm, hlog₁]
  have hps : ∀ p ∈ (q.erase n).toList, p ∈ q ∧ p ≠ n ∧ ⟨n, p, (w₂.node n).plea⟩ ∈ w₂.voteCalls ∧
      (w₂.node p).currentTerm < (w₂.node n).currentTerm ∧
        (w₂.node p).logOk (w₂.node n).plea := by
    intro p hp
    obtain ⟨hpn, hpq⟩ := Finset.mem_erase.mp (Finset.mem_toList.mp hp)
    refine ⟨hpq, hpn, hstands.calls p (mem_peers_of_quorum hq hn hpq hpn), ?_, ?_⟩
    · rw [hothers p hpn]
      exact (Finset.le_sup (f := fun p => (w₁.node p).currentTerm) hpq).trans_lt hbound
    · have hlast : ∀ m, (w₂.node m).last = (w.node m).last := fun m => by
        rw [Node.last, Node.last, hlog]
      rw [Node.logOk, Node.plea, hlast, hlast]
      exact Prod.Lex.le_iff.mp (hmax p hpq)
  obtain ⟨w₃, hon₃, hterm, hrole, hterms, -⟩ := exists_elected (M := M) hn
    (show (w₂.node n).plea.term = (w₂.node n).currentTerm from rfl) (Finset.nodup_toList _) hps rfl
    (.inr ⟨hstands.role, hstands.votes⟩)
  have hon := (hon₁.trans hon₂).trans hon₃
  have h₃ : Reachable M w₃ := Relation.ReflTransGen.trans h hon.steps
  obtain ⟨g, hg⟩ := h₃.exists_history
  refine ⟨w₃, hon, ?_, fun p hp => ⟨?_, ?_⟩⟩
  · rcases hrole with hlead | ⟨hcand, hvotes⟩
    · exact hlead
    -- it would have all the votes it needs
    · have hacted := (h₃.acted hM n).votes hcand
      have hmaj := majority_le_card hq hg hn
      have hcard := Finset.card_erase_of_mem hn
      have hpos := Finset.card_pos.mpr hne
      rw [hterm, hvotes, Finset.length_toList] at hacted
      omega
  · rw [hterm]
    exact (term_le_steps h hon₁.steps p).trans_lt
      ((Finset.le_sup (f := fun p => (w₁.node p).currentTerm) hp).trans_lt hbound)
  · by_cases hpn : p = n
    · rw [hpn]
    · rw [hterms p (Finset.mem_toList.mpr (Finset.mem_erase.mpr ⟨hpn, hp⟩)), hterm]

end quorum

/-! ### Replication -/

/-- What a leader keeps when it hears from peer `p`; its commit index can only go up. -/
structure Node.Reigns (p : String) (r r' : Node Cmd) : Prop where
  role : r'.role = r.role
  term : r'.currentTerm = r.currentTerm
  log : r'.log = r.log
  others : ∀ p' ≠ p, r'.matchIndex p' = r.matchIndex p' ∧ r'.nextIndex p' = r.nextIndex p'
  commit : r.commitIndex ≤ r'.commitIndex

omit [Inhabited Cmd] in
theorem Node.Reigns.trans {r r' r'' : Node Cmd} (h : Reigns p r r') (h' : Reigns p r' r'') :
    Reigns p r r'' where
  role := h'.role.trans h.role
  term := h'.term.trans h.term
  log := h'.log.trans h.log
  others p' hp := ⟨(h'.others p' hp).1.trans (h.others p' hp).1,
    (h'.others p' hp).2.trans (h.others p' hp).2⟩
  commit := h.commit.trans h'.commit

omit [Inhabited Cmd] in
theorem Node.reigns_onAppendReply {r : Node Cmd} {t : ℕ} {args : AppendEntriesArgs Cmd}
    {reply : AppendEntriesReply} (h : reply.term ≤ r.currentTerm) :
    Reigns p r (r.onAppendReply p t args reply).1 := by
  have hother : ∀ {α : Type} (f : String → α) (x : α), ∀ p' ≠ p, update f p x p' = f p' :=
    fun f x p' hp => Function.update_of_ne hp _ _
  unfold onAppendReply
  rw [if_neg (not_lt.mpr h)]
  split
  · exact ⟨rfl, rfl, rfl, fun _ _ => ⟨rfl, rfl⟩, le_rfl⟩
  split
  · dsimp only
    split
    · rename_i r' hadv
      rcases advanceLoop_spec hadv with rfl | ⟨k, c, e, rfl, hk, -⟩
      · exact ⟨rfl, rfl, rfl, fun p' hp => ⟨hother _ _ p' hp, hother _ _ p' hp⟩, le_rfl⟩
      · exact ⟨rfl, rfl, rfl, fun p' hp => ⟨hother _ _ p' hp, hother _ _ p' hp⟩, hk.le⟩
    · exact ⟨rfl, rfl, rfl, fun p' hp => ⟨hother _ _ p' hp, hother _ _ p' hp⟩, le_rfl⟩
  · split
    · exact ⟨rfl, rfl, rfl, fun _ _ => ⟨rfl, rfl⟩, le_rfl⟩
    · split
      · exact ⟨rfl, rfl, rfl, fun p' hp => ⟨rfl, hother _ _ p' hp⟩, le_rfl⟩
      · exact ⟨rfl, rfl, rfl, fun _ _ => ⟨rfl, rfl⟩, le_rfl⟩

omit [Inhabited Cmd] in
/-- A follower that is not ahead is in the term of the request afterwards, and says so. -/
theorem Node.term_of_handle {r : Node Cmd} {args : AppendEntriesArgs Cmd}
    (h : r.currentTerm ≤ args.term) : (r.handleAppendEntries args).1.currentTerm = args.term ∧
      (r.handleAppendEntries args).2.term = args.term := by
  have hobs := currentTerm_observe h
  by_cases ha : r.Accepts args
  · rw [handle_of_accepts ha]
    exact ⟨hobs, rfl⟩
  · rw [handle_of_mismatch args h fun hprev => ha ⟨h, hprev⟩]
    exact ⟨hobs, rfl⟩

omit [Inhabited Cmd] in
/-- It then knows who leads that term. -/
theorem Node.hint_of_handle {r : Node Cmd} {args : AppendEntriesArgs Cmd}
    (h : r.currentTerm ≤ args.term) :
    (r.handleAppendEntries args).1.leaderHint = (args.leaderId, args.term) := by
  have hobs := currentTerm_observe h
  by_cases ha : r.Accepts args
  · rw [handle_of_accepts ha]
    exact Prod.ext rfl hobs
  · rw [handle_of_mismatch args h fun hprev => ha ⟨h, hprev⟩]
    exact Prod.ext rfl hobs

/-- Leader `n` knows that `p` has its whole log. -/
structure Current (w : Cluster Cmd) (n p : String) : Prop where
  matched : (w.node n).matchIndex p = some ((w.node n).log.length - 1)
  next : (w.node n).nextIndex p = some (w.node n).log.length
  isPrefix : (w.node n).log <+: (w.node p).log

/-- Leader `n` and follower `p`. -/
def Cluster.link (w : Cluster Cmd) (n p : String) : Link Cmd := ⟨w.node n, w.node p, true⟩

/-- One round of the link is one exchange of the cluster. -/
theorem Onward.round {k : ℕ} (hmem : n ∈ M.ids) (hrun : w.running n = true) (hn : n ∈ q)
    (hp : p ∈ q) (hpeer : p ∈ M.peers n) (h : Link.Ready p k (w.link n p)) :
    Onward M q w ((w.set p ((w.link n p).round p).follower).set n
        ((w.link n p).round p).leader) ∧
      Node.Reigns p (w.node n) ((w.link n p).round p).leader ∧
        ((w.link n p).round p).follower.currentTerm = (w.node n).currentTerm := by
  obtain ⟨prev, rfl⟩ : ∃ prev, k = prev + 1 := ⟨k - 1, by have := h.pos; omega⟩
  obtain ⟨args, hsend⟩ : ∃ args,
      (w.node n).replicateTo p (w.node n).currentTerm = .ok (some args) :=
    ⟨_, Node.replicateTo_of_next h.role h.next h.le⟩
  obtain ⟨-, -, -, hterm, -⟩ := Node.replicateTo_spec hsend
  have hround : (w.link n p).round p =
      ⟨((w.node n).onAppendReply p (w.node n).currentTerm args
          ((w.node p).handleAppendEntries args).2).1,
        ((w.node p).handleAppendEntries args).1,
        ((w.node p).handleAppendEntries args).2.success⟩ := by
    rw [Link.round, Cluster.link]
    dsimp only
    rw [hsend]
  obtain ⟨hft, hrt⟩ := Node.term_of_handle (r := w.node p) (hterm ▸ h.term)
  rw [hround]
  exact ⟨.exchange hmem hrun hn hp hpeer hsend, Node.reigns_onAppendReply (by rw [hrt, hterm]),
    hft.trans hterm⟩

/-- **A leader brings a follower its log**, in as many rounds as it takes. -/
theorem exists_repaired {k : ℕ} (hmem : n ∈ M.ids) (hrun : w.running n = true) (hn : n ∈ q)
    (hp : p ∈ q) (hpeer : p ∈ M.peers n) (h : Link.Ready p k (w.link n p)) :
    ∃ w', Onward M q w w' ∧ Current w' n p ∧ Node.Reigns p (w.node n) (w'.node n) ∧
      (w'.node p).currentTerm = (w.node n).currentTerm ∧
        ∀ m ≠ n, m ≠ p → w'.node m = w.node m := by
  have hne : p ≠ n := ((M.mem_peers n hmem p).mp hpeer).2
  -- each failure lowers `_next_index`
  induction k generalizing w with
  | zero => exact absurd h.pos (by omega)
  | succ k ih =>
    obtain ⟨hon, hreigns, hterm⟩ := Onward.round hmem hrun hn hp hpeer h
    set x := (w.link n p).round p with hx
    set w₁ := (w.set p x.follower).set n x.leader with hw₁
    have hself : w₁.node n = x.leader := Cluster.set_node_self _ n _
    have hother : w₁.node p = x.follower := by
      rw [hw₁, Cluster.set_node_ne _ _ hne, Cluster.set_node_self]
    have hrest : ∀ m ≠ n, m ≠ p → w₁.node m = w.node m := fun m hm hmp => by
      rw [hw₁, Cluster.set_node_ne _ _ hm, Cluster.set_node_ne _ _ hmp]
    rcases h.round with hdone | ⟨-, hk, hready, -, -⟩
    · refine ⟨w₁, hon, ⟨?_, ?_, ?_⟩, hself ▸ hreigns, hother ▸ hterm, hrest⟩
      · rw [hself, hdone.leader]
        exact hdone.matchIndex
      · rw [hself, hdone.leader]
        exact hdone.nextIndex
      · rw [hself, hother, hdone.leader]
        exact hdone.isPrefix
    · have hlink : Link.Ready p k (w₁.link n p) := by
        have hready' : Link.Ready p k x := hready
        unfold Cluster.link
        rw [hself, hother]
        exact { hready' with }
      obtain ⟨w', hon', hcur, hreigns', hterm', hrest'⟩ := ih (w := w₁) hrun hlink
      rw [hself] at hreigns' hterm'
      refine ⟨w', hon.trans hon', hcur, hreigns.trans hreigns', hterm'.trans hreigns.term,
        fun m hm hmp => ?_⟩
      exact (hrest' m hm hmp).trans (hrest m hm hmp)

/-- A leader of a reachable state can start to repair the log of any peer that is not ahead. -/
theorem ready_of_leader (h : Reachable M w) (hpeer : p ∈ M.peers n)
    (hr : (w.node n).role = .leader) (hterm : (w.node p).currentTerm ≤ (w.node n).currentTerm) :
    ∃ k, Link.Ready p k (w.link n p) := by
  obtain ⟨g, hg⟩ := h.exists_history
  obtain ⟨k, hk, hpos, hle⟩ := (hg.inRange n).next hr p (hg.peers_eq n ▸ hpeer)
  exact ⟨k, {
    role := hr
    next := hk
    pos := hpos
    le := hle
    term := hterm
    sentinel := (hg.node p).base.trans (hg.node n).base.symm
    matching := matches_of_wellFormed (hg.wellFormed p) (hg.wellFormed n) }⟩

/-- **A leader brings a follower that has its log its commit index.** -/
theorem exists_notified {i : ℕ} (hmem : n ∈ M.ids) (hrun : w.running n = true) (hn : n ∈ q)
    (hp : p ∈ q) (hpeer : p ∈ M.peers n) (hr : (w.node n).role = .leader)
    (hterm : (w.node p).currentTerm ≤ (w.node n).currentTerm) (hcur : Current w n p)
    (hi : i ≤ (w.node n).commitIndex) (hlt : i < (w.node n).log.length) :
    ∃ w', Onward M q w w' ∧ Node.Reigns p (w.node n) (w'.node n) ∧ i ≤ (w'.node p).commitIndex ∧
      Current w' n p ∧ (w'.node p).currentTerm = (w.node n).currentTerm ∧
        ∀ m ≠ n, m ≠ p → w'.node m = w.node m := by
  have hne : p ≠ n := ((M.mem_peers n hmem p).mp hpeer).2
  set led := (w.node n).log with hled
  have hnext : (w.node n).nextIndex p = some (led.length - 1 + 1) := by
    rw [hcur.next, Nat.sub_add_cancel (by omega)]
  have hsend := Node.replicateTo_of_next hr hnext (by rw [← hled]; omega)
  set args : AppendEntriesArgs Cmd :=
    { term := (w.node n).currentTerm
      leaderId := (w.node n).cfg.id
      prevLogIndex := led.length - 1
      prevLogTerm := led[led.length - 1].term
      entries := led.drop (led.length - 1 + 1)
      leaderCommit := (w.node n).commitIndex } with hargs
  have htail : args.TailOf led :=
    ⟨by rw [hargs]; dsimp only; rw [List.getElem?_eq_getElem (by omega), Option.map_some], rfl⟩
  obtain ⟨e, he, het⟩ := Option.map_eq_some_iff.mp htail.prev
  -- the follower accepts it, and its log stays
  have hacc : (w.node p).Accepts args :=
    ⟨hterm, by rw [Ledger.getElem?_of_isPrefix hcur.isPrefix he, Option.map_some, het]⟩
  have hlog : ((w.node p).handleAppendEntries args).1.log = (w.node p).log := by
    rcases (Node.handle_isPrefix (matches_of_isPrefix hcur.isPrefix) htail hacc).2 with hs | ⟨-, hs⟩
    · exact hs
    · exact absurd hcur.isPrefix hs
  have hhandle := Node.handle_of_accepts hacc
  have hreply : ((w.node p).handleAppendEntries args).2 = ⟨(w.node n).currentTerm, true⟩ := by
    rw [hhandle]
  have hcommit : i ≤ ((w.node p).handleAppendEntries args).1.commitIndex := by
    have hlen : led.length ≤ (w.node p).log.length := hcur.isPrefix.length_le
    have hle : args.leaderCommit = (w.node n).commitIndex := rfl
    rw [← hlog, hhandle] at hlen
    rw [hhandle]
    dsimp only at hlen ⊢
    unfold Node.learn
    split <;> omega
  have hon := Onward.exchange hmem hrun hn hp hpeer hsend
  obtain ⟨hm, hnx, -⟩ := Node.onAppendReply_of_success args p hr
  have hreigns : Node.Reigns p (w.node n) ((w.node n).onAppendReply p (w.node n).currentTerm args
      ⟨(w.node n).currentTerm, true⟩).1 := Node.reigns_onAppendReply le_rfl
  rw [hreply] at hon
  have hlen := Node.length_of_tailOf htail
  have hlast : args.prevLogIndex + args.entries.length = led.length - 1 := by omega
  rw [hlast] at hm hnx
  refine ⟨_, hon, ?_, ?_, ⟨?_, ?_, ?_⟩, ?_, fun m hm hmp => ?_⟩
  · rw [Cluster.set_node_self]
    exact hreigns
  · rw [Cluster.set_node_ne _ _ hne, Cluster.set_node_self]
    exact hcommit
  · rw [Cluster.set_node_self, hreigns.log]
    exact hm
  · rw [Cluster.set_node_self, hreigns.log, hnx, Nat.sub_add_cancel (by omega)]
  · rw [Cluster.set_node_self, hreigns.log, Cluster.set_node_ne _ _ hne, Cluster.set_node_self,
      hlog]
    exact hcur.isPrefix
  · rw [Cluster.set_node_ne _ _ hne, Cluster.set_node_self]
    exact (Node.term_of_handle hacc.1).1
  · rw [Cluster.set_node_ne _ _ hm, Cluster.set_node_ne _ _ hmp]

/-! ### Availability -/

/-- What a node has committed is in the log of a leader whose term it is not beyond. -/
theorem Sim.commit_lt_of_leader {g : Ghost Cmd} (h : Sim M g w) (hr : (w.node n).role = .leader)
    (hterm : (w.node p).currentTerm ≤ (w.node n).currentTerm) :
    (w.node p).commitIndex < (w.node n).log.length := by
  obtain ⟨hown, hled, -⟩ := (h.node n).leader hr
  rcases (h.node p).commit with hzero | ⟨u, hu, m, hm, hch, -⟩
  · rw [hzero]
    exact List.length_pos_iff.mpr (h.log_ne_nil n)
  have hlt := hch.1.lt_length
  rcases (hu.trans hterm).eq_or_lt with rfl | hlt'
  · rw [hled] at hlt
    omega
  · have hheld := (hch.holds_ledger h.inv hlt' (by rw [hown]; simp)).length_le
    rw [List.length_take, hled] at hheld
    omega

/-- Node `n` of the running quorum `q` leads the latest term there with the log `led`. -/
structure Rules (M : Membership) (q : Finset String) (n : String) (T : ℕ)
    (led : List (LogEntry Cmd))
    (w : Cluster Cmd) : Prop where
  reachable : Reachable M w
  running : ∀ p ∈ q, w.running p = true
  role : (w.node n).role = .leader
  term : (w.node n).currentTerm = T
  log : (w.node n).log = led
  latest : ∀ p ∈ q, (w.node p).currentTerm ≤ T

/-- A leader that has heard from `p` rules on. -/
theorem Rules.hear {T : ℕ} {led : List (LogEntry Cmd)} (h : Rules M q n T led w)
    (hon : Onward M q w w') (hreigns : Node.Reigns p (w.node n) (w'.node n))
    (hterm : (w'.node p).currentTerm = (w.node n).currentTerm)
    (hrest : ∀ m ≠ n, m ≠ p → w'.node m = w.node m) : Rules M q n T led w' where
  reachable := Relation.ReflTransGen.trans h.reachable hon.steps
  running m hm := by
    rw [hon.frame.1]
    exact h.running m hm
  role := hreigns.role.trans h.role
  term := hreigns.term.trans h.term
  log := hreigns.log.trans h.log
  latest m hm := by
    by_cases hmn : m = n
    · rw [hmn, hreigns.term, h.term]
    by_cases hmp : m = p
    · rw [hmp, hterm, h.term]
    · rw [hrest m hmn hmp]
      exact h.latest m hm

omit [Inhabited Cmd] in
/-- What the leader knows of another peer is not touched when it hears from `p`. -/
theorem Current.hear {b : String} (h : Current w n b)
    (hreigns : Node.Reigns p (w.node n) (w'.node n))
    (hrest : ∀ m ≠ n, m ≠ p → w'.node m = w.node m) (hbn : b ≠ n) (hbp : b ≠ p) :
    Current w' n b := by
  obtain ⟨hm, hn⟩ := hreigns.others b hbp
  refine ⟨?_, ?_, ?_⟩
  · rw [hm, hreigns.log]
    exact h.matched
  · rw [hn, hreigns.log]
    exact h.next
  · rw [hreigns.log, hrest b hbn hbp]
    exact h.isPrefix

section quorum

variable (hq : Ledger.IsQuorum M.members q) (hn : n ∈ q) {T : ℕ} {led : List (LogEntry Cmd)}
include hq hn

/-- The leader brings all of the quorum its log. -/
theorem Rules.replicate (h : Rules M q n T led w) :
    ∃ w', Onward M q w w' ∧ Rules M q n T led w' ∧ ∀ p ∈ (q.erase n).toList, Current w' n p := by
  have hmem := mem_ids_of_quorum hq hn
  refine Run.each (Q := fun p x => Current x n p) (fun p hp x hx => ?_) h
  obtain ⟨hpn, hpq⟩ := Finset.mem_erase.mp (Finset.mem_toList.mp hp)
  have hpeer := mem_peers_of_quorum hq hn hpq hpn
  obtain ⟨k, hready⟩ := ready_of_leader hx.reachable hpeer hx.role (hx.term ▸ hx.latest p hpq)
  obtain ⟨x', hon, hcur, hreigns, hterm, hrest⟩ :=
    exists_repaired hmem (hx.running n hn) hn hpq hpeer hready
  refine ⟨x', hon, hx.hear hon hreigns hterm hrest, hcur, fun b hb hbcur => ?_⟩
  obtain ⟨hbn, -⟩ := Finset.mem_erase.mp (Finset.mem_toList.mp hb)
  by_cases hbp : b = p
  · exact hbp ▸ hcur
  · exact hbcur.hear hreigns hrest hbn hbp

/-- It has then committed its log, if the last entry is of its term. -/
theorem Rules.committed (hM : M.ids.length ≠ 1) (h : Rules M q n T led w)
    (hcur : ∀ p ∈ (q.erase n).toList, Current w n p) {e : LogEntry Cmd}
    (he : led[led.length - 1]? = some e) (het : e.term = T) :
    led.length - 1 ≤ (w.node n).commitIndex := by
  obtain ⟨g, hg⟩ := h.reachable.exists_history
  by_contra hlt
  have hacted := (h.reachable.acted hM n).commit h.role (led.length - 1) e (by omega)
    (by rw [h.log, he]) (by rw [het, h.term])
  -- all the others have it
  have hsub : q.erase n ⊆ ((w.node n).cfg.peers.filter fun p =>
      ((w.node n).matchIndex p).any (led.length - 1 ≤ ·)).toFinset := by
    intro p hp
    obtain ⟨hpn, hpq⟩ := Finset.mem_erase.mp hp
    rw [List.mem_toFinset, List.mem_filter, hg.peers_eq]
    refine ⟨mem_peers_of_quorum hq hn hpq hpn, ?_⟩
    rw [(hcur p (Finset.mem_toList.mpr hp)).matched, h.log]
    simp only [Option.any_some, decide_eq_true_eq]
    omega
  have hcard := (Finset.card_le_card hsub).trans (List.toFinset_card_le _)
  have herase := Finset.card_erase_of_mem hn
  have hpos := Finset.card_pos.mpr ⟨n, hn⟩
  have hmaj := majority_le_card hq hg hn
  unfold Node.holders at hacted
  omega

/-- The leader tells all of the quorum what it has committed. -/
theorem Rules.notify (h : Rules M q n T led w) (hcur : ∀ p ∈ (q.erase n).toList, Current w n p)
    {i : ℕ} (hi : i ≤ (w.node n).commitIndex) (hlt : i < led.length) :
    ∃ w', Onward M q w w' ∧ Rules M q n T led w' ∧
      ∀ p ∈ q, i ≤ (w'.node p).commitIndex ∧ led <+: (w'.node p).log := by
  have hmem := mem_ids_of_quorum hq hn
  -- a round that tells `p` leaves it with the same log, and the others alone
  have visit : ∀ p ∈ (q.erase n).toList, ∀ x, (Rules M q n T led x ∧ i ≤ (x.node n).commitIndex ∧
      ∀ p ∈ (q.erase n).toList, Current x n p) → ∃ x', Onward M q x x' ∧
      (Rules M q n T led x' ∧ i ≤ (x'.node n).commitIndex ∧
        ∀ p ∈ (q.erase n).toList, Current x' n p) ∧ i ≤ (x'.node p).commitIndex ∧
      ∀ b ∈ (q.erase n).toList, i ≤ (x.node b).commitIndex → i ≤ (x'.node b).commitIndex := by
    rintro p hp x ⟨hx, hix, hcurx⟩
    obtain ⟨hpn, hpq⟩ := Finset.mem_erase.mp (Finset.mem_toList.mp hp)
    obtain ⟨x', hon, hreigns, hcommit, hcurp, hterm, hrest⟩ := exists_notified hmem
      (hx.running n hn) hn hpq (mem_peers_of_quorum hq hn hpq hpn) hx.role
      (hx.term ▸ hx.latest p hpq) (hcurx p hp) hix (by rw [hx.log]; exact hlt)
    refine ⟨x', hon, ⟨hx.hear hon hreigns hterm hrest, hix.trans hreigns.commit, fun b hb => ?_⟩,
      hcommit, fun b hb hbi => ?_⟩
    · obtain ⟨hbn, -⟩ := Finset.mem_erase.mp (Finset.mem_toList.mp hb)
      by_cases hbp : b = p
      · exact hbp ▸ hcurp
      · exact (hcurx b hb).hear hreigns hrest hbn hbp
    · obtain ⟨hbn, -⟩ := Finset.mem_erase.mp (Finset.mem_toList.mp hb)
      by_cases hbp : b = p
      · exact hbp ▸ hcommit
      · rw [hrest b hbn hbp]
        exact hbi
  obtain ⟨w', hon, ⟨hrules, hi', hcur'⟩, hall⟩ := Run.each visit ⟨h, hi, hcur⟩
  refine ⟨w', hon, hrules, fun p hp => ?_⟩
  by_cases hpn : p = n
  · rw [hpn, hrules.log]
    exact ⟨hi', List.prefix_rfl⟩
  · have hp' := Finset.mem_toList.mpr (Finset.mem_erase.mpr ⟨hpn, hp⟩)
    exact ⟨hall p hp', hrules.log ▸ (hcur' p hp').isPrefix⟩

/-- The leader makes itself known to all of the quorum. -/
theorem Rules.herald (h : Rules M q n T led w) :
    ∃ w', Onward M q w w' ∧ Rules M q n T led w' ∧ ∀ p ∈ q, (w'.node p).leaderHint = (n, T) := by
  have hmem := mem_ids_of_quorum hq hn
  have visit : ∀ p ∈ (q.erase n).toList, ∀ x, Rules M q n T led x → ∃ x', Onward M q x x' ∧
      Rules M q n T led x' ∧ (x'.node p).leaderHint = (n, T) ∧ ∀ b ∈ (q.erase n).toList,
        (x.node b).leaderHint = (n, T) → (x'.node b).leaderHint = (n, T) := by
    intro p hp x hx
    obtain ⟨hpn, hpq⟩ := Finset.mem_erase.mp (Finset.mem_toList.mp hp)
    have hpeer := mem_peers_of_quorum hq hn hpq hpn
    have hle : (x.node p).currentTerm ≤ (x.node n).currentTerm := hx.term ▸ hx.latest p hpq
    obtain ⟨k, hready⟩ := ready_of_leader hx.reachable hpeer hx.role hle
    obtain ⟨prev, rfl⟩ : ∃ prev, k = prev + 1 := ⟨k - 1, by have := hready.pos; omega⟩
    obtain ⟨args, hsend⟩ : ∃ args,
        (x.node n).replicateTo p (x.node n).currentTerm = .ok (some args) :=
      ⟨_, Node.replicateTo_of_next hready.role hready.next hready.le⟩
    obtain ⟨-, -, -, hterm, hid, -⟩ := Node.replicateTo_spec hsend
    obtain ⟨g, hg⟩ := hx.reachable.exists_history
    have hon := Onward.exchange hmem (hx.running n hn) hn hpq hpeer hsend
    obtain ⟨hft, hrt⟩ := Node.term_of_handle (r := x.node p) (hterm ▸ hle)
    have hreigns : Node.Reigns p (x.node n) ((x.node n).onAppendReply p (x.node n).currentTerm args
        ((x.node p).handleAppendEntries args).2).1 :=
      Node.reigns_onAppendReply (by rw [hrt, hterm])
    have hself : ∀ {r r' : Node Cmd}, (((x.set p r).set n r').node p) = r := by
      intro r r'
      rw [Cluster.set_node_ne _ _ hpn, Cluster.set_node_self]
    have hhint : ((x.node p).handleAppendEntries args).1.leaderHint = (n, T) := by
      rw [Node.hint_of_handle (hterm ▸ hle), hid, hterm, hx.term, (hg.node n).cfg]
      rfl
    refine ⟨_, hon, hx.hear (p := p) hon ?_ ?_ fun m hm hmp => ?_, ?_, fun b hb hbhint => ?_⟩
    · rw [Cluster.set_node_self]
      exact hreigns
    · rw [hself]
      exact hft.trans hterm
    · rw [Cluster.set_node_ne _ _ hm, Cluster.set_node_ne _ _ hmp]
    · rw [hself]
      exact hhint
    · by_cases hbp : b = p
      · rw [hbp, hself]
        exact hhint
      · obtain ⟨hbn, -⟩ := Finset.mem_erase.mp (Finset.mem_toList.mp hb)
        rw [Cluster.set_node_ne _ _ hbn, Cluster.set_node_ne _ _ hbp]
        exact hbhint
  obtain ⟨w', hon, hrules, hall⟩ := Run.each visit h
  refine ⟨w', hon, hrules, fun p hp => ?_⟩
  by_cases hpn : p = n
  · rw [hpn]
    exact hrules.reachable.leaderHint (Node.state_eq_true.mpr ⟨hrules.term, hrules.role⟩)
  · exact hall p (Finset.mem_toList.mpr (Finset.mem_erase.mpr ⟨hpn, hp⟩))

omit hn in
/-- The appliers of the quorum hand over what is committed. -/
theorem exists_applied (h : Reachable M w) (hrun : ∀ p ∈ q, w.running p = true) {i : ℕ}
    (hi : ∀ p ∈ q, i ≤ (w.node p).commitIndex) :
    ∃ w', Onward M q w w' ∧ (∀ m, (w'.node m).log = (w.node m).log ∧
      (w'.node m).role = (w.node m).role ∧ (w'.node m).currentTerm = (w.node m).currentTerm) ∧
        ∀ p ∈ q, i ≤ (w'.node p).lastApplied := by
  have visit : ∀ p ∈ q.toList, ∀ x, (Reachable M x ∧ (∀ p ∈ q, x.running p = true) ∧
      (∀ p ∈ q, i ≤ (x.node p).commitIndex) ∧ ∀ m, (x.node m).log = (w.node m).log ∧
        (x.node m).role = (w.node m).role ∧ (x.node m).currentTerm = (w.node m).currentTerm) →
      ∃ x', Onward M q x x' ∧ (Reachable M x' ∧ (∀ p ∈ q, x'.running p = true) ∧
        (∀ p ∈ q, i ≤ (x'.node p).commitIndex) ∧ ∀ m, (x'.node m).log = (w.node m).log ∧
          (x'.node m).role = (w.node m).role ∧ (x'.node m).currentTerm = (w.node m).currentTerm) ∧
        i ≤ (x'.node p).lastApplied ∧
        ∀ b ∈ q.toList, i ≤ (x.node b).lastApplied → i ≤ (x'.node b).lastApplied := by
    rintro p hp x ⟨hreach, hrunx, hix, hsame⟩
    have hpq := Finset.mem_toList.mp hp
    obtain ⟨g, hg⟩ := hreach.exists_history
    have hstep : Cluster.step M x (.applier p) = some (x.deliver p) :=
      if_pos ⟨mem_ids_of_quorum hq hpq, hrunx p hpq⟩
    have hon : Onward M q x (x.deliver p) := .of_step (e := .applier p) hpq hstep
    have hnode : (x.deliver p).node p =
        { x.node p with lastApplied := (x.node p).commitIndex } := by
      show (x.set p (x.node p).applier.1).node p = _
      rw [Cluster.set_node_self, hg.applier_eq]
    have hrest : ∀ m ≠ p, (x.deliver p).node m = x.node m :=
      fun m hm => Cluster.set_node_ne x _ hm
    refine ⟨_, hon, ⟨Relation.ReflTransGen.trans hreach hon.steps, fun m hm => ?_, fun m hm => ?_,
      fun m => ?_⟩, ?_, fun b _ hb => ?_⟩
    · rw [hon.frame.1]
      exact hrunx m hm
    · by_cases hmp : m = p
      · rw [hmp, hnode]
        exact hix p hpq
      · rw [hrest m hmp]
        exact hix m hm
    · by_cases hmp : m = p
      · rw [hmp, hnode]
        exact hsame p
      · rw [hrest m hmp]
        exact hsame m
    · rw [hnode]
      exact hix p hpq
    · by_cases hbp : b = p
      · rw [hbp, hnode]
        exact hix p hpq
      · rw [hrest b hbp]
        exact hb
  obtain ⟨w', hon, ⟨-, -, -, hsame⟩, hall⟩ := Run.each visit
    ⟨h, hrun, hi, fun _ => ⟨rfl, rfl, rfl⟩⟩
  exact ⟨w', hon, hsame, fun p hp => hall p (Finset.mem_toList.mpr hp)⟩

end quorum

/-- A run after which one of the nodes leads a term that is new to all, and all know. -/
theorem exists_followed (hM : M.ids.length ≠ 1) (h : Reachable M w)
    (hq : Ledger.IsQuorum M.members q) (hrun : ∀ n ∈ q, w.running n = true) :
    ∃ w', Onward M q w w' ∧ ∃ n ∈ q, ∃ t, (w'.node n).state = (t, true) ∧
      ∀ p ∈ q, (w.node p).currentTerm < t ∧ (w'.node p).leaderHint = (n, t) := by
  obtain ⟨n, hn, w₁, hon₁, hr₁, hterms⟩ := exists_leader_of_quorum hM hq h hrun
  have hrules : Rules M q n (w₁.node n).currentTerm (w₁.node n).log w₁ := {
    reachable := Relation.ReflTransGen.trans h hon₁.steps
    running := fun p hp => by
      rw [hon₁.frame.1]
      exact hrun p hp
    role := hr₁
    term := rfl
    log := rfl
    latest := fun p hp => (hterms p hp).2 }
  obtain ⟨w₂, hon₂, hrules₂, hhint⟩ := hrules.herald hq hn
  exact ⟨w₂, hon₁.trans hon₂, n, hn, _, Node.state_eq_true.mpr ⟨hrules₂.term, hrules₂.role⟩,
    fun p hp => ⟨(hterms p hp).1, hhint p hp⟩⟩

/-- How much a node has applied. -/
theorem Sim.applied_length {g : Ghost Cmd} (h : Sim M g w) (i : String) :
    (w.applied i).length = (w.node i).lastApplied := by
  have := (h.node i).lastApplied
  have := h.commit_lt i
  rw [(h.node i).applied, List.length_drop, List.length_take]
  omega

/-- A run after which one of the nodes leads, and all have applied a new entry. -/
theorem exists_committed (hM : M.ids.length ≠ 1) (h : Reachable M w)
    (hq : Ledger.IsQuorum M.members q) (hrun : ∀ n ∈ q, w.running n = true) (command : Cmd) :
    ∃ w', Onward M q w w' ∧ ∃ n ∈ q, ∃ e : LogEntry Cmd,
      (w'.node n).state = (e.term, true) ∧ e.command = command ∧
      ∀ p ∈ q, (w.applied p).length < e.index ∧ (w'.applied p)[e.index - 1]? = some e := by
  obtain ⟨n, hn, w₁, hon₁, hr₁, hterms₁⟩ := exists_leader_of_quorum hM hq h hrun
  have hlatest₁ := fun p hp => (hterms₁ p hp).2
  have hmem := mem_ids_of_quorum hq hn
  have hreach₁ : Reachable M w₁ := Relation.ReflTransGen.trans h hon₁.steps
  obtain ⟨g₁, hg₁⟩ := hreach₁.exists_history
  -- the leader proposes
  set T := (w₁.node n).currentTerm with hT
  set e : LogEntry Cmd := ⟨T, (w₁.node n).log.length, command⟩ with he
  set led := (w₁.node n).log ++ [e] with hled
  set w₂ := w₁.set n ((w₁.node n).propose command).1 with hw₂
  have hprop : ((w₁.node n).propose command).1 = { w₁.node n with log := led } := by
    rw [Node.propose, if_neg (not_not.mpr hr₁)]
  have hon₂ : Onward M q w₁ w₂ := .of_step (e := .propose n command) hn (if_pos hmem)
  have hself : w₂.node n = { w₁.node n with log := led } := by
    rw [hw₂, Cluster.set_node_self, hprop]
  have hrules₂ : Rules M q n T led w₂ := {
    reachable := Relation.ReflTransGen.trans hreach₁ hon₂.steps
    running := fun p hp => by
      rw [hon₂.frame.1, hon₁.frame.1]
      exact hrun p hp
    role := by rw [hself]; exact hr₁
    term := by rw [hself]
    log := by rw [hself]
    latest := fun p hp => by
      by_cases hpn : p = n
      · rw [hpn, hself]
      · rw [hw₂, Cluster.set_node_ne _ _ hpn]
        exact hlatest₁ p hp }
  have hlast : led.length - 1 = e.index := by simp [hled, he]
  have hget : led[e.index]? = some e := List.getElem?_concat_length
  have hlt : e.index < led.length := Ledger.lt_length_of_getElem? hget
  -- it brings the entry to all, commits it, and says so
  obtain ⟨w₃, hon₃, hrules₃, hcur₃⟩ := hrules₂.replicate hq hn
  have hcommit := hrules₃.committed hq hn hM hcur₃ (hlast ▸ hget) rfl
  rw [hlast] at hcommit
  obtain ⟨w₄, hon₄, hrules₄, hall₄⟩ := hrules₃.notify hq hn hcur₃ hcommit hlt
  obtain ⟨w₅, hon₅, hsame, happlied⟩ := exists_applied hq hrules₄.reachable hrules₄.running
    fun p hp => (hall₄ p hp).1
  have hon := (((hon₁.trans hon₂).trans hon₃).trans hon₄).trans hon₅
  have hreach₅ : Reachable M w₅ := Relation.ReflTransGen.trans h hon.steps
  obtain ⟨g₅, hg₅⟩ := hreach₅.exists_history
  refine ⟨w₅, hon, n, hn, e, ?_, rfl, fun p hp => ⟨?_, ?_⟩⟩
  · obtain ⟨-, hrole, hterm⟩ := hsame n
    exact Node.state_eq_true.mpr ⟨hterm.trans hrules₄.term, hrole.trans hrules₄.role⟩
  · -- the leader's log had all that was applied
    obtain ⟨g, hg⟩ := h.exists_history
    have hforward := (hg.forward_steps hon₁.steps p).2
    have hle := (hg₁.node p).lastApplied
    have hbound := hg₁.commit_lt_of_leader hr₁ (hlatest₁ p hp)
    rw [hg.applied_length]
    show (w.node p).lastApplied < (w₁.node n).log.length
    omega
  · have hpos : 0 < e.index := List.length_pos_iff.mpr (hg₁.log_ne_nil n)
    have hidx := happlied p hp
    rw [(hg₅.node p).applied, List.getElem?_drop, Nat.add_sub_cancel' hpos,
      List.getElem?_take_of_lt (by omega), (hsame p).1]
    exact Ledger.getElem?_of_isPrefix (hall₄ p hp).2 hget

/-- **A majority can always make progress.**  From every reachable state of a cluster of more than
one node there is a run in which only the nodes of the running majority `q` take part, without a
crash, a restart or a lost message, and after which one of them leads and a new entry with the
given command is applied by all of them, at the same index; the other nodes are as before. -/
theorem majority_makes_progress (hM : M.ids.length ≠ 1) (h : Reachable M w)
    (hq : Ledger.IsQuorum M.members q) (hrun : ∀ n ∈ q, w.running n = true) (command : Cmd) :
    ∃ w', Onward M q w w' ∧ ∃ n ∈ q, ∃ e : LogEntry Cmd,
      (w'.node n).state = (e.term, true) ∧ e.command = command ∧
      (∀ p ∈ q, (w.applied p).length < e.index ∧ (w'.applied p)[e.index - 1]? = some e) ∧
      ∀ m ∉ q, w'.node m = w.node m ∧ w'.applied m = w.applied m := by
  obtain ⟨w', hon, n, hn, e, hstate, hcommand, happlied⟩ := exists_committed hM h hq hrun command
  exact ⟨w', hon, n, hn, e, hstate, hcommand, happlied, hon.frame.2⟩

/-- `a` is down, `c` knows of nothing yet, and `b` has what `a` has committed. -/
theorem trioCommits_stops :
    (Run.exec (Cluster.step trio) (Cluster.init trio) (trioCommits ++ [.stop "a"])).isSome =
      true := by
  decide +kernel

theorem trio_isQuorum : Ledger.IsQuorum trio.members {"b", "c"} :=
  ⟨by decide +kernel, by decide +kernel⟩

theorem trioCommits_running : ∀ n ∈ ({"b", "c"} : Finset String),
    (trioAfter _ trioCommits_stops).running n = true := by
  decide +kernel

/-- `b` and `c` commit 9 without `a`. -/
theorem majority_makes_progress_trio :
    ∃ w', Onward trio {"b", "c"} (trioAfter _ trioCommits_stops) w' ∧
    ∃ n ∈ ({"b", "c"} : Finset String), ∃ e : LogEntry ℕ,
      (w'.node n).state = (e.term, true) ∧ e.command = 9 ∧
      (∀ p ∈ ({"b", "c"} : Finset String),
        ((trioAfter _ trioCommits_stops).applied p).length < e.index ∧
          (w'.applied p)[e.index - 1]? = some e) ∧
      ∀ m ∉ ({"b", "c"} : Finset String),
        w'.node m = (trioAfter _ trioCommits_stops).node m ∧
          w'.applied m = (trioAfter _ trioCommits_stops).applied m :=
  majority_makes_progress (by decide) (trio_reachable trioCommits_stops) trio_isQuorum
    trioCommits_running 9

end Raft
