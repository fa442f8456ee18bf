/-
What a split of the in-memory network does.

As long as the nodes of `A`, at most half of all, are on other sides than the rest:

* **`Mesh.minority_cannot_elect`** — no node of `A` comes to lead in a term that it enters
  after the split: whom it asks across the split never hears of it, and what it counts are
  votes of `A`;
* **`Mesh.minority_cannot_commit`** — what a leader in `A` accepts after the split is applied
  by nobody: the entry does not get into a log outside `A`, and a majority has a node there.
-/
import Dssd.MemoryNetwork
import Dssd.RaftBook

open Function (update)
open Ledger.State (Ext)

namespace Mesh

open Raft (LogEntry Node Ghost Sim RequestVoteReply AppendEntriesArgs AppendEntriesReply)

variable {Cmd : Type} {S : Setup} {m m' : Mesh Cmd} {e : Event Cmd}
  {A : Finset String} {g n j : String} {c : Rpc Cmd} {k : ℕ}

/-- The nodes of `A` are on other sides than the rest. -/
def CutOff (S : Setup) (A : Finset String) (net : MemoryNetwork) : Prop :=
  ∀ a ∈ A, ∀ b ∈ S.M.ids, b ∉ A → net.side a ≠ net.side b

instance (S : Setup) (A : Finset String) (net : MemoryNetwork) : Decidable (CutOff S A net) :=
  inferInstanceAs (Decidable (∀ a ∈ A, ∀ b ∈ S.M.ids, b ∉ A → net.side a ≠ net.side b))

/-! ### Votes that have been asked for -/

/-- The term of the campaign that an RPC belongs to. -/
def Rpc.voteTerm (c : Rpc Cmd) : Option ℕ :=
  match c.request with
  | .vote args _ => some args.term
  | .append _ _ => none

/-- How many nodes of `A` node `n` has asked for their votes and not heard yet. -/
def asked (A : Finset String) (g n : String) (t : ℕ) (l : List (Rpc Cmd)) : ℕ :=
  l.countP fun c => c.group = g ∧ c.me = n ∧ c.peer ∈ A ∧ c.voteTerm = some t

section asked

variable {l new : List (Rpc Cmd)} {t : ℕ}

theorem asked_append : asked A g n t (l ++ new) = asked A g n t l + asked A g n t new :=
  List.countP_append

theorem asked_singleton : asked A g n t [c] =
    if c.group = g ∧ c.me = n ∧ c.peer ∈ A ∧ c.voteTerm = some t then 1 else 0 := by
  simp [asked, List.countP_singleton]

theorem asked_eraseIdx (hk : l[k]? = some c) :
    asked A g n t (l.eraseIdx k) + asked A g n t [c] = asked A g n t l := by
  obtain ⟨hlt, hc⟩ := List.getElem?_eq_some_iff.mp hk
  conv_rhs => rw [← List.take_append_drop k l, List.drop_eq_getElem_cons hlt, hc,
    ← List.singleton_append]
  rw [List.eraseIdx_eq_take_drop_succ, asked_append, asked_append, asked_append]
  omega

theorem asked_eraseIdx_le (k : ℕ) : asked A g n t (l.eraseIdx k) ≤ asked A g n t l :=
  (List.eraseIdx_sublist l k).countP_le

theorem asked_set {c' : Rpc Cmd} (hk : l[k]? = some c)
    (hc : asked A g n t [c'] = asked A g n t [c]) :
    asked A g n t (l.set k c') = asked A g n t l := by
  obtain ⟨hlt, -⟩ := List.getElem?_eq_some_iff.mp hk
  have hk' : (l.set k c')[k]? = some c' := by simp [hlt]
  rw [← asked_eraseIdx hk', ← asked_eraseIdx hk, hc, List.eraseIdx_set_eq]

end asked

/-- An RPC keeps its campaign while its stage changes. -/
theorem Request.voteTerm_sent {request : Request Cmd} (hs : c.request.sent = some request) :
    ({ c with request } : Rpc Cmd).voteTerm = c.voteTerm := by
  obtain ⟨h, me, peer, ⟨args, stage⟩ | ⟨args, stage⟩⟩ := c <;> cases stage <;> cases hs <;> rfl

variable [Inhabited Cmd]

/-- A run in which they are so whenever something happens. -/
def SplitSteps (S : Setup) (A : Finset String) (m m' : Mesh Cmd) : Prop :=
  Relation.ReflTransGen (Run.StepWhere (step S) fun m _ => CutOff S A m.net) m m'

theorem SplitSteps.steps (h : SplitSteps S A m m') : Steps S m m' :=
  Relation.ReflTransGen.mono (fun _ _ hs => Run.StepWhere.step hs) _ _ h

/-! ### Votes -/

theorem Request.voteTerm_handle {r : Node Cmd} {out : Node Cmd × Request Cmd}
    (ho : c.request.handle r = some out) :
    ({ c with request := out.2 } : Rpc Cmd).voteTerm = c.voteTerm := by
  obtain ⟨h, me, peer, ⟨args, stage⟩ | ⟨args, stage⟩⟩ := c <;> cases stage <;> cases ho <;> rfl

/-- A request that is handled has been sent. -/
theorem Request.sent_of_handle {request : Request Cmd} {r : Node Cmd}
    {out : Node Cmd × Request Cmd} (ho : request.handle r = some out) : request.sent = none := by
  rcases request with ⟨args, stage⟩ | ⟨args, stage⟩ <;> cases stage <;> cases ho <;> rfl

/-- After the split, node `n` of `A` is heard, in a campaign of a term above `t₀`, by nodes of
`A` only, counts their votes only, and so does not win. -/
structure Confined (A : Finset String) (g n : String) (t₀ : ℕ) (m : Mesh Cmd) : Prop where
  calls : ∀ c ∈ m.rpcs, c.group = g → c.me = n → ∀ t, c.voteTerm = some t → t₀ < t →
    c.request.sent = none → c.peer ∈ A
  count : ∀ t, t₀ < t → (m.raft n g).votes t + asked A g n t m.rpcs ≤ A.card
  leader : (m.raft n g).role = .leader → (m.raft n g).currentTerm ≤ t₀

/-- An RPC of a campaign is one that its node, in the term of the campaign or later, makes to a
peer. -/
theorem vote_of_mem {gh : Ghost Cmd} (hs : Sim S.M gh (m.group g)) (hc : c ∈ m.rpcs)
    (hg : c.group = g) {t : ℕ} (ht : c.voteTerm = some t) :
    c.me ∈ S.M.ids ∧ c.peer ∈ S.M.peers c.me ∧ t ≤ (m.raft c.me g).currentTerm := by
  have hcall : ∀ x, c.voteCall g = some x → x ∈ (m.group g).voteCalls := fun x hx =>
    List.mem_filterMap.mpr ⟨c, hc, hx⟩
  have hreturn : ∀ x, c.voteReturn g = some x → x ∈ (m.group g).voteReturns := fun x hx =>
    List.mem_filterMap.mpr ⟨c, hc, hx⟩
  obtain ⟨h, me, peer, ⟨args, stage⟩ | ⟨args, stage⟩⟩ := c <;> cases ht
  cases stage with
  | called | sent =>
    have hok := hs.voteCalls _ (hcall _ (if_pos hg))
    exact ⟨hok.candidate_mem, hok.peer_mem, hok.term⟩
  | answered reply =>
    have hok := hs.voteReturns _ (hreturn _ (if_pos hg))
    exact ⟨hok.candidate_mem, hok.peer_mem, hok.term⟩

theorem asked_eq_zero {gh : Ghost Cmd} (hs : Sim S.M gh (m.group g)) {t : ℕ}
    (ht : (m.raft n g).currentTerm < t) : asked A g n t m.rpcs = 0 := by
  refine List.countP_eq_zero.mpr fun c hc hcond => ?_
  simp only [decide_eq_true_eq] at hcond
  obtain ⟨hg, rfl, -, hterm⟩ := hcond
  have := (vote_of_mem hs hc hg hterm).2.2
  omega

/-- At the moment of the split. -/
theorem Confined.init {gh : Ghost Cmd} (hs : Sim S.M gh (m.group g)) :
    Confined A g n (m.raft n g).currentTerm m where
  calls c hc hg hn t ht hlt := by
    subst hn
    have := (vote_of_mem hs hc hg ht).2.2
    omega
  count t ht := by
    have htally : gh.tally n t = [] := by
      refine List.eq_nil_iff_forall_not_mem.mpr fun j hj => ?_
      have hle := (hs.tally n t j hj).2.1
      exact absurd (show (m.raft n g).currentTerm < t from ht) (not_lt.mpr hle)
    have hvotes : (m.raft n g).votes t = (gh.tally n t).length := hs.votes n t
    rw [hvotes, htally, asked_eq_zero hs ht]
    exact Nat.zero_le _
  leader _ := le_rfl

/-- No vote is counted, and no leader made. -/
structure Quiet (r r' : Node Cmd) : Prop where
  votes : r'.votes = r.votes
  leader : r'.role = .leader → r.role = .leader ∧ r'.currentTerm = r.currentTerm

omit [Inhabited Cmd] in
theorem Quiet.refl (r : Node Cmd) : Quiet r r := ⟨rfl, fun h => ⟨h, rfl⟩⟩

theorem Quiet.of_internal {r r' : Node Cmd} (hv : r'.votes = r.votes) (hi : Node.Internal r r')
    (hr : r'.role = .leader → r.role = .leader) : Quiet r r' :=
  ⟨hv, fun h => ⟨hr h, (hi.promotes h).1⟩⟩

omit [Inhabited Cmd] in
theorem votes_observe (r : Node Cmd) (t : ℕ) : (r.observe t).votes = r.votes := by
  unfold Node.observe
  split <;> rfl

theorem quiet_handle {r : Node Cmd} {request : Request Cmd} {out : Node Cmd × Request Cmd}
    (ho : request.handle r = some out) : Quiet r out.1 := by
  rcases request with ⟨args, stage⟩ | ⟨args, stage⟩ <;> cases stage <;> cases ho
  · refine .of_internal ?_ (Node.internal_handleRequestVote r args) Node.role_handleRequestVote
    show (r.handleRequestVote args).1.votes = r.votes
    unfold Node.handleRequestVote
    dsimp only
    split <;> exact votes_observe r _
  · refine .of_internal ?_ (Node.internal_handleAppendEntries r args) Node.role_handleAppendEntries
    show (r.handleAppendEntries args).1.votes = r.votes
    unfold Node.handleAppendEntries
    dsimp only
    split
    · exact votes_observe r _
    split
    · exact votes_observe r _
    · split <;> exact votes_observe r _

theorem quiet_onAppendReply (r : Node Cmd) (peer : String) (t : ℕ) (args : AppendEntriesArgs Cmd)
    (reply : AppendEntriesReply) : Quiet r (r.onAppendReply peer t args reply).1 := by
  refine .of_internal ?_ (Node.internal_onAppendReply r peer t args reply) Node.role_onAppendReply
  unfold Node.onAppendReply
  split
  · rfl
  split
  · rfl
  split
  · dsimp only
    split
    · rename_i r' hadv
      rcases Node.advanceLoop_spec hadv with rfl | ⟨k, c, e, rfl, -⟩ <;> rfl
    · rfl
  · split
    · rfl
    · split <;> rfl

omit [Inhabited Cmd] in
theorem raft_set {h i : String} {r : Node Cmd} : (m.set i h r).raft n g =
    if n = i ∧ g = h then r else m.raft n g := by
  unfold set
  by_cases hn : n = i
  · subst hn
    by_cases hg : g = h
    · subst hg
      simp
    · simp [hg]
  · simp [hn]

omit [Inhabited Cmd] in
theorem quiet_set {h i : String} {r : Node Cmd} (hr : Quiet (m.raft i h) r) :
    Quiet (m.raft n g) ((m.set i h r).raft n g) := by
  rw [raft_set]
  split
  · rename_i heq
    obtain ⟨rfl, rfl⟩ := heq
    exact hr
  · exact .refl _

/-- A vote counts once at most. -/
theorem votes_onVoteReply (r : Node Cmd) (u : ℕ) (reply : RequestVoteReply) (t : ℕ) :
    (r.onVoteReply u reply).votes t ≤ r.votes t + if t = u then 1 else 0 := by
  have hmore : update r.votes u (r.votes u + 1) t ≤ r.votes t + if t = u then 1 else 0 := by
    by_cases ht : t = u
    · subst ht
      simp
    · simp [ht]
  unfold Node.onVoteReply
  split
  · exact Nat.le_add_right _ _
  split
  · dsimp only
    split
    · unfold Node.becomeLeader
      split
      · exact hmore
      · unfold Node.propose
        split <;> exact hmore
    · exact hmore
  · exact Nat.le_add_right _ _

omit [Inhabited Cmd] in
/-- A step that counts no vote and asks nobody more. -/
theorem Confined.of_quiet {t₀ : ℕ} (h : Confined A g n t₀ m)
    (hq : Quiet (m.raft n g) (m'.raft n g))
    (hc : ∀ c ∈ m'.rpcs, c.group = g → c.me = n → ∀ t, c.voteTerm = some t → t₀ < t →
      c.request.sent = none → c.peer ∈ A)
    (ha : ∀ t, asked A g n t m'.rpcs ≤ asked A g n t m.rpcs) : Confined A g n t₀ m' where
  calls := hc
  count t ht := by
    have := h.count t ht
    have := ha t
    rw [hq.votes]
    omega
  leader hr := by
    obtain ⟨hrole, hterm⟩ := hq.leader hr
    rw [hterm]
    exact h.leader hrole

omit [Inhabited Cmd] in
/-- RPCs that end, or that are not begun. -/
theorem Confined.of_called {t₀ : ℕ} (h : Confined A g n t₀ m)
    (hq : Quiet (m.raft n g) (m'.raft n g))
    (hc : ∀ c ∈ m'.rpcs, c ∈ m.rpcs ∨ c.request.sent ≠ none)
    (ha : ∀ t, asked A g n t m'.rpcs ≤ asked A g n t m.rpcs) : Confined A g n t₀ m' :=
  h.of_quiet hq (fun c hcm hg hn t ht hlt hs => (hc c hcm).elim
    (fun hold => h.calls c hold hg hn t ht hlt hs) fun hnew => absurd hs hnew) ha

/-- `_start_election` on node `n` asks the nodes of `A` and counts its own vote. -/
theorem Confined.campaign {t₀ : ℕ} (h : Confined A g n t₀ m) {gh : Ghost Cmd}
    (hs : Sim S.M gh (m.group g)) (hnA : n ∈ A) (hn : n ∈ S.M.ids) :
    Confined A g n t₀ (m.campaign S n g) := by
  set T := (m.raft n g).currentTerm with hT
  set args := (m.raft n g).startElection.2 with hargs
  have hraft : (m.campaign S n g).raft n g = (m.raft n g).startElection.1 := by
    show (m.set n g (m.raft n g).startElection.1).raft n g = _
    rw [raft_set, if_pos ⟨rfl, rfl⟩]
  set new : List (Rpc Cmd) := (S.M.peers n).map fun p => ⟨g, n, p, .vote args .called⟩ with hnew
  have hrpcs : (m.campaign S n g).rpcs = m.rpcs ++ new := rfl
  refine ⟨fun c hc hg hme t ht hlt hsent => ?_, fun t ht => ?_, fun hr => ?_⟩
  · rw [hrpcs] at hc
    rcases List.mem_append.mp hc with hc | hc
    · exact h.calls c hc hg hme t ht hlt hsent
    · obtain ⟨p, -, rfl⟩ := List.mem_map.mp hc
      cases hsent
  · have hold := h.count t ht
    rw [hraft, hrpcs, asked_append]
    by_cases hterm : t = T + 1
    · subst hterm
      -- the peers in `A` are all of `A` but `n`
      have hpeers : asked A g n (T + 1) new ≤ (A.erase n).card := by
        rw [asked, hnew, List.countP_map, List.countP_eq_length_filter]
        rw [← List.toFinset_card_of_nodup ((S.M.peers_nodup n hn).filter _)]
        refine Finset.card_le_card fun p hp => ?_
        obtain ⟨hp, hcond⟩ := List.mem_filter.mp (List.mem_toFinset.mp hp)
        simp only [Function.comp_apply, decide_eq_true_eq] at hcond
        exact Finset.mem_erase.mpr ⟨((S.M.mem_peers n hn p).mp hp).2, hcond.2.2.1⟩
      have hzero := asked_eq_zero (A := A) hs (Nat.lt_succ_self T)
      have hcard := Finset.card_erase_of_mem hnA
      have hpos := Finset.card_pos.mpr ⟨n, hnA⟩
      show update (m.raft n g).votes (T + 1) 1 (T + 1) + _ ≤ _
      rw [Function.update_self, show asked A g n (T + 1) m.rpcs = 0 from hzero]
      omega
    · have hnone : asked A g n t new = 0 := by
        refine List.countP_eq_zero.mpr fun c hc hcond => ?_
        obtain ⟨p, -, rfl⟩ := List.mem_map.mp hc
        simp only [decide_eq_true_eq] at hcond
        exact hterm (Option.some_inj.mp hcond.2.2.2).symm
      show update (m.raft n g).votes (T + 1) 1 t + _ ≤ _
      rw [Function.update_of_ne hterm, hnone]
      exact hold
  · rw [hraft] at hr
    cases hr

/-- A reply to node `n` adds a vote of `A` at most, and `A` is too small. -/
theorem Confined.finish {t₀ : ℕ} (h : Confined A g n t₀ m) {gh : Ghost Cmd}
    (hs : Sim S.M gh (m.group g)) (hn : n ∈ S.M.ids) (hA : 2 * A.card ≤ S.M.ids.length)
    (hk : m.rpcs[k]? = some c) (hf : m.finish k c = some m') : Confined A g n t₀ m' := by
  obtain ⟨r, hr, rfl⟩ := Option.map_eq_some_iff.mp hf
  have hquiet : Quiet (m.raft n g) ((m.set c.me c.group r).raft n g) → Confined A g n t₀
      { m.set c.me c.group r with rpcs := m.rpcs.eraseIdx k } := fun hq =>
    h.of_called hq (fun d hd => .inl ((List.eraseIdx_sublist _ _).subset hd))
      fun t => asked_eraseIdx_le k
  obtain ⟨i, me, peer, ⟨args, stage⟩ | ⟨args, stage⟩⟩ := c <;> cases stage <;> cases hr
  swap
  · exact hquiet (quiet_set (quiet_onAppendReply _ _ _ _ _))
  rename_i reply
  by_cases hself : n = me ∧ g = i
  swap
  · refine hquiet ?_
    rw [raft_set, if_neg hself]
    exact .refl _
  obtain ⟨rfl, rfl⟩ := hself
  have hraft : ∀ r, ({ m.set n g r with rpcs := m.rpcs.eraseIdx k } : Mesh Cmd).raft n g = r :=
    fun r => by
      show (m.set n g r).raft n g = r
      rw [raft_set, if_pos ⟨rfl, rfl⟩]
  -- the peer that is heard in a later term is in `A`
  have hone : t₀ < args.term → 1 + asked A g n args.term (m.rpcs.eraseIdx k) =
      asked A g n args.term m.rpcs := by
    intro hlt
    have hpeer := h.calls _ (List.mem_of_getElem? hk) rfl rfl args.term rfl hlt rfl
    rw [← asked_eraseIdx hk, asked_singleton, if_pos ⟨rfl, rfl, hpeer, rfl⟩, Nat.add_comm]
  refine ⟨fun d hd => h.calls d ((List.eraseIdx_sublist _ _).subset hd), fun t ht => ?_,
    fun hlead => ?_⟩
  · rw [hraft]
    have hvotes := votes_onVoteReply (m.raft n g) args.term reply t
    have hcount := h.count t ht
    have hle : asked A g n t (m.rpcs.eraseIdx k) ≤ _ := asked_eraseIdx_le k
    by_cases hterm : t = args.term
    · subst hterm
      have := hone ht
      rw [if_pos rfl] at hvotes
      show ((m.raft n g).onVoteReply args.term reply).votes args.term +
        asked A g n args.term (m.rpcs.eraseIdx k) ≤ A.card
      omega
    · rw [if_neg hterm] at hvotes
      exact (Nat.add_le_add hvotes hle).trans hcount
  · rw [hraft] at hlead ⊢
    have hterm := ((Node.internal_onVoteReply _ _ _).promotes hlead).1
    by_cases hold : (m.raft n g).role = .leader
    · rw [hterm]
      exact h.leader hold
    -- to win the campaign takes more votes than `A` has
    obtain ⟨-, -, hsame, -, hmaj⟩ := Node.wins_of_onVoteReply hlead hold
    rw [hterm, hsame]
    by_contra hlt
    have := hone (not_le.mp hlt)
    have hcount := h.count args.term (not_le.mp hlt)
    have hpeers : (m.raft n g).cfg.peers = S.M.peers n := hs.peers_eq n
    have hlen := S.M.peers_length hn
    have hmaj' : ((m.raft n g).cfg.peers.length + 1) / 2 + 1 ≤
        (m.raft n g).votes args.term + 1 := hmaj
    rw [hpeers] at hmaj'
    omega

/-- **Every step keeps a node of `A` confined**, as long as `A` is cut off. -/
theorem Confined.step {t₀ : ℕ} (h : Confined A g n t₀ m) {gh : Ghost Cmd}
    (hs : Sim S.M gh (m.group g)) (hnA : n ∈ A) (hn : n ∈ S.M.ids)
    (hA : 2 * A.card ≤ S.M.ids.length) (hcut : CutOff S A m.net) (he : step S m e = some m') :
    Confined A g n t₀ m' := by
  cases e with
  | start i h' =>
    obtain ⟨-, ⟨⟩⟩ := Option.ite_none_right_eq_some.mp he
    have hq : Quiet (m.raft i h') (m.raft i h').start := ⟨rfl, fun hr => by cases hr⟩
    exact h.of_called (quiet_set hq) (fun _ hc => .inl hc) fun _ => le_rfl
  | stop i h' =>
    obtain ⟨-, ⟨⟩⟩ := Option.ite_none_right_eq_some.mp he
    exact h.of_called (.refl _) (fun _ hc => .inl hc) fun _ => le_rfl
  | electionTimeout i h' =>
    obtain ⟨-, ⟨⟩⟩ := Option.ite_none_right_eq_some.mp he
    by_cases hself : n = i ∧ g = h'
    · obtain ⟨rfl, rfl⟩ := hself
      exact h.campaign hs hnA hn
    -- another campaign
    refine h.of_called ?_ (fun c hc => ?_) fun t => ?_
    · show Quiet _ ((m.set i h' (m.raft i h').startElection.1).raft n g)
      rw [raft_set, if_neg hself]
      exact .refl _
    · refine (List.mem_append.mp hc).imp id fun hc => ?_
      obtain ⟨p, -, rfl⟩ := List.mem_map.mp hc
      exact Option.some_ne_none _
    · refine (asked_append.trans (Nat.add_eq_left.mpr ?_)).le
      refine List.countP_eq_zero.mpr fun c hc hcond => ?_
      obtain ⟨p, -, rfl⟩ := List.mem_map.mp hc
      simp only [decide_eq_true_eq] at hcond
      exact hself ⟨hcond.2.1.symm, hcond.1.symm⟩
  | propose i h' command =>
    obtain ⟨-, ⟨⟩⟩ := Option.ite_none_right_eq_some.mp he
    have hq : Quiet (m.raft i h') ((m.raft i h').propose command).1 := by
      unfold Node.propose
      split
      · exact .refl _
      · exact ⟨rfl, fun hr => ⟨hr, rfl⟩⟩
    exact h.of_called (quiet_set hq) (fun _ hc => .inl hc) fun _ => le_rfl
  | replicate i h' peer term =>
    rw [Mesh.step] at he
    split at he
    swap
    · cases he
    split at he <;> cases he
    · refine h.of_called (.refl _) (fun c hc => ?_) fun t => ?_
      · refine (List.mem_append.mp hc).imp id fun hc => ?_
        rw [List.mem_singleton.mp hc]
        exact Option.some_ne_none _
      · refine (asked_append.trans (Nat.add_eq_left.mpr ?_)).le
        exact asked_singleton.trans (if_neg fun hcond => by cases hcond.2.2.2)
    · exact h
  | applier i h' =>
    obtain ⟨-, ⟨⟩⟩ := Option.ite_none_right_eq_some.mp he
    have hq : Quiet (m.raft i h') (m.raft i h').applier.1 := ⟨rfl, fun hr => ⟨hr, rfl⟩⟩
    exact h.of_called (quiet_set hq) (fun _ hc => .inl hc) fun _ => le_rfl
  | send k random =>
    obtain ⟨c, hk, hsend⟩ := Option.bind_eq_some_iff.mp he
    obtain ⟨request, hreq, rfl⟩ := Option.map_eq_some_iff.mp hsend
    split
    swap
    · exact h.of_called (.refl _) (fun d hd => .inl ((List.eraseIdx_sublist _ _).subset hd))
        fun t => asked_eraseIdx_le k
    rename_i hdel
    have hterm := Request.voteTerm_sent hreq
    refine h.of_quiet (.refl _) (fun d hd hg hme t ht hlt hsent => ?_) fun t => ?_
    · rcases List.mem_or_eq_of_mem_set hd with hd | rfl
      · exact h.calls d hd hg hme t ht hlt hsent
      -- what is sent does not cross the split
      · rw [hterm] at ht
        obtain ⟨hmem, hpeer, -⟩ := vote_of_mem hs (List.mem_of_getElem? hk) hg ht
        by_contra hout
        exact hcut c.me (show c.me ∈ A from hme ▸ hnA) c.peer
          ((S.M.mem_peers c.me hmem c.peer).mp hpeer).1 hout hdel.1.2.2
    · refine (asked_set hk ?_).le
      rw [asked_singleton, asked_singleton, hterm]
  | arrive k random =>
    obtain ⟨c, hk, harr⟩ := Option.bind_eq_some_iff.mp he
    obtain ⟨out, ho, rfl⟩ := Option.map_eq_some_iff.mp harr
    split
    · exact h.of_called (.refl _) (fun d hd => .inl ((List.eraseIdx_sublist _ _).subset hd))
        fun t => asked_eraseIdx_le k
    have hterm := Request.voteTerm_handle ho
    refine h.of_quiet (quiet_set (quiet_handle ho)) (fun d hd hg hme t ht hlt hsent => ?_)
      fun t => ?_
    · rcases List.mem_append.mp hd with hd | hd
      · exact h.calls d ((List.eraseIdx_sublist _ _).subset hd) hg hme t ht hlt hsent
      · split at hd
        swap
        · cases hd
        obtain rfl := List.mem_singleton.mp hd
        rw [hterm] at ht
        exact h.calls c (List.mem_of_getElem? hk) hg hme t ht hlt (Request.sent_of_handle ho)
    · have hsame : asked A g n t [{ c with request := out.2 }] = asked A g n t [c] := by
        rw [asked_singleton, asked_singleton, hterm]
      have hone := asked_eraseIdx (A := A) (g := g) (n := n) (t := t) hk
      refine asked_append.trans_le ?_
      split
      · exact (hsame ▸ hone).le
      · exact asked_eraseIdx_le k
  | finish k =>
    obtain ⟨c, hk, hf⟩ := Option.bind_eq_some_iff.mp he
    exact h.finish hs hn hA hk hf
  | drop k =>
    cases he
    exact h.of_called (.refl _) (fun d hd => .inl ((List.eraseIdx_sublist _ _).subset hd))
      fun t => asked_eraseIdx_le k
  | kill i | revive i | partition groups | setLoss fraction =>
    cases he
    exact h.of_called (.refl _) (fun _ hc => .inl hc) fun _ => le_rfl

/-- **A minority that is cut off elects nobody.**  As long as the nodes of `A`, at most half of
all, are on other sides than the rest, a node of `A` leads no term above the one it was in at
the split. -/
theorem minority_cannot_elect (h : Reachable S m) (hA : 2 * A.card ≤ S.M.ids.length)
    (hs : SplitSteps S A m m') (hnA : n ∈ A) (hn : n ∈ S.M.ids) (g : String)
    (hr : (m'.raft n g).role = .leader) :
    (m'.raft n g).currentTerm ≤ (m.raft n g).currentTerm := by
  obtain ⟨gh, hgh⟩ := (group_reachable h g).exists_history
  have key : Reachable S m' ∧ Confined A g n (m.raft n g).currentTerm m' := by
    refine Run.invariant (P := fun x => Reachable S x ∧ Confined A g n (m.raft n g).currentTerm x)
      ?_ hs ⟨h, .init hgh⟩
    rintro x x' ⟨e, hcut, he⟩ ⟨hx, hc⟩
    obtain ⟨gx, hgx⟩ := (group_reachable hx g).exists_history
    exact ⟨Relation.ReflTransGen.tail hx ⟨e, he⟩, hc.step hgx hnA hn hA hcut he⟩
  exact key.2.leader hr

/-! ### Entries -/

omit [Inhabited Cmd] in
theorem mem_of_mem_mergeEntries {f : LogEntry Cmd} {es log : List (LogEntry Cmd)} {i : ℕ}
    (h : f ∈ Raft.Node.mergeEntries log i es) : f ∈ log ∨ f ∈ es := by
  induction es generalizing i with
  | nil => exact .inl h
  | cons entry rest ih =>
    rw [Raft.Node.mergeEntries] at h
    split at h
    · exact (ih h).imp id (List.mem_cons_of_mem _)
    · exact (List.mem_append.mp h).imp List.mem_of_mem_take id

/-- The entries that an RPC takes to its peer. -/
def Rpc.entries (c : Rpc Cmd) : List (LogEntry Cmd) :=
  match c.request with
  | .append args .called | .append args .sent => args.entries
  | _ => []

omit [Inhabited Cmd] in
theorem Request.entries_sent {request : Request Cmd} (hs : c.request.sent = some request) :
    ({ c with request } : Rpc Cmd).entries = c.entries := by
  obtain ⟨h, me, peer, ⟨args, stage⟩ | ⟨args, stage⟩⟩ := c <;> cases stage <;> cases hs <;> rfl

theorem Request.entries_handle {r : Node Cmd} {out : Node Cmd × Request Cmd}
    (ho : c.request.handle r = some out) :
    ({ c with request := out.2 } : Rpc Cmd).entries = [] := by
  obtain ⟨h, me, peer, ⟨args, stage⟩ | ⟨args, stage⟩⟩ := c <;> cases stage <;> cases ho <;> rfl

/-- A handler puts nothing into a log but what it is sent. -/
theorem mem_log_handle {r : Node Cmd} {out : Node Cmd × Request Cmd}
    (ho : c.request.handle r = some out) {f : LogEntry Cmd} (hf : f ∈ out.1.log) :
    f ∈ r.log ∨ f ∈ c.entries := by
  obtain ⟨h, me, peer, ⟨args, stage⟩ | ⟨args, stage⟩⟩ := c <;> cases stage <;> cases ho
  · left
    change f ∈ (r.handleRequestVote args).1.log at hf
    unfold Node.handleRequestVote at hf
    dsimp only at hf
    split at hf <;> exact Node.log_observe r _ ▸ hf
  · change f ∈ (r.handleAppendEntries args).1.log at hf
    have hobs := Node.log_observe r args.term
    unfold Node.handleAppendEntries at hf
    dsimp only at hf
    split at hf
    · exact .inl (hobs ▸ hf)
    split at hf
    · exact .inl (hobs ▸ hf)
    · rw [← hobs]
      split at hf <;> exact mem_of_mem_mergeEntries hf

/-- The task of a caller puts nothing into its log but the no-op of a new leader. -/
theorem mem_log_resume {r r' : Node Cmd} (hr : c.request.resume r c.peer = some r')
    {f : LogEntry Cmd} (hf : f ∈ r'.log) :
    f ∈ r.log ∨ r'.role = .leader ∧ f.term = r'.currentTerm := by
  obtain ⟨h, me, peer, ⟨args, stage⟩ | ⟨args, stage⟩⟩ := c <;> cases stage <;> cases hr
  · rename_i reply
    unfold Node.onVoteReply at hf ⊢
    split at hf
    · exact .inl hf
    split at hf
    · rename_i hcond
      dsimp only at hf
      split at hf
      · rename_i hterm hmaj
        rw [Node.becomeLeader, if_neg (by simp [hcond.1]), Node.propose, if_neg (by simp)] at hf
        rw [if_neg hterm, if_pos hcond]
        dsimp only
        rw [if_pos hmaj, Node.becomeLeader, if_neg (by simp [hcond.1]), Node.propose,
          if_neg (by simp)]
        exact (List.mem_append.mp hf).imp id fun hf => ⟨rfl, by rw [List.mem_singleton.mp hf]⟩
      · exact .inl hf
    · exact .inl hf
  · rename_i reply
    left
    unfold Node.onAppendReply at hf
    split at hf
    · exact hf
    split at hf
    · exact hf
    split at hf
    · dsimp only at hf
      split at hf
      · rename_i r' hadv
        rcases Node.advanceLoop_spec hadv with rfl | ⟨k, c, e, rfl, -⟩ <;> exact hf
      · exact hf
    · split at hf
      · exact hf
      · split at hf <;> exact hf

/-- The ticket is not in a log outside `A`, nor on its way to one. -/
structure Sealed (S : Setup) (A : Finset String) (g : String) (ticket : ℕ × ℕ) (m : Mesh Cmd) :
    Prop where
  logs : ∀ j ∈ S.M.ids, j ∉ A → ∀ f ∈ (m.raft j g).log, f.ticket ≠ ticket
  rpcs : ∀ c ∈ m.rpcs, c.group = g → c.peer ∉ A → (c.me ∈ A → c.request.sent = none) →
    ∀ f ∈ c.entries, f.ticket ≠ ticket

/-- An RPC with entries is an append request that its node makes to a peer. -/
theorem append_of_mem {gh : Ghost Cmd} (hs : Sim S.M gh (m.group g)) (hc : c ∈ m.rpcs)
    (hg : c.group = g) {f : LogEntry Cmd} (hf : f ∈ c.entries) : ∃ args,
      Raft.AppendCallOk S.M gh ⟨c.me, c.peer, args⟩ ∧ args.entries = c.entries := by
  have hcall : ∀ x, c.appendCall g = some x → x ∈ (m.group g).appendCalls := fun x hx =>
    List.mem_filterMap.mpr ⟨c, hc, hx⟩
  obtain ⟨h, me, peer, ⟨args, stage⟩ | ⟨args, stage⟩⟩ := c
  · cases hf
  cases stage with
  | called | sent => exact ⟨args, hs.appendCalls _ (hcall _ (if_pos hg)), rfl⟩
  | answered reply => cases hf

omit [Inhabited Cmd] in
theorem Sealed.logs_set {ticket : ℕ × ℕ} (h : Sealed S A g ticket m) {i h' : String}
    {r : Node Cmd} (hr : i ∈ S.M.ids → i ∉ A → g = h' → ∀ f ∈ r.log, f.ticket ≠ ticket) :
    ∀ j ∈ S.M.ids, j ∉ A → ∀ f ∈ ((m.set i h' r).raft j g).log, f.ticket ≠ ticket := by
  intro j hj hjA f hf
  rw [raft_set] at hf
  split at hf
  · rename_i heq
    obtain ⟨rfl, hg⟩ := heq
    exact hr hj hjA hg f hf
  · exact h.logs j hj hjA f hf

/-- **Every step keeps a ticket inside `A`**, as long as `A` is cut off and nobody outside leads
its term. -/
theorem Sealed.step {ticket : ℕ × ℕ} (h : Sealed S A g ticket m) {gh : Ghost Cmd}
    (hs : Sim S.M gh (m.group g)) (hcut : CutOff S A m.net) (he : step S m e = some m')
    (hlead : ∀ j ∈ S.M.ids, j ∉ A → (m'.raft j g).role = .leader →
      (m'.raft j g).currentTerm ≠ ticket.2) : Sealed S A g ticket m' := by
  -- what a new leader or a leader that proposes adds is of its term
  have hown : ∀ {i h' : String} {r : Node Cmd}, m'.raft i h' = r →
      (∀ f ∈ r.log, f ∈ (m.raft i h').log ∨ r.role = .leader ∧ f.term = r.currentTerm) →
      i ∈ S.M.ids → i ∉ A → g = h' → ∀ f ∈ r.log, f.ticket ≠ ticket := by
    rintro i h' r rfl hlog hi hiA rfl f hf hft
    rcases hlog f hf with hold | ⟨hrole, hterm⟩
    · exact h.logs i hi hiA f hold hft
    · exact hlead i hi hiA hrole (hterm.symm.trans (congrArg Prod.snd hft))
  have hraft : ∀ {i h' : String} {r : Node Cmd}, (m.set i h' r).raft i h' = r := fun {i h' r} => by
    rw [raft_set, if_pos ⟨rfl, rfl⟩]
  cases e with
  | start i h' =>
    obtain ⟨-, ⟨⟩⟩ := Option.ite_none_right_eq_some.mp he
    exact ⟨h.logs_set fun hi hiA hg => hg ▸ h.logs i hi hiA, h.rpcs⟩
  | stop i h' =>
    obtain ⟨-, ⟨⟩⟩ := Option.ite_none_right_eq_some.mp he
    exact ⟨h.logs, h.rpcs⟩
  | electionTimeout i h' =>
    obtain ⟨-, ⟨⟩⟩ := Option.ite_none_right_eq_some.mp he
    refine ⟨h.logs_set (r := (m.raft i h').startElection.1) fun hi hiA hg => hg ▸ h.logs i hi hiA,
      fun c hc hg hpeer hme f hf => ?_⟩
    rcases List.mem_append.mp hc with hc | hc
    · exact h.rpcs c hc hg hpeer hme f hf
    · obtain ⟨p, -, rfl⟩ := List.mem_map.mp hc
      cases hf
  | propose i h' command =>
    obtain ⟨-, ⟨⟩⟩ := Option.ite_none_right_eq_some.mp he
    refine ⟨h.logs_set (hown hraft fun f hf => ?_), h.rpcs⟩
    unfold Node.propose at hf ⊢
    split at hf
    · exact .inl hf
    · rename_i hrole
      rw [if_neg hrole]
      exact (List.mem_append.mp hf).imp id
        fun hf => ⟨not_not.mp hrole, by rw [List.mem_singleton.mp hf]⟩
  | replicate i h' peer term =>
    rw [Mesh.step] at he
    split at he
    swap
    · cases he
    rename_i hcond
    split at he <;> cases he
    · rename_i args hargs
      refine ⟨h.logs, fun c hc hg hpeer hme f hf => ?_⟩
      rcases List.mem_append.mp hc with hc | hc
      · exact h.rpcs c hc hg hpeer hme f hf
      · obtain rfl := List.mem_singleton.mp hc
        obtain rfl : h' = g := hg
        have hiA : i ∉ A := fun hiA => Option.some_ne_none _ (hme hiA)
        obtain ⟨-, -, -, -, -, htail, -⟩ := Node.replicateTo_spec hargs
        change f ∈ args.entries at hf
        rw [htail.entries] at hf
        exact h.logs i hcond.1 hiA f (List.mem_of_mem_drop hf)
    · exact h
  | applier i h' =>
    obtain ⟨-, ⟨⟩⟩ := Option.ite_none_right_eq_some.mp he
    exact ⟨h.logs_set (r := (m.raft i h').applier.1) fun hi hiA hg => hg ▸ h.logs i hi hiA, h.rpcs⟩
  | send k random =>
    obtain ⟨c, hk, hsend⟩ := Option.bind_eq_some_iff.mp he
    obtain ⟨request, hreq, rfl⟩ := Option.map_eq_some_iff.mp hsend
    have hc := List.mem_of_getElem? hk
    split
    swap
    · exact ⟨h.logs, fun d hd => h.rpcs d ((List.eraseIdx_sublist _ _).subset hd)⟩
    rename_i hdel
    refine ⟨h.logs, fun d hd hg hpeer hme f hf => ?_⟩
    rcases List.mem_or_eq_of_mem_set hd with hd | rfl
    · exact h.rpcs d hd hg hpeer hme f hf
    rw [Request.entries_sent hreq] at hf
    refine h.rpcs c hc hg hpeer (fun hmeA => ?_) f hf
    -- what is sent does not cross the split
    obtain ⟨args, hok, -⟩ := append_of_mem hs hc hg hf
    exact absurd hdel.1.2.2 (hcut c.me hmeA c.peer
      ((S.M.mem_peers c.me hok.leader_mem c.peer).mp hok.peer_mem).1 hpeer)
  | arrive k random =>
    obtain ⟨c, hk, harr⟩ := Option.bind_eq_some_iff.mp he
    obtain ⟨out, ho, rfl⟩ := Option.map_eq_some_iff.mp harr
    have hc := List.mem_of_getElem? hk
    split
    · exact ⟨h.logs, fun d hd => h.rpcs d ((List.eraseIdx_sublist _ _).subset hd)⟩
    refine ⟨h.logs_set fun hi hiA hg f hf => ?_, fun d hd hg hpeer hme f hf => ?_⟩
    · rcases mem_log_handle ho hf with hf | hf
      · exact h.logs _ hi hiA f (hg ▸ hf)
      · exact h.rpcs c hc hg.symm hiA (fun _ => Request.sent_of_handle ho) f hf
    · rcases List.mem_append.mp hd with hd | hd
      · exact h.rpcs d ((List.eraseIdx_sublist _ _).subset hd) hg hpeer hme f hf
      · split at hd
        swap
        · cases hd
        obtain rfl := List.mem_singleton.mp hd
        rw [Request.entries_handle ho] at hf
        cases hf
  | finish k =>
    obtain ⟨c, hk, hfin⟩ := Option.bind_eq_some_iff.mp he
    obtain ⟨r, hr, rfl⟩ := Option.map_eq_some_iff.mp hfin
    exact ⟨h.logs_set (hown hraft fun f hf => mem_log_resume hr hf),
      fun d hd => h.rpcs d ((List.eraseIdx_sublist _ _).subset hd)⟩
  | drop k =>
    cases he
    exact ⟨h.logs, fun d hd => h.rpcs d ((List.eraseIdx_sublist _ _).subset hd)⟩
  | kill i | revive i | partition groups | setLoss fraction =>
    cases he
    exact ⟨h.logs, h.rpcs⟩

/-- A ticket that has not been given yet is nowhere. -/
theorem Sealed.of_fresh {ticket : ℕ × ℕ} {gh : Ghost Cmd} (hs : Sim S.M gh (m.group g))
    (hpos : ticket.1 ≠ 0) (hfresh : gh.written ticket = none) : Sealed S A g ticket m where
  logs j _ _ f hf hft := by
    obtain ⟨p, hp⟩ := List.mem_iff_getElem?.mp hf
    have hidx : f.index = p := hs.index_eq (i := j) hp
    have hmem : f ∈ ((m.group g).node j).log.drop 1 := by
      refine List.mem_iff_getElem?.mpr ⟨p - 1, ?_⟩
      have hne : p ≠ 0 := by
        rw [← hft] at hpos
        exact hidx ▸ hpos
      rw [List.getElem?_drop, show 1 + (p - 1) = p by omega]
      exact hp
    rw [← hft, hs.written_of_mem hmem] at hfresh
    cases hfresh
  rpcs c hc hg _ _ f hf hft := by
    obtain ⟨args, hok, hargs⟩ := append_of_mem hs hc hg hf
    rw [← hargs, hok.args.entries] at hf
    obtain ⟨p, hp⟩ := List.mem_iff_getElem?.mp (List.mem_of_mem_take hf)
    rw [List.getElem?_drop] at hp
    rw [← hft, hs.written_of_ledger (by omega) hp] at hfresh
    cases hfresh

/-- What has not got out of `A` is applied by nobody. -/
theorem Sealed.not_applied {ticket : ℕ × ℕ} (h : Sealed S A g ticket m) {gh : Ghost Cmd}
    (hs : Sim S.M gh (m.group g)) (hA : 2 * A.card ≤ S.M.ids.length) {f : LogEntry Cmd}
    (hf : f ∈ m.applied j g) : f.ticket ≠ ticket := by
  have happ : m.applied j g = _ := (hs.node j).applied
  rw [happ] at hf
  obtain ⟨p, hp⟩ := List.mem_iff_getElem?.mp hf
  rw [List.getElem?_drop] at hp
  have hlt := Ledger.lt_length_of_getElem? hp
  rw [List.length_take] at hlt
  have hlog := Ledger.getElem?_of_isPrefix (List.take_prefix _ _) hp
  have hle := (hs.node j).lastApplied
  rcases (hs.node j).commit with hzero | ⟨u, -, N, hN, hch, hh⟩
  · omega
  -- a majority has it, and one of those is not in `A`
  obtain ⟨-, q, hq, hack⟩ := id hch
  obtain ⟨i, hi, hiA⟩ : ∃ i ∈ q, i ∉ A := by
    by_contra hall
    push Not at hall
    have hcard := Finset.card_le_card (show q ⊆ A from hall)
    have hmaj := hq.2
    rw [S.M.card_members] at hmaj
    omega
  have hheld := hch.holds_log hs.inv (hack i hi)
  rw [(hs.node i).log] at hheld
  have hagree := Raft.agree_of_holds (hN.trans_lt hch.1.lt_length) hh (hheld.le hN)
  have hin : ((m.group g).node i).log[1 + p]? = some f := by
    rw [← hagree.getElem?_eq (by omega)]
    exact hlog
  exact h.logs i (S.M.mem_members.mp (hq.1 hi)) hiA f (List.mem_of_getElem? hin)

/-- **A minority that is cut off commits nothing new.**  When `propose` on a node of `A` returns
the ticket `(i, t, True)`, then as long as the nodes of `A`, at most half of all, are on other
sides than the rest, nobody applies the ticket, and no log outside `A` has it. -/
theorem minority_cannot_commit {m₁ : Mesh Cmd} (h : Reachable S m)
    (hA : 2 * A.card ≤ S.M.ids.length) (hnA : n ∈ A) {command : Cmd} {i t : ℕ}
    (hp : ((m.raft n g).propose command).2 = (i, t, true))
    (he : step S m (.propose n g command) = some m₁) (hs : SplitSteps S A m₁ m') :
    (∀ j, ∀ f ∈ m'.applied j g, f.ticket ≠ (i, t)) ∧
      ∀ j ∈ S.M.ids, j ∉ A → ∀ f ∈ (m'.raft j g).log, f.ticket ≠ (i, t) := by
  obtain ⟨gh, hgh⟩ := (group_reachable h g).exists_history
  obtain ⟨hr, rfl, rfl, -⟩ := Node.propose_eq hp
  have hfresh : gh.written ((m.raft n g).log.length, (m.raft n g).currentTerm) = none := by
    rw [Ghost.written]
    split
    · rfl
    · rw [show (gh.ledger (m.raft n g).currentTerm)[(m.raft n g).log.length]? = none from
        hgh.fresh_ticket hr]
      rfl
  have hpos : (m.raft n g).log.length ≠ 0 :=
    (List.length_pos_iff.mpr (hgh.log_ne_nil n)).ne'
  have hsealed : Sealed S A g ((m.raft n g).log.length, (m.raft n g).currentTerm) m :=
    .of_fresh hgh hpos hfresh
  have hown : gh.owner (m.raft n g).currentTerm = some n := ((hgh.node n).leader hr).1
  obtain ⟨g₁, hx₁, hg₁⟩ := hgh.steps (group_steps he g)
  have key : (∃ gx, Ext g₁.toState gx.toState ∧ Sim S.M gx (m'.group g)) ∧
      Sealed S A g ((m.raft n g).log.length, (m.raft n g).currentTerm) m' := by
    refine Run.invariant (P := fun x => (∃ gx, Ext g₁.toState gx.toState ∧
      Sim S.M gx (x.group g)) ∧
      Sealed S A g ((m.raft n g).log.length, (m.raft n g).currentTerm) x) ?_ hs
      ⟨⟨g₁, Ext.refl _, hg₁⟩, ?_⟩
    · rintro x x' ⟨e, hcut, he'⟩ ⟨⟨gx, hx, hgx⟩, hsx⟩
      obtain ⟨gx', hx', hgx'⟩ := hgx.steps (group_steps he' g)
      refine ⟨⟨gx', hx.trans hx', hgx'⟩, hsx.step hgx hcut he' fun j hj hjA hlead hterm => ?_⟩
      -- the term is owned by `n`
      have hown' := hx'.owner _ _ (hx.owner _ _ (hx₁.owner _ _ hown))
      have hother := ((hgx'.node j).leader hlead).1
      rw [show ((x'.group g).node j).currentTerm = (m.raft n g).currentTerm from hterm, hown']
        at hother
      exact hjA (Option.some_inj.mp hother ▸ hnA)
    · obtain ⟨-, ⟨⟩⟩ := Option.ite_none_right_eq_some.mp he
      exact ⟨hsealed.logs_set fun _ hn' => absurd hnA hn', hsealed.rpcs⟩
  obtain ⟨⟨gx, -, hgx⟩, hsx⟩ := key
  exact ⟨fun j f hf => hsx.not_applied hgx hA hf, hsx.logs⟩

/-! ### A leader that is cut off -/

/-- Three nodes, and one group. -/
def trio : Setup where
  M := Raft.trio
  groups := [""]

/-- `a` wins term 1 with the vote of `b`, and is then cut off. -/
def trioSplits : List (Event ℕ) :=
  [.start "a" "", .start "b" "", .start "c" "", .electionTimeout "a" "", .send 0 0, .arrive 0 0,
    .finish 1, .partition (some [["a"], ["b", "c"]])]

/-- It has accepted 7, and tries to replicate it, while `b` asks `c` for its vote. -/
def trioTries : List (Event ℕ) :=
  [.replicate "a" "" "b" 1, .send 1 0, .electionTimeout "b" "", .send 2 0, .arrive 2 0, .finish 2]

theorem trioSplits_runs : (Run.exec (step trio) (init trio) trioSplits).isSome = true := by
  decide +kernel

/-- The moment of the split. -/
def trioSplit : Mesh ℕ := (Run.exec (step trio) (init trio) trioSplits).get trioSplits_runs

theorem trioSplit_reachable : Reachable trio trioSplit := Run.steps_get trioSplits_runs

theorem trioProposes_runs : (step trio trioSplit (.propose "a" "" 7)).isSome = true := by
  decide +kernel

/-- `a` has accepted 7. -/
def trioProposed : Mesh ℕ := (step trio trioSplit (.propose "a" "" 7)).get trioProposes_runs

theorem trioTries_runs : (Run.execWhere (step trio) (fun m _ => CutOff trio {"a"} m.net)
    trioProposed trioTries).isSome = true := by
  decide +kernel

/-- `b` leads term 2. -/
def trioTried : Mesh ℕ := (Run.execWhere (step trio) (fun m _ => CutOff trio {"a"} m.net)
  trioProposed trioTries).get trioTries_runs

theorem trioTried_steps : SplitSteps trio {"a"} trioProposed trioTried :=
  Run.stepsWhere_get trioTries_runs

/-- `a` still leads, but no later term than before. -/
theorem minority_cannot_elect_trio : (trioTried.raft "b" "").state = (2, true) ∧
    (trioTried.raft "a" "").role = .leader ∧
    (trioTried.raft "a" "").currentTerm ≤ (trioProposed.raft "a" "").currentTerm :=
  ⟨by decide +kernel, by decide +kernel, minority_cannot_elect
    (Relation.ReflTransGen.tail trioSplit_reachable ⟨_, (Option.some_get trioProposes_runs).symm⟩)
    (by decide) trioTried_steps (by decide) (by decide) "" (by decide +kernel)⟩

/-- It has 7 in its log, and nobody else gets it. -/
theorem minority_cannot_commit_trio :
    ((trioTried.raft "a" "").log.map LogEntry.command = [0, 0, 7]) ∧
      ∀ j ∈ trio.M.ids, j ∉ ({"a"} : Finset String) → ∀ f ∈ (trioTried.raft j "").log,
        f.ticket ≠ (2, 1) :=
  ⟨by decide +kernel, (minority_cannot_commit trioSplit_reachable (by decide) (by decide)
    (by decide +kernel) (Option.some_get trioProposes_runs).symm trioTried_steps).2⟩

end Mesh
