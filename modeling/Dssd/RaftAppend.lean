/-
What an append request says, and what is left of it when it is handled.

A request carries the sender's whole log from some index on (`replicateTo_spec`).
If the follower accepts it, then its log has the sender's log as a prefix
(`handle_isPrefix`), whatever was behind the entries it already had.

* `commits_what_sender_had` — so it commits only what the sender had, although
  it bounds `commit_index` by its own last index;
* `late_append_changes_nothing` — so an older request of the same term finds all
  it carries, and nothing is truncated.
-/
import Dssd.RaftSafety

open Function (update)
open Ledger.State (Ext)

namespace Raft

variable {Cmd : Type} {M : Membership} {g g' : Ghost Cmd} {w w' : Cluster Cmd}

namespace Node

variable {r : Node Cmd} {args : AppendEntriesArgs Cmd} {led : List (LogEntry Cmd)}

/-! ### Sending -/

/-- A request is the tail of the leader's log from `_next_index` on, with its commit index. -/
theorem replicateTo_spec {peer : String} {t : ℕ} (h : r.replicateTo peer t = .ok (some args)) :
    r.role = .leader ∧ r.currentTerm = t ∧ r.nextIndex peer = some (args.prevLogIndex + 1) ∧
      args.term = t ∧ args.leaderId = r.cfg.id ∧ args.TailOf r.log ∧
        args.leaderCommit = r.commitIndex := by
  unfold replicateTo at h
  split at h
  · cases h
  rename_i hcond
  push Not at hcond
  split at h
  · cases h
  · cases h
  rename_i prev hn
  split at h
  · cases h
  rename_i e he
  cases h
  -- all accesses went well, and what is sent is read off
  exact ⟨hcond.1, hcond.2, hn, rfl, rfl, ⟨by rw [he]; rfl, rfl⟩, rfl⟩

theorem prev_lt_of_tailOf (h : args.TailOf led) : args.prevLogIndex < led.length := by
  obtain ⟨e, he, -⟩ := Option.map_eq_some_iff.mp h.prev
  exact Ledger.lt_length_of_getElem? he

/-- The last index a request reaches. -/
theorem length_of_tailOf (h : args.TailOf led) :
    args.prevLogIndex + 1 + args.entries.length = led.length := by
  have hlt := prev_lt_of_tailOf h
  rw [h.entries, List.length_drop]
  omega

/-! ### Handling -/

@[simp] theorem log_observe (r : Node Cmd) (t : ℕ) : (r.observe t).log = r.log := by
  unfold observe
  split <;> rfl

@[simp] theorem commitIndex_observe (r : Node Cmd) (t : ℕ) :
    (r.observe t).commitIndex = r.commitIndex := by
  unfold observe
  split <;> rfl

theorem currentTerm_observe {t : ℕ} (h : r.currentTerm ≤ t) : (r.observe t).currentTerm = t := by
  unfold observe
  split
  · rfl
  · omega

theorem observe_of_ge {t : ℕ} (h : t ≤ r.currentTerm) : r.observe t = r := if_neg (by omega)

/-- The request is not from a term that is over, and the entry before its own is there. -/
def Accepts (r : Node Cmd) (args : AppendEntriesArgs Cmd) : Prop :=
  r.currentTerm ≤ args.term ∧
    (r.log[args.prevLogIndex]?.map LogEntry.term) = some args.prevLogTerm

/-- The commit index that goes with a log and what a request says of it. -/
def learn (commitIndex leaderCommit : ℕ) (log : List (LogEntry Cmd)) : ℕ :=
  if leaderCommit > commitIndex then min leaderCommit (log.length - 1) else commitIndex

/-- **What an accepted request does.** -/
theorem handle_of_accepts (h : r.Accepts args) : r.handleAppendEntries args =
    ({ r.observe args.term with
        role := .follower
        leaderId := args.leaderId
        log := mergeEntries r.log (args.prevLogIndex + 1) args.entries
        commitIndex := learn r.commitIndex args.leaderCommit
          (mergeEntries r.log (args.prevLogIndex + 1) args.entries) },
      ⟨args.term, true⟩) := by
  have hterm := currentTerm_observe h.1
  unfold handleAppendEntries learn
  dsimp only
  rw [if_neg (by omega), if_neg (by rw [log_observe]; exact not_not.mpr h.2), hterm]
  simp only [log_observe, commitIndex_observe]
  split
  · rfl
  · simp only [← commitIndex_observe r args.term]

/-- A request that is turned down leaves the log and the commit index alone. -/
theorem handle_of_not_accepts (h : ¬ r.Accepts args) :
    (r.handleAppendEntries args).2.success = false ∧
      (r.handleAppendEntries args).1.log = r.log ∧
        (r.handleAppendEntries args).1.commitIndex = r.commitIndex := by
  unfold handleAppendEntries
  dsimp only
  split
  · exact ⟨rfl, log_observe r _, commitIndex_observe r _⟩
  rename_i hge
  rw [if_pos]
  · exact ⟨rfl, log_observe r _, commitIndex_observe r _⟩
  -- only the entry before those sent can be what is missing
  · intro hprev
    rw [log_observe] at hprev
    refine h ⟨?_, hprev⟩
    by_contra hlt
    rw [observe_of_ge (by omega)] at hge
    omega

theorem accepts_of_success (h : (r.handleAppendEntries args).2.success = true) :
    r.Accepts args := by
  by_contra hno
  rw [(handle_of_not_accepts hno).1] at h
  exact absurd h (by simp)

/-- An accepted request brings the follower the whole log it was built from; what it had
beyond is dropped only if it conflicts. -/
theorem handle_isPrefix (hm : Matches r.log led) (ht : args.TailOf led) (ha : r.Accepts args) :
    led <+: (r.handleAppendEntries args).1.log ∧
      ((r.handleAppendEntries args).1.log = r.log ∨
        (r.handleAppendEntries args).1.log = led ∧ ¬ led <+: r.log) := by
  obtain ⟨e, he, het⟩ := Option.map_eq_some_iff.mp ht.prev
  obtain ⟨f, hf, hft⟩ := Option.map_eq_some_iff.mp ha.2
  -- the logs agree up to the entry before those sent
  have hagree := hm.take_eq hf he (hft.trans het.symm)
  have hlen := length_of_tailOf ht
  -- and the entries sent are all the rest
  have hentries : args.entries = (led.drop (args.prevLogIndex + 1)).take args.entries.length := by
    rw [ht.entries, List.take_length]
  have hspec := mergeEntries_spec hm hentries hlen.le (Ledger.lt_length_of_getElem? hf) hagree
  rw [hlen, List.take_length] at hspec
  rw [handle_of_accepts ha]
  exact hspec

/-- A request from a log that the follower has, and whose committed part it has committed,
changes nothing. -/
theorem handle_fixed (hrole : r.role = .follower) (hlead : r.leaderId = args.leaderId)
    (hterm : r.currentTerm = args.term) (ht : args.TailOf led) (hled : led <+: r.log)
    (hc : args.leaderCommit ≤ r.commitIndex) :
    r.handleAppendEntries args = (r, ⟨args.term, true⟩) := by
  obtain ⟨e, he, het⟩ := Option.map_eq_some_iff.mp ht.prev
  have ha : r.Accepts args :=
    ⟨hterm.le, by rw [Ledger.getElem?_of_isPrefix hled he, Option.map_some, het]⟩
  -- a conflict would need an entry that the log does not have
  have hlog : mergeEntries r.log (args.prevLogIndex + 1) args.entries = r.log := by
    have hmerge := (handle_isPrefix (matches_of_isPrefix hled) ht ha).2
    rw [handle_of_accepts ha] at hmerge
    rcases hmerge with hsame | ⟨-, hnot⟩
    · exact hsame
    · exact absurd hled hnot
  rw [handle_of_accepts ha, hlog, observe_of_ge hterm.ge, ← hrole, ← hlead, learn,
    if_neg (by omega)]

end Node

variable [Inhabited Cmd]

/-! ### Messages in flight -/

/-- In state `w` the sender builds just this request. -/
def AppendCall.SentIn (c : AppendCall Cmd) (w : Cluster Cmd) : Prop :=
  (w.node c.leader).replicateTo c.peer c.args.term = .ok (some c.args)

/-- A request is put on the wire by the step that builds it, one case for each event. -/
theorem step_appendCalls {e : Event Cmd} (he : Cluster.step M w e = some w') {c : AppendCall Cmd}
    (hc : c ∈ w'.appendCalls) : c ∈ w.appendCalls ∨ c.SentIn w := by
  cases e with
  | start n | stop n | electionTimeout n | propose n command | applier n =>
    obtain ⟨-, ⟨⟩⟩ := Option.ite_none_right_eq_some.mp he
    exact .inl hc
  | replicate n peer term =>
    rw [Cluster.step] at he
    split at he
    swap
    · cases he
    split at he <;> cases he
    -- the request that has just been built, under the term it was built for
    · rename_i args hargs
      rcases List.mem_append.mp hc with hc | hc
      · exact .inl hc
      · obtain rfl := List.mem_singleton.mp hc
        have hterm := (Node.replicateTo_spec hargs).2.2.2.1
        refine .inr ?_
        unfold AppendCall.SentIn
        rw [hterm]
        exact hargs
    · exact .inl hc
  | handleRequestVote k | voteReply k | appendReply k =>
    obtain ⟨d, -, rfl⟩ := Option.map_eq_some_iff.mp he
    exact .inl hc
  | loseVoteCall k | loseVoteReturn k | loseAppendReturn k =>
    cases he
    exact .inl hc
  | handleAppendEntries k =>
    obtain ⟨d, -, rfl⟩ := Option.map_eq_some_iff.mp he
    exact .inl (List.mem_of_mem_eraseIdx hc)
  | loseAppendCall k =>
    cases he
    exact .inl (List.mem_of_mem_eraseIdx hc)

/-- Every request in flight was built by its sender at some time before. -/
theorem Reachable.exists_sentIn (h : Reachable M w) {c : AppendCall Cmd} (hc : c ∈ w.appendCalls) :
    ∃ w₀, Reachable M w₀ ∧ Steps M w₀ w ∧ c.SentIn w₀ := by
  induction h with
  | refl => exact absurd hc (by simp [Cluster.init])
  | @tail w w' hw hs ih =>
    obtain ⟨e, he⟩ := id hs
    rcases step_appendCalls he hc with hc | hsent
    · obtain ⟨w₀, h₀, h₁, h₂⟩ := ih hc
      exact ⟨w₀, h₀, h₁.tail hs, h₂⟩
    · exact ⟨w, hw, .single hs, hsent⟩

/-- A log that led term `t` once matches all logs from then on. -/
theorem Reachable.matches_of_leader {w₀ : Cluster Cmd} (h₀ : Reachable M w₀) (hs : Steps M w₀ w)
    {l : String} (hr : (w₀.node l).role = .leader) (i : String) :
    Matches (w.node i).log (w₀.node l).log := by
  obtain ⟨g₀, hg₀⟩ := h₀.exists_history
  obtain ⟨g, hx, hg⟩ := hg₀.steps hs
  have hled := ((hg₀.node l).leader hr).2.1
  -- the log of a leader is the history of its term, which only grows
  have hpre : (w₀.node l).log <+: g.ledger (w₀.node l).currentTerm := hled ▸ hx.ledger _
  exact matches_of_wellFormed (hg.wellFormed i) ((hg.inv.wf_ledger _).of_isPrefix hpre)

/-- **A follower commits only what the sender had.**  A request in flight names no commit
index beyond its last entry; and when it raises the follower's commit index, the
follower's log agrees that far with the log the sender had when it built the request. -/
theorem commits_what_sender_had (h : Reachable M w) : ∀ c ∈ w.appendCalls,
    c.args.leaderCommit ≤ c.args.prevLogIndex + c.args.entries.length ∧
      (∃ w₀, Reachable M w₀ ∧ Steps M w₀ w ∧ c.SentIn w₀) ∧
        ∀ w₀, Reachable M w₀ → Steps M w₀ w → c.SentIn w₀ →
          (w.node c.peer).commitIndex <
              ((w.node c.peer).handleAppendEntries c.args).1.commitIndex →
            AgreeUpTo ((w.node c.peer).handleAppendEntries c.args).1.commitIndex
              ((w.node c.peer).handleAppendEntries c.args).1.log (w₀.node c.leader).log := by
  intro c hc
  obtain ⟨g, hg⟩ := h.exists_history
  refine ⟨(hg.appendCalls c hc).args.commit_le, h.exists_sentIn hc, fun w₀ h₀ hs hsent hlt => ?_⟩
  obtain ⟨hr, -, -, -, -, htail, hcommit⟩ := Node.replicateTo_spec hsent
  -- a request that is turned down raises no commit index
  have hacc : (w.node c.peer).Accepts c.args := by
    by_contra hno
    rw [(Node.handle_of_not_accepts hno).2.2] at hlt
    exact absurd hlt (lt_irrefl _)
  have hpre := (Node.handle_isPrefix (h₀.matches_of_leader hs hr c.peer) htail hacc).1
  obtain ⟨g₀, hg₀⟩ := h₀.exists_history
  have hown := hg₀.commit_lt c.leader
  -- the index is at most the sender's, which is within the sender's log
  have hle : ((w.node c.peer).handleAppendEntries c.args).1.commitIndex ≤
      (w₀.node c.leader).commitIndex := by
    rw [Node.handle_of_accepts hacc] at hlt ⊢
    change _ < Node.learn _ _ _ at hlt
    change Node.learn _ _ _ ≤ _
    rw [← hcommit]
    unfold Node.learn at hlt ⊢
    split
    · exact min_le_left _ _
    · rename_i hno
      rw [if_neg hno] at hlt
      exact absurd hlt (lt_irrefl _)
  have hlen := hpre.length_le
  exact ⟨by omega, Ledger.take_eq_of_isPrefix hpre (by omega)⟩

/-- The last request of the run to `b`, which brings it both entries, raises its commit index. -/
def trioLearns : List (Event ℕ) :=
  trioElects ++ [.propose "a" 7, .replicate "a" "b" 1, .handleAppendEntries 0, .appendReply 0,
    .replicate "a" "b" 1]

theorem commits_what_sender_had_trio :
    (∃ c ∈ (trioAfter trioLearns (by decide +kernel)).appendCalls,
      ((trioAfter trioLearns (by decide +kernel)).node c.peer).commitIndex = 0 ∧
      (((trioAfter trioLearns (by decide +kernel)).node c.peer).handleAppendEntries
        c.args).1.commitIndex = 2) ∧
      ∀ c ∈ (trioAfter trioLearns (by decide +kernel)).appendCalls,
        c.args.leaderCommit ≤ c.args.prevLogIndex + c.args.entries.length :=
  ⟨⟨_, List.mem_of_getElem? (i := 0) (by rfl), by decide +kernel, by decide +kernel⟩,
    fun c hc => (commits_what_sender_had (trio_reachable _) c hc).1⟩

/-! ### Late and repeated requests -/

/-- **Late and repeated requests change nothing.**  A leader has built `m₁` and `m₂` in one term
for one follower, `m₁` from an earlier or the same log and commit index.  Once the follower has
answered `m₂` with success, `m₁` is answered with success as often as it comes, and the
follower's log and commit index stay as they are. -/
theorem late_append_changes_nothing {w₁ w₂ : Cluster Cmd} {l p : String} {t : ℕ}
    {m₁ m₂ : AppendEntriesArgs Cmd} (h₁ : Reachable M w₁) (h₂ : Reachable M w₂)
    (hs : Steps M w₂ w) (hm₁ : (w₁.node l).replicateTo p t = .ok (some m₁))
    (hm₂ : (w₂.node l).replicateTo p t = .ok (some m₂))
    (hlog : (w₁.node l).log <+: (w₂.node l).log)
    (hcommit : (w₁.node l).commitIndex ≤ (w₂.node l).commitIndex)
    {f : Node Cmd} (hf : f = ((w.node p).handleAppendEntries m₂).1)
    (hok : ((w.node p).handleAppendEntries m₂).2.success = true) (k : ℕ) :
    let f' := (fun r => (r.handleAppendEntries m₁).1)^[k] f
    (f'.handleAppendEntries m₁).2 = ⟨t, true⟩ ∧
      f'.log = f.log ∧ f'.commitIndex = f.commitIndex := by
  obtain ⟨-, -, -, ht₁, hl₁, htail₁, hc₁⟩ := Node.replicateTo_spec hm₁
  obtain ⟨hr₂, -, -, ht₂, hl₂, htail₂, hc₂⟩ := Node.replicateTo_spec hm₂
  have hacc := Node.accepts_of_success hok
  have hpre := (Node.handle_isPrefix (h₂.matches_of_leader hs hr₂ p) htail₂ hacc).1
  obtain ⟨g₁, hg₁⟩ := h₁.exists_history
  obtain ⟨g₂, hg₂⟩ := h₂.exists_history
  have hid : (w₁.node l).cfg.id = (w₂.node l).cfg.id := by rw [(hg₁.node l).cfg, (hg₂.node l).cfg]
  have hown := hg₂.commit_lt l
  have hlen := hpre.length_le
  rw [← hf] at hpre
  -- `m₁` finds its sender, its entries and its commit index
  have hfix : f.handleAppendEntries m₁ = (f, ⟨m₁.term, true⟩) := by
    refine Node.handle_fixed ?_ ?_ ?_ htail₁ (hlog.trans hpre) ?_
    · rw [hf, Node.handle_of_accepts hacc]
    · rw [hf, Node.handle_of_accepts hacc, hl₁, hid, ← hl₂]
    · rw [hf, Node.handle_of_accepts hacc, ht₁]
      exact (Node.currentTerm_observe hacc.1).trans ht₂
    · rw [Node.handle_of_accepts hacc] at hlen
      rw [hf, Node.handle_of_accepts hacc]
      change _ ≤ (Node.mergeEntries _ _ _).length at hlen
      change m₁.leaderCommit ≤ Node.learn _ _ _
      unfold Node.learn
      split <;> omega
  rw [Function.iterate_fixed (by rw [hfix])]
  exact ⟨by rw [hfix, ht₁], rfl, rfl⟩

/-- `a` sends `b` its no-op, then also the entry 7; the first request comes again. -/
theorem late_append_changes_nothing_trio :
    ∃ w₁ w₂ : Cluster ℕ, ∃ m₁ m₂ f, (w₁.node "a").replicateTo "b" 1 = .ok (some m₁) ∧
      (w₂.node "a").replicateTo "b" 1 = .ok (some m₂) ∧ m₁.entries.length = 1 ∧
        f = ((w₂.node "b").handleAppendEntries m₂).1 ∧ f.log.length = 3 ∧
          ∀ k, let f' := (fun r => (r.handleAppendEntries m₁).1)^[k] f
            (f'.handleAppendEntries m₁).2 = ⟨1, true⟩ ∧ f'.log = f.log ∧
              f'.commitIndex = f.commitIndex := by
  have hm₁ : ((trioAfter trioElects (by decide +kernel)).node "a").replicateTo "b" 1 =
      .ok (some ⟨1, "a", 0, 0, [⟨1, 1, 0⟩], 0⟩) := by decide +kernel
  have hm₂ : ((trioAfter (trioElects ++ [.propose "a" 7]) (by decide +kernel)).node
      "a").replicateTo "b" 1 = .ok (some ⟨1, "a", 0, 0, [⟨1, 1, 0⟩, ⟨1, 2, 7⟩], 0⟩) := by
    decide +kernel
  exact ⟨_, _, _, _, _, hm₁, hm₂, rfl, rfl, by decide +kernel,
    late_append_changes_nothing (trio_reachable _) (trio_reachable _) .refl hm₁ hm₂
      (by decide +kernel) (by decide +kernel) rfl (by decide +kernel)⟩

end Raft
