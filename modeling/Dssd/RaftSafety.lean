/-
Safety of Raft clusters, over all runs.

* `state_machine_safety` — every node applies the indices 1, 2, 3, …, and any
  two nodes' applied sequences are prefixes of one another;
* `leader_completeness` — below a commit index, later leaders agree and a
  majority of the logs never changes;
* `election_safety` — a term has one leader ever, and none once that one has
  restarted;
* `log_matching` — entries of one index and term have the same past, in logs and
  in append requests.
-/
import Dssd.RaftSimulation
import Dssd.RaftSteps

open Function (update)
open Ledger.State (Ext)

namespace Raft

variable {Cmd : Type} [Inhabited Cmd] {M : Membership} {g g' : Ghost Cmd} {w w' : Cluster Cmd}

/-! ### A run of three nodes -/

/-- Three nodes, as in the tests. -/
def trio : Membership := .ofIds ["a", "b", "c"] (by decide) (by decide)

/-- `a` wins term 1 with the vote of `b`; the request to `c` stays on its way. -/
def trioElects : List (Event ℕ) :=
  [.start "a", .start "b", .start "c", .electionTimeout "a", .handleRequestVote 0, .voteReply 0]

/-- `a` proposes 7 and commits it with `b`, which learns of it from a second request;
a third one stays on its way. -/
def trioCommits : List (Event ℕ) :=
  trioElects ++ [.propose "a" 7, .replicate "a" "b" 1, .handleAppendEntries 0, .appendReply 0,
    .applier "a", .replicate "a" "b" 1, .handleAppendEntries 0, .applier "b", .replicate "a" "c" 1]

/-- The state after a run of the three nodes. -/
def trioAfter (es : List (Event ℕ))
    (h : (Run.exec (Cluster.step trio) (Cluster.init trio) es).isSome = true) : Cluster ℕ :=
  (Run.exec (Cluster.step trio) (Cluster.init trio) es).get h

theorem trio_reachable {es : List (Event ℕ)}
    (h : (Run.exec (Cluster.step trio) (Cluster.init trio) es).isSome = true) :
    Reachable trio (trioAfter es h) :=
  Run.steps_get h

theorem trioCommits_runs :
    (Run.exec (Cluster.step trio) (Cluster.init trio) trioCommits).isSome = true := by
  decide +kernel

/-! ### Leaders -/

omit [Inhabited Cmd] in
theorem Node.state_eq_true {r : Node Cmd} {t : ℕ} :
    r.state = (t, true) ↔ r.currentTerm = t ∧ r.role = .leader := by
  simp [Node.state]

theorem Sim.owner_of_state (h : Sim M g w) {i : String} {t : ℕ}
    (hi : (w.node i).state = (t, true)) : g.owner t = some i := by
  obtain ⟨rfl, hr⟩ := Node.state_eq_true.mp hi
  exact ((h.node i).leader hr).1

/-- The winner of term `t` that is a follower, should it still be in that term, stays so. -/
theorem Sim.retired (h : Sim M g w) {i : String} {t : ℕ} (hown : g.owner t = some i)
    (hret : (w.node i).currentTerm = t → (w.node i).role = .follower) (hs : Steps M w w') :
    (w'.node i).currentTerm = t → (w'.node i).role = .follower := by
  have key : ∃ g', Sim M g' w' ∧ g'.owner t = some i ∧
      ((w'.node i).currentTerm = t → (w'.node i).role = .follower) := by
    refine Run.invariant (P := fun w => ∃ g, Sim M g w ∧ g.owner t = some i ∧
      ((w.node i).currentTerm = t → (w.node i).role = .follower)) ?_ hs ⟨g, h, hown, hret⟩
    rintro w w' ⟨e, he⟩ ⟨g, h, hown, hret⟩
    obtain ⟨g', hx, -, h'⟩ := h.step he
    have hown' := hx.owner t i hown
    refine ⟨g', h', hown', fun ht => ?_⟩
    cases hr : (w'.node i).role with
    | follower => rfl
    | candidate => exact absurd (ht ▸ hown') ((h'.node i).candidate hr)
    | leader =>
      -- the step before, it was leader or candidate of this term already
      obtain ⟨hterm, hne⟩ := step_role he i hr
      exact absurd (hret (hterm ▸ ht)) hne
  obtain ⟨-, -, -, hkey⟩ := key
  exact hkey

/-- **Election safety.**  Once node `i` has been leader of term `t`, nobody else ever
is, and once it has been restarted it is not either. -/
theorem election_safety {t : ℕ} {i : String} (h : Reachable M w)
    (hi : (w.node i).state = (t, true)) :
    (∀ w' j, Steps M w w' → (w'.node j).state = (t, true) → j = i) ∧
      (∀ w₁ w₂ w', Steps M w w₁ → Cluster.step M w₁ (.start i) = some w₂ → Steps M w₂ w' →
        (w'.node i).state ≠ (t, true)) := by
  obtain ⟨g, hg⟩ := h.exists_history
  have hown := hg.owner_of_state hi
  constructor
  · intro w' j hs hj
    obtain ⟨g', hx, hg'⟩ := hg.steps hs
    exact Option.some_inj.mp ((hg'.owner_of_state hj).symm.trans (hx.owner t i hown))
  · intro w₁ w₂ w' hs₁ hstart hs₂ hlead
    obtain ⟨g₁, hx₁, hg₁⟩ := hg.steps hs₁
    obtain ⟨g₂, hx₂, -, hg₂⟩ := hg₁.step hstart
    have hown₂ := hx₂.owner t i (hx₁.owner t i hown)
    obtain ⟨-, ⟨⟩⟩ := Option.ite_none_right_eq_some.mp hstart
    obtain ⟨hterm, hrole⟩ := Node.state_eq_true.mp hlead
    have hfollower := hg₂.retired hown₂ (fun _ => by simp [Node.start]) hs₂ hterm
    rw [hfollower] at hrole
    exact absurd hrole (by simp)

/-- `a` has won term 1. -/
theorem election_safety_trio :
    ((trioAfter trioElects (by decide +kernel)).node "a").state = (1, true) ∧
      ∀ w' j, Steps trio (trioAfter trioElects (by decide +kernel)) w' →
        (w'.node j).state = (1, true) → j = "a" := by
  have ha : ((trioAfter trioElects (by decide +kernel)).node "a").state = (1, true) := by
    decide +kernel
  exact ⟨ha, (election_safety (trio_reachable _) ha).1⟩

/-! ### Logs -/

/-- The request carries the tail of the log `l`: what follows the entry at
`prev_log_index`, and that entry's term. -/
structure AppendEntriesArgs.TailOf (args : AppendEntriesArgs Cmd) (l : List (LogEntry Cmd)) :
    Prop where
  prev : (l[args.prevLogIndex]?).map LogEntry.term = some args.prevLogTerm
  entries : args.entries = l.drop (args.prevLogIndex + 1)

/-- **Log matching.**  The logs of any two nodes match, and every append request
carries the tail of a log that matches those of all nodes. -/
theorem log_matching (h : Reachable M w) :
    (∀ i j, Matches (w.node i).log (w.node j).log) ∧
      ∀ c ∈ w.appendCalls, ∃ l, c.args.TailOf l ∧ ∀ j, Matches (w.node j).log l := by
  obtain ⟨g, hg⟩ := h.exists_history
  refine ⟨fun i j => matches_of_wellFormed (hg.wellFormed i) (hg.wellFormed j), fun c hc => ?_⟩
  have ha := (hg.appendCalls c hc).args
  have hfits := ha.fits
  set k := c.args.prevLogIndex + 1 + c.args.entries.length with hk
  have hpre : (g.ledger c.args.term).take k <+: g.ledger c.args.term := List.take_prefix _ _
  refine ⟨(g.ledger c.args.term).take k, ⟨?_, ?_⟩, fun j => ?_⟩
  · rw [List.getElem?_take_of_lt (by omega)]
    exact ha.prev
  · rw [List.drop_take, show k - (c.args.prevLogIndex + 1) = c.args.entries.length by omega]
    exact ha.entries
  · exact matches_of_wellFormed (hg.wellFormed j) ((hg.inv.wf_ledger _).of_isPrefix hpre)

/-- The request to `c` carries both entries of `a`. -/
theorem log_matching_trio :
    (trioAfter trioCommits (by decide +kernel)).appendCalls.length = 1 ∧
      ∀ c ∈ (trioAfter trioCommits (by decide +kernel)).appendCalls, ∃ l, c.args.TailOf l ∧
        ∀ j, Matches ((trioAfter trioCommits (by decide +kernel)).node j).log l :=
  ⟨by decide +kernel, (log_matching (trio_reachable _)).2⟩

/-! ### Committed entries -/

/-- Two logs agree up to index `n`, which both of them have. -/
def AgreeUpTo (n : ℕ) (l m : List (LogEntry Cmd)) : Prop :=
  n < l.length ∧ l.take (n + 1) = m.take (n + 1)

omit [Inhabited Cmd] in
theorem AgreeUpTo.getElem?_eq {n k : ℕ} {l m : List (LogEntry Cmd)} (h : AgreeUpTo n l m)
    (hk : k ≤ n) : l[k]? = m[k]? := by
  rw [← List.getElem?_take_of_lt (Nat.lt_succ_of_le hk), h.2,
    List.getElem?_take_of_lt (Nat.lt_succ_of_le hk)]

omit [Inhabited Cmd] in
/-- A log that holds a ledger that far is determined that far. -/
theorem agree_of_holds {l m : List (LogEntry Cmd)} {u n : ℕ} (hn : n < (g.ledger u).length)
    (hl : g.Holds l u n) (hm : g.Holds m u n) : AgreeUpTo n l m := by
  have hlen : n + 1 ≤ ((g.ledger u).take (n + 1)).length := by
    rw [List.length_take]
    omega
  refine ⟨hlen.trans hl.length_le, ?_⟩
  rw [Ledger.take_eq_of_isPrefix hl hlen, Ledger.take_eq_of_isPrefix hm hlen]

/-- Every log starts with the sentinel. -/
theorem Sim.agree_zero (h : Sim M g w) (h' : Sim M g' w') (i j : String) :
    AgreeUpTo 0 (w.node i).log (w'.node j).log := by
  have h₀ := (h.node i).base
  have h₁ := (h'.node j).base
  refine ⟨Ledger.lt_length_of_getElem? h₀, ?_⟩
  rw [List.take_add_one, List.take_add_one, h₀, h₁]
  rfl

/-- A later leader has what node `i` has committed. -/
theorem Sim.agree_of_leader (h : Sim M g w) (hx : Ext g.toState g'.toState) (h' : Sim M g' w')
    {i j : String} {t : ℕ} (hlead : (w'.node j).state = (t, true))
    (ht : (w.node i).currentTerm < t) :
    AgreeUpTo (w.node i).commitIndex (w.node i).log (w'.node j).log := by
  rcases (h.node i).commit with hzero | ⟨u, hu, n, hn, hch, hh⟩
  · rw [hzero]
    exact h.agree_zero h' i j
  obtain ⟨rfl, hr⟩ := Node.state_eq_true.mp hlead
  obtain ⟨hown, hled, -⟩ := (h'.node j).leader hr
  have hlen := hn.trans_lt hch.1.lt_length
  have hheld := (hch.ext hx).holds_ledger h'.inv (hu.trans_lt ht) (by rw [hown]; simp)
  rw [hled] at hheld
  exact agree_of_holds (hlen.trans_le (hx.ledger u).length_le) (hh.ext hx hlen) (hheld.le hn)

/-- **Leader completeness.**  Take the commit index `n` that some node has in term `t`.
From then on every leader of a later term has the same entries up to `n`, and the
nodes of one majority have them for ever. -/
theorem leader_completeness (h : Reachable M w) {i : String} (hi : i ∈ M.ids) :
    (∀ w' j t, Steps M w w' → (w'.node j).state = (t, true) → (w.node i).currentTerm < t →
        AgreeUpTo (w.node i).commitIndex (w.node i).log (w'.node j).log) ∧
      ∃ q, Ledger.IsQuorum M.members q ∧ ∀ w', Steps M w w' → ∀ j ∈ q,
        AgreeUpTo (w.node i).commitIndex (w.node i).log (w'.node j).log := by
  obtain ⟨g, hg⟩ := h.exists_history
  constructor
  · intro w' j t hs hlead ht
    obtain ⟨g', hx, hg'⟩ := hg.steps hs
    exact hg.agree_of_leader hx hg' hlead ht
  rcases (hg.node i).commit with hzero | ⟨u, -, n, hn, hch, hh⟩
  · refine ⟨M.members, ⟨Finset.Subset.refl _, ?_⟩, fun w' hs j _ => ?_⟩
    · have := Finset.card_pos.mpr ⟨i, M.mem_members.mpr hi⟩
      omega
    · obtain ⟨g', -, hg'⟩ := hg.steps hs
      rw [hzero]
      exact hg.agree_zero hg' i j
  -- those who acknowledged the chosen position keep it
  have hlen := hn.trans_lt hch.1.lt_length
  obtain ⟨-, q, hq, hack⟩ := id hch
  refine ⟨q, hq, fun w' hs j hj => ?_⟩
  obtain ⟨g', hx, hg'⟩ := hg.steps hs
  have hheld := (hch.ext hx).holds_log hg'.inv ((hack j hj).trans_le (hx.acked_le j u))
  rw [(hg'.node j).log] at hheld
  exact agree_of_holds (hlen.trans_le (hx.ledger u).length_le) (hh.ext hx hlen) (hheld.le hn)

/-- `a` has committed index 2 in term 1. -/
theorem leader_completeness_trio :
    ((trioAfter trioCommits (by decide +kernel)).node "a").commitIndex = 2 ∧
      ∃ q, Ledger.IsQuorum trio.members q ∧
        ∀ w', Steps trio (trioAfter trioCommits (by decide +kernel)) w' → ∀ j ∈ q,
          AgreeUpTo 2 ((trioAfter trioCommits (by decide +kernel)).node "a").log
            (w'.node j).log := by
  have ha : ((trioAfter trioCommits (by decide +kernel)).node "a").commitIndex = 2 := by
    decide +kernel
  have hw : Reachable trio (trioAfter trioCommits (by decide +kernel)) := trio_reachable _
  have h := (leader_completeness hw (i := "a") (by decide)).2
  rw [ha] at h
  exact ⟨ha, h⟩

/-- Of two committed parts of logs, one is a prefix of the other. -/
theorem Committed.comparable {l m : List (LogEntry Cmd)} {c d t u : ℕ} (h : Committed M g l c t)
    (h' : Committed M g m d u) (hi : Ledger.Inv M.members g.toState) (hl : l[0]? = some sentinel)
    (hm : m[0]? = some sentinel) :
    l.take (c + 1) <+: m.take (d + 1) ∨ m.take (d + 1) <+: l.take (c + 1) := by
  have hone : l.take 1 = m.take 1 := by
    rw [List.take_add_one, List.take_add_one, hl, hm]
    rfl
  rcases h with rfl | ⟨u, -, n, hn, hch, hh⟩
  · exact .inl (hone ▸ List.take_prefix_take_left (by omega))
  rcases h' with rfl | ⟨v, -, m', hm', hch', hh'⟩
  · exact .inr (hone.symm ▸ List.take_prefix_take_left (by omega))
  -- both are prefixes of chosen prefixes, and those are comparable
  have hlen := hn.trans_lt hch.1.lt_length
  have hlen' := hm'.trans_lt hch'.1.lt_length
  obtain ⟨-, hi'⟩ := agree_of_holds (m := g.ledger u) hlen hh (List.take_prefix _ _)
  obtain ⟨-, hj'⟩ := agree_of_holds (m := g.ledger v) hlen' hh' (List.take_prefix _ _)
  rw [hi', hj']
  have hiu : (g.ledger u).take (c + 1) <+: (g.ledger u).take (n + 1) :=
    List.take_prefix_take_left (by omega)
  have hjv : (g.ledger v).take (d + 1) <+: (g.ledger v).take (m' + 1) :=
    List.take_prefix_take_left (by omega)
  rcases hch.comparable hi hch' with hc | hc
  · exact List.prefix_or_prefix_of_prefix (hiu.trans hc) hjv
  · exact List.prefix_or_prefix_of_prefix hiu (hjv.trans hc)

/-- What two nodes have committed are prefixes of one another. -/
theorem Sim.committed_comparable (h : Sim M g w) (i j : String) :
    (w.node i).log.take ((w.node i).commitIndex + 1) <+:
        (w.node j).log.take ((w.node j).commitIndex + 1) ∨
      (w.node j).log.take ((w.node j).commitIndex + 1) <+:
        (w.node i).log.take ((w.node i).commitIndex + 1) :=
  (h.node i).commit.comparable (h.node j).commit h.inv (h.node i).base (h.node j).base

theorem Sim.applied_comparable (h : Sim M g w) (i j : String) :
    w.applied i <+: w.applied j ∨ w.applied j <+: w.applied i := by
  have hle : ∀ i, (w.node i).log.take ((w.node i).lastApplied + 1) <+:
      (w.node i).log.take ((w.node i).commitIndex + 1) := by
    intro i
    have := (h.node i).lastApplied
    exact List.take_prefix_take_left (by omega)
  rw [(h.node i).applied, (h.node j).applied]
  have hcomp : (w.node i).log.take ((w.node i).lastApplied + 1) <+:
        (w.node j).log.take ((w.node j).lastApplied + 1) ∨
      (w.node j).log.take ((w.node j).lastApplied + 1) <+:
        (w.node i).log.take ((w.node i).lastApplied + 1) := by
    rcases h.committed_comparable i j with hc | hc
    · exact List.prefix_or_prefix_of_prefix ((hle i).trans hc) (hle j)
    · exact List.prefix_or_prefix_of_prefix (hle i) ((hle j).trans hc)
  exact hcomp.imp (List.IsPrefix.drop · 1) (List.IsPrefix.drop · 1)

theorem Sim.applied_indices (h : Sim M g w) (i : String) :
    (w.applied i).map LogEntry.index = List.range' 1 (w.applied i).length := by
  refine List.ext_getElem (by simp) fun n hn _ => ?_
  rw [List.getElem_map, List.getElem_range', Nat.one_mul]
  rw [List.length_map] at hn
  have happ := (h.node i).applied
  have hget : (w.applied i)[n]? = some (w.applied i)[n] := List.getElem?_eq_getElem hn
  rw [happ] at hn
  rw [List.length_drop, List.length_take] at hn
  refine h.index_eq (i := i) ?_
  rw [← hget, happ, List.getElem?_drop, List.getElem?_take_of_lt (by omega)]

/-- **State machine safety.**  Over its whole life, restarts included, each node
hands the indices 1, 2, 3, … to its `apply`, and of any two nodes one has applied
what the other has and possibly more. -/
theorem state_machine_safety (h : Reachable M w) :
    (∀ i, (w.applied i).map LogEntry.index = List.range' 1 (w.applied i).length) ∧
      ∀ i j, w.applied i <+: w.applied j ∨ w.applied j <+: w.applied i := by
  obtain ⟨g, hg⟩ := h.exists_history
  exact ⟨hg.applied_indices, hg.applied_comparable⟩

/-- `a` and `b` have applied both entries, `c` none. -/
theorem state_machine_safety_trio :
    ((trioAfter trioCommits (by decide +kernel)).applied "a").map LogEntry.command = [0, 7] ∧
      (trioAfter trioCommits (by decide +kernel)).applied "c" = [] ∧
      ∀ i j, (trioAfter trioCommits (by decide +kernel)).applied i <+:
          (trioAfter trioCommits (by decide +kernel)).applied j ∨
        (trioAfter trioCommits (by decide +kernel)).applied j <+:
          (trioAfter trioCommits (by decide +kernel)).applied i :=
  ⟨by decide +kernel, by decide +kernel, (state_machine_safety (trio_reachable _)).2⟩

end Raft
