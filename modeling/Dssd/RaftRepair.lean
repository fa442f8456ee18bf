/-
A leader and a follower repair the follower's log.

`Link.round` is one `_replicate_to` with the answer it gets: the leader sends the
tail of its log from `_next_index` on, and steps back by one when the follower
turns it down.

* `Ready` — where a repair may start, with what the leader's log and the follower's
  have in common;
* `Ready.round` — a round fails and leads to the next smaller `_next_index`, or it
  succeeds, which it must at the sentinel, and leaves the two logs as they should be;
* `log_repair` — so rounds go on until one succeeds, at most `_next_index` many.
-/
import Dssd.RaftAppend

open Function (update)

namespace Raft

variable {Cmd : Type}

/-! ### The two methods, for this leader and this follower -/

namespace Node

variable {r : Node Cmd} {args : AppendEntriesArgs Cmd}

/-- A follower that is not ahead says so when the entry before the request's is not there. -/
theorem handle_of_mismatch (args : AppendEntriesArgs Cmd) (hterm : r.currentTerm ≤ args.term)
    (h : (r.log[args.prevLogIndex]?.map LogEntry.term) ≠ some args.prevLogTerm) :
    r.handleAppendEntries args =
      ({ r.observe args.term with role := .follower, leaderId := args.leaderId },
        ⟨args.term, false⟩) := by
  have hobs := currentTerm_observe hterm
  unfold handleAppendEntries
  dsimp only
  rw [if_neg (by omega), if_pos (by rw [log_observe]; exact h), hobs]

/-- A leader whose `_next_index` is in range sends the tail of its log. -/
theorem replicateTo_of_next {peer : String} {prev : ℕ} (hr : r.role = .leader)
    (hn : r.nextIndex peer = some (prev + 1)) (hlt : prev < r.log.length) :
    r.replicateTo peer r.currentTerm = .ok (some
      { term := r.currentTerm
        leaderId := r.cfg.id
        prevLogIndex := prev
        prevLogTerm := r.log[prev].term
        entries := r.log.drop (prev + 1)
        leaderCommit := r.commitIndex }) := by
  rw [replicateTo, if_neg (by simp [hr]), hn]
  dsimp only
  rw [List.getElem?_eq_getElem hlt]

/-- A success of the leader's term is taken down, whatever is committed with it. -/
theorem onAppendReply_of_success (args : AppendEntriesArgs Cmd) (peer : String)
    (hr : r.role = .leader) :
    let r' := (r.onAppendReply peer r.currentTerm args ⟨r.currentTerm, true⟩).1
    r'.matchIndex peer = some (args.prevLogIndex + args.entries.length) ∧
      r'.nextIndex peer = some (args.prevLogIndex + args.entries.length + 1) ∧ r'.log = r.log := by
  unfold onAppendReply
  rw [if_neg (lt_irrefl _), if_neg (by simp [hr]), if_pos rfl]
  dsimp only
  split
  · rename_i r' hadv
    rcases advanceLoop_spec hadv with rfl | ⟨k, c, e, rfl, -⟩ <;>
      exact ⟨Function.update_self _ _ _, Function.update_self _ _ _, rfl⟩
  · exact ⟨Function.update_self _ _ _, Function.update_self _ _ _, rfl⟩

/-- A failure of the leader's term moves `_next_index` back by one. -/
theorem onAppendReply_of_failure (args : AppendEntriesArgs Cmd) (peer : String) {n : ℕ}
    (hr : r.role = .leader) (hn : r.nextIndex peer = some n) (hgt : n > 1) :
    (r.onAppendReply peer r.currentTerm args ⟨r.currentTerm, false⟩).1 =
      { r with nextIndex := update r.nextIndex peer (some (n - 1)) } := by
  unfold onAppendReply
  rw [if_neg (lt_irrefl _), if_neg (by simp [hr]), if_neg (by simp), hn]
  dsimp only
  rw [if_pos hgt]

end Node

/-! ### Rounds -/

/-- A leader and a follower, and what the last answer was. -/
structure Link (Cmd : Type) where
  leader : Node Cmd
  follower : Node Cmd
  success : Bool

namespace Link

/-- `_replicate_to(peer)` on the leader, `handle_append_entries` on the follower, and the reply
delivered. -/
def round (peer : String) (x : Link Cmd) : Link Cmd :=
  match x.leader.replicateTo peer x.leader.currentTerm with
  | .ok (some args) =>
    let (follower, reply) := x.follower.handleAppendEntries args
    ⟨(x.leader.onAppendReply peer x.leader.currentTerm args reply).1, follower, reply.success⟩
  | _ => { x with success := false }

/-- The leader has `_next_index` `n` for a follower that is not in a later term; the logs start
with the same sentinel and match. -/
structure Ready (peer : String) (n : ℕ) (x : Link Cmd) : Prop where
  role : x.leader.role = .leader
  next : x.leader.nextIndex peer = some n
  pos : 1 ≤ n
  le : n ≤ x.leader.log.length
  term : x.follower.currentTerm ≤ x.leader.currentTerm
  sentinel : x.follower.log[0]? = x.leader.log[0]?
  matching : Matches x.follower.log x.leader.log

/-- The leader knows that the follower has all of its log `led`; the follower's log, which was
`log`, is the leader's unless it had that and possibly more. -/
structure Done (peer : String) (led log : List (LogEntry Cmd)) (x : Link Cmd) : Prop where
  success : x.success = true
  matchIndex : x.leader.matchIndex peer = some (led.length - 1)
  nextIndex : x.leader.nextIndex peer = some led.length
  leader : x.leader.log = led
  isPrefix : led <+: x.follower.log
  unchanged : led <+: log → x.follower.log = log
  replaced : ¬ led <+: log → x.follower.log = led

/-- **One round** succeeds and is the last one, or fails and has the follower's log as it was. -/
theorem Ready.round {peer : String} {n : ℕ} {x : Link Cmd} (h : Ready peer n x) :
    Done peer x.leader.log x.follower.log (x.round peer) ∨
      (x.round peer).success = false ∧ 1 < n ∧ Ready peer (n - 1) (x.round peer) ∧
        (x.round peer).leader.log = x.leader.log ∧
          (x.round peer).follower.log = x.follower.log := by
  obtain ⟨prev, rfl⟩ : ∃ prev, n = prev + 1 := ⟨n - 1, by have := h.pos; omega⟩
  have hlt : prev < x.leader.log.length := h.le
  have hsend := Node.replicateTo_of_next h.role h.next hlt
  set args : AppendEntriesArgs Cmd :=
    { term := x.leader.currentTerm
      leaderId := x.leader.cfg.id
      prevLogIndex := prev
      prevLogTerm := x.leader.log[prev].term
      entries := x.leader.log.drop (prev + 1)
      leaderCommit := x.leader.commitIndex } with hargs
  have htail : args.TailOf x.leader.log :=
    ⟨by rw [hargs]; dsimp only; rw [List.getElem?_eq_getElem hlt, Option.map_some], rfl⟩
  have hround : x.round peer =
      ⟨(x.leader.onAppendReply peer x.leader.currentTerm args
          (x.follower.handleAppendEntries args).2).1,
        (x.follower.handleAppendEntries args).1,
        (x.follower.handleAppendEntries args).2.success⟩ := by
    rw [Link.round, hsend]
  by_cases hprev : (x.follower.log[args.prevLogIndex]?.map LogEntry.term) = some args.prevLogTerm
  · -- the follower has the entry before the ones it is sent
    have hacc : x.follower.Accepts args := ⟨h.term, hprev⟩
    obtain ⟨hpre, hmerge⟩ := Node.handle_isPrefix h.matching htail hacc
    have hreply : (x.follower.handleAppendEntries args).2 = ⟨x.leader.currentTerm, true⟩ := by
      rw [Node.handle_of_accepts hacc]
    obtain ⟨hm, hn, hl⟩ := Node.onAppendReply_of_success args peer h.role
    have hlen := Node.length_of_tailOf htail
    -- the index that is taken down is the last of the leader's log
    have hlast : args.prevLogIndex + args.entries.length = x.leader.log.length - 1 := by omega
    have hnext : x.leader.log.length - 1 + 1 = x.leader.log.length := by omega
    left
    rw [hround, hreply]
    rw [hlast] at hm hn
    rw [hnext] at hn
    refine ⟨rfl, hm, hn, hl, hpre, fun hled => ?_, fun hled => ?_⟩
    -- what is dropped is in conflict, which the leader's own log is not
    · exact hmerge.resolve_right fun hconf => hconf.2 hled
    · rcases hmerge with hsame | ⟨hnew, -⟩
      · exact absurd (hsame ▸ hpre) hled
      · exact hnew
  · -- it has not: at the sentinel that cannot be
    have hpos : prev ≠ 0 := by
      rintro rfl
      refine hprev ?_
      show (x.follower.log[0]?.map LogEntry.term) = _
      rw [h.sentinel]
      exact htail.prev
    have hhandle := Node.handle_of_mismatch args h.term hprev
    have hback := Node.onAppendReply_of_failure args peer h.role h.next (by omega)
    right
    rw [hround, hhandle]
    dsimp only
    rw [hback]
    refine ⟨rfl, by omega, ?_, rfl, Node.log_observe _ _⟩
    -- the next round starts one entry earlier, from the same logs
    exact {
      role := h.role
      next := Function.update_self _ _ _
      pos := by omega
      le := by
        have := h.le
        show prev + 1 - 1 ≤ x.leader.log.length
        omega
      term := (Node.currentTerm_observe h.term).le
      sentinel := by
        show (x.follower.observe _).log[0]? = _
        rw [Node.log_observe]
        exact h.sentinel
      matching := by
        show Matches (x.follower.observe _).log _
        rw [Node.log_observe]
        exact h.matching }

/-- What the two logs have in common is never removed in a round. -/
theorem Done.keeps {peer : String} {led log p : List (LogEntry Cmd)} {x : Link Cmd}
    (h : Done peer led log x) (hlog : p <+: log) (hled : p <+: led) : p <+: x.follower.log := by
  by_cases hpre : led <+: log
  · rw [h.unchanged hpre]
    exact hlog
  · rw [h.replaced hpre]
    exact hled

/-- **Log repair terminates and is exact.**  Rounds succeed for the first time after at most
`_next_index` of them; then the leader knows that the follower has its whole log, and the
follower's log is the leader's unless it had that as a prefix before.  What the two logs had in
common is there all the time. -/
theorem log_repair {peer : String} {n : ℕ} {x : Link Cmd} (h : Ready peer n x) :
    ∃ k, 1 ≤ k ∧ k ≤ n ∧ (∀ j, 1 ≤ j → j < k → ((Link.round peer)^[j] x).success = false) ∧
      Done peer x.leader.log x.follower.log ((Link.round peer)^[k] x) ∧
        ∀ j ≤ k, ∀ p, p <+: x.follower.log → p <+: x.leader.log →
          p <+: ((Link.round peer)^[j] x).follower.log := by
  -- each failure lowers `_next_index`
  induction n generalizing x with
  | zero => exact absurd h.pos (by omega)
  | succ n ih =>
    rcases h.round with hdone | ⟨hfail, hn, hready, hled, hlog⟩
    · refine ⟨1, le_rfl, h.pos, fun j h₁ h₂ => by omega, hdone, fun j hj p hp hp' => ?_⟩
      rcases Nat.le_one_iff_eq_zero_or_eq_one.mp hj with rfl | rfl
      · exact hp
      · exact hdone.keeps hp hp'
    · obtain ⟨k, hk₁, hk, hbefore, hdone, hkeep⟩ := ih hready
      rw [hled, hlog] at hdone hkeep
      refine ⟨k + 1, by omega, by omega, fun j h₁ h₂ => ?_, hdone, fun j hj p hp hp' => ?_⟩
      · obtain ⟨j, rfl⟩ : ∃ i, j = i + 1 := ⟨j - 1, by omega⟩
        rcases Nat.eq_zero_or_pos j with rfl | hpos
        · exact hfail
        · exact hbefore j hpos (by omega)
      · rcases Nat.eq_zero_or_pos j with rfl | hpos
        · exact hp
        · obtain ⟨j, rfl⟩ : ∃ i, j = i + 1 := ⟨j - 1, by omega⟩
          exact hkeep j (by omega) p hp hp'

/-- A leader of term 3 and a follower that has two entries of term 2 in the place of its last. -/
def straggler : Link ℕ where
  leader := { (Node.init ⟨"a", ["b"]⟩ : Node ℕ) with
    currentTerm := 3
    role := .leader
    log := [sentinel, ⟨1, 1, 5⟩, ⟨3, 2, 0⟩]
    nextIndex := fun _ => some 3
    matchIndex := fun _ => some 0 }
  follower := { (Node.init ⟨"b", ["a"]⟩ : Node ℕ) with
    currentTerm := 2
    log := [sentinel, ⟨1, 1, 5⟩, ⟨2, 2, 0⟩, ⟨2, 3, 6⟩] }
  success := false

theorem ready_straggler : Ready "b" 3 straggler where
  role := rfl
  next := rfl
  pos := by decide
  le := by decide
  term := by decide
  sentinel := rfl
  matching := by
    intro n e f he hf hef k hk
    rcases n with _ | _ | _ | n
    · obtain rfl : k = 0 := by omega
      rfl
    · rcases Nat.le_one_iff_eq_zero_or_eq_one.mp hk with rfl | rfl <;> rfl
    -- the entries at index 2 are of terms 2 and 3
    · cases he
      cases hf
      exact absurd hef (by decide)
    · exact absurd hf (by simp [straggler])

/-- The second round brings the leader's entry in the place of both. -/
theorem log_repair_straggler : ∃ k, 1 ≤ k ∧ k ≤ 3 ∧
    Done "b" straggler.leader.log straggler.follower.log ((Link.round "b")^[k] straggler) ∧
      ((Link.round "b")^[k] straggler).follower.log = straggler.leader.log := by
  obtain ⟨k, h₁, h₂, -, hdone, -⟩ := log_repair ready_straggler
  exact ⟨k, h₁, h₂, hdone, hdone.replaced (by decide)⟩

end Link

end Raft
