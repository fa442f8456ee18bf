/-
Every step of a Raft cluster is a step of its term ledger.

The methods of a node are built from a few moves, and each move is answered by
the history: `Sim.becomeFollower` by `advance`, `Sim.stand` and `Sim.grant` by
`cast`, `Sim.win` by `elect`, `Sim.append` by `append`, `Sim.accept` by
`accept`; the others leave the history alone.  `Sim.step` puts them together,
one case for each event, and `exists_history` is the induction over runs.
-/
import Dssd.RaftInvariant

open Function (update)
open Ledger.State (Ext)

namespace Raft

variable {Cmd : Type} {M : Membership} {g : Ghost Cmd} {w : Cluster Cmd}

/-! ### The history's moves, as seen by the other nodes -/

section touches

variable {i : String} {t : ℕ}

theorem touches_advance (h : g.term i ≤ t) :
    Touches i g (g.move (g.toState.advance i t)) where
  ext := Ledger.State.ext_advance h
  term j hj := by simp [Ledger.State.advance, hj]
  log _ _ := rfl
  vote _ _ := rfl
  acked _ _ := rfl
  owner _ _ _ ho := ho
  ledger _ _ _ _ := rfl

theorem touches_cast {c : String} (h : g.vote i (g.term i) = none) :
    Touches i g (g.move (g.toState.cast i c)) where
  ext := Ledger.State.ext_cast h
  term _ _ := rfl
  log _ _ := rfl
  vote j hj := by simp [Ledger.State.cast, hj]
  acked _ _ := rfl
  owner _ _ _ ho := ho
  ledger _ _ _ _ := rfl

theorem touches_elect (hx : Ext g.toState (g.toState.elect i t)) (hown : g.owner t = none) :
    Touches i g (g.move (g.toState.elect i t)) where
  ext := hx
  term _ _ := rfl
  log _ _ := rfl
  vote _ _ := rfl
  acked j hj := by simp [Ledger.State.elect, hj]
  owner u j hj ho := by
    by_cases hu : u = t
    · subst hu
      exact absurd (by simpa [Ledger.State.elect] using ho) hj.symm
    · simpa [Ledger.State.elect, hu] using ho
  ledger u j hj ho := Ledger.State.elect_ledger_ne (by
    rintro rfl
    rw [hown] at ho
    exact absurd ho (by simp))

theorem touches_append {e : LogEntry Cmd} (hx : Ext g.toState (g.toState.append i t e))
    (hown : g.owner t = some i) : Touches i g (g.move (g.toState.append i t e)) where
  ext := hx
  term _ _ := rfl
  log j hj := Ledger.State.append_log_ne hj
  vote _ _ := rfl
  acked j hj := by simp [Ledger.State.append, hj]
  owner _ _ _ ho := ho
  ledger u j hj ho := Ledger.State.append_ledger_ne (by
    rintro rfl
    exact hj (Option.some_inj.mp (ho.symm.trans hown)))

theorem touches_accept {k : ℕ} {l : List (LogEntry Cmd)} (h : g.term i = t) :
    Touches i g (g.move (g.toState.accept i t k l)) where
  ext := Ledger.State.ext_accept h
  term _ _ := rfl
  log j hj := Ledger.State.accept_log_ne hj
  vote _ _ := rfl
  acked j hj := by simp [Ledger.State.accept, hj]
  owner _ _ _ ho := ho
  ledger _ _ _ _ := rfl

end touches

variable [Inhabited Cmd]

/-! ### Facts about one node -/

theorem Sim.wellFormed (h : Sim M g w) (i : String) : g.WellFormed (w.node i).log := by
  have := h.inv.wf_log i
  rwa [(h.node i).log] at this

/-- `log[i].index == i`. -/
theorem Sim.index_eq (h : Sim M g w) {i : String} {n : ℕ} {e : LogEntry Cmd}
    (he : (w.node i).log[n]? = some e) : e.index = n :=
  h.indexed _ n e (Ledger.getElem?_of_take_isPrefix (h.wellFormed i n e he) (Nat.lt_succ_self n) he)

theorem Sim.log_ne_nil (h : Sim M g w) (i : String) : (w.node i).log ≠ [] := by
  intro hnil
  have := (h.node i).base
  rw [hnil] at this
  exact absurd this (by simp)

theorem Sim.getLast? (h : Sim M g w) (i : String) :
    (w.node i).log.getLast? = some (w.node i).last := by
  rw [Node.last, List.getLastD_eq_getLast?, List.getLast?_eq_some_getLast (h.log_ne_nil i),
    Option.getD_some]

theorem Sim.last_index (h : Sim M g w) (i : String) :
    (w.node i).last.index + 1 = (w.node i).log.length := by
  have hlast := h.getLast? i
  have hpos := List.length_pos_iff.mpr (h.log_ne_nil i)
  rw [List.getLast?_eq_getElem?] at hlast
  rw [h.index_eq hlast]
  omega

theorem Sim.commit_lt (h : Sim M g w) (i : String) :
    (w.node i).commitIndex < (w.node i).log.length :=
  (h.node i).commit.lt_length (h.node i).base

/-! ### Moves -/

/-- The history can follow to `w'` without a vote being counted or an entry written. -/
def Answered (M : Membership) (g : Ghost Cmd) (w' : Cluster Cmd) : Prop :=
  ∃ g' : Ghost Cmd, Ext g.toState g'.toState ∧ g'.tally = g.tally ∧ g'.ledger = g.ledger ∧
    Sim M g' w'

theorem Sim.answered (h : Sim M g w) : Answered M g w := ⟨g, Ext.refl _, rfl, rfl, h⟩

theorem Sim.becomeFollower (h : Sim M g w) {i : String} {t : ℕ}
    (ht : (w.node i).currentTerm < t) : Answered M g (w.set i ((w.node i).becomeFollower t)) := by
  have hi := h.node i
  have hle : g.term i ≤ t := by
    rw [hi.term]
    exact ht.le
  have hT := touches_advance hle
  refine ⟨g.move _, hT.ext, rfl, rfl, h.set hT (h.inv.advance hle) h.indexed rfl
    (.of_not_candidate ht.le (by simp [Node.becomeFollower])) rfl ?_⟩
  exact {
    cfg := hi.cfg
    term := by simp [Ledger.State.advance, Node.becomeFollower]
    log := hi.log
    base := hi.base
    ballot := by
      show g.vote i t = none
      by_contra hne
      obtain ⟨c, hc⟩ := Option.ne_none_iff_exists'.mp hne
      have := h.inv.vote_term i t c hc
      rw [hi.term] at this
      omega
    active := fun hr => absurd rfl hr
    leader := fun hr => absurd hr (by simp [Node.becomeFollower])
    candidate := fun hr => absurd hr (by simp [Node.becomeFollower])
    owned := fun u hu => (hi.owned u hu).trans ht.le
    tracks := fun hr => absurd hr (by simp [Node.becomeFollower])
    commit := hi.commit.ext hT.ext ht.le
    lastApplied := hi.lastApplied
    applied := hi.applied }

omit [Inhabited Cmd] in
theorem Cluster.set_self (w : Cluster Cmd) (i : String) : w.set i (w.node i) = w := by
  simp [Cluster.set]

theorem Sim.observe (h : Sim M g w) (i : String) (t : ℕ) :
    Answered M g (w.set i ((w.node i).observe t)) := by
  unfold Node.observe
  split
  · exact h.becomeFollower (by assumption)
  · rw [Cluster.set_self]
    exact h.answered

/-- A node that follows, whomever: `start()`, or an append request of its term. -/
theorem Sim.follow (h : Sim M g w) (i leader : String) :
    Sim M g (w.set i { w.node i with role := .follower, leaderId := leader }) := by
  have hi := h.node i
  refine h.set (Touches.refl i g) h.inv h.indexed rfl (.of_not_candidate le_rfl (by simp)) rfl ?_
  exact { hi with
    active := fun hr => absurd rfl hr
    leader := fun hr => absurd hr (by simp)
    candidate := fun hr => absurd hr (by simp)
    tracks := fun hr => absurd hr (by simp) }

/-- A node stands for election: a new term, and its own vote. -/
theorem Sim.stand (h : Sim M g w) {i : String} (hmem : i ∈ M.ids) {t : ℕ}
    (ht : (w.node i).currentTerm < t) :
    ∃ g' : Ghost Cmd, Ext g.toState g'.toState ∧ g'.tally = g.tally ∧ g'.ledger = g.ledger ∧
      g'.vote i t = some i ∧ Sim M g' (w.set i { w.node i with
        role := .candidate, currentTerm := t, votedFor := i, leaderId := "" }) := by
  have hi := h.node i
  have hle : g.term i ≤ t := by
    rw [hi.term]
    exact ht.le
  have hterm : (g.toState.advance i t).term i = t := by simp [Ledger.State.advance]
  have hnone : (g.toState.advance i t).vote i ((g.toState.advance i t).term i) = none := by
    rw [hterm]
    show g.vote i t = none
    by_contra hne
    obtain ⟨c, hc⟩ := Option.ne_none_iff_exists'.mp hne
    have := h.inv.vote_term i t c hc
    rw [hi.term] at this
    omega
  have hT := (touches_advance hle).trans (touches_cast (c := i)
    (g := (g.move (g.toState.advance i t))) hnone)
  have hv : ((g.toState.advance i t).cast i i).vote i t = some i := by
    nth_rewrite 2 [← hterm]
    exact Ledger.State.cast_vote_self
  refine ⟨g.move _, hT.ext, rfl, rfl, hv, h.set hT ((h.inv.advance hle).cast hnone) h.indexed rfl
    ⟨ht.le, fun _ => .inl ht⟩ rfl ?_⟩
  exact {
    cfg := hi.cfg
    term := hterm
    log := hi.log
    base := hi.base
    ballot := by
      rw [if_neg (by rintro rfl; exact M.nonempty hmem)]
      exact hv
    active := fun _ => ⟨Nat.zero_lt_of_lt ht, hmem⟩
    leader := fun hr => absurd hr (by simp)
    candidate := fun _ hown => absurd (hi.owned t hown) (by omega)
    owned := fun u hu => (hi.owned u hu).trans ht.le
    tracks := fun hr => absurd hr (by simp)
    commit := hi.commit.ext hT.ext ht.le
    lastApplied := hi.lastApplied
    applied := hi.applied }

/-- A follower's vote of the current term goes to `c`. -/
theorem Sim.grant (h : Sim M g w) {j c : String} (hc : c ≠ "")
    (hv : (w.node j).votedFor = "" ∨ (w.node j).votedFor = c) :
    ∃ g' : Ghost Cmd, Ext g.toState g'.toState ∧ g'.tally = g.tally ∧ g'.ledger = g.ledger ∧
      g'.vote j (w.node j).currentTerm = some c ∧
      Sim M g' (w.set j { w.node j with votedFor := c }) := by
  have hj := h.node j
  rcases hv with hv | hv
  · have hnone : g.vote j (g.term j) = none := by
      rw [hj.term, hj.ballot, if_pos hv]
    have hT := touches_cast (c := c) hnone
    have hself : (g.toState.cast j c).vote j (w.node j).currentTerm = some c := by
      rw [← hj.term]
      exact Ledger.State.cast_vote_self
    refine ⟨g.move _, hT.ext, rfl, rfl, hself, h.set hT (h.inv.cast hnone) h.indexed rfl
      (.of_eq rfl rfl rfl) rfl ?_⟩
    exact { hj with
      ballot := by
        rw [if_neg hc]
        exact hself
      commit := hj.commit.ext hT.ext le_rfl }
  · have hself : g.vote j (w.node j).currentTerm = some c := by
      rw [hj.ballot, if_neg (hv ▸ hc), hv]
    refine ⟨g, Ext.refl _, rfl, rfl, hself, ?_⟩
    subst hv
    rw [Cluster.set_self]
    exact h

/-- A leader appends an entry to its log. -/
theorem Sim.append (h : Sim M g w) {i : String} (hr : (w.node i).role = .leader) (command : Cmd) :
    ∃ g' : Ghost Cmd, Ext g.toState g'.toState ∧
      g'.ledger = update g.ledger (w.node i).currentTerm
        ((w.node i).log ++ [⟨(w.node i).currentTerm, (w.node i).log.length, command⟩]) ∧
      Sim M g' (w.set i { w.node i with
        log := (w.node i).log ++ [⟨(w.node i).currentTerm, (w.node i).log.length, command⟩] }) := by
  have hi := h.node i
  obtain ⟨hown, hled, hack⟩ := hi.leader hr
  set e : LogEntry Cmd := ⟨(w.node i).currentTerm, (w.node i).log.length, command⟩ with he
  obtain ⟨hx, hinv⟩ := h.inv.append (e := e) hi.term hown (by rw [hi.log, hled]) rfl
  have hT := touches_append hx hown
  have hpre : (w.node i).log <+: (w.node i).log ++ [e] := List.prefix_append _ _
  have hidx : ∀ t n (f : LogEntry Cmd),
      ((g.toState.append i (w.node i).currentTerm e).ledger t)[n]? = some f → f.index = n := by
    intro t n f hf
    by_cases ht : t = (w.node i).currentTerm
    · subst ht
      rw [Ledger.State.append_ledger_self, hled] at hf
      rcases lt_or_ge n (w.node i).log.length with hn | hn
      · rw [List.getElem?_append_left hn] at hf
        exact h.index_eq hf
      · have hlen := Ledger.lt_length_of_getElem? hf
        rw [List.length_append, List.length_singleton] at hlen
        obtain rfl : n = (w.node i).log.length := by omega
        rw [List.getElem?_concat_length, Option.some_inj] at hf
        rw [← hf]
    · rw [Ledger.State.append_ledger_ne ht] at hf
      exact h.indexed t n f hf
  refine ⟨g.move (g.toState.append i (w.node i).currentTerm e), hx, by rw [← hled]; rfl,
    h.set hT hinv hidx rfl
    (.of_not_candidate le_rfl (by simp [hr])) rfl ?_⟩
  exact {
    cfg := hi.cfg
    term := hi.term
    log := by rw [Ghost.move_toState, Ledger.State.append_log_self, hled]
    base := Ledger.getElem?_of_isPrefix hpre hi.base
    ballot := hi.ballot
    active := hi.active
    leader := fun _ => by
      refine ⟨hown, ?_, ?_⟩
      · rw [Ghost.move_toState, Ledger.State.append_ledger_self, hled]
      · rw [Ghost.move_toState, Ledger.State.append_acked_self, hled, List.length_append,
          List.length_singleton]
    candidate := fun hc => absurd (hr.symm.trans hc) (by simp)
    owned := hi.owned
    tracks := fun _ p hp => by
      obtain ⟨m, n, h₁, h₂, h₃, h₄, h₅, h₆⟩ := hi.tracks hr p hp
      have hlen := hpre.length_le
      exact ⟨m, n, h₁, h₂, h₃, h₄.trans hlen, h₅.trans_le hlen,
        fun hm => (h₆ hm).trans_le (hx.acked_le p _)⟩
    commit := (hi.commit.ext hx le_rfl).mono hpre
    lastApplied := hi.lastApplied
    applied := by
      have hlt := h.commit_lt i
      have hle := hi.lastApplied
      rw [List.take_append_of_le_length (show (w.node i).lastApplied + 1 ≤ _ by omega)]
      exact hi.applied }

/-- A candidate with a majority of votes takes office, before its no-op. -/
theorem Sim.win (h : Sim M g w) {i : String} (hr : (w.node i).role = .candidate)
    (hmaj : (w.node i).majority ≤ (w.node i).votes (w.node i).currentTerm) :
    ∃ g' : Ghost Cmd, Ext g.toState g'.toState ∧
      g'.ledger = update g.ledger (w.node i).currentTerm (w.node i).log ∧
      Sim M g' (w.set i { w.node i with
        role := .leader
        leaderId := (w.node i).cfg.id
        nextIndex := fun p => if p ∈ (w.node i).cfg.peers then some (w.node i).log.length else none
        matchIndex := fun p => if p ∈ (w.node i).cfg.peers then some 0 else none }) := by
  have hi := h.node i
  obtain ⟨hpos, hmem⟩ := hi.active (by simp [hr])
  set t := (w.node i).currentTerm with ht
  have hsup := h.tally i t
  have hq := M.isQuorum hmem (l := g.tally i t) (fun j hj => (hsup j hj).1)
    (h.once i t).of_append_left (by
      rw [← h.votes i t]
      have := hmaj
      rwa [Node.majority, hi.cfg] at this)
  have hv : ∀ j ∈ (g.tally i t).toFinset,
      g.vote j t = some i ∧ g.Carries M.members j (g.log i) t := by
    intro j hj
    obtain ⟨-, -, hs⟩ := hsup j (List.mem_toFinset.mp hj)
    rw [hi.log]
    exact ⟨hs.1, hs.2 hr rfl⟩
  have hown : g.owner t = none := by
    by_contra hne
    obtain ⟨o, ho⟩ := Option.ne_none_iff_exists'.mp hne
    obtain rfl := h.inv.owner_unique ho hq fun j hj => (hv j hj).1
    exact hi.candidate hr ho
  obtain ⟨hx, hinv⟩ := h.inv.elect hpos hi.term hown hq hv
  have hT := touches_elect hx hown
  have hidx : ∀ u n (e : LogEntry Cmd),
      ((g.toState.elect i t).ledger u)[n]? = some e → e.index = n := by
    intro u n e he
    by_cases hu : u = t
    · subst hu
      rw [Ledger.State.elect_ledger_self, hi.log] at he
      exact h.index_eq he
    · rw [Ledger.State.elect_ledger_ne hu] at he
      exact h.indexed u n e he
  refine ⟨g.move (g.toState.elect i t), hx, by rw [← hi.log]; rfl, h.set hT hinv hidx rfl
    (.of_not_candidate le_rfl (by simp)) rfl ?_⟩
  have hlen := List.length_pos_iff.mpr (h.log_ne_nil i)
  exact {
    cfg := hi.cfg
    term := hi.term
    log := hi.log
    base := hi.base
    ballot := hi.ballot
    active := fun _ => ⟨hpos, hmem⟩
    leader := fun _ => by
      refine ⟨by simp [Ledger.State.elect, ← ht], ?_, ?_⟩
      · rw [← ht, Ghost.move_toState, Ledger.State.elect_ledger_self, hi.log]
      · rw [← ht, Ghost.move_toState, Ledger.State.elect_acked_self, hi.log]
    candidate := fun hc => absurd hc (by simp)
    owned := fun u hu => by
      by_cases hut : u = t
      · exact hut.le
      · exact hi.owned u (by simpa [Ledger.State.elect, hut] using hu)
    tracks := fun _ p hp => by
      rw [show (w.node i).cfg.peers = M.peers i by rw [hi.cfg]; rfl]
      exact ⟨0, (w.node i).log.length, if_pos hp, if_pos hp, hlen, le_rfl, hlen,
        fun h0 => absurd h0 (lt_irrefl 0)⟩
    commit := hi.commit.ext hx le_rfl
    lastApplied := hi.lastApplied
    applied := hi.applied }

/-- A follower takes over the entries of an append request of its term. -/
theorem Sim.accept (h : Sim M g w) {i leader : String} {args : AppendEntriesArgs Cmd}
    (hr : (w.node i).role = .follower) (ha : ArgsOk M g leader args)
    (ht : args.term = (w.node i).currentTerm)
    (hprev : ((w.node i).log[args.prevLogIndex]?.map LogEntry.term) = some args.prevLogTerm) :
    ∃ g' : Ghost Cmd, Ext g.toState g'.toState ∧ g'.ledger = g.ledger ∧
      args.prevLogIndex + args.entries.length < g'.acked i args.term ∧
      (g.ledger args.term).take (args.prevLogIndex + 1 + args.entries.length) <+:
        Node.mergeEntries (w.node i).log (args.prevLogIndex + 1) args.entries ∧
      Sim M g' (w.set i { w.node i with
        log := Node.mergeEntries (w.node i).log (args.prevLogIndex + 1) args.entries }) := by
  have hi := h.node i
  set l := Node.mergeEntries (w.node i).log (args.prevLogIndex + 1) args.entries with hl
  set k := args.prevLogIndex + 1 + args.entries.length with hk
  obtain ⟨f, hf, hft⟩ := Option.map_eq_some_iff.mp hprev
  obtain ⟨e, he, het⟩ := Option.map_eq_some_iff.mp ha.prev
  have hagree := (h.wellFormed i).matching (h.inv.wf_ledger _) hf he (by
    rw [termOf_eq, termOf_eq, hft, het])
  obtain ⟨hpre, hmerge⟩ := Node.mergeEntries_spec
    (matches_of_wellFormed (h.wellFormed i) (h.inv.wf_ledger _)) ha.entries ha.fits
    (Ledger.lt_length_of_getElem? hf) hagree
  have hterm : g.term i = args.term := by rw [hi.term, ht]
  obtain ⟨hx, hinv⟩ := h.inv.accept hterm ha.fits (by rw [ha.owner]; simp) hpre
    (by rwa [hi.log])
  -- what is committed stays where it is
  have hkeep : ∀ c ≤ (w.node i).commitIndex, l.take (c + 1) = (w.node i).log.take (c + 1) := by
    intro c hc
    rcases hi.commit with hzero | ⟨u, hu, n, hn, hch, hh⟩
    · obtain rfl : c = 0 := by omega
      have h₁ : (w.node i).log.take 1 <+: (w.node i).log := List.take_prefix _ _
      have h₂ : (w.node i).log.take 1 <+: g.ledger args.term := by
        refine List.IsPrefix.trans ?_ (List.take_prefix (args.prevLogIndex + 1) _)
        rw [← hagree]
        exact List.take_prefix_take_left (by omega)
      have h₃ := Ledger.isPrefix_of_merge hpre hmerge h₁ h₂
      rw [Ledger.take_eq_of_isPrefix h₃ (by
        have := Ledger.lt_length_of_getElem? hi.base
        rw [List.length_take]
        omega), List.take_take, Nat.min_self]
    · have hheld : g.Holds (g.ledger args.term) u c := by
        rcases (hu.trans ht.ge).lt_or_eq with hlt | rfl
        · exact (hch.holds_ledger h.inv hlt (by rw [ha.owner]; simp)).le (hc.trans hn)
        · exact List.take_prefix _ _
      have h₁ : g.Holds (w.node i).log u c := hh.le hc
      have h₃ := Ledger.isPrefix_of_merge hpre hmerge h₁ hheld
      have hlen : c + 1 ≤ ((g.ledger u).take (c + 1)).length := by
        have := hch.1.lt_length
        rw [List.length_take]
        omega
      rw [Ledger.take_eq_of_isPrefix h₃ hlen, Ledger.take_eq_of_isPrefix h₁ hlen]
  have hT := touches_accept (k := k) (l := l) hterm
  refine ⟨g.move (g.toState.accept i args.term k l), hx, rfl, ?_, hpre, h.set hT hinv h.indexed rfl
    (.of_not_candidate le_rfl (by simp [hr])) rfl ?_⟩
  · show _ < (g.toState.accept i args.term k l).acked i args.term
    rw [Ledger.State.accept_acked_self]
    exact lt_max_of_lt_right (by omega)
  · have hlog0 := hkeep 0 (Nat.zero_le _)
    exact {
      cfg := hi.cfg
      term := hi.term
      log := Ledger.State.accept_log_self
      base := by
        have : (l.take 1)[0]? = some sentinel := by
          rw [hlog0, List.getElem?_take_of_lt (by omega)]
          exact hi.base
        rwa [List.getElem?_take_of_lt (by omega)] at this
      ballot := hi.ballot
      active := fun hr' => absurd hr hr'
      leader := fun hr' => absurd (hr.symm.trans hr') (by simp)
      candidate := fun hr' => absurd (hr.symm.trans hr') (by simp)
      owned := hi.owned
      tracks := fun hr' => absurd (hr.symm.trans hr') (by simp)
      commit := by
        rcases hi.commit with hzero | ⟨u, hu, n, hn, hch, hh⟩
        · exact .inl hzero
        · refine .inr ⟨u, hu, n, hn, hch.ext hx, ?_⟩
          have hlen : (w.node i).commitIndex + 1 ≤
              ((g.ledger u).take ((w.node i).commitIndex + 1)).length := by
            have := hch.1.lt_length
            rw [List.length_take]
            omega
          have htake := Ledger.take_eq_of_isPrefix hh hlen
          rw [List.take_take, Nat.min_self] at htake
          show (g.ledger u).take ((w.node i).commitIndex + 1) <+: l
          rw [← htake, ← hkeep _ le_rfl]
          exact List.take_prefix _ _
      lastApplied := hi.lastApplied
      applied := by
        rw [hkeep _ hi.lastApplied]
        exact hi.applied }

/-- Fields that only the leader side reads, and a commit index that is justified. -/
theorem Sim.adjust (h : Sim M g w) {i : String} {r : Node Cmd}
    (hr : r = { w.node i with
      nextIndex := r.nextIndex, matchIndex := r.matchIndex, commitIndex := r.commitIndex })
    (htracks : r.role = .leader → ∀ p ∈ M.peers i, Tracks g r p)
    (hcommit : Committed M g r.log r.commitIndex r.currentTerm)
    (hle : (w.node i).commitIndex ≤ r.commitIndex) : Sim M g (w.set i r) := by
  have hi := h.node i
  have hlast := hi.lastApplied
  rw [hr] at htracks hcommit ⊢
  refine h.set (Touches.refl i g) h.inv h.indexed rfl (.of_eq rfl rfl rfl) rfl ?_
  exact { hi with
    tracks := htracks
    commit := hcommit
    lastApplied := hlast.trans hle }

/-! ### The wire -/

/-- Nobody has been asked, or counted, in a term the node has not reached. -/
theorem Sim.tally_fresh (h : Sim M g w) {i : String} {t : ℕ} (ht : (w.node i).currentTerm < t) :
    g.tally i t ++ outstanding w i t = [] := by
  rw [List.append_eq_nil_iff]
  constructor
  · refine List.eq_nil_iff_forall_not_mem.mpr fun j hj => ?_
    have := (h.tally i t j hj).2.1
    omega
  · refine List.eq_nil_iff_forall_not_mem.mpr fun j hj => ?_
    rcases List.mem_append.mp hj with hj | hj
    · obtain ⟨c, hc, -⟩ := List.mem_map.mp hj
      obtain ⟨hin, hp⟩ := List.mem_filter.mp hc
      obtain ⟨rfl, rfl⟩ := of_decide_eq_true hp
      have := (h.voteCalls c hin).term
      omega
    · obtain ⟨c, hc, -⟩ := List.mem_map.mp hj
      obtain ⟨hin, hp⟩ := List.mem_filter.mp hc
      obtain ⟨rfl, rfl⟩ := of_decide_eq_true hp
      have := (h.voteReturns c hin).term
      omega

/-- The vote requests of a new campaign go on the wire. -/
theorem Sim.addVoteCalls (h : Sim M g w) (i : String) (args : RequestVoteArgs) (ps : List String)
    (hok : ∀ p ∈ ps, VoteCallOk M (w.node i) ⟨i, p, args⟩)
    (hnd : (g.tally i args.term ++ outstanding w i args.term ++ ps).Nodup) :
    Sim M g { w with voteCalls := w.voteCalls ++ ps.map fun p => ⟨i, p, args⟩ } :=
  { h with
    voteCalls := fun c hc => by
      rcases List.mem_append.mp hc with hc | hc
      · exact h.voteCalls c hc
      · obtain ⟨p, hp, rfl⟩ := List.mem_map.mp hc
        exact hok p hp
    once := fun d t => by
      have hd := h.once d t
      unfold outstanding at hd hnd ⊢
      rw [List.filter_append, List.map_append]
      by_cases hm : i = d ∧ args.term = t
      · obtain ⟨rfl, rfl⟩ := hm
        have hall : (ps.map fun p => (⟨i, p, args⟩ : VoteCall)).filter
            (fun m => m.candidate = i ∧ m.args.term = args.term) = ps.map fun p => ⟨i, p, args⟩ :=
          List.filter_eq_self.mpr (by simp)
        rw [hall, List.map_map, show (VoteCall.peer ∘ fun p => ⟨i, p, args⟩) = id from rfl,
          List.map_id]
        refine (List.Perm.nodup_iff ?_).mp hnd
        simp only [List.append_assoc]
        exact (List.perm_append_comm.append_left _).append_left _
      · have hall : (ps.map fun p => (⟨i, p, args⟩ : VoteCall)).filter
            (fun m => m.candidate = d ∧ m.args.term = t) = [] :=
          List.filter_eq_nil_iff.mpr (by simpa using fun _ _ => not_and.mp hm)
        rw [hall, List.map_nil, List.append_nil]
        exact hd }

/-! ### Events -/

/-- The history can follow to `w'` without an entry being written. -/
def Followed (M : Membership) (g : Ghost Cmd) (w' : Cluster Cmd) : Prop :=
  ∃ g' : Ghost Cmd, Ext g.toState g'.toState ∧ g'.ledger = g.ledger ∧ Sim M g' w'

theorem Sim.followed (h : Sim M g w) : Followed M g w := ⟨g, Ext.refl _, rfl, h⟩

theorem Answered.followed {w' : Cluster Cmd} (h : Answered M g w') : Followed M g w' := by
  obtain ⟨g', hx, -, hl, hs⟩ := h
  exact ⟨g', hx, hl, hs⟩

/-- The history can follow to `w'`, where node `i` has written `f` on top of its log in `w`. -/
def Wrote (M : Membership) (g : Ghost Cmd) (w w' : Cluster Cmd) (i : String) (f : LogEntry Cmd) :
    Prop :=
  (w'.node i).log = (w.node i).log ++ [f] ∧ ∃ g' : Ghost Cmd, Ext g.toState g'.toState ∧
    g'.ledger = update g.ledger f.term ((w.node i).log ++ [f]) ∧ Sim M g' w'

theorem Sim.campaign (h : Sim M g w) {i : String} (hmem : i ∈ M.ids) :
    Followed M g (w.campaign M i) := by
  set t := (w.node i).currentTerm + 1 with ht
  have hlt : (w.node i).currentTerm < t := Nat.lt_succ_self _
  have hid : (w.node i).cfg.id = i := by
    rw [(h.node i).cfg]
    rfl
  have hempty := h.tally_fresh hlt
  have hvotes : (w.node i).votes t = 0 := by
    rw [h.votes i t, (List.append_eq_nil_iff.mp hempty).1]
    rfl
  obtain ⟨g₁, hx₁, htally, hled, hv, h₁⟩ := h.stand hmem hlt
  have hempty₁ : g₁.tally i t ++ outstanding w i t = [] := by rw [htally, hempty]
  have h₂ := h₁.count (c := i) (j := i) (t := t) hmem (by rw [Cluster.set_node_self])
    ⟨hv, fun _ _ => by
      rw [Cluster.set_node_self]
      have := h₁.inv.carries_self i t
      rwa [(h₁.node i).log, Cluster.set_node_self] at this⟩
    (by
      show i ∉ g₁.tally i t ++ outstanding w i t
      rw [hempty₁]
      simp)
  rw [Cluster.set_node_self, Cluster.set_set] at h₂
  simp only [hvotes] at h₂
  refine ⟨g₁.count i t i, hx₁, hled, ?_⟩
  have h₃ := h₂.addVoteCalls i (w.node i).startElection.2 (M.peers i)
    (fun p hp => ?_) ?_
  · have hcamp : w.campaign M i = { w.set i (w.node i).startElection.1 with
        voteCalls := w.voteCalls ++ (M.peers i).map fun p => ⟨i, p, (w.node i).startElection.2⟩ } :=
      rfl
    rw [hcamp]
    have hr : (w.node i).startElection.1 = { w.node i with
        role := .candidate, currentTerm := t, votedFor := i, leaderId := ""
        votes := update (w.node i).votes t (0 + 1) } := by
      simp [Node.startElection, hid, ht]
    rw [hr]
    exact h₃
  · rw [Cluster.set_node_self]
    exact ⟨hmem, hp, hid, Nat.succ_pos _, le_rfl, fun _ _ => ⟨rfl, rfl⟩⟩
  · show ((update g₁.tally i (update (g₁.tally i) t (i :: g₁.tally i t)) i t ++
      outstanding w i t) ++ M.peers i).Nodup
    rw [Function.update_self, Function.update_self, List.cons_append, hempty₁,
      List.singleton_append]
    exact List.nodup_cons.mpr
      ⟨fun hp => ((M.mem_peers i hmem i).mp hp).2 rfl, M.peers_nodup i hmem⟩

/-- A peer handles a vote request. -/
theorem Sim.answerVote (h : Sim M g w) {c : VoteCall} (hc : VoteCallOk M (w.node c.candidate) c)
    (hf : Fresh g w c.candidate c.args.term c.peer) :
    Followed M g (w.answerVote c) := by
  obtain ⟨-, hpeer⟩ := (M.mem_peers _ hc.candidate_mem c.peer).mp hc.peer_mem
  set r := (w.node c.peer).observe c.args.term with hr
  obtain ⟨g₁, hx₁, ht₁, hl₁, h₁⟩ := h.observe c.peer c.args.term
  rw [← hr] at h₁
  by_cases hgr : r.grants c.args
  · -- granted: the voter's ballot goes to the candidate
    obtain ⟨hterm, hvoted, hlog⟩ := hgr
    have hne : c.args.candidateId ≠ "" := by
      rw [hc.candidateId]
      rintro hnil
      exact M.nonempty (hnil ▸ hc.candidate_mem)
    obtain ⟨g₂, hx₂, ht₂, hl₂, hvote, h₂⟩ := h₁.grant (j := c.peer) hne
      (by rwa [Cluster.set_node_self])
    rw [Cluster.set_node_self] at hvote h₂
    rw [Cluster.set_set] at h₂
    rw [← hterm, hc.candidateId] at hvote
    have hcand : (w.set c.peer { r with votedFor := c.args.candidateId }).node c.candidate =
        w.node c.candidate := Cluster.set_node_ne _ _ hpeer.symm
    refine ⟨g₂, hx₁.trans hx₂, hl₂.trans hl₁, ?_⟩
    have hw : w.answerVote c = { w.set c.peer { r with votedFor := c.args.candidateId } with
        voteReturns := w.voteReturns ++
          [⟨c.candidate, c.peer, c.args.term, ⟨r.currentTerm, true⟩⟩] } := by
      rw [Cluster.answerVote, Node.handleRequestVote, ← hr, if_pos ⟨hterm, hvoted, hlog⟩]
    rw [hw]
    refine h₂.addVoteReturn ⟨hc.candidate_mem, hc.peer_mem, ?_, fun _ => ⟨hvote, ?_⟩⟩ ?_
    · rw [hcand]
      exact hc.term
    · -- while the candidate campaigns its last entry is the one the voter compared with
      rw [hcand]
      intro hrole hcur
      obtain ⟨hlt, hli⟩ := hc.last hrole hcur
      have hwf := h₂.wellFormed c.candidate
      have hlast := h₂.getLast? c.candidate
      have hidx := h₂.last_index c.candidate
      rw [hcand] at hwf hlast hidx
      have hpl := h₂.getLast? c.peer
      have hpi := h₂.last_index c.peer
      have hlogp := (h₂.node c.peer).log
      rw [Cluster.set_node_self] at hpl hpi hlogp
      rw [← hlogp] at hpl hpi
      refine h₂.inv.carries_of_upToDate hwf hlast hpl ?_ _
      rw [Node.logOk, hlt, hli] at hlog
      rcases hlog with hlog | ⟨hlog, hle⟩
      · exact .inl hlog
      · refine .inr ⟨hlog, ?_⟩
        have : r.last.index ≤ (w.node c.candidate).last.index := hle
        rw [← hidx, ← hpi]
        exact Nat.succ_le_succ this
    · show c.peer ∉ g₂.tally c.candidate c.args.term ++ outstanding w c.candidate c.args.term
      rw [ht₂, ht₁]
      exact hf
  · refine ⟨g₁, hx₁, hl₁, ?_⟩
    have hw : w.answerVote c = { w.set c.peer r with
        voteReturns := w.voteReturns ++
          [⟨c.candidate, c.peer, c.args.term, ⟨r.currentTerm, false⟩⟩] } := by
      rw [Cluster.answerVote, Node.handleRequestVote, ← hr, if_neg hgr]
    rw [hw]
    refine h₁.addVoteReturn ⟨hc.candidate_mem, hc.peer_mem, ?_, fun hg => absurd hg (by simp)⟩ ?_
    · rw [Cluster.set_node_ne _ _ hpeer.symm]
      exact hc.term
    · show c.peer ∉ g₁.tally c.candidate c.args.term ++ outstanding w c.candidate c.args.term
      rw [ht₁]
      exact hf

theorem Sim.becomeLeader (h : Sim M g w) {i : String} (hr : (w.node i).role = .candidate)
    (hmaj : (w.node i).majority ≤ (w.node i).votes (w.node i).currentTerm) :
    Wrote M g w (w.set i (w.node i).becomeLeader) i
      ⟨(w.node i).currentTerm, (w.node i).log.length, default⟩ := by
  obtain ⟨g₁, hx₁, hl₁, h₁⟩ := h.win hr hmaj
  obtain ⟨g₂, hx₂, hl₂, h₂⟩ := h₁.append (i := i) (by rw [Cluster.set_node_self]) default
  rw [Cluster.set_set, Cluster.set_node_self] at h₂
  rw [Node.becomeLeader, if_neg (by simp [hr]), Node.propose, if_neg (by simp)]
  refine ⟨by rw [Cluster.set_node_self], g₂, hx₁.trans hx₂, ?_, h₂⟩
  rw [hl₂, hl₁, Cluster.set_node_self, Function.update_idem]

/-- A reply reaches the election that asked for it. -/
theorem Sim.voteReply (h : Sim M g w) {c : VoteReturn}
    (hc : VoteReturnOk M g (w.node c.candidate) c) (hf : Fresh g w c.candidate c.term c.peer) :
    Followed M g (w.set c.candidate ((w.node c.candidate).onVoteReply c.term c.reply)) ∨
      ∃ f : LogEntry Cmd, f.command = default ∧
        Wrote M g w (w.set c.candidate ((w.node c.candidate).onVoteReply c.term c.reply))
          c.candidate f := by
  obtain ⟨hpeer, -⟩ := (M.mem_peers _ hc.candidate_mem c.peer).mp hc.peer_mem
  unfold Node.onVoteReply
  split
  · rename_i hlt
    exact .inl (h.becomeFollower hlt).followed
  split
  · rename_i hcond
    obtain ⟨hrole, hterm, hgr⟩ := hcond
    have h₁ := h.count hpeer hc.term (hc.granted hgr) hf
    dsimp only
    split
    · rename_i hmaj
      obtain ⟨hlog, g', hx, hl, hs⟩ := h₁.becomeLeader (i := c.candidate)
        (by rw [Cluster.set_node_self]; exact hrole)
        (by
          rw [Cluster.set_node_self]
          dsimp only
          rw [hterm]
          exact hmaj)
      rw [Cluster.set_set, Cluster.set_node_self] at hs
      simp only [Cluster.set_node_self] at hlog hl
      refine .inr ⟨⟨(w.node c.candidate).currentTerm, (w.node c.candidate).log.length, default⟩,
        rfl,
        ?_, g', hx, hl, hs⟩
      rw [Cluster.set_node_self]
      exact hlog
    · exact .inl ⟨g.count c.candidate c.term c.peer, Ext.refl _, rfl, h₁⟩
  · rw [Cluster.set_self]
    exact .inl h.followed

/-- A follower that has taken over the entries of `args` learns the leader's commit index. -/
theorem Sim.learnCommit (h : Sim M g w) {i leader : String} {args : AppendEntriesArgs Cmd}
    (ha : ArgsOk M g leader args) (hr : (w.node i).role = .follower)
    (ht : args.term = (w.node i).currentTerm)
    (hpre : (g.ledger args.term).take (args.prevLogIndex + 1 + args.entries.length) <+:
      (w.node i).log) :
    Sim M g (w.set i (if args.leaderCommit > (w.node i).commitIndex then
      { w.node i with commitIndex := min args.leaderCommit ((w.node i).log.length - 1) }
      else w.node i)) := by
  split
  swap
  · rw [Cluster.set_self]
    exact h
  rename_i hlt
  have hlen := hpre.length_le
  have hfits := ha.fits
  have hle := ha.commit_le
  rw [List.length_take] at hlen
  rw [min_eq_left (by omega)]
  refine h.adjust rfl (fun hl => absurd (hr.symm.trans hl) (by simp)) ?_ hlt.le
  show Committed M g (w.node i).log args.leaderCommit (w.node i).currentTerm
  -- the committed part of the ledger was among what has just been stored
  rcases ha.commit with hzero | ⟨u, hu, n, hn, hch, hh⟩
  · omega
  · refine .inr ⟨u, hu.trans ht.le, n, hn, hch, ?_⟩
    refine List.IsPrefix.trans ?_ hpre
    exact List.prefix_take_iff.mpr ⟨hh, by rw [List.length_take]; omega⟩

/-- A peer handles an append request. -/
theorem Sim.answerAppend (h : Sim M g w) {c : AppendCall Cmd} (hc : AppendCallOk M g c) :
    Followed M g (w.answerAppend c) := by
  set r := (w.node c.peer).observe c.args.term with hr
  obtain ⟨g₁, hx₁, -, hl₁, h₁⟩ := h.observe c.peer c.args.term
  rw [← hr] at h₁
  have hfail : ∀ {g' : Ghost Cmd} {r' : Node Cmd} {t : ℕ}, Sim M g' (w.set c.peer r') →
      Sim M g' { w.set c.peer r' with
        appendReturns := w.appendReturns ++ [⟨c.leader, c.peer, c.args, ⟨t, false⟩⟩] } :=
    fun h' => h'.addAppendReturn ⟨hc.leader_mem, hc.peer_mem, fun hs => absurd hs (by simp)⟩
  have hw : w.answerAppend c = { w.set c.peer ((w.node c.peer).handleAppendEntries c.args).1 with
      appendReturns := w.appendReturns ++
        [⟨c.leader, c.peer, c.args, ((w.node c.peer).handleAppendEntries c.args).2⟩] } := rfl
  rw [hw, Node.handleAppendEntries, ← hr]
  dsimp only
  split
  · -- from a term that is over
    exact ⟨g₁, hx₁, hl₁, hfail h₁⟩
  rename_i hge
  have hterm : c.args.term = r.currentTerm :=
    (Node.le_observe _ _).antisymm (Nat.not_lt.mp hge)
  have h₂ := h₁.follow c.peer c.args.leaderId
  have ha := hc.args.ext hx₁
  rw [Cluster.set_node_self, Cluster.set_set] at h₂
  split
  · -- the previous entry does not match
    exact ⟨g₁, hx₁, hl₁, hfail h₂⟩
  rename_i hmatch
  obtain ⟨g₃, hx₃, hl₃, hack, hpre, h₃⟩ := h₂.accept (i := c.peer)
    (by rw [Cluster.set_node_self]) ha (by rw [Cluster.set_node_self]; exact hterm)
    (by rw [Cluster.set_node_self]; exact not_not.mp hmatch)
  rw [Cluster.set_node_self] at hpre h₃
  rw [Cluster.set_set] at h₃
  have ha₃ := ha.ext hx₃
  have hsame : (g₃.ledger c.args.term).take (c.args.prevLogIndex + 1 + c.args.entries.length) =
      (g₁.ledger c.args.term).take (c.args.prevLogIndex + 1 + c.args.entries.length) :=
    Ledger.take_eq_of_isPrefix (hx₃.ledger _) ha.fits
  have h₄ := h₃.learnCommit (i := c.peer) ha₃ (by rw [Cluster.set_node_self])
    (by rw [Cluster.set_node_self]; exact hterm)
    (by rw [Cluster.set_node_self, hsame]; exact hpre)
  rw [Cluster.set_node_self, Cluster.set_set] at h₄
  exact ⟨g₃, hx₁.trans hx₃, hl₃.trans hl₁,
    h₄.addAppendReturn ⟨hc.leader_mem, hc.peer_mem, fun _ => hack⟩⟩

/-- **The commit rule.**  An entry of the leader's own term that a majority is known to
have is chosen. -/
theorem Sim.chosen_of_replicas (h : Sim M g w) {i : String} {k c : ℕ} {e : LogEntry Cmd}
    (hr : (w.node i).role = .leader) (hk : 0 < k) (he : (w.node i).log[k]? = some e)
    (het : e.term = (w.node i).currentTerm)
    (hc : (w.node i).replicas k (w.node i).cfg.peers = .ok c)
    (hmaj : (w.node i).majority ≤ 1 + c) :
    g.Chosen M.members (w.node i).currentTerm k := by
  have hi := h.node i
  obtain ⟨-, hmem⟩ := hi.active (by simp [hr])
  obtain ⟨-, hled, hack⟩ := hi.leader hr
  have hpeers : (w.node i).cfg.peers = M.peers i := by
    rw [hi.cfg]
    rfl
  set voters := (M.peers i).filter fun p => ((w.node i).matchIndex p).any (k ≤ ·) with hvoters
  have hcount := Node.replicas_spec hc
  rw [hpeers, ← hvoters] at hcount
  have hpeer : ∀ p ∈ voters, p ∈ M.peers i := fun p hp => (List.mem_filter.mp hp).1
  have hq : Ledger.IsQuorum M.members (i :: voters).toFinset := by
    refine M.isQuorum hmem (fun j hj => ?_) (List.nodup_cons.mpr ⟨fun hin => ?_, ?_⟩) ?_
    · rcases List.mem_cons.mp hj with rfl | hj
      · exact hmem
      · exact ((M.mem_peers i hmem j).mp (hpeer j hj)).1
    · exact ((M.mem_peers i hmem i).mp (hpeer i hin)).2 rfl
    · exact (M.peers_nodup i hmem).filter _
    · rw [Node.majority, hpeers] at hmaj
      rw [List.length_cons]
      omega
  refine ⟨⟨e, by rwa [hled], het⟩, _, hq, fun j hj => ?_⟩
  rcases List.mem_cons.mp (List.mem_toFinset.mp hj) with rfl | hj
  · rw [hack]
    exact Ledger.lt_length_of_getElem? he
  · obtain ⟨m, n, hm, -, -, -, -, hackd⟩ := hi.tracks hr j (hpeer j hj)
    have hkm : k ≤ m := by
      have := (List.mem_filter.mp hj).2
      rw [hm, Option.any_some] at this
      exact of_decide_eq_true this
    exact hkm.trans_lt (hackd (hk.trans_le hkm))

/-- `_advance_commit_index` commits only what is chosen. -/
theorem Sim.advanceCommitIndex (h : Sim M g w) {i : String} {r' : Node Cmd}
    (hr : (w.node i).role = .leader) (ha : (w.node i).advanceCommitIndex = .ok r') :
    Sim M g (w.set i r') := by
  rcases Node.advanceLoop_spec ha with rfl | ⟨k, c, e, rfl, hlt, he, het, hc, hmaj⟩
  · rw [Cluster.set_self]
    exact h
  have hch := h.chosen_of_replicas hr (Nat.zero_lt_of_lt hlt) he het hc hmaj
  refine h.adjust rfl (fun _ => (h.node i).tracks hr) (.inr ⟨_, le_rfl, k, le_rfl, hch, ?_⟩) hlt.le
  show g.Holds (w.node i).log (w.node i).currentTerm k
  rw [← ((h.node i).leader hr).2.1]
  exact List.take_prefix _ _

/-- What a leader takes note of when `peer` has answered. -/
theorem Sim.track (h : Sim M g w) (i peer : String) {m : Option ℕ} {n : ℕ}
    (htrack : (w.node i).role = .leader → Tracks g { w.node i with
      matchIndex := update (w.node i).matchIndex peer m
      nextIndex := update (w.node i).nextIndex peer (some n) } peer) :
    Sim M g (w.set i { w.node i with
      matchIndex := update (w.node i).matchIndex peer m
      nextIndex := update (w.node i).nextIndex peer (some n) }) := by
  refine h.adjust rfl (fun hr p hp => ?_) (h.node i).commit le_rfl
  by_cases hpp : p = peer
  · subst hpp
    exact htrack hr
  · obtain ⟨m', n', hm, hn, hrest⟩ := (h.node i).tracks hr p hp
    refine ⟨m', n', ?_, ?_, hrest⟩
    · rw [← hm]
      exact Function.update_of_ne hpp _ _
    · rw [← hn]
      exact Function.update_of_ne hpp _ _

/-- A reply reaches the `_replicate_to` that waits for it. -/
theorem Sim.appendReply (h : Sim M g w) {c : AppendReturn Cmd} (hc : AppendReturnOk M g c) :
    Followed M g (w.set c.leader
      ((w.node c.leader).onAppendReply c.peer c.args.term c.args c.reply).1) := by
  have hi := h.node c.leader
  unfold Node.onAppendReply
  split
  · rename_i hlt
    exact (h.becomeFollower hlt).followed
  refine ⟨g, Ext.refl _, rfl, ?_⟩
  split
  · rw [Cluster.set_self]
    exact h
  rename_i hcond
  push Not at hcond
  obtain ⟨hrole, hterm⟩ := hcond
  obtain ⟨hown, hled, -⟩ := hi.leader hrole
  split
  · -- a success: the peer has everything that was sent
    rename_i hsucc
    have hack := hc.success hsucc
    rw [← hterm] at hack
    have hlen := hack.trans_le (h.inv.acked_le c.peer _)
    rw [hled] at hlen
    have h₁ := h.track c.leader c.peer
      (m := some (c.args.prevLogIndex + c.args.entries.length))
      (n := c.args.prevLogIndex + c.args.entries.length + 1)
      fun _ => ⟨_, _, Function.update_self _ _ _, Function.update_self _ _ _, by omega, hlen, hlen,
        fun _ => hack⟩
    dsimp only
    split
    · rename_i r' hadv
      have h₂ := h₁.advanceCommitIndex (i := c.leader) (by rw [Cluster.set_node_self]; exact hrole)
        (by rw [Cluster.set_node_self]; exact hadv)
      rwa [Cluster.set_set] at h₂
    · exact h₁
  · -- a mismatch: one step back
    obtain ⟨m, n, hm, hn, hpos, hle, hrest⟩ := hi.tracks hrole c.peer hc.peer_mem
    rw [hn]
    dsimp only
    split
    · have h₁ := h.track c.leader c.peer (m := some m) (n := n - 1)
        fun _ => ⟨m, n - 1, Function.update_self _ _ _, Function.update_self _ _ _, by omega,
          (Nat.sub_le _ _).trans hle, hrest⟩
      rwa [← hm, Function.update_eq_self] at h₁
    · rw [Cluster.set_self]
      exact h

/-- A leader sends what `_next_index` says the peer lacks. -/
theorem Sim.replicate (h : Sim M g w) {i peer : String} {term : ℕ}
    {args : AppendEntriesArgs Cmd} (hpeer : peer ∈ M.peers i)
    (ha : (w.node i).replicateTo peer term = .ok (some args)) :
    Sim M g { w with appendCalls := w.appendCalls ++ [⟨i, peer, args⟩] } := by
  have hi := h.node i
  unfold Node.replicateTo at ha
  split at ha
  · cases ha
  rename_i hcond
  push Not at hcond
  obtain ⟨hrole, rfl⟩ := hcond
  obtain ⟨-, hmem⟩ := hi.active (by simp [hrole])
  obtain ⟨hown, hled, -⟩ := hi.leader hrole
  obtain ⟨m, n, -, hn, hpos, hle, -⟩ := hi.tracks hrole peer hpeer
  obtain ⟨prev, rfl⟩ : ∃ prev, n = prev + 1 := ⟨n - 1, by omega⟩
  rw [hn] at ha
  dsimp only at ha
  split at ha
  · cases ha
  rename_i e he
  cases ha
  have hcommit := h.commit_lt i
  refine h.addAppendCall ⟨hmem, hpeer, ?_⟩
  exact {
    owner := hown
    leaderId := by
      rw [hi.cfg]
      rfl
    fits := by
      rw [hled]
      simp only [List.length_drop]
      omega
    prev := by rw [hled, he, Option.map_some]
    entries := by rw [hled, List.take_of_length_le le_rfl]
    commit_le := by
      simp only [List.length_drop]
      omega
    commit := by
      rw [hled]
      exact hi.commit }

/-- What one wake-up of the applier does. -/
theorem Sim.applier_eq (h : Sim M g w) (i : String) : (w.node i).applier =
    ({ w.node i with lastApplied := (w.node i).commitIndex },
      ((w.node i).log.take ((w.node i).commitIndex + 1)).drop ((w.node i).lastApplied + 1),
      .ok ()) := by
  have hlast := (h.node i).lastApplied
  have hlt := h.commit_lt i
  have hloop : Node.applyLoop (w.node i).log (w.node i).lastApplied
      ((w.node i).commitIndex - (w.node i).lastApplied) = _ :=
    Node.applyLoop_spec (by omega)
  rw [Node.applier, hloop, List.drop_take, Nat.add_sub_cancel' hlast, Nat.add_sub_add_right]

/-- The applier hands over the committed entries that are next. -/
theorem Sim.deliver (h : Sim M g w) (i : String) : Sim M g (w.deliver i) := by
  have hi := h.node i
  have hlast := hi.lastApplied
  have hlt := h.commit_lt i
  have hw : w.deliver i = { w.set i { w.node i with lastApplied := (w.node i).commitIndex } with
      applied := update w.applied i (w.applied i ++ ((w.node i).log.take
        ((w.node i).commitIndex + 1)).drop ((w.node i).lastApplied + 1)) } := by
    rw [Cluster.deliver, h.applier_eq]
  rw [hw]
  refine h.setApplied (Touches.refl i g) h.inv h.indexed rfl (.of_eq rfl rfl rfl) rfl ?_
  exact { hi with
    lastApplied := le_rfl
    applied := by
      show _ = ((w.node i).log.take ((w.node i).commitIndex + 1)).drop 1
      set l := (w.node i).log.take ((w.node i).commitIndex + 1) with hl
      have hlen : 1 ≤ (l.take ((w.node i).lastApplied + 1)).length := by
        rw [hl, List.take_take, List.length_take]
        omega
      have hpre : l.take ((w.node i).lastApplied + 1) =
          (w.node i).log.take ((w.node i).lastApplied + 1) := by
        rw [hl, List.take_take, min_eq_left (by omega)]
      rw [hi.applied, ← hpre, ← List.drop_append_of_le_length hlen, List.take_append_drop] }

theorem Sim.propose (h : Sim M g w) (i : String) (command : Cmd) :
    Followed M g (w.set i ((w.node i).propose command).1) ∨
      ∃ f : LogEntry Cmd, f.command = command ∧
        Wrote M g w (w.set i ((w.node i).propose command).1) i f := by
  unfold Node.propose
  split
  · rw [Cluster.set_self]
    exact .inl h.followed
  · rename_i hr
    exact .inr ⟨⟨(w.node i).currentTerm, (w.node i).log.length, command⟩, rfl,
      by rw [Cluster.set_node_self], h.append (not_not.mp hr) command⟩

/-- How the ledgers may grow in a step: not at all, or by an entry that a node writes on
top of its log, a no-op or what it is asked to propose. -/
def Grows (w w' : Cluster Cmd) (e : Event Cmd) (g g' : Ghost Cmd) : Prop :=
  g'.ledger = g.ledger ∨ ∃ i f, (w'.node i).log = (w.node i).log ++ [f] ∧
    g'.ledger = update g.ledger f.term ((w.node i).log ++ [f]) ∧
    (f.command = default ∨ e = .propose i f.command)

theorem Followed.grows {w' : Cluster Cmd} {e : Event Cmd} (h : Followed M g w') :
    ∃ g' : Ghost Cmd, Ext g.toState g'.toState ∧ Grows w w' e g g' ∧ Sim M g' w' := by
  obtain ⟨g', hx, hl, hs⟩ := h
  exact ⟨g', hx, .inl hl, hs⟩

theorem Wrote.grows {w' : Cluster Cmd} {e : Event Cmd} {i : String} {f : LogEntry Cmd}
    (h : Wrote M g w w' i f) (hf : f.command = default ∨ e = .propose i f.command) :
    ∃ g' : Ghost Cmd, Ext g.toState g'.toState ∧ Grows w w' e g g' ∧ Sim M g' w' := by
  obtain ⟨hlog, g', hx, hl, hs⟩ := h
  exact ⟨g', hx, .inr ⟨i, f, hlog, hl, hf⟩, hs⟩

/-- **Every step is answered**: one case for each event. -/
theorem Sim.step {w' : Cluster Cmd} {e : Event Cmd} (h : Sim M g w)
    (he : Cluster.step M w e = some w') :
    ∃ g' : Ghost Cmd, Ext g.toState g'.toState ∧ Grows w w' e g g' ∧ Sim M g' w' := by
  cases e with
  | start n =>
    obtain ⟨-, ⟨⟩⟩ := Option.ite_none_right_eq_some.mp he
    refine Followed.grows (Sim.followed ?_)
    exact (h.follow n "").shrink rfl rfl (.refl _) (.refl _) (.refl _) (.refl _)
  | stop n =>
    obtain ⟨-, ⟨⟩⟩ := Option.ite_none_right_eq_some.mp he
    exact Followed.grows <| Sim.followed <|
      h.shrink rfl rfl (.refl _) (.refl _) (.refl _) (.refl _)
  | electionTimeout n =>
    obtain ⟨⟨hn, -, -⟩, ⟨⟩⟩ := Option.ite_none_right_eq_some.mp he
    exact (h.campaign hn).grows
  | propose n command =>
    obtain ⟨-, ⟨⟩⟩ := Option.ite_none_right_eq_some.mp he
    rcases h.propose n command with hs | ⟨f, rfl, hs⟩
    · exact hs.grows
    · exact hs.grows (.inr rfl)
  | replicate n peer term =>
    rw [Cluster.step] at he
    split at he
    swap
    · cases he
    rename_i hcond
    split at he <;> cases he
    · rename_i args hargs
      exact (h.replicate hcond.2.2 hargs).followed.grows
    · exact h.followed.grows
  | handleRequestVote k =>
    obtain ⟨c, hc, rfl⟩ := Option.map_eq_some_iff.mp he
    have h₁ : Sim M g { w with voteCalls := w.voteCalls.eraseIdx k } :=
      h.shrink rfl rfl (List.eraseIdx_sublist _ _) (.refl _) (.refl _) (.refl _)
    exact (h₁.answerVote (h.voteCalls c (List.mem_of_getElem? hc)) (h.fresh_of_voteCall hc)).grows
  | voteReply k =>
    obtain ⟨c, hc, rfl⟩ := Option.map_eq_some_iff.mp he
    have h₁ : Sim M g { w with voteReturns := w.voteReturns.eraseIdx k } :=
      h.shrink rfl rfl (.refl _) (List.eraseIdx_sublist _ _) (.refl _) (.refl _)
    rcases h₁.voteReply (h.voteReturns c (List.mem_of_getElem? hc)) (h.fresh_of_voteReturn hc)
      with hs | ⟨f, hf, hs⟩
    · exact hs.grows
    · exact hs.grows (.inl hf)
  | loseVoteCall k =>
    cases he
    exact Followed.grows <| Sim.followed <|
      h.shrink rfl rfl (List.eraseIdx_sublist _ _) (.refl _) (.refl _) (.refl _)
  | loseVoteReturn k =>
    cases he
    exact Followed.grows <| Sim.followed <|
      h.shrink rfl rfl (.refl _) (List.eraseIdx_sublist _ _) (.refl _) (.refl _)
  | handleAppendEntries k =>
    obtain ⟨c, hc, rfl⟩ := Option.map_eq_some_iff.mp he
    have h₁ : Sim M g { w with appendCalls := w.appendCalls.eraseIdx k } :=
      h.shrink rfl rfl (.refl _) (.refl _) (List.eraseIdx_sublist _ _) (.refl _)
    exact (h₁.answerAppend (h.appendCalls c (List.mem_of_getElem? hc))).grows
  | appendReply k =>
    obtain ⟨c, hc, rfl⟩ := Option.map_eq_some_iff.mp he
    have h₁ : Sim M g { w with appendReturns := w.appendReturns.eraseIdx k } :=
      h.shrink rfl rfl (.refl _) (.refl _) (.refl _) (List.eraseIdx_sublist _ _)
    exact (h₁.appendReply (h.appendReturns c (List.mem_of_getElem? hc))).grows
  | loseAppendCall k =>
    cases he
    exact Followed.grows <| Sim.followed <|
      h.shrink rfl rfl (.refl _) (.refl _) (List.eraseIdx_sublist _ _) (.refl _)
  | loseAppendReturn k =>
    cases he
    exact Followed.grows <| Sim.followed <|
      h.shrink rfl rfl (.refl _) (.refl _) (.refl _) (List.eraseIdx_sublist _ _)
  | applier n =>
    obtain ⟨-, ⟨⟩⟩ := Option.ite_none_right_eq_some.mp he
    exact (h.deliver n).followed.grows

/-- Along a run the history grows with the cluster. -/
theorem Sim.steps {w' : Cluster Cmd} (h : Sim M g w) (hs : Steps M w w') :
    ∃ g' : Ghost Cmd, Ext g.toState g'.toState ∧ Sim M g' w' := by
  refine Run.history (fun w g => Sim M g w) (fun g g' => Ext g.toState g'.toState)
    (fun _ => Ext.refl _) Ext.trans ?_ hs h
  rintro w w' g ⟨e, he⟩ h
  obtain ⟨g', hx, -, hs⟩ := h.step he
  exact ⟨g', hx, hs⟩

/-- Every reachable state has a history. -/
theorem Reachable.exists_history (h : Reachable M w) : ∃ g : Ghost Cmd, Sim M g w := by
  obtain ⟨g, -, hg⟩ := (sim_init M).steps h
  exact ⟨g, hg⟩

end Raft
