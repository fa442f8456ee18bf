/-
Hand-offs and terms (`RegionOwnerService.HandOff`).

`HandOff` compares the term of the request once, before `add_agent` waits for the
lock of the shard.

* `AcceptedCall` — a hand-off is answered with `accepted = True`;
* `Appended` — this replica has appended the entry of the call, as leader of a term;
  `Adding.appended` — the term is that in which the call took the lock;
* `handoff_is_fenced` — it is the term of the request just when the replica was still
  in that term then; `handoff_is_not_fenced` — a leader that is deposed and elected
  again while the call waits for the lock.
-/
import Dssd.RegionFailed

open Function (update)
open Ledger.State (Ext)

namespace Region

open Raft (Cluster LogEntry Membership Node Ghost Sim)

variable {S : Setup} {g : String → Ghost Snapshot} {v v' : Shards} {w₀ w w' : World} {e : Event}
  {s n : String} {c : Call} {i : ℕ}

/-- The hand-off `c`, for which `add_agent` took the lock in `w₀` and then proposed entry `i`, is
answered with `accepted = True` in the step from `w` to `w'`. -/
structure AcceptedCall (S : Setup) (s n : String) (c : Call) (i : ℕ) (w₀ w w' : World) : Prop where
  adding : Adding S s n w₀ w
  lock : ∃ a t before, w.lock s n = some (.place a (some c) t i before)
  step : World.step S w (.poll s n) = some w'
  reply : w'.replies = w.replies ++ [(c, ⟨true, ""⟩)]

/-- Since it took the lock in `w₀` the call has made this replica append `f` as entry `i`, as
leader of term `t`. -/
def Appended (S : Setup) (s n : String) (w₀ w : World) (t i : ℕ) (f : LogEntry Snapshot) : Prop :=
  ∃ w₁ e w₂, Adding S s n w₀ w₁ ∧ World.step S w₁ e = some w₂ ∧ Steps S w₂ w ∧
    (w₁.node s n).state = (t, true) ∧ (w₁.node s n).log.length = i ∧
      (w₂.node s n).log = (w₁.node s n).log ++ [f] ∧ f.term = t

/-- The entry that placed the agent of `c` was appended by this replica as leader of the term
that the request names, and is committed. -/
def Fenced (S : Setup) (s n : String) (c : Call) (i : ℕ) (w₀ w : World) : Prop :=
  ∃ f l, Appended S s n w₀ w c.term i f ∧ f.command = some l ∧ c.departure.agent ∈ l ∧
    (w.node s n).log[i]? = some f ∧ i ≤ (w.node s n).commitIndex

/-! ### The term of a call -/

/-- What `add_agent` proposes as leader of term `t`. -/
theorem log_place (a : AgentState) (caller : Option Call) {t : ℕ}
    (hstate : (v.node s n).state = (t, true)) :
    ((v.place s n a caller).node s n).state = (t, true) ∧
      ∃ f, ((v.place s n a caller).node s n).log = (v.node s n).log ++ [f] ∧ f.term = t := by
  obtain ⟨ht, hr⟩ := World.state_leader.mp hstate
  -- the node is a leader, so `propose` appends
  rw [Shards.node_place, if_pos ⟨rfl, rfl⟩, Node.propose, if_neg (by simp [hr])]
  exact ⟨hstate, _, rfl, ht⟩

theorem Appended.term {t i : ℕ} {f : LogEntry Snapshot} (h : Appended S s n w₀ w t i f) :
    f.term = t :=
  let ⟨_, _, _, _, _, _, _, _, _, ht⟩ := h
  ht

theorem Appended.step {t i : ℕ} {f : LogEntry Snapshot} (h : Appended S s n w₀ w t i f)
    (hs : World.step S w e = some w') : Appended S s n w₀ w' t i f := by
  obtain ⟨w₁, e₁, w₂, hadd, hstep, hsteps, hrest⟩ := h
  exact ⟨w₁, e₁, w₂, hadd, hstep, hsteps.tail ⟨e, hs⟩, hrest⟩

/-- **A call proposes in the term in which it took the lock**, by induction on what happens while
it has the lock; its entry is in the history of that term. -/
theorem Adding.appended (h₀ : Reachable S w₀) (h : Adding S s n w₀ w) :
    ∃ g : String → Ghost Snapshot, Past S g w.toShards ∧
      ((∃ a caller i, w.lock s n = some (.catchUp a caller (w₀.node s n).currentTerm i)) ∨
        ∃ a caller i before f, w.lock s n =
            some (.place a caller (w₀.node s n).currentTerm i before) ∧
          Appended S s n w₀ w (w₀.node s n).currentTerm i f ∧
            ((g s).ledger (w₀.node s n).currentTerm)[i]? = some f) := by
  induction h with
  | @acquire k t w hk hs hn h hheld =>
    subst hs hn
    obtain ⟨g, hp⟩ := Reachable.exists_past (h₀.tail ⟨_, h⟩)
    refine ⟨g, hp, .inl ⟨t.agent, t.caller, (w₀.node t.shard t.node).lastIndex, ?_⟩⟩
    rw [acquire_held hk h hheld, Shards.lock_setReplica_self]
  | @step e w w' hw h hheld ih =>
    obtain ⟨g, hp, ih⟩ := ih
    obtain ⟨g', hx, -, hp'⟩ := hp.step h
    refine ⟨g', hp', ?_⟩
    rcases ih with ⟨a, caller, i, hlock⟩ | ⟨a, caller, i, before, f, hlock, happ, hled⟩
    · rcases (World.step_change h).held hlock hheld with
        ⟨hl, -⟩ | ⟨a, caller, t, i, heq, hstate, -, hv⟩
      · -- still waiting for its log to be applied
        exact .inl ⟨a, caller, i, hl⟩
      · -- the proposal
        obtain ⟨rfl, rfl, rfl, rfl⟩ : _ = a ∧ _ = caller ∧ _ = t ∧ _ = i := by simpa using heq
        obtain ⟨hstate', f, hlog, hf⟩ := log_place a caller hstate
        rw [← hv] at hstate' hlog
        refine .inr ⟨a, caller, (w.node s n).log.length, w.agents s n, f, ?_, ?_, ?_⟩
        · rw [hv, Shards.lock_place, if_pos ⟨rfl, rfl⟩, (World.state_leader.mp hstate).1]
        · exact ⟨w, e, w', hw, h, .refl, hstate, rfl, hlog, hf⟩
        · obtain ⟨ht, hr⟩ := World.state_leader.mp hstate'
          have hled := ((hp'.node_ok s n).leader hr).2.1
          rw [ht] at hled
          rw [hled, hlog]
          exact List.getElem?_concat_length
    -- it has proposed, and cannot do so again
    · rcases (World.step_change h).held hlock hheld with ⟨hl, -⟩ | ⟨_, _, _, _, heq, -⟩
      · exact .inr ⟨a, caller, i, before, f, hl, happ.step h,
          Ledger.getElem?_of_isPrefix ((hx s).ledger _) hled⟩
      · cases heq

/-! ### Accepted hand-offs -/

/-- A hand-off is accepted when its call finds its entry applied in the term of its proposal. -/
theorem AcceptedCall.accepts (h : AcceptedCall S s n c i w₀ w w') : ∃ a t before,
    w.lock s n = some (.place a (some c) t i before) ∧ (w.node s n).state = (t, true) ∧
      i ≤ (w.node s n).lastApplied := by
  obtain ⟨a, t, before, hlock⟩ := h.lock
  refine ⟨a, t, before, hlock, ?_⟩
  have hs := h.step
  have hr := h.reply
  rw [World.step, World.poll, hlock] at hs
  dsimp only at hs
  split at hs
  · cases hs
    -- given up, which is answered with `accepted = False`
    have := List.append_cancel_left hr
    simp at this
  · rename_i hstate
    split at hs
    · rename_i hi
      exact ⟨not_not.mp hstate, hi⟩
    · cases hs

/-- **Hand-offs are fenced by term** just when the replica is in the term of the request as the
call takes the lock. -/
theorem handoff_is_fenced (h₀ : Reachable S w₀) (h : AcceptedCall S s n c i w₀ w w') :
    Fenced S s n c i w₀ w ↔ (w₀.node s n).currentTerm = c.term := by
  obtain ⟨a, t, before, hlock, hstate, hi⟩ := h.accepts
  obtain ⟨g, hp, ⟨_, _, _, hl⟩ | ⟨_, _, _, _, f, hl, happ, hled⟩⟩ := h.adding.appended h₀
  · rw [hlock] at hl
    cases hl
  rw [hlock] at hl
  cases hl
  -- the entry of the call, in the log of the leader
  have hlog : (w.node s n).log[i]? = some f := by
    obtain ⟨ht, hr⟩ := World.state_leader.mp hstate
    have := ((hp.node_ok s n).leader hr).2.1
    rw [ht] at this
    rw [this] at hled
    exact hled
  constructor
  · rintro ⟨f', l, happ', -, -, hlog', -⟩
    rw [hlog] at hlog'
    obtain rfl := Option.some_inj.mp hlog'
    exact happ.term.symm.trans happ'.term
  -- the agent is in the snapshot that the call has proposed
  · intro heq
    obtain ⟨g', hp', hc⟩ := Reachable.exists_chain (h₀.trans h.adding.steps)
    obtain ⟨f', l, hlog', hcmd, hmem⟩ := hp'.own_entry (hc.lock s n) hlock hstate
    rw [hlog] at hlog'
    obtain rfl := Option.some_inj.mp hlog'
    have hok := hc.lock s n
    rw [hlock] at hok
    obtain ⟨j, -, -, hcall⟩ := hok
    obtain ⟨-, hagent, -⟩ := hcall c rfl
    exact ⟨f, l, heq ▸ happ, hcmd, hagent ▸ hmem, hlog, hi.trans (hp.node_ok s n).lastApplied⟩

/-! ### Two nodes and two shards -/

/-- Node `n1` leads `0-0`, whose only agent is about to leave it, and `n2` leads `0-1`. -/
def duoReady : List Event := duoSpawn ++ [.poll "0-0" "n1"]

/-- A tick of `n1` hands its agent off, and the call waits for the lock of `0-1` on `n2`. -/
def duoOffer : List Event :=
  [.tickStart "n1", .tickVisit "n1", .tickEnter "n1", .tickVisit "n1", .tickVisit "n1",
    .tickSend "n1", .handle 0]

/-- The request of that hand-off, after `m` agents have been placed. -/
def duoRequest (m : ℕ) : Call := ⟨0, "n1", "n2", 1, ⟨"0-0", ⟨"a", 15, 5, -16, 0⟩, "0-1", m⟩⟩

/-- The call has taken the lock, and then this has happened. -/
def duoCall (w₀ : World) (es : List Event) (h : (call duo "0-1" "n2" w₀ 0 es).isSome = true) :
    World :=
  (call duo "0-1" "n2" w₀ 0 es).get h

theorem duo_acceptedCall {w₀ : World} (es : List Event) {h} (a : AgentState) (t : ℕ)
    (before : Registry) (hk : w₀.waiting[0]?.isSome = true)
    (hs : (w₀.waiting[0]?.get hk).shard = "0-1") (hn : (w₀.waiting[0]?.get hk).node = "n2")
    (hlock : (duoCall w₀ es h).lock "0-1" "n2" = some (.place a (some c) t i before))
    (hpoll : ((duoCall w₀ es h).poll "0-1" "n2").isSome = true)
    (hreply : (((duoCall w₀ es h).poll "0-1" "n2").get hpoll).replies =
      (duoCall w₀ es h).replies ++ [(c, ⟨true, ""⟩)]) :
    AcceptedCall duo "0-1" "n2" c i w₀ (duoCall w₀ es h)
      (((duoCall w₀ es h).poll "0-1" "n2").get hpoll) where
  adding := .of_call (Option.some_get hk).symm hs hn (Option.some_get h).symm
    (by rw [hlock]; exact Option.some_ne_none _)
  lock := ⟨a, t, before, hlock⟩
  step := (Option.some_get hpoll).symm
  reply := hreply

theorem handoff_is_fenced_duo : ∃ w₀ w w', AcceptedCall duo "0-1" "n2" (duoRequest 1) 2 w₀ w w' ∧
    Fenced duo "0-1" "n2" (duoRequest 1) 2 w₀ w := by
  have hcall : AcceptedCall duo "0-1" "n2" (duoRequest 1) 2
      (duoAfter (duoReady ++ duoOffer) (by decide +kernel)) _ _ :=
    duo_acceptedCall (.poll "0-1" "n2" :: duoCommit "0-1" "n2" "n1") (h := by decide +kernel)
      (duoRequest 1).departure.agent 1 .empty (by decide +kernel) (by decide +kernel)
      (by decide +kernel) (by decide +kernel) (by decide +kernel) (by decide +kernel)
  exact ⟨_, _, _, hcall, (handoff_is_fenced (Run.steps_get _) hcall).mpr (by decide +kernel)⟩

/-- Another agent of `0-1`. -/
def runner : AgentState := ⟨"b", 15, 5, 0, 0⟩

/-- Node `n1` takes the lead of `0-1` away from `n2`, which wins it back. -/
def duoReelect : List Event :=
  raftEvents "0-1" [.electionTimeout "n1", .handleRequestVote 0, .loseVoteReturn 0,
    .electionTimeout "n2", .handleRequestVote 0, .voteReply 0]

def duoCommit₃ : List Event :=
  raftEvents "0-1" [.replicate "n2" "n1" 3, .handleAppendEntries 0, .appendReply 0, .applier "n2"]

/-- While the hand-off of term 1 waits for the lock, `n2` is deposed and elected again: it places
the agent as leader of term 3. -/
theorem handoff_is_not_fenced : ∃ w₀ w w', Reachable duo w₀ ∧
    AcceptedCall duo "0-1" "n2" (duoRequest 2) 4 w₀ w w' ∧
      ¬ Fenced duo "0-1" "n2" (duoRequest 2) 4 w₀ w := by
  have hcall : AcceptedCall duo "0-1" "n2" (duoRequest 2) 4
      (duoAfter (duoReady ++ [.spawn "n2" runner, .acquire 0, .poll "0-1" "n2"] ++ duoOffer ++
        duoReelect ++ [.poll "0-1" "n2"]) (by decide +kernel)) _ _ :=
    duo_acceptedCall (duoCommit₃ ++ duoCommit₃ ++ .poll "0-1" "n2" :: duoCommit₃)
      (h := by decide +kernel) (duoRequest 2).departure.agent 3 (.ofList [runner])
      (by decide +kernel) (by decide +kernel) (by decide +kernel)
      (by decide +kernel) (by decide +kernel) (by decide +kernel)
  refine ⟨_, _, _, Run.steps_get _, hcall, ?_⟩
  rintro ⟨f, l, happ, -, -, hlog, -⟩
  have hterm := congrArg (Option.map LogEntry.term) hlog
  rw [Option.map_some, happ.term] at hterm
  exact absurd hterm (by decide +kernel)

end Region
