/-
A node refutes what is said about it (`Node._merge`, `Node._me`).

* `Node.Own` — what a node knows about itself: it is no member of its own, and what it
  gossips about itself says `ALIVE`, with no incarnation newer than its own;
* `Proc.heard` — the updates that a run has merged;
* `Node.get?_mergeAll_refuted` — what a peer makes of a message of a node that is newer
  than the peer's record of it;
* **`Proc.refutation_wins`** — a node that has heard that it is `SUSPECT` or `DEAD`
  revives itself with any message, at every peer that still believes it.
-/
import Dssd.SwimProcess

namespace Swim

open Relation (ReflTransGen)

namespace Node

variable {r r' : Node} {id : String} {u x m : Member} {updates : List Member}

/-! ### What a node knows about itself -/

structure Own (r : Node) : Prop where
  self : r.members.get? r.id = none
  keyed : r.Keyed
  buffered : r.Buffered
  gossip : ∀ e ∈ r.broadcasts.values, e.1.id = r.id →
    e.1.state = .alive ∧ e.1.incarnation ≤ r.incarnation

theorem own_fresh (id addr : String) : (fresh id addr).Own where
  self := rfl
  keyed _ _ h := absurd h (Option.some_ne_none _).symm
  buffered := buffered_fresh id addr
  gossip e he := by cases he

theorem mem_values_set {α : Type*} {d : Dict α} {k : String} {e e' : α}
    (h : e' ∈ (d.set k e).values) : e' = e ∨ e' ∈ d.values := by
  obtain ⟨k', hk⟩ := Dict.mem_values.mp h
  rw [Dict.get?_set] at hk
  split at hk
  · exact .inl (Option.some.inj hk).symm
  · exact .inr (Dict.mem_values.mpr ⟨k', hk⟩)

/-- A record of another member. -/
theorem Own.set (h : r.Own) (hm : m.id ≠ r.id) : (r.set m).Own where
  self := (Dict.get?_set_ne _ _ hm.symm).trans h.self
  keyed := h.keyed.set m
  buffered := h.buffered.apply (.set m)
  gossip e he hid := by
    rcases mem_values_set he with rfl | he
    · exact absurd hid hm
    · exact h.gossip e he hid

/-- Recorded members are other ones. -/
theorem Own.ne (h : r.Own) (hm : r.members.get? id = some m) : m.id ≠ r.id := by
  intro hid
  rw [h.keyed id m hm] at hid
  rw [hid, h.self] at hm
  cases hm

theorem Own.merge (h : r.Own) (update : Member) : (r.merge update).Own := by
  by_cases hid : update.id = r.id
  · have hb : (r.merge update).Buffered := h.buffered.apply (.merge update)
    have hk := h.keyed.merge update
    by_cases hrumor : update.state ≠ .alive ∧ update.incarnation ≥ r.incarnation
    · -- the refutation
      have heq : r.merge update = { r with
          incarnation := update.incarnation + 1
          broadcasts := r.broadcasts.set r.id
            (⟨r.id, r.addr, .alive, update.incarnation + 1⟩, 0) } := by
        rw [Node.merge, if_pos hid, if_pos hrumor]
        rfl
      rw [heq] at hb hk ⊢
      refine ⟨h.self, hk, hb, fun e he heid => ?_⟩
      rcases mem_values_set he with rfl | he
      · exact ⟨rfl, le_refl _⟩
      · obtain ⟨ha, hi⟩ := h.gossip e he heid
        refine ⟨ha, hi.trans ?_⟩
        show r.incarnation ≤ update.incarnation + 1
        have := hrumor.2
        omega
    · rw [Node.merge, if_pos hid, if_neg hrumor]
      exact h
  · rw [Node.merge, if_neg hid]
    split
    · split
      · exact h.set hid
      · exact h
    · split
      · exact h.set hid
      · exact h

theorem Own.mark (h : r.Own) (id : String) (new_state from_state : State)
    (incarnation : Option ℤ) : (r.mark id new_state from_state incarnation).Own := by
  rcases r.mark_cases id new_state from_state incarnation with heq | ⟨m, hm, -, heq⟩
  · rw [heq]
    exact h
  · rw [heq]
    have hne := h.ne hm
    exact h.set (m := ⟨m.id, m.addr, new_state, m.incarnation⟩) hne

theorem Own.timers (h : r.Own) (addr : String) (timers : List Member) :
    ({ r with addr, timers } : Node).Own :=
  ⟨h.self, h.keyed, ⟨h.buffered.filed, h.buffered.lt⟩, h.gossip⟩

theorem Own.suspicionTimer (h : r.Own) (k : ℕ) : (r.suspicionTimer k).Own := by
  unfold Node.suspicionTimer
  split
  · exact h
  · exact (h.timers r.addr _).mark _ _ _ _

theorem Own.resurrect (h : r.Own) (id : String) : (r.resurrect id).Own := by
  unfold Node.resurrect
  split
  · exact h
  · rename_i m hm
    split
    · have hne := h.ne hm
      exact h.set (m := ⟨m.id, m.addr, .alive, m.incarnation + 1⟩) hne
    · exact h

theorem Own.takeBroadcasts (h : r.Own) : r.takeBroadcasts.2.Own where
  self := h.self
  keyed := h.keyed
  buffered := h.buffered.takeBroadcasts
  gossip e he hid := by
    rw [values_takeBroadcasts h.buffered, Quota.round, List.mem_filterMap] at he
    obtain ⟨e', he', hround⟩ := he
    have hkey := Quota.round_key hround
    rw [hkey] at hid ⊢
    exact h.gossip e' he' hid

theorem Own.moves (h : r.Own) (hm : Moves r r') :
    r'.Own ∧ r'.id = r.id ∧ r.incarnation ≤ r'.incarnation := by
  cases hm with
  | merge update =>
    refine ⟨h.merge update, r.id_merge update, ?_⟩
    unfold Node.merge
    split
    · split
      · rename_i hrumor
        show r.incarnation ≤ update.incarnation + 1
        have := hrumor.2
        omega
      · exact le_refl _
    · split
      · split <;> exact le_refl _
      · split <;> exact le_refl _
  | mark id new_state from_state incarnation =>
    refine ⟨h.mark _ _ _ _, ?_⟩
    rcases r.mark_cases id new_state from_state incarnation with heq | ⟨m, -, -, heq⟩
    · rw [heq]
      exact ⟨rfl, le_refl _⟩
    · rw [heq]
      exact ⟨rfl, le_refl _⟩
  | suspicionTimer k =>
    refine ⟨h.suspicionTimer k, ?_⟩
    unfold Node.suspicionTimer
    split
    · exact ⟨rfl, le_refl _⟩
    · rename_i t ht
      rcases mark_cases { r with timers := r.timers.eraseIdx k } t.id .dead .suspect
        (some t.incarnation) with heq | ⟨m, -, -, heq⟩
      · rw [heq]
        exact ⟨rfl, le_refl _⟩
      · rw [heq]
        exact ⟨rfl, le_refl _⟩
  | resurrect id =>
    refine ⟨h.resurrect id, ?_⟩
    unfold Node.resurrect
    split
    · exact ⟨rfl, le_refl _⟩
    · split <;> exact ⟨rfl, le_refl _⟩
  | take => exact ⟨h.takeBroadcasts, rfl, le_refl _⟩
  | restart addr => exact ⟨h.timers addr [], rfl, le_refl _⟩

theorem Own.run (h : r.Own) (hm : ReflTransGen Moves r r') :
    r'.Own ∧ r'.id = r.id ∧ r.incarnation ≤ r'.incarnation := by
  induction hm with
  | refl => exact ⟨h, rfl, le_refl _⟩
  | tail _ hm ih =>
    obtain ⟨h', hid, hi⟩ := ih
    obtain ⟨h'', hid', hi'⟩ := h'.moves hm
    exact ⟨h'', hid'.trans hid, hi.trans hi'⟩

/-- A rumor that a node is `SUSPECT` or `DEAD` leaves it newer than the rumor. -/
theorem lt_mergeAll (h : r.Own) (hu : u ∈ updates) (hid : u.id = r.id) (hs : u.state ≠ .alive) :
    u.incarnation < (r.mergeAll updates).incarnation := by
  induction updates generalizing r with
  | nil => cases hu
  | cons v updates ih =>
    obtain ⟨h', hid', -⟩ := h.moves (.merge v)
    rcases List.mem_cons.mp hu with rfl | hu
    · have hrest := (h'.run ((r.merge u).moves_mergeAll updates)).2.2
      refine lt_of_lt_of_le ?_ hrest
      rw [Node.merge, if_pos hid]
      split
      · exact Int.lt_succ _
      · rename_i hrumor
        exact not_le.mp fun hle => hrumor ⟨hs, hle⟩
    · exact ih h' hu (hid.trans hid'.symm)

/-! ### What a peer makes of it -/

theorem get?_merge_ne (r : Node) (hid : u.id ≠ id) :
    (r.merge u).members.get? id = r.members.get? id := by
  rcases r.merge_cases u with ⟨heq, -⟩ | ⟨-, heq, -⟩
  · rw [heq]
  · rw [heq]
    exact Dict.get?_set_ne _ _ hid.symm

/-- Older gossip does not change an `ALIVE` record. -/
theorem get?_mergeAll_alive (hne : id ≠ r.id) (hm : r.members.get? id = some m)
    (hs : m.state = .alive) (hold : ∀ x ∈ updates, x.id = id →
      x.state = .alive ∧ x.incarnation ≤ m.incarnation) :
    (r.mergeAll updates).members.get? id = some m := by
  induction updates generalizing r with
  | nil => exact hm
  | cons x updates ih =>
    refine ih (r.id_merge x ▸ hne) ?_ fun y hy => hold y (List.mem_cons_of_mem _ hy)
    by_cases hx : x.id = id
    · obtain ⟨hxs, hxi⟩ := hold x List.mem_cons_self hx
      subst hx
      rw [get?_merge hne hm, if_neg]
      rw [supersedes, if_neg (by rw [hxs]; decide), hxs, hs]
      split
      · exact not_lt.mpr hxi
      · exact lt_irrefl _
    · rw [get?_merge_ne r hx]
      exact hm

/-- A newer `ALIVE` sender replaces a `SUSPECT` or `DEAD` record of it. -/
theorem get?_mergeAll_refuted (hne : m.id ≠ r.id) (hu : r.members.get? m.id = some u)
    (hs : m.state = .alive) (hi : u.incarnation < m.incarnation) (hold : ∀ x ∈ updates,
      x.id = m.id → x.state = .alive ∧ x.incarnation ≤ m.incarnation) :
    (r.mergeAll (m :: updates)).members.get? m.id = some m := by
  have hne' : m.id ≠ (r.merge m).id := by rwa [id_merge]
  refine get?_mergeAll_alive (r := r.merge m) hne' ?_ hs hold
  rw [get?_merge hne hu, if_pos]
  rw [supersedes, if_neg (by rw [hs]; decide), if_pos hi.ne']
  exact hi

end Node

namespace Proc

variable {p p' : Proc} {e : Event} {acts : List Act} {act : Act} {dest : String} {msg : Message}

theorem members_handle (p : Proc) (msg : Message) :
    (p.handle msg).1.node.members = (p.node.mergeAll msg.gossip).members := by
  obtain ⟨type, seq, sender, targetAddr, updates⟩ := msg
  cases type <;> rfl

theorem incarnation_handle (p : Proc) (msg : Message) :
    (p.handle msg).1.node.incarnation = (p.node.mergeAll msg.gossip).incarnation := by
  obtain ⟨type, seq, sender, targetAddr, updates⟩ := msg
  cases type <;> rfl

/-- The updates that the steps of a run merge. -/
def heard : List Event → List Member
  | [] => []
  | .handle msg :: es => msg.gossip ++ heard es
  | _ :: es => heard es

theorem own_step (h : p.node.Own) (hs : p.step e = some p') :
    p'.node.Own ∧ p'.node.id = p.node.id ∧ p.node.incarnation ≤ p'.node.incarnation := by
  obtain ⟨⟨q, acts⟩, hnext, rfl⟩ := Option.map_eq_some_iff.mp hs
  exact h.run (spreads_next hnext).moves

theorem own_run {es : List Event} (h : p.node.Own) (hs : Run.exec step p es = some p') :
    p'.node.Own ∧ p'.node.id = p.node.id ∧ p.node.incarnation ≤ p'.node.incarnation := by
  induction es generalizing p with
  | nil =>
    obtain rfl : p = p' := by simpa [Run.exec] using hs
    exact ⟨h, rfl, le_refl _⟩
  | cons e es ih =>
    obtain ⟨p₁, hp₁, hs⟩ := Option.bind_eq_some_iff.mp hs
    obtain ⟨h₁, hid₁, hi₁⟩ := own_step h hp₁
    obtain ⟨h', hid', hi'⟩ := ih h₁ hs
    exact ⟨h', hid'.trans hid₁, hi₁.trans hi'⟩

/-- A node is newer than all rumors about it that it has merged. -/
theorem heard_lt {es : List Event} (h : p.node.Own) (hs : Run.exec step p es = some p') :
    ∀ u ∈ heard es, u.id = p.node.id → u.state ≠ .alive → u.incarnation < p'.node.incarnation := by
  induction es generalizing p with
  | nil =>
    intro u hu
    cases hu
  | cons e es ih =>
    intro u hu hid hstate
    obtain ⟨p₁, hp₁, hrun⟩ := Option.bind_eq_some_iff.mp hs
    obtain ⟨h₁, hid₁, -⟩ := own_step h hp₁
    have hrest := fun hu => ih h₁ hrun u hu (hid.trans hid₁.symm) hstate
    cases e with
    | handle msg =>
      rcases List.mem_append.mp hu with hu | hu
      · -- merged in this step, and the incarnation never falls
        refine lt_of_lt_of_le ?_ (own_run h₁ hrun).2.2
        obtain rfl : (p.handle msg).1 = p₁ := Option.some.inj hp₁
        rw [incarnation_handle]
        exact Node.lt_mergeAll h hu hid hstate
      · exact hrest hu
    | _ => exact hrest hu

/-- What a node says about itself. -/
theorem sent_self (h : p.node.Own) (he : p.next e = some (p', acts)) (ha : act ∈ acts)
    (hsent : act.sent = some (dest, msg)) : msg.sender = p'.node.me ∧
      ∀ x ∈ msg.updates, x.id = p.node.id →
        x.state = .alive ∧ x.incarnation ≤ p'.node.incarnation := by
  obtain ⟨hsender, hg⟩ := (spreads_next he).sent act ha dest msg hsent
  refine ⟨hsender, fun x hx hid => ?_⟩
  rcases hg with hnil | ⟨r, hr, hr', htake | hall⟩
  · rw [hnil] at hx
    cases hx
  · -- taken from the buffer somewhere in this step
    obtain ⟨hownr, hidr, -⟩ := h.run hr
    rw [htake, Node.takeBroadcasts_fst] at hx
    obtain ⟨entry, hentry, rfl⟩ := List.mem_map.mp hx
    obtain ⟨halive, hi⟩ := hownr.gossip entry (Quota.mem_of_mem_due hentry) (hid.trans hidr.symm)
    exact ⟨halive, hi.trans (hownr.run hr').2.2⟩
  · obtain ⟨hownr, hidr, -⟩ := h.run hr
    rw [hall] at hx
    obtain ⟨key, hkey⟩ := Dict.mem_values.mp hx
    exact absurd (hid.trans hidr.symm) (hownr.ne hkey)

/-- **Refutation wins.**  A node that has merged a `SUSPECT` or `DEAD` update about itself is newer
than it, and any message that the node sends from then on makes its record `ALIVE`, with the
incarnation that the node has when it sends it, at every peer that still has the update on record
when it handles the message.  The incarnation of a node never decreases, a node is no member of its
own, and nothing that it sends says anything else than `ALIVE` about itself. -/
theorem refutation_wins {id addr : String} {k : ℕ} {es : List Event} {e : Event} {m m' : Proc}
    {acts : List Act} (hm : Run.exec step (fresh id addr k) es = some m)
    (he : m.next e = some (m', acts)) :
    (∀ u ∈ heard (es ++ [e]), u.id = id → u.state ≠ .alive →
      u.incarnation < m'.node.incarnation ∧
      ∀ act ∈ acts, ∀ dest msg, act.sent = some (dest, msg) →
        ∀ id' addr' k' es' p p', Run.exec step (fresh id' addr' k') es' = some p →
          p.node.members.get? id = some u → p.step (.handle msg) = some p' →
          ∃ r, p'.node.members.get? id = some r ∧ r.state = .alive ∧
            r.incarnation = m'.node.incarnation) ∧
    (∀ es' m'', Run.exec step m es' = some m'' → m.node.incarnation ≤ m''.node.incarnation) ∧
    m'.node.members.get? id = none ∧
    ∀ act ∈ acts, ∀ dest msg, act.sent = some (dest, msg) →
      ∀ x ∈ msg.gossip, x.id = id → x.state = .alive := by
  have hstep : m.step e = some m' := by rw [step, he, Option.map_some]
  obtain ⟨hown, hid, -⟩ := own_run (Node.own_fresh id addr) hm
  obtain ⟨hown', hid', -⟩ := own_step hown hstep
  replace hid' : m'.node.id = id := hid'.trans hid
  have hid₀ : m.node.id = id := hid
  have hself : ∀ act ∈ acts, ∀ dest msg, act.sent = some (dest, msg) → msg.sender = m'.node.me ∧
      ∀ x ∈ msg.updates, x.id = id → x.state = .alive ∧ x.incarnation ≤ m'.node.incarnation :=
    fun act ha dest msg hsent => hid₀ ▸ sent_self hown he ha hsent
  refine ⟨fun u hu huid hus => ?_, fun es' m'' hs => (own_run hown hs).2.2, hid' ▸ hown'.self, ?_⟩
  · have hlt : u.incarnation < m'.node.incarnation := by
      refine heard_lt (Node.own_fresh id addr) (Run.exec_append hm ?_) u hu huid hus
      rw [Run.exec, hstep]
      rfl
    refine ⟨hlt, fun act ha dest msg hsent id' addr' k' es' p p' hp hrec hhandle => ?_⟩
    obtain ⟨hsender, hold⟩ := hself act ha dest msg hsent
    obtain rfl := Option.some.inj hhandle
    have hownp := (own_run (Node.own_fresh id' addr') hp).1
    refine ⟨m'.node.me, ?_, rfl, rfl⟩
    show (p.handle msg).1.node.members.get? id = some m'.node.me
    have hne : m'.node.me.id ≠ p.node.id := by
      rw [show m'.node.me.id = u.id from hid'.trans huid.symm]
      exact hownp.ne hrec
    rw [members_handle, Message.gossip, hsender]
    subst hid'
    exact Node.get?_mergeAll_refuted hne hrec rfl hlt hold
  · intro act ha dest msg hsent x hx hxid
    obtain ⟨hsender, hold⟩ := hself act ha dest msg hsent
    rcases List.mem_cons.mp hx with rfl | hx
    · rw [hsender]
      rfl
    · exact (hold x hx hxid).1

/-- `a` and `b` hear that `a` is suspected.  `a` sends a `JOIN` to `b`. -/
theorem refutation_wins_join : ∃ r,
    (((fresh "b" "h:2" 3).handle ⟨.ack, 0, ⟨"c", "h:3", .alive, 0⟩, "",
      [⟨"a", "h:1", .suspect, 0⟩]⟩).1.handle
        ⟨.join, 1, ⟨"a", "h:1", .alive, 1⟩, "", []⟩).1.node.members.get? "a" = some r ∧
      r.state = .alive ∧ r.incarnation = 1 := by
  let rumor : Message := ⟨.ack, 0, ⟨"c", "h:3", .alive, 0⟩, "", [⟨"a", "h:1", .suspect, 0⟩]⟩
  have hm : Run.exec step (fresh "a" "h:1" 3) [.handle rumor] =
      some ((fresh "a" "h:1" 3).handle rumor).1 := rfl
  have he : next ((fresh "a" "h:1" 3).handle rumor).1 (.join "h:2") =
      some (_, [.requested .join "h:2" ⟨.join, 1, ⟨"a", "h:1", .alive, 1⟩, "", []⟩]) := rfl
  have hwins := (refutation_wins hm he).1 ⟨"a", "h:1", .suspect, 0⟩ (by decide) rfl (by decide)
  exact hwins.2 _ List.mem_cons_self "h:2" _ rfl "b" "h:2" 3 [.handle rumor] _ _ rfl rfl rfl

end Proc

end Swim
