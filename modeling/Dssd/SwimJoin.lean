/-
Joining a SWIM network (`Node.join`, `Node._handle`).

* `Node.Knows` — a node has a record of a member, which it never forgets;
* `World.Honest.same_request` — a request is known by its sender and its number;
* **`World.join_brings_list`** — once `join` has returned, the node knows every member that
  its contact listed, other than as `DEAD`, when it answered.
-/
import Dssd.SwimRumors

namespace Swim

open Relation (ReflTransGen)

namespace Node

variable {r r' : Node} {id : String} {m u : Member} {updates : List Member}

def Knows (r : Node) (id : String) : Prop := ∃ m, r.members.get? id = some m

theorem Knows.set (h : r.Knows id) (m : Member) : (r.set m).Knows id := by
  by_cases hid : id = m.id
  · exact ⟨m, hid ▸ r.get?_members_set m⟩
  · obtain ⟨c, hc⟩ := h
    exact ⟨c, (Dict.get?_set_ne _ _ hid).trans hc⟩

theorem Knows.mark (h : r.Knows id) (id' : String) (new_state from_state : State)
    (incarnation : Option ℤ) : (r.mark id' new_state from_state incarnation).Knows id := by
  rcases r.mark_cases id' new_state from_state incarnation with heq | ⟨m, -, -, heq⟩
  · rwa [heq]
  · rw [heq]
    exact h.set _

/-- What a node knows it goes on knowing. -/
theorem Knows.moves (h : r.Knows id) (hm : r.Moves r') : r'.Knows id := by
  cases hm with
  | merge update =>
    rcases r.merge_cases update with ⟨heq, -⟩ | ⟨-, heq, -⟩
    · rwa [Knows, heq]
    · rw [heq]
      exact h.set update
  | mark => exact h.mark _ _ _ _
  | suspicionTimer k =>
    unfold Node.suspicionTimer
    split
    · exact h
    · exact Knows.mark (r := { r with timers := r.timers.eraseIdx k }) h _ _ _ _
  | resurrect id' =>
    unfold Node.resurrect
    split
    · exact h
    · split
      · exact h.set _
      · exact h
  | take => exact h
  | restart => exact h

theorem Knows.run (h : r.Knows id) (hm : ReflTransGen Moves r r') : r'.Knows id :=
  Run.invariant (P := fun r => r.Knows id) (fun _ _ hm h => h.moves hm) hm h

/-- Whoever is not `DEAD` is taken in. -/
theorem knows_merge (hid : u.id ≠ r.id) (hs : u.state ≠ .dead) : (r.merge u).Knows u.id := by
  rw [Node.merge, if_neg hid]
  split
  · rw [if_pos hs]
    exact ⟨u, r.get?_members_set u⟩
  · rename_i c hc
    split
    · exact ⟨u, r.get?_members_set u⟩
    · exact ⟨c, hc⟩

theorem knows_mergeAll (hu : u ∈ updates) (hid : u.id ≠ r.id) (hs : u.state ≠ .dead) :
    (r.mergeAll updates).Knows u.id := by
  induction updates generalizing r with
  | nil => cases hu
  | cons v updates ih =>
    rcases List.mem_cons.mp hu with rfl | hu
    · exact (knows_merge hid hs).run ((r.merge u).moves_mergeAll updates)
    · exact ih hu ((r.id_merge v).symm ▸ hid)

end Node

/-- The answer to a `JOIN` is the whole list. -/
theorem Proc.gossip_joinAck {p : Proc} {e : Event} {s : Proc × List Act} {dest : String}
    {ack : Message} (h : p.next e = some s) (hm : .replied dest ack ∈ s.2)
    (ht : ack.type = .joinAck) : ack.gossip = s.1.node.listed ∧
      ∃ req, .handled req ∈ s.2 ∧ req.type = .join ∧
        dest = req.sender.addr ∧ ack.seq = req.seq := by
  cases moves h with
  | join | probe | resurrect | ask | relay => cases mem_request hm
  | @acked i q =>
    obtain ⟨caller, addr, msg, done⟩ := q
    rcases List.mem_cons.mp hm with hm | hm
    · cases hm
    · cases caller with
      | relay req =>
        cases mem_reply hm
        cases ht
      | probe => cases List.mem_singleton.mp hm
      | join | ask | resurrect => cases hm
  | timedOut | answered => cases List.mem_singleton.mp hm
  | unanswered | suspicionTimer | restart => cases hm
  | handle msg =>
    obtain ⟨type, seq, sender, targetAddr, updates⟩ := msg
    rcases List.mem_cons.mp hm with hm | hm
    · cases hm
    · cases type with
      | ping =>
        cases mem_reply hm
        cases ht
      | join =>
        cases mem_reply hm
        exact ⟨rfl, _, List.mem_cons_self, rfl, rfl, rfl⟩
      | pingReq | ack | joinAck => cases hm

namespace World

variable {ι : Type} [DecidableEq ι] {net : Net ι} {ids : ι → String} {w w' start : World ι}
  {e : Event ι} {log : List (ι × Act)} {n k : ι} {caller : Caller} {addr : String}
  {msg req : Message}

/-- A request is known by its sender and its number. -/
theorem Honest.same_request (h : Honest net log) (hmem : (n, .requested caller addr msg) ∈ log)
    (hreq : (k, .handled req) ∈ log) (ht : ¬ (req.type = .ack ∨ req.type = .joinAck))
    (hsender : req.sender.addr = msg.sender.addr) (hseq : req.seq = msg.seq) : req = msg := by
  obtain ⟨n', caller', addr', hchain, -, hat⟩ := h.sent_of_handled hreq ht
  rw [hsender, h.sender hmem rfl, net.at?_addr] at hat
  obtain rfl := Option.some.inj hat
  exact (h.request_unique hmem (hchain.subset List.mem_cons_self) hseq).2.2

/-- What has been answered when `join` returns `True`. -/
theorem Honest.joined (h : Honest net log) (hret : (n, .returned .join addr msg true) ∈ log) :
    (n, .requested .join addr msg) ∈ log ∧ ∃ k ack, net.at? addr = some k ∧
      (n, .handled ack) ∈ log ∧ (k, .replied msg.sender.addr ack) ∈ log ∧
      ack.seq = msg.seq ∧ ack.type = .joinAck := by
  obtain ⟨before, after, rfl, hbefore, ⟨hreq, hwoken⟩, -⟩ := h.exists_of_mem hret
  obtain ⟨ack, hack, hseq, htype⟩ := hwoken rfl
  have hmem := mem_own.mp hreq
  have hjoin : msg.type = .join := Proc.asks_of_mem (hbefore.backed n) hreq
  rcases hbefore.woken hmem (mem_own.mp hack) hseq htype with ⟨-, k, hat, -, hchain⟩ | ⟨ht, -⟩
  swap
  · rw [hjoin] at ht
    cases ht
  have hreplied : (k, Act.replied msg.sender.addr ack) ∈ before := hchain.subset (by simp)
  refine ⟨List.mem_append_left _ hmem, k, ack, hat, List.mem_append_left _ (mem_own.mp hack),
    List.mem_append_left _ hreplied, hseq, ?_⟩
  -- it answers this request, and no other
  obtain ⟨b, c, rfl, hb, ⟨hans, -⟩, -⟩ := hbefore.exists_of_mem hreplied
  rcases hans with ⟨req, hhandled, hdest, hreqseq, htypes⟩ |
    ⟨req, dest', ping, hret', hdest, hreqseq, -⟩
  · rcases htypes with ⟨ht, -⟩ | ⟨-, ht⟩
    · have := hbefore.same_request hmem (List.mem_append_left _ (mem_own.mp hhandled))
        (by simp [ht]) hdest.symm (hreqseq.symm.trans hseq)
      rw [this, hjoin] at ht
      cases ht
    · exact ht
  · obtain ⟨b', c', hb', hbhonest, ⟨hping, -⟩, -⟩ := hb.exists_of_mem (mem_own.mp hret')
    obtain ⟨-, -, ht, hhandled⟩ := Proc.asks_of_mem (hbhonest.backed k) hping
    have := hbefore.same_request hmem
      (List.mem_append_left _ (hb' ▸ List.mem_append_left _ (mem_own.mp hhandled)))
      (by simp [ht]) hdest.symm (hreqseq.symm.trans hseq)
    rw [this, hjoin] at ht
    cases ht

/-! ### Runs -/

/-- What nodes have heard, and what they were when they answered a `JOIN`. -/
structure Schooled (net : Net ι) (ids : ι → String) (w start : World ι) : Prop
    extends Peopled net ids w where
  run : Steps net start w
  heard : ∀ n msg, (n, .handled msg) ∈ w.log → ∀ u ∈ msg.gossip, u.state ≠ .dead →
    u.id ≠ ids n → (w.procs n).node.Knows u.id
  answers : ∀ k dest ack, (k, .replied dest ack) ∈ w.log → ack.type = .joinAck →
    ∃ v w₀ req, ∃ acts : List Act, Steps net start v ∧ Run.Step (step net) v w₀ ∧ Steps net w₀ w ∧
      w₀.log = v.log ++ acts.map (k, ·) ∧ .handled req ∈ acts ∧
      ack.gossip = (w₀.procs k).node.listed ∧ req.type = .join ∧ dest = req.sender.addr ∧
      ack.seq = req.seq

theorem Schooled.step (h : w.Schooled net ids start) (hs : w.step net e = some w') :
    w'.Schooled net ids start := by
  have hone : Steps net w w' := .single ⟨e, hs⟩
  obtain ⟨n, e', acts, hnext, hlog, hother, -⟩ := exists_next hs
  have hmoves := (Proc.spreads_next hnext).moves
  refine ⟨(h.toPeopled.step hs).1, h.run.trans hone, fun k msg hmem u hu hstate hid => ?_,
    fun k dest ack hmem ht => ?_⟩
  · rw [hlog] at hmem
    rcases List.mem_append.mp hmem with hmem | hmem
    · have hknows := h.heard k msg hmem u hu hstate hid
      by_cases hk : k = n
      · exact (hk ▸ hknows).run (hk ▸ hmoves)
      · rwa [hother k hk]
    · obtain ⟨act, hact, heq⟩ := List.mem_map.mp hmem
      cases heq
      obtain rfl := Proc.handled_next hnext hact
      have hp : w'.procs n = ((w.procs n).handle msg).1 := by
        have := Option.some.inj hnext
        exact (Prod.mk.inj this).1.symm
      rw [hp, Node.Knows, Proc.members_handle]
      exact Node.knows_mergeAll hu (h.id n ▸ hid) hstate
  · rw [hlog] at hmem
    rcases List.mem_append.mp hmem with hmem | hmem
    · obtain ⟨v, w₀, req, acts, h₀, hv, h₁, hrest⟩ := h.answers k dest ack hmem ht
      exact ⟨v, w₀, req, acts, h₀, hv, h₁.trans hone, hrest⟩
    · obtain ⟨act, hact, heq⟩ := List.mem_map.mp hmem
      cases heq
      obtain ⟨hgossip, req, hreq, hrest⟩ := Proc.gossip_joinAck hnext hact ht
      exact ⟨w, w', req, acts, h.run, ⟨e, hs⟩, .refl, hlog, hreq, hgossip, hrest⟩

theorem schooled_init (net : Net ι) (ids : ι → String) (indirectPingCount : ι → ℕ) :
    (init net ids indirectPingCount).Schooled net ids (init net ids indirectPingCount) where
  toPeopled := peopled_init net ids indirectPingCount
  run := .refl
  heard n msg hmem := by cases hmem
  answers k dest ack hmem := by cases hmem

theorem log_subset (hs : Steps net w w') : w.log ⊆ w'.log := by
  refine Run.invariant (P := fun x => w.log ⊆ x.log) ?_ hs (List.Subset.refl _)
  rintro x x' ⟨e, he⟩ hx
  obtain ⟨n, e', acts, -, hlog, -⟩ := exists_next he
  rw [hlog]
  exact List.Subset.trans hx (List.subset_append_left _ _)

/-- **Joining brings the list.**  In every run, once a `join` has returned, the node at the address
of the contact has handled its `JOIN`, in the step from `v` to `w₀`; and whomever that node listed
right then, itself included, other than as `DEAD`, the new node knows from its return on. -/
theorem join_brings_list (net : Net ι) (ids : ι → String) (indirectPingCount : ι → ℕ)
    (es : List (Event ι)) : Run.Always (step net)
      (fun w => ∀ n addr msg, (n, .returned .join addr msg true) ∈ w.log →
        ∃ contact v w₀, ∃ acts : List Act, net.at? addr = some contact ∧
          Steps net (init net ids indirectPingCount) v ∧ Run.Step (step net) v w₀ ∧
          Steps net w₀ w ∧ w₀.log = v.log ++ acts.map (contact, ·) ∧ .handled msg ∈ acts ∧
          ∀ u ∈ (w₀.procs contact).node.listed, u.state ≠ .dead → u.id ≠ ids n →
            (w.procs n).node.Knows u.id)
      (init net ids indirectPingCount) es := by
  refine Run.always_of_inv (fun _ _ _ hs h => Schooled.step h hs) (fun w h n addr msg hret => ?_)
    (schooled_init net ids indirectPingCount) es
  obtain ⟨hmem, contact, ack, hat, hack, hreplied, hseq, htype⟩ := h.honest.joined hret
  obtain ⟨v, w₀, req, acts, h₀, hv, h₁, hlog, hreq, hgossip, hjoin, hdest, hreqseq⟩ :=
    h.answers contact _ ack hreplied htype
  have hhandled : (contact, Act.handled req) ∈ w₀.log := by
    rw [hlog]
    exact List.mem_append_right _ (List.mem_map_of_mem hreq)
  have heq : req = msg := h.honest.same_request hmem (log_subset h₁ hhandled) (by simp [hjoin])
    hdest.symm (hreqseq.symm.trans hseq)
  subst heq
  exact ⟨contact, v, w₀, acts, hat, h₀, hv, h₁, hlog, hreq,
    fun u hu => h.heard n ack hack u (hgossip ▸ hu)⟩

end World

end Swim
