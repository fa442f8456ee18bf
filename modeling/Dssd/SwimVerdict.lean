/-
A SWIM node can be found out (`Node._probe_once`, `Node._mark`, `Node._suspicion_timer`).

* `Proc.Quietly` — what a node can do without a message from anybody;
* `Proc.helpers_time_out` — the helpers that a probe asks are asked, one after the other, and
  none of them answers; `Proc.probe_times_out`, so that the probe ends with a mark;
* `World.exists_run` — what a node can do on its own, it does in the network;
* **`World.verdicts_can_be_reached`** — whichever nodes have another one on record, they can
  all come to have it `DEAD`, and nobody else need take a step.
-/
import Dssd.SwimRevive

namespace Swim

open Addr (splitAddr)
open Relation (ReflTransGen)

namespace Node

variable {r : Node} {id : String} {c : Member}

/-- A member that is marked will be `DEAD` when its timer runs out. -/
theorem revocable_mark (hk : r.Keyed) (hc : r.members.get? id = some c) (hs : c.state = .alive) :
    (r.mark id .suspect .alive none).members.get? id = some { c with state := .suspect } ∧
      (r.mark id .suspect .alive none).Revocable { c with state := .suspect } := by
  obtain rfl := hk id c hc
  have hmark : r.mark c.id .suspect .alive none = r.set { c with state := .suspect } := by
    rw [mark, hc]
    dsimp only
    rw [if_neg (not_not.mpr hs), if_neg (by simp)]
  rw [hmark]
  refine ⟨r.get?_members_set { c with state := .suspect }, .inr ⟨rfl, armed_set.mpr (.inr ?_)⟩⟩
  refine ⟨rfl, ?_, rfl, rfl⟩
  show (r.members.get? c.id).map Member.state ≠ some .suspect
  rw [hc, Option.map_some, hs]
  simp

end Node

namespace Proc

variable {p p' : Proc} {c target : Member} {i : ℕ}

/-- A run in which the node handles nothing and is not restarted. -/
def Quietly (p p' : Proc) : Prop :=
  ReflTransGen (Run.StepWhere step fun _ e =>
    (∀ msg, e ≠ .handle msg) ∧ ∀ addr, e ≠ .restart addr) p p'

theorem quietly_next {e : Event} {acts : List Act} (h : p.next e = some (p', acts))
    (hmsg : ∀ msg, e ≠ .handle msg) (haddr : ∀ addr, e ≠ .restart addr) : p.Quietly p' :=
  .single ⟨e, ⟨hmsg, haddr⟩, by rw [step, h]; rfl⟩

theorem eraseIdx_length {α : Type*} (l : List α) (a : α) (l' : List α) :
    (l ++ a :: l').eraseIdx l.length = l ++ l' := by
  simp [List.eraseIdx_append_of_length_le]

/-- A coroutine asks its helper. -/
theorem next_ask (p : Proc) (probe : ℤ) {helper : Member} (target : Member)
    (haddr : (splitAddr helper.addr).isSome = true) (rest : List Ready) :
    ∃ q acts, q.caller = .ask probe ∧
      ({ p with ready := p.ready ++ .ask probe helper target :: rest } : Proc).next
          (.start p.ready.length) = some ({ p with
          seqNo := p.seqNo + 1
          requests := p.requests ++ [q]
          ready := p.ready ++ rest }, acts) := by
  let msg : Message := ⟨.pingReq, p.seqNo + 1, p.node.me, target.addr, []⟩
  refine ⟨⟨.ask probe, helper.addr, msg, false⟩, [.requested (.ask probe) helper.addr msg], rfl,
    Option.bind_eq_some_iff.mpr ⟨.ask probe helper target, by simp, ?_⟩⟩
  dsimp only
  rw [request, eraseIdx_length]
  dsimp only
  rw [if_pos haddr]

/-- The helper does not answer. -/
theorem next_unanswered (p : Proc) {q : Request} {probe : ℤ} (hq : q.caller = .ask probe) :
    ({ p with requests := p.requests ++ [q] } : Proc).next (.timedOut p.requests.length []) =
      some (p.settle probe false, [.returned q.caller q.addr q.msg false]) := by
  refine Option.bind_eq_some_iff.mpr ⟨q, List.getElem?_concat_length, ?_⟩
  rw [hq]
  dsimp only
  rw [eraseIdx_length, List.append_nil]
  rfl

theorem settle_last {probe : ℤ} (hfresh : ∀ pr ∈ p.probes, pr.id ≠ probe) (target : Member)
    (pending : ℕ) :
    ({ p with probes := p.probes ++ [⟨probe, target, pending + 1, false⟩] } : Proc).settle probe
        false =
      { p with probes := p.probes ++ [⟨probe, target, pending, false⟩] } := by
  have hsame : p.probes.map (fun pr => if pr.id = probe then
      { pr with pending := pr.pending - 1, acked := pr.acked || false } else pr) = p.probes :=
    (List.map_congr_left fun pr hpr => if_neg (hfresh pr hpr)).trans (List.map_id' _)
  rw [settle]
  dsimp only
  rw [List.map_append, hsame, List.map_singleton, if_pos rfl]
  rfl

/-- **One helper after the other** is asked, and does not answer. -/
theorem helpers_time_out (probe : ℤ) (target : Member) {helpers : List Member}
    (haddr : ∀ helper ∈ helpers, (splitAddr helper.addr).isSome = true) (p : Proc)
    (hfresh : ∀ pr ∈ p.probes, pr.id ≠ probe) :
    ({ p with
      probes := p.probes ++ [⟨probe, target, helpers.length, false⟩]
      ready := p.ready ++ helpers.map fun helper => .ask probe helper target } : Proc).Quietly
      { p with
        seqNo := p.seqNo + helpers.length
        probes := p.probes ++ [⟨probe, target, 0, false⟩] } := by
  induction helpers generalizing p with
  | nil =>
    rw [List.map_nil, List.append_nil, List.length_nil, Int.ofNat_zero, Int.add_zero]
    exact .refl
  | cons helper helpers ih =>
    obtain ⟨hhelper, haddr⟩ := List.forall_mem_cons.mp haddr
    obtain ⟨q, acts, hq, hask⟩ :=
      next_ask { p with probes := p.probes ++ [⟨probe, target, helpers.length + 1, false⟩] } probe
        target hhelper (helpers.map fun helper => .ask probe helper target)
    have hunanswered := next_unanswered { p with
      seqNo := p.seqNo + 1
      probes := p.probes ++ [⟨probe, target, helpers.length + 1, false⟩]
      ready := p.ready ++ helpers.map fun helper => .ask probe helper target } hq
    rw [settle_last (p := { p with
      seqNo := p.seqNo + 1
      ready := p.ready ++ helpers.map fun helper => .ask probe helper target }) hfresh]
      at hunanswered
    have hrest := ih haddr { p with seqNo := p.seqNo + 1 } hfresh
    have hseq : p.seqNo + 1 + (helpers.length : ℤ) =
        p.seqNo + ((helper :: helpers).length : ℤ) := by
      rw [List.length_cons]
      omega
    dsimp only at hrest
    rw [hseq] at hrest
    exact (quietly_next hask (by simp) (by simp)).trans
      ((quietly_next hunanswered (by simp) (by simp)).trans hrest)

/-- A probe begins. -/
theorem next_probe (p : Proc)
    (hi : (p.node.members.values.filter fun m => m.state ≠ .dead)[i]? = some c)
    (haddr : (splitAddr c.addr).isSome = true) :
    ∃ q acts, q.caller = .probe (p.node.members.values.filter fun m => m.state ≠ .dead) c ∧
      q.msg.seq = p.seqNo + 1 ∧ p.next (.probe i) = some ({ p with
        node := p.node.takeBroadcasts.2
        seqNo := p.seqNo + 1
        requests := p.requests ++ [q] }, acts) := by
  set candidates := p.node.members.values.filter fun m => m.state ≠ .dead with hcandidates
  let msg : Message :=
    ⟨.ping, p.seqNo + 1, p.node.takeBroadcasts.2.me, "", p.node.takeBroadcasts.1⟩
  refine ⟨⟨.probe candidates c, c.addr, msg, false⟩, [.requested (.probe candidates c) c.addr msg],
    rfl, rfl, Option.bind_eq_some_iff.mpr ⟨c, hi, congrArg some ?_⟩⟩
  rw [request]
  dsimp only
  rw [if_pos haddr]
  rfl

/-- Its target does not answer. -/
theorem next_probe_unanswered (p : Proc) {q : Request} {candidates sample : List Member}
    (hq : q.caller = .probe candidates target) (hsample : p.Sample candidates target sample) :
    ({ p with requests := p.requests ++ [q] } : Proc).next (.timedOut p.requests.length sample) =
      some (if sample = [] then p.mark target.id else { p with
        probes := p.probes ++ [⟨q.msg.seq, target, sample.length, false⟩]
        ready := p.ready ++ sample.map fun helper => .ask q.msg.seq helper target },
        [.returned q.caller q.addr q.msg false]) := by
  refine Option.bind_eq_some_iff.mpr ⟨q, List.getElem?_concat_length, ?_⟩
  rw [hq]
  dsimp only
  rw [eraseIdx_length, List.append_nil, timedOut, if_pos hsample]
  split
  · rfl
  · rfl

/-- Nobody has answered. -/
theorem next_gathered (p : Proc) (probe : ℤ) (target : Member) :
    ({ p with probes := p.probes ++ [⟨probe, target, 0, false⟩] } : Proc).next
      (.gathered p.probes.length) = some (p.mark target.id, []) := by
  refine Option.bind_eq_some_iff.mpr ⟨⟨probe, target, 0, false⟩, List.getElem?_concat_length, ?_⟩
  dsimp only
  rw [if_pos rfl, if_neg (by simp), eraseIdx_length, List.append_nil]

/-- **A probe that nobody answers** ends with a mark. -/
theorem probe_times_out (p : Proc)
    (hi : (p.node.members.values.filter fun m => m.state ≠ .dead)[i]? = some c)
    (haddr : ∀ m ∈ p.node.members.values, (splitAddr m.addr).isSome = true)
    (hfresh : ∀ pr ∈ p.probes, pr.id ≤ p.seqNo) :
    ∃ p', p.Quietly p' ∧ p'.node = p.node.takeBroadcasts.2.mark c.id .suspect .alive none := by
  set candidates := p.node.members.values.filter fun m => m.state ≠ .dead with hcandidates
  have hmem : ∀ m ∈ candidates, (splitAddr m.addr).isSome = true := by
    intro m hm
    exact haddr m (List.mem_filter.mp hm).1
  obtain ⟨q, acts, hq, hseq, hprobe⟩ := p.next_probe hi (hmem c (List.mem_of_getElem? hi))
  set p₁ : Proc := { p with node := p.node.takeBroadcasts.2, seqNo := p.seqNo + 1 } with hp₁
  set helpers := candidates.filter fun m => m.id ≠ c.id with hhelpers
  set sample := helpers.take p.indirectPingCount with hsampled
  have hsample : p₁.Sample candidates c sample :=
    ⟨List.length_take, (List.take_sublist _ _).subperm⟩
  have hunanswered := p₁.next_probe_unanswered hq hsample
  have hrun := (quietly_next hprobe (by simp) (by simp)).trans
    (quietly_next hunanswered (by simp) (by simp))
  by_cases hnil : sample = []
  · rw [if_pos hnil] at hrun
    exact ⟨_, hrun, rfl⟩
  rw [if_neg hnil, hseq] at hrun
  have hsub : ∀ helper ∈ sample, (splitAddr helper.addr).isSome = true := by
    intro helper hhelper
    exact hmem helper (List.mem_filter.mp (List.mem_of_mem_take hhelper)).1
  have hnew : ∀ pr ∈ p₁.probes, pr.id ≠ p.seqNo + 1 := by
    intro pr hpr heq
    have := hfresh pr hpr
    omega
  have hasked := helpers_time_out (p.seqNo + 1) c hsub p₁ hnew
  have hgathered := next_gathered { p₁ with seqNo := p₁.seqNo + sample.length } (p.seqNo + 1) c
  exact ⟨_, hrun.trans (hasked.trans (quietly_next hgathered (by simp) (by simp))), rfl⟩

end Proc

namespace World

variable {ι : Type} [DecidableEq ι] {net : Net ι} {ids : ι → String}
  {indirectPingCount : ι → ℕ} {w w' x : World ι} {S : Finset ι} {d n k : ι} {c : Member} {p : Proc}

/-- What a node can do on its own, it does in the network. -/
theorem exists_run (h : w.Known net ids) (hn : n ∈ S) (hp : (w.procs n).Quietly p) :
    ∃ w', Among net S w w' ∧ w'.Known net ids ∧ w'.procs n = p ∧
      ∀ k ≠ n, w'.procs k = w.procs k := by
  induction hp with
  | refl => exact ⟨w, .refl, h, rfl, fun _ _ => rfl⟩
  | tail _ hstep ih =>
    obtain ⟨w₁, hrun, h₁, hp₁, hother⟩ := ih
    obtain ⟨e, ⟨hmsg, haddr⟩, he⟩ := hstep
    obtain ⟨⟨p', acts⟩, hnext, rfl⟩ := Option.map_eq_some_iff.mp he
    rw [← hp₁] at hnext
    obtain ⟨w₂, hact, hp₂, hother₂, -⟩ := exists_act hnext
    have hs : w₁.step net (.act n e) = some w₂ := by
      cases e with
      | handle msg => exact absurd rfl (hmsg msg)
      | restart addr => exact absurd rfl (haddr addr)
      | _ => exact hact
    refine ⟨w₂, hrun.tail ⟨_, ⟨⟨n, hn, rfl⟩, fun m addr heq => ?_⟩, hs⟩, h₁.step hs, hp₂,
      fun k hk => (hother₂ k hk).trans (hother k hk)⟩
    injection heq with _ heq
    exact haddr addr heq

/-- **The verdict**: a probe of the member times out, and then its timer. -/
theorem exists_declared (h : w.Known net ids) (hn : n ∈ S)
    (hc : (w.procs n).node.members.get? (ids d) = some c)
    (hs : c.state = .alive ∨ (w.procs n).node.Revocable c) :
    ∃ w', Among net S w w' ∧ w'.Known net ids ∧ (∀ k ≠ n, w'.procs k = w.procs k) ∧
      ∃ c', (w'.procs n).node.members.get? (ids d) = some c' ∧ c'.state = .dead ∧
        c'.incarnation = c.incarnation := by
  rcases hs with halive | hr
  swap
  · exact exists_condemned h hn hc hr
  have haddr : ∀ m ∈ (w.procs n).node.members.values, (splitAddr m.addr).isSome = true := by
    intro m hm
    obtain ⟨k, -, hk, -⟩ := h.real m (.inl ⟨n, .inl hm⟩)
    exact hk ▸ isSome_splitAddr net k
  have hfresh : ∀ pr ∈ (w.procs n).probes, pr.id ≤ (w.procs n).seqNo := by
    intro pr hpr
    obtain ⟨⟨candidates, ping, hping, -, hseq⟩, -⟩ := (h.procs n).probes pr hpr
    exact hseq ▸ (h.procs n).seq _ _ _ hping
  obtain ⟨i, hi⟩ : ∃ i : ℕ, ((w.procs n).node.members.values.filter
      fun m => m.state ≠ .dead)[i]? = some c :=
    List.mem_iff_getElem?.mp (List.mem_filter.mpr
      ⟨Dict.mem_values.mpr ⟨_, hc⟩, decide_eq_true (by rw [halive]; simp)⟩)
  obtain ⟨p', hrun, hnode⟩ := (w.procs n).probe_times_out hi haddr hfresh
  obtain ⟨w₁, hrun₁, h₁, hp₁, hother₁⟩ := exists_run h hn hrun
  rw [(h.own n).keyed _ c hc] at hnode
  obtain ⟨hsuspect, hr⟩ :=
    Node.revocable_mark (r := (w.procs n).node.takeBroadcasts.2) (h.own n).takeBroadcasts.keyed hc
      halive
  rw [← hnode, ← hp₁] at hsuspect hr
  obtain ⟨w₂, hrun₂, h₂, hother₂, hc₂⟩ := exists_condemned h₁ hn hsuspect hr
  exact ⟨w₂, hrun₁.trans hrun₂, h₂, fun k hk => (hother₂ k hk).trans (hother₁ k hk), hc₂⟩

/-- The record that this node had of the other has become a verdict. -/
def Declares (ids : ι → String) (d : ι) (w w' : World ι) (n : ι) : Prop :=
  ∀ c, (w.procs n).node.members.get? (ids d) = some c →
    c.state = .alive ∨ (w.procs n).node.Revocable c →
      ∃ m, (w'.procs n).node.members.get? (ids d) = some m ∧ m.state = .dead ∧
        m.incarnation = c.incarnation

theorem exists_declares (hx : x.Known net ids) (hsame : x.procs n = w.procs n) (hn : n ∈ S) :
    ∃ x', Among net S x x' ∧ x'.Known net ids ∧ Declares ids d w x' n ∧
      ∀ k ∈ S, k ≠ n → x'.procs k = x.procs k := by
  by_cases hsome : ∃ c, (w.procs n).node.members.get? (ids d) = some c ∧
      (c.state = .alive ∨ (w.procs n).node.Revocable c)
  swap
  · exact ⟨x, .refl, hx, fun c hc hs => absurd ⟨c, hc, hs⟩ hsome, fun _ _ _ => rfl⟩
  obtain ⟨c, hc, hs⟩ := hsome
  obtain ⟨x', hrun, hx', hother, m, hm, hdead, hinc⟩ :=
    exists_declared hx hn (hsame ▸ hc) (hsame ▸ hs)
  refine ⟨x', hrun, hx', fun c₀ hc₀ _ => ?_, fun k _ hkn => hother k hkn⟩
  cases hc.symm.trans hc₀
  exact ⟨m, hm, hdead, hinc⟩

/-- **Verdicts can be reached.**  Take whichever nodes, in any state of any run.  With nobody else
and without a restart, the run can go on so that each of those that had some node `ALIVE` on record,
or `SUSPECT` with a timer that is still to run out, has it `DEAD`, with the same incarnation. -/
theorem verdicts_can_be_reached (hw : Steps net (init net ids indirectPingCount) w) (d : ι)
    (S : Finset ι) : ∃ w', Among net S w w' ∧ ∀ n ∈ S, Declares ids d w w' n := by
  have hcongr : ∀ (n : ι) (x x' : World ι), x'.procs n = x.procs n → Declares ids d w x n →
      Declares ids d w x' n := by
    intro n x x' hsame hdone
    simpa only [Declares, hsame] using hdone
  have hvisit : ∀ n ∈ S.toList, ∀ x : World ι, x.Known net ids → x.procs n = w.procs n →
      ∃ x', Among net S x x' ∧ x'.Known net ids ∧ Declares ids d w x' n ∧
        ∀ k ∈ S.toList, k ≠ n → x'.procs k = x.procs k := by
    intro n hn x hx hsame
    simpa only [Finset.mem_toList] using exists_declares hx hsame (Finset.mem_toList.mp hn)
  obtain ⟨w', hrun, -, hall⟩ :=
    Run.each_apart (fun n (x : World ι) => x.procs n) hcongr hvisit (known_steps hw)
  exact ⟨w', hrun, fun n hn => hall n (Finset.mem_toList.mpr hn)⟩

theorem verdicts_can_be_reached_pair : ∃ w', Among pair {true} pairUp w' ∧
    ∃ m, (w'.procs true).node.members.get? (pairIds false) = some m ∧ m.state = .dead ∧
      m.incarnation = 0 := by
  have halive : (pairUp.procs true).node.members.get? (pairIds false) =
      some ⟨"b", "b:7946", .alive, 0⟩ := by
    decide +kernel
  have hw : Steps pair (init pair pairIds fun _ => 2) pairUp := Run.steps_get pairJoin_runs
  obtain ⟨w', hrun, hdeclared⟩ := verdicts_can_be_reached hw false {true}
  exact ⟨w', hrun, hdeclared true (Finset.mem_singleton_self _) _ halive (.inl rfl)⟩

end World

end Swim
