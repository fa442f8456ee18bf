/-
The coroutines of a SWIM node end (`Node._request`, `Node._probe_once`, `Node._relay_ping`,
`Node._suspicion_timer`).

* `Proc.Tallied` — a probe waits for as many helpers as are still asked, or are still to be
  asked, for it; `Proc.tallied_next`, that every step keeps this;
* `Proc.effort` — what is under way, with a price; the steps that nothing new makes pay;
* **`Proc.coroutines_end`** — a node that starts nothing new and handles nothing takes only so
  many steps, and they can always go on until nothing is under way.
-/
import Dssd.SwimProcess
import Mathlib.Algebra.Order.BigOperators.Group.List
import Mathlib.Data.List.Perm.Basic

namespace Swim

open Relation (ReflTransGen)

/-- The caller of the request that this coroutine makes. -/
def Ready.caller : Ready → Caller
  | .ask probe _ _ => .ask probe
  | .relay req => .relay req

namespace Proc

variable {p p' : Proc} {e : Event} {s : Proc × List Act} {caller : Caller} {q : Request}
  {addr targetAddr : String} {type : MsgType} {updates sample candidates : List Member}
  {msg : Message} {target : Member} {i : ℕ}

/-! ### What a probe waits for -/

/-- Who waits, or will wait, for an ack. -/
def callers (p : Proc) : List Caller := p.requests.map Request.caller ++ p.ready.map Ready.caller

/-- How many helpers are asked for a probe. -/
def asks (p : Proc) (probe : ℤ) : ℕ := p.callers.count (.ask probe)

/-- The callers and the numbers of the requests. -/
def asked (p : Proc) : List (Caller × ℤ) := p.requests.map fun q => (q.caller, q.msg.seq)

/-- Probes wait for the helpers that are asked for them, and for no others. -/
structure Tallied (p : Proc) : Prop where
  nodup : (p.asked.map Prod.snd).Nodup
  sent : ∀ x ∈ p.asked, x.2 ≤ p.seqNo
  probes : ∀ pr ∈ p.probes, pr.id ≤ p.seqNo ∧ pr.pending = p.asks pr.id
  asks : ∀ probe, .ask probe ∈ p.callers → probe ≤ p.seqNo
  pinging : ∀ candidates target seq, (.probe candidates target, seq) ∈ p.asked →
    .ask seq ∉ p.callers ∧ ∀ pr ∈ p.probes, pr.id ≠ seq

theorem tallied_fresh (id addr : String) (indirectPingCount : ℕ) :
    (fresh id addr indirectPingCount).Tallied where
  nodup := .nil
  sent _ h := by cases h
  probes _ h := by cases h
  asks _ h := by cases h
  pinging _ _ _ h := by cases h

theorem mem_callers {probe : ℤ} (h : p'.asks probe = p.asks probe)
    (hmem : .ask probe ∈ p'.callers) : .ask probe ∈ p.callers := by
  have hpos : 0 < p.asks probe := h ▸ List.count_pos_iff.mpr hmem
  exact List.count_pos_iff.mp hpos

/-- Less under way. -/
theorem Tallied.less (h : p.Tallied) (hseq : p.seqNo ≤ p'.seqNo)
    (hasked : p'.asked.Sublist p.asked)
    (hcallers : ∀ probe, .ask probe ∈ p'.callers → .ask probe ∈ p.callers)
    (hprobes : ∀ pr ∈ p'.probes, pr.pending = p'.asks pr.id ∧ ∃ pr₀ ∈ p.probes, pr₀.id = pr.id) :
    p'.Tallied where
  nodup := h.nodup.sublist (hasked.map _)
  sent x hx := (h.sent x (hasked.subset hx)).trans hseq
  probes pr hpr := by
    obtain ⟨hpending, pr₀, hpr₀, hid⟩ := hprobes pr hpr
    exact ⟨hid ▸ (h.probes pr₀ hpr₀).1.trans hseq, hpending⟩
  asks probe hmem := (h.asks probe (hcallers probe hmem)).trans hseq
  pinging candidates target seq hx := by
    obtain ⟨hno, hne⟩ := h.pinging candidates target seq (hasked.subset hx)
    refine ⟨fun hmem => hno (hcallers seq hmem), fun pr hpr => ?_⟩
    obtain ⟨-, pr₀, hpr₀, hid⟩ := hprobes pr hpr
    exact hid ▸ hne pr₀ hpr₀

/-- Requests and coroutines that are not for a probe come and go. -/
theorem Tallied.same (h : p.Tallied) (hseq : p.seqNo ≤ p'.seqNo)
    (hasked : p'.asked.Sublist p.asked) (hasks : ∀ probe, p'.asks probe = p.asks probe)
    (hprobes : p'.probes ⊆ p.probes) : p'.Tallied := by
  refine h.less hseq hasked (fun probe hmem => ?_) fun pr hpr =>
    ⟨(h.probes pr (hprobes hpr)).2.trans (hasks pr.id).symm, pr, hprobes hpr, rfl⟩
  exact mem_callers (hasks probe) hmem

/-- A request that starts, and that is counted already if it is for a probe. -/
theorem Tallied.request (h : p.Tallied) {q : Request} (hseq : q.msg.seq = p.seqNo + 1)
    (hseq' : p'.seqNo = p.seqNo + 1) (hasked : p'.asked = p.asked ++ [(q.caller, q.msg.seq)])
    (hasks : ∀ probe, p'.asks probe = p.asks probe) (hprobes : p'.probes = p.probes) :
    p'.Tallied where
  nodup := by
    rw [hasked, List.map_append, List.nodup_append]
    refine ⟨h.nodup, List.nodup_singleton _, fun a ha b hb => ?_⟩
    obtain ⟨x, hx, rfl⟩ := List.mem_map.mp ha
    have := h.sent x hx
    rw [List.mem_singleton.mp hb]
    show x.2 ≠ q.msg.seq
    omega
  sent x hx := by
    rw [hasked] at hx
    rcases List.mem_append.mp hx with hx | hx
    · have := h.sent x hx
      omega
    · rw [List.mem_singleton.mp hx]
      show q.msg.seq ≤ p'.seqNo
      omega
  probes pr hpr := by
    rw [hprobes] at hpr
    obtain ⟨hid, hpending⟩ := h.probes pr hpr
    exact ⟨by omega, hpending.trans (hasks pr.id).symm⟩
  asks probe hmem := by
    have := h.asks probe (mem_callers (hasks probe) hmem)
    omega
  pinging candidates target seq hx := by
    rw [hasked] at hx
    rw [hprobes]
    rcases List.mem_append.mp hx with hx | hx
    · obtain ⟨hno, hne⟩ := h.pinging candidates target seq hx
      exact ⟨fun hmem => hno (mem_callers (hasks seq) hmem), hne⟩
    · -- its number is new
      obtain ⟨-, rfl⟩ := Prod.mk.inj (List.mem_singleton.mp hx)
      refine ⟨fun hmem => ?_, fun pr hpr => ?_⟩
      · have := h.asks _ (mem_callers (hasks _) hmem)
        omega
      · have := (h.probes pr hpr).1
        omega

/-! ### Callers -/

theorem asks_of_perm (h : p'.callers.Perm p.callers) (probe : ℤ) : p'.asks probe = p.asks probe :=
  h.count_eq _

/-- One fewer is asked for this probe. -/
theorem asks_of_cons (h : p.callers.Perm (caller :: p'.callers)) (probe : ℤ) :
    p.asks probe = p'.asks probe + if caller = .ask probe then 1 else 0 := by
  rw [asks, h.count_eq, List.count_cons]
  simp [asks]

theorem callers_eraseRequest (hq : p.requests[i]? = some q) :
    p.callers.Perm (q.caller :: { p with requests := p.requests.eraseIdx i }.callers) := by
  obtain ⟨hlt, rfl⟩ := List.getElem?_eq_some_iff.mp hq
  exact ((List.getElem_cons_eraseIdx_perm hlt).map Request.caller).symm.append_right _

theorem callers_eraseReady {r : Ready} (hr : p.ready[i]? = some r) :
    p.callers.Perm (r.caller :: { p with ready := p.ready.eraseIdx i }.callers) := by
  obtain ⟨hlt, rfl⟩ := List.getElem?_eq_some_iff.mp hr
  exact (((List.getElem_cons_eraseIdx_perm hlt).map Ready.caller).symm.append_left _).trans
    List.perm_middle

/-- What a request adds, if it can be sent at all. -/
theorem request_cases (p : Proc) (caller : Caller) (addr : String) (type : MsgType)
    (updates : List Member) (targetAddr : String) :
    ((p.request caller addr type updates targetAddr).1.callers.Perm (caller :: p.callers) ∧
        (p.request caller addr type updates targetAddr).1.asked =
          p.asked ++ [(caller, p.seqNo + 1)] ∧
        (p.request caller addr type updates targetAddr).1.seqNo = p.seqNo + 1 ∧
        (p.request caller addr type updates targetAddr).1.probes = p.probes) ∨
      (p.request caller addr type updates targetAddr).1 =
        { p with seqNo := p.seqNo + 1 }.fail caller := by
  unfold Proc.request
  dsimp only
  split
  · refine .inl ⟨?_, ?_, rfl, rfl⟩
    · rw [callers, List.map_append, List.append_assoc]
      exact List.perm_middle
    · rw [asked, List.map_append]
      rfl
  · exact .inr rfl

/-- A new request. -/
theorem Tallied.start (h : p.Tallied) (hne : ∀ probe, caller ≠ .ask probe) :
    (p.request caller addr type updates targetAddr).1.Tallied := by
  rcases p.request_cases caller addr type updates targetAddr with
    ⟨hperm, hasked, hseq, hprobes⟩ | heq
  · refine h.request (q :=
      ⟨caller, addr, ⟨type, p.seqNo + 1, p.node.me, targetAddr, updates⟩, false⟩)
      rfl hseq hasked (fun probe => ?_) hprobes
    rw [Proc.asks, hperm.count_eq, List.count_cons_of_ne (hne probe)]
    rfl
  · rw [heq]
    cases caller with
    | ask probe => exact absurd rfl (hne probe)
    | _ =>
      exact h.same (Int.le_add_one le_rfl) (List.Sublist.refl _) (fun _ => rfl)
        (List.Subset.refl _)

/-- The request of a coroutine that was counted as soon as it was spawned. -/
theorem Tallied.run (h : p.Tallied) {r : Ready} (hr : p.ready[i]? = some r) :
    ({ p with ready := p.ready.eraseIdx i }.request r.caller addr type updates
      targetAddr).1.Tallied := by
  have herase := callers_eraseReady hr
  rcases { p with ready := p.ready.eraseIdx i }.request_cases r.caller addr type updates
    targetAddr with ⟨hperm, hasked, hseq, hprobes⟩ | heq
  · have hsame := hperm.trans herase.symm
    exact h.request
      (q := ⟨r.caller, addr, ⟨type, p.seqNo + 1, p.node.me, targetAddr, updates⟩, false⟩)
      rfl hseq hasked (asks_of_perm hsame) hprobes
  · rw [heq]
    cases r with
    | ask probe helper target =>
      -- the exception ends the probe
      refine h.less (Int.le_add_one le_rfl) (List.Sublist.refl _)
        (fun _ hc => herase.symm.subset (List.mem_cons_of_mem _ hc)) fun pr hpr => ?_
      obtain ⟨hpr, hid⟩ := List.mem_filter.mp hpr
      have hne : ¬ (Ready.ask probe helper target).caller = .ask pr.id := fun heq => by
        cases heq
        simp at hid
      have hasks := asks_of_cons herase pr.id
      rw [if_neg hne] at hasks
      exact ⟨(h.probes pr hpr).2.trans hasks, pr, hpr, rfl⟩
    | relay req =>
      exact h.same (Int.le_add_one le_rfl) (List.Sublist.refl _)
        (fun probe => (asks_of_cons herase probe).symm) (List.Subset.refl _)

/-- A helper has been heard of, or given up. -/
theorem Tallied.settle (h : p.Tallied) (hq : p.requests[i]? = some q) {probe : ℤ}
    (hcaller : q.caller = .ask probe) (acked : Bool) :
    ({ p with requests := p.requests.eraseIdx i }.settle probe acked).Tallied := by
  have herase := callers_eraseRequest hq
  refine h.less le_rfl ((List.eraseIdx_sublist _ _).map _)
    (fun _ hc => herase.symm.subset (List.mem_cons_of_mem _ hc)) fun pr hpr => ?_
  obtain ⟨pr₀, hpr₀, rfl⟩ := List.mem_map.mp hpr
  have hpending := (h.probes pr₀ hpr₀).2
  have hasks := asks_of_cons herase pr₀.id
  rw [hcaller] at hasks
  by_cases hid : pr₀.id = probe
  · rw [if_pos hid]
    rw [if_pos (by rw [hid])] at hasks
    exact ⟨Nat.sub_eq_of_eq_add (hpending.trans hasks), pr₀, hpr₀, rfl⟩
  · rw [if_neg hid]
    rw [if_neg fun heq => hid (Caller.ask.inj heq).symm] at hasks
    exact ⟨hpending.trans hasks, pr₀, hpr₀, rfl⟩

/-- A request that no probe waits for has ended. -/
theorem Tallied.eraseRequest (h : p.Tallied) (hq : p.requests[i]? = some q)
    (hne : ∀ probe, q.caller ≠ .ask probe) :
    { p with requests := p.requests.eraseIdx i }.Tallied := by
  have herase := callers_eraseRequest hq
  refine h.same le_rfl ((List.eraseIdx_sublist _ _).map _) (fun probe => ?_) (List.Subset.refl _)
  have hasks := asks_of_cons herase probe
  rw [if_neg (hne probe)] at hasks
  exact hasks.symm

theorem Tallied.acked (h : p.Tallied) (hq : p.requests[i]? = some q) :
    ({ p with requests := p.requests.eraseIdx i }.acked q.msg q.caller).1.Tallied := by
  cases hcaller : q.caller with
  | ask probe => exact h.settle hq hcaller true
  | join | probe | relay | resurrect =>
    have herase := h.eraseRequest hq (by simp [hcaller])
    exact ⟨herase.nodup, herase.sent, herase.probes, herase.asks, herase.pinging⟩

/-- A probe that asks its helpers. -/
theorem Tallied.fanOut (h : p.Tallied) (hq : p.requests[i]? = some q)
    (hcaller : q.caller = .probe candidates target) :
    Tallied { p with
      requests := p.requests.eraseIdx i
      probes := p.probes ++ [⟨q.msg.seq, target, sample.length, false⟩]
      ready := p.ready ++ sample.map fun helper => .ask q.msg.seq helper target } := by
  set p₀ : Proc := { p with requests := p.requests.eraseIdx i } with hp₀
  set p' : Proc := { p with
    requests := p.requests.eraseIdx i
    probes := p.probes ++ [⟨q.msg.seq, target, sample.length, false⟩]
    ready := p.ready ++ sample.map fun helper => .ask q.msg.seq helper target } with hp'
  have hmem : (.probe candidates target, q.msg.seq) ∈ p.asked :=
    hcaller ▸ List.mem_map_of_mem (f := fun q : Request => (q.caller, q.msg.seq))
      (List.mem_of_getElem? hq)
  obtain ⟨hno, hne⟩ := h.pinging candidates target q.msg.seq hmem
  have h₀ : p₀.Tallied := h.eraseRequest hq (by simp [hcaller])
  have hno₀ : .ask q.msg.seq ∉ p₀.callers := fun hin =>
    hno ((callers_eraseRequest hq).symm.subset (List.mem_cons_of_mem _ hin))
  have hcallers : p'.callers = p₀.callers ++ List.replicate sample.length (.ask q.msg.seq) := by
    simp [Proc.callers, p', p₀, Ready.caller, Function.comp_def]
  have hasks : ∀ probe, p'.asks probe =
      p₀.asks probe + if q.msg.seq = probe then sample.length else 0 := by
    intro probe
    simp [Proc.asks, hcallers, List.count_replicate]
  have hfirst : ∀ x ∈ p₀.asked, x.2 ≠ q.msg.seq := by
    obtain ⟨hlt, hget⟩ := List.getElem?_eq_some_iff.mp hq
    have hperm := ((List.getElem_cons_eraseIdx_perm hlt).map fun q => (q.caller, q.msg.seq)).map
      Prod.snd
    have hnodup := List.nodup_cons.mp (hperm.nodup_iff.mpr h.nodup)
    exact fun x hx heq => hnodup.1 (List.mem_map.mpr ⟨x, hx, by rw [heq, hget]⟩)
  refine ⟨h₀.nodup, h₀.sent, fun pr hpr => ?_, fun probe hin => ?_, fun c t seq hx => ?_⟩
  · rcases List.mem_append.mp hpr with hpr | hpr
    · obtain ⟨hid, hpending⟩ := h₀.probes pr hpr
      exact ⟨hid, by rw [hasks, if_neg (hne pr hpr).symm, hpending, Nat.add_zero]⟩
    · cases List.mem_singleton.mp hpr
      refine ⟨h.sent _ hmem, ?_⟩
      rw [hasks, if_pos rfl, Proc.asks, List.count_eq_zero.mpr hno₀, Nat.zero_add]
  · rw [hcallers] at hin
    rcases List.mem_append.mp hin with hin | hin
    · exact h₀.asks probe hin
    · cases List.eq_of_mem_replicate hin
      exact h.sent _ hmem
  · obtain ⟨hnot, hids⟩ := h₀.pinging c t seq hx
    refine ⟨fun hin => ?_, fun pr hpr => ?_⟩
    · rw [hcallers] at hin
      rcases List.mem_append.mp hin with hin | hin
      · exact hnot hin
      · cases List.eq_of_mem_replicate hin
        exact hfirst _ hx rfl
    · rcases List.mem_append.mp hpr with hpr | hpr
      · exact hids pr hpr
      · cases List.mem_singleton.mp hpr
        exact (hfirst _ hx).symm

theorem Tallied.timedOut (h : p.Tallied) (hq : p.requests[i]? = some q)
    (hp : { p with requests := p.requests.eraseIdx i }.timedOut q.msg sample q.caller = some p') :
    p'.Tallied := by
  cases hcaller : q.caller with
  | probe candidates target =>
    rw [hcaller] at hp
    obtain ⟨-, hp⟩ := Option.ite_none_right_eq_some.mp hp
    split at hp <;> obtain rfl := Option.some.inj hp
    · have herase := h.eraseRequest hq (by simp [hcaller])
      exact ⟨herase.nodup, herase.sent, herase.probes, herase.asks, herase.pinging⟩
    · exact h.fanOut hq hcaller
  | ask probe =>
    rw [hcaller] at hp
    obtain rfl := Option.some.inj hp
    exact h.settle hq hcaller false
  | join | relay | resurrect =>
    rw [hcaller] at hp
    obtain rfl := Option.some.inj hp
    exact h.eraseRequest hq (by simp [hcaller])

theorem Tallied.handle (h : p.Tallied) (msg : Message) : (p.handle msg).1.Tallied := by
  obtain ⟨type, seq, sender, targetAddr, updates⟩ := msg
  have hwake : Tallied { p with
      node := p.node.mergeAll (sender :: updates)
      requests := p.requests.map fun q =>
        if q.msg.seq = seq then { q with done := true } else q } := by
    have hkey : ∀ {α : Type} (f : Request → α), (∀ q : Request, f { q with done := true } = f q) →
        (p.requests.map fun q => if q.msg.seq = seq then { q with done := true } else q).map f =
          p.requests.map f := by
      intro α f hf
      rw [List.map_map]
      refine List.map_congr_left fun q _ => ?_
      show f (if _ then _ else _) = f q
      split
      · exact hf q
      · rfl
    refine h.same le_rfl ?_ (fun probe => ?_) (List.Subset.refl _)
    · rw [asked, hkey (fun q => (q.caller, q.msg.seq)) fun _ => rfl]
      exact List.Sublist.refl _
    · exact congrArg (fun l => (l ++ p.ready.map Ready.caller).count (.ask probe))
        (hkey Request.caller fun _ => rfl)
  cases type with
  | ack | joinAck => exact hwake
  | ping | join => exact ⟨h.nodup, h.sent, h.probes, h.asks, h.pinging⟩
  | pingReq =>
    refine h.same le_rfl (List.Sublist.refl _) (fun probe => ?_) (List.Subset.refl _)
    simp [Proc.asks, callers, Proc.handle, Ready.caller]

/-- **Probes wait for what is under way.** -/
theorem tallied_next (h : p.Tallied) (hs : p.next e = some s) : s.1.Tallied := by
  cases moves hs with
  | join | resurrect => exact h.start (by simp)
  | probe =>
    have htake : Tallied { p with node := p.node.takeBroadcasts.2 } :=
      ⟨h.nodup, h.sent, h.probes, h.asks, h.pinging⟩
    exact htake.start (by simp)
  | ask hr => exact h.run hr
  | relay hr => exact h.run hr
  | acked hq => exact h.acked hq
  | timedOut hq hp' => exact h.timedOut hq hp'
  | answered | unanswered =>
    exact h.same le_rfl (List.Sublist.refl _) (fun _ => rfl) fun _ hpr =>
      List.mem_of_mem_eraseIdx hpr
  | suspicionTimer => exact ⟨h.nodup, h.sent, h.probes, h.asks, h.pinging⟩
  | handle msg => exact h.handle msg
  | restart =>
    refine h.less le_rfl (List.filter_sublist.map _) (fun probe hmem => ?_) fun pr hpr => ?_
    · obtain ⟨q, hq, hcaller⟩ :=
        List.mem_map.mp ((List.mem_append.mp hmem).resolve_right List.not_mem_nil)
      exact List.mem_append_left _ (List.mem_map.mpr ⟨q, List.mem_of_mem_filter hq, hcaller⟩)
    · cases hpr

/-! ### What is left to do -/

/-- The price of a request; a probe may still ask so many helpers. -/
def price (helpers : ℕ) : Caller → ℕ
  | .probe _ _ => 2 * helpers + 3
  | _ => 1

def effort (p : Proc) : ℕ :=
  (p.requests.map fun q => price p.indirectPingCount q.caller).sum + 2 * p.ready.length +
    2 * p.probes.length + p.node.timers.length

/-- Nothing is under way. -/
structure AtRest (p : Proc) : Prop where
  requests : p.requests = []
  probes : p.probes = []
  ready : p.ready = []
  timers : p.node.timers = []

/-- Steps with which a node goes on with what is under way. -/
def Event.isOwn : Event → Bool
  | .start _ | .acked _ | .timedOut _ _ | .gathered _ | .suspicionTimer _ => true
  | _ => false

theorem timers_set_of_ne (r : Node) {m : Member} (h : m.state ≠ .suspect) :
    (r.set m).timers = r.timers :=
  if_neg fun h' => h h'.1

theorem timers_mark (r : Node) (id : String) (new_state from_state : State)
    (incarnation : Option ℤ) :
    (r.mark id new_state from_state incarnation).timers.length ≤ r.timers.length + 1 ∧
      (new_state ≠ .suspect →
        (r.mark id new_state from_state incarnation).timers = r.timers) := by
  rcases r.mark_cases id new_state from_state incarnation with heq | ⟨m, -, -, heq⟩
  · rw [heq]
    exact ⟨Nat.le_succ _, fun _ => rfl⟩
  · rw [heq]
    refine ⟨?_, fun hne => timers_set_of_ne r hne⟩
    rw [Node.set]
    dsimp only
    split
    · rw [List.length_append, List.length_singleton]
    · exact Nat.le_succ _

theorem timers_resurrect (r : Node) (id : String) : (r.resurrect id).timers = r.timers := by
  unfold Node.resurrect
  split
  · rfl
  · split
    · exact timers_set_of_ne r (by simp)
    · rfl

theorem timers_suspicionTimer (r : Node) {k : ℕ} (hk : k < r.timers.length) :
    (r.suspicionTimer k).timers.length + 1 = r.timers.length := by
  unfold Node.suspicionTimer
  rw [List.getElem?_eq_getElem hk]
  dsimp only
  rw [(timers_mark _ _ .dead _ _).2 (by simp)]
  show (r.timers.eraseIdx k).length + 1 = _
  rw [List.length_eraseIdx_of_lt hk]
  omega

theorem effort_eraseRequest (hq : p.requests[i]? = some q) :
    { p with requests := p.requests.eraseIdx i }.effort + price p.indirectPingCount q.caller =
      p.effort := by
  obtain ⟨hlt, rfl⟩ := List.getElem?_eq_some_iff.mp hq
  have hsum := (((List.getElem_cons_eraseIdx_perm hlt).map
    fun q => price p.indirectPingCount q.caller).sum_eq).symm
  rw [List.map_cons, List.sum_cons] at hsum
  unfold effort
  dsimp only
  omega

/-- A request costs as much as it may still take. -/
theorem effort_request : (p.request caller addr type updates targetAddr).1.effort ≤
    p.effort + price p.indirectPingCount caller := by
  unfold Proc.request effort
  dsimp only
  split
  · simp only [List.map_append, List.map_cons, List.map_nil, List.sum_append, List.sum_cons,
      List.sum_nil]
    omega
  · cases caller with
    | ask probe =>
      have := List.length_filter_le (fun pr : Probe => decide (pr.id ≠ probe)) p.probes
      simp only [fail]
      omega
    | _ => exact Nat.le_add_right _ _

theorem effort_start {r : Ready} (hr : p.ready[i]? = some r) :
    ({ p with ready := p.ready.eraseIdx i }.request r.caller addr type updates
      targetAddr).1.effort < p.effort := by
  obtain ⟨hlt, rfl⟩ := List.getElem?_eq_some_iff.mp hr
  have hle : ({ p with ready := p.ready.eraseIdx i }.request p.ready[i].caller addr type updates
    targetAddr).1.effort ≤ _ := effort_request
  have hone : price p.indirectPingCount p.ready[i].caller = 1 := by
    cases p.ready[i] <;> rfl
  have hlen := List.length_eraseIdx_of_lt hlt
  have heff : { p with ready := p.ready.eraseIdx i }.effort + 2 = p.effort := by
    unfold effort
    dsimp only
    omega
  dsimp only at hle
  omega

theorem effort_acked : (p.acked msg caller).1.effort = p.effort := by
  cases caller with
  | ask probe =>
    simp [effort, Proc.acked, settle]
  | resurrect target =>
    simp [effort, Proc.acked, timers_resurrect]
  | join | probe | relay => rfl

theorem effort_mark (p : Proc) (id : String) : (p.mark id).effort ≤ p.effort + 1 := by
  have := (timers_mark p.node id .suspect .alive none).1
  unfold effort mark
  dsimp only
  omega

theorem effort_timedOut (h : p.timedOut msg sample caller = some p') :
    p'.effort < p.effort + price p.indirectPingCount caller := by
  cases caller with
  | probe candidates target =>
    obtain ⟨⟨hlen, -⟩, h⟩ := Option.ite_none_right_eq_some.mp h
    split at h <;> obtain rfl := Option.some.inj h
    · have := effort_mark p target.id
      simp only [price]
      omega
    · simp only [effort, price, List.length_append, List.length_map, List.length_singleton]
      omega
  | ask probe =>
    obtain rfl := Option.some.inj h
    simp [effort, settle, price]
  | join | relay | resurrect =>
    obtain rfl := Option.some.inj h
    exact Nat.lt_succ_self _

/-- **Every step pays.** -/
theorem effort_next (he : e.isOwn = true) (h : p.next e = some s) : s.1.effort < p.effort := by
  have hpos : ∀ (helpers : ℕ) (caller : Caller), 0 < price helpers caller := by
    intro helpers caller
    cases caller <;> exact Nat.succ_pos _
  cases moves h with
  | join | probe | resurrect | handle | restart => cases he
  | @ask i probe helper target hr => exact effort_start (r := .ask probe helper target) hr
  | @relay i req hr => exact effort_start (r := .relay req) hr
  | @acked i q hq =>
    have := effort_eraseRequest hq
    have := hpos p.indirectPingCount q.caller
    dsimp only
    rw [effort_acked]
    omega
  | @timedOut i sample q p' hq hp' =>
    have := effort_eraseRequest hq
    have hlt := effort_timedOut hp'
    dsimp only at hlt ⊢
    omega
  | @answered i pr hpr | @unanswered i pr hpr =>
    obtain ⟨hlt, -⟩ := List.getElem?_eq_some_iff.mp hpr
    have hlen := List.length_eraseIdx_of_lt hlt
    have heff : { p with probes := p.probes.eraseIdx i }.effort + 2 = p.effort := by
      unfold effort
      dsimp only
      omega
    have := effort_mark { p with probes := p.probes.eraseIdx i } pr.target.id
    dsimp only
    omega
  | suspicionTimer hk =>
    have := timers_suspicionTimer p.node hk
    unfold effort
    dsimp only
    omega

/-- Whoever waits can be told that nobody answers. -/
theorem exists_timedOut (p : Proc) (msg : Message) (caller : Caller) :
    ∃ sample p', p.timedOut msg sample caller = some p' := by
  cases caller with
  | probe candidates target =>
    set helpers := candidates.filter fun m => m.id ≠ target.id with hhelpers
    have hsample : p.Sample candidates target (helpers.take p.indirectPingCount) :=
      ⟨List.length_take, (List.take_sublist _ _).subperm⟩
    refine ⟨helpers.take p.indirectPingCount, ?_⟩
    simp only [timedOut]
    rw [if_pos hsample]
    split
    · exact ⟨_, rfl⟩
    · exact ⟨_, rfl⟩
  | _ => exact ⟨[], _, rfl⟩

theorem exists_step (he : e.isOwn = true) (h : (p.next e).isSome = true) :
    ∃ p', Run.StepWhere step (fun _ e => e.isOwn = true) p p' := by
  obtain ⟨s, hs⟩ := Option.isSome_iff_exists.mp h
  exact ⟨s.1, e, he, by rw [step, hs]; rfl⟩

/-- **Nothing waits in vain**: what is under way can go on. -/
theorem exists_own (h : p.Tallied) :
    p.AtRest ∨ ∃ p', Run.StepWhere step (fun _ e => e.isOwn = true) p p' := by
  match hq : p.requests, hr : p.ready, hpr : p.probes, ht : p.node.timers with
  | q :: rest, _, _, _ =>
    obtain ⟨sample, p', hp'⟩ := { p with requests := rest }.exists_timedOut q.msg q.caller
    refine .inr (exists_step (e := .timedOut 0 sample) rfl ?_)
    simp [next, hq, hp']
  | [], r :: _, _, _ =>
    refine .inr (exists_step (e := .start 0) rfl ?_)
    cases r <;> simp [next, hr]
  | [], [], pr :: _, _ =>
    -- nobody is asked for this probe any more
    have hpending : pr.pending = 0 := by
      rw [(h.probes pr (hpr ▸ List.mem_cons_self)).2, asks, callers, hq, hr]
      rfl
    refine .inr (exists_step (e := .gathered 0) rfl ?_)
    cases hacked : pr.acked <;> simp [next, hpr, hpending, hacked]
  | [], [], [], t :: _ =>
    refine .inr (exists_step (e := .suspicionTimer 0) rfl ?_)
    simp [next, ht]
  | [], [], [], [] => exact .inl ⟨hq, hpr, hr, ht⟩

/-- **Coroutines end.**  Whatever a node has done and handled, the steps with which it goes on with
what is under way, and starts nothing new, come to an end; and they can always go on until no
request waits for its ack, no probe for its helpers, and no timer is left. -/
theorem coroutines_end (id addr : String) (indirectPingCount : ℕ) (es : List Event) :
    Run.Always step (fun p =>
      (¬ ∃ run : ℕ → Proc, run 0 = p ∧
          ∀ i, Run.StepWhere step (fun _ e => e.isOwn = true) (run i) (run (i + 1))) ∧
        ∃ p', ReflTransGen (Run.StepWhere step fun _ e => e.isOwn = true) p p' ∧ p'.AtRest)
      (fresh id addr indirectPingCount) es := by
  have hkeep : ∀ (p : Proc) e p', step p e = some p' → p.Tallied → p'.Tallied := by
    intro p e p' he h
    obtain ⟨s, hs, rfl⟩ := Option.map_eq_some_iff.mp he
    exact tallied_next h hs
  refine Run.always_of_inv hkeep (fun p hp => ?_) (tallied_fresh id addr indirectPingCount) es
  have hacc : Acc (fun p' p => Run.StepWhere step (fun _ e => e.isOwn = true) p p') p := by
    refine Run.acc_of_measure wellFounded_lt effort (fun p p' (h : p.Tallied) hs => ?_) hp
    obtain ⟨e, he, hstep⟩ := hs
    obtain ⟨s, hs, rfl⟩ := Option.map_eq_some_iff.mp hstep
    exact ⟨tallied_next h hs, effort_next he hs⟩
  exact ⟨fun hrun => not_acc_iff_exists_descending_chain.mpr hrun hacc,
    Run.comes_to_rest (fun p p' h ⟨e, _, hs⟩ => hkeep p e p' hs h)
      (fun p h => exists_own h) hacc hp⟩

end Proc

end Swim
