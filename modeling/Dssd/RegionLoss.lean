/-
No agent is lost, as long as a tick removes only what has not come back.

* `Shards.committed` — the committed log of a shard, as far as any member knows it;
* `Intact` — from a placement on, every snapshot in its shard has the agent:
  the snapshots in the ledgers, the registries that have applied the placement, and
  the copies that a failed `add_agent` would put back;
* `Spares` — the polls that take nothing away from such a placement: a tick pops
  only ids that nobody has placed in its shard again since they departed, and an
  `add_agent` puts its copy back only over its own change;
* `no_agent_lost` — as long as every poll is one of these, an agent that has been
  spawned is in the last committed snapshot of some shard, because every placement
  is intact or a later one of the same agent has landed; `no_agent_lost_fails` — a
  run that loses one.
-/
import Dssd.RaftBook
import Dssd.RegionRegistry

open Function (update)
open Ledger.State (Ext)

namespace Region

open Raft (Cluster LogEntry Membership Node Ghost Sim)

variable {S : Setup} {g g' : String → Ghost Snapshot} {v v' : Shards} {w w' : World} {e : Event}
  {s n : String} {p : Placement}

/-! ### The committed log -/

/-- The committed log of the Raft cluster of the shard. -/
def Shards.committed (M : Membership) (v : Shards) (s : String) : List (LogEntry Snapshot) :=
  (v.raft s).committed M

/-- The committed part of every member's log is a part of it. -/
theorem Base.isPrefix_committed (h : Base S g v) (hn : n ∈ S.M.ids) :
    (v.node s n).log.take ((v.node s n).commitIndex + 1) <+: v.committed S.M s :=
  (h.sim s).isPrefix_committed .refl hn

/-! ### Intact placements -/

/-- Every snapshot of the shard, from the placement on, has the agent. -/
structure Intact (g : String → Ghost Snapshot) (v : Shards) (p : Placement) : Prop where
  ledger : ∀ t e k f l, ((g p.shard).ledger t)[p.index]? = some e → e.term = p.term →
    p.index ≤ k → ((g p.shard).ledger t)[k]? = some f → f.command = some l →
      p.agent.id ∈ l.map AgentState.id
  agents : ∀ n, AppliedOn v p n → (v.agents p.shard n).Has p.agent.id
  before : ∀ n a c t i r, v.lock p.shard n = some (.place a c t i r) → AppliedOn v p n →
    p.index < i → r.Has p.agent.id

/-- The snapshots in a node's log. -/
theorem Intact.log (h : Intact g v p) (hb : Base S g v) {k : ℕ} {e f : LogEntry Snapshot}
    {l : List AgentState} (he : (v.node p.shard n).log[p.index]? = some e) (het : e.term = p.term)
    (hk : p.index ≤ k) (hf : (v.node p.shard n).log[k]? = some f) (hl : f.command = some l) :
    p.agent.id ∈ l.map AgentState.id := by
  have hpre := (hb.sim p.shard).wellFormed n k f hf
  exact h.ledger f.term e k f l
    (Ledger.getElem?_of_take_isPrefix hpre (Nat.lt_succ_of_le hk) he) het hk
    (Ledger.getElem?_of_take_isPrefix hpre (Nat.lt_succ_self k) hf) hl

/-- The ledgers grow by snapshots of replicas that have applied their whole log. -/
theorem Intact.grow (h : Intact g v p) (hp : Past S g v) (hmem : p ∈ v.placed)
    (hx : Ext (g p.shard).toState (g' p.shard).toState) (hg : Grown v v' g g') (hl : Later v v')
    (hagents : ∀ n, AppliedOn v' p n → (v'.agents p.shard n).Has p.agent.id) {t k : ℕ}
    {e f : LogEntry Snapshot} {l : List AgentState}
    (he : ((g' p.shard).ledger t)[p.index]? = some e) (het : e.term = p.term) (hk : p.index ≤ k)
    (hf : ((g' p.shard).ledger t)[k]? = some f) (hc : f.command = some l) :
    p.agent.id ∈ l.map AgentState.id := by
  rcases hg p.shard with hsame | ⟨n, f', -, hled, hcmd⟩
  · rw [hsame] at he hf
    exact h.ledger t e k f l he het hk hf hc
  by_cases ht : t = f'.term
  swap
  · rw [hled, Function.update_of_ne ht] at he hf
    exact h.ledger t e k f l he het hk hf hc
  subst ht
  -- the ledger of this term is now a node's log and one more entry
  have hpre := hx.ledger f'.term
  rw [hled, Function.update_self] at he hf hpre
  have hklt := Ledger.lt_length_of_getElem? hf
  rw [List.length_append, List.length_singleton] at hklt
  rcases Nat.lt_or_ge k (v.node p.shard n).log.length with hlt | hge
  · rw [List.getElem?_append_left (by omega)] at he hf
    exact h.log hp.toBase he het hk hf hc
  obtain rfl : k = (v.node p.shard n).log.length := by omega
  rw [List.getElem?_concat_length] at hf
  cases hf
  rcases Nat.lt_or_ge p.index (v.node p.shard n).log.length with hlt | hge'
  · -- a snapshot of a registry that has applied the placement
    rcases hcmd with hnone | ⟨hsnap, hup, -⟩
    · rw [hnone] at hc
      cases hc
    rw [List.getElem?_append_left hlt] at he
    have hle : p.index ≤ (v.node p.shard n).lastApplied := by
      unfold caughtUp Node.lastIndex at hup
      omega
    rw [hsnap] at hc
    cases hc
    exact hagents n ((hp.appliedOn hmem he het hle).later hl)
  · -- the new entry cannot be the placement, which is recorded already
    obtain ⟨-, e', l', he', -⟩ := hp.placed p hmem
    have hidx : p.index = (v.node p.shard n).log.length := by omega
    rw [hidx, List.getElem?_concat_length] at he
    cases he
    rw [← het] at he'
    have hnew := Ledger.getElem?_of_isPrefix hpre he'
    rw [hidx, List.getElem?_concat_length] at hnew
    cases hnew
    exact h.ledger _ _ _ _ l he' het le_rfl he' hc

/-- The applier brings the registry to the last snapshot it applies. -/
theorem Intact.agents_apply (h : Intact g v p) (hp : Past S g v) (hmem : p ∈ v.placed) {c : ℕ}
    {f : LogEntry Snapshot} {l : List AgentState}
    (hf : (v.node p.shard n).log[p.index]? = some f)
    (hft : f.term = p.term) (hfc : f.command = some l)
    (hle : p.index ≤ c) :
    ((((v.node p.shard n).log.take (c + 1)).drop ((v.node p.shard n).lastApplied + 1)).foldl
      Registry.apply (v.agents p.shard n)).Has p.agent.id := by
  set r := v.node p.shard n with hr
  set es := (r.log.take (c + 1)).drop (r.lastApplied + 1) with hes
  have hentry : ∀ {j : ℕ} {f' : LogEntry Snapshot}, es[j]? = some f' →
      r.log[r.lastApplied + 1 + j]? = some f' := by
    intro j f' hj
    rw [hes, List.getElem?_drop] at hj
    exact Ledger.getElem?_of_isPrefix (List.take_prefix _ _) hj
  have hlast : ∀ {k : ℕ} {f' : LogEntry Snapshot} {x : List AgentState}, es[k]? = some f' →
      f'.command = some x → lastSnapshot es = some x → p.index ≤ r.lastApplied + 1 + k →
        (es.foldl Registry.apply (v.agents p.shard n)).Has p.agent.id := by
    intro k f' x hk hx hes' hpk
    rw [foldl_apply, hes']
    exact Registry.has_ofList.mpr (h.log hp.toBase hf hft hpk (hentry hk) hx)
  rcases Nat.lt_or_ge r.lastApplied p.index with hlt | hge
  · -- the placement is applied now
    have hj : es[p.index - (r.lastApplied + 1)]? = some f := by
      rw [hes, List.getElem?_drop, Nat.add_sub_cancel' hlt,
        List.getElem?_take_of_lt (Nat.lt_succ_of_le hle), hf]
    obtain ⟨k, f', x, hjk, hk, hx, hes'⟩ := exists_lastSnapshot hj (by simp [hfc])
    exact hlast hk hx hes' (by omega)
  · have hold := h.agents n (hp.appliedOn hmem hf hft hge)
    cases hes' : lastSnapshot es with
    | none =>
      rw [foldl_apply, hes']
      exact hold
    | some x =>
      obtain ⟨k, f', hk, hx⟩ := exists_of_lastSnapshot hes'
      exact hlast hk hx hes' (by omega)

/-! ### Polls that take nothing away -/

namespace World

/-- What the tick pops when it wakes up has not been placed in this shard since it departed. -/
def PopsOwn (w : World) (s n : String) (h : Holder) : Prop :=
  (w.node s n).state = (h.term, true) → h.index ≤ (w.node s n).lastApplied →
    ∀ d ∈ (w.tick n).accepted, d.shard = s → d.agent.id ∈ h.ids →
      ∀ p ∈ w.placed.drop d.mark, p.shard = s → p.agent.id ≠ d.agent.id

/-- If the `add_agent` fails when it wakes up, no snapshot has been applied since it copied. -/
def RestoresOwn (w : World) (s n : String) (h : Holder) : Prop :=
  (w.node s n).state ≠ (h.term, true) → h.before.isSome = true →
    ∀ f ∈ ((w.node s n).log.take ((w.node s n).lastApplied + 1)).drop h.index, f.command = none

def Spares (w : World) : Event → Prop
  | .poll s n => ∀ h ∈ w.lock s n, w.PopsOwn s n h ∧ w.RestoresOwn s n h
  | _ => True

instance (w : World) (s n : String) (h : Holder) : Decidable (w.PopsOwn s n h) := by
  unfold PopsOwn
  infer_instance

instance (w : World) (s n : String) (h : Holder) : Decidable (w.RestoresOwn s n h) := by
  unfold RestoresOwn
  infer_instance

instance (w : World) : (e : Event) → Decidable (w.Spares e)
  | .poll s n =>
    inferInstanceAs (Decidable (∀ h ∈ w.lock s n, w.PopsOwn s n h ∧ w.RestoresOwn s n h))
  | .raft _ _ | .spawn _ _ | .handle _ | .loseRequest _ | .loseReply _ | .acquire _
  | .expire _ _ | .cancelAdd _ _ | .cancelWaiting _ | .tickStart _ | .tickVisit _ | .tickEnter _
  | .tickSend _ | .tickReply _ | .tickTimeout _ | .tickRemove _ | .tickKill _ => .isTrue trivial

end World

/-- An `add_agent` that waits for its entry has applied all before it. -/
def Waits (v : Shards) : Prop := ∀ s n a c t i r, v.lock s n = some (.place a c t i r) →
  i ≤ (v.node s n).lastApplied + 1

/-- The change does not take the placement away. -/
structure Harmless (v : Shards) (e : Event) (p : Placement) : Prop where
  pop : ∀ n ids t i, e = .poll p.shard n → v.lock p.shard n = some (.remove ids t i) →
    (v.node p.shard n).state = (t, true) → i ≤ (v.node p.shard n).lastApplied → p.agent.id ∉ ids
  restore : ∀ n a c t i r, e = .poll p.shard n → v.lock p.shard n = some (.place a c t i r) →
    (v.node p.shard n).state ≠ (t, true) →
      ∀ f ∈ ((v.node p.shard n).log.take ((v.node p.shard n).lastApplied + 1)).drop i,
        f.command = none

/-- Registries keep the agents that are intact, one case for each change. -/
theorem Intact.agents_change (h : Intact g v p) (hp : Past S g v) (hp' : Past S g' v')
    (hmem : p ∈ v.placed) (hharm : Harmless v e p) (hc : Shards.Change S v e v')
    (ha : AppliedOn v' p n) : (v'.agents p.shard n).Has p.agent.id := by
  have hmem' := hc.later.placed.subset hmem
  obtain ⟨f, l, hf, hft, hle, hfc, -⟩ := ha.entry hp' hmem'
  cases hc with
  | idle => exact h.agents n ha
  | @raft s ev c he hc hpr hna =>
    refine h.agents n ?_
    obtain ⟨f, hf, hrest⟩ := ha
    refine ⟨f, ?_, hrest⟩
    change f ∈ (update v.raft s c p.shard).applied n at hf
    by_cases hs : p.shard = s
    · rw [hs, Function.update_self, (Raft.step_internal hc hpr hna n).2] at hf
      rwa [hs]
    · rwa [Function.update_of_ne hs] at hf
  | @applier s m c he hc =>
    obtain ⟨-, ⟨⟩⟩ := Option.ite_none_right_eq_some.mp hc
    rw [Shards.node_setReplica, Shards.node_deliver] at hf hle
    rw [Shards.agents_setReplica]
    split
    · rename_i heq
      rw [if_pos heq] at hf hle
      obtain ⟨rfl, rfl⟩ := heq
      rw [hp.applier_eq] at hf hle ⊢
      exact h.agents_apply hp hmem hf hft hfc hle
    · rename_i hne
      rw [if_neg hne] at hf hle
      exact h.agents n (hp.appliedOn hmem hf hft hle)
  | take | drop =>
    refine Shards.has_setReplica (h.agents n ha) fun hs hn => ?_
    subst hs hn
    exact h.agents n ha
  | @restore s m a caller t i before hlock hwhy =>
    refine Shards.has_setReplica (h.agents n ha) fun hs hn => ?_
    subst hs hn
    refine h.before n a caller t i before hlock ha ?_
    rw [Shards.node_setReplica] at hf hle
    rcases hwhy with ⟨hstate, rfl⟩ | ⟨-, hlt, -⟩
    · -- the placement is a snapshot that has been applied
      by_contra hge
      have hnone := hharm.restore n a caller t i before rfl hlock hstate f
        (List.mem_of_getElem? (i := p.index - i) (by
          rw [List.getElem?_drop, Nat.add_sub_cancel' (not_lt.mp hge),
            List.getElem?_take_of_lt (Nat.lt_succ_of_le hle), hf]))
      rw [hnone] at hfc
      cases hfc
    · exact hle.trans_lt hlt
  | move hfree hup =>
    have ha' : AppliedOn v p n := by rwa [AppliedOn, Shards.applied_proposeTick] at ha
    rw [Shards.agents_proposeTick]
    refine Shards.has_setReplica (h.agents n ha') fun hs hn => ?_
    subst hs hn
    exact Registry.has_step.mpr (h.agents n ha')
  | @place s m a caller t i hlock hstate hi =>
    have ha' : AppliedOn v p n := by
      change ∃ f ∈ (((v.setReplica s m _).proposeTick s m).raft p.shard).applied n, _ at ha
      rwa [Shards.applied_proposeTick] at ha
    rw [Shards.agents_place]
    split
    · rename_i heq
      obtain ⟨rfl, rfl⟩ := heq
      exact Registry.has_set.mpr (.inr (h.agents n ha'))
    · exact h.agents n ha'
  | @pop s m ids t i he hlock hstate hi =>
    have ha' : AppliedOn v p n := by rwa [AppliedOn, Shards.applied_proposeTick] at ha
    rw [Shards.agents_proposeTick]
    refine Shards.has_setReplica (h.agents n ha') fun hs hn => ?_
    subst hs hn
    exact Registry.has_foldl_pop.mpr ⟨h.agents n ha', hharm.pop n ids t i he hlock hstate hi⟩

/-- A lock that is held by an `add_agent` with a proposal after a change was so before, or this
is the proposal. -/
theorem Base.lock_place_eq (hb : Base S g v) (hc : Shards.Change S v e v') {a : AgentState}
    {c : Option Call} {t i : ℕ} {r : Registry} (hl : v'.lock s n = some (.place a c t i r)) :
    v.lock s n = some (.place a c t i r) ∨ r = v.agents s n ∧ i = (v.node s n).log.length ∧
      caughtUp (v.node s n) ∧ v' = v.place s n a c := by
  have hset : ∀ {u : Shards} {s₁ n₁ : String} {x : Replica}, u.lock = v.lock →
      (∀ ho, x.lock = some ho → ho.before = none ∨ v.lock s₁ n₁ = some ho) →
        (u.setReplica s₁ n₁ x).lock s n = some (.place a c t i r) →
          v.lock s n = some (.place a c t i r) := by
    intro u s₁ n₁ x hu hx hl
    rw [Shards.lock_setReplica, hu] at hl
    split at hl
    · rename_i heq
      obtain ⟨rfl, rfl⟩ := heq
      exact (hx _ hl).resolve_left (by simp [Holder.before])
    · exact hl
  cases hc with
  | idle | raft => exact .inl hl
  | @applier s₁ n₁ c₁ he hc₁ =>
    refine .inl (hset (u := { v with raft := update v.raft s₁ c₁ }) rfl ?_ hl)
    exact fun ho hx => .inr hx
  | @take s m h hfree hr ht hi hnot =>
    refine .inl (hset rfl (fun ho hx => .inl ?_) hl)
    obtain rfl := Option.some_inj.mp hx
    cases h with
    | place => exact absurd hnot (by simp [Holder.isPlace])
    | _ => rfl
  | drop | restore => exact .inl (hset rfl (fun ho hx => absurd hx (by simp)) hl)
  | move | pop =>
    rw [Shards.lock_proposeTick] at hl
    exact .inl (hset rfl (fun ho hx => absurd hx (by simp)) hl)
  | @place s m a' c' t' i' hlock hstate hi =>
    rw [Shards.lock_place] at hl
    split at hl
    · rename_i heq
      obtain ⟨rfl, rfl⟩ := heq
      cases hl
      exact .inr ⟨rfl, rfl, hb.caughtUp_of_lock hlock hstate hi, rfl⟩
    · exact .inl hl

theorem Shards.appliedOn_place {a : AgentState} {c : Option Call} {m : String}
    (h : AppliedOn (v.place s m a c) p n) : AppliedOn v p n := by
  change ∃ f ∈ (((v.setReplica s m _).proposeTick s m).raft p.shard).applied n, _ at h
  rwa [Shards.applied_proposeTick] at h

/-- `_last_applied` does not go back. -/
theorem Base.lastApplied_le (hb : Base S g v) (hc : Shards.Change S v e v') (s n : String) :
    (v.node s n).lastApplied ≤ (v'.node s n).lastApplied := by
  have hpropose : ∀ {s₁ n₁ : String} {x : Replica},
      (v.node s n).lastApplied ≤
        (((v.setReplica s₁ n₁ x).proposeTick s₁ n₁).node s n).lastApplied := by
    intro s₁ n₁ x
    rw [Shards.node_proposeTick]
    split
    · rename_i heq
      rw [heq.1, heq.2, Node.propose]
      split <;> exact le_rfl
    · exact le_rfl
  cases hc with
  | idle | take | drop | restore => exact le_rfl
  | raft he hc hpr hna =>
    rw [Shards.node_raft]
    split
    · rename_i heq
      subst heq
      exact (Raft.step_internal hc hpr hna n).1.lastApplied.ge
    · exact le_rfl
  | applier he hc =>
    obtain ⟨-, ⟨⟩⟩ := Option.ite_none_right_eq_some.mp hc
    rw [Shards.node_setReplica, Shards.node_deliver]
    split
    · rename_i heq
      rw [heq.1, heq.2, hb.applier_eq]
      exact (hb.node_ok _ _).lastApplied
    · exact le_rfl
  | move | pop => exact hpropose
  | place => exact hpropose

theorem Waits.change (h : Waits v) (hb : Base S g v) (hc : Shards.Change S v e v') : Waits v' := by
  intro s n a c t i r hl
  have hle := hb.lastApplied_le hc s n
  rcases hb.lock_place_eq hc hl with hold | ⟨-, rfl, hup, -⟩
  · exact (h s n a c t i r hold).trans (Nat.succ_le_succ hle)
  · unfold caughtUp Node.lastIndex at hup
    omega

/-- What is in the part that was applied before has been applied before. -/
theorem AppliedOn.of_later (ha : AppliedOn v' p n) (hb : Base S g v) (hb' : Base S g' v')
    (hl : Later v v') (hle : p.index ≤ (v.node p.shard n).lastApplied) : AppliedOn v p n := by
  obtain ⟨f, hf, hft, hfi⟩ := ha
  obtain ⟨hlog, hle', hpos⟩ := hb'.getElem?_of_applied hf
  have hlen : ((v.raft p.shard).applied n).length = (v.node p.shard n).lastApplied := by
    rw [(hb.node_ok p.shard n).applied, List.length_drop, List.length_take]
    have := (hb.node_ok p.shard n).lastApplied.trans_lt (hb.commit_lt p.shard n)
    omega
  have hnew : ((v'.raft p.shard).applied n)[f.index - 1]? = some f := by
    rw [(hb'.node_ok p.shard n).applied, List.getElem?_drop, Nat.add_sub_cancel' hpos,
      List.getElem?_take_of_lt (Nat.lt_succ_of_le hle'), hlog]
  obtain ⟨t, ht⟩ := hl.applied p.shard n
  rw [← ht, List.getElem?_append_left (by omega)] at hnew
  exact ⟨f, List.mem_of_getElem? hnew, hft, hfi⟩

/-- Copies keep the agents that are intact. -/
theorem Intact.before_change (h : Intact g v p) (hb : Base S g v) (hb' : Base S g' v')
    (hw : Waits v) (hc : Shards.Change S v e v') {a : AgentState} {c : Option Call} {t i : ℕ}
    {r : Registry} (hl : v'.lock p.shard n = some (.place a c t i r)) (ha : AppliedOn v' p n)
    (hi : p.index < i) : r.Has p.agent.id := by
  rcases hb.lock_place_eq hc hl with hold | ⟨rfl, -, -, rfl⟩
  · have hle := hw p.shard n a c t i r hold
    exact h.before n a c t i r hold (ha.of_later hb hb' hc.later (by omega)) hi
  · exact h.agents n (Shards.appliedOn_place ha)

/-- **A harmless change keeps a placement intact.** -/
theorem Intact.change (h : Intact g v p) (hp : Past S g v) (hp' : Past S g' v')
    (hx : ∀ s, Ext (g s).toState (g' s).toState) (hg : Grown v v' g g') (hw : Waits v)
    (hmem : p ∈ v.placed) (hharm : Harmless v e p) (hc : Shards.Change S v e v') :
    Intact g' v' p := by
  have hagents : ∀ n, AppliedOn v' p n → (v'.agents p.shard n).Has p.agent.id := fun n ha =>
    h.agents_change hp hp' hmem hharm hc ha
  exact ⟨fun t e k f l => h.grow hp hmem (hx p.shard) hg hc.later hagents, hagents,
    fun n a c t i r hl ha hi => h.before_change hp.toBase hp'.toBase hw hc hl ha hi⟩

/-! ### New placements -/

/-- No log has an entry of a leader's term beyond the leader's own. -/
theorem Base.lt_length_of_term (hb : Base S g v) (hr : (v.node s n).role = .leader)
    {l : List (LogEntry Snapshot)} (hl : (g s).WellFormed l) {k : ℕ} {f : LogEntry Snapshot}
    (hf : l[k]? = some f) (hft : f.term = (v.node s n).currentTerm) :
    k < (v.node s n).log.length := by
  have hled := ((hb.node_ok s n).leader hr).2.1
  have hpre := hl k f hf
  change l.take (k + 1) <+: (g s).ledger f.term at hpre
  rw [hft, hled] at hpre
  have hlen := hpre.length_le
  rw [List.length_take] at hlen
  have := Ledger.lt_length_of_getElem? hf
  omega

/-- What a leader places is intact. -/
theorem intact_place {a : AgentState} {c : Option Call} (hb : Base S g v)
    (hr : (v.node s n).role = .leader) (hg : Grown v (v.place s n a c) g g') :
    Intact g' (v.place s n a c) ⟨s, a, (v.node s n).currentTerm, (v.node s n).log.length⟩ := by
  set T := (v.node s n).currentTerm
  set i := (v.node s n).log.length with hi
  have hfresh : ∀ m, ¬ AppliedOn (v.place s n a c) ⟨s, a, T, i⟩ m := by
    intro m ha
    obtain ⟨f, hf, hft, hfi⟩ := Shards.appliedOn_place ha
    obtain ⟨hlog, -, -⟩ := hb.getElem?_of_applied hf
    have := hb.lt_length_of_term hr ((hb.sim s).wellFormed m) hlog hft
    exact absurd (hfi ▸ this) (lt_irrefl _)
  have hold : ∀ {t : ℕ} {e : LogEntry Snapshot}, ((g s).ledger t)[i]? = some e → e.term ≠ T :=
    fun he het => absurd (hb.lt_length_of_term hr ((hb.sim s).inv.wf_ledger _) he het) (lt_irrefl _)
  refine ⟨fun t e k f l he het hk hf hc => ?_, fun m ha => absurd ha (hfresh m),
    fun m b d u j r hl ha => absurd ha (hfresh m)⟩
  change ((g' s).ledger t)[i]? = some e at he
  change ((g' s).ledger t)[k]? = some f at hf
  change e.term = T at het
  rcases hg s with hsame | ⟨m, f', hlog, hled, hcmd⟩
  · rw [hsame] at he
    exact absurd het (hold he)
  by_cases ht : t = f'.term
  swap
  · rw [hled, Function.update_of_ne ht] at he
    exact absurd het (hold he)
  -- the entry is the one that has just been proposed, by this very leader
  rw [hled, ht, Function.update_self] at he hf
  have hlen : (v.node s m).log.length = i := by
    by_contra hne
    have hlt := Ledger.lt_length_of_getElem? he
    rw [List.length_append, List.length_singleton] at hlt
    rw [List.getElem?_append_left (by omega)] at he
    exact absurd (hb.lt_length_of_term hr ((hb.sim s).wellFormed m) he het) (lt_irrefl _)
  have hmn : m = n := by
    by_contra hne
    rw [Shards.node_place, if_neg fun heq => hne heq.2] at hlog
    exact absurd hlog (by simp)
  subst hmn
  have hklt := Ledger.lt_length_of_getElem? hf
  rw [List.length_append, List.length_singleton] at hklt
  change i ≤ k at hk
  obtain rfl : k = i := by omega
  rw [hi, List.getElem?_concat_length] at hf
  cases hf
  rcases hcmd with hnone | ⟨hsnap, -⟩
  · rw [hnone] at hc
    cases hc
  · rw [hsnap, Shards.agents_place, if_pos ⟨rfl, rfl⟩] at hc
    cases hc
    exact Registry.has_set.mpr (.inl rfl)

/-! ### Runs -/

/-- Nodes that take no part in the clusters apply nothing. -/
theorem Shards.Change.applied_nil (hc : Shards.Change S v e v') (hn : n ∉ S.M.ids)
    (h : (v.raft s).applied n = []) : (v'.raft s).applied n = [] := by
  cases hc with
  | idle | take | drop | restore => exact h
  | @raft s₁ ev c he hc hpr hna =>
    show (update v.raft s₁ c s).applied n = []
    by_cases hs : s = s₁
    · subst hs
      rw [Function.update_self, (Raft.step_internal hc hpr hna n).2]
      exact h
    · rwa [Function.update_of_ne hs]
  | @applier s₁ m c he hc =>
    obtain ⟨hm, ⟨⟩⟩ := Option.ite_none_right_eq_some.mp hc
    show (update v.raft s₁ ((v.raft s₁).deliver m) s).applied n = []
    by_cases hs : s = s₁
    · subst hs
      rw [Function.update_self]
      exact (Function.update_of_ne (fun heq : n = m => hn (heq ▸ hm.1)) _ _).trans h
    · rwa [Function.update_of_ne hs]
  | move | pop | place =>
    refine Eq.trans (congrFun ?_ n) h
    exact Shards.applied_proposeTick

/-- Only a leader that waits in `add_agent` places anything. -/
theorem Shards.Change.placed_eq (hc : Shards.Change S v e v') :
    v'.placed = v.placed ∨ ∃ s n a c, (v.node s n).role = .leader ∧ v' = v.place s n a c := by
  cases hc with
  | place hlock hstate hi => exact .inr ⟨_, _, _, _, (World.state_leader.mp hstate).2, rfl⟩
  | _ => exact .inl rfl

/-- **Every placement is intact, or a later one of the same agent has landed.** -/
structure Tracked (S : Setup) (g : String → Ghost Snapshot) (v : Shards) : Prop
    extends Past S g v where
  waits : Waits v
  members : ∀ s n, n ∉ S.M.ids → (v.raft s).applied n = []
  safe : ∀ j p, v.placed[j]? = some p → Intact g v p ∨ ∃ (j' : ℕ) (p' : Placement), j < j' ∧
    v.placed[j']? = some p' ∧ p'.agent.id = p.agent.id ∧ Landed v p'

theorem tracked_init (S : Setup) : Tracked S (fun _ => Ghost.init) (World.init S).toShards :=
  { past_init S with
    waits := fun _ _ _ _ _ _ _ hl => absurd hl (by simp [World.init, Shards.lock])
    members := fun _ _ _ => rfl
    safe := fun _ _ hj => absurd hj (by simp [World.init]) }

/-- What a tick pops has landed elsewhere after it was placed here, unless it has come back. -/
theorem Chain.landed_of_pop (h : Chain S w) {ids : List String} {t i j : ℕ}
    (hj : w.placed[j]? = some p) (hlock : w.lock p.shard n = some (.remove ids t i))
    (hown : w.PopsOwn p.shard n (.remove ids t i)) (hstate : (w.node p.shard n).state = (t, true))
    (hi : i ≤ (w.node p.shard n).lastApplied) (hid : p.agent.id ∈ ids) :
    ∃ (j' : ℕ) (p' : Placement), j < j' ∧ w.placed[j']? = some p' ∧ p'.agent.id = p.agent.id ∧
      Landed w.toShards p' := by
  obtain ⟨shards, done, ht, rfl⟩ := h.removing p.shard n ids t i hlock
  obtain ⟨d, hd, hdid⟩ := List.mem_map.mp hid
  obtain ⟨hdone, hshard⟩ := List.mem_filter.mp hd
  have hacc : d ∈ (w.tick n).accepted := by
    rw [ht]
    exact hdone
  obtain ⟨j', p', hj', hmark, -, hagent, hland⟩ := h.accepted n d hacc
  refine ⟨j', p', ?_, hj', by rw [hagent, hdid], hland⟩
  -- the placement here is older than the departure
  have hlt : j < d.mark := by
    by_contra hge
    refine hown hstate hi d hacc (of_decide_eq_true hshard) (hdid ▸ hid) p ?_ rfl hdid.symm
    refine List.mem_of_getElem? (i := j - d.mark) ?_
    rw [List.getElem?_drop, Nat.add_sub_cancel' (not_lt.mp hge), hj]
  exact hlt.trans_le hmark

/-- Every poll that takes nothing away keeps the placements tracked. -/
theorem Tracked.step (h : Tracked S g w.toShards) (hc : Chain S w) (hok : w.Spares e)
    (hs : World.step S w e = some w') :
    ∃ g' : String → Ghost Snapshot, Tracked S g' w'.toShards := by
  have hch := World.step_change hs
  obtain ⟨g', hx, hg, hp'⟩ := h.toPast.change hch
  refine ⟨g', { hp' with
    waits := h.waits.change h.toBase hch
    members := fun s n hn => hch.applied_nil hn (h.members s n hn)
    safe := fun j p hj => ?_ }⟩
  by_cases hold : w.placed[j]? = some p
  swap
  · -- the placement is new
    rcases hch.placed_eq with hsame | ⟨s, n, a, c, hr, hv⟩
    · rw [hsame] at hj
      exact absurd hj hold
    rw [hv] at hj hg ⊢
    obtain rfl : ⟨s, a, (w.node s n).currentTerm, (w.node s n).log.length⟩ = p := by
      change (w.placed ++ [_])[j]? = some p at hj
      have hlt := Ledger.lt_length_of_getElem? hj
      rw [List.length_append, List.length_singleton] at hlt
      rcases Nat.lt_or_ge j w.placed.length with hlt' | hge
      · rw [List.getElem?_append_left hlt'] at hj
        exact absurd hj hold
      · obtain rfl : j = w.placed.length := by omega
        rw [List.getElem?_concat_length] at hj
        exact Option.some_inj.mp hj
    exact .inl (intact_place h.toBase hr hg)
  rcases h.safe j p hold with hint | ⟨j', p', hlt, hj', hid, hland⟩
  swap
  · exact .inr ⟨j', p', hlt, Ledger.getElem?_of_isPrefix hch.later.placed hj', hid,
      hland.later hch.later⟩
  by_cases hpop : ∃ n ids t i, e = .poll p.shard n ∧ w.lock p.shard n = some (.remove ids t i) ∧
      (w.node p.shard n).state = (t, true) ∧ i ≤ (w.node p.shard n).lastApplied ∧ p.agent.id ∈ ids
  · obtain ⟨n, ids, t, i, rfl, hlock, hstate, hi, hid⟩ := hpop
    obtain ⟨j', p', hlt, hj', hid', hland⟩ :=
      hc.landed_of_pop hold hlock (hok _ hlock).1 hstate hi hid
    exact .inr ⟨j', p', hlt, Ledger.getElem?_of_isPrefix hch.later.placed hj', hid',
      hland.later hch.later⟩
  · left
    refine hint.change h.toPast hp' hx hg h.waits (List.mem_of_getElem? hold) ⟨?_, ?_⟩ hch
    · intro n ids t i he hlock hstate hi hid
      exact hpop ⟨n, ids, t, i, he, hlock, hstate, hi, hid⟩
    · rintro n a c t i r rfl hlock hstate
      exact (hok _ hlock).2 hstate rfl

/-- The last placement of an agent that has landed is intact. -/
theorem Tracked.exists_intact (h : Tracked S g v) {j : ℕ} (hj : v.placed[j]? = some p)
    (hland : Landed v p) :
    ∃ p' ∈ v.placed, p'.agent.id = p.agent.id ∧ Landed v p' ∧ Intact g v p' := by
  -- by induction on the placements after this one
  induction hm : v.placed.length - j using Nat.strong_induction_on generalizing j p with
  | _ m ih =>
    rcases h.safe j p hj with hint | ⟨j', p', hlt, hj', hid, hland'⟩
    · exact ⟨p, List.mem_of_getElem? hj, rfl, hland, hint⟩
    · have hlen := Ledger.lt_length_of_getElem? hj'
      obtain ⟨q, hq, hqid, hrest⟩ := ih (v.placed.length - j') (by omega) hj' hland' rfl
      exact ⟨q, hq, hqid.trans hid, hrest⟩

/-- An agent that has landed and is intact is in the last committed snapshot. -/
theorem Tracked.committed_of_intact (h : Tracked S g v) (hp : p ∈ v.placed) (hland : Landed v p)
    (hint : Intact g v p) : ∃ l, lastSnapshot (v.committed S.M p.shard) = some l ∧
      p.agent.id ∈ l.map AgentState.id := by
  obtain ⟨n, hn⟩ := hland
  have hmem : n ∈ S.M.ids := by
    by_contra hnot
    obtain ⟨f, hf, -⟩ := hn
    rw [h.members p.shard n hnot] at hf
    exact absurd hf (by simp)
  obtain ⟨f, l, hf, hft, hle, hfc, -⟩ := hn.entry h.toPast hp
  have hcommit := hle.trans (h.node_ok p.shard n).lastApplied
  have hin : (v.committed S.M p.shard)[p.index]? = some f := by
    refine Ledger.getElem?_of_isPrefix (h.isPrefix_committed hmem) ?_
    rw [List.getElem?_take_of_lt (Nat.lt_succ_of_le hcommit), hf]
  obtain ⟨k, f', x, hpk, hk, hx, hlast⟩ := exists_lastSnapshot hin (by simp [hfc])
  refine ⟨x, hlast, ?_⟩
  rcases (v.raft p.shard).exists_committed S.M with hnil | ⟨m, hm⟩
  · rw [Shards.committed, hnil] at hin
    exact absurd hin (by simp)
  · have hpre : v.committed S.M p.shard <+: (v.node p.shard m).log := by
      rw [Shards.committed, hm]
      exact List.take_prefix _ _
    exact hint.log h.toBase (Ledger.getElem?_of_isPrefix hpre hin) hft hpk
      (Ledger.getElem?_of_isPrefix hpre hk) hx

/-- **No agent is lost**, in every run in which polls take away only what is their own: once
`add_agent` has returned `True` for a spawned agent, its id is in the last committed
non-empty snapshot of some shard. -/
theorem no_agent_lost (h : ReachableWhere S World.Spares w) :
    ∀ id ∈ w.spawned, ∃ s ∈ allShardIds S.grid, ∃ l,
      lastSnapshot (w.committed S.M s) = some l ∧ id ∈ l.map AgentState.id := by
  obtain ⟨g, ht, hc⟩ : ∃ g : String → Ghost Snapshot, Tracked S g w.toShards ∧ Chain S w := by
    refine Run.invariant (P := fun w => ∃ g : String → Ghost Snapshot,
      Tracked S g w.toShards ∧ Chain S w) ?_ h ⟨_, tracked_init S, chain_init S⟩
    rintro w w' ⟨e, hok, he⟩ ⟨g, ht, hc⟩
    obtain ⟨g', ht'⟩ := ht.step hc hok he
    exact ⟨g', ht', hc.step ht.toPast he⟩
  intro id hid
  obtain ⟨p, hp, rfl, hland⟩ := hc.spawned id hid
  obtain ⟨j, hj⟩ := List.getElem?_of_mem hp
  obtain ⟨p', hp', hid', hland', hint⟩ := ht.exists_intact hj hland
  obtain ⟨l, hl, hmem⟩ := ht.committed_of_intact hp' hland' hint
  exact ⟨p'.shard, hc.placed p' hp', l, hl, hid' ▸ hmem⟩

/-- Node `n1` removes the agent it has handed over, and nobody has brought it back. -/
theorem no_agent_lost_duo :
    ∃ w, ReachableWhere duo World.Spares w ∧ (w.agents "0-0" "n1").agents = [] ∧
      w.spawned = ["a"] ∧ ∃ s ∈ allShardIds duo.grid, ∃ l,
        lastSnapshot (w.committed duo.M s) = some l ∧ "a" ∈ l.map AgentState.id :=
  ⟨(Run.execWhere (World.step duo) World.Spares (World.init duo)
      (duoHandOff ++ [.poll "0-0" "n1"] ++ duoCommit "0-0" "n1" "n2")).get (by decide +kernel),
    Run.stepsWhere_get _, by decide +kernel, by decide +kernel,
    no_agent_lost (Run.stepsWhere_get _) "a" (by decide +kernel)⟩

/-! ### An agent that comes back -/

/-- The agent goes from `0-0` to `0-1`, bounces off the edge and is handed back, and then both
nodes remove what they have handed over. -/
def duoBounce : List Event :=
  duoSpawn ++ [.poll "0-0" "n1", .tickStart "n1", .tickVisit "n1", .tickEnter "n1", .tickVisit "n1",
    .tickVisit "n1", .tickSend "n1", .handle 0, .acquire 0, .poll "0-1" "n2"] ++
    duoCommit "0-1" "n2" "n1" ++ [.poll "0-1" "n2"] ++ duoCommit "0-0" "n1" "n2" ++
    [.tickStart "n2", .tickVisit "n2", .tickVisit "n2", .tickEnter "n2", .tickVisit "n2",
      .tickSend "n2", .handle 0, .acquire 0, .poll "0-0" "n1"] ++
    duoCommit "0-0" "n1" "n2" ++ [.poll "0-0" "n1"] ++ duoCommit "0-1" "n2" "n1" ++
    [.tickReply 1, .tickSend "n2", .tickRemove "n2", .poll "0-1" "n2"] ++
    duoCommit "0-1" "n2" "n1" ++ [.tickRemove "n2", .tickReply 0, .tickSend "n1", .tickRemove "n1",
      .poll "0-0" "n1"] ++ duoCommit "0-0" "n1" "n2" ++ [.tickRemove "n1"]

/-- The agent has been spawned, and no committed snapshot has it any more. -/
theorem no_agent_lost_fails :
    ∃ w, Reachable duo w ∧ "a" ∈ w.spawned ∧ ∀ s ∈ allShardIds duo.grid,
      ∀ l ∈ lastSnapshot (w.committed duo.M s), "a" ∉ l.map AgentState.id :=
  ⟨duoAfter duoBounce (by decide +kernel), Run.steps_get _, by decide +kernel, by decide +kernel⟩

end Region
