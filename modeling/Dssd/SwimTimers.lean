/-
Suspicion timers (`Node._mark`, `Node._suspicion_timer`, `Node.start`, `Node.stop`).

* `Session` — a node that is started and stopped, and `Session.step`: merged updates,
  failed probes, firing timers and resurrections while it runs;
* `Node.Timed` — every `SUSPECT` record has a pending timer whose firing makes that
  record `DEAD`; by `Node.timed_iff`, a timer armed with its incarnation;
* `Rearms` — the steps that leave no suspicion without a timer;
* `every_suspicion_has_timer` — all states are timed just when all steps are such;
  `suspicion_without_timer` — a suspicion raised again, outliving its timer.
-/
import Dssd.Runs
import Dssd.SwimNode

namespace Swim

namespace Node

/-- `_mark(id, new_state, from_state, incarnation)` -/
def mark (r : Node) (id : String) (new_state from_state : State) (incarnation : Option ℤ) : Node :=
  match r.members.get? id with
  | none => r
  | some current =>
    if current.state ≠ from_state then r
    -- a timer is for the incarnation it was armed with
    else if incarnation ≠ none ∧ incarnation ≠ some current.incarnation then r
    else r.set ⟨current.id, current.addr, new_state, current.incarnation⟩

/-- The pending `_suspicion_timer` task in place `k` wakes up. -/
def suspicionTimer (r : Node) (k : ℕ) : Node :=
  match r.timers[k]? with
  | none => r
  | some member =>
    { r with timers := r.timers.eraseIdx k }.mark member.id .dead .suspect (some member.incarnation)

/-- The end of `_resurrect_once`, after the ack of a member found dead. -/
def resurrect (r : Node) (id : String) : Node :=
  match r.members.get? id with
  | none => r
  | some current =>
    if current.state = .dead then
      r.set ⟨current.id, current.addr, .alive, current.incarnation + 1⟩
    else r

end Node

/-- A node object, between or during the times it is started. -/
structure Session where
  node : Node
  running : Bool

inductive Event
  /-- `start()` binds this address. -/
  | start (addr : String)
  /-- `stop()` cancels all tasks. -/
  | stop
  | merge (update : Member)
  /-- `_probe_once` gets no ack from this member, directly or indirectly. -/
  | probeFailed (id : String)
  | suspicionTimer (k : ℕ)
  /-- `_resurrect_once` gets the ack of this member. -/
  | resurrected (id : String)

namespace Session

/-- `Node(config)` -/
def init (id : String) : Session := ⟨⟨id, "", .empty, 0, .empty, []⟩, false⟩

def step (s : Session) : Event → Option Session
  | .start addr => if s.running then none else some ⟨{ s.node with addr }, true⟩
  | .stop => if s.running then some ⟨{ s.node with timers := [] }, false⟩ else none
  | .merge update => if s.running then some ⟨s.node.merge update, true⟩ else none
  | .probeFailed id => if s.running then some ⟨s.node.mark id .suspect .alive none, true⟩ else none
  | .suspicionTimer k =>
    if s.running ∧ k < s.node.timers.length then some ⟨s.node.suspicionTimer k, true⟩ else none
  | .resurrected id => if s.running then some ⟨s.node.resurrect id, true⟩ else none

end Session

namespace Node

/-- Every `SUSPECT` record has a pending timer whose firing makes exactly it `DEAD`. -/
def Timed (r : Node) : Prop :=
  ∀ id m, r.members.get? id = some m → m.state = .suspect → ∃ k < r.timers.length,
    (r.suspicionTimer k).members = r.members.set id { m with state := .dead }

/-- Members are recorded under their own ids. -/
def Keyed (r : Node) : Prop := ∀ id m, r.members.get? id = some m → m.id = id

/-- A pending timer has the id and the incarnation of `m`. -/
def Armed (r : Node) (m : Member) : Prop :=
  ∃ t ∈ r.timers, t.id = m.id ∧ t.incarnation = m.incarnation

instance (r : Node) (m : Member) : Decidable (r.Armed m) := by
  unfold Armed
  infer_instance

variable {r : Node} {id : String} {m x : Member}

/-! ### What a timer does -/

theorem mark_cases (r : Node) (id : String) (new_state from_state : State)
    (incarnation : Option ℤ) : r.mark id new_state from_state incarnation = r ∨
    ∃ m, r.members.get? id = some m ∧ m.state = from_state ∧
      r.mark id new_state from_state incarnation =
        r.set ⟨m.id, m.addr, new_state, m.incarnation⟩ := by
  unfold mark
  cases hm : r.members.get? id with
  | none => exact .inl rfl
  | some m =>
    dsimp only
    split
    · exact .inl rfl
    · rename_i hs
      split
      · exact .inl rfl
      · exact .inr ⟨m, rfl, not_not.mp hs, rfl⟩

theorem suspicionTimer_of_eq {k : ℕ} {t : Member} (hk : r.timers[k]? = some t)
    (hm : r.members.get? t.id = some m) (hs : m.state = .suspect)
    (hi : t.incarnation = m.incarnation) : r.suspicionTimer k =
      { r with timers := r.timers.eraseIdx k }.set { m with state := .dead } := by
  rw [suspicionTimer, hk]
  show mark _ _ _ _ _ = _
  rw [mark]
  show (match r.members.get? t.id with | none => _ | some current => _) = _
  rw [hm]
  show (if m.state ≠ .suspect then _ else _) = _
  rw [if_neg (not_not.mpr hs), if_neg (fun h => h.2 (congrArg some hi))]

/-- A timer that meets no suspicion of its own does nothing. -/
theorem suspicionTimer_of_ne {k : ℕ} {t : Member} (hk : r.timers[k]? = some t)
    (hm : ∀ m, r.members.get? t.id = some m → m.state = .suspect → t.incarnation ≠ m.incarnation) :
    r.suspicionTimer k = { r with timers := r.timers.eraseIdx k } := by
  rw [suspicionTimer, hk]
  show mark _ _ _ _ _ = _
  rw [mark]
  show (match r.members.get? t.id with | none => _ | some current => _) = _
  cases hc : r.members.get? t.id with
  | none => rfl
  | some current =>
    show (if current.state ≠ .suspect then _ else _) = _
    by_cases hs : current.state = .suspect
    -- a suspicion of another incarnation
    · have hne := hm current hc hs
      rw [if_neg (not_not.mpr hs), if_pos ⟨Option.some_ne_none _, fun h => hne (Option.some.inj h)⟩]
    · rw [if_pos hs]

/-- The timers that can end a suspicion are those armed with its incarnation. -/
theorem armed_iff (hkey : r.Keyed) (hm : r.members.get? id = some m) (hs : m.state = .suspect) :
    r.Armed m ↔ ∃ k < r.timers.length,
      (r.suspicionTimer k).members = r.members.set id { m with state := .dead } := by
  have hid : m.id = id := hkey id m hm
  constructor
  · rintro ⟨t, ht, htid, hti⟩
    obtain ⟨k, hk, rfl⟩ := List.mem_iff_getElem.mp ht
    refine ⟨k, hk, ?_⟩
    rw [suspicionTimer_of_eq (List.getElem?_eq_getElem hk) (by rw [htid, hid]; exact hm) hs hti]
    show r.members.set m.id _ = _
    rw [hid]
  · rintro ⟨k, hk, h⟩
    have ht : r.timers[k]? = some r.timers[k] := List.getElem?_eq_getElem hk
    by_cases hown : ∀ m, r.members.get? r.timers[k].id = some m → m.state = .suspect →
        r.timers[k].incarnation ≠ m.incarnation
    · -- the firing would have left the record as it is
      rw [suspicionTimer_of_ne ht hown] at h
      have hget : r.members.get? id = some { m with state := .dead } := by
        rw [show r.members = _ from h]
        exact Dict.get?_set_self _ _ _
      rw [hm] at hget
      rw [Option.some.inj hget] at hs
      cases hs
    · push Not at hown
      obtain ⟨m', hm', hs', hi'⟩ := hown
      by_cases hsame : r.timers[k].id = id
      · rw [hsame, hm] at hm'
        obtain rfl := Option.some.inj hm'
        exact ⟨r.timers[k], List.getElem_mem hk, hsame.trans hid.symm, hi'⟩
      · -- the firing is about another member
        rw [suspicionTimer_of_eq ht hm' hs' hi'] at h
        have hget : ((r.members.set m'.id { m' with state := .dead }).get? id) =
            some { m with state := .dead } := by
          rw [show r.members.set m'.id { m' with state := .dead } = _ from h]
          exact Dict.get?_set_self _ _ _
        rw [Dict.get?_set_ne _ _ (by rw [hkey _ _ hm']; exact Ne.symm hsame), hm] at hget
        rw [Option.some.inj hget] at hs
        cases hs

theorem timed_iff (hkey : r.Keyed) : r.Timed ↔
    ∀ id m, r.members.get? id = some m → m.state = .suspect → r.Armed m :=
  ⟨fun h id m hm hs => (armed_iff hkey hm hs).mpr (h id m hm hs),
    fun h id m hm hs => (armed_iff hkey hm hs).mp (h id m hm hs)⟩

/-! ### Records and timers after an assignment -/

theorem Keyed.set (hkey : r.Keyed) (m : Member) : (r.set m).Keyed := by
  intro id x hx
  replace hx : (r.members.set m.id m).get? id = some x := hx
  rw [Dict.get?_set] at hx
  split at hx
  · rename_i hid
    obtain rfl := Option.some.inj hx
    exact hid.symm
  · exact hkey id x hx

/-- A new timer is for a member that was not suspected. -/
theorem armed_set : (r.set m).Armed x ↔ r.Armed x ∨
    (m.state = .suspect ∧ (r.members.get? m.id).map Member.state ≠ some .suspect ∧
      m.id = x.id ∧ m.incarnation = x.incarnation) := by
  rw [Armed, set]
  dsimp only
  split
  · rename_i h
    simp only [List.mem_append, List.mem_singleton, Armed]
    constructor
    · rintro ⟨t, ht | rfl, hx⟩
      · exact .inl ⟨t, ht, hx⟩
      · exact .inr ⟨h.1, h.2, hx⟩
    · rintro (⟨t, ht, hx⟩ | ⟨-, -, hx⟩)
      · exact ⟨t, .inl ht, hx⟩
      · exact ⟨m, .inr rfl, hx⟩
  · rename_i h
    exact ⟨.inl, fun hx => hx.resolve_right fun ⟨hs, ho, _⟩ => h ⟨hs, ho⟩⟩

/-- What an assignment must find for all suspicions to be timed after it. -/
theorem timed_set (hkey : r.Keyed) : (r.set m).Timed ↔
    (∀ id x, id ≠ m.id → r.members.get? id = some x → x.state = .suspect → r.Armed x) ∧
      (m.state = .suspect → (r.members.get? m.id).map Member.state = some .suspect →
        r.Armed m) := by
  rw [timed_iff (hkey.set m)]
  -- the assignment arms a timer for `m`, unless `m` was suspected before
  constructor
  · refine fun h => ⟨fun id x hne hx hs => ?_, fun hs ho => ?_⟩
    · have hx' : (r.set m).members.get? id = some x := (Dict.get?_set_ne _ _ hne).trans hx
      refine (armed_set.mp (h id x hx' hs)).resolve_right fun hnew => hne ?_
      exact (hkey id x hx).symm.trans hnew.2.2.1.symm
    · exact (armed_set.mp (h m.id m (r.get?_members_set m) hs)).resolve_right
        fun hnew => hnew.2.1 ho
  · rintro ⟨hrest, hm⟩ id x hx hs
    replace hx : (r.members.set m.id m).get? id = some x := hx
    rw [Dict.get?_set] at hx
    split at hx
    · obtain rfl := Option.some.inj hx
      by_cases ho : (r.members.get? m.id).map Member.state = some .suspect
      · exact armed_set.mpr (.inl (hm hs ho))
      · exact armed_set.mpr (.inr ⟨hs, ho, rfl, rfl⟩)
    · rename_i hne
      exact armed_set.mpr (.inl (hrest id x hne hx hs))

/-- A change of record that is not from `SUSPECT` to `SUSPECT` loses no timer. -/
theorem Timed.set (ht : r.Timed) (hkey : r.Keyed)
    (hm : m.state = .suspect → (r.members.get? m.id).map Member.state ≠ some .suspect) :
    (r.set m).Timed :=
  (timed_set hkey).mpr
    ⟨fun id x _ hx hs => (timed_iff hkey).mp ht id x hx hs, fun hs ho => absurd ho (hm hs)⟩

/-- Only records and timers matter. -/
theorem timed_congr {r' : Node} (hm : r'.members = r.members) (ht : r'.timers = r.timers)
    (hkey : r.Keyed) : r'.Timed ↔ r.Timed := by
  have hkey' : r'.Keyed := by
    intro id m h
    exact hkey id m (hm ▸ h)
  rw [timed_iff hkey', timed_iff hkey, hm]
  unfold Armed
  rw [ht]

theorem merge_cases (r : Node) (update : Member) :
    ((r.merge update).members = r.members ∧ (r.merge update).timers = r.timers) ∨
    (update.id ≠ r.id ∧ r.merge update = r.set update ∧
      ∀ current, r.members.get? update.id = some current → supersedes update current) := by
  unfold merge
  split
  · refine .inl ?_
    split
    · exact ⟨rfl, rfl⟩
    · exact ⟨rfl, rfl⟩
  · rename_i hid
    cases hc : r.members.get? update.id with
    | none =>
      dsimp only
      split
      · exact .inr ⟨hid, rfl, fun _ h => absurd h (by simp)⟩
      · exact .inl ⟨rfl, rfl⟩
    | some current =>
      dsimp only
      split
      · rename_i hsup
        exact .inr ⟨hid, rfl, fun _ h => Option.some.inj h ▸ hsup⟩
      · exact .inl ⟨rfl, rfl⟩

/-- What an update must find for all suspicions to be timed after it: a newer suspicion of a
suspected member needs a timer that is already there. -/
theorem timed_merge (ht : r.Timed) (hkey : r.Keyed) (update : Member) : (r.merge update).Timed ↔
    (update.id ≠ r.id → update.state = .suspect →
      ∀ current, r.members.get? update.id = some current → current.state = .suspect →
        supersedes update current → r.Armed update) := by
  have hall := (timed_iff hkey).mp ht
  constructor
  · intro h hid hs current hc hcs hsup
    have hmerge : r.merge update = r.set update := by
      rw [merge, if_neg hid, hc]
      exact if_pos hsup
    rw [hmerge, timed_set hkey, hc] at h
    exact h.2 hs (congrArg some hcs)
  · intro h
    -- the update changes no record, or is assigned
    rcases r.merge_cases update with ⟨hm, htm⟩ | ⟨hid, heq, hsup⟩
    · exact (timed_congr hm htm hkey).mpr ht
    · rw [heq, timed_set hkey]
      refine ⟨fun id x _ hx hs => hall id x hx hs, fun hs ho => ?_⟩
      obtain ⟨current, hc, hcs⟩ := Option.map_eq_some_iff.mp ho
      exact h hid hs current hc hcs (hsup current hc)

theorem Keyed.mark (hkey : r.Keyed) (id : String) (new_state from_state : State)
    (incarnation : Option ℤ) : (r.mark id new_state from_state incarnation).Keyed := by
  rcases r.mark_cases id new_state from_state incarnation with h | ⟨m, -, -, h⟩
  · rw [h]
    exact hkey
  · rw [h]
    exact hkey.set _

theorem Keyed.merge (hkey : r.Keyed) (update : Member) : (r.merge update).Keyed := by
  rcases r.merge_cases update with ⟨h, -⟩ | ⟨-, h, -⟩
  · intro id m hm
    exact hkey id m (h ▸ hm)
  · exact h ▸ hkey.set _

theorem Keyed.suspicionTimer (hkey : r.Keyed) (k : ℕ) : (r.suspicionTimer k).Keyed := by
  unfold Node.suspicionTimer
  cases r.timers[k]? with
  | none => exact hkey
  | some t => exact Keyed.mark (r := { r with timers := r.timers.eraseIdx k }) hkey _ _ _ _

theorem Keyed.resurrect (hkey : r.Keyed) (id : String) : (r.resurrect id).Keyed := by
  unfold Node.resurrect
  cases r.members.get? id with
  | none => exact hkey
  | some m =>
    dsimp only
    split
    · exact hkey.set _
    · exact hkey

/-! ### The steps that keep all suspicions timed -/

theorem Timed.probeFailed (ht : r.Timed) (hkey : r.Keyed) (id : String) :
    (r.mark id .suspect .alive none).Timed := by
  rcases r.mark_cases id .suspect .alive none with h | ⟨m, hm, hs, h⟩
  · rw [h]
    exact ht
  · rw [h]
    refine ht.set hkey fun _ => ?_
    show (r.members.get? m.id).map Member.state ≠ _
    rw [hkey id m hm, hm]
    simp [hs]

theorem Timed.resurrect (ht : r.Timed) (hkey : r.Keyed) (id : String) : (r.resurrect id).Timed := by
  unfold Node.resurrect
  cases r.members.get? id with
  | none => exact ht
  | some m =>
    dsimp only
    split
    · exact ht.set hkey (fun h => nomatch h)
    · exact ht

/-- A firing takes away the timer of the record that it ends, or one that no record needs. -/
theorem Timed.suspicionTimer (ht : r.Timed) (hkey : r.Keyed) (k : ℕ) :
    (r.suspicionTimer k).Timed := by
  cases hk : r.timers[k]? with
  | none =>
    rw [Node.suspicionTimer, hk]
    exact ht
  | some t =>
    have hall := (timed_iff hkey).mp ht
    -- the timers of all other suspicions stay
    have hstay : ∀ x : Member, r.Armed x → (t.id ≠ x.id ∨ t.incarnation ≠ x.incarnation) →
        ({ r with timers := r.timers.eraseIdx k } : Node).Armed x := by
      rintro x ⟨t', ht', hid, hi⟩ hne
      obtain ⟨j, hj⟩ := List.mem_iff_getElem?.mp ht'
      refine ⟨t', List.mem_eraseIdx_iff_getElem?.mpr ⟨j, fun hjk => ?_, hj⟩, hid, hi⟩
      rw [hjk, hk] at hj
      obtain rfl := Option.some.inj hj
      exact hne.elim (fun h => h hid) fun h => h hi
    -- the firing ends nothing, or the suspicion it was armed for
    by_cases hown : ∀ m, r.members.get? t.id = some m → m.state = .suspect →
        t.incarnation ≠ m.incarnation
    · rw [suspicionTimer_of_ne hk hown,
        timed_iff (r := { r with timers := r.timers.eraseIdx k }) hkey]
      intro id x hx hs
      refine hstay x (hall id x hx hs) ?_
      by_cases hid : t.id = x.id
      · exact .inr (hown x (by rw [hid, hkey id x hx]; exact hx) hs)
      · exact .inl hid
    · push Not at hown
      obtain ⟨m, hm, hs, hi⟩ := hown
      rw [suspicionTimer_of_eq hk hm hs hi,
        timed_set (r := { r with timers := r.timers.eraseIdx k }) hkey]
      refine ⟨fun id x hne hx hs => ?_, fun h => nomatch h⟩
      refine hstay x (hall id x hx hs) (.inl fun hid => hne ?_)
      show id = m.id
      rw [hkey _ _ hm, hid, hkey id x hx]

end Node

namespace Session

/-- While the node runs, every suspicion has its timer. -/
def Timed (s : Session) : Prop := s.running = true → s.node.Timed

/-- The steps that leave no suspicion without a timer: a start finds no member suspected, and a
newer suspicion of a suspected member finds a pending timer of that incarnation. -/
def Rearms (s : Session) : Event → Prop
  | .start _ => ∀ id m, s.node.members.get? id = some m → m.state ≠ .suspect
  | .merge update => update.id ≠ s.node.id → update.state = .suspect →
      ∀ current, s.node.members.get? update.id = some current → current.state = .suspect →
        supersedes update current → s.node.Armed update
  | _ => True

/-- A stopped node has no tasks. -/
structure Sound (s : Session) : Prop where
  keyed : s.node.Keyed
  stopped : s.running = false → s.node.timers = []

theorem sound_init (id : String) : (init id).Sound :=
  ⟨fun _ _ h => absurd h (Option.some_ne_none _).symm, fun _ => rfl⟩

theorem Sound.step {s s' : Session} {e : Event} (hs : s.Sound) (h : s.step e = some s') :
    s'.Sound := by
  have hrun : ∀ {r : Node}, r.Keyed → (⟨r, true⟩ : Session).Sound :=
    fun hr => ⟨hr, fun h => nomatch h⟩
  cases e with
  | start addr =>
    obtain ⟨-, h⟩ := Option.ite_none_left_eq_some.mp h
    exact Option.some.inj h ▸ hrun hs.keyed
  | stop =>
    obtain ⟨-, h⟩ := Option.ite_none_right_eq_some.mp h
    rw [← Option.some.inj h]
    exact ⟨hs.keyed, fun _ => rfl⟩
  | merge update =>
    obtain ⟨-, h⟩ := Option.ite_none_right_eq_some.mp h
    exact Option.some.inj h ▸ hrun (hs.keyed.merge update)
  | probeFailed id =>
    obtain ⟨-, h⟩ := Option.ite_none_right_eq_some.mp h
    exact Option.some.inj h ▸ hrun (hs.keyed.mark _ _ _ _)
  | suspicionTimer k =>
    obtain ⟨-, h⟩ := Option.ite_none_right_eq_some.mp h
    exact Option.some.inj h ▸ hrun (hs.keyed.suspicionTimer k)
  | resurrected id =>
    obtain ⟨-, h⟩ := Option.ite_none_right_eq_some.mp h
    exact Option.some.inj h ▸ hrun (hs.keyed.resurrect id)

/-- A step keeps all suspicions timed just when it is one of these. -/
theorem timed_step {s s' : Session} {e : Event} (h : s.step e = some s') (hs : s.Sound)
    (ht : s.Timed) : s'.Timed ↔ s.Rearms e := by
  cases e with
  | start addr =>
    obtain ⟨hrun, h⟩ := Option.ite_none_left_eq_some.mp h
    obtain rfl := Option.some.inj h
    -- a start finds no timer left
    have htimers : s.node.timers = [] := hs.stopped (Bool.eq_false_iff.mpr hrun)
    have hkey : ({ s.node with addr } : Node).Keyed := hs.keyed
    constructor
    · intro h id m hm hsus
      obtain ⟨t, ht, -⟩ := (Node.timed_iff hkey).mp (h rfl) id m hm hsus
      rw [show ({ s.node with addr } : Node).timers = [] from htimers] at ht
      cases ht
    · exact fun h _ => (Node.timed_iff hkey).mpr fun id m hm hsus => absurd hsus (h id m hm)
  | stop =>
    obtain ⟨-, h⟩ := Option.ite_none_right_eq_some.mp h
    exact Option.some.inj h ▸ ⟨fun _ => trivial, fun _ h => nomatch h⟩
  | merge update =>
    obtain ⟨hrun, h⟩ := Option.ite_none_right_eq_some.mp h
    rw [← Option.some.inj h]
    have hmerge := Node.timed_merge (ht hrun) hs.keyed update
    exact ⟨fun h => hmerge.mp (h rfl), fun h _ => hmerge.mpr h⟩
  | probeFailed id =>
    obtain ⟨hrun, h⟩ := Option.ite_none_right_eq_some.mp h
    rw [← Option.some.inj h]
    exact ⟨fun _ => trivial, fun _ _ => (ht hrun).probeFailed hs.keyed id⟩
  | suspicionTimer k =>
    obtain ⟨hrun, h⟩ := Option.ite_none_right_eq_some.mp h
    rw [← Option.some.inj h]
    exact ⟨fun _ => trivial, fun _ _ => (ht hrun.1).suspicionTimer hs.keyed k⟩
  | resurrected id =>
    obtain ⟨hrun, h⟩ := Option.ite_none_right_eq_some.mp h
    rw [← Option.some.inj h]
    exact ⟨fun _ => trivial, fun _ _ => (ht hrun).resurrect hs.keyed id⟩

/-- **Every suspicion has its timer**, in every state of a run, just when every step of the run
is one that rearms. -/
theorem every_suspicion_has_timer (id : String) (es : List Event) :
    Run.Always step Timed (init id) es ↔ Run.Meets step Rearms (init id) es :=
  Run.always_iff_meets (fun _ _ _ h (hs : Sound _) => hs.step h)
    (fun _ _ _ h hs ht => timed_step h hs ht) (sound_init id) Bool.noConfusion es

/-- `a` suspects `b` after a failed probe.  The refutation of `b` is lost, but a newer suspicion
that was raised elsewhere after it arrives: the timer that fires is for the older one, and no
other is pending. -/
theorem suspicion_without_timer : ¬ ∀ es, Run.Always step Timed (init "a") es := by
  intro h
  have hrun := h [.start "a:1", .merge ⟨"b", "b:1", .alive, 0⟩, .probeFailed "b",
    .merge ⟨"b", "b:1", .suspect, 1⟩, .suspicionTimer 0]
  have hlast := (((((hrun.2 _ rfl).2 _ rfl).2 _ rfl).2 _ rfl).2 _ rfl).head
  -- no timer is pending at the end
  obtain ⟨k, hk, -⟩ := hlast rfl "b" ⟨"b", "b:1", .suspect, 1⟩ rfl rfl
  exact absurd hk (Nat.not_lt_zero k)

end Session

end Swim
