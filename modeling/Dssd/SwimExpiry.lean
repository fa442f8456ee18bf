/-
What the suspicion timers of a node end (`Node._suspicion_timer`, `Node._set`).

Old timers are not cancelled; a timer that fires looks whether the record is
`SUSPECT` at the incarnation it was armed with.  That it has been so all the time
is another matter: a `DEAD` of any incarnation takes a suspicion away, and a rumor
of the same suspicion brings it back under the old timer.

* `Watch` — a session, and beside each pending timer all records of its member since
  the timer was armed;
* `Watch.Own` — a firing timer ends a suspicion only if it was there all the time, and
  a raised suspicion starts its own timer;
* `Watch.Fresh` — a suspicion is raised only of a member that is not suspected, and
  when no timer of the same incarnation is pending;
* **`Watch.timer_ends_own`** — a run has only fresh suspicions exactly if it keeps to
  `Own`, whichever timer fires next at any moment of it.
-/
import Mathlib.Data.List.Infix
import Dssd.SwimTimers

namespace Swim

/-- The record is `SUSPECT` at incarnation `i`. -/
def Suspects (rec : Option Member) (i : ℤ) : Prop :=
  rec.map (fun m => (m.state, m.incarnation)) = some (.suspect, i)

instance (rec : Option Member) (i : ℤ) : Decidable (Suspects rec i) :=
  inferInstanceAs (Decidable (_ = _))

@[simp] theorem suspects_some {m : Member} {i : ℤ} :
    Suspects (some m) i ↔ m.state = .suspect ∧ m.incarnation = i := by
  simp [Suspects]

namespace Session

/-- What a step leaves of the pending timers, before it arms one. -/
def kept {α : Type*} (l : List α) : Event → List α
  | .suspicionTimer k => l.eraseIdx k
  | .stop => []
  | _ => l

/-- The record that a step writes. -/
def recorded (s : Session) : Event → Option Member
  | .merge update =>
    if update.id = s.node.id then none
    else match s.node.members.get? update.id with
      | none => if update.state ≠ .dead then some update else none
      | some current => if supersedes update current then some update else none
  | .probeFailed id =>
    (s.node.members.get? id).bind fun m =>
      if m.state = .alive then some { m with state := .suspect } else none
  | .suspicionTimer k =>
    s.node.timers[k]?.bind fun t => (s.node.members.get? t.id).bind fun m =>
      if Suspects (some m) t.incarnation then some { m with state := .dead } else none
  | .resurrected id =>
    (s.node.members.get? id).bind fun m =>
      if m.state = .dead then some ⟨m.id, m.addr, .alive, m.incarnation + 1⟩ else none
  | _ => none

/-- The record that a step starts a timer for. -/
def started (s : Session) (e : Event) : Option Member :=
  (s.recorded e).filter fun m =>
    m.state = .suspect ∧ (s.node.members.get? m.id).map Member.state ≠ some .suspect

theorem timers_set (r : Node) (m : Member) : (r.set m).timers = r.timers ++
    ((some m).filter fun m =>
      m.state = .suspect ∧ (r.members.get? m.id).map Member.state ≠ some .suspect).toList := by
  rw [Option.filter_some, Node.set]
  dsimp only
  by_cases h : m.state = .suspect ∧ (r.members.get? m.id).map Member.state ≠ some .suspect
  · rw [if_pos h, if_pos (decide_eq_true h)]
    rfl
  · rw [if_neg h, if_neg (by simpa using h)]
    exact (List.append_nil _).symm

variable {s s' : Session} {e : Event}

/-- What a step changes: at most one record, written by `_set`, after the timers it takes away. -/
theorem step_set (h : s.step e = some s') :
    (s.recorded e = none ∧ s'.node.members = s.node.members ∧
      s'.node.timers = kept s.node.timers e) ∨
    ∃ (m : Member) (r : Node), s.recorded e = some m ∧ s'.node = r.set m ∧
      r.members = s.node.members ∧ r.timers = kept s.node.timers e := by
  cases e with
  | start addr =>
    obtain ⟨-, h⟩ := Option.ite_none_left_eq_some.mp h
    obtain rfl := Option.some.inj h
    exact .inl ⟨rfl, rfl, rfl⟩
  | stop =>
    obtain ⟨-, h⟩ := Option.ite_none_right_eq_some.mp h
    obtain rfl := Option.some.inj h
    exact .inl ⟨rfl, rfl, rfl⟩
  | merge update =>
    obtain ⟨-, h⟩ := Option.ite_none_right_eq_some.mp h
    obtain rfl := Option.some.inj h
    unfold recorded Node.merge
    dsimp only
    split
    · -- a rumor about the node itself changes no record
      split
      · exact .inl ⟨rfl, rfl, rfl⟩
      · exact .inl ⟨rfl, rfl, rfl⟩
    · cases s.node.members.get? update.id with
      | none =>
        dsimp only
        split
        · exact .inr ⟨update, s.node, rfl, rfl, rfl, rfl⟩
        · exact .inl ⟨rfl, rfl, rfl⟩
      | some current =>
        dsimp only
        split
        · exact .inr ⟨update, s.node, rfl, rfl, rfl, rfl⟩
        · exact .inl ⟨rfl, rfl, rfl⟩
  | probeFailed id =>
    obtain ⟨-, h⟩ := Option.ite_none_right_eq_some.mp h
    obtain rfl := Option.some.inj h
    unfold recorded Node.mark
    dsimp only
    cases s.node.members.get? id with
    | none => exact .inl ⟨rfl, rfl, rfl⟩
    | some m =>
      rw [Option.bind_some]
      dsimp only
      by_cases hm : m.state = .alive
      · rw [if_pos hm, if_neg (not_not.mpr hm), if_neg (fun h => h.1 rfl)]
        exact .inr ⟨_, s.node, rfl, rfl, rfl, rfl⟩
      · rw [if_neg hm, if_pos hm]
        exact .inl ⟨rfl, rfl, rfl⟩
  | suspicionTimer k =>
    obtain ⟨-, h⟩ := Option.ite_none_right_eq_some.mp h
    obtain rfl := Option.some.inj h
    have hrec : s.recorded (.suspicionTimer k) = s.node.timers[k]?.bind fun t =>
      (s.node.members.get? t.id).bind fun m =>
        if Suspects (some m) t.incarnation then some { m with state := .dead } else none := rfl
    rw [hrec]
    cases hk : s.node.timers[k]? with
    | none =>
      have hlen : s.node.timers.length ≤ k := List.getElem?_eq_none_iff.mp hk
      have hsame : s.node.suspicionTimer k = s.node := by rw [Node.suspicionTimer, hk]
      rw [hsame]
      exact .inl ⟨rfl, rfl, (List.eraseIdx_of_length_le hlen).symm⟩
    | some t =>
      rw [Option.bind_some]
      cases hm : s.node.members.get? t.id with
      | none =>
        rw [Node.suspicionTimer_of_ne hk (by rw [hm]; simp)]
        exact .inl ⟨rfl, rfl, rfl⟩
      | some m =>
        rw [Option.bind_some]
        -- the timer meets a suspicion of its own incarnation or does nothing
        by_cases hsus : Suspects (some m) t.incarnation
        · rw [if_pos hsus]
          obtain ⟨hs, hi⟩ := suspects_some.mp hsus
          rw [Node.suspicionTimer_of_eq hk hm hs hi.symm]
          exact .inr ⟨_, { s.node with timers := s.node.timers.eraseIdx k }, rfl, rfl, rfl, rfl⟩
        · rw [if_neg hsus, Node.suspicionTimer_of_ne hk]
          · exact .inl ⟨rfl, rfl, rfl⟩
          · rw [hm]
            rintro m' hm' hs hi
            obtain rfl := Option.some.inj hm'
            exact hsus (suspects_some.mpr ⟨hs, hi.symm⟩)
  | resurrected id =>
    obtain ⟨-, h⟩ := Option.ite_none_right_eq_some.mp h
    obtain rfl := Option.some.inj h
    unfold recorded Node.resurrect
    dsimp only
    cases s.node.members.get? id with
    | none => exact .inl ⟨rfl, rfl, rfl⟩
    | some m =>
      rw [Option.bind_some]
      dsimp only
      split
      · exact .inr ⟨_, s.node, rfl, rfl, rfl, rfl⟩
      · exact .inl ⟨rfl, rfl, rfl⟩

/-- The record of `id` after a step. -/
theorem get?_step (h : s.step e = some s') (id : String) : s'.node.members.get? id =
    match s.recorded e with
    | none => s.node.members.get? id
    | some m => if id = m.id then some m else s.node.members.get? id := by
  rcases step_set h with ⟨hrec, hm, -⟩ | ⟨m, r, hrec, hs', hm, -⟩
  · rw [hrec, hm]
  · rw [hrec, hs']
    show (r.members.set m.id m).get? id = _
    rw [hm, Dict.get?_set]

/-- The pending timers after a step. -/
theorem timers_step (h : s.step e = some s') :
    s'.node.timers = kept s.node.timers e ++ (s.started e).toList := by
  unfold started
  rcases step_set h with ⟨hrec, -, ht⟩ | ⟨m, r, hrec, hs', hm, ht⟩
  · rw [hrec, ht]
    exact (List.append_nil _).symm
  · rw [hrec, hs', timers_set, ht, hm]

end Session

/-! ### Watched runs -/

/-- A session, and beside each pending timer the records of its member at every moment since the
timer was armed. -/
structure Watch where
  session : Session
  seen : List (List (Option Member))

namespace Watch

/-- `Node(config)` -/
def init (id : String) : Watch := ⟨.init id, []⟩

/-- A step of the session; then each timer that is pending sees the record of its member. -/
def step (w : Watch) (e : Event) : Option Watch :=
  (w.session.step e).map fun s' =>
    ⟨s', List.zipWith (fun t l => l ++ [s'.node.members.get? t.id]) s'.node.timers
      (Session.kept w.seen e ++ (w.session.started e).toList.map fun _ => [])⟩

/-- A timer that fires and makes its member `DEAD` has seen its own suspicion all the time, and a
record that becomes a suspicion starts a timer. -/
def Own (w : Watch) (e : Event) : Prop :=
  ∀ w', w.step e = some w' →
    (∀ (k : ℕ) (t : Member) (l : List (Option Member)), e = .suspicionTimer k →
      w.session.node.timers[k]? = some t → w.seen[k]? = some l →
      (w.session.node.members.get? t.id).map Member.state ≠ some .dead →
      (w'.session.node.members.get? t.id).map Member.state = some .dead →
      ∀ rec ∈ l, Suspects rec t.incarnation) ∧
    ∀ id m, w'.session.node.members.get? id = some m → m.state = .suspect →
      ¬ Suspects (w.session.node.members.get? id) m.incarnation →
      w'.session.node.timers = w.session.node.timers ++ [m]

/-- A suspicion is raised only of a member that is not suspected, and when no timer of the same
incarnation is pending. -/
def Fresh (w : Watch) : Event → Prop
  | .merge update => update.id ≠ w.session.node.id → update.state = .suspect →
      (∀ current, w.session.node.members.get? update.id = some current →
        supersedes update current) →
      (w.session.node.members.get? update.id).map Member.state ≠ some .suspect ∧
        ¬ w.session.node.Armed update
  | .probeFailed id => ∀ m, w.session.node.members.get? id = some m → m.state = .alive →
      ¬ w.session.node.Armed m
  | _ => True

/-- The last record each timer has seen is the present one. -/
structure Sound (w : Watch) : Prop where
  session : w.session.Sound
  length : w.seen.length = w.session.node.timers.length
  last : ∀ (k : ℕ) (t : Member) (l : List (Option Member)),
    w.session.node.timers[k]? = some t → w.seen[k]? = some l →
    l.getLast? = some (w.session.node.members.get? t.id)

/-- The suspicion of every pending timer was there all the time, or it is not there now. -/
def Held (w : Watch) : Prop :=
  ∀ (k : ℕ) (t : Member) (l : List (Option Member)),
    w.session.node.timers[k]? = some t → w.seen[k]? = some l →
    (∀ rec ∈ l, Suspects rec t.incarnation) ∨
      ¬ Suspects (w.session.node.members.get? t.id) t.incarnation

theorem sound_init (id : String) : (init id).Sound :=
  ⟨Session.sound_init id, rfl, fun _ _ _ h => absurd h (by simp [init, Session.init])⟩

theorem held_init (id : String) : (init id).Held :=
  fun _ _ _ h => absurd h (by simp [init, Session.init])

variable {w w' : Watch} {e : Event}

theorem session_step (h : w.step e = some w') : w.session.step e = some w'.session := by
  obtain ⟨s', hs', rfl⟩ := Option.map_eq_some_iff.mp h
  exact hs'

theorem length_kept {α β : Type*} {l : List α} {l' : List β} (h : l.length = l'.length)
    (e : Event) : (Session.kept l e).length = (Session.kept l' e).length := by
  cases e with
  | suspicionTimer k =>
    show (l.eraseIdx k).length = (l'.eraseIdx k).length
    rw [List.length_eraseIdx, List.length_eraseIdx, h]
  | stop => rfl
  | _ => exact h

/-- What is kept of two lists beside each other stood beside each other. -/
theorem kept_get? {α β : Type*} {l : List α} {l' : List β} {e : Event} {k : ℕ} {a : α} {b : β}
    (ha : (Session.kept l e)[k]? = some a) (hb : (Session.kept l' e)[k]? = some b) :
    ∃ j : ℕ, l[j]? = some a ∧ l'[j]? = some b := by
  cases e with
  | suspicionTimer i =>
    replace ha : (l.eraseIdx i)[k]? = some a := ha
    replace hb : (l'.eraseIdx i)[k]? = some b := hb
    rw [List.getElem?_eraseIdx] at ha hb
    split at ha
    · rename_i hki
      rw [if_pos hki] at hb
      exact ⟨k, ha, hb⟩
    · rename_i hki
      rw [if_neg hki] at hb
      exact ⟨k + 1, ha, hb⟩
  | stop => exact absurd ha (by simp [Session.kept])
  | _ => exact ⟨k, ha, hb⟩

/-- A timer pending after a step was pending before, with what it had seen, or was started by the
step; and it sees the record the step leaves. -/
theorem pending_step (hw : w.Sound) (h : w.step e = some w') {k : ℕ} {t : Member}
    {l : List (Option Member)} (ht : w'.session.node.timers[k]? = some t)
    (hl : w'.seen[k]? = some l) :
    (∃ (j : ℕ) (l₀ : List (Option Member)), w.session.node.timers[j]? = some t ∧
      w.seen[j]? = some l₀ ∧ l = l₀ ++ [w'.session.node.members.get? t.id]) ∨
    ((Session.kept w.session.node.timers e).length ≤ k ∧ w.session.started e = some t ∧
      l = [w'.session.node.members.get? t.id]) := by
  have htimers := Session.timers_step (session_step h)
  obtain ⟨s', hs', rfl⟩ := Option.map_eq_some_iff.mp h
  obtain ⟨t', l', ht', hl', rfl⟩ := List.getElem?_zipWith_eq_some.mp hl
  obtain rfl : t = t' := Option.some.inj (ht.symm.trans ht')
  have hlen := length_kept hw.length e
  rw [htimers] at ht
  by_cases hk : k < (Session.kept w.session.node.timers e).length
  · rw [List.getElem?_append_left hk] at ht
    rw [List.getElem?_append_left (by rw [hlen]; exact hk)] at hl'
    obtain ⟨j, hj, hj'⟩ := kept_get? ht hl'
    exact .inl ⟨j, l', hj, hj', rfl⟩
  · rw [List.getElem?_append_right (not_lt.mp hk)] at ht
    rw [List.getElem?_append_right (by rw [hlen]; exact not_lt.mp hk), hlen] at hl'
    cases hst : w.session.started e with
    | none =>
      rw [hst] at ht
      exact absurd ht (by simp)
    | some m =>
      rw [hst] at ht hl'
      obtain rfl := List.mem_singleton.mp (List.mem_of_getElem? ht)
      obtain rfl := List.mem_singleton.mp (List.mem_of_getElem? hl')
      exact .inr ⟨not_lt.mp hk, rfl, rfl⟩

theorem Sound.step (hw : w.Sound) (h : w.step e = some w') : w'.Sound where
  session := hw.session.step (session_step h)
  length := by
    have htimers := Session.timers_step (session_step h)
    obtain ⟨s', hs', rfl⟩ := Option.map_eq_some_iff.mp h
    rw [List.length_zipWith, htimers]
    simp [length_kept hw.length e]
  last := by
    intro k t l ht hl
    rcases pending_step hw h ht hl with ⟨j, l₀, -, -, rfl⟩ | ⟨-, -, rfl⟩
    · exact List.getLast?_concat
    · rfl

/-! ### Raised suspicions -/

/-- The steps that write a suspicion. -/
theorem recorded_suspect {s : Session} {m : Member} (hm : s.recorded e = some m)
    (hsus : m.state = .suspect) :
    (e = .merge m ∧ m.id ≠ s.node.id ∧
      ∀ current, s.node.members.get? m.id = some current → supersedes m current) ∨
    ∃ id c, e = .probeFailed id ∧ s.node.members.get? id = some c ∧ c.state = .alive ∧
      m = { c with state := .suspect } := by
  cases e with
  | start addr => cases hm
  | stop => cases hm
  | merge update =>
    obtain ⟨hid, hm⟩ := Option.ite_none_left_eq_some.mp hm
    cases hc : s.node.members.get? update.id with
    | none =>
      rw [hc] at hm
      obtain ⟨-, hm⟩ := Option.ite_none_right_eq_some.mp hm
      obtain rfl := Option.some.inj hm
      exact .inl ⟨rfl, hid, fun c h => nomatch hc.symm.trans h⟩
    | some current =>
      rw [hc] at hm
      obtain ⟨hsup, hm⟩ := Option.ite_none_right_eq_some.mp hm
      obtain rfl := Option.some.inj hm
      exact .inl ⟨rfl, hid, fun c h => Option.some.inj (hc.symm.trans h) ▸ hsup⟩
  | probeFailed id =>
    obtain ⟨c, hc, hm⟩ := Option.bind_eq_some_iff.mp hm
    obtain ⟨hcs, hm⟩ := Option.ite_none_right_eq_some.mp hm
    exact .inr ⟨id, c, rfl, hc, hcs, (Option.some.inj hm).symm⟩
  -- these two write other states
  | suspicionTimer k =>
    obtain ⟨t, -, hm⟩ := Option.bind_eq_some_iff.mp hm
    obtain ⟨c, -, hm⟩ := Option.bind_eq_some_iff.mp hm
    obtain ⟨-, hm⟩ := Option.ite_none_right_eq_some.mp hm
    obtain rfl := Option.some.inj hm
    cases hsus
  | resurrected id =>
    obtain ⟨c, -, hm⟩ := Option.bind_eq_some_iff.mp hm
    obtain ⟨-, hm⟩ := Option.ite_none_right_eq_some.mp hm
    obtain rfl := Option.some.inj hm
    cases hsus

theorem recorded_merge {s : Session} {m : Member} (hid : m.id ≠ s.node.id)
    (hsus : m.state = .suspect)
    (hsup : ∀ current, s.node.members.get? m.id = some current → supersedes m current) :
    s.recorded (.merge m) = some m := by
  rw [Session.recorded, if_neg hid]
  cases hc : s.node.members.get? m.id with
  | none => exact if_pos (by rw [hsus]; decide)
  | some current => exact if_pos (hsup current hc)

theorem recorded_probeFailed {s : Session} {id : String} {c : Member}
    (hc : s.node.members.get? id = some c) (hcs : c.state = .alive) :
    s.recorded (.probeFailed id) = some { c with state := .suspect } := by
  rw [Session.recorded, hc, Option.bind_some, if_pos hcs]

/-- A step that writes a suspicion was not under one of that incarnation. -/
theorem not_suspects_of_recorded {s : Session} (hs : s.Sound) {m : Member}
    (hm : s.recorded e = some m) (hsus : m.state = .suspect) :
    ¬ Suspects (s.node.members.get? m.id) m.incarnation := by
  rcases recorded_suspect hm hsus with ⟨-, -, hsup⟩ | ⟨id, c, -, hc, hcs, rfl⟩
  · cases hc : s.node.members.get? m.id with
    | none => exact fun h => nomatch h
    | some current =>
      rw [suspects_some]
      rintro ⟨hcs, hci⟩
      have := hsup current hc
      rw [supersedes, hsus, hcs, if_neg (by decide), if_neg (not_not.mpr hci.symm)] at this
      exact absurd this (lt_irrefl _)
  · show ¬ Suspects (s.node.members.get? c.id) c.incarnation
    rw [hs.keyed id c hc, hc, suspects_some, hcs]
    exact fun h => nomatch h.1

/-- A step that writes a suspicion takes no timer away. -/
theorem kept_of_recorded {α : Type*} {s : Session} {m : Member} (hm : s.recorded e = some m)
    (hsus : m.state = .suspect) (l : List α) : Session.kept l e = l := by
  rcases recorded_suspect hm hsus with ⟨rfl, -, -⟩ | ⟨id, c, rfl, -, -, -⟩
  · rfl
  · rfl

/-- A step that writes a suspicion is one of a running node. -/
theorem running_of_recorded {s s' : Session} {m : Member} (h : s.step e = some s')
    (hm : s.recorded e = some m) (hsus : m.state = .suspect) : s'.running = true := by
  rcases recorded_suspect hm hsus with ⟨rfl, -, -⟩ | ⟨id, c, rfl, -, -, -⟩
  · obtain ⟨-, h⟩ := Option.ite_none_right_eq_some.mp h
    exact Option.some.inj h ▸ rfl
  · obtain ⟨-, h⟩ := Option.ite_none_right_eq_some.mp h
    exact Option.some.inj h ▸ rfl

/-- A record that becomes a suspicion was written by the step. -/
theorem recorded_of_raise (h : w.step e = some w') {id : String} {m : Member}
    (hm : w'.session.node.members.get? id = some m) (hsus : m.state = .suspect)
    (hold : ¬ Suspects (w.session.node.members.get? id) m.incarnation) :
    w.session.recorded e = some m ∧ m.id = id := by
  rw [Session.get?_step (session_step h)] at hm
  have hstays : w.session.node.members.get? id ≠ some m := by
    intro hsame
    rw [hsame] at hold
    exact hold (suspects_some.mpr ⟨hsus, rfl⟩)
  cases hrec : w.session.recorded e with
  | none =>
    rw [hrec] at hm
    exact absurd hm hstays
  | some x =>
    rw [hrec] at hm
    dsimp only at hm
    split at hm
    · rename_i hid
      obtain rfl := Option.some.inj hm
      exact ⟨rfl, hid.symm⟩
    · exact absurd hm hstays

/-- Freshness in terms of the record that a step writes. -/
theorem fresh_iff (hw : w.Sound) : w.Fresh e ↔
    ∀ m, w.session.recorded e = some m → m.state = .suspect →
      (w.session.node.members.get? m.id).map Member.state ≠ some .suspect ∧
        ¬ w.session.node.Armed m := by
  constructor
  · intro hf m hm hsus
    rcases recorded_suspect hm hsus with ⟨rfl, hid, hsup⟩ | ⟨id, c, rfl, hc, hcs, rfl⟩
    · exact hf hid hsus hsup
    · refine ⟨?_, hf c hc hcs⟩
      show (w.session.node.members.get? c.id).map Member.state ≠ _
      rw [hw.session.keyed id c hc, hc, Option.map_some, hcs]
      decide
  · intro hf
    cases e with
    | merge update => exact fun hid hsus hsup => hf update (recorded_merge hid hsus hsup) hsus
    | probeFailed id => exact fun c hc hcs => (hf _ (recorded_probeFailed hc hcs) rfl).2
    | _ => trivial

/-! ### Fresh suspicions -/

/-- Fresh suspicions bring no broken suspicion back under its old timer. -/
theorem Held.step (hw : w.Sound) (hh : w.Held) (hf : w.Fresh e) (h : w.step e = some w') :
    w'.Held := by
  intro k t l ht hl
  rcases pending_step hw h ht hl with ⟨j, l₀, htj, hlj, rfl⟩ | ⟨-, hst, rfl⟩
  · by_cases hnow : Suspects (w'.session.node.members.get? t.id) t.incarnation
    · rcases hh j t l₀ htj hlj with hall | hnot
      · refine .inl fun rec hrec => ?_
        rcases List.mem_append.mp hrec with hrec | hrec
        · exact hall rec hrec
        · exact List.mem_singleton.mp hrec ▸ hnow
      · -- a broken suspicion is raised again, while its timer is still pending
        obtain ⟨m, hm, hpair⟩ := Option.map_eq_some_iff.mp hnow
        obtain ⟨hsus, hi⟩ := Prod.ext_iff.mp hpair
        replace hsus : m.state = .suspect := hsus
        replace hi : m.incarnation = t.incarnation := hi
        obtain ⟨hrec, hid⟩ := recorded_of_raise h hm hsus (hi ▸ hnot)
        have harmed := ((fresh_iff hw).mp hf m hrec hsus).2
        exact absurd ⟨t, List.mem_of_getElem? htj, hid.symm, hi.symm⟩ harmed
    · exact .inr hnow
  · -- the timer is started in this step
    obtain ⟨hrec, hnew⟩ := Option.filter_eq_some_iff.mp hst
    have hsus : t.state = .suspect := (of_decide_eq_true hnew).1
    refine .inl fun rec hmem => ?_
    rw [List.mem_singleton.mp hmem, Session.get?_step (session_step h), hrec]
    simp [hsus]

/-- A timer that fires and makes its member `DEAD` meets its suspicion. -/
theorem suspects_of_fire {k : ℕ} (h : w.step (.suspicionTimer k) = some w') {t : Member}
    (ht : w.session.node.timers[k]? = some t)
    (hold : (w.session.node.members.get? t.id).map Member.state ≠ some .dead)
    (hnew : (w'.session.node.members.get? t.id).map Member.state = some .dead) :
    Suspects (w.session.node.members.get? t.id) t.incarnation := by
  by_contra hnot
  have hrec : w.session.recorded (.suspicionTimer k) = none := by
    rw [Session.recorded, ht, Option.bind_some]
    cases hm : w.session.node.members.get? t.id with
    | none => rfl
    | some m =>
      rw [Option.bind_some]
      exact if_neg (hm ▸ hnot)
  rw [Session.get?_step (session_step h), hrec] at hnew
  exact hold hnew

/-- A fresh step keeps to `Own`. -/
theorem own_of_fresh (hw : w.Sound) (hh : w.Held) (hf : w.Fresh e) : w.Own e := by
  intro w' h
  constructor
  · rintro k t l rfl ht hl hold hnew
    exact (hh k t l ht hl).resolve_right (not_not.mpr (suspects_of_fire h ht hold hnew))
  · intro id m hm hsus hold
    obtain ⟨hrec, -⟩ := recorded_of_raise h hm hsus hold
    have hnew := ((fresh_iff hw).mp hf m hrec hsus).1
    have hst : w.session.started e = some m :=
      Option.filter_eq_some_iff.mpr ⟨hrec, decide_eq_true ⟨hsus, hnew⟩⟩
    rw [Session.timers_step (session_step h), kept_of_recorded hrec hsus, hst]
    rfl

/-- A timer that meets its suspicion makes the member `DEAD`. -/
theorem dead_of_fire (hw : w.Sound) {k : ℕ} (h : w.step (.suspicionTimer k) = some w') {t : Member}
    (ht : w.session.node.timers[k]? = some t)
    (hmeets : Suspects (w.session.node.members.get? t.id) t.incarnation) :
    (w'.session.node.members.get? t.id).map Member.state = some .dead := by
  obtain ⟨m, hm, -⟩ := Option.map_eq_some_iff.mp hmeets
  have hrec : w.session.recorded (.suspicionTimer k) = some { m with state := .dead } := by
    rw [Session.recorded, ht, Option.bind_some, hm, Option.bind_some]
    exact if_pos (hm ▸ hmeets)
  rw [Session.get?_step (session_step h), hrec]
  dsimp only
  rw [if_pos (hw.session.keyed _ m hm).symm]
  rfl

/-- A pending timer can fire. -/
theorem exists_fire (hrun : w.session.running = true) {k : ℕ}
    (hk : k < w.session.node.timers.length) : ∃ w', w.step (.suspicionTimer k) = some w' := by
  have : w.session.step (.suspicionTimer k) = some ⟨w.session.node.suspicionTimer k, true⟩ :=
    if_pos ⟨hrun, hk⟩
  exact ⟨_, by rw [step, this]; rfl⟩

/-- After a suspicion that is not fresh, the old timer can end it, unless there is none for it at
all. -/
theorem not_own_of_stale (hw : w.Sound) (hf : ¬ w.Fresh e) (h : w.step e = some w')
    (hown : w.Own e) : ∃ k, ¬ w'.Own (.suspicionTimer k) := by
  rw [fresh_iff hw] at hf
  push Not at hf
  obtain ⟨m, hrec, hsus, hm⟩ := hf
  have hold := not_suspects_of_recorded hw.session hrec hsus
  have hget : w'.session.node.members.get? m.id = some m := by
    rw [Session.get?_step (session_step h), hrec]
    exact if_pos rfl
  -- the raise started a timer of its own
  have htimers := (hown w' h).2 m.id m hget hsus hold
  have hnot : (w.session.node.members.get? m.id).map Member.state ≠ some .suspect := by
    intro hs
    have hst : w.session.started e = none := by
      rw [Session.started, hrec, Option.filter_some, if_neg]
      simp [hs]
    rw [Session.timers_step (session_step h), kept_of_recorded hrec hsus, hst] at htimers
    simpa using congrArg List.length htimers
  -- but an older one of the same incarnation is pending
  obtain ⟨t, ht, hid, hi⟩ := hm hnot
  obtain ⟨j, hj, rfl⟩ := List.mem_iff_getElem.mp ht
  have hj' : w'.session.node.timers[j]? = some w.session.node.timers[j] := by
    rw [htimers, List.getElem?_append_left hj]
    exact List.getElem?_eq_getElem hj
  have hlt : j < w'.session.node.timers.length := by
    rw [htimers, List.length_append]
    omega
  have hw' := hw.step h
  obtain ⟨l, hl⟩ : ∃ l, w'.seen[j]? = some l :=
    ⟨_, List.getElem?_eq_getElem (by rw [hw'.length]; exact hlt)⟩
  refine ⟨j, fun hown' => ?_⟩
  obtain ⟨w'', h''⟩ := exists_fire (running_of_recorded (session_step h) hrec hsus) hlt
  have hmeets : Suspects (w'.session.node.members.get? w.session.node.timers[j].id)
      w.session.node.timers[j].incarnation := by
    rw [hid, hget, suspects_some]
    exact ⟨hsus, hi.symm⟩
  have hall := (hown' w'' h'').1 j _ l rfl hj' hl (by rw [hid, hget, Option.map_some, hsus]; decide)
    (dead_of_fire hw' h'' hj' hmeets)
  -- it has seen the record that the raise replaced
  rcases pending_step hw h hj' hl with ⟨i, l₀, hti, hli, rfl⟩ | ⟨hle, -, -⟩
  · have hmem := List.mem_of_getLast? (hw.last i _ l₀ hti hli)
    have hbefore := hall _ (List.mem_append_left _ hmem)
    rw [hid, hi] at hbefore
    exact hold hbefore
  · rw [kept_of_recorded hrec hsus] at hle
    omega

/-! ### Runs -/

/-- **A suspicion timer ends its own suspicion only**, and every raised suspicion has one, along a
run and however pending timers fire from any moment of it, exactly if all suspicions of the run are
raised afresh. -/
theorem timer_ends_own (id : String) (es : List Event) :
    Run.Meets step Fresh (init id) es ↔
      ∀ before firings : List Event, before <+: es → (∀ e ∈ firings, ∃ k, e = .suspicionTimer k) →
        Run.Meets step Own (init id) (before ++ firings) := by
  refine Run.meets_iff_quiet
    (fun w e w' h (hw : w.Sound ∧ w.Held) hf => ⟨hw.1.step h, hw.2.step hw.1 hf h⟩)
    (fun w e hw hf => own_of_fresh hw.1 hw.2 hf) (fun w e he => ?_)
    (fun w e w' h hw hf hown => ?_) ⟨sound_init id, held_init id⟩ es
  · obtain ⟨k, rfl⟩ := he
    trivial
  · obtain ⟨k, hk⟩ := not_own_of_stale hw.1 hf h hown
    refine ⟨[.suspicionTimer k], fun e he => ⟨k, List.mem_singleton.mp he⟩, fun hmeets => ?_⟩
    exact hk fun w'' h'' => (hmeets w'' h'').1 w'' h''

/-- `b` is suspected at incarnation 5, and a late rumor of its death at incarnation 3 takes that
away.  Another rumor of the suspicion brings it back, and the timer of the first one ends it. -/
theorem timer_ends_other : ¬ ∀ id es, Run.Meets step Own (init id) es := by
  intro h
  have hrun := h "a" [.start "a:1", .merge ⟨"b", "b:1", .suspect, 5⟩, .merge ⟨"b", "b:1", .dead, 3⟩,
    .merge ⟨"b", "b:1", .suspect, 5⟩, .suspicionTimer 0]
  have hlast := ((((hrun _ rfl).2 _ rfl).2 _ rfl).2 _ rfl).2 _ rfl
  have hall := (hlast.1 _ rfl).1 0 _ _ rfl rfl rfl (by decide) (by decide)
  -- the timer has seen `b` dead
  exact absurd (hall (some ⟨"b", "b:1", .dead, 3⟩) (by decide)) (by decide)

end Watch

end Swim
