/-
A round barrier in its event loop (`diloco/barrier.py`).

A `Loop` has the fields of a `RoundBarrier` and the tasks that live around them: the
`asyncio.Event`s that were made, the timer tasks and the calls of `submit`.  Between
two steps any task that is ready may run next; a call may be cancelled while it waits,
and SWIM's answer to `alive_members()` is chosen by each submission.

`closes` and `submissions` are history: the rounds that were closed, each with what
was submitted since the one before, and what was submitted since the last; `since` of
a call is the number of rounds closed before its submission, so the place of the
close that consumes it.

* `Loop.step`, `Loop.Moves` — the steps, and what each of them can do (`Loop.moves`);
* `Loop.Sound` — the invariant, kept by all steps (`Loop.Sound.step`);
* **`Loop.no_waiter_stranded`** — a pending gradient has a timer of the current round,
  a waiting call has an event that is set or will be, and no empty round closes;
* `Loop.toBarrier_step` — without its tasks, the loop is the `Barrier` of a leader.
-/
import Dssd.Runs
import Dssd.RoundBarrier

namespace Diloco

/-- A task of `_finish_after_timeout`: asleep, cancelled, or past its sleep. -/
inductive Nap
  | sleeping
  | cancelled
  | over
  deriving DecidableEq

/-- A timer task; `startRound` is the round it was started in. -/
structure Timer where
  startRound : ℕ
  nap : Nap

inductive Wait (D : Type)
  /-- `await done.wait()`, for the event with this number. -/
  | waiting (event : ℕ)
  | returned (round : ℕ) (globalState : D)
  | cancelled

/-- A call of `submit`. -/
structure Call (D : Type) where
  workerId : String
  since : ℕ
  wait : Wait D

/-- A round that was closed, by a submission or by a timer started in this round. -/
structure Close (D : Type) where
  submissions : List (String × D)
  pending : Dict D
  timer : Option ℕ
  round : ℕ
  globalState : D

structure Loop (D Ω : Type) where
  outer : Ω
  globalState : D
  round : ℕ
  pending : Dict D
  /-- `_round_done`, by its number -/
  roundDone : ℕ
  /-- `_timeout_task`, by its number -/
  timeoutTask : Option ℕ
  /-- `is_set()` of each event -/
  events : List Bool
  timers : List Timer
  calls : List (Call D)
  closes : List (Close D)
  submissions : List (String × D)
  /-- `average_pseudo_gradients` has raised its `ValueError`. -/
  raised : Bool

inductive LoopEvent (D : Type)
  /-- A call of `submit` runs up to its `await`; `alive` is what SWIM says. -/
  | submit (workerId : String) (pseudoGrad : D) (alive : List String)
  /-- The call in place `j` runs on after its event was set. -/
  | resume (j : ℕ)
  | cancel (j : ℕ)
  /-- The timer in place `i` runs on after its sleep. -/
  | timeout (i : ℕ)

namespace Loop

variable {D Ω : Type} (O : Outer D Ω)

/-- `RoundBarrier(alive_members, global_state, start_round=start_round)` -/
def create (globalState : D) (startRound : ℕ) : Loop D Ω where
  outer := O.create globalState
  globalState := globalState
  round := startRound
  pending := Dict.empty
  roundDone := 0
  timeoutTask := none
  events := [false]
  timers := []
  calls := []
  closes := []
  submissions := []
  raised := false

/-- `self._timeout_task.cancel()`, if there is one: a cancelled task never runs on. -/
def cancelTask (timers : List Timer) : Option ℕ → List Timer
  | none => timers
  | some i => timers.modify i fun t => { t with nap := .cancelled }

/-- `_finish_round()` with something to average: the event of the round is set, and a fresh one
takes its place. -/
def closeRound (s : Loop D Ω) (timer : Option ℕ) : Loop D Ω :=
  let (outer, globalState) := O.step s.outer (O.average s.pending.values)
  { s with
    outer := outer
    globalState := globalState
    round := s.round + 1
    pending := Dict.empty
    timers := cancelTask s.timers s.timeoutTask
    timeoutTask := none
    roundDone := s.events.length
    events := s.events.set s.roundDone true ++ [false]
    closes := s.closes ++ [⟨s.submissions, s.pending, timer, s.round + 1, globalState⟩]
    submissions := [] }

/-- `_finish_round()`; `none` if `average_pseudo_gradients` raises. -/
def finishRound (s : Loop D Ω) (timer : Option ℕ) : Option (Loop D Ω) :=
  if s.pending.items = [] then none else some (s.closeRound O timer)

/-- `await done.wait()` and the `return`; an event that is set does not suspend. -/
def await (s : Loop D Ω) (workerId : String) (done since : ℕ) : Loop D Ω :=
  let wait := if s.events[done]? = some true then .returned s.round s.globalState else .waiting done
  { s with calls := s.calls ++ [⟨workerId, since, wait⟩] }

/-- `self._pending[worker_id] = pseudo_grad` -/
def take (s : Loop D Ω) (workerId : String) (pseudoGrad : D) : Loop D Ω :=
  { s with
    pending := s.pending.set workerId pseudoGrad
    submissions := s.submissions ++ [(workerId, pseudoGrad)] }

/-- Start a timer if there is none. -/
def arm (s : Loop D Ω) : Loop D Ω :=
  if s.timeoutTask = none then
    { s with
      timeoutTask := some s.timers.length
      timers := s.timers ++ [⟨s.round, .sleeping⟩] }
  else s

/-- `submit(worker_id, pseudo_grad)` up to its `await`. -/
def submit (s : Loop D Ω) (workerId : String) (pseudoGrad : D) (alive : List String) : Loop D Ω :=
  let since := s.closes.length
  let s := s.take workerId pseudoGrad
  let done := s.roundDone
  if Barrier.complete alive s.pending then
    match s.finishRound O none with
    | none => { s with raised := true }
    | some s => s.await workerId done since
  else s.arm.await workerId done since

/-- `self._timeout_task = None`, by the timer in place `i` after its sleep. -/
def wake (s : Loop D Ω) (i : ℕ) (t : Timer) : Loop D Ω :=
  { s with timers := s.timers.set i { t with nap := .over }, timeoutTask := none }

/-- `_finish_after_timeout()` of the timer in place `i`, once it has slept. -/
def timeout (s : Loop D Ω) (i : ℕ) (t : Timer) : Loop D Ω :=
  let s := s.wake i t
  if s.pending.items ≠ [] then
    match s.finishRound O (some t.startRound) with
    | none => { s with raised := true }
    | some s => s
  else s

def step (s : Loop D Ω) : LoopEvent D → Option (Loop D Ω)
  | .submit workerId pseudoGrad alive => some (s.submit O workerId pseudoGrad alive)
  | .resume j => do
    let c ← s.calls[j]?
    match c.wait with
    | .waiting e =>
      if s.events[e]? = some true then
        some { s with calls := s.calls.set j { c with wait := .returned s.round s.globalState } }
      else none
    | _ => none
  | .cancel j => do
    let c ← s.calls[j]?
    match c.wait with
    | .waiting _ => some { s with calls := s.calls.set j { c with wait := .cancelled } }
    | _ => none
  | .timeout i => do
    let t ← s.timers[i]?
    if t.nap = .sleeping then some (s.timeout O i t) else none

/-! ### What the steps do -/

/-- A call is made, with this to wait for or to return. -/
def call (s : Loop D Ω) (c : Call D) : Loop D Ω := { s with calls := s.calls ++ [c] }

/-- What holds in the middle of a step, too. -/
structure Core (s : Loop D Ω) : Prop where
  /-- Events are made in order, and all but the last are set. -/
  length : s.events.length = s.roundDone + 1
  current : s.events[s.roundDone]? = some false
  older : ∀ e < s.roundDone, s.events[e]? = some true
  /-- The timer asleep is the one of this round. -/
  asleep : ∀ (i : ℕ) (t : Timer), s.timers[i]? = some t → t.nap = .sleeping →
    s.timeoutTask = some i ∧ t.startRound = s.round
  /-- Calls wait for the current event or an older one. -/
  waiting : ∀ c ∈ s.calls, ∀ e, c.wait = .waiting e → e ≤ s.roundDone
  closed : ∀ c ∈ s.closes, c.pending.items ≠ [] ∧ ∀ r, c.timer = some r → r + 1 = c.round
  raised : s.raised = false

/-- The invariant between steps. -/
structure Sound (s : Loop D Ω) : Prop extends Core s where
  armed : ∀ i, s.timeoutTask = some i → ∃ t, s.timers[i]? = some t ∧ t.nap = .sleeping
  pending : s.pending.items ≠ [] ↔ s.timeoutTask ≠ none

variable {O} {s s' : Loop D Ω}

theorem sound_create (globalState : D) (startRound : ℕ) :
    (create O globalState startRound).Sound where
  length := rfl
  current := rfl
  older _ h := absurd h (Nat.not_lt_zero _)
  asleep i t h := by simp [create] at h
  armed i h := by cases h
  pending := ⟨fun h => absurd rfl h, fun h => absurd rfl h⟩
  waiting c h := by cases h
  closed c h := by cases h
  raised := rfl

/-- A close leaves no timer asleep, and nobody without an event that is set or will be. -/
theorem Core.closeRound (h : s.Core) (hp : s.pending.items ≠ []) {timer : Option ℕ}
    (ht : ∀ r, timer = some r → r = s.round) : (s.closeRound O timer).Sound where
  length := by
    show (s.events.set s.roundDone true ++ [false]).length = s.events.length + 1
    simp
  current := by
    show (s.events.set s.roundDone true ++ [false])[s.events.length]? = some false
    simp
  older e he := by
    replace he : e < s.events.length := he
    show (s.events.set s.roundDone true ++ [false])[e]? = some true
    rw [List.getElem?_append_left (by simpa using he), List.getElem?_set]
    have := h.length
    split
    · rename_i heq
      rw [if_pos (by omega)]
    · exact h.older e (by omega)
  asleep i t hi hn := by
    exfalso
    replace hi : (cancelTask s.timers s.timeoutTask)[i]? = some t := hi
    cases htask : s.timeoutTask with
    | none =>
      rw [htask] at hi
      have := (h.asleep i t hi hn).1
      rw [htask] at this
      cases this
    | some j =>
      rw [htask, cancelTask, List.getElem?_modify] at hi
      obtain ⟨t₀, ht₀, rfl⟩ := Option.map_eq_some_iff.mp hi
      -- the timer asleep is the one that is cancelled
      split at hn
      · cases hn
      · rename_i hne
        have := (h.asleep i t₀ ht₀ hn).1
        rw [htask] at this
        exact hne (Option.some.inj this)
  waiting c hc e he := by
    have := h.waiting c hc e he
    have := h.length
    show e ≤ s.events.length
    omega
  closed c hc := by
    rcases List.mem_append.mp hc with hc | hc
    · exact h.closed c hc
    · obtain rfl := List.mem_singleton.mp hc
      exact ⟨hp, fun r hr => congrArg (· + 1) (ht r hr)⟩
  raised := h.raised
  armed i hi := by cases hi
  pending := ⟨fun hne => absurd rfl hne, fun hne => absurd rfl hne⟩

theorem Core.take (h : s.Core) (workerId : String) (pseudoGrad : D) :
    (s.take workerId pseudoGrad).Core :=
  ⟨h.length, h.current, h.older, h.asleep, h.waiting, h.closed, h.raised⟩

/-- A timer that wakes up was the one asleep. -/
theorem Sound.wake (h : s.Sound) {i : ℕ} {t : Timer} (hi : s.timers[i]? = some t)
    (hn : t.nap = .sleeping) : (s.wake i t).Core where
  length := h.length
  current := h.current
  older := h.older
  asleep j u hj hu := by
    exfalso
    replace hj : (s.timers.set i { t with nap := .over })[j]? = some u := hj
    rw [List.getElem?_set] at hj
    split at hj
    · split at hj
      · obtain rfl := Option.some.inj hj
        cases hu
      · cases hj
    · rename_i hne
      have h1 := (h.asleep i t hi hn).1
      have h2 := (h.asleep j u hj hu).1
      exact hne (Option.some.inj (h1.symm.trans h2))
  waiting := h.waiting
  closed := h.closed
  raised := h.raised

/-- A submission that does not close the round is under a timer. -/
theorem Sound.arm (h : s.Sound) (workerId : String) (pseudoGrad : D) :
    (s.take workerId pseudoGrad).arm.Sound := by
  have hp : (s.take workerId pseudoGrad).pending.items ≠ [] := Dict.items_set_ne_nil _ _ _
  unfold Loop.arm
  split
  · rename_i htask
    replace htask : s.timeoutTask = none := htask
    have hnone : ∀ (i : ℕ) (t : Timer), s.timers[i]? = some t → t.nap ≠ .sleeping := by
      intro i t hi hn
      have := (h.asleep i t hi hn).1
      rw [htask] at this
      cases this
    refine ⟨⟨h.length, h.current, h.older, ?_, h.waiting, h.closed, h.raised⟩, ?_, ?_⟩
    · intro i t hi hn
      replace hi : (s.timers ++ [⟨s.round, .sleeping⟩])[i]? = some t := hi
      rw [List.getElem?_append] at hi
      split at hi
      · exact absurd hn (hnone i t hi)
      · rename_i hlt
        have hz := (List.getElem?_eq_some_iff.mp hi).1
        have heq : i = s.timers.length := by
          simp only [List.length_singleton] at hz
          omega
        subst heq
        obtain rfl := List.mem_singleton.mp (List.mem_of_getElem? hi)
        exact ⟨rfl, rfl⟩
    · intro i hi
      obtain rfl : s.timers.length = i := Option.some.inj hi
      exact ⟨⟨s.round, .sleeping⟩, List.getElem?_concat_length, rfl⟩
    · exact ⟨fun _ => Option.some_ne_none _, fun _ => hp⟩
  · rename_i htask
    exact ⟨h.toCore.take workerId pseudoGrad, h.armed, ⟨fun _ => htask, fun _ => hp⟩⟩

theorem Sound.call (h : s.Sound) {c : Call D} (hc : ∀ e, c.wait = .waiting e → e ≤ s.roundDone) :
    (s.call c).Sound :=
  { h with
    waiting := by
      intro c' hc' e he
      rcases List.mem_append.mp hc' with hc' | hc'
      · exact h.waiting c' hc' e he
      · obtain rfl := List.mem_singleton.mp hc'
        exact hc e he }

/-! ### The steps, one by one -/

/-- A call whose event is set returns what the barrier has. -/
def answer (s : Loop D Ω) (c : Call D) : Call D :=
  { c with wait := .returned s.round s.globalState }

/-- A submission that everybody alive has made closes the round, and returns at once. -/
theorem submit_of_complete (h : s.Sound) {workerId : String} {pseudoGrad : D} {alive : List String}
    (hc : Barrier.complete alive (s.pending.set workerId pseudoGrad)) :
    s.submit O workerId pseudoGrad alive =
      let s' := (s.take workerId pseudoGrad).closeRound O none
      s'.call ⟨workerId, s.closes.length, .returned s'.round s'.globalState⟩ := by
  have hp : (s.take workerId pseudoGrad).pending.items ≠ [] := Dict.items_set_ne_nil _ _ _
  have hset :
      ((s.take workerId pseudoGrad).closeRound O none).events[s.roundDone]? = some true := by
    refine ((h.toCore.take workerId pseudoGrad).closeRound hp (fun r hr => by cases hr)).older _ ?_
    show s.roundDone < s.events.length
    rw [h.length]
    exact Nat.lt_succ_self _
  replace hc : Barrier.complete alive (s.take workerId pseudoGrad).pending := hc
  unfold submit
  dsimp only
  rw [if_pos hc, finishRound, if_neg hp]
  dsimp only
  rw [await, show (s.take workerId pseudoGrad).roundDone = s.roundDone from rfl, if_pos hset]
  rfl

theorem arm_events (s : Loop D Ω) : s.arm.events = s.events := by
  unfold arm
  split <;> rfl

/-- Another submission waits for the event of the round. -/
theorem submit_of_not_complete (h : s.Sound) {workerId : String} {pseudoGrad : D}
    {alive : List String} (hc : ¬ Barrier.complete alive (s.pending.set workerId pseudoGrad)) :
    s.submit O workerId pseudoGrad alive = (s.take workerId pseudoGrad).arm.call
      ⟨workerId, s.closes.length, .waiting s.roundDone⟩ := by
  have hset : (s.take workerId pseudoGrad).arm.events[s.roundDone]? = some false := by
    rw [arm_events]
    exact h.current
  replace hc : ¬ Barrier.complete alive (s.take workerId pseudoGrad).pending := hc
  unfold submit
  dsimp only
  rw [if_neg hc, await, show (s.take workerId pseudoGrad).roundDone = s.roundDone from rfl, hset,
    if_neg (by simp)]
  rfl

/-- A timer that wakes up closes its round. -/
theorem timeout_eq (h : s.Sound) {i : ℕ} {t : Timer} (hi : s.timers[i]? = some t)
    (hn : t.nap = .sleeping) :
    s.timeout O i t = (s.wake i t).closeRound O (some t.startRound) := by
  have hp : (s.wake i t).pending.items ≠ [] := by
    refine h.pending.mpr ?_
    rw [(h.asleep i t hi hn).1]
    exact Option.some_ne_none i
  unfold timeout
  dsimp only
  rw [if_pos hp, finishRound, if_neg hp]

/-- What a step does. -/
inductive Moves (O : Outer D Ω) (s : Loop D Ω) : LoopEvent D → Loop D Ω → Prop
  | close {workerId : String} {pseudoGrad : D} {alive : List String}
      (complete : Barrier.complete alive (s.pending.set workerId pseudoGrad)) :
      Moves O s (.submit workerId pseudoGrad alive)
        (((s.take workerId pseudoGrad).closeRound O none).call ⟨workerId, s.closes.length,
          .returned ((s.take workerId pseudoGrad).closeRound O none).round
            ((s.take workerId pseudoGrad).closeRound O none).globalState⟩)
  | wait {workerId : String} {pseudoGrad : D} {alive : List String}
      (complete : ¬ Barrier.complete alive (s.pending.set workerId pseudoGrad)) :
      Moves O s (.submit workerId pseudoGrad alive) ((s.take workerId pseudoGrad).arm.call
        ⟨workerId, s.closes.length, .waiting s.roundDone⟩)
  | resume {j : ℕ} {c : Call D} {e : ℕ} (call : s.calls[j]? = some c) (wait : c.wait = .waiting e)
      (set : s.events[e]? = some true) :
      Moves O s (.resume j) { s with calls := s.calls.set j (s.answer c) }
  | cancel {j : ℕ} {c : Call D} {e : ℕ} (call : s.calls[j]? = some c) (wait : c.wait = .waiting e) :
      Moves O s (.cancel j) { s with calls := s.calls.set j { c with wait := .cancelled } }
  | timeout {i : ℕ} {t : Timer} (timer : s.timers[i]? = some t) (nap : t.nap = .sleeping) :
      Moves O s (.timeout i) ((s.wake i t).closeRound O (some t.startRound))

theorem moves {e : LoopEvent D} (h : s.Sound) (hs : s.step O e = some s') : Moves O s e s' := by
  cases e with
  | submit workerId pseudoGrad alive =>
    obtain rfl := Option.some.inj hs
    by_cases hc : Barrier.complete alive (s.pending.set workerId pseudoGrad)
    · rw [submit_of_complete h hc]
      exact .close hc
    · rw [submit_of_not_complete h hc]
      exact .wait hc
  | resume j =>
    obtain ⟨c, hc, hs⟩ := Option.bind_eq_some_iff.mp hs
    cases hw : c.wait with
    | waiting e =>
      rw [hw] at hs
      obtain ⟨hset, hs⟩ := Option.ite_none_right_eq_some.mp hs
      obtain rfl := Option.some.inj hs
      exact .resume hc hw hset
    | returned r g =>
      rw [hw] at hs
      cases hs
    | cancelled =>
      rw [hw] at hs
      cases hs
  | cancel j =>
    obtain ⟨c, hc, hs⟩ := Option.bind_eq_some_iff.mp hs
    cases hw : c.wait with
    | waiting e =>
      rw [hw] at hs
      obtain rfl := Option.some.inj hs
      exact .cancel hc hw
    | returned r g =>
      rw [hw] at hs
      cases hs
    | cancelled =>
      rw [hw] at hs
      cases hs
  | timeout i =>
    obtain ⟨t, ht, hs⟩ := Option.bind_eq_some_iff.mp hs
    obtain ⟨hn, hs⟩ := Option.ite_none_right_eq_some.mp hs
    obtain rfl := Option.some.inj hs
    rw [timeout_eq h ht hn]
    exact .timeout ht hn

theorem arm_roundDone (s : Loop D Ω) : s.arm.roundDone = s.roundDone := by
  unfold arm
  split <;> rfl

/-- A call that stops waiting. -/
theorem Sound.setCall (h : s.Sound) {j : ℕ} {c : Call D} (hc : ∀ e, c.wait ≠ .waiting e) :
    Sound { s with calls := s.calls.set j c } :=
  { h with
    waiting := by
      intro c' hc' e he
      rcases List.mem_or_eq_of_mem_set hc' with hc' | rfl
      · exact h.waiting c' hc' e he
      · exact absurd he (hc e) }

theorem Sound.step {e : LoopEvent D} (h : s.Sound) (hs : s.step O e = some s') : s'.Sound := by
  cases moves h hs with
  | @close workerId pseudoGrad alive hc =>
    refine Sound.call ?_ (fun e he => by cases he)
    exact (h.toCore.take workerId pseudoGrad).closeRound (Dict.items_set_ne_nil _ _ _)
      (fun r hr => by cases hr)
  | @wait workerId pseudoGrad alive hc =>
    refine (h.arm workerId pseudoGrad).call fun e he => ?_
    obtain rfl : s.roundDone = e := by
      injection he
    rw [arm_roundDone]
    exact Nat.le_refl _
  | resume hc hw hset => exact h.setCall fun e he => by cases he
  | cancel hc hw => exact h.setCall fun e he => by cases he
  | @timeout i t ht hn =>
    refine (h.wake ht hn).closeRound (h.pending.mpr ?_) fun r hr => ?_
    · rw [(h.asleep i t ht hn).1]
      exact Option.some_ne_none i
    · obtain rfl := Option.some.inj hr
      exact (h.asleep i t ht hn).2

/-! ### Rounds and calls -/

/-- Events are numbered as the closes are, a call waits for the close that consumes its gradient,
and the fields are those of the last close. -/
structure Dated (s : Loop D Ω) : Prop where
  roundDone : s.roundDone = s.closes.length
  since : ∀ c ∈ s.calls, ∀ e, c.wait = .waiting e → c.since = e
  last : ∀ k, s.closes.length = k + 1 → ∃ close, s.closes[k]? = some close ∧
    s.round = close.round ∧ s.globalState = close.globalState

theorem dated_create (globalState : D) (startRound : ℕ) :
    (create O globalState startRound).Dated where
  roundDone := rfl
  since c h := by cases h
  last k h := by cases h

theorem Dated.take (h : s.Dated) (workerId : String) (pseudoGrad : D) :
    (s.take workerId pseudoGrad).Dated :=
  { h with }

theorem Dated.arm (h : s.Dated) : s.arm.Dated := by
  unfold Loop.arm
  split
  · exact { h with }
  · exact h

theorem Dated.wake (h : s.Dated) (i : ℕ) (t : Timer) : (s.wake i t).Dated := { h with }

theorem Dated.closeRound (h : s.Dated) (hc : s.Core) (timer : Option ℕ) :
    (s.closeRound O timer).Dated where
  roundDone := by
    show s.events.length = (s.closes ++ [_]).length
    rw [hc.length, h.roundDone, List.length_append]
    rfl
  since := h.since
  last k hk := by
    replace hk : (s.closes ++ [_]).length = k + 1 := hk
    rw [List.length_append, List.length_singleton] at hk
    obtain rfl : s.closes.length = k := by omega
    exact ⟨_, List.getElem?_concat_length, rfl, rfl⟩

theorem Dated.call (h : s.Dated) {c : Call D} (hw : ∀ e, c.wait = .waiting e → c.since = e) :
    (s.call c).Dated :=
  { h with
    since := by
      intro c' hc'
      rcases List.mem_append.mp hc' with hc' | hc'
      · exact h.since c' hc'
      · obtain rfl := List.mem_singleton.mp hc'
        exact hw }

theorem Dated.setCall (h : s.Dated) {j : ℕ} {c : Call D} (hw : ∀ e, c.wait ≠ .waiting e) :
    Dated { s with calls := s.calls.set j c } :=
  { h with
    since := by
      intro c' hc' e he
      rcases List.mem_or_eq_of_mem_set hc' with hc' | rfl
      · exact h.since c' hc' e he
      · exact absurd he (hw e) }

theorem Dated.step {e : LoopEvent D} (hs : s.Sound) (h : s.Dated) (he : s.step O e = some s') :
    s'.Dated := by
  cases moves hs he with
  | @close workerId pseudoGrad alive hc =>
    refine Dated.call
      ((h.take workerId pseudoGrad).closeRound (hs.toCore.take workerId pseudoGrad) none) ?_
    exact fun e he => by cases he
  | @wait workerId pseudoGrad alive hc =>
    refine (h.take workerId pseudoGrad).arm.call fun e he => ?_
    injection he with he
    exact h.roundDone.symm.trans he
  | resume hc hw hset => exact h.setCall fun e he => by cases he
  | cancel hc hw => exact h.setCall fun e he => by cases he
  | @timeout i t ht hn => exact (h.wake i t).closeRound (hs.wake ht hn) _

/-- A call whose event is set waits for a round that was closed. -/
theorem Dated.since_lt (h : s.Dated) (hs : s.Sound) {c : Call D} (hc : c ∈ s.calls) {e : ℕ}
    (hw : c.wait = .waiting e) (hset : s.events[e]? = some true) : c.since < s.closes.length := by
  rw [h.since c hc e hw, ← h.roundDone]
  refine Nat.lt_of_le_of_ne (hs.waiting c hc e hw) fun heq => ?_
  rw [heq, hs.current] at hset
  cases hset

/-! ### Nobody is stranded -/

/-- The timer task of the barrier is asleep. -/
def Armed (s : Loop D Ω) : Prop :=
  ∃ i t, s.timeoutTask = some i ∧ s.timers[i]? = some t ∧ t.nap = .sleeping

/-- Whoever waits will be woken up. -/
structure Unstranded (s : Loop D Ω) : Prop where
  /-- Gradients are pending exactly if the timer is armed. -/
  pending_iff : s.pending.items ≠ [] ↔ s.Armed
  /-- A timer asleep is that one, and was started in the current round. -/
  timer : ∀ (i : ℕ) (t : Timer), s.timers[i]? = some t → t.nap = .sleeping →
    s.timeoutTask = some i ∧ t.startRound = s.round
  /-- A timer closed no round but its own. -/
  own_round : ∀ c ∈ s.closes, ∀ r, c.timer = some r → r + 1 = c.round
  /-- A waiting call has the current event, or one that is set. -/
  waiting : ∀ c ∈ s.calls, ∀ e, c.wait = .waiting e → e = s.roundDone ∨ s.events[e]? = some true
  /-- No round was closed, or tried to be, with nothing to average. -/
  nonempty : (∀ c ∈ s.closes, c.pending.items ≠ []) ∧ s.raised = false

theorem Sound.unstranded (h : s.Sound) : s.Unstranded where
  pending_iff := by
    constructor
    · intro hp
      obtain ⟨i, hi⟩ := Option.ne_none_iff_exists'.mp (h.pending.mp hp)
      obtain ⟨t, ht, hn⟩ := h.armed i hi
      exact ⟨i, t, hi, ht, hn⟩
    · rintro ⟨i, t, hi, -⟩
      rw [h.pending, hi]
      exact Option.some_ne_none i
  timer := h.asleep
  own_round c hc := (h.closed c hc).2
  waiting c hc e he := by
    rcases Nat.lt_or_eq_of_le (h.waiting c hc e he) with hlt | heq
    · exact .inr (h.older e hlt)
    · exact .inl heq
  nonempty := ⟨fun c hc => (h.closed c hc).1, h.raised⟩

/-- **No waiter is stranded**, in any state between the steps of any run of a barrier. -/
theorem no_waiter_stranded (O : Outer D Ω) (globalState : D) (startRound : ℕ)
    (es : List (LoopEvent D)) :
    Run.Always (step O) Unstranded (create O globalState startRound) es :=
  Run.always_of_inv (fun _ _ _ hs (h : Sound _) => h.step hs) (fun _ h => h.unstranded)
    (sound_create globalState startRound) es

/-! ### The barrier of a leader -/

/-- The fields of the barrier alone. -/
def toBarrier (s : Loop D Ω) : Barrier D Ω where
  outer := s.outer
  globalState := s.globalState
  round := s.round
  pending := s.pending
  timer := s.timeoutTask.isSome
  roundDone := s.roundDone

theorem toBarrier_closeRound (h : s.Core) (timer : Option ℕ) :
    (s.closeRound O timer).toBarrier = s.toBarrier.finishRound O := by
  show Barrier.mk _ _ _ _ _ s.events.length = Barrier.mk _ _ _ _ _ (s.roundDone + 1)
  rw [h.length]
  rfl

theorem toBarrier_arm (s : Loop D Ω) : s.arm.toBarrier = { s.toBarrier with timer := true } := by
  unfold arm
  split
  · rfl
  · rename_i htask
    obtain ⟨i, hi⟩ := Option.ne_none_iff_exists'.mp htask
    unfold toBarrier
    rw [hi]
    rfl

/-- **The loop is the barrier of a leader, with its tasks**: a submission and a timer that wakes up
do to its fields what they do to the `Barrier`, and the other steps leave them as they are. -/
theorem toBarrier_step {e : LoopEvent D} (h : s.Sound) (hs : s.step O e = some s') :
    s'.toBarrier = match e with
      | .submit workerId pseudoGrad alive => s.toBarrier.submit O alive workerId pseudoGrad
      | .timeout _ => s.toBarrier.timeout O
      | _ => s.toBarrier := by
  cases moves h hs with
  | @close workerId pseudoGrad alive hc =>
    replace hc : Barrier.complete alive (s.toBarrier.pending.set workerId pseudoGrad) := hc
    dsimp only
    rw [Barrier.submit]
    dsimp only
    rw [if_pos hc]
    exact toBarrier_closeRound (h.toCore.take workerId pseudoGrad) none
  | @wait workerId pseudoGrad alive hc =>
    replace hc : ¬ Barrier.complete alive (s.toBarrier.pending.set workerId pseudoGrad) := hc
    dsimp only
    rw [Barrier.submit]
    dsimp only
    rw [if_neg hc]
    exact toBarrier_arm _
  | resume hc hw hset => rfl
  | cancel hc hw => rfl
  | @timeout i t ht hn =>
    have hp : s.toBarrier.pending.items ≠ [] := by
      refine h.pending.mpr ?_
      rw [(h.asleep i t ht hn).1]
      exact Option.some_ne_none i
    dsimp only
    rw [Barrier.timeout]
    dsimp only
    rw [if_pos hp]
    exact toBarrier_closeRound (h.wake ht hn) _

end Loop

end Diloco
