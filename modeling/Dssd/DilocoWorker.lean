/-
DiLoCo workers (`diloco/worker.py`) over one Raft cluster.

A `World` has the cluster, each worker's global state, round and barrier, and all
barriers that were ever created: a barrier that its worker has replaced still has
its timer and the `Sync` handlers that wait in it.  What training makes of the model
and what SWIM says of the members are chosen by the events.

A call may be lost, cancelled or given up at any time, and a handler goes on whether
or not its caller still waits.  `closed` and `answered` are history: the rounds that
barriers have closed and the `SyncResponse`s that handlers have returned, with the
states that go with them.  A state travels as it is: `state_from_pb` is taken to undo
`state_to_pb`.

* `World.step` — the steps; `World.Change` — what each event does, and
  `World.step_change`.
-/
import Dssd.RoundBarrier
import Dssd.RaftSteps

open Function (update)

namespace Diloco

open Raft (Cluster Membership)

/-- What `run` of a worker is at: training, about to call `Sync` with its pseudo-gradient, or
waiting for the answer to call `id`. -/
inductive Client (D : Type)
  | training
  | syncing (pseudoGrad : D)
  | waiting (id : ℕ) (pseudoGrad : D)

/-- `barrier` is `_barrier_term` with the place of `_barrier` among all barriers. -/
structure Worker (D : Type) where
  globalState : D
  round : ℕ
  barrier : Option (ℕ × ℕ)
  client : Client D

/-- A `SyncRequest` of worker `workerId` on its way to `target`. -/
structure SyncRequest (D : Type) where
  id : ℕ
  workerId : String
  target : String
  term : ℕ
  pseudoGradient : D

/-- The barrier that `owner` created as leader of `term`. -/
structure Seat (D Ω : Type) where
  owner : String
  term : ℕ
  barrier : Barrier D Ω

/-- A `Sync` handler that waits in barrier `seat` for event `roundDone`. -/
structure Waiter where
  id : ℕ
  workerId : String
  seat : ℕ
  roundDone : ℕ

structure SyncResponse (D : Type) where
  id : ℕ
  workerId : String
  round : ℕ
  globalState : D

structure World (D Ω : Type) where
  raft : Cluster Unit
  worker : String → Worker D
  seats : List (Seat D Ω)
  requests : List (SyncRequest D)
  waiters : List Waiter
  responses : List (SyncResponse D)
  nextCall : ℕ
  closed : List (ℕ × D)
  answered : List (ℕ × D)

inductive Event (D : Type)
  | raft (e : Raft.Event Unit)
  | train (n : String) (pseudoGrad : D)
  | send (n : String)
  | handle (k : ℕ) (alive : List String)
  | loseRequest (k : ℕ)
  | resume (k : ℕ)
  | cancel (k : ℕ)
  | timeout (i : ℕ)
  | receive (k : ℕ)
  | loseResponse (k : ℕ)
  | fail (n : String)

namespace World

variable {D Ω : Type} (M : Membership) (O : Outer D Ω)

/-- Freshly constructed workers; `globalState` is what each one's model starts with. -/
def init (globalState : String → D) : World D Ω where
  raft := Cluster.init M
  worker n := ⟨globalState n, 0, none, .training⟩
  seats := []
  requests := []
  waiters := []
  responses := []
  nextCall := 0
  closed := []
  answered := []

def setWorker (w : World D Ω) (n : String) (r : Worker D) : World D Ω :=
  { w with worker := update w.worker n r }

/-- Barrier `i` becomes `b`; if it has closed a round, that is recorded. -/
def setBarrier (w : World D Ω) (i : ℕ) (x : Seat D Ω) (b : Barrier D Ω) : World D Ω :=
  { w with
    seats := w.seats.set i { x with barrier := b }
    closed := if b.roundDone = x.barrier.roundDone then w.closed
      else w.closed ++ [(b.round, b.globalState)] }

/-- A handler returns what its barrier has now. -/
def respond (w : World D Ω) (id : ℕ) (workerId : String) (b : Barrier D Ω) : World D Ω :=
  { w with
    responses := w.responses ++ [⟨id, workerId, b.round, b.globalState⟩]
    answered := w.answered ++ [(b.round, b.globalState)] }

/-- The leader of a new term starts a fresh barrier from its own global state and round. -/
def createBarrier (w : World D Ω) (n : String) (term : ℕ) : World D Ω :=
  let r := w.worker n
  { w.setWorker n { r with barrier := some (term, w.seats.length) } with
    seats := w.seats ++ [⟨n, term, Barrier.create O r.globalState r.round⟩] }

/-- `Sync` up to the call of `submit`: the barrier of the leader's term, by its place. -/
def enter (w : World D Ω) (n : String) (term : ℕ) : World D Ω × ℕ :=
  match (w.worker n).barrier with
  | none => (w.createBarrier O n term, w.seats.length)
  | some (barrierTerm, i) =>
    if barrierTerm ≠ term then (w.createBarrier O n term, w.seats.length) else (w, i)

/-- `Sync(request)` up to its `await`; `alive` is what SWIM says. -/
def sync (w : World D Ω) (q : SyncRequest D) (alive : List String) : World D Ω :=
  if (w.raft.node q.target).state ≠ (q.term, true) then w
  else
    let (w, i) := w.enter O q.target q.term
    match w.seats[i]? with
    | none => w
    | some x =>
      let b := x.barrier.submit O alive q.workerId q.pseudoGradient
      let w := w.setBarrier i x b
      -- `done.wait()` returns at once if this call has closed the round
      if b.roundDone = x.barrier.roundDone then
        { w with waiters := w.waiters ++ [⟨q.id, q.workerId, i, b.roundDone⟩] }
      else w.respond q.id q.workerId b

/-- `_outer_sync` up to its `await`. -/
def call (w : World D Ω) (n : String) (pseudoGrad : D) : World D Ω :=
  let (leaderId, term) := (w.raft.node n).leaderHint
  if leaderId ∉ M.ids then w
  else
    { w.setWorker n { w.worker n with client := .waiting w.nextCall pseudoGrad } with
      requests := w.requests ++ [⟨w.nextCall, n, leaderId, term, pseudoGrad⟩]
      nextCall := w.nextCall + 1 }

/-- One step; `none` if the event cannot happen now. -/
def step (w : World D Ω) : Event D → Option (World D Ω)
  | .raft e => (Cluster.step M w.raft e).map fun c => { w with raft := c }
  | .train n pseudoGrad =>
    match (w.worker n).client with
    | .training => some (w.setWorker n { w.worker n with client := .syncing pseudoGrad })
    | _ => none
  | .send n =>
    match (w.worker n).client with
    | .syncing pseudoGrad => some (w.call M n pseudoGrad)
    | _ => none
  | .handle k alive =>
    w.requests[k]?.map fun q => { w with requests := w.requests.eraseIdx k }.sync O q alive
  | .loseRequest k => some { w with requests := w.requests.eraseIdx k }
  | .resume k =>
    match w.waiters[k]? with
    | none => none
    | some t =>
      match w.seats[t.seat]? with
      | none => none
      | some x =>
        if t.roundDone < x.barrier.roundDone then
          some ({ w with waiters := w.waiters.eraseIdx k }.respond t.id t.workerId x.barrier)
        else none
  | .cancel k => some { w with waiters := w.waiters.eraseIdx k }
  | .timeout i =>
    match w.seats[i]? with
    | none => none
    | some x =>
      if x.barrier.timer = true then some (w.setBarrier i x (x.barrier.timeout O)) else none
  | .receive k =>
    match w.responses[k]? with
    | none => none
    | some a =>
      let w := { w with responses := w.responses.eraseIdx k }
      match (w.worker a.workerId).client with
      | .waiting id _ =>
        if id = a.id then
          some (w.setWorker a.workerId { w.worker a.workerId with
            globalState := a.globalState
            round := a.round
            client := .training })
        else some w
      | _ => some w
  | .loseResponse k => some { w with responses := w.responses.eraseIdx k }
  | .fail n =>
    match (w.worker n).client with
    | .waiting _ pseudoGrad =>
      some (w.setWorker n { w.worker n with client := .syncing pseudoGrad })
    | _ => none

/-- What each event does, with its guard. -/
inductive Change (w : World D Ω) : Event D → World D Ω → Prop
  | raft {e : Raft.Event Unit} {c : Cluster Unit} (hc : Cluster.step M w.raft e = some c) :
      Change w (.raft e) { w with raft := c }
  | train {n : String} {g : D} (hn : (w.worker n).client = .training) :
      Change w (.train n g) (w.setWorker n { w.worker n with client := .syncing g })
  | send {n : String} {g : D} (hn : (w.worker n).client = .syncing g) :
      Change w (.send n) (w.call M n g)
  | handle {k : ℕ} {alive : List String} {q : SyncRequest D} (hq : w.requests[k]? = some q) :
      Change w (.handle k alive) ({ w with requests := w.requests.eraseIdx k }.sync O q alive)
  | loseRequest {k : ℕ} : Change w (.loseRequest k) { w with requests := w.requests.eraseIdx k }
  | resume {k : ℕ} {t : Waiter} {x : Seat D Ω} (ht : w.waiters[k]? = some t)
      (hx : w.seats[t.seat]? = some x) (hdone : t.roundDone < x.barrier.roundDone) :
      Change w (.resume k)
        ({ w with waiters := w.waiters.eraseIdx k }.respond t.id t.workerId x.barrier)
  | cancel {k : ℕ} : Change w (.cancel k) { w with waiters := w.waiters.eraseIdx k }
  | timeout {i : ℕ} {x : Seat D Ω} (hx : w.seats[i]? = some x) (htimer : x.barrier.timer = true) :
      Change w (.timeout i) (w.setBarrier i x (x.barrier.timeout O))
  /-- The worker waits for this answer. -/
  | store {k : ℕ} {a : SyncResponse D} {g : D} (ha : w.responses[k]? = some a)
      (hn : (w.worker a.workerId).client = .waiting a.id g) :
      Change w (.receive k) ({ w with responses := w.responses.eraseIdx k }.setWorker a.workerId
        { w.worker a.workerId with
          globalState := a.globalState, round := a.round, client := .training })
  /-- It has given the call up. -/
  | ignore {k : ℕ} {a : SyncResponse D} (ha : w.responses[k]? = some a)
      (hn : ∀ g, (w.worker a.workerId).client ≠ .waiting a.id g) :
      Change w (.receive k) { w with responses := w.responses.eraseIdx k }
  | loseResponse {k : ℕ} : Change w (.loseResponse k) { w with responses := w.responses.eraseIdx k }
  | fail {n : String} {id : ℕ} {g : D} (hn : (w.worker n).client = .waiting id g) :
      Change w (.fail n) (w.setWorker n { w.worker n with client := .syncing g })

variable {M : Membership} {O : Outer D Ω}

theorem step_change {w w' : World D Ω} {e : Event D} (h : w.step M O e = some w') :
    w.Change M O e w' := by
  cases e with
  | raft e =>
    obtain ⟨c, hc, rfl⟩ := Option.map_eq_some_iff.mp h
    exact .raft hc
  | train n g =>
    rw [step] at h
    split at h <;> cases h
    exact .train (by assumption)
  | send n =>
    rw [step] at h
    split at h <;> cases h
    exact .send (by assumption)
  | handle k alive =>
    obtain ⟨q, hq, rfl⟩ := Option.map_eq_some_iff.mp h
    exact .handle hq
  | loseRequest k =>
    cases h
    exact .loseRequest
  | resume k =>
    rw [step] at h
    split at h
    · cases h
    rename_i t ht
    split at h
    · cases h
    rename_i x hx
    obtain ⟨hdone, ⟨⟩⟩ := Option.ite_none_right_eq_some.mp h
    exact .resume ht hx hdone
  | cancel k =>
    cases h
    exact .cancel
  | timeout i =>
    rw [step] at h
    split at h
    · cases h
    rename_i x hx
    obtain ⟨htimer, ⟨⟩⟩ := Option.ite_none_right_eq_some.mp h
    exact .timeout hx htimer
  | receive k =>
    rw [step] at h
    split at h
    · cases h
    rename_i a ha
    dsimp only at h
    split at h
    · rename_i id g hn
      split at h <;> cases h
      · rename_i hid
        subst hid
        exact .store ha hn
      · rename_i hid
        refine .ignore ha fun g' hg => hid ?_
        rw [hn] at hg
        cases hg
        rfl
    · rename_i hn
      cases h
      exact .ignore ha fun g hg => hn a.id g hg
  | loseResponse k =>
    cases h
    exact .loseResponse
  | fail n =>
    rw [step] at h
    split at h <;> cases h
    exact .fail (by assumption)

end World

variable {D Ω : Type}

/-- The states that some run of the workers leads to. -/
def Reachable (M : Membership) (O : Outer D Ω) (w : World D Ω) : Prop :=
  ∃ globalState, Relation.ReflTransGen (Run.Step (World.step M O)) (World.init M globalState) w

/-- The states that runs lead to whose events all meet `ok`. -/
def ReachableWhere (M : Membership) (O : Outer D Ω) (ok : World D Ω → Event D → Prop)
    (w : World D Ω) : Prop :=
  ∃ globalState,
    Relation.ReflTransGen (Run.StepWhere (World.step M O) ok) (World.init M globalState) w

end Diloco
