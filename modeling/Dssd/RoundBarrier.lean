/-
The barrier of one DiLoCo leader (`diloco/barrier.py`).

State dicts are values of a type `D`.  What torch computes is a parameter: an
`Outer D Ω` has the mean of pseudo-gradients (`average_pseudo_gradients`) and the
outer optimizer, with its parameters and momentum in a value of type `Ω`.

`_round_done` is the number of the event, which is set as soon as a later one is
there; the timer task is there or not, since a round that closes cancels it.
-/
import Dssd.Dict

namespace Diloco

/-- `average_pseudo_gradients`, `OuterOptimizer(global_state)` and `OuterOptimizer.step`. -/
structure Outer (D Ω : Type) where
  average : List D → D
  create : D → Ω
  step : Ω → D → Ω × D

/-- A `RoundBarrier`. -/
structure Barrier (D Ω : Type) where
  outer : Ω
  globalState : D
  round : ℕ
  pending : Dict D
  timer : Bool
  roundDone : ℕ

namespace Barrier

variable {D Ω : Type} (O : Outer D Ω)

/-- `RoundBarrier(alive_members, global_state, start_round=start_round)` -/
def create (globalState : D) (startRound : ℕ) : Barrier D Ω where
  outer := O.create globalState
  globalState := globalState
  round := startRound
  pending := Dict.empty
  timer := false
  roundDone := 0

/-- `_finish_round()` -/
def finishRound (b : Barrier D Ω) : Barrier D Ω :=
  let (outer, globalState) := O.step b.outer (O.average (b.pending.items.map Prod.snd))
  { outer := outer
    globalState := globalState
    round := b.round + 1
    pending := Dict.empty
    timer := false
    roundDone := b.roundDone + 1 }

/-- `set(alive_members) <= pending.keys()` -/
def complete (alive : List String) (pending : Dict D) : Prop :=
  ∀ m ∈ alive, (pending.get? m).isSome = true

instance (alive : List String) (pending : Dict D) : Decidable (complete alive pending) := by
  unfold complete
  infer_instance

/-- `submit(worker_id, pseudo_grad)` up to its `await`; `alive` is what SWIM says. -/
def submit (b : Barrier D Ω) (alive : List String) (workerId : String) (pseudoGrad : D) :
    Barrier D Ω :=
  let b := { b with pending := b.pending.set workerId pseudoGrad }
  if complete alive b.pending then b.finishRound O else { b with timer := true }

/-- `_finish_after_timeout()`, once it has slept. -/
def timeout (b : Barrier D Ω) : Barrier D Ω :=
  let b := { b with timer := false }
  if b.pending.items ≠ [] then b.finishRound O else b

end Barrier

end Diloco
