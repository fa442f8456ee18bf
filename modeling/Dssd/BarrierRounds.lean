/-
What enters the rounds of a barrier (`diloco/barrier.py`, `diloco/outer.py`).

State dicts are families of rational tensors over the keys of the global state, and
`torch.optim.SGD` is a step function of parameters, momentum and gradient.

* `StateDict`, `averagePseudoGradients`, `outerOptimizer`;
* `lastOf`, `workers`, `mean`, `after` — what rounds are for: each applies the outer
  step to the mean of the last gradients of the workers that submitted in it;
* `average_eq_mean` — the mean does not see in which order they came;
* **`Loop.rounds_partition`** — the closed rounds and the open one split up the
  submissions, and numbers, states and answers are those of the rounds.
-/
import Mathlib.Algebra.BigOperators.Group.Finset.Basic
import Mathlib.Algebra.Field.Rat
import Dssd.BarrierLoop

namespace Diloco

/-- A tensor for each key, flattened. -/
abbrev StateDict (K : Type) (size : K → ℕ) : Type := (k : K) → Fin (size k) → ℚ

section Rounds

variable {K M : Type} {size : K → ℕ}

/-- `average_pseudo_gradients(pseudo_grads)` -/
def averagePseudoGradients (pseudoGrads : List (StateDict K size)) : StateDict K size :=
  fun k i => (pseudoGrads.map fun g => g k i).sum / pseudoGrads.length

/-- An `OuterOptimizer`: its parameters and the momentum buffer of `torch.optim.SGD`. -/
def outerOptimizer (sgd : StateDict K size × M → StateDict K size → StateDict K size × M)
    (momentum : M) : Outer (StateDict K size) (StateDict K size × M) where
  average := averagePseudoGradients
  create globalState := (globalState, momentum)
  step params grad := (sgd params grad, (sgd params grad).1)

/-! ### Rounds -/

/-- The workers that submitted. -/
def workers (submissions : List (String × StateDict K size)) : Finset String :=
  (submissions.map Prod.fst).toFinset

/-- The last gradient of a worker, if it submitted. -/
def lastOf? (submissions : List (String × StateDict K size)) (w : String) :
    Option (StateDict K size) :=
  ((submissions.filter fun x => x.1 = w).getLast?).map Prod.snd

/-- The last gradient of a worker. -/
def lastOf (submissions : List (String × StateDict K size)) (w : String) : StateDict K size :=
  (lastOf? submissions w).getD fun _ _ => 0

/-- The mean over some workers. -/
def mean (ws : Finset String) (gradient : String → StateDict K size) : StateDict K size :=
  fun k i => (∑ w ∈ ws, gradient w k i) / ws.card

/-- Parameters and momentum after rounds with these submissions. -/
def after (sgd : StateDict K size × M → StateDict K size → StateDict K size × M)
    (params : StateDict K size × M) (rounds : List (List (String × StateDict K size))) :
    StateDict K size × M :=
  rounds.foldl (fun params submissions =>
    sgd params (mean (workers submissions) (lastOf submissions))) params

/-- The `pending` dict of these submissions. -/
def Pends (pending : Dict (StateDict K size)) (submissions : List (String × StateDict K size)) :
    Prop := ∀ w, pending.get? w = lastOf? submissions w

variable {pending : Dict (StateDict K size)} {submissions : List (String × StateDict K size)}

theorem lastOf?_append (w w' : String) (g : StateDict K size) :
    lastOf? (submissions ++ [(w', g)]) w = if w = w' then some g else lastOf? submissions w := by
  unfold lastOf?
  rw [List.filter_append]
  by_cases hw : w = w'
  · rw [if_pos hw, List.filter_cons_of_pos (by simp [hw]), List.filter_nil, List.getLast?_concat]
    rfl
  · rw [if_neg hw, List.filter_cons_of_neg (by simp [Ne.symm hw]), List.filter_nil,
      List.append_nil]

theorem Pends.set (h : Pends pending submissions) (w : String) (g : StateDict K size) :
    Pends (pending.set w g) (submissions ++ [(w, g)]) := by
  intro w'
  rw [Dict.get?_set, lastOf?_append, h w']

theorem mem_workers_iff {w : String} : w ∈ workers submissions ↔ lastOf? submissions w ≠ none := by
  unfold lastOf? workers
  rw [List.mem_toFinset, List.mem_map, ne_eq, Option.map_eq_none_iff, List.getLast?_eq_none_iff,
    List.filter_eq_nil_iff]
  push Not
  simp

/-- The workers are the keys of the dict. -/
theorem Pends.keys (h : Pends pending submissions) :
    (pending.items.map Prod.fst).toFinset = workers submissions := by
  ext w
  rw [mem_workers_iff, ← h w, List.mem_toFinset, List.mem_map]
  constructor
  · rintro ⟨p, hp, rfl⟩ hnone
    rw [Dict.get?_eq_some_iff.mpr hp] at hnone
    cases hnone
  · intro hne
    obtain ⟨g, hg⟩ := Option.ne_none_iff_exists'.mp hne
    exact ⟨(w, g), Dict.get?_eq_some_iff.mp hg, rfl⟩

/-- **The average of the pending gradients is the mean of the last ones**, whatever the order in
which they came. -/
theorem average_eq_mean (h : Pends pending submissions) : averagePseudoGradients pending.values =
    mean (workers submissions) (lastOf submissions) := by
  funext k i
  have hsum : (pending.values.map fun g => g k i).sum =
      ∑ w ∈ workers submissions, lastOf submissions w k i := by
    rw [← h.keys, List.sum_toFinset _ pending.nodup, Dict.values, List.map_map, List.map_map]
    refine congrArg List.sum (List.map_congr_left fun p hp => ?_)
    show p.2 k i = (lastOf? submissions p.1).getD _ k i
    rw [← h p.1, Dict.get?_eq_some_iff.mpr hp]
    rfl
  have hcard : (workers submissions).card = pending.values.length := by
    rw [← h.keys, List.toFinset_card_of_nodup pending.nodup, Dict.values, List.length_map,
      List.length_map]
  show (pending.values.map fun g => g k i).sum / (pending.values.length : ℚ) = _ / _
  rw [hsum, hcard]

theorem after_concat (sgd : StateDict K size × M → StateDict K size → StateDict K size × M)
    (params : StateDict K size × M) (rounds : List (List (String × StateDict K size)))
    (submissions : List (String × StateDict K size)) : after sgd params (rounds ++ [submissions]) =
      sgd (after sgd params rounds) (mean (workers submissions) (lastOf submissions)) := by
  unfold after
  rw [List.foldl_append]
  rfl

end Rounds

namespace Loop

/-! ### Runs -/

section History

variable {D Ω : Type}

/-- The submissions, split up by the closes; the last part is the open round. -/
def segments (s : Loop D Ω) : List (List (String × D)) :=
  s.closes.map Close.submissions ++ [s.submissions]

/-- Worker and segment of each submission. -/
def places (segments : List (List (String × D))) : List (String × ℕ) :=
  segments.zipIdx.flatMap fun p => p.1.map fun x => (x.1, p.2)

/-- The submissions of some events. -/
def submitted (es : List (LoopEvent D)) : List (String × D) :=
  es.filterMap fun
    | .submit workerId pseudoGrad _ => some (workerId, pseudoGrad)
    | _ => none

theorem segments_closeRound {O : Outer D Ω} (s : Loop D Ω) (timer : Option ℕ) :
    (s.closeRound O timer).segments = s.segments ++ [[]] := by
  unfold segments
  show (s.closes ++ [_]).map _ ++ [[]] = _
  rw [List.map_append]
  rfl

theorem segments_arm (s : Loop D Ω) : s.arm.segments = s.segments := by
  unfold arm
  split <;> rfl

theorem calls_arm (s : Loop D Ω) : s.arm.calls = s.calls := by
  unfold arm
  split <;> rfl

theorem places_concat (segs : List (List (String × D))) (l : List (String × D)) :
    places (segs ++ [l]) = places segs ++ l.map fun x => (x.1, segs.length) := by
  unfold places
  rw [List.zipIdx_append, List.flatMap_append]
  simp

variable {O : Outer D Ω} {s s' : Loop D Ω}

/-- Each call is in the round that was open when it was made. -/
def Placed (s : Loop D Ω) : Prop :=
  places s.segments = s.calls.map fun c => (c.workerId, c.since)

theorem Placed.take_call (h : s.Placed) (workerId : String) (pseudoGrad : D) (wait : Wait D) :
    places (s.take workerId pseudoGrad).segments =
      List.map (fun c : Call D => (c.workerId, c.since))
        (s.calls ++ [⟨workerId, s.closes.length, wait⟩]) := by
  have hold : places (s.closes.map Close.submissions) ++
      s.submissions.map (fun x => (x.1, s.closes.length)) =
        s.calls.map fun c => (c.workerId, c.since) := by
    rw [← h, segments, places_concat, List.length_map]
  show places (s.closes.map Close.submissions ++ [s.submissions ++ [(workerId, pseudoGrad)]]) = _
  rw [places_concat, List.length_map, List.map_append, ← List.append_assoc, hold, List.map_append]
  rfl

/-- A change of what a call waits for. -/
theorem Placed.setCall (h : s.Placed) {j : ℕ} {c : Call D} (hc : s.calls[j]? = some c)
    (wait : Wait D) : Placed { s with calls := s.calls.set j { c with wait } } := by
  unfold Placed at h ⊢
  show places s.segments = (s.calls.set j { c with wait }).map _
  rw [h, List.map_set]
  obtain ⟨hj, rfl⟩ := List.getElem?_eq_some_iff.mp hc
  have hself := @List.set_getElem_self _ (s.calls.map fun c => (c.workerId, c.since)) j
    (by rw [List.length_map]; exact hj)
  rw [List.getElem_map] at hself
  exact hself.symm

theorem Placed.step {e : LoopEvent D} (hs : s.Sound) (h : s.Placed) (he : s.step O e = some s') :
    s'.Placed := by
  cases moves hs he with
  | @close workerId pseudoGrad alive hc =>
    show places ((s.take workerId pseudoGrad).closeRound O none).segments = _
    rw [segments_closeRound, places_concat, List.map_nil, List.append_nil]
    exact h.take_call workerId pseudoGrad _
  | @wait workerId pseudoGrad alive hc =>
    show places (s.take workerId pseudoGrad).arm.segments =
      ((s.take workerId pseudoGrad).arm.calls ++ [_]).map _
    rw [segments_arm, calls_arm]
    exact h.take_call workerId pseudoGrad _
  | resume hc hw hset => exact h.setCall hc _
  | cancel hc hw => exact h.setCall hc _
  | @timeout i t ht hn =>
    show places ((s.wake i t).closeRound O _).segments = _
    rw [segments_closeRound, places_concat, List.map_nil, List.append_nil]
    exact h

/-- A step puts its submission, if it is one, into the round that is open. -/
theorem flatten_segments {e : LoopEvent D} (hs : s.Sound) (he : s.step O e = some s') :
    s'.segments.flatten = s.segments.flatten ++ submitted [e] := by
  have htake : ∀ workerId pseudoGrad, (s.take workerId pseudoGrad).segments.flatten =
      s.segments.flatten ++ [(workerId, pseudoGrad)] := by
    intro workerId pseudoGrad
    unfold segments
    show (s.closes.map _ ++ [s.submissions ++ [_]]).flatten = _
    simp
  cases moves hs he with
  | @close workerId pseudoGrad alive hc =>
    show ((s.take workerId pseudoGrad).closeRound O none).segments.flatten = _
    rw [segments_closeRound, List.flatten_concat, List.append_nil]
    exact htake workerId pseudoGrad
  | @wait workerId pseudoGrad alive hc =>
    show (s.take workerId pseudoGrad).arm.segments.flatten = _
    rw [segments_arm]
    exact htake workerId pseudoGrad
  | resume hc hw hset => exact (List.append_nil _).symm
  | cancel hc hw => exact (List.append_nil _).symm
  | @timeout i t ht hn =>
    show ((s.wake i t).closeRound O _).segments.flatten = _
    rw [segments_closeRound, List.flatten_concat, List.append_nil]
    exact (List.append_nil _).symm

end History

variable {K M : Type} {size : K → ℕ}
  (sgd : StateDict K size × M → StateDict K size → StateDict K size × M)
  (globalState : StateDict K size) (momentum : M) (startRound : ℕ)

/-- Numbers, states and answers are those of the rounds that the closes make of the submissions. -/
structure Tallied (s : Loop (StateDict K size) (StateDict K size × M)) : Prop where
  /-- The `k`-th close. -/
  closes : ∀ (k : ℕ) (c : Close (StateDict K size)), s.closes[k]? = some c →
    c.round = startRound + (k + 1) ∧ c.globalState =
      (after sgd (globalState, momentum) ((s.closes.take (k + 1)).map Close.submissions)).1
  /-- The present round and state. -/
  round : s.round = startRound + s.closes.length
  state : s.globalState =
    (after sgd (globalState, momentum) (s.closes.map Close.submissions)).1
  /-- What a call returned is the result of one of the closes since it was made. -/
  returned : ∀ c ∈ s.calls, ∀ r g, c.wait = .returned r g →
    ∃ (k : ℕ) (close : Close (StateDict K size)), c.since ≤ k ∧ s.closes[k]? = some close ∧
      r = close.round ∧ g = close.globalState

/-- With what is needed to keep it. -/
structure Kept (s : Loop (StateDict K size) (StateDict K size × M)) : Prop
    extends Tallied sgd globalState momentum startRound s where
  outer : s.outer = after sgd (globalState, momentum) (s.closes.map Close.submissions)
  pends : Pends s.pending s.submissions

variable {sgd globalState momentum startRound}
  {s s' : Loop (StateDict K size) (StateDict K size × M)}

theorem kept_create : Kept sgd globalState momentum startRound
    (create (outerOptimizer sgd momentum) globalState startRound) where
  closes k c h := by simp [create] at h
  round := rfl
  state := rfl
  returned c h := by cases h
  outer := rfl
  pends w := rfl

theorem Kept.take (h : Kept sgd globalState momentum startRound s) (workerId : String)
    (pseudoGrad : StateDict K size) :
    Kept sgd globalState momentum startRound (s.take workerId pseudoGrad) :=
  { h with pends := h.pends.set workerId pseudoGrad }

theorem Kept.arm (h : Kept sgd globalState momentum startRound s) :
    Kept sgd globalState momentum startRound s.arm := by
  unfold Loop.arm
  split
  · exact { h with }
  · exact h

theorem Kept.wake (h : Kept sgd globalState momentum startRound s) (i : ℕ) (t : Timer) :
    Kept sgd globalState momentum startRound (s.wake i t) :=
  { h with }

/-- A close is the next round. -/
theorem Kept.closeRound (h : Kept sgd globalState momentum startRound s) (timer : Option ℕ) :
    Kept sgd globalState momentum startRound
      (s.closeRound (outerOptimizer sgd momentum) timer) := by
  set close : Close (StateDict K size) := ⟨s.submissions, s.pending, timer, s.round + 1,
    (sgd s.outer (averagePseudoGradients s.pending.values)).1⟩ with hclose
  have hcloses :
      (s.closeRound (outerOptimizer sgd momentum) timer).closes = s.closes ++ [close] := rfl
  have hmap : (s.closes ++ [close]).map Close.submissions =
      s.closes.map Close.submissions ++ [s.submissions] := by
    rw [List.map_append]
    rfl
  -- the outer step is the one of the round
  have hstep : sgd s.outer (averagePseudoGradients s.pending.values) =
      after sgd (globalState, momentum) ((s.closes ++ [close]).map Close.submissions) := by
    rw [hmap, after_concat, ← h.outer, average_eq_mean h.pends]
  refine ⟨⟨fun k c hk => ?_, ?_, congrArg Prod.fst hstep, fun c hcall r g hr => ?_⟩, hstep,
    fun w => rfl⟩
  · rw [hcloses] at hk ⊢
    rcases Nat.lt_trichotomy k s.closes.length with hlt | rfl | hgt
    · rw [List.getElem?_append_left hlt] at hk
      rw [List.take_append_of_le_length hlt]
      exact h.closes k c hk
    · rw [List.getElem?_concat_length] at hk
      obtain rfl := Option.some.inj hk
      rw [List.take_of_length_le (by simp), ← hstep]
      exact ⟨congrArg (· + 1) h.round, rfl⟩
    · rw [List.getElem?_eq_none (by simp; omega)] at hk
      cases hk
  · show s.round + 1 = startRound + (s.closes ++ [close]).length
    rw [h.round, List.length_append]
    rfl
  · obtain ⟨k, cl, hle, hk, hrg⟩ := h.returned c hcall r g hr
    refine ⟨k, cl, hle, ?_, hrg⟩
    rw [hcloses, List.getElem?_append_left (List.getElem?_eq_some_iff.mp hk).1]
    exact hk

theorem Kept.call (h : Kept sgd globalState momentum startRound s) {c : Call (StateDict K size)}
    (hr : ∀ r g, c.wait = .returned r g → ∃ (k : ℕ) (close : Close (StateDict K size)),
      c.since ≤ k ∧ s.closes[k]? = some close ∧ r = close.round ∧ g = close.globalState) :
    Kept sgd globalState momentum startRound (s.call c) :=
  { h with
    returned := by
      intro c' hc'
      rcases List.mem_append.mp hc' with hc' | hc'
      · exact h.returned c' hc'
      · obtain rfl := List.mem_singleton.mp hc'
        exact hr }

theorem Kept.setCall (h : Kept sgd globalState momentum startRound s) {j : ℕ}
    {c : Call (StateDict K size)}
    (hr : ∀ r g, c.wait = .returned r g → ∃ (k : ℕ) (close : Close (StateDict K size)),
      c.since ≤ k ∧ s.closes[k]? = some close ∧ r = close.round ∧ g = close.globalState) :
    Kept sgd globalState momentum startRound { s with calls := s.calls.set j c } :=
  { h with
    returned := by
      intro c' hc'
      rcases List.mem_or_eq_of_mem_set hc' with hc' | rfl
      · exact h.returned c' hc'
      · exact hr }

theorem Kept.step {e : LoopEvent (StateDict K size)} (hs : s.Sound) (hd : s.Dated)
    (h : Kept sgd globalState momentum startRound s)
    (he : s.step (outerOptimizer sgd momentum) e = some s') :
    Kept sgd globalState momentum startRound s' := by
  cases moves hs he with
  | @close workerId pseudoGrad alive hc =>
    refine ((h.take workerId pseudoGrad).closeRound none).call fun r g hr => ?_
    -- the call returns what its own close has made
    injection hr with hr hg
    exact ⟨s.closes.length, _, Nat.le_refl _, List.getElem?_concat_length, hr.symm, hg.symm⟩
  | @wait workerId pseudoGrad alive hc =>
    exact (h.take workerId pseudoGrad).arm.call fun r g hr => by cases hr
  | @resume j c e hc hw hset =>
    refine h.setCall fun r g hr => ?_
    -- an event that is set is the one of a closed round
    have hlt := hd.since_lt hs (List.mem_of_getElem? hc) hw hset
    obtain ⟨close, hclose, hround, hstate⟩ := hd.last (s.closes.length - 1) (by omega)
    injection hr with hr hg
    refine ⟨s.closes.length - 1, close, ?_, hclose, hr ▸ hround, hg ▸ hstate⟩
    show c.since ≤ _
    omega
  | cancel hc hw => exact h.setCall fun r g hr => by cases hr
  | @timeout i t ht hn => exact (h.wake i t).closeRound _

/-- What a run leaves. -/
theorem exec_partition {es : List (LoopEvent (StateDict K size))} (hs : s.Sound) (hd : s.Dated)
    (h : Kept sgd globalState momentum startRound s) (hp : s.Placed)
    (he : Run.exec (step (outerOptimizer sgd momentum)) s es = some s') :
    Kept sgd globalState momentum startRound s' ∧ s'.Placed ∧
      s'.segments.flatten = s.segments.flatten ++ submitted es := by
  induction es generalizing s with
  | nil =>
    obtain rfl : s = s' := by simpa [Run.exec] using he
    exact ⟨h, hp, (List.append_nil _).symm⟩
  | cons e es ih =>
    obtain ⟨s₁, h₁, h₂⟩ := Option.bind_eq_some_iff.mp he
    obtain ⟨hk, hpl, hflat⟩ := ih (hs.step h₁) (hd.step hs h₁) (h.step hs hd h₁) (hp.step hs h₁) h₂
    refine ⟨hk, hpl, ?_⟩
    rw [hflat, flatten_segments hs h₁, List.append_assoc]
    congr 1
    exact (List.filterMap_append (l := [e])).symm

/-- The rounds of a run: its submissions in order, each call in its place, and the rest. -/
structure Partitioned (sgd : StateDict K size × M → StateDict K size → StateDict K size × M)
    (globalState : StateDict K size) (momentum : M) (startRound : ℕ)
    (es : List (LoopEvent (StateDict K size)))
    (s : Loop (StateDict K size) (StateDict K size × M)) : Prop
    extends Tallied sgd globalState momentum startRound s where
  segments : s.segments.flatten = submitted es
  placed : s.Placed

/-- **Rounds partition the submissions.**  Along every run the closes split the submissions up into
rounds; the `k`-th close has number `start_round + k` and the state after the `k`-th outer step,
each step being by the mean of the last gradients of the workers of its round; and what a call
returns is number and state of one of the closes, not before the one of the round that it submitted
in. -/
theorem rounds_partition (sgd : StateDict K size × M → StateDict K size → StateDict K size × M)
    (globalState : StateDict K size) (momentum : M) (startRound : ℕ)
    {es : List (LoopEvent (StateDict K size))}
    {s : Loop (StateDict K size) (StateDict K size × M)}
    (h : Run.exec (step (outerOptimizer sgd momentum))
      (create (outerOptimizer sgd momentum) globalState startRound) es = some s) :
    Partitioned sgd globalState momentum startRound es s := by
  obtain ⟨hk, hp, hflat⟩ := exec_partition (sound_create globalState startRound)
    (dated_create globalState startRound) kept_create (by rfl) h
  exact { hk.toTallied with segments := hflat, placed := hp }

/-- Plain subtraction of the gradient, as with `lr=1` and no momentum. -/
def plainSgd (params : StateDict Unit (fun _ => 1) × Unit) (grad : StateDict Unit fun _ => 1) :
    StateDict Unit (fun _ => 1) × Unit := (fun k i => params.1 k i - grad k i, ())

/-- Two workers, one of which submits again before the round closes; then a round of one. -/
def twoRounds : List (LoopEvent (StateDict Unit fun _ => 1)) :=
  [.submit "a" (fun _ _ => 1) ["a", "b"], .submit "a" (fun _ _ => 2) ["a", "b"],
    .submit "b" (fun _ _ => 4) ["a", "b"], .resume 0, .submit "b" (fun _ _ => 7) ["a", "b"],
    .timeout 1, .resume 1, .resume 3]

theorem rounds_partition_two : ∃ s, Run.exec (step (outerOptimizer plainSgd ()))
    (create (outerOptimizer plainSgd ()) (fun _ _ => 0) 3) twoRounds = some s ∧
      s.closes.map (fun c => (c.round, c.globalState () 0)) = [(4, -3), (5, -10)] ∧
      Partitioned plainSgd (fun _ _ => 0) () 3 twoRounds s := by
  refine ⟨_, rfl, by decide +kernel, rounds_partition plainSgd (fun _ _ => 0) () 3 rfl⟩

end Loop

end Diloco
