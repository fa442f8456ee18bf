/-
What the waiters of a barrier are given (`RoundBarrier.submit`).

A waiter reads the fields of the barrier when it runs on, some steps after the close
that released it.  Another close may come in between: a submission that is ready, once
SWIM has fewer members alive, or a timer.  The waiter then has the number and the
state of that round, in which its gradient is not.

* `Loop.Own` — what calls returned is the result of the close that consumed their
  gradients; `Loop.Own.same` — so those of one close have returned the same;
* `Loop.Prompt` — no round closes before the waiters of the last one have run on;
* **`Loop.result_of_own_round`** — a run is prompt exactly if all calls have their own
  results, whichever waiter runs on next at any moment of it;
* `Loop.result_of_next_round` — a waiter that is overtaken.
-/
import Dssd.BarrierRounds

namespace Diloco

namespace Loop

variable {D Ω : Type} {O : Outer D Ω} {s s' : Loop D Ω}

/-- Each call that returned has number and state of the close that consumed its gradient. -/
def Own (s : Loop D Ω) : Prop :=
  ∀ c ∈ s.calls, ∀ r g, c.wait = .returned r g →
    ∃ close, s.closes[c.since]? = some close ∧ r = close.round ∧ g = close.globalState

/-- Calls that were consumed by one close return the same. -/
theorem Own.same (h : s.Own) {c c' : Call D} (hc : c ∈ s.calls) (hc' : c' ∈ s.calls)
    (hsince : c.since = c'.since) {r r' : ℕ} {g g' : D} (hr : c.wait = .returned r g)
    (hr' : c'.wait = .returned r' g') : r = r' ∧ g = g' := by
  obtain ⟨close, hk, rfl, rfl⟩ := h c hc r g hr
  obtain ⟨close', hk', rfl, rfl⟩ := h c' hc' r' g' hr'
  rw [hsince, hk'] at hk
  obtain rfl := Option.some.inj hk
  exact ⟨rfl, rfl⟩

/-- Some call has not run on since its event was set. -/
def Released (s : Loop D Ω) : Prop :=
  ∃ c ∈ s.calls, ∃ e, c.wait = .waiting e ∧ s.events[e]? = some true

/-- A step that closes a round finds all earlier waiters gone. -/
def Prompt (s : Loop D Ω) : LoopEvent D → Prop
  | .submit workerId pseudoGrad alive =>
    Barrier.complete alive (s.pending.set workerId pseudoGrad) → ¬ s.Released
  | .timeout _ => s.pending.items ≠ [] → ¬ s.Released
  | _ => True

/-- The waiters that are released, are so by the last close. -/
def Late (s : Loop D Ω) : Prop :=
  ∀ c ∈ s.calls, ∀ e, c.wait = .waiting e → s.events[e]? = some true → e + 1 = s.roundDone

/-- What holds along prompt runs. -/
structure Timely (s : Loop D Ω) : Prop where
  sound : s.Sound
  dated : s.Dated
  own : s.Own
  late : s.Late

theorem timely_create (globalState : D) (startRound : ℕ) :
    (create O globalState startRound).Timely :=
  ⟨sound_create globalState startRound, dated_create globalState startRound,
    (fun c h => by cases h), (fun c h => by cases h)⟩

/-- Calls that have returned are not touched by a close. -/
theorem Own.closeRound (h : s.Own) (timer : Option ℕ) : (s.closeRound O timer).Own := by
  intro c hc r g hr
  obtain ⟨close, hk, hrg⟩ := h c hc r g hr
  refine ⟨close, ?_, hrg⟩
  show (s.closes ++ [_])[c.since]? = some close
  rw [List.getElem?_append_left (List.getElem?_eq_some_iff.mp hk).1]
  exact hk

theorem Own.call (h : s.Own) {c : Call D} (hc : ∀ r g, c.wait = .returned r g →
      ∃ close, s.closes[c.since]? = some close ∧ r = close.round ∧ g = close.globalState) :
    (s.call c).Own := by
  intro c' hc'
  rcases List.mem_append.mp hc' with hc' | hc'
  · exact h c' hc'
  · obtain rfl := List.mem_singleton.mp hc'
    exact hc

theorem Own.setCall (h : s.Own) {j : ℕ} {c : Call D} (hc : ∀ r g, c.wait = .returned r g →
      ∃ close, s.closes[c.since]? = some close ∧ r = close.round ∧ g = close.globalState) :
    Own { s with calls := s.calls.set j c } := by
  intro c' hc'
  rcases List.mem_or_eq_of_mem_set hc' with hc' | rfl
  · exact h c' hc'
  · exact hc

theorem Own.arm (h : s.Own) : s.arm.Own := by
  unfold Loop.arm
  split
  · exact h
  · exact h

/-- A released waiter runs on with what its own close has left. -/
theorem Timely.step_own {e : LoopEvent D} (h : s.Timely) (he : s.step O e = some s') : s'.Own := by
  cases moves h.sound he with
  | @close workerId pseudoGrad alive hc =>
    refine Own.call (Own.closeRound (s := s.take workerId pseudoGrad) h.own none) fun r g hr => ?_
    injection hr with hr hg
    exact ⟨_, List.getElem?_concat_length, hr.symm, hg.symm⟩
  | @wait workerId pseudoGrad alive hc =>
    refine Own.call (Own.arm (s := s.take workerId pseudoGrad) h.own) fun r g hr => ?_
    cases hr
  | @resume j c e hc hw hset =>
    refine h.own.setCall fun r g hr => ?_
    have hmem := List.mem_of_getElem? hc
    have hlast := h.late c hmem e hw hset
    rw [h.dated.roundDone] at hlast
    obtain ⟨close, hclose, hround, hstate⟩ := h.dated.last e hlast.symm
    injection hr with hr hg
    refine ⟨close, ?_, hr ▸ hround, hg ▸ hstate⟩
    show s.closes[c.since]? = some close
    rw [h.dated.since c hmem e hw]
    exact hclose
  | cancel hc hw => exact h.own.setCall fun r g hr => by cases hr
  | @timeout i t ht hn => exact Own.closeRound (s := s.wake i t) h.own _

/-- A close releases the waiters of its round, if no others are there. -/
theorem late_closeRound (hc : s.Core) (hgone : ¬ s.Released) (timer : Option ℕ) :
    (s.closeRound O timer).Late := by
  intro c hcall e hw _
  have hle := hc.waiting c hcall e hw
  have hnot : ¬ e < s.roundDone := fun hlt => hgone ⟨c, hcall, e, hw, hc.older e hlt⟩
  show e + 1 = s.events.length
  rw [hc.length]
  omega

theorem Late.call (h : s.Late) {c : Call D}
    (hc : ∀ e, c.wait = .waiting e → s.events[e]? = some true → e + 1 = s.roundDone) :
    (s.call c).Late := by
  intro c' hc'
  rcases List.mem_append.mp hc' with hc' | hc'
  · exact h c' hc'
  · obtain rfl := List.mem_singleton.mp hc'
    exact hc

theorem Late.setCall (h : s.Late) {j : ℕ} {c : Call D} (hc : ∀ e, c.wait ≠ .waiting e) :
    Late { s with calls := s.calls.set j c } := by
  intro c' hc' e he
  rcases List.mem_or_eq_of_mem_set hc' with hc' | rfl
  · exact h c' hc' e he
  · exact absurd he (hc e)

theorem Late.arm (h : s.Late) : s.arm.Late := by
  unfold Loop.arm
  split
  · exact h
  · exact h

theorem Timely.step {e : LoopEvent D} (h : s.Timely) (hp : s.Prompt e)
    (he : s.step O e = some s') : s'.Timely := by
  refine ⟨h.sound.step he, h.dated.step h.sound he, h.step_own he, ?_⟩
  cases moves h.sound he with
  | @close workerId pseudoGrad alive hc =>
    refine Late.call ?_ fun e he => by cases he
    exact late_closeRound (h.sound.toCore.take workerId pseudoGrad) (hp hc) none
  | @wait workerId pseudoGrad alive hc =>
    refine Late.call (Late.arm (s := s.take workerId pseudoGrad) h.late) fun e he hset => ?_
    injection he with he
    rw [arm_events, ← he] at hset
    exact absurd (hset.symm.trans h.sound.current) (by simp)
  | resume hc hw hset => exact h.late.setCall fun e he => by cases he
  | cancel hc hw => exact h.late.setCall fun e he => by cases he
  | @timeout i t ht hn =>
    have hpending : s.pending.items ≠ [] := by
      refine h.sound.pending.mpr ?_
      rw [(h.sound.asleep i t ht hn).1]
      exact Option.some_ne_none i
    exact late_closeRound (h.sound.wake ht hn) (hp hpending) _

/-- A waiter whose event is set can run on. -/
theorem exists_resume {i : ℕ} {c : Call D} {e : ℕ} (hc : s.calls[i]? = some c)
    (hw : c.wait = .waiting e) (hset : s.events[e]? = some true) :
    s.step O (.resume i) = some { s with calls := s.calls.set i (s.answer c) } := by
  obtain ⟨workerId, since, wait⟩ := c
  obtain rfl : wait = .waiting e := hw
  rw [step, hc]
  exact if_pos hset

/-- A waiter that a close overtakes would return the next round. -/
theorem overtaken (h : s.Timely) (hrel : s.Released) (hs' : s'.Sound)
    (hround : s'.round = s.round + 1) {close : Close D} (hcloses : s'.closes = s.closes ++ [close])
    (hcalls : ∃ l, s'.calls = s.calls ++ l) (hdone : s'.roundDone = s.roundDone + 1) :
    ∃ i, ¬ Run.Meets (step O) (fun s e => ∀ s', step O s e = some s' → s'.Own) s'
      [.resume i] := by
  obtain ⟨c, hmem, e, hw, hset⟩ := hrel
  obtain ⟨i, hi, rfl⟩ := List.mem_iff_getElem.mp hmem
  obtain ⟨l, hl⟩ := hcalls
  have hcall : s'.calls[i]? = some s.calls[i] := by
    rw [hl, List.getElem?_append_left hi]
    exact List.getElem?_eq_getElem hi
  have hlate := h.late _ hmem e hw hset
  have hstep := exists_resume (O := O) hcall hw (hs'.older e (by omega))
  refine ⟨i, fun hmeets => ?_⟩
  have hown := (hmeets _ hstep).1 _ hstep
  have hin : s'.answer s.calls[i] ∈ s'.calls.set i (s'.answer s.calls[i]) :=
    List.mem_set (List.getElem?_eq_some_iff.mp hcall).1 _
  obtain ⟨own, hk, hr, -⟩ := hown _ hin _ _ rfl
  -- its own close is the one before
  replace hk : s'.closes[s.calls[i].since]? = some own := hk
  have hlen : s.closes.length = e + 1 := by rw [← h.dated.roundDone, hlate]
  rw [h.dated.since _ hmem e hw, hcloses, List.getElem?_append_left (by omega)] at hk
  obtain ⟨last, hlast, hlround, -⟩ := h.dated.last e hlen
  rw [hlast] at hk
  obtain rfl := Option.some.inj hk
  omega

/-- After a step that was not prompt, a waiter would return the wrong round. -/
theorem Timely.probed {e : LoopEvent D} (h : s.Timely) (hp : ¬ s.Prompt e)
    (he : s.step O e = some s') :
    ∃ i, ¬ Run.Meets (Loop.step O) (fun s e => ∀ s', Loop.step O s e = some s' → s'.Own) s'
      [.resume i] := by
  have hs' := h.sound.step he
  cases moves h.sound he with
  | @close workerId pseudoGrad alive hc =>
    have hrel : s.Released := by
      by_contra hnot
      exact hp fun _ => hnot
    exact overtaken h hrel hs' rfl rfl ⟨_, rfl⟩ h.sound.length
  | @wait workerId pseudoGrad alive hc => exact absurd (fun hc' => absurd hc' hc) hp
  | resume hc hw hset => exact absurd trivial hp
  | cancel hc hw => exact absurd trivial hp
  | @timeout i t ht hn =>
    have hrel : s.Released := by
      by_contra hnot
      exact hp fun _ => hnot
    exact overtaken h hrel hs' rfl rfl ⟨[], (List.append_nil _).symm⟩ h.sound.length

/-- **A worker gets the result of its own round**, in every state of a run and however waiters run
on from any moment of it, exactly if no round of the run closes while a waiter that an earlier close
released has yet to run on. -/
theorem result_of_own_round (O : Outer D Ω) (globalState : D) (startRound : ℕ)
    (es : List (LoopEvent D)) :
    Run.Meets (step O) Prompt (create O globalState startRound) es ↔
      ∀ before resumes : List (LoopEvent D), before <+: es → (∀ e ∈ resumes, ∃ i, e = .resume i) →
        Run.Always (step O) Own (create O globalState startRound) (before ++ resumes) := by
  have hcreate := timely_create (O := O) globalState startRound
  simp only [Run.always_iff_head_meets, hcreate.own, true_and]
  refine Run.meets_iff_quiet (fun s e s' he (h : Timely s) hp => h.step hp he)
    (fun s e h _ s' he => h.step_own he) (fun s e he => ?_) (fun s e s' he h hp _ => ?_) hcreate es
  · obtain ⟨i, rfl⟩ := he
    trivial
  · obtain ⟨i, hi⟩ := h.probed hp he
    exact ⟨[.resume i], fun e he => ⟨i, List.mem_singleton.mp he⟩, hi⟩

/-- The timer closes a round with the gradient of `a`.  Before `a` runs on, `b` submits, when SWIM
has nobody else alive, and closes the next one: `a` returns that. -/
theorem result_of_next_round : ¬ ∀ (D Ω : Type) (O : Outer D Ω) (globalState : D) (startRound : ℕ)
    (es : List (LoopEvent D)), Run.Always (step O) Own (create O globalState startRound) es := by
  intro h
  have hrun := h _ _ (outerOptimizer plainSgd ()) (fun _ _ => 0) 0
    [.submit "a" (fun _ _ => 1) ["a", "b"], .timeout 0, .submit "b" (fun _ _ => 2) ["b"], .resume 0]
  have hown := ((((hrun.2 _ rfl).2 _ rfl).2 _ rfl).2 _ rfl).head
  obtain ⟨close, hclose, hround, -⟩ := hown _ List.mem_cons_self _ _ rfl
  -- the gradient of `a` was consumed by the first close
  obtain rfl := Option.some.inj hclose
  exact absurd hround (by decide)

end Loop

end Diloco
