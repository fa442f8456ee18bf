/-
Training never goes back (`Worker._outer_sync`).

* `World.stored` — the round numbers that one worker stores during a run;
* `World.KeepsUp` — a leader that serves a `Sync` of this worker does so with a barrier
  that is not behind the worker;
* `Pace` — the invariant: what a worker still waits for will bring it forward;
* `training_never_goes_back` — in runs that keep up the stored rounds increase, and
  where a step does not keep up the run can go on so that they do not;
  `training_goes_back` — an election won by a worker that has missed a round.
-/
import Dssd.DilocoRounds

open Function (update)

namespace Diloco

open Raft (Cluster Membership)

variable {D Ω : Type} {M : Membership} {O : Outer D Ω} {n : String} {w w' : World D Ω}
  {e : Event D}

/-- The call whose answer is waited for. -/
def Client.call : Client D → Option ℕ
  | .waiting id _ => some id
  | _ => none

theorem Client.exists_of_call {c : Client D} {id : ℕ} (h : c.call = some id) :
    ∃ g, c = .waiting id g := by
  cases c with
  | waiting id' g => exact ⟨g, by rw [Option.some_inj.mp h]⟩
  | training => cases h
  | syncing g => cases h

namespace World

/-- The round number that `n` stores from the `SyncResponse` it receives. -/
def storing (n : String) (w : World D Ω) : Event D → Option ℕ
  -- answers to calls that were given up are not stored
  | .receive k =>
    match w.responses[k]? with
    | none => none
    | some a =>
      if a.workerId = n ∧ (w.worker n).client.call = some a.id then some a.round else none
  | _ => none

theorem storing_receive {k : ℕ} {a : SyncResponse D} (ha : w.responses[k]? = some a) :
    w.storing n (.receive k) =
      if a.workerId = n ∧ (w.worker n).client.call = some a.id then some a.round else none := by
  show (match w.responses[k]? with | none => none | some a => _) = _
  rw [ha]

/-- The successive round numbers that `n` stores in the run of these events. -/
def stored (M : Membership) (O : Outer D Ω) (n : String) (w : World D Ω) (es : List (Event D)) :
    List ℕ :=
  Run.outputs (World.step M O) (World.storing n) w es

/-- The round of the barrier that the `Sync` will use. -/
def barrierRound (w : World D Ω) (q : SyncRequest D) : ℕ :=
  match (w.worker q.target).barrier with
  | none => (w.worker q.target).round
  | some (t, i) => if t ≠ q.term then (w.worker q.target).round
    else (w.seats[i]?).elim 0 fun x => x.barrier.round

/-- A leader that serves a `Sync` which `n` still waits for has a barrier that is not behind `n`. -/
def KeepsUp (n : String) (w : World D Ω) : Event D → Prop
  | .handle k _ => ∀ q ∈ w.requests[k]?, q.workerId = n → (w.worker n).client.call = some q.id →
      (w.raft.node q.target).state = (q.term, true) → (w.worker n).round ≤ w.barrierRound q
  | _ => True

instance : (w : World D Ω) → (e : Event D) → Decidable (w.KeepsUp n e)
  | _, .handle _ _ => by unfold KeepsUp; infer_instance
  | _, .raft _ | _, .train _ _ | _, .send _ | _, .loseRequest _ | _, .resume _ | _, .cancel _
  | _, .timeout _ | _, .receive _ | _, .loseResponse _ | _, .fail _ => .isTrue trivial

/-- A worker's barrier is one of all barriers. -/
def Seated (w : World D Ω) : Prop :=
  ∀ m t i, (w.worker m).barrier = some (t, i) → i < w.seats.length

/-! ### What `Sync` changes -/

/-- `Sync` finds the barrier of its term, or creates it, as `barrierRound` says. -/
theorem Seated.enter_spec (hseat : w.Seated) (q : SyncRequest D) :
    ∃ x, (w.enter O q.target q.term).1.seats[(w.enter O q.target q.term).2]? = some x ∧
      x.barrier.round = w.barrierRound q := by
  unfold enter barrierRound
  cases hb : (w.worker q.target).barrier with
  | none => exact ⟨_, List.getElem?_concat_length, rfl⟩
  | some p =>
    obtain ⟨t, i⟩ := p
    dsimp only
    -- a barrier of another term is replaced
    by_cases ht : t ≠ q.term
    · rw [if_pos ht, if_pos ht]
      exact ⟨_, List.getElem?_concat_length, rfl⟩
    · rw [if_neg ht, if_neg ht]
      have hi := List.getElem?_eq_getElem (hseat q.target t i hb)
      refine ⟨_, hi, ?_⟩
      rw [hi]
      rfl

/-- A new barrier is all that a worker gets from it. -/
theorem worker_createBarrier (w : World D Ω) (m : String) (term : ℕ) (n : String) :
    ((w.createBarrier O m term).worker n).round = (w.worker n).round ∧
      ((w.createBarrier O m term).worker n).client = (w.worker n).client := by
  show (update w.worker m _ n).round = _ ∧ (update w.worker m _ n).client = _
  by_cases hn : n = m
  · subst hn
    rw [Function.update_self]
    exact ⟨rfl, rfl⟩
  · rw [Function.update_of_ne hn]
    exact ⟨rfl, rfl⟩

theorem worker_enter (w : World D Ω) (m : String) (term : ℕ) (n : String) :
    ((w.enter O m term).1.worker n).round = (w.worker n).round ∧
      ((w.enter O m term).1.worker n).client = (w.worker n).client := by
  unfold enter
  split
  · exact w.worker_createBarrier m term n
  · split
    · exact w.worker_createBarrier m term n
    · exact ⟨rfl, rfl⟩

theorem nextCall_enter (w : World D Ω) (m : String) (term : ℕ) :
    (w.enter O m term).1.nextCall = w.nextCall := by
  unfold enter
  split
  · rfl
  · split <;> rfl

theorem worker_sync (w : World D Ω) (q : SyncRequest D) (alive : List String) (n : String) :
    ((w.sync O q alive).worker n).round = (w.worker n).round ∧
      ((w.sync O q alive).worker n).client = (w.worker n).client := by
  unfold sync
  split
  · exact ⟨rfl, rfl⟩
  · have h := w.worker_enter (O := O) q.target q.term n
    dsimp only
    split
    · exact h
    · split
      · exact h
      · exact h

end World

/-! ### Where barriers are -/

theorem seated_init (globalState : String → D) : (World.init (Ω := Ω) M globalState).Seated :=
  fun _ _ _ h => absurd h (by simp [World.init])

namespace World

theorem Seated.setWorker (h : w.Seated) {m : String} {r : Worker D}
    (hb : r.barrier = (w.worker m).barrier) : (w.setWorker m r).Seated := by
  intro j t i hbar
  replace hbar : (update w.worker m r j).barrier = some (t, i) := hbar
  by_cases hj : j = m
  · subst hj
    rw [Function.update_self, hb] at hbar
    exact h j t i hbar
  · rw [Function.update_of_ne hj] at hbar
    exact h j t i hbar

theorem Seated.setBarrier (h : w.Seated) (i : ℕ) (x : Seat D Ω) (b : Barrier D Ω) :
    (w.setBarrier i x b).Seated := by
  intro j t k hbar
  show k < (w.seats.set i _).length
  rw [List.length_set]
  exact h j t k hbar

theorem Seated.createBarrier (h : w.Seated) (m : String) (term : ℕ) :
    (w.createBarrier O m term).Seated := by
  intro j t i hbar
  have hlen : (w.createBarrier O m term).seats.length = w.seats.length + 1 := List.length_append
  rw [hlen]
  replace hbar : (update w.worker m _ j).barrier = some (t, i) := hbar
  by_cases hj : j = m
  · subst hj
    rw [Function.update_self] at hbar
    cases hbar
    exact Nat.lt_succ_self _
  · rw [Function.update_of_ne hj] at hbar
    exact Nat.lt_succ_of_lt (h j t i hbar)

theorem Seated.enter (h : w.Seated) (m : String) (term : ℕ) : (w.enter O m term).1.Seated := by
  unfold World.enter
  split
  · exact h.createBarrier m term
  · split
    · exact h.createBarrier m term
    · exact h

theorem Seated.step (h : w.Seated) (hs : w.step M O e = some w') : w'.Seated := by
  cases World.step_change hs with
  | train | store | fail => exact Seated.setWorker h rfl
  | send =>
    unfold call
    dsimp only
    split
    · exact h
    · exact h.setWorker rfl
  | @handle k alive q hq =>
    have h₁ : ({ w with requests := w.requests.eraseIdx k } : World D Ω).Seated := h
    unfold sync
    split
    · exact h₁
    · have h₂ := h₁.enter (O := O) q.target q.term
      dsimp only
      split
      · exact h₂
      · split <;> exact h₂.setBarrier _ _ _
  | timeout => exact h.setBarrier _ _ _
  | raft | loseRequest | resume | cancel | ignore | loseResponse => exact h

end World

/-! ### The invariant -/

/-- What `n` still waits for brings it forward: a handler waits in a barrier that will have passed
the round of `n` when the handler wakes up, and an answer on its way has a later round. -/
structure Pace (n : String) (w : World D Ω) : Prop where
  request : ∀ q ∈ w.requests, q.id < w.nextCall
  waiter : ∀ t ∈ w.waiters, t.id < w.nextCall ∧
    (t.workerId = n → (w.worker n).client.call = some t.id → ∃ x, w.seats[t.seat]? = some x ∧
      (w.worker n).round + x.barrier.roundDone ≤ x.barrier.round + t.roundDone)
  response : ∀ a ∈ w.responses, a.id < w.nextCall ∧
    (a.workerId = n → (w.worker n).client.call = some a.id → (w.worker n).round < a.round)

theorem pace_init (n : String) (globalState : String → D) :
    Pace n (World.init (Ω := Ω) M globalState) where
  request _ h := absurd h (by simp [World.init])
  waiter _ h := absurd h (by simp [World.init])
  response _ h := absurd h (by simp [World.init])

/-- Messages may go, and calls may be given up. -/
theorem Pace.frame (h : Pace n w) (hs : w'.seats = w.seats) (hn : w'.nextCall = w.nextCall)
    (hc : ∀ id, (w'.worker n).client.call = some id → (w.worker n).client.call = some id ∧
      (w'.worker n).round = (w.worker n).round)
    (hq : ∀ q ∈ w'.requests, q ∈ w.requests) (hw : ∀ t ∈ w'.waiters, t ∈ w.waiters)
    (ha : ∀ a ∈ w'.responses, a ∈ w.responses) : Pace n w' where
  request q hq' := hn ▸ h.request q (hq q hq')
  waiter t ht := by
    obtain ⟨hid, hseat⟩ := h.waiter t (hw t ht)
    rw [hn, hs]
    refine ⟨hid, fun hn hcall => ?_⟩
    obtain ⟨hcall, hround⟩ := hc t.id hcall
    rw [hround]
    exact hseat hn hcall
  response a ha' := by
    obtain ⟨hid, hlt⟩ := h.response a (ha a ha')
    rw [hn]
    refine ⟨hid, fun hn hcall => ?_⟩
    obtain ⟨hcall, hround⟩ := hc a.id hcall
    rw [hround]
    exact hlt hn hcall

/-- A worker goes on without waiting for an answer. -/
theorem Pace.setWorker (h : Pace n w) {m : String} {r : Worker D} (hc : r.client.call = none) :
    Pace n (w.setWorker m r) := by
  refine h.frame rfl rfl (fun id hcall => ?_) (fun _ => id) (fun _ => id) fun _ => id
  replace hcall : (update w.worker m r n).client.call = some id := hcall
  show _ ∧ (update w.worker m r n).round = _
  by_cases hn : n = m
  · subst hn
    rw [Function.update_self, hc] at hcall
    cases hcall
  · rw [Function.update_of_ne hn] at hcall ⊢
    exact ⟨hcall, rfl⟩

/-- A worker calls `Sync` under a number that no handler and no answer has. -/
theorem Pace.call (h : Pace n w) (m : String) (pseudoGrad : D) :
    Pace n (w.call M m pseudoGrad) := by
  unfold World.call
  dsimp only
  split
  · exact h
  -- `n` now waits for a new call
  have hcall : ∀ id < w.nextCall,
      (update w.worker m { w.worker m with client := .waiting w.nextCall pseudoGrad } n).client.call
        = some id → (w.worker n).client.call = some id ∧
      (update w.worker m { w.worker m with client := .waiting w.nextCall pseudoGrad } n).round =
        (w.worker n).round := by
    intro id hid hc
    by_cases hn : n = m
    · subst hn
      rw [Function.update_self] at hc
      exact absurd (Option.some_inj.mp hc) (Nat.ne_of_gt hid)
    · rw [Function.update_of_ne hn] at hc ⊢
      exact ⟨hc, rfl⟩
  -- the new number is beyond all that are on their way
  refine ⟨fun q hq => ?_, fun t ht => ?_, fun a ha => ?_⟩
  · rcases List.mem_append.mp hq with hq | hq
    · exact Nat.lt_succ_of_lt (h.request q hq)
    · rw [List.mem_singleton.mp hq]
      exact Nat.lt_succ_self _
  · obtain ⟨hid, hseat⟩ := h.waiter t ht
    refine ⟨Nat.lt_succ_of_lt hid, fun hn hc => ?_⟩
    obtain ⟨hc, hround⟩ := hcall t.id hid hc
    obtain ⟨x, hx, hle⟩ := hseat hn hc
    exact ⟨x, hx, (Nat.add_le_add_right hround.le _).trans hle⟩
  · obtain ⟨hid, hlt⟩ := h.response a ha
    refine ⟨Nat.lt_succ_of_lt hid, fun hn hc => ?_⟩
    obtain ⟨hc, hround⟩ := hcall a.id hid hc
    exact hround.trans_lt (hlt hn hc)

/-- A barrier moves: what it has before its next event does not change. -/
theorem Pace.setBarrier (h : Pace n w) {i : ℕ} {x : Seat D Ω} {b : Barrier D Ω}
    (hi : w.seats[i]? = some x) (hb : x.barrier.Moves b) : Pace n (w.setBarrier i x b) := by
  have hlt := Ledger.lt_length_of_getElem? hi
  refine ⟨h.request, fun t ht => ?_, h.response⟩
  obtain ⟨hid, hseat⟩ := h.waiter t ht
  refine ⟨hid, fun hn hcall => ?_⟩
  obtain ⟨y, hy, hle⟩ := hseat hn hcall
  show ∃ y', (w.seats.set i _)[t.seat]? = some y' ∧
    (w.worker n).round + y'.barrier.roundDone ≤ y'.barrier.round + t.roundDone
  -- a handler that waits in this barrier, or in another one
  by_cases hit : i = t.seat
  · subst hit
    obtain rfl := Option.some_inj.mp (hi.symm.trans hy)
    refine ⟨{ x with barrier := b }, List.getElem?_set_self hlt, ?_⟩
    show (w.worker n).round + b.roundDone ≤ b.round + t.roundDone
    -- the barrier stays in its round, or both counts go up
    rcases hb with ⟨hdone, hround, -⟩ | ⟨hdone, hround⟩ <;> omega
  · exact ⟨y, by rw [List.getElem?_set_ne hit, hy], hle⟩

theorem Pace.createBarrier (h : Pace n w) (m : String) (term : ℕ) :
    Pace n (w.createBarrier O m term) := by
  have hworker := w.worker_createBarrier (O := O) m term n
  refine ⟨h.request, fun t ht => ?_, fun a ha => ?_⟩
  · obtain ⟨hid, hseat⟩ := h.waiter t ht
    rw [hworker.1, hworker.2]
    refine ⟨hid, fun hn hcall => ?_⟩
    obtain ⟨x, hx, hle⟩ := hseat hn hcall
    exact ⟨x, (List.getElem?_append_left (Ledger.lt_length_of_getElem? hx)).trans hx, hle⟩
  · rw [hworker.1, hworker.2]
    exact h.response a ha

theorem Pace.enter (h : Pace n w) (m : String) (term : ℕ) : Pace n (w.enter O m term).1 := by
  unfold World.enter
  split
  · exact h.createBarrier m term
  · split
    · exact h.createBarrier m term
    · exact h

/-- A handler answers; if it is waited for, its barrier has passed the caller. -/
theorem Pace.respond (h : Pace n w) {id : ℕ} {workerId : String} {b : Barrier D Ω}
    (hid : id < w.nextCall) (hb : workerId = n → (w.worker n).client.call = some id →
      (w.worker n).round < b.round) : Pace n (w.respond id workerId b) := by
  refine ⟨h.request, h.waiter, fun a ha => ?_⟩
  rcases List.mem_append.mp ha with ha | ha
  · exact h.response a ha
  · rw [List.mem_singleton.mp ha]
    exact ⟨hid, hb⟩

theorem Pace.sync (h : Pace n w) (hseat : w.Seated) {q : SyncRequest D} {alive : List String}
    (hid : q.id < w.nextCall)
    (hok : q.workerId = n → (w.worker n).client.call = some q.id →
      (w.raft.node q.target).state = (q.term, true) → (w.worker n).round ≤ w.barrierRound q) :
    Pace n (w.sync O q alive) := by
  unfold World.sync
  split
  · exact h
  rename_i hstate
  obtain ⟨x, hi, hx⟩ := hseat.enter_spec (O := O) q
  have hworker := w.worker_enter (O := O) q.target q.term n
  have hnext : (w.enter O q.target q.term).1.nextCall = w.nextCall := w.nextCall_enter _ _
  dsimp only
  rw [hi]
  dsimp only
  have hm : x.barrier.Moves (x.barrier.submit O alive q.workerId q.pseudoGradient) :=
    Barrier.moves_submit
  have h₁ := (h.enter (O := O) q.target q.term).setBarrier hi hm
  -- this is where the step keeps up
  have hlag : q.workerId = n → ((w.enter O q.target q.term).1.worker n).client.call = some q.id →
      ((w.enter O q.target q.term).1.worker n).round ≤ x.barrier.round := by
    rw [hworker.1, hworker.2, hx]
    exact fun hn hcall => hok hn hcall (not_not.mp hstate)
  split
  · rename_i hdone
    refine ⟨h₁.request, fun t ht => ?_, h₁.response⟩
    rcases List.mem_append.mp ht with ht | ht
    · exact h₁.waiter t ht
    · rw [List.mem_singleton.mp ht]
      refine ⟨hnext ▸ hid, fun hn hcall => ?_⟩
      refine ⟨_, List.getElem?_set_self (Ledger.lt_length_of_getElem? hi), ?_⟩
      have := hlag hn hcall
      show _ + (x.barrier.submit O alive q.workerId q.pseudoGradient).roundDone ≤
        (x.barrier.submit O alive q.workerId q.pseudoGradient).round + _
      rcases hm with ⟨-, hround, -⟩ | ⟨hnew, -⟩
      · rw [hround]
        exact Nat.add_le_add_right this _
      · omega
  · rename_i hdone
    refine h₁.respond (hnext ▸ hid) fun hn hcall => ?_
    have := hlag hn hcall
    rcases hm with ⟨hsame, -⟩ | ⟨-, hround⟩
    · exact absurd hsame hdone
    · rw [hround]
      exact Nat.lt_succ_of_le this

/-- Steps that keep up keep the pace, one case for each event. -/
theorem Pace.step (h : Pace n w) (hseat : w.Seated) (hok : w.KeepsUp n e)
    (hs : w.step M O e = some w') : Pace n w' := by
  have hlose : ∀ {requests waiters responses}, (∀ q ∈ requests, q ∈ w.requests) →
      (∀ t ∈ waiters, t ∈ w.waiters) → (∀ a ∈ responses, a ∈ w.responses) →
        Pace n { w with requests, waiters, responses } := fun hq hw ha =>
    h.frame rfl rfl (fun _ hcall => ⟨hcall, rfl⟩) hq hw ha
  have hall : ∀ {α : Type} {l : List α}, ∀ x ∈ l, x ∈ l := fun _ => id
  cases World.step_change hs with
  | raft hc => exact h.frame rfl rfl (fun _ hcall => ⟨hcall, rfl⟩) hall hall hall
  | train | fail => exact h.setWorker rfl
  | send => exact h.call _ _
  | handle hq =>
    exact (hlose (fun _ => List.mem_of_mem_eraseIdx) hall hall).sync hseat
      (h.request _ (List.mem_of_getElem? hq)) (hok _ hq)
  | loseRequest => exact hlose (fun _ => List.mem_of_mem_eraseIdx) hall hall
  | @resume k t x ht hx hdone =>
    -- the event it has waited for is over, so its barrier is ahead
    obtain ⟨hid, hwait⟩ := h.waiter t (List.mem_of_getElem? ht)
    refine (hlose hall (fun _ => List.mem_of_mem_eraseIdx) hall).respond hid fun hn hcall => ?_
    obtain ⟨y, hy, hle⟩ := hwait hn hcall
    obtain rfl := Option.some_inj.mp (hx.symm.trans hy)
    show (w.worker n).round < x.barrier.round
    omega
  | cancel => exact hlose hall (fun _ => List.mem_of_mem_eraseIdx) hall
  | timeout hx => exact h.setBarrier hx Barrier.moves_timeout
  | store => exact (hlose hall hall fun _ => List.mem_of_mem_eraseIdx).setWorker rfl
  | ignore | loseResponse => exact hlose hall hall fun _ => List.mem_of_mem_eraseIdx

/-! ### What is stored -/

/-- The round of a worker is what it has stored last. -/
theorem round_step (hs : w.step M O e = some w') :
    (w'.worker n).round = (w.storing n e).getD (w.worker n).round := by
  have hset : ∀ {m : String} {r : Worker D}, r.round = (w.worker m).round →
      ((w.setWorker m r).worker n).round = (w.worker n).round := by
    intro m r hr
    show (update w.worker m r n).round = _
    by_cases hn : n = m
    · subst hn
      rw [Function.update_self, hr]
    · rw [Function.update_of_ne hn]
  cases World.step_change hs with
  | train | fail => exact hset rfl
  | send =>
    unfold World.call
    dsimp only
    split
    · rfl
    · exact hset rfl
  | handle hq => exact (World.worker_sync _ _ _ n).1
  | @store k a g ha hn =>
    rw [World.storing_receive ha]
    show (update w.worker a.workerId _ n).round = _
    by_cases hw : a.workerId = n
    · subst hw
      rw [Function.update_self, if_pos ⟨rfl, by rw [hn]; rfl⟩]
      rfl
    · rw [Function.update_of_ne (Ne.symm hw), if_neg fun h => hw h.1]
      rfl
  | @ignore k a ha hn =>
    rw [World.storing_receive ha, if_neg]
    · rfl
    · rintro ⟨rfl, hcall⟩
      obtain ⟨g, hg⟩ := Client.exists_of_call hcall
      exact hn g hg
  | raft | loseRequest | resume | cancel | timeout | loseResponse => rfl

/-- In a run from the start the round is the last one stored. -/
theorem round_of_exec {globalState : String → D} {es : List (Event D)}
    (h : Run.exec (World.step M O) (World.init M globalState) es = some w) :
    (w.worker n).round = (World.stored M O n (World.init M globalState) es).getLast?.getD 0 :=
  Run.getLast_outputs (m := fun w => (w.worker n).round) (fun _ _ _ => round_step) h

theorem stored_append {w₀ : World D Ω} {es es' : List (Event D)}
    (h : Run.exec (World.step M O) w₀ es = some w) (hs : w.step M O e = some w') :
    w₀.stored M O n (es ++ e :: es') =
      w₀.stored M O n es ++ ((w.storing n e).toList ++ w'.stored M O n es') := by
  rw [World.stored, Run.outputs_append h, Run.outputs_cons hs]
  rfl

/-- What `n` stores at the pace is later than what it has. -/
theorem Pace.lt_of_storing (h : Pace n w) {r : ℕ} (hr : w.storing n e = some r) :
    (w.worker n).round < r := by
  cases e with
  | receive k =>
    cases ha : w.responses[k]? with
    | none =>
      rw [World.storing, ha] at hr
      cases hr
    | some a =>
      rw [World.storing_receive ha] at hr
      obtain ⟨⟨hn, hcall⟩, hr⟩ := Option.ite_none_right_eq_some.mp hr
      rw [← Option.some_inj.mp hr]
      exact (h.response a (List.mem_of_getElem? ha)).2 hn hcall
  | _ => cases hr

/-- In a run that keeps up the stored rounds increase. -/
theorem stored_increasing {globalState : String → D} {es : List (Event D)}
    (h : Run.Meets (World.step M O) (World.KeepsUp n) (World.init M globalState) es) :
    (World.stored M O n (World.init M globalState) es).Pairwise (· < ·) := by
  -- what a worker starts with, round 0, is also below all that it stores
  have hall : (_ :: World.stored M O n (World.init M globalState) es).Pairwise (· < ·) :=
    Run.outputs_increasing (m := fun w => (w.worker n).round)
    (fun _ _ _ hs hok (hp : World.Seated _ ∧ Pace n _) => ⟨hp.1.step hs, hp.2.step hp.1 hok hs⟩)
    (fun _ _ _ hs hp r hr => ⟨hp.2.lt_of_storing hr, by rw [round_step hs, hr]; rfl⟩)
    (fun _ _ _ hs hr => by rw [round_step hs, hr]; rfl)
    ⟨seated_init globalState, pace_init n globalState⟩ h
  exact (List.pairwise_cons.mp hall).2

/-! ### Runs that do not keep up -/

/-- A call closes its round, or leaves it to the timer. -/
theorem Barrier.submit_cases (b : Barrier D Ω) (alive : List String) (workerId : String)
    (pseudoGrad : D) :
    ((b.submit O alive workerId pseudoGrad).roundDone = b.roundDone ∧
      (b.submit O alive workerId pseudoGrad).round = b.round ∧
      (b.submit O alive workerId pseudoGrad).timer = true ∧
      (b.submit O alive workerId pseudoGrad).pending.items ≠ []) ∨
    ((b.submit O alive workerId pseudoGrad).roundDone = b.roundDone + 1 ∧
      (b.submit O alive workerId pseudoGrad).round = b.round + 1) := by
  unfold submit
  dsimp only
  split
  · exact .inr ⟨rfl, rfl⟩
  · exact .inl ⟨rfl, rfl, rfl, b.pending.items_set_ne_nil _ _⟩

/-- An answer that is waited for can be received. -/
theorem exists_receive {k : ℕ} {a : SyncResponse D} (ha : w.responses[k]? = some a)
    (hcall : (w.worker a.workerId).client.call = some a.id) :
    w.stored M O a.workerId [.receive k] = [a.round] := by
  have hstep : ∃ w', w.step M O (.receive k) = some w' := by
    rw [World.step, ha]
    dsimp only
    split
    · split
      · exact ⟨_, rfl⟩
      · exact ⟨_, rfl⟩
    · exact ⟨_, rfl⟩
  obtain ⟨w', hs⟩ := hstep
  rw [World.stored, Run.outputs_cons hs, World.storing_receive ha, if_pos ⟨rfl, hcall⟩]
  rfl

/-- A handler whose round is over can wake up, and its answer be received. -/
theorem exists_resume {k : ℕ} {t : Waiter} {x : Seat D Ω} (ht : w.waiters[k]? = some t)
    (hx : w.seats[t.seat]? = some x) (hdone : t.roundDone < x.barrier.roundDone)
    (hcall : (w.worker t.workerId).client.call = some t.id) :
    ∃ es, w.stored M O t.workerId es = [x.barrier.round] := by
  have hs : w.step M O (.resume k) =
      some ({ w with waiters := w.waiters.eraseIdx k }.respond t.id t.workerId x.barrier) := by
    rw [World.step, ht]
    dsimp only
    rw [hx]
    exact if_pos hdone
  -- its answer is the last one on the wire
  refine ⟨[.resume k, .receive w.responses.length], ?_⟩
  rw [World.stored, Run.outputs_cons hs]
  exact exists_receive (a := ⟨t.id, t.workerId, x.barrier.round, x.barrier.globalState⟩)
    List.getElem?_concat_length hcall

/-- The timer of its barrier can end the wait of a handler. -/
theorem exists_timeout {k : ℕ} {t : Waiter} {x : Seat D Ω} (ht : w.waiters[k]? = some t)
    (hx : w.seats[t.seat]? = some x) (htimer : x.barrier.timer = true)
    (hpend : x.barrier.pending.items ≠ []) (hdone : t.roundDone = x.barrier.roundDone)
    (hcall : (w.worker t.workerId).client.call = some t.id) :
    ∃ es, w.stored M O t.workerId es = [x.barrier.round + 1] := by
  -- a timer closes a round in which somebody has submitted
  have hfinish : x.barrier.timeout O = ({ x.barrier with timer := false }).finishRound O :=
    if_pos hpend
  have hs : w.step M O (.timeout t.seat) = some (w.setBarrier t.seat x (x.barrier.timeout O)) := by
    rw [World.step, hx]
    exact if_pos htimer
  obtain ⟨es, hes⟩ := exists_resume (M := M) (O := O)
    (w := w.setBarrier t.seat x (x.barrier.timeout O)) ht
    (List.getElem?_set_self (Ledger.lt_length_of_getElem? hx))
    (by rw [hfinish]; exact hdone ▸ Nat.lt_succ_self _) hcall
  refine ⟨.timeout t.seat :: es, ?_⟩
  rw [World.stored, Run.outputs_cons hs]
  rw [hfinish] at hes ⊢
  exact hes

/-- A `Sync` that is served, and waited for, can end with the next round of its barrier. -/
theorem exists_sync (hseat : w.Seated) {q : SyncRequest D} (alive : List String)
    (hstate : (w.raft.node q.target).state = (q.term, true))
    (hcall : (w.worker q.workerId).client.call = some q.id) :
    ∃ es, (w.sync O q alive).stored M O q.workerId es = [w.barrierRound q + 1] := by
  obtain ⟨x, hi, hx⟩ := hseat.enter_spec (O := O) q
  have hworker := w.worker_enter (O := O) q.target q.term q.workerId
  rw [← hworker.2] at hcall
  unfold World.sync
  rw [if_neg (not_not.mpr hstate)]
  dsimp only
  rw [hi, ← hx]
  dsimp only
  -- the call waits for the timer, or was the last one to come
  rcases x.barrier.submit_cases (O := O) alive q.workerId q.pseudoGradient with
    ⟨hdone, hround, htimer, hpend⟩ | ⟨hdone, hround⟩
  · rw [if_pos hdone, ← hround]
    exact exists_timeout (t := ⟨q.id, q.workerId, _, _⟩)
      (x := { x with barrier := x.barrier.submit O alive q.workerId q.pseudoGradient })
      List.getElem?_concat_length (List.getElem?_set_self (Ledger.lt_length_of_getElem? hi))
      htimer hpend rfl hcall
  · rw [if_neg (by omega), ← hround]
    exact ⟨_, exists_receive (a := ⟨q.id, q.workerId, _, _⟩) List.getElem?_concat_length hcall⟩

/-- Where a step does not keep up, the run can go on so that `n` goes back. -/
theorem exists_stored_again {globalState : String → D} {es : List (Event D)}
    (hexec : Run.exec (World.step M O) (World.init M globalState) es = some w)
    (hlag : ¬ w.KeepsUp n e) : ∃ es',
      ¬ (World.stored M O n (World.init M globalState) (es ++ e :: es')).Pairwise (· < ·) := by
  cases e with
  | handle k alive =>
    simp only [World.KeepsUp, Option.mem_def, not_forall, not_le] at hlag
    obtain ⟨q, hq, rfl, hcall, hstate, hlt⟩ := hlag
    have hseat : w.Seated := Run.invariant (P := World.Seated) (fun _ _ ⟨_, hs⟩ h => h.step hs)
      (Run.steps_of_exec hexec) (seated_init globalState)
    set w₁ : World D Ω := { w with requests := w.requests.eraseIdx k }
    have hs : w.step M O (.handle k alive) = some (w₁.sync O q alive) :=
      Option.map_eq_some_iff.mpr ⟨q, hq, rfl⟩
    obtain ⟨es', hes'⟩ := exists_sync (M := M) (O := O) (w := w₁) hseat alive hstate hcall
    refine ⟨es', fun hpair => ?_⟩
    rw [stored_append hexec hs, hes'] at hpair
    -- what has been stored ends with the round that the barrier lags behind
    have hround := round_of_exec (n := q.workerId) hexec
    cases hl : (World.stored M O q.workerId (World.init M globalState) es).getLast? with
    | none =>
      rw [hl] at hround
      exact absurd (hround ▸ hlt) (Nat.not_lt_zero _)
    | some r =>
      rw [hl, Option.getD_some] at hround
      have hbelow := (List.pairwise_append.mp hpair).2.2 r (List.mem_of_getLast? hl)
        (w.barrierRound q + 1) (List.mem_append_right _ (List.mem_singleton_self _))
      omega
  | _ => exact absurd trivial hlag

/-- **Training never goes back** in a run that keeps up with `n`; and where a step does not keep
up, the run can go on so that it does. -/
theorem training_never_goes_back (n : String) (globalState : String → D) :
    (∀ es, Run.Meets (World.step M O) (World.KeepsUp n) (World.init M globalState) es →
      (World.stored M O n (World.init M globalState) es).Pairwise (· < ·)) ∧
    ∀ es w e, Run.exec (World.step M O) (World.init M globalState) es = some w →
      ¬ w.KeepsUp n e → ∃ es',
        ¬ (World.stored M O n (World.init M globalState) (es ++ e :: es')).Pairwise (· < ·) :=
  ⟨fun _ => stored_increasing, fun _ _ _ => exists_stored_again⟩

theorem training_never_goes_back_trio :
    World.stored trio sums "b" (World.init trio fun _ => 0) (trioRounds ++ [.receive 0]) = [1, 2] ∧
      (World.stored trio sums "b" (World.init trio fun _ => 0)
        (trioRounds ++ [.receive 0])).Pairwise (· < ·) :=
  ⟨by decide +kernel, (training_never_goes_back "b" fun _ => 0).1 _
    (Run.meets_of_execWhere (by decide +kernel))⟩

/-- `a` leads and closes round 1 without `c`, which then wins term 2 and starts it from round 0. -/
def trioLags : List (Event ℤ) :=
  trioStart ++ [.raft (.replicate "a" "c" 1), .raft (.handleAppendEntries 0), .train "a" 3,
    .send "a", .train "b" 4, .send "b", .handle 0 ["a", "b"], .handle 0 ["a", "b"], .resume 0,
    .receive 0, .receive 0] ++ trioElect "c" "b" 2 2 ++
    [.train "b" 5, .send "b", .handle 0 ["a", "b", "c"], .timeout 1, .resume 0, .receive 0]

/-- `b` stores round 1 twice. -/
theorem training_goes_back :
    World.stored trio sums "b" (World.init trio fun _ => 0) trioLags = [1, 1] ∧
      ¬ ∀ es, (World.stored trio sums "b" (World.init trio fun _ => 0) es).Pairwise (· < ·) := by
  have hstored : World.stored trio sums "b" (World.init trio fun _ => 0) trioLags = [1, 1] := by
    decide +kernel
  refine ⟨hstored, fun h => ?_⟩
  have hlt := h trioLags
  rw [hstored] at hlt
  exact absurd hlt (by decide)

end Diloco
