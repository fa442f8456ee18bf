/-
A majority goes on training (`Worker.run`, `Worker._outer_sync`, `Worker.Sync`).

* `World.Onward` — runs in which only the workers of `q` take part, and nothing is lost or
  cancelled;
* `World.Open` — the barrier that the next `Sync` will find, and `World.exists_submitted`;
* `World.Served` — a round that has closed and whose result its workers still have to store;
* **`training_goes_on`** — from every reachable state a majority that runs can elect a leader
  and finish a round, which starts from what that leader has.
-/
import Dssd.DilocoRounds
import Dssd.RaftProgress

open Function (update)

namespace Diloco

open Raft (Cluster Membership)

variable {D Ω : Type} {M : Membership} {O : Outer D Ω} {q : Finset String} {A : List String}
  {w w' : World D Ω} {e : Event D} {n p : String}

namespace World

/-! ### Runs of a majority -/

/-- Only workers of `q` take part, SWIM has the members `A`, and nothing is lost or cancelled. -/
def Within (q : Finset String) (A : List String) (w : World D Ω) : Event D → Prop
  | .raft e => e.Within q w.raft
  | .train n _ | .send n | .fail n => n ∈ q
  | .handle k l => l = A ∧ ∀ r ∈ w.requests[k]?, r.workerId ∈ q ∧ r.target ∈ q
  | .resume k => ∀ t ∈ w.waiters[k]?, t.workerId ∈ q ∧ ∀ x ∈ w.seats[t.seat]?, x.owner ∈ q
  | .timeout i => ∀ x ∈ w.seats[i]?, x.owner ∈ q
  | .receive k => ∀ a ∈ w.responses[k]?, a.workerId ∈ q
  | .loseRequest _ | .cancel _ | .loseResponse _ => False

def Onward (M : Membership) (O : Outer D Ω) (q : Finset String) (A : List String)
    (w w' : World D Ω) : Prop :=
  Relation.ReflTransGen (Run.StepWhere (World.step M O) (Within q A)) w w'

theorem Onward.trans {w₁ : World D Ω} (h : Onward M O q A w w₁)
    (h' : Onward M O q A w₁ w') : Onward M O q A w w' :=
  Relation.ReflTransGen.trans h h'

theorem Onward.of_step (he : w.Within q A e) (hs : w.step M O e = some w') :
    Onward M O q A w w' :=
  .single ⟨e, he, hs⟩

/-- The Raft nodes of these workers may take any steps. -/
theorem onward_raft {c : Cluster Unit} (h : Raft.Onward M q w.raft c) :
    Onward M O q A w { w with raft := c } := by
  induction h with
  | refl => exact .refl
  | tail _ hs ih =>
    obtain ⟨e, he, hs⟩ := hs
    exact ih.trans (.of_step (e := .raft e) he (Option.map_eq_some_iff.mpr ⟨_, hs, rfl⟩))

/-- What `Sync` changes before it calls `submit`. -/
structure Entered (n : String) (w w' : World D Ω) : Prop where
  raft : w'.raft = w.raft
  worker : ∀ m, (w'.worker m).round = (w.worker m).round ∧
    (w'.worker m).globalState = (w.worker m).globalState ∧
    (w'.worker m).client = (w.worker m).client
  others : ∀ m ≠ n, w'.worker m = w.worker m
  waiters : w'.waiters = w.waiters
  responses : w'.responses = w.responses

theorem Entered.refl (n : String) (w : World D Ω) : Entered n w w :=
  ⟨rfl, fun _ => ⟨rfl, rfl, rfl⟩, fun _ _ => rfl, rfl, rfl⟩

theorem entered_createBarrier (w : World D Ω) (n : String) (term : ℕ) :
    Entered n w (w.createBarrier O n term) := by
  refine ⟨rfl, fun m => ?_, fun m hm => Function.update_of_ne hm _ _, rfl, rfl⟩
  show (update w.worker n _ m).round = _ ∧ (update w.worker n _ m).globalState = _ ∧
    (update w.worker n _ m).client = _
  by_cases hm : m = n
  · subst hm
    rw [Function.update_self]
    exact ⟨rfl, rfl, rfl⟩
  · rw [Function.update_of_ne hm]
    exact ⟨rfl, rfl, rfl⟩

theorem entered_enter (w : World D Ω) (n : String) (term : ℕ) :
    Entered n w (w.enter O n term).1 := by
  unfold enter
  split
  · exact entered_createBarrier w n term
  · split
    · exact entered_createBarrier w n term
    · exact .refl n w

theorem worker_sync_of_ne (w : World D Ω) (r : SyncRequest D) (l : List String)
    (h : n ≠ r.target) : (w.sync O r l).worker n = w.worker n := by
  have hent := (entered_enter (O := O) w r.target r.term).others n h
  unfold sync
  split
  · rfl
  dsimp only
  split
  · exact hent
  · split <;> exact hent

/-- The workers outside of `q` are left alone. -/
theorem Onward.frame (h : Onward M O q A w w') {m : String} (hm : m ∉ q) :
    w'.worker m = w.worker m := by
  refine Run.invariant (P := fun x : World D Ω => x.worker m = w.worker m) ?_ h rfl
  rintro x x' ⟨e, he, hs⟩ ih
  have hset : ∀ {y : World D Ω} {n : String} (r : Worker D), n ∈ q → y.worker = x.worker →
      (y.setWorker n r).worker m = w.worker m := fun {y n} r hn hy => by
    have hne : m ≠ n := fun heq => hm (heq ▸ hn)
    show update y.worker n r m = _
    rw [Function.update_of_ne hne, hy]
    exact ih
  cases World.step_change hs with
  | loseRequest | cancel | loseResponse => exact he.elim
  | raft | resume | timeout | ignore => exact ih
  | train | fail => exact hset _ he rfl
  | store ha => exact hset _ (he _ ha) rfl
  | @send n g hn =>
    unfold call
    dsimp only
    split
    · exact ih
    · exact hset _ he rfl
  | @handle k l r hr =>
    refine (worker_sync_of_ne _ r l fun heq => hm ?_).trans ih
    rw [heq]
    exact (he.2 r hr).2

/-! ### Reachable states -/

/-- A worker's barrier is of a term that its node has reached. -/
structure Dated (M : Membership) (w : World D Ω) : Prop where
  raft : Raft.Reachable M w.raft
  barrier : ∀ m t i, (w.worker m).barrier = some (t, i) → t ≤ (w.raft.node m).currentTerm

theorem dated_init (globalState : String → D) : Dated M (World.init (Ω := Ω) M globalState) where
  raft := .refl
  barrier _ _ _ h := absurd h (by simp [World.init])

theorem Dated.setWorker (h : Dated M w) {m : String} {r : Worker D}
    (hb : r.barrier = (w.worker m).barrier) : Dated M (w.setWorker m r) where
  raft := h.raft
  barrier j t i hbar := by
    change (update w.worker m r j).barrier = some (t, i) at hbar
    by_cases hj : j = m
    · subst hj
      rw [Function.update_self, hb] at hbar
      exact h.barrier j t i hbar
    · rw [Function.update_of_ne hj] at hbar
      exact h.barrier j t i hbar

theorem Dated.createBarrier (h : Dated M w) {t : ℕ} (ht : t ≤ (w.raft.node n).currentTerm) :
    Dated M (w.createBarrier O n t) where
  raft := h.raft
  barrier j t' i hbar := by
    change (update w.worker n _ j).barrier = some (t', i) at hbar
    by_cases hj : j = n
    · subst hj
      rw [Function.update_self] at hbar
      cases hbar
      exact ht
    · rw [Function.update_of_ne hj] at hbar
      exact h.barrier j t' i hbar

theorem Dated.step (h : Dated M w) (hs : w.step M O e = some w') : Dated M w' := by
  cases World.step_change hs with
  | @raft e c hc =>
    refine ⟨h.raft.tail ⟨e, hc⟩, fun m t i hbar => ?_⟩
    exact (h.barrier m t i hbar).trans (Raft.term_le_steps h.raft (.single ⟨e, hc⟩) m)
  | train | fail => exact h.setWorker rfl
  | @store k =>
    exact Dated.setWorker (w := { w with responses := w.responses.eraseIdx k })
      ⟨h.raft, h.barrier⟩ rfl
  | @send n g =>
    unfold call
    dsimp only
    split
    · exact h
    · have h₁ := h.setWorker (m := n)
        (r := { w.worker n with client := .waiting w.nextCall g }) rfl
      exact ⟨h₁.raft, h₁.barrier⟩
  | @handle k l r hr =>
    have h₁ : Dated M ({ w with requests := w.requests.eraseIdx k } : World D Ω) :=
      ⟨h.raft, h.barrier⟩
    unfold sync
    split
    · exact h₁
    rename_i hstate
    have hterm := (Raft.Node.state_eq_true.mp (not_not.mp hstate)).1
    have h₂ : Dated M (({ w with requests := w.requests.eraseIdx k } : World D Ω).enter O r.target
        r.term).1 := by
      unfold enter
      split
      · exact h₁.createBarrier hterm.ge
      · split
        · exact h₁.createBarrier hterm.ge
        · exact h₁
    dsimp only
    split
    · exact h₂
    · split <;> exact ⟨h₂.raft, h₂.barrier⟩
  | timeout | loseRequest | resume | cancel | ignore | loseResponse => exact ⟨h.raft, h.barrier⟩

end World

theorem Reachable.dated (h : Reachable M O w) : World.Dated M w := by
  obtain ⟨globalState, hrun⟩ := h
  exact Run.invariant (P := World.Dated M) (fun _ _ ⟨_, hs⟩ h => h.step hs) hrun
    (World.dated_init globalState)

/-- The pseudo-gradient that a worker will submit; `g` is what training gives it, if it trains. -/
def Client.gradient (g : D) : Client D → D
  | .training => g
  | .syncing pseudoGrad | .waiting _ pseudoGrad => pseudoGrad

namespace World

/-! ### The barrier of a leader -/

/-- A `Sync` at leader `n` of term `t` will find, or create, barrier `b` in place `i`. -/
structure Open (O : Outer D Ω) (n : String) (t i : ℕ) (b : Barrier D Ω) (w : World D Ω) : Prop where
  place : (w.enter O n t).2 = i
  seat : (w.enter O n t).1.seats[i]? = some ⟨n, t, b⟩

variable {t i k : ℕ} {b : Barrier D Ω} {g : D}

theorem open_of_barrier (hb : (w.worker n).barrier = some (t, i))
    (hs : w.seats[i]? = some ⟨n, t, b⟩) : Open O n t i b w := by
  have henter : w.enter O n t = (w, i) := by
    rw [enter, hb]
    exact if_neg (not_not.mpr rfl)
  exact ⟨by rw [henter], by rw [henter]; exact hs⟩

/-- The first `Sync` of a term creates the barrier, from what the leader has. -/
theorem open_of_ne (h : ∀ t' i, (w.worker n).barrier = some (t', i) → t' ≠ t) :
    Open O n t w.seats.length
      (Barrier.create O (w.worker n).globalState (w.worker n).round) w := by
  have henter : w.enter O n t = (w.createBarrier O n t, w.seats.length) := by
    unfold enter
    cases hb : (w.worker n).barrier with
    | none => rfl
    | some x => exact if_pos (h x.1 x.2 hb)
  exact ⟨by rw [henter], by rw [henter]; exact List.getElem?_concat_length⟩

theorem Open.barrier (h : Open O n t i b w) :
    ((w.enter O n t).1.worker n).barrier = some (t, i) := by
  have hplace := h.place
  have hfresh : ((w.createBarrier O n t).worker n).barrier = some (t, w.seats.length) := by
    show (update w.worker n _ n).barrier = _
    rw [Function.update_self]
  unfold enter at hplace ⊢
  split at hplace
  · exact hplace ▸ hfresh
  · rename_i t' i' hb
    split at hplace
    · rename_i hne
      rw [if_pos hne]
      exact hplace ▸ hfresh
    · rename_i heq
      rw [if_neg heq]
      obtain rfl := not_not.mp heq
      exact hplace ▸ hb

/-- Only the barriers and what the leader has matter. -/
theorem Open.congr (h : Open O n t i b w) (hb : (w'.worker n).barrier = (w.worker n).barrier)
    (hr : (w'.worker n).round = (w.worker n).round)
    (hg : (w'.worker n).globalState = (w.worker n).globalState) (hs : w'.seats = w.seats) :
    Open O n t i b w' := by
  have hcreate : (w'.createBarrier O n t).seats = (w.createBarrier O n t).seats := by
    show w'.seats ++ [⟨n, t, Barrier.create O (w'.worker n).globalState (w'.worker n).round⟩] = _
    rw [hs, hg, hr]
    rfl
  have hsame : (w'.enter O n t).2 = (w.enter O n t).2 ∧
      (w'.enter O n t).1.seats = (w.enter O n t).1.seats := by
    unfold enter
    rw [hb]
    split
    · exact ⟨congrArg List.length hs, hcreate⟩
    · split
      · exact ⟨congrArg List.length hs, hcreate⟩
      · exact ⟨rfl, hs⟩
  exact ⟨hsame.1.trans h.place, by rw [hsame.2]; exact h.seat⟩

/-- What a served `Sync` leaves: its handler waits, or it has closed the round and answers. -/
theorem Open.sync (h : Open O n t i b w) (hstate : (w.raft.node n).state = (t, true)) :
    let w' := w.sync O ⟨k, p, n, t, g⟩ A
    let b' := b.submit O A p g
    w'.raft = w.raft ∧ Open O n t i b' w' ∧ w'.seats[i]? = some ⟨n, t, b'⟩ ∧
      (∀ m, (w'.worker m).client = (w.worker m).client) ∧
      w'.waiters = w.waiters ++ (if b'.roundDone = b.roundDone then [⟨k, p, i, b'.roundDone⟩]
        else []) ∧
      w'.responses = w.responses ++ (if b'.roundDone = b.roundDone then []
        else [⟨k, p, b'.round, b'.globalState⟩]) := by
  have hent := entered_enter (O := O) w n t
  have hlt := Ledger.lt_length_of_getElem? h.seat
  have hsync : ∀ {b' : Barrier D Ω}, b' = b.submit O A p g →
      w.sync O ⟨k, p, n, t, g⟩ A =
        let w₁ := (w.enter O n t).1.setBarrier i ⟨n, t, b⟩ b'
        if b'.roundDone = b.roundDone then
          { w₁ with waiters := w₁.waiters ++ [⟨k, p, i, b'.roundDone⟩] }
        else w₁.respond k p b' := by
    rintro b' rfl
    rw [World.sync, if_neg (not_not.mpr hstate)]
    dsimp only
    rw [h.place, h.seat]
  have hseat : ((w.enter O n t).1.seats.set i ⟨n, t, b.submit O A p g⟩)[i]? =
      some ⟨n, t, b.submit O A p g⟩ := List.getElem?_set_self hlt
  dsimp only
  rw [hsync rfl]
  dsimp only
  split
  · refine ⟨hent.raft, open_of_barrier h.barrier hseat, hseat, fun m => (hent.worker m).2.2, ?_, ?_⟩
    · exact congrArg (· ++ _) hent.waiters
    · rw [List.append_nil]
      exact hent.responses
  · refine ⟨hent.raft, open_of_barrier h.barrier hseat, hseat, fun m => (hent.worker m).2.2, ?_, ?_⟩
    · rw [List.append_nil]
      exact hent.waiters
    · exact congrArg (· ++ _) hent.responses

/-! ### A round -/

theorem setWorker_setWorker (w : World D Ω) (p : String) (r r' : Worker D) :
    (w.setWorker p r).setWorker p r' = w.setWorker p r' := by
  unfold setWorker
  rw [Function.update_idem]

/-- A worker calls the leader that it knows of. -/
theorem call_eq (hhint : (w.raft.node p).leaderHint = (n, t)) (hmem : n ∈ M.ids) :
    w.call M p g =
      { w.setWorker p { w.worker p with client := .waiting w.nextCall g } with
        requests := w.requests ++ [⟨w.nextCall, p, n, t, g⟩], nextCall := w.nextCall + 1 } := by
  obtain ⟨rfl, rfl⟩ := Prod.mk.inj hhint
  exact if_neg (not_not.mpr hmem)

/-- A worker trains, calls, and the leader serves the call. -/
theorem exists_submitted (hn : n ∈ q) (hmem : n ∈ M.ids) (hp : p ∈ q)
    (hhint : (w.raft.node p).leaderHint = (n, t)) (g : D) : ∃ id, Onward M O q A w
      (World.sync O { w.setWorker p
          { w.worker p with client := .waiting id ((w.worker p).client.gradient g) } with
        nextCall := id + 1 } ⟨id, p, n, t, (w.worker p).client.gradient g⟩ A) := by
  set γ := (w.worker p).client.gradient g with hγ
  -- it has a pseudo-gradient to sync
  obtain ⟨w₁, hon₁, hw₁⟩ : ∃ w₁, Onward M O q A w w₁ ∧
      w₁ = w.setWorker p { w.worker p with client := .syncing γ } := by
    cases hc : (w.worker p).client with
    | training =>
      rw [hc] at hγ
      refine ⟨_, .of_step (e := .train p g) hp ?_, rfl⟩
      rw [step, hc, hγ]
      rfl
    | syncing g' =>
      rw [hc] at hγ
      refine ⟨w, .refl, ?_⟩
      have hself : ({ w.worker p with client := .syncing γ } : Worker D) = w.worker p := by
        rw [hγ, Client.gradient, ← hc]
      rw [hself, setWorker, Function.update_eq_self]
    | waiting id g' =>
      rw [hc] at hγ
      refine ⟨_, .of_step (e := .fail p) hp ?_, rfl⟩
      rw [step, hc, hγ]
      rfl
  -- it calls the leader
  set r : SyncRequest D := ⟨w.nextCall, p, n, t, γ⟩ with hr
  set w₂ : World D Ω :=
    { w.setWorker p { w.worker p with client := .waiting w.nextCall γ } with
      requests := w.requests ++ [r], nextCall := w.nextCall + 1 } with hw₂
  have hon₂ : Onward M O q A w₁ w₂ := by
    refine .of_step (e := .send p) hp ?_
    have hself : w₁.worker p = { w.worker p with client := .syncing γ } := by
      rw [hw₁]
      exact Function.update_self _ _ _
    have hcall : w₁.call M p γ = w₂ := by
      have hhint₁ : (w₁.raft.node p).leaderHint = (n, t) := by
        rw [hw₁]
        exact hhint
      rw [call_eq hhint₁ hmem, hself, hw₁]
      exact congrArg (fun x : World D Ω => ({ x with
        requests := w.requests ++ [r], nextCall := w.nextCall + 1 } : World D Ω))
        (setWorker_setWorker _ _ _ _)
    rw [step, hself]
    exact congrArg some hcall
  have hget : w₂.requests[w.requests.length]? = some r := List.getElem?_concat_length
  refine ⟨w.nextCall, (hon₁.trans hon₂).trans (.of_step (e := .handle w.requests.length A)
    ⟨rfl, fun r' hr' => ?_⟩ ?_)⟩
  · rw [hget] at hr'
    obtain rfl := Option.some_inj.mp hr'
    exact ⟨hp, hn⟩
  · rw [step, hget, Option.map_some]
    have herase : w₂.requests.eraseIdx w.requests.length = w.requests := Raft.eraseIdx_length _ _
    rw [herase]
    rfl

theorem worker_setClient (w : World D Ω) (p : String) (c : Client D) (m : String) :
    ((w.setWorker p { w.worker p with client := c }).worker m).barrier = (w.worker m).barrier ∧
      ((w.setWorker p { w.worker p with client := c }).worker m).round = (w.worker m).round ∧
      ((w.setWorker p { w.worker p with client := c }).worker m).globalState =
        (w.worker m).globalState := by
  show (update w.worker p _ m).barrier = _ ∧ (update w.worker p _ m).round = _ ∧
    (update w.worker p _ m).globalState = _
  by_cases hm : m = p
  · subst hm
    rw [Function.update_self]
    exact ⟨rfl, rfl, rfl⟩
  · rw [Function.update_of_ne hm]
    exact ⟨rfl, rfl, rfl⟩

/-- Leader `n` of term `t` has an open round in barrier `b`, in which `done` have submitted. -/
structure Gathers (O : Outer D Ω) (n : String) (t i : ℕ) (grad : String → D) (done : List String)
    (b : Barrier D Ω) (w : World D Ω) : Prop where
  leads : (w.raft.node n).state = (t, true)
  opened : Open O n t i b w
  fresh : b.roundDone = 0
  pending : b.pending.items = done.map fun p => (p, grad p)
  armed : done ≠ [] → b.timer = true ∧ w.seats[i]? = some ⟨n, t, b⟩
  waits : ∀ p ∈ done, ∃ id g, (w.worker p).client = .waiting id g ∧ ⟨id, p, i, 0⟩ ∈ w.waiters

/-- Worker `p` has called for round `r`, whose result is `G`, and it is there to be fetched. -/
def Fetches (i r : ℕ) (G : D) (w : World D Ω) (p : String) : Prop :=
  ∃ id g, (w.worker p).client = .waiting id g ∧
    (⟨id, p, i, 0⟩ ∈ w.waiters ∨ ⟨id, p, r, G⟩ ∈ w.responses)

/-- Worker `p` has stored the result of round `r`. -/
def Stored (r : ℕ) (G : D) (w : World D Ω) (p : String) : Prop :=
  (w.worker p).client = .training ∧ (w.worker p).round = r ∧ (w.worker p).globalState = G

/-- The barrier in place `i` has closed round `r`, whose result `G` the workers `ps` can fetch. -/
structure Served (n : String) (i r : ℕ) (G : D) (ps : List String) (w : World D Ω) : Prop where
  seat : ∃ t b, w.seats[i]? = some ⟨n, t, b⟩ ∧ b.roundDone = 1 ∧ b.round = r ∧ b.globalState = G
  fetches : ∀ p ∈ ps, Fetches i r G w p

section gathers

variable {grad : String → D} {done : List String}

/-- SWIM waits for somebody who does not come; the timer closes the round. -/
theorem Gathers.exists_timeout (h : Gathers O n t i grad done b w) (hn : n ∈ q)
    (hne : done ≠ []) : ∃ w', Onward M O q A w w' ∧ w'.raft = w.raft ∧
      Served n i (b.round + 1) (O.step b.outer (O.average (done.map grad))).2 done w' := by
  obtain ⟨htimer, hseat⟩ := h.armed hne
  have hfinish : b.timeout O = ({ b with timer := false }).finishRound O := by
    refine if_pos ?_
    rw [h.pending]
    exact fun hnil => hne (List.map_eq_nil_iff.mp hnil)
  have hs : w.step M O (.timeout i) = some (w.setBarrier i ⟨n, t, b⟩ (b.timeout O)) := by
    rw [step, hseat]
    exact if_pos htimer
  refine ⟨_, .of_step (e := .timeout i) (fun x hx => ?_) hs, rfl, ⟨t, _,
    List.getElem?_set_self (Ledger.lt_length_of_getElem? hseat), ?_, ?_, ?_⟩, fun p hp => ?_⟩
  · rw [hseat] at hx
    obtain rfl := Option.some_inj.mp hx
    exact hn
  · show (b.timeout O).roundDone = 1
    rw [hfinish]
    exact congrArg (· + 1) h.fresh
  · show (b.timeout O).round = _
    rw [hfinish]
    rfl
  · show (b.timeout O).globalState = _
    rw [hfinish]
    show (O.step b.outer (O.average (b.pending.items.map Prod.snd))).2 = _
    rw [h.pending, List.map_map]
    rfl
  · obtain ⟨id, g, hc, hw⟩ := h.waits p hp
    exact ⟨id, g, hc, .inl hw⟩

/-- One more worker submits, which may close the round. -/
theorem Gathers.exists_submitted {gradient : String → D} (h : Gathers O n t i grad done b w)
    (hn : n ∈ q) (hmem : n ∈ M.ids) (hp : p ∈ q) (hnot : p ∉ done)
    (hhint : (w.raft.node p).leaderHint = (n, t))
    (hgrad : (w.worker p).client.gradient (gradient p) = grad p) :
    ∃ w', Onward M O q A w w' ∧ w'.raft = w.raft ∧
      (∀ m ≠ p, (w'.worker m).client = (w.worker m).client) ∧
        if Barrier.complete A (b.pending.set p (grad p)) then
          Served n i (b.round + 1) (O.step b.outer (O.average ((done ++ [p]).map grad))).2
            (done ++ [p]) w'
        else Gathers O n t i grad (done ++ [p])
          { b with pending := b.pending.set p (grad p), timer := true } w' := by
  have hkey : p ∉ b.pending.items.map Prod.fst := by
    rw [h.pending, List.map_map]
    simpa using hnot
  have hitems : (b.pending.set p (grad p)).items = (done ++ [p]).map fun p => (p, grad p) := by
    rw [Dict.items_set_of_not_mem _ hkey, h.pending, List.map_append]
    rfl
  obtain ⟨id, hon⟩ := World.exists_submitted (M := M) (O := O) (A := A) hn hmem hp hhint
    (gradient p)
  rw [hgrad] at hon
  set w₁ : World D Ω := { w.setWorker p { w.worker p with client := .waiting id (grad p) } with
    nextCall := id + 1 } with hw₁
  have hself : (w₁.worker p).client = .waiting id (grad p) :=
    congrArg Worker.client (Function.update_self p _ w.worker)
  have hothers : ∀ m ≠ p, w₁.worker m = w.worker m := fun m hm => Function.update_of_ne hm _ _
  obtain ⟨hb₁, hr₁, hg₁⟩ := w.worker_setClient p (.waiting id (grad p)) n
  have hopen₁ : Open O n t i b w₁ := h.opened.congr hb₁ hr₁ hg₁ rfl
  obtain ⟨hraft, hopen, hseat, hclient, hwaiters, hresponses⟩ :=
    hopen₁.sync (p := p) (k := id) (g := grad p) (A := A) h.leads
  refine ⟨_, hon, hraft, fun m hm => (hclient m).trans (by rw [hothers m hm]), ?_⟩
  generalize w₁.sync O ⟨id, p, n, t, grad p⟩ A = w₂ at *
  have hwaits : ∀ m ∈ done, ∃ id g, (w₂.worker m).client = .waiting id g ∧
      ⟨id, m, i, 0⟩ ∈ w₂.waiters := by
    intro m hm
    obtain ⟨id', g, hc, hw⟩ := h.waits m hm
    refine ⟨id', g, ?_, ?_⟩
    · rw [hclient, hothers m fun heq => hnot (heq ▸ hm)]
      exact hc
    · rw [hwaiters]
      exact List.mem_append_left _ hw
  have hcall : (w₂.worker p).client = .waiting id (grad p) := (hclient p).trans hself
  split
  · -- it was the last one
    rename_i hcomp
    have hsubmit : b.submit O A p (grad p) =
        ({ b with pending := b.pending.set p (grad p) }).finishRound O := if_pos hcomp
    have hdone : (b.submit O A p (grad p)).roundDone = b.roundDone + 1 := by
      rw [hsubmit]
      rfl
    have hround : (b.submit O A p (grad p)).round = b.round + 1 := by
      rw [hsubmit]
      rfl
    have hresult : (b.submit O A p (grad p)).globalState =
        (O.step b.outer (O.average ((done ++ [p]).map grad))).2 := by
      rw [hsubmit]
      show (O.step b.outer (O.average ((b.pending.set p (grad p)).items.map Prod.snd))).2 = _
      rw [hitems, List.map_map]
      rfl
    rw [if_neg (by omega), hround, hresult] at hresponses
    refine ⟨⟨t, _, hseat, by rw [hdone, h.fresh], hround, hresult⟩, fun m hm => ?_⟩
    rcases List.mem_append.mp hm with hm | hm
    · obtain ⟨id', g, hc, hw⟩ := hwaits m hm
      exact ⟨id', g, hc, .inl hw⟩
    · obtain rfl := List.mem_singleton.mp hm
      refine ⟨id, grad m, hcall, .inr ?_⟩
      rw [hresponses]
      exact List.mem_append_right _ (List.mem_singleton_self _)
  · -- others are still to come
    rename_i hcomp
    have hsubmit : b.submit O A p (grad p) =
        { b with pending := b.pending.set p (grad p), timer := true } := if_neg hcomp
    rw [hsubmit] at hopen hseat hwaiters
    rw [if_pos rfl] at hwaiters
    refine ⟨by rw [hraft]; exact h.leads, hopen, h.fresh, hitems, fun _ => ⟨rfl, hseat⟩,
      fun m hm => ?_⟩
    rcases List.mem_append.mp hm with hm | hm
    · exact hwaits m hm
    · obtain rfl := List.mem_singleton.mp hm
      refine ⟨id, grad m, hcall, ?_⟩
      rw [hwaiters]
      exact List.mem_append_right _ (List.mem_singleton.mpr (by rw [h.fresh]))

/-- All submit, and the last one closes the round, or the timer does. -/
theorem Gathers.exists_served {gradient : String → D} (hn : n ∈ q) (hmem : n ∈ M.ids)
    {ps : List String} (h : Gathers O n t i grad done b w) (hne : done ++ ps ≠ [])
    (hnodup : (done ++ ps).Nodup) (hps : ∀ p ∈ ps, p ∈ q ∧ p ∈ A ∧
      (w.raft.node p).leaderHint = (n, t) ∧ (w.worker p).client.gradient (gradient p) = grad p) :
    ∃ w', Onward M O q A w w' ∧ w'.raft = w.raft ∧
      Served n i (b.round + 1) (O.step b.outer (O.average ((done ++ ps).map grad))).2
        (done ++ ps) w' := by
  induction ps generalizing done b w with
  | nil =>
    rw [List.append_nil] at hne ⊢
    exact h.exists_timeout hn hne
  | cons p ps ih =>
    obtain ⟨⟨hp, hpalive, hhint, hgrad⟩, hps⟩ := List.forall_mem_cons.mp hps
    rw [List.append_cons] at hnodup ⊢
    have hnot : p ∉ done := fun hd =>
      List.disjoint_of_nodup_append (List.nodup_append.mp hnodup).1 hd (List.mem_singleton_self p)
    obtain ⟨w₁, hon₁, hraft₁, hclient₁, hnext⟩ :=
      h.exists_submitted (A := A) hn hmem hp hnot hhint hgrad
    split at hnext
    · -- nobody of the alive can be missing
      rename_i hcomp
      have hnil : ps = [] := by
        refine List.eq_nil_iff_forall_not_mem.mpr fun m hm => ?_
        have hfresh := List.disjoint_of_nodup_append hnodup
        have hin := hcomp m (hps m hm).2.1
        rw [Dict.get?_set] at hin
        split at hin
        · rename_i heq
          exact hfresh (List.mem_append_right _ (List.mem_singleton.mpr heq)) hm
        · obtain ⟨x, hx⟩ := Option.isSome_iff_exists.mp hin
          have hmem := Dict.get?_eq_some_iff.mp hx
          rw [h.pending] at hmem
          obtain ⟨m', hm', heq⟩ := List.mem_map.mp hmem
          obtain ⟨rfl, -⟩ := Prod.mk.inj heq
          exact hfresh (List.mem_append_left _ hm') hm
      subst hnil
      rw [List.append_nil]
      exact ⟨w₁, hon₁, hraft₁, hnext⟩
    · obtain ⟨w₂, hon₂, hraft₂, hserved⟩ := ih hnext (by simp) hnodup fun m hm => by
        obtain ⟨hq, ha, hh, hg⟩ := hps m hm
        have hmp : m ≠ p := by
          rintro rfl
          exact List.disjoint_of_nodup_append hnodup
            (List.mem_append_right _ (List.mem_singleton_self m)) hm
        rw [hraft₁, hclient₁ m hmp]
        exact ⟨hq, ha, hh, hg⟩
      exact ⟨w₂, hon₁.trans hon₂, hraft₂.trans hraft₁, hserved⟩

end gathers

/-- A worker whose answer is on the wire stores it; nobody else notices. -/
theorem exists_received {id r : ℕ} {G : D} (hp : p ∈ q) (hc : (w.worker p).client = .waiting id g)
    (ha : ⟨id, p, r, G⟩ ∈ w.responses) : ∃ w', Onward M O q A w w' ∧
      Stored r G w' p ∧ w'.raft = w.raft ∧ w'.seats = w.seats ∧
        ∀ m ≠ p, w'.worker m = w.worker m ∧ ∀ i, Fetches i r G w m → Fetches i r G w' m := by
  obtain ⟨k, hk⟩ := List.mem_iff_getElem?.mp ha
  set w₁ : World D Ω := { w with responses := w.responses.eraseIdx k } with hw₁
  have hs : w.step M O (.receive k) = some (w₁.setWorker p
      { w.worker p with globalState := G, round := r, client := .training }) := by
    rw [step, hk]
    dsimp only
    rw [hc]
    exact if_pos rfl
  have hself : (w₁.setWorker p
      { w.worker p with globalState := G, round := r, client := .training }).worker p =
        { w.worker p with globalState := G, round := r, client := .training } :=
    Function.update_self _ _ _
  refine ⟨_, .of_step (e := .receive k) (fun a ha => ?_) hs, ?_, rfl, rfl, fun m hm => ?_⟩
  · rw [hk] at ha
    obtain rfl := Option.some_inj.mp ha
    exact hp
  · rw [Stored, hself]
    exact ⟨rfl, rfl, rfl⟩
  · have hother : (w₁.setWorker p
        { w.worker p with globalState := G, round := r, client := .training }).worker m =
          w.worker m := Function.update_of_ne hm _ _
    refine ⟨hother, ?_⟩
    rintro i ⟨id', g', hc', hin⟩
    refine ⟨id', g', hother ▸ hc', hin.imp_right fun hin => ?_⟩
    refine (List.mem_cons.mp ((Raft.perm_eraseIdx hk).mem_iff.mp hin)).resolve_left fun heq => hm ?_
    exact congrArg SyncResponse.workerId heq

/-- A worker fetches the result of its round. -/
theorem Served.exists_stored {r : ℕ} {G : D} {ps : List String} (h : Served n i r G ps w)
    (hn : n ∈ q) (hp : p ∈ q) (hf : Fetches i r G w p) : ∃ w', Onward M O q A w w' ∧
      Stored r G w' p ∧ w'.raft = w.raft ∧ w'.seats = w.seats ∧
        ∀ m ≠ p, w'.worker m = w.worker m ∧ (Fetches i r G w m → Fetches i r G w' m) := by
  obtain ⟨id, g, hc, hw | ha⟩ := hf
  swap
  · obtain ⟨w', hon, hst, hraft, hseats, hrest⟩ := exists_received hp hc ha
    exact ⟨w', hon, hst, hraft, hseats, fun m hm => ⟨(hrest m hm).1, (hrest m hm).2 i⟩⟩
  -- its handler wakes up first
  obtain ⟨t, b, hseat, hdone, hround, hstate⟩ := h.seat
  obtain ⟨k, hk⟩ := List.mem_iff_getElem?.mp hw
  set w₁ : World D Ω := ({ w with waiters := w.waiters.eraseIdx k } : World D Ω).respond id p b
    with hw₁
  have hs : w.step M O (.resume k) = some w₁ := by
    rw [step, hk]
    dsimp only
    rw [hseat]
    exact if_pos (by rw [hdone]; exact Nat.one_pos)
  have hon₁ : Onward M O q A w w₁ := by
    refine .of_step (e := .resume k) (fun t' ht => ?_) hs
    rw [hk] at ht
    obtain rfl := Option.some_inj.mp ht
    refine ⟨hp, fun x hx => ?_⟩
    rw [Option.mem_def, hseat] at hx
    obtain rfl := Option.some_inj.mp hx
    exact hn
  have hresponses : w₁.responses = w.responses ++ [⟨id, p, r, G⟩] := by
    rw [← hround, ← hstate]
    rfl
  obtain ⟨w₂, hon₂, hst, hraft, hseats, hrest⟩ := exists_received (M := M) (O := O)
    (A := A) (w := w₁) hp hc (r := r) (G := G) (by
      rw [hresponses]
      exact List.mem_append_right _ (List.mem_singleton_self _))
  refine ⟨w₂, hon₁.trans hon₂, hst, hraft, hseats, fun m hm => ⟨(hrest m hm).1, fun hf => ?_⟩⟩
  refine (hrest m hm).2 i ?_
  obtain ⟨id', g', hc', hin⟩ := hf
  refine ⟨id', g', hc', hin.imp (fun hin => ?_) fun hin => ?_⟩
  · refine (List.mem_cons.mp ((Raft.perm_eraseIdx hk).mem_iff.mp hin)).resolve_left fun heq => hm ?_
    exact congrArg Waiter.workerId heq
  · rw [hresponses]
    exact List.mem_append_left _ hin

/-- All fetch the result of their round. -/
theorem Served.exists_all_stored {r : ℕ} {G : D} {ps : List String} (h : Served n i r G ps w)
    (hn : n ∈ q) (hps : ∀ p ∈ ps, p ∈ q) :
    ∃ w', Onward M O q A w w' ∧ w'.raft = w.raft ∧ ∀ p ∈ ps, Stored r G w' p := by
  have visit : ∀ p ∈ ps, ∀ x : World D Ω, (x.raft = w.raft ∧ x.seats = w.seats ∧
      ∀ p ∈ ps, Fetches i r G x p ∨ Stored r G x p) → ∃ x', Onward M O q A x x' ∧
      (x'.raft = w.raft ∧ x'.seats = w.seats ∧ ∀ p ∈ ps, Fetches i r G x' p ∨ Stored r G x' p) ∧
        Stored r G x' p ∧ ∀ m ∈ ps, Stored r G x m → Stored r G x' m := by
    rintro p hp x ⟨hraft, hseats, hall⟩
    rcases hall p hp with hf | hst
    swap
    · exact ⟨x, .refl, ⟨hraft, hseats, hall⟩, hst, fun _ _ h => h⟩
    have hserved : Served n i r G [] x := ⟨hseats ▸ h.seat, fun _ hm => by cases hm⟩
    obtain ⟨x', hon, hst, hraft', hseats', hrest⟩ := hserved.exists_stored (M := M) (O := O)
      (A := A) hn (hps p hp) hf
    have hkeep : ∀ m ∈ ps, Stored r G x m → Stored r G x' m := by
      intro m _ hm
      by_cases hmp : m = p
      · exact hmp ▸ hst
      · rwa [Stored, (hrest m hmp).1]
    refine ⟨x', hon, ⟨hraft'.trans hraft, hseats'.trans hseats, fun m hm => ?_⟩, hst, hkeep⟩
    by_cases hmp : m = p
    · exact .inr (hmp ▸ hst)
    · exact (hall m hm).imp (hrest m hmp).2 (hkeep m hm)
  obtain ⟨w', hon, ⟨hraft, -, -⟩, hall⟩ :=
    Run.each visit ⟨rfl, rfl, fun p hp => .inl (h.fetches p hp)⟩
  exact ⟨w', hon, hraft, hall⟩

end World

/-- **A majority goes on training.**  From every reachable state of more than one worker there is
a run in which only a majority `q` takes part whose nodes run, without a lost message or a
cancelled call, whomever else SWIM has alive: it elects a leader in a new term, whom all of them
follow, and finishes a round, whose result all of them store.  This is the outer step from the
round and the state that the leader had, with the mean of their pseudo-gradients. -/
theorem training_goes_on (hM : M.ids.length ≠ 1) (h : Reachable M O w)
    (hq : Ledger.IsQuorum M.members q) (hrun : ∀ p ∈ q, w.raft.running p = true)
    (halive : ∀ p ∈ q, p ∈ A) (gradient : String → D) :
    ∃ w', World.Onward M O q A w w' ∧ ∃ n ∈ q, ∃ t,
      (∀ p ∈ q, (w.raft.node p).currentTerm < t ∧ (w'.raft.node p).leaderHint = (n, t)) ∧
      (∀ p ∈ q, (w'.worker p).client = .training ∧
        (w'.worker p).round = (w.worker n).round + 1 ∧
        (w'.worker p).globalState = (O.step (O.create (w.worker n).globalState)
          (O.average (q.toList.map fun p => (w.worker p).client.gradient (gradient p)))).2) ∧
      ∀ m ∉ q, w'.worker m = w.worker m := by
  have hd := h.dated
  obtain ⟨c, hc, n, hn, t, hstate, hall⟩ := Raft.exists_followed hM hd.raft hq hrun
  have hon₁ : World.Onward M O q A w { w with raft := c } := World.onward_raft hc
  set w₁ : World D Ω := { w with raft := c } with hw₁
  have hgathers : World.Gathers O n t w.seats.length
      (fun p => (w.worker p).client.gradient (gradient p)) []
      (Barrier.create O (w.worker n).globalState (w.worker n).round) w₁ := {
    leads := hstate
    opened := World.open_of_ne (w := w₁) fun t' i hbar heq => by
      have hle := hd.barrier n t' i hbar
      have hlt := (hall n hn).1
      omega
    fresh := rfl
    pending := rfl
    armed := fun hne => absurd rfl hne
    waits := fun p hp => by cases hp }
  have hne : q.toList ≠ [] := by
    rw [ne_eq, Finset.toList_eq_nil]
    exact Finset.ne_empty_of_mem hn
  have hps : ∀ p ∈ q.toList, p ∈ q ∧ p ∈ A ∧ (w₁.raft.node p).leaderHint = (n, t) ∧
      (w₁.worker p).client.gradient (gradient p) =
        (w.worker p).client.gradient (gradient p) := fun p hp => by
    have hpq := Finset.mem_toList.mp hp
    exact ⟨hpq, halive p hpq, (hall p hpq).2, rfl⟩
  obtain ⟨w₂, hon₂, hraft₂, hserved⟩ := hgathers.exists_served hn (Raft.mem_ids_of_quorum hq hn)
    hne (Finset.nodup_toList q) hps
  obtain ⟨w₃, hon₃, hraft₃, hstored⟩ := hserved.exists_all_stored (M := M) (O := O)
    (A := A) hn fun p hp => Finset.mem_toList.mp hp
  have hon := (hon₁.trans hon₂).trans hon₃
  refine ⟨w₃, hon, n, hn, t, fun p hp => ⟨(hall p hp).1, ?_⟩, fun p hp => ?_,
    fun m hm => hon.frame hm⟩
  · rw [hraft₃, hraft₂]
    exact (hall p hp).2
  · exact hstored p (Finset.mem_toList.mpr hp)

/-- Leader `a` crashes in the middle of round 2, in which `b` waits for it. -/
def trioOrphans : List (Event ℤ) :=
  trioStart ++ [.train "a" 3, .send "a", .train "b" 4, .send "b", .handle 0 ["a", "b"],
    .handle 0 ["a", "b"], .resume 0, .receive 0, .receive 0, .train "b" 5, .send "b",
    .handle 0 ["a", "b", "c"], .raft (.stop "a")]

theorem trioOrphans_runs : (Run.exec (World.step trio sums) (World.init trio fun _ => 0)
    trioOrphans).isSome = true := by
  decide +kernel

theorem trioOrphans_running : ∀ p ∈ ({"b", "c"} : Finset String), ((Run.exec (World.step trio sums)
    (World.init trio fun _ => 0) trioOrphans).get trioOrphans_runs).raft.running p = true := by
  decide +kernel

theorem trio_isQuorum : Ledger.IsQuorum trio.members {"b", "c"} :=
  ⟨by decide +kernel, by decide +kernel⟩

/-- `b` and `c` finish a round without it. -/
theorem training_goes_on_trio : ∃ w w' : World ℤ ℤ, Reachable trio sums w ∧
    World.Onward trio sums {"b", "c"} ["a", "b", "c"] w w' ∧ ∃ n ∈ ({"b", "c"} : Finset String),
      ∀ p ∈ ({"b", "c"} : Finset String), (w'.worker p).round = (w.worker n).round + 1 := by
  have hreach : Reachable trio sums ((Run.exec (World.step trio sums)
      (World.init trio fun _ => 0) trioOrphans).get trioOrphans_runs) := ⟨_, Run.steps_get _⟩
  obtain ⟨w', hon, n, hn, -, -, hstored, -⟩ := training_goes_on (by decide) hreach trio_isQuorum
    trioOrphans_running (A := ["a", "b", "c"]) (by decide) fun _ => 7
  exact ⟨_, w', hreach, hon, n, hn, fun p hp => (hstored p hp).2.1⟩

end Diloco
