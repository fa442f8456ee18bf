/-
When a round number names one model.

* `Books` — the invariant: barriers have distinct terms, a barrier of the latest
  term has closed or seen the last round, no round is closed twice, and what is
  answered was closed;
* `Orderly` — no barrier is created by a worker that lags behind a closed round, and
  none closes a round once there is one of a later term;
* `round_names_model` — in such runs two answers with one round number carry one
  state; `round_names_model_fails` — a deposed leader's timer that closes a round the
  new leader closes too.
-/
import Mathlib.Algebra.Ring.Int.Defs
import Dssd.DilocoWorker
import Dssd.RaftSafety

open Function (update)
open Ledger.State (Ext)

namespace Diloco

open Raft (Cluster Membership Node Ghost Sim)

variable {D Ω : Type} {M : Membership} {O : Outer D Ω}

/-! ### One barrier -/

namespace Barrier

variable {b : Barrier D Ω} {alive : List String} {workerId : String} {pseudoGrad : D}

/-- The barrier has closed no round, or the next one. -/
def Moves (b b' : Barrier D Ω) : Prop :=
  b'.roundDone = b.roundDone ∧ b'.round = b.round ∧ b'.globalState = b.globalState ∨
    b'.roundDone = b.roundDone + 1 ∧ b'.round = b.round + 1

theorem moves_submit : b.Moves (b.submit O alive workerId pseudoGrad) := by
  unfold submit
  dsimp only
  split
  · exact .inr ⟨rfl, rfl⟩
  · exact .inl ⟨rfl, rfl, rfl⟩

theorem moves_timeout : b.Moves (b.timeout O) := by
  unfold timeout
  dsimp only
  split
  · exact .inr ⟨rfl, rfl⟩
  · exact .inl ⟨rfl, rfl, rfl⟩

/-- A call closes the round only if everyone alive has submitted. -/
theorem complete_of_submit
    (h : (b.submit O alive workerId pseudoGrad).roundDone ≠ b.roundDone) :
    complete alive (b.pending.set workerId pseudoGrad) := by
  unfold submit at h
  dsimp only at h
  split at h
  · assumption
  · exact absurd rfl h

/-- The timer closes the round only if someone has submitted. -/
theorem pending_of_timeout (h : (b.timeout O).roundDone ≠ b.roundDone) :
    b.pending.items ≠ [] := by
  unfold timeout at h
  dsimp only at h
  split at h
  · assumption
  · exact absurd rfl h

end Barrier

/-! ### The invariant -/

variable {g : Ghost Unit} {w w' : World D Ω} {e : Event D}

/-- **The books of all barriers.** -/
structure Books (M : Membership) (g : Ghost Unit) (w : World D Ω) : Prop where
  sim : Sim M g w.raft
  owner : ∀ x ∈ w.seats, g.owner x.term = some x.owner
  latest : ∀ x ∈ w.seats, ∃ t i, (w.worker x.owner).barrier = some (t, i) ∧ x.term ≤ t
  seat : ∀ n t i, (w.worker n).barrier = some (t, i) →
    t ≤ (w.raft.node n).currentTerm ∧ ∃ x, w.seats[i]? = some x ∧ x.owner = n ∧ x.term = t
  terms : (w.seats.map Seat.term).Nodup
  rounds : (w.closed.map Prod.fst).Nodup
  top : ∀ x ∈ w.seats, (∀ y ∈ w.seats, y.term ≤ x.term) → ∀ p ∈ w.closed, p.1 ≤ x.barrier.round
  current : ∀ x ∈ w.seats, 0 < x.barrier.roundDone →
    (x.barrier.round, x.barrier.globalState) ∈ w.closed
  answered : ∀ p ∈ w.answered, p ∈ w.closed

theorem books_init (globalState : String → D) :
    Books M Ghost.init (World.init (Ω := Ω) M globalState) where
  sim := Raft.sim_init M
  owner _ h := absurd h (by simp [World.init])
  latest _ h := absurd h (by simp [World.init])
  seat _ _ _ h := absurd h (by simp [World.init])
  terms := List.nodup_nil
  rounds := List.nodup_nil
  top _ h := absurd h (by simp [World.init])
  current _ h := absurd h (by simp [World.init])
  answered _ h := absurd h (by simp [World.init])

/-- Workers may change all but their barriers, and handlers return what was closed. -/
theorem Books.frame (h : Books M g w) (hr : w'.raft = w.raft)
    (hb : ∀ n, (w'.worker n).barrier = (w.worker n).barrier) (hs : w'.seats = w.seats)
    (hc : w'.closed = w.closed) (ha : ∀ p ∈ w'.answered, p ∈ w.answered ∨ p ∈ w.closed) :
    Books M g w' where
  sim := hr ▸ h.sim
  owner := hs ▸ h.owner
  latest x hx := by
    rw [hb]
    exact h.latest x (hs ▸ hx)
  seat n t i hbar := by
    rw [hb] at hbar
    rw [hr, hs]
    exact h.seat n t i hbar
  terms := hs ▸ h.terms
  rounds := hc ▸ h.rounds
  top := by
    rw [hs, hc]
    exact h.top
  current := by
    rw [hs, hc]
    exact h.current
  answered p hp := by
    rw [hc]
    exact (ha p hp).elim (h.answered p) id

theorem Books.setWorker (h : Books M g w) {n : String} {r : Worker D}
    (hr : r.barrier = (w.worker n).barrier) : Books M g (w.setWorker n r) := by
  refine h.frame rfl (fun m => ?_) rfl rfl fun p => .inl
  show (update w.worker n r m).barrier = _
  by_cases hm : m = n
  · subst hm
    rw [Function.update_self, hr]
  · rw [Function.update_of_ne hm]

/-- A barrier moves; it closes a round only if there is none of a later term. -/
theorem Books.setBarrier (h : Books M g w) {i : ℕ} {x : Seat D Ω} {b : Barrier D Ω}
    (hi : w.seats[i]? = some x) (hb : x.barrier.Moves b)
    (htop : b.roundDone ≠ x.barrier.roundDone → ∀ y ∈ w.seats, y.term ≤ x.term) :
    Books M g (w.setBarrier i x b) := by
  set x' : Seat D Ω := { x with barrier := b } with hx'
  have hx := List.mem_of_getElem? hi
  have hlt := Ledger.lt_length_of_getElem? hi
  have hold : ∀ {y : Seat D Ω}, y ∈ w.seats.set i x' → y = x' ∨ y ∈ w.seats := fun hy =>
    (List.mem_or_eq_of_mem_set hy).symm
  have hmem : x' ∈ w.seats.set i x' := List.mem_set hlt x'
  have hterms : (w.seats.set i x').map Seat.term = w.seats.map Seat.term := by
    refine List.ext_getElem? fun k => ?_
    rw [List.getElem?_map, List.getElem?_map]
    by_cases hik : i = k
    · subst hik
      rw [List.getElem?_set_self hlt, hi]
      rfl
    · rw [List.getElem?_set_ne hik]
  have hle : ∀ {t : ℕ}, (∀ y ∈ w.seats.set i x', y.term ≤ t) → ∀ y ∈ w.seats, y.term ≤ t := by
    intro t ht y hy
    have hy' := List.mem_map_of_mem (f := Seat.term) hy
    rw [← hterms] at hy'
    obtain ⟨z, hz, hzy⟩ := List.mem_map.mp hy'
    exact hzy ▸ ht z hz
  have hseat : ∀ n t j, (w.worker n).barrier = some (t, j) → t ≤ (w.raft.node n).currentTerm ∧
      ∃ y, (w.seats.set i x')[j]? = some y ∧ y.owner = n ∧ y.term = t := by
    intro n t j hbar
    obtain ⟨ht, y, hj, hyo, hyt⟩ := h.seat n t j hbar
    refine ⟨ht, ?_⟩
    by_cases hij : i = j
    · subst hij
      obtain rfl := Option.some_inj.mp (hi.symm.trans hj)
      exact ⟨x', List.getElem?_set_self hlt, hyo, hyt⟩
    · exact ⟨y, by rw [List.getElem?_set_ne hij, hj], hyo, hyt⟩
  have howner : ∀ y ∈ w.seats.set i x', g.owner y.term = some y.owner := by
    intro y hy
    rcases hold hy with rfl | hy
    · exact h.owner x hx
    · exact h.owner y hy
  have hlatest : ∀ y ∈ w.seats.set i x', ∃ t j, (w.worker y.owner).barrier = some (t, j) ∧
      y.term ≤ t := by
    intro y hy
    rcases hold hy with rfl | hy
    · exact h.latest x hx
    · exact h.latest y hy
  rcases hb with ⟨hdone, hround, hstate⟩ | ⟨hdone, hround⟩
  · -- no round is closed
    have hclosed : (w.setBarrier i x b).closed = w.closed := if_pos hdone
    refine ⟨h.sim, howner, hlatest, hseat, hterms ▸ h.terms, hclosed ▸ h.rounds, ?_, ?_, ?_⟩
    · intro y hy hmax p hp
      rw [hclosed] at hp
      have hmax' := hle hmax
      rcases hold hy with rfl | hy
      · show p.1 ≤ b.round
        rw [hround]
        exact h.top x hx hmax' p hp
      · exact h.top y hy hmax' p hp
    · intro y hy hpos
      rw [hclosed]
      rcases hold hy with rfl | hy
      · show (b.round, b.globalState) ∈ w.closed
        rw [hround, hstate]
        exact h.current x hx (hdone ▸ hpos)
      · exact h.current y hy hpos
    · rw [hclosed]
      exact h.answered
  · -- the barrier of the latest term closes the next round
    have hne : b.roundDone ≠ x.barrier.roundDone := by omega
    have hclosed : (w.setBarrier i x b).closed = w.closed ++ [(b.round, b.globalState)] :=
      if_neg hne
    have hlast := h.top x hx (htop hne)
    refine ⟨h.sim, howner, hlatest, hseat, hterms ▸ h.terms, ?_, ?_, ?_, ?_⟩
    · rw [hclosed, List.map_append, List.map_singleton, ← List.concat_eq_append, List.nodup_concat]
      refine ⟨fun hin => ?_, h.rounds⟩
      obtain ⟨p, hp, hpr⟩ := List.mem_map.mp hin
      have := hlast p hp
      omega
    · intro y hy hmax p hp
      have heq : y = x' := by
        refine List.inj_on_of_nodup_map (hterms ▸ h.terms) hy hmem (le_antisymm ?_ (hmax x' hmem))
        rcases hold hy with rfl | hy
        · exact le_rfl
        · exact htop hne y hy
      rw [heq]
      rw [hclosed] at hp
      rcases List.mem_append.mp hp with hp | hp
      · exact (hlast p hp).trans (by show _ ≤ b.round; omega)
      · rw [List.mem_singleton.mp hp]
    · intro y hy hpos
      rw [hclosed]
      rcases hold hy with rfl | hy
      · exact List.mem_append_right _ (List.mem_singleton_self _)
      · exact List.mem_append_left _ (h.current y hy hpos)
    · intro p hp
      rw [hclosed]
      exact List.mem_append_left _ (h.answered p hp)

/-! ### Orderly steps -/

namespace World

/-- The `Sync` will create a barrier. -/
def Creates (w : World D Ω) (q : SyncRequest D) : Prop :=
  (w.worker q.target).barrier.map Prod.fst ≠ some q.term

/-- What is pending in the barrier that the `Sync` will use. -/
def pending (w : World D Ω) (q : SyncRequest D) : Dict D :=
  match (w.worker q.target).barrier with
  | some (t, i) => if t ≠ q.term then Dict.empty
    else (w.seats[i]?).elim Dict.empty fun x => x.barrier.pending
  | none => Dict.empty

/-- No barrier is created by a worker that lags behind a closed round, and none closes a
round once there is one of a later term. -/
def Orderly (w : World D Ω) : Event D → Prop
  | .handle k alive => ∀ q ∈ w.requests[k]?, (w.raft.node q.target).state = (q.term, true) →
      (w.Creates q → ∀ p ∈ w.closed, p.1 ≤ (w.worker q.target).round) ∧
        (Barrier.complete alive ((w.pending q).set q.workerId q.pseudoGradient) →
          ∀ y ∈ w.seats, y.term ≤ q.term)
  | .timeout i => ∀ x ∈ w.seats[i]?, x.barrier.pending.items ≠ [] → ∀ y ∈ w.seats, y.term ≤ x.term
  | _ => True

instance (w : World D Ω) (q : SyncRequest D) : Decidable (w.Creates q) := by
  unfold Creates
  infer_instance

instance : (w : World D Ω) → (e : Event D) → Decidable (w.Orderly e)
  | _, .handle _ _ => by unfold Orderly; infer_instance
  | _, .timeout _ => by unfold Orderly; infer_instance
  | _, .raft _ | _, .train _ _ | _, .send _ | _, .loseRequest _ | _, .resume _ | _, .cancel _
  | _, .receive _ | _, .loseResponse _ | _, .fail _ => .isTrue trivial

end World

/-- The only barrier of a leader's term is the leader's own. -/
theorem Books.term_ne (h : Books M g w) {n : String} {term : ℕ}
    (hstate : (w.raft.node n).state = (term, true))
    (hnew : (w.worker n).barrier.map Prod.fst ≠ some term) : ∀ y ∈ w.seats, y.term ≠ term := by
  intro y hy hterm
  have hown : y.owner = n := by
    have := h.owner y hy
    rw [hterm, h.sim.owner_of_state hstate] at this
    exact (Option.some_inj.mp this).symm
  obtain ⟨t, i, hbar, hle⟩ := h.latest y hy
  rw [hown] at hbar
  have hcur := (h.seat n t i hbar).1
  rw [(Node.state_eq_true.mp hstate).1] at hcur
  refine hnew ?_
  rw [hbar]
  exact congrArg some (le_antisymm hcur (hterm ▸ hle))

/-- A leader that does not lag behind creates the barrier of its term. -/
theorem Books.createBarrier (h : Books M g w) {n : String} {term : ℕ}
    (hstate : (w.raft.node n).state = (term, true))
    (hnew : (w.worker n).barrier.map Prod.fst ≠ some term)
    (hround : ∀ p ∈ w.closed, p.1 ≤ (w.worker n).round) :
    Books M g (w.createBarrier O n term) := by
  have hne := h.term_ne hstate hnew
  have hterm := (Node.state_eq_true.mp hstate).1
  set x : Seat D Ω := ⟨n, term, Barrier.create O
    (w.worker n).globalState (w.worker n).round⟩ with hx
  have hseats : (w.createBarrier O n term).seats = w.seats ++ [x] := rfl
  have hmem : ∀ {y : Seat D Ω}, y ∈ w.seats ++ [x] → y ∈ w.seats ∨ y = x := fun hy =>
    (List.mem_append.mp hy).imp id List.mem_singleton.mp
  have hself : ((w.createBarrier O n term).worker n).barrier = some (term, w.seats.length) := by
    show (update w.worker n _ n).barrier = _
    rw [Function.update_self]
  have hother : ∀ {m : String}, m ≠ n →
      (w.createBarrier O n term).worker m = w.worker m := fun hm => Function.update_of_ne hm _ _
  refine ⟨h.sim, ?_, ?_, ?_, ?_, h.rounds, ?_, ?_, h.answered⟩
  · intro y hy
    rcases hmem (hseats ▸ hy) with hy | rfl
    · exact h.owner y hy
    · exact h.sim.owner_of_state hstate
  · intro y hy
    rcases hmem (hseats ▸ hy) with hy | rfl
    · obtain ⟨t, i, hbar, hle⟩ := h.latest y hy
      by_cases hyn : y.owner = n
      · rw [hyn] at hbar ⊢
        exact ⟨term, _, hself, hle.trans ((h.seat n t i hbar).1.trans hterm.le)⟩
      · exact ⟨t, i, by rw [hother hyn, hbar], hle⟩
    · exact ⟨term, _, hself, le_rfl⟩
  · intro m t i hbar
    rw [hseats]
    by_cases hm : m = n
    · subst hm
      rw [hself] at hbar
      cases hbar
      exact ⟨hterm.ge, x, List.getElem?_concat_length, rfl, rfl⟩
    · rw [hother hm] at hbar
      obtain ⟨ht, y, hy, hrest⟩ := h.seat m t i hbar
      exact ⟨ht, y, by rw [List.getElem?_append_left (Ledger.lt_length_of_getElem? hy), hy], hrest⟩
  · rw [hseats, List.map_append, List.map_singleton, ← List.concat_eq_append, List.nodup_concat]
    refine ⟨fun hin => ?_, h.terms⟩
    obtain ⟨y, hy, hyt⟩ := List.mem_map.mp hin
    exact hne y hy hyt
  · intro y hy hmax p hp
    rcases hmem (hseats ▸ hy) with hy | rfl
    · exact h.top y hy (fun z hz => hmax z (hseats ▸ List.mem_append_left _ hz)) p hp
    · exact hround p hp
  · intro y hy hpos
    rcases hmem (hseats ▸ hy) with hy | rfl
    · exact h.current y hy hpos
    · exact absurd hpos (lt_irrefl 0)

/-- A leader finds the barrier of its term, or creates it. -/
theorem Books.enter (h : Books M g w) {q : SyncRequest D}
    (hstate : (w.raft.node q.target).state = (q.term, true))
    (hround : w.Creates q → ∀ p ∈ w.closed, p.1 ≤ (w.worker q.target).round) :
    Books M g (w.enter O q.target q.term).1 ∧
      ∃ x, (w.enter O q.target q.term).1.seats[(w.enter O q.target q.term).2]? = some x ∧
        x.term = q.term ∧ x.barrier.pending = w.pending q ∧
          ∀ y ∈ (w.enter O q.target q.term).1.seats, y ∈ w.seats ∨ y.term = q.term := by
  have hfresh : w.Creates q → Books M g (w.createBarrier O q.target q.term) ∧
      ∃ x, (w.createBarrier O q.target q.term).seats[w.seats.length]? = some x ∧
        x.term = q.term ∧ x.barrier.pending = Dict.empty ∧
          ∀ y ∈ (w.createBarrier O q.target q.term).seats, y ∈ w.seats ∨ y.term = q.term := by
    intro hnew
    refine ⟨h.createBarrier hstate hnew (hround hnew), _, List.getElem?_concat_length, rfl, rfl,
      fun y hy => ?_⟩
    rcases List.mem_append.mp hy with hy | hy
    · exact .inl hy
    · rw [List.mem_singleton.mp hy]
      exact .inr rfl
  unfold World.enter World.pending
  cases hbar : (w.worker q.target).barrier with
  | none => exact hfresh (by simp [World.Creates, hbar])
  | some p =>
    obtain ⟨t, i⟩ := p
    dsimp only
    by_cases ht : t = q.term
    · rw [if_neg (not_not.mpr ht), if_neg (not_not.mpr ht)]
      obtain ⟨-, x, hi, -, hxt⟩ := h.seat q.target t i hbar
      refine ⟨h, x, hi, hxt.trans ht, ?_, fun y hy => .inl hy⟩
      rw [hi]
      rfl
    · rw [if_pos ht, if_pos ht]
      exact hfresh (by simp [World.Creates, hbar, ht])

/-- A handler returns what its barrier has, which has closed a round. -/
theorem Books.respond (h : Books M g w) {id : ℕ} {workerId : String} {x : Seat D Ω}
    (hx : x ∈ w.seats) (hpos : 0 < x.barrier.roundDone) :
    Books M g (w.respond id workerId x.barrier) := by
  refine h.frame rfl (fun _ => rfl) rfl rfl fun p hp => ?_
  rcases List.mem_append.mp hp with hp | hp
  · exact .inl hp
  · rw [List.mem_singleton.mp hp]
    exact .inr (h.current x hx hpos)

theorem Books.sync (h : Books M g w) {q : SyncRequest D} {alive : List String}
    (hok : (w.raft.node q.target).state = (q.term, true) →
      (w.Creates q → ∀ p ∈ w.closed, p.1 ≤ (w.worker q.target).round) ∧
        (Barrier.complete alive ((w.pending q).set q.workerId q.pseudoGradient) →
          ∀ y ∈ w.seats, y.term ≤ q.term)) : Books M g (w.sync O q alive) := by
  unfold World.sync
  split
  · exact h
  rename_i hstate
  obtain ⟨hround, hlast⟩ := hok (not_not.mp hstate)
  obtain ⟨h₁, x, hi, hxt, hpend, hseats⟩ := h.enter (O := O) (not_not.mp hstate) hround
  dsimp only
  rw [hi]
  dsimp only
  have hm : x.barrier.Moves (x.barrier.submit O alive q.workerId q.pseudoGradient) :=
    Barrier.moves_submit
  have h₂ := h₁.setBarrier hi hm fun hne y hy => by
    have hcomp := Barrier.complete_of_submit hne
    rw [hpend] at hcomp
    rw [hxt]
    exact (hseats y hy).elim (hlast hcomp y) fun heq => heq.le
  split
  · exact h₂.frame rfl (fun _ => rfl) rfl rfl fun p => .inl
  · rename_i hne
    have hlt := Ledger.lt_length_of_getElem? hi
    refine h₂.respond
      (x := { x with barrier := x.barrier.submit O alive q.workerId q.pseudoGradient })
      (List.mem_set hlt _) ?_
    rcases hm with ⟨hsame, -⟩ | ⟨hdone, -⟩
    · exact absurd hsame hne
    · show 0 < (x.barrier.submit O alive q.workerId q.pseudoGradient).roundDone
      omega

/-- Elections, votes and terms move on under the barriers. -/
theorem Books.raft (h : Books M g w) {c : Cluster Unit} {e : Raft.Event Unit}
    (hc : Cluster.step M w.raft e = some c) :
    ∃ g', Ext g.toState g'.toState ∧ Books M g' { w with raft := c } := by
  obtain ⟨g', hx, -, hs⟩ := h.sim.step hc
  refine ⟨g', hx, hs, fun x hx' => hx.owner _ _ (h.owner x hx'), h.latest, ?_, h.terms, h.rounds,
    h.top, h.current, h.answered⟩
  intro n t i hbar
  obtain ⟨ht, hseat⟩ := h.seat n t i hbar
  have hterm := hx.term_le n
  rw [(h.sim.node n).term, (hs.node n).term] at hterm
  exact ⟨ht.trans hterm, hseat⟩

/-- Orderly steps keep the books, one case for each event. -/
theorem Books.step (h : Books M g w) (hok : w.Orderly e) (hs : w.step M O e = some w') :
    ∃ g', Ext g.toState g'.toState ∧ Books M g' w' := by
  have hlose : ∀ {requests waiters responses}, Books M g { w with requests, waiters, responses } :=
    h.frame rfl (fun _ => rfl) rfl rfl fun p => .inl
  cases World.step_change hs with
  | raft hc => exact h.raft hc
  | train | fail => exact ⟨g, Ext.refl _, h.setWorker rfl⟩
  | @send n pseudoGrad hn =>
    refine ⟨g, Ext.refl _, ?_⟩
    unfold World.call
    dsimp only
    split
    · exact h
    · have h₁ := h.setWorker (n := n)
        (r := { w.worker n with client := .waiting w.nextCall pseudoGrad }) rfl
      exact h₁.frame rfl (fun _ => rfl) rfl rfl fun p => .inl
  | handle hq => exact ⟨g, Ext.refl _, hlose.sync (hok _ hq)⟩
  | resume ht hx hdone =>
    exact ⟨g, Ext.refl _, hlose.respond (List.mem_of_getElem? hx) (Nat.zero_lt_of_lt hdone)⟩
  | timeout hx htimer =>
    exact ⟨g, Ext.refl _, h.setBarrier hx Barrier.moves_timeout fun hne =>
      hok _ hx (Barrier.pending_of_timeout hne)⟩
  | store ha hn => exact ⟨g, Ext.refl _, hlose.setWorker rfl⟩
  | loseRequest | cancel | ignore | loseResponse => exact ⟨g, Ext.refl _, hlose⟩

theorem ReachableWhere.books (h : ReachableWhere M O World.Orderly w) :
    ∃ g : Ghost Unit, Books M g w := by
  obtain ⟨globalState, hrun⟩ := h
  obtain ⟨g, -, hg⟩ := Run.history (fun w g => Books M g w)
    (fun g g' => Ext g.toState g'.toState) (fun _ => Ext.refl _) Ext.trans
    (fun ⟨_, hok, hs⟩ hg => Books.step hg hok hs) hrun (books_init globalState)
  exact ⟨g, hg⟩

/-- **A round number names one model**, in every run whose steps are orderly. -/
theorem round_names_model (h : ReachableWhere M O World.Orderly w) :
    ∀ a ∈ w.answered, ∀ b ∈ w.answered, a.1 = b.1 → a.2 = b.2 := by
  obtain ⟨g, hg⟩ := h.books
  intro a ha b hb hab
  rw [List.inj_on_of_nodup_map hg.rounds (hg.answered a ha) (hg.answered b hb) hab]

/-! ### Three workers -/

theorem trio_nodup : ["a", "b", "c"].Nodup := by decide

theorem trio_nonempty : "" ∉ ["a", "b", "c"] := by decide

def trio : Membership := .ofIds ["a", "b", "c"] trio_nodup trio_nonempty

/-- Models are numbers, the gradients are added up, and a step goes down the sum. -/
def sums : Outer ℤ ℤ := ⟨List.sum, id, fun s d => (s - d, s - d)⟩

/-- `l` wins an election with the vote of `f`, whose request is number `k` on the wire, and
`f` hears of it. -/
def trioElect (l f : String) (k term : ℕ) : List (Event ℤ) :=
  [.raft (.electionTimeout l), .raft (.handleRequestVote k), .raft (.voteReply 0),
    .raft (.replicate l f term), .raft (.handleAppendEntries 0)]

def trioStart : List (Event ℤ) :=
  [.raft (.start "a"), .raft (.start "b"), .raft (.start "c")] ++ trioElect "a" "b" 0 1

/-- Two workers finish round 1 with leader `a`, and round 2 with leader `b`. -/
def trioRounds : List (Event ℤ) :=
  trioStart ++ [.train "a" 3, .send "a", .train "b" 4, .send "b", .handle 0 ["a", "b"],
    .handle 0 ["a", "b"], .resume 0, .receive 0, .receive 0] ++ trioElect "b" "c" 2 2 ++
    [.train "b" 5, .send "b", .handle 0 ["a", "b", "c"], .timeout 1, .resume 0]

theorem round_names_model_trio :
    ∃ w, ReachableWhere trio sums World.Orderly w ∧
      w.answered = [(1, -7), (1, -7), (2, -12)] ∧
      ∀ a ∈ w.answered, ∀ b ∈ w.answered, a.1 = b.1 → a.2 = b.2 :=
  ⟨(Run.execWhere (World.step trio sums) World.Orderly (World.init trio fun _ => 0)
      trioRounds).get (by decide +kernel),
    ⟨_, Run.stepsWhere_get _⟩, by decide +kernel, round_names_model ⟨_, Run.stepsWhere_get _⟩⟩

/-- `b` takes over and closes round 1 while the barrier of `a` waits for its timer, which
closes round 1 as well. -/
def trioDeposed : List (Event ℤ) :=
  trioStart ++ [.train "a" 3, .send "a", .handle 0 ["a", "b", "c"]] ++ trioElect "b" "c" 2 2 ++
    [.train "c" 5, .send "c", .handle 0 ["a", "b", "c"], .timeout 1, .resume 1, .timeout 0,
      .resume 0]

/-- Both workers are told that their model is the one of round 1. -/
theorem round_names_model_fails :
    ∃ w, Reachable trio sums w ∧
      ∃ a ∈ w.answered, ∃ b ∈ w.answered, a.1 = b.1 ∧ a.2 ≠ b.2 :=
  ⟨(Run.exec (World.step trio sums) (World.init trio fun _ => 0) trioDeposed).get
      (by decide +kernel),
    ⟨_, Run.steps_get _⟩, (1, -5), by decide +kernel, (1, -3), by decide +kernel, rfl, by decide⟩

end Diloco
