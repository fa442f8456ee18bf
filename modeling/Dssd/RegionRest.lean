/-
The region servers come to rest (`shard_state.py`, `handoff.py`, `region_server.py`).

Every wait of the servers is for a lock, for an answer or for a log entry.  What is left
to do has a price, and each step of a server pays some of it:

* `Tick.visits` and `Tick.toDo` — what the tick of a node has before it; phase 1 goes first,
  since it may find any number of agents to hand off;
* `World.effort` — that of all nodes, of the locks, and of what waits or is on the wire;
* `Covers` — all of it is at these nodes and these replicas; `Lessens` — a step that pays,
  and `lessens_of`, the accounts of one tick and one lock;
* **`servers_come_to_rest`** — without new work the servers take only so many steps,
  whatever Raft does and whatever fails; and they can always get to where nothing is left.
-/
import Dssd.RegionDurable
import Mathlib.Algebra.BigOperators.Group.Finset.Basic
import Mathlib.Algebra.Order.BigOperators.Group.Finset
import Mathlib.Data.Prod.Lex
import Mathlib.Order.WellFounded

open Function (update)

namespace Region

open Shards

variable {S : Setup} {w w' : World} {N : Finset String} {P : Finset (String × String)}

/-! ### What is left to do -/

namespace Tick

/-- Steps that phase 1 still takes. -/
def visits : Tick → ℕ
  | visit shards _ => 2 * shards.length + 1
  | enter _ shards _ => 2 * shards.length + 2
  | _ => 0

/-- The price of phases 2 and 3. -/
def toDo : Tick → ℕ
  | handOff ds done => 8 * ds.length + 2 * done.length + 2
  | await _ ds done => 8 * ds.length + 2 * done.length + 4
  | remove shards _ => 2 * shards.length + 1
  | _ => 0

/-- The shards that a tick may still lock. -/
def shards : Tick → List String
  | idle => []
  | visit shards ds => shards ++ ds.map Departure.shard
  | enter s shards ds => s :: shards ++ ds.map Departure.shard
  | handOff ds done => ds.map Departure.shard ++ done.map Departure.shard
  | await c ds done => c.departure.shard :: ds.map Departure.shard ++ done.map Departure.shard
  | remove shards _ => shards

end Tick

/-- The price of what the lock of a replica is held for; a tick pays for it when it takes it. -/
def lockToDo : Option Holder → ℕ
  | none => 1
  | some (.catchUp _ _ _ _) => 4
  | some (.place _ _ _ _ _) => 3
  | some (.remove _ _ _) => 0

namespace World

def visits (w : World) (N : Finset String) : ℕ := ∑ n ∈ N, (w.tick n).visits

def toDo (w : World) (N : Finset String) (P : Finset (String × String)) : ℕ :=
  ∑ n ∈ N, (w.tick n).toDo + ∑ p ∈ P, lockToDo (w.lock p.1 p.2) +
    (4 * w.waiting.length + 5 * w.requests.length + w.replies.length)

def effort (w : World) (N : Finset String) (P : Finset (String × String)) : ℕ ×ₗ ℕ :=
  toLex (w.visits N, w.toDo N P)

end World

/-- All that is left to do is at the nodes of `N` and the replicas of `P`. -/
structure Covers (S : Setup) (N : Finset String) (P : Finset (String × String)) (w : World) :
    Prop where
  grid : ∀ s ∈ allShardIds S.grid, ∀ n ∈ S.M.ids, (s, n) ∈ P
  nodes : ∀ n, w.tick n ≠ .idle → n ∈ N
  shards : ∀ n, ∀ s ∈ (w.tick n).shards, (s, n) ∈ P
  lock : ∀ s n, w.lock s n ≠ none → (s, n) ∈ P
  waiting : ∀ t ∈ w.waiting, (t.shard, t.node) ∈ P
  requests : ∀ c ∈ w.requests, c.departure.dest ∈ allShardIds S.grid →
    (c.departure.dest, c.target) ∈ P

/-- A step that pays. -/
structure Lessens (S : Setup) (N : Finset String) (P : Finset (String × String)) (w w' : World) :
    Prop where
  covers : Covers S N P w'
  lt : w'.effort N P < w.effort N P

/-! ### Accounts -/

/-- Sums of functions that differ in one place. -/
theorem sum_add_of_eq_off {α : Type*} [DecidableEq α] {A : Finset α} {f g : α → ℕ} {a : α}
    (h : a ∈ A ∨ g a = f a) (hoff : ∀ b ≠ a, g b = f b) :
    ∑ b ∈ A, g b + f a = ∑ b ∈ A, f b + g a := by
  by_cases ha : a ∈ A
  · have hrest : ∑ b ∈ A.erase a, g b = ∑ b ∈ A.erase a, f b :=
      Finset.sum_congr rfl fun b hb => hoff b (Finset.ne_of_mem_erase hb)
    rw [← Finset.add_sum_erase A g ha, ← Finset.add_sum_erase A f ha, hrest]
    omega
  · have hsum : ∑ b ∈ A, g b = ∑ b ∈ A, f b :=
      Finset.sum_congr rfl fun b hb => hoff b fun hba => ha (hba ▸ hb)
    rw [hsum, h.resolve_left ha]

/-- **The accounts of a step** that changes the tick of `n` and the lock of replica `(s, m)`. -/
theorem lessens_of {n s m : String} (h : Covers S N P w)
    (htick : ∀ k ≠ n, w'.tick k = w.tick k) (hn : w.tick n ≠ .idle ∨ w'.tick n = w.tick n)
    (hshards : (w'.tick n).shards ⊆ (w.tick n).shards)
    (hlock : ∀ s' m', ¬ (s' = s ∧ m' = m) → w'.lock s' m' = w.lock s' m')
    (hp : (s, m) ∈ P ∨ w'.lock s m = w.lock s m)
    (hwait : ∀ t ∈ w'.waiting, t ∈ w.waiting ∨ (t.shard, t.node) ∈ P)
    (hreq : ∀ c ∈ w'.requests, c ∈ w.requests ∨ c.target ∈ S.M.ids)
    (hlt : (w'.tick n).visits < (w.tick n).visits ∨ (w'.tick n).visits = (w.tick n).visits ∧
      (w'.tick n).toDo + lockToDo (w'.lock s m) +
          (4 * w'.waiting.length + 5 * w'.requests.length + w'.replies.length) <
        (w.tick n).toDo + lockToDo (w.lock s m) +
          (4 * w.waiting.length + 5 * w.requests.length + w.replies.length)) :
    Lessens S N P w w' := by
  have hnN : n ∈ N ∨ w'.tick n = w.tick n := hn.imp_left (h.nodes n)
  refine ⟨⟨h.grid, fun k hk => ?_, fun k x hx => ?_, fun s' m' hl => ?_, fun t ht => ?_,
    fun c hc hd => ?_⟩, ?_⟩
  · by_cases hkn : k = n
    · subst hkn
      refine hnN.elim id fun heq => h.nodes k ?_
      rwa [← heq]
    · exact h.nodes k (htick k hkn ▸ hk)
  · by_cases hkn : k = n
    · subst hkn
      exact h.shards k x (hshards hx)
    · exact h.shards k x (htick k hkn ▸ hx)
  · by_cases heq : s' = s ∧ m' = m
    · obtain ⟨rfl, rfl⟩ := heq
      refine hp.elim id fun heq => h.lock s' m' ?_
      rwa [← heq]
    · exact h.lock s' m' (hlock s' m' heq ▸ hl)
  · exact (hwait t ht).elim (h.waiting t) id
  · exact (hreq c hc).elim (fun hold => h.requests c hold hd) fun hnew => h.grid _ hd _ hnew
  · have hvisits := sum_add_of_eq_off (A := N) (a := n) (f := fun k => (w.tick k).visits)
      (g := fun k => (w'.tick k).visits) (hnN.imp_right (congrArg Tick.visits))
      fun k hk => congrArg Tick.visits (htick k hk)
    have htoDo := sum_add_of_eq_off (A := N) (a := n) (f := fun k => (w.tick k).toDo)
      (g := fun k => (w'.tick k).toDo) (hnN.imp_right (congrArg Tick.toDo))
      fun k hk => congrArg Tick.toDo (htick k hk)
    have hlocks := sum_add_of_eq_off (A := P) (a := (s, m))
      (f := fun p => lockToDo (w.lock p.1 p.2)) (g := fun p => lockToDo (w'.lock p.1 p.2))
      (hp.imp_right (congrArg lockToDo))
      fun p hne => congrArg lockToDo (hlock p.1 p.2 fun heq => hne (Prod.ext heq.1 heq.2))
    dsimp only at hlocks
    rw [World.effort, World.effort, Prod.Lex.toLex_lt_toLex]
    simp only [World.visits, World.toDo]
    rcases hlt with hlt | ⟨heq, hlt⟩
    · exact .inl (by omega)
    · exact .inr ⟨by omega, by omega⟩

/-! ### Steps that pay -/

section steps

variable {s n : String} {k : ℕ} {a : AgentState} {caller : Option Call}

/-- A lock changes hands, and at most one call is answered. -/
theorem Covers.settle (h : Covers S N P w) {u : World} (hp : (s, n) ∈ P)
    (htick : u.tick = w.tick) (hlock : ∀ s' m', ¬ (s' = s ∧ m' = n) → u.lock s' m' = w.lock s' m')
    (hwait : ∀ t ∈ u.waiting, t ∈ w.waiting) (hreq : u.requests = w.requests)
    (hlt : lockToDo (u.lock s n) + 4 * u.waiting.length + u.replies.length + 1 <
      lockToDo (w.lock s n) + 4 * w.waiting.length + w.replies.length) (a : AgentState) (ok : Bool)
    (caller : Option Call) : Lessens S N P w (u.finish a ok caller) := by
  obtain ⟨htick', hwait', hreq', hreplies⟩ := u.frame_finish a ok caller
  have hlock' : (u.finish a ok caller).lock = u.lock := by rw [World.toShards_finish]
  refine lessens_of (n := n) (s := s) (m := n) h (fun _ _ => by rw [htick', htick])
    (.inr (by rw [htick', htick])) (by rw [htick', htick]; exact List.Subset.refl _)
    (fun s' m' hne => by rw [hlock']; exact hlock s' m' hne) (.inl hp)
    (fun t ht => .inl (hwait t (hwait' ▸ ht))) (fun c hc => .inl (hreq ▸ hreq' ▸ hc)) (.inr ?_)
  rw [htick', htick, hlock', hwait', hreq', hreq]
  exact ⟨rfl, by omega⟩

/-- The tick of a node goes on with the next shard, once the lock is free again. -/
theorem Covers.next (h : Covers S N P w) {u : World} {ids : List String} {t i : ℕ}
    (hheld : w.lock s n = some (.remove ids t i)) (hfree : u.lock s n = none)
    (hlock : ∀ s' m', ¬ (s' = s ∧ m' = n) → u.lock s' m' = w.lock s' m')
    (htick : u.tick = w.tick) (hwait : u.waiting = w.waiting) (hreq : u.requests = w.requests)
    (hrep : u.replies = w.replies) {shards : List String} {done : List Departure}
    (hat : w.tick n = .remove (s :: shards) done) : Lessens S N P w (u.next n) := by
  have hnext : u.next n = u.setTick n (.remove shards done) := by
    rw [World.next, htick, hat]
  have hself : (u.next n).tick n = .remove shards done := by
    rw [hnext]
    exact Function.update_self _ _ _
  have hlock' : (u.next n).lock = u.lock := by rw [World.toShards_next]
  refine lessens_of (n := n) (s := s) (m := n) h (fun j hj => ?_) (.inl (by simp [hat])) ?_
    (fun s' m' hne => by rw [hlock']; exact hlock s' m' hne)
    (.inl (h.lock s n (by simp [hheld]))) (fun t ht => .inl ?_) (fun c hc => .inl ?_) (.inr ?_)
  · rw [hnext]
    exact (Function.update_of_ne hj _ _).trans (congrFun htick j)
  · rw [hself, hat]
    exact fun _ hx => List.mem_cons_of_mem _ hx
  · rw [hnext] at ht
    exact hwait ▸ ht
  · rw [hnext] at hc
    exact hreq ▸ hc
  · rw [hself, hat, hlock', hfree, hheld]
    refine ⟨rfl, ?_⟩
    rw [hnext]
    show _ + (4 * u.waiting.length + 5 * u.requests.length + u.replies.length) < _
    rw [hwait, hreq, hrep]
    simp only [Tick.toDo, lockToDo, List.length_cons]
    omega

/-- The tick of a node goes on; nobody else does anything. -/
theorem Covers.setTick (h : Covers S N P w) {t : Tick} (hn : w.tick n ≠ .idle)
    (hsub : t.shards ⊆ (w.tick n).shards) {requests : List Call} {nextCall : ℕ}
    {replies : List (Call × HandOffResponse)}
    (hreq : ∀ c ∈ requests, c ∈ w.requests ∨ c.target ∈ S.M.ids)
    (hlt : t.visits < (w.tick n).visits ∨ t.visits = (w.tick n).visits ∧
      t.toDo + 5 * requests.length + replies.length <
        (w.tick n).toDo + 5 * w.requests.length + w.replies.length) :
    Lessens S N P w { w.setTick n t with requests, nextCall, replies } := by
  have hself : (w.setTick n t).tick n = t := Function.update_self _ _ _
  refine lessens_of (n := n) (s := "") (m := n) h (fun j hj => Function.update_of_ne hj _ _)
    (.inl hn) ?_ (fun _ _ _ => rfl) (.inr rfl) (fun _ ht => .inl ht) hreq ?_
  · show ((w.setTick n t).tick n).shards ⊆ _
    rwa [hself]
  · show ((w.setTick n t).tick n).visits < _ ∨ ((w.setTick n t).tick n).visits = _ ∧
      ((w.setTick n t).tick n).toDo + lockToDo (w.lock "" n) +
        (4 * w.waiting.length + 5 * requests.length + replies.length) < _
    rw [hself]
    refine hlt.imp_right fun h => ⟨h.1, ?_⟩
    have := h.2
    omega

theorem length_eraseIdx_add_one {α : Type*} {l : List α} {x : α} (hk : l[k]? = some x) :
    (l.eraseIdx k).length + 1 = l.length := by
  obtain ⟨hlt, -⟩ := List.getElem?_eq_some_iff.mp hk
  rw [List.length_eraseIdx_of_lt hlt]
  omega

theorem Covers.handOff (h : Covers S N P w) {c : Call} (hk : w.requests[k]? = some c) :
    Lessens S N P w ({ w with requests := w.requests.eraseIdx k }.handOff S c) := by
  have hlen := length_eraseIdx_add_one hk
  have hreq : ∀ d ∈ w.requests.eraseIdx k, d ∈ w.requests ∨ d.target ∈ S.M.ids :=
    fun d hd => .inl (List.mem_of_mem_eraseIdx hd)
  have hrefuse : ∀ reason, Lessens S N P w { w with
      requests := w.requests.eraseIdx k
      replies := w.replies ++ [(c, ⟨false, reason⟩)] } := fun reason =>
    lessens_of (n := "") (s := "") (m := "") h (fun _ _ => rfl) (.inr rfl) (List.Subset.refl _)
      (fun _ _ _ => rfl) (.inr rfl) (fun _ ht => .inl ht) hreq
      (.inr ⟨rfl, by simp only [List.length_append, List.length_singleton]; omega⟩)
  unfold World.handOff
  dsimp only
  split
  · exact hrefuse _
  rename_i hdest
  split
  · exact hrefuse _
  split
  · exact hrefuse _
  · refine lessens_of (n := "") (s := "") (m := "") h (fun _ _ => rfl) (.inr rfl)
      (List.Subset.refl _) (fun _ _ _ => rfl) (.inr rfl) (fun t ht => ?_) hreq
      (.inr ⟨rfl, by simp only [List.length_append, List.length_singleton]; omega⟩)
    refine (List.mem_append.mp ht).imp_right fun ht => ?_
    rw [List.mem_singleton.mp ht]
    exact h.requests c (List.mem_of_getElem? hk) (not_not.mp hdest)

theorem Covers.acquire (h : Covers S N P w) {t : AddCall} (hk : w.waiting[k]? = some t)
    (hfree : w.lock t.shard t.node = none) : Lessens S N P w (w.acquire k t) := by
  have hlen := length_eraseIdx_add_one hk
  have hp := h.waiting t (List.mem_of_getElem? hk)
  unfold World.acquire
  dsimp only
  split
  · refine lessens_of (n := "") (s := t.shard) (m := t.node) h (fun _ _ => rfl) (.inr rfl)
      (List.Subset.refl _) (fun s' m' hne => ?_) (.inl hp)
      (fun u hu => .inl (List.mem_of_mem_eraseIdx hu)) (fun _ hc => .inl hc) (.inr ⟨rfl, ?_⟩)
    · exact lock_setReplica.trans (if_neg hne)
    · rw [show (World.setReplica _ t.shard t.node _).lock t.shard t.node = _ from
        lock_setReplica_self, hfree]
      show (w.tick "").toDo + 4 + (4 * (w.waiting.eraseIdx k).length + 5 * w.requests.length +
        w.replies.length) < (w.tick "").toDo + 1 + _
      omega
  · refine h.settle (u := { w with waiting := w.waiting.eraseIdx k }) hp rfl (fun _ _ _ => rfl)
      (fun u hu => List.mem_of_mem_eraseIdx hu) rfl ?_ _ _ _
    show lockToDo (w.lock t.shard t.node) + 4 * (w.waiting.eraseIdx k).length +
      w.replies.length + 1 < _
    omega

/-- An `add_agent` gives its lock back. -/
theorem Covers.release (h : Covers S N P w) (hheld : 3 ≤ lockToDo (w.lock s n)) (r : Registry)
    (a : AgentState) (ok : Bool) (caller : Option Call) :
    Lessens S N P w ((w.setReplica s n ⟨r, none⟩).finish a ok caller) := by
  have hne : w.lock s n ≠ none := by
    rintro heq
    rw [heq] at hheld
    exact absurd hheld (by decide)
  refine h.settle (u := w.setReplica s n ⟨r, none⟩) (h.lock s n hne) rfl
    (fun _ _ hne => lock_setReplica.trans (if_neg hne)) (fun _ ht => ht) rfl ?_ _ _ _
  rw [show (w.setReplica s n ⟨r, none⟩).lock s n = none from lock_setReplica_self]
  show 1 + 4 * w.waiting.length + w.replies.length + 1 < _
  omega

theorem Covers.poll (h : Covers S N P w) (hc : Chain S w) (hs : w.poll s n = some w') :
    Lessens S N P w w' := by
  unfold World.poll at hs
  dsimp only at hs
  split at hs
  · cases hs
  · rename_i a c t i hlock
    have hheld : 3 ≤ lockToDo (w.lock s n) := by simp [hlock, lockToDo]
    split at hs
    · cases hs
      exact h.release hheld _ _ _ _
    split at hs
    swap
    · cases hs
    cases hs
    unfold World.place
    split
    · refine lessens_of (n := "") (s := s) (m := n) h (fun _ _ => rfl) (.inr rfl)
        (List.Subset.refl _) (fun s' m' hne => ?_) (.inl (h.lock s n (by simp [hlock])))
        (fun _ ht => .inl ht) (fun _ hc => .inl hc) (.inr ⟨rfl, ?_⟩)
      · exact lock_place.trans (if_neg hne)
      · rw [show (w.toShards.place s n a c).lock s n = _ from
          lock_place.trans (if_pos ⟨rfl, rfl⟩), hlock]
        simp only [lockToDo]
        omega
    · exact h.release hheld _ _ _ _
  · rename_i a c t i before hlock
    have hheld : 3 ≤ lockToDo (w.lock s n) := by simp [hlock, lockToDo]
    split at hs
    · cases hs
      exact h.release hheld _ _ _ _
    split at hs
    swap
    · cases hs
    cases hs
    exact h.release hheld _ _ _ _
  · rename_i ids t i hlock
    obtain ⟨shards, done, hat, -⟩ := hc.removing s n ids t i hlock
    split at hs
    · cases hs
      exact h.next hlock lock_setReplica_self (fun _ _ hne => lock_setReplica.trans (if_neg hne))
        rfl rfl rfl rfl hat
    split at hs
    swap
    · cases hs
    cases hs
    exact h.next hlock lock_setReplica_self (fun _ _ hne => lock_setReplica.trans (if_neg hne))
      rfl rfl rfl rfl hat

theorem Covers.expire (h : Covers S N P w) (hc : Chain S w) (hs : w.expire s n = some w') :
    Lessens S N P w w' := by
  unfold World.expire at hs
  dsimp only at hs
  split at hs
  · cases hs
  rename_i ho hlock
  split at hs
  · cases hs
  split at hs <;> cases hs
  · exact h.release (by simp [hlock, lockToDo]) _ _ _ _
  · exact h.release (by simp [hlock, lockToDo]) _ _ _ _
  · obtain ⟨shards, done, hat, -⟩ := hc.removing _ _ _ _ _ hlock
    exact h.next hlock lock_setReplica_self (fun _ _ hne => lock_setReplica.trans (if_neg hne))
      rfl rfl rfl rfl hat

/-- Phase 1 in one shard. -/
theorem Covers.move (h : Covers S N P w) {shards : List String} {ds : List Departure}
    (hat : w.tick n = .enter s shards ds) (hfree : w.lock s n = none) :
    Lessens S N P w (w.move S s n shards ds) := by
  unfold World.move
  split
  · refine h.setTick (by simp [hat]) ?_ (fun _ hc => .inl hc) (.inl ?_)
    · rw [hat]
      exact fun _ hx => List.mem_cons_of_mem _ hx
    · rw [hat]
      exact Nat.lt_succ_self _
  · refine lessens_of (n := n) (s := s) (m := n) h (fun j hj => Function.update_of_ne hj _ _)
      (.inl (by simp [hat])) ?_ (fun _ _ hne => lock_setReplica.trans (if_neg hne))
      (.inr (lock_setReplica_self.trans hfree.symm)) (fun _ ht => .inl ht) (fun _ hc => .inl hc)
      (.inl ?_)
    · rw [hat]
      show (update w.tick n _ n).shards ⊆ _
      rw [Function.update_self]
      intro x hx
      simp only [Tick.shards, List.map_append, List.map_map, List.mem_append, List.mem_cons,
        List.cons_append] at hx ⊢
      rcases hx with hx | hx | hx
      · exact .inr (.inl hx)
      · exact .inr (.inr hx)
      · obtain ⟨a, -, rfl⟩ := List.mem_map.mp hx
        exact .inl rfl
    · rw [hat]
      show (update w.tick n _ n).visits < _
      rw [Function.update_self]
      exact Nat.lt_succ_self _

theorem Covers.send (h : Covers S N P w) {d : Departure} {ds done : List Departure}
    (hat : w.tick n = .handOff (d :: ds) done) : Lessens S N P w (w.send S n d ds done) := by
  unfold World.send
  dsimp only
  split
  · refine h.setTick (by simp [hat]) ?_ (fun _ hc => .inl hc) (.inr ?_)
    · rw [hat]
      exact fun _ hx => List.mem_cons_of_mem _ hx
    · rw [hat]
      refine ⟨rfl, ?_⟩
      simp only [Tick.toDo, List.length_cons]
      omega
  · rename_i hid
    refine h.setTick (by simp [hat]) ?_ (fun c hc => ?_) (.inr ?_)
    · rw [hat]
      exact List.Subset.refl _
    · refine (List.mem_append.mp hc).imp_right fun hc => ?_
      rw [List.mem_singleton.mp hc]
      exact not_not.mp hid
    · rw [hat]
      refine ⟨rfl, ?_⟩
      show _ + 5 * (w.requests ++ [_]).length + w.replies.length < _
      simp only [Tick.toDo, List.length_cons, List.length_append, List.length_nil]
      omega

theorem Covers.startRemove (h : Covers S N P w) {shards : List String} {done : List Departure}
    (hat : w.tick n = .remove (s :: shards) done) (hfree : w.lock s n = none) :
    Lessens S N P w (w.startRemove n s shards done) := by
  unfold World.startRemove
  dsimp only
  split
  · refine lessens_of (n := n) (s := s) (m := n) h (fun _ _ => rfl) (.inr rfl)
      (List.Subset.refl _) (fun _ _ hne => lock_setReplica.trans (if_neg hne))
      (.inl (h.shards n s (by rw [hat]; exact List.mem_cons_self))) (fun _ ht => .inl ht)
      (fun _ hc => .inl hc) (.inr ⟨rfl, ?_⟩)
    rw [show (w.setReplica s n _).lock s n = _ from lock_setReplica_self, hfree]
    show (w.tick n).toDo + 0 + _ < (w.tick n).toDo + 1 + _
    exact Nat.add_lt_add_right (Nat.lt_succ_self _) _
  · refine h.setTick (by simp [hat]) ?_ (fun _ hc => .inl hc) (.inr ?_)
    · rw [hat]
      exact fun _ hx => List.mem_cons_of_mem _ hx
    · rw [hat]
      refine ⟨rfl, ?_⟩
      simp only [Tick.toDo, List.length_cons]
      omega

theorem length_eraseDups_le (l : List String) : l.eraseDups.length ≤ l.length := by
  induction hl : l.length using Nat.strong_induction_on generalizing l with
  | h k ih =>
    cases l with
    | nil => exact Nat.zero_le _
    | cons a l =>
      rw [List.eraseDups_cons, List.length_cons]
      rw [List.length_cons] at hl
      have hfilter := List.length_filter_le (fun b => !b == a) l
      have := ih _ (by omega) (l.filter fun b => !b == a) rfl
      omega

/-- A tick that is ended had something to do. -/
theorem Tick.pays {t : Tick} (h : t ≠ .idle) : 0 < t.visits ∨ 0 = t.visits ∧ 0 < t.toDo := by
  cases t with
  | idle => exact absurd rfl h
  | visit | enter => exact .inl (Nat.succ_pos _)
  | handOff | await | remove => exact .inr ⟨rfl, Nat.succ_pos _⟩

theorem Covers.kill (h : Covers S N P w) (hn : w.tick n ≠ .idle) :
    Lessens S N P w (w.setTick n .idle) := by
  refine h.setTick hn (List.nil_subset _) (fun _ hc => .inl hc) ((Tick.pays hn).imp_right ?_)
  rintro ⟨hv, hd⟩
  refine ⟨hv, ?_⟩
  show 0 + 5 * w.requests.length + w.replies.length < _
  omega

end steps

/-! ### Runs -/

/-- The events with which what has been begun goes on or ends. -/
def Event.Works (w : World) : Event → Prop
  | .raft _ _ | .spawn _ _ | .tickStart _ => False
  | .loseRequest k => k < w.requests.length
  | .loseReply k => k < w.replies.length
  | .cancelWaiting k => k < w.waiting.length
  | .tickKill n => w.tick n ≠ .idle
  | _ => True

/-- Those with which the servers go on with it: nothing fails, and nobody is cancelled.  A reply
that no tick waits for, since the call has timed out, is dropped. -/
def Event.IsOwn (w : World) : Event → Prop
  | .handle _ | .acquire _ | .poll _ _ | .expire _ _ | .tickVisit _ | .tickEnter _ | .tickSend _
  | .tickReply _ | .tickTimeout _ | .tickRemove _ => True
  | .loseReply k => ∃ c reply, w.replies[k]? = some (c, reply) ∧
      ∀ ds done, w.tick c.caller ≠ .await c ds done
  | _ => False

theorem Event.IsOwn.works {e : Event} (h : e.IsOwn w) : e.Works w := by
  cases e with
  | loseReply k =>
    obtain ⟨_, _, hk, -⟩ := h
    exact (List.getElem?_eq_some_iff.mp hk).1
  | handle | acquire | poll | expire | tickVisit | tickEnter | tickSend | tickReply | tickTimeout |
    tickRemove => trivial
  | _ => exact h.elim

/-- **Every step pays.** -/
theorem Covers.works (h : Covers S N P w) (hc : Chain S w) {e : Event} (he : e.Works w)
    (hs : World.step S w e = some w') : Lessens S N P w w' := by
  cases e with
  | raft | spawn | tickStart => exact he.elim
  | handle k =>
    obtain ⟨c, hk, rfl⟩ := Option.map_eq_some_iff.mp hs
    exact h.handOff hk
  | loseRequest k =>
    cases hs
    refine lessens_of (n := "") (s := "") (m := "") h (fun _ _ => rfl) (.inr rfl)
      (List.Subset.refl _) (fun _ _ _ => rfl) (.inr rfl) (fun _ ht => .inl ht)
      (fun _ hc => .inl (List.mem_of_mem_eraseIdx hc)) (.inr ⟨rfl, ?_⟩)
    have := length_eraseIdx_add_one (List.getElem?_eq_getElem he)
    dsimp only
    omega
  | loseReply k =>
    cases hs
    refine lessens_of (n := "") (s := "") (m := "") h (fun _ _ => rfl) (.inr rfl)
      (List.Subset.refl _) (fun _ _ _ => rfl) (.inr rfl) (fun _ ht => .inl ht)
      (fun _ hc => .inl hc) (.inr ⟨rfl, ?_⟩)
    have := length_eraseIdx_add_one (List.getElem?_eq_getElem he)
    dsimp only
    omega
  | cancelWaiting k =>
    cases hs
    refine lessens_of (n := "") (s := "") (m := "") h (fun _ _ => rfl) (.inr rfl)
      (List.Subset.refl _) (fun _ _ _ => rfl) (.inr rfl)
      (fun _ ht => .inl (List.mem_of_mem_eraseIdx ht)) (fun _ hc => .inl hc) (.inr ⟨rfl, ?_⟩)
    have := length_eraseIdx_add_one (List.getElem?_eq_getElem he)
    dsimp only
    omega
  | acquire k =>
    simp only [World.step] at hs
    split at hs
    · cases hs
    rename_i t hk
    obtain ⟨hfree, ⟨⟩⟩ := Option.ite_none_right_eq_some.mp hs
    exact h.acquire hk (Option.isNone_iff_eq_none.mp hfree)
  | poll s n => exact h.poll hc hs
  | expire s n => exact h.expire hc hs
  | cancelAdd s n =>
    simp only [World.step] at hs
    split at hs <;> cases hs
    · rename_i a c t i hlock
      exact h.release (by simp [hlock, lockToDo]) (w.agents s n) a false none
    · rename_i a c t i before hlock
      exact h.release (by simp [hlock, lockToDo]) (w.agents s n) a false none
  | tickVisit n =>
    simp only [World.step] at hs
    split at hs
    · rename_i ds hat
      cases hs
      refine h.setTick (by simp [hat]) ?_ (fun _ hc => .inl hc) (.inl ?_)
      · rw [hat]
        simp [Tick.shards]
      · rw [hat]
        exact Nat.one_pos
    · rename_i s shards ds hat
      split at hs <;> cases hs
      · refine h.setTick (by simp [hat]) ?_ (fun _ hc => .inl hc) (.inl ?_)
        · rw [hat]
          exact List.Subset.refl _
        · rw [hat]
          exact Nat.lt_succ_self _
      · refine h.setTick (by simp [hat]) ?_ (fun _ hc => .inl hc) (.inl ?_)
        · rw [hat]
          exact fun _ hx => List.mem_cons_of_mem _ hx
        · rw [hat]
          simp only [Tick.visits, List.length_cons]
          omega
    · cases hs
  | tickEnter n =>
    simp only [World.step] at hs
    split at hs
    · rename_i s shards ds hat
      obtain ⟨hfree, ⟨⟩⟩ := Option.ite_none_right_eq_some.mp hs
      exact h.move hat (Option.isNone_iff_eq_none.mp hfree)
    · cases hs
  | tickSend n =>
    simp only [World.step] at hs
    split at hs
    · rename_i d ds done hat
      cases hs
      exact h.send hat
    · rename_i done hat
      cases hs
      refine h.setTick (by simp [hat]) ?_ (fun _ hc => .inl hc) (.inr ?_)
      · rw [hat]
        exact fun x hx => List.mem_append_right _ (List.mem_eraseDups.mp hx)
      · rw [hat]
        refine ⟨rfl, ?_⟩
        have hle := length_eraseDups_le (done.map Departure.shard)
        rw [List.length_map] at hle
        simp only [Tick.toDo, List.length_nil]
        omega
    · cases hs
  | tickReply k =>
    simp only [World.step] at hs
    split at hs
    · cases hs
    rename_i c reply hk
    split at hs
    · rename_i c' ds done hat
      obtain ⟨rfl, ⟨⟩⟩ := Option.ite_none_right_eq_some.mp hs
      have hlen := length_eraseIdx_add_one hk
      refine h.setTick (by simp [hat]) ?_ (fun _ hc => .inl hc) (.inr ?_)
      · rw [hat]
        intro x hx
        simp only [Tick.shards, List.mem_append, List.mem_cons, List.cons_append] at hx ⊢
        rcases hx with hx | hx
        · exact .inr (.inl hx)
        · split at hx
          · rw [List.map_append, List.mem_append] at hx
            rcases hx with hx | hx
            · exact .inr (.inr hx)
            · exact .inl (List.mem_singleton.mp hx)
          · exact .inr (.inr hx)
      · rw [hat]
        refine ⟨rfl, ?_⟩
        have hle : (if reply.accepted = true then done ++ [c'.departure] else done).length ≤
            done.length + 1 := by
          split
          · simp
          · exact Nat.le_succ _
        simp only [Tick.toDo]
        omega
    · cases hs
  | tickTimeout n =>
    simp only [World.step] at hs
    split at hs
    · rename_i c ds done hat
      cases hs
      refine h.setTick (by simp [hat]) ?_ (fun _ hc => .inl hc) (.inr ?_)
      · rw [hat]
        exact fun _ hx => List.mem_cons_of_mem _ hx
      · rw [hat]
        refine ⟨rfl, ?_⟩
        simp only [Tick.toDo]
        omega
    · cases hs
  | tickRemove n =>
    simp only [World.step] at hs
    split at hs
    · rename_i done hat
      cases hs
      exact h.kill (by simp [hat])
    · rename_i s shards done hat
      obtain ⟨hfree, ⟨⟩⟩ := Option.ite_none_right_eq_some.mp hs
      exact h.startRemove hat (Option.isNone_iff_eq_none.mp hfree)
    · cases hs
  | tickKill n =>
    simp only [World.step] at hs
    split at hs
    · rename_i s shards done hat
      split at hs
      · rename_i ids t i hlock
        cases hs
        refine lessens_of (n := n) (s := s) (m := n) h (fun j hj => Function.update_of_ne hj _ _)
          (.inl he) ?_ (fun _ _ hne => lock_setReplica.trans (if_neg hne))
          (.inl (h.lock s n (by simp [hlock]))) (fun _ ht => .inl ht) (fun _ hc => .inl hc)
          (.inr ?_)
        · show (update w.tick n _ n).shards ⊆ _
          rw [Function.update_self]
          exact List.nil_subset _
        · show (update w.tick n _ n).visits = _ ∧ (update w.tick n _ n).toDo +
            lockToDo ((w.setReplica s n _).lock s n) + _ < _
          rw [Function.update_self, hat, hlock,
            show (w.setReplica s n ⟨w.agents s n, none⟩).lock s n = none from
              lock_setReplica_self]
          refine ⟨rfl, ?_⟩
          show 0 + 1 + (4 * w.waiting.length + 5 * w.requests.length + w.replies.length) < _
          simp only [Tick.toDo, lockToDo, List.length_cons]
          omega
      · cases hs
        exact h.kill he
    · cases hs
      exact h.kill he

theorem Covers.mono (h : Covers S N P w) {N' : Finset String} {P' : Finset (String × String)}
    (hN : N ⊆ N') (hP : P ⊆ P') : Covers S N' P' w :=
  ⟨fun s hs n hn => hP (h.grid s hs n hn), fun n hn => hN (h.nodes n hn),
    fun n s hs => hP (h.shards n s hs), fun s n hl => hP (h.lock s n hl),
    fun t ht => hP (h.waiting t ht), fun c hc hd => hP (h.requests c hc hd)⟩

/-- Raft has nothing to do with it. -/
theorem Covers.raft (h : Covers S N P w) {s : String} {ev : Raft.Event Snapshot}
    (hs : World.step S w (.raft s ev) = some w') :
    Covers S N P w' ∧ w'.effort N P = w.effort N P := by
  obtain ⟨v, hv, rfl⟩ := Option.map_eq_some_iff.mp hs
  have hlock : ({ w with toShards := v } : World).lock = w.lock := lock_raftStep hv
  refine ⟨⟨h.grid, h.nodes, h.shards, fun s n hl => h.lock s n ?_, h.waiting, h.requests⟩, ?_⟩
  · rwa [hlock] at hl
  · show toLex (_, ∑ n ∈ N, (w.tick n).toDo + ∑ p ∈ P, lockToDo (v.lock p.1 p.2) + _) = _
    rw [show v.lock = w.lock from hlock]
    rfl

theorem Covers.step (h : Covers S N P w) (hc : Chain S w) {e : Event}
    (hs : World.step S w e = some w') : ∃ N' P', Covers S N' P' w' := by
  by_cases he : e.Works w
  · exact ⟨N, P, (h.works hc he hs).covers⟩
  cases e with
  | raft s ev => exact ⟨N, P, (h.raft hs).1⟩
  | spawn n a =>
    simp only [World.step] at hs
    split at hs <;> cases hs
    · refine ⟨N, insert (a.shardId S.grid, n) P,
        { h.mono (Finset.Subset.refl _) (Finset.subset_insert _ P) with
          waiting := fun t ht => ?_ }⟩
      rcases List.mem_append.mp ht with ht | ht
      · exact Finset.mem_insert_of_mem (h.waiting t ht)
      · rw [List.mem_singleton.mp ht]
        exact Finset.mem_insert_self _ _
    · exact ⟨N, P, h⟩
  | tickStart n =>
    simp only [World.step] at hs
    split at hs <;> cases hs
    have hself : (w.setTick n (.visit (allShardIds S.grid) [])).tick n =
      .visit (allShardIds S.grid) [] := Function.update_self _ _ _
    have hother : ∀ k ≠ n, (w.setTick n (.visit (allShardIds S.grid) [])).tick k = w.tick k :=
      fun k hk => Function.update_of_ne hk _ _
    have hsub : P ⊆ P ∪ (allShardIds S.grid).toFinset.image fun s => (s, n) :=
      Finset.subset_union_left
    have hmono := h.mono (Finset.subset_insert n N) hsub
    refine ⟨insert n N, P ∪ (allShardIds S.grid).toFinset.image fun s => (s, n),
      { hmono with nodes := fun k hk => ?_, shards := fun k s hs => ?_ }⟩
    · by_cases hkn : k = n
      · exact hkn ▸ Finset.mem_insert_self _ _
      · exact hmono.nodes k (hother k hkn ▸ hk)
    · by_cases hkn : k = n
      · subst hkn
        rw [hself] at hs
        simp only [Tick.shards, List.map_nil, List.append_nil] at hs
        exact Finset.mem_union_right _ (Finset.mem_image_of_mem _ (List.mem_toFinset.mpr hs))
      · exact hmono.shards k s (hother k hkn ▸ hs)
  | loseRequest k =>
    cases hs
    exact ⟨N, P, { h with requests := fun c hc => h.requests c (List.mem_of_mem_eraseIdx hc) }⟩
  | loseReply k =>
    cases hs
    exact ⟨N, P, { h with }⟩
  | cancelWaiting k =>
    cases hs
    exact ⟨N, P, { h with waiting := fun t ht => h.waiting t (List.mem_of_mem_eraseIdx ht) }⟩
  | tickKill n =>
    have hidle : w.tick n = .idle := not_not.mp he
    simp only [World.step] at hs
    rw [hidle] at hs
    cases hs
    have heq : w.setTick n .idle = w := by
      rw [World.setTick, ← hidle, Function.update_eq_self]
    rw [heq]
    exact ⟨N, P, h⟩
  | _ => exact absurd trivial he

theorem covers_init (S : Setup) : Covers S ∅
    ((allShardIds S.grid).toFinset ×ˢ S.M.ids.toFinset) (World.init S) where
  grid s hs n hn := Finset.mem_product.mpr ⟨List.mem_toFinset.mpr hs, List.mem_toFinset.mpr hn⟩
  nodes n hn := absurd rfl hn
  shards n s hs := by cases hs
  lock s n hl := absurd rfl hl
  waiting t ht := by cases ht
  requests c hc := by cases hc

theorem Reachable.exists_covers (h : Reachable S w) : ∃ N P, Covers S N P w := by
  have key : Reachable S w ∧ ∃ N P, Covers S N P w := by
    refine Run.invariant (P := fun w => Reachable S w ∧ ∃ N P, Covers S N P w) ?_ h
      ⟨.refl, _, _, covers_init S⟩
    rintro x x' hs ⟨hx, N, P, hcov⟩
    obtain ⟨g, -, hchain⟩ := hx.exists_chain
    obtain ⟨e, he⟩ := id hs
    exact ⟨hx.tail hs, hcov.step hchain he⟩
  exact key.2

/-- No lock is held, nobody waits for one, no message is on its way, and no tick is under way. -/
structure World.AtRest (w : World) : Prop where
  locks : ∀ s n, w.lock s n = none
  waiting : w.waiting = []
  requests : w.requests = []
  replies : w.replies = []
  ticks : ∀ n, w.tick n = .idle

/-- A lock holder wakes up, or its deadline has passed. -/
theorem exists_wake (S : Setup) {s n : String} (h : w.lock s n ≠ none) :
    ∃ e : Event, e.IsOwn w ∧ (World.step S w e).isSome = true := by
  obtain ⟨ho, hlock⟩ := Option.ne_none_iff_exists'.mp h
  by_cases hcond : (w.node s n).state ≠ (ho.term, true) ∨
    (w.node s n).lastApplied ≥ ho.index
  · refine ⟨.poll s n, trivial, ?_⟩
    show (w.poll s n).isSome = true
    unfold World.poll
    dsimp only
    rw [hlock]
    cases ho <;> dsimp only
    all_goals
      split
      · rfl
      · rename_i hstate
        split
        · rfl
        · rename_i hi
          exact absurd (hcond.resolve_left hstate) hi
  · refine ⟨.expire s n, trivial, ?_⟩
    show (w.expire s n).isSome = true
    unfold World.expire
    dsimp only
    rw [hlock]
    dsimp only
    rw [if_neg hcond]
    cases ho <;> rfl

/-- A reply is waited for, or dropped. -/
theorem exists_replied (S : Setup) (h : w.replies ≠ []) :
    ∃ e : Event, e.IsOwn w ∧ (World.step S w e).isSome = true := by
  obtain ⟨⟨c, reply⟩, replies, hrep⟩ := List.exists_cons_of_ne_nil h
  by_cases hawait : ∃ ds done, w.tick c.caller = .await c ds done
  · obtain ⟨ds, done, hat⟩ := hawait
    exact ⟨.tickReply 0, trivial, by simp [World.step, hrep, hat]⟩
  · refine ⟨.loseReply 0, ⟨c, reply, by rw [hrep]; rfl, fun ds done hat => ?_⟩, rfl⟩
    exact hawait ⟨ds, done, hat⟩

/-- **No deadlock.** -/
theorem exists_own (S : Setup) (w : World) :
    w.AtRest ∨ ∃ e : Event, e.IsOwn w ∧ (World.step S w e).isSome = true := by
  by_cases hlocks : ∀ s n, w.lock s n = none
  swap
  · push Not at hlocks
    obtain ⟨s, n, h⟩ := hlocks
    exact .inr (exists_wake S h)
  cases hwait : w.waiting with
  | cons t waiting => exact .inr ⟨.acquire 0, trivial, by simp [World.step, hwait, hlocks]⟩
  | nil =>
  cases hreq : w.requests with
  | cons c requests => exact .inr ⟨.handle 0, trivial, by simp [World.step, hreq]⟩
  | nil =>
  by_cases hrep : w.replies = []
  swap
  · exact .inr (exists_replied S hrep)
  by_cases hticks : ∀ n, w.tick n = .idle
  · exact .inl ⟨hlocks, hwait, hreq, hrep, hticks⟩
  push Not at hticks
  obtain ⟨n, hn⟩ := hticks
  right
  cases hat : w.tick n with
  | idle => exact absurd hat hn
  | visit shards ds =>
    refine ⟨.tickVisit n, trivial, ?_⟩
    cases shards with
    | nil => simp [World.step, hat]
    | cons s shards =>
      simp only [World.step, hat]
      split <;> rfl
  | enter s shards ds => exact ⟨.tickEnter n, trivial, by simp [World.step, hat, hlocks]⟩
  | handOff ds done =>
    refine ⟨.tickSend n, trivial, ?_⟩
    cases ds with
    | nil => simp [World.step, hat]
    | cons d ds => simp [World.step, hat]
  | await c ds done => exact ⟨.tickTimeout n, trivial, by simp [World.step, hat]⟩
  | remove shards done =>
    refine ⟨.tickRemove n, trivial, ?_⟩
    cases shards with
    | nil => simp [World.step, hat]
    | cons s shards => simp [World.step, hat, hlocks]

/-- Raft goes on for a while, and then something that has been begun goes on or ends. -/
def Pays (S : Setup) (w w' : World) : Prop :=
  ∃ w₁ e, Relation.ReflTransGen (fun x y => ∃ s ev, World.step S x (.raft s ev) = some y) w w₁ ∧
    e.Works w₁ ∧ World.step S w₁ e = some w'

theorem Covers.pays (h : Covers S N P w) (hr : Reachable S w) (hs : Pays S w w') :
    (Reachable S w' ∧ Covers S N P w') ∧ w'.effort N P < w.effort N P := by
  obtain ⟨w₁, e, hraft, he, hstep⟩ := hs
  have key : (Reachable S w₁ ∧ Covers S N P w₁) ∧ w₁.effort N P = w.effort N P := by
    refine Run.invariant (P := fun x => (Reachable S x ∧ Covers S N P x) ∧
      x.effort N P = w.effort N P) ?_ hraft ⟨⟨hr, h⟩, rfl⟩
    rintro x y ⟨s, ev, hxy⟩ ⟨⟨hx, hcov⟩, heq⟩
    obtain ⟨hcov', heq'⟩ := hcov.raft hxy
    exact ⟨⟨hx.tail ⟨_, hxy⟩, hcov'⟩, heq'.trans heq⟩
  obtain ⟨⟨hr₁, hcov⟩, heq⟩ := key
  obtain ⟨g, -, hchain⟩ := hr₁.exists_chain
  have hless := hcov.works hchain he hstep
  exact ⟨⟨hr₁.tail ⟨e, hstep⟩, hless.covers⟩, heq ▸ hless.lt⟩

/-- **The servers come to rest.**  In no run do the locks, ticks, calls and hand-offs that have been
begun go on forever, however Raft steps come in between, messages are lost and tasks are cancelled.
And from every reachable state the servers themselves can get to where no lock is held, no
`add_agent` waits, no message is on its way and no tick is under way: they never deadlock. -/
theorem servers_come_to_rest (h : Reachable S w) :
    (¬ ∃ run : ℕ → World, run 0 = w ∧ ∀ i, Pays S (run i) (run (i + 1))) ∧
      ∃ w', Relation.ReflTransGen (Run.StepWhere (World.step S) fun w e => e.IsOwn w) w w' ∧
        w'.AtRest := by
  obtain ⟨N, P, hcov⟩ := h.exists_covers
  have hacc : Acc (fun y x => Pays S x y) w :=
    Run.acc_of_measure wellFounded_lt (fun x => x.effort N P)
      (fun x y (hx : Reachable S x ∧ Covers S N P x) hxy => hx.2.pays hx.1 hxy) ⟨h, hcov⟩
  refine ⟨fun hrun => not_acc_iff_exists_descending_chain.mpr hrun hacc, ?_⟩
  have hown : ∀ x y, Run.StepWhere (World.step S) (fun w e => e.IsOwn w) x y → Pays S x y :=
    fun x y ⟨e, he, hstep⟩ => ⟨x, e, .refl, he.works, hstep⟩
  refine Run.comes_to_rest (fun _ _ (_ : True) _ => trivial) (fun x _ => ?_)
    (Subrelation.accessible (fun hxy => hown _ _ hxy) hacc) trivial
  exact (exists_own S x).imp_right fun ⟨e, he, hsome⟩ =>
    ⟨_, e, he, (Option.some_get hsome).symm⟩

theorem duoSpawn_runs :
    (Run.exec (World.step duo) (World.init duo) duoSpawn).isSome = true := by
  decide +kernel

/-- `n1` has just placed an agent, and holds a lock until its entry is applied. -/
def duoPlacing : World := (Run.exec (World.step duo) (World.init duo) duoSpawn).get duoSpawn_runs

theorem servers_come_to_rest_duo : duoPlacing.lock "0-0" "n1" ≠ none ∧
    ∃ w', Relation.ReflTransGen (Run.StepWhere (World.step duo) fun w e => e.IsOwn w)
      duoPlacing w' ∧ w'.AtRest :=
  ⟨by decide +kernel, (servers_come_to_rest (w := duoPlacing) (Run.steps_get duoSpawn_runs)).2⟩

end Region
