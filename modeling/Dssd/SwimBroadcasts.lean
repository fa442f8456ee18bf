/-
The gossip buffer of a node (`Node._set`, `Node._merge`, `Node._take_broadcasts`).

* `Node.takeBroadcasts` — the updates that ride along on a message, and the buffer
  without those that have been sent often enough; by `values_takeBroadcasts` a round of
  serving the buffer least-served first;
* `Node.Buffered` — each buffered update stands under the id of its member and was sent
  less often than it is going to be;
* `Node.returnedOf` — what the steps of a run return about a member until another
  update about it is queued;
* **`Node.gossip_quota`** — no queued update is returned too often, no message has too
  many updates or two about one member, and a buffer that gets no new updates sends
  each the rest of its quota in a number of calls known from the start.
-/
import Dssd.Quota
import Dssd.SwimNode

namespace Swim

/-- `MAX_TRANSMITS_PER_UPDATE` -/
def maxTransmitsPerUpdate : ℕ := 5

/-- `MAX_UPDATES_PER_MESSAGE` -/
def maxUpdatesPerMessage : ℕ := 8

/-- One more sending of a buffered update: `entry[1] += 1`, and `del` after the last one. -/
def bump (broadcasts : Dict (Member × ℕ)) (entry : Member × ℕ) : Dict (Member × ℕ) :=
  let sent := entry.2 + 1
  let broadcasts := broadcasts.set entry.1.id (entry.1, sent)
  if sent ≥ maxTransmitsPerUpdate then broadcasts.erase entry.1.id else broadcasts

namespace Node

/-- `_take_broadcasts()` -/
def takeBroadcasts (r : Node) : List Member × Node :=
  let due := (r.broadcasts.values.insertionSort fun a b => a.2 ≤ b.2).take maxUpdatesPerMessage
  (due.map Prod.fst, { r with broadcasts := due.foldl bump r.broadcasts })

end Node

/-! ### The buffer -/

/-- Each update stands under the id of its member. -/
def Filed (d : Dict (Member × ℕ)) : Prop := ∀ k e, d.get? k = some e → e.1.id = k

variable {d : Dict (Member × ℕ)} {e : Member × ℕ}

theorem Filed.set (h : Filed d) (m : Member) (n : ℕ) : Filed (d.set m.id (m, n)) := by
  intro k e he
  rw [Dict.get?_set] at he
  split at he
  · rename_i hk
    exact Option.some.inj he ▸ hk.symm
  · exact h k e he

theorem Filed.bump (h : Filed d) (e : Member × ℕ) : Filed (bump d e) := by
  unfold Swim.bump
  dsimp only
  split
  · intro k x hx
    rw [Dict.get?_erase] at hx
    split at hx
    · cases hx
    · exact h.set e.1 _ k x hx
  · exact h.set e.1 _

/-- The ids of the members are the keys. -/
theorem Filed.keys (h : Filed d) : d.values.map (fun e => e.1.id) = d.items.map Prod.fst := by
  rw [Dict.values, List.map_map]
  exact List.map_congr_left fun p hp => h p.1 p.2 (Dict.get?_eq_some_iff.mpr hp)

theorem Filed.nodup (h : Filed d) : (d.values.map fun e => e.1.id).Nodup := h.keys ▸ d.nodup

/-- One sending, as the queue sees it. -/
theorem values_bump (h : Filed d) (he : e ∈ d.values) : (bump d e).values =
    d.values.filterMap fun x => if x = e then Quota.served maxTransmitsPerUpdate e else some x := by
  obtain ⟨k, hk⟩ := Dict.mem_values.mp he
  obtain rfl : e.1.id = k := h k e hk
  have hmem : e.1.id ∈ d.items.map Prod.fst :=
    List.mem_map_of_mem (Dict.get?_eq_some_iff.mp hk)
  -- an item has this key just when it is this update
  have hiff : ∀ p ∈ d.items, p.1 = e.1.id ↔ p.2 = e := by
    intro p hp
    have hget := Dict.get?_eq_some_iff.mpr hp
    constructor
    · intro hkey
      rw [hkey, hk] at hget
      exact (Option.some.inj hget).symm
    · intro heq
      exact heq ▸ (h p.1 p.2 hget).symm
  have hset := Dict.items_set_of_mem (e.1, e.2 + 1) hmem
  unfold bump Quota.served
  dsimp only
  split
  · -- the last time
    show ((d.set e.1.id (e.1, e.2 + 1)).items.filter _).map Prod.snd = _
    rw [hset, Dict.values, List.filterMap_map, ← List.filterMap_eq_map, ← List.filterMap_eq_filter,
      ← List.filterMap_eq_map, List.filterMap_filterMap, List.filterMap_filterMap]
    refine List.filterMap_congr fun p hp => ?_
    by_cases hkey : p.1 = e.1.id
    · simp [hkey, (hiff p hp).mp hkey]
    · simp [hkey, mt (hiff p hp).mpr hkey]
  · show (d.set e.1.id (e.1, e.2 + 1)).items.map Prod.snd = _
    rw [hset, Dict.values, List.filterMap_map, List.map_map, ← List.filterMap_eq_map]
    refine List.filterMap_congr fun p hp => ?_
    by_cases hkey : p.1 = e.1.id
    · simp [hkey, (hiff p hp).mp hkey]
    · simp [hkey, mt (hiff p hp).mpr hkey]

/-- All sendings of a message. -/
theorem values_foldl_bump {due : List (Member × ℕ)} (h : Filed d) (hdue : ∀ e ∈ due, e ∈ d.values)
    (hnodup : (due.map fun e => e.1.id).Nodup) : (due.foldl bump d).values =
      d.values.filterMap fun x =>
        if x ∈ due then Quota.served maxTransmitsPerUpdate x else some x := by
  induction due generalizing d with
  | nil => simp
  | cons e due ih =>
    rw [List.map_cons, List.nodup_cons] at hnodup
    have hother : ∀ x ∈ due, x.1.id ≠ e.1.id :=
      fun x hx heq => hnodup.1 (heq ▸ List.mem_map_of_mem (f := fun e : Member × ℕ => e.1.id) hx)
    have hbump := values_bump h (hdue e List.mem_cons_self)
    rw [List.foldl_cons, ih (h.bump e) ?_ hnodup.2, hbump, List.filterMap_filterMap]
    · refine List.filterMap_congr fun x _ => ?_
      by_cases hx : x = e
      · -- what is left of `e` is not sent again
        subst hx
        rw [if_pos rfl, if_pos List.mem_cons_self]
        cases hs : Quota.served maxTransmitsPerUpdate x with
        | none => rfl
        | some x' =>
          rw [Option.bind_some, if_neg]
          exact fun hmem => hother x' hmem (by rw [(Quota.served_eq hs).1])
      · rw [if_neg hx, Option.bind_some]
        simp [hx]
    · intro x hx
      rw [hbump, List.mem_filterMap]
      refine ⟨x, hdue x (List.mem_cons_of_mem _ hx), if_neg fun heq => ?_⟩
      exact hother x hx (by rw [heq])

namespace Node

/-- What a node may have in its buffer. -/
structure Buffered (r : Node) : Prop where
  filed : Filed r.broadcasts
  lt : ∀ e ∈ r.broadcasts.values, e.2 < maxTransmitsPerUpdate

variable {r : Node}

theorem Buffered.valid (h : r.Buffered) :
    Quota.Valid maxTransmitsPerUpdate r.broadcasts.values where
  nodup := by
    refine List.Nodup.of_map Member.id ?_
    rw [List.map_map]
    exact h.filed.nodup
  lt := h.lt

theorem takeBroadcasts_fst (r : Node) :
    r.takeBroadcasts.1 = (Quota.due maxUpdatesPerMessage r.broadcasts.values).map Prod.fst := rfl

/-- Taking the updates of a message is a round of serving the buffer least-served first. -/
theorem values_takeBroadcasts (h : r.Buffered) : r.takeBroadcasts.2.broadcasts.values =
    Quota.round maxTransmitsPerUpdate maxUpdatesPerMessage r.broadcasts.values :=
  values_foldl_bump h.filed (fun _ he => Quota.mem_of_mem_due he) (Quota.nodup_due h.filed.nodup)

/-- The updates of a message are about different members. -/
theorem nodup_takeBroadcasts (h : r.Buffered) : (r.takeBroadcasts.1.map Member.id).Nodup := by
  rw [takeBroadcasts_fst, List.map_map]
  exact Quota.nodup_due h.filed.nodup

theorem length_takeBroadcasts (r : Node) : r.takeBroadcasts.1.length ≤ maxUpdatesPerMessage := by
  rw [takeBroadcasts_fst, List.length_map, Quota.length_due]
  exact Nat.min_le_left _ _

theorem filed_foldl_bump {due : List (Member × ℕ)} {d : Dict (Member × ℕ)} (h : Filed d) :
    Filed (due.foldl bump d) := by
  induction due generalizing d with
  | nil => exact h
  | cons e due ih => exact ih (h.bump e)

theorem Buffered.takeBroadcasts (h : r.Buffered) : r.takeBroadcasts.2.Buffered where
  filed := filed_foldl_bump h.filed
  lt := by
    rw [values_takeBroadcasts h]
    exact h.valid.round.lt

end Node

/-! ### Runs -/

/-- The steps that touch the buffer. -/
inductive Gossip
  | set (member : Member)
  | merge (update : Member)
  | take

namespace Node

variable {r : Node}

/-- A node before its first step. -/
def fresh (id addr : String) : Node := ⟨id, addr, .empty, 0, .empty, []⟩

def apply (r : Node) : Gossip → Node
  | .set member => r.set member
  | .merge update => r.merge update
  | .take => r.takeBroadcasts.2

/-- The update that a step queues. -/
def queued (r : Node) : Gossip → Option Member
  | .set member => some member
  | .merge update =>
    if update.id = r.id then
      if update.state ≠ .alive ∧ update.incarnation ≥ r.incarnation then
        some { r.me with incarnation := update.incarnation + 1 }
      else none
    else
      match r.members.get? update.id with
      | none => if update.state ≠ .dead then some update else none
      | some current => if supersedes update current then some update else none
  | .take => none

/-- The updates that a step returns. -/
def returned (r : Node) : Gossip → List Member
  | .take => r.takeBroadcasts.1
  | _ => []

/-- What the steps return about a member, until one of them queues another update about it. -/
def returnedOf (id : String) : Node → List Gossip → List Member
  | _, [] => []
  | r, e :: es =>
    if (r.queued e).map Member.id = some id then []
    else (r.returned e).filter (fun m => m.id = id) ++ returnedOf id (r.apply e) es

/-- What `n` calls of `_take_broadcasts` return. -/
def messages : ℕ → Node → List (List Member)
  | 0, _ => []
  | n + 1, r => r.takeBroadcasts.1 :: messages n r.takeBroadcasts.2

/-- The buffer after a step. -/
theorem broadcasts_apply (r : Node) {e : Gossip} (he : e ≠ .take) :
    (r.apply e).broadcasts = match r.queued e with
      | none => r.broadcasts
      | some m => r.broadcasts.set m.id (m, 0) := by
  cases e with
  | set member => rfl
  | take => exact absurd rfl he
  | merge update =>
    unfold apply queued merge
    dsimp only
    split
    · split <;> rfl
    · cases r.members.get? update.id with
      | none =>
        dsimp only
        split <;> rfl
      | some current =>
        dsimp only
        split <;> rfl

theorem buffered_fresh (id addr : String) : (fresh id addr).Buffered :=
  ⟨fun _ _ h => absurd h (Option.some_ne_none _).symm, fun _ h => by cases h⟩

theorem Buffered.apply (h : r.Buffered) (e : Gossip) : (r.apply e).Buffered := by
  by_cases he : e = .take
  · subst he
    exact h.takeBroadcasts
  · have hb := r.broadcasts_apply he
    cases hq : r.queued e with
    | none =>
      rw [hq] at hb
      dsimp only at hb
      exact ⟨hb ▸ h.filed, fun x hx => h.lt x (hb ▸ hx)⟩
    | some m =>
      rw [hq] at hb
      dsimp only at hb
      refine ⟨hb ▸ h.filed.set m 0, fun x hx => ?_⟩
      rw [hb] at hx
      obtain ⟨k, hk⟩ := Dict.mem_values.mp hx
      rw [Dict.get?_set] at hk
      split at hk
      · obtain rfl := Option.some.inj hk
        exact Nat.zero_lt_succ 4
      · exact h.lt x (Dict.mem_values.mpr ⟨k, hk⟩)

theorem Buffered.foldl (h : r.Buffered) (es : List Gossip) : (es.foldl Node.apply r).Buffered := by
  induction es generalizing r with
  | nil => exact h
  | cons e es ih => exact ih (h.apply e)

/-- The buffer as a list and as a dict. -/
theorem Buffered.get?_iff (h : r.Buffered) {id : String} {x : Member × ℕ} :
    r.broadcasts.get? id = some x ↔ x ∈ r.broadcasts.values ∧ x.1.id = id := by
  constructor
  · exact fun hx => ⟨Dict.mem_values.mpr ⟨id, hx⟩, h.filed id x hx⟩
  · rintro ⟨hx, rfl⟩
    obtain ⟨k, hk⟩ := Dict.mem_values.mp hx
    exact (h.filed k x hk) ▸ hk

/-- The buffered update about a member after a message. -/
theorem get?_takeBroadcasts (h : r.Buffered) {id : String} {x : Member × ℕ}
    (hx : r.broadcasts.get? id = some x) : r.takeBroadcasts.2.broadcasts.get? id =
      if x ∈ Quota.due maxUpdatesPerMessage r.broadcasts.values then
        Quota.served maxTransmitsPerUpdate x
      else some x := by
  refine Option.ext fun y => ?_
  rw [h.takeBroadcasts.get?_iff, values_takeBroadcasts h, Quota.round, List.mem_filterMap]
  constructor
  · rintro ⟨⟨e, he, hy⟩, hid⟩
    -- only the update about the same member can have become this
    have hkey := Quota.round_key hy
    have hget := h.get?_iff.mpr ⟨he, (congrArg Member.id hkey).symm.trans hid⟩
    obtain rfl := Option.some.inj (hx.symm.trans hget)
    exact hy
  · intro hy
    refine ⟨⟨x, (h.get?_iff.mp hx).1, hy⟩, ?_⟩
    rw [Quota.round_key hy]
    exact (h.get?_iff.mp hx).2

/-- In a list about different members, those about one. -/
theorem filter_id_eq {l : List Member} (h : (l.map Member.id).Nodup) {m : Member} (hm : m ∈ l) :
    l.filter (fun x => x.id = m.id) = [m] := by
  induction l with
  | nil => cases hm
  | cons a l ih =>
    rw [List.map_cons, List.nodup_cons] at h
    rcases List.mem_cons.mp hm with rfl | hm
    · have hnil : l.filter (fun x => x.id = m.id) = [] := by
        refine List.filter_eq_nil_iff.mpr fun x hx hid => h.1 ?_
        exact of_decide_eq_true hid ▸ List.mem_map_of_mem hx
      rw [List.filter_cons_of_pos (by simp), hnil]
    · rw [List.filter_cons_of_neg, ih h.2 hm]
      intro hid
      exact h.1 ((of_decide_eq_true hid : a.id = m.id) ▸ List.mem_map_of_mem hm)

/-- What a message has about a member is the buffered update. -/
theorem filter_takeBroadcasts (h : r.Buffered) {id : String} {x : Member × ℕ}
    (hx : r.broadcasts.get? id = some x) : r.takeBroadcasts.1.filter (fun m => m.id = id) =
      if x ∈ Quota.due maxUpdatesPerMessage r.broadcasts.values then [x.1] else [] := by
  obtain ⟨-, rfl⟩ := h.get?_iff.mp hx
  split
  · rename_i hdue
    exact filter_id_eq (nodup_takeBroadcasts h) (List.mem_map_of_mem hdue)
  · rename_i hdue
    refine List.filter_eq_nil_iff.mpr fun m hm hid => hdue ?_
    obtain ⟨e, he, rfl⟩ := List.mem_map.mp hm
    have hget := h.get?_iff.mpr ⟨Quota.mem_of_mem_due he, of_decide_eq_true hid⟩
    obtain rfl := Option.some.inj (hx.symm.trans hget)
    exact he

/-- No buffered update about a member, none in the messages. -/
theorem take_none (h : r.Buffered) {id : String} (hx : r.broadcasts.get? id = none) :
    r.takeBroadcasts.1.filter (fun m => m.id = id) = [] ∧
      r.takeBroadcasts.2.broadcasts.get? id = none := by
  have hno : ∀ e ∈ r.broadcasts.values, e.1.id ≠ id := by
    intro e he hid
    have := h.get?_iff.mpr ⟨he, hid⟩
    rw [hx] at this
    cases this
  constructor
  · refine List.filter_eq_nil_iff.mpr fun m hm hid => ?_
    obtain ⟨e, he, rfl⟩ := List.mem_map.mp hm
    exact hno e (Quota.mem_of_mem_due he) (of_decide_eq_true hid)
  · refine Option.eq_none_iff_forall_ne_some.mpr fun y hy => ?_
    rw [h.takeBroadcasts.get?_iff, values_takeBroadcasts h, Quota.round, List.mem_filterMap] at hy
    obtain ⟨⟨e, he, hy⟩, hid⟩ := hy
    exact hno e he ((congrArg Member.id (Quota.round_key hy)).symm.trans hid)

/-- A step that queues nothing about a member and is no message keeps what is buffered about it. -/
theorem get?_apply {e : Gossip} (he : e ≠ .take) {id : String}
    (hq : (r.queued e).map Member.id ≠ some id) :
    (r.apply e).broadcasts.get? id = r.broadcasts.get? id := by
  rw [broadcasts_apply r he]
  cases hm : r.queued e with
  | none => rfl
  | some m =>
    rw [hm] at hq
    exact Dict.get?_set_ne _ _ fun hid => hq (congrArg some hid.symm)

theorem returnedOf_none (h : r.Buffered) {id : String} (hx : r.broadcasts.get? id = none)
    (es : List Gossip) : returnedOf id r es = [] := by
  induction es generalizing r with
  | nil => rfl
  | cons e es ih =>
    rw [returnedOf]
    split
    · rfl
    · rename_i hq
      by_cases he : e = .take
      · subst he
        obtain ⟨hlist, hget⟩ := take_none h hx
        exact (congrArg₂ (· ++ ·) hlist (ih h.takeBroadcasts hget)).trans (List.append_nil [])
      · rw [ih (h.apply e) ((get?_apply he hq).trans hx), List.append_nil]
        cases e with
        | take => exact absurd rfl he
        | _ => rfl

/-- A buffered update is returned at most as often as it still is to be sent. -/
theorem returnedOf_some (h : r.Buffered) {id : String} {m : Member} {c : ℕ}
    (hx : r.broadcasts.get? id = some (m, c)) (es : List Gossip) :
    ∃ n ≤ maxTransmitsPerUpdate - c, returnedOf id r es = List.replicate n m := by
  induction es generalizing r c with
  | nil => exact ⟨0, Nat.zero_le _, rfl⟩
  | cons e es ih =>
    rw [returnedOf]
    split
    · exact ⟨0, Nat.zero_le _, rfl⟩
    · rename_i hq
      by_cases he : e = .take
      · subst he
        have hget := get?_takeBroadcasts h hx
        show ∃ n ≤ _, r.takeBroadcasts.1.filter _ ++ returnedOf id r.takeBroadcasts.2 es = _
        rw [filter_takeBroadcasts h hx]
        split
        · rename_i hdue
          rw [if_pos hdue] at hget
          have hlt := h.lt _ (h.get?_iff.mp hx).1
          dsimp only at hlt
          cases hs : Quota.served maxTransmitsPerUpdate (m, c) with
          | none =>
            rw [hs] at hget
            rw [returnedOf_none h.takeBroadcasts hget]
            exact ⟨1, by omega, rfl⟩
          | some x =>
            obtain ⟨hm, hc, -⟩ := Quota.served_eq hs
            obtain ⟨m', c'⟩ := x
            dsimp only at hm hc
            subst hm hc
            rw [hs] at hget
            obtain ⟨n, hn, heq⟩ := ih h.takeBroadcasts hget
            refine ⟨n + 1, by omega, ?_⟩
            rw [heq]
            rfl
        · rename_i hdue
          rw [if_neg hdue] at hget
          exact ih h.takeBroadcasts hget
      · obtain ⟨n, hn, heq⟩ := ih (h.apply e) ((get?_apply he hq).trans hx)
        refine ⟨n, hn, ?_⟩
        rw [heq]
        cases e with
        | take => exact absurd rfl he
        | _ => rfl

/-- A queued update is buffered, and has not been sent. -/
theorem get?_of_queued {e : Gossip} {m : Member} (hq : r.queued e = some m) :
    (r.apply e).broadcasts.get? m.id = some (m, 0) := by
  have he : e ≠ .take := by
    rintro rfl
    cases hq
  rw [broadcasts_apply r he, hq]
  exact Dict.get?_set_self _ _ _

/-! ### Draining -/

/-- The sends that are left of each buffered update. -/
def remainingSends (r : Node) : List ℕ :=
  r.broadcasts.values.map fun entry => maxTransmitsPerUpdate - entry.2

/-- `n` calls of `_take_broadcasts`, and no new updates. -/
def takeN (n : ℕ) (r : Node) : Node := (fun r => r.takeBroadcasts.2)^[n] r

theorem values_takeN (h : r.Buffered) (n : ℕ) : (takeN n r).broadcasts.values =
    (Quota.round maxTransmitsPerUpdate maxUpdatesPerMessage)^[n] r.broadcasts.values := by
  induction n generalizing r with
  | zero => rfl
  | succ n ih =>
    rw [Function.iterate_succ_apply, ← values_takeBroadcasts h]
    exact ih h.takeBroadcasts

theorem messages_eq (h : r.Buffered) (n : ℕ) : messages n r =
    Quota.rounds maxTransmitsPerUpdate maxUpdatesPerMessage n r.broadcasts.values := by
  induction n generalizing r with
  | zero => rfl
  | succ n ih =>
    rw [messages, ih h.takeBroadcasts, values_takeBroadcasts h]
    rfl

/-- **Each change is gossiped its quota.**  In every state that `_set`, `_merge` and
`_take_broadcasts` reach in any order: an update queued next is returned at most
`MAX_TRANSMITS_PER_UPDATE` times until another about its member is queued, and nothing else is
returned about that member; a message has at most `MAX_UPDATES_PER_MESSAGE` updates, about
different members; and without new updates the buffer is empty after exactly the larger of the most
sends left of one update and of all sends left over `MAX_UPDATES_PER_MESSAGE`, rounded up, when
each buffered update has been returned exactly as often as it was left to be sent. -/
theorem gossip_quota (id addr : String) (es : List Gossip) :
    let r := es.foldl apply (fresh id addr)
    (∀ e m, r.queued e = some m → ∀ es', ∃ n ≤ maxTransmitsPerUpdate,
      returnedOf m.id (r.apply e) es' = List.replicate n m) ∧
    (r.takeBroadcasts.1.length ≤ maxUpdatesPerMessage ∧
      (r.takeBroadcasts.1.map Member.id).Nodup) ∧
    ∀ n, ((takeN n r).broadcasts.values = [] ↔ max (r.remainingSends.foldr max 0)
        (r.remainingSends.sum ⌈/⌉ maxUpdatesPerMessage) ≤ n) ∧
      ((takeN n r).broadcasts.values = [] → ∀ entry ∈ r.broadcasts.values,
        (messages n r).flatten.count entry.1 = maxTransmitsPerUpdate - entry.2) := by
  intro r
  have h : r.Buffered := (buffered_fresh id addr).foldl es
  refine ⟨fun e m hq es' => ?_, ⟨length_takeBroadcasts r, nodup_takeBroadcasts h⟩,
    fun n => ⟨?_, ?_⟩⟩
  · exact returnedOf_some (h.apply e) (get?_of_queued hq) es'
  · rw [values_takeN h]
    exact Quota.drained_iff (by decide) h.valid n
  · intro hn entry hentry
    rw [values_takeN h] at hn
    rw [messages_eq h]
    exact Quota.count_of_drained h.valid hentry hn

end Node

end Swim
