/-
Raft groups over the in-memory network (`playground.py`).

A `Mesh` is a `MemoryNetwork` with the Raft objects of every node, one for each group, and
the RPCs that their tasks are in.  `_rpc` asks `delivers` when a request is sent and when it
is answered, and sleeps in between; so an RPC is `called` until its task has begun, then
`sent`, then `answered`, and its task may end early at any time (`drop`: the caller's
deadline, or `stop()`).  What arrives late finds the receiver as it is by then, even if it
is down or on the other side of a split that has happened since.

* `MemoryNetwork.delivers`, `Mesh.step` — the model;
* `Mesh.group` — what one group of a mesh looks like: a Raft cluster; `Mesh.group_steps` —
  every step of the mesh is a run of each group;
* **`Mesh.groups_are_clusters`** — so the groups do not mix, and every group of every mesh is
  a reachable Raft cluster.
-/
import Dssd.RaftCluster
import Mathlib.Algebra.Order.Field.Rat
import Mathlib.Data.Finset.Erase
import Mathlib.Data.Finset.Insert

open Function (update)

open Raft (Cluster LogEntry Membership Node RequestVoteArgs RequestVoteReply AppendEntriesArgs
  AppendEntriesReply VoteCall VoteReturn AppendCall AppendReturn)

/-- The fields of a `MemoryNetwork` that deliveries depend on; `side n` is `side.get(n, 0)`. -/
structure MemoryNetwork where
  loss : ℚ
  down : Finset String
  side : String → ℕ

namespace MemoryNetwork

/-- `MemoryNetwork.__init__` -/
def init : MemoryNetwork := ⟨0, ∅, fun _ => 0⟩

/-- `delivers(src, dst)`, with the value of `random.random()`. -/
def delivers (net : MemoryNetwork) (src dst : String) (random : ℚ) : Prop :=
  (src ∉ net.down ∧ dst ∉ net.down ∧ net.side src = net.side dst) ∧ net.loss ≤ random

instance (net : MemoryNetwork) (src dst : String) (random : ℚ) :
    Decidable (net.delivers src dst random) :=
  inferInstanceAs (Decidable (_ ∧ _))

/-- `set_loss(fraction)` -/
def setLoss (net : MemoryNetwork) (fraction : ℚ) : MemoryNetwork :=
  { net with loss := max 0 (min (9 / 10) fraction) }

/-- `partition(groups)`: of several groups that name a node the last one counts. -/
def partition (net : MemoryNetwork) (groups : Option (List (List String))) : MemoryNetwork :=
  { net with side := fun n =>
      (((groups.getD []).zipIdx.filter fun g => n ∈ g.1).getLast?.map Prod.snd).getD 0 }

end MemoryNetwork

/-- The same nodes take part in every group. -/
structure Mesh.Setup where
  M : Membership
  groups : List String

/-- How far `_rpc` is. -/
inductive Mesh.Stage (ρ : Type)
  | called
  | sent
  | answered (reply : ρ)

inductive Mesh.Request (Cmd : Type)
  | vote (args : RequestVoteArgs) (stage : Mesh.Stage RequestVoteReply)
  | append (args : AppendEntriesArgs Cmd) (stage : Mesh.Stage AppendEntriesReply)

/-- An RPC that a task of node `me` makes in a group. -/
structure Mesh.Rpc (Cmd : Type) where
  group : String
  me : String
  peer : String
  request : Mesh.Request Cmd

/-- The network, `raft[node][group]`, whose tasks run, what it has applied, and the RPCs. -/
structure Mesh (Cmd : Type) where
  net : MemoryNetwork
  raft : String → String → Node Cmd
  running : String → String → Bool
  applied : String → String → List (LogEntry Cmd)
  rpcs : List (Mesh.Rpc Cmd)

namespace Mesh

inductive Event (Cmd : Type)
  | start (n g : String)
  | stop (n g : String)
  | electionTimeout (n g : String)
  | propose (n g : String) (command : Cmd)
  | replicate (n g peer : String) (term : ℕ)
  | applier (n g : String)
  /-- An RPC begins. -/
  | send (k : ℕ) (random : ℚ)
  /-- A request arrives, and is answered. -/
  | arrive (k : ℕ) (random : ℚ)
  /-- A reply arrives. -/
  | finish (k : ℕ)
  | drop (k : ℕ)
  | kill (n : String)
  | revive (n : String)
  | partition (groups : Option (List (List String)))
  | setLoss (fraction : ℚ)

variable {Cmd : Type}

section steps

variable [Inhabited Cmd]

/-- Put `r` in the place of `raft[n][g]`. -/
def set (m : Mesh Cmd) (n g : String) (r : Node Cmd) : Mesh Cmd :=
  { m with raft := update m.raft n (update (m.raft n) g r) }

def init (S : Setup) : Mesh Cmd where
  net := .init
  raft n _ := Node.init (S.M.config n)
  running _ _ := false
  applied _ _ := []
  rpcs := []

/-- `_start_election` on node `n`, which spawns an `ask` for each peer. -/
def campaign (S : Setup) (m : Mesh Cmd) (n g : String) : Mesh Cmd :=
  let (r, args) := (m.raft n g).startElection
  { m.set n g r with
    rpcs := m.rpcs ++ (S.M.peers n).map fun p => ⟨g, n, p, .vote args .called⟩ }

/-- `_applier` on node `n` -/
def deliver (m : Mesh Cmd) (n g : String) : Mesh Cmd :=
  let (r, es, _) := (m.raft n g).applier
  { m.set n g r with
    applied := update m.applied n (update (m.applied n) g (m.applied n g ++ es)) }

/-- The request is sent. -/
def Request.sent : Request Cmd → Option (Request Cmd)
  | .vote args .called => some (.vote args .sent)
  | .append args .called => some (.append args .sent)
  | _ => none

/-- The handler of the peer, in state `r`, is called. -/
def Request.handle (r : Node Cmd) : Request Cmd → Option (Node Cmd × Request Cmd)
  | .vote args .sent =>
    let out := r.handleRequestVote args
    some (out.1, .vote args (.answered out.2))
  | .append args .sent =>
    let out := r.handleAppendEntries args
    some (out.1, .append args (.answered out.2))
  | _ => none

/-- The task of the caller, in state `r`, goes on with the reply of the peer. -/
def Request.resume (r : Node Cmd) (peer : String) : Request Cmd → Option (Node Cmd)
  | .vote args (.answered reply) => some (r.onVoteReply args.term reply)
  | .append args (.answered reply) => some (r.onAppendReply peer args.term args reply).1
  | _ => none

/-- `_rpc` of `c` begins: the request is sent, unless the network does not deliver it. -/
def send (m : Mesh Cmd) (k : ℕ) (c : Rpc Cmd) (random : ℚ) : Option (Mesh Cmd) :=
  c.request.sent.map fun request =>
    if m.net.delivers c.me c.peer random then { m with rpcs := m.rpcs.set k { c with request } }
    else { m with rpcs := m.rpcs.eraseIdx k }

/-- `_rpc` of `c` goes on: the handler is called, unless the peer has no such group, and its
reply sent, unless the network does not deliver it. -/
def arrive (S : Setup) (m : Mesh Cmd) (k : ℕ) (c : Rpc Cmd) (random : ℚ) : Option (Mesh Cmd) :=
  (c.request.handle (m.raft c.peer c.group)).map fun out =>
    if c.group ∉ S.groups then { m with rpcs := m.rpcs.eraseIdx k }
    else
      { m.set c.peer c.group out.1 with
        rpcs := m.rpcs.eraseIdx k ++
          if m.net.delivers c.peer c.me random then [{ c with request := out.2 }] else [] }

/-- The reply of `c` is there, and the task that waits for it goes on. -/
def finish (m : Mesh Cmd) (k : ℕ) (c : Rpc Cmd) : Option (Mesh Cmd) :=
  (c.request.resume (m.raft c.me c.group) c.peer).map fun r =>
    { m.set c.me c.group r with rpcs := m.rpcs.eraseIdx k }

/-- One step of the mesh; `none` if the event cannot happen now. -/
def step (S : Setup) (m : Mesh Cmd) : Event Cmd → Option (Mesh Cmd)
  | .start n g =>
    if n ∈ S.M.ids ∧ g ∈ S.groups then
      some { m.set n g (m.raft n g).start with
        running := update m.running n (update (m.running n) g true) }
    else none
  | .stop n g =>
    if n ∈ S.M.ids ∧ g ∈ S.groups then
      some { m with running := update m.running n (update (m.running n) g false) }
    else none
  | .electionTimeout n g =>
    if n ∈ S.M.ids ∧ g ∈ S.groups ∧ m.running n g = true ∧ (m.raft n g).role ≠ .leader then
      some (m.campaign S n g)
    else none
  | .propose n g command =>
    if n ∈ S.M.ids ∧ g ∈ S.groups then some (m.set n g ((m.raft n g).propose command).1) else none
  | .replicate n g peer term =>
    if n ∈ S.M.ids ∧ g ∈ S.groups ∧ m.running n g = true ∧ peer ∈ S.M.peers n then
      match (m.raft n g).replicateTo peer term with
      | .ok (some args) => some { m with rpcs := m.rpcs ++ [⟨g, n, peer, .append args .called⟩] }
      | _ => some m
    else none
  | .applier n g =>
    if n ∈ S.M.ids ∧ g ∈ S.groups ∧ m.running n g = true then some (m.deliver n g) else none
  | .send k random => m.rpcs[k]?.bind fun c => m.send k c random
  | .arrive k random => m.rpcs[k]?.bind fun c => m.arrive S k c random
  | .finish k => m.rpcs[k]?.bind fun c => m.finish k c
  | .drop k => some { m with rpcs := m.rpcs.eraseIdx k }
  | .kill n => some { m with net := { m.net with down := insert n m.net.down } }
  | .revive n => some { m with net := { m.net with down := m.net.down.erase n } }
  | .partition groups => some { m with net := m.net.partition groups }
  | .setLoss fraction => some { m with net := m.net.setLoss fraction }

/-- A run of the mesh leads from `m` to `m'`. -/
def Steps (S : Setup) (m m' : Mesh Cmd) : Prop := Relation.ReflTransGen (Run.Step (step S)) m m'

/-- A run leads to `m` from the start. -/
def Reachable (S : Setup) (m : Mesh Cmd) : Prop := Steps S (init S) m

end steps

/-! ### One group -/

/-- The vote request of an RPC of the group that has not arrived yet. -/
def Rpc.voteCall (g : String) (c : Rpc Cmd) : Option VoteCall :=
  match c.request with
  | .vote args .called | .vote args .sent =>
    if c.group = g then some ⟨c.me, c.peer, args⟩ else none
  | _ => none

def Rpc.voteReturn (g : String) (c : Rpc Cmd) : Option VoteReturn :=
  match c.request with
  | .vote args (.answered reply) =>
    if c.group = g then some ⟨c.me, c.peer, args.term, reply⟩ else none
  | _ => none

def Rpc.appendCall (g : String) (c : Rpc Cmd) : Option (AppendCall Cmd) :=
  match c.request with
  | .append args .called | .append args .sent =>
    if c.group = g then some ⟨c.me, c.peer, args⟩ else none
  | _ => none

def Rpc.appendReturn (g : String) (c : Rpc Cmd) : Option (AppendReturn Cmd) :=
  match c.request with
  | .append args (.answered reply) =>
    if c.group = g then some ⟨c.me, c.peer, args, reply⟩ else none
  | _ => none

/-- The cluster that a group is. -/
def group (m : Mesh Cmd) (g : String) : Cluster Cmd where
  node n := m.raft n g
  running n := m.running n g
  voteCalls := m.rpcs.filterMap (Rpc.voteCall g)
  voteReturns := m.rpcs.filterMap (Rpc.voteReturn g)
  appendCalls := m.rpcs.filterMap (Rpc.appendCall g)
  appendReturns := m.rpcs.filterMap (Rpc.appendReturn g)
  applied n := m.applied n g

/-! ### Elements of filtered lists -/

section lists

variable {α β : Type*} {f : α → Option β} {l : List α} {k : ℕ} {x : α}

theorem filterMap_eq_append (hk : l[k]? = some x) (f : α → Option β) :
    l.filterMap f = (l.take k).filterMap f ++ ((f x).toList ++ (l.drop (k + 1)).filterMap f) := by
  obtain ⟨hlt, hx⟩ := List.getElem?_eq_some_iff.mp hk
  have hdrop : l.drop k = x :: l.drop (k + 1) := by rw [List.drop_eq_getElem_cons hlt, hx]
  conv_lhs => rw [← List.take_append_drop k l, List.filterMap_append, hdrop]
  cases hf : f x <;> simp [hf]

theorem filterMap_eraseIdx (f : α → Option β) :
    (l.eraseIdx k).filterMap f = (l.take k).filterMap f ++ (l.drop (k + 1)).filterMap f := by
  rw [List.eraseIdx_eq_take_drop_succ, List.filterMap_append]

/-- Taking an element off the list takes off what is shown of it. -/
theorem exists_eraseIdx_filterMap {y : β} (hk : l[k]? = some x) (hf : f x = some y) :
    ∃ p, (l.filterMap f)[p]? = some y ∧
      (l.filterMap f).eraseIdx p = (l.eraseIdx k).filterMap f := by
  refine ⟨((l.take k).filterMap f).length, ?_, ?_⟩
  · rw [filterMap_eq_append hk, hf]
    simp
  · rw [filterMap_eq_append hk, filterMap_eraseIdx, hf, List.eraseIdx_append_of_length_le le_rfl]
    simp

/-- What is shown in a place is shown of some element. -/
theorem exists_of_getElem?_filterMap {y : β} {p : ℕ} (hp : (l.filterMap f)[p]? = some y) :
    ∃ k x, l[k]? = some x ∧ f x = some y ∧
      (l.filterMap f).eraseIdx p = (l.eraseIdx k).filterMap f := by
  induction l generalizing p with
  | nil => cases hp
  | cons a l ih =>
    cases ha : f a with
    | none =>
      rw [List.filterMap_cons_none ha] at hp ⊢
      obtain ⟨k, x, hk, hx, herase⟩ := ih hp
      exact ⟨k + 1, x, hk, hx, herase.trans (List.filterMap_cons_none ha).symm⟩
    | some b =>
      rw [List.filterMap_cons_some ha] at hp ⊢
      cases p with
      | zero => exact ⟨0, a, rfl, ha.trans hp, rfl⟩
      | succ p =>
        obtain ⟨k, x, hk, hx, herase⟩ := ih hp
        refine ⟨k + 1, x, hk, hx, ?_⟩
        rw [List.eraseIdx_cons_succ, List.eraseIdx_cons_succ, List.filterMap_cons_some ha, herase]

theorem eraseIdx_filterMap_of_none (hk : l[k]? = some x) (hf : f x = none) :
    (l.eraseIdx k).filterMap f = l.filterMap f := by
  rw [filterMap_eq_append hk, filterMap_eraseIdx, hf]
  rfl

/-- Changing what is not shown of an element. -/
theorem set_filterMap {y : α} (hk : l[k]? = some x) (hf : f y = f x) :
    (l.set k y).filterMap f = l.filterMap f := by
  obtain ⟨hlt, -⟩ := List.getElem?_eq_some_iff.mp hk
  have hy : (l.set k y)[k]? = some y := by simp [hlt]
  rw [filterMap_eq_append hy, filterMap_eq_append hk, hf, List.take_set_of_le le_rfl,
    List.drop_set_of_lt (Nat.lt_succ_self k)]

end lists

/-! ### What a group sees -/

variable {S : Setup} {m m' : Mesh Cmd} {e : Event Cmd} {g h n : String} {r : Node Cmd} {c : Rpc Cmd}
  {k : ℕ}

theorem cluster_ext {w w' : Cluster Cmd} (node : w.node = w'.node)
    (running : w.running = w'.running) (voteCalls : w.voteCalls = w'.voteCalls)
    (voteReturns : w.voteReturns = w'.voteReturns) (appendCalls : w.appendCalls = w'.appendCalls)
    (appendReturns : w.appendReturns = w'.appendReturns) (applied : w.applied = w'.applied) :
    w = w' := by
  cases w
  cases w'
  congr

theorem update_field {α : Type} (f : String → String → α) (x : α) :
    (fun i => update f n (update (f n) g x) i g) = update (fun i => f i g) n x := by
  funext i
  by_cases hi : i = n
  · subst hi
    simp
  · simp [hi]

theorem update_field_ne {α : Type} (f : String → String → α) (x : α) (hg : g ≠ h) :
    (fun i => update f n (update (f n) h x) i g) = fun i => f i g := by
  funext i
  by_cases hi : i = n
  · subst hi
    simp [hg]
  · simp [hi]

theorem group_set : (m.set n g r).group g = (m.group g).set n r :=
  cluster_ext (update_field m.raft r) rfl rfl rfl rfl rfl rfl

theorem group_set_ne (hg : g ≠ h) : (m.set n h r).group g = m.group g :=
  cluster_ext (update_field_ne m.raft r hg) rfl rfl rfl rfl rfl rfl

/-- The RPCs of other groups are not seen. -/
theorem Rpc.foreign (hg : c.group ≠ g) : c.voteCall g = none ∧ c.voteReturn g = none ∧
    c.appendCall g = none ∧ c.appendReturn g = none := by
  obtain ⟨h, me, peer, ⟨args, stage⟩ | ⟨args, stage⟩⟩ := c <;> cases stage <;>
    exact ⟨by first | rfl | exact if_neg hg, by first | rfl | exact if_neg hg,
      by first | rfl | exact if_neg hg, by first | rfl | exact if_neg hg⟩

/-- What is not seen can go. -/
theorem group_eraseIdx_of_foreign (hk : m.rpcs[k]? = some c) (hg : c.group ≠ g) :
    ({ m with rpcs := m.rpcs.eraseIdx k } : Mesh Cmd).group g = m.group g := by
  obtain ⟨h₁, h₂, h₃, h₄⟩ := Rpc.foreign hg
  show ({ m.group g with voteCalls := _, voteReturns := _, appendCalls := _, appendReturns := _ } :
    Cluster Cmd) = m.group g
  rw [eraseIdx_filterMap_of_none hk h₁, eraseIdx_filterMap_of_none hk h₂,
    eraseIdx_filterMap_of_none hk h₃, eraseIdx_filterMap_of_none hk h₄]
  rfl

/-- A request on its way looks the same before and after it is sent. -/
theorem Rpc.sent_eq {request : Request Cmd} (hs : c.request.sent = some request) (g : String) :
    Rpc.voteCall g { c with request } = c.voteCall g ∧
      Rpc.voteReturn g { c with request } = c.voteReturn g ∧
      Rpc.appendCall g { c with request } = c.appendCall g ∧
      Rpc.appendReturn g { c with request } = c.appendReturn g := by
  obtain ⟨h, me, peer, ⟨args, stage⟩ | ⟨args, stage⟩⟩ := c <;> cases stage <;> cases hs <;>
    exact ⟨rfl, rfl, rfl, rfl⟩

theorem group_set_sent {request : Request Cmd} (hk : m.rpcs[k]? = some c)
    (hs : c.request.sent = some request) (g : String) :
    ({ m with rpcs := m.rpcs.set k { c with request } } : Mesh Cmd).group g = m.group g := by
  obtain ⟨h₁, h₂, h₃, h₄⟩ := Rpc.sent_eq hs g
  exact cluster_ext rfl rfl (set_filterMap hk h₁) (set_filterMap hk h₂) (set_filterMap hk h₃)
    (set_filterMap hk h₄) rfl

/-- What a step in one group does is not seen in another. -/
theorem group_foreign (hk : m.rpcs[k]? = some c) (hg : c.group ≠ g) (n : String) (r : Node Cmd)
    (new : List (Rpc Cmd)) (hnew : ∀ d ∈ new, d.group = c.group) :
    ({ m.set n c.group r with rpcs := m.rpcs.eraseIdx k ++ new } : Mesh Cmd).group g =
      m.group g := by
  have hnil : ∀ {β : Type} {f : Rpc Cmd → Option β}, f c = none →
      (∀ d ∈ new, f d = none) → (m.rpcs.eraseIdx k ++ new).filterMap f = m.rpcs.filterMap f := by
    intro β f hc hf
    rw [List.filterMap_append, List.filterMap_eq_nil_iff.mpr hf, List.append_nil,
      eraseIdx_filterMap_of_none hk hc]
  obtain ⟨h₁, h₂, h₃, h₄⟩ := Rpc.foreign hg
  have hn := fun d hd => Rpc.foreign (c := d) (g := g) ((hnew d hd).symm ▸ hg)
  have hnode : ((m.set n c.group r).group g).node = (m.group g).node := by
    rw [group_set_ne (Ne.symm hg)]
  exact cluster_ext hnode rfl
    (hnil h₁ fun d hd => (hn d hd).1) (hnil h₂ fun d hd => (hn d hd).2.1)
    (hnil h₃ fun d hd => (hn d hd).2.2.1) (hnil h₄ fun d hd => (hn d hd).2.2.2) rfl

theorem group_foreign_nil (hk : m.rpcs[k]? = some c) (hg : c.group ≠ g) :
    ({ m.set n c.group r with rpcs := m.rpcs.eraseIdx k } : Mesh Cmd).group g = m.group g := by
  have hforeign := group_foreign hk hg n r [] fun d hd => by cases hd
  rwa [List.append_nil] at hforeign

/-- What an answer shows, where a request was seen before. -/
theorem filterMap_answer {β : Type} (f : Rpc Cmd → Option β) (l : List (Rpc Cmd)) (d : Rpc Cmd) :
    (l ++ [d]).filterMap f = l.filterMap f ++ (f d).toList := by
  rw [List.filterMap_append]
  cases hd : f d <;> simp [hd]

theorem filterMap_answer_none {β : Type} {f : Rpc Cmd → Option β} {d : Rpc Cmd}
    (hk : m.rpcs[k]? = some c) (hc : f c = none) (hd : f d = none) :
    (m.rpcs.eraseIdx k ++ [d]).filterMap f = m.rpcs.filterMap f := by
  rw [filterMap_answer, eraseIdx_filterMap_of_none hk hc, hd]
  exact List.append_nil _

theorem group_answerAppend {me peer : String} {args : AppendEntriesArgs Cmd} {p : ℕ}
    (hk : m.rpcs[k]? = some ⟨g, me, peer, .append args .sent⟩)
    (hp : (m.rpcs.filterMap (Rpc.appendCall g)).eraseIdx p =
      (m.rpcs.eraseIdx k).filterMap (Rpc.appendCall g)) :
    ({ m.set peer g ((m.raft peer g).handleAppendEntries args).1 with
      rpcs := m.rpcs.eraseIdx k ++ [⟨g, me, peer,
        .append args (.answered ((m.raft peer g).handleAppendEntries args).2)⟩] } :
          Mesh Cmd).group g =
      { m.group g with appendCalls := (m.group g).appendCalls.eraseIdx p }.answerAppend
        ⟨me, peer, args⟩ := by
  refine cluster_ext (update_field m.raft _) rfl (filterMap_answer_none hk rfl rfl)
    (filterMap_answer_none hk rfl rfl) ?_ ?_ rfl
  · exact (filterMap_answer _ _ _).trans ((List.append_nil _).trans hp.symm)
  · refine (filterMap_answer _ _ _).trans ?_
    rw [eraseIdx_filterMap_of_none hk rfl]
    exact congrArg _ (congrArg Option.toList (if_pos rfl))

/-- A reply that arrives is processed. -/
theorem group_finishVote {me peer : String} {args : RequestVoteArgs} {reply : RequestVoteReply}
    {p : ℕ} (hk : m.rpcs[k]? = some ⟨g, me, peer, .vote args (.answered reply)⟩)
    (hp : (m.rpcs.filterMap (Rpc.voteReturn g)).eraseIdx p =
      (m.rpcs.eraseIdx k).filterMap (Rpc.voteReturn g)) :
    ({ m.set me g r with rpcs := m.rpcs.eraseIdx k } : Mesh Cmd).group g =
      { (m.group g).set me r with voteReturns := (m.group g).voteReturns.eraseIdx p } :=
  cluster_ext (update_field m.raft _) rfl (eraseIdx_filterMap_of_none hk rfl) hp.symm
    (eraseIdx_filterMap_of_none hk rfl) (eraseIdx_filterMap_of_none hk rfl) rfl

theorem group_finishAppend {me peer : String} {args : AppendEntriesArgs Cmd}
    {reply : AppendEntriesReply} {p : ℕ}
    (hk : m.rpcs[k]? = some ⟨g, me, peer, .append args (.answered reply)⟩)
    (hp : (m.rpcs.filterMap (Rpc.appendReturn g)).eraseIdx p =
      (m.rpcs.eraseIdx k).filterMap (Rpc.appendReturn g)) :
    ({ m.set me g r with rpcs := m.rpcs.eraseIdx k } : Mesh Cmd).group g =
      { (m.group g).set me r with appendReturns := (m.group g).appendReturns.eraseIdx p } :=
  cluster_ext (update_field m.raft _) rfl (eraseIdx_filterMap_of_none hk rfl)
    (eraseIdx_filterMap_of_none hk rfl) (eraseIdx_filterMap_of_none hk rfl) hp.symm rfl

/-- What new RPCs show, if anything. -/
theorem filterMap_spawn {β : Type} {f : Rpc Cmd → Option β} {new : List (Rpc Cmd)}
    (hf : ∀ c ∈ new, f c = none) : (m.rpcs ++ new).filterMap f = m.rpcs.filterMap f := by
  rw [List.filterMap_append, List.filterMap_eq_nil_iff.mpr hf, List.append_nil]

/-- The RPCs that a task of node `n` spawns in group `h` are not seen in another. -/
theorem group_spawn (new : List (Rpc Cmd)) (hnew : ∀ c ∈ new, c.group = h) (hg : g ≠ h) :
    ({ m.set n h r with rpcs := m.rpcs ++ new } : Mesh Cmd).group g = m.group g := by
  have hn := fun c hc => Rpc.foreign (c := c) (g := g) ((hnew c hc).symm ▸ hg.symm)
  exact cluster_ext (update_field_ne m.raft r hg) rfl (filterMap_spawn fun c hc => (hn c hc).1)
    (filterMap_spawn fun c hc => (hn c hc).2.1) (filterMap_spawn fun c hc => (hn c hc).2.2.1)
    (filterMap_spawn fun c hc => (hn c hc).2.2.2) rfl

theorem group_called {peer : String} {request : Request Cmd} (hg : g ≠ h) :
    ({ m with rpcs := m.rpcs ++ [⟨h, n, peer, request⟩] } : Mesh Cmd).group g = m.group g := by
  have hself : m.set n h (m.raft n h) = m := by simp [set]
  have hforeign := group_spawn (m := m) (n := n) (r := m.raft n h) [⟨h, n, peer, request⟩]
    (by simp) hg
  rwa [hself] at hforeign

/-- An append request that is seen in its group. -/
theorem group_replicate {peer : String} {args : AppendEntriesArgs Cmd} :
    ({ m with rpcs := m.rpcs ++ [⟨g, n, peer, .append args .called⟩] } : Mesh Cmd).group g =
      { m.group g with appendCalls := (m.group g).appendCalls ++ [⟨n, peer, args⟩] } := by
  refine cluster_ext rfl rfl (filterMap_spawn ?_) (filterMap_spawn ?_) ?_ (filterMap_spawn ?_) rfl
  · simp [Rpc.voteCall]
  · simp [Rpc.voteReturn]
  · show (m.rpcs ++ _).filterMap (Rpc.appendCall g) = _
    rw [List.filterMap_append]
    simp [Rpc.appendCall, group]
  · simp [Rpc.appendReturn]

theorem group_deliver : (m.deliver n g).group g = (m.group g).deliver n :=
  cluster_ext (update_field m.raft _) rfl rfl rfl rfl rfl (update_field m.applied _)

/-! ### Steps of one group -/

variable [Inhabited Cmd]

/-- An RPC that ends early is a message lost. -/
theorem group_drop (hk : m.rpcs[k]? = some c) : Raft.Steps S.M (m.group g)
    (({ m with rpcs := m.rpcs.eraseIdx k } : Mesh Cmd).group g) := by
  by_cases hg : c.group = g
  swap
  · rw [group_eraseIdx_of_foreign hk hg]
    exact .refl
  obtain ⟨h, me, peer, request⟩ := c
  obtain rfl : h = g := hg
  have hnone : ∀ {β : Type} {f : Rpc Cmd → Option β}, f ⟨h, me, peer, request⟩ = none →
      m.rpcs.filterMap f = (m.rpcs.eraseIdx k).filterMap f :=
    fun hf => (eraseIdx_filterMap_of_none hk hf).symm
  rcases request with ⟨args, stage⟩ | ⟨args, stage⟩
  · cases stage with
    | called | sent =>
      obtain ⟨p, -, hp⟩ := exists_eraseIdx_filterMap hk (f := Rpc.voteCall h) (if_pos rfl)
      exact .single ⟨.loseVoteCall p, congrArg some
        (cluster_ext rfl rfl hp (hnone rfl) (hnone rfl) (hnone rfl) rfl)⟩
    | answered reply =>
      obtain ⟨p, -, hp⟩ := exists_eraseIdx_filterMap hk (f := Rpc.voteReturn h) (if_pos rfl)
      exact .single ⟨.loseVoteReturn p, congrArg some
        (cluster_ext rfl rfl (hnone rfl) hp (hnone rfl) (hnone rfl) rfl)⟩
  · cases stage with
    | called | sent =>
      obtain ⟨p, -, hp⟩ := exists_eraseIdx_filterMap hk (f := Rpc.appendCall h) (if_pos rfl)
      exact .single ⟨.loseAppendCall p, congrArg some
        (cluster_ext rfl rfl (hnone rfl) (hnone rfl) hp (hnone rfl) rfl)⟩
    | answered reply =>
      obtain ⟨p, -, hp⟩ := exists_eraseIdx_filterMap hk (f := Rpc.appendReturn h) (if_pos rfl)
      exact .single ⟨.loseAppendReturn p, congrArg some
        (cluster_ext rfl rfl (hnone rfl) (hnone rfl) (hnone rfl) hp rfl)⟩

theorem group_send {random : ℚ} (hk : m.rpcs[k]? = some c) (hs : m.send k c random = some m') :
    Raft.Steps S.M (m.group g) (m'.group g) := by
  obtain ⟨request, hreq, rfl⟩ := Option.map_eq_some_iff.mp hs
  split
  · rw [group_set_sent hk hreq]
    exact .refl
  · exact group_drop hk

/-- A vote request that arrives and is answered is handled. -/
theorem group_answerVote {me peer : String} {args : RequestVoteArgs} {p : ℕ}
    (hk : m.rpcs[k]? = some ⟨g, me, peer, .vote args .sent⟩)
    (hp : (m.rpcs.filterMap (Rpc.voteCall g)).eraseIdx p =
      (m.rpcs.eraseIdx k).filterMap (Rpc.voteCall g)) :
    ({ m.set peer g ((m.raft peer g).handleRequestVote args).1 with
      rpcs := m.rpcs.eraseIdx k ++ [⟨g, me, peer,
        .vote args (.answered ((m.raft peer g).handleRequestVote args).2)⟩] } : Mesh Cmd).group g =
      { m.group g with voteCalls := (m.group g).voteCalls.eraseIdx p }.answerVote
        ⟨me, peer, args⟩ := by
  refine cluster_ext (update_field m.raft _) rfl ?_ ?_ (filterMap_answer_none hk rfl rfl)
    (filterMap_answer_none hk rfl rfl) rfl
  · exact (filterMap_answer _ _ _).trans ((List.append_nil _).trans hp.symm)
  · refine (filterMap_answer _ _ _).trans ?_
    rw [eraseIdx_filterMap_of_none hk rfl]
    exact congrArg _ (congrArg Option.toList (if_pos rfl))

theorem group_answer (hk : m.rpcs[k]? = some c) {out : Node Cmd × Request Cmd}
    (ho : c.request.handle (m.raft c.peer c.group) = some out) :
    ∃ e, Cluster.step S.M (m.group c.group) e =
      some (({ m.set c.peer c.group out.1 with
        rpcs := m.rpcs.eraseIdx k ++ [{ c with request := out.2 }] } :
          Mesh Cmd).group c.group) := by
  obtain ⟨h, me, peer, ⟨args, stage⟩ | ⟨args, stage⟩⟩ := c <;> cases stage <;> cases ho
  · obtain ⟨p, hp, hp'⟩ := exists_eraseIdx_filterMap hk (f := Rpc.voteCall h) (if_pos rfl)
    refine ⟨.handleRequestVote p, ?_⟩
    rw [Cluster.step, show (m.group h).voteCalls[p]? = _ from hp, Option.map_some]
    exact congrArg some (group_answerVote hk hp').symm
  · obtain ⟨p, hp, hp'⟩ := exists_eraseIdx_filterMap hk (f := Rpc.appendCall h) (if_pos rfl)
    refine ⟨.handleAppendEntries p, ?_⟩
    rw [Cluster.step, show (m.group h).appendCalls[p]? = _ from hp, Option.map_some]
    exact congrArg some (group_answerAppend hk hp').symm

/-- The answer may be lost at once. -/
theorem group_arrive {random : ℚ} (hk : m.rpcs[k]? = some c)
    (hs : m.arrive S k c random = some m') : Raft.Steps S.M (m.group g) (m'.group g) := by
  obtain ⟨out, ho, rfl⟩ := Option.map_eq_some_iff.mp hs
  split
  · exact group_drop hk
  by_cases hg : c.group = g
  swap
  · rw [group_foreign hk hg c.peer out.1 _ fun d hd => ?_]
    · exact .refl
    · split at hd
      · rw [List.mem_singleton.mp hd]
      · cases hd
  subst hg
  have hsent := group_answer (S := S) hk ho
  split
  · exact .single hsent
  · have hlast : (m.rpcs.eraseIdx k ++ [{ c with request := out.2 }])[(m.rpcs.eraseIdx k).length]? =
        some { c with request := out.2 } := List.getElem?_concat_length
    have hdrop := group_drop (S := S) (g := c.group) (m := { m.set c.peer c.group out.1 with
      rpcs := m.rpcs.eraseIdx k ++ [{ c with request := out.2 }] }) hlast
    have hback : ∀ d, (m.rpcs.eraseIdx k ++ [d]).eraseIdx (m.rpcs.eraseIdx k).length =
        m.rpcs.eraseIdx k := fun d => by
      rw [List.eraseIdx_append_of_length_le le_rfl]
      simp
    rw [hback] at hdrop
    rw [List.append_nil]
    exact Relation.ReflTransGen.head hsent hdrop

theorem group_finish (hk : m.rpcs[k]? = some c) (hs : m.finish k c = some m') :
    Raft.Steps S.M (m.group g) (m'.group g) := by
  obtain ⟨r, hr, rfl⟩ := Option.map_eq_some_iff.mp hs
  by_cases hg : c.group = g
  swap
  · rw [group_foreign_nil hk hg]
    exact .refl
  subst hg
  obtain ⟨h, me, peer, ⟨args, stage⟩ | ⟨args, stage⟩⟩ := c <;> cases stage <;> cases hr
  · obtain ⟨p, hp, hp'⟩ := exists_eraseIdx_filterMap hk (f := Rpc.voteReturn h) (if_pos rfl)
    refine .single ⟨.voteReply p, ?_⟩
    rw [Cluster.step, show (m.group h).voteReturns[p]? = _ from hp, Option.map_some]
    exact congrArg some (group_finishVote hk hp').symm
  · obtain ⟨p, hp, hp'⟩ := exists_eraseIdx_filterMap hk (f := Rpc.appendReturn h) (if_pos rfl)
    refine .single ⟨.appendReply p, ?_⟩
    rw [Cluster.step, show (m.group h).appendReturns[p]? = _ from hp, Option.map_some]
    exact congrArg some (group_finishAppend hk hp').symm

/-- A step of the Raft object `raft[n][h]` that makes no RPC end. -/
theorem group_own {v : Cluster Cmd} {f : Raft.Event Cmd} (hg : g = h → m'.group h = v)
    (hother : g ≠ h → m'.group g = m.group g) (hstep : Cluster.step S.M (m.group h) f = some v) :
    Raft.Steps S.M (m.group g) (m'.group g) := by
  by_cases hgh : g = h
  · subst hgh
    rw [hg rfl]
    exact .single ⟨f, hstep⟩
  · rw [hother hgh]
    exact .refl

theorem group_campaign (S : Setup) (m : Mesh Cmd) (n g : String) :
    (m.campaign S n g).group g = (m.group g).campaign S.M n := by
  refine cluster_ext (update_field m.raft _) rfl ?_ (filterMap_spawn ?_) (filterMap_spawn ?_)
    (filterMap_spawn ?_) rfl
  · show (m.rpcs ++ (S.M.peers n).map _).filterMap (Rpc.voteCall g) = _
    rw [List.filterMap_append, List.filterMap_map]
    refine congrArg _ ?_
    rw [← List.filterMap_eq_map]
    refine List.filterMap_congr fun p _ => ?_
    exact if_pos rfl
  all_goals
    intro c hc
    obtain ⟨p, -, rfl⟩ := List.mem_map.mp hc
    rfl

/-- **Every step of the mesh is a run of each group**: one case for each event. -/
theorem group_steps (he : step S m e = some m') (g : String) :
    Raft.Steps S.M (m.group g) (m'.group g) := by
  cases e with
  | start n h =>
    obtain ⟨⟨hn, -⟩, ⟨⟩⟩ := Option.ite_none_right_eq_some.mp he
    refine group_own (f := .start n) (h := h) (fun _ => ?_) (fun hne => ?_) (if_pos hn)
    · exact cluster_ext (update_field m.raft _) (update_field m.running _) rfl rfl rfl rfl rfl
    · exact cluster_ext (update_field_ne m.raft _ hne) (update_field_ne m.running _ hne)
        rfl rfl rfl rfl rfl
  | stop n h =>
    obtain ⟨⟨hn, -⟩, ⟨⟩⟩ := Option.ite_none_right_eq_some.mp he
    refine group_own (f := .stop n) (h := h) (fun _ => ?_) (fun hne => ?_) (if_pos hn)
    · exact cluster_ext rfl (update_field m.running _) rfl rfl rfl rfl rfl
    · exact cluster_ext rfl (update_field_ne m.running _ hne) rfl rfl rfl rfl rfl
  | electionTimeout n h =>
    obtain ⟨⟨hn, -, hrun, hrole⟩, ⟨⟩⟩ := Option.ite_none_right_eq_some.mp he
    refine group_own (f := .electionTimeout n) (h := h) (fun _ => ?_) (fun hne => ?_)
      (if_pos ⟨hn, hrun, hrole⟩)
    · exact group_campaign S m n h
    · refine group_spawn _ (fun c hc => ?_) hne
      obtain ⟨p, -, rfl⟩ := List.mem_map.mp hc
      rfl
  | propose n h command =>
    obtain ⟨⟨hn, -⟩, ⟨⟩⟩ := Option.ite_none_right_eq_some.mp he
    refine group_own (f := .propose n command) (h := h) (fun _ => ?_) (fun hne => ?_) (if_pos hn)
    · exact group_set
    · exact group_set_ne hne
  | replicate n h peer term =>
    rw [step] at he
    split at he
    swap
    · cases he
    rename_i hcond
    obtain ⟨hn, -, hrun, hpeer⟩ := hcond
    split at he <;> cases he
    · rename_i args hargs
      refine group_own (f := .replicate n peer term) (h := h)
        (v := { m.group h with appendCalls := (m.group h).appendCalls ++ [⟨n, peer, args⟩] })
        (fun _ => group_replicate) (fun hne => group_called hne) ?_
      rw [Cluster.step, if_pos ⟨hn, hrun, hpeer⟩,
          show ((m.group h).node n).replicateTo peer term = _ from hargs]
    · exact .refl
  | applier n h =>
    obtain ⟨⟨hn, -, hrun⟩, ⟨⟩⟩ := Option.ite_none_right_eq_some.mp he
    refine group_own (f := .applier n) (h := h) (fun _ => ?_) (fun hne => ?_) (if_pos ⟨hn, hrun⟩)
    · exact group_deliver
    · exact cluster_ext (update_field_ne m.raft _ hne) rfl rfl rfl rfl rfl
        (update_field_ne m.applied _ hne)
  | send k random =>
    obtain ⟨c, hk, hs⟩ := Option.bind_eq_some_iff.mp he
    exact group_send hk hs
  | arrive k random =>
    obtain ⟨c, hk, hs⟩ := Option.bind_eq_some_iff.mp he
    exact group_arrive hk hs
  | finish k =>
    obtain ⟨c, hk, hs⟩ := Option.bind_eq_some_iff.mp he
    exact group_finish hk hs
  | drop k =>
    cases he
    cases hk : m.rpcs[k]? with
    | some c => exact group_drop hk
    | none =>
      rw [List.eraseIdx_of_length_le (List.getElem?_eq_none_iff.mp hk)]
      exact .refl
  | kill n | revive n | partition groups | setLoss fraction =>
    cases he
    exact .refl

theorem group_run (hs : Steps S m m') (g : String) :
    Raft.Steps S.M (m.group g) (m'.group g) := by
  refine Run.invariant (P := fun x => Raft.Steps S.M (m.group g) (x.group g)) ?_ hs ?_
  · rintro x x' ⟨e, he⟩ h
    exact Relation.ReflTransGen.trans h (group_steps he g)
  · exact .refl

theorem group_reachable (h : Reachable S m) (g : String) : Raft.Reachable S.M (m.group g) :=
  group_run h g

/-- The event is not in this group. -/
def Event.Elsewhere (m : Mesh Cmd) (g : String) : Event Cmd → Prop
  | .start _ h | .stop _ h | .electionTimeout _ h | .propose _ h _ | .replicate _ h _ _
  | .applier _ h => h ≠ g
  | .send k _ | .arrive k _ | .finish k | .drop k => ∀ c ∈ m.rpcs[k]?, c.group ≠ g
  | .kill _ | .revive _ | .partition _ | .setLoss _ => True

/-- What happens in one group is not seen in another. -/
theorem group_elsewhere (he : step S m e = some m') (hg : e.Elsewhere m g) :
    m'.group g = m.group g := by
  cases e with
  | start n h =>
    obtain ⟨-, ⟨⟩⟩ := Option.ite_none_right_eq_some.mp he
    exact cluster_ext (update_field_ne m.raft _ hg.symm) (update_field_ne m.running _ hg.symm)
      rfl rfl rfl rfl rfl
  | stop n h =>
    obtain ⟨-, ⟨⟩⟩ := Option.ite_none_right_eq_some.mp he
    exact cluster_ext rfl (update_field_ne m.running _ hg.symm) rfl rfl rfl rfl rfl
  | electionTimeout n h =>
    obtain ⟨-, ⟨⟩⟩ := Option.ite_none_right_eq_some.mp he
    refine group_spawn _ (fun c hc => ?_) hg.symm
    obtain ⟨p, -, rfl⟩ := List.mem_map.mp hc
    rfl
  | propose n h command =>
    obtain ⟨-, ⟨⟩⟩ := Option.ite_none_right_eq_some.mp he
    exact group_set_ne hg.symm
  | replicate n h peer term =>
    rw [step] at he
    split at he
    swap
    · cases he
    split at he <;> cases he
    · exact group_called hg.symm
    · rfl
  | applier n h =>
    obtain ⟨-, ⟨⟩⟩ := Option.ite_none_right_eq_some.mp he
    exact cluster_ext (update_field_ne m.raft _ hg.symm) rfl rfl rfl rfl rfl
      (update_field_ne m.applied _ hg.symm)
  | send k random =>
    obtain ⟨c, hk, hs⟩ := Option.bind_eq_some_iff.mp he
    obtain ⟨request, hreq, rfl⟩ := Option.map_eq_some_iff.mp hs
    split
    · exact group_set_sent hk hreq g
    · exact group_eraseIdx_of_foreign hk (hg c hk)
  | arrive k random =>
    obtain ⟨c, hk, hs⟩ := Option.bind_eq_some_iff.mp he
    obtain ⟨out, -, rfl⟩ := Option.map_eq_some_iff.mp hs
    split
    · exact group_eraseIdx_of_foreign hk (hg c hk)
    · refine group_foreign hk (hg c hk) c.peer out.1 _ fun d hd => ?_
      split at hd
      · rw [List.mem_singleton.mp hd]
      · cases hd
  | finish k =>
    obtain ⟨c, hk, hs⟩ := Option.bind_eq_some_iff.mp he
    obtain ⟨r, -, rfl⟩ := Option.map_eq_some_iff.mp hs
    exact group_foreign_nil hk (hg c hk)
  | drop k =>
    cases he
    cases hk : m.rpcs[k]? with
    | some c => exact group_eraseIdx_of_foreign hk (hg c hk)
    | none => rw [List.eraseIdx_of_length_le (List.getElem?_eq_none_iff.mp hk)]
  | kill n | revive n | partition groups | setLoss fraction =>
    cases he
    rfl

/-- A step is seen in one group at most. -/
theorem exists_group (he : step S m e = some m') : ∃ h, ∀ g ≠ h, m'.group g = m.group g := by
  have hrpc : ∀ k : ℕ, ∃ h, ∀ g ≠ h, ∀ c ∈ m.rpcs[k]?, c.group ≠ g := by
    intro k
    cases hk : m.rpcs[k]? with
    | some c => exact ⟨c.group, fun g hne d hd => by cases hd; exact Ne.symm hne⟩
    | none => exact ⟨"", fun g _ d hd => by cases hd⟩
  suffices h : ∃ h, ∀ g ≠ h, e.Elsewhere m g from
    h.imp fun _ hg g hne => group_elsewhere he (hg g hne)
  cases e with
  | start n h | stop n h | electionTimeout n h | propose n h | replicate n h | applier n h =>
    exact ⟨h, fun _ hne => Ne.symm hne⟩
  | send k | arrive k | finish k | drop k => exact hrpc k
  | kill n | revive n | partition groups | setLoss fraction => exact ⟨"", fun _ _ => trivial⟩

/-- **The groups of a mesh are Raft clusters.**  In every run over the in-memory network each
group is in a state that a Raft cluster can reach, and every step is a run of the groups, of
which all but one stay as they are. -/
theorem groups_are_clusters (h : Reachable S m) : (∀ g, Raft.Reachable S.M (m.group g)) ∧
    ∀ e m', step S m e = some m' → (∀ g, Raft.Steps S.M (m.group g) (m'.group g)) ∧
      ∃ g, ∀ g' ≠ g, m'.group g' = m.group g' :=
  ⟨group_reachable h, fun _ _ he => ⟨group_steps he, exists_group he⟩⟩

/-! ### A run of two groups -/

/-- Two groups of two nodes. -/
def duo : Setup where
  M := .ofIds ["a", "b"] (by decide) (by decide)
  groups := ["s", "t"]

/-- `a` wins the first group; the reply to its request in the second one gets lost. -/
def duoElects : List (Event ℕ) :=
  [.start "a" "s", .start "b" "s", .start "a" "t", .start "b" "t", .electionTimeout "a" "s",
    .electionTimeout "a" "t", .send 0 (1 / 2), .send 1 (1 / 2), .arrive 0 (1 / 2), .setLoss (3 / 4),
    .arrive 0 (1 / 2), .finish 0]

theorem duoElects_runs : (Run.exec (step duo) (init duo) duoElects).isSome = true := by
  decide +kernel

theorem groups_are_clusters_duo :
    (((((Run.exec (step duo) (init duo) duoElects).get duoElects_runs).group "s").node "a").state,
      ((((Run.exec (step duo) (init duo) duoElects).get duoElects_runs).group
        "t").node "a").state) =
        ((1, true), (1, false)) ∧
    ∀ g, Raft.Reachable duo.M
      (((Run.exec (step duo) (init duo) duoElects).get duoElects_runs).group g) :=
  ⟨by decide +kernel, (groups_are_clusters (Run.steps_get duoElects_runs)).1⟩

end Mesh
