/-
The feed of the consensus playground (`playground.py`, `Consensus`).

A `Consensus` has the Raft cluster and the SWIM network of its nodes, the nodes that are
down, and what `_watch` remembers from one call to the next.  `_watch` may come at any
moment, as may a user's `kill`, `revive` and `write`; the network is free to do what it
does elsewhere.  `_kill` and `_revive` add no lines here, and what they stop may stop
later.

* `Note` — the lines of the feed; `Consensus.leader`, which `write` turns to;
* `Consensus.watchRole`, `Consensus.watchTarget` — the two halves of `_watch`;
* `Announced`, `Declared` — what holds of the two kinds of lines; `Tale` — in which order the
  lines about one node can come;
* **`Consensus.no_term_announced_twice`** — the feed announces one leader for a term, and
  that once, whatever is killed and revived, and no two writes get the same entry;
* **`Consensus.deaths_are_earned`** — who is declared dead has failed a probe and has let a
  suspicion timer run out, and is declared dead again only after it has been back.
-/
import Dssd.RaftSafety
import Dssd.RaftSteps
import Dssd.SwimRumors
import Mathlib.Data.List.MinMax
import Mathlib.Data.Prod.Lex
import Mathlib.Data.String.Basic

open Function (update)
open Relation (ReflTransGen)

namespace Playground

open Raft (Cluster Membership Ghost Sim)

/-- A line of the feed. -/
inductive Note
  | leader (n : String) (term : ℕ)
  | election (n : String) (term : ℕ)
  | stepdown (n : String)
  | suspect (viewer target : String)
  | dead (viewer target : String)
  | recover (target : String)
  | write (n text : String) (index term : ℕ)
  | rejected (text : String)
  deriving DecidableEq

/-- `role.value`, or `down` -/
inductive Shown
  | up (role : Raft.Role)
  | down
  deriving DecidableEq

/-- Who is in the cluster, with its socket. -/
structure Rig where
  M : Membership
  net : Swim.Net {n // n ∈ M.ids}

/-- `lastRoles` is `_last_roles`, where `none` is a missing key, and `lastTrouble` is
`_last_trouble`. -/
structure Consensus (R : Rig) where
  raft : Cluster String
  swim : Swim.World {n // n ∈ R.M.ids}
  down : Finset String
  lastRoles : String → Option Shown
  lastTrouble : String → List String
  reportedDead : Finset String
  feed : List Note

namespace Consensus

variable {R : Rig}

inductive Event (R : Rig)
  | raft (e : Raft.Event String)
  | swim (e : Swim.World.Event {n // n ∈ R.M.ids})
  | kill (n : {n // n ∈ R.M.ids})
  | revive (n : {n // n ∈ R.M.ids})
  | write (text : String)
  | watch

/-- Nothing has run yet; `_boot` starts the nodes and lets them join. -/
def init (R : Rig) : Consensus R where
  raft := Cluster.init R.M
  swim := .init R.net Subtype.val fun _ => 2
  down := ∅
  lastRoles _ := none
  lastTrouble _ := []
  reportedDead := ∅
  feed := []

/-- `_leader()`: among the nodes that are up and lead, one of the highest term. -/
def leader (c : Consensus R) : Option String :=
  let leaders := (R.M.ids.filter fun n => n ∉ c.down ∧ (c.raft.node n).state.2 = true).map fun n =>
    ((c.raft.node n).state.1, n)
  (leaders.argmax toLex).map Prod.snd

/-- `write(text)` -/
def write (c : Consensus R) (text : String) : Consensus R :=
  match c.leader with
  | some n =>
    let (r, index, term, _) := (c.raft.node n).propose text
    { c with raft := c.raft.set n r, feed := c.feed ++ [.write n text index term] }
  | none => { c with feed := c.feed ++ [.rejected text] }

/-! ### `_watch` -/

/-- The line about a role that has changed. -/
def roleNote (c : Consensus R) (n : String) : Shown → List Note
  | .up .leader => [.leader n (c.raft.node n).state.1]
  | .up .candidate => [.election n (c.raft.node n).state.1]
  | .up .follower => if c.lastRoles n = some (.up .leader) then [.stepdown n] else []
  | .down => []

/-- The first loop of `_watch` -/
def watchRole (c : Consensus R) (n : String) : Consensus R :=
  let role : Shown := if n ∈ c.down then .down else .up (c.raft.node n).role
  if c.lastRoles n = some role then c
  else
    { c with
      lastRoles := update c.lastRoles n (some role)
      feed := c.feed ++ c.roleNote n role }

/-- `_views(nid).get(target)` -/
def view (c : Consensus R) (n : {n // n ∈ R.M.ids}) (target : String) : Option Swim.State :=
  let others := (c.swim.procs n).node.listed.filter fun m => m.id ≠ n.1
  -- a later item of a dictionary replaces an earlier one
  (others.reverse.find? fun m => m.id = target).map Swim.Member.state

/-- The nodes that are up and have the target in one of these states on record. -/
def viewers (c : Consensus R) (target : String) (states : List Swim.State) : List String :=
  (R.M.ids.attach.filter fun n =>
    n.1 ∉ c.down ∧ n.1 ≠ target ∧ ∃ s ∈ states, c.view n target = some s).map Subtype.val

/-- `sorted(suspecting)[0]` tells of the first suspicion. -/
def suspectNotes (c : Consensus R) (target : String) : List Note :=
  if c.lastTrouble target = [] then
    ((c.viewers target [.suspect, .dead]).argmin id).toList.map (.suspect · target)
  else []

/-- `sorted(dead)[0]` tells of a death that has not been reported. -/
def deadNotes (c : Consensus R) (target : String) : List Note :=
  if target ∉ c.reportedDead then
    ((c.viewers target [.dead]).argmin id).toList.map (.dead · target)
  else []

def recoverNotes (c : Consensus R) (target : String) : List Note :=
  if c.viewers target [.suspect, .dead] = [] ∧ c.lastTrouble target ≠ [] ∧ target ∉ c.down then
    [.recover target]
  else []

/-- The second loop of `_watch` -/
def watchTarget (c : Consensus R) (target : String) : Consensus R :=
  let reported := if c.viewers target [.dead] = [] then c.reportedDead
    else insert target c.reportedDead
  { c with
    lastTrouble := update c.lastTrouble target (c.viewers target [.suspect, .dead])
    reportedDead := if c.recoverNotes target = [] then reported else reported.erase target
    feed := c.feed ++ (c.suspectNotes target ++ c.deadNotes target ++ c.recoverNotes target) }

/-- `_watch()` -/
def watch (c : Consensus R) : Consensus R :=
  R.M.ids.foldl watchTarget (R.M.ids.foldl watchRole c)

def step (R : Rig) (c : Consensus R) : Event R → Option (Consensus R)
  | .raft e =>
    if e.isPropose = true then none
    else (Cluster.step R.M c.raft e).map fun raft => { c with raft }
  | .swim e => (c.swim.step R.net e).map fun swim => { c with swim }
  | .kill n => some { c with down := insert n.1 c.down }
  | .revive n =>
    if n.1 ∈ c.down then do
      let swim ← c.swim.step R.net (.act n (.restart (R.net.addr n)))
      let raft ← Cluster.step R.M c.raft (.start n)
      some { c with swim, raft, down := c.down.erase n.1 }
    else some c
  | .write text => some (c.write text)
  | .watch => some c.watch

end Consensus

/-! ### Elections and writes -/

namespace Note

/-- The term that is announced. -/
def term? : Note → Option ℕ
  | leader _ t => some t
  | _ => none

/-- The entry that a write has got. -/
def entry? : Note → Option (ℕ × ℕ)
  | write _ _ i t => some (i, t)
  | _ => none

variable {l : List Note} {t : ℕ} {x : ℕ × ℕ}

theorem mem_terms : t ∈ l.filterMap term? ↔ ∃ n, .leader n t ∈ l := by
  rw [List.mem_filterMap]
  constructor
  · rintro ⟨note, hnote, ht⟩
    cases note with
    | leader n t' =>
      obtain rfl := Option.some.inj ht
      exact ⟨n, hnote⟩
    | _ => cases ht
  · rintro ⟨n, hn⟩
    exact ⟨_, hn, rfl⟩

theorem mem_entries : x ∈ l.filterMap entry? ↔ ∃ n text, .write n text x.1 x.2 ∈ l := by
  rw [List.mem_filterMap]
  constructor
  · rintro ⟨note, hnote, hx⟩
    cases note with
    | write n text i t' =>
      obtain rfl := Option.some.inj hx
      exact ⟨n, text, hnote⟩
    | _ => cases hx
  · rintro ⟨n, text, hn⟩
    exact ⟨_, hn, rfl⟩

/-- A line that is about no election and no write. -/
def IsIdle (note : Note) : Prop := note.term? = none ∧ note.entry? = none

end Note

open Ledger.State (Ext)

variable {R : Rig} {c c' : Consensus R} {g g' : Ghost String} {n : String}

/-- Whoever leads a term it has been the owner of has led it before. -/
theorem was_leader {w w' : Cluster String} {e : Raft.Event String} {t : ℕ} (h : Sim R.M g w)
    (hown : g.owner t = some n) (he : Cluster.step R.M w e = some w')
    (hn : (w'.node n).state = (t, true)) : (w.node n).state = (t, true) := by
  obtain ⟨hterm, hrole⟩ := Raft.Node.state_eq_true.mp hn
  by_contra hnot
  have hret : (w.node n).currentTerm = t → (w.node n).role = .follower := by
    intro ht
    cases hr : (w.node n).role with
    | follower => rfl
    | candidate => exact absurd (ht ▸ hown) ((h.node n).candidate hr)
    | leader => exact absurd (Raft.Node.state_eq_true.mpr ⟨ht, hr⟩) hnot
  have hfollower := h.retired hown hret (.single ⟨e, he⟩) hterm
  rw [hrole] at hfollower
  cases hfollower

namespace Consensus

/-- **What the feed says of elections and writes** is so. -/
structure Announced (g : Ghost String) (c : Consensus R) : Prop where
  sim : Sim R.M g c.raft
  owner : ∀ n t, .leader n t ∈ c.feed → g.owner t = some n
  shown : ∀ n t, .leader n t ∈ c.feed → (c.raft.node n).state = (t, true) → n ∉ c.down →
    c.lastRoles n = some (.up .leader)
  terms : (c.feed.filterMap Note.term?).Nodup
  written : ∀ n text i t, .write n text i t ∈ c.feed →
    g.owner t = some n ∧ (g.ledger t)[i]? = some ⟨t, i, text⟩
  entries : (c.feed.filterMap Note.entry?).Nodup

theorem announced_init (R : Rig) : Announced Ghost.init (init R) where
  sim := Raft.sim_init R.M
  owner _ _ h := by cases h
  shown _ _ h := by cases h
  terms := List.nodup_nil
  written _ _ _ _ h := by cases h
  entries := List.nodup_nil

/-- A step of the cluster. -/
theorem Announced.raft {raft : Cluster String} {e : Raft.Event String} (h : Announced g c)
    (he : Cluster.step R.M c.raft e = some raft) : ∃ g', Ext g.toState g'.toState ∧
      Announced g' { c with raft } := by
  obtain ⟨g', hx, -, hsim⟩ := h.sim.step he
  refine ⟨g', hx, hsim, fun n t hn => hx.owner t n (h.owner n t hn), fun n t hn hlead => ?_,
    h.terms, fun n text i t hn => ?_, h.entries⟩
  · exact h.shown n t hn (was_leader h.sim (h.owner n t hn) he hlead)
  · obtain ⟨hown, hget⟩ := h.written n text i t hn
    exact ⟨hx.owner t n hown, Ledger.getElem?_of_isPrefix (hx.ledger t) hget⟩

/-- More lines, about other things. -/
theorem Announced.more {notes : List Note} (h : Announced g c) (hraft : c'.raft = c.raft)
    (hdown : c'.down = c.down) (hroles : c'.lastRoles = c.lastRoles)
    (hfeed : c'.feed = c.feed ++ notes) (hidle : ∀ note ∈ notes, note.IsIdle) :
    Announced g c' := by
  have hleader : ∀ n t, .leader n t ∈ c'.feed → .leader n t ∈ c.feed := by
    intro n t hn
    rw [hfeed] at hn
    refine (List.mem_append.mp hn).resolve_right fun hn => ?_
    cases (hidle _ hn).1
  have hwrite : ∀ n text i t, .write n text i t ∈ c'.feed → .write n text i t ∈ c.feed := by
    intro n text i t hn
    rw [hfeed] at hn
    refine (List.mem_append.mp hn).resolve_right fun hn => ?_
    cases (hidle _ hn).2
  have hterms : notes.filterMap Note.term? = [] :=
    List.filterMap_eq_nil_iff.mpr fun note hnote => (hidle note hnote).1
  have hentries : notes.filterMap Note.entry? = [] :=
    List.filterMap_eq_nil_iff.mpr fun note hnote => (hidle note hnote).2
  refine ⟨hraft ▸ h.sim, fun n t hn => h.owner n t (hleader n t hn), fun n t hn hlead hup => ?_, ?_,
    fun n text i t hn => h.written n text i t (hwrite n text i t hn), ?_⟩
  · rw [hroles]
    exact h.shown n t (hleader n t hn) (hraft ▸ hlead) (hdown ▸ hup)
  · rw [hfeed, List.filterMap_append, hterms, List.append_nil]
    exact h.terms
  · rw [hfeed, List.filterMap_append, hentries, List.append_nil]
    exact h.entries

theorem mem_roleNote {role : Shown} {note : Note} (h : note ∈ c.roleNote n role) :
    (role = .up .leader ∧ note = .leader n (c.raft.node n).state.1) ∨
      note = .election n (c.raft.node n).state.1 ∨ note = .stepdown n := by
  unfold roleNote at h
  split at h
  · exact .inl ⟨rfl, List.mem_singleton.mp h⟩
  · exact .inr (.inl (List.mem_singleton.mp h))
  · split at h
    · exact .inr (.inr (List.mem_singleton.mp h))
    · cases h
  · cases h

/-- **A new leader is announced in a new term.** -/
theorem Announced.watchRole (h : Announced g c) (n : String) : Announced g (c.watchRole n) := by
  unfold Consensus.watchRole
  dsimp only
  set role : Shown := if n ∈ c.down then .down else .up (c.raft.node n).role with hrole
  split
  · exact h
  rename_i hchanged
  -- a leader that is up is shown as one from now on
  have hshown : ∀ k t, (c.raft.node k).state = (t, true) → k ∉ c.down →
      (k ≠ n → c.lastRoles k = some (.up .leader)) →
        update c.lastRoles n (some role) k = some (.up .leader) := by
    intro k t hlead hup hother
    by_cases hk : k = n
    · subst hk
      rw [Function.update_self, hrole, if_neg hup, (Raft.Node.state_eq_true.mp hlead).2]
    · rw [Function.update_of_ne hk]
      exact hother hk
  by_cases hnew : role = .up .leader
  swap
  · -- no election is announced
    have hmore : Announced g { c with feed := c.feed ++ c.roleNote n role } :=
      h.more rfl rfl rfl rfl fun note hnote => by
        rcases mem_roleNote hnote with ⟨heq, -⟩ | rfl | rfl
        · exact absurd heq hnew
        · exact ⟨rfl, rfl⟩
        · exact ⟨rfl, rfl⟩
    exact ⟨hmore.sim, hmore.owner, fun k t hk hlead hup =>
      hshown k t hlead hup fun _ => hmore.shown k t hk hlead hup, hmore.terms, hmore.written,
      hmore.entries⟩
  obtain ⟨hup, hlead⟩ : n ∉ c.down ∧ (c.raft.node n).role = .leader := by
    rw [hrole] at hnew
    split at hnew
    · cases hnew
    · exact ⟨‹_›, by injection hnew⟩
  have hstate : (c.raft.node n).state = ((c.raft.node n).currentTerm, true) :=
    Raft.Node.state_eq_true.mpr ⟨rfl, hlead⟩
  have hown := h.sim.owner_of_state hstate
  have hfeed : ∀ k t, .leader k t ∈ c.feed ++ c.roleNote n role ↔
      .leader k t ∈ c.feed ∨ (k = n ∧ t = (c.raft.node n).currentTerm) := by
    intro k t
    rw [hnew, List.mem_append]
    simp [roleNote, Raft.Node.state]
  have hwrite : ∀ k text i t, .write k text i t ∈ c.feed ++ c.roleNote n role →
      .write k text i t ∈ c.feed := by
    intro k text i t hk
    rw [hnew] at hk
    simpa [roleNote] using hk
  refine ⟨h.sim, fun k t hk => ?_, fun k t hk hlead' hup' => ?_, ?_,
    fun k text i t hk => h.written k text i t (hwrite k text i t hk), ?_⟩
  · rcases (hfeed k t).mp hk with hk | ⟨rfl, rfl⟩
    · exact h.owner k t hk
    · exact hown
  · refine hshown k t hlead' hup' fun hkn => ?_
    rcases (hfeed k t).mp hk with hk | ⟨rfl, -⟩
    · exact h.shown k t hk hlead' hup'
    · exact absurd rfl hkn
  · -- the term has not been announced: its leader would be shown as one
    have hfresh : (c.raft.node n).currentTerm ∉ c.feed.filterMap Note.term? := by
      intro hmem
      obtain ⟨k, hk⟩ := Note.mem_terms.mp hmem
      obtain rfl := Option.some.inj ((h.owner k _ hk).symm.trans hown)
      exact hchanged (hnew ▸ h.shown k _ hk hstate hup)
    rw [List.filterMap_append, hnew]
    have := h.terms.concat hfresh
    rwa [List.concat_eq_append] at this
  · rw [List.filterMap_append, hnew]
    exact (List.append_nil _).symm ▸ h.entries

theorem mem_suspectNotes {target : String} {note : Note} (h : note ∈ c.suspectNotes target) :
    ∃ viewer ∈ c.viewers target [.suspect, .dead], note = .suspect viewer target := by
  unfold suspectNotes at h
  split at h
  · obtain ⟨viewer, hviewer, rfl⟩ := List.mem_map.mp h
    exact ⟨viewer, List.argmin_mem (Option.mem_toList.mp hviewer), rfl⟩
  · cases h

theorem mem_deadNotes {target : String} {note : Note} (h : note ∈ c.deadNotes target) :
    ∃ viewer ∈ c.viewers target [.dead], note = .dead viewer target := by
  unfold deadNotes at h
  split at h
  · obtain ⟨viewer, hviewer, rfl⟩ := List.mem_map.mp h
    exact ⟨viewer, List.argmin_mem (Option.mem_toList.mp hviewer), rfl⟩
  · cases h

theorem mem_recoverNotes {target : String} {note : Note} (h : note ∈ c.recoverNotes target) :
    note = .recover target := by
  unfold recoverNotes at h
  split at h
  · exact List.mem_singleton.mp h
  · cases h

theorem mem_verdictNotes {target : String} {note : Note} (h : note ∈
      c.suspectNotes target ++ c.deadNotes target ++ c.recoverNotes target) :
    (∃ viewer ∈ c.viewers target [.suspect, .dead], note = .suspect viewer target) ∨
      (∃ viewer ∈ c.viewers target [.dead], note = .dead viewer target) ∨
      note = .recover target := by
  rcases List.mem_append.mp h with h | h
  · exact (List.mem_append.mp h).imp mem_suspectNotes fun h => .inl (mem_deadNotes h)
  · exact .inr (.inr (mem_recoverNotes h))

theorem Announced.watchTarget (h : Announced g c) (target : String) :
    Announced g (c.watchTarget target) := by
  refine h.more rfl rfl rfl rfl fun note hnote => ?_
  rcases mem_verdictNotes hnote with ⟨viewer, -, rfl⟩ | ⟨viewer, -, rfl⟩ | rfl
  all_goals exact ⟨rfl, rfl⟩

/-- What each pass of the two loops keeps. -/
theorem watch_induction {P : Consensus R → Prop} (hrole : ∀ c n, P c → P (watchRole c n))
    (htarget : ∀ c target, P c → P (watchTarget c target)) (h : P c) : P c.watch :=
  List.foldlRecOn _ _ (List.foldlRecOn _ _ h fun c hc n _ => hrole c n hc)
    fun c hc target _ => htarget c target hc

theorem Announced.watch (h : Announced g c) : Announced g c.watch :=
  watch_induction (fun _ n h => h.watchRole n) (fun _ target h => h.watchTarget target) h

/-- `write` turns to a node that leads and is up. -/
theorem mem_of_leader (h : c.leader = some n) :
    n ∈ R.M.ids ∧ n ∉ c.down ∧ (c.raft.node n).role = .leader := by
  obtain ⟨x, hx, rfl⟩ := Option.map_eq_some_iff.mp h
  obtain ⟨m, hm, rfl⟩ := List.mem_map.mp (List.argmax_mem hx)
  obtain ⟨hids, hm⟩ := List.mem_filter.mp hm
  obtain ⟨hup, hlead⟩ := of_decide_eq_true hm
  exact ⟨hids, hup, by simpa [Raft.Node.state] using hlead⟩

/-- **A write gets an entry of its own.** -/
theorem Announced.write (h : Announced g c) (text : String) :
    ∃ g', Ext g.toState g'.toState ∧ Announced g' (c.write text) := by
  unfold Consensus.write
  split
  swap
  · refine ⟨g, Ext.refl _, h.more rfl rfl rfl rfl fun note hnote => ?_⟩
    rw [List.mem_singleton.mp hnote]
    exact ⟨rfl, rfl⟩
  rename_i n hleader
  obtain ⟨hids, -, hrole⟩ := mem_of_leader hleader
  have hpropose : (c.raft.node n).propose text = ({ c.raft.node n with
      log := (c.raft.node n).log ++
        [⟨(c.raft.node n).currentTerm, (c.raft.node n).log.length, text⟩] },
      ((c.raft.node n).log.length, (c.raft.node n).currentTerm, true)) := by
    rw [Raft.Node.propose, if_neg (not_not.mpr hrole)]
  have hstep : Cluster.step R.M c.raft (.propose n text) =
      some (c.raft.set n ((c.raft.node n).propose text).1) := if_pos hids
  obtain ⟨g', hx, h'⟩ := h.raft hstep
  obtain ⟨hown, hledger, -⟩ := (h.sim.node n).leader hrole
  have hled : (g'.ledger (c.raft.node n).currentTerm)[(c.raft.node n).log.length]? =
      some ⟨(c.raft.node n).currentTerm, (c.raft.node n).log.length, text⟩ := by
    have hledger' := ((h'.sim.node n).leader (by simp [hpropose, hrole])).2.1
    simp only [Cluster.set_node_self, hpropose] at hledger'
    rw [hledger', List.getElem?_concat_length]
  have hfresh : ((c.raft.node n).log.length, (c.raft.node n).currentTerm) ∉
      c.feed.filterMap Note.entry? := by
    intro hmem
    obtain ⟨k, text', hk⟩ := Note.mem_entries.mp hmem
    have hlt := Ledger.lt_length_of_getElem? (h.written k text' _ _ hk).2
    rw [hledger] at hlt
    exact lt_irrefl _ hlt
  rw [hpropose] at h' ⊢
  have hleader : ∀ k t, .leader k t ∈ c.feed ++ [.write n text (c.raft.node n).log.length
      (c.raft.node n).currentTerm] → .leader k t ∈ c.feed := by
    intro k t hk
    simpa using hk
  refine ⟨g', hx, h'.sim, fun k t hk => h'.owner k t (hleader k t hk),
    fun k t hk => h'.shown k t (hleader k t hk), ?_, fun k text' i t hk => ?_, ?_⟩
  · rw [List.filterMap_append]
    exact (List.append_nil _).symm ▸ h'.terms
  · rcases List.mem_append.mp hk with hk | hk
    · exact h'.written k text' i t hk
    · obtain ⟨rfl, rfl, rfl, rfl⟩ := Note.write.inj (List.mem_singleton.mp hk)
      exact ⟨hx.owner _ _ hown, hled⟩
  · rw [List.filterMap_append]
    have := h.entries.concat hfresh
    rwa [List.concat_eq_append] at this

theorem Announced.step {e : Event R} (h : Announced g c) (he : step R c e = some c') :
    ∃ g', Ext g.toState g'.toState ∧ Announced g' c' := by
  cases e with
  | raft e =>
    simp only [Consensus.step] at he
    split at he
    · cases he
    · obtain ⟨raft, hraft, rfl⟩ := Option.map_eq_some_iff.mp he
      exact h.raft hraft
  | swim e =>
    obtain ⟨swim, -, rfl⟩ := Option.map_eq_some_iff.mp he
    exact ⟨g, Ext.refl _, h.sim, h.owner, h.shown, h.terms, h.written, h.entries⟩
  | kill k =>
    obtain rfl := Option.some.inj he
    refine ⟨g, Ext.refl _, h.sim, h.owner, fun n t hn hlead hup => ?_, h.terms, h.written,
      h.entries⟩
    exact h.shown n t hn hlead fun hd => hup (Finset.mem_insert_of_mem hd)
  | revive k =>
    simp only [Consensus.step] at he
    split at he
    swap
    · obtain rfl := Option.some.inj he
      exact ⟨g, Ext.refl _, h⟩
    obtain ⟨swim, -, he⟩ := Option.bind_eq_some_iff.mp he
    obtain ⟨raft, hraft, he⟩ := Option.bind_eq_some_iff.mp he
    obtain rfl := Option.some.inj he
    obtain ⟨g', hx, h'⟩ := h.raft hraft
    refine ⟨g', hx, h'.sim, h'.owner, fun n t hn hlead hup => ?_, h'.terms, h'.written,
      h'.entries⟩
    refine h'.shown n t hn hlead fun hd => hup (Finset.mem_erase.mpr ⟨?_, hd⟩)
    -- who has been restarted is a follower
    rintro rfl
    have hrole := (Raft.Node.state_eq_true.mp hlead).2
    obtain rfl := Option.some.inj ((if_pos k.2).symm.trans hraft)
    dsimp only at hrole
    rw [Cluster.set_node_self] at hrole
    cases hrole
  | write text =>
    obtain rfl := Option.some.inj he
    exact h.write text
  | watch =>
    obtain rfl := Option.some.inj he
    exact ⟨g, Ext.refl _, h.watch⟩

/-- A run goes on from what the feed says, and from who has led. -/
theorem Announced.run (h : Announced g c) (hs : ReflTransGen (Run.Step (Consensus.step R)) c c') :
    ∃ g', Ext g.toState g'.toState ∧ Announced g' c' :=
  Run.history (fun c g => Announced g c) (fun g g' => Ext g.toState g'.toState)
    (fun g => Ext.refl g.toState) Ext.trans (fun ⟨_, he⟩ h => h.step he) hs h

/-- **No term is announced twice.**  Whatever is killed and revived and however the network
behaves, the feed announces a leader for a term at most once, nobody else leads that term, neither
before nor after, and what is written in it is written through that leader.  Every accepted write
has an index and a term of its own, and where a log has an entry of that term at that index, it is
the text of this write. -/
theorem no_term_announced_twice (R : Rig) (es : List (Event R)) : Run.Always (step R)
    (fun c => (c.feed.filterMap Note.term?).Nodup ∧ (c.feed.filterMap Note.entry?).Nodup ∧
      (∀ n t, .leader n t ∈ c.feed → ∀ c₀, ReflTransGen (Run.Step (step R)) (init R) c₀ →
        ReflTransGen (Run.Step (step R)) c₀ c → ∀ k, (c₀.raft.node k).state = (t, true) → k = n) ∧
      ∀ n text i t, .write n text i t ∈ c.feed → (∀ k, .leader k t ∈ c.feed → k = n) ∧
        ∀ k e, (c.raft.node k).log[i]? = some e → e.term = t → e.command = text)
    (init R) es := by
  refine Run.always_of_inv (fun c e c' he (h : ∃ g, Announced g c) =>
      let ⟨_, h⟩ := h
      let ⟨g', _, h'⟩ := h.step he
      ⟨g', h'⟩)
    (fun c ⟨g, h⟩ => ⟨h.terms, h.entries, ?_, ?_⟩) ⟨_, announced_init R⟩ es
  · intro n t hn c₀ hbefore hafter k hk
    obtain ⟨g₀, -, h₀⟩ := (announced_init R).run hbefore
    obtain ⟨g₁, hx, h₁⟩ := h₀.run hafter
    have hown := hx.owner t k (h₀.sim.owner_of_state hk)
    exact Option.some.inj (hown.symm.trans (h₁.owner n t hn))
  · intro n text i t hn
    obtain ⟨hown, hget⟩ := h.written n text i t hn
    refine ⟨fun k hk => Option.some.inj ((h.owner k t hk).symm.trans hown), fun k e he ht => ?_⟩
    have := Raft.matches_of_wellFormed (h.sim.wellFormed k) (h.sim.inv.wf_ledger t) i e _ he hget ht
      i le_rfl
    rw [he, hget] at this
    rw [Option.some.inj this]

end Consensus

/-! ### Verdicts -/

/-- What the feed has told of a node: a suspicion since it was last back, a death since then. -/
structure Tale where
  troubled : Bool
  dead : Bool

namespace Tale

/-- Deaths and recoveries come after a suspicion, and nobody dies twice in between. -/
def step (target : String) (s : Tale) : Note → Option Tale
  | .suspect _ t => if t = target then some { s with troubled := true } else some s
  | .dead _ t =>
    if t = target then
      if s.troubled = true ∧ s.dead = false then some { s with dead := true } else none
    else some s
  | .recover t =>
    if t = target then if s.troubled = true then some ⟨false, false⟩ else none else some s
  | _ => some s

end Tale

/-- The node that a verdict is about. -/
def Note.target? : Note → Option String
  | .suspect _ t | .dead _ t | .recover t => some t
  | _ => none

namespace Tale

theorem step_of_ne {target : String} {note : Note} (h : note.target? ≠ some target) (s : Tale) :
    s.step target note = some s := by
  cases note with
  | suspect v t => exact if_neg fun ht => h (congrArg some ht)
  | dead v t => exact if_neg fun ht => h (congrArg some ht)
  | recover t => exact if_neg fun ht => h (congrArg some ht)
  | _ => rfl

theorem exec_of_ne {target : String} {notes : List Note}
    (h : ∀ note ∈ notes, note.target? ≠ some target) (s : Tale) :
    Run.exec (step target) s notes = some s := by
  induction notes with
  | nil => rfl
  | cons note notes ih =>
    rw [Run.exec, step_of_ne (h note List.mem_cons_self)]
    exact ih fun note hnote => h note (List.mem_cons_of_mem _ hnote)

end Tale

namespace Consensus

open Swim.World (Steps Suspected Condemned Earns Peopled)

/-- The nodes before they have met. -/
def strangers (R : Rig) : Swim.World {n // n ∈ R.M.ids} :=
  .init R.net Subtype.val fun _ => 2

/-- The feed has told a tale of this node, of which the memory of `_watch` is the end. -/
def Told (c : Consensus R) (target : String) : Prop :=
  ∃ s, Run.exec (Tale.step target) ⟨false, false⟩ c.feed = some s ∧
    (c.lastTrouble target ≠ [] → s.troubled = true) ∧
    (target ∈ c.reportedDead ↔ s.dead = true)

/-- **What the feed says of deaths** is so. -/
structure Declared (c : Consensus R) : Prop where
  peopled : c.swim.Peopled R.net Subtype.val
  steps : Steps R.net (strangers R) c.swim
  earns : ∀ m, c.swim.Rumor m → Earns R.net (strangers R) c.swim m
  suspects : ∀ viewer target, .suspect viewer target ∈ c.feed →
    ∃ m, m.id = target ∧ Suspected R.net (strangers R) m c.swim
  deaths : ∀ viewer target, .dead viewer target ∈ c.feed →
    ∃ m, m.id = target ∧ Condemned R.net (strangers R) m c.swim
  told : ∀ target, c.Told target

theorem declared_init (R : Rig) : Declared (init R) where
  peopled := Swim.World.peopled_init R.net Subtype.val fun _ => 2
  steps := .refl
  earns m hm := by
    rcases hm with ⟨n, h | h⟩ | ⟨n, act, dest, msg, h, -⟩
    · cases h
    · cases h
    · cases h
  suspects _ _ h := by cases h
  deaths _ _ h := by cases h
  told target := ⟨_, rfl, fun h => absurd rfl h, by simp [init]⟩

/-- A step of the network. -/
theorem Declared.swim {swim : Swim.World {n // n ∈ R.M.ids}} {e : Swim.World.Event _}
    (h : Declared c) (he : c.swim.step R.net e = some swim) : Declared { c with swim } := by
  have hone : Steps R.net c.swim swim := .single ⟨e, he⟩
  refine ⟨(h.peopled.step he).1, h.steps.tail ⟨e, he⟩,
    fun m hm => Swim.World.earns_step h.peopled h.steps h.earns he hm,
    fun viewer target hn => ?_, fun viewer target hn => ?_, h.told⟩
  · obtain ⟨m, hm, hs⟩ := h.suspects viewer target hn
    exact ⟨m, hm, hs.later hone⟩
  · obtain ⟨m, hm, hs⟩ := h.deaths viewer target hn
    exact ⟨m, hm, hs.later hone⟩

/-- More lines, about other things. -/
theorem Declared.more {notes : List Note} (h : Declared c) (hswim : c'.swim = c.swim)
    (htrouble : c'.lastTrouble = c.lastTrouble) (hreported : c'.reportedDead = c.reportedDead)
    (hfeed : c'.feed = c.feed ++ notes) (hidle : ∀ note ∈ notes, note.target? = none) :
    Declared c' := by
  have hold : ∀ note target, note.target? = some target → note ∈ c'.feed → note ∈ c.feed := by
    intro note target hnote hmem
    rw [hfeed] at hmem
    refine (List.mem_append.mp hmem).resolve_right fun hmem => ?_
    cases (hidle note hmem).symm.trans hnote
  refine ⟨hswim ▸ h.peopled, hswim ▸ h.steps, hswim ▸ h.earns, fun viewer target hn => ?_,
    fun viewer target hn => ?_, fun target => ?_⟩
  · rw [hswim]
    exact h.suspects viewer target (hold _ target rfl hn)
  · rw [hswim]
    exact h.deaths viewer target (hold _ target rfl hn)
  · obtain ⟨s, hs, htroubled, hdead⟩ := h.told target
    refine ⟨s, ?_, htrouble ▸ htroubled, hreported ▸ hdead⟩
    rw [hfeed]
    refine Run.exec_append hs (Tale.exec_of_ne (fun note hnote ht => ?_) s)
    cases (hidle note hnote).symm.trans ht

theorem Declared.watchRole (h : Declared c) (n : String) : Declared (c.watchRole n) := by
  unfold Consensus.watchRole
  dsimp only
  generalize (if n ∈ c.down then Shown.down else .up (c.raft.node n).role) = role
  split
  · exact h
  refine h.more rfl rfl rfl rfl fun note hnote => ?_
  rcases mem_roleNote hnote with ⟨-, rfl⟩ | rfl | rfl
  all_goals rfl

theorem Declared.write (h : Declared c) (text : String) : Declared (c.write text) := by
  unfold Consensus.write
  split
  all_goals
    refine h.more rfl rfl rfl rfl fun note hnote => ?_
    rw [List.mem_singleton.mp hnote]
    rfl

/-- What a node that is up has on record of another. -/
theorem Declared.exists_rumor {target viewer : String} {states : List Swim.State} (h : Declared c)
    (hv : viewer ∈ c.viewers target states) :
    ∃ m, c.swim.Rumor m ∧ m.id = target ∧ m.state ∈ states := by
  obtain ⟨n, hn, rfl⟩ := List.mem_map.mp hv
  obtain ⟨-, -, s, hs, hview⟩ := of_decide_eq_true (List.mem_filter.mp hn).2
  obtain ⟨m, hfind, rfl⟩ := Option.map_eq_some_iff.mp hview
  have hid := List.find?_some hfind
  obtain ⟨hlisted, hother⟩ :=
    List.mem_filter.mp (List.mem_reverse.mp (List.mem_of_find?_eq_some hfind))
  refine ⟨m, .inl ⟨n, .inl ?_⟩, of_decide_eq_true hid, hs⟩
  -- the node lists itself under its own id
  rcases List.mem_cons.mp hlisted with rfl | hmem
  · exact absurd (h.peopled.id n) (of_decide_eq_true hother)
  · exact hmem

theorem viewers_dead_subset {target viewer : String} (h : viewer ∈ c.viewers target [.dead]) :
    viewer ∈ c.viewers target [.suspect, .dead] := by
  obtain ⟨n, hn, rfl⟩ := List.mem_map.mp h
  obtain ⟨hids, hn⟩ := List.mem_filter.mp hn
  obtain ⟨hup, hne, s, hs, hview⟩ := of_decide_eq_true hn
  exact List.mem_map_of_mem (List.mem_filter.mpr ⟨hids, decide_eq_true
    ⟨hup, hne, s, List.mem_cons_of_mem _ hs, hview⟩⟩)

/-! ### The tale of one node -/

section tale

variable {target : String} {s : Tale}

theorem exec_suspectNotes (c : Consensus R) (hs : c.lastTrouble target ≠ [] → s.troubled = true) :
    ∃ s', Run.exec (Tale.step target) s (c.suspectNotes target) = some s' ∧ s'.dead = s.dead ∧
      (s.troubled = true → s'.troubled = true) ∧
      (c.viewers target [.suspect, .dead] ≠ [] → s'.troubled = true) := by
  unfold suspectNotes
  split
  · cases hmin : (c.viewers target [.suspect, .dead]).argmin id with
    | none => exact ⟨s, rfl, rfl, id, fun hne => absurd (List.argmin_eq_none.mp hmin) hne⟩
    | some viewer =>
      refine ⟨{ s with troubled := true }, ?_, rfl, fun _ => rfl, fun _ => rfl⟩
      simp [Run.exec, Tale.step]
  · rename_i hne
    exact ⟨s, rfl, rfl, id, fun _ => hs hne⟩

theorem exec_deadNotes (c : Consensus R) (hdead : target ∈ c.reportedDead ↔ s.dead = true)
    (hs : c.viewers target [.dead] ≠ [] → s.troubled = true) :
    ∃ s', Run.exec (Tale.step target) s (c.deadNotes target) = some s' ∧
      s'.troubled = s.troubled ∧
      ((c.viewers target [.dead] ≠ [] ∨ target ∈ c.reportedDead) ↔ s'.dead = true) := by
  unfold deadNotes
  split
  · rename_i hnew
    cases hmin : (c.viewers target [.dead]).argmin id with
    | none =>
      have hnil := List.argmin_eq_none.mp hmin
      refine ⟨s, rfl, rfl, ?_⟩
      rw [← hdead]
      exact ⟨fun h => h.resolve_left (not_not.mpr hnil), .inr⟩
    | some viewer =>
      have hne : c.viewers target [.dead] ≠ [] := List.ne_nil_of_mem (List.argmin_mem hmin)
      have halive : s.dead = false := Bool.eq_false_iff.mpr fun h => hnew (hdead.mpr h)
      refine ⟨{ s with dead := true }, ?_, rfl, fun _ => rfl, fun _ => .inl hne⟩
      simp [Run.exec, Tale.step, hs hne, halive]
  · rename_i hold
    rw [not_not] at hold
    exact ⟨s, rfl, rfl, fun _ => hdead.mp hold, fun _ => .inr hold⟩

/-- **The tale goes on.** -/
theorem told_watchTarget (h : c.Told target) : (c.watchTarget target).Told target := by
  obtain ⟨s, hs, htroubled, hdead⟩ := h
  obtain ⟨s₁, hs₁, hdead₁, hkeep₁, htroubled₁⟩ := exec_suspectNotes c htroubled
  have hnil : c.viewers target [.suspect, .dead] = [] → c.viewers target [.dead] = [] := by
    intro hnone
    refine List.eq_nil_iff_forall_not_mem.mpr fun viewer hv => ?_
    have := viewers_dead_subset hv
    rw [hnone] at this
    cases this
  obtain ⟨s₂, hs₂, htroubled₂, hdead₂⟩ := exec_deadNotes c (hdead₁ ▸ hdead)
    fun hne => htroubled₁ fun hnone => hne (hnil hnone)
  have hreported : target ∈ (if c.viewers target [.dead] = [] then c.reportedDead
      else insert target c.reportedDead) ↔ s₂.dead = true := by
    rw [← hdead₂]
    split
    · rename_i hnone
      simp [hnone]
    · rename_i hne
      simp [hne]
  have hfeed := Run.exec_append hs (Run.exec_append hs₁ hs₂)
  by_cases hback : c.viewers target [.suspect, .dead] = [] ∧ c.lastTrouble target ≠ [] ∧
      target ∉ c.down
  · have hnotes : c.recoverNotes target = [.recover target] := if_pos hback
    refine ⟨⟨false, false⟩, ?_, ?_, ?_⟩
    · have hstep : Run.exec (Tale.step target) s₂ [.recover target] = some ⟨false, false⟩ := by
        simp [Run.exec, Tale.step, htroubled₂, hkeep₁ (htroubled hback.2.1)]
      have := Run.exec_append hfeed hstep
      rwa [List.append_assoc, ← hnotes] at this
    · intro hne
      exact absurd hback.1 (by simpa [Consensus.watchTarget] using hne)
    · simp [Consensus.watchTarget, hnotes]
  · have hnotes : c.recoverNotes target = [] := if_neg hback
    refine ⟨s₂, ?_, ?_, ?_⟩
    · show Run.exec _ _ (c.feed ++ (_ ++ c.recoverNotes target)) = _
      rwa [hnotes, List.append_nil]
    · intro hne
      rw [htroubled₂]
      exact htroubled₁ (by simpa [Consensus.watchTarget] using hne)
    · rw [← hreported]
      simp [Consensus.watchTarget, hnotes]

end tale

theorem Declared.watchTarget (h : Declared c) (target : String) :
    Declared (c.watchTarget target) := by
  have hline : ∀ note, note ∈ (c.watchTarget target).feed → note ∈ c.feed ∨
      (∃ viewer ∈ c.viewers target [.suspect, .dead], note = .suspect viewer target) ∨
      (∃ viewer ∈ c.viewers target [.dead], note = .dead viewer target) ∨
      note = .recover target := by
    intro note hnote
    exact (List.mem_append.mp hnote).imp_right mem_verdictNotes
  refine ⟨h.peopled, h.steps, h.earns, fun viewer t hn => ?_, fun viewer t hn => ?_, fun t => ?_⟩
  · rcases hline _ hn with hn | ⟨v, hv, hn⟩ | ⟨v, hv, hn⟩ | hn
    · exact h.suspects viewer t hn
    · obtain ⟨rfl, rfl⟩ := Note.suspect.inj hn
      obtain ⟨m, hm, hid, hstate⟩ := h.exists_rumor hv
      refine ⟨m, hid, ?_⟩
      rcases List.mem_pair.mp hstate with hstate | hstate
      · exact (h.earns m hm).1 hstate
      · exact ((h.earns m hm).2 hstate).suspected
    · cases hn
    · cases hn
  · rcases hline _ hn with hn | ⟨v, hv, hn⟩ | ⟨v, hv, hn⟩ | hn
    · exact h.deaths viewer t hn
    · cases hn
    · obtain ⟨rfl, rfl⟩ := Note.dead.inj hn
      obtain ⟨m, hm, hid, hstate⟩ := h.exists_rumor hv
      exact ⟨m, hid, (h.earns m hm).2 (List.mem_singleton.mp hstate)⟩
    · cases hn
  · by_cases ht : t = target
    · subst ht
      exact told_watchTarget (h.told t)
    -- the others' tales are as before
    obtain ⟨s, hs, htroubled, hdead⟩ := h.told t
    refine ⟨s, Run.exec_append hs (Tale.exec_of_ne (fun note hnote heq => ?_) s), ?_, ?_⟩
    · have hof : note.target? = some target := by
        rcases mem_verdictNotes hnote with ⟨viewer, -, rfl⟩ | ⟨viewer, -, rfl⟩ | rfl
        all_goals rfl
      exact ht (Option.some.inj (heq.symm.trans hof))
    · simpa [Consensus.watchTarget, Function.update_of_ne ht] using htroubled
    · rw [← hdead]
      unfold Consensus.watchTarget
      dsimp only
      split <;> split <;> simp [ht]

theorem Declared.watch (h : Declared c) : Declared c.watch :=
  watch_induction (fun _ n h => h.watchRole n) (fun _ target h => h.watchTarget target) h

theorem Declared.step {e : Event R} (h : Declared c) (he : step R c e = some c') :
    Declared c' := by
  cases e with
  | raft e =>
    simp only [Consensus.step] at he
    split at he
    · cases he
    · obtain ⟨raft, -, rfl⟩ := Option.map_eq_some_iff.mp he
      exact ⟨h.peopled, h.steps, h.earns, h.suspects, h.deaths, h.told⟩
  | swim e =>
    obtain ⟨swim, hswim, rfl⟩ := Option.map_eq_some_iff.mp he
    exact h.swim hswim
  | kill k =>
    obtain rfl := Option.some.inj he
    exact ⟨h.peopled, h.steps, h.earns, h.suspects, h.deaths, h.told⟩
  | revive k =>
    simp only [Consensus.step] at he
    split at he
    swap
    · obtain rfl := Option.some.inj he
      exact h
    obtain ⟨swim, hswim, he⟩ := Option.bind_eq_some_iff.mp he
    obtain ⟨raft, -, he⟩ := Option.bind_eq_some_iff.mp he
    obtain rfl := Option.some.inj he
    obtain ⟨hpeopled, hsteps, hearns, hsuspects, hdeaths, htold⟩ := h.swim hswim
    exact ⟨hpeopled, hsteps, hearns, hsuspects, hdeaths, htold⟩
  | write text =>
    obtain rfl := Option.some.inj he
    exact h.write text
  | watch =>
    obtain rfl := Option.some.inj he
    exact h.watch

/-- **Deaths are earned.**  Whatever is killed and revived and however the network behaves, the feed
calls a node suspect only after a probe of it has failed, and dead only after a suspicion timer has
run out as well.  In the order of the feed, a death comes after a suspicion and there is none
between a death and the recovery that ends it, and a recovery comes after a suspicion of its own. -/
theorem deaths_are_earned (R : Rig) (es : List (Event R)) : Run.Always (step R)
    (fun c =>
      (∀ viewer target, .suspect viewer target ∈ c.feed →
        ∃ m, m.id = target ∧ Suspected R.net (strangers R) m c.swim) ∧
      (∀ viewer target, .dead viewer target ∈ c.feed →
        ∃ m, m.id = target ∧ Condemned R.net (strangers R) m c.swim) ∧
      ∀ target, (Run.exec (Tale.step target) ⟨false, false⟩ c.feed).isSome = true)
    (init R) es := by
  refine Run.always_of_inv (fun c e c' he h => h.step he)
    (fun c (h : Declared c) => ⟨h.suspects, h.deaths, fun target => ?_⟩) (declared_init R) es
  obtain ⟨s, hs, -⟩ := h.told target
  rw [hs]
  rfl

end Consensus

end Playground
