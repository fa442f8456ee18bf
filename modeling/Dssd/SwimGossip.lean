/-
When the order of gossip does not matter.

* `Verdict` — the recorded state and incarnation of a member, and `Verdict.hear`,
  what one update makes of it;
* `Converges` — merging some updates in any order, on any node with the same record,
  leaves the same verdict, and none of them changes it when it comes again;
* `Agreeing` — no update is overruled by a `DEAD` verdict in one order and
  overrules it in another;
* `converges_iff` — exactly these updates converge; `not_converges` — a refuted
  rumor that arrives late.
-/
import Dssd.SwimNode
import Mathlib.Data.Prod.Lex
import Mathlib.Order.MinMax

namespace Swim

/-! ### Verdicts -/

structure Verdict where
  state : State
  incarnation : ℤ
  deriving DecidableEq, Repr

def Member.verdict (m : Member) : Verdict := ⟨m.state, m.incarnation⟩

/-- The recorded state and incarnation of a member. -/
def Node.verdict? (r : Node) (id : String) : Option Verdict :=
  (r.members.get? id).map Member.verdict

namespace Verdict

/-- The conflict rule sees nothing but verdicts. -/
def Supersedes (update current : Verdict) : Prop :=
  if update.state = .dead then current.state ≠ .dead
  else if update.incarnation ≠ current.incarnation then update.incarnation > current.incarnation
  else update.state.severity > current.state.severity

instance (update current : Verdict) : Decidable (Supersedes update current) := by
  unfold Supersedes
  infer_instance

/-- The verdict after an update. -/
def hear (c : Verdict) (u : Member) : Verdict := if u.verdict.Supersedes c then u.verdict else c

/-- The verdict after some updates. -/
def hearAll (c : Verdict) (us : List Member) : Verdict := us.foldl hear c

variable {c : Verdict} {u d : Member} {us vs : List Member}

theorem hearAll_append : c.hearAll (us ++ vs) = (c.hearAll us).hearAll vs := List.foldl_append

@[simp] theorem hearAll_cons : c.hearAll (u :: us) = (c.hear u).hearAll us := rfl

theorem hear_eq_or (c : Verdict) (u : Member) : c.hear u = u.verdict ∨ c.hear u = c := by
  unfold hear
  split
  · exact .inl rfl
  · exact .inr rfl

/-- A verdict is heard once. -/
theorem hear_hear (c : Verdict) (u : Member) : (c.hear u).hear u = c.hear u := by
  have hself : ¬ u.verdict.Supersedes u.verdict := by
    unfold Supersedes
    split
    · rename_i hd
      exact fun h => h hd
    · simp
  by_cases h : u.verdict.Supersedes c
  · rw [show c.hear u = u.verdict from if_pos h]
    exact if_neg hself
  · rw [show c.hear u = c from if_neg h]
    exact if_neg h

theorem hear_dead (hd : u.state = .dead) (hc : c.state ≠ .dead) : c.hear u = u.verdict := by
  refine if_pos ?_
  rw [Supersedes, if_pos (show u.verdict.state = .dead from hd)]
  exact hc

theorem hear_dead_of_dead (hd : u.state = .dead) (hc : c.state = .dead) : c.hear u = c := by
  refine if_neg ?_
  rw [Supersedes, if_pos (show u.verdict.state = .dead from hd)]
  exact fun h => h hc

/-- A newer incarnation revives. -/
theorem hear_newer (hu : u.state ≠ .dead) (hi : c.incarnation < u.incarnation) :
    c.hear u = u.verdict := by
  refine if_pos ?_
  rw [Supersedes, if_neg (show u.verdict.state ≠ .dead from hu),
    if_pos (show u.verdict.incarnation ≠ c.incarnation from ne_of_gt hi)]
  exact hi

/-- An older one does not. -/
theorem hear_older (hu : u.state ≠ .dead) (hc : c.state = .dead)
    (hi : u.incarnation ≤ c.incarnation) : c.hear u = c := by
  refine if_neg ?_
  rw [Supersedes, if_neg (show u.verdict.state ≠ .dead from hu)]
  split
  · exact not_lt.mpr hi
  · rw [hc]
    cases hs : u.verdict.state <;> simp [State.severity]

theorem hear_live (hu : u.state ≠ .dead) (hc : c.state ≠ .dead) : (c.hear u).state ≠ .dead := by
  rcases c.hear_eq_or u with h | h
  · rw [h]
    exact hu
  · rw [h]
    exact hc

/-- Among verdicts other than `DEAD` the incarnation decides, and then the severity. -/
def key (v : Verdict) : ℤ ×ₗ ℕ := toLex (v.incarnation, v.state.severity)

theorem key_injective : Function.Injective key := by
  rintro ⟨s, i⟩ ⟨s', i'⟩ h
  obtain ⟨rfl, hs⟩ : i = i' ∧ s.severity = s'.severity := Prod.mk.inj (toLex_inj.mp h)
  rw [State.severity_injective hs]

theorem supersedes_iff (hu : u.state ≠ .dead) : u.verdict.Supersedes c ↔ c.key < u.verdict.key := by
  rw [Supersedes, if_neg (show u.verdict.state ≠ .dead from hu), key, key, Prod.Lex.toLex_lt_toLex]
  split
  · rename_i hne
    exact ⟨.inl, fun h => h.resolve_right fun heq => hne heq.1.symm⟩
  · rename_i heq
    have heq := not_not.mp heq
    exact ⟨fun h => .inr ⟨heq.symm, h⟩, fun h => (h.resolve_left heq.not_gt).2⟩

theorem key_hear (hu : u.state ≠ .dead) : (c.hear u).key = max c.key u.verdict.key := by
  unfold hear
  split
  · rename_i h
    exact (max_eq_right ((supersedes_iff hu).mp h).le).symm
  · rename_i h
    exact (max_eq_left (not_lt.mp fun hlt => h ((supersedes_iff hu).mpr hlt))).symm

/-- Two updates that do not say `DEAD` may come in either order. -/
theorem hear_comm (hu : u.state ≠ .dead) (hd : d.state ≠ .dead) :
    (c.hear u).hear d = (c.hear d).hear u := by
  refine key_injective ?_
  rw [key_hear hd, key_hear hu, key_hear hu, key_hear hd]
  exact max_right_comm _ _ _

/-! ### Many updates -/

/-- Updates that change nothing one by one change nothing together. -/
theorem hearAll_fixed (h : ∀ u ∈ us, c.hear u = c) : c.hearAll us = c := by
  induction us with
  | nil => rfl
  | cons u us ih =>
    rw [hearAll_cons, h u (List.mem_cons_self ..)]
    exact ih fun v hv => h v (List.mem_cons_of_mem _ hv)

theorem hearAll_dead (hc : c.state = .dead) (h : ∀ u ∈ us, u.state = .dead) : c.hearAll us = c :=
  hearAll_fixed fun u hu => hear_dead_of_dead (h u hu) hc

theorem hearAll_live (hc : c.state ≠ .dead) (h : ∀ u ∈ us, u.state ≠ .dead) :
    (c.hearAll us).state ≠ .dead := by
  induction us generalizing c with
  | nil => exact hc
  | cons u us ih =>
    rw [hearAll_cons]
    exact ih (hear_live (h u (List.mem_cons_self ..)) hc) fun v hv =>
      h v (List.mem_cons_of_mem _ hv)

/-- A `DEAD` verdict that no update is newer than is the last word. -/
theorem hearAll_killed (hd : d.state = .dead) (hmem : ∃ u ∈ us, u.state = .dead)
    (hsame : ∀ u ∈ us, u.state = .dead → u.incarnation = d.incarnation)
    (hold : ∀ u ∈ us, u.state ≠ .dead → u.incarnation ≤ d.incarnation) (hc : c.state ≠ .dead) :
    c.hearAll us = d.verdict := by
  induction us generalizing c with
  | nil => exact absurd hmem (by simp)
  | cons u us ih =>
    have hsame' := fun v hv => hsame v (List.mem_cons_of_mem _ hv)
    have hold' := fun v hv => hold v (List.mem_cons_of_mem _ hv)
    rw [hearAll_cons]
    by_cases hu : u.state = .dead
    · have heq : u.verdict = d.verdict := by
        rw [Member.verdict, Member.verdict, hu, hd, hsame u (List.mem_cons_self ..) hu]
      rw [hear_dead hu hc, heq]
      refine hearAll_fixed fun v hv => ?_
      by_cases hv' : v.state = .dead
      · exact hear_dead_of_dead hv' hd
      · exact hear_older hv' hd (hold' v hv hv')
    · refine ih ?_ hsame' hold' (hear_live hu hc)
      obtain ⟨v, hv, hv'⟩ := hmem
      rcases List.mem_cons.mp hv with rfl | hv
      · exact absurd hv' hu
      · exact ⟨v, hv, hv'⟩

/-! ### Orders -/

/-- No `DEAD` update may overrule another update in one order and be overruled by it, or by
what it overruled, in another. -/
def Agreeing (c : Verdict) (us : List Member) : Prop :=
  if c.state = .dead then
    (∀ u ∈ us, u.state ≠ .dead) ∨ ∀ u ∈ us, u.state ≠ .dead → u.incarnation ≤ c.incarnation
  else
    ∀ d ∈ us, d.state = .dead → ∀ u ∈ us,
      if u.state = .dead then u.incarnation = d.incarnation else u.incarnation ≤ d.incarnation

instance (c : Verdict) (us : List Member) : Decidable (c.Agreeing us) := by
  unfold Agreeing
  infer_instance

theorem hearAll_perm_live (h : ∀ u ∈ us, u.state ≠ .dead) (hp : vs.Perm us) :
    c.hearAll vs = c.hearAll us :=
  hp.foldl_eq' (fun u hu v hv _ =>
    hear_comm (h u (hp.mem_iff.mp hu)) (h v (hp.mem_iff.mp hv))) c

/-- Agreeing updates may come in any order. -/
theorem Agreeing.hearAll_perm (h : c.Agreeing us) (hp : vs.Perm us) :
    c.hearAll vs = c.hearAll us := by
  by_cases hlive : ∀ u ∈ us, u.state ≠ .dead
  · exact hearAll_perm_live hlive hp
  push Not at hlive
  obtain ⟨d, hd, hdead⟩ := hlive
  unfold Agreeing at h
  split at h
  · -- nothing revives the dead
    rename_i hc
    have hold := h.resolve_left fun hno => hno d hd hdead
    have hfix : ∀ {l : List Member}, l.Perm us → c.hearAll l = c := by
      intro l hl
      refine hearAll_fixed fun u hu => ?_
      by_cases hu' : u.state = .dead
      · exact hear_dead_of_dead hu' hc
      · exact hear_older hu' hc (hold u (hl.mem_iff.mp hu) hu')
    rw [hfix hp, hfix (.refl us)]
  · -- the one `DEAD` verdict has the last word
    rename_i hc
    have hkill : ∀ {l : List Member}, l.Perm us → c.hearAll l = d.verdict := by
      intro l hl
      refine hearAll_killed hdead ⟨d, hl.mem_iff.mpr hd, hdead⟩ (fun u hu hu' => ?_)
        (fun u hu hu' => ?_) hc
      · have hud := h d hd hdead u (hl.mem_iff.mp hu)
        rwa [if_pos hu'] at hud
      · have hud := h d hd hdead u (hl.mem_iff.mp hu)
        rwa [if_neg hu'] at hud
    rw [hkill hp, hkill (.refl us)]

/-- What has been heard is not heard again, if the order does not matter. -/
theorem hear_of_mem (h : ∀ {l : List Member}, l.Perm us → c.hearAll l = c.hearAll us)
    (hu : u ∈ us) :
    (c.hearAll us).hear u = c.hearAll us := by
  have hlast : (us.erase u ++ [u]).Perm us :=
    (List.perm_append_singleton u _).trans (List.perm_cons_erase hu).symm
  rw [← h hlast, hearAll_append]
  exact hear_hear _ u

/-- Updates that may come in any order agree. -/
theorem agreeing_of_perm (h : ∀ {l : List Member}, l.Perm us → c.hearAll l = c.hearAll us) :
    c.Agreeing us := by
  have hsame : ∀ {l m : List Member}, l.Perm us → m.Perm us → c.hearAll l = c.hearAll m :=
    fun hl hm => (h hl).trans (h hm).symm
  set live := us.filter fun u => u.state ≠ .dead with hlive
  set dead := us.filter fun u => u.state = .dead with hdead
  have hlive' : ∀ u ∈ live, u.state ≠ .dead := fun u hu =>
    of_decide_eq_true (List.mem_filter.mp hu).2
  have hdead' : ∀ u ∈ dead, u.state = .dead := fun u hu =>
    of_decide_eq_true (List.mem_filter.mp hu).2
  have hsplit : (dead ++ live).Perm us := by
    have := List.filter_append_perm (fun u : Member => decide (u.state = .dead)) us
    simpa [hlive, hdead] using this
  -- the updates of one kind with a chosen one in front, before or after those of the other
  have hfirst : ∀ {l : List Member} {u : Member}, u ∈ l → (u :: l.erase u).Perm l :=
    fun hu => (List.perm_cons_erase hu).symm
  have hrevive : ∀ {u : Member}, u ∈ live → ∀ {z : Verdict}, z.hear u = u.verdict →
      (z.hearAll (u :: live.erase u)).state ≠ .dead := by
    intro u hu z hz
    rw [hearAll_cons, hz]
    exact hearAll_live (hlive' u hu) fun v hv => hlive' v (List.mem_of_mem_erase hv)
  have hkill : ∀ {d : Member}, d ∈ dead → ∀ {z : Verdict}, z.state ≠ .dead →
      z.hearAll (d :: dead.erase d) = d.verdict := by
    intro d hd z hz
    rw [hearAll_cons, hear_dead (hdead' d hd) hz]
    exact hearAll_dead (hdead' d hd) fun v hv => hdead' v (List.mem_of_mem_erase hv)
  unfold Agreeing
  split
  · rename_i hc
    by_contra hnot
    push Not at hnot
    obtain ⟨⟨d, hd, hdd⟩, u, hu, hul, hlt⟩ := hnot
    have hmu : u ∈ live := List.mem_filter.mpr ⟨hu, decide_eq_true hul⟩
    have hmd : d ∈ dead := List.mem_filter.mpr ⟨hd, decide_eq_true hdd⟩
    -- `u` revives the record, unless `d` comes after it
    have hl : (dead ++ u :: live.erase u).Perm us := ((hfirst hmu).append_left dead).trans hsplit
    have hm : (live ++ d :: dead.erase d).Perm us :=
      ((hfirst hmd).append_left live).trans (List.perm_append_comm.trans hsplit)
    have hm' : (u :: live.erase u ++ d :: dead.erase d).Perm us :=
      ((hfirst hmu).append_right _).trans hm
    have heq := hsame hl hm'
    rw [hearAll_append, hearAll_append, hearAll_dead hc hdead',
      hkill hmd (hrevive hmu (hear_newer hul hlt))] at heq
    refine hrevive hmu (hear_newer hul hlt) ?_
    rw [heq]
    exact hdd
  · rename_i hc
    intro d hd hdd u hu
    have hmd : d ∈ dead := List.mem_filter.mpr ⟨hd, decide_eq_true hdd⟩
    have hlast : ∀ {x : Member}, x ∈ dead → c.hearAll (live ++ x :: dead.erase x) = x.verdict := by
      intro x hx
      rw [hearAll_append]
      exact hkill hx (hearAll_live hc hlive')
    have hperm : ∀ {x : Member}, x ∈ dead → (live ++ x :: dead.erase x).Perm us := fun hx =>
      ((hfirst hx).append_left live).trans (List.perm_append_comm.trans hsplit)
    split
    · -- two `DEAD` verdicts: the first one stays
      rename_i hud
      have hmu : u ∈ dead := List.mem_filter.mpr ⟨hu, decide_eq_true hud⟩
      have heq := hsame (hperm hmu) (hperm hmd)
      rw [hlast hmu, hlast hmd] at heq
      exact congrArg Verdict.incarnation heq
    · -- `u` revives what `d` has killed, unless `d` comes after it
      rename_i hul
      by_contra hlt
      have hmu : u ∈ live := List.mem_filter.mpr ⟨hu, decide_eq_true hul⟩
      have hl : (d :: dead.erase d ++ u :: live.erase u).Perm us :=
        ((hfirst hmd).append_right _).trans (((hfirst hmu).append_left dead).trans hsplit)
      have heq := hsame hl (hperm hmd)
      rw [hlast hmd, hearAll_append, hkill hmd hc] at heq
      refine hrevive hmu (hear_newer (c := d.verdict) hul (not_le.mp hlt)) ?_
      rw [heq]
      exact hdd

end Verdict

/-! ### Nodes -/

variable {r r' : Node} {id : String} {c : Verdict} {u : Member} {us vs : List Member}

theorem Node.verdict?_merge (hid : u.id ≠ r.id) (hc : r.verdict? u.id = some c) :
    (r.merge u).verdict? u.id = some (c.hear u) := by
  obtain ⟨current, hcur, rfl⟩ := Option.map_eq_some_iff.mp hc
  rw [verdict?, r.get?_merge hid hcur, Option.map_some]
  unfold Verdict.hear
  congr 1
  exact apply_ite Member.verdict _ _ _

theorem Node.verdict?_mergeAll (hid : id ≠ r.id) (hc : r.verdict? id = some c)
    (hus : ∀ u ∈ us, u.id = id) : (r.mergeAll us).verdict? id = some (c.hearAll us) := by
  induction us generalizing r c with
  | nil => exact hc
  | cons u us ih =>
    obtain rfl := hus u (List.mem_cons_self ..)
    exact ih (by rwa [id_merge]) (verdict?_merge hid hc)
      fun v hv => hus v (List.mem_cons_of_mem _ hv)

theorem Node.id_mergeAll : (r.mergeAll us).id = r.id := by
  induction us generalizing r with
  | nil => rfl
  | cons u us ih => exact ih.trans (id_merge r u)

/-- Every node with the same record of `id` comes to the same verdict, in whatever order it
merges the updates, and none of them changes it any more. -/
def Converges (r : Node) (id : String) (us : List Member) : Prop :=
  ∀ (r' : Node) (vs : List Member), id ≠ r'.id → r'.verdict? id = r.verdict? id → vs.Perm us →
    (r'.mergeAll vs).verdict? id = (r.mergeAll us).verdict? id ∧
      ∀ u ∈ us, ((r'.mergeAll vs).merge u).verdict? id = (r'.mergeAll vs).verdict? id

/-- **Gossip converges exactly if it agrees.** -/
theorem converges_iff (hid : id ≠ r.id) (hc : r.verdict? id = some c)
    (hus : ∀ u ∈ us, u.id = id) : Converges r id us ↔ c.Agreeing us := by
  have hall : ∀ {r' : Node} {vs : List Member}, id ≠ r'.id → r'.verdict? id = r.verdict? id →
      vs.Perm us → (r'.mergeAll vs).verdict? id = some (c.hearAll vs) := fun hid' hc' hp =>
    Node.verdict?_mergeAll hid' (hc'.trans hc) fun v hv => hus v (hp.mem_iff.mp hv)
  constructor
  · intro h
    refine Verdict.agreeing_of_perm fun {vs} hp => ?_
    have heq := (h r vs hid rfl hp).1
    rw [hall hid rfl hp, hall hid rfl (.refl us)] at heq
    exact Option.some_inj.mp heq
  · intro h r' vs hid' hc' hp
    have hsame := h.hearAll_perm hp
    rw [hall hid' hc' hp, hall hid rfl (.refl us), hsame]
    refine ⟨rfl, fun u hu => ?_⟩
    obtain rfl := hus u hu
    rw [Node.verdict?_merge (by rwa [Node.id_mergeAll]) ((hall hid' hc' hp).trans (by rw [hsame])),
      Verdict.hear_of_mem (fun hl => h.hearAll_perm hl) hu]

/-! ### A peer that knows `m` -/

/-- A record of `m`. -/
def rumor (state : State) (incarnation : ℤ) : Member := ⟨"m", "127.0.0.1:7946", state, incarnation⟩

/-- A node that has heard nothing of `m` but that it is there. -/
def peer : Node where
  id := "p"
  addr := "127.0.0.1:7947"
  members := Dict.empty.set "m" (rumor .alive 0)
  incarnation := 0
  broadcasts := Dict.empty
  timers := []

/-- Suspected, refuted, suspected again and declared dead. -/
theorem converges_iff_peer :
    Converges peer "m" [rumor .suspect 0, rumor .alive 1, rumor .suspect 1, rumor .dead 1] :=
  (converges_iff (c := ⟨.alive, 0⟩) (by decide) (by decide) (by decide)).mpr (by decide)

/-- A rumor that `m` is dead, and its refutation: whichever comes last wins. -/
theorem not_converges : ¬ Converges peer "m" [rumor .dead 0, rumor .alive 1] := fun h =>
  absurd (h peer [rumor .alive 1, rumor .dead 0] (by decide) rfl (.swap _ _ _)).1 (by decide)

end Swim
