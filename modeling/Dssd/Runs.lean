/-
Runs of transition systems.

A system is given by an event-labelled, executable step function
`step : σ → ε → Option σ` (`none`: the event is not enabled).  This file has the
rules every run argument of the development uses:

* `Run.exec` — a list of events executed from a state, and `Run.steps_get`, which
  turns an evaluated execution into a run; `Run.execWhere` and `Run.stepsWhere_get`
  for runs whose events meet a side condition;
* `Run.invariant` — the induction over runs, for a property kept by every step;
* `Run.history` — the same with history variables: each step may be answered by
  a change of the history along a preorder;
* `Run.each`, `Run.each_apart` — a run put together from one run for each element of a list;
* `Run.acc_of_measure` and `Run.comes_to_rest` — steps that a measure bounds, and the
  rest that they lead to;
* `Run.Always`, `Run.Meets` — a property of all states, and a side condition of all
  steps, of one run; `Run.always_iff_meets`, `Run.meets_iff_quiet` — when they are the
  same, at once or for every way the run may go on; `Run.always_iff_final` — the states
  of a run by its prefixes;
* `Run.outputs` — what the events of a run put out; `Run.getLast_outputs` and
  `Run.outputs_increasing`, for outputs that a measure of the state follows.
-/
import Mathlib.Data.List.Pairwise
import Mathlib.Logic.Relation

namespace Run

variable {σ ε γ : Type*}

/-- Some enabled event leads from `s` to `s'`. -/
def Step (step : σ → ε → Option σ) (s s' : σ) : Prop := ∃ e, step s e = some s'

/-- The step relation restricted to events that meet `ok` in the state they start from. -/
def StepWhere (step : σ → ε → Option σ) (ok : σ → ε → Prop) (s s' : σ) : Prop :=
  ∃ e, ok s e ∧ step s e = some s'

theorem StepWhere.step {step : σ → ε → Option σ} {ok : σ → ε → Prop} {s s' : σ}
    (h : StepWhere step ok s s') : Step step s s' :=
  let ⟨e, _, he⟩ := h
  ⟨e, he⟩

/-- Execute a list of events; `none` as soon as one of them is not enabled. -/
def exec (step : σ → ε → Option σ) (s : σ) : List ε → Option σ
  | [] => some s
  | e :: es => (step s e).bind fun s' => exec step s' es

theorem steps_of_exec {step : σ → ε → Option σ} {es : List ε} {s s' : σ}
    (h : exec step s es = some s') : Relation.ReflTransGen (Step step) s s' := by
  induction es generalizing s with
  | nil =>
    obtain rfl : s = s' := by simpa [exec] using h
    exact .refl
  | cons e es ih =>
    obtain ⟨s₁, h₁, h₂⟩ := Option.bind_eq_some_iff.mp h
    exact .head ⟨e, h₁⟩ (ih h₂)

theorem exec_append {step : σ → ε → Option σ} {es es' : List ε} {s s₁ s₂ : σ}
    (h : exec step s es = some s₁) (h' : exec step s₁ es' = some s₂) :
    exec step s (es ++ es') = some s₂ := by
  induction es generalizing s with
  | nil =>
    obtain rfl : s = s₁ := by simpa [exec] using h
    exact h'
  | cons e es ih =>
    obtain ⟨s₀, h₀, h₁⟩ := Option.bind_eq_some_iff.mp h
    exact Option.bind_eq_some_iff.mpr ⟨s₀, h₀, ih h₁⟩

/-- The state an execution ends in is reached by a run. -/
theorem steps_get {step : σ → ε → Option σ} {es : List ε} {s : σ}
    (h : (exec step s es).isSome = true) :
    Relation.ReflTransGen (Step step) s ((exec step s es).get h) :=
  steps_of_exec (Option.some_get h).symm

/-- Check a side condition before every event of an execution. -/
def execWhere (step : σ → ε → Option σ) (ok : σ → ε → Prop) [∀ s e, Decidable (ok s e)] (s : σ) :
    List ε → Option σ
  | [] => some s
  | e :: es => if ok s e then (step s e).bind fun s' => execWhere step ok s' es else none

theorem stepsWhere_get {step : σ → ε → Option σ} {ok : σ → ε → Prop} [∀ s e, Decidable (ok s e)]
    {es : List ε} {s : σ} (h : (execWhere step ok s es).isSome = true) :
    Relation.ReflTransGen (StepWhere step ok) s ((execWhere step ok s es).get h) := by
  have key : ∀ {es : List ε} {s s' : σ}, execWhere step ok s es = some s' →
      Relation.ReflTransGen (StepWhere step ok) s s' := by
    intro es
    induction es with
    | nil =>
      intro s s' h
      obtain rfl : s = s' := by simpa [execWhere] using h
      exact .refl
    | cons e es ih =>
      intro s s' h
      rw [execWhere] at h
      split at h
      · rename_i hok
        obtain ⟨s₁, h₁, h₂⟩ := Option.bind_eq_some_iff.mp h
        exact .head ⟨e, hok, h₁⟩ (ih h₂)
      · exact absurd h (by simp)
  exact key (Option.some_get h).symm

/-! ### Invariants -/

/-- **Invariants.**  What holds of the start and is kept by each step holds of
every state of the run. -/
theorem invariant {r : σ → σ → Prop} {P : σ → Prop} (step : ∀ s s', r s s' → P s → P s')
    {s s' : σ} (h : Relation.ReflTransGen r s s') (hs : P s) : P s' := by
  induction h with
  | refl => exact hs
  | tail _ hr ih => exact step _ _ hr ih

/-- **History variables.**  If every step can be answered by a move of the
history along the preorder `ext` that keeps `Inv`, so can every run. -/
theorem history {r : σ → σ → Prop} (Inv : σ → γ → Prop) (ext : γ → γ → Prop)
    (refl : ∀ g, ext g g) (trans : ∀ {a b c}, ext a b → ext b c → ext a c)
    (step : ∀ {s s' g}, r s s' → Inv s g → ∃ g', ext g g' ∧ Inv s' g')
    {s s' : σ} {g : γ} (h : Relation.ReflTransGen r s s') (hg : Inv s g) :
    ∃ g', ext g g' ∧ Inv s' g' := by
  induction h with
  | refl => exact ⟨g, refl g, hg⟩
  | tail _ hr ih =>
    obtain ⟨g₁, e₁, h₁⟩ := ih
    obtain ⟨g₂, e₂, h₂⟩ := step hr h₁
    exact ⟨g₂, trans e₁ e₂, h₂⟩

/-- **One after the other.**  If each element of a list can be visited, which keeps `I`, makes `Q`
hold of it and leaves `Q` of the others, then a run makes `Q` hold of them all. -/
theorem each {α : Type*} {r : σ → σ → Prop} {l : List α} {I : σ → Prop} {Q : α → σ → Prop}
    (visit : ∀ a ∈ l, ∀ s, I s →
      ∃ s', Relation.ReflTransGen r s s' ∧ I s' ∧ Q a s' ∧ ∀ b ∈ l, Q b s → Q b s')
    {s : σ} (hs : I s) : ∃ s', Relation.ReflTransGen r s s' ∧ I s' ∧ ∀ a ∈ l, Q a s' := by
  have key : ∀ m : List α, (∀ a ∈ m, a ∈ l) →
      ∃ s', Relation.ReflTransGen r s s' ∧ I s' ∧ ∀ a ∈ m, Q a s' := by
    intro m
    induction m with
    | nil => exact fun _ => ⟨s, .refl, hs, fun a ha => by cases ha⟩
    | cons a m ih =>
      intro hm
      obtain ⟨ha, hm⟩ := List.forall_mem_cons.mp hm
      obtain ⟨s₁, h₁, hI₁, hQ₁⟩ := ih hm
      obtain ⟨s₂, h₂, hI₂, hQa, hkeep⟩ := visit a ha s₁ hI₁
      refine ⟨s₂, h₁.trans h₂, hI₂, List.forall_mem_cons.mpr ⟨hQa, fun b hb => ?_⟩⟩
      exact hkeep b (hm b hb) (hQ₁ b hb)
  exact key l fun _ ha => ha

/-- **Each apart.**  The same, where `Q a` is about one part of the state, and the visits of the
others leave that part as it is: a visit then finds it as it was at first. -/
theorem each_apart {α τ : Type*} {r : σ → σ → Prop} {l : List α} {I : σ → Prop}
    {Q : α → σ → Prop} (part : α → σ → τ)
    (congr : ∀ a s s', part a s' = part a s → Q a s → Q a s') {s : σ}
    (visit : ∀ a ∈ l, ∀ x, I x → part a x = part a s → ∃ x', Relation.ReflTransGen r x x' ∧
      I x' ∧ Q a x' ∧ ∀ b ∈ l, b ≠ a → part b x' = part b x)
    (hs : I s) : ∃ s', Relation.ReflTransGen r s s' ∧ I s' ∧ ∀ a ∈ l, Q a s' := by
  have hvisit : ∀ a ∈ l, ∀ x, (I x ∧ ∀ b ∈ l, part b x = part b s ∨ Q b x) →
      ∃ x', Relation.ReflTransGen r x x' ∧ (I x' ∧ ∀ b ∈ l, part b x' = part b s ∨ Q b x') ∧
        Q a x' ∧ ∀ b ∈ l, Q b x → Q b x' := by
    rintro a ha x ⟨hx, hparts⟩
    by_cases hdone : Q a x
    · exact ⟨x, .refl, ⟨hx, hparts⟩, hdone, fun _ _ h => h⟩
    obtain ⟨x', hrun, hx', hQ, hother⟩ := visit a ha x hx ((hparts a ha).resolve_right hdone)
    have hkeep : ∀ b ∈ l, Q b x → Q b x' := by
      intro b hb hb'
      by_cases hba : b = a
      · exact hba ▸ hQ
      · exact congr b x x' (hother b hb hba) hb'
    refine ⟨x', hrun, ⟨hx', fun b hb => ?_⟩, hQ, hkeep⟩
    by_cases hba : b = a
    · exact .inr (hba ▸ hQ)
    · exact (hparts b hb).imp (hother b hb hba).trans (hkeep b hb)
  obtain ⟨s', hrun, ⟨hs', -⟩, hall⟩ := each hvisit ⟨hs, fun _ _ => .inl rfl⟩
  exact ⟨s', hrun, hs', hall⟩

/-- **Termination.**  Steps that keep an invariant and lower a measure do not go on forever. -/
theorem acc_of_measure {β : Type*} {lt : β → β → Prop} (wf : WellFounded lt) {r : σ → σ → Prop}
    {Inv : σ → Prop} (m : σ → β)
    (lower : ∀ s s', Inv s → r s s' → Inv s' ∧ lt (m s') (m s)) {s : σ} (hs : Inv s) :
    Acc (fun s' s => r s s') s := by
  have key : ∀ b s, m s = b → Inv s → Acc (fun s' s => r s s') s := by
    intro b
    induction b using wf.induction with
    | h b ih =>
      rintro s rfl hs
      refine ⟨s, fun s' hr => ?_⟩
      obtain ⟨hs', hlt⟩ := lower s s' hs hr
      exact ih (m s') hlt s' rfl hs'
  exact key (m s) s rfl hs

/-- **Rest.**  If its steps do not go on forever, and there is one wherever it is not at rest, a
system comes to rest. -/
theorem comes_to_rest {r : σ → σ → Prop} {Inv rest : σ → Prop}
    (inv : ∀ s s', Inv s → r s s' → Inv s') (next : ∀ s, Inv s → rest s ∨ ∃ s', r s s')
    {s : σ} (acc : Acc (fun s' s => r s s') s) (hs : Inv s) :
    ∃ s', Relation.ReflTransGen r s s' ∧ rest s' := by
  induction acc with
  | intro s _ ih =>
    rcases next s hs with h | ⟨s₁, h₁⟩
    · exact ⟨s, .refl, h⟩
    · obtain ⟨s', h', hrest⟩ := ih s₁ h₁ (inv s s₁ hs h₁)
      exact ⟨s', .head h₁ h', hrest⟩

/-! ### Single runs -/

/-- `P` holds in every state of the run of these events from `s`, as far as they are enabled. -/
def Always (step : σ → ε → Option σ) (P : σ → Prop) (s : σ) : List ε → Prop
  | [] => P s
  | e :: es => P s ∧ ∀ s', step s e = some s' → Always step P s' es

/-- The events of the run from `s` meet `ok` in the states they happen in. -/
def Meets (step : σ → ε → Option σ) (ok : σ → ε → Prop) (s : σ) : List ε → Prop
  | [] => True
  | e :: es => ∀ s', step s e = some s' → ok s e ∧ Meets step ok s' es

theorem meets_of_execWhere {step : σ → ε → Option σ} {ok : σ → ε → Prop}
    [∀ s e, Decidable (ok s e)] {es : List ε} {s : σ} (h : (execWhere step ok s es).isSome = true) :
    Meets step ok s es := by
  induction es generalizing s with
  | nil => trivial
  | cons e es ih =>
    intro s' hs
    rw [execWhere] at h
    split at h
    · rename_i hok
      rw [hs] at h
      exact ⟨hok, ih h⟩
    · cases h

theorem Always.head {step : σ → ε → Option σ} {P : σ → Prop} {s : σ} {es : List ε}
    (h : Always step P s es) : P s := by
  cases es with
  | nil => exact h
  | cons e es => exact h.1

theorem Always.of_exec {step : σ → ε → Option σ} {P : σ → Prop} {s s' : σ} {es : List ε}
    (h : Always step P s es) (he : exec step s es = some s') : P s' := by
  induction es generalizing s with
  | nil =>
    obtain rfl : s = s' := by simpa [exec] using he
    exact h
  | cons e es ih =>
    obtain ⟨s₁, h₁, h₂⟩ := Option.bind_eq_some_iff.mp he
    exact ih (h.2 s₁ h₁) h₂

/-- What follows from an invariant holds all along every run. -/
theorem always_of_inv {step : σ → ε → Option σ} {Inv P : σ → Prop}
    (inv : ∀ s e s', step s e = some s' → Inv s → Inv s') (holds : ∀ s, Inv s → P s) {s : σ}
    (hi : Inv s) (es : List ε) : Always step P s es := by
  induction es generalizing s with
  | nil => exact holds s hi
  | cons e es ih => exact ⟨holds s hi, fun s' hs => ih (inv s e s' hs hi)⟩

/-- **Exact conditions.**  If, in the states that `Inv` describes, a step keeps `P` just when it
meets `ok`, then `P` holds all along a run just when all its steps meet `ok`. -/
theorem always_iff_meets {step : σ → ε → Option σ} {Inv P : σ → Prop} {ok : σ → ε → Prop}
    (inv : ∀ s e s', step s e = some s' → Inv s → Inv s')
    (exact : ∀ s e s', step s e = some s' → Inv s → P s → (P s' ↔ ok s e))
    {s : σ} (hi : Inv s) (hp : P s) (es : List ε) : Always step P s es ↔ Meets step ok s es := by
  induction es generalizing s with
  | nil => exact ⟨fun _ => trivial, fun _ => hp⟩
  | cons e es ih =>
    constructor
    · rintro ⟨-, h⟩ s' hs
      have hp' := (h s' hs).head
      exact ⟨(exact s e s' hs hi hp).mp hp', (ih (inv s e s' hs hi) hp').mp (h s' hs)⟩
    · refine fun h => ⟨hp, fun s' hs => ?_⟩
      obtain ⟨hok, h'⟩ := h s' hs
      exact (ih (inv s e s' hs hi) ((exact s e s' hs hi hp).mpr hok)).mpr h'

/-- The state after the events of a run, as far as they are enabled. -/
def final (step : σ → ε → Option σ) (s : σ) : List ε → σ
  | [] => s
  | e :: es =>
    match step s e with
    | none => s
    | some s' => final step s' es

/-- A property holds all along a run just when it holds after each of its prefixes. -/
theorem always_iff_final {step : σ → ε → Option σ} {P : σ → Prop} {s : σ} {es : List ε} :
    Always step P s es ↔ ∀ es', es' <+: es → P (final step s es') := by
  induction es generalizing s with
  | nil =>
    constructor
    · intro hp es' hpre
      obtain rfl := List.prefix_nil.mp hpre
      exact hp
    · exact fun h => h [] List.nil_prefix
  | cons e es ih =>
    constructor
    · rintro ⟨hp, h⟩ es' hpre
      cases es' with
      | nil => exact hp
      | cons e' es' =>
        obtain ⟨rfl, hrest⟩ := List.cons_prefix_cons.mp hpre
        rw [final]
        split
        · exact hp
        · rename_i s' hs
          exact ih.mp (h s' hs) es' hrest
    · refine fun h => ⟨h [] List.nil_prefix, fun s' hs => ih.mpr fun es' hpre => ?_⟩
      have := h (e :: es') (List.cons_prefix_cons.mpr ⟨rfl, hpre⟩)
      rw [final, hs] at this
      exact this

/-- What follows from an invariant of the steps that meet `ok` holds all along their runs. -/
theorem always_of_meets {step : σ → ε → Option σ} {Inv P : σ → Prop} {ok : σ → ε → Prop}
    (inv : ∀ s e s', step s e = some s' → Inv s → ok s e → Inv s') (holds : ∀ s, Inv s → P s)
    {s : σ} (hi : Inv s) {es : List ε} (h : Meets step ok s es) : Always step P s es := by
  induction es generalizing s with
  | nil => exact holds s hi
  | cons e es ih =>
    refine ⟨holds s hi, fun s' hs => ?_⟩
    obtain ⟨hok, h'⟩ := h s' hs
    exact ih (inv s e s' hs hi hok) h'

/-- Conditions that are the same wherever their runs get are met by the same runs. -/
theorem meets_congr {step : σ → ε → Option σ} {Inv : σ → Prop} {ok ok' : σ → ε → Prop}
    (inv : ∀ s e s', step s e = some s' → Inv s → ok s e → Inv s')
    (same : ∀ s e, Inv s → (ok s e ↔ ok' s e)) {s : σ} (hi : Inv s) (es : List ε) :
    Meets step ok s es ↔ Meets step ok' s es := by
  induction es generalizing s with
  | nil => exact Iff.rfl
  | cons e es ih =>
    constructor
    · intro h s' hs
      obtain ⟨hok, h'⟩ := h s' hs
      exact ⟨(same s e hi).mp hok, (ih (inv s e s' hs hi hok)).mp h'⟩
    · intro h s' hs
      obtain ⟨hok', h'⟩ := h s' hs
      have hok := (same s e hi).mpr hok'
      exact ⟨hok, (ih (inv s e s' hs hi hok)).mpr h'⟩

/-- A property of all states is one of the first state and of what each step leads to. -/
theorem always_iff_head_meets {step : σ → ε → Option σ} {P : σ → Prop} {s : σ} {es : List ε} :
    Always step P s es ↔
      P s ∧ Meets step (fun s e => ∀ s', step s e = some s' → P s') s es := by
  induction es generalizing s with
  | nil => exact ⟨fun h => ⟨h, trivial⟩, And.left⟩
  | cons e es ih =>
    constructor
    · rintro ⟨hp, h⟩
      refine ⟨hp, fun s' hs => ⟨fun s'' hs' => ?_, (ih.mp (h s' hs)).2⟩⟩
      exact (h s'' hs').head
    · rintro ⟨hp, h⟩
      exact ⟨hp, fun s' hs => ih.mpr ⟨(h s' hs).1 s' hs, (h s' hs).2⟩⟩

theorem meets_cons {step : σ → ε → Option σ} {ok : σ → ε → Prop} {s s' : σ} {e : ε}
    (hs : step s e = some s') (es : List ε) :
    Meets step ok s (e :: es) ↔ ok s e ∧ Meets step ok s' es := by
  constructor
  · exact fun h => h s' hs
  · intro h s'' hs''
    obtain rfl := Option.some.inj (hs.symm.trans hs'')
    exact h

/-- **Exact conditions, seen later.**  The `quiet` events always meet `ok`.  If a step that meets
`ok` is right, and after one that does not, unless it was wrong itself, something wrong can follow
quietly, then a run meets `ok` just when it is right and stays so whatever follows quietly at any
moment of it. -/
theorem meets_iff_quiet {step : σ → ε → Option σ} {Inv : σ → Prop} {ok right : σ → ε → Prop}
    {quiet : ε → Prop}
    (inv : ∀ s e s', step s e = some s' → Inv s → ok s e → Inv s')
    (right_of_ok : ∀ s e, Inv s → ok s e → right s e)
    (quiet_ok : ∀ s e, quiet e → ok s e)
    (wrong : ∀ s e s', step s e = some s' → Inv s → ¬ ok s e → right s e →
      ∃ tail, (∀ e ∈ tail, quiet e) ∧ ¬ Meets step right s' tail)
    {s : σ} (hi : Inv s) (es : List ε) : Meets step ok s es ↔
      ∀ before tail, before <+: es → (∀ e ∈ tail, quiet e) →
        Meets step right s (before ++ tail) := by
  have hright : ∀ (es : List ε) {s : σ}, Inv s → Meets step ok s es → Meets step right s es := by
    intro es
    induction es with
    | nil => exact fun _ _ => trivial
    | cons e es ih =>
      intro s hi hok s' hs
      obtain ⟨he, hes⟩ := hok s' hs
      exact ⟨right_of_ok s e hi he, ih (inv s e s' hs hi he) hes⟩
  have hquiet : ∀ (tail : List ε) {s : σ}, (∀ e ∈ tail, quiet e) → Meets step ok s tail := by
    intro tail
    induction tail with
    | nil => exact fun _ => trivial
    | cons e tail ih =>
      intro s hq s' _
      exact ⟨quiet_ok s e (hq e List.mem_cons_self),
        ih fun e he => hq e (List.mem_cons_of_mem _ he)⟩
  induction es generalizing s with
  | nil =>
    refine ⟨fun _ before tail hb hq => ?_, fun _ => trivial⟩
    obtain rfl := List.prefix_nil.mp hb
    exact hright tail hi (hquiet tail hq)
  | cons e es ih =>
    constructor
    · intro hok before tail hb hq
      cases before with
      | nil => exact hright tail hi (hquiet tail hq)
      | cons b before =>
        obtain ⟨rfl, htail⟩ := List.cons_prefix_cons.mp hb
        intro s' hs
        obtain ⟨he, hes⟩ := hok s' hs
        exact ⟨right_of_ok s b hi he, (ih (inv s b s' hs hi he)).mp hes before tail htail hq⟩
    · intro h s' hs
      have hnext : ∀ before tail, before <+: es → (∀ e ∈ tail, quiet e) →
          right s e ∧ Meets step right s' (before ++ tail) := by
        intro before tail hb hq
        exact (meets_cons hs _).mp
          (h (e :: before) tail (List.cons_prefix_cons.mpr ⟨rfl, hb⟩) hq)
      -- what is wrong after this event alone would be a way the run can go on
      have he : ok s e := by
        by_contra hnot
        have hre := (hnext [] [] List.nil_prefix (fun e he => by cases he)).1
        obtain ⟨tail, hq, hwrong⟩ := wrong s e s' hs hi hnot hre
        exact hwrong (hnext [] tail List.nil_prefix hq).2
      exact ⟨he, (ih (inv s e s' hs hi he)).mpr
        fun before tail hb hq => (hnext before tail hb hq).2⟩

/-- What the events of a run put out, in order. -/
def outputs {α : Type*} (step : σ → ε → Option σ) (out : σ → ε → Option α) (s : σ) :
    List ε → List α
  | [] => []
  | e :: es =>
    match step s e with
    | none => []
    | some s' => (out s e).toList ++ outputs step out s' es

theorem outputs_cons {α : Type*} {step : σ → ε → Option σ} {out : σ → ε → Option α} {s s' : σ}
    {e : ε} (hs : step s e = some s') (es : List ε) :
    outputs step out s (e :: es) = (out s e).toList ++ outputs step out s' es := by
  rw [outputs, hs]

theorem outputs_append {α : Type*} {step : σ → ε → Option σ} {out : σ → ε → Option α} {s s' : σ}
    {es : List ε} (h : exec step s es = some s') (es' : List ε) :
    outputs step out s (es ++ es') = outputs step out s es ++ outputs step out s' es' := by
  induction es generalizing s with
  | nil =>
    obtain rfl : s = s' := by simpa [exec] using h
    rfl
  | cons e es ih =>
    obtain ⟨s₁, h₁, h₂⟩ := Option.bind_eq_some_iff.mp h
    rw [List.cons_append, outputs_cons h₁, outputs_cons h₁, ih h₂, List.append_assoc]

/-- A measure that outputs replace is the last output. -/
theorem getLast_outputs {α : Type*} {step : σ → ε → Option σ} {out : σ → ε → Option α} {m : σ → α}
    (put : ∀ s e s', step s e = some s' → m s' = (out s e).getD (m s)) {s s' : σ} {es : List ε}
    (h : exec step s es = some s') : m s' = (outputs step out s es).getLast?.getD (m s) := by
  induction es generalizing s with
  | nil =>
    obtain rfl : s = s' := by simpa [exec] using h
    rfl
  | cons e es ih =>
    obtain ⟨s₁, h₁, h₂⟩ := Option.bind_eq_some_iff.mp h
    rw [outputs_cons h₁, ih h₂, put s e s₁ h₁]
    cases out s e with
    | none => rfl
    | some a =>
      show _ = (a :: outputs step out s₁ es).getLast?.getD (m s)
      rw [List.getLast?_cons]
      rfl

/-- **Outputs that a measure follows.**  If every output is above the measure and becomes it, and
the measure stays as it is without one, then the outputs increase. -/
theorem outputs_increasing {step : σ → ε → Option σ} {out : σ → ε → Option ℕ} {Inv : σ → Prop}
    {ok : σ → ε → Prop} {m : σ → ℕ}
    (inv : ∀ s e s', step s e = some s' → ok s e → Inv s → Inv s')
    (put : ∀ s e s', step s e = some s' → Inv s → ∀ r ∈ out s e, m s < r ∧ m s' = r)
    (skip : ∀ s e s', step s e = some s' → out s e = none → m s' = m s)
    {s : σ} (hi : Inv s) {es : List ε} (h : Meets step ok s es) :
    (m s :: outputs step out s es).Pairwise (· < ·) := by
  induction es generalizing s with
  | nil => exact List.pairwise_singleton _ _
  | cons e es ih =>
    rw [outputs]
    cases hs : step s e with
    | none => exact List.pairwise_singleton _ _
    | some s' =>
      obtain ⟨hok, h'⟩ := h s' hs
      have hrest := ih (inv s e s' hs hok hi) h'
      cases ho : out s e with
      | none =>
        rw [skip s e s' hs ho] at hrest
        exact hrest
      | some r =>
        obtain ⟨hlt, hm⟩ := put s e s' hs hi r ho
        rw [hm] at hrest
        show (m s :: r :: outputs step out s' es).Pairwise (· < ·)
        refine List.pairwise_cons.mpr ⟨fun x hx => ?_, hrest⟩
        rcases List.mem_cons.mp hx with rfl | hx
        · exact hlt
        · exact Nat.lt_trans hlt ((List.pairwise_cons.mp hrest).1 x hx)

end Run
