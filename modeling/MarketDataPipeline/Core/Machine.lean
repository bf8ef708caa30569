import Mathlib

/-!
# Deterministic machines and their runs

A machine takes one operation at a time.  Some operations may be issued only
in some states; a run is legal when every operation of it is.  The two rules
used throughout are here: a property preserved by each legal step holds after
every legal run, and so does a relation between two machines that run in
lockstep.
-/

namespace MarketDataPipeline

/-- A deterministic machine over states `State`, driven by operations `Op`. -/
structure Machine (State Op : Type*) where
  /-- The operations a client may issue in a state. -/
  allowed : State → Op → Prop
  step : State → Op → State

namespace Machine

variable {State State' Op : Type*}

/-- The state after a sequence of operations. -/
def run (machine : Machine State Op) (state : State) (ops : List Op) : State :=
  ops.foldl machine.step state

/-- Every operation of the sequence is allowed in the state it meets. -/
def Legal (machine : Machine State Op) : State → List Op → Prop
  | _, [] => True
  | state, op :: ops =>
      machine.allowed state op ∧ machine.Legal (machine.step state op) ops

@[simp]
theorem run_nil (machine : Machine State Op) (state : State) :
    machine.run state [] = state := rfl

@[simp]
theorem run_cons (machine : Machine State Op) (state : State) (op : Op)
    (ops : List Op) :
    machine.run state (op :: ops) =
      machine.run (machine.step state op) ops := rfl

theorem run_append (machine : Machine State Op) (state : State)
    (ops later : List Op) :
    machine.run state (ops ++ later) =
      machine.run (machine.run state ops) later := by
  simp [run]

theorem legal_append (machine : Machine State Op) (state : State)
    (ops later : List Op) :
    machine.Legal state (ops ++ later) ↔
      machine.Legal state ops ∧
        machine.Legal (machine.run state ops) later := by
  induction ops generalizing state with
  | nil => simp [Legal]
  | cons op ops ih => simp [Legal, ih, and_assoc]

/-- Where every operation is always allowed, every run is legal. -/
theorem legal_of_forall {machine : Machine State Op}
    (hallowed : ∀ state op, machine.allowed state op) (state : State)
    (ops : List Op) :
    machine.Legal state ops := by
  induction ops generalizing state with
  | nil => trivial
  | cons op ops ih => exact ⟨hallowed state op, ih _⟩

/-- A property that every legal step preserves holds after every legal run. -/
theorem invariant {machine : Machine State Op} (property : State → Prop)
    (hstep : ∀ state op, property state → machine.allowed state op →
      property (machine.step state op))
    {state : State} (hstart : property state) {ops : List Op}
    (hlegal : machine.Legal state ops) : property (machine.run state ops) := by
  induction ops generalizing state with
  | nil => exact hstart
  | cons op ops ih =>
      obtain ⟨hallowed, hrest⟩ := hlegal
      exact ih (hstep state op hstart hallowed) hrest

/-- Every operation of the sequence satisfies `good` in the state it meets. -/
def Each (machine : Machine State Op) (good : State → Op → Prop) :
    State → List Op → Prop
  | _, [] => True
  | state, op :: ops =>
      good state op ∧ machine.Each good (machine.step state op) ops

/-- A property that legal steps under a condition preserve holds after every
legal run whose steps all meet the condition. -/
theorem invariant_each {machine : Machine State Op} (property : State → Prop)
    (good : State → Op → Prop)
    (hstep : ∀ state op, property state → machine.allowed state op →
      good state op →
      property (machine.step state op))
    {state : State} (hstart : property state) {ops : List Op}
    (hlegal : machine.Legal state ops) (heach : machine.Each good state ops) :
    property (machine.run state ops) := by
  induction ops generalizing state with
  | nil => exact hstart
  | cons op ops ih =>
      obtain ⟨hallowed, hrest⟩ := hlegal
      obtain ⟨hgood, hlater⟩ := heach
      exact ih (hstep state op hstart hallowed hgood) hrest hlater

/-- A condition holds at each step when it holds of every operation in the state
that the operations before it lead to. -/
theorem each_iff_prefix {machine : Machine State Op} {good : State → Op → Prop}
    {state : State} {ops : List Op} : machine.Each good state ops ↔
      ∀ done op, done ++ [op] <+: ops → good (machine.run state done) op := by
  induction ops generalizing state with
  | nil => simp [Each]
  | cons first rest ih =>
      rw [Each, ih]
      constructor
      · rintro ⟨hfirst, hrest⟩ done op hprefix
        cases done with
        | nil =>
            obtain ⟨rfl, -⟩ := List.cons_prefix_cons.mp hprefix
            exact hfirst
        | cons head done =>
            obtain ⟨rfl, hprefix'⟩ := List.cons_prefix_cons.mp hprefix
            exact hrest done op hprefix'
      · intro hall
        refine ⟨hall [] first (by simp), fun done op hprefix => ?_⟩
        exact hall (first :: done) op (List.cons_prefix_cons.mpr ⟨rfl, hprefix⟩)

/-- A condition on operations alone holds at each step when it holds of all
operations. -/
theorem each_iff_forall_mem {machine : Machine State Op} {good : Op → Prop}
    {state : State} {ops : List Op} :
    machine.Each (fun _ op => good op) state ops ↔ ∀ op ∈ ops, good op := by
  induction ops generalizing state with
  | nil => simp [Each]
  | cons op rest ih => rw [Each, ih, List.forall_mem_cons]

/-- Conditions that agree in the states of an invariant hold at each step
alike. -/
theorem each_congr {machine : Machine State Op} {good good' : State → Op → Prop}
    (inv : State → Prop) (hiff : ∀ state op, inv state →
      (good state op ↔ good' state op))
    (hinv : ∀ state op, inv state → good state op → inv (machine.step state op))
    {state : State} (hstart : inv state) (ops : List Op) :
    machine.Each good state ops ↔ machine.Each good' state ops := by
  induction ops generalizing state with
  | nil => exact Iff.rfl
  | cons op rest ih =>
      rw [Each, Each, ← hiff state op hstart]
      exact and_congr_right fun hgood => ih (hinv state op hstart hgood)

/-- Where a step keeps a property exactly under a condition on the step, the
property holds throughout a run exactly when every step meets the condition. -/
theorem always_iff_each {machine : Machine State Op}
    (inv property : State → Prop) (good : State → Op → Prop)
    (hinv : ∀ state op, inv state → machine.allowed state op →
      inv (machine.step state op))
    (hstep : ∀ state op, inv state → machine.allowed state op → property state →
      (property (machine.step state op) ↔ good state op))
    {state : State} (hstart : inv state) (hproperty : property state)
    {ops : List Op} (hlegal : machine.Legal state ops) :
    (∀ done, done <+: ops → property (machine.run state done)) ↔
    machine.Each good state ops := by
  induction ops generalizing state with
  | nil => simpa [Each] using hproperty
  | cons op ops ih =>
      obtain ⟨hallowed, hrest⟩ := hlegal
      have hiff := hstep state op hstart hallowed hproperty
      have hlater := ih (hinv state op hstart hallowed)
      constructor
      · intro halways
        have hnext : property (machine.step state op) := halways [op] (by simp)
        refine ⟨hiff.mp hnext, (hlater hnext hrest).mp fun done hdone => ?_⟩
        exact halways (op :: done) (List.cons_prefix_cons.mpr ⟨rfl, hdone⟩)
      · rintro ⟨hgood, heach⟩ done hdone
        cases done with
        | nil => exact hproperty
        | cons first done =>
            obtain ⟨rfl, hdone'⟩ := List.cons_prefix_cons.mp hdone
            exact (hlater (hiff.mpr hgood) hrest).mpr heach done hdone'

/-- Two machines that stay related while the first stays in bounds are related
after every legal run that does. -/
theorem simulation_within {machine : Machine State Op}
    {machine' : Machine State' Op} (related : State → State' → Prop)
    (bound : State → Prop) (hstep : ∀ state state' op, related state state' →
      machine.allowed state op →
      bound (machine.step state op) →
        related (machine.step state op) (machine'.step state' op))
    {state : State} {state' : State'} (hstart : related state state')
    {ops : List Op} (hlegal : machine.Legal state ops)
    (hbound : ∀ done, done <+: ops → bound (machine.run state done)) :
    related (machine.run state ops) (machine'.run state' ops) := by
  induction ops generalizing state state' with
  | nil => exact hstart
  | cons op ops ih =>
      obtain ⟨hallowed, hrest⟩ := hlegal
      have hnext : bound (machine.step state op) := hbound [op] (by simp)
      refine ih (hstep state state' op hstart hallowed hnext) hrest
        fun done hdone => ?_
      exact hbound (op :: done) (List.cons_prefix_cons.mpr ⟨rfl, hdone⟩)

/-- Two machines that stay related step by step are related after every run
that is legal for the first. -/
theorem simulation {machine : Machine State Op} {machine' : Machine State' Op}
    (related : State → State' → Prop)
    (hstep : ∀ state state' op, related state state' →
      machine.allowed state op →
      related (machine.step state op) (machine'.step state' op))
    {state : State} {state' : State'} (hstart : related state state')
    {ops : List Op} (hlegal : machine.Legal state ops) :
    related (machine.run state ops) (machine'.run state' ops) :=
  simulation_within related (fun _ => True)
    (fun state state' op hrelated hallowed _ =>
      hstep state state' op hrelated hallowed) hstart
    hlegal fun _ _ => trivial

/-- A machine with a record of its run beside it, which it never reads. -/
def observed {Record : Type*} (machine : Machine State Op)
    (observe : State → Op → Record → Record) : Machine (State × Record) Op where
  allowed observed op := machine.allowed observed.1 op
  step observed op :=
    (machine.step observed.1 op, observe observed.1 op observed.2)

/-- The record does not change the run. -/
theorem observed_run_fst {Record : Type*} (machine : Machine State Op)
    (observe : State → Op → Record → Record) (state : State) (record : Record)
    (ops : List Op) :
    ((machine.observed observe).run (state, record) ops).1 =
      machine.run state ops := by
  induction ops generalizing state record with
  | nil => rfl
  | cons op ops ih => exact ih (machine.step state op) (observe state op record)

/-- Nor does it change what is legal. -/
theorem observed_legal_iff {Record : Type*} {machine : Machine State Op}
    {observe : State → Op → Record → Record} {state : State} {record : Record}
    {ops : List Op} :
    (machine.observed observe).Legal (state, record) ops ↔
      machine.Legal state ops := by
  induction ops generalizing state record with
  | nil => exact Iff.rfl
  | cons op ops ih => exact and_congr_right fun _ => ih

theorem observed_each_iff {Record : Type*} {machine : Machine State Op}
    {observe : State → Op → Record → Record} {good : State → Op → Prop}
    {state : State} {record : Record} {ops : List Op} :
    (machine.observed observe).Each (fun observed op => good observed.1 op)
    (state, record) ops ↔
      machine.Each good state ops := by
  induction ops generalizing state record with
  | nil => exact Iff.rfl
  | cons op ops ih => exact and_congr_right fun _ => ih

end Machine

end MarketDataPipeline
