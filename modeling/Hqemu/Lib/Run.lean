import Mathlib.Logic.Basic

/-! Finite runs of a partial step function: what holds in every state, and what of every step. -/
namespace Hqemu.Lib.Run

variable {State Action : Type}

def run (step : State → Action → Option State) : State → List Action → Option State
  | state, [] => some state
  | state, action :: rest => (step state action).bind fun next => run step next rest

/-- Every state the run passes through satisfies `P`, the first one included. -/
def Always (step : State → Action → Option State) (P : State → Prop) :
    State → List Action → Prop
  | state, [] => P state
  | state, action :: rest =>
    P state ∧ ∀ next, step state action = some next → Always step P next rest

/-- Every step the run takes satisfies `C` in the state before it. -/
def Meets (step : State → Action → Option State) (C : State → Action → Prop) :
    State → List Action → Prop
  | _, [] => True
  | state, action :: rest =>
    ∀ next, step state action = some next → C state action ∧ Meets step C next rest

/-- Every action meets `C` in the state it is taken in, whether the step succeeds or
not. -/
def Admissible (step : State → Action → Option State) (C : State → Action → Prop) :
    State → List Action → Prop
  | _, [] => True
  | state, action :: rest =>
    C state action ∧ ∀ next, step state action = some next → Admissible step C next rest

variable {step : State → Action → Option State} {Inv P : State → Prop}
  {C Q : State → Action → Prop}

theorem run_append (state : State) (front back : List Action) :
    run step state (front ++ back) =
      (run step state front).bind fun next => run step next back := by
  induction front generalizing state with
  | nil => rfl
  | cons action rest ih =>
    simp only [List.cons_append,run,Option.bind_assoc,ih]

variable {state : State} {actions : List Action}

theorem Always.imp (himp : ∀ state, Inv state → P state) (h : Always step Inv state actions) :
    Always step P state actions := by
  induction actions generalizing state with
  | nil => exact himp state h
  | cons action rest ih =>
    exact ⟨himp state h.1,fun next hnext => ih (h.2 next hnext)⟩

theorem Always.first (h : Always step P state actions) : P state := by
  cases actions with
  | nil => exact h
  | cons => exact h.1

theorem Always.last {last : State} (h : Always step P state actions)
    (hrun : run step state actions = some last) : P last := by
  induction actions generalizing state with
  | nil =>
    cases hrun
    exact h
  | cons action rest ih =>
    obtain ⟨next,hnext,hrest⟩ := Option.bind_eq_some_iff.mp hrun
    exact ih (h.2 next hnext) hrest

theorem always_of_meets (hs : ∀ state action next, Inv state → C state action →
      step state action = some next → Inv next) (hinit : Inv state)
    (hmeets : Meets step C state actions) : Always step Inv state actions := by
  induction actions generalizing state with
  | nil => exact hinit
  | cons action rest ih =>
    refine ⟨hinit,fun next hnext => ?_⟩
    have hcond := hmeets next hnext
    exact ih (hs state action next hinit hcond.1 hnext) hcond.2

theorem always_of_inv
    (hs : ∀ state action next, Inv state → step state action = some next → Inv next)
    (hinit : Inv state) (actions : List Action) : Always step Inv state actions := by
  induction actions generalizing state with
  | nil => exact hinit
  | cons action rest ih =>
    exact ⟨hinit,fun next hnext => ih (hs state action next hinit hnext)⟩

theorem meets_cons {next : State} {action : Action} {rest : List Action}
    (hnext : step state action = some next) (hcond : C state action)
    (hrest : Meets step C next rest) : Meets step C state (action :: rest) := by
  intro other hother
  rw [hnext] at hother
  cases hother
  exact ⟨hcond,hrest⟩

instance decidableMeets [∀ state action, Decidable (C state action)] (state : State)
    (actions : List Action) : Decidable (Meets step C state actions) :=
  match actions with
  | [] => isTrue trivial
  | action :: rest =>
    match hstep : step state action with
    | none => isTrue fun _ hnext => nomatch hstep.symm.trans hnext
    | some next =>
      have : Decidable (Meets step C next rest) := decidableMeets next rest
      decidable_of_iff (C state action ∧ Meets step C next rest)
        ⟨fun h => meets_cons hstep h.1 h.2,fun h => h next hstep⟩

theorem Meets.imp (hs : ∀ state action next, Inv state → C state action →
      step state action = some next → Inv next)
    (himp : ∀ state action, Inv state → C state action → Q state action) (hinit : Inv state)
    (hmeets : Meets step C state actions) : Meets step Q state actions := by
  induction actions generalizing state with
  | nil => trivial
  | cons action rest ih =>
    intro next hnext
    have hcond := hmeets next hnext
    exact ⟨himp state action hinit hcond.1,ih (hs state action next hinit hcond.1 hnext) hcond.2⟩

instance decidableAdmissible [∀ state action, Decidable (C state action)] (state : State)
    (actions : List Action) : Decidable (Admissible step C state actions) :=
  match actions with
  | [] => isTrue trivial
  | action :: rest =>
    match hstep : step state action with
    | none =>
      decidable_of_iff (C state action)
        ⟨fun h => ⟨h,fun _ hnext => nomatch hstep.symm.trans hnext⟩,fun h => h.1⟩
    | some next =>
      have : Decidable (Admissible step C next rest) := decidableAdmissible next rest
      decidable_of_iff (C state action ∧ Admissible step C next rest)
        ⟨fun h => ⟨h.1,fun _ hnext => Option.some.inj (hstep.symm.trans hnext) ▸ h.2⟩,
          fun h => ⟨h.1,h.2 next hstep⟩⟩

/-- When every admissible action succeeds and keeps an invariant, the whole run does.
`Bounded k` is the invariant with `k` actions still to come. -/
theorem run_of_admissible (Bounded : Nat → State → Prop)
    (hs : ∀ k state action, Bounded (k+1) state → C state action →
      ∃ next, step state action = some next ∧ Bounded k next)
    (himp : ∀ k state, Bounded k state → P state) (hinit : Bounded actions.length state)
    (hadmissible : Admissible step C state actions) :
    (∃ last, run step state actions = some last) ∧ Always step P state actions := by
  induction actions generalizing state with
  | nil => exact ⟨⟨state,rfl⟩,himp 0 state hinit⟩
  | cons action rest ih =>
    obtain ⟨next,hnext,hbounded⟩ := hs rest.length state action hinit hadmissible.1
    obtain ⟨⟨last,hlast⟩,halways⟩ := ih hbounded (hadmissible.2 next hnext)
    refine ⟨⟨last,by simp [run,hnext,hlast]⟩,himp _ state hinit,fun other hother => ?_⟩
    rw [hnext] at hother
    cases hother
    exact halways

/-- The runs that keep the property are the admissible ones, when breaking the condition breaks it.
-/
theorem always_iff_meets_of_inv (Inv : State → Prop)
    (hkeep : ∀ state action next, Inv state → C state action →
      step state action = some next → Inv next) (himp : ∀ state, Inv state → P state)
    (hbreak : ∀ state action next, Inv state → P next →
      step state action = some next → C state action) (hinit : Inv state) :
    Always step P state actions ↔ Meets step C state actions := by
  induction actions generalizing state with
  | nil => exact ⟨fun _ => trivial,fun _ => himp state hinit⟩
  | cons action rest ih =>
    constructor
    · intro h next hnext
      have htail := h.2 next hnext
      have hcond := hbreak state action next hinit htail.first hnext
      exact ⟨hcond,(ih (hkeep state action next hinit hcond hnext)).mp htail⟩
    · intro h
      refine ⟨himp state hinit,fun next hnext => ?_⟩
      have hcond := h next hnext
      exact (ih (hkeep state action next hinit hcond.1 hnext)).mpr hcond.2

theorem always_iff_meets (Inv : State → Prop)
    (hinv : ∀ state action next, Inv state → step state action = some next → Inv next)
    (hkeep : ∀ state action next, Inv state → P state → C state action →
      step state action = some next → P next)
    (hbreak : ∀ state action next, Inv state → P state → P next →
      step state action = some next → C state action) (hinit : Inv state) (hP : P state) :
    Always step P state actions ↔ Meets step C state actions := by
  apply always_iff_meets_of_inv (fun state => Inv state ∧ P state) _ (fun _ h => h.2) _ ⟨hinit,hP⟩
  · intro state action next h hcond hnext
    exact ⟨hinv state action next h.1 hnext,hkeep state action next h.1 h.2 hcond hnext⟩
  · intro state action next h hnextP hnext
    exact hbreak state action next h.1 h.2 hnextP hnext

end Hqemu.Lib.Run
