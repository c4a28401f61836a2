import Mathlib.Logic.Function.Basic
import Nozomi.Execution.Run

/-! Many components of one kind, which take their steps in any order. None of them
reads or changes the state of another, but a step that fails brings down all. -/
namespace Execution

/-- The states of the components, and whether a failure has ended them all. -/
structure System (ι State : Type) where
  each : ι → State
  crashed : Bool

variable {ι State Event Error : Type} [DecidableEq ι]

/-- One component takes a step, and the others stay as they are. After a failure
there are no more steps. -/
def interleave (step : State → Event → Option (Except Error State)) (s : System ι State)
    (event : ι × Event) : Option (System ι State) :=
  if s.crashed then none
  else (step (s.each event.1) event.2).map fun
    | .ok next => { s with each := Function.update s.each event.1 next }
    | .error _ => { s with crashed := true }

/-- The steps of a component that do not fail. -/
def succeeds (step : State → Event → Option (Except Error State)) (s : State) (event : Event) : Option State :=
  (step s event).bind Except.toOption

theorem succeeds_eq_some {step : State → Event → Option (Except Error State)} {s t : State} {event : Event} :
    succeeds step s event = some t ↔ step s event = some (.ok t) := by
  rw [succeeds]
  cases hStep : step s event with
  | none => simp
  | some result => cases result <;> simp [Except.toOption]

/-- The events of one component, in their order. -/
def eventsOf (i : ι) (events : List (ι × Event)) : List Event :=
  events.filterMap fun event => if event.1 = i then some event.2 else none

theorem eventsOf_cons (i : ι) (event : ι × Event) (events : List (ι × Event)) :
    eventsOf i (event :: events) =
      if event.1 = i then event.2 :: eventsOf i events else eventsOf i events := by
  rw [eventsOf, List.filterMap_cons]
  split <;> rename_i hEvent <;> split at hEvent <;> simp_all [eventsOf]

theorem mem_eventsOf (i : ι) (event : Event) (events : List (ι × Event)) :
    event ∈ eventsOf i events ↔ (i, event) ∈ events := by
  simp only [eventsOf, List.mem_filterMap, Option.ite_none_right_eq_some, Option.some.injEq]
  constructor
  · intro ⟨(j, other), hMem, hIndex, hEvent⟩
    exact hIndex ▸ hEvent ▸ hMem
  · intro hMem
    exact ⟨(i, event), hMem, rfl, rfl⟩

variable {step : State → Event → Option (Except Error State)} {s t : System ι State} {event : ι × Event}

/-- A step moves the component whose event it is, or it fails and moves nothing. -/
theorem interleave_cases (h : interleave step s event = some t) : s.crashed = false ∧
    ((∃ next, step (s.each event.1) event.2 = some (.ok next) ∧
        t = ⟨Function.update s.each event.1 next, false⟩) ∨
      ∃ error, step (s.each event.1) event.2 = some (.error error) ∧ t = ⟨s.each, true⟩) := by
  rw [interleave] at h
  cases hCrashed : s.crashed with
  | true =>
      rw [hCrashed] at h
      cases h
  | false =>
      rw [hCrashed] at h
      obtain ⟨result, hStep, rfl⟩ := Option.map_eq_some_iff.mp h
      cases result with
      | ok next => exact ⟨rfl, Or.inl ⟨next, hStep, rfl⟩⟩
      | error error => exact ⟨rfl, Or.inr ⟨error, hStep, rfl⟩⟩

/-- A step of one component that does not fail is a step of all, and leaves the
others alone. -/
theorem interleave_ok {next : State} (hRunning : s.crashed = false)
    (h : step (s.each event.1) event.2 = some (.ok next)) :
    interleave step s event = some ⟨Function.update s.each event.1 next, false⟩ := by
  rw [interleave, hRunning, h]
  rfl

/-- What holds of every component still does after a step, if it holds of the one
that has taken it. -/
theorem interleave_forall {Holds : State → Prop} (hAll : ∀ i, Holds (s.each i))
    (h : interleave step s event = some t)
    (hStep : ∀ next, step (s.each event.1) event.2 = some (.ok next) → Holds next) (i : ι) :
    Holds (t.each i) := by
  rcases (interleave_cases h).2 with ⟨next, hNext, rfl⟩ | ⟨error, _, rfl⟩
  · dsimp only
    by_cases hHere : i = event.1
    · rw [hHere, Function.update_self]
      exact hStep next hNext
    · rw [Function.update_of_ne hHere]
      exact hAll i
  · exact hAll i

/-- There are no steps after a failure. -/
theorem Run.of_crashed {allowed : System ι State → ι × Event → Prop} {final : System ι State}
    {events : List (ι × Event)} (run : Run (interleave step) allowed s events final)
    (hCrashed : s.crashed = true) : events = [] ∧ final = s := by
  cases run with
  | nil => exact ⟨rfl, rfl⟩
  | cons _ first =>
      have hRunning := (interleave_cases first).1
      rw [hCrashed] at hRunning
      cases hRunning

/-- Each component goes through a run of its own, whatever the others do, and a last
event of its own may be the one that fails. -/
theorem Run.component {allowed : System ι State → ι × Event → Prop} {final : System ι State}
    {events : List (ι × Event)} (run : Run (interleave step) allowed s events final) (i : ι) :
    ∃ own, Run (succeeds step) (fun _ _ => True) (s.each i) own (final.each i) ∧
      (eventsOf i events = own ∨ ∃ last error, eventsOf i events = own ++ [last] ∧
        step (final.each i) last = some (.error error)) := by
  induction run with
  | nil s => exact ⟨[], .nil _, Or.inl rfl⟩
  | @cons s t final event events hAllowed first rest ih =>
      rw [eventsOf_cons]
      rcases (interleave_cases first).2 with ⟨next, hNext, rfl⟩ | ⟨error, hError, rfl⟩
      · obtain ⟨own, hRun, hEvents⟩ := ih
        by_cases hHere : event.1 = i
        · obtain ⟨j, event⟩ := event
          obtain rfl : j = i := hHere
          dsimp only at hRun
          rw [Function.update_self] at hRun
          refine ⟨event :: own, .cons trivial (succeeds_eq_some.mpr hNext) hRun, ?_⟩
          rw [if_pos rfl]
          rcases hEvents with hAll | ⟨last, error, hAll, hLast⟩
          · exact Or.inl (congrArg (event :: ·) hAll)
          · exact Or.inr ⟨last, error, congrArg (event :: ·) hAll, hLast⟩
        · rw [if_neg hHere]
          dsimp only at hRun
          rw [Function.update_of_ne (Ne.symm hHere)] at hRun
          exact ⟨own, hRun, hEvents⟩
      · obtain ⟨rfl, rfl⟩ := rest.of_crashed rfl
        refine ⟨[], .nil _, ?_⟩
        by_cases hHere : event.1 = i
        · obtain ⟨j, event⟩ := event
          obtain rfl : j = i := hHere
          rw [if_pos rfl]
          exact Or.inr ⟨event, error, rfl, hError⟩
        · rw [if_neg hHere]
          exact Or.inl rfl

end Execution
