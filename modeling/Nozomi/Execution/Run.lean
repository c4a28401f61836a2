import Mathlib.Data.List.Basic

/-! Finite runs of a deterministic step function whose events are chosen by the
environment, among those that a condition on the state allows. -/
namespace Execution

variable {State Event : Type}

/-- A run from the first state to the last, event by event. `none` is an event
that is not enabled. -/
inductive Run (step : State → Event → Option State) (allowed : State → Event → Prop) :
    State → List Event → State → Prop where
  | nil (s : State) : Run step allowed s [] s
  | cons {s t final : State} {event : Event} {events : List Event}
      (hAllowed : allowed s event) (first : step s event = some t)
      (rest : Run step allowed t events final) : Run step allowed s (event :: events) final

/-- Run a list of events as far as they are allowed and enabled. -/
def execute (step : State → Event → Option State) (allowed : State → Event → Prop)
    [∀ s event, Decidable (allowed s event)] (s : State) : List Event → Option State
  | [] => some s
  | event :: events =>
      if allowed s event then (step s event).bind fun t => execute step allowed t events else none

namespace Run

variable {step : State → Event → Option State} {allowed : State → Event → Prop}
  {s final : State}

/-- What every allowed step preserves holds at the end of a run. -/
theorem invariant {events : List Event} (run : Run step allowed s events final)
    (Holds : State → Prop) (hStart : Holds s)
    (hStep : ∀ s event t, Holds s → allowed s event → step s event = some t → Holds t) :
    Holds final := by
  induction run with
  | nil s => exact hStart
  | cons hAllowed first rest ih => exact ih (hStep _ _ _ hStart hAllowed first)

/-- A run can be cut anywhere. -/
theorem split {before after : List Event} (run : Run step allowed s (before ++ after) final) :
    ∃ middle, Run step allowed s before middle ∧ Run step allowed middle after final := by
  induction before generalizing s with
  | nil => exact ⟨s, .nil s, run⟩
  | cons event before ih =>
      cases run with
      | cons hAllowed first rest =>
          obtain ⟨middle, hBefore, hAfter⟩ := ih rest
          exact ⟨middle, .cons hAllowed first hBefore, hAfter⟩

/-- A run goes on where another one has ended. -/
theorem append {middle : State} {before after : List Event} (first : Run step allowed s before middle)
    (rest : Run step allowed middle after final) : Run step allowed s (before ++ after) final := by
  induction first with
  | nil s => exact rest
  | cons hAllowed here later ih => exact .cons hAllowed here (ih rest)

/-- A condition that every event of a run meets may be added to the steps. -/
theorem strengthen {events : List Event} (run : Run step allowed s events final)
    (Also : Event → Prop) (hAlso : ∀ event ∈ events, Also event) :
    Run step (fun s event => allowed s event ∧ Also event) s events final := by
  induction run with
  | nil s => exact .nil s
  | cons hAllowed first rest ih =>
      exact .cons ⟨hAllowed, hAlso _ (by simp)⟩ first (ih fun event hMem => hAlso event (by simp [hMem]))

/-- A flag that some events set and none takes back tells whether one of them
has taken place. -/
theorem flag_iff {events : List Event} (run : Run step allowed s events final)
    (flag : State → Bool) (sets : Event → Bool)
    (hStep : ∀ s event t, step s event = some t → flag t = (flag s || sets event)) :
    flag final = (flag s || events.any sets) := by
  induction run with
  | nil s => simp
  | cons hAllowed first rest ih =>
      rw [ih, hStep _ _ _ first, List.any_cons, Bool.or_assoc]

/-- A part of the state that every step changes by its event alone is a fold over
the events. -/
theorem fold_eq {α : Type} {events : List Event} (run : Run step allowed s events final)
    (part : State → α) (change : α → Event → α)
    (hStep : ∀ s event t, step s event = some t → part t = change (part s) event) :
    part final = events.foldl change (part s) := by
  induction run with
  | nil s => rfl
  | cons hAllowed first rest ih => rw [ih, hStep _ _ _ first, List.foldl_cons]

/-- Where every step takes something off a bound, a run has no more steps than the
bound at its start. -/
theorem length_le {events : List Event} (run : Run step allowed s events final)
    (Bound : Nat → State → Prop)
    (hStep : ∀ n s event t, Bound n s → allowed s event → step s event = some t → ∃ m < n, Bound m t)
    {n : Nat} (hStart : Bound n s) : events.length ≤ n := by
  induction run generalizing n with
  | nil s => exact Nat.zero_le n
  | cons hAllowed first rest ih =>
      obtain ⟨m, hLess, hBound⟩ := hStep n _ _ _ hStart hAllowed first
      have hRest := ih hBound
      rw [List.length_cons]
      omega

/-- A run is a run of any step function that does the same in the states that it
goes through. -/
theorem transfer {events : List Event} (run : Run step allowed s events final)
    {other : State → Event → Option State} {also : State → Event → Prop}
    (Holds : State → Prop) (hStart : Holds s)
    (hStep : ∀ s event t, Holds s → allowed s event → step s event = some t → Holds t)
    (hSame : ∀ s event, Holds s → allowed s event → also s event ∧ other s event = step s event) :
    Run other also s events final := by
  induction run with
  | nil s => exact .nil s
  | cons hAllowed first rest ih =>
      obtain ⟨hAlso, hOther⟩ := hSame _ _ hStart hAllowed
      exact .cons hAlso (hOther.trans first) (ih (hStep _ _ _ hStart hAllowed first))

/-- Where no step leads back to the first state, an event that is enabled nowhere
else is the first of its run. -/
theorem opening {events : List Event} {event : Event} (run : Run step allowed s events final)
    (hMem : event ∈ events) (hOnly : ∀ t u, step t event = some u → t = s)
    (hLeaves : ∀ t other u, step t other = some u → u ≠ s) :
    ∃ rest t, events = event :: rest ∧ step s event = some t ∧ Run step allowed t rest final := by
  obtain ⟨before, after, rfl⟩ := List.append_of_mem hMem
  obtain ⟨middle, hBefore, hAfter⟩ := run.split
  cases hAfter with
  | @cons _ t _ _ _ _ first rest =>
      obtain rfl := hOnly _ _ first
      rcases List.eq_nil_or_concat before with rfl | ⟨earlier, last, rfl⟩
      · exact ⟨after, t, rfl, first, rest⟩
      · rw [List.concat_eq_append] at hBefore
        obtain ⟨_, _, hLast⟩ := hBefore.split
        cases hLast with
        | cons _ hBack hEnd =>
            cases hEnd
            exact absurd rfl (hLeaves _ _ _ hBack)

/-- A run through the states of a component is a run of the component. Whatever a step
leaves in that form is a step of its own. -/
theorem within {Inner InnerEvent : Type} {inner : Inner → InnerEvent → Option Inner}
    (embed : Inner → State) (wrap : InnerEvent → Event)
    (hStep : ∀ a event t, step (embed a) event = some t →
      ∃ own b, event = wrap own ∧ inner a own = some b ∧ t = embed b)
    {a : Inner} {events : List Event} (run : Run step allowed (embed a) events final) :
    ∃ own b, events = own.map wrap ∧ final = embed b ∧
      Run inner (fun a event => allowed (embed a) (wrap event)) a own b := by
  induction events generalizing a with
  | nil =>
      cases run
      exact ⟨[], a, rfl, rfl, .nil a⟩
  | cons event events ih =>
      cases run with
      | cons hAllowed first rest =>
          obtain ⟨own, b, rfl, hInner, rfl⟩ := hStep _ _ _ first
          obtain ⟨later, last, rfl, hLast, hRest⟩ := ih rest
          exact ⟨own :: later, last, rfl, hLast, .cons hAllowed hInner hRest⟩

/-- Executing a list of events to its end is a run. -/
theorem of_execute [∀ s event, Decidable (allowed s event)] {events : List Event}
    (h : execute step allowed s events = some final) : Run step allowed s events final := by
  induction events generalizing s with
  | nil =>
      obtain rfl : s = final := by simpa [execute] using h
      exact .nil s
  | cons event events ih =>
      rw [execute, Option.ite_none_right_eq_some] at h
      obtain ⟨t, hFirst, hRest⟩ := Option.bind_eq_some_iff.mp h.2
      exact .cons h.1 hFirst (ih hRest)

end Run

end Execution
