import Nozomi.Handling.HTTPHandler

/-! When the continuations of the chain may still use the handler object. The
object is deleted without regard to what the chain has left to do. -/
namespace Nozomi

open Text Execution

namespace HTTPHandler

/-- The continuations that read a member of the object. -/
def Event.usesObject : Event → Bool
  | .startHandler | .startErrorHandler | .startTimeoutHandler | .sendResponse => true
  | _ => false

def Event.deletes : Event → Bool
  | .onError | .requestComplete => true
  | _ => false

/-- No continuation that uses the object is left to run: the chain was never
scheduled, or its later part is over and neither the user's handler nor the
first recovery is due. -/
def unused (handler : HTTPHandler) : Bool :=
  (match handler.downstream with
    | .unscheduled | .sent | .skipped | .resolved (.failure .other) => true
    | _ => false) &&
  match handler.upstream with
    | .queued | .failed => false
    | _ => true

/-- The object is deleted only when it is unused, and a user's handler that
runs on after that does not fail with an exception that asks for recovery. -/
structure Careful (handler : HTTPHandler) (event : Event) : Prop where
  deletes : event.deletes = true → handler.unused = true
  fails : event = .finishHandler → handler.alive = false →
    handler.upstream ≠ .running (.completes (.failure .std))

instance (handler : HTTPHandler) (event : Event) : Decidable (Careful handler event) :=
  decidable_of_iff
    ((event.deletes = true → handler.unused = true) ∧
      (event = .finishHandler → handler.alive = false →
        handler.upstream ≠ .running (.completes (.failure .std))))
    ⟨fun h => ⟨h.1, h.2⟩, fun h => ⟨h.deletes, h.fails⟩⟩

variable {program : Program} {s t : HTTPHandler} {event : Event}

theorem settle_alive (s : HTTPHandler) (outcome : Outcome) : (s.settle outcome).alive = s.alive := rfl

theorem handlerCompletes_alive (s : HTTPHandler) (outcome : Outcome) :
    (s.handlerCompletes outcome).alive = s.alive := by
  unfold handlerCompletes
  split <;> rfl

theorem finalRecovery_alive (s : HTTPHandler) (outcome : Outcome) :
    (s.finalRecovery outcome).alive = s.alive := by
  unfold finalRecovery
  split <;> rfl

/-- Deleting is the only way to lose the object. -/
theorem step_alive (h : step program s event = some t) :
    (!t.alive) = (!s.alive || event.deletes) := by
  cases step_cases h with
  | handlerThrows request thrown => simp [handlerCompletes_alive, Event.deletes]
  | handlerCompletes outcome => simp [handlerCompletes_alive, Event.deletes]
  | recover outcome => simp [finalRecovery_alive, Event.deletes]
  | errorHandlerThrows request thrown => simp [settle_alive, Event.deletes]
  | errorHandlerCompletes outcome => simp [settle_alive, Event.deletes]
  | onError => simp [Event.deletes]
  | requestComplete => simp [Event.deletes]
  | _ => simp [Event.deletes, onRequest, onBody, onEOM]

/-- An unused object is not used by the next step. -/
theorem unused_step (hUnused : s.unused = true) (h : step program s event = some t) :
    event.usesObject = false := by
  cases step_cases h with
  | handlerThrows request thrown hUpstream => simp [unused, hUpstream] at hUnused
  | handlerRuns request hUpstream => simp [unused, hUpstream] at hUnused
  | errorHandlerThrows request thrown hUpstream => simp [unused, hUpstream] at hUnused
  | errorHandlerRuns request hUpstream => simp [unused, hUpstream] at hUnused
  | timeoutHandlerThrows request thrown hDownstream => simp [unused, hDownstream] at hUnused
  | timeoutHandlerRuns request hDownstream => simp [unused, hDownstream] at hUnused
  | sendResponse response hDownstream => simp [unused, hDownstream] at hUnused
  | _ => rfl

/-- A late upstream result is dropped. -/
theorem unused_settle (hUnused : s.unused = true) (outcome : Outcome) :
    (s.settle outcome).unused = true := by
  have hDownstream : s.downstream ≠ .waiting := by
    intro hWaiting
    simp [unused, hWaiting] at hUnused
  simp only [unused, Bool.and_eq_true] at hUnused
  simp [unused, settle, hDownstream, hUnused.1]

/-- A deleted object that is unused stays so. The cases are the steps: the transport
is done with the object, and the chain has nothing left that would touch it. -/
theorem unused_preserved (hUnused : s.unused = true) (hAlive : s.alive = false)
    (hCareful : Careful s event) (h : step program s event = some t) : t.unused = true := by
  cases step_cases h with
  | onRequest headers hLive => simp [hAlive] at hLive
  | onBody headers body hLive => simp [hAlive] at hLive
  | onEOM headers hLive => simp [hAlive] at hLive
  | onError hLive => simp [hAlive] at hLive
  | requestComplete hLive => simp [hAlive] at hLive
  | handlerThrows request thrown hUpstream => simp [unused, hUpstream] at hUnused
  | handlerRuns request hUpstream => simp [unused, hUpstream] at hUnused
  | errorHandlerThrows request thrown hUpstream => simp [unused, hUpstream] at hUnused
  | errorHandlerRuns request hUpstream => simp [unused, hUpstream] at hUnused
  | timeout hDownstream => simp [unused, hDownstream] at hUnused
  | timeoutHandlerThrows request thrown hDownstream => simp [unused, hDownstream] at hUnused
  | timeoutHandlerRuns request hDownstream => simp [unused, hDownstream] at hUnused
  | timeoutHandlerCompletes outcome hDownstream => simp [unused, hDownstream] at hUnused
  | sendResponse response hDownstream => simp [unused, hDownstream] at hUnused
  | handlerCompletes outcome hUpstream =>
      have hFails := hCareful.fails rfl hAlive
      have hSettles : s.handlerCompletes outcome = s.settle outcome := by
        unfold handlerCompletes
        split
        · exact absurd hUpstream hFails
        · rfl
      rw [hSettles]
      exact unused_settle hUnused outcome
  | errorHandlerCompletes outcome => exact unused_settle hUnused outcome
  | recover outcome hDownstream =>
      cases outcome with
      | value response => simp [unused, hDownstream] at hUnused
      | failure thrown =>
          cases thrown with
          | std => simp [unused, hDownstream] at hUnused
          | other => simpa [unused, hDownstream, finalRecovery] using hUnused

/-- Deleting changes nothing that the chain reads. -/
theorem unused_deletes (hUnused : s.unused = true) (hDeletes : event.deletes = true)
    (h : step program s event = some t) : t.unused = true := by
  cases step_cases h with
  | onError => exact hUnused
  | requestComplete => exact hUnused
  | _ => cases hDeletes

/-- In a careful run, no continuation uses the object after the step that
deleted it. -/
theorem careful_run_uses_live_object {events before after : List Event} {final : HTTPHandler}
    (run : Run (step program) Careful create events final)
    (hEvents : events = before ++ event :: after) (hUses : event.usesObject = true) :
    ∀ earlier ∈ before, earlier.deletes = false := by
  subst hEvents
  obtain ⟨middle, hBefore, hAfter⟩ := run.split
  have hInvariant : middle.alive = false → middle.unused = true := by
    refine hBefore.invariant (fun s => s.alive = false → s.unused = true) (by simp [create]) ?_
    intro s event t hUnused hCareful hStep hDead
    have hAlive := step_alive hStep
    cases hLive : s.alive with
    | false => exact unused_preserved (hUnused hLive) hLive hCareful hStep
    | true =>
        have hDeletes : event.deletes = true := by simpa [hDead, hLive] using hAlive.symm
        exact unused_deletes (hCareful.deletes hDeletes) hDeletes hStep
  have hDeleted : (!middle.alive) = (!create.alive || before.any Event.deletes) :=
    hBefore.flag_iff (fun s => !s.alive) Event.deletes fun _ _ _ => step_alive
  cases hAfter with
  | cons hCareful first rest =>
      have hLive : middle.alive = true := by
        cases hLive : middle.alive with
        | true => rfl
        | false =>
            have hNot := unused_step (hInvariant hLive) first
            rw [hUses] at hNot
            cases hNot
      simpa [hLive, create] using hDeleted

/-- A handler that answers at once, behind a router without routes. -/
def answering (future : Future) : Program := ⟨fun _ => future, ⟨[], [], fun _ => none⟩⟩

/-- A request whose transport reports no error, up to the choice of its response. -/
theorem careful_run_uses_live_object_example :
    [Event.onRequest ⟨none, [], []⟩, .onEOM, .startHandler, .finishHandler, .recover].any
      Event.deletes = false := by
  have hRun : Run (step (answering (HTTPResponse.ofStatus 200).future)) Careful create
      ([.onRequest ⟨none, [], []⟩, .onEOM, .startHandler, .finishHandler, .recover] ++
        [.sendResponse, .requestComplete])
      ⟨none, IOBuf.create, some ⟨⟨none, [], []⟩, IOBuf.create⟩,
        .done (.value (HTTPResponse.ofStatus 200)), .sent, false, false,
        [HTTPResponse.ofStatus 200]⟩ := Run.of_execute rfl
  have hLive := careful_run_uses_live_object hRun rfl rfl
  exact List.any_eq_false.mpr fun earlier hMem => by simp [hLive earlier hMem]

/-- An error of the transport before the user's handler has started, and a
failure of the user's handler after the answer to the timeout. -/
theorem deleted_object_is_used :
    (∃ final, Run (step (answering .never)) (fun _ _ => True) create
        ([.onRequest ⟨none, [], []⟩, .onEOM, .onError] ++ .startHandler :: []) final) ∧
      (∃ final, Run (step (answering (.completes (.failure .std)))) (fun _ _ => True) create
        ([.onRequest ⟨none, [], []⟩, .onEOM, .startHandler, .timeout, .startTimeoutHandler,
          .finishTimeoutHandler, .recover, .sendResponse, .requestComplete, .finishHandler] ++
            .startErrorHandler :: []) final) ∧
      Event.startHandler.usesObject = true ∧ Event.startErrorHandler.usesObject = true ∧
      Event.onError.deletes = true ∧ Event.requestComplete.deletes = true :=
  ⟨⟨_, Run.of_execute rfl⟩, ⟨_, Run.of_execute rfl⟩, rfl, rfl, rfl, rfl⟩

end HTTPHandler

end Nozomi
