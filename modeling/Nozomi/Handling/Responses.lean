import Nozomi.Handling.Lifecycle

/-! Which response is sent. As long as every failure that counts derives from
`std::exception`, one response is sent, and it is the one the order of events
calls for. -/
namespace Nozomi

open Text Execution

namespace HTTPHandler

/-- The response of a call that gives one, now or later. -/
def responseOf : Future → Option HTTPResponse
  | .completes (.value response) => some response
  | .completes (.failure _) | .throws _ | .never => none

/-- The response that a request should get: that of the user's handler, or of
the first recovery if it failed, or of the second one if the timer fired
before; and a fixed one if the recovery fails itself. -/
def answer (program : Program) (request : HTTPRequest) (timedOut : Bool) : HTTPResponse :=
  if timedOut then (responseOf (program.router.getErrorHandler 503 request)).getD unknownError
  else
    match responseOf (program.handler request) with
    | some response => response
    | none => (responseOf (program.router.getErrorHandler 500 request)).getD unknownError

/-- No step hands on a failure that does not derive from `std::exception`,
except to a part of the chain whose timer has fired. -/
structure Derived (program : Program) (s : HTTPHandler) (event : Event) : Prop where
  handlerThrows : s.downstream = .waiting → event = .startHandler →
    s.request.map program.handler ≠ some (.throws .other)
  handlerFails : s.downstream = .waiting → event = .finishHandler →
    s.upstream ≠ .running (.completes (.failure .other))
  errorHandlerThrows : s.downstream = .waiting → event = .startErrorHandler →
    s.request.map (program.router.getErrorHandler 500) ≠ some (.throws .other)
  errorHandlerFails : s.downstream = .waiting → event = .finishErrorHandler →
    s.upstream ≠ .recovering (.completes (.failure .other))
  timeoutHandlerThrows : event = .startTimeoutHandler →
    s.request.map (program.router.getErrorHandler 503) ≠ some (.throws .other)
  timeoutHandlerFails : event = .finishTimeoutHandler →
    s.downstream ≠ .recovering (.completes (.failure .other))

instance (program : Program) (s : HTTPHandler) (event : Event) :
    Decidable (Derived program s event) :=
  decidable_of_iff
    ((s.downstream = .waiting → event = .startHandler →
        s.request.map program.handler ≠ some (.throws .other)) ∧
      (s.downstream = .waiting → event = .finishHandler →
        s.upstream ≠ .running (.completes (.failure .other))) ∧
      (s.downstream = .waiting → event = .startErrorHandler →
        s.request.map (program.router.getErrorHandler 500) ≠ some (.throws .other)) ∧
      (s.downstream = .waiting → event = .finishErrorHandler →
        s.upstream ≠ .recovering (.completes (.failure .other))) ∧
      (event = .startTimeoutHandler →
        s.request.map (program.router.getErrorHandler 503) ≠ some (.throws .other)) ∧
      (event = .finishTimeoutHandler → s.downstream ≠ .recovering (.completes (.failure .other))))
    ⟨fun ⟨h₁, h₂, h₃, h₄, h₅, h₆⟩ => ⟨h₁, h₂, h₃, h₄, h₅, h₆⟩,
      fun ⟨h₁, h₂, h₃, h₄, h₅, h₆⟩ => ⟨h₁, h₂, h₃, h₄, h₅, h₆⟩⟩

/-- What the last recovery makes of an outcome that it handles. -/
def settled : Outcome → HTTPResponse
  | .value response => response
  | .failure _ => unknownError

/-- The upstream part while its result is still awaited. -/
def Pending (program : Program) (request : HTTPRequest) : Upstream → Prop
  | .unscheduled | .done _ => False
  | .queued => True
  | .running response => response = program.handler request
  | .failed => responseOf (program.handler request) = none
  | .recovering response => responseOf (program.handler request) = none ∧
      response = program.router.getErrorHandler 500 request

/-- What has been sent, and what the stage that the chain has reached leaves
to be sent. -/
def Stage (program : Program) (request : HTTPRequest) (s : HTTPHandler) : Prop :=
  match s.downstream with
  | .unscheduled | .skipped => False
  | .waiting => s.timedOut = false ∧ s.sent = [] ∧ Pending program request s.upstream
  | .expired => s.timedOut = true ∧ s.sent = []
  | .recovering response => s.timedOut = true ∧ s.sent = [] ∧
      response = program.router.getErrorHandler 503 request ∧ Returns response
  | .resolved outcome => s.sent = [] ∧ outcome ≠ .failure .other ∧
      settled outcome = answer program request s.timedOut
  | .responding response => s.sent = [] ∧ response = answer program request s.timedOut
  | .sent => s.sent = [answer program request s.timedOut]

/-- The invariant of runs without an error of the transport. -/
structure Consistent (program : Program) (s : HTTPHandler) : Prop where
  alive : s.alive = false → s.sent ≠ []
  incomplete : s.request = none → s.upstream = .unscheduled ∧ s.downstream = .unscheduled ∧
    s.sent = [] ∧ s.timedOut = false
  complete : ∀ request, s.request = some request → s.message = none ∧ Stage program request s

variable {program : Program} {s t : HTTPHandler} {event : Event}

theorem create_consistent (program : Program) : Consistent program create where
  alive := by simp [create]
  incomplete := by simp [create]
  complete := by simp [create]

/-- A result that is not awaited any more changes nothing that matters. -/
theorem stage_upstream {request : HTTPRequest} (hStage : Stage program request s)
    (hWaiting : s.downstream ≠ .waiting) (upstream : Upstream) :
    Stage program request { s with upstream := upstream } := by
  cases hDownstream : s.downstream with
  | waiting => exact absurd hDownstream hWaiting
  | unscheduled | skipped => simp [Stage, hDownstream] at hStage
  | _ =>
      simp only [Stage, hDownstream] at hStage ⊢
      exact hStage

/-- What settles the chain is what the program answers, if the failures that count
derive from `std::exception`. A chain that is settled ignores what comes later. -/
theorem stage_settle {request : HTTPRequest} (hStage : Stage program request s) (outcome : Outcome)
    (hOutcome : s.downstream = .waiting →
      outcome ≠ .failure .other ∧ settled outcome = answer program request false) :
    Stage program request (s.settle outcome) := by
  by_cases hWaiting : s.downstream = .waiting
  · obtain ⟨hOther, hSettled⟩ := hOutcome hWaiting
    simp only [Stage, hWaiting] at hStage
    simp only [settle, hWaiting, if_true, Stage]
    exact ⟨hStage.2.1, hOther, by rw [hStage.1]; exact hSettled⟩
  · simp only [settle, hWaiting, if_false]
    exact stage_upstream hStage hWaiting _

/-- The user's handler is done: with a response, or with a failure that the
first recovery handles. -/
theorem stage_handlerCompletes {request : HTTPRequest} (hStage : Stage program request s)
    (outcome : Outcome)
    (hOutcome : s.downstream = .waiting → outcome ≠ .failure .other ∧
      responseOf (program.handler request) =
        match outcome with
        | .value response => some response
        | .failure _ => none) :
    Stage program request (s.handlerCompletes outcome) := by
  cases outcome with
  | value response =>
      refine stage_settle hStage _ fun hWaiting => ⟨by simp, ?_⟩
      simp [answer, settled, (hOutcome hWaiting).2]
  | failure thrown =>
      cases thrown with
      | std =>
          by_cases hWaiting : s.downstream = .waiting
          · simp only [Stage, hWaiting] at hStage
            simp only [handlerCompletes, Stage, hWaiting]
            exact ⟨hStage.1, hStage.2.1, (hOutcome hWaiting).2⟩
          · exact stage_upstream hStage hWaiting _
      | other =>
          exact stage_settle hStage _ fun hWaiting => absurd rfl (hOutcome hWaiting).1

/-- The first recovery is done. -/
theorem stage_errorHandler {request : HTTPRequest} (hStage : Stage program request s)
    (hFails : s.downstream = .waiting → responseOf (program.handler request) = none)
    (outcome : Outcome)
    (hOutcome : s.downstream = .waiting → outcome ≠ .failure .other ∧
      responseOf (program.router.getErrorHandler 500 request) =
        match outcome with
        | .value response => some response
        | .failure _ => none) :
    Stage program request (s.settle outcome) := by
  refine stage_settle hStage outcome fun hWaiting => ⟨(hOutcome hWaiting).1, ?_⟩
  have hResponse := (hOutcome hWaiting).2
  cases outcome <;> simp [answer, settled, hFails hWaiting, hResponse]

/-- Every step of the chain keeps the stage right. The cases are the steps, and for
each the places that the chain can be in. -/
theorem stage_step {request : HTTPRequest} (hRequest : s.request = some request)
    (hMessage : s.message = none) (hStage : Stage program request s)
    (hDerived : Derived program s event) (h : step program s event = some t) :
    Stage program request t := by
  have hUpstream : s.downstream = .waiting → Pending program request s.upstream := by
    intro hWaiting
    simp only [Stage, hWaiting] at hStage
    exact hStage.2.2
  cases step_cases h with
  | onRequest headers _ _ hNone => simp [hRequest] at hNone
  | onBody headers body _ hSome => simp [hMessage] at hSome
  | onEOM headers _ hSome => simp [hMessage] at hSome
  | handlerThrows other thrown hQueued hOther hThrows =>
      obtain rfl : request = other := Option.some.inj (hRequest.symm.trans hOther)
      refine stage_handlerCompletes hStage _ fun hWaiting => ⟨?_, by simp [responseOf, hThrows]⟩
      have hNot := hDerived.handlerThrows hWaiting rfl
      simpa [hRequest, hThrows] using hNot
  | handlerRuns other hQueued hOther hReturns =>
      obtain rfl : request = other := Option.some.inj (hRequest.symm.trans hOther)
      by_cases hWaiting : s.downstream = .waiting
      · simp only [Stage, hWaiting] at hStage ⊢
        exact ⟨hStage.1, hStage.2.1, rfl⟩
      · exact stage_upstream hStage hWaiting _
  | handlerCompletes outcome hRunning =>
      apply stage_handlerCompletes hStage outcome
      intro hWaiting
      have hNot := hDerived.handlerFails hWaiting rfl
      have hFuture := hUpstream hWaiting
      rw [hRunning] at hFuture hNot
      rw [← show _ = program.handler request from hFuture]
      refine ⟨by simpa using hNot, ?_⟩
      cases outcome <;> rfl
  | errorHandlerThrows other thrown hFailed hOther hThrows =>
      obtain rfl : request = other := Option.some.inj (hRequest.symm.trans hOther)
      apply stage_errorHandler hStage
      · intro hWaiting
        have hFails := hUpstream hWaiting
        rwa [hFailed] at hFails
      · intro hWaiting
        have hNot := hDerived.errorHandlerThrows hWaiting rfl
        exact ⟨by simpa [hRequest, hThrows] using hNot, by simp [responseOf, hThrows]⟩
  | errorHandlerRuns other hFailed hOther hReturns =>
      obtain rfl : request = other := Option.some.inj (hRequest.symm.trans hOther)
      by_cases hWaiting : s.downstream = .waiting
      · have hFails := hUpstream hWaiting
        rw [hFailed] at hFails
        simp only [Stage, hWaiting] at hStage ⊢
        exact ⟨hStage.1, hStage.2.1, hFails, rfl⟩
      · exact stage_upstream hStage hWaiting _
  | errorHandlerCompletes outcome hRecovering =>
      apply stage_errorHandler hStage
      · intro hWaiting
        have hFails := hUpstream hWaiting
        rw [hRecovering] at hFails
        exact hFails.1
      · intro hWaiting
        have hNot := hDerived.errorHandlerFails hWaiting rfl
        have hFuture := hUpstream hWaiting
        rw [hRecovering] at hFuture hNot
        rw [← hFuture.2]
        refine ⟨by simpa using hNot, ?_⟩
        cases outcome <;> rfl
  | timeout hWaiting =>
      simp only [Stage, hWaiting] at hStage ⊢
      exact ⟨trivial, hStage.2.1⟩
  | timeoutHandlerThrows other thrown hExpired hOther hThrows =>
      obtain rfl : request = other := Option.some.inj (hRequest.symm.trans hOther)
      have hNot := hDerived.timeoutHandlerThrows rfl
      simp only [Stage, hExpired] at hStage ⊢
      refine ⟨hStage.2, by simpa [hRequest, hThrows] using hNot, ?_⟩
      simp [answer, settled, hStage.1, hThrows, responseOf]
  | timeoutHandlerRuns other hExpired hOther hReturns =>
      obtain rfl : request = other := Option.some.inj (hRequest.symm.trans hOther)
      simp only [Stage, hExpired] at hStage ⊢
      exact ⟨hStage.1, hStage.2, trivial, hReturns⟩
  | timeoutHandlerCompletes outcome hRecovering =>
      have hNot := hDerived.timeoutHandlerFails rfl
      rw [hRecovering] at hNot
      simp only [Stage, hRecovering] at hStage ⊢
      obtain ⟨hTimedOut, hSent, hFuture, _⟩ := hStage
      refine ⟨hSent, by simpa using hNot, ?_⟩
      cases outcome <;> simp [answer, settled, hTimedOut, ← hFuture, responseOf]
  | recover outcome hResolved =>
      simp only [Stage, hResolved] at hStage
      obtain ⟨hSent, hOther, hSettled⟩ := hStage
      cases outcome with
      | value response => exact ⟨hSent, hSettled⟩
      | failure thrown =>
          cases thrown with
          | std => exact ⟨hSent, hSettled⟩
          | other => exact absurd rfl hOther
  | sendResponse response hResponding =>
      simp only [Stage, hResponding] at hStage ⊢
      rw [hStage.1, hStage.2, List.nil_append]
  | onError hAlive => simpa [Stage] using hStage
  | requestComplete hAlive hSent => simpa [Stage] using hStage

theorem handlerCompletes_request (s : HTTPHandler) (outcome : Outcome) :
    (s.handlerCompletes outcome).request = s.request ∧
      (s.handlerCompletes outcome).message = s.message := by
  unfold handlerCompletes
  split <;> exact ⟨rfl, rfl⟩

theorem finalRecovery_request (s : HTTPHandler) (outcome : Outcome) :
    (s.finalRecovery outcome).request = s.request ∧
      (s.finalRecovery outcome).message = s.message := by
  unfold finalRecovery
  split <;> exact ⟨rfl, rfl⟩

/-- Once the request is complete, no step changes it: the transport delivers nothing
after the end of the message. -/
theorem step_request {request : HTTPRequest} (hRequest : s.request = some request)
    (hMessage : s.message = none) (h : step program s event = some t) :
    t.request = some request ∧ t.message = none := by
  cases step_cases h with
  | onRequest headers _ _ hNone => simp [hRequest] at hNone
  | onBody headers body _ hSome => simp [hMessage] at hSome
  | onEOM headers _ hSome => simp [hMessage] at hSome
  | handlerThrows other thrown =>
      exact ⟨(handlerCompletes_request s _).1.trans hRequest,
        (handlerCompletes_request s _).2.trans hMessage⟩
  | handlerCompletes outcome =>
      exact ⟨(handlerCompletes_request s _).1.trans hRequest,
        (handlerCompletes_request s _).2.trans hMessage⟩
  | recover outcome =>
      exact ⟨(finalRecovery_request s _).1.trans hRequest,
        (finalRecovery_request s _).2.trans hMessage⟩
  | _ => exact ⟨hRequest, hMessage⟩

/-- Only the timer sets its flag, and the end of the handler function does not. -/
theorem handlerCompletes_timedOut (s : HTTPHandler) (outcome : Outcome) :
    (s.handlerCompletes outcome).timedOut = s.timedOut := by
  unfold handlerCompletes
  split <;> rfl

theorem finalRecovery_timedOut (s : HTTPHandler) (outcome : Outcome) :
    (s.finalRecovery outcome).timedOut = s.timedOut := by
  unfold finalRecovery
  split <;> rfl

/-- No response is sent when the handler function ends. It is sent by the last step
of the chain, on the event base. -/
theorem handlerCompletes_sent (s : HTTPHandler) (outcome : Outcome) :
    (s.handlerCompletes outcome).sent = s.sent := by
  unfold handlerCompletes
  split <;> rfl

theorem finalRecovery_sent (s : HTTPHandler) (outcome : Outcome) :
    (s.finalRecovery outcome).sent = s.sent := by
  unfold finalRecovery
  split <;> rfl

/-- Nothing that was sent is taken back. -/
theorem step_sent (hSent : s.sent ≠ []) (h : step program s event = some t) : t.sent ≠ [] := by
  cases step_cases h with
  | handlerThrows other thrown => rwa [handlerCompletes_sent]
  | handlerCompletes outcome => rwa [handlerCompletes_sent]
  | recover outcome => rwa [finalRecovery_sent]
  | sendResponse response => simp
  | _ => exact hSent

/-- Before the request is complete, only the transport takes steps. The chain of
futures is made in `onEOM`. -/
theorem step_incomplete (hConsistent : Consistent program s) (hRequest : s.request = none)
    (hNoError : event ≠ .onError) (h : step program s event = some t) : Consistent program t := by
  obtain ⟨hUpstream, hDownstream, hSent, hTimedOut⟩ := hConsistent.incomplete hRequest
  cases step_cases h with
  | onRequest headers hAlive =>
      exact ⟨by simp [onRequest, hAlive], fun _ => ⟨hUpstream, hDownstream, hSent, hTimedOut⟩,
        by simp [onRequest, hRequest]⟩
  | onBody headers body hAlive =>
      exact ⟨by simp [onBody, hAlive], fun _ => ⟨hUpstream, hDownstream, hSent, hTimedOut⟩,
        by simp [onBody, hRequest]⟩
  | onEOM headers hAlive =>
      refine ⟨by simp [onEOM, hAlive], by simp [onEOM], ?_⟩
      intro request _
      exact ⟨rfl, hTimedOut, hSent, trivial⟩
  | onError hAlive => exact absurd rfl hNoError
  | requestComplete hAlive hNonempty => exact absurd hSent hNonempty
  | handlerThrows other thrown hQueued => simp [hUpstream] at hQueued
  | handlerRuns other hQueued => simp [hUpstream] at hQueued
  | handlerCompletes outcome hRunning => simp [hUpstream] at hRunning
  | errorHandlerThrows other thrown hFailed => simp [hUpstream] at hFailed
  | errorHandlerRuns other hFailed => simp [hUpstream] at hFailed
  | errorHandlerCompletes outcome hRecovering => simp [hUpstream] at hRecovering
  | timeout hWaiting => simp [hDownstream] at hWaiting
  | timeoutHandlerThrows other thrown hExpired => simp [hDownstream] at hExpired
  | timeoutHandlerRuns other hExpired => simp [hDownstream] at hExpired
  | timeoutHandlerCompletes outcome hRecovering => simp [hDownstream] at hRecovering
  | recover outcome hResolved => simp [hDownstream] at hResolved
  | sendResponse response hResponding => simp [hDownstream] at hResponding

/-- Every step keeps what is consistent, as long as failures derive from
`std::exception` and the transport reports no error. -/
theorem step_consistent (hConsistent : Consistent program s) (hDerived : Derived program s event)
    (hNoError : event ≠ .onError) (h : step program s event = some t) : Consistent program t := by
  cases hRequest : s.request with
  | none => exact step_incomplete hConsistent hRequest hNoError h
  | some request =>
      obtain ⟨hMessage, hStage⟩ := hConsistent.complete request hRequest
      obtain ⟨hSame, hNone⟩ := step_request hRequest hMessage h
      refine ⟨?_, by simp [hSame], ?_⟩
      · intro hDead
        have hAlive := step_alive h
        cases hLive : s.alive with
        | false => exact step_sent (hConsistent.alive hLive) h
        | true =>
            have hDeletes : event.deletes = true := by simpa [hDead, hLive] using hAlive.symm
            cases step_cases h with
            | onError => exact absurd rfl hNoError
            | requestComplete _ hSent => exact hSent
            | _ => cases hDeletes
      · intro other hOther
        obtain rfl : request = other := Option.some.inj (hSame.symm.trans hOther)
        exact ⟨hNone, stage_step hRequest hMessage hStage hDerived h⟩

/-- The timer has fired exactly if its event took place. -/
theorem step_timedOut (h : step program s event = some t) :
    t.timedOut = (s.timedOut || decide (event = .timeout)) := by
  cases step_cases h with
  | handlerThrows other thrown => simp [handlerCompletes_timedOut]
  | handlerCompletes outcome => simp [handlerCompletes_timedOut]
  | recover outcome => simp [finalRecovery_timedOut]
  | timeout => simp
  | _ => simp [onRequest, onBody, onEOM, settle]

/-- In a consistent state with nothing left to do, the response was sent. Wherever the
chain could stop earlier, a step is left. -/
theorem final_sent (hConsistent : Consistent program s)
    (hTimeout : ∀ request, program.router.getErrorHandler 503 request ≠ .never)
    (hFinal : ∀ event, event ≠ .onError → step program s event = none) :
    ∃ request, s.request = some request ∧ s.sent = [answer program request s.timedOut] := by
  cases hRequest : s.request with
  | none =>
      obtain ⟨_, _, hSent, _⟩ := hConsistent.incomplete hRequest
      have hLive : s.alive = true := by
        cases hAlive : s.alive with
        | true => rfl
        | false => exact absurd hSent (hConsistent.alive hAlive)
      cases hMessage : s.message with
      | none =>
          have hNot := hFinal (.onRequest ⟨none, [], []⟩) (by simp)
          simp [step, hLive, hMessage, hRequest] at hNot
      | some headers =>
          have hNot := hFinal .onEOM (by simp)
          simp [step, hLive, hMessage] at hNot
  | some request =>
      obtain ⟨_, hStage⟩ := hConsistent.complete request hRequest
      refine ⟨request, rfl, ?_⟩
      cases hDownstream : s.downstream with
      | unscheduled | skipped => simp [Stage, hDownstream] at hStage
      | sent => simpa only [Stage, hDownstream] using hStage
      | waiting =>
          have hNot := hFinal .timeout (by simp)
          simp [step, hDownstream] at hNot
      | expired =>
          have hNot := hFinal .startTimeoutHandler (by simp)
          simp [step, hDownstream, hRequest] at hNot
      | recovering response =>
          simp only [Stage, hDownstream] at hStage
          obtain ⟨_, _, hFuture, hReturns⟩ := hStage
          cases hResponse : response with
          | throws thrown => exact absurd hResponse (hReturns thrown)
          | never => exact absurd (hFuture.symm.trans hResponse) (hTimeout request)
          | completes outcome =>
              have hNot := hFinal .finishTimeoutHandler (by simp)
              simp [step, hDownstream, hResponse] at hNot
      | resolved outcome =>
          have hNot := hFinal .recover (by simp)
          simp [step, hDownstream] at hNot
      | responding response =>
          have hNot := hFinal .sendResponse (by simp)
          simp [step, hDownstream] at hNot

/-- At most one response has been sent. -/
theorem consistent_sent_length (hConsistent : Consistent program s) : s.sent.length ≤ 1 := by
  cases hRequest : s.request with
  | none => simp [(hConsistent.incomplete hRequest).2.2.1]
  | some request =>
      have hStage := (hConsistent.complete request hRequest).2
      cases hDownstream : s.downstream <;> simp_all [Stage]

/-- In a run without an error of the transport, in which every failure that
counts derives from `std::exception`, at most one response is sent, and when no
step is left the right one was. -/
theorem derived_run_sends_answer {events : List Event} {final : HTTPHandler}
    (run : Run (step program) (Derived program) create events final)
    (hNoError : Event.onError ∉ events)
    (hTimeout : ∀ request, program.router.getErrorHandler 503 request ≠ .never) :
    final.sent.length ≤ 1 ∧
      ((∀ event, event ≠ .onError → step program final event = none) →
        ∃ request, final.request = some request ∧
          final.sent = [answer program request (decide (Event.timeout ∈ events))]) := by
  have hRun := run.strengthen (· ≠ .onError) fun event hMem hEvent => hNoError (hEvent ▸ hMem)
  have hConsistent : Consistent program final :=
    hRun.invariant (Consistent program) (create_consistent program)
      fun _ _ _ hOld hAllowed hStep => step_consistent hOld hAllowed.1 hAllowed.2 hStep
  have hTimer := run.flag_iff timedOut (fun event => decide (event = .timeout)) fun _ _ _ => step_timedOut
  have hFired : final.timedOut = decide (Event.timeout ∈ events) := by
    rw [hTimer, create, Bool.false_or, Bool.eq_iff_iff]
    simp only [List.any_eq_true, decide_eq_true_eq, exists_eq_right]
  exact ⟨consistent_sent_length hConsistent, hFired ▸ final_sent hConsistent hTimeout⟩

/-- The state after a request that was answered and completed. -/
def answered (response : HTTPResponse) : HTTPHandler :=
  ⟨none, IOBuf.create, some ⟨⟨none, [], []⟩, IOBuf.create⟩, .done (.value response), .sent, false,
    false, [response]⟩

/-- A program that answers 201 to every request, in the run without a timeout. -/
theorem derived_run_sends_answer_example :
    ∃ request, (answered (HTTPResponse.ofStatus 201)).request = some request ∧
      (answered (HTTPResponse.ofStatus 201)).sent =
        [answer (answering (HTTPResponse.ofStatus 201).future) request false] := by
  have hRun : Run (step (answering (HTTPResponse.ofStatus 201).future))
      (Derived (answering (HTTPResponse.ofStatus 201).future)) create
      [.onRequest ⟨none, [], []⟩, .onEOM, .startHandler, .finishHandler, .recover, .sendResponse,
        .requestComplete] (answered (HTTPResponse.ofStatus 201)) := Run.of_execute rfl
  have hFinal : ∀ event, event ≠ Event.onError →
      step (answering (HTTPResponse.ofStatus 201).future)
        (answered (HTTPResponse.ofStatus 201)) event = none := by
    intro event hNot
    cases event <;> rfl
  exact (derived_run_sends_answer hRun (by decide) (fun _ h => by cases h)).2 hFinal

/-- A failure that does not derive from `std::exception` passes every recovery,
and the request is never answered. -/
theorem other_failure_is_not_answered :
    ∃ final, Run (step (answering (.completes (.failure .other)))) (fun _ _ => True) create
        [.onRequest ⟨none, [], []⟩, .onEOM, .startHandler, .finishHandler, .recover] final ∧
      final.sent = [] ∧ ∀ event, event ≠ .onError →
        step (answering (.completes (.failure .other))) final event = none := by
  refine ⟨⟨none, IOBuf.create, some ⟨⟨none, [], []⟩, IOBuf.create⟩, .done (.failure .other),
    .skipped, true, false, []⟩, Run.of_execute rfl, rfl, ?_⟩
  intro event hNot
  cases event with
  | onError => exact absurd rfl hNot
  | _ => rfl

end HTTPHandler

end Nozomi
