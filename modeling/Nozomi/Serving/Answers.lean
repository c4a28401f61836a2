import Nozomi.Handling.Responses
import Nozomi.Handling.StreamingDelivery
import Nozomi.Routing.HandlerCreation
import Nozomi.Serving.Service

/-! What each request is answered, whatever the other requests do. The route that
dispatch selects and the timer decide, and nothing is sent but one whole response. -/
namespace Nozomi

open Text Execution

/-- Every failure of a call derives from `std::exception`. -/
def Future.Derived (response : Future) : Prop :=
  response ≠ .throws .other ∧ response ≠ .completes (.failure .other)

/-- The specification of a response: the functions that are asked for one, in
their order, and a fixed one if they all fail. -/
def respond (errorRoutes : Int32 → Option Handler) (handler : Handler) (request : HTTPRequest)
    (timedOut : Bool) : HTTPResponse :=
  let asked := if timedOut then [Router.errorAnswer errorRoutes 503]
    else [handler, Router.errorAnswer errorRoutes 500]
  (asked.findSome? fun function => HTTPHandler.responseOf (function request)).getD
    HTTPHandler.unknownError

/-- A response on the wire. -/
def HTTPResponse.emissions (response : HTTPResponse) : List Emission :=
  [.headers response.statusCode response.headers, .body response.body, .eom]

namespace HTTPHandler

variable {program : Program} {s t : HTTPHandler} {event : Event}

/-- The functions that a handler calls fail only with what derives from
`std::exception`. -/
structure Regular (program : Program) : Prop where
  handler : ∀ request, (program.handler request).Derived
  errorHandler : ∀ request, (program.router.getErrorHandler 500 request).Derived
  timeoutHandler : ∀ request, (program.router.getErrorHandler 503 request).Derived

/-- A stage knows which call every future in it comes from, and the functions that
were called only fail with exceptions derived from `std::exception`. -/
theorem derived_of_regular (hRegular : Regular program) (hConsistent : Consistent program s) :
    Derived program s event := by
  have hPending : s.downstream = .waiting → ∃ request, Pending program request s.upstream := by
    intro hWaiting
    cases hRequest : s.request with
    | none => simp [(hConsistent.incomplete hRequest).2.1] at hWaiting
    | some request =>
        have hStage := (hConsistent.complete request hRequest).2
        simp only [Stage, hWaiting] at hStage
        exact ⟨request, hStage.2.2⟩
  have hThrows : ∀ function : Handler, (∀ request, (function request).Derived) →
      s.request.map function ≠ some (.throws .other) := by
    intro function hFunction hSome
    obtain ⟨request, _, hEq⟩ := Option.map_eq_some_iff.mp hSome
    exact (hFunction request).1 hEq
  constructor
  · intro _ _
    exact hThrows program.handler hRegular.handler
  · intro hWaiting _ hRunning
    obtain ⟨request, hFuture⟩ := hPending hWaiting
    rw [hRunning] at hFuture
    exact (hRegular.handler request).2 hFuture.symm
  · intro _ _
    exact hThrows _ hRegular.errorHandler
  · intro hWaiting _ hRecovering
    obtain ⟨request, hFuture⟩ := hPending hWaiting
    rw [hRecovering] at hFuture
    exact (hRegular.errorHandler request).2 hFuture.2.symm
  · intro _
    exact hThrows _ hRegular.timeoutHandler
  · intro _ hRecovering
    cases hRequest : s.request with
    | none => simp [(hConsistent.incomplete hRequest).2.1] at hRecovering
    | some request =>
        have hStage := (hConsistent.complete request hRequest).2
        simp only [Stage, hRecovering] at hStage
        exact (hRegular.timeoutHandler request).2 hStage.2.2.1.symm

theorem handlerCompletes_body (s : HTTPHandler) (outcome : Outcome) :
    (s.handlerCompletes outcome).body = s.body := by
  unfold handlerCompletes
  split <;> rfl

theorem finalRecovery_body (s : HTTPHandler) (outcome : Outcome) :
    (s.finalRecovery outcome).body = s.body := by
  unfold finalRecovery
  split <;> rfl

/-- The body grows by the pieces that the transport delivers, and by nothing else. -/
theorem step_body (h : step program s event = some t) :
    t.body = event.body.elim s.body s.body.prependChain := by
  cases step_cases h with
  | handlerThrows request thrown => exact handlerCompletes_body s _
  | handlerCompletes outcome => exact handlerCompletes_body s _
  | recover outcome => exact finalRecovery_body s _
  | _ => rfl

/-- A message is being received, or it has become a request with the whole body. -/
def Collected (message : HTTPMessage) (s : HTTPHandler) : Prop :=
  s.message = some message ∧ s.request = none ∨ s.request = some ⟨message, s.body⟩ ∧ s.message = none

/-- A step keeps the message as it was received, and the body as it was collected. -/
theorem step_collected {message : HTTPMessage} (hCollected : Collected message s)
    (h : step program s event = some t) : Collected message t := by
  cases hCollected with
  | inl hOpen =>
      obtain ⟨hMessage, hRequest⟩ := hOpen
      cases step_cases h with
      | onRequest headers _ hNone => simp [hMessage] at hNone
      | onEOM headers _ hSome =>
          obtain rfl : message = headers := Option.some.inj (hMessage.symm.trans hSome)
          exact Or.inr ⟨rfl, rfl⟩
      | handlerThrows | handlerCompletes =>
          exact Or.inl ⟨(handlerCompletes_request s _).2.trans hMessage,
            (handlerCompletes_request s _).1.trans hRequest⟩
      | recover outcome =>
          exact Or.inl ⟨(finalRecovery_request s _).2.trans hMessage,
            (finalRecovery_request s _).1.trans hRequest⟩
      | _ => exact Or.inl ⟨hMessage, hRequest⟩
  | inr hClosed =>
      obtain ⟨hRequest, hMessage⟩ := hClosed
      obtain ⟨hSame, hNone⟩ := step_request hRequest hMessage h
      have hBody : t.body = s.body := by
        cases step_cases h with
        | onBody headers body _ hSome => simp [hMessage] at hSome
        | _ => exact step_body h
      exact Or.inr ⟨by rw [hSame, hBody], hNone⟩

theorem run_collected {allowed : HTTPHandler → Event → Prop} {message : HTTPMessage}
    {events : List Event} (run : Run (step program) allowed (create.onRequest message) events s) :
    Collected message s :=
  run.invariant (Collected message) (Or.inl ⟨rfl, rfl⟩) fun _ _ _ hOld _ => step_collected hOld

/-- What a response makes the builder emit is the response: its headers in their
order, the body where there is one, and the end of the message. -/
theorem sendResponse_emitted (response : HTTPResponse) :
    ((sendResponse response).foldl ResponseBuilder.call .empty).emitted = response.emissions := by
  rw [sendResponse, List.cons_append, List.foldl_cons, List.foldl_append]
  refine (congrArg (fun builder => ResponseBuilder.emitted (List.foldl ResponseBuilder.call builder
    [.body response.getBody, .sendWithEOM]))
      (ResponseBuilder.foldl_header response.headers [] response.statusCode none [])).trans ?_
  rfl

/-- The body of a run is put together in the order of its pieces. -/
theorem run_body {allowed : HTTPHandler → Event → Prop} {events : List Event}
    (run : Run (step program) allowed s events t) :
    t.body = (events.filterMap Event.body).foldl IOBuf.prependChain s.body := by
  rw [run.fold_eq body (fun data event => event.body.elim data data.prependChain)
    fun _ _ _ => step_body, List.foldl_filterMap]
  congr 1
  funext data event
  cases event.body <;> rfl

/-- The request that a handler is called with has the message and the whole body. -/
theorem run_request {allowed : HTTPHandler → Event → Prop} {message : HTTPMessage}
    {events : List Event} (run : Run (step program) allowed (create.onRequest message) events s)
    {request : HTTPRequest} (h : s.request = some request) : request = ⟨message, s.body⟩ := by
  rcases run_collected run with ⟨_, hNone⟩ | ⟨hSome, _⟩
  · simp [hNone] at h
  · exact Option.some.inj (h.symm.trans hSome)

/-- What the stages say about the responses sent: none before the last step of the
chain, and the right one after it. -/
theorem consistent_sent {request : HTTPRequest} (hConsistent : Consistent program s)
    (hRequest : s.request = some request) : s.sent = [] ∨ s.sent = [answer program request s.timedOut] := by
  have hStage := (hConsistent.complete request hRequest).2
  cases hDownstream : s.downstream with
  | unscheduled | skipped => simp [Stage, hDownstream] at hStage
  | waiting | recovering response =>
      simp only [Stage, hDownstream] at hStage
      exact Or.inl hStage.2.1
  | expired =>
      simp only [Stage, hDownstream] at hStage
      exact Or.inl hStage.2
  | resolved outcome | responding response =>
      simp only [Stage, hDownstream] at hStage
      exact Or.inl hStage.1
  | sent =>
      simp only [Stage, hDownstream] at hStage
      exact Or.inr hStage

/-- The answer of a program with one handler is the response that the router would
choose. -/
theorem respond_eq_answer (router : Router) (handler : Handler) (request : HTTPRequest)
    (timedOut : Bool) :
    answer ⟨handler, router⟩ request timedOut = respond router.errorRoutes handler request timedOut := by
  simp only [answer, respond, Router.getErrorHandler_eq]
  cases timedOut with
  | true =>
      simp only [if_true, List.findSome?_cons, List.findSome?_nil]
      cases responseOf (Router.errorAnswer router.errorRoutes 503 request) <;> rfl
  | false =>
      simp only [Bool.false_eq_true, if_false, List.findSome?_cons, List.findSome?_nil]
      cases responseOf (handler request) with
      | some response => rfl
      | none => cases responseOf (Router.errorAnswer router.errorRoutes 500 request) <;> rfl

/-- What holds of a handler after any run without an error of the transport. -/
theorem run_consistent {message : HTTPMessage} {events : List Event} (hRegular : Regular program)
    (run : Run (step program) (fun _ _ => True) (create.onRequest message) events s)
    (hNoError : .onError ∉ events) : Consistent program s ∧ s.timedOut = decide (.timeout ∈ events) := by
  have hRun := run.strengthen (· ≠ .onError) fun event hMem hEvent => hNoError (hEvent ▸ hMem)
  have hTimer := run.flag_iff timedOut (fun event => decide (event = .timeout)) fun _ _ _ => step_timedOut
  constructor
  · apply hRun.invariant (Consistent program)
    · exact ⟨by simp [create, onRequest], fun _ => ⟨rfl, rfl, rfl, rfl⟩, by simp [create, onRequest]⟩
    · intro s event t hOld hAllowed hStep
      exact step_consistent hOld (derived_of_regular hRegular hOld) hAllowed.2 hStep
  · rw [hTimer, create, onRequest, Bool.false_or, Bool.eq_iff_iff]
    simp only [List.any_eq_true, decide_eq_true_eq, exists_eq_right]

/-- What a handler has sent is nothing, or the answer to the request with the
body that it received; and it is the answer if nothing is left to do. -/
theorem run_emissions {message : HTTPMessage} {events : List Event} (hRegular : Regular program)
    (hTimeout : ∀ request, program.router.getErrorHandler 503 request ≠ .never)
    (run : Run (step program) (fun _ _ => True) (create.onRequest message) events s)
    (hNoError : .onError ∉ events) :
    let response := answer program
      ⟨message, (events.filterMap Event.body).foldl IOBuf.prependChain IOBuf.create⟩
      (decide (.timeout ∈ events))
    (s.emissions = [] ∨ s.emissions = response.emissions) ∧
      ((∀ event, event ≠ .onError → step program s event = none) →
        s.emissions = response.emissions) := by
  obtain ⟨hConsistent, hTimer⟩ := run_consistent hRegular run hNoError
  have hBody : s.body = (events.filterMap Event.body).foldl IOBuf.prependChain IOBuf.create := run_body run
  have hComplete : ∀ request, s.request = some request → request = ⟨message, s.body⟩ :=
    fun _ => run_request run
  have hNothing : s.sent = [] → s.emissions = [] := by
    intro hSent
    rw [emissions, hSent, List.flatMap_nil]
  have hAnswer : ∀ response, s.sent = [response] → s.emissions = response.emissions := by
    intro response hSent
    rw [emissions, hSent, List.flatMap_singleton, sendResponse_emitted]
  rw [← hBody, ← hTimer]
  constructor
  · cases hRequest : s.request with
    | none => exact Or.inl (hNothing (hConsistent.incomplete hRequest).2.2.1)
    | some request =>
        rw [← hComplete request hRequest]
        exact (consistent_sent hConsistent hRequest).imp hNothing (hAnswer _)
  · intro hFinal
    obtain ⟨request, hRequest, hSent⟩ := final_sent hConsistent hTimeout hFinal
    rw [← hComplete request hRequest]
    exact hAnswer _ hSent

end HTTPHandler

namespace Service

variable {ι τ σ ε : Type} [DecidableEq ι] {streaming : Streaming τ σ ε} {requestTimeout : Nat}
  {errorRoutes : Int32 → Option Handler} {routes : List BaseRoute}
  {events : List (ι × Exchange.Event τ ε)} {final : Service ι σ}

/-- The handler of a request has gone through a run of its own. None of its steps ends
the program. -/
theorem handler_run {i : ι} {message : HTTPMessage} {extra : τ} {program : HTTPHandler.Program}
    {first : HTTPHandler} {factory : HTTPHandlerFactory} (run : Serves streaming factory events final)
    (hReceived : (i, .receive message extra) ∈ events)
    (hMade : Exchange.receive streaming factory message extra = .ok (.handled program first)) :
    ∃ own last, eventsOf i events = .receive message extra :: own.map .handle ∧
      final.each i = .handled program last ∧
      Run (HTTPHandler.step program) (fun _ _ => True) first own last := by
  obtain ⟨all, hRun, hEvents⟩ := run.request hReceived hMade
  obtain ⟨own, last, rfl, hLast, hOwn⟩ := Exchange.handled_run hRun
  rcases hEvents with hAll | ⟨event, thrown, _, hThrown⟩
  · exact ⟨own, last, hAll, hLast, hOwn⟩
  · rw [hLast] at hThrown
    cases Exchange.fails_cases hThrown

/-- The handler that dispatch selects is made for the message. -/
theorem receive_dispatched {message : HTTPMessage} (extra : τ) {handler : Handler}
    (answer : BaseRoute → RouteMatch) (hAnswer : ∀ route ∈ routes, route.handler message = .ok (answer route))
    (hDispatch : (Router.dispatch answer errorRoutes routes).handler = some handler) :
    Exchange.receive streaming ⟨requestTimeout, .create errorRoutes routes⟩ message extra =
      .ok (.handled ⟨handler, .create errorRoutes routes⟩ (HTTPHandler.create.onRequest message)) := by
  rw [Exchange.receive, HTTPHandlerFactory.onRequest,
    Router.getHandler_dispatch errorRoutes routes answer hAnswer]
  simp only [Bind.bind, Except.bind, createHandler, hDispatch]
  rfl

/-- A request without an error of its transport is answered with one whole
response at most, at any moment of any run. Once there is nothing left for it to
do it has been answered, with the response that its route or the timer asks for
and the body that was received for it. -/
theorem serves_answers {i : ι} {message : HTTPMessage} {extra : τ} {handler : Handler}
    (answer : BaseRoute → RouteMatch)
    (run : Serves streaming ⟨requestTimeout, .create errorRoutes routes⟩ events final)
    (hReceived : (i, .receive message extra) ∈ events)
    (hNoError : (i, .handle .onError) ∉ events)
    (hAnswer : ∀ route ∈ routes, route.handler message = .ok (answer route))
    (hDispatch : (Router.dispatch answer errorRoutes routes).handler = some handler)
    (hHandler : ∀ request, (handler request).Derived)
    (hErrorHandler : ∀ request, (Router.errorAnswer errorRoutes 500 request).Derived)
    (hTimeoutHandler : ∀ request, (Router.errorAnswer errorRoutes 503 request).Derived ∧
      Router.errorAnswer errorRoutes 503 request ≠ .never) :
    let response := respond errorRoutes handler ⟨message, bodyOf i events⟩ (timedOut i events)
    ((final.each i).emissions streaming = [] ∨
        (final.each i).emissions streaming = response.emissions) ∧
      ((∀ event, event ≠ .handle .onError →
          Exchange.step streaming ⟨requestTimeout, .create errorRoutes routes⟩ (final.each i) event = none) →
        (final.each i).emissions streaming = response.emissions) := by
  obtain ⟨own, last, hEvents, hLast, hRun⟩ :=
    handler_run run hReceived (receive_dispatched extra answer hAnswer hDispatch)
  have hOwn : .onError ∉ own := by
    intro hMem
    apply hNoError
    rw [← mem_eventsOf, hEvents]
    exact List.mem_cons_of_mem _ (List.mem_map_of_mem hMem)
  have hTimer : timedOut i events = decide (.timeout ∈ own) := by
    rw [timedOut, hEvents, Exchange.Event.any_timeout_handled]
  have hBody : bodyOf i events =
      (own.filterMap HTTPHandler.Event.body).foldl IOBuf.prependChain IOBuf.create := by
    rw [bodyOf, hEvents, Exchange.Event.bodies_handled]
  have hErrorRoutes : (Router.create errorRoutes routes).errorRoutes = errorRoutes := by
    rw [Router.create_eq]
  have hCalls : ∀ statusCode, (Router.create errorRoutes routes).getErrorHandler statusCode =
      Router.errorAnswer errorRoutes statusCode := by
    intro statusCode
    rw [Router.getErrorHandler_eq, hErrorRoutes]
  have hRegular : HTTPHandler.Regular ⟨handler, .create errorRoutes routes⟩ :=
    ⟨hHandler, fun request => hCalls 500 ▸ hErrorHandler request,
      fun request => hCalls 503 ▸ (hTimeoutHandler request).1⟩
  obtain ⟨hOne, hFinal⟩ := HTTPHandler.run_emissions hRegular
    (fun request => hCalls 503 ▸ (hTimeoutHandler request).2) hRun hOwn
  rw [HTTPHandler.respond_eq_answer, hErrorRoutes, ← hBody, ← hTimer] at hOne hFinal
  rw [hLast]
  refine ⟨hOne, fun hStuck => hFinal ?_⟩
  intro event hNot
  exact Option.map_eq_none_iff.mp (hStuck (.handle event) (by simpa using hNot))

/-- A route that sends the body of a request back. -/
def echo : BaseRoute where
  isStaticRoute := true
  handler := StaticRoute.handler uriDecoder
    ⟨ascii "/", [.get], .future fun request _ => HTTPResponse.future ⟨200, [], request.body⟩⟩

/-- A server without streaming handlers. -/
def noStreaming : Streaming Unit Empty Empty := ⟨fun _ _ _ _ => .error .other, fun _ _ => none, fun _ => []⟩

/-- Two requests that take turns. The second one times out before its handler runs. -/
def takingTurns : List (Bool × Exchange.Event Unit Empty) :=
  [(true, .receive ⟨some .get, ascii "/", []⟩ ()), (false, .receive ⟨some .get, ascii "/", []⟩ ()),
    (true, .handle (.onBody ⟨ascii "a", []⟩)), (false, .handle .onEOM),
    (true, .handle (.onBody ⟨ascii "b", []⟩)), (true, .handle .onEOM), (false, .handle .timeout),
    (true, .handle .startHandler), (false, .handle .startHandler), (true, .handle .finishHandler),
    (true, .handle .recover), (false, .handle .startTimeoutHandler), (true, .handle .sendResponse),
    (true, .handle .requestComplete)]

/-- Two requests that take turns. The body of the second one arrives in two pieces,
and is sent back. -/
theorem serves_answers_example : ∃ final,
    Serves noStreaming ⟨1000, .create (fun _ => none) [echo]⟩ takingTurns final ∧
      (final.each true).emissions noStreaming =
        [.headers 200 [], .body ⟨[], [ascii "a", ascii "b"]⟩, .eom] := by
  have hRun : ∃ final, Serves noStreaming ⟨1000, .create (fun _ => none) [echo]⟩ takingTurns final ∧
      ∀ event, event ≠ .handle .onError →
        Exchange.step noStreaming ⟨1000, .create (fun _ => none) [echo]⟩ (final.each true) event = none := by
    refine ⟨_, Run.of_execute rfl, ?_⟩
    intro event hNot
    cases event with
    | receive message extra => rfl
    | handle event =>
        cases event with
        | onError => exact absurd rfl hNot
        | _ => rfl
    | stream event => cases event
  obtain ⟨final, hServes, hFinal⟩ := hRun
  refine ⟨final, hServes, ?_⟩
  have hReceived : (true, .receive ⟨some .get, ascii "/", []⟩ ()) ∈ takingTurns := by decide
  have hEcho : ∀ route ∈ [echo], route.handler ⟨some .get, ascii "/", []⟩ =
      .ok (.ofHandler .routeMatched fun request => HTTPResponse.future ⟨200, [], request.body⟩) := by
    intro route hMem
    obtain rfl := List.mem_singleton.mp hMem
    rfl
  exact (serves_answers
    (fun _ => .ofHandler .routeMatched fun request => HTTPResponse.future ⟨200, [], request.body⟩)
    hServes hReceived (by decide) hEcho rfl
    (fun request => by simp [HTTPResponse.future, Future.Derived])
    (fun request => by simp [Router.errorAnswer, Future.Derived])
    (fun request => by simp [Router.errorAnswer, Future.Derived])).2 hFinal

end Service

end Nozomi
