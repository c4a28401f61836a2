import Nozomi.Handling.TransferResponse
import Nozomi.Serving.Answers
import Nozomi.Serving.Program

/-! What the example program answers. Its requests take their steps in any order, and
each of them gets the response that it would get alone. -/
namespace Nozomi

open Text Filesystem Execution RouteParsing

namespace FileTransfer

variable {fs : FileSystem} {handler : StreamingFileHandler}
  {allocator : Allocator handler.readBufferSize} {s t : FileTransfer} {event : Event}

/-- An answer without a body queues its headers and the end of the message. -/
theorem queued_answer (transfer : FileTransfer) (statusCode : Int16) :
    (transfer.answer statusCode).queued =
      transfer.queued ++ [.sendResponseHeaders (HTTPResponse.ofStatus statusCode), .sendEOF] := by
  rw [answer, queued_call, queued_call]
  simp [StreamingHTTPHandler.sendResponseHeaders, StreamingHTTPHandler.sendEOF,
    StreamingHTTPHandler.runInEventBaseThread]

theorem planned_answer (statusCode : Int16) (fuel : Nat) :
    planned fs allocator (waiting.answer statusCode) fuel =
      some [.sendResponseHeaders (HTTPResponse.ofStatus statusCode), .sendEOF] := by
  rw [planned, queued_answer]
  rfl

/-- What `onEOM` sends on one thread is what it leaves planned for two. -/
theorem onEOM_planned (hBase : handler.base = .create) (fuel : Nat) :
    StreamingFileHandler.onEOM fs handler allocator fuel = (waiting.onEOM fs handler).map fun transfer =>
      (planned fs allocator transfer fuel).map fun tasks => ⟨true, tasks⟩ := by
  cases hRegular : fs.isRegularFile handler.path with
  | error thrown => simp only [StreamingFileHandler.onEOM, onEOM, hRegular, Bind.bind, Except.bind, Except.map]
  | ok regular =>
      cases regular with
      | false =>
          have hLeft : waiting.onEOM fs handler = .ok (waiting.answer 404) := by
            rw [onEOM, hRegular]
            rfl
          rw [hLeft, StreamingFileHandler.onEOM, hRegular, hBase, Except.map, planned_answer]
          rfl
      | true =>
          cases hModified : StreamingFileHandler.notModified fs handler with
          | true =>
              have hLeft : waiting.onEOM fs handler = .ok (waiting.answer 304) := by
                rw [onEOM, hRegular, hModified]
                rfl
              rw [hLeft, StreamingFileHandler.onEOM, hRegular, hModified, hBase, Except.map, planned_answer]
              rfl
          | false =>
              have hLeft : waiting.onEOM fs handler = .ok start := by
                rw [onEOM, hRegular, hModified]
                rfl
              rw [hLeft, onEOM_plan hBase hRegular hModified, Except.map, planned_start]

/-- A handler that waits for the end of its message does nothing by itself. -/
theorem step_waiting (h : event ≠ .onError) : step fs handler allocator waiting event = none := by
  cases event with
  | onError => exact absurd rfl h
  | requestComplete => simp [step, waiting, start, ResponseBuilder.empty]
  | _ => rfl

/-- Nothing has been emitted when `onEOM` returns, in any of the three ways that it
can take. -/
theorem onEOM_traced (h : waiting.onEOM fs handler = .ok t) :
    Traced fs allocator (planned fs allocator t) t [] 0 := by
  have hAnswer : ∀ statusCode, Traced fs allocator
      (planned fs allocator (waiting.answer statusCode)) (waiting.answer statusCode) [] 0 := by
    intro statusCode
    exact ⟨fun _ => Option.map_id'.symm, rfl, fun _ => rfl⟩
  cases hRegular : fs.isRegularFile handler.path with
  | error thrown =>
      rw [onEOM, hRegular] at h
      cases h
  | ok regular =>
      obtain ⟨_, _, h⟩ := (Throws.bind_eq_ok_iff _ _ _).mp h
      split_ifs at h
      · obtain rfl := Except.ok.inj h
        exact hAnswer 404
      · obtain rfl := Except.ok.inj h
        exact hAnswer 304
      · obtain rfl := Except.ok.inj h
        exact traced_start

end FileTransfer

namespace FileRequest

variable {fs : FileSystem} {allocator : ∀ size, Allocator size} {t : FileRequest} {events : List Event}

/-- The event in which the transport reports an error. -/
def Event.isError : Event → Bool
  | .transfer .onError => true
  | _ => false

/-- After the end of its message, a file handler goes through a run of its own. -/
theorem received_run {handler : StreamingFileHandler} {transfer : FileTransfer}
    (run : Run (succeeds (step fs allocator)) (fun _ _ => True) ⟨handler, true, transfer⟩ events t) :
    ∃ own last, events = own.map .transfer ∧ t = ⟨handler, true, last⟩ ∧
      Run (FileTransfer.step fs handler (allocator _)) (fun _ _ => True) transfer own last := by
  refine run.within (FileRequest.mk handler true) Event.transfer ?_
  intro transfer event t hStep
  cases step_cases (succeeds_eq_some.mp hStep) with
  | onEOM hWaiting => cases hWaiting
  | transfer hNext => exact ⟨_, _, rfl, hNext, rfl⟩

/-- Before the end of its message, nothing but an error can happen to a file request. -/
theorem waiting_step {handler : StreamingFileHandler} {event : Event} (hNoError : event.isError = false)
    (h : step fs allocator ⟨handler, false, .waiting⟩ event = some (.ok t)) :
    event = .onEOM ∧ ∃ transfer, FileTransfer.waiting.onEOM fs handler = .ok transfer ∧
      t = ⟨handler, true, transfer⟩ := by
  cases step_cases h with
  | onEOM _ hLeft => exact ⟨rfl, _, hLeft, rfl⟩
  | @transfer _ event hStep =>
      have hNot : event ≠ .onError := by
        rintro rfl
        cases hNoError
      rw [FileTransfer.step_waiting hNot] at hStep
      cases hStep

/-- A file handler sends what its `onEOM` sends on one thread. What it has emitted is
always the beginning of it. -/
theorem answers {handler : StreamingFileHandler} (hBase : handler.base = .create) {fuel : Nat}
    {sent : StreamingHTTPHandler}
    (hSent : StreamingFileHandler.onEOM fs handler (allocator _) fuel = .ok (some sent))
    (run : Run (succeeds (step fs allocator)) (fun _ _ => True) ⟨handler, false, .waiting⟩ events t)
    (hNoError : ∀ event ∈ events, event.isError = false) :
    t.transfer.responseBuilder.emitted <+: sent.emissions ∧
      ((∀ event : Event, event.isError = false → step fs allocator t event = none) →
        t.transfer.responseBuilder.emitted = sent.emissions) := by
  rw [FileTransfer.onEOM_planned hBase] at hSent
  obtain ⟨transfer, hLeft, hTasks⟩ : ∃ transfer, FileTransfer.waiting.onEOM fs handler =
      .ok transfer ∧ FileTransfer.planned fs (allocator _) transfer fuel = some sent.evb := by
    cases hLeft : FileTransfer.waiting.onEOM fs handler with
    | error thrown =>
        rw [hLeft] at hSent
        cases hSent
    | ok transfer =>
        rw [hLeft] at hSent
        obtain ⟨tasks, hTasks, rfl⟩ := Option.map_eq_some_iff.mp (Except.ok.inj hSent)
        exact ⟨transfer, rfl, hTasks⟩
  rw [StreamingHTTPHandler.emissions_eq]
  cases run with
  | nil =>
      refine ⟨List.nil_prefix, fun hStuck => ?_⟩
      have hNot := hStuck .onEOM rfl
      cases hNot
  | cons _ first rest =>
      obtain ⟨rfl, begun, hBegun, rfl⟩ :=
        waiting_step (hNoError _ (List.mem_cons_self ..)) (succeeds_eq_some.mp first)
      obtain rfl := Except.ok.inj (hBegun.symm.trans hLeft)
      obtain ⟨own, last, rfl, rfl, hRun⟩ := received_run rest
      obtain ⟨done, used, hTraced⟩ := FileTransfer.run_traced hRun (FileTransfer.onEOM_traced hLeft)
      refine ⟨hTraced.emitted_prefix hTasks, fun hStuck => ?_⟩
      have hOwn : ∀ event : FileTransfer.Event, event.fromTransport = false →
          FileTransfer.step fs handler (allocator _) last event = none := by
        intro event hQuiet
        have hNoError : (Event.transfer event).isError = false := by
          cases event <;> first | rfl | cases hQuiet
        exact Option.map_eq_none_iff.mp (hStuck (.transfer event) hNoError)
      obtain ⟨hFinished, hEvb⟩ := FileTransfer.finished_of_stuck hOwn
      exact hTraced.emitted_all hTasks hFinished hEvb

end FileRequest

namespace SimpleServer

/-- The events in which the transport reports an error. -/
def isError : Exchange.Event Tm FileRequest.Event → Bool
  | .handle .onError => true
  | .stream event => event.isError
  | _ => false

/-- The functions of the program only fail with exceptions that derive from
`std::exception`. -/
theorem derived_future (response : HTTPResponse) : response.future.Derived := by
  simp [HTTPResponse.future, Future.Derived]

/-- A function that always returns a response is asked for it, or the timer is. The
derived run says that one of them is sent. -/
theorem always_answers {router : Router} (hRouter : router.errorRoutes = fun _ => none)
    {response : HTTPResponse} {message : HTTPMessage} {own : List HTTPHandler.Event} {last : HTTPHandler}
    (run : Run (HTTPHandler.step ⟨fun _ => response.future, router⟩) (fun _ _ => True)
      (HTTPHandler.create.onRequest message) own last)
    (hNoError : HTTPHandler.Event.onError ∉ own) :
    let whole := (respond (fun _ => none) (fun _ => response.future)
      ⟨message, (own.filterMap HTTPHandler.Event.body).foldl IOBuf.prependChain IOBuf.create⟩
      (decide (.timeout ∈ own))).emissions
    last.emissions <+: whole ∧
      ((∀ event : HTTPHandler.Event, event ≠ .onError →
          HTTPHandler.step ⟨fun _ => response.future, router⟩ last event = none) → last.emissions = whole) := by
  have hErrors : ∀ statusCode request, router.getErrorHandler statusCode request =
      (HTTPResponse.ofStatus statusCode.toInt16).future := by
    intro statusCode request
    rw [Router.getErrorHandler, hRouter]
  have hRegular : HTTPHandler.Regular ⟨fun _ => response.future, router⟩ :=
    ⟨fun _ => derived_future response, fun request => hErrors 500 request ▸ derived_future _,
      fun request => hErrors 503 request ▸ derived_future _⟩
  have hTimeout : ∀ request, router.getErrorHandler 503 request ≠ .never := by
    intro request
    rw [hErrors]
    simp [HTTPResponse.future]
  obtain ⟨hOne, hFinal⟩ := HTTPHandler.run_emissions hRegular hTimeout run hNoError
  rw [HTTPHandler.respond_eq_answer, hRouter] at hOne hFinal
  refine ⟨?_, hFinal⟩
  cases hOne with
  | inl hNothing =>
      rw [hNothing]
      exact List.nil_prefix
  | inr hAll => exact hAll ▸ List.prefix_refl _

/-- Where the program answers with a function, the response does not depend on the
request. -/
theorem serve_always {method : HTTPMethod} {path : Bytes} {requestTimeout : Nat} {handler : Handler}
    (h : serve method path = .httpHandler requestTimeout handler) :
    ∃ response : HTTPResponse, handler = fun _ => response.future := by
  unfold serve always at h
  split_ifs at h <;> exact ⟨_, (RequestHandler.httpHandler.inj h).2.symm⟩

/-- The whole response that a request is to get: what its function or the timer asks
for, or what its file handler sends on one thread. There is none for a request whose
`onEOM` throws or reads without an end. -/
def Responds {ρ : Type} (platform : Platform ρ) (message : HTTPMessage) (expireTime : Tm) (body : IOBuf)
    (timedOut : Bool) : RequestHandler → List Emission → Prop
  | .httpHandler _ handler, whole =>
      whole = (respond (fun _ => none) handler ⟨message, body⟩ timedOut).emissions
  | .streamingHandler _ args, whole => ∃ fuel sent,
      StreamingFileHandler.onEOM platform.fs (fileHandlerFor platform (pathOf args) message expireTime)
        (platform.allocator _) fuel = .ok (some sent) ∧ whole = sent.emissions

section Program

variable {ρ : Type} {platform : Platform ρ} {made : List (Route ρ)}
  (hLibrary : ∀ pattern ∈ patterns, Handles platform.library pattern)
  (hConversions : platform.conversions.Documented) (hMade : routes platform.library = .ok made)

include hLibrary hConversions hMade

variable {ι : Type} [DecidableEq ι]

/-- However the requests of the program take their steps, what has been sent for one
of them is a part of its whole response, from its beginning, and it is all of it
once nothing is left to do for the request. -/
theorem request_is_answered {events : List (ι × Exchange.Event Tm FileRequest.Event)}
    {final : Service ι FileRequest} (run : Serves platform made events final) {i : ι}
    {message : HTTPMessage} {expireTime : Tm}
    (hReceived : (i, .receive message expireTime) ∈ events)
    (hNoError : ∀ event, (i, event) ∈ events → isError event = false) {whole : List Emission}
    (hWhole : Responds platform message expireTime (Service.bodyOf i events) (Service.timedOut i events)
      (serve (HTTPRequest.getMethodAndPath platform.uri message).1
        (HTTPRequest.getMethodAndPath platform.uri message).2) whole) :
    (final.each i).emissions (files platform) <+: whole ∧
      ((∀ event, isError event = false →
          Exchange.step (files platform) (platform.factory made) (final.each i) event = none) →
        (final.each i).emissions (files platform) = whole) := by
  have hReceive := receive_eq hLibrary hConversions hMade message expireTime
  cases hServe : serve (HTTPRequest.getMethodAndPath platform.uri message).1
      (HTTPRequest.getMethodAndPath platform.uri message).2 with
  | streamingHandler object args =>
      rw [hServe] at hWhole hReceive
      obtain ⟨fuel, sent, hSent, rfl⟩ := hWhole
      obtain ⟨all, hRun, hEvents⟩ := run.request hReceived hReceive
      obtain ⟨own, last, rfl, hLast, hOwn⟩ := Exchange.streamed_run hRun
      have hOwnNoError : ∀ event ∈ own, event.isError = false := by
        intro event hMem
        have hAll : .stream event ∈ own.map (@Exchange.Event.stream Tm _) := List.mem_map_of_mem hMem
        apply hNoError (.stream event)
        rw [← mem_eventsOf]
        rcases hEvents with hEq | ⟨_, _, hEq, _⟩
        · rw [hEq]
          exact List.mem_cons_of_mem _ hAll
        · rw [hEq]
          exact List.mem_cons_of_mem _ (List.mem_append_left _ hAll)
      obtain ⟨hPrefix, hFinal⟩ := FileRequest.answers (StreamingFileHandler.onRequestReceived_base ..)
        hSent hOwn hOwnNoError
      rw [hLast]
      refine ⟨hPrefix, fun hStuck => hFinal fun event hQuiet => ?_⟩
      exact Option.map_eq_none_iff.mp (hStuck (.stream event) hQuiet)
  | httpHandler requestTimeout handler =>
      rw [hServe] at hWhole hReceive
      obtain ⟨response, rfl⟩ := serve_always hServe
      have hRouter : (platform.factory made).router.errorRoutes = fun _ => none := by
        rw [Platform.factory, factory, Router.makeRouter_eq, Router.create_eq]
      obtain ⟨own, last, hEvents, hLast, hRun⟩ := Service.handler_run run hReceived hReceive
      have hOwn : .onError ∉ own := by
        intro hMem
        have hAll : (i, .handle .onError) ∈ events := by
          rw [← mem_eventsOf, hEvents]
          exact List.mem_cons_of_mem _ (List.mem_map_of_mem hMem)
        cases hNoError _ hAll
      obtain ⟨hPrefix, hFinal⟩ := always_answers hRouter hRun hOwn
      simp only [Responds, Service.bodyOf, Service.timedOut, hEvents, Exchange.Event.bodies_handled,
        Exchange.Event.any_timeout_handled] at hWhole
      rw [hLast, hWhole]
      refine ⟨hPrefix, fun hStuck => hFinal fun event hNot => ?_⟩
      have hQuiet : isError (.handle event) = false := by
        cases event <;> first | rfl | exact absurd rfl hNot
      exact Option.map_eq_none_iff.mp (hStuck (.handle event) hQuiet)

end Program

/-- A request for the root and one for a missing file take turns. -/
def twoRequests : List (Bool × Exchange.Event Tm FileRequest.Event) :=
  [(true, .receive ⟨some .get, ascii "/", []⟩ ⟨0, 0, 0, 0, 0, 0, 0, 0, 0⟩),
    (false, .receive ⟨some .get, ascii "/file", []⟩ ⟨0, 0, 0, 0, 0, 0, 0, 0, 0⟩),
    (true, .handle .onEOM), (false, .stream .onEOM), (true, .handle .startHandler),
    (false, .stream (.transfer (.runTask (.sendResponseHeaders (HTTPResponse.ofStatus 404))))),
    (true, .handle .finishHandler)]

/-- Two requests that take turns: one for the root, and one for a file that is not
there. -/
theorem request_is_answered_example : ∃ made, routes patternLibrary = .ok made ∧
    ∃ final, Serves emptyPlatform made twoRequests final ∧
      (final.each false).emissions (files emptyPlatform) <+: [.headers 404 [], .eom] := by
  obtain ⟨made, hMade, _⟩ := every_request_is_served handles_patterns
  have hRootPath : HTTPRequest.getMethodAndPath emptyPlatform.uri ⟨some .get, ascii "/", []⟩ =
      (.get, ascii "/") := by decide +kernel
  have hFilePath : HTTPRequest.getMethodAndPath emptyPlatform.uri ⟨some .get, ascii "/file", []⟩ =
      (.get, slash :: ascii "file") := by decide +kernel
  have hRoot : serve .get (ascii "/") = always (.ofStatus 200) := if_pos ⟨rfl, rfl⟩
  have hFile : serve .get (slash :: ascii "file") = .streamingHandler fileHandler [.string (ascii "file")] :=
    serve_get (by decide)
  have hReceive := @receive_eq _ emptyPlatform made handles_patterns strictConversions_documented hMade
  have hServes : ∃ final, Serves emptyPlatform made twoRequests final := by
    have hFirst := hReceive ⟨some .get, ascii "/", []⟩ ⟨0, 0, 0, 0, 0, 0, 0, 0, 0⟩
    have hSecond := hReceive ⟨some .get, ascii "/file", []⟩ ⟨0, 0, 0, 0, 0, 0, 0, 0, 0⟩
    rw [hRootPath, hRoot] at hFirst
    rw [hFilePath, hFile] at hSecond
    exact ⟨_, .cons trivial (interleave_ok rfl (congrArg some hFirst))
      (.cons trivial (interleave_ok rfl (congrArg some hSecond)) (Run.of_execute rfl))⟩
  obtain ⟨final, hServes⟩ := hServes
  have hReceived : (false, .receive ⟨some .get, ascii "/file", []⟩ ⟨0, 0, 0, 0, 0, 0, 0, 0, 0⟩) ∈
      twoRequests := by decide
  have hNoError : ∀ event, (false, event) ∈ twoRequests → isError event = false := by
    simp [twoRequests, isError, FileRequest.Event.isError]
  refine ⟨made, hMade, final, hServes, (request_is_answered handles_patterns strictConversions_documented
    hMade hServes hReceived hNoError ?_).1⟩
  rw [hFilePath, hFile]
  exact ⟨0, _, rfl, rfl⟩

end SimpleServer

end Nozomi
