import Nozomi.Execution.Interleaving
import Nozomi.Handling.HTTPHandler
import Nozomi.Handling.StreamingHTTPHandler
import Nozomi.Routing.Routes

/-! The server as a family of requests that share nothing but the factory and its
router, and whose steps are interleaved as the transport and the threads choose. -/
namespace Nozomi

open Text Execution

namespace HTTPHandler

/-- The pieces of a body that an event brings. -/
def Event.body : Event → Option IOBuf
  | .onBody data => some data
  | _ => none

/-- The calls that `sendResponse` makes on its response builder. -/
def sendResponse (response : HTTPResponse) : List BuilderCall :=
  .status response.statusCode ::
    response.headers.map (fun header => .header header.1 header.2) ++
    [.body response.getBody, .sendWithEOM]

/-- What reaches the transport. Every response has a builder of its own. -/
def emissions (handler : HTTPHandler) : List Emission :=
  handler.sent.flatMap fun response =>
    ((sendResponse response).foldl ResponseBuilder.call .empty).emitted

end HTTPHandler

/-- What the classes of streaming handlers do, which are the user's. The first call of
a handler brings its arguments and the message, and what the environment adds to it.
An exception leaves a function that is declared `noexcept`. -/
structure Streaming (τ σ ε : Type) where
  onRequest : StreamingObject → List RouteArg → HTTPMessage → τ → Throws σ
  step : σ → ε → Option (Throws σ)
  emissions : σ → List Emission

/-- The life of one request. -/
inductive Exchange (σ : Type) where
  | idle
  | handled (program : HTTPHandler.Program) (handler : HTTPHandler)
  | streamed (state : σ)
  | refused

namespace Exchange

/-- The transport has received the head of a request, or an event of its handler
takes place. -/
inductive Event (τ ε : Type) where
  | receive (message : HTTPMessage) (extra : τ)
  | handle (event : HTTPHandler.Event)
  | stream (event : ε)
  deriving DecidableEq

/-- The pieces of a body that an event brings to a handler that waits for all of it. -/
def Event.body {τ ε : Type} : Event τ ε → Option IOBuf
  | .handle event => event.body
  | _ => none

/-- The event of the timer. -/
def Event.isTimeout {τ ε : Type} : Event τ ε → Bool
  | .handle .timeout => true
  | _ => false

section Handled

variable {τ ε : Type} (message : HTTPMessage) (extra : τ) (own : List HTTPHandler.Event)

/-- What the events of a request with a handler bring to the handler. -/
theorem Event.bodies_handled :
    (.receive message extra :: own.map (@Event.handle τ ε)).filterMap Event.body =
      own.filterMap HTTPHandler.Event.body := by
  rw [List.filterMap_cons_none rfl, List.filterMap_map]
  rfl

theorem Event.any_timeout_handled :
    (.receive message extra :: own.map (@Event.handle τ ε)).any Event.isTimeout =
      decide (.timeout ∈ own) := by
  rw [Bool.eq_iff_iff]
  simp only [List.any_cons, List.any_map, List.any_eq_true, decide_eq_true_eq, Bool.or_eq_true,
    Function.comp_apply]
  constructor
  · rintro (hFirst | ⟨event, hMem, hTimeout⟩)
    · cases hFirst
    · cases event with
      | timeout => exact hMem
      | _ => cases hTimeout
  · intro hMem
    exact Or.inr ⟨_, hMem, rfl⟩

end Handled

variable {τ σ ε : Type}

/-- A handler is given the message at once. -/
def onRequest (streaming : Streaming τ σ ε) (router : Router) (message : HTTPMessage) (extra : τ) :
    RequestHandler → Throws (Exchange σ)
  | .httpHandler _ handler => .ok (.handled ⟨handler, router⟩ (HTTPHandler.create.onRequest message))
  | .streamingHandler object args => (streaming.onRequest object args message extra).map .streamed

/-- The factory makes a handler, if it does. -/
def receive (streaming : Streaming τ σ ε) (factory : HTTPHandlerFactory) (message : HTTPMessage)
    (extra : τ) : Throws (Exchange σ) := do
  match ← factory.onRequest message with
  | some handler => onRequest streaming factory.router message extra handler
  | none => return .refused

def step (streaming : Streaming τ σ ε) (factory : HTTPHandlerFactory) :
    Exchange σ → Event τ ε → Option (Throws (Exchange σ))
  | .idle, .receive message extra => some (receive streaming factory message extra)
  | .handled program handler, .handle event =>
      (handler.step program event).map fun next => .ok (.handled program next)
  | .streamed state, .stream event => (streaming.step state event).map (Except.map .streamed)
  | _, _ => none

/-- What a request has made the server send so far. -/
def emissions (streaming : Streaming τ σ ε) : Exchange σ → List Emission
  | .handled _ handler => handler.emissions
  | .streamed state => streaming.emissions state
  | _ => []

/-- What one step can do, if no exception leaves it. -/
inductive Step (streaming : Streaming τ σ ε) (factory : HTTPHandlerFactory) :
    Exchange σ → Event τ ε → Exchange σ → Prop where
  | receive {message : HTTPMessage} {extra : τ} {next : Exchange σ}
      (hMade : receive streaming factory message extra = .ok next) :
      Step streaming factory .idle (.receive message extra) next
  | handle (program : HTTPHandler.Program) {handler next : HTTPHandler} {event : HTTPHandler.Event}
      (hStep : handler.step program event = some next) :
      Step streaming factory (.handled program handler) (.handle event) (.handled program next)
  | stream {state next : σ} {event : ε} (hStep : streaming.step state event = some (.ok next)) :
      Step streaming factory (.streamed state) (.stream event) (.streamed next)

/-- What one step can do, if an exception leaves it. -/
inductive Fails (streaming : Streaming τ σ ε) (factory : HTTPHandlerFactory) :
    Exchange σ → Event τ ε → Prop where
  | receive {message : HTTPMessage} {extra : τ} {thrown : Thrown}
      (hThrown : receive streaming factory message extra = .error thrown) :
      Fails streaming factory .idle (.receive message extra)
  | stream {state : σ} {event : ε} {thrown : Thrown} (hThrown : streaming.step state event = some (.error thrown)) :
      Fails streaming factory (.streamed state) (.stream event)

variable {streaming : Streaming τ σ ε} {factory : HTTPHandlerFactory} {s t : Exchange σ}
  {event : Event τ ε} {events : List (Event τ ε)}

/-- A step does one of the things that `Step` lists, or fails in one of the ways of
`Fails`. -/
theorem step_result (result : Throws (Exchange σ)) (h : step streaming factory s event = some result) :
    match result with
    | .ok t => Step streaming factory s event t
    | .error _ => Fails streaming factory s event := by
  cases s with
  | idle =>
      cases event with
      | receive message extra =>
          obtain hMade := Option.some.inj h
          cases result with
          | ok t => exact .receive hMade
          | error thrown => exact .receive hMade
      | handle | stream => cases h
  | handled program handler =>
      cases event with
      | handle event =>
          obtain ⟨_, hStep, rfl⟩ := Option.map_eq_some_iff.mp h
          exact .handle program hStep
      | receive | stream => cases h
  | streamed state =>
      cases event with
      | stream event =>
          obtain ⟨made, hStep, rfl⟩ := Option.map_eq_some_iff.mp h
          cases made with
          | ok next => exact .stream hStep
          | error thrown => exact .stream hStep
      | receive | handle => cases h
  | refused => cases event <;> cases h

theorem step_cases (h : step streaming factory s event = some (.ok t)) : Step streaming factory s event t :=
  step_result (.ok t) h

theorem fails_cases {thrown : Thrown} (h : step streaming factory s event = some (.error thrown)) :
    Fails streaming factory s event :=
  step_result (.error thrown) h

theorem map_streamed_eq_ok {result : Throws σ} (h : result.map Exchange.streamed = .ok t) :
    ∃ state, result = .ok state ∧ t = .streamed state := by
  cases result with
  | error thrown => cases h
  | ok state => exact ⟨state, rfl, (Except.ok.inj h).symm⟩

theorem onRequest_ne_idle {router : Router} {message : HTTPMessage} {extra : τ} {handler : RequestHandler}
    (h : onRequest streaming router message extra handler = .ok s) : s ≠ .idle := by
  cases handler with
  | httpHandler requestTimeout handler =>
      obtain rfl := Except.ok.inj h
      simp
  | streamingHandler object args =>
      obtain ⟨state, _, rfl⟩ := map_streamed_eq_ok h
      simp

theorem receive_ne_idle {message : HTTPMessage} {extra : τ}
    (h : receive streaming factory message extra = .ok s) : s ≠ .idle := by
  obtain ⟨made, _, hMade⟩ := (Throws.bind_eq_ok_iff _ _ _).mp h
  cases made with
  | some handler => exact onRequest_ne_idle hMade
  | none =>
      obtain rfl := Except.ok.inj hMade
      simp

/-- No step leads back to a request that has not been received. -/
theorem step_ne_idle (h : step streaming factory s event = some (.ok t)) : t ≠ .idle := by
  cases step_cases h with
  | receive hMade => exact receive_ne_idle hMade
  | handle | stream => simp

/-- A request begins with its message, and receives no other. -/
theorem received_run {message : HTTPMessage} {extra : τ} (hReceived : .receive message extra ∈ events)
    (run : Run (succeeds (step streaming factory)) (fun _ _ => True) .idle events t) :
    ∃ rest first, events = .receive message extra :: rest ∧
      receive streaming factory message extra = .ok first ∧
      Run (succeeds (step streaming factory)) (fun _ _ => True) first rest t := by
  have hOnly : ∀ s u, succeeds (step streaming factory) s (.receive message extra) = some u → s = .idle := by
    intro s u hStep
    cases step_cases (succeeds_eq_some.mp hStep) with
    | receive => rfl
  obtain ⟨rest, first, hEvents, hFirst, hRest⟩ := run.opening hReceived hOnly
    fun _ _ _ hStep => step_ne_idle (succeeds_eq_some.mp hStep)
  exact ⟨rest, first, hEvents, Option.some.inj (succeeds_eq_some.mp hFirst), hRest⟩

/-- Once there is a handler, a run is a run of the handler. -/
theorem handled_run {program : HTTPHandler.Program} {handler : HTTPHandler}
    (run : Run (succeeds (step streaming factory)) (fun _ _ => True) (.handled program handler) events t) :
    ∃ own last, events = own.map .handle ∧ t = .handled program last ∧
      Run (HTTPHandler.step program) (fun _ _ => True) handler own last := by
  refine run.within (handled program) Event.handle ?_
  intro handler event t hStep
  cases step_cases (succeeds_eq_some.mp hStep) with
  | handle _ hNext => exact ⟨_, _, rfl, hNext, rfl⟩

/-- Once there is a streaming handler, a run is a run of that. -/
theorem streamed_run {state : σ}
    (run : Run (succeeds (step streaming factory)) (fun _ _ => True) (.streamed state) events t) :
    ∃ own last, events = own.map .stream ∧ t = .streamed last ∧
      Run (succeeds streaming.step) (fun _ _ => True) state own last := by
  refine run.within streamed Event.stream ?_
  intro state event t hStep
  cases step_cases (succeeds_eq_some.mp hStep) with
  | stream hNext => exact ⟨_, _, rfl, succeeds_eq_some.mpr hNext, rfl⟩

end Exchange

/-- Any number of requests, each of which takes its steps at any time. An exception
that leaves a function declared `noexcept` ends the program, and all of them. -/
abbrev Service (ι σ : Type) := System ι (Exchange σ)

namespace Service

variable {ι τ σ ε : Type}

def start : Service ι σ := ⟨fun _ => .idle, false⟩

variable [DecidableEq ι]

def step (streaming : Streaming τ σ ε) (factory : HTTPHandlerFactory) :
    Service ι σ → ι × Exchange.Event τ ε → Option (Service ι σ) :=
  interleave (Exchange.step streaming factory)

/-- A run of the server. -/
abbrev Serves (streaming : Streaming τ σ ε) (factory : HTTPHandlerFactory)
    (events : List (ι × Exchange.Event τ ε)) (final : Service ι σ) : Prop :=
  Run (step streaming factory) (fun _ _ => True) start events final

/-- The body of a request, chained from the pieces that have arrived for it. -/
def bodyOf (i : ι) (events : List (ι × Exchange.Event τ ε)) : IOBuf :=
  ((eventsOf i events).filterMap Exchange.Event.body).foldl IOBuf.prependChain IOBuf.create

/-- The timer of a request has fired. -/
def timedOut (i : ι) (events : List (ι × Exchange.Event τ ε)) : Bool :=
  (eventsOf i events).any Exchange.Event.isTimeout

variable {streaming : Streaming τ σ ε} {factory : HTTPHandlerFactory}
  {events : List (ι × Exchange.Event τ ε)} {final : Service ι σ}

/-- After its message, a request for which something could be made goes through a run
of that. If an event of its own ends the program, it is the last one. -/
theorem Serves.request {i : ι} {message : HTTPMessage} {extra : τ} {first : Exchange σ}
    (run : Serves streaming factory events final) (hReceived : (i, .receive message extra) ∈ events)
    (hMade : Exchange.receive streaming factory message extra = .ok first) :
    ∃ own, Run (succeeds (Exchange.step streaming factory)) (fun _ _ => True) first own (final.each i) ∧
      (eventsOf i events = .receive message extra :: own ∨
        ∃ last thrown, eventsOf i events = .receive message extra :: (own ++ [last]) ∧
          Exchange.step streaming factory (final.each i) last = some (.error thrown)) := by
  obtain ⟨all, hRun, hEvents⟩ := run.component i
  have hMem := (mem_eventsOf i _ events).mpr hReceived
  have hBegins : .receive message extra ∈ all → ∃ own, all = .receive message extra :: own ∧
      Run (succeeds (Exchange.step streaming factory)) (fun _ _ => True) first own (final.each i) := by
    intro hAll
    obtain ⟨own, begun, rfl, hBegun, hOwn⟩ := Exchange.received_run hAll hRun
    obtain rfl := Except.ok.inj (hBegun.symm.trans hMade)
    exact ⟨own, rfl, hOwn⟩
  rcases hEvents with hAll | ⟨last, thrown, hAll, hLast⟩
  · obtain ⟨own, rfl, hOwn⟩ := hBegins (hAll ▸ hMem)
    exact ⟨own, hOwn, Or.inl hAll⟩
  · rw [hAll, List.mem_append, List.mem_singleton] at hMem
    rcases hMem with hBefore | rfl
    · obtain ⟨own, rfl, hOwn⟩ := hBegins hBefore
      exact ⟨own, hOwn, Or.inr ⟨last, thrown, hAll, hLast⟩⟩
    · generalize final.each i = s at hLast
      cases Exchange.fails_cases hLast with
      | receive hThrown =>
          rw [hMade] at hThrown
          cases hThrown

end Service

end Nozomi
