import Nozomi.Execution.Run
import Nozomi.Routing.Router

/-! The handler that waits for a whole request, runs a user's function and
sends one response. Its continuations run on other threads, so every step of
the future chain is an event of its own. -/
namespace Nozomi

open Text

/-- The part of the chain before the timer: the user's handler and the first
recovery. -/
inductive Upstream where
  | unscheduled
  | queued
  | running (response : Future)
  | failed
  | recovering (response : Future)
  | done (outcome : Outcome)
  deriving DecidableEq

/-- The part of the chain from the timer on. -/
inductive Downstream where
  | unscheduled
  | waiting
  | expired
  | recovering (response : Future)
  | resolved (outcome : Outcome)
  | responding (response : HTTPResponse)
  | sent
  | skipped
  deriving DecidableEq

/-- One handler object with its chain, which outlives the object. -/
structure HTTPHandler where
  message : Option HTTPMessage
  body : IOBuf
  request : Option HTTPRequest
  upstream : Upstream
  downstream : Downstream
  alive : Bool
  timedOut : Bool
  sent : List HTTPResponse
  deriving DecidableEq

namespace HTTPHandler

/-- What the constructor is given, as far as the chain reads it. -/
structure Program where
  handler : Handler
  router : Router

inductive Event where
  | onRequest (headers : HTTPMessage)
  | onBody (body : IOBuf)
  | onEOM
  | startHandler
  | finishHandler
  | startErrorHandler
  | finishErrorHandler
  | timeout
  | startTimeoutHandler
  | finishTimeoutHandler
  | recover
  | sendResponse
  | onError
  | requestComplete
  deriving DecidableEq

def create : HTTPHandler := ⟨none, IOBuf.create, none, .unscheduled, .unscheduled, true, false, []⟩

def onRequest (handler : HTTPHandler) (headers : HTTPMessage) : HTTPHandler :=
  { handler with message := some headers }

def onBody (handler : HTTPHandler) (body : IOBuf) : HTTPHandler :=
  { handler with body := handler.body.prependChain body }

def onEOM (handler : HTTPHandler) (headers : HTTPMessage) : HTTPHandler :=
  { handler with
    message := none
    request := some ⟨headers, handler.body⟩
    upstream := .queued
    downstream := .waiting }

/-- The upstream result is used only if the timer has not fired before. -/
def settle (handler : HTTPHandler) (outcome : Outcome) : HTTPHandler :=
  { handler with
    upstream := .done outcome
    downstream := if handler.downstream = .waiting then .resolved outcome else handler.downstream }

/-- `onError` with a lambda on `std::exception`: other failures pass. -/
def handlerCompletes (handler : HTTPHandler) (outcome : Outcome) : HTTPHandler :=
  match outcome with
  | .failure .std => { handler with upstream := .failed }
  | outcome => handler.settle outcome

def unknownError : HTTPResponse := HTTPResponse.ofString 500 (ascii "Unknown error")

/-- The last `onError`, and whether `then` is reached. -/
def finalRecovery (handler : HTTPHandler) (outcome : Outcome) : HTTPHandler :=
  match outcome with
  | .value response => { handler with downstream := .responding response }
  | .failure .std => { handler with downstream := .responding unknownError }
  | .failure .other => { handler with downstream := .skipped }

/-- Call a function that should return a future. -/
def launch (response : Future) (throws : Thrown → HTTPHandler) (runs : Future → HTTPHandler) :
    HTTPHandler :=
  match response with
  | .throws thrown => throws thrown
  | response => runs response

/-- The steps of one handler; `none` where the event cannot take place. The
transport calls nothing but a live object, and completes a request only once
a response was sent. The chain does not look at whether the object is alive. -/
def step (program : Program) (handler : HTTPHandler) : Event → Option HTTPHandler
  | .onRequest headers =>
      if handler.alive ∧ handler.message = none ∧ handler.request = none
      then some (handler.onRequest headers) else none
  | .onBody body =>
      if handler.alive ∧ handler.message.isSome then some (handler.onBody body) else none
  | .onEOM =>
      if handler.alive then handler.message.map handler.onEOM else none
  | .startHandler =>
      match handler.upstream, handler.request with
      | .queued, some request =>
          some (launch (program.handler request)
            (fun thrown => handler.handlerCompletes (.failure thrown))
            (fun response => { handler with upstream := .running response }))
      | _, _ => none
  | .finishHandler =>
      match handler.upstream with
      | .running (.completes outcome) => some (handler.handlerCompletes outcome)
      | _ => none
  | .startErrorHandler =>
      match handler.upstream, handler.request with
      | .failed, some request =>
          some (launch (program.router.getErrorHandler 500 request)
            (fun thrown => handler.settle (.failure thrown))
            (fun response => { handler with upstream := .recovering response }))
      | _, _ => none
  | .finishErrorHandler =>
      match handler.upstream with
      | .recovering (.completes outcome) => some (handler.settle outcome)
      | _ => none
  | .timeout =>
      if handler.downstream = .waiting
      then some { handler with downstream := .expired, timedOut := true } else none
  | .startTimeoutHandler =>
      match handler.downstream, handler.request with
      | .expired, some request =>
          some (launch (program.router.getErrorHandler 503 request)
            (fun thrown => { handler with downstream := .resolved (.failure thrown) })
            (fun response => { handler with downstream := .recovering response }))
      | _, _ => none
  | .finishTimeoutHandler =>
      match handler.downstream with
      | .recovering (.completes outcome) => some { handler with downstream := .resolved outcome }
      | _ => none
  | .recover =>
      match handler.downstream with
      | .resolved outcome => some (handler.finalRecovery outcome)
      | _ => none
  | .sendResponse =>
      match handler.downstream with
      | .responding response =>
          some { handler with downstream := .sent, sent := handler.sent ++ [response] }
      | _ => none
  | .onError => if handler.alive then some { handler with alive := false } else none
  | .requestComplete =>
      if handler.alive ∧ handler.sent ≠ [] then some { handler with alive := false } else none

/-- A call that gives a future instead of throwing. -/
def Returns (response : Future) : Prop := ∀ thrown, response ≠ .throws thrown

/-- What one step can do, guard by guard. -/
inductive Step (program : Program) (s : HTTPHandler) : Event → HTTPHandler → Prop where
  | onRequest (headers : HTTPMessage) (hAlive : s.alive = true) (hMessage : s.message = none)
      (hRequest : s.request = none) : Step program s (.onRequest headers) (s.onRequest headers)
  | onBody (headers : HTTPMessage) (body : IOBuf) (hAlive : s.alive = true)
      (hMessage : s.message = some headers) : Step program s (.onBody body) (s.onBody body)
  | onEOM (headers : HTTPMessage) (hAlive : s.alive = true) (hMessage : s.message = some headers) :
      Step program s .onEOM (s.onEOM headers)
  | handlerThrows (request : HTTPRequest) (thrown : Thrown) (hUpstream : s.upstream = .queued)
      (hRequest : s.request = some request) (hThrows : program.handler request = .throws thrown) :
      Step program s .startHandler (s.handlerCompletes (.failure thrown))
  | handlerRuns (request : HTTPRequest) (hUpstream : s.upstream = .queued)
      (hRequest : s.request = some request) (hReturns : Returns (program.handler request)) :
      Step program s .startHandler { s with upstream := .running (program.handler request) }
  | handlerCompletes (outcome : Outcome) (hUpstream : s.upstream = .running (.completes outcome)) :
      Step program s .finishHandler (s.handlerCompletes outcome)
  | errorHandlerThrows (request : HTTPRequest) (thrown : Thrown) (hUpstream : s.upstream = .failed)
      (hRequest : s.request = some request)
      (hThrows : program.router.getErrorHandler 500 request = .throws thrown) :
      Step program s .startErrorHandler (s.settle (.failure thrown))
  | errorHandlerRuns (request : HTTPRequest) (hUpstream : s.upstream = .failed)
      (hRequest : s.request = some request)
      (hReturns : Returns (program.router.getErrorHandler 500 request)) :
      Step program s .startErrorHandler
        { s with upstream := .recovering (program.router.getErrorHandler 500 request) }
  | errorHandlerCompletes (outcome : Outcome)
      (hUpstream : s.upstream = .recovering (.completes outcome)) :
      Step program s .finishErrorHandler (s.settle outcome)
  | timeout (hDownstream : s.downstream = .waiting) :
      Step program s .timeout { s with downstream := .expired, timedOut := true }
  | timeoutHandlerThrows (request : HTTPRequest) (thrown : Thrown)
      (hDownstream : s.downstream = .expired) (hRequest : s.request = some request)
      (hThrows : program.router.getErrorHandler 503 request = .throws thrown) :
      Step program s .startTimeoutHandler { s with downstream := .resolved (.failure thrown) }
  | timeoutHandlerRuns (request : HTTPRequest) (hDownstream : s.downstream = .expired)
      (hRequest : s.request = some request)
      (hReturns : Returns (program.router.getErrorHandler 503 request)) :
      Step program s .startTimeoutHandler
        { s with downstream := .recovering (program.router.getErrorHandler 503 request) }
  | timeoutHandlerCompletes (outcome : Outcome)
      (hDownstream : s.downstream = .recovering (.completes outcome)) :
      Step program s .finishTimeoutHandler { s with downstream := .resolved outcome }
  | recover (outcome : Outcome) (hDownstream : s.downstream = .resolved outcome) :
      Step program s .recover (s.finalRecovery outcome)
  | sendResponse (response : HTTPResponse) (hDownstream : s.downstream = .responding response) :
      Step program s .sendResponse { s with downstream := .sent, sent := s.sent ++ [response] }
  | onError (hAlive : s.alive = true) : Step program s .onError { s with alive := false }
  | requestComplete (hAlive : s.alive = true) (hSent : s.sent ≠ []) :
      Step program s .requestComplete { s with alive := false }

/-- The handler function throws before it returns a future, or returns one. -/
theorem launch_cases (response : Future) {throws : Thrown → HTTPHandler}
    {runs : Future → HTTPHandler} :
    (∃ thrown, response = .throws thrown ∧ launch response throws runs = throws thrown) ∨
      (Returns response ∧ launch response throws runs = runs response) := by
  cases response with
  | throws thrown => exact Or.inl ⟨thrown, rfl, rfl⟩
  | completes outcome => exact Or.inr ⟨by simp [Returns], rfl⟩
  | never => exact Or.inr ⟨by simp [Returns], rfl⟩

/-- What a step does is one of the ways that `Step` lists, with the guard of each. -/
theorem step_cases {program : Program} {s t : HTTPHandler} {event : Event}
    (h : step program s event = some t) : Step program s event t := by
  cases event with
  | onRequest headers =>
      simp only [step, Option.ite_none_right_eq_some, Option.some.injEq] at h
      obtain ⟨⟨hAlive, hMessage, hRequest⟩, rfl⟩ := h
      exact .onRequest headers hAlive hMessage hRequest
  | onBody body =>
      simp only [step, Option.ite_none_right_eq_some, Option.some.injEq] at h
      obtain ⟨⟨hAlive, hMessage⟩, rfl⟩ := h
      obtain ⟨headers, hHeaders⟩ := Option.isSome_iff_exists.mp hMessage
      exact .onBody headers body hAlive hHeaders
  | onEOM =>
      simp only [step, Option.ite_none_right_eq_some, Option.map_eq_some_iff] at h
      obtain ⟨hAlive, headers, hMessage, rfl⟩ := h
      exact .onEOM headers hAlive hMessage
  | startHandler =>
      simp only [step] at h
      split at h
      · rename_i request hUpstream hRequest
        obtain rfl := Option.some.inj h
        rcases launch_cases (program.handler request) with ⟨thrown, hThrows, hLaunch⟩ | ⟨hReturns, hLaunch⟩
        · rw [hLaunch]
          exact .handlerThrows request thrown hUpstream hRequest hThrows
        · rw [hLaunch]
          exact .handlerRuns request hUpstream hRequest hReturns
      · cases h
  | finishHandler =>
      simp only [step] at h
      split at h
      · rename_i outcome hUpstream
        obtain rfl := Option.some.inj h
        exact .handlerCompletes outcome hUpstream
      · cases h
  | startErrorHandler =>
      simp only [step] at h
      split at h
      · rename_i request hUpstream hRequest
        obtain rfl := Option.some.inj h
        rcases launch_cases (program.router.getErrorHandler 500 request) with ⟨thrown, hThrows, hLaunch⟩ | ⟨hReturns, hLaunch⟩
        · rw [hLaunch]
          exact .errorHandlerThrows request thrown hUpstream hRequest hThrows
        · rw [hLaunch]
          exact .errorHandlerRuns request hUpstream hRequest hReturns
      · cases h
  | finishErrorHandler =>
      simp only [step] at h
      split at h
      · rename_i outcome hUpstream
        obtain rfl := Option.some.inj h
        exact .errorHandlerCompletes outcome hUpstream
      · cases h
  | timeout =>
      simp only [step, Option.ite_none_right_eq_some, Option.some.injEq] at h
      obtain ⟨hDownstream, rfl⟩ := h
      exact .timeout hDownstream
  | startTimeoutHandler =>
      simp only [step] at h
      split at h
      · rename_i request hDownstream hRequest
        obtain rfl := Option.some.inj h
        rcases launch_cases (program.router.getErrorHandler 503 request) with ⟨thrown, hThrows, hLaunch⟩ | ⟨hReturns, hLaunch⟩
        · rw [hLaunch]
          exact .timeoutHandlerThrows request thrown hDownstream hRequest hThrows
        · rw [hLaunch]
          exact .timeoutHandlerRuns request hDownstream hRequest hReturns
      · cases h
  | finishTimeoutHandler =>
      simp only [step] at h
      split at h
      · rename_i outcome hDownstream
        obtain rfl := Option.some.inj h
        exact .timeoutHandlerCompletes outcome hDownstream
      · cases h
  | recover =>
      simp only [step] at h
      split at h
      · rename_i outcome hDownstream
        obtain rfl := Option.some.inj h
        exact .recover outcome hDownstream
      · cases h
  | sendResponse =>
      simp only [step] at h
      split at h
      · rename_i response hDownstream
        obtain rfl := Option.some.inj h
        exact .sendResponse response hDownstream
      · cases h
  | onError =>
      simp only [step, Option.ite_none_right_eq_some, Option.some.injEq] at h
      obtain ⟨hAlive, rfl⟩ := h
      exact .onError hAlive
  | requestComplete =>
      simp only [step, Option.ite_none_right_eq_some, Option.some.injEq] at h
      obtain ⟨⟨hAlive, hSent⟩, rfl⟩ := h
      exact .requestComplete hAlive hSent

end HTTPHandler

end Nozomi
