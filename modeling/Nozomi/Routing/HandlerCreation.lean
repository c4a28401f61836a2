import Nozomi.Routing.Dispatch
import Nozomi.Routing.Routes

/-! When a request gets a handler object. Only the first route that does not
pass a request on decides: it may give up, or start a streaming handler. -/
namespace Nozomi

open Text

/-- A streaming handler is created and accepts its arguments. -/
def RouteCallable.Starts (callable : RouteCallable) (arguments : Throws (List RouteArg)) : Prop :=
  match callable with
  | .future _ => True
  | .streaming factory => ∃ object args, factory = .ok (some object) ∧ arguments = .ok args ∧
      object.setRequestArgs args = .ok ()

/-- A streaming handler object is there exactly if the user's factory returns one
and its arguments can be converted. -/
theorem startStreaming_iff (factory : Throws (Option StreamingObject))
    (arguments : Throws (List RouteArg)) :
    (∃ handler, startStreaming factory arguments = .ok (some handler)) ↔
      (RouteCallable.streaming factory).Starts arguments := by
  unfold startStreaming RouteCallable.Starts
  cases factory with
  | error thrown => cases thrown <;> simp [Bind.bind, Except.bind]
  | ok created =>
      cases created with
      | none => simp [Bind.bind, Except.bind, Pure.pure, Except.pure]
      | some object =>
          cases arguments with
          | error thrown => cases thrown <;> simp [Bind.bind, Except.bind]
          | ok args =>
              cases hArgs : object.setRequestArgs args with
              | error thrown => cases thrown <;> simp [Bind.bind, Except.bind, hArgs]
              | ok done => simp [Bind.bind, Except.bind, Pure.pure, Except.pure, hArgs]

inductive RouteObject (ρ : Type) where
  | static (route : StaticRoute)
  | dynamic (route : Route ρ)

namespace RouteObject

variable {ρ : Type} (uri : UriLibrary) (library : RegexLibrary ρ) (conversions : Conversions)

def toBaseRoute : RouteObject ρ → BaseRoute
  | static route => ⟨true, route.handler uri⟩
  | dynamic route => ⟨false, route.handler uri library conversions⟩

def isStaticRoute : RouteObject ρ → Bool
  | static _ => true
  | dynamic _ => false

def callable : RouteObject ρ → RouteCallable
  | static route => route.callable
  | dynamic route => route.callable

/-- The virtual function of a route object tells which of the two classes it has. -/
theorem isStaticRoute_eq (route : RouteObject ρ) :
    (route.toBaseRoute uri library conversions).isStaticRoute = route.isStaticRoute := by
  cases route <;> rfl

/-- What a route finds in a message: matching gives up, or the message is
passed on, or the route matches fully and has arguments to convert. -/
def found (message : HTTPMessage) : RouteObject ρ → Throws (Option (Throws (List RouteArg)))
  | static route =>
      let methodAndPath := HTTPRequest.getMethodAndPath uri message
      .ok (if methodAndPath.2 = route.originalPattern ∧ methodAndPath.1 ∈ route.methods
        then some (.ok []) else none)
  | dynamic route =>
      let methodAndPath := HTTPRequest.getMethodAndPath uri message
      (library.regexMatch methodAndPath.2 route.regex).map fun matched =>
        matched.bind fun groups => if methodAndPath.1 ∈ route.methods
          then some (conversions.getHandlerArgs groups 0 route.handlerArgs) else none

/-- The message is passed on to the next route. -/
def Passes (message : HTTPMessage) (route : RouteObject ρ) : Prop :=
  route.found uri library conversions message = .ok none

/-- Matching does not give up, and on a full match a streaming handler starts. -/
def Delivers (message : HTTPMessage) (route : RouteObject ρ) : Prop :=
  match route.found uri library conversions message with
  | .error _ => False
  | .ok none => True
  | .ok (some arguments) => route.callable.Starts arguments

/-- Static routes first, in the order of the list within each kind. -/
def searchOrder (routes : List (RouteObject ρ)) : List (RouteObject ρ) :=
  routes.filter (·.isStaticRoute) ++ routes.filter (!·.isStaticRoute)

variable {uri library conversions} {message : HTTPMessage}

/-- The virtual `handler` does what the route finds. The cases are the two classes of
routes. -/
theorem handler_eq (route : RouteObject ρ) :
    match route.found uri library conversions message with
    | .error thrown => (route.toBaseRoute uri library conversions).handler message = .error thrown
    | .ok none => ∃ result, result ≠ .routeMatched ∧
        (route.toBaseRoute uri library conversions).handler message = .ok (.ofResult result)
    | .ok (some arguments) => (route.toBaseRoute uri library conversions).handler message =
        .ok (route.callable.makeMatch arguments) := by
  cases route with
  | static route =>
      simp only [found, toBaseRoute, StaticRoute.handler, callable]
      by_cases hPath : (HTTPRequest.getMethodAndPath uri message).2 = route.originalPattern
      · by_cases hMethod : (HTTPRequest.getMethodAndPath uri message).1 ∈ route.methods
        · simp [hPath, hMethod]
        · simpa [hPath, hMethod] using ⟨.methodNotMatched, by decide, rfl⟩
      · simpa [hPath] using ⟨.pathNotMatched, by decide, rfl⟩
  | dynamic route =>
      simp only [found, toBaseRoute, Route.handler, callable]
      cases library.regexMatch (HTTPRequest.getMethodAndPath uri message).2 route.regex with
      | error thrown => rfl
      | ok matched =>
          cases matched with
          | none => exact ⟨.pathNotMatched, by decide, rfl⟩
          | some groups =>
              by_cases hMethod : (HTTPRequest.getMethodAndPath uri message).1 ∈ route.methods
              · simp [Except.map, Bind.bind, Except.bind, Pure.pure, Except.pure, hMethod]
              · simpa [Except.map, Bind.bind, Except.bind, Pure.pure, Except.pure, hMethod]
                  using ⟨.methodNotMatched, by decide, rfl⟩

theorem makeMatch_result (callable : RouteCallable) (arguments : Throws (List RouteArg)) :
    (callable.makeMatch arguments).result = .routeMatched := by
  cases callable <;> rfl

/-- A full match gives a handler object exactly if its callable starts. -/
theorem makeMatch_starts (requestTimeout : Nat) (callable : RouteCallable)
    (arguments : Throws (List RouteArg)) :
    (∃ handler, createHandler requestTimeout (callable.makeMatch arguments) = .ok (some handler)) ↔
      callable.Starts arguments := by
  cases callable with
  | future f =>
      simp [createHandler, RouteCallable.makeMatch, RouteMatch.ofHandler, RouteCallable.Starts]
  | streaming factory => exact startStreaming_iff factory arguments

variable (uri library conversions message)

/-- The first route that does not pass the message on, if there is one,
delivers a handler object. -/
def Served (routes : List (RouteObject ρ)) : Prop :=
  ∀ before route after, routes = before ++ route :: after →
    (∀ earlier ∈ before, earlier.Passes uri library conversions message) →
    route.Delivers uri library conversions message

variable {uri library conversions message}

/-- A route that passes a request on leaves it to the routes after it, so that it
does not matter what else it is. -/
theorem served_cons_pass {route : RouteObject ρ} (routes : List (RouteObject ρ))
    (hPass : route.Passes uri library conversions message) :
    Served uri library conversions message (route :: routes) ↔
      Served uri library conversions message routes := by
  constructor
  · intro h before other after hSplit hBefore
    apply h (route :: before) other after (by simp [hSplit])
    simpa using ⟨hPass, hBefore⟩
  · intro h before other after hSplit hBefore
    cases before with
    | nil =>
        obtain ⟨rfl, rfl⟩ := List.cons.inj hSplit
        rw [Passes] at hPass
        simp [Delivers, hPass]
    | cons first before =>
        obtain ⟨rfl, rfl⟩ := List.cons.inj hSplit
        exact h before other after rfl fun earlier hMem => hBefore earlier (by simp [hMem])

/-- The first route that does not pass a request on decides what becomes of it: a
handler is delivered or not. -/
theorem served_cons_stop {route : RouteObject ρ} (routes : List (RouteObject ρ))
    (hStop : ¬route.Passes uri library conversions message) :
    Served uri library conversions message (route :: routes) ↔
      route.Delivers uri library conversions message := by
  constructor
  · intro h
    exact h [] route routes rfl (by simp)
  · intro h before other after hSplit hBefore
    cases before with
    | nil =>
        obtain ⟨rfl, rfl⟩ := List.cons.inj hSplit
        exact h
    | cons first before =>
        obtain ⟨rfl, rfl⟩ := List.cons.inj hSplit
        exact absurd (hBefore route (by simp)) hStop

/-- A search that ends without a match passed every route. A search that ends
otherwise gives a handler object exactly if its routes serve the message. -/
theorem tryRoutes_served (requestTimeout : Nat) (routes : List (RouteObject ρ)) (flag : Bool) :
    match Router.tryRoutes message (routes.map (toBaseRoute uri library conversions)) flag with
    | .error _ => ¬Served uri library conversions message routes
    | .ok (.inl routeMatch) =>
        (∃ handler, createHandler requestTimeout routeMatch = .ok (some handler)) ↔
          Served uri library conversions message routes
    | .ok (.inr _) => Served uri library conversions message routes := by
  induction routes generalizing flag with
  | nil => simp [Router.tryRoutes, Served]
  | cons route routes ih =>
      have hHandler : match route.found uri library conversions message with
          | .error thrown =>
              (route.toBaseRoute uri library conversions).handler message = .error thrown
          | .ok none => ∃ result, result ≠ .routeMatched ∧
              (route.toBaseRoute uri library conversions).handler message = .ok (.ofResult result)
          | .ok (some arguments) => (route.toBaseRoute uri library conversions).handler message =
              .ok (route.callable.makeMatch arguments) := handler_eq route
      rw [List.map_cons, Router.tryRoutes]
      cases hFound : route.found uri library conversions message with
      | error thrown =>
          rw [hFound] at hHandler
          have hStop : ¬route.Passes uri library conversions message := by simp [Passes, hFound]
          rw [hHandler, served_cons_stop routes hStop]
          simp [Bind.bind, Except.bind, Delivers, hFound]
      | ok matched =>
          cases matched with
          | none =>
              rw [hFound] at hHandler
              obtain ⟨result, hResult, hHandler⟩ := hHandler
              rw [hHandler, served_cons_pass routes hFound]
              cases result with
              | pathNotMatched => exact ih flag
              | methodNotMatched => exact ih true
              | routeMatched => exact absurd rfl hResult
          | some arguments =>
              rw [hFound] at hHandler
              have hStop : ¬route.Passes uri library conversions message := by simp [Passes, hFound]
              rw [hHandler, served_cons_stop routes hStop, Delivers, hFound]
              simp only [Bind.bind, Except.bind, makeMatch_result]
              exact makeMatch_starts requestTimeout route.callable arguments

end RouteObject

namespace Router

/-- Two loops that pass the flag on are one loop over both lists. The induction is
over the first one. -/
theorem tryRoutes_append (request : HTTPMessage) (first second : List BaseRoute) (flag : Bool) :
    tryRoutes request (first ++ second) flag =
      (tryRoutes request first flag >>= fun ended =>
        match ended with
        | .inl routeMatch => .ok (.inl routeMatch)
        | .inr flag => tryRoutes request second flag) := by
  induction first generalizing flag with
  | nil => rfl
  | cons route first ih =>
      rw [List.cons_append, tryRoutes, tryRoutes]
      cases route.handler request with
      | error thrown => rfl
      | ok routeMatch =>
          simp only [Bind.bind, Except.bind]
          cases routeMatch.result with
          | pathNotMatched => exact ih flag
          | methodNotMatched => exact ih true
          | routeMatched => rfl

/-- The two loops of the router are one loop over its static routes and then the
others. This is how the first route that answers can be spoken of at all. -/
theorem getHandler_eq_append (router : Router) (request : HTTPMessage) :
    router.getHandler request =
      (tryRoutes request (router.staticRoutes ++ router.routes) false >>= fun ended =>
        match ended with
        | .inl routeMatch => .ok routeMatch
        | .inr methodNotFound => .ok (if methodNotFound
            then .ofHandler .methodNotMatched (router.getErrorHandler 405)
            else .ofHandler .pathNotMatched (router.getErrorHandler 404))) := by
  rw [getHandler, tryRoutes_append]
  cases tryRoutes request router.staticRoutes false with
  | error thrown => rfl
  | ok ended =>
      cases ended with
      | inl routeMatch => rfl
      | inr flag =>
          simp only [Bind.bind, Except.bind]
          cases tryRoutes request router.routes flag with
          | error thrown => rfl
          | ok ended =>
              cases ended with
              | inl routeMatch => rfl
              | inr methodNotFound => cases methodNotFound <;> rfl

end Router

namespace RouteObject

variable {ρ : Type} (uri : UriLibrary) (library : RegexLibrary ρ) (conversions : Conversions)

/-- A request gets a handler object, and no exception escapes, exactly if the
first route that does not pass it on delivers one. -/
theorem onRequest_returns_iff (requestTimeout : Nat) (errorRoutes : Int32 → Option Handler)
    (routes : List (RouteObject ρ)) (message : HTTPMessage) :
    (∃ handler, HTTPHandlerFactory.onRequest ⟨requestTimeout,
        .create errorRoutes (routes.map (toBaseRoute uri library conversions))⟩ message =
          .ok (some handler)) ↔
      Served uri library conversions message (searchOrder routes) := by
  have hOrder : (searchOrder routes).map (toBaseRoute uri library conversions) =
      (routes.map (toBaseRoute uri library conversions)).filter (·.isStaticRoute) ++
        (routes.map (toBaseRoute uri library conversions)).filter (!·.isStaticRoute) := by
    simp only [searchOrder, List.map_append, List.filter_map, Function.comp_def, isStaticRoute_eq]
  have hServed : match Router.tryRoutes message ((searchOrder routes).map
      (toBaseRoute uri library conversions)) false with
      | .error _ => ¬Served uri library conversions message (searchOrder routes)
      | .ok (.inl routeMatch) =>
          (∃ handler, createHandler requestTimeout routeMatch = .ok (some handler)) ↔
            Served uri library conversions message (searchOrder routes)
      | .ok (.inr _) => Served uri library conversions message (searchOrder routes) :=
    tryRoutes_served requestTimeout (searchOrder routes) false
  rw [HTTPHandlerFactory.onRequest, Router.getHandler_eq_append, Router.create_eq, ← hOrder]
  cases hEnded : Router.tryRoutes message ((searchOrder routes).map
      (toBaseRoute uri library conversions)) false with
  | error thrown =>
      rw [hEnded] at hServed
      simpa [Bind.bind, Except.bind] using hServed
  | ok ended =>
      rw [hEnded] at hServed
      cases ended with
      | inl routeMatch => simpa [Bind.bind, Except.bind] using hServed
      | inr methodNotFound =>
          refine ⟨fun _ => hServed, fun _ => ?_⟩
          cases methodNotFound <;>
            exact ⟨_, rfl⟩

/-- A streaming factory that returns no object gives the server a null pointer,
and an expression that gives up ends the server. -/
theorem onRequest_fails :
    HTTPHandlerFactory.onRequest ⟨1000, .create (fun _ => none)
        ([.static ⟨ascii "/", [.get], .streaming (.ok none)⟩].map
          (toBaseRoute uriDecoder (⟨fun _ => .ok (), fun _ _ => .error .std⟩ : RegexLibrary Unit)
            ⟨fun _ => .error .std, fun _ => .error .std⟩))⟩ ⟨some .get, ascii "/", []⟩ = .ok none ∧
      HTTPHandlerFactory.onRequest ⟨1000, .create (fun _ => none)
        ([.dynamic ⟨ascii "/(a*)*b", [.get], (), [], .future fun _ _ => .never⟩].map
          (toBaseRoute uriDecoder (⟨fun _ => .ok (), fun _ _ => .error .std⟩ : RegexLibrary Unit)
            ⟨fun _ => .error .std, fun _ => .error .std⟩))⟩ ⟨some .get, ascii "/", []⟩ =
        .error .std :=
  ⟨rfl, rfl⟩

end RouteObject

end Nozomi
