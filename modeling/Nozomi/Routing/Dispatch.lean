import Nozomi.Routing.Router

/-! Dispatch as it is specified: first match with precedence for static routes,
and a method mismatch that is remembered only if nothing matches. -/
namespace Nozomi

open Text

namespace Router

/-- The loop over the routes sorts them into two lists, and keeps their order in
each. -/
theorem addRoutes_eq (router : Router) (routes : List BaseRoute) :
    router.addRoutes routes =
      { router with
        staticRoutes := router.staticRoutes ++ routes.filter (·.isStaticRoute)
        routes := router.routes ++ routes.filter (!·.isStaticRoute) } := by
  induction routes generalizing router with
  | nil => simp [addRoutes]
  | cons route routes ih =>
      cases hStatic : route.isStaticRoute <;> simp [addRoutes, hStatic, ih]

/-- The constructor is a stable partition. -/
theorem create_eq (errorRoutes : Int32 → Option Handler) (routes : List BaseRoute) :
    create errorRoutes routes =
      ⟨routes.filter (·.isStaticRoute), routes.filter (!·.isStaticRoute), errorRoutes⟩ := by
  simp [create, addRoutes_eq]

theorem pushBackMove_eq (container values : List BaseRoute) :
    pushBackMove container values = container ++ values := by
  induction values generalizing container with
  | nil => simp [pushBackMove]
  | cons value values ih => simp [pushBackMove, ih]

theorem makeRouter_eq (errorRoutes : Int32 → Option Handler) (routes : List BaseRoute) :
    makeRouter errorRoutes routes = create errorRoutes routes := by
  rw [makeRouter, pushBackMove_eq, List.nil_append]

section Answers

variable {request : HTTPMessage} (answer : BaseRoute → RouteMatch)

/-- The first route of a list that matches fully. -/
def firstMatch (routes : List BaseRoute) : Option BaseRoute :=
  routes.find? fun route => (answer route).result = .routeMatched

def reportsMethod (routes : List BaseRoute) : Bool :=
  routes.any fun route => (answer route).result = .methodNotMatched

/-- A loop finds the first full match, or it adds what its routes report to the flag.
The induction is over the routes. -/
theorem tryRoutes_eq (routes : List BaseRoute) (methodNotFound : Bool)
    (hAnswer : ∀ route ∈ routes, route.handler request = .ok (answer route)) :
    tryRoutes request routes methodNotFound =
      match firstMatch answer routes with
      | some route => .ok (.inl (answer route))
      | none => .ok (.inr (methodNotFound || reportsMethod answer routes)) := by
  induction routes generalizing methodNotFound with
  | nil => simp [tryRoutes, firstMatch, reportsMethod]
  | cons route routes ih =>
      have hRest := fun flag => ih flag fun other hMem => hAnswer other (by simp [hMem])
      have hFirst : route.handler request = .ok (answer route) := hAnswer route (by simp)
      cases hResult : (answer route).result with
      | pathNotMatched =>
          simpa [tryRoutes, hFirst, hResult, firstMatch, reportsMethod, Bind.bind, Except.bind]
            using hRest methodNotFound
      | methodNotMatched =>
          simpa [tryRoutes, hFirst, hResult, firstMatch, reportsMethod, Bind.bind, Except.bind]
            using hRest true
      | routeMatched =>
          simp [tryRoutes, hFirst, hResult, firstMatch, Bind.bind, Except.bind, Pure.pure, Except.pure]

/-- What the error handler for a code should be: the user's, or one that
answers the bare status. -/
def errorAnswer (errorRoutes : Int32 → Option Handler) (statusCode : Int32) : Handler :=
  (errorRoutes statusCode).getD fun _ => .completes (.value (HTTPResponse.ofStatus statusCode.toInt16))

/-- The specification of dispatch. -/
def dispatch (errorRoutes : Int32 → Option Handler) (routes : List BaseRoute) : RouteMatch :=
  match firstMatch answer (routes.filter (·.isStaticRoute)) with
  | some route => answer route
  | none =>
      match firstMatch answer (routes.filter (!·.isStaticRoute)) with
      | some route => answer route
      | none =>
          if reportsMethod answer routes then
            ⟨.methodNotMatched, some (errorAnswer errorRoutes 405), none⟩
          else ⟨.pathNotMatched, some (errorAnswer errorRoutes 404), none⟩

end Answers

theorem getErrorHandler_eq (router : Router) (statusCode : Int32) :
    router.getErrorHandler statusCode = errorAnswer router.errorRoutes statusCode := by
  unfold getErrorHandler errorAnswer
  cases router.errorRoutes statusCode <;> rfl

/-- A mismatch is reported by a static or by a dynamic route. -/
theorem reportsMethod_partition (answer : BaseRoute → RouteMatch) (routes : List BaseRoute) :
    (reportsMethod answer (routes.filter (·.isStaticRoute)) ||
      reportsMethod answer (routes.filter (!·.isStaticRoute))) = reportsMethod answer routes := by
  induction routes with
  | nil => rfl
  | cons route routes ih =>
      simp only [reportsMethod] at ih ⊢
      cases hStatic : route.isStaticRoute
      · rw [List.filter_cons_of_neg (by simp [hStatic]), List.filter_cons_of_pos (by simp [hStatic]),
          List.any_cons, List.any_cons, ← ih, Bool.or_left_comm]
      · rw [List.filter_cons_of_pos (by simp [hStatic]), List.filter_cons_of_neg (by simp [hStatic]),
          List.any_cons, List.any_cons, ← ih, Bool.or_assoc]

/-- Dispatch by a router that was made from a list of routes: first the static ones of
the list, then the others, each in its order. -/
theorem getHandler_dispatch {request : HTTPMessage} (errorRoutes : Int32 → Option Handler)
    (routes : List BaseRoute) (answer : BaseRoute → RouteMatch)
    (hAnswer : ∀ route ∈ routes, route.handler request = .ok (answer route)) :
    (create errorRoutes routes).getHandler request = .ok (dispatch answer errorRoutes routes) := by
  have hStatic := tryRoutes_eq answer (routes.filter (·.isStaticRoute)) false
    fun route hMem => hAnswer route (List.mem_filter.mp hMem).1
  have hDynamic := fun flag => tryRoutes_eq answer (routes.filter (!·.isStaticRoute)) flag
    fun route hMem => hAnswer route (List.mem_filter.mp hMem).1
  have hReports := reportsMethod_partition answer routes
  rw [create_eq, getHandler, hStatic, dispatch]
  cases firstMatch answer (routes.filter (·.isStaticRoute)) with
  | some route => rfl
  | none =>
      simp only [Bind.bind, Except.bind, hDynamic, Bool.false_or]
      cases firstMatch answer (routes.filter (!·.isStaticRoute)) with
      | some route => rfl
      | none =>
          rw [hReports]
          simp only [getErrorHandler_eq]
          cases reportsMethod answer routes <;> rfl

/-- A router dispatches as specified, however it was built, and the order of
its list matters only within the static and within the dynamic routes. -/
theorem getHandler_eq_dispatch (errorRoutes : Int32 → Option Handler) (routes : List BaseRoute)
    (request : HTTPMessage) (answer : BaseRoute → RouteMatch)
    (hAnswer : ∀ route ∈ routes, route.handler request = .ok (answer route)) :
    (create errorRoutes routes).getHandler request = .ok (dispatch answer errorRoutes routes) ∧
      (makeRouter errorRoutes routes).getHandler request =
        .ok (dispatch answer errorRoutes routes) ∧
      ∀ reordered : List BaseRoute,
        reordered.filter (·.isStaticRoute) = routes.filter (·.isStaticRoute) →
        reordered.filter (!·.isStaticRoute) = routes.filter (!·.isStaticRoute) →
        (create errorRoutes reordered).getHandler request =
          .ok (dispatch answer errorRoutes routes) := by
  have hDispatch : (create errorRoutes routes).getHandler request =
      .ok (dispatch answer errorRoutes routes) := getHandler_dispatch errorRoutes routes answer hAnswer
  refine ⟨hDispatch, by rw [makeRouter_eq]; exact hDispatch, ?_⟩
  intro reordered hStatic hDynamic
  rw [create_eq, hStatic, hDynamic, ← create_eq]
  exact hDispatch

/-- A dynamic route that reports a method mismatch, then a static one that
matches: the static route is found, wherever it stands in the list. -/
theorem getHandler_eq_dispatch_example :
    (create (fun _ => none)
        [⟨false, fun _ => .ok (.ofResult .methodNotMatched)⟩,
          ⟨true, fun _ => .ok (.ofHandler .routeMatched fun _ => .never)⟩]).getHandler
          ⟨none, ascii "/", []⟩ =
      .ok (.ofHandler .routeMatched fun _ => .never) :=
  (getHandler_eq_dispatch (fun _ => none)
    [⟨false, fun _ => .ok (.ofResult .methodNotMatched)⟩,
      ⟨true, fun _ => .ok (.ofHandler .routeMatched fun _ => .never)⟩] ⟨none, ascii "/", []⟩
    (fun route => if route.isStaticRoute then .ofHandler .routeMatched fun _ => .never
      else .ofResult .methodNotMatched)
    (by simp)).1

end Router

end Nozomi
