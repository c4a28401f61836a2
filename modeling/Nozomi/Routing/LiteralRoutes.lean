import Nozomi.Routing.HandlerCreation
import Nozomi.Routing.RouteMeaning

/-! Routes without placeholders and special characters. A dynamic route with such a
pattern answers as a static one does, and only the order in which a router tries its
routes can tell the two apart. -/
namespace Nozomi

open Text Pattern

namespace RouteParsing

/-- A text without special characters has no braces, so that it has no placeholders. -/
theorem plain_ne_brace {c : Byte} (h : isPlain c = true) : c ≠ openBrace := by
  rintro rfl
  cases h

/-- There is nothing to replace in a text without special characters. -/
theorem scan_plain {pattern : Bytes} (h : ∀ c ∈ pattern, isPlain c = true) :
    scan pattern = (scanned [], pattern) := by
  have hBraces : ¬[openBrace, openBrace] <:+: pattern := by
    intro hInfix
    have hMem : openBrace ∈ pattern := hInfix.subset (by simp)
    exact plain_ne_brace (h openBrace hMem) rfl
  rw [scan, Regex.sregexIterator_none (search_literal hBraces)]
  rfl

/-- Without placeholders there is nothing to cut: the path is accepted by the text
itself. -/
theorem cut_nil_iff {tail path : Bytes} {values : List (Option Bytes)} :
    Cut [] tail path values ↔ Accepts (patternMeaning tail) path ∧ values = [] := by
  constructor
  · intro h
    cases h with
    | tail hTail => exact ⟨hTail, rfl⟩
  · intro ⟨hTail, hValues⟩
    rw [hValues]
    exact .tail hTail

/-- Every literal pattern makes a route, which answers each request as the static
route for the same text does. -/
theorem exists_literal_route {ρ : Type} {library : RegexLibrary ρ}
    {pattern : Bytes} (hLibrary : Handles library pattern)
    (hPlain : ∀ c ∈ pattern, isPlain c = true) (methods : List HTTPMethod) (callable : RouteCallable) :
    ∃ route, Route.create library pattern methods [] callable = .ok route ∧
      ∀ uri conversions request, route.handler uri library conversions request =
        StaticRoute.handler uri ⟨pattern, methods, callable⟩ request := by
  have hScan := scan_plain hPlain
  have hUndisturbed : Undisturbed [] 0 (scan pattern).1 (scan pattern).2 := by
    rw [hScan]
    trivial
  obtain ⟨route, hRoute, hMethods, hArgs, hCallable, hAnswers⟩ := exists_route hLibrary hScan
    hUndisturbed ⟨by simp, oneBranch_plain hPlain⟩ methods callable
  refine ⟨route, hRoute, ?_⟩
  intro uri conversions request
  have hAnswer := hAnswers uri conversions request
  simp only [cut_nil_iff, accepts_plain_iff hPlain, hMethods, hArgs, hCallable, List.map_nil] at hAnswer
  simp only [StaticRoute.handler, ne_eq, ite_not]
  cases hAnswer with
  | inl hOther =>
      obtain ⟨hPath, hHandler⟩ := hOther
      rw [hHandler, if_neg (by simpa using hPath)]
  | inr hSame =>
      obtain ⟨values, ⟨hPath, rfl⟩, hHandler⟩ := hSame
      rw [hHandler, if_pos hPath]
      by_cases hMethod : (HTTPRequest.getMethodAndPath uri request).1 ∈ methods
      · rw [if_pos hMethod, if_pos hMethod]
        rfl
      · rw [if_neg hMethod, if_neg hMethod]

theorem exists_static_answer (uri : UriLibrary) (route : StaticRoute) (request : HTTPMessage) :
    ∃ found, route.handler uri request = .ok found := by
  unfold StaticRoute.handler
  dsimp only
  split
  · exact ⟨_, rfl⟩
  · split <;> exact ⟨_, rfl⟩

/-- A static route answers with a match exactly for its text and its methods, and
never throws. -/
theorem static_result {uri : UriLibrary} {route : StaticRoute} {request : HTTPMessage} {found : RouteMatch}
    (h : route.handler uri request = .ok found) : found.result = .routeMatched ↔
      (HTTPRequest.getMethodAndPath uri request).2 = route.originalPattern ∧
        (HTTPRequest.getMethodAndPath uri request).1 ∈ route.methods := by
  simp only [StaticRoute.handler, ne_eq, ite_not] at h
  by_cases hPath : (HTTPRequest.getMethodAndPath uri request).2 = route.originalPattern
  · by_cases hMethod : (HTTPRequest.getMethodAndPath uri request).1 ∈ route.methods
    · rw [if_pos hPath, if_pos hMethod] at h
      obtain rfl := Except.ok.inj h
      refine iff_of_true ?_ ⟨hPath, hMethod⟩
      unfold RouteCallable.makeMatch
      split <;> rfl
    · rw [if_pos hPath, if_neg hMethod] at h
      obtain rfl := Except.ok.inj h
      exact iff_of_false (by simp [RouteMatch.ofResult]) fun hBoth => hMethod hBoth.2
  · rw [if_neg hPath] at h
    obtain rfl := Except.ok.inj h
    exact iff_of_false (by simp [RouteMatch.ofResult]) fun hBoth => hPath hBoth.1

end RouteParsing

namespace Router

/-- What comes after some routes counts only through what it makes of the flag. -/
theorem tryRoutes_congr {request : HTTPMessage} (before : List BaseRoute) {rest others : List BaseRoute}
    (h : ∀ flag, tryRoutes request rest flag = tryRoutes request others flag) (flag : Bool) :
    tryRoutes request (before ++ rest) flag = tryRoutes request (before ++ others) flag := by
  simp only [tryRoutes_append, h]

/-- Two routes that do not both match may be tried in any order. -/
theorem tryRoutes_swap {request : HTTPMessage} {first second : BaseRoute} {found other : RouteMatch}
    (hFirst : first.handler request = .ok found) (hSecond : second.handler request = .ok other)
    (hNotBoth : found.result = .routeMatched → other.result ≠ .routeMatched) (rest : List BaseRoute)
    (flag : Bool) :
    tryRoutes request (first :: second :: rest) flag =
      tryRoutes request (second :: first :: rest) flag := by
  simp only [tryRoutes, hFirst, hSecond, Bind.bind, Except.bind, Pure.pure, Except.pure]
  cases hFound : found.result with
  | routeMatched =>
      have hOther := hNotBoth hFound
      cases hResult : other.result with
      | routeMatched => exact absurd hResult hOther
      | pathNotMatched | methodNotMatched => rfl
  | pathNotMatched | methodNotMatched => cases other.result <;> rfl

/-- A route may be tried later, after routes that do not match where it matches. -/
theorem tryRoutes_move {request : HTTPMessage} {first later : BaseRoute} {found : RouteMatch}
    (hFirst : first.handler request = .ok found) (hLater : later.handler request = .ok found)
    {between : List BaseRoute} (after : List BaseRoute)
    (hBetween : ∀ route ∈ between, ∃ other, route.handler request = .ok other ∧
      (found.result = .routeMatched → other.result ≠ .routeMatched)) (flag : Bool) :
    tryRoutes request (first :: (between ++ after)) flag =
      tryRoutes request (between ++ later :: after) flag := by
  induction between generalizing flag with
  | nil => simp only [List.nil_append, tryRoutes, hFirst, hLater]
  | cons route between ih =>
      obtain ⟨⟨other, hRoute, hNotBoth⟩, hRest⟩ := List.forall_mem_cons.mp hBetween
      rw [List.cons_append, tryRoutes_swap hFirst hRoute hNotBoth]
      exact tryRoutes_congr [route] (ih hRest) flag

/-- A dynamic route may be made static if the routes that it overtakes do not match
where it matches. -/
theorem getHandler_static {request : HTTPMessage} {handle : HTTPMessage → Throws RouteMatch}
    {found : RouteMatch} (hFound : handle request = .ok found) (errorRoutes : Int32 → Option Handler)
    (before after : List BaseRoute)
    (hOvertaken : ∀ route ∈ after.filter (·.isStaticRoute) ++ before.filter (!·.isStaticRoute),
      ∃ other, route.handler request = .ok other ∧
        (found.result = .routeMatched → other.result ≠ .routeMatched)) :
    (create errorRoutes (before ++ ⟨true, handle⟩ :: after)).getHandler request =
      (create errorRoutes (before ++ ⟨false, handle⟩ :: after)).getHandler request := by
  have hMoved : ∀ flag, tryRoutes request
      (before.filter (·.isStaticRoute) ++ (⟨true, handle⟩ :: (after.filter (·.isStaticRoute) ++
        before.filter (!·.isStaticRoute) ++ after.filter (!·.isStaticRoute)))) flag =
      tryRoutes request (before.filter (·.isStaticRoute) ++ (after.filter (·.isStaticRoute) ++
        before.filter (!·.isStaticRoute) ++ ⟨false, handle⟩ :: after.filter (!·.isStaticRoute))) flag :=
    tryRoutes_congr _ (@tryRoutes_move _ _ ⟨false, handle⟩ _ hFound hFound _ _ hOvertaken)
  rw [getHandler_eq_append, getHandler_eq_append, create_eq, create_eq]
  simp only [List.filter_append, List.filter_cons, Bool.not_true, Bool.not_false, if_true,
    Bool.false_eq_true, if_false, List.append_assoc, List.cons_append] at hMoved ⊢
  rw [hMoved]
  rfl

end Router

namespace RouteParsing

/-- A literal route may be declared static instead of dynamic. Requests are answered
in the same way, apart from those for its text and methods which a route matches
that it overtakes. -/
theorem literal_route_as_static {ρ : Type} {library : RegexLibrary ρ}
    {pattern : Bytes} (hLibrary : Handles library pattern)
    (hPlain : ∀ c ∈ pattern, isPlain c = true) (methods : List HTTPMethod) (callable : RouteCallable)
    (errorRoutes : Int32 → Option Handler) (before after : List BaseRoute) :
    ∃ route, Route.create library pattern methods [] callable = .ok route ∧
      ∀ uri conversions request,
        (∀ overtaken ∈ after.filter (·.isStaticRoute) ++ before.filter (!·.isStaticRoute),
          ∃ other, overtaken.handler request = .ok other ∧
            ((HTTPRequest.getMethodAndPath uri request).2 = pattern →
              (HTTPRequest.getMethodAndPath uri request).1 ∈ methods →
                other.result ≠ .routeMatched)) →
        (Router.create errorRoutes (before ++
            ⟨true, StaticRoute.handler uri ⟨pattern, methods, callable⟩⟩ :: after)).getHandler request =
          (Router.create errorRoutes (before ++
            ⟨false, route.handler uri library conversions⟩ :: after)).getHandler request := by
  obtain ⟨route, hRoute, hSame⟩ := exists_literal_route hLibrary hPlain methods callable
  refine ⟨route, hRoute, ?_⟩
  intro uri conversions request hOvertaken
  have hHandlers : route.handler uri library conversions =
      StaticRoute.handler uri ⟨pattern, methods, callable⟩ := funext (hSame uri conversions)
  obtain ⟨found, hFound⟩ := exists_static_answer uri ⟨pattern, methods, callable⟩ request
  rw [hHandlers]
  apply Router.getHandler_static hFound
  intro overtaken hMem
  obtain ⟨other, hOther, hNotBoth⟩ := hOvertaken overtaken hMem
  refine ⟨other, hOther, fun hResult => ?_⟩
  obtain ⟨hPath, hMethod⟩ := (static_result hFound).mp hResult
  exact hNotBoth hPath hMethod

/-- The route for `/` is overtaken without effect. -/
theorem literal_route_as_static_example : ∃ route,
    Route.create patternLibrary (ascii "/user") [.post] [] (.streaming (.ok none)) = .ok route ∧
      ∀ conversions request,
        (Router.create (fun _ => none) [
            ⟨false, StaticRoute.handler uriDecoder ⟨ascii "/", [.get, .post], .streaming (.ok none)⟩⟩,
            ⟨true, StaticRoute.handler uriDecoder ⟨ascii "/user", [.post], .streaming (.ok none)⟩⟩]).getHandler
              request =
          (Router.create (fun _ => none) [
            ⟨false, StaticRoute.handler uriDecoder ⟨ascii "/", [.get, .post], .streaming (.ok none)⟩⟩,
            ⟨false, route.handler uriDecoder patternLibrary conversions⟩]).getHandler request := by
  have hPlain : ∀ c ∈ ascii "/user", isPlain c = true := List.all_eq_true.mp rfl
  have hHandles := handles_patternLibrary (show rewritten (ascii "/user") = .ok (ascii "/user") by decide)
    rfl (by decide)
  obtain ⟨route, hRoute, hSame⟩ := literal_route_as_static hHandles hPlain [.post] (.streaming (.ok none))
    (fun _ => none)
    [⟨false, StaticRoute.handler uriDecoder ⟨ascii "/", [.get, .post], .streaming (.ok none)⟩⟩] []
  refine ⟨route, hRoute, fun conversions request => hSame uriDecoder conversions request ?_⟩
  intro overtaken hMem
  obtain rfl := List.mem_singleton.mp hMem
  obtain ⟨other, hOther⟩ := exists_static_answer uriDecoder
    ⟨ascii "/", [.get, .post], .streaming (.ok none)⟩ request
  refine ⟨other, hOther, fun hPath _ hResult => ?_⟩
  have hRoot := ((static_result hOther).mp hResult).1
  rw [hPath] at hRoot
  exact absurd hRoot (by decide)

end RouteParsing

end Nozomi
