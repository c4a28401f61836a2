import Nozomi.Handling.PathContainment
import Nozomi.Routing.LiteralRoutes

/-! The example program: four routes, the last of which serves files below a
directory. Every request that it can receive is decided here. -/
namespace Nozomi

open Text Pattern Filesystem RouteParsing

namespace SimpleServer

section Program

variable {ρ : Type} (library : RegexLibrary ρ) (uri : UriLibrary) (conversions : Conversions)

/-- An object of the file handler class, whose `setRequestArgs` keeps the path. -/
def fileHandler : StreamingObject := ⟨fun _ => .ok ()⟩

/-- The patterns of the routes. -/
def patterns : List Bytes :=
  [ascii "/", ascii "/user", ascii "/user/\x7b\x7bi\x7d\x7d", ascii "/\x7b\x7bs:.*\x7d\x7d"]

/-- The routes that `main` makes, none of them static. -/
def routes : Throws (List (Route ρ)) := do
  let root ← Route.create library (ascii "/") [.get] []
    (.future fun _ _ => (HTTPResponse.ofStatus 200).future)
  let newUser ← Route.create library (ascii "/user") [.post] []
    (.future fun _ _ => (HTTPResponse.ofString 200 (ascii "Created user!")).future)
  let user ← Route.create library (ascii "/user/\x7b\x7bi\x7d\x7d") [.post] [.int64]
    (.future fun _ _ => (HTTPResponse.ofString 200 []).future)
  let files ← Route.create library (ascii "/\x7b\x7bs:.*\x7d\x7d") [.get] [.string]
    (.streaming (.ok (some fileHandler)))
  return [root, newUser, user, files]

/-- The factory of the server, with the default timeout and no error routes. -/
def factory (routes : List (Route ρ)) : HTTPHandlerFactory :=
  ⟨30000, Router.makeRouter (fun _ => none)
    (routes.map fun route => ⟨false, route.handler uri library conversions⟩)⟩

end Program

/-- A handler that always sends the same response. -/
def always (response : HTTPResponse) : RequestHandler := .httpHandler 30000 fun _ => response.future

/-- The path of a user with a number. -/
def isUser (path : Bytes) : Bool := (ascii "/user/").isPrefixOf path && isInteger (path.drop 6)

/-- What the program is to do with a request. -/
def serve (method : HTTPMethod) (path : Bytes) : RequestHandler :=
  if path = ascii "/" ∧ method = .get then always (.ofStatus 200)
  else if path = ascii "/user" ∧ method = .post then always (.ofString 200 (ascii "Created user!"))
  else if isUser path ∧ method = .post then always (.ofString 200 [])
  else if path.head? = some slash then
    if method = .get then .streamingHandler fileHandler [.string path.tail]
    else always (.ofStatus 405)
  else always (.ofStatus 404)

/-- A route answers with its own match, or it tells why it does not match. -/
def answer (pathMatches methodMatches : Prop) [Decidable pathMatches] [Decidable methodMatches]
    (matched : RouteMatch) : Throws RouteMatch :=
  .ok (if pathMatches then if methodMatches then matched else .ofResult .methodNotMatched
    else .ofResult .pathNotMatched)

/-- A route that answers along two conditions: it is taken if both hold, and
otherwise the search goes on, with the flag that its path has matched. -/
theorem tryRoutes_answer {request : HTTPMessage} {route : BaseRoute} {pathMatches methodMatches : Prop}
    [Decidable pathMatches] [Decidable methodMatches] {matched : RouteMatch}
    (hRoute : route.handler request = answer pathMatches methodMatches matched)
    (hMatched : matched.result = .routeMatched) (rest : List BaseRoute) (flag : Bool) :
    Router.tryRoutes request (route :: rest) flag =
      if pathMatches ∧ methodMatches then .ok (.inl matched)
      else Router.tryRoutes request rest (flag || decide pathMatches) := by
  rw [Router.tryRoutes, hRoute, answer]
  by_cases hPath : pathMatches
  · by_cases hMethod : methodMatches
    · simp [hPath, hMethod, hMatched, Bind.bind, Except.bind, Pure.pure, Except.pure]
    · simp [hPath, hMethod, RouteMatch.ofResult, Bind.bind, Except.bind]
  · simp [hPath, RouteMatch.ofResult, Bind.bind, Except.bind]

/-- A path is cut along a text and one required placeholder at its end, and the
placeholder takes all the rest. -/
theorem cut_one_iff {literal path : Bytes} (hPlain : ∀ c ∈ literal, isPlain c = true) {p : Placeholder}
    (hRequired : p = .int ∨ ∃ value, p = .string value) {values : List (Option Bytes)} :
    Cut [(literal, p)] [] path values ↔
      ∃ text, p.IsValue text ∧ path = literal ++ text ∧ values = [some text] := by
  have hNone : ∀ taken, ¬p.Takes taken none := by
    intro taken hTaken
    rcases hRequired with rfl | ⟨value, rfl⟩ <;> cases hTaken.1
  have hConsumed : p.param.consumed = [] := by
    rcases hRequired with rfl | ⟨value, rfl⟩ <;> rfl
  have hEmpty : ∀ text, Accepts (patternMeaning []) text ↔ text = [] :=
    fun text => accepts_plain_iff (by simp)
  constructor
  · intro h
    cases h with
    | @take _ before taken _ rest _ value _ values hLiteral hTaken hRest =>
        obtain ⟨hTail, rfl⟩ := cut_nil_iff.mp hRest
        obtain rfl := (hEmpty rest).mp hTail
        obtain rfl := (accepts_plain_iff hPlain).mp hLiteral
        cases value with
        | none => exact absurd hTaken (hNone taken)
        | some text =>
            obtain ⟨hIs, consumed, hMore, rfl⟩ := hTaken
            rw [hConsumed, hEmpty] at hMore
            exact ⟨text, hIs, by rw [hMore]; simp, rfl⟩
  · intro ⟨text, hIs, hPath, hValues⟩
    have hTaken : p.Takes text (some text) :=
      ⟨hIs, [], by rw [hConsumed, hEmpty], (List.append_nil text).symm⟩
    have hCut := Cut.take ((accepts_plain_iff hPlain).mpr rfl) hTaken
      (.tail ((hEmpty []).mpr rfl) : Cut [] [] [] [])
    rw [List.append_nil] at hCut
    rw [hPath, hValues]
    exact hCut

theorem isUser_iff (path : Bytes) :
    isUser path = true ↔ ∃ text, isInteger text = true ∧ path = ascii "/user/" ++ text := by
  have hDrop : ∀ text, (ascii "/user/" ++ text).drop 6 = text := fun text => rfl
  rw [isUser, Bool.and_eq_true, List.isPrefixOf_iff_prefix]
  constructor
  · intro ⟨⟨text, hPath⟩, hInteger⟩
    rw [← hPath, hDrop] at hInteger
    exact ⟨text, hInteger, hPath.symm⟩
  · intro ⟨text, hInteger, hPath⟩
    rw [hPath, hDrop]
    exact ⟨List.prefix_append _ _, hInteger⟩

/-- The number of a user is always converted. -/
theorem argument_int64 {conversions : Conversions} (h : conversions.Documented) {text : Bytes}
    (hInteger : isInteger text = true) :
    ∃ value, argumentList conversions [.int64] [some text] = .ok [.int64 value] := by
  obtain ⟨value, hValue⟩ := int64OrMax_of_integer h hInteger
  refine ⟨value, ?_⟩
  have hArgument : argument conversions .int64 (some text) = .ok (.int64 value) := by
    rw [argument, Conversions.getHandlerArg, Match.str, Option.getD_some, hValue]
    rfl
  rw [argumentList, List.zip_cons_cons, List.mapM_cons, hArgument]
  rfl

section Routes

variable {ρ : Type} {library : RegexLibrary ρ}

/-- A route without placeholders can be made, and answers exactly its own path. -/
theorem exists_literal_answer {pattern : Bytes} (hLibrary : Handles library pattern)
    (hPlain : ∀ c ∈ pattern, isPlain c = true) (method : HTTPMethod) (response : HTTPResponse) :
    ∃ route, Route.create library pattern [method] [] (.future fun _ _ => response.future) = .ok route ∧
      ∀ uri conversions request, route.handler uri library conversions request =
        answer ((HTTPRequest.getMethodAndPath uri request).2 = pattern)
          ((HTTPRequest.getMethodAndPath uri request).1 = method)
          (.ofHandler .routeMatched fun _ => response.future) := by
  obtain ⟨route, hRoute, hSame⟩ := exists_literal_route hLibrary hPlain [method]
    (.future fun _ _ => response.future)
  refine ⟨route, hRoute, fun uri conversions request => ?_⟩
  rw [hSame, StaticRoute.handler, answer]
  simp only [ne_eq, ite_not, List.mem_singleton, RouteCallable.makeMatch]
  by_cases hPath : (HTTPRequest.getMethodAndPath uri request).2 = pattern
  · by_cases hMethod : (HTTPRequest.getMethodAndPath uri request).1 = method
    · simp only [if_pos hPath, if_pos hMethod]
    · simp only [if_pos hPath, if_neg hMethod]
  · simp only [if_neg hPath]

/-- The route of the users can be made, and answers the paths with an integer. The
argument is there, since such an integer can be converted. -/
theorem exists_user_answer (hLibrary : Handles library (ascii "/user/\x7b\x7bi\x7d\x7d")) : ∃ route,
    Route.create library (ascii "/user/\x7b\x7bi\x7d\x7d") [.post] [.int64]
        (.future fun _ _ => (HTTPResponse.ofString 200 []).future) = .ok route ∧
      ∀ uri conversions request, conversions.Documented →
        route.handler uri library conversions request =
          answer (isUser (HTTPRequest.getMethodAndPath uri request).2 = true)
            ((HTTPRequest.getMethodAndPath uri request).1 = .post)
            (.ofHandler .routeMatched fun _ => (HTTPResponse.ofString 200 []).future) := by
  have hParts : PartsReadable [(ascii "/user/", .int)] [] := by
    refine ⟨?_, oneBranch_plain (by simp)⟩
    simp only [List.mem_singleton, forall_eq]
    exact ⟨oneBranch_plain (List.all_eq_true.mp rfl), ⟨_, rfl, trivial, trivial⟩,
      oneBranch_plain (List.all_eq_true.mp rfl)⟩
  have hScan : scan (ascii "/user/\x7b\x7bi\x7d\x7d") = (scanned [(ascii "/user/", .int)], []) := by
    decide
  obtain ⟨route, hRoute, hMethods, hArgs, hCallable, hAnswers⟩ := exists_route hLibrary hScan
    (by decide) hParts [.post] (.future fun _ _ => (HTTPResponse.ofString 200 []).future)
  refine ⟨route, hRoute, fun uri conversions request hConversions => ?_⟩
  have hCuts : ∀ path values, Cut [(ascii "/user/", .int)] [] path values ↔
      ∃ text, isInteger text = true ∧ path = ascii "/user/" ++ text ∧ values = [some text] :=
    fun _ _ => cut_one_iff (List.all_eq_true.mp rfl) (Or.inl rfl)
  have hAnswer := hAnswers uri conversions request
  simp only [hCuts, hMethods, hArgs, hCallable, List.mem_singleton] at hAnswer
  rw [answer]
  cases hAnswer with
  | inl hOther =>
      obtain ⟨hCut, hHandler⟩ := hOther
      rw [hHandler, if_neg]
      intro hUser
      obtain ⟨text, hInteger, hPath⟩ := (isUser_iff _).mp hUser
      exact hCut ⟨_, text, hInteger, hPath, rfl⟩
  | inr hSame =>
      obtain ⟨values, ⟨text, hInteger, hPath, rfl⟩, hHandler⟩ := hSame
      obtain ⟨value, hValue⟩ := argument_int64 hConversions hInteger
      have hTypes : [(ascii "/user/", Placeholder.int)].map (fun segment => segment.2.param.type) =
          [.int64] := rfl
      rw [hHandler, if_pos ((isUser_iff _).mpr ⟨text, hInteger, hPath⟩), hTypes, hValue]
      rfl

/-- The last route takes every path that begins with a slash. Its expression matches
any text, so that the argument is the rest of the path. -/
theorem exists_files_answer (hLibrary : Handles library (ascii "/\x7b\x7bs:.*\x7d\x7d")) : ∃ route,
    Route.create library (ascii "/\x7b\x7bs:.*\x7d\x7d") [.get] [.string]
        (.streaming (.ok (some fileHandler))) = .ok route ∧
      ∀ uri conversions request, route.handler uri library conversions request =
        answer ((HTTPRequest.getMethodAndPath uri request).2.head? = some slash)
          ((HTTPRequest.getMethodAndPath uri request).1 = .get)
          (.ofStreaming .routeMatched (.ok (some (.streamingHandler fileHandler
            [.string (HTTPRequest.getMethodAndPath uri request).2.tail])))) := by
  have hParts : PartsReadable [(ascii "/", .string (ascii ".*"))] [] := by
    refine ⟨?_, oneBranch_plain (by simp)⟩
    simp only [List.mem_singleton, forall_eq]
    exact ⟨oneBranch_plain (List.all_eq_true.mp rfl), ⟨_, rfl, trivial⟩, oneBranch_plain (List.all_eq_true.mp rfl)⟩
  have hScan : scan (ascii "/\x7b\x7bs:.*\x7d\x7d") =
      (scanned [(ascii "/", .string (ascii ".*"))], []) := by decide
  obtain ⟨route, hRoute, hMethods, hArgs, hCallable, hAnswers⟩ := exists_route hLibrary hScan
    (by decide) hParts [.get] (.streaming (.ok (some fileHandler)))
  have hAny : ∀ text, Accepts (patternMeaning (ascii ".*")) text := by
    intro text
    exact accepts_rep_set_iff.mpr ⟨Nat.zero_le _, fun _ _ => rfl⟩
  have hCuts : ∀ path values, Cut [(ascii "/", .string (ascii ".*"))] [] path values ↔
      ∃ text, Accepts (patternMeaning (ascii ".*")) text ∧ path = ascii "/" ++ text ∧
        values = [some text] :=
    fun _ _ => cut_one_iff (List.all_eq_true.mp rfl) (Or.inr ⟨_, rfl⟩)
  refine ⟨route, hRoute, fun uri conversions request => ?_⟩
  have hAnswer := hAnswers uri conversions request
  simp only [hCuts, hMethods, hArgs, hCallable, List.mem_singleton] at hAnswer
  rw [answer]
  cases hAnswer with
  | inl hOther =>
      obtain ⟨hCut, hHandler⟩ := hOther
      rw [hHandler, if_neg]
      intro hSlash
      obtain ⟨rest, hPath⟩ := List.head?_eq_some_iff.mp hSlash
      exact hCut ⟨_, rest, hAny rest, hPath, rfl⟩
  | inr hSame =>
      obtain ⟨values, ⟨text, _, hPath, rfl⟩, hHandler⟩ := hSame
      rw [hHandler, hPath]
      rfl

/-- The program starts, and every request is given the handler that it should have:
none ends the program, and none is left without a handler. -/
theorem every_request_is_served (hLibrary : ∀ pattern ∈ patterns, Handles library pattern) : ∃ made, routes library = .ok made ∧
    ∀ uri conversions message, conversions.Documented →
      (factory library uri conversions made).onRequest message =
        .ok (some (serve (HTTPRequest.getMethodAndPath uri message).1
          (HTTPRequest.getMethodAndPath uri message).2)) := by
  have hRootPlain : ∀ c ∈ ascii "/", isPlain c = true := List.all_eq_true.mp rfl
  have hNewUserPlain : ∀ c ∈ ascii "/user", isPlain c = true := List.all_eq_true.mp rfl
  simp only [patterns, List.forall_mem_cons, List.not_mem_nil, false_implies, implies_true, and_true]
    at hLibrary
  obtain ⟨hRootHandles, hNewUserHandles, hUserHandles, hFilesHandles⟩ := hLibrary
  obtain ⟨root, hRoot, hRootAnswer⟩ := exists_literal_answer hRootHandles hRootPlain .get (.ofStatus 200)
  obtain ⟨newUser, hNewUser, hNewUserAnswer⟩ := exists_literal_answer hNewUserHandles hNewUserPlain
    .post (.ofString 200 (ascii "Created user!"))
  obtain ⟨user, hUser, hUserAnswer⟩ := exists_user_answer hUserHandles
  obtain ⟨files, hFiles, hFilesAnswer⟩ := exists_files_answer hFilesHandles
  refine ⟨[root, newUser, user, files], ?_, ?_⟩
  · rw [routes, hRoot, hNewUser, hUser, hFiles]
    rfl
  · intro uri conversions message hConversions
    rw [HTTPHandlerFactory.onRequest, factory, Router.makeRouter_eq, Router.getHandler_eq_append,
      Router.create_eq]
    simp only [List.map_cons, List.map_nil, List.filter_cons, List.filter_nil, Bool.false_eq_true,
      if_false, Bool.not_false, if_true, List.nil_append]
    rw [tryRoutes_answer (hRootAnswer uri conversions message) rfl,
      tryRoutes_answer (hNewUserAnswer uri conversions message) rfl,
      tryRoutes_answer (hUserAnswer uri conversions message hConversions) rfl,
      tryRoutes_answer (hFilesAnswer uri conversions message) rfl, Router.tryRoutes, serve]
    generalize HTTPRequest.getMethodAndPath uri message = methodAndPath
    obtain ⟨method, path⟩ := methodAndPath
    dsimp only
    by_cases hOne : path = ascii "/" ∧ method = .get
    · rw [if_pos hOne, if_pos hOne]
      rfl
    rw [if_neg hOne, if_neg hOne]
    by_cases hTwo : path = ascii "/user" ∧ method = .post
    · rw [if_pos hTwo, if_pos hTwo]
      rfl
    rw [if_neg hTwo, if_neg hTwo]
    by_cases hThree : isUser path = true ∧ method = .post
    · rw [if_pos hThree, if_pos hThree]
      rfl
    rw [if_neg hThree, if_neg hThree]
    by_cases hSlash : path.head? = some slash
    · rw [if_pos hSlash]
      by_cases hGet : method = .get
      · rw [if_pos ⟨hSlash, hGet⟩, if_pos hGet]
        rfl
      · rw [if_neg fun h => hGet h.2, if_neg hGet, decide_eq_true hSlash, Bool.or_true]
        rfl
    · have hOther : ¬path = ascii "/" ∧ ¬path = ascii "/user" ∧ isUser path = false := by
        refine ⟨?_, ?_, ?_⟩
        · rintro rfl
          exact hSlash rfl
        · rintro rfl
          exact hSlash rfl
        · rw [← Bool.not_eq_true, isUser_iff]
          rintro ⟨text, _, rfl⟩
          exact hSlash rfl
      rw [if_neg fun h => hSlash h.1, if_neg hSlash, decide_eq_false hOther.1,
        decide_eq_false hOther.2.1, hOther.2.2, decide_eq_false hSlash]
      rfl

end Routes

/-- The file that a request makes the program look for: the file handler is made for
the directory `public`, is given its arguments and then the request. -/
def fileOf (paths : PathLibrary) (time : TimeLibrary) (expireTime : Tm) (handler : RequestHandler)
    (request : HTTPRequest) : Option Bytes :=
  match handler with
  | .streamingHandler _ [.string path] => some
      (StreamingFileHandler.onRequestReceived paths time expireTime
        (StreamingFileHandler.setRequestArgs (.create (ascii "public") 4096) path) request).path
  | _ => none

/-- What the file handler looks for is inside of `public` unless the network root
is kept. -/
theorem inside_public_iff {paths : PathLibrary} (hPosix : paths.Posix) (time : TimeLibrary)
    (expireTime : Tm) (request : HTTPRequest) (rest : Bytes) :
    StreamingFileHandler.Inside (ascii "public") (StreamingFileHandler.onRequestReceived paths time
        expireTime (StreamingFileHandler.setRequestArgs (.create (ascii "public") 4096) rest) request).path ↔
      StreamingFileHandler.keepsParentRoot rest = false := by
  have hAppend := StreamingFileHandler.inside_append_iff hPosix (ascii "public")
    (StreamingFileHandler.sanitizePath paths rest)
  rw [StreamingFileHandler.onRequestReceived_path, ← Bool.not_eq_true,
    ← StreamingFileHandler.dotDot_mem_parts_sanitizePath hPosix]
  exact hAppend

/-- The program looks for a file only for `GET` requests below the root, and then
for the rest of the path. -/
theorem fileOf_serve (paths : PathLibrary) (time : TimeLibrary) (expireTime : Tm) (request : HTTPRequest)
    (method : HTTPMethod) (path : Bytes) :
    fileOf paths time expireTime (serve method path) request =
      if method = .get ∧ path.head? = some slash ∧ path ≠ ascii "/" then
        fileOf paths time expireTime (.streamingHandler fileHandler [.string path.tail]) request
      else none := by
  unfold serve
  split_ifs <;> first | rfl | (exfalso; simp_all)

/-- The program starts, every request is given the handler that it should have, and
it makes the program look for a file outside of `public` exactly if the method is
`GET` and a network root `//..` is kept after the first slash of the path. -/
theorem serves_files_inside {ρ : Type} {library : RegexLibrary ρ}
    (hLibrary : ∀ pattern ∈ patterns, Handles library pattern) {paths : PathLibrary}
    (hPosix : paths.Posix) :
    ∃ made, routes library = .ok made ∧
      ∀ uri conversions (request : HTTPRequest) time expireTime, conversions.Documented →
        let methodAndPath := HTTPRequest.getMethodAndPath uri request.message
        let handler := serve methodAndPath.1 methodAndPath.2
        (factory library uri conversions made).onRequest request.message = .ok (some handler) ∧
          ((∃ file, fileOf paths time expireTime handler request = some file ∧
              ¬StreamingFileHandler.Inside (ascii "public") file) ↔
            methodAndPath.1 = .get ∧ ∃ rest, methodAndPath.2 = slash :: rest ∧
              StreamingFileHandler.keepsParentRoot rest = true) := by
  obtain ⟨made, hMade, hServes⟩ := every_request_is_served hLibrary
  refine ⟨made, hMade, ?_⟩
  intro uri conversions request time expireTime hConversions methodAndPath handler
  refine ⟨hServes uri conversions request.message hConversions, ?_⟩
  have hOutside := fun rest => not_congr (inside_public_iff hPosix time expireTime request rest)
  simp only [Bool.not_eq_false] at hOutside
  rw [show handler = serve methodAndPath.1 methodAndPath.2 from rfl, fileOf_serve]
  generalize methodAndPath = methodAndPath
  obtain ⟨method, path⟩ := methodAndPath
  dsimp only
  constructor
  · intro ⟨file, hFile, hNot⟩
    split at hFile
    · rename_i hServed
      obtain ⟨rest, rfl⟩ := List.head?_eq_some_iff.mp hServed.2.1
      obtain rfl := Option.some.inj hFile
      exact ⟨hServed.1, rest, rfl, (hOutside rest).mp hNot⟩
    · cases hFile
  · intro ⟨hGet, rest, hPath, hKept⟩
    have hNotRoot : path ≠ ascii "/" := by
      rintro rfl
      obtain rfl : rest = [] := (List.cons.inj hPath).2.symm
      cases hKept
    rw [if_pos ⟨hGet, by rw [hPath]; rfl, hNotRoot⟩, hPath]
    exact ⟨_, rfl, (hOutside rest).mpr hKept⟩

/-- The executable library handles the patterns of the program. -/
theorem handles_patterns : ∀ pattern ∈ patterns, Handles patternLibrary pattern := by
  simp only [patterns, List.forall_mem_cons, List.not_mem_nil, false_implies, implies_true, and_true]
  have hRoot : rewritten (ascii "/") = .ok (ascii "/") := by decide
  have hNewUser : rewritten (ascii "/user") = .ok (ascii "/user") := by decide
  have hUser : rewritten (ascii "/user/\x7b\x7bi\x7d\x7d") = .ok (ascii "/user/(?<__0>[+-]?\\d+)") := by
    decide
  have hFiles : rewritten (ascii "/\x7b\x7bs:.*\x7d\x7d") = .ok (ascii "/(?<__0>.*)") := by decide
  exact ⟨handles_patternLibrary hRoot rfl (by decide),
    handles_patternLibrary hNewUser rfl (by decide),
    handles_patternLibrary hUser rfl (by decide),
    handles_patternLibrary hFiles rfl (by decide)⟩

/-- A request of `GET ///../secret`. -/
theorem serves_files_inside_example : ∃ made : List (Route (Pattern Byte Bytes)),
    routes patternLibrary = .ok made ∧
      (factory patternLibrary uriDecoder strictConversions made).onRequest
          ⟨some .get, ascii "///../secret", []⟩ =
        .ok (some (.streamingHandler fileHandler [.string (ascii "//../secret")])) ∧
      ∃ file, fileOf posix ⟨fun _ _ _ => none, fun _ => 0⟩ ⟨0, 0, 0, 0, 0, 0, 0, 0, 0⟩
          (.streamingHandler fileHandler [.string (ascii "//../secret")])
          ⟨⟨some .get, ascii "///../secret", []⟩, .create⟩ = some file ∧
        ¬StreamingFileHandler.Inside (ascii "public") file := by
  have hPath : HTTPRequest.getMethodAndPath uriDecoder ⟨some .get, ascii "///../secret", []⟩ =
      (.get, ascii "///../secret") := by decide +kernel
  have hServe : serve .get (ascii "///../secret") =
      .streamingHandler fileHandler [.string (ascii "//../secret")] := by
    rw [serve, if_neg (by decide), if_neg (by decide), if_neg (by decide), if_pos (by decide),
      if_pos rfl]
    rfl
  obtain ⟨made, hMade, hServes⟩ := serves_files_inside handles_patterns posix_posix
  obtain ⟨hHandler, hOutside⟩ := hServes uriDecoder strictConversions
    ⟨⟨some .get, ascii "///../secret", []⟩, .create⟩ ⟨fun _ _ _ => none, fun _ => 0⟩
    ⟨0, 0, 0, 0, 0, 0, 0, 0, 0⟩ strictConversions_documented
  rw [hPath, hServe] at hHandler hOutside
  exact ⟨made, hMade, hHandler, hOutside.mpr ⟨rfl, ascii "//../secret", rfl, by decide⟩⟩

end SimpleServer

end Nozomi
