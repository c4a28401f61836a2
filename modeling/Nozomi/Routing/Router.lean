import Nozomi.Message.HTTP

/-! The router: an ordered search among the static routes, then among the
dynamic ones, with an error handler where no route matches. -/
namespace Nozomi

open Text

inductive RouteMatchResult where
  | pathNotMatched
  | methodNotMatched
  | routeMatched
  deriving DecidableEq

/-- The types that a route hands to its handler. -/
inductive RouteArg where
  | int64 (value : Int64)
  | double (bits : UInt64)
  | string (value : Bytes)
  | optionalInt64 (value : Option Int64)
  | optionalDouble (bits : Option UInt64)
  | optionalString (value : Option Bytes)
  deriving DecidableEq

/-- An object of a user's streaming handler class, seen through what its
`setRequestArgs` does. -/
structure StreamingObject where
  setRequestArgs : List RouteArg → Throws Unit

/-- What proxygen is given to drive a request. A streaming handler keeps the
arguments that it was set up with. -/
inductive RequestHandler where
  | httpHandler (requestTimeout : Nat) (handler : Handler)
  | streamingHandler (object : StreamingObject) (args : List RouteArg)

/-- `none` is an empty `std::function`. Calling the streaming handler throws,
or returns a pointer that may be null. -/
structure RouteMatch where
  result : RouteMatchResult
  handler : Option Handler
  streamingHandler : Option (Throws (Option RequestHandler))

namespace RouteMatch

def ofResult (result : RouteMatchResult) : RouteMatch := ⟨result, none, none⟩

def ofHandler (result : RouteMatchResult) (handler : Handler) : RouteMatch :=
  ⟨result, some handler, none⟩

def ofStreaming (result : RouteMatchResult) (handler : Throws (Option RequestHandler)) : RouteMatch :=
  ⟨result, none, some handler⟩

end RouteMatch

/-- A route object, seen through its virtual functions. -/
structure BaseRoute where
  isStaticRoute : Bool
  handler : HTTPMessage → Throws RouteMatch

structure Router where
  staticRoutes : List BaseRoute
  routes : List BaseRoute
  errorRoutes : Int32 → Option Handler

namespace Router

/-- The loop of the constructor, which moves each route to one of two lists. -/
def addRoutes (router : Router) : List BaseRoute → Router
  | [] => router
  | route :: rest =>
      if route.isStaticRoute then
        addRoutes { router with staticRoutes := router.staticRoutes ++ [route] } rest
      else addRoutes { router with routes := router.routes ++ [route] } rest

def create (errorRoutes : Int32 → Option Handler) (routes : List BaseRoute) : Router :=
  addRoutes ⟨[], [], errorRoutes⟩ routes

/-- An entry is called through a wrapper; the default answers the bare code. -/
def getErrorHandler (router : Router) (statusCode : Int32) : Handler :=
  match router.errorRoutes statusCode with
  | none => fun _ => (HTTPResponse.ofStatus statusCode.toInt16).future
  | some handler => fun request => handler request

/-- One of the two loops of `getHandler`. It returns early with a match, or it
ends with the flag. -/
def tryRoutes (request : HTTPMessage) : List BaseRoute → Bool → Throws (RouteMatch ⊕ Bool)
  | [], methodNotFound => .ok (.inr methodNotFound)
  | route :: rest, methodNotFound => do
      let found ← route.handler request
      match found.result with
      | .pathNotMatched => tryRoutes request rest methodNotFound
      | .methodNotMatched => tryRoutes request rest true
      | .routeMatched => return .inl found

def getHandler (router : Router) (request : HTTPMessage) : Throws RouteMatch := do
  match ← tryRoutes request router.staticRoutes false with
  | .inl found => return found
  | .inr methodNotFound =>
      match ← tryRoutes request router.routes methodNotFound with
      | .inl found => return found
      | .inr methodNotFound =>
          if methodNotFound then
            return .ofHandler .methodNotMatched (router.getErrorHandler 405)
          else return .ofHandler .pathNotMatched (router.getErrorHandler 404)

/-- The recursion over the argument pack. -/
def pushBackMove (container : List BaseRoute) : List BaseRoute → List BaseRoute
  | [] => container
  | value :: values => pushBackMove (container ++ [value]) values

def makeRouter (errorRoutes : Int32 → Option Handler) (routes : List BaseRoute) : Router :=
  create errorRoutes (pushBackMove [] routes)

end Router

end Nozomi
