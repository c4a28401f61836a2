import Nozomi.Routing.Router

/-! The two kinds of route objects, and the factory that turns the match of a
request into a handler object. The regular expression library and the number
conversions are parameters. -/
namespace Nozomi

open Text

/-- The text of a number in decimal. -/
def decimal (n : Nat) : Bytes := (Nat.toDigits 10 n).map fun c => UInt8.ofNat c.toNat

/-- The name of the group that parameter `n` is read from. -/
def groupName (n : Nat) : Bytes := ascii "__" ++ decimal n

/-- The named groups of a match. A group that took no part has no text. -/
abbrev Match := Bytes → Option Bytes

/-- `str()` of a group that took no part is the empty string. -/
def Match.str (matched : Match) (n : Nat) : Bytes := (matched (groupName n)).getD []

/-- Compiling throws on an invalid expression, and matching may give up. -/
structure RegexLibrary (ρ : Type) where
  compile : Bytes → Throws ρ
  regexMatch : Bytes → ρ → Throws (Option Match)

/-- `folly::to`, with a double given by its bits. -/
structure Conversions where
  toInt64 : Bytes → Throws Int64
  toDouble : Bytes → Throws UInt64

inductive RouteParamType where
  | int64
  | double
  | string
  | optionalInt64
  | optionalDouble
  | optionalString
  deriving DecidableEq

namespace Conversions

/-- An integer that does not convert becomes the largest one. -/
def int64OrMax (conversions : Conversions) (text : Bytes) : Throws Int64 :=
  match conversions.toInt64 text with
  | .error .std => .ok Int64.maxValue
  | result => result

def getHandlerArg (conversions : Conversions) (matched : Match) (n : Nat) :
    RouteParamType → Throws RouteArg
  | .int64 => (conversions.int64OrMax (matched.str n)).map .int64
  | .double => (conversions.toDouble (matched.str n)).map .double
  | .string => .ok (.string (matched.str n))
  | .optionalInt64 =>
      match matched (groupName n) with
      | none => .ok (.optionalInt64 none)
      | some text => (conversions.int64OrMax text).map fun value => .optionalInt64 (some value)
  | .optionalDouble =>
      match matched (groupName n) with
      | none => .ok (.optionalDouble none)
      | some text => (conversions.toDouble text).map fun bits => .optionalDouble (some bits)
  | .optionalString => .ok (.optionalString (matched (groupName n)))

/-- The arguments of a handler, from parameter `n` on. -/
def getHandlerArgs (conversions : Conversions) (matched : Match) :
    Nat → List RouteParamType → Throws (List RouteArg)
  | _, [] => .ok []
  | n, type :: types => do
      let arg ← conversions.getHandlerArg matched n type
      let args ← conversions.getHandlerArgs matched (n + 1) types
      return arg :: args

end Conversions

/-- What the user gives a route: a function that answers with a future, or a
factory of streaming handlers. -/
inductive RouteCallable where
  | future (f : HTTPRequest → List RouteArg → Future)
  | streaming (factory : Throws (Option StreamingObject))

/-- Create a streaming handler and give it its arguments. Whatever derives from
`std::exception` is caught, and leaves a null pointer. -/
def startStreaming (factory : Throws (Option StreamingObject)) (arguments : Throws (List RouteArg)) :
    Throws (Option RequestHandler) :=
  let attempt : Throws (Option RequestHandler) := do
    match ← factory with
    | none => return none
    | some ret =>
        let args ← arguments
        ret.setRequestArgs args
        return some (.streamingHandler ret args)
  match attempt with
  | .error .std => .ok none
  | result => result

/-- The two match makers. Arguments are converted when the match is used. -/
def RouteCallable.makeMatch (callable : RouteCallable) (arguments : Throws (List RouteArg)) :
    RouteMatch :=
  match callable with
  | .future f => .ofHandler .routeMatched fun request =>
      match arguments with
      | .error thrown => .throws thrown
      | .ok args => f request args
  | .streaming factory => .ofStreaming .routeMatched (startStreaming factory arguments)

structure StaticRoute where
  originalPattern : Bytes
  methods : List HTTPMethod
  callable : RouteCallable

def StaticRoute.handler (uri : UriLibrary) (route : StaticRoute) (request : HTTPMessage) :
    Throws RouteMatch :=
  let methodAndPath := HTTPRequest.getMethodAndPath uri request
  if methodAndPath.2 ≠ route.originalPattern then .ok (.ofResult .pathNotMatched)
  else if methodAndPath.1 ∉ route.methods then .ok (.ofResult .methodNotMatched)
  else .ok (route.callable.makeMatch (.ok []))

structure Route (ρ : Type) where
  originalPattern : Bytes
  methods : List HTTPMethod
  regex : ρ
  handlerArgs : List RouteParamType
  callable : RouteCallable

def Route.handler {ρ : Type} (uri : UriLibrary) (library : RegexLibrary ρ)
    (conversions : Conversions) (route : Route ρ) (request : HTTPMessage) : Throws RouteMatch := do
  let methodAndPath := HTTPRequest.getMethodAndPath uri request
  match ← library.regexMatch methodAndPath.2 route.regex with
  | none => return .ofResult .pathNotMatched
  | some matched =>
      if methodAndPath.1 ∉ route.methods then return .ofResult .methodNotMatched
      else return route.callable.makeMatch (conversions.getHandlerArgs matched 0 route.handlerArgs)

structure HTTPHandlerFactory where
  requestTimeout : Nat
  router : Router

/-- The second half of `onRequest`: what becomes of the route match. -/
def createHandler (requestTimeout : Nat) (routeMatch : RouteMatch) : Throws (Option RequestHandler) :=
  match routeMatch.handler, routeMatch.streamingHandler with
  | some handler, _ => .ok (some (.httpHandler requestTimeout handler))
  | none, some streamingHandler => streamingHandler
  | none, none => .ok none

/-- An exception that leaves this function ends the program, as it is declared
`noexcept`. -/
def HTTPHandlerFactory.onRequest (factory : HTTPHandlerFactory) (message : HTTPMessage) :
    Throws (Option RequestHandler) := do
  let routeMatch ← factory.router.getHandler message
  createHandler factory.requestTimeout routeMatch

end Nozomi
