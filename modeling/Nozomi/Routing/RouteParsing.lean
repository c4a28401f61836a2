import Nozomi.Routing.Routes
import Nozomi.Text.Regex
import Nozomi.Text.Search

/-! Route patterns are turned into regular expressions: placeholders are found
with an expression of their own, and each is then replaced by a named group. -/
namespace Nozomi

open Text

/-- The named groups of the expression that finds placeholders. -/
inductive RouteGroup where
  | int
  | optionalInt
  | optionalIntRegex
  | double
  | optionalDouble
  | optionalDoubleRegex
  | string
  | stringRegex
  | optionalString
  | optionalStringRegex
  | optionalStringConsumed
  deriving DecidableEq

namespace RouteGroup

/-- The name that the source gives a group. -/
def name : RouteGroup → Bytes
  | int => ascii "int"
  | optionalInt => ascii "optional_int"
  | optionalIntRegex => ascii "optional_int_regex"
  | double => ascii "double"
  | optionalDouble => ascii "optional_double"
  | optionalDoubleRegex => ascii "optional_double_regex"
  | string => ascii "string"
  | stringRegex => ascii "string_regex"
  | optionalString => ascii "optional_string"
  | optionalStringRegex => ascii "optional_string_regex"
  | optionalStringConsumed => ascii "optional_string_consumed"

end RouteGroup

namespace RouteParsing

open Regex

abbrev closing : Bytes := ascii "\x7d\x7d"

/-- `(?::(?<name>.+?))?` -/
def afterColon (name : RouteGroup) : Regex RouteGroup :=
  opt (seq (literal (ascii ":")) (group name anyLazy))

/-- The expression `routeParser`, alternative by alternative. -/
def routeParser : Regex RouteGroup :=
  alt (group .int (literal (ascii "\x7b\x7bi\x7d\x7d")))
  (alt (group .optionalInt
    (seq (literal (ascii "\x7b\x7bi?")) (seq (afterColon .optionalIntRegex) (literal closing))))
  (alt (group .double (literal (ascii "\x7b\x7bd\x7d\x7d")))
  (alt (group .optionalDouble
    (seq (literal (ascii "\x7b\x7bd?")) (seq (afterColon .optionalDoubleRegex) (literal closing))))
  (alt (group .string
    (seq (literal (ascii "\x7b\x7bs:")) (seq (group .stringRegex anyLazy) (literal closing))))
  (group .optionalString
    (seq (literal (ascii "\x7b\x7bs?:")) (seq (group .optionalStringRegex anyLazy)
      (seq (afterColon .optionalStringConsumed) (literal closing)))))))))

/-- The bytes that the source writes with a backslash before them. -/
def escaped (c : Byte) : Bytes :=
  if c ∈ ascii "\x7b\x7d?" then ascii "\\" ++ [c] else [c]

/-- The text of an expression as the source writes it. -/
def render : Regex RouteGroup → Bytes
  | literal text => text.flatMap escaped
  | anyLazy => ascii ".+?"
  | seq first second => render first ++ render second
  | alt first second => render first ++ ascii "|" ++ render second
  | opt body => ascii "(?:" ++ render body ++ ascii ")?"
  | group name body => ascii "(?<" ++ name.name ++ ascii ">" ++ render body ++ ascii ")"

set_option maxRecDepth 8000 in
example : render routeParser =
    ascii "(?<int>\\\x7b\\\x7bi\\\x7d\\\x7d)|" ++
      ascii "(?<optional_int>\\\x7b\\\x7bi\\?(?::(?<optional_int_regex>.+?))?\\\x7d\\\x7d)|" ++
      ascii "(?<double>\\\x7b\\\x7bd\\\x7d\\\x7d)|" ++
      ascii "(?<optional_double>\\\x7b\\\x7bd\\?(?::(?<optional_double_regex>.+?))?\\\x7d\\\x7d)|" ++
      ascii "(?<string>\\\x7b\\\x7bs:(?<string_regex>.+?)\\\x7d\\\x7d)|" ++
      ascii "(?<optional_string>\\\x7b\\\x7bs\\?:(?<optional_string_regex>.+?)" ++
      ascii "(?::(?<optional_string_consumed>.+?))?\\\x7d\\\x7d)" := by decide +kernel

/-- Whether a group took part in a match. -/
def matched (captures : Captures RouteGroup) (name : RouteGroup) : Bool :=
  (captures.lookup name).isSome

/-- The text of a group, empty if it took no part. -/
def str (captures : Captures RouteGroup) (name : RouteGroup) : Bytes :=
  (captures.lookup name).getD []

/-- What one match passes to `route_to_regex`. -/
structure RouteParam where
  type : RouteParamType
  originalPattern : Bytes
  value : Bytes
  consumed : Bytes
  deriving DecidableEq

/-- The chain of conditions in the scanning loop. -/
def routeParam (captures : Captures RouteGroup) : Option RouteParam :=
  if matched captures .int then some ⟨.int64, str captures .int, [], []⟩
  else if matched captures .optionalInt then
    some ⟨.optionalInt64, str captures .optionalInt, [], str captures .optionalIntRegex⟩
  else if matched captures .double then some ⟨.double, str captures .double, [], []⟩
  else if matched captures .optionalDouble then
    some ⟨.optionalDouble, str captures .optionalDouble, [], str captures .optionalDoubleRegex⟩
  else if matched captures .string then
    some ⟨.string, str captures .string, str captures .stringRegex, []⟩
  else if matched captures .optionalString then
    some ⟨.optionalString, str captures .optionalString, str captures .optionalStringRegex,
      str captures .optionalStringConsumed⟩
  else none

/-- The beginning of a named group. -/
def groupStart (paramNum : Nat) : Bytes := ascii "(?<" ++ groupName paramNum ++ ascii ">"

/-- The templates of the six specialisations of `route_to_regex`. -/
def chunk (paramNum : Nat) (param : RouteParam) : Bytes :=
  match param.type with
  | .int64 => groupStart paramNum ++ ascii "[+-]?\\d+)"
  | .optionalInt64 =>
      ascii "(?:" ++ groupStart paramNum ++ ascii "[+-]?\\d+)" ++ param.consumed ++ ascii ")?"
  | .double => groupStart paramNum ++ ascii "[+-]?\\d+(?:\\.\\d+)?)"
  | .optionalDouble =>
      ascii "(?:" ++ groupStart paramNum ++ ascii "[+-]?\\d+(?:\\.\\d+)?)" ++ param.consumed ++
        ascii ")?"
  | .string => groupStart paramNum ++ param.value ++ ascii ")"
  | .optionalString =>
      ascii "(?:" ++ groupStart paramNum ++ param.value ++ ascii ")" ++ param.consumed ++ ascii ")?"

end RouteParsing

/-- `to_string` of a type. -/
def RouteParamType.toString : RouteParamType → Bytes
  | int64 => ascii "Int64"
  | double => ascii "Double"
  | string => ascii "String"
  | optionalInt64 => ascii "OptionalInt64"
  | optionalDouble => ascii "OptionalDouble"
  | optionalString => ascii "OptionalString"

/-- What the library throws for an expression, or a `std::runtime_error` with the text
that it is made with. -/
inductive RouteError where
  | regex (expression : Bytes) (thrown : Thrown)
  | runtime (what : Bytes)
  deriving DecidableEq

def RouteError.thrown : RouteError → Thrown
  | regex _ thrown => thrown
  | runtime _ => .std

namespace RouteErrors

open RouteParsing

variable {ρ : Type} (library : RegexLibrary ρ)

def compile (expression : Bytes) : Except RouteError ρ :=
  (library.compile expression).mapError (.regex expression)

/-- The text to replace and what replaces it. Only the two string types compile
their expression first. -/
def routeToRegex (paramNum : Nat) (param : RouteParam) : Except RouteError (Bytes × Bytes) :=
  match param.type with
  | .string | .optionalString => do
      let _ ← compile library param.value
      return (param.originalPattern, chunk paramNum param)
  | .int64 | .optionalInt64 | .double | .optionalDouble =>
      .ok (param.originalPattern, chunk paramNum param)

/-- The scanning loop over the matches. -/
def scanLoop : List (Regex.Found RouteGroup) → List (Bytes × Bytes) → List RouteParamType →
    Except RouteError (List (Bytes × Bytes) × List RouteParamType)
  | [], replacements, types => .ok (replacements, types)
  | found :: rest, replacements, types =>
      match routeParam found.captures with
      | none => scanLoop rest replacements types
      | some param => do
          let replacement ← routeToRegex library replacements.length param
          scanLoop rest (replacements ++ [replacement]) (types ++ [param.type])

/-- The replacement loop. The offset moves on by the length of what was
replaced. -/
def replaceLoop : List (Bytes × Bytes) → Nat → Bytes → Except RouteError Bytes
  | [], _, finalRoute => .ok finalRoute
  | replacement :: rest, it, finalRoute =>
      match find finalRoute replacement.1 it with
      | none => .error (.runtime (
          ascii "Attempted to transform route pattern into regular expression, and" ++
          ascii " failed. This is a library error, and should be fixed. Tried to" ++
          ascii " replace " ++ replacement.1 ++ ascii " with " ++ replacement.2 ++
          ascii ". Pattern so far: " ++ finalRoute ++ ascii "."))
      | some it =>
          replaceLoop rest (it + replacement.1.length)
            (replace finalRoute it replacement.1.length replacement.2)

def parseRoutePattern (pattern : Bytes) : Except RouteError (ρ × List RouteParamType) := do
  let (replacements, types) ← scanLoop library (Regex.sregexIterator routeParser pattern).1 [] []
  let finalRoute ← replaceLoop replacements 0 pattern
  let regex ← compile library finalRoute
  return (regex, types)

def paramLines (params : List RouteParamType) : Bytes :=
  params.flatMap fun param => param.toString ++ ascii "\n"

def countText (pattern : Bytes) (patternParams functionParams : List RouteParamType) : Bytes :=
  ascii "Pattern parameter count != function parameter count (" ++ decimal patternParams.length ++
    ascii " vs " ++ decimal functionParams.length ++ ascii ")\n" ++
    (ascii "Pattern: " ++ pattern ++ ascii "\n") ++
    ascii "Pattern parameters:\n" ++ paramLines patternParams ++
    ascii "Function parameters:\n" ++ paramLines functionParams

def typeText (pattern : Bytes) (i : Nat) (patternParam functionParam : RouteParamType) : Bytes :=
  ascii "Pattern: " ++ pattern ++ ascii "\n" ++
    ascii "Pattern parameter " ++ decimal i ++ ascii " (" ++ patternParam.toString ++
    ascii ") does not match function parameter " ++ decimal i ++ ascii " (" ++
    functionParam.toString ++ ascii ")"

/-- The loop over the parameters from `i` on. -/
def checkTypes (pattern : Bytes) : Nat → List RouteParamType → List RouteParamType →
    Except RouteError Unit
  | i, patternParam :: patternParams, functionParam :: functionParams =>
      if patternParam ≠ functionParam then
        .error (.runtime (typeText pattern i patternParam functionParam))
      else checkTypes pattern (i + 1) patternParams functionParams
  | _, _, _ => .ok ()

/-- The constructor of `Route`, which compares the parameters of the pattern
with those of the handler. -/
def create (pattern : Bytes) (methods : List HTTPMethod) (functionParams : List RouteParamType)
    (callable : RouteCallable) : Except RouteError (Route ρ) := do
  let (regex, patternParams) ← parseRoutePattern library pattern
  if patternParams.length ≠ functionParams.length then
    throw (.runtime (countText pattern patternParams functionParams))
  else
    checkTypes pattern 0 patternParams functionParams
    return ⟨pattern, methods, regex, functionParams, callable⟩

section Errors

variable {ε δ α β : Type}

theorem mapError_bind (f : ε → δ) (attempt : Except ε α) (next : α → Except ε β) :
    (attempt >>= next).mapError f = attempt.mapError f >>= fun value => (next value).mapError f := by
  cases attempt <;> rfl

theorem mapError_eq_ok_iff {f : ε → δ} {attempt : Except ε α} {value : α} :
    attempt.mapError f = .ok value ↔ attempt = .ok value := by
  cases attempt <;> simp [Except.mapError]

end Errors

/-- Without its text, the error of the library is what the library has thrown. -/
theorem compile_forgets (expression : Bytes) :
    (compile library expression).mapError RouteError.thrown = library.compile expression := by
  unfold compile
  cases library.compile expression <;> rfl

/-- Where the numbers of parameters agree, the loop compares the lists. Which type
differs first is only told by the text. -/
theorem checkTypes_forgets (pattern : Bytes) {patternParams functionParams : List RouteParamType}
    (hCount : patternParams.length = functionParams.length) (k : Nat) :
    (checkTypes pattern k patternParams functionParams).mapError RouteError.thrown =
      if patternParams ≠ functionParams then .error .std else .ok () := by
  induction patternParams generalizing functionParams k with
  | nil =>
      obtain rfl := List.length_eq_zero_iff.mp hCount.symm
      rfl
  | cons patternParam patternParams ih =>
      cases functionParams with
      | nil => cases hCount
      | cons functionParam functionParams =>
          rw [checkTypes]
          by_cases hType : patternParam = functionParam
          · rw [if_neg (not_not_intro hType), ih (Nat.succ.inj hCount), hType]
            simp only [ne_eq, List.cons.injEq, true_and]
          · rw [if_pos hType, if_pos fun hSame => hType (List.cons.inj hSame).1]
            rfl

end RouteErrors

/-! The same functions, where only the kind of what is thrown matters. -/

namespace RouteParsing

variable {ρ : Type} (library : RegexLibrary ρ)

def routeToRegex (paramNum : Nat) (param : RouteParam) : Throws (Bytes × Bytes) :=
  (RouteErrors.routeToRegex library paramNum param).mapError RouteError.thrown

def scanLoop (founds : List (Regex.Found RouteGroup)) (replacements : List (Bytes × Bytes))
    (types : List RouteParamType) : Throws (List (Bytes × Bytes) × List RouteParamType) :=
  (RouteErrors.scanLoop library founds replacements types).mapError RouteError.thrown

def replaceLoop (replacements : List (Bytes × Bytes)) (it : Nat) (finalRoute : Bytes) : Throws Bytes :=
  (RouteErrors.replaceLoop replacements it finalRoute).mapError RouteError.thrown

def parseRoutePattern (pattern : Bytes) : Throws (ρ × List RouteParamType) :=
  (RouteErrors.parseRoutePattern library pattern).mapError RouteError.thrown

/-- A placeholder is replaced by its chunk, after its value was compiled if it has
one. -/
theorem routeToRegex_unfold (paramNum : Nat) (param : RouteParam) :
    routeToRegex library paramNum param =
      match param.type with
      | .string | .optionalString => do
          let _ ← library.compile param.value
          return (param.originalPattern, chunk paramNum param)
      | .int64 | .optionalInt64 | .double | .optionalDouble =>
          .ok (param.originalPattern, chunk paramNum param) := by
  unfold routeToRegex RouteErrors.routeToRegex
  cases param.type with
  | string | optionalString =>
      simp only [RouteErrors.mapError_bind, RouteErrors.compile_forgets]
      rfl
  | int64 | optionalInt64 | double | optionalDouble => rfl

theorem scanLoop_unfold (found : Regex.Found RouteGroup) (rest : List (Regex.Found RouteGroup))
    (replacements : List (Bytes × Bytes)) (types : List RouteParamType) :
    scanLoop library (found :: rest) replacements types =
      match routeParam found.captures with
      | none => scanLoop library rest replacements types
      | some param => (do
          let replacement ← routeToRegex library replacements.length param
          scanLoop library rest (replacements ++ [replacement]) (types ++ [param.type])) := by
  unfold scanLoop routeToRegex
  rw [RouteErrors.scanLoop]
  cases routeParam found.captures with
  | none => rfl
  | some param => exact RouteErrors.mapError_bind _ _ _

@[simp] theorem replaceLoop_nil (it : Nat) (finalRoute : Bytes) : replaceLoop [] it finalRoute = .ok finalRoute := rfl

/-- One round of the replacement loop: the text of a placeholder is searched from
where the last one was found, and replaced. -/
theorem replaceLoop_unfold (replacement : Bytes × Bytes) (rest : List (Bytes × Bytes)) (it : Nat)
    (finalRoute : Bytes) : replaceLoop (replacement :: rest) it finalRoute =
      match find finalRoute replacement.1 it with
      | none => .error .std
      | some it => replaceLoop rest (it + replacement.1.length)
          (replace finalRoute it replacement.1.length replacement.2) := by
  unfold replaceLoop
  rw [RouteErrors.replaceLoop]
  cases find finalRoute replacement.1 it <;> rfl

theorem parseRoutePattern_unfold (pattern : Bytes) :
    parseRoutePattern library pattern = (do
      let (replacements, types) ← scanLoop library (Regex.sregexIterator routeParser pattern).1 [] []
      let finalRoute ← replaceLoop replacements 0 pattern
      let regex ← library.compile finalRoute
      return (regex, types)) := by
  unfold parseRoutePattern RouteErrors.parseRoutePattern
  simp only [RouteErrors.mapError_bind, RouteErrors.compile_forgets]
  rfl

end RouteParsing

def Route.create {ρ : Type} (library : RegexLibrary ρ) (pattern : Bytes) (methods : List HTTPMethod)
    (functionParams : List RouteParamType) (callable : RouteCallable) : Throws (Route ρ) :=
  (RouteErrors.create library pattern methods functionParams callable).mapError RouteError.thrown

/-- A route is made where the parameters of its pattern are those of the handler. -/
theorem Route.create_unfold {ρ : Type} (library : RegexLibrary ρ) (pattern : Bytes) (methods : List HTTPMethod)
    (functionParams : List RouteParamType) (callable : RouteCallable) :
    Route.create library pattern methods functionParams callable = (do
      let (regex, patternParams) ← RouteParsing.parseRoutePattern library pattern
      if patternParams ≠ functionParams then throw .std
      else return ⟨pattern, methods, regex, functionParams, callable⟩) := by
  unfold Route.create RouteErrors.create
  rw [RouteErrors.mapError_bind]
  refine congrArg (Bind.bind _) (funext fun parsed => ?_)
  obtain ⟨regex, patternParams⟩ := parsed
  dsimp only
  by_cases hCount : patternParams.length = functionParams.length
  · rw [if_neg (not_not_intro hCount), RouteErrors.mapError_bind, RouteErrors.checkTypes_forgets pattern hCount]
    by_cases hSame : patternParams = functionParams
    · rw [if_neg (not_not_intro hSame), if_neg (not_not_intro hSame)]
      rfl
    · rw [if_pos hSame, if_pos hSame]
      rfl
  · have hOther : patternParams ≠ functionParams := fun hSame => hCount (congrArg List.length hSame)
    rw [if_pos hCount, if_pos hOther]
    rfl

/-- A route is made exactly if its pattern is parsed, and its handler takes the parameters
of the pattern. -/
theorem Route.create_ok_iff {ρ : Type} {library : RegexLibrary ρ} {pattern : Bytes} {methods : List HTTPMethod}
    {functionParams : List RouteParamType} {callable : RouteCallable} {route : Route ρ} :
    Route.create library pattern methods functionParams callable = .ok route ↔
      ∃ regex, RouteParsing.parseRoutePattern library pattern = .ok (regex, functionParams) ∧
        route = ⟨pattern, methods, regex, functionParams, callable⟩ := by
  rw [Route.create_unfold]
  cases RouteParsing.parseRoutePattern library pattern with
  | error thrown => simp [Bind.bind, Except.bind]
  | ok parsed =>
      obtain ⟨regex, patternParams⟩ := parsed
      by_cases hSame : patternParams = functionParams
      · simp [Bind.bind, Except.bind, Pure.pure, Except.pure, hSame, eq_comm]
      · simp [Bind.bind, Except.bind, hSame]

end Nozomi
