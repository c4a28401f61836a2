import Nozomi.Routing.EmbeddedRegexes
import Nozomi.Routing.NumberTexts
import Nozomi.Routing.OptionalChunks
import Nozomi.Text.PatternCaptures

/-! Where the arguments of a handler come from. Whether the group of a required
parameter takes part in a match depends on the expression around it. -/
namespace Nozomi

open Text Pattern

namespace RouteParsing

def FitsInt64 (n : Int) : Prop := Int64.minValue.toInt ≤ n ∧ n ≤ Int64.maxValue.toInt

instance (n : Int) : Decidable (FitsInt64 n) := inferInstanceAs (Decidable (_ ∧ _))

/-- The texts that a parameter should be read from. -/
def isTextOf (type : RouteParamType) (text : Bytes) : Bool :=
  match type with
  | .int64 | .optionalInt64 => isInteger text
  | .double | .optionalDouble => isDecimal text
  | .string | .optionalString => true

/-- The expression in the group of a parameter matches only such texts. -/
theorem isTextOf_of_accepts {param : RouteParam} {text : Bytes}
    (h : Accepts (patternMeaning (valueExpression param)) text) : isTextOf param.type text = true := by
  unfold valueExpression at h
  cases hType : param.type with
  | string | optionalString => rfl
  | int64 | optionalInt64 =>
      rw [hType] at h
      exact isInteger_of_accepts h
  | double | optionalDouble =>
      rw [hType] at h
      exact isDecimal_of_accepts h

end RouteParsing

open RouteParsing

/-- What is relied on of `folly::to`. The empty text converts to no number. -/
structure Conversions.Documented (conversions : Conversions) : Prop where
  int64 : ∀ text, isInteger text = true → conversions.toInt64 text =
    if FitsInt64 (integerValue text) then .ok (Int64.ofInt (integerValue text)) else .error .std
  int64Empty : conversions.toInt64 [] = .error .std
  double : ∀ text, isDecimal text = true → ∃ bits, conversions.toDouble text = .ok bits
  doubleEmpty : conversions.toDouble [] = .error .std

namespace RouteParsing

/-- An integer is delivered as it is converted, or as the greatest one if it does not
fit. -/
def IsInt64Of (conversions : Conversions) (text : Bytes) (value : Int64) : Prop :=
  conversions.toInt64 text = .ok value ∨
    isInteger text = true ∧ ¬FitsInt64 (integerValue text) ∧ value = Int64.maxValue

/-- A required argument is read from a part of the path that was captured for it.
An optional one is empty exactly if nothing was captured for it. -/
def FromPath (conversions : Conversions) (path : Bytes) (captured : Option Bytes) (arg : RouteArg) :
    RouteParamType → Prop
  | .int64 => ∃ text, captured = some text ∧ text <:+: path ∧
      ∃ value, arg = .int64 value ∧ IsInt64Of conversions text value
  | .double => ∃ text, captured = some text ∧ text <:+: path ∧
      ∃ bits, arg = .double bits ∧ conversions.toDouble text = .ok bits
  | .string => ∃ text, captured = some text ∧ text <:+: path ∧ arg = .string text
  | .optionalInt64 => ∃ value, arg = .optionalInt64 value ∧ (value = none ↔ captured = none) ∧
      ∀ n ∈ value, ∃ text, captured = some text ∧ text <:+: path ∧ IsInt64Of conversions text n
  | .optionalDouble => ∃ value, arg = .optionalDouble value ∧ (value = none ↔ captured = none) ∧
      ∀ bits ∈ value, ∃ text, captured = some text ∧ text <:+: path ∧
        conversions.toDouble text = .ok bits
  | .optionalString => ∃ value, arg = .optionalString value ∧ (value = none ↔ captured = none) ∧
      ∀ text ∈ value, captured = some text ∧ text <:+: path

/-- Whenever a constructed route reports a path as matched, the arguments are
extracted without an exception, and come from the path. -/
def ArgumentsComeFromPath {ρ : Type} (uri : UriLibrary) (library : RegexLibrary ρ)
    (conversions : Conversions) (pattern : Bytes) : Prop :=
  ∀ methods functionParams callable route,
    Route.create library pattern methods functionParams callable = .ok route →
      ∀ request matched,
        library.regexMatch (HTTPRequest.getMethodAndPath uri request).2 route.regex =
            .ok (some matched) →
          (HTTPRequest.getMethodAndPath uri request).1 ∈ methods →
            route.handler uri library conversions request =
                .ok (callable.makeMatch (conversions.getHandlerArgs matched 0 functionParams)) ∧
              ∃ args, conversions.getHandlerArgs matched 0 functionParams = .ok args ∧
                ∀ k type, functionParams[k]? = some type → ∃ arg, args[k]? = some arg ∧
                  FromPath conversions (HTTPRequest.getMethodAndPath uri request).2
                    (matched (groupName k)) arg type

/-- The texts that a parameter can be read from. An integer need not fit. -/
def Readable (conversions : Conversions) (type : RouteParamType) (text : Bytes) : Prop :=
  match type with
  | .int64 | .optionalInt64 => (∃ value, conversions.toInt64 text = .ok value) ∨
      isInteger text = true ∧ ¬FitsInt64 (integerValue text)
  | .double | .optionalDouble => ∃ bits, conversions.toDouble text = .ok bits
  | .string | .optionalString => True

/-- Of the paths that are searched, those that could be matched without the group of a
required parameter are nevertheless matched through it first, and what is captured for
numbers can be read. -/
structure Provides (conversions : Conversions) (searched : Bytes → Prop) (p : Pattern Byte Bytes)
    (types : List RouteParamType) : Prop where
  required : ∀ k type, types[k]? = some type → isOptional type = false →
    ∀ path, searched path → Accepts (p.without (groupName k)) path → p.FirstThrough (groupName k) path
  readable : ∀ k type, types[k]? = some type → ∀ path, searched path →
    ∀ matched text, p.firstMatch path = some matched → matched (groupName k) = some text →
      Readable conversions type text

/-- No match goes without the group of a required parameter, and the groups of numbers
capture only what can be read. -/
structure Ensures (conversions : Conversions) (p : Pattern Byte Bytes) (types : List RouteParamType) :
    Prop where
  required : ∀ k type, types[k]? = some type → isOptional type = false → ¬p.Avoidable (groupName k)
  readable : ∀ k type, types[k]? = some type →
    ∀ text, p.CanCapture (groupName k) text → Readable conversions type text

variable {conversions : Conversions} {matched : Match}

/-- What a group of numbers captures can be read. -/
theorem readable_of_isTextOf (hConversions : conversions.Documented) {type : RouteParamType}
    {text : Bytes} (h : isTextOf type text = true) : Readable conversions type text := by
  cases type with
  | string | optionalString => trivial
  | double | optionalDouble => exact hConversions.double text h
  | int64 | optionalInt64 =>
      by_cases hFits : FitsInt64 (integerValue text)
      · exact Or.inl ⟨_, (hConversions.int64 text h).trans (if_pos hFits)⟩
      · exact Or.inr ⟨h, hFits⟩

/-- A readable integer is delivered as it should be. -/
theorem int64OrMax_of_readable (hConversions : conversions.Documented) {text : Bytes}
    (hText : Readable conversions .int64 text) :
    ∃ value, conversions.int64OrMax text = .ok value ∧ IsInt64Of conversions text value := by
  rw [Conversions.int64OrMax]
  rcases hText with ⟨value, hValue⟩ | ⟨hInteger, hLarge⟩
  · exact ⟨value, by rw [hValue], Or.inl hValue⟩
  · have hThrows : conversions.toInt64 text = .error .std :=
      (hConversions.int64 text hInteger).trans (if_neg hLarge)
    exact ⟨Int64.maxValue, by rw [hThrows], Or.inr ⟨hInteger, hLarge, rfl⟩⟩

/-- An integer that is too large is the largest one, by the branch that catches the
error of the conversion. -/
theorem int64OrMax_of_integer (hConversions : conversions.Documented) {text : Bytes}
    (hInteger : isInteger text = true) : ∃ value, conversions.int64OrMax text = .ok value := by
  obtain ⟨value, hValue, _⟩ := int64OrMax_of_readable hConversions
    (@readable_of_isTextOf _ hConversions .int64 _ hInteger)
  exact ⟨value, hValue⟩

/-- A captured text that can be read is converted, whether it is required or not. The
cases are the types of parameters. -/
theorem getHandlerArg_captured (hConversions : conversions.Documented) {path text : Bytes} {k : Nat}
    (hCaptured : matched (groupName k) = some text) (hInfix : text <:+: path) {type : RouteParamType}
    (hText : Readable conversions type text) :
    ∃ arg, conversions.getHandlerArg matched k type = .ok arg ∧
      FromPath conversions path (matched (groupName k)) arg type := by
  have hStr : matched.str k = text := by rw [Match.str, hCaptured]; rfl
  rw [hCaptured]
  cases type with
  | int64 =>
      obtain ⟨value, hValue, hIs⟩ := int64OrMax_of_readable hConversions hText
      exact ⟨.int64 value, by rw [Conversions.getHandlerArg, hStr, hValue]; rfl,
        text, rfl, hInfix, value, rfl, hIs⟩
  | double =>
      obtain ⟨bits, hBits⟩ := hText
      exact ⟨.double bits, by rw [Conversions.getHandlerArg, hStr, hBits]; rfl,
        text, rfl, hInfix, bits, rfl, hBits⟩
  | string =>
      exact ⟨.string text, by rw [Conversions.getHandlerArg, hStr], text, rfl, hInfix, rfl⟩
  | optionalInt64 =>
      obtain ⟨value, hValue, hIs⟩ := int64OrMax_of_readable hConversions hText
      refine ⟨.optionalInt64 (some value),
        by simp [Conversions.getHandlerArg, hCaptured, hValue, Except.map], some value, rfl, by simp, ?_⟩
      rintro n hn
      obtain rfl := Option.some.inj hn
      exact ⟨text, rfl, hInfix, hIs⟩
  | optionalDouble =>
      obtain ⟨bits, hBits⟩ := hText
      refine ⟨.optionalDouble (some bits),
        by simp [Conversions.getHandlerArg, hCaptured, hBits, Except.map], some bits, rfl, by simp, ?_⟩
      rintro other hOther
      obtain rfl := Option.some.inj hOther
      exact ⟨text, rfl, hInfix, hBits⟩
  | optionalString =>
      refine ⟨.optionalString (some text), by rw [Conversions.getHandlerArg, hCaptured],
        some text, rfl, by simp, ?_⟩
      rintro other hOther
      exact ⟨hOther, Option.some.inj hOther ▸ hInfix⟩

/-- A group that took no part leaves an optional argument empty. -/
theorem getHandlerArg_absent {path : Bytes} {k : Nat} (hCaptured : matched (groupName k) = none)
    {type : RouteParamType} (hOptional : isOptional type = true) :
    ∃ arg, conversions.getHandlerArg matched k type = .ok arg ∧
      FromPath conversions path (matched (groupName k)) arg type := by
  rw [hCaptured]
  cases type with
  | int64 | double | string => cases hOptional
  | optionalInt64 =>
      exact ⟨.optionalInt64 none, by rw [Conversions.getHandlerArg, hCaptured],
        none, rfl, by simp, by simp⟩
  | optionalDouble =>
      exact ⟨.optionalDouble none, by rw [Conversions.getHandlerArg, hCaptured],
        none, rfl, by simp, by simp⟩
  | optionalString =>
      exact ⟨.optionalString none, by rw [Conversions.getHandlerArg, hCaptured],
        none, rfl, by simp, by simp⟩

theorem IsInt64Of.readable {text : Bytes} {value : Int64} (h : IsInt64Of conversions text value) :
    Readable conversions .int64 text := by
  rcases h with hValue | ⟨hInteger, hLarge, _⟩
  · exact Or.inl ⟨value, hValue⟩
  · exact Or.inr ⟨hInteger, hLarge⟩

theorem readable_of_fromPath {path text : Bytes} {arg : RouteArg} {type : RouteParamType}
    (h : FromPath conversions path (some text) arg type) : Readable conversions type text := by
  cases type with
  | string | optionalString => trivial
  | int64 =>
      obtain ⟨_, hText, _, _, _, hIs⟩ := h
      obtain rfl := Option.some.inj hText
      exact hIs.readable
  | double =>
      obtain ⟨_, hText, _, bits, _, hBits⟩ := h
      obtain rfl := Option.some.inj hText
      exact ⟨bits, hBits⟩
  | optionalInt64 =>
      obtain ⟨value, _, hEmpty, hValue⟩ := h
      cases value with
      | none => cases hEmpty.mp rfl
      | some n =>
          obtain ⟨_, hText, _, hIs⟩ := hValue n rfl
          obtain rfl := Option.some.inj hText
          exact hIs.readable
  | optionalDouble =>
      obtain ⟨value, _, hEmpty, hValue⟩ := h
      cases value with
      | none => cases hEmpty.mp rfl
      | some bits =>
          obtain ⟨_, hText, _, hBits⟩ := hValue bits rfl
          obtain rfl := Option.some.inj hText
          exact ⟨bits, hBits⟩

theorem not_fromPath_none {path : Bytes} {arg : RouteArg} {type : RouteParamType}
    (hRequired : isOptional type = false) : ¬FromPath conversions path none arg type := by
  cases type with
  | optionalInt64 | optionalDouble | optionalString => cases hRequired
  | int64 | double | string =>
      rintro ⟨_, hNone, _⟩
      cases hNone

/-- All arguments are made if each of them is. The induction is over the types, with
the number of the first one. -/
theorem getHandlerArgs_completes {n : Nat} {types : List RouteParamType}
    (h : ∀ k type, types[k]? = some type →
      ∃ arg, conversions.getHandlerArg matched (n + k) type = .ok arg) :
    ∃ args, conversions.getHandlerArgs matched n types = .ok args := by
  induction types generalizing n with
  | nil => exact ⟨[], rfl⟩
  | cons type types ih =>
      obtain ⟨arg, hArg⟩ := h 0 type rfl
      obtain ⟨args, hArgs⟩ := @ih (n + 1) fun k type hType => by
        have hNext := h (k + 1) type hType
        rwa [Nat.add_comm k 1, ← Nat.add_assoc] at hNext
      exact ⟨arg :: args, (Throws.bind_eq_ok_iff _ _ _).mpr ⟨arg, hArg,
        (Throws.bind_eq_ok_iff _ _ _).mpr ⟨args, hArgs, rfl⟩⟩⟩

/-- A match gives every argument if the required ones are captured, and whatever is
captured can be read. -/
theorem arguments_of_match (hConversions : conversions.Documented) {types : List RouteParamType}
    {path : Bytes} (hInfix : ∀ name text, matched name = some text → text <:+: path)
    (hRequired : ∀ k type, types[k]? = some type → isOptional type = false →
      matched (groupName k) ≠ none)
    (hReadable : ∀ k type, types[k]? = some type → ∀ text, matched (groupName k) = some text →
      Readable conversions type text) :
    ∃ args, conversions.getHandlerArgs matched 0 types = .ok args ∧
      ∀ k type, types[k]? = some type → ∃ arg, args[k]? = some arg ∧
        FromPath conversions path (matched (groupName k)) arg type := by
  have hEach : ∀ k type, types[k]? = some type →
      ∃ arg, conversions.getHandlerArg matched k type = .ok arg ∧
        FromPath conversions path (matched (groupName k)) arg type := by
    intro k type hType
    cases hCaptured : matched (groupName k) with
    | some text =>
        rw [← hCaptured]
        exact getHandlerArg_captured hConversions hCaptured (hInfix _ _ hCaptured)
          (hReadable k type hType text hCaptured)
    | none =>
        have hOptional : isOptional type = true := by
          by_contra hNot
          exact hRequired k type hType (Bool.eq_false_iff.mpr hNot) hCaptured
        rw [← hCaptured]
        exact getHandlerArg_absent hCaptured hOptional
  obtain ⟨args, hArgs⟩ : ∃ args, conversions.getHandlerArgs matched 0 types = .ok args := by
    refine getHandlerArgs_completes fun k type hType => ?_
    obtain ⟨arg, hArg, _⟩ := hEach k type hType
    exact ⟨arg, by rwa [Nat.zero_add]⟩
  refine ⟨args, hArgs, ?_⟩
  intro k type hType
  obtain ⟨arg, hFound, hArg⟩ := getHandlerArgs_getElem 0 k hArgs hType
  obtain ⟨other, hOther, hFrom⟩ := hEach k type hType
  rw [Nat.zero_add] at hArg
  obtain rfl := Except.ok.inj (hArg.symm.trans hOther)
  exact ⟨arg, hFound, hFrom⟩

theorem infix_of_reports {p : Pattern Byte Bytes} {path : Bytes} {captures : List (Bytes × Bytes)}
    (hMatch : Matches p path captures) (hReports : Reports matched captures) (name text : Bytes)
    (hText : matched name = some text) : text <:+: path :=
  hMatch.captured_infix (hReports.captured name text hText)

/-- The parameters of a pattern, in the order of its placeholders. -/
def paramTypes (pattern : Bytes) : List RouteParamType := (params pattern).map RouteParam.type

/-- A pattern that can be rewritten is rewritten to its own expression and types,
whatever the library. -/
theorem rewritePattern_eq {ρ : Type} {library : RegexLibrary ρ} {pattern finalRoute : Bytes}
    {types : List RouteParamType} (h : rewritePattern library pattern = .ok (finalRoute, types)) :
    types = paramTypes pattern ∧ rewritten pattern = .ok finalRoute := by
  refine ⟨?_, ((rewritePattern_ok_iff pattern finalRoute).mp ⟨types, h⟩).2⟩
  obtain ⟨result, hScan, hRest⟩ := (Throws.bind_eq_ok_iff _ _ _).mp h
  obtain ⟨final, _, hSame⟩ := (Throws.bind_eq_ok_iff _ _ _).mp hRest
  rw [scanLoop_scan] at hScan
  obtain ⟨_, rfl⟩ := Prod.mk.inj (Except.ok.inj hSame)
  rw [foldlM_passOn_ok hScan]
  rfl

/-- A route is made exactly if its pattern is parsed and its handler takes the
parameters of the pattern. -/
theorem create_eq_ok_iff {ρ : Type} {library : RegexLibrary ρ} {pattern finalRoute : Bytes}
    (hRewritten : rewritten pattern = .ok finalRoute) {methods : List HTTPMethod}
    {functionParams : List RouteParamType} {callable : RouteCallable} {route : Route ρ} :
    Route.create library pattern methods functionParams callable = .ok route ↔
      (∀ text ∈ values pattern, Compiles library text) ∧ functionParams = paramTypes pattern ∧
        ∃ regex, library.compile finalRoute = .ok regex ∧
          route = ⟨pattern, methods, regex, functionParams, callable⟩ := by
  rw [Route.create_ok_iff]
  constructor
  · intro ⟨regex, hParsed, hRoute⟩
    rw [parseRoutePattern_eq] at hParsed
    obtain ⟨⟨text, types⟩, hPattern, hCompile⟩ := (Throws.bind_eq_ok_iff _ _ _).mp hParsed
    obtain ⟨compiled, hCompiled, hOk⟩ := (Throws.bind_eq_ok_iff _ _ _).mp hCompile
    obtain ⟨rfl, rfl⟩ := Prod.mk.inj (Except.ok.inj hOk)
    obtain ⟨rfl, hText⟩ := rewritePattern_eq hPattern
    obtain rfl := Except.ok.inj (hText.symm.trans hRewritten)
    exact ⟨((rewritePattern_ok_iff pattern text).mp ⟨_, hPattern⟩).1, rfl, compiled, hCompiled, hRoute⟩
  · rintro ⟨hValues, rfl, regex, hCompile, rfl⟩
    obtain ⟨types, hPattern⟩ := (rewritePattern_ok_iff pattern finalRoute).mpr ⟨hValues, hRewritten⟩
    obtain ⟨rfl, _⟩ := rewritePattern_eq hPattern
    refine ⟨regex, ?_, rfl⟩
    rw [parseRoutePattern_eq]
    exact (Throws.bind_eq_ok_iff _ _ _).mpr ⟨_, hPattern,
      (Throws.bind_eq_ok_iff _ _ _).mpr ⟨regex, hCompile, rfl⟩⟩

/-- What the handler of a route does once the path is matched. -/
theorem handler_of_match {ρ : Type} {library : RegexLibrary ρ} {route : Route ρ} {uri : UriLibrary}
    {request : HTTPMessage}
    (hMatch : library.regexMatch (HTTPRequest.getMethodAndPath uri request).2 route.regex =
      .ok (some matched))
    (hMethod : (HTTPRequest.getMethodAndPath uri request).1 ∈ route.methods) :
    route.handler uri library conversions request =
      .ok (route.callable.makeMatch (conversions.getHandlerArgs matched 0 route.handlerArgs)) := by
  rw [Route.handler, hMatch]
  simp [Bind.bind, Except.bind, Pure.pure, Except.pure, hMethod]

section Routes

variable {ρ : Type} {uri : UriLibrary} {library : RegexLibrary ρ} {pattern finalRoute : Bytes}
  {p : Pattern Byte Bytes}

/-- It is enough that every match of the expression ensures the arguments, as the
library finds nothing but matches. -/
theorem comeFromPath_of_ensures (hConversions : conversions.Documented)
    (hRewritten : rewritten pattern = .ok finalRoute) (hSound : library.SoundAt finalRoute p)
    (hEnsures : Ensures conversions p (paramTypes pattern)) :
    ArgumentsComeFromPath uri library conversions pattern := by
  intro methods functionParams callable route hRoute request matched hMatch hMethod
  obtain ⟨_, rfl, regex, hCompile, rfl⟩ := (create_eq_ok_iff hRewritten).mp hRoute
  refine ⟨handler_of_match hMatch hMethod, ?_⟩
  obtain ⟨captures, hMatches, hReports⟩ := hSound _ _ _ hCompile hMatch
  refine arguments_of_match hConversions (infix_of_reports hMatches hReports) ?_ ?_
  · intro k type hType hRequired hNone
    refine hEnsures.required k type hType hRequired ((avoidable_iff _ p).mpr ⟨_, captures, hMatches, ?_⟩)
    rintro ⟨name, text⟩ hMem rfl
    have hSome := hReports.complete _ _ hMem
    rw [hNone] at hSome
    cases hSome
  · intro k type hType text hText
    exact hEnsures.readable k type hType text ⟨_, captures, hMatches, hReports.captured _ _ hText⟩

/-- It is enough that the search finds what provides the arguments. -/
theorem comeFromPath_of_provides (hConversions : conversions.Documented)
    (hRewritten : rewritten pattern = .ok finalRoute) (hSearches : library.SearchesAt finalRoute p)
    (hProvides : Provides conversions (library.Searches finalRoute) p (paramTypes pattern)) :
    ArgumentsComeFromPath uri library conversions pattern := by
  intro methods functionParams callable route hRoute request matched hMatch hMethod
  obtain ⟨_, rfl, regex, hCompile, rfl⟩ := (create_eq_ok_iff hRewritten).mp hRoute
  refine ⟨handler_of_match hMatch hMethod, ?_⟩
  have hSearched := RegexLibrary.Searches.of_match hCompile hMatch
  have hFirst : p.firstMatch _ = some matched := (hSearches regex _ _ hCompile hMatch).symm
  obtain ⟨captures, hMatches, hReports⟩ := firstMatch_sound hFirst
  refine arguments_of_match hConversions (infix_of_reports hMatches hReports) ?_ ?_
  · intro k type hType hRequired hNone
    obtain ⟨hNot, hWithout⟩ := firstMatch_eq_none hFirst hNone
    exact hNot (hProvides.required k type hType hRequired _ hSearched hWithout)
  · intro k type hType text hText
    exact hProvides.readable k type hType _ hSearched matched text hFirst hText

/-- What a match that the library reports leaves of the arguments: each comes from
what its own group has captured. -/
theorem fromPath_of_match (hUri : uri.Documented) (hRewritten : rewritten pattern = .ok finalRoute)
    (hValues : ∀ text ∈ values pattern, Compiles library text) {regex : ρ}
    (hCompile : library.compile finalRoute = .ok regex)
    (h : ArgumentsComeFromPath uri library conversions pattern) {path : Bytes}
    (hMatch : library.regexMatch path regex = .ok (some matched)) :
    ∀ k type, (paramTypes pattern)[k]? = some type →
      ∃ arg, FromPath conversions path (matched (groupName k)) arg type := by
  obtain ⟨text, hText⟩ := hUri.exists_spelling path
  have hPath : HTTPRequest.getMethodAndPath uri ⟨some .get, text, []⟩ = (.get, path) := by
    simp only [HTTPRequest.getMethodAndPath, HTTPRequest.getUnescapedPath, hText, Option.getD_some]
  have hRoute : Route.create library pattern [.get] (paramTypes pattern) (.streaming (.ok none)) =
      .ok ⟨pattern, [.get], regex, paramTypes pattern, .streaming (.ok none)⟩ :=
    (create_eq_ok_iff hRewritten).mpr ⟨hValues, rfl, regex, hCompile, rfl⟩
  obtain ⟨_, args, _, hArgs⟩ := h _ _ _ _ hRoute ⟨some .get, text, []⟩ matched
    (by rw [hPath]; exact hMatch) (by rw [hPath]; exact List.mem_singleton_self _)
  intro k type hType
  obtain ⟨arg, _, hFrom⟩ := hArgs k type hType
  rw [hPath] at hFrom
  exact ⟨arg, hFrom⟩

/-- If arguments come from the path, then the search provides them: every match that
it can find is found for some path, of which a request can be made. -/
theorem provides_of_comeFromPath (hUri : uri.Documented)
    (hRewritten : rewritten pattern = .ok finalRoute)
    (hValues : ∀ text ∈ values pattern, Compiles library text) (hSearches : library.SearchesAt finalRoute p)
    (h : ArgumentsComeFromPath uri library conversions pattern) :
    Provides conversions (library.Searches finalRoute) p (paramTypes pattern) := by
  have hFrom : ∀ path, library.Searches finalRoute path → ∀ matched, p.firstMatch path = some matched →
      ∀ k type, (paramTypes pattern)[k]? = some type →
        ∃ arg, FromPath conversions path (matched (groupName k)) arg type := by
    intro path ⟨regex, found, hCompile, hFound⟩ matched hFirst
    obtain rfl := (hSearches regex path found hCompile hFound).trans hFirst
    exact fromPath_of_match hUri hRewritten hValues hCompile h hFound
  constructor
  · intro k type hType hRequired path hSearched hWithout
    obtain ⟨captures, hMatches, _⟩ := accepts_without_iff.mp hWithout
    obtain ⟨way, hWay⟩ := Option.isSome_iff_exists.mp ((firstWay_isSome_iff p path).mpr ⟨_, hMatches⟩)
    have hFirst : p.firstMatch path = some (reported p.names way) := by rw [firstMatch, hWay]; rfl
    obtain ⟨arg, hArg⟩ := hFrom path hSearched _ hFirst k type hType
    cases hReported : reported p.names way (groupName k) with
    | none =>
        rw [hReported] at hArg
        exact absurd hArg (not_fromPath_none hRequired)
    | some text => exact ⟨way, hWay, text, reported_eq_some hReported⟩
  · intro k type hType path hSearched matched text hFirst hText
    obtain ⟨arg, hArg⟩ := hFrom path hSearched matched hFirst k type hType
    rw [hText] at hArg
    exact readable_of_fromPath hArg

/-- With a library that searches in the order of Perl, the arguments come from the path
exactly if those paths that could be matched without the group of a required parameter
are matched through it first, and what the match captures for numbers can be read.
With any other library it is enough that no match goes without such a group. -/
theorem arguments_come_from_path_iff (hUri : uri.Documented) (hConversions : conversions.Documented)
    (hRewritten : rewritten pattern = .ok finalRoute)
    (hAccepted : ∃ parsed, parseRoutePattern library pattern = .ok parsed) (p : Pattern Byte Bytes) :
    (library.SearchesAt finalRoute p → (ArgumentsComeFromPath uri library conversions pattern ↔
        Provides conversions (library.Searches finalRoute) p (paramTypes pattern))) ∧
      (library.SoundAt finalRoute p → Ensures conversions p (paramTypes pattern) →
        ArgumentsComeFromPath uri library conversions pattern) := by
  obtain ⟨hValues, _⟩ := (parseRoutePattern_ok_iff pattern).mp hAccepted
  refine ⟨fun hSearches => ⟨?_, ?_⟩, comeFromPath_of_ensures hConversions hRewritten⟩
  · exact provides_of_comeFromPath hUri hRewritten hValues hSearches
  · exact comeFromPath_of_provides hConversions hRewritten hSearches

end Routes

/-- Conversions that take no more texts than they have to. -/
def strictConversions : Conversions where
  toInt64 text :=
    if isInteger text ∧ FitsInt64 (integerValue text) then .ok (Int64.ofInt (integerValue text))
    else .error .std
  toDouble text := if isDecimal text then .ok 0 else .error .std

theorem strictConversions_documented : strictConversions.Documented where
  int64 text hInteger := by simp [strictConversions, hInteger]
  int64Empty := rfl
  double text hDecimal := ⟨0, if_pos hDecimal⟩
  doubleEmpty := rfl

/-- A group may be avoidable, if what is matched without it is matched with it first. -/
theorem arguments_come_from_path_either :
    ArgumentsComeFromPath uriDecoder patternLibrary strictConversions
      (ascii "/(?:\x7b\x7bi\x7d\x7d|5)") := by
  have hRewritten : rewritten (ascii "/(?:\x7b\x7bi\x7d\x7d|5)") =
      .ok (ascii "/(?:(?<__0>[+-]?\\d+)|5)") := by decide
  have hParse : parse (ascii "/(?:(?<__0>[+-]?\\d+)|5)") = some (seq (.set fun a => a = 0x2F)
      (alt (.group (groupName 0) (patternMeaning (ascii "[+-]?\\d+"))) (.set fun a => a = 0x35))) := rfl
  have hTypes : paramTypes (ascii "/(?:\x7b\x7bi\x7d\x7d|5)") = [.int64] := by decide
  have hAccepted : ∃ parsed,
      parseRoutePattern patternLibrary (ascii "/(?:\x7b\x7bi\x7d\x7d|5)") = .ok parsed := by
    refine (parseRoutePattern_ok_iff _).mpr ⟨?_, _, hRewritten, _, compile_patternLibrary_iff.mpr hParse⟩
    rw [show values (ascii "/(?:\x7b\x7bi\x7d\x7d|5)") = [] by decide]
    simp
  have hUnnamed : (patternMeaning (ascii "[+-]?\\d+")).Unnamed := ⟨trivial, trivial⟩
  have hWay : firstWay (seq (.set fun a => a = 0x2F) (alt (.group (groupName 0)
      (patternMeaning (ascii "[+-]?\\d+"))) (.set fun a => a = 0x35))) [0x2F, 0x35] =
        some [((0, groupName 0), [0x35])] := by decide
  refine ((arguments_come_from_path_iff uriDecoder_documented strictConversions_documented hRewritten
    hAccepted _).1 (patternLibrary_searchesAt hParse)).mpr ?_
  have hFirst : ∀ {k : Nat} {type : RouteParamType}, [RouteParamType.int64][k]? = some type →
      k = 0 ∧ type = .int64 := by
    intro k type hType
    obtain ⟨hk, hSame⟩ := List.getElem?_eq_some_iff.mp hType
    obtain rfl : k = 0 := Nat.lt_one_iff.mp hk
    exact ⟨rfl, hSame.symm⟩
  rw [hTypes]
  constructor
  · intro k type hType _ path _ hWithout
    obtain ⟨rfl, _⟩ := hFirst hType
    obtain ⟨captures, hMatch, hAvoids⟩ := accepts_without_iff.mp hWithout
    obtain ⟨_, _, _, _, hSlash, hRest, rfl, rfl⟩ := matches_seq_iff.mp hMatch
    obtain ⟨slash, hSame, rfl, rfl⟩ := matches_set_iff.mp hSlash
    obtain rfl := of_decide_eq_true hSame
    rcases matches_alt_iff.mp hRest with hGroup | hFive
    · obtain ⟨inner, _, rfl⟩ := matches_group_iff.mp hGroup
      exact absurd rfl (hAvoids _ (List.mem_append_right _ (List.mem_append_right _ (List.mem_singleton_self _))))
    · obtain ⟨five, hSame, rfl, _⟩ := matches_set_iff.mp hFive
      obtain rfl := of_decide_eq_true hSame
      exact ⟨[((0, groupName 0), [0x35])], hWay, [0x35], List.mem_singleton_self _⟩
  · intro k type hType path _ matched text hMatch hText
    obtain ⟨rfl, rfl⟩ := hFirst hType
    obtain ⟨captures, hMatches, hReports⟩ := firstMatch_sound hMatch
    have hMem := hReports.captured _ _ hText
    obtain ⟨_, _, _, _, hSlash, hRest, rfl, rfl⟩ := matches_seq_iff.mp hMatches
    obtain ⟨_, _, _, rfl⟩ := matches_set_iff.mp hSlash
    rcases matches_alt_iff.mp hRest with hGroup | hFive
    · obtain ⟨inner, hNumber, rfl⟩ := matches_group_iff.mp hGroup
      rw [hNumber.captures_eq_nil hUnnamed, List.nil_append, List.nil_append, List.mem_singleton,
        Prod.mk.injEq] at hMem
      exact hMem.2 ▸ readable_of_isTextOf strictConversions_documented
        (@isTextOf_of_accepts ⟨.int64, [], [], []⟩ _ ⟨_, hNumber⟩)
    · obtain ⟨_, _, _, rfl⟩ := matches_set_iff.mp hFive
      cases hMem

/-- A path without the number of the parameter is matched, and its group took no
part. -/
theorem exists_route_without {pattern finalRoute path : Bytes} {type : RouteParamType}
    {p : Pattern Byte Bytes} (hRewritten : rewritten pattern = .ok finalRoute)
    (hValues : values pattern = []) (hTypes : paramTypes pattern = [type])
    (hParse : parse finalRoute = some p) (hWay : p.firstWay path = some []) :
    ∃ route matched,
      Route.create patternLibrary pattern [.get] [type] (.streaming (.ok none)) = .ok route ∧
        patternLibrary.regexMatch path route.regex = .ok (some matched) ∧
        matched (groupName 0) = none := by
  refine ⟨⟨pattern, [.get], p, [type], .streaming (.ok none)⟩, reported p.names [], ?_, ?_,
    reported_nil _ _⟩
  · refine (create_eq_ok_iff hRewritten).mpr ⟨?_, hTypes.symm, p, ?_, rfl⟩
    · rw [hValues]
      simp
    · exact compile_patternLibrary_iff.mpr hParse
  · show Except.ok (firstMatch p path) = _
    rw [firstMatch, hWay]
    rfl

/-- A required argument does not come from a path on which its group is not matched.
The request for the path is made here. -/
theorem not_comeFromPath {ρ : Type} {library : RegexLibrary ρ} {pattern : Bytes} {type : RouteParamType}
    {callable : RouteCallable} {route : Route ρ}
    (hRoute : Route.create library pattern [.get] [type] callable = .ok route)
    (hMatch : library.regexMatch (ascii "/a") route.regex = .ok (some matched))
    (hMissing : matched (groupName 0) = none) (hRequired : isOptional type = false) :
    ¬ArgumentsComeFromPath uriDecoder library conversions pattern := by
  intro h
  obtain ⟨_, args, _, hArgs⟩ := h [.get] [type] callable route hRoute
    ⟨some .get, ascii "/a", []⟩ matched hMatch (List.mem_singleton_self _)
  obtain ⟨arg, _, hFrom⟩ := hArgs 0 type rfl
  rw [hMissing] at hFrom
  exact not_fromPath_none hRequired hFrom

/-- The group of a required parameter may stand in a part of the pattern that is
optional. Then an integer that was never sent is delivered as the greatest one,
and the lack of another number throws. -/
theorem arguments_without_path :
    (∃ route matched,
      Route.create patternLibrary (ascii "/a(?:/\x7b\x7bi\x7d\x7d)?") [.get] [.int64]
          (.streaming (.ok none)) = .ok route ∧
        patternLibrary.regexMatch (ascii "/a") route.regex = .ok (some matched) ∧
        matched (groupName 0) = none ∧ ∀ conversions : Conversions, conversions.Documented →
          conversions.getHandlerArgs matched 0 [.int64] = .ok [.int64 Int64.maxValue]) ∧
      (∃ route matched,
        Route.create patternLibrary (ascii "/a(?:/\x7b\x7bd\x7d\x7d)?") [.get] [.double]
            (.streaming (.ok none)) = .ok route ∧
          patternLibrary.regexMatch (ascii "/a") route.regex = .ok (some matched) ∧
          matched (groupName 0) = none ∧ ∀ conversions : Conversions, conversions.Documented →
            conversions.getHandlerArgs matched 0 [.double] = .error .std) ∧
      ∀ conversions : Conversions, conversions.Documented →
        ¬ArgumentsComeFromPath uriDecoder patternLibrary conversions
            (ascii "/a(?:/\x7b\x7bi\x7d\x7d)?") ∧
          ¬ArgumentsComeFromPath uriDecoder patternLibrary conversions
            (ascii "/a(?:/\x7b\x7bd\x7d\x7d)?") := by
  have hIntText : rewritten (ascii "/a(?:/\x7b\x7bi\x7d\x7d)?") =
      .ok (ascii "/a(?:/(?<__0>[+-]?\\d+))?") := by decide
  have hDoubleText : rewritten (ascii "/a(?:/\x7b\x7bd\x7d\x7d)?") =
      .ok (ascii "/a(?:/(?<__0>[+-]?\\d+(?:\\.\\d+)?))?") := by decide
  obtain ⟨intRoute, intMatch, hIntRoute, hIntMatch, hInt⟩ := @exists_route_without _ _ (ascii "/a")
    .int64 _ hIntText (by decide) (by decide) rfl (by decide)
  obtain ⟨doubleRoute, doubleMatch, hDoubleRoute, hDoubleMatch, hDouble⟩ :=
    @exists_route_without _ _ (ascii "/a") .double _ hDoubleText (by decide)
      (by decide) rfl (by decide)
  refine ⟨⟨intRoute, intMatch, hIntRoute, hIntMatch, hInt, ?_⟩,
    ⟨doubleRoute, doubleMatch, hDoubleRoute, hDoubleMatch, hDouble, ?_⟩, ?_⟩
  · intro conversions hConversions
    have hArg : conversions.getHandlerArg intMatch 0 .int64 = .ok (.int64 Int64.maxValue) := by
      simp [Conversions.getHandlerArg, Conversions.int64OrMax, Match.str, hInt,
        hConversions.int64Empty, Except.map]
    rw [Conversions.getHandlerArgs, hArg]
    rfl
  · intro conversions hConversions
    have hArg : conversions.getHandlerArg doubleMatch 0 .double = .error .std := by
      simp [Conversions.getHandlerArg, Match.str, hDouble, hConversions.doubleEmpty, Except.map]
    rw [Conversions.getHandlerArgs, hArg]
    rfl
  · intro conversions _
    exact ⟨not_comeFromPath hIntRoute hIntMatch hInt rfl,
      not_comeFromPath hDoubleRoute hDoubleMatch hDouble rfl⟩

end RouteParsing

end Nozomi
