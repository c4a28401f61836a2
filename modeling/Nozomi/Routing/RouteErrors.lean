import Nozomi.Routing.ReplacementLoop
import Nozomi.Routing.RouteMeaning

/-! What is thrown while a route is made, and the texts by which it is told. -/
namespace Nozomi

open Text Pattern

namespace RouteErrors

open RouteParsing

variable {ρ : Type} (library : RegexLibrary ρ)

/-- How the parameters of a pattern and those of a handler differ. -/
inductive Mismatch where
  | count (patternParams functionParams : List RouteParamType)
  | type (i : Nat) (patternParam functionParam : RouteParamType)

namespace Mismatch

/-- The number of parameters comes first, then the first type. -/
inductive Between : List RouteParamType → List RouteParamType → Mismatch → Prop where
  | count {patternParams functionParams : List RouteParamType}
      (hCount : patternParams.length ≠ functionParams.length) :
      Between patternParams functionParams (.count patternParams functionParams)
  | type {before patternRest functionRest : List RouteParamType}
      {patternParam functionParam : RouteParamType}
      (hCount : patternRest.length = functionRest.length) (hType : patternParam ≠ functionParam) :
      Between (before ++ patternParam :: patternRest) (before ++ functionParam :: functionRest)
        (.type before.length patternParam functionParam)

def what (pattern : Bytes) : Mismatch → Bytes
  | count patternParams functionParams => countText pattern patternParams functionParams
  | type i patternParam functionParam => typeText pattern i patternParam functionParam

end Mismatch

/-- The first of some expressions that the library cannot compile. -/
inductive FirstInvalid : List Bytes → RouteError → Prop where
  | here {text : Bytes} {rest : List Bytes} {thrown : Thrown}
      (hText : library.compile text = .error thrown) : FirstInvalid (text :: rest) (.regex text thrown)
  | later {text : Bytes} {rest : List Bytes} {error : RouteError} (hText : Compiles library text)
      (hRest : FirstInvalid rest error) : FirstInvalid (text :: rest) error

/-- What is wrong with a pattern and the parameters of a handler. -/
inductive Cause (pattern : Bytes) (functionParams : List RouteParamType) : RouteError → Prop where
  | value {error : RouteError} (hValues : FirstInvalid library (values pattern) error) :
      Cause pattern functionParams error
  | whole {finalRoute : Bytes} {thrown : Thrown}
      (hValues : ∀ text ∈ values pattern, Compiles library text)
      (hRewritten : rewritten pattern = .ok finalRoute)
      (hText : library.compile finalRoute = .error thrown) :
      Cause pattern functionParams (.regex finalRoute thrown)
  | mismatch {finalRoute : Bytes} {mismatch : Mismatch}
      (hValues : ∀ text ∈ values pattern, Compiles library text)
      (hRewritten : rewritten pattern = .ok finalRoute) (hText : Compiles library finalRoute)
      (hBetween : Mismatch.Between (paramTypes pattern) functionParams mismatch) :
      Cause pattern functionParams (.runtime (mismatch.what pattern))

section Causes

variable {library}

/-- The error of a library comes with the expression that it does not compile. -/
theorem compile_error_iff {expression : Bytes} {error : RouteError} :
    compile library expression = .error error ↔
      ∃ thrown, library.compile expression = .error thrown ∧ error = .regex expression thrown := by
  unfold compile
  cases library.compile expression <;> simp [Except.mapError, eq_comm]

/-- A computation of two steps fails in its first step, or in the second one. -/
theorem bind_eq_error_iff {ε α β : Type} {attempt : Except ε α} {next : α → Except ε β} {error : ε} :
    attempt >>= next = .error error ↔
      attempt = .error error ∨ ∃ value, attempt = .ok value ∧ next value = .error error := by
  cases attempt <;> simp [Bind.bind, Except.bind]

/-- The first text that does not compile is the head of the list, or the head
compiles and it is the first of the rest. -/
theorem firstInvalid_cons_iff {text : Bytes} {rest : List Bytes} {error : RouteError} :
    FirstInvalid library (text :: rest) error ↔ compile library text = .error error ∨
      Compiles library text ∧ FirstInvalid library rest error := by
  rw [compile_error_iff]
  constructor
  · intro h
    cases h with
    | here hText => exact .inl ⟨_, hText, rfl⟩
    | later hText hRest => exact .inr ⟨hText, hRest⟩
  · intro h
    cases h with
    | inl hHere =>
        obtain ⟨thrown, hText, rfl⟩ := hHere
        exact .here hText
    | inr hLater => exact .later hLater.1 hLater.2

theorem not_firstInvalid_nil {error : RouteError} : ¬FirstInvalid library [] error := by
  intro h
  cases h

/-- The error for a text that does not compile is never one of the route's own
errors. -/
theorem FirstInvalid.is_regex {texts : List Bytes} {error : RouteError}
    (h : FirstInvalid library texts error) : ∃ text thrown, error = .regex text thrown := by
  induction h with
  | here => exact ⟨_, _, rfl⟩
  | later _ _ ih => exact ih

/-- One match gets through the scanning loop, or its value is not an expression. -/
theorem routeToRegex_error_iff (paramNum : Nat) (param : RouteParam) (rest : List Bytes)
    (error : RouteError) :
    FirstInvalid library (valueTexts param ++ rest) error ↔
      routeToRegex library paramNum param = .error error ∨
        (∃ replacement, routeToRegex library paramNum param = .ok replacement) ∧
          FirstInvalid library rest error := by
  have hOk : (∃ replacement, routeToRegex library paramNum param = .ok replacement) ↔
      ∀ text ∈ valueTexts param, Compiles library text := by
    rw [← routeToRegex_iff paramNum param]
    simp only [RouteParsing.routeToRegex, mapError_eq_ok_iff]
  rw [hOk]
  unfold routeToRegex valueTexts
  cases param.type with
  | string | optionalString =>
      simp [firstInvalid_cons_iff, bind_eq_error_iff, Pure.pure, Except.pure]
  | int64 | optionalInt64 | double | optionalDouble => simp

/-- The loop over the matches fails exactly with the error of the first value that
does not compile, in the order of the pattern. -/
theorem scanLoop_error_iff (founds : List (Regex.Found RouteGroup))
    (replacements : List (Bytes × Bytes)) (types : List RouteParamType) (error : RouteError) :
    scanLoop library founds replacements types = .error error ↔
      FirstInvalid library
        ((founds.filterMap fun found => routeParam found.captures).flatMap valueTexts) error := by
  induction founds generalizing replacements types with
  | nil => exact iff_of_false (by simp [scanLoop]) not_firstInvalid_nil
  | cons found founds ih =>
      rw [scanLoop, List.filterMap_cons]
      cases routeParam found.captures with
      | none => exact ih replacements types
      | some param =>
          dsimp only
          rw [List.flatMap_cons, routeToRegex_error_iff replacements.length, bind_eq_error_iff]
          simp only [ih, exists_and_right]

/-- What the pattern alone can make the parsing throw: an error of a value, or of the
rewritten expression. The search of the loop is never the one to fail. -/
theorem parseRoutePattern_error_iff (pattern : Bytes) (error : RouteError) :
    parseRoutePattern library pattern = .error error ↔
      FirstInvalid library (values pattern) error ∨
        (∀ text ∈ values pattern, Compiles library text) ∧
          ∃ finalRoute, rewritten pattern = .ok finalRoute ∧
            compile library finalRoute = .error error := by
  have hFounds : values pattern = ((Regex.sregexIterator routeParser pattern).1.filterMap
      fun found => routeParam found.captures).flatMap valueTexts := by
    rw [values, params, scan, List.filterMap_map]
    rfl
  have hScans : ∀ result, scanLoop library (Regex.sregexIterator routeParser pattern).1 [] [] = .ok result ↔
      RouteParsing.scanLoop library (Regex.sregexIterator routeParser pattern).1 [] [] = .ok result := by
    intro result
    rw [RouteParsing.scanLoop, mapError_eq_ok_iff]
  have hReplaces : ∀ replacements finalRoute, replaceLoop replacements 0 pattern = .ok finalRoute ↔
      RouteParsing.replaceLoop replacements 0 pattern = .ok finalRoute := by
    intro replacements finalRoute
    rw [RouteParsing.replaceLoop, mapError_eq_ok_iff]
  rw [parseRoutePattern, bind_eq_error_iff, scanLoop_error_iff, ← hFounds]
  apply or_congr_right
  constructor
  · intro h
    obtain ⟨⟨replacements, types⟩, hScan, hRest⟩ := h
    -- the searches of the replacement loop do not fail, so only the whole can be invalid
    obtain ⟨finalRoute, hLoop⟩ := (pending_start ((hScans _).mp hScan)).completes
    have hPattern : rewritePattern library pattern = .ok (finalRoute, types) :=
      (Throws.bind_eq_ok_iff _ _ _).mpr ⟨_, (hScans _).mp hScan,
        (Throws.bind_eq_ok_iff _ _ _).mpr ⟨_, hLoop, rfl⟩⟩
    obtain ⟨hValues, hRewritten⟩ := (rewritePattern_ok_iff pattern finalRoute).mp ⟨types, hPattern⟩
    refine ⟨hValues, finalRoute, hRewritten, ?_⟩
    dsimp only at hRest
    rw [(hReplaces replacements finalRoute).mpr hLoop] at hRest
    have hWhole : compile library finalRoute >>= (fun regex => pure (regex, types)) = .error error := hRest
    cases bind_eq_error_iff.mp hWhole with
    | inl hCompile => exact hCompile
    | inr hDone =>
        obtain ⟨regex, _, hRegex⟩ := hDone
        cases hRegex
  · intro h
    obtain ⟨hValues, finalRoute, hRewritten, hCompile⟩ := h
    obtain ⟨types, hPattern⟩ := (rewritePattern_ok_iff pattern finalRoute).mpr ⟨hValues, hRewritten⟩
    obtain ⟨⟨replacements, _⟩, hScan, hRest⟩ := (Throws.bind_eq_ok_iff _ _ _).mp hPattern
    obtain ⟨text, hLoop, hSame⟩ := (Throws.bind_eq_ok_iff _ _ _).mp hRest
    obtain ⟨rfl, rfl⟩ := Prod.mk.inj (Except.ok.inj hSame)
    exact ⟨_, (hScans _).mpr hScan, bind_eq_error_iff.mpr
      (.inr ⟨text, (hReplaces replacements text).mpr hLoop, bind_eq_error_iff.mpr (.inl hCompile)⟩)⟩

/-- Two lists of types differ first in place `i` exactly if they are the same before
it, and equally long after it. -/
theorem between_type_iff {patternParams functionParams : List RouteParamType} {i : Nat}
    {patternParam functionParam : RouteParamType} :
    Mismatch.Between patternParams functionParams (.type i patternParam functionParam) ↔
      ∃ before patternRest functionRest, patternParams = before ++ patternParam :: patternRest ∧
        functionParams = before ++ functionParam :: functionRest ∧
        patternRest.length = functionRest.length ∧ patternParam ≠ functionParam ∧ i = before.length := by
  constructor
  · intro h
    cases h with
    | type hCount hType => exact ⟨_, _, _, rfl, rfl, hCount, hType, rfl⟩
  · rintro ⟨before, patternRest, functionRest, rfl, rfl, hCount, hType, rfl⟩
    exact .type hCount hType

/-- The first difference is in the head, or the heads are the same and it is one
place earlier in the tails. This is the recursion of the loop over the types. -/
theorem between_type_cons_iff {patternParam functionParam p f : RouteParamType}
    {patternParams functionParams : List RouteParamType}
    (hCount : patternParams.length = functionParams.length) {i : Nat} :
    Mismatch.Between (patternParam :: patternParams) (functionParam :: functionParams) (.type i p f) ↔
      (patternParam ≠ functionParam ∧ i = 0 ∧ p = patternParam ∧ f = functionParam) ∨
        patternParam = functionParam ∧
          ∃ j, i = j + 1 ∧ Mismatch.Between patternParams functionParams (.type j p f) := by
  simp only [between_type_iff]
  constructor
  · rintro ⟨before, patternRest, functionRest, hPattern, hFunction, hRest, hType, rfl⟩
    cases before with
    | nil =>
        obtain ⟨rfl, rfl⟩ := List.cons.inj hPattern
        obtain ⟨rfl, rfl⟩ := List.cons.inj hFunction
        exact .inl ⟨hType, rfl, rfl, rfl⟩
    | cons param before =>
        obtain ⟨rfl, rfl⟩ := List.cons.inj hPattern
        obtain ⟨rfl, rfl⟩ := List.cons.inj hFunction
        exact .inr ⟨rfl, before.length, rfl, before, _, _, rfl, rfl, hRest, hType, rfl⟩
  · intro h
    cases h with
    | inl hHere =>
        obtain ⟨hType, rfl, rfl, rfl⟩ := hHere
        exact ⟨[], _, _, rfl, rfl, hCount, hType, rfl⟩
    | inr hLater =>
        obtain ⟨rfl, _, rfl, before, _, _, rfl, rfl, hRest, hType, rfl⟩ := hLater
        exact ⟨patternParam :: before, _, _, rfl, rfl, hRest, hType, rfl⟩

/-- The loop over the types fails exactly at the first difference. The induction is
over both lists, with `k` places before them. -/
theorem checkTypes_error_iff {pattern : Bytes} {patternParams functionParams : List RouteParamType}
    (hCount : patternParams.length = functionParams.length) (k : Nat) (error : RouteError) :
    checkTypes pattern k patternParams functionParams = .error error ↔
      ∃ i p f, Mismatch.Between patternParams functionParams (.type i p f) ∧
        error = .runtime (typeText pattern (k + i) p f) := by
  induction patternParams generalizing functionParams k with
  | nil => simp [checkTypes, between_type_iff]
  | cons patternParam patternParams ih =>
      cases functionParams with
      | nil => cases hCount
      | cons functionParam functionParams =>
          rw [checkTypes]
          by_cases hType : patternParam = functionParam
          · rw [if_neg (not_not_intro hType), ih (Nat.succ.inj hCount)]
            simp only [between_type_cons_iff (Nat.succ.inj hCount), hType, ne_eq, not_true_eq_false,
              false_and, false_or, true_and]
            constructor
            · rintro ⟨i, p, f, hBetween, hText⟩
              exact ⟨i + 1, p, f, ⟨i, rfl, hBetween⟩, by rw [hText, Nat.add_assoc, Nat.add_comm 1]⟩
            · rintro ⟨_, p, f, ⟨i, rfl, hBetween⟩, hText⟩
              exact ⟨i, p, f, hBetween, by rw [hText, Nat.add_assoc, Nat.add_comm 1]⟩
          · rw [if_pos hType]
            simp only [between_type_cons_iff (Nat.succ.inj hCount), hType, ne_eq, not_false_eq_true,
              true_and, false_and, or_false, Except.error.injEq]
            constructor
            · intro hText
              exact ⟨0, _, _, ⟨rfl, rfl, rfl⟩, hText.symm⟩
            · rintro ⟨_, _, _, ⟨rfl, rfl, rfl⟩, hText⟩
              exact hText.symm

/-- A pattern is parsed exactly if all its values compile and the expression that it
is rewritten to does. -/
theorem parseRoutePattern_eq_ok_iff {pattern : Bytes} {regex : ρ} {types : List RouteParamType} :
    parseRoutePattern library pattern = .ok (regex, types) ↔
      (∀ text ∈ values pattern, Compiles library text) ∧ types = paramTypes pattern ∧
        ∃ finalRoute, rewritten pattern = .ok finalRoute ∧ library.compile finalRoute = .ok regex := by
  have hPlain : RouteParsing.parseRoutePattern library pattern = .ok (regex, types) ↔
      parseRoutePattern library pattern = .ok (regex, types) := mapError_eq_ok_iff
  rw [← hPlain, parseRoutePattern_eq, Throws.bind_eq_ok_iff]
  constructor
  · intro h
    obtain ⟨⟨finalRoute, _⟩, hPattern, hRest⟩ := h
    obtain ⟨_, hRegex, hSame⟩ := (Throws.bind_eq_ok_iff _ _ _).mp hRest
    obtain ⟨rfl, rfl⟩ := Prod.mk.inj (Except.ok.inj hSame)
    obtain ⟨hTypes, hRewritten⟩ := rewritePattern_eq hPattern
    exact ⟨((rewritePattern_ok_iff pattern finalRoute).mp ⟨_, hPattern⟩).1, hTypes, finalRoute,
      hRewritten, hRegex⟩
  · rintro ⟨hValues, rfl, finalRoute, hRewritten, hRegex⟩
    obtain ⟨types, hPattern⟩ := (rewritePattern_ok_iff pattern finalRoute).mpr ⟨hValues, hRewritten⟩
    obtain ⟨rfl, _⟩ := rewritePattern_eq hPattern
    exact ⟨_, hPattern, (Throws.bind_eq_ok_iff _ _ _).mpr ⟨regex, hRegex, rfl⟩⟩

/-- The two checks of the constructor find the first difference. The numbers of the
parameters are compared before their types. -/
theorem checks_error_iff {pattern : Bytes} {patternParams functionParams : List RouteParamType}
    {route : Route ρ} {error : RouteError} :
    (if patternParams.length ≠ functionParams.length then
        throw (.runtime (countText pattern patternParams functionParams))
      else do
        checkTypes pattern 0 patternParams functionParams
        return route) = Except.error error ↔
      ∃ mismatch, Mismatch.Between patternParams functionParams mismatch ∧
        error = .runtime (mismatch.what pattern) := by
  by_cases hCount : patternParams.length = functionParams.length
  · rw [if_neg (not_not_intro hCount), bind_eq_error_iff, checkTypes_error_iff hCount]
    simp only [Nat.zero_add]
    constructor
    · intro h
      cases h with
      | inl hType =>
          obtain ⟨i, p, f, hBetween, hText⟩ := hType
          exact ⟨.type i p f, hBetween, hText⟩
      | inr hDone =>
          obtain ⟨_, _, hRoute⟩ := hDone
          cases hRoute
    · intro ⟨mismatch, hBetween, hText⟩
      cases mismatch with
      | count =>
          cases hBetween with
          | count hOther => exact absurd hCount hOther
      | type i p f => exact .inl ⟨i, p, f, hBetween, hText⟩
  · rw [if_pos hCount]
    constructor
    · intro h
      exact ⟨.count patternParams functionParams, .count hCount, (Except.error.inj h).symm⟩
    · intro ⟨mismatch, hBetween, hText⟩
      cases hBetween with
      | count => rw [hText]; rfl
      | type hRest => exact absurd (by simp [hRest]) hCount

/-- If a route cannot be made, then the error is the first thing that is wrong. The
cases are the steps of the constructor, each of which is passed only if nothing was
wrong with it. -/
theorem cause_of_create {pattern : Bytes} {methods : List HTTPMethod}
    {functionParams : List RouteParamType} {callable : RouteCallable} {error : RouteError}
    (h : create library pattern methods functionParams callable = .error error) :
    Cause library pattern functionParams error := by
  rw [create, bind_eq_error_iff, parseRoutePattern_error_iff] at h
  cases h with
  | inl hPattern =>
      cases hPattern with
      | inl hValues => exact .value hValues
      | inr hWhole =>
          obtain ⟨hValues, finalRoute, hRewritten, hCompile⟩ := hWhole
          obtain ⟨thrown, hText, rfl⟩ := compile_error_iff.mp hCompile
          exact .whole hValues hRewritten hText
  | inr hParsed =>
      obtain ⟨⟨regex, patternParams⟩, hParsed, hChecks⟩ := hParsed
      obtain ⟨hValues, rfl, finalRoute, hRewritten, hRegex⟩ := parseRoutePattern_eq_ok_iff.mp hParsed
      obtain ⟨mismatch, hBetween, rfl⟩ := checks_error_iff.mp hChecks
      exact .mismatch hValues hRewritten ⟨regex, hRegex⟩ hBetween

/-- The first thing that is wrong makes the constructor fail with its error, as the
steps before it succeed. -/
theorem Cause.create {pattern : Bytes} {functionParams : List RouteParamType} {error : RouteError}
    (h : Cause library pattern functionParams error) (methods : List HTTPMethod)
    (callable : RouteCallable) :
    create library pattern methods functionParams callable = .error error := by
  rw [RouteErrors.create, bind_eq_error_iff, parseRoutePattern_error_iff]
  cases h with
  | value hValues => exact .inl (.inl hValues)
  | whole hValues hRewritten hText =>
      exact .inl (.inr ⟨hValues, _, hRewritten, compile_error_iff.mpr ⟨_, hText, rfl⟩⟩)
  | mismatch hValues hRewritten hText hBetween =>
      obtain ⟨regex, hRegex⟩ := hText
      exact .inr ⟨(regex, paramTypes pattern),
        parseRoutePattern_eq_ok_iff.mpr ⟨hValues, rfl, _, hRewritten, hRegex⟩,
        checks_error_iff.mpr ⟨_, hBetween, rfl⟩⟩

/-- The constructor fails exactly if something is wrong, and reports what comes first.
The replacement loop is never the one to fail. -/
theorem create_reports_iff (pattern : Bytes) (methods : List HTTPMethod)
    (functionParams : List RouteParamType) (callable : RouteCallable) :
    (create library pattern methods functionParams callable).mapError RouteError.thrown =
        Route.create library pattern methods functionParams callable ∧
      ∀ error, create library pattern methods functionParams callable = .error error ↔
        Cause library pattern functionParams error := by
  refine ⟨rfl, fun error => ?_⟩
  constructor
  · exact cause_of_create
  · intro h
    exact h.create methods callable

end Causes

section Texts

/-- The names of the types are words, and no comma or quote can be confused with
them. -/
theorem toString_isWord (type : RouteParamType) : ∀ c ∈ type.toString, isWord c = true := by
  cases type <;> exact List.all_eq_true.mp rfl

theorem toString_injective : Function.Injective RouteParamType.toString := by
  have hRead : ∀ type : RouteParamType,
      [.int64, .double, .string, .optionalInt64, .optionalDouble, .optionalString].find?
        (fun other => other.toString = type.toString) = some type := by
    intro type
    cases type <;> decide
  intro first second h
  apply Option.some.inj
  rw [← hRead first, h, hRead second]

theorem decimal_isWord (n : Nat) : ∀ c ∈ decimal n, isWord c = true := fun c hMem =>
  groupName_isWord n c (List.mem_append_right _ hMem)

theorem decimal_injective : Function.Injective decimal := fun _ _ h =>
  groupName_injective (congrArg (ascii "__" ++ ·) h)

/-- The lines of a list, from behind. -/
theorem lines_append_inj {rest other : Bytes} {first second : List RouteParamType}
    (hLength : first.length = second.length)
    (h : rest ++ (ascii "\n" ++ paramLines first) = other ++ (ascii "\n" ++ paramLines second)) :
    rest = other ∧ first = second := by
  have hLines : ∀ params : List RouteParamType, ascii "\n" ++ paramLines params =
      params.flatMap (fun param => ascii "\n" ++ param.toString) ++ ascii "\n" := by
    intro params
    induction params with
    | nil => simp [paramLines]
    | cons param params ih =>
        rw [paramLines, List.flatMap_cons, List.flatMap_cons, List.append_assoc, List.append_assoc,
          ← ih, paramLines, List.append_assoc]
  rw [hLines, hLines, ← List.append_assoc, ← List.append_assoc] at h
  exact append_flatMap_inj ⟨0x0A, by rw [ascii_ofList]; rfl, by decide⟩ toString_isWord toString_injective
    hLength (List.append_cancel_right h)

/-- The text about the numbers of parameters can be read back: the pattern, and both
lists of types. It is read from its end, as the pattern may contain anything. -/
theorem countText_inj {pattern other : Bytes}
    {patternParams functionParams params others : List RouteParamType}
    (h : countText pattern patternParams functionParams = countText other params others) :
    pattern = other ∧ patternParams = params ∧ functionParams = others := by
  have hTitle : ascii "Function parameters:\n" = ascii "Function parameters:" ++ ascii "\n" := by
    rw [ascii_ofList, ascii_ofList, ascii_ofList]
    rfl
  have hStart : ascii "Pattern parameters:\n" = ascii "Pattern parameters:" ++ ascii "\n" := by
    rw [ascii_ofList, ascii_ofList, ascii_ofList]
    rfl
  have hVersus : ascii " vs " = 0x20 :: ascii "vs " := by
    rw [ascii_ofList, ascii_ofList]
    rfl
  have hClose : ascii ")\n" = 0x29 :: ascii "\n" := by
    rw [ascii_ofList, ascii_ofList]
    rfl
  rw [countText, countText, hTitle, hStart, hVersus, hClose] at h
  simp only [List.append_assoc, List.cons_append] at h
  obtain ⟨hPatterns, hFunctions⟩ := append_cons_inj (decimal_isWord _) (decimal_isWord _)
    (by decide) (by decide) (List.append_cancel_left h)
  obtain ⟨hCount, hRest⟩ := append_cons_inj (decimal_isWord _) (decimal_isWord _)
    (by decide) (by decide) (List.append_cancel_left hFunctions)
  have hLists : (pattern ++ (ascii "\n" ++ ascii "Pattern parameters:") ++
        (ascii "\n" ++ paramLines patternParams) ++ ascii "Function parameters:") ++
          (ascii "\n" ++ paramLines functionParams) =
      (other ++ (ascii "\n" ++ ascii "Pattern parameters:") ++
        (ascii "\n" ++ paramLines params) ++ ascii "Function parameters:") ++
          (ascii "\n" ++ paramLines others) := by
    simp only [List.append_assoc]
    exact List.append_cancel_left (List.append_cancel_left hRest)
  obtain ⟨hBefore, hFunction⟩ := lines_append_inj (decimal_injective hCount) hLists
  obtain ⟨hPattern, hParams⟩ := lines_append_inj (decimal_injective hPatterns)
    (List.append_cancel_right hBefore)
  exact ⟨List.append_cancel_right hPattern, hParams, hFunction⟩

/-- The text about one type can be read back too, from its end to the pattern. -/
theorem typeText_inj {pattern other : Bytes} {i j : Nat}
    {patternParam functionParam p f : RouteParamType}
    (h : typeText pattern i patternParam functionParam = typeText other j p f) :
    pattern = other ∧ i = j ∧ patternParam = p ∧ functionParam = f := by
  rw [typeText, typeText] at h
  obtain ⟨hRest, hFunction⟩ := separator_append_inj ⟨0x28, by rw [ascii_ofList]; rfl, by decide⟩
    (toString_isWord _) (toString_isWord _) (List.append_cancel_right h)
  obtain ⟨hRest, hNumber⟩ := separator_append_inj ⟨0x20, by rw [ascii_ofList]; rfl, by decide⟩
    (decimal_isWord _) (decimal_isWord _) hRest
  obtain ⟨hRest, hPattern⟩ := separator_append_inj ⟨0x28, by rw [ascii_ofList]; rfl, by decide⟩
    (toString_isWord _) (toString_isWord _) hRest
  obtain ⟨hRest, _⟩ := separator_append_inj ⟨0x20, by rw [ascii_ofList]; rfl, by decide⟩
    (decimal_isWord _) (decimal_isWord _) hRest
  exact ⟨List.append_cancel_left (List.append_cancel_right hRest), decimal_injective hNumber,
    toString_injective hPattern, toString_injective hFunction⟩

/-- The texts are different in what stands after the first word. -/
theorem countText_ne_typeText {pattern other : Bytes}
    {patternParams functionParams : List RouteParamType} {i : Nat}
    {patternParam functionParam : RouteParamType} :
    countText pattern patternParams functionParams ≠ typeText other i patternParam functionParam := by
  intro h
  have hCount : (countText pattern patternParams functionParams)[7]? = some 0x20 := by
    simp only [countText, List.append_assoc]
    rw [ascii_ofList]
    rfl
  have hType : (typeText other i patternParam functionParam)[7]? = some 0x3A := by
    simp only [typeText, List.append_assoc]
    rw [ascii_ofList]
    rfl
  rw [h, hType] at hCount
  cases hCount

/-- The texts of two differences are the same only if the patterns and the
differences are. The two kinds of texts differ in how they end. -/
theorem what_inj {pattern other : Bytes} {first second : Mismatch}
    (h : first.what pattern = second.what other) : pattern = other ∧ first = second := by
  cases first with
  | count patternParams functionParams =>
      cases second with
      | count params others =>
          obtain ⟨hPattern, rfl, rfl⟩ := countText_inj h
          exact ⟨hPattern, rfl⟩
      | type j p f => exact absurd h countText_ne_typeText
  | type i patternParam functionParam =>
      cases second with
      | count params others => exact absurd h.symm countText_ne_typeText
      | type j p f =>
          obtain ⟨hPattern, rfl, rfl, rfl⟩ := typeText_inj h
          exact ⟨hPattern, rfl⟩

variable {library}

/-- The constructor has given its text to the first difference. -/
theorem create_runtime {pattern what : Bytes} {methods : List HTTPMethod}
    {functionParams : List RouteParamType} {callable : RouteCallable}
    (h : create library pattern methods functionParams callable = .error (.runtime what)) :
    (∃ mismatch, Mismatch.Between (paramTypes pattern) functionParams mismatch) ∧
      ∀ mismatch, Mismatch.Between (paramTypes pattern) functionParams mismatch →
        what = mismatch.what pattern := by
  cases cause_of_create h with
  | value hValues =>
      obtain ⟨_, _, hError⟩ := hValues.is_regex
      cases hError
  | mismatch hValues hRewritten hText hBetween =>
      refine ⟨⟨_, hBetween⟩, fun mismatch hOther => ?_⟩
      have hReport := (Cause.mismatch hValues hRewritten hText hOther).create methods callable
      exact RouteError.runtime.inj (Except.error.inj (h.symm.trans hReport))

/-- Two constructors fail with the same text exactly if they have the same pattern and
find the same difference. -/
theorem text_determines_mismatch {σ : Type} {library' : RegexLibrary σ}
    {pattern pattern' what what' : Bytes} {methods methods' : List HTTPMethod}
    {functionParams functionParams' : List RouteParamType} {callable callable' : RouteCallable}
    (h : create library pattern methods functionParams callable = .error (.runtime what))
    (h' : create library' pattern' methods' functionParams' callable' = .error (.runtime what')) :
    what = what' ↔ pattern = pattern' ∧ ∃ mismatch,
      Mismatch.Between (paramTypes pattern) functionParams mismatch ∧
        Mismatch.Between (paramTypes pattern') functionParams' mismatch := by
  obtain ⟨⟨first, hFirst⟩, hText⟩ := create_runtime h
  obtain ⟨⟨second, hSecond⟩, hText'⟩ := create_runtime h'
  constructor
  · intro hSame
    rw [hText first hFirst, hText' second hSecond] at hSame
    obtain ⟨hPattern, rfl⟩ := what_inj hSame
    exact ⟨hPattern, first, hFirst, hSecond⟩
  · intro ⟨hPattern, mismatch, hHere, hThere⟩
    rw [hText mismatch hHere, hText' mismatch hThere, hPattern]

/-- The second parameter is not looked at once the first one is wrong. -/
theorem text_determines_mismatch_example : ∃ what,
    create (⟨.ok, fun _ _ => .ok none⟩ : RegexLibrary Bytes) (ascii "\x7b\x7bd\x7d\x7d/\x7b\x7bi\x7d\x7d") [.get]
        [.int64, .int64] (.streaming (.ok none)) = .error (.runtime what) ∧
      create (⟨.ok, fun _ _ => .ok none⟩ : RegexLibrary Bytes) (ascii "\x7b\x7bd\x7d\x7d/\x7b\x7bi\x7d\x7d") [.post]
        [.int64, .string] (.streaming (.ok none)) = .error (.runtime what) := by
  have hTypes : paramTypes (ascii "\x7b\x7bd\x7d\x7d/\x7b\x7bi\x7d\x7d") = [.double, .int64] := by decide
  have hRewritten : rewritten (ascii "\x7b\x7bd\x7d\x7d/\x7b\x7bi\x7d\x7d") =
      .ok (ascii "(?<__0>[+-]?\\d+(?:\\.\\d+)?)/(?<__1>[+-]?\\d+)") := by decide
  have hBetween : ∀ last, Mismatch.Between (paramTypes (ascii "\x7b\x7bd\x7d\x7d/\x7b\x7bi\x7d\x7d"))
      [.int64, last] (.type 0 .double .int64) := by
    intro last
    rw [hTypes]
    exact @Mismatch.Between.type [] [.int64] [last] .double .int64 rfl (by decide)
  have hFails : ∀ methods last, create (⟨.ok, fun _ _ => .ok none⟩ : RegexLibrary Bytes)
      (ascii "\x7b\x7bd\x7d\x7d/\x7b\x7bi\x7d\x7d") methods [.int64, last] (.streaming (.ok none)) =
        .error (.runtime _) := fun methods last =>
    (Cause.mismatch (fun _ _ => ⟨_, rfl⟩) hRewritten ⟨_, rfl⟩ (hBetween last)).create methods _
  have hSame := (text_determines_mismatch (hFails [.get] .int64) (hFails [.post] .string)).mpr
    ⟨rfl, _, hBetween _, hBetween _⟩
  exact ⟨_, hFails [.get] .int64, hSame ▸ hFails [.post] .string⟩

end Texts

end RouteErrors

end Nozomi
