import Nozomi.Routing.HandlerArguments
import Nozomi.Text.PatternPieces

/-! What a route recognises. A pattern whose parts are regular expressions of their
own is compiled to an expression that cuts a path into the same parts, and the
handler is called with what the placeholders took. -/
namespace Nozomi

open Text Pattern

namespace RouteParsing

/-- A text that is read as one branch without named groups. -/
def OneBranch (text : Bytes) : Prop :=
  ∃ pieces, parseBranches text = some [pieces] ∧ (sequence pieces).Unnamed

/-- A text without special characters is read as one branch, with a piece for each
character. -/
theorem oneBranch_plain {text : Bytes} (h : ∀ c ∈ text, isPlain c = true) : OneBranch text := by
  refine ⟨_, (reads_plain h).parseBranches, unnamed_sequence.mpr fun piece hMem => ?_⟩
  obtain ⟨c, _, rfl⟩ := List.mem_map.mp hMem
  trivial

/-- A text without special characters stands for itself. -/
theorem accepts_plain_iff {text path : Bytes} (h : ∀ c ∈ text, isPlain c = true) :
    Accepts (patternMeaning text) path ↔ path = text := by
  rw [patternMeaning, (reads_plain h).parse, Option.getD_some, Accepts]
  simp only [matches_characters_iff, exists_and_left, exists_eq, and_true]

namespace Placeholder

/-- The expressions in a placeholder are expressions of their own. What is consumed
after an optional value has no alternatives. -/
structure SelfContained (p : Placeholder) : Prop where
  value : ∃ value, parse (valueExpression p.param) = some value ∧ value.Unnamed
  consumed : OneBranch p.param.consumed

/-- The texts that a parameter stands for. -/
def IsValue : Placeholder → Bytes → Prop
  | int, text | optionalInt _, text => isInteger text = true
  | double, text | optionalDouble _, text => isDecimal text = true
  | string value, text | optionalString value _, text => Accepts (patternMeaning value) text

/-- What a placeholder takes from a path: a value and what is consumed after it, or
nothing if the parameter is optional. -/
def Takes (p : Placeholder) (taken : Bytes) : Option Bytes → Prop
  | none => isOptional p.param.type = true ∧ taken = []
  | some value => p.IsValue value ∧
      ∃ consumed, Accepts (patternMeaning p.param.consumed) consumed ∧ taken = value ++ consumed

end Placeholder

/-- A path is cut along a pattern, and each parameter gets a value or, if it is
optional, perhaps none. -/
inductive Cut : List (Bytes × Placeholder) → Bytes → Bytes → List (Option Bytes) → Prop where
  | tail {tail path : Bytes} (hTail : Accepts (patternMeaning tail) path) : Cut [] tail path []
  | take {literal before taken tail path : Bytes} {p : Placeholder} {value : Option Bytes}
      {rest : List (Bytes × Placeholder)} {values : List (Option Bytes)}
      (hLiteral : Accepts (patternMeaning literal) before) (hTaken : p.Takes taken value)
      (hRest : Cut rest tail path values) :
      Cut ((literal, p) :: rest) tail (before ++ (taken ++ path)) (value :: values)

/-- The argument that the text of a parameter is converted to. -/
def argument (conversions : Conversions) (type : RouteParamType) (text : Option Bytes) :
    Throws RouteArg := conversions.getHandlerArg (fun _ => text) 0 type

def argumentList (conversions : Conversions) (types : List RouteParamType)
    (values : List (Option Bytes)) : Throws (List RouteArg) :=
  (types.zip values).mapM fun param => argument conversions param.1 param.2

section Captures

/-- What the groups of the parameters from `k` on capture. -/
def capturesFrom : Nat → List (Option Bytes) → List (Bytes × Bytes)
  | _, [] => []
  | k, value :: values => (value.map fun text => (groupName k, text)).toList ++ capturesFrom (k + 1) values

/-- The digits of a number can be read back. -/
theorem decimal_digits (n : Nat) :
    (decimal n).map (fun c => Char.ofNat c.toNat) = Nat.toDigits 10 n := by
  rw [decimal, List.map_map]
  refine (List.map_congr_left fun c hMem => ?_).trans (List.map_id _)
  have hRange : c.isDigit = true := Nat.isDigit_of_mem_toDigits (by decide) (by decide) hMem
  have hSmall : c.toNat < 256 := by
    simp only [Char.isDigit, UInt32.le_iff_toNat_le, Bool.and_eq_true, decide_eq_true_eq] at hRange
    exact Nat.lt_of_le_of_lt hRange.2 (by decide)
  have hByte : (UInt8.ofNat c.toNat).toNat = c.toNat := by
    rw [UInt8.toNat_ofNat', Nat.mod_eq_of_lt hSmall]
  rw [Function.comp_apply, hByte, Char.ofNat_toNat, id]

theorem groupName_injective {j k : Nat} (h : groupName j = groupName k) : j = k := by
  have hDecimal : decimal j = decimal k := List.append_cancel_left h
  have hDigits : Nat.toDigits 10 j = Nat.toDigits 10 k := by
    rw [← decimal_digits, hDecimal, decimal_digits]
  rw [← Nat.ofDigitChars_ten_toDigits (n := j), hDigits, Nat.ofDigitChars_ten_toDigits]

/-- The captures from `k` on are the values in their places, without those that were
left out. -/
theorem mem_capturesFrom {j k : Nat} {text : Bytes} {values : List (Option Bytes)} :
    (groupName j, text) ∈ capturesFrom k values ↔ ∃ i, j = k + i ∧ values[i]? = some (some text) := by
  induction values generalizing k with
  | nil => simp [capturesFrom]
  | cons value values ih =>
      rw [capturesFrom, List.mem_append, ih]
      constructor
      · intro h
        cases h with
        | inl hHere =>
            simp only [Option.mem_toList, Option.map_eq_some_iff, Prod.mk.injEq] at hHere
            obtain ⟨v, hValue, hName, rfl⟩ := hHere
            exact ⟨0, groupName_injective hName.symm, by rw [hValue]; rfl⟩
        | inr hLater =>
            obtain ⟨i, hIndex, hValue⟩ := hLater
            exact ⟨i + 1, by omega, hValue⟩
      · intro ⟨i, hIndex, hValue⟩
        cases i with
        | zero =>
            obtain rfl : value = some text := Option.some.inj hValue
            exact Or.inl (by simp [hIndex])
        | succ i => exact Or.inr ⟨i, by omega, hValue⟩

/-- A match reports for each parameter what it took. -/
theorem reports_capturesFrom {matched : Match} {values : List (Option Bytes)} {value : Option Bytes}
    {k i : Nat} (hReports : Reports matched (capturesFrom k values)) (hValue : values[i]? = some value) :
    matched (groupName (k + i)) = value := by
  have hOnly : ∀ text, (groupName (k + i), text) ∈ capturesFrom k values → value = some text := by
    intro text hMem
    obtain ⟨j, hIndex, hText⟩ := mem_capturesFrom.mp hMem
    obtain rfl : i = j := by omega
    exact Option.some.inj (hValue.symm.trans hText)
  cases hMatched : matched (groupName (k + i)) with
  | some text => exact (hOnly text (hReports.captured _ _ hMatched)).symm
  | none =>
      cases value with
      | none => rfl
      | some text =>
          have hSome := hReports.complete _ _ (mem_capturesFrom.mpr ⟨i, rfl, hValue⟩)
          simp [hMatched] at hSome

/-- The arguments are those of the texts that were taken, each under the name of its
own group. -/
theorem getHandlerArgs_eq (conversions : Conversions) {matched : Match} {n : Nat}
    {types : List RouteParamType} {values : List (Option Bytes)} (hLength : types.length = values.length)
    (h : ∀ i value, values[i]? = some value → matched (groupName (n + i)) = value) :
    conversions.getHandlerArgs matched n types = argumentList conversions types values := by
  induction types generalizing n values with
  | nil => rfl
  | cons type types ih =>
      cases values with
      | nil => cases hLength
      | cons value values =>
          have hRest := @ih (n + 1) values (Nat.succ.inj hLength) fun i v hValue => by
            have hNext := h (i + 1) v hValue
            rwa [Nat.add_comm i 1, ← Nat.add_assoc] at hNext
          have hFirst : conversions.getHandlerArg matched n type = argument conversions type value := by
            have hValue : matched (groupName n) = value := h 0 value rfl
            cases type <;> simp [argument, Conversions.getHandlerArg, Match.str, hValue]
          have hCons : argumentList conversions (type :: types) (value :: values) = do
              let arg ← argument conversions type value
              let args ← argumentList conversions types values
              return arg :: args := List.mapM_cons
          rw [Conversions.getHandlerArgs, hRest, hFirst, hCons]

end Captures

theorem accepts_of_parse {text path : Bytes} {p : Pattern Byte Bytes} (h : parse text = some p) :
    Accepts (patternMeaning text) path ↔ Accepts p path := by
  rw [patternMeaning, h, Option.getD_some]

namespace Placeholder

/-- The expression of a value accepts the texts that a parameter stands for. -/
theorem accepts_value_iff (p : Placeholder) {value : Pattern Byte Bytes} {text : Bytes}
    (h : parse (valueExpression p.param) = some value) : Accepts value text ↔ p.IsValue text := by
  rw [← accepts_of_parse h]
  cases p with
  | int | optionalInt consumed => exact accepts_integer_iff text
  | double | optionalDouble consumed => exact accepts_decimal_iff text
  | string value | optionalString value consumed => rfl

/-- The chunk of a required parameter is a named group with the expression of its
value. -/
theorem chunk_of_required (k : Nat) {param : RouteParam} (h : isOptional param.type = false) :
    chunk k param = ascii "(?<" ++ groupName k ++ ascii ">" ++ (valueExpression param ++ [0x29]) := by
  unfold chunk valueExpression
  cases hType : param.type with
  | optionalInt64 | optionalDouble | optionalString =>
      rw [hType] at h
      cases h
  | int64 | double | string => simp [groupStart, ascii]

/-- A required parameter is a group with the name of the parameter. -/
theorem run_required (k : Nat) {param : RouteParam} (hRequired : isOptional param.type = false)
    {value : Pattern Byte Bytes} (hValue : parse (valueExpression param) = some value) (s : Machine)
    (hMode : s.mode.isBetween = true) :
    s.run (chunk k param) = some ((s.push (group (groupName k) value)).goto .piece) := by
  have hName := Machine.run_enter_named hMode (by simp [groupName, ascii]) (groupName_isWord k)
  rw [chunk_of_required k hRequired, Machine.run_append, hName, Option.bind_some,
    Machine.run_group _ hValue]
  rfl

/-- The group of a required parameter matches what its placeholder takes, and
captures it. -/
theorem matches_required_iff (k : Nat) {p : Placeholder} (hRequired : isOptional p.param.type = false)
    {value : Pattern Byte Bytes} (hValue : parse (valueExpression p.param) = some value)
    (hUnnamed : value.Unnamed) {text : Bytes} {captures : List (Bytes × Bytes)} :
    Matches (group (groupName k) value) text captures ↔
      ∃ taken, p.Takes text taken ∧ captures = (taken.map fun v => (groupName k, v)).toList := by
  have hConsumed : ∀ c, Accepts (patternMeaning p.param.consumed) c ↔ c = [] := by
    intro c
    have hNothing : p.param.consumed = [] := by
      cases p with
      | int | double | string => rfl
      | _ => cases hRequired
    rw [hNothing]
    exact ⟨fun ⟨_, h⟩ => (matches_empty_iff.mp h).1, fun h => ⟨[], matches_empty_iff.mpr ⟨h, rfl⟩⟩⟩
  rw [matches_group_iff]
  constructor
  · intro ⟨inner, hInner, hCaptures⟩
    obtain rfl := hInner.captures_eq_nil hUnnamed
    exact ⟨some text, ⟨(p.accepts_value_iff hValue).mp ⟨[], hInner⟩, [], (hConsumed []).mpr rfl,
      (List.append_nil text).symm⟩, hCaptures⟩
  · intro ⟨taken, hTaken, hCaptures⟩
    cases taken with
    | none =>
        rw [hTaken.1] at hRequired
        cases hRequired
    | some v =>
        obtain ⟨hIs, c, hC, rfl⟩ := hTaken
        obtain rfl := (hConsumed c).mp hC
        rw [List.append_nil]
        exact ⟨[], (accepts_iff_of_unnamed hUnnamed).mp ((p.accepts_value_iff hValue).mpr hIs), hCaptures⟩

/-- The piece of an optional parameter matches what its placeholder takes: nothing,
or a value and what is consumed after it. Only the value is captured. -/
theorem matches_optional_piece_iff (k : Nat) {p : Placeholder}
    (hOptional : isOptional p.param.type = true) {value : Pattern Byte Bytes}
    (hValue : parse (valueExpression p.param) = some value) (hUnnamed : value.Unnamed)
    {first : List (Pattern Byte Bytes)} (hConsumed : parseBranches p.param.consumed = some [first])
    (hFirst : (sequence first).Unnamed) {text : Bytes} {captures : List (Bytes × Bytes)} :
    Matches (emitted (groupName k) value first []) text captures ↔
      ∃ taken, p.Takes text taken ∧ captures = (taken.map fun v => (groupName k, v)).toList := by
  have hParse : parse p.param.consumed = some (sequence first) := by
    rw [parse, hConsumed]
    rfl
  have hOnly : (choice (([first] : List (List (Pattern Byte Bytes))).map sequence)).Unnamed := hFirst
  rw [matches_emitted_iff hUnnamed hOnly]
  constructor
  · intro h
    rcases h with ⟨hText, hCaptures⟩ | ⟨v, c, hV, hC, hText, hCaptures⟩ | ⟨⟨_, hNone⟩, _⟩
    · exact ⟨none, ⟨hOptional, hText⟩, hCaptures⟩
    · exact ⟨some v, ⟨(p.accepts_value_iff hValue).mp hV, c, (accepts_of_parse hParse).mpr hC, hText⟩,
        hCaptures⟩
    · exact absurd hNone not_matches_set_false
  · intro h
    obtain ⟨taken, hTaken, hCaptures⟩ := h
    cases taken with
    | none => exact Or.inl ⟨hTaken.2, hCaptures⟩
    | some v =>
        obtain ⟨hIs, c, hC, hText⟩ := hTaken
        exact Or.inr (Or.inl ⟨v, c, (p.accepts_value_iff hValue).mpr hIs,
          (accepts_of_parse hParse).mp hC, hText, hCaptures⟩)

/-- What a placeholder is replaced by is read as one piece, which matches what the
placeholder takes. -/
theorem reads_chunk (k : Nat) {p : Placeholder} (h : p.SelfContained) :
    ∃ piece, Reads (chunk k p.param) [piece] ∧ ∀ text captures, Matches piece text captures ↔
      ∃ taken, p.Takes text taken ∧ captures = (taken.map fun v => (groupName k, v)).toList := by
  obtain ⟨value, hValue, hUnnamed⟩ := h.value
  obtain ⟨first, hConsumed, hFirst⟩ := h.consumed
  cases hOptional : isOptional p.param.type with
  | true =>
      exact ⟨_, reads_of_run rfl (run_chunk k hOptional hValue hConsumed),
        fun _ _ => matches_optional_piece_iff k hOptional hValue hUnnamed hConsumed hFirst⟩
  | false =>
      exact ⟨_, reads_of_run rfl (run_required k hOptional hValue),
        fun _ _ => matches_required_iff k hOptional hValue hUnnamed⟩

end Placeholder

/-- A literal text that is read as one branch matches what it accepts alone. -/
theorem matches_oneBranch_iff {text path : Bytes} {pieces : List (Pattern Byte Bytes)}
    {captures : List (Bytes × Bytes)} (hText : parseBranches text = some [pieces])
    (hUnnamed : (sequence pieces).Unnamed) :
    Matches (sequence pieces) path captures ↔ Accepts (patternMeaning text) path ∧ captures = [] := by
  have hParse : parse text = some (sequence pieces) := by
    rw [parse, hText]
    rfl
  rw [accepts_of_parse hParse]
  constructor
  · intro h
    exact ⟨⟨captures, h⟩, h.captures_eq_nil hUnnamed⟩
  · intro h
    rw [h.2]
    exact (accepts_iff_of_unnamed hUnnamed).mp h.1

/-- The parts of a pattern are expressions of their own. -/
def PartsReadable (segments : List (Bytes × Placeholder)) (tail : Bytes) : Prop :=
  (∀ segment ∈ segments, OneBranch segment.1 ∧ segment.2.SelfContained) ∧ OneBranch tail

/-- The whole expression is read part by part, and its matches are the cuts. The
induction is over the segments, with the number of the first group. -/
theorem reads_assemble (k : Nat) {segments : List (Bytes × Placeholder)} {tail : Bytes}
    (h : PartsReadable segments tail) :
    ∃ pieces, Reads (assemble chunk k (scanned segments) tail) pieces ∧
      ∀ path captures, Matches (sequence pieces) path captures ↔
        ∃ values, Cut segments tail path values ∧ captures = capturesFrom k values := by
  induction segments generalizing k with
  | nil =>
      obtain ⟨pieces, hPieces, hUnnamed⟩ := h.2
      refine ⟨pieces, reads_of_parseBranches hPieces, ?_⟩
      intro path captures
      rw [matches_oneBranch_iff hPieces hUnnamed]
      constructor
      · intro ⟨hTail, hCaptures⟩
        exact ⟨[], .tail hTail, hCaptures⟩
      · intro ⟨values, hCut, hCaptures⟩
        cases hCut with
        | tail hTail => exact ⟨hTail, hCaptures⟩
  | cons segment segments ih =>
      obtain ⟨literal, p⟩ := segment
      obtain ⟨⟨hLiteral, hContained⟩, hRest⟩ := List.forall_mem_cons.mp h.1
      obtain ⟨first, hFirst, hUnnamed⟩ := hLiteral
      obtain ⟨piece, hPiece, hTakes⟩ := Placeholder.reads_chunk k hContained
      obtain ⟨pieces, hPieces, hCuts⟩ := ih (k + 1) ⟨hRest, h.2⟩
      refine ⟨first ++ ([piece] ++ pieces),
        (reads_of_parseBranches hFirst).append (hPiece.append hPieces), ?_⟩
      intro path captures
      simp only [matches_sequence_append_iff, matches_oneBranch_iff hFirst hUnnamed, hCuts]
      constructor
      · intro ⟨before, _, _, _, ⟨hBefore, rfl⟩,
          ⟨taken, after, _, _, hTaken, ⟨values, hCut, rfl⟩, rfl, rfl⟩, hPath, hCaptures⟩
        obtain ⟨value, hValue, rfl⟩ := (hTakes taken _).mp hTaken
        rw [hPath]
        exact ⟨value :: values, .take hBefore hValue hCut, hCaptures⟩
      · intro ⟨values, hCut, hCaptures⟩
        cases hCut with
        | @take _ before taken _ after _ value _ values hBefore hValue hCut =>
            exact ⟨before, taken ++ after, [], _, ⟨hBefore, rfl⟩, ⟨taken, after, _, _,
              (hTakes taken _).mpr ⟨value, hValue, rfl⟩, ⟨values, hCut, rfl⟩, rfl, rfl⟩, rfl, hCaptures⟩

/-- A cut takes one value for each placeholder. The induction is over the cut. -/
theorem cut_length {segments : List (Bytes × Placeholder)} {tail path : Bytes}
    {values : List (Option Bytes)} (h : Cut segments tail path values) :
    values.length = segments.length := by
  induction h with
  | tail => rfl
  | take _ _ _ ih => rw [List.length_cons, List.length_cons, ih]

variable {pattern tail : Bytes} {segments : List (Bytes × Placeholder)}

/-- The parts at which the scan cuts a pattern, put together again with the
replacements. -/
theorem rewritten_eq_assemble (hScan : scan pattern = (scanned segments, tail))
    (hUndisturbed : Undisturbed [] 0 (scan pattern).1 (scan pattern).2) :
    rewritten pattern = .ok (assemble chunk 0 (scanned segments) tail) := by
  obtain ⟨written, last, hPattern, hParts, hLeftmost⟩ := exists_scanned pattern
  obtain ⟨finalRoute, hFinal, hIff⟩ := replaceLoop_iff written hLeftmost 0 [] []
  rw [hParts] at hUndisturbed
  have hText : finalRoute = assemble chunk 0 (scanned written) last := hIff.mpr hUndisturbed
  have hSame : (scanned written, last) = (scanned segments, tail) := hParts.symm.trans hScan
  obtain ⟨hSegments, rfl⟩ := Prod.mk.inj hSame
  rw [rewritten, params, hParts, params_scanned, hPattern, ← hSegments, ← hText]
  exact hFinal

/-- The types of a pattern are those of the placeholders that are found in it. -/
theorem paramTypes_scanned (hScan : scan pattern = (scanned segments, tail)) :
    paramTypes pattern = segments.map fun segment => segment.2.param.type := by
  rw [paramTypes, params, hScan, params_scanned, List.map_map]
  rfl

/-- What is relied on of a library for one route: it compiles the values in the pattern,
and decides the expression that the pattern is rewritten to. -/
structure Handles {ρ : Type} (library : RegexLibrary ρ) (pattern : Bytes) : Prop where
  values : ∀ text ∈ values pattern, Compiles library text
  whole : ∀ finalRoute, rewritten pattern = .ok finalRoute →
    library.DecidesAt finalRoute (patternMeaning finalRoute)

/-- A route answers every request by how its path is cut along the pattern. Where
there are several cuts, the expression settles which one it is. -/
def AnswersCuts {ρ : Type} (library : RegexLibrary ρ) (route : Route ρ)
    (segments : List (Bytes × Placeholder)) (tail : Bytes) : Prop :=
  ∀ (uri : UriLibrary) (conversions : Conversions) (request : HTTPMessage),
    let methodAndPath := HTTPRequest.getMethodAndPath uri request
    ((¬∃ values, Cut segments tail methodAndPath.2 values) ∧
        route.handler uri library conversions request = .ok (.ofResult .pathNotMatched)) ∨
      ∃ values, Cut segments tail methodAndPath.2 values ∧
        route.handler uri library conversions request = .ok (
          if methodAndPath.1 ∈ route.methods then
            route.callable.makeMatch (argumentList conversions route.handlerArgs values)
          else .ofResult .methodNotMatched)

/-- A route for the assembled text answers along the cuts of its path, as the
library decides the text and the text means the cuts. -/
theorem answersCuts_of_compile {ρ : Type} {library : RegexLibrary ρ}
    (hLibrary : library.DecidesAt (assemble chunk 0 (scanned segments) tail)
      (patternMeaning (assemble chunk 0 (scanned segments) tail)))
    (hParts : PartsReadable segments tail) {route : Route ρ}
    (hRegex : library.compile (assemble chunk 0 (scanned segments) tail) = .ok route.regex)
    (hArgs : route.handlerArgs = segments.map fun segment => segment.2.param.type) :
    AnswersCuts library route segments tail := by
  obtain ⟨pieces, hPieces, hCuts⟩ := reads_assemble 0 hParts
  have hMeaning : patternMeaning (assemble chunk 0 (scanned segments) tail) = sequence pieces := by
    rw [patternMeaning, hPieces.parse, Option.getD_some]
  rw [hMeaning] at hLibrary
  intro uri conversions request methodAndPath
  obtain ⟨found, hFound, hComplete⟩ := hLibrary.complete _ methodAndPath.2 hRegex
  cases found with
  | none =>
      refine Or.inl ⟨fun hCut => ?_, ?_⟩
      · obtain ⟨values, hCut⟩ := hCut
        have hSome := hComplete ⟨_, (hCuts _ _).mpr ⟨values, hCut, rfl⟩⟩
        cases hSome
      · rw [Route.handler, hFound]
        rfl
  | some matched =>
      obtain ⟨captures, hMatch, hReports⟩ := hLibrary.sound _ _ _ hRegex hFound
      obtain ⟨values, hCut, rfl⟩ := (hCuts _ _).mp hMatch
      have hArguments : conversions.getHandlerArgs matched 0 route.handlerArgs =
          argumentList conversions route.handlerArgs values := by
        apply getHandlerArgs_eq
        · rw [hArgs, List.length_map, cut_length hCut]
        · intro i value hValue
          exact reports_capturesFrom hReports hValue
      refine Or.inr ⟨values, hCut, ?_⟩
      by_cases hMethod : methodAndPath.1 ∈ route.methods
      · rw [if_pos hMethod, ← hArguments]
        exact handler_of_match hFound hMethod
      · rw [if_neg hMethod, Route.handler, hFound]
        simp [Bind.bind, Except.bind, Pure.pure, Except.pure, methodAndPath, hMethod]

/-- Handlers with the parameters of a pattern have a route, which recognises the paths
that can be cut along the pattern. -/
theorem exists_route {ρ : Type} {library : RegexLibrary ρ}
    (hLibrary : Handles library pattern)
    (hScan : scan pattern = (scanned segments, tail))
    (hUndisturbed : Undisturbed [] 0 (scan pattern).1 (scan pattern).2)
    (hParts : PartsReadable segments tail) (methods : List HTTPMethod) (callable : RouteCallable) :
    ∃ route, Route.create library pattern methods (segments.map fun segment => segment.2.param.type)
        callable = .ok route ∧
      route.methods = methods ∧
      route.handlerArgs = (segments.map fun segment => segment.2.param.type) ∧
      route.callable = callable ∧ AnswersCuts library route segments tail := by
  have hRewritten := rewritten_eq_assemble hScan hUndisturbed
  have hDecides := hLibrary.whole _ hRewritten
  obtain ⟨regex, hRegex⟩ := hDecides.compiles
  refine ⟨_, (create_eq_ok_iff hRewritten).mpr
    ⟨hLibrary.values, (paramTypes_scanned hScan).symm, regex, hRegex, rfl⟩, rfl, rfl, rfl, ?_⟩
  exact answersCuts_of_compile hDecides hParts hRegex rfl

/-- A route can be made exactly for handlers with the parameters of its pattern, and
it recognises the paths that can be cut along the pattern, no others, with the
arguments that the placeholders took in such a cut. -/
theorem route_recognises {ρ : Type} {library : RegexLibrary ρ}
    (hLibrary : Handles library pattern)
    (hScan : scan pattern = (scanned segments, tail))
    (hUndisturbed : Undisturbed [] 0 (scan pattern).1 (scan pattern).2)
    (hParts : PartsReadable segments tail) (methods : List HTTPMethod)
    (functionParams : List RouteParamType) (callable : RouteCallable) :
    ((∃ route, Route.create library pattern methods functionParams callable = .ok route) ↔
        functionParams = segments.map fun segment => segment.2.param.type) ∧
      ∀ route, Route.create library pattern methods functionParams callable = .ok route →
        route.methods = methods ∧ route.handlerArgs = functionParams ∧ route.callable = callable ∧
          AnswersCuts library route segments tail := by
  have hParams : ∀ route, Route.create library pattern methods functionParams callable = .ok route →
      functionParams = segments.map fun segment => segment.2.param.type := by
    intro route hRoute
    obtain ⟨_, hParams, _⟩ := (create_eq_ok_iff (rewritten_eq_assemble hScan hUndisturbed)).mp hRoute
    exact hParams.trans (paramTypes_scanned hScan)
  obtain ⟨made, hMade, hMeans⟩ := exists_route hLibrary hScan hUndisturbed hParts methods callable
  constructor
  · constructor
    · intro ⟨route, hRoute⟩
      exact hParams route hRoute
    · intro hSame
      exact ⟨made, hSame ▸ hMade⟩
  · intro route hRoute
    have hSame := hParams route hRoute
    subst hSame
    obtain rfl := Except.ok.inj (hRoute.symm.trans hMade)
    exact hMeans

/-- The executable library handles every pattern whose values it reads, and whose
rewritten text it reads. -/
theorem handles_patternLibrary {finalRoute : Bytes} {p : Pattern Byte Bytes}
    (hRewritten : rewritten pattern = .ok finalRoute) (hParse : parse finalRoute = some p)
    (hValues : ∀ text ∈ RouteParsing.values pattern, (parse text).isSome) :
    Handles patternLibrary pattern where
  values text hMem := by
    obtain ⟨value, hValue⟩ := Option.isSome_iff_exists.mp (hValues text hMem)
    exact ⟨value, compile_patternLibrary_iff.mpr hValue⟩
  whole other hOther := by
    obtain rfl := Except.ok.inj (hOther.symm.trans hRewritten)
    rw [patternMeaning, hParse]
    exact patternLibrary_decidesAt hParse

/-- A required number, an optional one with a slash after it, and any text. -/
theorem route_recognises_example : ∃ route,
    Route.create patternLibrary (ascii "/url/\x7b\x7bi\x7d\x7d/\x7b\x7bi?:/\x7d\x7d\x7b\x7bs:(.*)\x7d\x7d")
        [.get] [.int64, .optionalInt64, .string] (.streaming (.ok none)) = .ok route ∧
      AnswersCuts patternLibrary route
        [(ascii "/url/", .int), (ascii "/", .optionalInt (some (ascii "/"))), ([], .string (ascii "(.*)"))]
        [] := by
  have hParts : PartsReadable [(ascii "/url/", .int), (ascii "/", .optionalInt (some (ascii "/"))),
      ([], .string (ascii "(.*)"))] [] := by
    refine ⟨?_, oneBranch_plain (by simp)⟩
    simp only [List.forall_mem_cons, List.not_mem_nil, false_implies, implies_true, and_true]
    exact ⟨⟨oneBranch_plain (List.all_eq_true.mp rfl), ⟨_, rfl, trivial, trivial⟩,
        oneBranch_plain (List.all_eq_true.mp rfl)⟩,
      ⟨oneBranch_plain (List.all_eq_true.mp rfl), ⟨_, rfl, trivial, trivial⟩,
        oneBranch_plain (List.all_eq_true.mp rfl)⟩,
      oneBranch_plain (List.all_eq_true.mp rfl), ⟨_, rfl, trivial⟩, oneBranch_plain (List.all_eq_true.mp rfl)⟩
  have hScan : scan (ascii "/url/\x7b\x7bi\x7d\x7d/\x7b\x7bi?:/\x7d\x7d\x7b\x7bs:(.*)\x7d\x7d") =
      (scanned [(ascii "/url/", .int), (ascii "/", .optionalInt (some (ascii "/"))),
        ([], .string (ascii "(.*)"))], []) := by decide
  have hRewritten : rewritten (ascii "/url/\x7b\x7bi\x7d\x7d/\x7b\x7bi?:/\x7d\x7d\x7b\x7bs:(.*)\x7d\x7d") =
      .ok (ascii "/url/(?<__0>[+-]?\\d+)/(?:(?<__1>[+-]?\\d+)/)?(?<__2>(.*))") := by decide
  have hHandles := handles_patternLibrary hRewritten rfl (by decide)
  obtain ⟨hMade, hMeans⟩ := route_recognises hHandles hScan (by decide) hParts [.get] [.int64, .optionalInt64, .string] (.streaming (.ok none))
  obtain ⟨route, hRoute⟩ := hMade.mpr rfl
  exact ⟨route, hRoute, (hMeans route hRoute).2.2.2⟩

end RouteParsing

end Nozomi
