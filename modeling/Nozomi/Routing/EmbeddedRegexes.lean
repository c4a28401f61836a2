import Nozomi.Routing.PatternLibrary
import Nozomi.Routing.PatternReplacement

/-! The regular expressions that users embed in placeholders. Values are compiled
on their own before they are used, consumed parts only as part of the whole. -/
namespace Nozomi

open Text

namespace RouteParsing

/-- What is passed on for the placeholders of a pattern. -/
def params (pattern : Bytes) : List RouteParam := (scan pattern).1.filterMap fun segment => segment.2

/-- The expression in the place of a value. -/
def valueTexts (param : RouteParam) : List Bytes :=
  match param.type with
  | .string | .optionalString => [param.value]
  | .int64 | .optionalInt64 | .double | .optionalDouble => []

/-- The expression in the place of a consumed part, unless it was left out. -/
def consumedTexts (param : RouteParam) : List Bytes :=
  match param.type with
  | .optionalInt64 | .optionalDouble | .optionalString =>
      if param.consumed = [] then [] else [param.consumed]
  | .int64 | .double | .string => []

def values (pattern : Bytes) : List Bytes := (params pattern).flatMap valueTexts

def consumed (pattern : Bytes) : List Bytes := (params pattern).flatMap consumedTexts

/-- The pattern with every placeholder replaced, whatever the values are. -/
def rewritten (pattern : Bytes) : Throws Bytes :=
  replaceLoop (replacementsFrom 0 (params pattern)) 0 pattern

section Library

variable {ρ : Type} (library : RegexLibrary ρ)

def Compiles (text : Bytes) : Prop := ∃ regex, library.compile text = .ok regex

/-- If an embedded expression is invalid, parsing throws and no route is made. -/
def Rejects (pattern : Bytes) : Prop :=
  (∃ text ∈ values pattern ++ consumed pattern, ¬Compiles library text) →
    (∃ thrown, parseRoutePattern library pattern = .error thrown) ∧
      ∀ methods functionParams callable,
        ∃ thrown, Route.create library pattern methods functionParams callable = .error thrown

variable {library}

/-- A placeholder is replaced exactly if its value compiles, where it has one. -/
theorem routeToRegex_iff (k : Nat) (param : RouteParam) :
    (∃ replacement, routeToRegex library k param = .ok replacement) ↔
      ∀ text ∈ valueTexts param, Compiles library text := by
  rw [routeToRegex_unfold, valueTexts]
  cases param.type with
  | string | optionalString =>
      simp only [List.forall_mem_singleton, Compiles]
      constructor
      · rintro ⟨replacement, hOk⟩
        obtain ⟨regex, hRegex, _⟩ := (Throws.bind_eq_ok_iff _ _ _).mp hOk
        exact ⟨regex, hRegex⟩
      · rintro ⟨regex, hRegex⟩
        exact ⟨_, (Throws.bind_eq_ok_iff _ _ _).mpr ⟨regex, hRegex, rfl⟩⟩
  | int64 | optionalInt64 | double | optionalDouble => simp

/-- The scanning loop gets through exactly if every value compiles. Consumed parts are
passed on as they are. -/
theorem foldlM_passOn_iff (params : List RouteParam)
    (done : List (Bytes × Bytes) × List RouteParamType) :
    (∃ result, params.foldlM (passOn library) done = .ok result) ↔
      ∀ text ∈ params.flatMap valueTexts, Compiles library text := by
  induction params generalizing done with
  | nil => exact iff_of_true ⟨done, rfl⟩ (by simp)
  | cons param params ih =>
      rw [List.foldlM_cons, List.flatMap_cons, List.forall_mem_append, ← routeToRegex_iff done.1.length]
      constructor
      · rintro ⟨result, hResult⟩
        obtain ⟨next, hNext, hRest⟩ := (Throws.bind_eq_ok_iff _ _ _).mp hResult
        obtain ⟨replacement, hReplacement, _⟩ := (Throws.bind_eq_ok_iff _ _ _).mp hNext
        exact ⟨⟨replacement, hReplacement⟩, (ih next).mp ⟨result, hRest⟩⟩
      · rintro ⟨⟨replacement, hReplacement⟩, hRest⟩
        obtain ⟨result, hResult⟩ := (ih (done.1 ++ [replacement], done.2 ++ [param.type])).mpr hRest
        refine ⟨result, (Throws.bind_eq_ok_iff _ _ _).mpr ⟨_, ?_, hResult⟩⟩
        exact (Throws.bind_eq_ok_iff _ _ _).mpr ⟨replacement, hReplacement, rfl⟩

/-- A pattern is rewritten exactly if all its values compile. What it is rewritten
to does not depend on the library. -/
theorem rewritePattern_ok_iff (pattern finalRoute : Bytes) :
    (∃ types, rewritePattern library pattern = .ok (finalRoute, types)) ↔
      (∀ text ∈ values pattern, Compiles library text) ∧ rewritten pattern = .ok finalRoute := by
  rw [values, ← foldlM_passOn_iff (params pattern) ([], []), params, ← scanLoop_scan]
  constructor
  · rintro ⟨types, hOk⟩
    obtain ⟨result, hScan, hRest⟩ := (Throws.bind_eq_ok_iff _ _ _).mp hOk
    obtain ⟨final, hFinal, hSame⟩ := (Throws.bind_eq_ok_iff _ _ _).mp hRest
    refine ⟨⟨result, hScan⟩, ?_⟩
    rw [scanLoop_scan] at hScan
    rw [foldlM_passOn_ok hScan] at hFinal
    obtain ⟨rfl, _⟩ := Prod.mk.inj (Except.ok.inj hSame)
    exact hFinal
  · rintro ⟨⟨result, hScan⟩, hFinal⟩
    refine ⟨result.2, (Throws.bind_eq_ok_iff _ _ _).mpr ⟨result, hScan, ?_⟩⟩
    rw [scanLoop_scan] at hScan
    refine (Throws.bind_eq_ok_iff _ _ _).mpr ⟨finalRoute, ?_, rfl⟩
    rw [foldlM_passOn_ok hScan]
    exact hFinal

/-- A pattern is accepted exactly if its values compile, and so does what the
pattern is rewritten to. -/
theorem parseRoutePattern_ok_iff (pattern : Bytes) :
    (∃ parsed, parseRoutePattern library pattern = .ok parsed) ↔
      (∀ text ∈ values pattern, Compiles library text) ∧
        ∃ finalRoute, rewritten pattern = .ok finalRoute ∧ Compiles library finalRoute := by
  rw [parseRoutePattern_eq]
  constructor
  · rintro ⟨parsed, hOk⟩
    obtain ⟨⟨finalRoute, types⟩, hRewritten, hRest⟩ := (Throws.bind_eq_ok_iff _ _ _).mp hOk
    obtain ⟨regex, hRegex, _⟩ := (Throws.bind_eq_ok_iff _ _ _).mp hRest
    obtain ⟨hValues, hText⟩ := (rewritePattern_ok_iff pattern finalRoute).mp ⟨types, hRewritten⟩
    exact ⟨hValues, finalRoute, hText, regex, hRegex⟩
  · rintro ⟨hValues, finalRoute, hText, regex, hRegex⟩
    obtain ⟨types, hRewritten⟩ := (rewritePattern_ok_iff pattern finalRoute).mpr ⟨hValues, hText⟩
    refine ⟨(regex, types), (Throws.bind_eq_ok_iff _ _ _).mpr ⟨_, hRewritten, ?_⟩⟩
    exact (Throws.bind_eq_ok_iff _ _ _).mpr ⟨regex, hRegex, rfl⟩

theorem throws_iff {α : Type} (attempt : Throws α) :
    (∃ thrown, attempt = .error thrown) ↔ ¬∃ value, attempt = .ok value := by
  cases attempt <;> simp

/-- No route comes of a pattern that is not parsed. -/
theorem create_throws {pattern : Bytes}
    (h : ∃ thrown, parseRoutePattern library pattern = .error thrown)
    (methods : List HTTPMethod) (functionParams : List RouteParamType) (callable : RouteCallable) :
    ∃ thrown, Route.create library pattern methods functionParams callable = .error thrown := by
  obtain ⟨thrown, hThrown⟩ := h
  exact ⟨thrown, by rw [Route.create_unfold, hThrown]; rfl⟩

/-- What a library makes of the whole decides, unless an invalid value or the
lack of an invalid consumed part does. -/
theorem rejects_iff (pattern : Bytes) :
    Rejects library pattern ↔ (∀ text ∈ consumed pattern, Compiles library text) ∨
      (∃ text ∈ values pattern, ¬Compiles library text) ∨
      ∀ finalRoute, rewritten pattern = .ok finalRoute → ¬Compiles library finalRoute := by
  have hThrows : (∃ thrown, parseRoutePattern library pattern = .error thrown) ↔
      (∃ text ∈ values pattern, ¬Compiles library text) ∨
        ∀ finalRoute, rewritten pattern = .ok finalRoute → ¬Compiles library finalRoute := by
    rw [throws_iff, parseRoutePattern_ok_iff]
    rw [not_and_or]
    simp only [not_forall, not_exists, not_and, exists_prop]
  constructor
  · intro h
    by_cases hConsumed : ∀ text ∈ consumed pattern, Compiles library text
    · exact Or.inl hConsumed
    · simp only [not_forall, exists_prop] at hConsumed
      obtain ⟨text, hMem, hInvalid⟩ := hConsumed
      exact Or.inr (hThrows.mp (h ⟨text, List.mem_append_right _ hMem, hInvalid⟩).1)
  · rintro hAll ⟨text, hMem, hInvalid⟩
    have hRest : (∃ text ∈ values pattern, ¬Compiles library text) ∨
        ∀ finalRoute, rewritten pattern = .ok finalRoute → ¬Compiles library finalRoute := by
      rcases hAll with hConsumed | hRest
      · rcases List.mem_append.mp hMem with hValue | hPart
        · exact Or.inl ⟨text, hValue, hInvalid⟩
        · exact absurd (hConsumed text hPart) hInvalid
      · exact hRest
    exact ⟨hThrows.mpr hRest, create_throws (hThrows.mpr hRest)⟩

end Library

/-- A replacement that is not shorter than what it replaces does not shorten the
text. -/
theorem length_replace {count : Nat} {replacement : Bytes} (hLength : count ≤ replacement.length)
    (text : Bytes) (pos : Nat) : text.length ≤ (replace text pos count replacement).length := by
  simp only [replace, List.length_append, List.length_take, List.length_drop]
  omega

/-- Rewriting never makes a text shorter, as no chunk is shorter than its
placeholder. -/
theorem length_replaceLoop {replacements : List (Bytes × Bytes)} {it : Nat} {text finalRoute : Bytes}
    (hLengths : ∀ replacement ∈ replacements, replacement.1.length ≤ replacement.2.length)
    (h : replaceLoop replacements it text = .ok finalRoute) : text.length ≤ finalRoute.length := by
  induction replacements generalizing it text with
  | nil =>
      obtain rfl := Except.ok.inj h
      exact Nat.le_refl _
  | cons replacement replacements ih =>
      rw [replaceLoop_unfold] at h
      cases hFound : find text replacement.1 it with
      | none =>
          rw [hFound] at h
          cases h
      | some pos =>
          rw [hFound] at h
          obtain ⟨hFirst, hRest⟩ := List.forall_mem_cons.mp hLengths
          exact Nat.le_trans (length_replace hFirst text pos) (ih hRest h)

theorem embedded_cases {param : RouteParam} {text : Bytes}
    (hMem : text ∈ valueTexts param ++ consumedTexts param) :
    text = param.value ∨ text = param.consumed := by
  have hSome : text ∈ (if param.consumed = [] then [] else [param.consumed]) →
      text = param.consumed := by
    intro hConsumed
    split at hConsumed
    · cases hConsumed
    · exact List.mem_singleton.mp hConsumed
  rw [List.mem_append, valueTexts, consumedTexts] at hMem
  cases hType : param.type with
  | int64 | double =>
      rw [hType] at hMem
      rcases hMem with hValue | hConsumed
      · cases hValue
      · cases hConsumed
  | optionalInt64 | optionalDouble =>
      rw [hType] at hMem
      rcases hMem with hValue | hConsumed
      · cases hValue
      · exact Or.inr (hSome hConsumed)
  | string =>
      rw [hType] at hMem
      rcases hMem with hValue | hConsumed
      · exact Or.inl (List.mem_singleton.mp hValue)
      · cases hConsumed
  | optionalString =>
      rw [hType] at hMem
      rcases hMem with hValue | hConsumed
      · exact Or.inl (List.mem_singleton.mp hValue)
      · exact Or.inr (hSome hConsumed)

/-- The texts of a placeholder are shorter than it. -/
theorem length_param (p : Placeholder) :
    p.param.value.length < p.write.length ∧ p.param.consumed.length < p.write.length := by
  have hConsumed : ∀ consumed : Option Bytes, (consumed.getD []).length ≤
      (Placeholder.colonText consumed).length := by
    intro consumed
    cases consumed <;> simp [Placeholder.colonText]
  cases p with
  | int | double | string value =>
      simp only [Placeholder.param, Placeholder.write, ascii, List.length_append]
      simp <;> omega
  | optionalInt consumed | optionalDouble consumed | optionalString value consumed =>
      have hLength := hConsumed consumed
      simp only [Placeholder.param, Placeholder.write, ascii, List.length_append]
      simp
      omega

theorem length_write_le {segments : List (Bytes × Placeholder)} {segment : Bytes × Placeholder}
    (hMem : segment ∈ segments) (tail : Bytes) :
    segment.2.write.length ≤ (writeSegments segments tail).length := by
  induction segments with
  | nil => cases hMem
  | cons first segments ih =>
      obtain ⟨literal, p⟩ := first
      rw [writeSegments_cons, List.length_append, List.length_append]
      rcases List.mem_cons.mp hMem with rfl | hRest
      · show p.write.length ≤ _
        omega
      · have hLength := ih hRest
        omega

/-- Every pattern is rewritten to some text, which is longer than anything that
is embedded in the pattern. -/
theorem rewritten_completes (pattern : Bytes) : ∃ finalRoute, rewritten pattern = .ok finalRoute ∧
    ∀ text ∈ values pattern ++ consumed pattern, text.length < finalRoute.length := by
  obtain ⟨segments, tail, hPattern, hScan, hLeftmost⟩ := exists_scanned pattern
  obtain ⟨finalRoute, hFinal, _⟩ := replaceLoop_iff segments hLeftmost 0 [] []
  have hParams : params pattern = segments.map fun segment => segment.2.param := by
    rw [params, hScan, params_scanned]
  have hRewritten : rewritten pattern = .ok finalRoute := by
    rw [rewritten, hParams, hPattern]
    exact hFinal
  refine ⟨finalRoute, hRewritten, ?_⟩
  have hLonger : pattern.length ≤ finalRoute.length := by
    rw [rewritten, hParams] at hRewritten
    exact length_replaceLoop (lengths_le 0 segments) hRewritten
  intro text hMem
  have hEmbedded : ∃ param ∈ params pattern, text ∈ valueTexts param ++ consumedTexts param := by
    simp only [values, consumed, List.mem_append, List.mem_flatMap] at hMem ⊢
    rcases hMem with ⟨param, hParam, hText⟩ | ⟨param, hParam, hText⟩
    · exact ⟨param, hParam, Or.inl hText⟩
    · exact ⟨param, hParam, Or.inr hText⟩
  obtain ⟨param, hParam, hText⟩ := hEmbedded
  rw [hParams] at hParam
  obtain ⟨segment, hSegment, rfl⟩ := List.mem_map.mp hParam
  have hShorter : text.length < segment.2.write.length := by
    rcases embedded_cases hText with rfl | rfl
    · exact (length_param segment.2).1
    · exact (length_param segment.2).2
  have hWritten := length_write_le hSegment tail
  rw [← hPattern] at hWritten
  omega

open Classical in
/-- A library that takes everything but the invalid texts among those embedded in
a pattern. -/
noncomputable def lenient (pattern : Bytes) (valid : Bytes → Prop) : RegexLibrary Unit where
  compile text :=
    if text ∈ values pattern ++ consumed pattern ∧ ¬valid text then .error .std else .ok ()
  regexMatch _ _ := .ok none

/-- The lenient library compiles everything but the embedded texts that are not
valid. -/
theorem compiles_lenient (pattern : Bytes) (valid : Bytes → Prop) (text : Bytes) :
    Compiles (lenient pattern valid) text ↔
      (text ∈ values pattern ++ consumed pattern → valid text) := by
  unfold Compiles lenient
  by_cases hInvalid : text ∈ values pattern ++ consumed pattern ∧ ¬valid text
  · simp only [if_pos hInvalid, reduceCtorEq, exists_false, false_iff]
    exact fun h => hInvalid.2 (h hInvalid.1)
  · simp only [if_neg hInvalid, exists_const, true_iff]
    intro hMem
    by_contra hNot
    exact hInvalid ⟨hMem, hNot⟩

/-- One library rejects a pattern as it should, unless an invalid consumed part
is not backed by an invalid value, and what the pattern is rewritten to compiles.
All libraries that agree on the embedded texts reject it exactly if no consumed
part is invalid, or some value is. -/
theorem rejects_iff_valid (pattern : Bytes) (valid : Bytes → Prop) :
    (∀ (ρ : Type) (library : RegexLibrary ρ), Rejects library pattern ↔
        (∀ text ∈ consumed pattern, Compiles library text) ∨
          (∃ text ∈ values pattern, ¬Compiles library text) ∨
          ∀ finalRoute, rewritten pattern = .ok finalRoute → ¬Compiles library finalRoute) ∧
      ((∀ (ρ : Type) (library : RegexLibrary ρ),
          (∀ text ∈ values pattern ++ consumed pattern, Compiles library text ↔ valid text) →
            Rejects library pattern) ↔
        (∀ text ∈ consumed pattern, valid text) ∨ ∃ text ∈ values pattern, ¬valid text) := by
  refine ⟨fun _ library => rejects_iff pattern, ?_, ?_⟩
  · intro hAll
    have hLenient : ∀ text ∈ values pattern ++ consumed pattern,
        Compiles (lenient pattern valid) text ↔ valid text := by
      intro text hMem
      rw [compiles_lenient]
      exact ⟨fun h => h hMem, fun h _ => h⟩
    rcases (rejects_iff pattern).mp (hAll Unit _ hLenient) with hConsumed | ⟨text, hMem, hInvalid⟩ | hWhole
    · exact Or.inl fun text hMem =>
        (hLenient text (List.mem_append_right _ hMem)).mp (hConsumed text hMem)
    · exact Or.inr ⟨text, hMem, fun hValid =>
        hInvalid ((hLenient text (List.mem_append_left _ hMem)).mpr hValid)⟩
    · obtain ⟨finalRoute, hFinal, hLonger⟩ := rewritten_completes pattern
      refine absurd ((compiles_lenient pattern valid finalRoute).mpr fun hMem => ?_)
        (hWhole finalRoute hFinal)
      exact absurd (hLonger finalRoute hMem) (Nat.lt_irrefl _)
  · intro hValid ρ library hSame
    rw [rejects_iff]
    rcases hValid with hConsumed | ⟨text, hMem, hInvalid⟩
    · exact Or.inl fun text hMem =>
        (hSame text (List.mem_append_right _ hMem)).mpr (hConsumed text hMem)
    · exact Or.inr (Or.inl ⟨text, hMem, fun hCompiles =>
        hInvalid ((hSame text (List.mem_append_left _ hMem)).mp hCompiles)⟩)

/-- A consumed part that is invalid on its own closes the group that it stands in
and opens another one, and the route is made. -/
theorem unbalanced_consumed_accepted :
    ascii ")(a" ∈ consumed (ascii "/\x7b\x7bi?:)(a\x7d\x7d") ∧
      ¬Compiles patternLibrary (ascii ")(a") ∧
      rewritten (ascii "/\x7b\x7bi?:)(a\x7d\x7d") = .ok (ascii "/(?:(?<__0>[+-]?\\d+))(a)?") ∧
      (∃ parsed, parseRoutePattern patternLibrary (ascii "/\x7b\x7bi?:)(a\x7d\x7d") = .ok parsed) ∧
      ¬Rejects patternLibrary (ascii "/\x7b\x7bi?:)(a\x7d\x7d") := by
  have hConsumed : ascii ")(a" ∈ consumed (ascii "/\x7b\x7bi?:)(a\x7d\x7d") := by decide
  have hInvalid : ¬Compiles patternLibrary (ascii ")(a") := by
    rintro ⟨p, hCompile⟩
    cases compile_patternLibrary_iff.mp hCompile
  have hRewritten : rewritten (ascii "/\x7b\x7bi?:)(a\x7d\x7d") =
      .ok (ascii "/(?:(?<__0>[+-]?\\d+))(a)?") := by decide
  have hParsed : ∃ parsed,
      parseRoutePattern patternLibrary (ascii "/\x7b\x7bi?:)(a\x7d\x7d") = .ok parsed := by
    refine (parseRoutePattern_ok_iff _).mpr ⟨?_, _, hRewritten, _, rfl⟩
    rw [show values (ascii "/\x7b\x7bi?:)(a\x7d\x7d") = [] by decide]
    simp
  refine ⟨hConsumed, hInvalid, hRewritten, hParsed, ?_⟩
  intro hRejects
  obtain ⟨hThrows, _⟩ := hRejects ⟨_, List.mem_append_right _ hConsumed, hInvalid⟩
  exact (throws_iff _).mp hThrows hParsed

end RouteParsing

end Nozomi
