import Nozomi.Execution.Run
import Nozomi.Routing.PatternReplacement

/-! The replacement loop, one search after another. The placeholders that are
still to be replaced always stand in what is left of the text, in their order. -/
namespace Nozomi

open Text Execution

namespace RouteParsing

/-- What the loop goes on with: the replacements that are left, the offset, and
the text so far. -/
structure Replacing where
  replacements : List (Bytes × Bytes)
  it : Nat
  finalRoute : Bytes

namespace Replacing

/-- One iteration. There is none once the loop is done, nor if nothing is found. -/
def step (s : Replacing) (_ : Unit) : Option Replacing :=
  match s.replacements with
  | [] => none
  | replacement :: rest =>
      (find s.finalRoute replacement.1 s.it).map fun it =>
        ⟨rest, it + replacement.1.length, replace s.finalRoute it replacement.1.length replacement.2⟩

/-- The state after some iterations. -/
def Reaches (s t : Replacing) : Prop := ∃ rounds, Run step (fun _ _ => True) s rounds t

/-- The search at the beginning of an iteration finds nothing. -/
def SearchFails (s : Replacing) : Prop :=
  ∃ replacement rest, s.replacements = replacement :: rest ∧ find s.finalRoute replacement.1 s.it = none

/-- A step finds the first of the remaining placeholders and replaces it, and goes
on behind the text that it was found as. -/
theorem step_cases {s t : Replacing} (h : s.step () = some t) :
    ∃ replacement rest it, s.replacements = replacement :: rest ∧
      find s.finalRoute replacement.1 s.it = some it ∧
      t = ⟨rest, it + replacement.1.length,
        replace s.finalRoute it replacement.1.length replacement.2⟩ := by
  obtain ⟨replacements, offset, text⟩ := s
  cases replacements with
  | nil => cases h
  | cons replacement rest =>
      obtain ⟨it, hFound, hState⟩ := Option.map_eq_some_iff.mp h
      exact ⟨replacement, rest, it, rfl, hFound, hState.symm⟩

/-- A state is reached without an iteration, or after the first one. -/
theorem reaches_iff {s final : Replacing} :
    s.Reaches final ↔ final = s ∨ ∃ t, s.step () = some t ∧ t.Reaches final := by
  constructor
  · intro h
    obtain ⟨rounds, run⟩ := h
    cases run with
    | nil => exact .inl rfl
    | cons _ first run => exact .inr ⟨_, first, _, run⟩
  · intro h
    cases h with
    | inl hSame =>
        rw [hSame]
        exact ⟨[], .nil s⟩
    | inr hLater =>
        obtain ⟨t, first, rounds, run⟩ := hLater
        exact ⟨() :: rounds, .cons trivial first run⟩

/-- A search fails later on if it fails here, or after the first iteration. This is
the recursion of the loop. -/
theorem reaches_failure_iff (s : Replacing) :
    (∃ t, s.Reaches t ∧ t.SearchFails) ↔
      s.SearchFails ∨ ∃ t, s.step () = some t ∧ ∃ u, t.Reaches u ∧ u.SearchFails := by
  constructor
  · intro h
    obtain ⟨u, hReaches, hFails⟩ := h
    cases reaches_iff.mp hReaches with
    | inl hSame =>
        rw [hSame] at hFails
        exact .inl hFails
    | inr hLater =>
        obtain ⟨t, first, hRest⟩ := hLater
        exact .inr ⟨t, first, u, hRest, hFails⟩
  · intro h
    cases h with
    | inl hFails => exact ⟨s, reaches_iff.mpr (.inl rfl), hFails⟩
    | inr hLater =>
        obtain ⟨t, first, u, hRest, hFails⟩ := hLater
        exact ⟨u, reaches_iff.mpr (.inr ⟨t, first, hRest⟩), hFails⟩

/-- The loop throws exactly if it reaches a search that fails. -/
theorem replaceLoop_throws_iff (replacements : List (Bytes × Bytes)) (it : Nat) (finalRoute : Bytes) :
    (∃ thrown, replaceLoop replacements it finalRoute = .error thrown) ↔
      ∃ s, Reaches ⟨replacements, it, finalRoute⟩ s ∧ s.SearchFails := by
  induction replacements generalizing it finalRoute with
  | nil =>
      rw [reaches_failure_iff]
      simp [SearchFails, step]
  | cons replacement replacements ih =>
      rw [reaches_failure_iff, replaceLoop_unfold]
      cases hFound : find finalRoute replacement.1 it with
      | none => exact iff_of_true ⟨.std, rfl⟩ (.inl ⟨replacement, replacements, rfl, hFound⟩)
      | some found =>
          -- this search succeeds, so what fails is a later one
          simp [ih, SearchFails, step, hFound]

/-- The texts that are still to be replaced stand in the text from the offset on,
in their order, and none of them is longer than its replacement. -/
structure Pending (s : Replacing) : Prop where
  offset : s.it ≤ s.finalRoute.length
  inOrder : InOrder (s.replacements.map Prod.fst) (s.finalRoute.drop s.it)
  lengths : ∀ replacement ∈ s.replacements, replacement.1.length ≤ replacement.2.length

/-- As long as the placeholders occur in order in what is left, the next search
succeeds. -/
theorem Pending.finds {s : Replacing} (h : Pending s) : ¬s.SearchFails := by
  intro hFails
  obtain ⟨replacement, rest, hLeft, hNone⟩ := hFails
  have hOrder := h.inOrder
  rw [hLeft, List.map_cons] at hOrder
  obtain ⟨kept, after, hFound, _⟩ := hOrder.indexOf_first
  rw [find, if_pos h.offset, hFound] at hNone
  cases hNone

/-- Wherever the text is found, what was behind its own place stays behind the new
offset, after the end of the replacement. -/
theorem pending_step {s t : Replacing} (h : Pending s) (hStep : s.step () = some t) : Pending t := by
  obtain ⟨replacement, rest, it, hLeft, hFind, rfl⟩ := step_cases hStep
  have hLengths := h.lengths
  have hOrder := h.inOrder
  rw [hLeft] at hLengths hOrder
  rw [List.map_cons] at hOrder
  obtain ⟨hLength, hLengthsRest⟩ := List.forall_mem_cons.mp hLengths
  obtain ⟨kept, after, hFound, hText, hRest⟩ := hOrder.indexOf_first
  obtain ⟨passed, hPassed⟩ : ∃ passed, s.finalRoute.take s.it = passed := ⟨_, rfl⟩
  have hOffset : s.it = passed.length := by
    rw [← hPassed, List.length_take_of_le h.offset]
  have hWhole : s.finalRoute = passed ++ (kept ++ (replacement.1 ++ after)) := by
    rw [← hText, ← hPassed, List.take_append_drop]
  have hIt : passed.length + kept.length = it := by
    rw [find, if_pos h.offset, hFound, hOffset] at hFind
    exact Option.some.inj hFind
  obtain ⟨hReplaced, hGoesOn⟩ := replace_passed passed kept after hLength
  rw [← hWhole, hIt] at hReplaced
  rw [hIt] at hGoesOn
  rw [hReplaced, hGoesOn]
  constructor
  · exact (List.prefix_append _ _).length_le
  · rw [List.drop_left]
    exact hRest.append_left _
  · exact hLengthsRest

/-- The invariant is carried along the whole loop, by induction over its steps. -/
theorem pending_of_reaches {s t : Replacing} (h : Pending s) (hReaches : s.Reaches t) : Pending t := by
  obtain ⟨rounds, run⟩ := hReaches
  apply run.invariant Pending h
  intro s event t hPending _ hStep
  exact pending_step hPending hStep

/-- Whatever the replacements are, the loop completes if they are no shorter than
the texts that they replace. -/
theorem Pending.completes {s : Replacing} (h : Pending s) :
    ∃ finalRoute, replaceLoop s.replacements s.it s.finalRoute = .ok finalRoute := by
  cases hLoop : replaceLoop s.replacements s.it s.finalRoute with
  | ok finalRoute => exact ⟨finalRoute, rfl⟩
  | error thrown =>
      obtain ⟨t, hReaches, hFails⟩ := (replaceLoop_throws_iff _ _ _).mp ⟨thrown, hLoop⟩
      exact absurd hFails (pending_of_reaches h hReaches).finds

end Replacing

/-- In the pattern as it was written, the placeholders occur in their order. -/
theorem inOrder_writeSegments (k : Nat) (segments : List (Bytes × Placeholder)) (tail : Bytes) :
    InOrder ((replacementsFrom k (segments.map fun segment => segment.2.param)).map Prod.fst)
      (writeSegments segments tail) := by
  induction segments generalizing k with
  | nil => trivial
  | cons segment segments ih =>
      obtain ⟨literal, p⟩ := segment
      rw [writeSegments_cons, List.map_cons, replacementsFrom, List.map_cons, originalPattern_param]
      exact ⟨literal, writeSegments segments tail, rfl, ih (k + 1)⟩

/-- What the scanning loop found stands in the pattern. -/
theorem pending_start {ρ : Type} {library : RegexLibrary ρ} {pattern : Bytes}
    {replacements : List (Bytes × Bytes)} {types : List RouteParamType}
    (hScan : scanLoop library (Regex.sregexIterator routeParser pattern).1 [] [] =
      .ok (replacements, types)) : Replacing.Pending ⟨replacements, 0, pattern⟩ := by
  obtain ⟨segments, tail, hPattern, hScanned, _⟩ := exists_scanned pattern
  rw [scanLoop_scan, hScanned, params_scanned] at hScan
  obtain ⟨rfl, _⟩ := Prod.mk.inj (foldlM_passOn_ok hScan)
  constructor
  · apply Nat.zero_le
  · rw [hPattern]
    exact inOrder_writeSegments 0 segments tail
  · exact lengths_le 0 segments

/-- Once the scanning loop is through, every search of the replacement loop finds
its placeholder, and only the compilation of what is left can still throw. -/
theorem replacement_search_succeeds {ρ : Type} (library : RegexLibrary ρ) (pattern : Bytes)
    {replacements : List (Bytes × Bytes)} {types : List RouteParamType}
    (hScan : scanLoop library (Regex.sregexIterator routeParser pattern).1 [] [] =
      .ok (replacements, types)) :
    (∀ s, Replacing.Reaches ⟨replacements, 0, pattern⟩ s →
      ∀ replacement rest, s.replacements = replacement :: rest →
        ∃ it, find s.finalRoute replacement.1 s.it = some it) ∧
      ∃ finalRoute, replaceLoop replacements 0 pattern = .ok finalRoute ∧
        parseRoutePattern library pattern =
          (library.compile finalRoute).map fun regex => (regex, types) := by
  have hPending := pending_start hScan
  constructor
  · intro s hReaches replacement rest hLeft
    cases hFound : find s.finalRoute replacement.1 s.it with
    | some it => exact ⟨it, rfl⟩
    | none =>
        exact absurd ⟨replacement, rest, hLeft, hFound⟩
          (Replacing.pending_of_reaches hPending hReaches).finds
  · obtain ⟨finalRoute, hLoop⟩ := hPending.completes
    refine ⟨finalRoute, hLoop, ?_⟩
    rw [parseRoutePattern_unfold, hScan]
    show (replaceLoop replacements 0 pattern >>= _) = _
    rw [hLoop]
    cases hCompile : library.compile finalRoute with
    | error thrown => simp [Bind.bind, Except.bind, Except.map, hCompile]
    | ok regex => simp [Bind.bind, Except.bind, Except.map, Pure.pure, Except.pure, hCompile]

/-- The second placeholder is found early, in the end of the first replacement, and
the search for it succeeds all the same. -/
theorem replacement_search_succeeds_example : ∃ finalRoute,
    replaceLoop [(ascii "\x7b\x7bi?:\x7b\x7bi?:(x\x7d\x7d", ascii "(?:(?<__0>[+-]?\\d+)\x7b\x7bi?:(x)?"),
        (ascii "\x7b\x7bi?:(x)?y\x7d\x7d", ascii "(?:(?<__1>[+-]?\\d+)(x)?y)?")] 0
        (ascii "/\x7b\x7bi?:\x7b\x7bi?:(x\x7d\x7dy\x7d\x7d\x7b\x7bi?:(x)?y\x7d\x7d)?") = .ok finalRoute ∧
      parseRoutePattern (⟨.ok, fun _ _ => .ok none⟩ : RegexLibrary Bytes)
        (ascii "/\x7b\x7bi?:\x7b\x7bi?:(x\x7d\x7dy\x7d\x7d\x7b\x7bi?:(x)?y\x7d\x7d)?") =
          .ok (finalRoute, [.optionalInt64, .optionalInt64]) :=
  (replacement_search_succeeds (⟨.ok, fun _ _ => .ok none⟩ : RegexLibrary Bytes) _
    (by decide)).2

end RouteParsing

end Nozomi
