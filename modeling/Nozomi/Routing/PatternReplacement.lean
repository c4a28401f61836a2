import Nozomi.Routing.PatternLibrary
import Nozomi.Routing.PatternScan

/-! The second pass over a route pattern, which searches the text that it
rewrites for the next placeholder. -/
namespace Nozomi

open Text

namespace RouteParsing

/-- `parse_route_pattern` up to the compilation of `finalRoute`. -/
def rewritePattern {ρ : Type} (library : RegexLibrary ρ) (pattern : Bytes) :
    Throws (Bytes × List RouteParamType) := do
  let (replacements, types) ← scanLoop library (Regex.sregexIterator routeParser pattern).1 [] []
  let finalRoute ← replaceLoop replacements 0 pattern
  return (finalRoute, types)

/-- A pattern is parsed by rewriting it and then compiling what it is rewritten to. -/
theorem parseRoutePattern_eq {ρ : Type} (library : RegexLibrary ρ) (pattern : Bytes) :
    parseRoutePattern library pattern = (do
      let (finalRoute, types) ← rewritePattern library pattern
      let regex ← library.compile finalRoute
      return (regex, types)) := by
  simp only [parseRoutePattern_unfold, rewritePattern, bind_assoc, pure_bind]

/-- Put a text in the place of each placeholder, and keep the literal texts. -/
def assemble (place : Nat → RouteParam → Bytes) :
    Nat → List (Bytes × Option RouteParam) → Bytes → Bytes
  | _, [], tail => tail
  | k, (literal, param) :: rest, tail =>
      literal ++ (param.elim [] (place k) ++ assemble place (k + 1) rest tail)

/-- The text that is searched for in the place of a placeholder. -/
abbrev original (_ : Nat) (param : RouteParam) : Bytes := param.originalPattern

/-- No placeholder is found early, in what an earlier replacement left beyond the
length of its placeholder. -/
def Undisturbed (left : Bytes) : Nat → List (Bytes × Option RouteParam) → Bytes → Prop
  | _, [], _ => True
  | k, (literal, param) :: rest, tail =>
      (∀ j < left.length, ¬param.elim [] (original k) <+:
        (left ++ assemble original k ((literal, param) :: rest) tail).drop j) ∧
      Undisturbed ((param.elim [] (chunk k)).drop (param.elim [] (original k)).length) (k + 1) rest tail

instance decidableUndisturbed (left : Bytes) (k : Nat) (segments : List (Bytes × Option RouteParam))
    (tail : Bytes) : Decidable (Undisturbed left k segments tail) :=
  match segments with
  | [] => inferInstanceAs (Decidable True)
  | (literal, param) :: rest =>
      have := decidableUndisturbed
        ((param.elim [] (chunk k)).drop (param.elim [] (original k)).length) (k + 1) rest tail
      inferInstanceAs (Decidable ((∀ j < left.length, ¬param.elim [] (original k) <+:
        (left ++ assemble original k ((literal, param) :: rest) tail).drop j) ∧
          Undisturbed ((param.elim [] (chunk k)).drop (param.elim [] (original k)).length) (k + 1)
            rest tail))

/-- The scanned parts of a pattern that has placeholders at known places. -/
def scanned (segments : List (Bytes × Placeholder)) : List (Bytes × Option RouteParam) :=
  segments.map fun segment => (segment.1, some segment.2.param)

/-- What the loop over the matches keeps as the text of a chunk is the text as it
was written. -/
theorem originalPattern_param (p : Placeholder) : p.param.originalPattern = p.write := by
  cases p <;> rfl

theorem assemble_original (k : Nat) (segments : List (Bytes × Placeholder)) (tail : Bytes) :
    assemble original k (scanned segments) tail = writeSegments segments tail := by
  induction segments generalizing k with
  | nil => rfl
  | cons segment segments ih =>
      have hRest := ih (k + 1)
      simp only [scanned] at hRest
      simp [scanned, assemble, hRest, original, originalPattern_param, writeSegments]

/-- No text of a placeholder begins in the literal text before it. -/
def Leftmost : List (Bytes × Placeholder) → Bytes → Prop
  | [], _ => True
  | (literal, p) :: rest, tail =>
      (∀ before more, more ≠ [] → literal = before ++ more →
        ¬p.write <+: more ++ (p.write ++ writeSegments rest tail)) ∧ Leftmost rest tail

theorem writeSegments_cons (literal : Bytes) (p : Placeholder) (segments : List (Bytes × Placeholder))
    (tail : Bytes) : writeSegments ((literal, p) :: segments) tail =
      literal ++ (p.write ++ writeSegments segments tail) := by simp [writeSegments]

/-- Every pattern is read as literal texts and placeholders, each at its first place.
The induction is over the length, as each match leaves less of the pattern. -/
theorem exists_scanned (pattern : Bytes) :
    ∃ segments tail, pattern = writeSegments segments tail ∧
      scan pattern = (scanned segments, tail) ∧ Leftmost segments tail := by
  induction hLength : pattern.length using Nat.strongRecOn generalizing pattern with
  | ind length ih =>
      cases hSearch : routeParser.search pattern with
      | none =>
          refine ⟨[], pattern, rfl, ?_, trivial⟩
          rw [scan, Regex.sregexIterator_none hSearch]
          rfl
      | some found =>
          obtain ⟨hText, hMatch, hFirst⟩ := Regex.search_sound hSearch
          obtain ⟨p, _, hUsed, hCaptures⟩ := (Placeholder.matches_routeParser _ _).mp hMatch
          obtain ⟨segments, tail, hAfter, hScan, hLeftmost⟩ :=
            ih _ (hLength ▸ Regex.search_after_lt not_matches_nil hSearch) found.after rfl
          refine ⟨(found.before, p) :: segments, tail, ?_, ?_, ?_, hLeftmost⟩
          · rw [writeSegments_cons, ← hAfter, ← hUsed]
            exact hText
          · rw [scan] at hScan ⊢
            rw [Regex.sregexIterator_some not_matches_nil hSearch]
            simp only [Prod.mk.injEq] at hScan
            simp [hScan.1, hScan.2, hCaptures, Placeholder.routeParam_captures, scanned]
          · intro before more hMore hSplit hPrefix
            obtain ⟨rest, hRest⟩ := hPrefix
            have hNone := hFirst before more hMore hSplit
            rw [hUsed, hAfter, ← hRest] at hNone
            have hSome := Regex.matchAt_complete (hUsed ▸ hMatch) rest
            rw [hNone] at hSome
            contradiction

/-- The replacements for parameters from `k` on. -/
def replacementsFrom : Nat → List RouteParam → List (Bytes × Bytes)
  | _, [] => []
  | k, param :: rest => (param.originalPattern, chunk k param) :: replacementsFrom (k + 1) rest

/-- If a value compiles, then its chunk is replaced, and the text does not depend on
the library. -/
theorem routeToRegex_ok {ρ : Type} {library : RegexLibrary ρ} {k : Nat} {param : RouteParam}
    {replacement : Bytes × Bytes} (h : routeToRegex library k param = .ok replacement) :
    replacement = (param.originalPattern, chunk k param) := by
  rw [routeToRegex_unfold] at h
  cases hType : param.type with
  | string | optionalString =>
      rw [hType] at h
      obtain ⟨_, _, hOk⟩ := (Throws.bind_eq_ok_iff _ _ _).mp h
      exact (Except.ok.inj hOk).symm
  | int64 | optionalInt64 | double | optionalDouble =>
      rw [hType] at h
      exact (Except.ok.inj h).symm

/-- If all values compile, then the replacements are those of the placeholders,
numbered from the length of the list on. The induction is over the placeholders. -/
theorem foldlM_passOn_ok {ρ : Type} {library : RegexLibrary ρ} {params : List RouteParam}
    {done result : List (Bytes × Bytes) × List RouteParamType}
    (h : params.foldlM (passOn library) done = .ok result) :
    result = (done.1 ++ replacementsFrom done.1.length params, done.2 ++ params.map RouteParam.type) := by
  induction params generalizing done with
  | nil =>
      obtain rfl := Except.ok.inj h
      simp [replacementsFrom]
  | cons param params ih =>
      rw [List.foldlM_cons] at h
      obtain ⟨next, hNext, hRest⟩ := (Throws.bind_eq_ok_iff _ _ _).mp h
      obtain ⟨replacement, hReplacement, hOk⟩ := (Throws.bind_eq_ok_iff _ _ _).mp hNext
      obtain rfl := Except.ok.inj hOk
      rw [ih hRest, routeToRegex_ok hReplacement]
      simp [replacementsFrom]

/-- One round of the loop: the text before what was found, and the part of the
replacement that is as long as it, are passed. -/
theorem replaceLoop_cons {wanted replacement text kept rest : Bytes} (done : Bytes)
    (replacements : List (Bytes × Bytes)) (hLength : wanted.length ≤ replacement.length)
    (hFound : indexOf wanted text = some kept.length) (hText : text = kept ++ (wanted ++ rest)) :
    replaceLoop ((wanted, replacement) :: replacements) done.length (done ++ text) =
      replaceLoop replacements (done ++ (kept ++ replacement.take wanted.length)).length
        (done ++ (kept ++ replacement.take wanted.length) ++ (replacement.drop wanted.length ++ rest)) := by
  obtain ⟨hReplaced, hOffset⟩ := replace_passed done kept rest hLength
  rw [← hReplaced, ← hOffset, replaceLoop_unfold, find_append, hFound, ← hText]
  rfl

/-- What the loop has passed is never changed again, since it searches from its offset
on. -/
theorem replaceLoop_prefix {replacements : List (Bytes × Bytes)} {done text finalRoute : Bytes}
    (hLengths : ∀ replacement ∈ replacements, replacement.1.length ≤ replacement.2.length)
    (h : replaceLoop replacements done.length (done ++ text) = .ok finalRoute) :
    done <+: finalRoute := by
  induction replacements generalizing done text with
  | nil =>
      obtain rfl := Except.ok.inj h
      exact List.prefix_append done text
  | cons replacement replacements ih =>
      cases hFound : indexOf replacement.1 text with
      | none =>
          rw [replaceLoop_unfold, find_append, hFound] at h
          contradiction
      | some i =>
          obtain ⟨kept, rest, rfl, hText⟩ := indexOf_split hFound
          rw [replaceLoop_cons done replacements (hLengths _ (List.mem_cons_self ..)) hFound hText] at h
          exact (List.prefix_append done _).trans
            (ih (fun other hOther => hLengths other (List.mem_cons_of_mem _ hOther)) h)

/-- What stands before the named group in a replacement. -/
def chunkOpening (param : RouteParam) : Bytes :=
  match param.type with
  | .int64 | .double | .string => []
  | .optionalInt64 | .optionalDouble | .optionalString => ascii "(?:"

/-- Every chunk has the opening of its named group near its beginning. Only the
bracket of an optional chunk stands before it. -/
theorem chunk_eq (k : Nat) (param : RouteParam) :
    ∃ body, chunk k param = chunkOpening param ++ (groupStart k ++ body) := by
  obtain ⟨type, _, _, _⟩ := param
  cases type
  case int64 | double => exact ⟨_, rfl⟩
  case string => exact ⟨_, List.append_assoc _ _ _⟩
  case optionalInt64 | optionalDouble | optionalString =>
      exact ⟨_, by simp only [chunk, chunkOpening, List.append_assoc]; rfl⟩

/-- Every chunk begins with an opening bracket, which no placeholder does. -/
theorem chunk_head (k : Nat) (param : RouteParam) : ∃ rest, chunk k param = 0x28 :: rest := by
  obtain ⟨body, hChunk⟩ := chunk_eq k param
  obtain ⟨type, _, _, _⟩ := param
  rw [hChunk]
  cases type <;> exact ⟨_, rfl⟩

/-- A replacement is never shorter than its placeholder. -/
theorem write_length_le (k : Nat) (p : Placeholder) : p.write.length ≤ (chunk k p.param).length := by
  have hGroup : 6 ≤ (groupStart k).length := by
    simp [groupStart, groupName, ascii]
  have hColon : ∀ consumed : Option Bytes,
      (Placeholder.colonText consumed).length ≤ 1 + (consumed.getD []).length := by
    intro consumed
    cases consumed <;> simp [Placeholder.colonText, Nat.add_comm]
  cases p with
  | int | double => simp [Placeholder.write, Placeholder.param, chunk, ascii]
  | string value =>
      simp [Placeholder.write, Placeholder.param, chunk, ascii]
      omega
  | optionalInt consumed | optionalDouble consumed | optionalString value consumed =>
      have hConsumed := hColon consumed
      simp [Placeholder.write, Placeholder.param, chunk, ascii]
      omega

/-- No chunk is shorter than the placeholder that it replaces, so that what is left
of a chunk after a replacement is well defined. -/
theorem lengths_le (k : Nat) (segments : List (Bytes × Placeholder)) :
    ∀ replacement ∈ replacementsFrom k (segments.map fun segment => segment.2.param),
      replacement.1.length ≤ replacement.2.length := by
  induction segments generalizing k with
  | nil => simp [replacementsFrom]
  | cons segment segments ih =>
      rw [List.map_cons, replacementsFrom, List.forall_mem_cons]
      exact ⟨originalPattern_param segment.2 ▸ write_length_le k segment.2, ih (k + 1)⟩

/-- A replacement in the wrong place shows where it begins. -/
theorem replacement_visible {done left kept wanted rest other replacement after finalRoute : Bytes}
    (hText : left ++ other = kept ++ (openBrace :: wanted ++ rest)) (hEarly : kept.length < left.length)
    (hFinal : done ++ (kept ++ 0x28 :: replacement) <+: finalRoute) : finalRoute ≠ done ++ (left ++ after) := by
  rintro rfl
  obtain ⟨more, hMore⟩ := hFinal
  simp only [List.append_assoc, List.cons_append] at hText hMore
  have hHere : left[kept.length]? = some openBrace := by
    have hAt := congrArg (fun text => text[kept.length]?) hText
    simpa [List.getElem?_append_left hEarly] using hAt
  have hThere : left[kept.length]? = some 0x28 := by
    have hAt := congrArg (fun text => text[kept.length]?) (List.append_cancel_left hMore)
    simpa [List.getElem?_append_left hEarly] using hAt.symm
  rw [hHere] at hThere
  contradiction

/-- Two ways to cut a text, of which the second one cuts behind the first. -/
theorem append_split {first second third fourth : Bytes} (h : first ++ second = third ++ fourth)
    (hLength : first.length ≤ third.length) :
    ∃ between, third = first ++ between ∧ second = between ++ fourth := by
  have hFirst : first <+: third ++ fourth := h ▸ List.prefix_append first second
  obtain ⟨between, rfl⟩ :=
    List.prefix_of_prefix_length_le hFirst (List.prefix_append third fourth) hLength
  rw [List.append_assoc] at h
  exact ⟨between, rfl, List.append_cancel_left h⟩

/-- A placeholder that is not found early is found in its place. -/
theorem found_in_place {left literal wanted after kept rest : Bytes}
    (hFirst : ∀ before more, more ≠ [] → literal = before ++ more → ¬wanted <+: more ++ (wanted ++ after))
    (hText : left ++ (literal ++ (wanted ++ after)) = kept ++ (wanted ++ rest))
    (hLate : left.length ≤ kept.length) (hLength : kept.length ≤ (left ++ literal).length) :
    kept = left ++ literal ∧ rest = after := by
  obtain ⟨before, rfl, hInside⟩ := append_split hText hLate
  have hBefore : before.length ≤ literal.length := by simpa using hLength
  obtain ⟨more, rfl, hRest⟩ := append_split hInside.symm hBefore
  cases more with
  | nil =>
      rw [List.nil_append] at hRest
      exact ⟨by simp, List.append_cancel_left hRest⟩
  | cons c more => exact absurd ⟨rest, hRest⟩ (hFirst before (c :: more) (by simp) rfl)

/-- A first placeholder is replaced in its place exactly if it does not occur from
inside of what was left of the last chunk, and the others are not disturbed after
it. -/
theorem undisturbed_cons (left literal : Bytes) (k : Nat) (p : Placeholder)
    (segments : List (Bytes × Placeholder)) (tail : Bytes) :
    Undisturbed left k (scanned ((literal, p) :: segments)) tail ↔
      (∀ j < left.length,
        ¬p.write <+: (left ++ (literal ++ (p.write ++ writeSegments segments tail))).drop j) ∧
      Undisturbed ((chunk k p.param).drop p.write.length) (k + 1) (scanned segments) tail := by
  have hOriginal := assemble_original k ((literal, p) :: segments) tail
  rw [writeSegments_cons] at hOriginal
  rw [← hOriginal, ← originalPattern_param]
  rfl

/-- The loop completes, and it puts every replacement in its place exactly when no
placeholder is found early. -/
theorem replaceLoop_iff (segments : List (Bytes × Placeholder)) {tail : Bytes}
    (hLeftmost : Leftmost segments tail) (k : Nat) (done left : Bytes) :
    ∃ finalRoute, replaceLoop (replacementsFrom k (segments.map fun segment => segment.2.param))
        done.length (done ++ (left ++ writeSegments segments tail)) = .ok finalRoute ∧
      (finalRoute = done ++ (left ++ assemble chunk k (scanned segments) tail) ↔
        Undisturbed left k (scanned segments) tail) := by
  induction segments generalizing k done left with
  | nil => exact ⟨_, rfl, iff_of_true rfl trivial⟩
  | cons segment segments ih =>
      obtain ⟨literal, p⟩ := segment
      obtain ⟨hFirst, hRest⟩ := hLeftmost
      have hLength := write_length_le k p
      have hThere : p.write <+: (left ++ (literal ++ (p.write ++ writeSegments segments tail))).drop
          (left ++ literal).length := by
        rw [← List.append_assoc left, List.drop_left]
        exact List.prefix_append _ _
      obtain ⟨i, hi, hFound⟩ := exists_indexOf (by simp) hThere
      obtain ⟨kept, rest, rfl, hText⟩ := indexOf_split hFound
      obtain ⟨_, hHere, hNone⟩ := (indexOf_eq_some_iff _ _ _).mp hFound
      rw [undisturbed_cons, writeSegments_cons, List.map_cons, replacementsFrom, originalPattern_param,
        replaceLoop_cons done _ hLength hFound hText]
      by_cases hEarly : kept.length < left.length
      · -- the rest of the text is unread as before, so the loop goes on
        have hSplit : kept ++ p.write ++ rest =
            left ++ literal ++ p.write ++ writeSegments segments tail := by
          simp only [List.append_assoc]
          exact hText.symm
        obtain ⟨more, _, rfl⟩ := append_split hSplit (by simp at hi ⊢; omega)
        obtain ⟨finalRoute, hFinal, _⟩ := ih hRest (k + 1)
          (done ++ (kept ++ (chunk k p.param).take p.write.length))
          ((chunk k p.param).drop p.write.length ++ more)
        rw [List.append_assoc (List.drop _ _)] at hFinal
        have hPrefix := replaceLoop_prefix (lengths_le (k + 1) segments) hFinal
        obtain ⟨start, hStart⟩ := p.write_eq
        obtain ⟨body, hBody⟩ := chunk_head k p.param
        refine ⟨finalRoute, hFinal, iff_of_false ?_ fun hUndisturbed =>
          hUndisturbed.1 kept.length hEarly hHere⟩
        rw [hStart] at hText
        rw [hStart, hBody] at hPrefix
        exact replacement_visible hText hEarly hPrefix
      · obtain ⟨rfl, rfl⟩ := found_in_place hFirst hText (by omega) hi
        obtain ⟨finalRoute, hFinal, hIff⟩ := ih hRest (k + 1)
          (done ++ (left ++ literal ++ (chunk k p.param).take p.write.length))
          ((chunk k p.param).drop p.write.length)
        have hPlaced : done ++ (left ++ assemble chunk k (scanned ((literal, p) :: segments)) tail) =
            done ++ (left ++ literal ++ (chunk k p.param).take p.write.length) ++
              ((chunk k p.param).drop p.write.length ++
                assemble chunk (k + 1) (scanned segments) tail) := by
          simp only [List.append_assoc]
          rw [← List.append_assoc (List.take _ _), List.take_append_drop]
          rfl
        refine ⟨finalRoute, hFinal, ?_⟩
        rw [hPlaced, hIff]
        exact ⟨fun hUndisturbed => ⟨fun j hj => hNone j (by simp; omega), hUndisturbed⟩, And.right⟩

/-- What is in the place of a placeholder, and what is before and after it. The
induction is over the segments, with the number of the first one. -/
theorem assemble_split (place : Nat → RouteParam → Bytes) (segments : List (Bytes × Option RouteParam))
    (tail : Bytes) (n k : Nat) {literal : Bytes} {param : RouteParam}
    (h : segments[k]? = some (literal, some param)) :
    assemble place n segments tail = assemble place n (segments.take k) literal ++
      (place (n + k) param ++ assemble place (n + k + 1) (segments.drop (k + 1)) tail) := by
  induction segments generalizing n k with
  | nil => simp at h
  | cons segment segments ih =>
      cases k with
      | zero =>
          obtain rfl := Option.some.inj h
          rfl
      | succ k =>
          have hRest := ih (n + 1) k h
          obtain ⟨before, other⟩ := segment
          simp only [assemble, List.take_succ_cons, List.drop_succ_cons, hRest, List.append_assoc]
          rw [Nat.add_right_comm n 1 k, ← Nat.add_assoc n k 1]

/-- Parameter `k` of a handler is the argument that is read from group `k`, counted
from the number of the first one. -/
theorem getHandlerArgs_getElem {conversions : Conversions} {matched : Match}
    {types : List RouteParamType} {args : List RouteArg} (n k : Nat) {type : RouteParamType}
    (h : conversions.getHandlerArgs matched n types = .ok args) (hType : types[k]? = some type) :
    ∃ arg, args[k]? = some arg ∧ conversions.getHandlerArg matched (n + k) type = .ok arg := by
  induction types generalizing n k args with
  | nil => simp at hType
  | cons first types ih =>
      rw [Conversions.getHandlerArgs] at h
      obtain ⟨arg, hArg, hOthers⟩ := (Throws.bind_eq_ok_iff _ _ _).mp h
      obtain ⟨others, hRest, hOk⟩ := (Throws.bind_eq_ok_iff _ _ _).mp hOthers
      obtain rfl := Except.ok.inj hOk
      cases k with
      | zero =>
          obtain rfl := Option.some.inj hType
          exact ⟨arg, rfl, hArg⟩
      | succ k =>
          obtain ⟨found, hFound, hValue⟩ := ih (n + 1) k hRest hType
          exact ⟨found, hFound, by rwa [Nat.add_assoc, Nat.add_comm 1 k] at hValue⟩

theorem getHandlerArg_congr (conversions : Conversions) {matched other : Match} {k : Nat}
    (h : matched (groupName k) = other (groupName k)) (type : RouteParamType) :
    conversions.getHandlerArg matched k type = conversions.getHandlerArg other k type := by
  cases type <;> simp [Conversions.getHandlerArg, Match.str, h]

/-- The parameters of the scanned segments are those of the placeholders. -/
theorem params_scanned (segments : List (Bytes × Placeholder)) :
    (scanned segments).filterMap (fun segment => segment.2) =
      segments.map fun segment => segment.2.param := by
  simp [scanned, List.filterMap_map]

/-- Once the scanning loop is through, the replacement loop completes: the
placeholders occur in order in what is left, however the chunks look. -/
theorem rewritePattern_completes {ρ : Type} {library : RegexLibrary ρ} {pattern : Bytes}
    {replacements : List (Bytes × Bytes)} {types : List RouteParamType}
    (h : scanLoop library (Regex.sregexIterator routeParser pattern).1 [] [] = .ok (replacements, types)) :
    ∃ finalRoute, rewritePattern library pattern = .ok (finalRoute, types) ∧
      (types.map some = (scan pattern).1.map fun segment => segment.2.map RouteParam.type) ∧
      (finalRoute = assemble chunk 0 (scan pattern).1 (scan pattern).2 ↔
        Undisturbed [] 0 (scan pattern).1 (scan pattern).2) := by
  obtain ⟨segments, tail, hPattern, hScan, hLeftmost⟩ := exists_scanned pattern
  obtain ⟨finalRoute, hFinal, hIff⟩ := replaceLoop_iff segments hLeftmost 0 [] []
  have hScanLoop := h
  rw [scanLoop_scan, hScan, params_scanned] at hScanLoop
  obtain ⟨rfl, rfl⟩ := Prod.mk.inj (foldlM_passOn_ok hScanLoop)
  refine ⟨finalRoute, ?_, ?_, ?_⟩
  · refine (Throws.bind_eq_ok_iff _ _ _).mpr ⟨_, h, (Throws.bind_eq_ok_iff _ _ _).mpr ⟨finalRoute, ?_, rfl⟩⟩
    rw [hPattern]
    exact hFinal
  · simp [hScan, scanned]
  · rw [hScan]
    exact hIff

/-- Where the group of placeholder `k` begins in the rewritten pattern. -/
def groupPlace (pattern : Bytes) (k : Nat) (literal : Bytes) (param : RouteParam) : Nat :=
  (assemble chunk 0 ((scan pattern).1.take k) literal).length + (chunkOpening param).length

section Groups

variable {ρ : Type} {library : RegexLibrary ρ} (groups : library.Groups)

/-- Of the groups that are read in a text, one alone has the name of parameter `k`, and
it begins at the place. -/
def OwnGroup (text : Bytes) (k place number : Nat) : Prop :=
  (groups.named text).zipIdx.filter (fun group => group.1.2 = groupName k) =
    [((place, groupName k), number)]

/-- What is written for a placeholder is read as its group, and no other group has
its name. -/
def OwnGroups (pattern : Bytes) : Prop :=
  let text := assemble chunk 0 (scan pattern).1 (scan pattern).2
  (∃ regex, library.compile text = .ok regex) → ∀ k literal param,
    (scan pattern).1[k]? = some (literal, some param) →
      ∃ number, OwnGroup groups text k (groupPlace pattern k literal param) number

/-- The replacement of placeholder `k` stands in its place, and the argument for
parameter `k` is read from what the group there has captured, whatever is matched. -/
structure ReadInPlace (pattern finalRoute : Bytes) (route : Route ρ) (k : Nat) (literal : Bytes)
    (param : RouteParam) : Prop where
  place : ∃ body after, chunk k param = chunkOpening param ++ (groupStart k ++ body) ∧
    finalRoute = assemble chunk 0 ((scan pattern).1.take k) literal ++ (chunk k param ++ after)
  group : ∃ number, OwnGroup groups finalRoute k (groupPlace pattern k literal param) number ∧
    ∀ (conversions : Conversions) path matched args,
      library.regexMatch path route.regex = .ok (some matched) →
        conversions.getHandlerArgs matched 0 route.handlerArgs = .ok args →
          ∃ arg, args[k]? = some arg ∧
            conversions.getHandlerArg (fun _ => groups.captured finalRoute path number) k param.type = .ok arg

/-- What a route pattern is to be compiled to: the pattern itself with the
replacement of each placeholder in its place, and the handler parameters in the
order of the placeholders. -/
structure Positional (pattern finalRoute : Bytes) (types : List RouteParamType) : Prop where
  whole : assemble original 0 (scan pattern).1 (scan pattern).2 = pattern
  text : finalRoute = assemble chunk 0 (scan pattern).1 (scan pattern).2
  kinds : types.map some = (scan pattern).1.map fun segment => segment.2.map RouteParam.type
  arguments : ∀ methods functionParams callable route,
    Route.create library pattern methods functionParams callable = .ok route →
      library.compile finalRoute = .ok route.regex ∧ ∀ k literal param,
        (scan pattern).1[k]? = some (literal, some param) →
          ReadInPlace groups pattern finalRoute route k literal param

end Groups

/-- An accepted route is compiled from the rewritten pattern, and its handler has
the types of the placeholders. -/
theorem create_ok {ρ : Type} {library : RegexLibrary ρ} {pattern finalRoute : Bytes}
    {types : List RouteParamType} (h : rewritePattern library pattern = .ok (finalRoute, types))
    {methods : List HTTPMethod} {functionParams : List RouteParamType} {callable : RouteCallable}
    {route : Route ρ} (hRoute : Route.create library pattern methods functionParams callable = .ok route) :
    library.compile finalRoute = .ok route.regex ∧ route.handlerArgs = types := by
  obtain ⟨regex, hParsed, rfl⟩ := Route.create_ok_iff.mp hRoute
  rw [parseRoutePattern_eq] at hParsed
  obtain ⟨rewritten, hRewritten, hCompile⟩ := (Throws.bind_eq_ok_iff _ _ _).mp hParsed
  obtain rfl := Except.ok.inj (h.symm.trans hRewritten)
  obtain ⟨compiled, hCompiled, hOk⟩ := (Throws.bind_eq_ok_iff _ _ _).mp hCompile
  obtain ⟨rfl, rfl⟩ := Prod.mk.inj (Except.ok.inj hOk)
  exact ⟨hCompiled, rfl⟩

/-- Whenever the rewritten pattern compiles, a route can be made of it. -/
theorem create_of_compile {ρ : Type} {library : RegexLibrary ρ} {pattern finalRoute : Bytes}
    {types : List RouteParamType} (h : rewritePattern library pattern = .ok (finalRoute, types)) {regex : ρ}
    (hCompile : library.compile finalRoute = .ok regex) (methods : List HTTPMethod) (callable : RouteCallable) :
    ∃ route, Route.create library pattern methods types callable = .ok route := by
  have hParsed : parseRoutePattern library pattern = .ok (regex, types) := by
    rw [parseRoutePattern_eq, h]
    exact (Throws.bind_eq_ok_iff _ _ _).mpr
      ⟨_, rfl, (Throws.bind_eq_ok_iff _ _ _).mpr ⟨regex, hCompile, rfl⟩⟩
  exact ⟨_, Route.create_ok_iff.mpr ⟨regex, hParsed, rfl⟩⟩

/-- Where a placeholder has a group of its own, its argument is read from there. No
other group of the name can have captured anything. -/
theorem readInPlace {ρ : Type} {library : RegexLibrary ρ} (groups : library.Groups)
    {pattern finalRoute : Bytes} (hText : finalRoute = assemble chunk 0 (scan pattern).1 (scan pattern).2)
    {route : Route ρ} (hCompile : library.compile finalRoute = .ok route.regex)
    (hKinds : route.handlerArgs.map some = (scan pattern).1.map fun segment => segment.2.map RouteParam.type)
    {k : Nat} {literal : Bytes} {param : RouteParam}
    (hSegment : (scan pattern).1[k]? = some (literal, some param)) {number : Nat}
    (hOwn : OwnGroup groups finalRoute k (groupPlace pattern k literal param) number) :
    ReadInPlace groups pattern finalRoute route k literal param := by
  constructor
  · obtain ⟨body, hChunk⟩ := chunk_eq k param
    have hSplit := assemble_split chunk (scan pattern).1 (scan pattern).2 0 k hSegment
    rw [Nat.zero_add] at hSplit
    exact ⟨body, _, hChunk, hText.trans hSplit⟩
  · refine ⟨number, hOwn, fun conversions path matched args hMatch hArgs => ?_⟩
    have hType : route.handlerArgs[k]? = some param.type := by
      have hKind := congrArg (fun kinds => kinds[k]?) hKinds
      simpa [hSegment] using hKind
    obtain ⟨arg, hArg, hRead⟩ := getHandlerArgs_getElem 0 k hArgs hType
    refine ⟨arg, hArg, ?_⟩
    rw [Nat.zero_add] at hRead
    rw [← hRead]
    exact getHandlerArg_congr conversions (groups.reported_only hCompile hMatch hOwn).symm param.type

/-- A pattern is compiled positionally, and its arguments are read from the groups in
the places of their placeholders, exactly when the replacement loop finds no
placeholder early and each of them has a group of its own. -/
theorem rewritePattern_positional_iff {ρ : Type} {library : RegexLibrary ρ} (groups : library.Groups)
    {pattern finalRoute : Bytes} {types : List RouteParamType}
    (h : rewritePattern library pattern = .ok (finalRoute, types)) :
    Positional groups pattern finalRoute types ↔
      Undisturbed [] 0 (scan pattern).1 (scan pattern).2 ∧ OwnGroups groups pattern := by
  obtain ⟨⟨replacements, scannedTypes⟩, hScanLoop, _⟩ := (Throws.bind_eq_ok_iff _ _ _).mp h
  obtain ⟨completed, hCompleted, hKinds, hIff⟩ := rewritePattern_completes hScanLoop
  obtain ⟨rfl, rfl⟩ := Prod.mk.inj (Except.ok.inj (hCompleted.symm.trans h))
  rw [← hIff]
  constructor
  · intro hPositional
    have hText := hPositional.text
    refine ⟨hText, ?_⟩
    rintro ⟨regex, hCompile⟩ k literal param hSegment
    rw [← hText] at hCompile ⊢
    obtain ⟨route, hRoute⟩ := create_of_compile h hCompile [] (.streaming (.ok none))
    obtain ⟨_, hRead⟩ := hPositional.arguments _ _ _ _ hRoute
    obtain ⟨number, hOwn, _⟩ := (hRead k literal param hSegment).group
    exact ⟨number, hOwn⟩
  · intro ⟨hText, hOwn⟩
    refine ⟨?_, hText, hKinds, ?_⟩
    · obtain ⟨segments, tail, hPattern, hScan, _⟩ := exists_scanned pattern
      rw [hScan, assemble_original, hPattern]
    · intro methods functionParams callable route hRoute
      obtain ⟨hCompile, hTypes⟩ := create_ok h hRoute
      refine ⟨hCompile, fun k literal param hSegment => ?_⟩
      obtain ⟨number, hNumber⟩ := hOwn ⟨_, hText ▸ hCompile⟩ k literal param hSegment
      rw [← hText] at hNumber
      exact readInPlace groups hText hCompile (hTypes ▸ hKinds) hSegment hNumber

/-- A pattern with an optional integer, a value and an integer, and what it is
rewritten to. -/
theorem rewritePattern_positional_example :
    Positional patternGroups (ascii "/\x7b\x7bi?:/\x7d\x7d\x7b\x7bs:a+\x7d\x7d/\x7b\x7bi\x7d\x7d")
      (ascii "/(?:(?<__0>[+-]?\\d+)/)?(?<__1>a+)/(?<__2>[+-]?\\d+)")
      [.optionalInt64, .string, .int64] := by
  have hScan : scan (ascii "/\x7b\x7bi?:/\x7d\x7d\x7b\x7bs:a+\x7d\x7d/\x7b\x7bi\x7d\x7d") =
      ([(ascii "/", some ⟨.optionalInt64, ascii "\x7b\x7bi?:/\x7d\x7d", [], ascii "/"⟩),
        ([], some ⟨.string, ascii "\x7b\x7bs:a+\x7d\x7d", ascii "a+", []⟩),
        (ascii "/", some ⟨.int64, ascii "\x7b\x7bi\x7d\x7d", [], []⟩)], []) := by decide
  refine (rewritePattern_positional_iff patternGroups (by decide)).mpr ⟨by decide, ?_⟩
  intro _ k literal param hSegment
  rw [hScan] at hSegment
  simp only [OwnGroup, groupPlace, hScan]
  match k with
  | 0 =>
      cases hSegment
      exact ⟨0, by decide⟩
  | 1 =>
      cases hSegment
      exact ⟨1, by decide⟩
  | 2 =>
      cases hSegment
      exact ⟨2, by decide⟩
  | k + 3 => cases hSegment

/-- The second placeholder is found in the end of the first replacement and what
follows it, so its group ends up inside that of the first. -/
theorem rewritePattern_misplaces :
    rewritePattern patternLibrary
        (ascii "/\x7b\x7bi?:\x7b\x7bi?:(x\x7d\x7dy\x7d\x7d\x7b\x7bi?:(x)?y\x7d\x7d)?") =
      .ok (ascii "/(?:(?<__0>[+-]?\\d+)(?:(?<__1>[+-]?\\d+)(x)?y)?\x7b\x7bi?:(x)?y\x7d\x7d)?",
        [.optionalInt64, .optionalInt64]) ∧
    ¬Positional patternGroups
        (ascii "/\x7b\x7bi?:\x7b\x7bi?:(x\x7d\x7dy\x7d\x7d\x7b\x7bi?:(x)?y\x7d\x7d)?")
        (ascii "/(?:(?<__0>[+-]?\\d+)(?:(?<__1>[+-]?\\d+)(x)?y)?\x7b\x7bi?:(x)?y\x7d\x7d)?")
        [.optionalInt64, .optionalInt64] := by
  refine ⟨by decide, fun hPositional => ?_⟩
  exact absurd hPositional.text (by decide)

end RouteParsing

end Nozomi
