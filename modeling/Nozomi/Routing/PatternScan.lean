import Mathlib.Data.List.Infix
import Nozomi.Routing.Placeholders

/-! What the scanning loop reads in a route pattern that was written as a
sequence of literal texts and placeholders. -/
namespace Nozomi

open Text

namespace RouteParsing

open Regex

/-- Whether the brackets of one kind are balanced, with `depth` of them open. -/
def balanced (opening closing : Byte) : Nat → Bytes → Bool
  | depth, [] => depth = 0
  | depth, c :: rest =>
      if c = opening then balanced opening closing (depth + 1) rest
      else if c = closing then 0 < depth && balanced opening closing (depth - 1) rest
      else balanced opening closing depth rest

/-- Whether every colon stands inside parentheses or brackets, with `depth` of
them open. -/
def colonsInside : Nat → Bytes → Bool
  | _, [] => true
  | depth, c :: rest =>
      if c = 0x28 ∨ c = 0x5B then colonsInside (depth + 1) rest
      else if c = 0x29 ∨ c = 0x5D then colonsInside (depth - 1) rest
      else (c ≠ colon || 0 < depth) && colonsInside depth rest

/-- A regular expression that may be written inside a placeholder. -/
structure RegexText (text : Bytes) : Prop where
  nonempty : text ≠ []
  parentheses : balanced 0x28 0x29 0 text = true
  brackets : balanced 0x5B 0x5D 0 text = true
  braces : balanced openBrace closeBrace 0 text = true
  noClosing : ¬closing <:+: text

instance (text : Bytes) : Decidable (RegexText text) :=
  decidable_of_iff (text ≠ [] ∧ balanced 0x28 0x29 0 text = true ∧ balanced 0x5B 0x5D 0 text = true ∧
      balanced openBrace closeBrace 0 text = true ∧ ¬closing <:+: text)
    ⟨fun h => ⟨h.1, h.2.1, h.2.2.1, h.2.2.2.1, h.2.2.2.2⟩,
      fun h => ⟨h.nonempty, h.parentheses, h.brackets, h.braces, h.noClosing⟩⟩

/-- A value is not a single closing brace, which would end its chunk too early. -/
theorem RegexText.ne_closeBrace {text : Bytes} (h : RegexText text) : text ≠ [closeBrace] := by
  rintro rfl
  exact absurd h.braces (by decide)

/-- A value whose colons are all inside of groups does not begin with a colon. -/
theorem colonsInside_head {text : Bytes} (h : colonsInside 0 text = true) : text.head? ≠ some colon := by
  cases text with
  | nil => simp
  | cons c rest =>
      intro hHead
      obtain rfl := Option.some.inj hHead
      simp [colonsInside, colon] at h

/-- A colon at the end would stand outside, since nothing is open there. The induction
is over the text, with the groups and sets that are open. -/
theorem colonsInside_getLast {text : Bytes} {parentheses brackets : Nat}
    (hParentheses : balanced 0x28 0x29 parentheses text = true)
    (hBrackets : balanced 0x5B 0x5D brackets text = true)
    (hColons : colonsInside (parentheses + brackets) text = true) : text.getLast? ≠ some colon := by
  induction text generalizing parentheses brackets with
  | nil => simp
  | cons c rest ih =>
      cases rest with
      | nil =>
          intro hLast
          obtain rfl := Option.some.inj hLast
          simp [balanced, colon] at hParentheses hBrackets
          simp [colonsInside, colon, hParentheses, hBrackets] at hColons
      | cons d rest =>
          rw [List.getLast?_cons_cons]
          rw [balanced] at hParentheses hBrackets
          rw [colonsInside] at hColons
          by_cases hBracket : c = 0x28 ∨ c = 0x29 ∨ c = 0x5B ∨ c = 0x5D
          · rcases hBracket with rfl | rfl | rfl | rfl
            · exact ih (by simpa using hParentheses)
                (by simpa using hBrackets) (by simpa [Nat.add_right_comm] using hColons)
            · obtain ⟨hOpen, hInner⟩ : 0 < parentheses ∧
                  balanced 0x28 0x29 (parentheses - 1) (d :: rest) = true := by simpa using hParentheses
              rw [Nat.sub_add_comm hOpen] at hColons
              exact ih hInner (by simpa using hBrackets) (by simpa using hColons)
            · exact ih (by simpa using hParentheses)
                (by simpa using hBrackets) (by simpa [Nat.add_assoc] using hColons)
            · obtain ⟨hOpen, hInner⟩ : 0 < brackets ∧
                  balanced 0x5B 0x5D (brackets - 1) (d :: rest) = true := by simpa using hBrackets
              rw [Nat.add_sub_assoc hOpen] at hColons
              exact ih (by simpa using hParentheses) hInner (by simpa using hColons)
          · simp only [not_or] at hBracket
            simp only [hBracket, if_false, or_false, Bool.and_eq_true] at hParentheses hBrackets hColons
            exact ih hParentheses hBrackets hColons.2

/-- The two closing braces as a list, for the lemmas that take them apart. -/
theorem closing_eq : closing = [closeBrace, closeBrace] := rfl

/-- A text that holds no closing braces, and whose last byte does not begin any,
does not begin with closing braces either, whatever follows it. -/
theorem dropPrefix_closing_eq_none {text after : Bytes} (hNil : text ≠ [])
    (hNoClosing : ¬closing <:+: text)
    (hEnd : text.getLast? ≠ some closeBrace ∨ after.head? ≠ some closeBrace) :
    dropPrefix closing (text ++ after) = none := by
  rw [Option.eq_none_iff_forall_ne_some]
  intro last hLast
  have hText := (dropPrefix_eq_some_iff _ _ _).mp hLast
  rw [closing_eq] at hText
  cases text with
  | nil => exact hNil rfl
  | cons c text =>
      cases text with
      | nil =>
          obtain ⟨rfl, hAfter⟩ := List.cons.inj hText
          rcases hEnd with hEnd | hEnd
          · exact hEnd rfl
          · exact hEnd (by rw [show after = closeBrace :: last from hAfter]; rfl)
      | cons d text =>
          simp only [List.cons_append, List.cons.injEq] at hText
          obtain ⟨rfl, rfl, _⟩ := hText
          exact hNoClosing ⟨[], text, by simp [closing_eq]⟩

theorem RegexText.noClosing_suffix {text before after : Bytes} (h : RegexText text)
    (hSplit : text = before ++ after) : ¬closing <:+: after :=
  fun hInfix => h.noClosing (hSplit ▸ hInfix.trans (List.suffix_append before after).isInfix)

/-- The lazy match of a value stops at the first closing braces. These are the ones
after the value exactly if the value does not end in a brace, which would begin them
one byte earlier. -/
theorem closing_first_iff {text : Bytes} (h : RegexText text) (rest : Bytes) :
    (∀ shorter more, shorter ≠ [] → more ≠ [] → text = shorter ++ more →
      dropPrefix closing (more ++ (closing ++ rest)) = none) ↔ text.getLast? ≠ some closeBrace := by
  constructor
  · intro hNone hLast
    obtain ⟨shorter, rfl⟩ := List.getLast?_eq_some_iff.mp hLast
    have hShorter : shorter ≠ [] := by
      rintro rfl
      exact h.ne_closeBrace rfl
    exact absurd (hNone shorter [closeBrace] hShorter (by simp) rfl) (by simp [closing_eq, dropPrefix])
  · intro hLast shorter more hShorter hMore hSplit
    refine dropPrefix_closing_eq_none hMore (h.noClosing_suffix hSplit) (Or.inl ?_)
    rwa [hSplit, List.getLast?_append_of_ne_nil _ hMore] at hLast

/-- A text is read up to the closing braces unless it ends with one of its own. -/
theorem lazyRun_closing_iff {Result : Type} (result : Bytes → Bytes → Result) {text : Bytes}
    (h : RegexText text) (rest : Bytes)
    (hOnly : ∀ other after, result other after = result text rest → other = text) :
    lazyRun (fun used after => (dropPrefix closing after).bind fun last => some (result used last))
      (text ++ (closing ++ rest)) = some (result text rest) ↔ text.getLast? ≠ some closeBrace := by
  rw [← closing_first_iff h rest, lazyRun_append_iff h.nonempty]
  · simp only [dropPrefix_append, Option.bind_some, true_and, Option.bind_eq_none_iff, reduceCtorEq,
      imp_false]
    simp only [Option.eq_none_iff_forall_ne_some, ne_eq]
  · intro other after hResult
    obtain ⟨last, _, hLast⟩ := Option.bind_eq_some_iff.mp hResult
    exact hOnly other last (Option.some.inj hLast)

namespace Placeholder

def WellFormed : Placeholder → Prop
  | int | double => True
  | optionalInt consumed | optionalDouble consumed => ∀ text ∈ consumed, RegexText text
  | string value => RegexText value
  | optionalString value consumed =>
      RegexText value ∧ colonsInside 0 value = true ∧ ∀ text ∈ consumed, RegexText text

/-- The text before the closing braces does not end with one, and the first
text of an optional string has no colon. -/
def Delimited : Placeholder → Prop
  | int | double => True
  | optionalInt consumed | optionalDouble consumed =>
      ∀ text ∈ consumed, text.getLast? ≠ some closeBrace
  | string value => value.getLast? ≠ some closeBrace
  | optionalString value consumed =>
      colon ∉ value ∧ (consumed.getD value).getLast? ≠ some closeBrace

instance : DecidablePred WellFormed
  | int | double => inferInstanceAs (Decidable True)
  | optionalInt consumed | optionalDouble consumed =>
      inferInstanceAs (Decidable (∀ text ∈ consumed, RegexText text))
  | string value => inferInstanceAs (Decidable (RegexText value))
  | optionalString value consumed => inferInstanceAs (Decidable
      (RegexText value ∧ colonsInside 0 value = true ∧ ∀ text ∈ consumed, RegexText text))

instance : DecidablePred Delimited
  | int | double => inferInstanceAs (Decidable True)
  | optionalInt consumed | optionalDouble consumed =>
      inferInstanceAs (Decidable (∀ text ∈ consumed, text.getLast? ≠ some closeBrace))
  | string value => inferInstanceAs (Decidable (value.getLast? ≠ some closeBrace))
  | optionalString value consumed => inferInstanceAs (Decidable
      (colon ∉ value ∧ (consumed.getD value).getLast? ≠ some closeBrace))

/-- A well formed placeholder has a value wherever its syntax has a place for one. -/
theorem WellFormed.filled {p : Placeholder} (h : p.WellFormed) : p.Filled := by
  have hConsumed : ∀ {consumed : Option Bytes}, (∀ text ∈ consumed, RegexText text) →
      consumed ≠ some [] := fun hTexts hEmpty => (hTexts [] hEmpty).nonempty rfl
  cases p with
  | int | double => trivial
  | optionalInt consumed | optionalDouble consumed => exact hConsumed h
  | string value => exact RegexText.nonempty h
  | optionalString value consumed => exact ⟨h.1.nonempty, hConsumed h.2.2⟩

/-- What is passed on for a placeholder determines it. -/
theorem param_injective {p q : Placeholder} (hFilled : p.Filled) (hOther : q.Filled)
    (h : p.param = q.param) : p = q := by
  have hConsumed : ∀ {consumed other : Option Bytes}, consumed ≠ some [] → other ≠ some [] →
      consumed.getD [] = other.getD [] → consumed = other := by
    intro consumed other hNonempty hOtherNonempty hText
    cases consumed <;> cases other <;> simp_all
  cases p <;> cases q <;> simp only [param, RouteParam.mk.injEq, reduceCtorEq, false_and] at h
  case int.int | double.double => rfl
  case optionalInt.optionalInt | optionalDouble.optionalDouble =>
      rw [hConsumed hFilled hOther h.2.2.2]
  case string.string => rw [h.2.2.1]
  case optionalString.optionalString =>
      rw [h.2.2.1, hConsumed hFilled.2 hOther.2 h.2.2.2]

section Runs

/-- What the rest of an alternative is followed by. -/
def opened (name : RouteGroup) (start : Bytes) (captures : Captures RouteGroup) (used after : Bytes) :
    Captures RouteGroup × Bytes × Bytes :=
  ((name, start ++ used) :: captures, start ++ used, after)

/-- What a chunk has used can be read off its captures, as the text of its own
group. -/
theorem opened_used {name : RouteGroup} {start : Bytes} {captures others : Captures RouteGroup}
    {used after more last : Bytes}
    (h : opened name start captures used after = opened name start others more last) : used = more :=
  List.append_cancel_left (congrArg (fun found => found.2.1) h)

/-- A chunk that begins with a literal text is matched after this text, under its
name. -/
theorem matchAt_group (name : RouteGroup) (start : Bytes) (body : Regex RouteGroup) (rest : Bytes) :
    (group name (seq (literal start) body)).matchAt (start ++ rest) =
      body.run (fun captures used after => some (opened name start captures used after)) rest := by
  simp [matchAt, run, opened]

variable (rest : Bytes)

/-- An optional integer is the only kind of chunk that begins with these bytes, so
that the alternatives of the parser before and after it are of no account. -/
theorem matchAt_optionalInt : routeParser.matchAt (ascii "\x7b\x7bi?" ++ rest) =
    (seq (afterColon .optionalIntRegex) (literal closing)).run (fun captures used after =>
      some (opened .optionalInt (ascii "\x7b\x7bi?") captures used after)) rest := by
  rw [← matchAt_group]
  exact Option.or_none

theorem matchAt_optionalDouble : routeParser.matchAt (ascii "\x7b\x7bd?" ++ rest) =
    (seq (afterColon .optionalDoubleRegex) (literal closing)).run (fun captures used after =>
      some (opened .optionalDouble (ascii "\x7b\x7bd?") captures used after)) rest := by
  rw [← matchAt_group]
  exact Option.or_none

/-- A string chunk ends at the first closing braces after its value, as the value is
lazy. -/
theorem matchAt_string : routeParser.matchAt (ascii "\x7b\x7bs:" ++ rest) =
    lazyRun (fun used after => (dropPrefix closing after).bind fun last =>
      some (opened .string (ascii "\x7b\x7bs:") [(.stringRegex, used)] (used ++ closing) last)) rest := by
  have hGroup := matchAt_group .string (ascii "\x7b\x7bs:") (seq (group .stringRegex anyLazy)
    (literal closing)) rest
  exact Option.or_none.trans hGroup

/-- What follows the first text of an optional string. -/
def afterValue (value after : Bytes) : Option (Captures RouteGroup × Bytes × Bytes) :=
  (seq (afterColon .optionalStringConsumed) (literal closing)).run (fun captures used last =>
    some (opened .optionalString (ascii "\x7b\x7bs?:") ((.optionalStringRegex, value) :: captures)
      (value ++ used) last)) after

/-- An optional string chunk tries every end of its value in turn, and what may
stand between the value and the closing braces is tried at each. -/
theorem matchAt_optionalString :
    routeParser.matchAt (ascii "\x7b\x7bs?:" ++ rest) = lazyRun afterValue rest :=
  matchAt_group .optionalString (ascii "\x7b\x7bs?:") (seq (group .optionalStringRegex anyLazy)
    (seq (afterColon .optionalStringConsumed) (literal closing))) rest

end Runs

/-- What comes after a colon is read for consuming, if it is written. Otherwise the
closing braces follow at once. -/
theorem run_afterColon_iff {Result : Type} (result : Captures RouteGroup → Bytes → Bytes → Result)
    {consumed : Option Bytes} (hConsumed : ∀ text ∈ consumed, RegexText text) (name : RouteGroup)
    (rest : Bytes)
    (hOnly : ∀ captures used after others more last,
      result captures used after = result others more last → used = more) :
    (seq (afterColon name) (literal closing)).run
      (fun captures used after => some (result captures used after))
      (colonText consumed ++ (closing ++ rest)) =
        some (result (consumedCapture name consumed) (colonText consumed ++ closing) rest) ↔
          ∀ text ∈ consumed, text.getLast? ≠ some closeBrace := by
  cases consumed with
  | none => exact iff_of_true rfl (by simp)
  | some consumed =>
      simp only [Option.mem_some_iff, forall_eq']
      rw [← lazyRun_closing_iff
        (fun used last => result [(name, used)] (colon :: used ++ closing) last)
        (hConsumed consumed rfl) rest]
      · have hColon : ∀ text, dropPrefix (ascii ":") (colon :: text) = some text := fun _ => rfl
        have hAbsent : ∀ text, dropPrefix closing (colon :: text) = none := fun _ => rfl
        simp only [afterColon, run, colonText, List.cons_append, hColon, hAbsent, Option.bind_some,
          Option.bind_none, Option.or_none]
        rfl
      · intro other after hResult
        simpa using hOnly _ _ _ _ _ _ hResult

/-- Where the alternatives of an optional string leave the first text: neither closing
braces nor a colon with a text before them stand there. -/
theorem run_afterColon_eq_none_iff {Result : Type}
    (result : Captures RouteGroup → Bytes → Bytes → Result) (name : RouteGroup) {more : Bytes}
    (hMore : more ≠ []) (hLast : more.getLast? ≠ some colon) {consumed : Option Bytes} (rest : Bytes) :
    (seq (afterColon name) (literal closing)).run
      (fun captures used after => some (result captures used after))
      (more ++ (colonText consumed ++ (closing ++ rest))) = none ↔
        more.head? ≠ some colon ∧
          dropPrefix closing (more ++ (colonText consumed ++ (closing ++ rest))) = none := by
  cases more with
  | nil => exact absurd rfl hMore
  | cons c more =>
      by_cases hColon : c = colon
      · subst hColon
        have hNil : more ≠ [] := by
          rintro rfl
          exact hLast rfl
        have hMatch : Matches (seq (afterColon name) (literal closing))
            (colonText (some (more ++ colonText consumed)) ++ closing)
            (consumedCapture name (some (more ++ colonText consumed)) ++ []) :=
          .seq ((matches_afterColon name _ _).mpr ⟨_, by simp [hNil], rfl, rfl⟩) (.literal closing)
        have hRun := run_complete hMatch
          (fun captures used after => some (result captures used after)) rest rfl
        have hText : colonText (some (more ++ colonText consumed)) ++ closing ++ rest =
            colon :: more ++ (colonText consumed ++ (closing ++ rest)) := by simp [colonText]
        rw [hText, Option.isSome_iff_ne_none] at hRun
        exact iff_of_false hRun (fun hNone => hNone.1 rfl)
      · have hBody : ∀ text, dropPrefix (ascii ":") (c :: text) = none := fun text =>
          if_neg (Ne.symm hColon)
        simp only [afterColon, run, List.cons_append, hBody, Option.bind_none, Option.none_or,
          Option.bind_eq_none_iff, reduceCtorEq, imp_false]
        simp [hColon, Option.eq_none_iff_forall_ne_some]

/-- What the scanning loop has to find at a placeholder. -/
abbrev HeadMatch (p : Placeholder) (rest : Bytes) : Prop :=
  routeParser.matchAt (p.write ++ rest) = some (p.captures, p.write, rest)

/-- An optional integer is recognised at the head of a text exactly if what it
consumes does not run into its closing braces. -/
theorem headMatch_optionalInt {consumed : Option Bytes} (h : ∀ text ∈ consumed, RegexText text)
    (rest : Bytes) :
    (optionalInt consumed).HeadMatch rest ↔ ∀ text ∈ consumed, text.getLast? ≠ some closeBrace := by
  rw [← run_afterColon_iff (opened .optionalInt (ascii "\x7b\x7bi?")) h .optionalIntRegex rest
    (fun _ _ _ _ _ _ => opened_used), ← matchAt_optionalInt]
  simp [HeadMatch, write, captures, opened]

theorem headMatch_optionalDouble {consumed : Option Bytes} (h : ∀ text ∈ consumed, RegexText text)
    (rest : Bytes) :
    (optionalDouble consumed).HeadMatch rest ↔ ∀ text ∈ consumed, text.getLast? ≠ some closeBrace := by
  rw [← run_afterColon_iff (opened .optionalDouble (ascii "\x7b\x7bd?")) h .optionalDoubleRegex rest
    (fun _ _ _ _ _ _ => opened_used), ← matchAt_optionalDouble]
  simp [HeadMatch, write, captures, opened]

/-- A string chunk is recognised at the head of a text exactly if its value does not
run into its closing braces. -/
theorem headMatch_string {value : Bytes} (h : RegexText value) (rest : Bytes) :
    (string value).HeadMatch rest ↔ value.getLast? ≠ some closeBrace := by
  rw [← lazyRun_closing_iff (fun used last =>
    opened .string (ascii "\x7b\x7bs:") [(.stringRegex, used)] (used ++ closing) last) h rest
    (fun _ _ hOpened => List.append_cancel_right (opened_used hOpened)), ← matchAt_string]
  simp [HeadMatch, write, captures, opened]

/-- No colon is met before the end of a text that does not begin with one. -/
theorem colon_first_iff {value : Bytes} (hHead : value.head? ≠ some colon) :
    (∀ shorter more, shorter ≠ [] → more ≠ [] → value = shorter ++ more →
      more.head? ≠ some colon) ↔ colon ∉ value := by
  constructor
  · intro hFirst hColon
    obtain ⟨before, after, rfl⟩ := List.append_of_mem hColon
    have hBefore : before ≠ [] := by
      rintro rfl
      exact hHead rfl
    exact hFirst before (colon :: after) hBefore (by simp) rfl rfl
  · rintro hColon shorter more _ _ rfl hMore
    exact hColon (List.mem_append_right _ (List.mem_of_head? hMore))

/-- The first text of an optional string is cut at a colon, and at closing braces
only if it stands directly before them. -/
theorem afterValue_first_iff {value : Bytes} (h : RegexText value) (hColons : colonsInside 0 value = true)
    (consumed : Option Bytes) (rest : Bytes) :
    (∀ shorter more, shorter ≠ [] → more ≠ [] → value = shorter ++ more →
      afterValue shorter (more ++ (colonText consumed ++ (closing ++ rest))) = none) ↔
        colon ∉ value ∧ (consumed = none → value.getLast? ≠ some closeBrace) := by
  have hNone : ∀ shorter more, more ≠ [] → value = shorter ++ more →
      (afterValue shorter (more ++ (colonText consumed ++ (closing ++ rest))) = none ↔
        more.head? ≠ some colon ∧
          dropPrefix closing (more ++ (colonText consumed ++ (closing ++ rest))) = none) := by
    intro shorter more hMore hSplit
    apply run_afterColon_eq_none_iff _ _ hMore
    have hLast := colonsInside_getLast h.parentheses h.brackets hColons
    rwa [hSplit, List.getLast?_append_of_ne_nil _ hMore] at hLast
  have hFirst := colon_first_iff (colonsInside_head hColons)
  constructor
  · intro hShorter
    constructor
    · apply hFirst.mp
      intro shorter more hNil hMore hSplit
      exact ((hNone shorter more hMore hSplit).mp (hShorter shorter more hNil hMore hSplit)).1
    · rintro rfl
      apply (closing_first_iff h rest).mp
      intro shorter more hNil hMore hSplit
      exact ((hNone shorter more hMore hSplit).mp (hShorter shorter more hNil hMore hSplit)).2
  · rintro ⟨hColon, hLast⟩ shorter more hNil hMore hSplit
    refine (hNone shorter more hMore hSplit).mpr ⟨hFirst.mpr hColon shorter more hNil hMore hSplit, ?_⟩
    cases consumed with
    | none => exact (closing_first_iff h rest).mpr (hLast rfl) shorter more hNil hMore hSplit
    | some text =>
        apply dropPrefix_closing_eq_none hMore (h.noClosing_suffix hSplit)
        exact Or.inr (by simp [colonText, colon, closeBrace])

/-- An optional string chunk is recognised exactly if it is delimited: neither its
value nor what it consumes runs into what follows. -/
theorem headMatch_optionalString {value : Bytes} {consumed : Option Bytes}
    (h : (optionalString value consumed).WellFormed) (rest : Bytes) :
    (optionalString value consumed).HeadMatch rest ↔
      (optionalString value consumed).Delimited := by
  obtain ⟨hValue, hColons, hConsumed⟩ := h
  have hRun : (optionalString value consumed).HeadMatch rest ↔
      lazyRun afterValue (value ++ (colonText consumed ++ (closing ++ rest))) =
        some (opened .optionalString (ascii "\x7b\x7bs?:")
          ((.optionalStringRegex, value) :: consumedCapture .optionalStringConsumed consumed)
          (value ++ (colonText consumed ++ closing)) rest) := by
    rw [← matchAt_optionalString]
    simp [HeadMatch, write, captures, opened]
  have hWhole := run_afterColon_iff (fun captures used last =>
    opened .optionalString (ascii "\x7b\x7bs?:") ((.optionalStringRegex, value) :: captures)
      (value ++ used) last) hConsumed .optionalStringConsumed rest
      (fun _ _ _ _ _ _ hOpened => List.append_cancel_left (opened_used hOpened))
  rw [hRun, lazyRun_append_iff hValue.nonempty, afterValue_first_iff hValue hColons, afterValue, hWhole]
  · cases consumed <;> simp [Delimited, and_comm]
  · intro other after hOther
    obtain ⟨captures, used, last, _, _, hFound⟩ := run_sound hOther
    simp only [opened, Option.some.injEq, Prod.mk.injEq, List.cons.injEq] at hFound
    exact hFound.1.2.1.2

/-- Well formed placeholders are recognised at the head of a text exactly if they
are delimited. The cases are the kinds of placeholders, each by its own lemma. -/
theorem headMatch_iff {p : Placeholder} (h : p.WellFormed) (rest : Bytes) :
    p.HeadMatch rest ↔ p.Delimited := by
  cases p with
  | int | double => exact iff_of_true rfl trivial
  | optionalInt consumed => exact headMatch_optionalInt h rest
  | optionalDouble consumed => exact headMatch_optionalDouble h rest
  | string value => exact headMatch_string h rest
  | optionalString value consumed => exact headMatch_optionalString h rest

/-- What is passed on at a placeholder is its own data exactly when the match
ends where the placeholder does. -/
theorem routeParam_matchAt {p : Placeholder} (h : p.WellFormed) {rest used after : Bytes}
    {found : Captures RouteGroup}
    (hFound : routeParser.matchAt (p.write ++ rest) = some (found, used, after)) :
    (routeParam found = some p.param ↔ p.Delimited) ∧ (p.Delimited → after = rest) := by
  obtain ⟨hText, hMatch⟩ := matchAt_sound hFound
  obtain ⟨q, hFilled, hUsed, hCaptures⟩ := (matches_routeParser used found).mp hMatch
  have hOwn : p.Delimited → found = p.captures ∧ after = rest := by
    intro hDelimited
    have hHead := hFound.symm.trans ((headMatch_iff h rest).mpr hDelimited)
    simp only [Option.some.injEq, Prod.mk.injEq] at hHead
    exact ⟨hHead.1, hHead.2.2⟩
  refine ⟨⟨?_, fun hDelimited => ?_⟩, fun hDelimited => (hOwn hDelimited).2⟩
  · intro hParam
    rw [hCaptures, routeParam_captures, Option.some.injEq] at hParam
    obtain rfl := param_injective hFilled h.filled hParam
    have hRest : rest = after := List.append_cancel_left (hUsed ▸ hText)
    rw [← headMatch_iff h rest, HeadMatch, hFound, hCaptures, hUsed, hRest]
  · rw [(hOwn hDelimited).1, routeParam_captures]

end Placeholder

/-- The literal texts around the matches of a pattern, and what the scanning
loop passes on for each match. -/
def scan (pattern : Bytes) : List (Bytes × Option RouteParam) × Bytes :=
  ((sregexIterator routeParser pattern).1.map fun found => (found.before, routeParam found.captures),
    (sregexIterator routeParser pattern).2)

/-- The work of the loop on one match. -/
def passOn {ρ : Type} (library : RegexLibrary ρ) (done : List (Bytes × Bytes) × List RouteParamType)
    (param : RouteParam) : Throws (List (Bytes × Bytes) × List RouteParamType) := do
  let replacement ← routeToRegex library done.1.length param
  return (done.1 ++ [replacement], done.2 ++ [param.type])

/-- The loop over the matches is a fold over the parameters that they stand for, as
a match that stands for none leaves the accumulators as they are. -/
theorem scanLoop_eq_foldlM {ρ : Type} (library : RegexLibrary ρ) (founds : List (Found RouteGroup))
    (replacements : List (Bytes × Bytes)) (types : List RouteParamType) :
    scanLoop library founds replacements types =
      (founds.filterMap fun found => routeParam found.captures).foldlM (passOn library)
        (replacements, types) := by
  induction founds generalizing replacements types with
  | nil => rfl
  | cons found founds ih =>
      rw [scanLoop_unfold, List.filterMap_cons]
      cases routeParam found.captures with
      | none => exact ih replacements types
      | some param => simp only [List.foldlM_cons, passOn, bind_assoc, pure_bind, ih]

/-- What `route_to_regex` is called with is what is listed, in that order. -/
theorem scanLoop_scan {ρ : Type} (library : RegexLibrary ρ) (pattern : Bytes) :
    scanLoop library (sregexIterator routeParser pattern).1 [] [] =
      ((scan pattern).1.filterMap fun segment => segment.2).foldlM (passOn library) ([], []) := by
  rw [scanLoop_eq_foldlM, scan, List.filterMap_map]
  rfl

/-- A pattern is written as literal texts, each followed by a placeholder, and a
last literal text. -/
def writeSegments (segments : List (Bytes × Placeholder)) (tail : Bytes) : Bytes :=
  segments.flatMap (fun segment => segment.1 ++ segment.2.write) ++ tail

/-- No literal text has two opening braces, and none ends with one that would run
together with those of a placeholder. Closing braces in it do no harm. -/
structure WellFormed (segments : List (Bytes × Placeholder)) (tail : Bytes) : Prop where
  literals : ∀ segment ∈ segments, ¬[openBrace, openBrace] <:+: segment.1 ++ [openBrace]
  placeholders : ∀ segment ∈ segments, segment.2.WellFormed
  tail : ¬[openBrace, openBrace] <:+: tail

instance (segments : List (Bytes × Placeholder)) (tail : Bytes) : Decidable (WellFormed segments tail) :=
  decidable_of_iff ((∀ segment ∈ segments, ¬[openBrace, openBrace] <:+: segment.1 ++ [openBrace]) ∧
      (∀ segment ∈ segments, segment.2.WellFormed) ∧ ¬[openBrace, openBrace] <:+: tail)
    ⟨fun h => ⟨h.1, h.2.1, h.2.2⟩, fun h => ⟨h.literals, h.placeholders, h.tail⟩⟩

/-- The parser finds no chunk in a literal text without two opening braces in a row,
so that its search goes on to the placeholder after it. -/
theorem search_write {literal : Bytes} (h : ¬[openBrace, openBrace] <:+: literal ++ [openBrace])
    (p : Placeholder) (rest : Bytes) :
    routeParser.search (literal ++ (p.write ++ rest)) =
      (routeParser.search (p.write ++ rest)).map fun found =>
        { found with before := literal ++ found.before } := by
  apply search_append
  intro before more _ hSplit
  apply matchAt_eq_none
  intro hPrefix
  apply h
  obtain ⟨text, hWrite⟩ := p.write_eq
  have hStart : more ++ [openBrace] <+: more ++ (p.write ++ rest) :=
    ⟨openBrace :: text ++ rest, by simp [hWrite]⟩
  cases more with
  | nil => contradiction
  | cons c more =>
      have hInside := List.prefix_of_prefix_length_le hPrefix hStart (by simp)
      rw [hSplit, List.append_assoc]
      exact hInside.isInfix.trans (List.suffix_append before _).isInfix

/-- Nothing is found in a literal text without two opening braces in a row. -/
theorem search_literal {literal : Bytes} (h : ¬[openBrace, openBrace] <:+: literal) :
    routeParser.search literal = none := by
  have hNone : ∀ before more, more ≠ [] → literal = before ++ more →
      routeParser.matchAt (more ++ []) = none := by
    intro before more _ hSplit
    apply matchAt_eq_none
    intro hPrefix
    apply h
    rw [List.append_nil] at hPrefix
    rw [hSplit]
    exact hPrefix.isInfix.trans (List.suffix_append before more).isInfix
  have hSkip := search_append literal [] hNone
  rw [List.append_nil] at hSkip
  rw [hSkip, search_nil (matchAt_eq_none (by simp)), Option.map_none]

/-- One placeholder of a pattern, and the rest of it. -/
theorem scan_write {literal : Bytes} (h : ¬[openBrace, openBrace] <:+: literal ++ [openBrace])
    {p : Placeholder} {rest used after : Bytes} {found : Captures RouteGroup}
    (hFound : routeParser.matchAt (p.write ++ rest) = some (found, used, after)) :
    scan (literal ++ (p.write ++ rest)) =
      ((literal, routeParam found) :: (scan after).1, (scan after).2) := by
  have hSearch : routeParser.search (literal ++ (p.write ++ rest)) =
      some ⟨literal ++ [], found, used, after⟩ := by
    rw [search_write h, search_of_matchAt hFound, Option.map_some]
  rw [scan, sregexIterator_some not_matches_nil hSearch, List.append_nil]
  rfl

/-- A pattern is read back as it was written exactly when all of its
placeholders are delimited. -/
theorem scan_writeSegments_iff {segments : List (Bytes × Placeholder)} {tail : Bytes}
    (h : WellFormed segments tail) :
    scan (writeSegments segments tail) =
        (segments.map fun segment => (segment.1, some segment.2.param), tail) ↔
      ∀ segment ∈ segments, segment.2.Delimited := by
  induction segments with
  | nil =>
      have hScan : scan tail = ([], tail) := by
        rw [scan, sregexIterator_none (search_literal h.tail)]
        rfl
      simp [writeSegments, hScan]
  | cons segment segments ih =>
      obtain ⟨literal, p⟩ := segment
      have hRest : WellFormed segments tail :=
        ⟨fun other hOther => h.literals other (List.mem_cons_of_mem _ hOther),
          fun other hOther => h.placeholders other (List.mem_cons_of_mem _ hOther), h.tail⟩
      have hWrite : writeSegments ((literal, p) :: segments) tail =
          literal ++ (p.write ++ writeSegments segments tail) := by simp [writeSegments]
      have hSome : (routeParser.matchAt (p.write ++ writeSegments segments tail)).isSome = true :=
        matchAt_complete ((Placeholder.matches_routeParser _ _).mpr
          ⟨p, (h.placeholders _ (List.mem_cons_self ..)).filled, rfl, rfl⟩) _
      obtain ⟨⟨found, used, after⟩, hFound⟩ := Option.isSome_iff_exists.mp hSome
      obtain ⟨hParam, hAfter⟩ :=
        Placeholder.routeParam_matchAt (h.placeholders _ (List.mem_cons_self ..)) hFound
      rw [hWrite, scan_write (h.literals _ (List.mem_cons_self ..)) hFound, List.forall_mem_cons,
        ← ih hRest, ← hParam]
      simp only [List.map_cons, List.cons.injEq, true_and, Prod.ext_iff]
      constructor
      · rintro ⟨⟨hHere, hFirst⟩, hSecond⟩
        rw [hAfter (hParam.mp hHere)] at hFirst hSecond
        exact ⟨hHere, hFirst, hSecond⟩
      · rintro ⟨hHere, hFirst, hSecond⟩
        rw [hAfter (hParam.mp hHere)]
        exact ⟨⟨hHere, hFirst⟩, hSecond⟩

/-- Segments whose texts have brackets and colons of their own. -/
theorem scan_writeSegments_example :
    let segments := [(ascii "/", Placeholder.optionalInt (some (ascii "/"))),
      ([], .string (ascii "[0-9]\x7b2\x7d[a:b]?")), (ascii "-\x7bx", .optionalString (ascii "(\\w)+") none)]
    scan (writeSegments segments (ascii "/end")) =
      (segments.map fun segment => (segment.1, some segment.2.param), ascii "/end") :=
  (scan_writeSegments_iff (by decide)).mpr (by decide)

/-- A quantifier before the closing braces loses its own brace, and a group
without a name is cut at its colon. -/
theorem scan_misreads :
    let quantified := Placeholder.string (ascii "\\d\x7b3\x7d")
    let grouped := Placeholder.optionalString (ascii "(?:a)b") none
    (WellFormed [(ascii "/", quantified)] [] ∧
      scan (writeSegments [(ascii "/", quantified)] []) ≠ ([(ascii "/", some quantified.param)], []) ∧
      scan (writeSegments [(ascii "/", quantified)] []) =
        ([(ascii "/", some ⟨.string, ascii "\x7b\x7bs:\\d\x7b3\x7d\x7d", ascii "\\d\x7b3", []⟩)],
          ascii "\x7d")) ∧
    (WellFormed [(ascii "/", grouped)] [] ∧
      scan (writeSegments [(ascii "/", grouped)] []) ≠ ([(ascii "/", some grouped.param)], []) ∧
      scan (writeSegments [(ascii "/", grouped)] []) =
        ([(ascii "/", some ⟨.optionalString, grouped.write, ascii "(?", ascii "a)b"⟩)], [])) := by
  refine ⟨⟨?_, ?_, ?_⟩, ?_, ?_, ?_⟩ <;> decide

end RouteParsing

end Nozomi
