import Nozomi.Routing.PatternLibrary
import Nozomi.Routing.RouteParsing
import Nozomi.Text.PatternSplicing

/-! What the text of an optional placeholder means as a regular expression. The
consumed part is put right after the group of the value, so only its first
alternative follows the value. -/
namespace Nozomi

open Text Pattern

namespace RouteParsing

def isOptional : RouteParamType → Bool
  | .optionalInt64 | .optionalDouble | .optionalString => true
  | .int64 | .double | .string => false

/-- The expression of the value alone. -/
def valueExpression (param : RouteParam) : Bytes :=
  match param.type with
  | .int64 | .optionalInt64 => ascii "[+-]?\\d+"
  | .double | .optionalDouble => ascii "[+-]?\\d+(?:\\.\\d+)?"
  | .string | .optionalString => param.value

/-- A pattern matches nothing without the parameter, or a value followed by a
consumed part with the value as the parameter. -/
def IsOptionalValue (piece : Pattern Byte Bytes) (name : Bytes)
    (value consumed : Pattern Byte Bytes) : Prop :=
  ∀ text captures, Matches piece text captures ↔
    text = [] ∧ captures = [] ∨
      ∃ v c, Accepts value v ∧ Accepts consumed c ∧ text = v ++ c ∧ captures = [(name, v)]

/-- The name of a group is a word, as the syntax of a named group asks for. -/
theorem groupName_isWord (k : Nat) : ∀ c ∈ groupName k, isWord c = true := by
  intro c hMem
  rcases List.mem_append.mp hMem with hUnderscore | hDecimal
  · rw [show ascii "__" = [0x5F, 0x5F] from rfl] at hUnderscore
    have hSame : c = 0x5F := by simpa using hUnderscore
    rw [hSame]
    rfl
  · obtain ⟨digit, hDigit, rfl⟩ := List.mem_map.mp hDecimal
    have hRange : digit.isDigit = true := Nat.isDigit_of_mem_toDigits (by decide) (by decide) hDigit
    obtain ⟨hLeast, hMost⟩ : 0x30 ≤ digit.toNat ∧ digit.toNat ≤ 0x39 := by
      simpa [Char.isDigit, UInt32.le_iff_toNat_le] using hRange
    have hByte : isDigit (UInt8.ofNat digit.toNat) = true := by
      simp only [isDigit, decide_eq_true_eq, UInt8.le_iff_toNat_le, UInt8.toNat_ofNat']
      rw [Nat.mod_eq_of_lt (by omega)]
      exact ⟨hLeast, hMost⟩
    simp [isWord, isAlnum, hByte]

/-- The chunk of an optional parameter is an optional group, with the named group of
the value and then what is consumed. -/
theorem chunk_of_optional (k : Nat) {param : RouteParam} (h : isOptional param.type = true) :
    chunk k param = ascii "(?:" ++ (ascii "(?<" ++ groupName k ++ ascii ">") ++
      (valueExpression param ++ [0x29]) ++ (param.consumed ++ [0x29]) ++ ascii "?" := by
  unfold chunk valueExpression
  cases hType : param.type with
  | int64 | double | string =>
      rw [hType] at h
      cases h
  | optionalInt64 | optionalDouble | optionalString =>
      simp [groupStart, ascii]

/-- The pattern that is emitted for a value and the branches of a consumed part. -/
def emitted (name : Bytes) (value : Pattern Byte Bytes) (first : List (Pattern Byte Bytes))
    (others : List (List (Pattern Byte Bytes))) : Pattern Byte Bytes :=
  optional (choice (((group name value :: first) :: others).map sequence))

/-- Wherever a piece may begin, the chunk is read as one piece. Its value and what is
consumed are read inside of groups, where they mean what they mean alone. -/
theorem run_chunk (k : Nat) {param : RouteParam} (hOptional : isOptional param.type = true)
    {value : Pattern Byte Bytes} (hValue : parse (valueExpression param) = some value)
    {first : List (Pattern Byte Bytes)} {others : List (List (Pattern Byte Bytes))}
    (hConsumed : parseBranches param.consumed = some (first :: others)) (s : Machine)
    (hMode : s.mode.isBetween = true) :
    s.run (chunk k param) =
      some ((s.push (emitted (groupName k) value first others)).goto .quantified) := by
  have hName : (s.enter none).run (ascii "(?<" ++ groupName k ++ ascii ">") =
      some ((s.enter none).enter (some (groupName k))) :=
    Machine.run_enter_named rfl (by simp [groupName, ascii]) (groupName_isWord k)
  have hGroup : ((s.enter none).enter (some (groupName k))).run (valueExpression param ++ [0x29]) =
      some ((s.enter none).push (group (groupName k) value)) := Machine.run_group _ hValue _
  obtain ⟨last, hInside⟩ := Machine.run_inside none [group (groupName k) value] s.below hConsumed
    (show Mode.piece.isBetween = true from rfl) s.top
  have hRest : ((s.enter none).push (group (groupName k) value)).run (param.consumed ++ [0x29]) =
      some (s.push (choice (((group (groupName k) value :: first) :: others).map sequence))) := hInside
  rw [chunk_of_optional k hOptional, Machine.run_append, Machine.run_append, Machine.run_append,
    Machine.run_append, Machine.run_enter_plain hMode, Option.bind_some, hName, Option.bind_some,
    hGroup, Option.bind_some, hRest, Option.bind_some]
  rfl

theorem unnamed_choice {branches : List (Pattern Byte Bytes)} :
    (choice branches).Unnamed ↔ ∀ branch ∈ branches, branch.Unnamed := by
  induction branches with
  | nil => exact iff_of_true trivial (by simp)
  | cons branch branches ih =>
      cases branches with
      | nil => simp [choice]
      | cons next branches =>
          rw [List.forall_mem_cons, ← ih]
          rfl

section Meaning

variable {name : Bytes} {value : Pattern Byte Bytes} {first : List (Pattern Byte Bytes)}
  {others : List (List (Pattern Byte Bytes))}

/-- The value stands before the first branch alone. The other branches are
alternatives to the value, and not only to what is consumed. -/
theorem matches_emitted_iff (hValue : value.Unnamed)
    (hConsumed : (choice ((first :: others).map sequence)).Unnamed) {text : Bytes}
    {captures : List (Bytes × Bytes)} :
    Matches (emitted name value first others) text captures ↔
      text = [] ∧ captures = [] ∨
      (∃ v c, Accepts value v ∧ Accepts (sequence first) c ∧ text = v ++ c ∧ captures = [(name, v)]) ∨
      Accepts (choice (others.map sequence)) text ∧ captures = [] := by
  obtain ⟨hFirst, hOthers⟩ := List.forall_mem_cons.mp (unnamed_choice.mp hConsumed)
  have hValueFirst : Matches (sequence (group name value :: first)) text captures ↔
      ∃ v c, Accepts value v ∧ Accepts (sequence first) c ∧ text = v ++ c ∧
        captures = [(name, v)] := by
    rw [matches_sequence_cons_iff, matches_seq_iff]
    constructor
    · rintro ⟨v, c, earlier, later, hGroup, hRest, rfl, rfl⟩
      obtain ⟨inner, hInner, rfl⟩ := matches_group_iff.mp hGroup
      rw [hInner.captures_eq_nil hValue, hRest.captures_eq_nil hFirst]
      exact ⟨v, c, ⟨inner, hInner⟩, ⟨later, hRest⟩, rfl, rfl⟩
    · rintro ⟨v, c, hV, hC, rfl, rfl⟩
      rw [accepts_iff_of_unnamed hValue] at hV
      rw [accepts_iff_of_unnamed hFirst] at hC
      exact ⟨v, c, [(name, v)], [], matches_group_iff.mpr ⟨[], hV, rfl⟩, hC, rfl, rfl⟩
  have hOther : (∃ branch ∈ others.map sequence, Matches branch text captures) ↔
      Accepts (choice (others.map sequence)) text ∧ captures = [] := by
    rw [← matches_choice_iff]
    constructor
    · intro h
      exact ⟨⟨captures, h⟩, h.captures_eq_nil (unnamed_choice.mpr hOthers)⟩
    · rintro ⟨h, rfl⟩
      exact (accepts_iff_of_unnamed (unnamed_choice.mpr hOthers)).mp h
  rw [emitted, matches_optional_iff, matches_choice_iff, List.map_cons, ← hValueFirst, ← hOther]
  simp

theorem accepts_choice_cons_iff {branch : Pattern Byte Bytes} {branches : List (Pattern Byte Bytes)}
    {text : Bytes} :
    Accepts (choice (branch :: branches)) text ↔ Accepts branch text ∨ Accepts (choice branches) text := by
  simp only [Accepts, matches_choice_iff, List.exists_mem_cons_iff, exists_or]

/-- The chunk means an optional value exactly if the branches of the consumed part after
the first accept nothing but the empty text, and the first one accepts it too. -/
theorem isOptionalValue_iff (hValue : value.Unnamed)
    (hConsumed : (choice ((first :: others).map sequence)).Unnamed) :
    IsOptionalValue (emitted name value first others) name value
        (choice ((first :: others).map sequence)) ↔
      ∀ text, Accepts (choice (others.map sequence)) text →
        text = [] ∧ ((∃ v, Accepts value v) → Accepts (sequence first) []) := by
  constructor
  · intro h text hText
    have hAbsent : text = [] := by
      rcases (h text []).mp ((matches_emitted_iff hValue hConsumed).mpr (Or.inr (Or.inr ⟨hText, rfl⟩)))
        with ⟨hEmpty, _⟩ | ⟨v, c, _, _, _, hCaptures⟩
      · exact hEmpty
      · cases hCaptures
    refine ⟨hAbsent, ?_⟩
    rintro ⟨v, hV⟩
    subst hAbsent
    have hPresent : Matches (emitted name value first others) v [(name, v)] :=
      (h v [(name, v)]).mpr (Or.inr ⟨v, [], hV,
        accepts_choice_cons_iff.mpr (Or.inr hText), by simp, rfl⟩)
    rcases (matches_emitted_iff hValue hConsumed).mp hPresent with
      ⟨_, hCaptures⟩ | ⟨w, c, _, hC, hSplit, hCaptures⟩ | ⟨_, hCaptures⟩
    · cases hCaptures
    · simp only [List.cons.injEq, Prod.mk.injEq, true_and, and_true] at hCaptures
      subst hCaptures
      rwa [List.self_eq_append_right.mp hSplit] at hC
    · cases hCaptures
  · intro hCondition text captures
    rw [matches_emitted_iff hValue hConsumed]
    constructor
    · rintro (hEmpty | ⟨v, c, hV, hC, hSplit⟩ | ⟨hText, hCaptures⟩)
      · exact Or.inl hEmpty
      · exact Or.inr ⟨v, c, hV, accepts_choice_cons_iff.mpr (Or.inl hC), hSplit⟩
      · exact Or.inl ⟨(hCondition text hText).1, hCaptures⟩
    · rintro (hEmpty | ⟨v, c, hV, hC, hSplit⟩)
      · exact Or.inl hEmpty
      · refine Or.inr (Or.inl ⟨v, c, hV, ?_, hSplit⟩)
        rcases accepts_choice_cons_iff.mp hC with hFirst | hOther
        · exact hFirst
        · obtain ⟨rfl, hFirst⟩ := hCondition c hOther
          exact hFirst ⟨v, hV⟩

end Meaning

/-- What `route_to_regex` emits for an optional parameter is read as one piece.
It means what it should exactly if the alternatives of the consumed part after
the first accept nothing but the empty text, and the first accepts that too. -/
theorem optional_chunk_iff {ρ : Type} (library : RegexLibrary ρ) (k : Nat) (param : RouteParam)
    (hOptional : isOptional param.type = true) {replacement : Bytes × Bytes}
    (hEmitted : routeToRegex library k param = .ok replacement) {value : Pattern Byte Bytes}
    (hValue : parse (valueExpression param) = some value) {first : List (Pattern Byte Bytes)}
    {others : List (List (Pattern Byte Bytes))}
    (hConsumed : parseBranches param.consumed = some (first :: others)) (hUnnamed : value.Unnamed)
    (hConsumedUnnamed : (choice ((first :: others).map sequence)).Unnamed) :
    ∃ piece, (∀ s : Machine, s.mode.isBetween = true →
        s.run replacement.2 = some ((s.push piece).goto .quantified)) ∧
      (IsOptionalValue piece (groupName k) value (choice ((first :: others).map sequence)) ↔
        ∀ text, Accepts (choice (others.map sequence)) text →
          text = [] ∧ ((∃ v, Accepts value v) → Accepts (sequence first) [])) := by
  have hChunk : replacement.2 = chunk k param := by
    rw [routeToRegex_unfold] at hEmitted
    cases hType : param.type with
    | string | optionalString =>
        rw [hType] at hEmitted
        obtain ⟨regex, _, hPair⟩ := (Throws.bind_eq_ok_iff _ _ _).mp hEmitted
        rw [← Except.ok.inj hPair]
    | int64 | optionalInt64 | double | optionalDouble =>
        rw [hType] at hEmitted
        rw [← Except.ok.inj hEmitted]
  refine ⟨emitted (groupName k) value first others, ?_, isOptionalValue_iff hUnnamed hConsumedUnnamed⟩
  intro s hMode
  rw [hChunk]
  exact run_chunk k hOptional hValue hConsumed s hMode

/-- An optional number that is followed by a slash. -/
theorem optional_chunk_slash : ∃ piece,
    (∀ s : Machine, s.mode.isBetween = true →
      s.run (ascii "(?:(?<__0>[+-]?\\d+)/)?") = some ((s.push piece).goto .quantified)) ∧
      ∀ text captures, Matches piece text captures ↔
        text = [] ∧ captures = [] ∨ ∃ v c, Accepts (patternMeaning (ascii "[+-]?\\d+")) v ∧
          Accepts (patternMeaning (ascii "/")) c ∧ text = v ++ c ∧ captures = [(groupName 0, v)] := by
  obtain ⟨piece, hRun, hMeans⟩ := optional_chunk_iff patternLibrary 0
    ⟨.optionalInt64, ascii "\x7b\x7bi?:/\x7d\x7d", [], ascii "/"⟩ rfl rfl
    (show parse (ascii "[+-]?\\d+") = some _ from rfl)
    (show parseBranches (ascii "/") = some (_ :: []) from rfl) ⟨trivial, trivial⟩ trivial
  refine ⟨piece, hRun, hMeans.mpr ?_⟩
  rintro text ⟨captures, hNone⟩
  exact absurd hNone not_matches_set_false

/-- With an alternation in the consumed part there are texts that are matched
without the parameter. -/
theorem alternative_is_not_consumed : ∃ piece value consumed,
    routeToRegex patternLibrary 0 ⟨.optionalInt64, ascii "\x7b\x7bi?:a|b\x7d\x7d", [], ascii "a|b"⟩ =
        .ok (ascii "\x7b\x7bi?:a|b\x7d\x7d", ascii "(?:(?<__0>[+-]?\\d+)a|b)?") ∧
      Machine.init.run (ascii "(?:(?<__0>[+-]?\\d+)a|b)?") =
        some ((Machine.init.push piece).goto .quantified) ∧
      parse (ascii "[+-]?\\d+") = some value ∧ parse (ascii "a|b") = some consumed ∧
      Matches piece (ascii "b") [] ∧ ¬IsOptionalValue piece (groupName 0) value consumed := by
  have hValue : parse (ascii "[+-]?\\d+") = some _ := rfl
  have hConsumed : parseBranches (ascii "a|b") = some (_ :: [[Pattern.set fun c => c = 0x62]]) := rfl
  have hAbsent : ∀ {value : Pattern Byte Bytes} {first : List (Pattern Byte Bytes)},
      Matches (emitted (groupName 0) value first [[Pattern.set fun c => c = 0x62]]) (ascii "b") [] := by
    intro value first
    have hOther : Matches (Pattern.set fun c => c = 0x62 : Pattern Byte Bytes) (ascii "b") [] := .set rfl
    refine matches_optional_iff.mpr (Or.inr (matches_choice_iff.mpr ⟨_, ?_, hOther⟩))
    exact List.mem_cons_of_mem _ (List.mem_singleton_self _)
  have hRun := @run_chunk 0 ⟨.optionalInt64, ascii "\x7b\x7bi?:a|b\x7d\x7d", [], ascii "a|b"⟩ rfl
    _ hValue _ _ hConsumed .init rfl
  refine ⟨_, _, _, rfl, hRun, hValue, by rw [parse, hConsumed]; rfl, hAbsent, ?_⟩
  intro h
  rcases (h (ascii "b") []).mp hAbsent with ⟨hText, _⟩ | ⟨v, c, _, _, _, hCaptures⟩
  · cases hText
  · cases hCaptures

end RouteParsing

end Nozomi
