import Nozomi.Text.Bytes

/-! Regular expressions with named groups, matched by ordered backtracking: the
first alternative that lets the rest succeed is taken, and a lazy repetition
takes as little as it can. -/
namespace Text

/-- The operators that an expression of this kind is written with. The lazy
repetition is `.+?`, and the option `?` prefers its body. -/
inductive Regex (Name : Type) where
  | literal (text : Bytes)
  | anyLazy
  | seq (first second : Regex Name)
  | alt (first second : Regex Name)
  | opt (body : Regex Name)
  | group (name : Name) (body : Regex Name)
  deriving DecidableEq

/-- The texts of the groups that took part, in the order of their opening. -/
abbrev Captures (Name : Type) := List (Name × Bytes)

/-- What follows `start` in a text that begins with it. -/
def dropPrefix (start text : Bytes) : Option Bytes :=
  match start, text with
  | [], text => some text
  | _ :: _, [] => none
  | c :: start, d :: text => if c = d then dropPrefix start text else none

theorem dropPrefix_eq_some_iff (start text rest : Bytes) :
    dropPrefix start text = some rest ↔ text = start ++ rest := by
  induction start generalizing text with
  | nil => simp [dropPrefix]
  | cons c start ih =>
      cases text with
      | nil => simp [dropPrefix]
      | cons d text =>
          by_cases hHead : c = d
          · simp [dropPrefix, hHead, ih]
          · simp [dropPrefix, hHead, Ne.symm hHead]

@[simp] theorem dropPrefix_append (start rest : Bytes) : dropPrefix start (start ++ rest) = some rest :=
  (dropPrefix_eq_some_iff start _ rest).mpr rfl

/-- The shortest nonempty part of a text after which `next` succeeds. -/
def lazyRun {Result : Type} (next : Bytes → Bytes → Option Result) : Bytes → Option Result
  | [] => none
  | c :: rest => (next [c] rest).or (lazyRun (fun used after => next (c :: used) after) rest)

/-- A lazy repetition succeeds with the first part that lets the rest succeed. The
induction is over the text. -/
theorem lazyRun_eq_some_iff {Result : Type} (next : Bytes → Bytes → Option Result) (text : Bytes)
    (result : Result) :
    lazyRun next text = some result ↔ ∃ used rest, used ≠ [] ∧ text = used ++ rest ∧
      next used rest = some result ∧
        ∀ shorter more, shorter ≠ [] → more ≠ [] → used = shorter ++ more →
          next shorter (more ++ rest) = none := by
  induction text generalizing next with
  | nil =>
      simp only [lazyRun, reduceCtorEq, false_iff]
      rintro ⟨used, rest, hNil, hText, _⟩
      simp [hNil] at hText
  | cons c text ih =>
      rw [lazyRun, Option.or_eq_some_iff, ih]
      constructor
      · rintro (hFirst | ⟨hNone, used, rest, hNil, rfl, hNext, hShorter⟩)
        · refine ⟨[c], text, by simp, rfl, hFirst, ?_⟩
          intro shorter more hShorter hMore hSplit
          cases shorter with
          | nil => exact absurd rfl hShorter
          | cons d shorter => simp_all
        · refine ⟨c :: used, rest, by simp, rfl, hNext, ?_⟩
          intro shorter more hNonempty hMore hSplit
          cases shorter with
          | nil => exact absurd rfl hNonempty
          | cons d shorter =>
              obtain ⟨rfl, rfl⟩ := List.cons.inj hSplit
              cases shorter with
              | nil => exact hNone
              | cons e shorter => exact hShorter (e :: shorter) more (by simp) hMore rfl
      · rintro ⟨used, rest, hNil, hText, hNext, hShorter⟩
        cases used with
        | nil => exact absurd rfl hNil
        | cons d used =>
            obtain ⟨rfl, rfl⟩ := List.cons.inj hText
            cases used with
            | nil => exact Or.inl hNext
            | cons e used =>
                refine Or.inr ⟨hShorter [c] (e :: used) (by simp) (by simp) rfl, e :: used, rest,
                  by simp, rfl, hNext, ?_⟩
                intro shorter more hNonempty hMore hSplit
                exact hShorter (c :: shorter) more (by simp) hMore (by simp [hSplit])

/-- Where `next` only gives the result after `used`, this says when the whole
repetition gives it. -/
theorem lazyRun_append_iff {Result : Type} {next : Bytes → Bytes → Option Result} {used rest : Bytes}
    {result : Result} (hNil : used ≠ [])
    (hOnly : ∀ other after, next other after = some result → other = used) :
    lazyRun next (used ++ rest) = some result ↔ next used rest = some result ∧
      ∀ shorter more, shorter ≠ [] → more ≠ [] → used = shorter ++ more →
        next shorter (more ++ rest) = none := by
  rw [lazyRun_eq_some_iff]
  constructor
  · rintro ⟨other, after, _, hText, hNext, hShorter⟩
    obtain rfl := hOnly other after hNext
    obtain rfl := List.append_cancel_left hText
    exact ⟨hNext, hShorter⟩
  · rintro ⟨hNext, hShorter⟩
    exact ⟨used, rest, hNil, rfl, hNext, hShorter⟩

/-- As long as some part lets the rest succeed, a lazy repetition does. -/
theorem lazyRun_isSome {Result : Type} {next : Bytes → Bytes → Option Result} {used : Bytes}
    (hNil : used ≠ []) (rest : Bytes) (hNext : (next used rest).isSome = true) :
    (lazyRun next (used ++ rest)).isSome = true := by
  induction used generalizing next with
  | nil => exact absurd rfl hNil
  | cons c used ih =>
      rw [List.cons_append, lazyRun, Option.isSome_or]
      cases used with
      | nil => simp [hNext]
      | cons d used =>
          rw [Bool.or_eq_true]
          exact Or.inr (ih (by simp) hNext)

namespace Regex

variable {Name Result : Type}

/-- Match a start of a text. The continuation gets the groups, the part matched
and the rest, and where it fails the matcher tries its next choice. -/
def run : Regex Name → (Captures Name → Bytes → Bytes → Option Result) → Bytes → Option Result
  | literal start, next, text => (dropPrefix start text).bind fun rest => next [] start rest
  | anyLazy, next, text => lazyRun (next []) text
  | seq first second, next, text =>
      first.run (fun captures used rest =>
        second.run (fun others more after => next (captures ++ others) (used ++ more) after) rest) text
  | alt first second, next, text => (first.run next text).or (second.run next text)
  | opt body, next, text => (body.run next text).or (next [] [] text)
  | group name body, next, text =>
      body.run (fun captures used rest => next ((name, used) :: captures) used rest) text

/-- Which texts an expression matches, in any order of choices. -/
inductive Matches : Regex Name → Bytes → Captures Name → Prop where
  | literal (text : Bytes) : Matches (literal text) text []
  | anyLazy {text : Bytes} (hNil : text ≠ []) : Matches anyLazy text []
  | seq {first second : Regex Name} {used more : Bytes} {captures others : Captures Name}
      (hFirst : Matches first used captures) (hSecond : Matches second more others) :
      Matches (seq first second) (used ++ more) (captures ++ others)
  | altFirst {first second : Regex Name} {used : Bytes} {captures : Captures Name}
      (hFirst : Matches first used captures) : Matches (alt first second) used captures
  | altSecond {first second : Regex Name} {used : Bytes} {captures : Captures Name}
      (hSecond : Matches second used captures) : Matches (alt first second) used captures
  | present {body : Regex Name} {used : Bytes} {captures : Captures Name}
      (hBody : Matches body used captures) : Matches (opt body) used captures
  | absent (body : Regex Name) : Matches (opt body) [] []
  | group (name : Name) {body : Regex Name} {used : Bytes} {captures : Captures Name}
      (hBody : Matches body used captures) : Matches (group name body) used ((name, used) :: captures)

section Inversion

variable {used : Bytes} {captures : Captures Name}

theorem matches_literal (text : Bytes) :
    Matches (literal text) used captures ↔ used = text ∧ captures = [] := by
  constructor
  · rintro ⟨⟩
    exact ⟨rfl, rfl⟩
  · rintro ⟨rfl, rfl⟩
    exact .literal used

/-- The lazy dots match every text but the empty one. Which text they take in a
search depends on what follows. -/
theorem matches_anyLazy : Matches anyLazy used captures ↔ used ≠ [] ∧ captures = [] := by
  constructor
  · rintro ⟨hNil⟩
    exact ⟨‹_›, rfl⟩
  · rintro ⟨hNil, rfl⟩
    exact .anyLazy hNil

/-- A sequence matches a text that can be cut in two, with the captures of both. -/
theorem matches_seq (first second : Regex Name) :
    Matches (seq first second) used captures ↔ ∃ head tail here there,
      Matches first head here ∧ Matches second tail there ∧ used = head ++ tail ∧
        captures = here ++ there := by
  constructor
  · rintro ⟨⟩
    exact ⟨_, _, _, _, ‹_›, ‹_›, rfl, rfl⟩
  · rintro ⟨head, tail, here, there, hFirst, hSecond, rfl, rfl⟩
    exact .seq hFirst hSecond

theorem matches_alt (first second : Regex Name) :
    Matches (alt first second) used captures ↔
      Matches first used captures ∨ Matches second used captures := by
  constructor
  · rintro (⟨⟩ | ⟨⟩)
    · exact Or.inl ‹_›
    · exact Or.inr ‹_›
  · rintro (hFirst | hSecond)
    · exact .altFirst hFirst
    · exact .altSecond hSecond

theorem matches_opt (body : Regex Name) :
    Matches (opt body) used captures ↔
      Matches body used captures ∨ used = [] ∧ captures = [] := by
  constructor
  · rintro (⟨⟩ | ⟨⟩)
    · exact Or.inl ‹_›
    · exact Or.inr ⟨rfl, rfl⟩
  · rintro (hBody | ⟨rfl, rfl⟩)
    · exact .present hBody
    · exact .absent body

/-- A group captures what its body has used, before the captures inside of it. -/
theorem matches_group (name : Name) (body : Regex Name) :
    Matches (group name body) used captures ↔
      ∃ inner, Matches body used inner ∧ captures = (name, used) :: inner := by
  constructor
  · rintro ⟨⟩
    exact ⟨_, ‹_›, rfl⟩
  · rintro ⟨inner, hBody, rfl⟩
    exact .group name hBody

end Inversion

/-- The matcher only finds matches. The induction is over the expression, with any
continuation. -/
theorem run_sound {r : Regex Name} {next : Captures Name → Bytes → Bytes → Option Result}
    {text : Bytes} {result : Result} (h : r.run next text = some result) :
    ∃ captures used rest, text = used ++ rest ∧ Matches r used captures ∧
      next captures used rest = some result := by
  induction r generalizing next text with
  | literal start =>
      obtain ⟨rest, hRest, hNext⟩ := Option.bind_eq_some_iff.mp h
      exact ⟨[], start, rest, (dropPrefix_eq_some_iff _ _ _).mp hRest, .literal start, hNext⟩
  | anyLazy =>
      obtain ⟨used, rest, hNil, hText, hNext, _⟩ := (lazyRun_eq_some_iff _ _ _).mp h
      exact ⟨[], used, rest, hText, .anyLazy hNil, hNext⟩
  | seq first second ihFirst ihSecond =>
      obtain ⟨captures, used, rest, rfl, hFirst, hRest⟩ := ihFirst h
      obtain ⟨others, more, after, rfl, hSecond, hNext⟩ := ihSecond hRest
      exact ⟨_, _, after, by simp, .seq hFirst hSecond, hNext⟩
  | alt first second ihFirst ihSecond =>
      rcases Option.or_eq_some_iff.mp h with hFirst | ⟨_, hSecond⟩
      · obtain ⟨captures, used, rest, hText, hMatch, hNext⟩ := ihFirst hFirst
        exact ⟨captures, used, rest, hText, .altFirst hMatch, hNext⟩
      · obtain ⟨captures, used, rest, hText, hMatch, hNext⟩ := ihSecond hSecond
        exact ⟨captures, used, rest, hText, .altSecond hMatch, hNext⟩
  | opt body ih =>
      rcases Option.or_eq_some_iff.mp h with hBody | ⟨_, hNext⟩
      · obtain ⟨captures, used, rest, hText, hMatch, hNext⟩ := ih hBody
        exact ⟨captures, used, rest, hText, .present hMatch, hNext⟩
      · exact ⟨[], [], text, rfl, .absent body, hNext⟩
  | group name body ih =>
      obtain ⟨captures, used, rest, hText, hMatch, hNext⟩ := ih h
      exact ⟨_, used, rest, hText, .group name hMatch, hNext⟩

/-- Where some match lets the continuation succeed, the matcher finds one, by
induction over the match. -/
theorem run_complete {r : Regex Name} {used : Bytes} {captures : Captures Name}
    (h : Matches r used captures) (next : Captures Name → Bytes → Bytes → Option Result)
    (rest : Bytes) (hNext : (next captures used rest).isSome = true) :
    (r.run next (used ++ rest)).isSome = true := by
  induction h generalizing next rest with
  | literal text => simpa [run] using hNext
  | anyLazy hNil => exact lazyRun_isSome hNil rest hNext
  | seq hFirst hSecond ihFirst ihSecond =>
      rw [List.append_assoc]
      exact ihFirst _ _ (ihSecond _ _ hNext)
  | altFirst hFirst ih => simp [run, Option.isSome_or, ih next rest hNext]
  | altSecond hSecond ih => simp [run, Option.isSome_or, ih next rest hNext]
  | present hBody ih => simp [run, Option.isSome_or, ih next rest hNext]
  | absent body =>
      have hHere : (next [] [] rest).isSome = true := hNext
      simp [run, Option.isSome_or, hHere]
  | group name hBody ih => exact ih _ _ hNext

/-- The first match that starts at the beginning of a text. -/
def matchAt (r : Regex Name) (text : Bytes) : Option (Captures Name × Bytes × Bytes) :=
  r.run (fun captures used rest => some (captures, used, rest)) text

theorem matchAt_sound {r : Regex Name} {text : Bytes} {found : Captures Name × Bytes × Bytes}
    (h : r.matchAt text = some found) :
    text = found.2.1 ++ found.2.2 ∧ Matches r found.2.1 found.1 := by
  obtain ⟨captures, used, rest, hText, hMatch, hFound⟩ := run_sound h
  obtain rfl := Option.some.inj hFound
  exact ⟨hText, hMatch⟩

/-- Where a prefix of a text matches, something is found at its head, though not
always this prefix. -/
theorem matchAt_complete {r : Regex Name} {used : Bytes} {captures : Captures Name}
    (h : Matches r used captures) (rest : Bytes) : (r.matchAt (used ++ rest)).isSome = true :=
  run_complete h _ rest rfl

/-- A match inside a text. -/
structure Found (Name : Type) where
  before : Bytes
  captures : Captures Name
  text : Bytes
  after : Bytes
  deriving DecidableEq

/-- The leftmost match. -/
def search (r : Regex Name) (text : Bytes) : Option (Found Name) :=
  match r.matchAt text, text with
  | some (captures, used, rest), _ => some ⟨[], captures, used, rest⟩
  | none, [] => none
  | none, c :: rest => (r.search rest).map fun found => { found with before := c :: found.before }

theorem search_of_matchAt {r : Regex Name} {text used rest : Bytes} {captures : Captures Name}
    (h : r.matchAt text = some (captures, used, rest)) :
    r.search text = some ⟨[], captures, used, rest⟩ := by
  rw [search.eq_def, h]

/-- A search goes on behind the first byte if there is no match at the head. -/
theorem search_cons {r : Regex Name} {c : Byte} {rest : Bytes} (h : r.matchAt (c :: rest) = none) :
    r.search (c :: rest) =
      (r.search rest).map fun found => { found with before := c :: found.before } := by
  rw [search.eq_def, h]

theorem search_nil {r : Regex Name} (h : r.matchAt [] = none) : r.search [] = none := by
  rw [search.eq_def, h]

/-- A part of the text where no match starts is skipped. -/
theorem search_append {r : Regex Name} (skipped rest : Bytes)
    (h : ∀ before more, more ≠ [] → skipped = before ++ more → r.matchAt (more ++ rest) = none) :
    r.search (skipped ++ rest) =
      (r.search rest).map fun found => { found with before := skipped ++ found.before } := by
  induction skipped with
  | nil => simp
  | cons c skipped ih =>
      have hRest := ih fun before more hMore hSplit => h (c :: before) more hMore (by simp [hSplit])
      have hHere : r.matchAt (c :: (skipped ++ rest)) = none := h [] (c :: skipped) (by simp) rfl
      rw [List.cons_append, search_cons hHere, hRest]
      cases r.search rest <;> rfl

/-- What a search finds is a match, and none starts before it. The induction is over
the text. -/
theorem search_sound {r : Regex Name} {text : Bytes} {found : Found Name}
    (h : r.search text = some found) :
    text = found.before ++ (found.text ++ found.after) ∧ Matches r found.text found.captures ∧
      ∀ before more, more ≠ [] → found.before = before ++ more →
        r.matchAt (more ++ (found.text ++ found.after)) = none := by
  induction text generalizing found with
  | nil =>
      cases hHere : r.matchAt [] with
      | none => simp [search_nil hHere] at h
      | some here =>
          obtain ⟨captures, used, rest⟩ := here
          obtain rfl := Option.some.inj ((search_of_matchAt hHere).symm.trans h)
          obtain ⟨hText, hMatch⟩ := matchAt_sound hHere
          exact ⟨hText, hMatch, fun _ _ hMore hSplit =>
            absurd (List.append_eq_nil_iff.mp hSplit.symm).2 hMore⟩
  | cons c text ih =>
      cases hHere : r.matchAt (c :: text) with
      | some here =>
          obtain ⟨captures, used, rest⟩ := here
          obtain rfl := Option.some.inj ((search_of_matchAt hHere).symm.trans h)
          obtain ⟨hText, hMatch⟩ := matchAt_sound hHere
          exact ⟨hText, hMatch, fun _ _ hMore hSplit =>
            absurd (List.append_eq_nil_iff.mp hSplit.symm).2 hMore⟩
      | none =>
          rw [search_cons hHere, Option.map_eq_some_iff] at h
          obtain ⟨inner, hInner, rfl⟩ := h
          obtain ⟨hText, hMatch, hNone⟩ := ih hInner
          refine ⟨by simp [hText], hMatch, ?_⟩
          intro before more hMore hSplit
          cases before with
          | nil =>
              obtain rfl : c :: inner.before = more := hSplit
              rwa [List.cons_append, ← hText]
          | cons d before =>
              obtain ⟨_, hSplit⟩ := List.cons.inj hSplit
              exact hNone before more hMore hSplit

/-- Successive matches that do not overlap, and the text after the last one. -/
def findAll (r : Regex Name) : Nat → Bytes → List (Found Name) × Bytes
  | 0, text => ([], text)
  | fuel + 1, text =>
      match r.search text with
      | none => ([], text)
      | some found => (found :: (r.findAll fuel found.after).1, (r.findAll fuel found.after).2)

/-- `sregex_iterator` over a text, for an expression that does not match the
empty text. -/
def sregexIterator (r : Regex Name) (text : Bytes) : List (Found Name) × Bytes :=
  r.findAll (text.length + 1) text

section Nonempty

variable {r : Regex Name} (hNonempty : ∀ captures, ¬Matches r [] captures)
include hNonempty

/-- A match is not empty, so that less text is left after it. This is what the
iterator over the matches rests on. -/
theorem search_after_lt {text : Bytes} {found : Found Name} (h : r.search text = some found) :
    found.after.length < text.length := by
  obtain ⟨hText, hMatch, _⟩ := search_sound h
  have hNil : found.text ≠ [] := fun hEmpty => hNonempty _ (hEmpty ▸ hMatch)
  have hPositive : 0 < found.text.length := List.length_pos_iff.mpr hNil
  rw [hText, List.length_append, List.length_append]
  omega

/-- Fuel beyond the length of the text changes nothing. -/
theorem findAll_fuel (fuel more : Nat) (text : Bytes) (hFuel : text.length < fuel)
    (hMore : text.length < more) : r.findAll fuel text = r.findAll more text := by
  induction fuel generalizing more text with
  | zero => omega
  | succ fuel ih =>
      cases more with
      | zero => omega
      | succ more =>
          rw [findAll, findAll]
          cases hSearch : r.search text with
          | none => rfl
          | some found =>
              have hAfter := search_after_lt hNonempty hSearch
              simp only [ih more found.after (by omega) (by omega)]

theorem sregexIterator_some {text : Bytes} {found : Found Name} (h : r.search text = some found) :
    r.sregexIterator text =
      (found :: (r.sregexIterator found.after).1, (r.sregexIterator found.after).2) := by
  have hAfter := search_after_lt hNonempty h
  rw [sregexIterator, findAll, h]
  simp only
  rw [findAll_fuel hNonempty text.length (found.after.length + 1) found.after hAfter (by omega)]
  rfl

end Nonempty

theorem sregexIterator_none {r : Regex Name} {text : Bytes} (h : r.search text = none) :
    r.sregexIterator text = ([], text) := by
  rw [sregexIterator, findAll, h]

end Regex

end Text
