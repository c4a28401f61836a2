import Nozomi.Routing.RouteParsing

/-! The placeholders of a route pattern as data. A match of the expression that
finds them is the text of a placeholder, and every such text matches. -/
namespace Nozomi

open Text

namespace RouteParsing

open Regex

abbrev openBrace : Byte := 0x7B
abbrev closeBrace : Byte := 0x7D
abbrev colon : Byte := 0x3A

/-- The texts that optional placeholders consume may be left out. -/
inductive Placeholder where
  | int
  | optionalInt (consumed : Option Bytes)
  | double
  | optionalDouble (consumed : Option Bytes)
  | string (value : Bytes)
  | optionalString (value : Bytes) (consumed : Option Bytes)
  deriving DecidableEq

namespace Placeholder

/-- A text to consume stands after a colon. -/
def colonText : Option Bytes → Bytes
  | none => []
  | some consumed => colon :: consumed

def write : Placeholder → Bytes
  | int => ascii "\x7b\x7bi\x7d\x7d"
  | optionalInt consumed => ascii "\x7b\x7bi?" ++ (colonText consumed ++ closing)
  | double => ascii "\x7b\x7bd\x7d\x7d"
  | optionalDouble consumed => ascii "\x7b\x7bd?" ++ (colonText consumed ++ closing)
  | string value => ascii "\x7b\x7bs:" ++ (value ++ closing)
  | optionalString value consumed =>
      ascii "\x7b\x7bs?:" ++ (value ++ (colonText consumed ++ closing))

/-- What the scanning loop should pass on for a placeholder. -/
def param (p : Placeholder) : RouteParam :=
  match p with
  | int => ⟨.int64, p.write, [], []⟩
  | optionalInt consumed => ⟨.optionalInt64, p.write, [], consumed.getD []⟩
  | double => ⟨.double, p.write, [], []⟩
  | optionalDouble consumed => ⟨.optionalDouble, p.write, [], consumed.getD []⟩
  | string value => ⟨.string, p.write, value, []⟩
  | optionalString value consumed => ⟨.optionalString, p.write, value, consumed.getD []⟩

def consumedCapture (name : RouteGroup) : Option Bytes → Captures RouteGroup
  | none => []
  | some consumed => [(name, consumed)]

def captures (p : Placeholder) : Captures RouteGroup :=
  match p with
  | int => [(.int, p.write)]
  | optionalInt consumed => (.optionalInt, p.write) :: consumedCapture .optionalIntRegex consumed
  | double => [(.double, p.write)]
  | optionalDouble consumed =>
      (.optionalDouble, p.write) :: consumedCapture .optionalDoubleRegex consumed
  | string value => [(.string, p.write), (.stringRegex, value)]
  | optionalString value consumed => (.optionalString, p.write) :: (.optionalStringRegex, value) ::
      consumedCapture .optionalStringConsumed consumed

/-- Every text that a placeholder has is there. -/
def Filled : Placeholder → Prop
  | int | double => True
  | optionalInt consumed | optionalDouble consumed => consumed ≠ some []
  | string value => value ≠ []
  | optionalString value consumed => value ≠ [] ∧ consumed ≠ some []

theorem routeParam_captures (p : Placeholder) : routeParam p.captures = some p.param := by
  cases p with
  | optionalInt consumed | optionalDouble consumed | optionalString value consumed =>
      cases consumed <;> rfl
  | _ => rfl

/-- Every placeholder begins with two opening braces, so that it is not found in a
text without them. -/
theorem write_eq (p : Placeholder) : ∃ rest, p.write = openBrace :: openBrace :: rest := by
  cases p <;> exact ⟨_, rfl⟩

/-- The optional end of a placeholder matches nothing, or a colon and a text that is
not empty, which is captured. -/
theorem matches_afterColon (name : RouteGroup) (used : Bytes) (found : Captures RouteGroup) :
    Matches (afterColon name) used found ↔ ∃ consumed : Option Bytes, consumed ≠ some [] ∧
      used = colonText consumed ∧ found = consumedCapture name consumed := by
  simp only [afterColon, matches_opt, matches_seq, matches_literal, matches_group, matches_anyLazy]
  constructor
  · rintro (⟨head, tail, here, there, ⟨rfl, rfl⟩, ⟨inner, ⟨hNil, rfl⟩, rfl⟩, rfl, rfl⟩ | ⟨rfl, rfl⟩)
    · exact ⟨some tail, by simpa using hNil, rfl, rfl⟩
    · exact ⟨none, by simp, rfl, rfl⟩
  · rintro ⟨consumed, hNil, rfl, rfl⟩
    cases consumed with
    | none => exact Or.inr ⟨rfl, rfl⟩
    | some consumed =>
        exact Or.inl ⟨ascii ":", consumed, [], _, ⟨rfl, rfl⟩,
          ⟨[], ⟨by simpa using hNil, rfl⟩, rfl⟩, rfl, rfl⟩

/-- The expression matches the texts of the placeholders, and nothing else. The cases
are its six alternatives. -/
theorem matches_routeParser (used : Bytes) (found : Captures RouteGroup) :
    Matches routeParser used found ↔ ∃ p : Placeholder, p.Filled ∧ used = p.write ∧
      found = p.captures := by
  simp only [routeParser, matches_alt, matches_group, matches_seq, matches_literal, matches_anyLazy,
    matches_afterColon]
  constructor
  · rintro (⟨_, ⟨rfl, rfl⟩, rfl⟩ |
      ⟨_, ⟨_, _, _, _, ⟨rfl, rfl⟩, ⟨_, _, _, _, ⟨consumed, hNil, rfl, rfl⟩, ⟨rfl, rfl⟩, rfl, rfl⟩,
        rfl, rfl⟩, rfl⟩ |
      ⟨_, ⟨rfl, rfl⟩, rfl⟩ |
      ⟨_, ⟨_, _, _, _, ⟨rfl, rfl⟩, ⟨_, _, _, _, ⟨consumed, hNil, rfl, rfl⟩, ⟨rfl, rfl⟩, rfl, rfl⟩,
        rfl, rfl⟩, rfl⟩ |
      ⟨_, ⟨_, _, _, _, ⟨rfl, rfl⟩, ⟨value, _, _, _, ⟨_, ⟨hValue, rfl⟩, rfl⟩, ⟨rfl, rfl⟩, rfl, rfl⟩,
        rfl, rfl⟩, rfl⟩ |
      ⟨_, ⟨_, _, _, _, ⟨rfl, rfl⟩, ⟨value, _, _, _, ⟨_, ⟨hValue, rfl⟩, rfl⟩,
        ⟨_, _, _, _, ⟨consumed, hNil, rfl, rfl⟩, ⟨rfl, rfl⟩, rfl, rfl⟩, rfl, rfl⟩, rfl, rfl⟩, rfl⟩)
    · exact ⟨int, trivial, rfl, rfl⟩
    · exact ⟨optionalInt consumed, hNil, rfl, by simp [captures, write]⟩
    · exact ⟨double, trivial, rfl, rfl⟩
    · exact ⟨optionalDouble consumed, hNil, rfl, by simp [captures, write]⟩
    · exact ⟨string value, hValue, rfl, by simp [captures, write]⟩
    · exact ⟨optionalString value consumed, ⟨hValue, hNil⟩, rfl, by simp [captures, write]⟩
  · rintro ⟨p, hFilled, rfl, rfl⟩
    cases p with
    | int => exact Or.inl ⟨[], ⟨rfl, rfl⟩, rfl⟩
    | optionalInt consumed =>
        exact Or.inr (Or.inl ⟨_, ⟨_, _, _, _, ⟨rfl, rfl⟩,
          ⟨_, _, _, _, ⟨consumed, hFilled, rfl, rfl⟩, ⟨rfl, rfl⟩, rfl, rfl⟩, rfl, rfl⟩,
          by simp [captures, write]⟩)
    | double => exact Or.inr (Or.inr (Or.inl ⟨[], ⟨rfl, rfl⟩, rfl⟩))
    | optionalDouble consumed =>
        exact Or.inr (Or.inr (Or.inr (Or.inl ⟨_, ⟨_, _, _, _, ⟨rfl, rfl⟩,
          ⟨_, _, _, _, ⟨consumed, hFilled, rfl, rfl⟩, ⟨rfl, rfl⟩, rfl, rfl⟩, rfl, rfl⟩,
          by simp [captures, write]⟩)))
    | string value =>
        exact Or.inr (Or.inr (Or.inr (Or.inr (Or.inl ⟨_, ⟨_, _, _, _, ⟨rfl, rfl⟩,
          ⟨value, _, _, _, ⟨_, ⟨hFilled, rfl⟩, rfl⟩, ⟨rfl, rfl⟩, rfl, rfl⟩, rfl, rfl⟩,
          by simp [captures, write]⟩))))
    | optionalString value consumed =>
        exact Or.inr (Or.inr (Or.inr (Or.inr (Or.inr ⟨_, ⟨_, _, _, _, ⟨rfl, rfl⟩,
          ⟨value, _, _, _, ⟨_, ⟨hFilled.1, rfl⟩, rfl⟩,
            ⟨_, _, _, _, ⟨consumed, hFilled.2, rfl, rfl⟩, ⟨rfl, rfl⟩, rfl, rfl⟩, rfl, rfl⟩,
          rfl, rfl⟩, by simp [captures, write]⟩))))

end Placeholder

theorem not_matches_nil (found : Captures RouteGroup) : ¬Matches routeParser [] found := by
  intro hMatch
  obtain ⟨p, _, hUsed, _⟩ := (Placeholder.matches_routeParser _ _).mp hMatch
  obtain ⟨rest, hRest⟩ := p.write_eq
  simp [hRest] at hUsed

/-- Every match begins with two opening braces. -/
theorem matchAt_eq_none {text : Bytes} (h : ¬[openBrace, openBrace] <+: text) :
    routeParser.matchAt text = none := by
  rw [Option.eq_none_iff_forall_ne_some]
  intro found hFound
  obtain ⟨hText, hMatch⟩ := matchAt_sound hFound
  obtain ⟨p, _, hUsed, _⟩ := (Placeholder.matches_routeParser _ _).mp hMatch
  obtain ⟨rest, hRest⟩ := p.write_eq
  exact h ⟨rest ++ found.2.2, by rw [hText, hUsed, hRest]; rfl⟩

end RouteParsing

end Nozomi
