import Nozomi.Routing.PatternLibrary

/-! The texts of numbers, and that the expressions of the numeric parameters match
nothing else. -/
namespace Nozomi

open Text Pattern

namespace RouteParsing

def unsigned (text : Bytes) : Bytes :=
  match text with
  | [] => []
  | c :: rest => if c = 0x2B ∨ c = 0x2D then rest else text

def isDigits (text : Bytes) : Bool := !text.isEmpty && text.all isDigit

/-- `[+-]?digits` -/
def isInteger (text : Bytes) : Bool := isDigits (unsigned text)

/-- `[+-]?digits(.digits)?` -/
def isDecimal (text : Bytes) : Bool :=
  match (unsigned text).splitOn 0x2E with
  | [whole] => isDigits whole
  | [whole, fraction] => isDigits whole && isDigits fraction
  | _ => false

def integerValue (text : Bytes) : Int :=
  let magnitude : Nat := (unsigned text).foldl (fun n c => 10 * n + Machine.digit c) 0
  if text.head? = some 0x2D then -magnitude else magnitude

/-- The set `[+-]` as it is read. -/
def isSign (a : Byte) : Bool := ((false || a = 0x2B) || a = 0x2D) != false

theorem isSign_iff (a : Byte) : isSign a = true ↔ a = 0x2B ∨ a = 0x2D := by
  simp [isSign]

/-- No digit is a sign, so that it can be told where the sign of a number ends. -/
theorem isSign_of_isDigit {a : Byte} (h : isDigit a = true) : isSign a = false := by
  rw [Bool.eq_false_iff, ne_eq, isSign_iff]
  rintro (rfl | rfl) <;> cases h

theorem isDigits_iff (text : Bytes) :
    isDigits text = true ↔ text ≠ [] ∧ ∀ a ∈ text, isDigit a = true := by
  simp [isDigits]

/-- A sign is taken off, and without one nothing is. -/
theorem unsigned_append {sign text : Bytes} (hDigit : ∀ a ∈ text.head?, isDigit a = true)
    (hSign : sign = [] ∨ ∃ a, isSign a = true ∧ sign = [a]) : unsigned (sign ++ text) = text := by
  rcases hSign with rfl | ⟨a, hSign, rfl⟩
  · cases text with
    | nil => rfl
    | cons c text =>
        have hNot : ¬(c = 0x2B ∨ c = 0x2D) := by
          rw [← isSign_iff, isSign_of_isDigit (hDigit c rfl)]
          exact Bool.false_ne_true
        exact if_neg hNot
  · exact if_pos ((isSign_iff a).mp hSign)

theorem optional_sign {text : Bytes} {captures : List (Bytes × Bytes)}
    (h : Matches (optional (.set isSign)) text captures) :
    text = [] ∨ ∃ a, isSign a = true ∧ text = [a] := by
  rcases matches_optional_iff.mp h with ⟨rfl, _⟩ | hSet
  · exact Or.inl rfl
  · obtain ⟨a, hSign, rfl, _⟩ := matches_set_iff.mp hSet
    exact Or.inr ⟨a, hSign, rfl⟩

theorem digits_of_matches {text : Bytes} {captures : List (Bytes × Bytes)}
    (h : Matches (rep true 1 none (.set isDigit)) text captures) : isDigits text = true := by
  obtain ⟨hLength, hDigits⟩ := h.rep_set
  refine (isDigits_iff text).mpr ⟨?_, hDigits⟩
  rintro rfl
  cases hLength

theorem head_of_digits {text rest : Bytes} (h : isDigits text = true) :
    ∀ a ∈ (text ++ rest).head?, isDigit a = true := by
  obtain ⟨hNonempty, hDigits⟩ := (isDigits_iff text).mp h
  cases text with
  | nil => exact absurd rfl hNonempty
  | cons c text =>
      rintro a ha
      obtain rfl := Option.some.inj ha
      exact hDigits c (List.mem_cons_self ..)

theorem splitOn_digits {text : Bytes} (h : isDigits text = true) : text.splitOn 0x2E = [text] := by
  refine List.splitOn_eq_singleton fun hDot => ?_
  cases ((isDigits_iff text).mp h).2 _ hDot

theorem isInteger_of_accepts {text : Bytes}
    (h : Accepts (patternMeaning (ascii "[+-]?\\d+")) text) : isInteger text = true := by
  obtain ⟨captures, hMatch⟩ := h
  rw [show patternMeaning (ascii "[+-]?\\d+") =
    seq (optional (.set isSign)) (rep true 1 none (.set isDigit)) from rfl] at hMatch
  obtain ⟨sign, digits, _, _, hSign, hDigits, rfl, _⟩ := matches_seq_iff.mp hMatch
  have hDigits : isDigits digits = true := digits_of_matches hDigits
  rw [isInteger, unsigned_append (by simpa using @head_of_digits _ [] hDigits)
    (optional_sign hSign)]
  exact hDigits

theorem isDecimal_of_accepts {text : Bytes}
    (h : Accepts (patternMeaning (ascii "[+-]?\\d+(?:\\.\\d+)?")) text) : isDecimal text = true := by
  obtain ⟨captures, hMatch⟩ := h
  rw [show patternMeaning (ascii "[+-]?\\d+(?:\\.\\d+)?") =
    seq (optional (.set isSign)) (seq (rep true 1 none (.set isDigit))
      (optional (seq (.set fun a => a = 0x2E) (rep true 1 none (.set isDigit))))) from rfl] at hMatch
  obtain ⟨sign, number, _, _, hSign, hNumber, rfl, _⟩ := matches_seq_iff.mp hMatch
  obtain ⟨whole, rest, _, _, hWhole, hRest, rfl, _⟩ := matches_seq_iff.mp hNumber
  have hWhole : isDigits whole = true := digits_of_matches hWhole
  rw [isDecimal, unsigned_append (head_of_digits hWhole) (optional_sign hSign)]
  rcases matches_optional_iff.mp hRest with ⟨rfl, _⟩ | hFraction
  · rw [List.append_nil, splitOn_digits hWhole]
    exact hWhole
  · obtain ⟨dot, fraction, _, _, hDot, hDigits, rfl, _⟩ := matches_seq_iff.mp hFraction
    obtain ⟨c, hSame, rfl, _⟩ := matches_set_iff.mp hDot
    obtain rfl := of_decide_eq_true hSame
    have hFraction : isDigits fraction = true := digits_of_matches hDigits
    rw [List.singleton_append, List.splitOn_append_cons_self, splitOn_digits hWhole,
      splitOn_digits hFraction]
    exact Bool.and_eq_true_iff.mpr ⟨hWhole, hFraction⟩

/-- The sign of a text, and the text without it. -/
theorem exists_sign (text : Bytes) :
    ∃ sign, text = sign ++ unsigned text ∧ Accepts (optional (.set isSign) : Pattern Byte Bytes) sign := by
  cases text with
  | nil => exact ⟨[], rfl, [], matches_optional_iff.mpr (Or.inl ⟨rfl, rfl⟩)⟩
  | cons c rest =>
      by_cases hSign : c = 0x2B ∨ c = 0x2D
      · have hRest : unsigned (c :: rest) = rest := if_pos hSign
        rw [hRest]
        exact ⟨[c], rfl, [], matches_optional_iff.mpr (Or.inr (.set ((isSign_iff c).mpr hSign)))⟩
      · have hRest : unsigned (c :: rest) = c :: rest := if_neg hSign
        rw [hRest]
        exact ⟨[], rfl, [], matches_optional_iff.mpr (Or.inl ⟨rfl, rfl⟩)⟩

theorem accepts_of_digits {text : Bytes} (h : isDigits text = true) :
    Accepts (rep true 1 none (.set isDigit) : Pattern Byte Bytes) text := by
  obtain ⟨hNonempty, hDigits⟩ := (isDigits_iff text).mp h
  exact accepts_rep_set_iff.mpr ⟨List.length_pos_of_ne_nil hNonempty, hDigits⟩

/-- The expression of integers accepts exactly these. -/
theorem accepts_integer_iff (text : Bytes) :
    Accepts (patternMeaning (ascii "[+-]?\\d+")) text ↔ isInteger text = true := by
  refine ⟨isInteger_of_accepts, fun h => ?_⟩
  obtain ⟨sign, hText, earlier, hSign⟩ := exists_sign text
  obtain ⟨later, hDigits⟩ := accepts_of_digits h
  rw [hText]
  exact ⟨earlier ++ later, .seq hSign hDigits⟩

/-- The expression of the doubles matches the decimal numbers and nothing else. -/
theorem accepts_decimal_iff (text : Bytes) :
    Accepts (patternMeaning (ascii "[+-]?\\d+(?:\\.\\d+)?")) text ↔ isDecimal text = true := by
  refine ⟨isDecimal_of_accepts, fun h => ?_⟩
  obtain ⟨sign, hText, earlier, hSign⟩ := exists_sign text
  have hParts : [0x2E].intercalate ((unsigned text).splitOn 0x2E) = unsigned text :=
    List.intercalate_splitOn 0x2E
  rw [isDecimal] at h
  split at h
  · rename_i whole hSplit
    obtain ⟨later, hDigits⟩ := accepts_of_digits h
    rw [hSplit] at hParts
    have hWhole : unsigned text = whole ++ [] := by simpa using hParts.symm
    rw [hText, hWhole]
    exact ⟨_, .seq hSign (.seq hDigits (matches_optional_iff.mpr (Or.inl ⟨rfl, rfl⟩)))⟩
  · rename_i whole fraction hSplit
    obtain ⟨hWhole, hFraction⟩ := Bool.and_eq_true_iff.mp h
    obtain ⟨later, hDigits⟩ := accepts_of_digits hWhole
    obtain ⟨last, hMore⟩ := accepts_of_digits hFraction
    rw [hSplit] at hParts
    have hBoth : unsigned text = whole ++ ([0x2E] ++ fraction) := by simpa using hParts.symm
    have hDot : Matches (.set fun a => a = 0x2E : Pattern Byte Bytes) [0x2E] [] := .set rfl
    rw [hText, hBoth]
    exact ⟨_, .seq hSign (.seq hDigits (matches_optional_iff.mpr (Or.inr (.seq hDot hMore))))⟩
  · cases h

end RouteParsing

end Nozomi
