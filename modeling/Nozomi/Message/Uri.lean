import Nozomi.Text.Bytes

/-! Percent decoding, taken as a parameter with its documented behaviour, and
one executable decoder that behaves that way. -/
namespace Text

abbrev percent : Byte := 0x25
abbrev ampersand : Byte := 0x26
abbrev plus : Byte := 0x2B
abbrev equals : Byte := 0x3D
abbrev space : Byte := 0x20

/-- The value of a hexadecimal digit in either case. -/
def hexDigit (c : Byte) : Option Byte :=
  if 0x30 ≤ c ∧ c ≤ 0x39 then some (c - 0x30)
  else if 0x41 ≤ c ∧ c ≤ 0x46 then some (c - 0x41 + 10)
  else if 0x61 ≤ c ∧ c ≤ 0x66 then some (c - 0x61 + 10)
  else none

/-- `+` stands for a space in a query and for itself in a path. -/
inductive UriEscapeMode where
  | query
  | path
  deriving DecidableEq

/-- `folly::uriUnescape`, with `none` for the exception it throws. -/
structure UriLibrary where
  uriUnescape : UriEscapeMode → Bytes → Option Bytes

/-- The documented decoding: every byte stands for itself, except `%` and two
hexadecimal digits, and `+` in a query. A malformed escape anywhere throws. -/
structure UriLibrary.Documented (library : UriLibrary) : Prop where
  nil : ∀ mode, library.uriUnescape mode [] = some []
  plain : ∀ mode c text, c ≠ percent → (mode = .query → c ≠ plus) →
    library.uriUnescape mode (c :: text) = (library.uriUnescape mode text).map (c :: ·)
  plus : ∀ text, library.uriUnescape .query (Text.plus :: text) =
    (library.uriUnescape .query text).map (space :: ·)
  escape : ∀ mode h l high low text, hexDigit h = some high → hexDigit l = some low →
    library.uriUnescape mode (percent :: h :: l :: text) =
      (library.uriUnescape mode text).map ((16 * high + low) :: ·)
  malformed : ∀ mode h l text, hexDigit h = none ∨ hexDigit l = none →
    library.uriUnescape mode (percent :: h :: l :: text) = none
  incomplete : ∀ mode text, text.length < 2 →
    library.uriUnescape mode (percent :: text) = none

/-- Decoding never makes a text longer. The induction is over its length, as an escape
takes three bytes off at once. -/
theorem UriLibrary.Documented.length_le {library : UriLibrary} (h : library.Documented)
    {mode : UriEscapeMode} {text decoded : Bytes} (hDecoded : library.uriUnescape mode text = some decoded) :
    decoded.length ≤ text.length := by
  induction hLength : text.length using Nat.strongRecOn generalizing text decoded with
  | _ length ih =>
  have hMap : ∀ (c : Byte) (rest : Bytes), rest.length < length →
      (library.uriUnescape mode rest).map (c :: ·) = some decoded → decoded.length ≤ rest.length + 1 := by
    intro c rest hLess hRest
    obtain ⟨later, hLater, rfl⟩ := Option.map_eq_some_iff.mp hRest
    exact Nat.succ_le_succ (ih rest.length hLess hLater rfl)
  cases text with
  | nil =>
      obtain rfl : [] = decoded := Option.some.inj ((h.nil mode).symm.trans hDecoded)
      exact Nat.zero_le _
  | cons c text =>
      subst hLength
      by_cases hPercent : c = percent
      · subst hPercent
        match text with
        | [] | [_] =>
            rw [h.incomplete _ _ (by simp)] at hDecoded
            cases hDecoded
        | high :: low :: rest =>
            cases hHigh : hexDigit high with
            | none =>
                rw [h.malformed _ _ _ _ (Or.inl hHigh)] at hDecoded
                cases hDecoded
            | some first =>
                cases hLow : hexDigit low with
                | none =>
                    rw [h.malformed _ _ _ _ (Or.inr hLow)] at hDecoded
                    cases hDecoded
                | some second =>
                    rw [h.escape _ _ _ _ _ _ hHigh hLow] at hDecoded
                    have hRest := hMap _ rest (by simp only [List.length_cons]; omega) hDecoded
                    simp only [List.length_cons]
                    omega
      · by_cases hPlus : mode = .query ∧ c = Text.plus
        · obtain ⟨rfl, rfl⟩ := hPlus
          rw [h.plus] at hDecoded
          exact hMap _ text (by simp) hDecoded
        · rw [h.plain _ _ _ hPercent fun hMode hSame => hPlus ⟨hMode, hSame⟩] at hDecoded
          exact hMap _ text (by simp) hDecoded

/-- Every path is what some text decodes to. -/
theorem UriLibrary.Documented.exists_spelling {library : UriLibrary} (h : library.Documented)
    (path : Bytes) : ∃ text, library.uriUnescape .path text = some path := by
  induction path with
  | nil => exact ⟨[], h.nil .path⟩
  | cons c path ih =>
      obtain ⟨text, hText⟩ := ih
      by_cases hPercent : c = percent
      · refine ⟨percent :: 0x32 :: 0x35 :: text, ?_⟩
        rw [h.escape .path 0x32 0x35 2 5 text (by decide) (by decide), hText, hPercent]
        rfl
      · refine ⟨c :: text, ?_⟩
        rw [h.plain .path c text hPercent nofun, hText]
        rfl

def decodeUri (mode : UriEscapeMode) : Bytes → Option Bytes
  | [] => some []
  | c :: text =>
      if c = percent then
        match text with
        | h :: l :: rest =>
            match hexDigit h, hexDigit l with
            | some high, some low => (decodeUri mode rest).map ((16 * high + low) :: ·)
            | _, _ => none
        | _ => none
      else if c = plus ∧ mode = .query then (decodeUri mode text).map (space :: ·)
      else (decodeUri mode text).map (c :: ·)

def uriDecoder : UriLibrary where
  uriUnescape := decodeUri

/-- The executable decoder has the documented behaviour. -/
theorem uriDecoder_documented : uriDecoder.Documented where
  nil := fun _ => rfl
  plain := by
    intro mode c text hPercent hPlus
    have hNot : ¬(c = plus ∧ mode = .query) := fun h => hPlus h.2 h.1
    simp only [uriDecoder]
    rw [decodeUri.eq_def]
    simp only [hPercent, hNot, if_false]
  plus := by
    intro text
    simp only [uriDecoder]
    rw [decodeUri.eq_def]
    simp [show ¬(Text.plus = percent) by decide]
  escape := by
    intro mode h l high low text hHigh hLow
    simp only [uriDecoder]
    rw [decodeUri.eq_def]
    simp [hHigh, hLow]
  malformed := by
    intro mode h l text hNone
    simp only [uriDecoder]
    rw [decodeUri.eq_def]
    rcases hNone with hNone | hNone
    · simp [hNone]
    · cases hHigh : hexDigit h <;> simp [hNone, hHigh]
  incomplete := by
    intro mode text hShort
    simp only [uriDecoder]
    rw [decodeUri.eq_def]
    match text, hShort with
    | [], _ => simp
    | [_], _ => simp

end Text
