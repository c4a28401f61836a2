import Nozomi.Message.Uri

/-! Every way to write a form down: each byte as itself, as an escape or as a
plus, and any number of separators between and around the pairs. -/
namespace Text

/-- The ways to write one byte. A `key` may not contain `=` as itself. -/
inductive EncodesByte (key : Bool) : Byte → Bytes → Prop where
  | itself (c : Byte) (hPercent : c ≠ percent) (hPlus : c ≠ plus) (hAmpersand : c ≠ ampersand)
      (hEquals : key = true → c ≠ equals) : EncodesByte key c [c]
  | escape (h l high low : Byte) (hHigh : hexDigit h = some high) (hLow : hexDigit l = some low) :
      EncodesByte key (16 * high + low) [percent, h, l]
  | plus : EncodesByte key space [plus]

inductive Encodes (key : Bool) : Bytes → Bytes → Prop where
  | nil : Encodes key [] []
  | cons {c : Byte} {encoded : Bytes} {text rest : Bytes} (first : EncodesByte key c encoded)
      (others : Encodes key text rest) : Encodes key (c :: text) (encoded ++ rest)

/-- One pair, written as `key=value`. -/
def EncodesPair (pair : Bytes × Bytes) (encoded : Bytes) : Prop :=
  ∃ key value, Encodes true pair.1 key ∧ Encodes false pair.2 value ∧
    encoded = key ++ equals :: value

def ampersands (count : Nat) : Bytes := List.replicate count ampersand

/-- Pairs with one or more `&` between them and any number at either end. -/
inductive EncodesForm : List (Bytes × Bytes) → Bytes → Prop where
  | none (count : Nat) : EncodesForm [] (ampersands count)
  | last (before : Nat) {pair : Bytes × Bytes} {encoded : Bytes} (hPair : EncodesPair pair encoded) :
      EncodesForm [pair] (ampersands before ++ encoded)
  | more (before : Nat) {pair : Bytes × Bytes} {encoded : Bytes} (hPair : EncodesPair pair encoded)
      {pairs : List (Bytes × Bytes)} {body : Bytes} (others : EncodesForm pairs body) :
      EncodesForm (pair :: pairs) (ampersands before ++ encoded ++ ampersand :: body)

/-- No hexadecimal digit is one of the characters that separate pairs and keys. -/
theorem hexDigit_ne {c value : Byte} (h : hexDigit c = some value) :
    c ≠ ampersand ∧ c ≠ equals := by
  constructor
  · rintro rfl
    cases h
  · rintro rfl
    cases h

/-- No byte is written with an ampersand, as a byte that is one has to be escaped. -/
theorem EncodesByte.ampersand_not_mem {key : Bool} {c : Byte} {encoded : Bytes}
    (h : EncodesByte key c encoded) : ampersand ∉ encoded := by
  cases h with
  | itself _ _ _ hAmpersand => simpa using Ne.symm hAmpersand
  | escape h l high low hHigh hLow =>
      have hPercent : ampersand ≠ percent := by decide
      simpa [hPercent] using ⟨(hexDigit_ne hHigh).1.symm, (hexDigit_ne hLow).1.symm⟩
  | plus => decide

theorem EncodesByte.equals_not_mem {c : Byte} {encoded : Bytes} (h : EncodesByte true c encoded) :
    equals ∉ encoded := by
  cases h with
  | itself _ _ _ _ hEquals => simpa using Ne.symm (hEquals rfl)
  | escape h l high low hHigh hLow =>
      have hPercent : equals ≠ percent := by decide
      simpa [hPercent] using ⟨(hexDigit_ne hHigh).2.symm, (hexDigit_ne hLow).2.symm⟩
  | plus => decide

/-- No text is written with an ampersand, so that a pair ends where the next one
begins. -/
theorem Encodes.ampersand_not_mem {key : Bool} {text encoded : Bytes} (h : Encodes key text encoded) :
    ampersand ∉ encoded := by
  induction h with
  | nil => simp
  | cons first others ih => simpa using ⟨first.ampersand_not_mem, ih⟩

/-- No key is written with an equals sign, so that the first one ends it. -/
theorem Encodes.equals_not_mem {text encoded : Bytes} (h : Encodes true text encoded) :
    equals ∉ encoded := by
  induction h with
  | nil => simp
  | cons first others ih => simpa using ⟨first.equals_not_mem, ih⟩

/-- A text is never written shorter than it is. -/
theorem Encodes.length_le {key : Bool} {text encoded : Bytes} (h : Encodes key text encoded) :
    text.length ≤ encoded.length := by
  induction h with
  | nil => simp
  | cons first others ih => cases first <;> simp <;> omega

/-- Decoding in query mode inverts every way to write a text. -/
theorem Encodes.uriUnescape {uri : UriLibrary} (hUri : uri.Documented) {key : Bool}
    {text encoded : Bytes} (h : Encodes key text encoded) :
    uri.uriUnescape .query encoded = some text := by
  induction h with
  | nil => exact hUri.nil .query
  | cons first others ih =>
      cases first with
      | itself _ hPercent hPlus =>
          rw [List.singleton_append, hUri.plain .query _ _ hPercent fun _ => hPlus, ih,
            Option.map_some]
      | escape h l high low hHigh hLow =>
          rw [List.cons_append, List.cons_append, List.singleton_append,
            hUri.escape .query h l high low _ hHigh hLow, ih, Option.map_some]
      | plus => rw [List.singleton_append, hUri.plus, ih, Option.map_some]

theorem EncodesPair.ampersand_not_mem {pair : Bytes × Bytes} {encoded : Bytes}
    (h : EncodesPair pair encoded) : ampersand ∉ encoded := by
  obtain ⟨key, value, hKey, hValue, rfl⟩ := h
  have hEquals : ampersand ≠ equals := by decide
  simpa [hEquals] using ⟨hKey.ampersand_not_mem, hValue.ampersand_not_mem⟩

theorem EncodesPair.length_le {pair : Bytes × Bytes} {encoded : Bytes}
    (h : EncodesPair pair encoded) : pair.2.length ≤ encoded.length := by
  obtain ⟨key, value, _, hValue, rfl⟩ := h
  have hLength := hValue.length_le
  simp only [List.length_append, List.length_cons]
  omega

/-- No value is longer than the body. -/
theorem EncodesForm.length_le {pairs : List (Bytes × Bytes)} {body : Bytes}
    (h : EncodesForm pairs body) {pair : Bytes × Bytes} (hMem : pair ∈ pairs) :
    pair.2.length ≤ body.length := by
  induction h with
  | none count => simp at hMem
  | last before hPair =>
      obtain rfl := List.mem_singleton.mp hMem
      have hLength := hPair.length_le
      simp only [List.length_append]
      omega
  | more before hPair others ih =>
      simp only [List.length_append, List.length_cons]
      rcases List.mem_cons.mp hMem with rfl | hRest
      · have hLength := hPair.length_le
        omega
      · have hLength := ih hRest
        omega

/-- The pieces between separators that are not empty. -/
def pieces (body : Bytes) : List Bytes := (body.splitOn ampersand).filter (· ≠ [])

theorem pieces_append (before after : Bytes) :
    pieces (before ++ ampersand :: after) = pieces before ++ pieces after := by
  simp only [pieces, List.splitOn_append_cons_self, List.filter_append]

theorem pieces_ampersands_append (count : Nat) (body : Bytes) :
    pieces (ampersands count ++ body) = pieces body := by
  induction count with
  | zero => rfl
  | succ count ih =>
      have hFirst := pieces_append [] (ampersands count ++ body)
      rw [ih] at hFirst
      simpa [ampersands, List.replicate_succ, pieces] using hFirst

theorem pieces_pair {pair : Bytes × Bytes} {encoded : Bytes} (h : EncodesPair pair encoded) :
    pieces encoded = [encoded] := by
  rw [pieces, List.splitOn_eq_singleton h.ampersand_not_mem]
  obtain ⟨key, value, _, _, rfl⟩ := h
  simp

/-- Splitting a form gives the texts of its pairs, in order. -/
theorem EncodesForm.pieces {pairs : List (Bytes × Bytes)} {body : Bytes} (h : EncodesForm pairs body) :
    List.Forall₂ EncodesPair pairs (pieces body) := by
  induction h with
  | none count =>
      have hNil := pieces_ampersands_append count []
      rw [List.append_nil] at hNil
      rw [hNil]
      exact .nil
  | last before hPair =>
      rw [pieces_ampersands_append, pieces_pair hPair]
      exact .cons hPair .nil
  | more before hPair others ih =>
      rw [pieces_append, pieces_ampersands_append, pieces_pair hPair]
      exact .cons hPair ih

end Text
