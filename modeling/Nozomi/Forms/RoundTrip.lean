import Nozomi.Forms.Encoding
import Nozomi.Forms.PostParser

/-! A form that was written down in any admissible way is read back exactly. -/
namespace Nozomi

open Text

/-- The values that a list of pairs has for a key, in order. -/
def valuesOf (pairs : List (Bytes × Bytes)) (key : Bytes) : List Bytes :=
  (pairs.filter fun pair => pair.1 = key).map Prod.snd

@[simp] theorem valuesOf_nil (key : Bytes) : valuesOf [] key = [] := rfl

theorem valuesOf_append (first second : List (Bytes × Bytes)) (key : Bytes) :
    valuesOf (first ++ second) key = valuesOf first key ++ valuesOf second key := by
  simp [valuesOf]

/-- A table holds just the values of a list of pairs, and no key without one. -/
def FormData.Holds (data : FormData) (pairs : List (Bytes × Bytes)) : Prop :=
  ∀ key, data.lookup key =
    if valuesOf pairs key = [] then none else some ((valuesOf pairs key).map IOBuf.copyBuffer)

theorem FormData.Holds.pushBack {data : FormData} {pairs : List (Bytes × Bytes)}
    (h : data.Holds pairs) (key value : Bytes) :
    (data.pushBack key (IOBuf.copyBuffer value)).Holds (pairs ++ [(key, value)]) := by
  intro other
  rw [valuesOf_append, FormData.pushBack]
  by_cases hKey : other = key
  · subst hKey
    rw [AList.lookup_insert, h other]
    have hNew : valuesOf [(other, value)] other = [value] := by simp [valuesOf]
    by_cases hNone : valuesOf pairs other = [] <;> simp [hNew, hNone]
  · rw [AList.lookup_insert_ne hKey, h other]
    have hNew : valuesOf [(key, value)] other = [] := by simp [valuesOf, Ne.symm hKey]
    rw [hNew, List.append_nil]

namespace PostParser

/-- The loop that fills the table. -/
theorem foldl_pushBack_holds (pairs before : List (Bytes × Bytes)) (data : FormData)
    (h : data.Holds before) :
    (pairs.foldl (fun ret kvp => FormData.pushBack ret kvp.1 (IOBuf.copyBuffer kvp.2)) data).Holds
      (before ++ pairs) := by
  induction pairs generalizing before data with
  | nil => simpa using h
  | cons pair pairs ih => simpa using ih (before ++ [pair]) _ (h.pushBack pair.1 pair.2)

/-- A piece is split at its first equals sign, which is the one after the key. -/
theorem splitKeyValue_append {key : Bytes} (hKey : equals ∉ key) (value : Bytes) :
    splitKeyValue (key ++ equals :: value) = (key, value) := by
  have hBefore : ∀ c ∈ key, decide (c ≠ equals) = true := by
    intro c hMem
    simpa using fun hc : c = equals => hKey (hc ▸ hMem)
  have hMem : equals ∈ key ++ equals :: value := by simp
  rw [splitKeyValue, if_pos hMem, List.takeWhile_append_of_pos hBefore,
    List.dropWhile_append_of_pos hBefore]
  simp

/-- Reading values out of single buffers. -/
theorem mapM_toString (values : List Bytes) (hSize : ∀ value ∈ values, value.length < 2 ^ 31) :
    (values.map IOBuf.copyBuffer).mapM toString = .ok values := by
  induction values with
  | nil => rfl
  | cons value values ih =>
      have hFirst : toString (IOBuf.copyBuffer value) = .ok value := by
        rw [toString_eq _ (by simpa using hSize value (by simp)), IOBuf.bytes_copyBuffer]
      rw [List.map_cons, List.mapM_cons, hFirst, ih fun other hMem => hSize other (by simp [hMem])]
      rfl

/-- What the accessors return when the table holds a list of pairs. The single ones
look at the first value under the key, if there is any. -/
theorem accessors_of_holds {parser : PostParser} {pairs : List (Bytes × Bytes)}
    (hHolds : parser.parsedData.Holds pairs) (hSize : ∀ pair ∈ pairs, pair.2.length < 2 ^ 31)
    (key : Bytes) :
    parser.getStringList key =
        .ok (if valuesOf pairs key = [] then none else some (valuesOf pairs key)) ∧
      parser.getBinaryList key =
        (if valuesOf pairs key = [] then none
          else some ((valuesOf pairs key).map IOBuf.copyBuffer)) ∧
      parser.getString key = some (.ok (valuesOf pairs key).head?) ∧
      parser.getBinary key = some ((valuesOf pairs key).head?.map IOBuf.copyBuffer) := by
  have hValues : ∀ value ∈ valuesOf pairs key, value.length < 2 ^ 31 := by
    intro value hMem
    obtain ⟨pair, hPair, rfl⟩ := List.mem_map.mp hMem
    exact hSize pair (List.mem_filter.mp hPair).1
  have hLookup := hHolds key
  have hStrings := mapM_toString _ hValues
  cases hCase : valuesOf pairs key with
  | nil =>
      rw [hCase] at hLookup
      simp [getStringList, getBinaryList, getString, getBinary, hLookup]
  | cons value values =>
      rw [hCase] at hLookup hValues hStrings
      have hFirst : toString (IOBuf.copyBuffer value) = .ok value := by
        rw [toString_eq _ (by simpa using hValues value (by simp)), IOBuf.bytes_copyBuffer]
      rw [if_neg (by simp)] at hLookup
      refine ⟨?_, ?_, ?_, ?_⟩
      · simp only [getStringList, hLookup, hStrings]
        rfl
      · simp [getBinaryList, hLookup, IOBuf.clone]
      · simp only [getString, hLookup, List.map_cons, List.head?_cons, Option.map_some, hFirst]
        rfl
      · simp [getBinary, hLookup, IOBuf.clone]

section Documented

variable {uri : UriLibrary} (hUri : uri.Documented)
include hUri

theorem unescape_encodes {key : Bool} {text encoded : Bytes} (h : Encodes key text encoded) :
    unescape uri encoded = text := by
  rw [unescape, h.uriUnescape hUri, Option.getD_some]

/-- One piece of the body is read back as its pair. -/
theorem unescape_pair {pair : Bytes × Bytes} {encoded : Bytes} (h : EncodesPair pair encoded) :
    (unescape uri (splitKeyValue encoded).1, unescape uri (splitKeyValue encoded).2) = pair := by
  obtain ⟨key, value, hKey, hValue, rfl⟩ := h
  rw [splitKeyValue_append hKey.equals_not_mem, unescape_encodes hUri hKey,
    unescape_encodes hUri hValue]

theorem map_unescape_pieces {pairs : List (Bytes × Bytes)} {encoded : List Bytes}
    (h : List.Forall₂ EncodesPair pairs encoded) :
    (encoded.map fun piece =>
      (unescape uri (splitKeyValue piece).1, unescape uri (splitKeyValue piece).2)) = pairs := by
  induction h with
  | nil => rfl
  | cons hPair others ih => rw [List.map_cons, unescape_pair hUri hPair, ih]

/-- The parser puts the pairs of a form into its table. Below `2^31` bytes the body
is read as it arrived. -/
theorem parseUrlEncoded_holds {pairs : List (Bytes × Bytes)} {body : IOBuf}
    (hBody : EncodesForm pairs body.bytes) (hSize : body.bytes.length < 2 ^ 31) :
    ∃ data, parseUrlEncoded uri body = .ok data ∧ data.Holds pairs := by
  have hPieces := map_unescape_pieces hUri hBody.pieces
  have hEmpty : (∅ : FormData).Holds [] := fun key => by simp
  refine ⟨_, ?_, by simpa using foldl_pushBack_holds pairs [] ∅ hEmpty⟩
  rw [← hPieces, parseUrlEncoded, toString_eq body hSize]
  rfl

/-- Every admissible encoding of every form, in every split into segments, is
read back: the lists have the values of each key in order, the single accessors
the first of them, and a key that does not occur has none. -/
theorem create_encodesForm {pairs : List (Bytes × Bytes)} {request : HTTPRequest}
    (hType : getSingleOrEmpty request.message.headers .contentType =
      ascii "application/x-www-form-urlencoded")
    (hBody : EncodesForm pairs request.body.bytes) (hSize : request.body.bytes.length < 2 ^ 31) :
    ∃ parser, create uri request = .ok parser ∧ ∀ key,
      parser.getStringList key =
          .ok (if valuesOf pairs key = [] then none else some (valuesOf pairs key)) ∧
        parser.getBinaryList key =
          (if valuesOf pairs key = [] then none
            else some ((valuesOf pairs key).map IOBuf.copyBuffer)) ∧
        parser.getString key = some (.ok (valuesOf pairs key).head?) ∧
        parser.getBinary key = some ((valuesOf pairs key).head?.map IOBuf.copyBuffer) := by
  obtain ⟨data, hParse, hHolds⟩ := parseUrlEncoded_holds hUri hBody hSize
  refine ⟨⟨request.body, data⟩, ?_, ?_⟩
  · have hHeader : request.getHeader .contentType =
        some (ascii "application/x-www-form-urlencoded") := by
      rw [HTTPRequest.getHeader, hType]
      rfl
    simp only [create, parseRequest, hHeader, if_true, HTTPRequest.getBodyAsBytes, IOBuf.clone, hParse]
    rfl
  · intro key
    exact accessors_of_holds hHolds (fun pair hMem => by have := hBody.length_le hMem; omega) key

end Documented

/-- The pairs `(a, =)` and `(a, " ")`, cut in the middle of an escape. -/
theorem create_encodesForm_example :
    ∃ parser, create uriDecoder ⟨⟨some .post, ascii "/",
        [(.contentType, ascii "application/x-www-form-urlencoded")]⟩,
        ⟨[], [ascii "&a==&&%6", ascii "1=+"]⟩⟩ = .ok parser ∧ ∀ key,
      parser.getStringList key =
          .ok (if valuesOf [(ascii "a", ascii "="), (ascii "a", ascii " ")] key = [] then none
            else some (valuesOf [(ascii "a", ascii "="), (ascii "a", ascii " ")] key)) ∧
        parser.getBinaryList key =
          (if valuesOf [(ascii "a", ascii "="), (ascii "a", ascii " ")] key = [] then none
            else some ((valuesOf [(ascii "a", ascii "="), (ascii "a", ascii " ")] key).map
              IOBuf.copyBuffer)) ∧
        parser.getString key =
          some (.ok (valuesOf [(ascii "a", ascii "="), (ascii "a", ascii " ")] key).head?) ∧
        parser.getBinary key =
          some ((valuesOf [(ascii "a", ascii "="), (ascii "a", ascii " ")] key).head?.map
            IOBuf.copyBuffer) := by
  have hFirst : EncodesPair (ascii "a", ascii "=") (ascii "a==") :=
    ⟨_, _, .cons (.itself 0x61 (by decide) (by decide) (by decide) (by decide)) .nil,
      .cons (.itself equals (by decide) (by decide) (by decide) (by decide)) .nil, rfl⟩
  have hSecond : EncodesPair (ascii "a", ascii " ") (ascii "%61=+") :=
    ⟨_, _, .cons (.escape 0x36 0x31 6 1 rfl rfl) .nil, .cons .plus .nil, rfl⟩
  exact create_encodesForm uriDecoder_documented rfl (.more 1 hFirst (.last 1 hSecond)) (by decide)

end PostParser

end Nozomi
