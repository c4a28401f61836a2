import Nozomi.Forms.Composition

/-! The four accessors, for every request. Whatever its body is, each of them tells the
values of one list of fields, and none takes the front of an empty vector. -/
namespace Nozomi

open Text

theorem length_le_intercalate {x : Bytes} {xs : List Bytes} (hMem : x ∈ xs) (separator : Bytes) :
    x.length ≤ (separator.intercalate xs).length := by
  induction xs with
  | nil => cases hMem
  | cons first xs ih =>
      cases xs with
      | nil => rw [List.mem_singleton.mp hMem, List.intercalate_singleton]
      | cons next xs =>
          rw [List.intercalate_cons_cons, List.length_append, List.length_append]
          rcases List.mem_cons.mp hMem with rfl | hRest
          · omega
          · have hLater := ih hRest
            omega

/-- No piece of a body is longer than the body, so that the bound on the body is a
bound on every value. -/
theorem length_le_of_mem_pieces {body piece : Bytes} (hMem : piece ∈ pieces body) :
    piece.length ≤ body.length := by
  have hWhole := length_le_intercalate (List.mem_filter.mp hMem).1 [ampersand]
  rwa [List.intercalate_splitOn] at hWhole

namespace PostParser

/-- A request whose body is parsed as a form. -/
def Posted (request : HTTPRequest) : Prop :=
  getSingleOrEmpty request.message.headers .contentType = ascii "application/x-www-form-urlencoded"

instance (request : HTTPRequest) : Decidable (Posted request) := inferInstanceAs (Decidable (_ = _))

/-- The fields that a request has. -/
def fieldsOf (uri : UriLibrary) (request : HTTPRequest) : List (Bytes × Bytes) :=
  if Posted request then (pieces request.body.bytes).map (field uri) else []

theorem length_splitKeyValue (piece : Bytes) : (splitKeyValue piece).2.length ≤ piece.length := by
  unfold splitKeyValue
  split
  · rw [List.length_drop]
    have hTail := (List.dropWhile_suffix (l := piece) (· ≠ equals)).length_le
    omega
  · exact Nat.zero_le _

/-- A value is not longer than its piece, whatever the decoding makes of it. -/
theorem length_field {uri : UriLibrary} (hUri : uri.Documented) (piece : Bytes) :
    (field uri piece).2.length ≤ piece.length := by
  apply le_trans _ (length_splitKeyValue piece)
  unfold field unescape
  cases hDecoded : uri.uriUnescape .query (splitKeyValue piece).2 with
  | none => exact le_rfl
  | some decoded => exact hUri.length_le hDecoded

/-- Below `2^31` bytes the parser puts the fields of the request into its table, or
none for another content type. -/
theorem parseRequest_eq (uri : UriLibrary) {request : HTTPRequest}
    (hSize : request.body.bytes.length < 2 ^ 31) :
    parseRequest uri request request.body = .ok (table (fieldsOf uri request)) := by
  unfold parseRequest HTTPRequest.getHeader fieldsOf Posted
  by_cases hPosted : getSingleOrEmpty request.message.headers .contentType =
      ascii "application/x-www-form-urlencoded"
  · simp only [hPosted, if_true, parseUrlEncoded_eq uri request.body hSize]
    rfl
  · by_cases hEmpty : getSingleOrEmpty request.message.headers .contentType = []
    · simp only [hEmpty, if_true]
      rfl
    · simp only [hEmpty, hPosted, if_false]
      split <;> rfl

/-- What the accessors of a parser tell, if it has some fields. -/
structure Tells (parser : PostParser) (fields : List (Bytes × Bytes)) (key : Bytes) : Prop where
  stringList : parser.getStringList key =
    .ok (if valuesOf fields key = [] then none else some (valuesOf fields key))
  binaryList : parser.getBinaryList key =
    if valuesOf fields key = [] then none else some ((valuesOf fields key).map IOBuf.copyBuffer)
  string : parser.getString key = some (.ok (valuesOf fields key).head?)
  binary : parser.getBinary key = some ((valuesOf fields key).head?.map IOBuf.copyBuffer)

/-- A parser is made for every such request, and tells its fields under every key. -/
theorem create_fieldsOf {uri : UriLibrary} (hUri : uri.Documented) {request : HTTPRequest}
    (hSize : request.body.bytes.length < 2 ^ 31) :
    ∃ parser, create uri request = .ok parser ∧ ∀ key, Tells parser (fieldsOf uri request) key := by
  refine ⟨⟨request.body, table (fieldsOf uri request)⟩, ?_, ?_⟩
  · rw [create, HTTPRequest.getBodyAsBytes, IOBuf.clone, parseRequest_eq uri hSize]
    rfl
  · have hLengths : ∀ pair ∈ fieldsOf uri request, pair.2.length < 2 ^ 31 := by
      intro pair hMem
      unfold fieldsOf at hMem
      split at hMem
      · obtain ⟨piece, hPiece, rfl⟩ := List.mem_map.mp hMem
        exact Nat.lt_of_le_of_lt (Nat.le_trans (length_field hUri piece) (length_le_of_mem_pieces hPiece)) hSize
      · cases hMem
    have hTable : (⟨request.body, table (fieldsOf uri request)⟩ : PostParser).parsedData.Holds
        (fieldsOf uri request) := table_holds _
    intro key
    obtain ⟨hStringList, hBinaryList, hString, hBinary⟩ := accessors_of_holds hTable hLengths key
    exact ⟨hStringList, hBinaryList, hString, hBinary⟩

/-- A parser can be made for every request, and whatever was posted, its accessors
agree: all four tell the values of the same fields, which are read from the pieces
of the body. -/
theorem create_accessors {uri : UriLibrary} (hUri : uri.Documented) {request : HTTPRequest}
    (hSize : request.body.bytes.length < 2 ^ 31) :
    ∃ parser fields, create uri request = .ok parser ∧
      (Posted request → List.Forall₂ (ReadField uri) (pieces request.body.bytes) fields) ∧
      (¬Posted request → fields = []) ∧ ∀ key, Tells parser fields key := by
  obtain ⟨parser, hParser, hTells⟩ := create_fieldsOf hUri hSize
  refine ⟨parser, fieldsOf uri request, hParser, ?_, ?_, hTells⟩
  · intro hPosted
    rw [fieldsOf, if_pos hPosted, List.forall₂_map_right_iff, List.forall₂_same]
    exact fun piece _ => field_readField uri piece
  · intro hOther
    rw [fieldsOf, if_neg hOther]

/-- The fields of a form that was written down are its pairs. -/
theorem fieldsOf_encodesForm {uri : UriLibrary} (hUri : uri.Documented) {request : HTTPRequest}
    (hPosted : Posted request) {pairs : List (Bytes × Bytes)}
    (hBody : EncodesForm pairs request.body.bytes) : fieldsOf uri request = pairs := by
  rw [fieldsOf, if_pos hPosted]
  exact map_unescape_pieces hUri hBody.pieces

/-- A content type with a parameter is another content type. -/
theorem create_accessors_example : ∃ parser, create uriDecoder ⟨⟨some .post, ascii "/",
      [(.contentType, ascii "application/x-www-form-urlencoded; charset=utf-8")]⟩, ⟨ascii "a=1", []⟩⟩ =
        .ok parser ∧ ∀ key, parser.getString key = some (.ok none) := by
  let request : HTTPRequest := ⟨⟨some .post, ascii "/",
    [(.contentType, ascii "application/x-www-form-urlencoded; charset=utf-8")]⟩, ⟨ascii "a=1", []⟩⟩
  have hSize : request.body.bytes.length < 2 ^ 31 := by decide
  obtain ⟨parser, fields, hParser, _, hNone, hAccessors⟩ := create_accessors uriDecoder_documented hSize
  obtain rfl := hNone (by decide)
  exact ⟨parser, hParser, fun key => (hAccessors key).string⟩

end PostParser

end Nozomi
