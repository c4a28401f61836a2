import Mathlib.Algebra.Ring.Nat
import Nozomi.Forms.RoundTrip

/-! Forms are read piece by piece. What a malformed escape leaves undecoded is
one half of one field, and no field is lost with it. -/
namespace Nozomi

open Text

namespace FormData

/-- The values of a key, of which a key that does not occur has none. -/
def values (data : FormData) (key : Bytes) : List IOBuf := (data.lookup key).getD []

/-- The number of values over all keys. -/
def valueCount (data : FormData) : Nat := (data.entries.map fun entry => entry.2.length).sum

/-- One more value, under whatever key. -/
theorem valueCount_pushBack (data : FormData) (key : Bytes) (value : IOBuf) :
    (data.pushBack key value).valueCount = data.valueCount + 1 := by
  rw [valueCount, pushBack, AList.entries_insert, List.map_cons, List.sum_cons]
  by_cases hKey : key ∈ data
  · obtain ⟨old, before, after, hBefore, hEntries, hErased⟩ := List.exists_of_kerase hKey
    have hLookup : data.lookup key = some old := by
      rw [← Option.mem_def, AList.mem_lookup_iff, hEntries]
      simp
    rw [hErased, hLookup, valueCount, hEntries]
    simp only [List.map_append, List.sum_append, List.map_cons, List.sum_cons, Option.getD_some,
      List.length_append, List.length_singleton]
    omega
  · have hLookup : data.lookup key = none := AList.lookup_eq_none.mpr hKey
    rw [List.kerase_of_notMem_keys hKey, hLookup]
    simp [valueCount, Nat.add_comm]

/-- The values under a key are buffers of the values that the form holds. -/
theorem Holds.values_eq {data : FormData} {pairs : List (Bytes × Bytes)} (h : data.Holds pairs)
    (key : Bytes) : data.values key = (valuesOf pairs key).map IOBuf.copyBuffer := by
  rw [values, h key]
  split
  · rename_i hNone
    simp [hNone]
  · rfl

end FormData

namespace PostParser

/-- A half of a field is decoded if it decodes, and otherwise it is kept. -/
def ReadHalf (uri : UriLibrary) (written read : Bytes) : Prop :=
  uri.uriUnescape .query written = some read ∨
    uri.uriUnescape .query written = none ∧ read = written

/-- The first `=` ends the key. A piece without one is a key with no value. -/
inductive ReadField (uri : UriLibrary) : Bytes → Bytes × Bytes → Prop where
  | pair {key value readKey readValue : Bytes} (hKey : equals ∉ key)
      (first : ReadHalf uri key readKey) (second : ReadHalf uri value readValue) :
      ReadField uri (key ++ equals :: value) (readKey, readValue)
  | single {key readKey readValue : Bytes} (hKey : equals ∉ key)
      (first : ReadHalf uri key readKey) (second : ReadHalf uri [] readValue) :
      ReadField uri key (readKey, readValue)

/-- A table has one value for each piece that is not empty, in their order, and
each is read on its own. -/
structure Reads (uri : UriLibrary) (text : Bytes) (table : FormData) : Prop where
  count : table.valueCount = (pieces text).length
  fields : ∃ fields, List.Forall₂ (ReadField uri) (pieces text) fields ∧
    ∀ key, table.values key = (valuesOf fields key).map IOBuf.copyBuffer

theorem unescape_readHalf (uri : UriLibrary) (written : Bytes) :
    ReadHalf uri written (unescape uri written) := by
  unfold ReadHalf unescape
  cases hDecoded : uri.uriUnescape .query written with
  | none => exact Or.inr ⟨rfl, rfl⟩
  | some read => exact Or.inl rfl

/-- Both halves of the field that a piece is read as. -/
def field (uri : UriLibrary) (piece : Bytes) : Bytes × Bytes :=
  (unescape uri (splitKeyValue piece).1, unescape uri (splitKeyValue piece).2)

theorem field_readField (uri : UriLibrary) (piece : Bytes) : ReadField uri piece (field uri piece) := by
  by_cases hMem : equals ∈ piece
  · obtain ⟨key, value, rfl, hKey⟩ := List.eq_append_cons_of_mem hMem
    rw [field, splitKeyValue_append hKey]
    exact .pair hKey (unescape_readHalf uri key) (unescape_readHalf uri value)
  · rw [field, splitKeyValue, if_neg hMem]
    exact .single hMem (unescape_readHalf uri piece) (unescape_readHalf uri [])

/-- The table that the loop of `parseUrlEncoded` fills. -/
def table (fields : List (Bytes × Bytes)) : FormData :=
  fields.foldl (fun ret kvp => FormData.pushBack ret kvp.1 (IOBuf.copyBuffer kvp.2)) ∅

/-- The parser makes a table of the fields in the pieces of the body, in their
order. -/
theorem parseUrlEncoded_eq (uri : UriLibrary) (body : IOBuf) (hSize : body.bytes.length < 2 ^ 31) :
    parseUrlEncoded uri body = .ok (table ((pieces body.bytes).map (field uri))) := by
  rw [parseUrlEncoded, toString_eq body hSize]
  rfl

theorem table_holds (fields : List (Bytes × Bytes)) : (table fields).Holds fields := by
  have hEmpty : (∅ : FormData).Holds [] := fun key => by simp
  simpa only [table, List.nil_append] using foldl_pushBack_holds fields [] ∅ hEmpty

theorem valueCount_table (fields : List (Bytes × Bytes)) :
    (table fields).valueCount = fields.length := by
  have hLoop : ∀ (rest : List (Bytes × Bytes)) (data : FormData),
      (rest.foldl (fun ret kvp => FormData.pushBack ret kvp.1 (IOBuf.copyBuffer kvp.2)) data).valueCount =
        data.valueCount + rest.length := by
    intro rest
    induction rest with
    | nil => intro data; rfl
    | cons pair rest ih =>
        intro data
        rw [List.foldl_cons, ih, FormData.valueCount_pushBack, List.length_cons]
        omega
  rw [table, hLoop]
  exact Nat.zero_add _

theorem table_reads (uri : UriLibrary) (text : Bytes) :
    Reads uri text (table ((pieces text).map (field uri))) where
  count := by rw [valueCount_table, List.length_map]
  fields := by
    refine ⟨(pieces text).map (field uri), ?_, (table_holds _).values_eq⟩
    rw [List.forall₂_map_right_iff, List.forall₂_same]
    exact fun piece _ => field_readField uri piece

/-- A form that is put together from two is read as both, key by key. Each of
the three bodies may be cut into segments in any way, and may be malformed. -/
theorem parseUrlEncoded_append (uri : UriLibrary) {whole first second : IOBuf}
    (hBytes : whole.bytes = first.bytes ++ ampersand :: second.bytes)
    (hSize : first.bytes.length + second.bytes.length < 2 ^ 31 - 1) :
    ∃ data before after, parseUrlEncoded uri whole = .ok data ∧
      parseUrlEncoded uri first = .ok before ∧ parseUrlEncoded uri second = .ok after ∧
      (∀ key, data.values key = before.values key ++ after.values key) ∧
      Reads uri whole.bytes data ∧ Reads uri first.bytes before ∧ Reads uri second.bytes after := by
  have hWhole : whole.bytes.length < 2 ^ 31 := by
    rw [hBytes, List.length_append, List.length_cons]
    omega
  refine ⟨_, _, _, parseUrlEncoded_eq uri whole hWhole, parseUrlEncoded_eq uri first (by omega),
    parseUrlEncoded_eq uri second (by omega), ?_, table_reads uri _, table_reads uri _,
    table_reads uri _⟩
  intro key
  rw [(table_holds _).values_eq, (table_holds _).values_eq, (table_holds _).values_eq, hBytes,
    pieces_append, List.map_append, valuesOf_append, List.map_append]

/-- A malformed key in the first half, and stray separators in both. -/
theorem parseUrlEncoded_append_example :
    ∃ data before after,
      parseUrlEncoded uriDecoder ⟨ascii "%=+&&a", [[], ascii "=1&=&a"]⟩ = .ok data ∧
      parseUrlEncoded uriDecoder ⟨ascii "%=+&&a=1", []⟩ = .ok before ∧
      parseUrlEncoded uriDecoder ⟨[], [ascii "=&a"]⟩ = .ok after ∧
      (∀ key, data.values key = before.values key ++ after.values key) ∧
      Reads uriDecoder (ascii "%=+&&a=1&=&a") data ∧ Reads uriDecoder (ascii "%=+&&a=1") before ∧
      Reads uriDecoder (ascii "=&a") after :=
  parseUrlEncoded_append uriDecoder rfl (by decide)

end PostParser

end Nozomi
