import Mathlib.Data.List.Basic

/-! Byte strings as `std::string` holds them, and the components of a path
read as text. No encoding is assumed: every byte value may occur anywhere. -/
namespace Text

abbrev Byte := UInt8
abbrev Bytes := List Byte

/-- The bytes of a literal of the source. Only ASCII literals occur there. -/
def ascii (literal : String) : Bytes := literal.toList.map fun c => UInt8.ofNat c.toNat

/-- The bytes of a literal, from the characters that it unfolds to. A proof about a literal
is faster with them than with the text that has to be decoded first. -/
theorem ascii_ofList (chars : List Char) :
    ascii (String.ofList chars) = chars.map fun c => UInt8.ofNat c.toNat := by
  rw [ascii, String.toList_ofList]

abbrev slash : Byte := 0x2F
abbrev dot : Bytes := [0x2E]
abbrev dotDot : Bytes := [0x2E, 0x2E]

def slashes (count : Nat) : Bytes := List.replicate count slash

/-- A text split at every `/`, without the empty parts and the `.` parts.
This is how a path is resolved, whatever library produced its text. -/
def parts (path : Bytes) : List Bytes :=
  (path.splitOn slash).filter fun part => part ≠ [] ∧ part ≠ dot

@[simp] theorem parts_nil : parts [] = [] := rfl

theorem parts_append_slash (before after : Bytes) :
    parts (before ++ slash :: after) = parts before ++ parts after := by
  simp only [parts, List.splitOn_append_cons_self, List.filter_append]

@[simp] theorem parts_cons_slash (path : Bytes) : parts (slash :: path) = parts path := by
  simpa using parts_append_slash [] path

@[simp] theorem parts_slashes_append (count : Nat) (path : Bytes) :
    parts (slashes count ++ path) = parts path := by
  induction count with
  | zero => rfl
  | succ count ih => simpa [slashes, List.replicate_succ] using ih

/-- A component of a path: not empty, and without a separator. -/
structure IsName (name : Bytes) : Prop where
  ne_nil : name ≠ []
  slash_not_mem : slash ∉ name

theorem IsName.ne_slash {name : Bytes} (h : IsName name) {c : Byte} (hc : c ∈ name) : c ≠ slash :=
  fun he => h.slash_not_mem (he ▸ hc)

theorem IsName.head_ne {name : Bytes} (h : IsName name) (rest : Bytes) :
    (name ++ rest).head? ≠ some slash := by
  cases name with
  | nil => exact absurd rfl h.ne_nil
  | cons c name => simpa using h.ne_slash (List.mem_cons_self ..)

theorem IsName.getLast_ne {name : Bytes} (h : IsName name) : name.getLast? ≠ some slash :=
  fun hLast => h.slash_not_mem (List.mem_of_getLast? hLast)

/-- A name is its own only part, unless it is the current directory. -/
theorem parts_name {name : Bytes} (h : IsName name) :
    parts name = if name = dot then [] else [name] := by
  rw [parts, List.splitOn_eq_singleton h.slash_not_mem]
  by_cases hDot : name = dot
  · simp [hDot]
  · simp [hDot, h.ne_nil]

/-- Every text is a run of slashes followed by a text that starts with none. -/
theorem exists_slashes_append (path : Bytes) :
    ∃ count rest, path = slashes count ++ rest ∧ rest.head? ≠ some slash := by
  induction path with
  | nil => exact ⟨0, [], rfl, by simp⟩
  | cons c path ih =>
      by_cases hc : c = slash
      · obtain ⟨count, rest, hPath, hRest⟩ := ih
        exact ⟨count + 1, rest, by simp [slashes, List.replicate_succ, hc, hPath], hRest⟩
      · exact ⟨0, c :: path, rfl, by simpa using hc⟩

/-- A nonempty text that starts with no slash is a name, followed by nothing
or by a run of slashes and a text that again starts with none. -/
theorem exists_name_append (path : Bytes) (hNil : path ≠ []) (hHead : path.head? ≠ some slash) :
    ∃ name, IsName name ∧ (path = name ∨
      ∃ count rest, path = name ++ slashes (count + 1) ++ rest ∧ rest.head? ≠ some slash) := by
  induction path with
  | nil => exact absurd rfl hNil
  | cons c path ih =>
      have hc : c ≠ slash := by simpa using hHead
      by_cases hEnd : path = []
      · subst hEnd
        exact ⟨[c], ⟨by simp, by simpa using Ne.symm hc⟩, Or.inl rfl⟩
      by_cases hSlash : path.head? = some slash
      · obtain ⟨count, rest, hPath, hRest⟩ := exists_slashes_append path
        refine ⟨[c], ⟨by simp, by simpa using Ne.symm hc⟩, Or.inr ?_⟩
        cases count with
        | zero => exact absurd (by simpa [slashes, hPath] using hSlash) hRest
        | succ count => exact ⟨count, rest, by simp [hPath], hRest⟩
      · obtain ⟨name, hName, hTail⟩ := ih hEnd hSlash
        refine ⟨c :: name, ⟨by simp, by simpa [hName.slash_not_mem] using Ne.symm hc⟩, ?_⟩
        rcases hTail with rfl | ⟨count, rest, rfl, hRest⟩
        · exact Or.inl rfl
        · exact Or.inr ⟨count, rest, by simp, hRest⟩

end Text
