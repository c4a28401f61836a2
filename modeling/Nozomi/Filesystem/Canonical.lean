import Nozomi.Filesystem.Path

/-! Path texts built up element by element. A text that only `/=` with an
element and `remove_filename` have touched is the text of one of four shapes,
and both operations act on the shape as on a stack. -/
namespace Filesystem

open Text

/-- Names joined with one separator. -/
def joinNames (names : List Bytes) : Bytes := [slash].intercalate names

@[simp] theorem joinNames_nil : joinNames [] = [] := rfl

@[simp] theorem joinNames_singleton (name : Bytes) : joinNames [name] = name := by
  simp [joinNames, List.intercalate]

theorem joinNames_cons_cons (name next : Bytes) (names : List Bytes) :
    joinNames (name :: next :: names) = name ++ slash :: joinNames (next :: names) := by
  simp [joinNames, List.intercalate, List.intersperse]

/-- A name is added at the end after one slash. This is how `operator/=` builds a
path, while `joinNames` is by recursion from its beginning. -/
theorem joinNames_append_singleton (names : List Bytes) (name : Bytes) (hNames : names ≠ []) :
    joinNames (names ++ [name]) = joinNames names ++ slash :: name := by
  induction names with
  | nil => exact absurd rfl hNames
  | cons first names ih =>
      cases names with
      | nil => simp [joinNames_cons_cons]
      | cons next names =>
          have hRest := ih (by simp)
          simp only [List.cons_append] at hRest ⊢
          rw [joinNames_cons_cons, joinNames_cons_cons, hRest]
          simp

theorem joinNames_head_ne (names : List Bytes) (hNames : ∀ name ∈ names, IsName name) :
    (joinNames names).head? ≠ some slash := by
  cases names with
  | nil => simp
  | cons name names =>
      have hName := hNames name (by simp)
      cases names with
      | nil => simpa using hName.head_ne []
      | cons next names =>
          rw [joinNames_cons_cons]
          exact hName.head_ne _

theorem joinNames_ne_nil (names : List Bytes) (hNames : ∀ name ∈ names, IsName name)
    (hNil : names ≠ []) : joinNames names ≠ [] := by
  cases names with
  | nil => exact absurd rfl hNil
  | cons name names =>
      have hName := (hNames name (by simp)).ne_nil
      cases names with
      | nil => simpa using hName
      | cons next names => simp [joinNames_cons_cons]

/-- Joined names end as the last of them does, which is no separator. -/
theorem joinNames_getLast_ne (names : List Bytes) (hNames : ∀ name ∈ names, IsName name) :
    (joinNames names).getLast? ≠ some slash := by
  rcases List.eq_nil_or_concat' names with rfl | ⟨names, name, rfl⟩
  · simp
  · have hName := hNames name (by simp)
    cases hLast : name.getLast? with
    | none => exact absurd (List.getLast?_eq_none_iff.mp hLast) hName.ne_nil
    | some c =>
        have hc : c ≠ slash := fun he => hName.getLast_ne (he ▸ hLast)
        by_cases hNil : names = []
        · simpa [hNil, hLast] using hc
        · simpa [joinNames_append_singleton names name hNil, List.getLast?_append,
            List.getLast?_cons, hLast] using hc

/-- After a slash, or at the beginning, a name is appended without a separator. -/
theorem joined_open {p name : Bytes} (hOpen : p = [] ∨ p.getLast? = some slash)
    (hName : IsName name) : joined p name = p ++ name := by
  rw [joined, if_neg hName.ne_nil, if_pos (by tauto)]

theorem joined_closed {p name : Bytes} (hNil : p ≠ []) (hLast : p.getLast? ≠ some slash)
    (hName : IsName name) : joined p name = p ++ slash :: name := by
  have hHead : name.head? ≠ some slash := by simpa using hName.head_ne []
  rw [joined, if_neg hName.ne_nil, if_neg (by tauto)]

/-- Below a root that already ends in a separator, or below no root at all,
one more name is joined to the names before it. -/
theorem joined_under (root : Bytes) (hRoot : root = [] ∨ root.getLast? = some slash)
    {names : List Bytes} (hNames : ∀ name ∈ names, IsName name)
    {name : Bytes} (hName : IsName name) :
    joined (root ++ joinNames names) name = root ++ joinNames (names ++ [name]) := by
  by_cases hNil : names = []
  · simpa [hNil] using joined_open hRoot hName
  · have hJoin := joinNames_ne_nil names hNames hNil
    have hLast : (root ++ joinNames names).getLast? ≠ some slash := by
      rw [List.getLast?_append_of_ne_nil _ hJoin]
      exact joinNames_getLast_ne names hNames
    rw [joined_closed (by simp [hJoin]) hLast hName, joinNames_append_singleton names name hNil]
    simp

/-- The shapes of a built-up text. Only a network root without a root
directory has no names under it. -/
inductive Canonical where
  | relative (names : List Bytes)
  | absolute (names : List Bytes)
  | net (host : Bytes)
  | netRoot (host : Bytes) (names : List Bytes)
  deriving DecidableEq

namespace Canonical

def text : Canonical → Bytes
  | relative names => joinNames names
  | absolute names => slash :: joinNames names
  | net host => slashes 2 ++ host
  | netRoot host names => slashes 2 ++ host ++ slash :: joinNames names

def elements : Canonical → List Bytes
  | relative names => names
  | absolute names => [slash] :: names
  | net host => [slashes 2 ++ host]
  | netRoot host names => (slashes 2 ++ host) :: [slash] :: names

def names : Canonical → List Bytes
  | relative names | absolute names | netRoot _ names => names
  | net _ => []

def host : Canonical → Option Bytes
  | relative _ | absolute _ => none
  | net host | netRoot host _ => some host

/-- Every name under the root and the network host are components. -/
structure WellFormed (c : Canonical) : Prop where
  names : ∀ name ∈ c.names, IsName name
  host : ∀ host, c.host = some host → IsName host

/-- A name written directly after a network root puts the root directory
between them. -/
def push : Canonical → Bytes → Canonical
  | relative names, name => relative (names ++ [name])
  | absolute names, name => absolute (names ++ [name])
  | net host, name => netRoot host [name]
  | netRoot host names, name => netRoot host (names ++ [name])

def pop : Canonical → Canonical
  | relative names => relative names.dropLast
  | absolute [] => relative []
  | absolute names => absolute names.dropLast
  | net _ => relative []
  | netRoot host [] => net host
  | netRoot host names => netRoot host names.dropLast

/-- A name may be pushed to every shape. A network root alone gets its root
directory on the way. -/
theorem WellFormed.push {c : Canonical} (h : c.WellFormed) {name : Bytes} (hName : IsName name) :
    (c.push name).WellFormed := by
  obtain ⟨hNames, hHost⟩ := h
  cases c with
  | net host => exact ⟨by simpa [Canonical.push, Canonical.names] using hName, hHost⟩
  | relative names | absolute names | netRoot host names =>
      refine ⟨?_, hHost⟩
      intro other hMem
      rcases List.mem_append.mp hMem with hOld | hNew
      · exact hNames other hOld
      · simpa [List.mem_singleton.mp hNew] using hName

theorem WellFormed.pop {c : Canonical} (h : c.WellFormed) : c.pop.WellFormed := by
  obtain ⟨hNames, hHost⟩ := h
  cases c with
  | relative names =>
      exact ⟨fun name hMem => hNames name (List.dropLast_subset _ hMem), hHost⟩
  | net host => exact ⟨by simp [Canonical.pop, Canonical.names], by simp [Canonical.pop, Canonical.host]⟩
  | absolute names =>
      cases names with
      | nil => exact ⟨by simp [Canonical.pop, Canonical.names], hHost⟩
      | cons first names =>
          exact ⟨fun name hMem => hNames name (List.dropLast_subset _ hMem), hHost⟩
  | netRoot host names =>
      cases names with
      | nil => exact ⟨by simp [Canonical.pop, Canonical.names], hHost⟩
      | cons first names =>
          exact ⟨fun name hMem => hNames name (List.dropLast_subset _ hMem), hHost⟩

theorem foldl_push_relative (names start : List Bytes) :
    names.foldl push (relative start) = relative (start ++ names) := by
  induction names generalizing start with
  | nil => simp
  | cons name names ih => simp [push, ih]

theorem foldl_push_absolute (names start : List Bytes) :
    names.foldl push (absolute start) = absolute (start ++ names) := by
  induction names generalizing start with
  | nil => simp
  | cons name names ih => simp [push, ih]

theorem foldl_push_netRoot (host : Bytes) (names start : List Bytes) :
    names.foldl push (netRoot host start) = netRoot host (start ++ names) := by
  induction names generalizing start with
  | nil => simp
  | cons name names ih => simp [push, ih]

/-- The last element of a shape is what `remove_filename` takes off its text. -/
theorem elements_pop (c : Canonical) : c.pop.elements = c.elements.dropLast := by
  cases c with
  | relative names => rfl
  | net host => rfl
  | absolute names => cases names <;> simp [pop, elements]
  | netRoot host names => cases names <;> simp [pop, elements]

/-- The parts of the text are the host and the names, as far as these are
not the current directory. -/
theorem parts_text {c : Canonical} (h : c.WellFormed) :
    parts c.text = (c.host.toList ++ c.names).filter (· ≠ dot) := by
  have hJoin : ∀ names : List Bytes, (∀ name ∈ names, IsName name) →
      parts (joinNames names) = names.filter (· ≠ dot) := by
    intro names hNames
    induction names with
    | nil => rfl
    | cons name names ih =>
        have hName := hNames name (by simp)
        have hRest := ih fun other hMem => hNames other (by simp [hMem])
        cases names with
        | nil =>
            rw [joinNames_singleton, parts_name hName]
            by_cases hDot : name = dot <;> simp [hDot]
        | cons next names =>
            rw [joinNames_cons_cons, parts_append_slash, hRest, parts_name hName]
            by_cases hDot : name = dot <;> simp [hDot, List.filter_cons]
  obtain ⟨hNames, hHost⟩ := h
  cases c with
  | relative names => simpa [text, Canonical.host, Canonical.names] using hJoin names hNames
  | absolute names => simpa [text, Canonical.host, Canonical.names] using hJoin names hNames
  | net host =>
      rw [text, parts_slashes_append, parts_name (hHost host rfl)]
      by_cases hDot : host = dot <;> simp [Canonical.host, Canonical.names, hDot]
  | netRoot host names =>
      rw [text, List.append_assoc, parts_slashes_append, parts_append_slash, hJoin names hNames,
        parts_name (hHost host rfl)]
      by_cases hDot : host = dot <;> simp [Canonical.host, Canonical.names, hDot]

end Canonical

section Library

variable {library : PathLibrary} (hPosix : library.Posix)
include hPosix

/-- The iterator of the library finds the joined names again, in their order. -/
theorem elements_joinNames (names : List Bytes) (hNames : ∀ name ∈ names, IsName name) :
    library.elements (joinNames names) = names := by
  induction names with
  | nil => exact hPosix.elements_nil
  | cons name names ih =>
      have hName := hNames name (by simp)
      have hRest : ∀ other ∈ names, IsName other := fun other hMem => hNames other (by simp [hMem])
      cases names with
      | nil => simpa using hPosix.elements_name name hName
      | cons next names =>
          have hCons := hPosix.elements_cons name 0 _ hName
            (joinNames_ne_nil _ hRest (by simp)) (joinNames_head_ne _ hRest)
          rw [ih hRest] at hCons
          simpa [joinNames_cons_cons, slashes] using hCons

/-- The elements that the library finds in the text of a shape are those of the
shape. The cases are the shapes, with their roots before the names. -/
theorem elements_text {c : Canonical} (h : c.WellFormed) :
    library.elements c.text = c.elements := by
  obtain ⟨hNames, hHost⟩ := h
  cases c with
  | relative names => exact elements_joinNames hPosix names hNames
  | absolute names =>
      have hRoot := hPosix.elements_root 1 (joinNames names) (Or.inl rfl)
        (joinNames_head_ne names hNames)
      rw [elements_joinNames hPosix names hNames] at hRoot
      simpa [slashes, Canonical.text, Canonical.elements] using hRoot
  | net host => exact hPosix.elements_net host (hHost host rfl)
  | netRoot host names =>
      have hRoot := hPosix.elements_net_root host 0 (joinNames names) (hHost host rfl)
        (joinNames_head_ne names hNames)
      rw [elements_joinNames hPosix names hNames] at hRoot
      simpa [slashes, Canonical.text, Canonical.elements] using hRoot

/-- Appending a name to a text is pushing it on the shape. The cases are the shapes,
which differ in whether their text ends in a slash. -/
theorem append_text {c : Canonical} (h : c.WellFormed) {name : Bytes} (hName : IsName name) :
    library.append c.text name = (c.push name).text := by
  obtain ⟨hNames, hHost⟩ := h
  rw [hPosix.append_eq]
  cases c with
  | relative names => exact joined_under [] (Or.inl rfl) hNames hName
  | absolute names => exact joined_under [slash] (Or.inr rfl) hNames hName
  | net host =>
      have hLast := (hHost host rfl).getLast_ne
      have hText : (slashes 2 ++ host).getLast? ≠ some slash := by
        rw [List.getLast?_append_of_ne_nil _ (hHost host rfl).ne_nil]
        exact hLast
      have hClosed := joined_closed (by simp [slashes]) hText hName
      simpa [Canonical.text, Canonical.push] using hClosed
  | netRoot host names =>
      have hUnder := joined_under (slashes 2 ++ host ++ [slash]) (Or.inr (by simp)) hNames hName
      simpa [Canonical.text, Canonical.push, Canonical.names] using hUnder

theorem append_root : library.append [] [slash] = (Canonical.absolute []).text := by
  rw [hPosix.append_eq]
  rfl

theorem append_net {host : Bytes} : library.append [] (slashes 2 ++ host) = (Canonical.net host).text := by
  rw [hPosix.append_eq]
  simp [joined, slashes, Canonical.text]

theorem append_netRoot {host : Bytes} :
    library.append (Canonical.net host).text [slash] = (Canonical.netRoot host []).text := by
  rw [hPosix.append_eq]
  simp [joined, Canonical.text]

/-- A text is rebuilt from its elements. The roots come first, and then one name after
the other is appended. -/
theorem foldl_append_elements {c : Canonical} (h : c.WellFormed) :
    c.elements.foldl library.append [] = c.text := by
  have hFold : ∀ (names : List Bytes) (start : Canonical), start.WellFormed →
      (∀ name ∈ names, IsName name) →
      names.foldl library.append start.text = (names.foldl Canonical.push start).text := by
    intro names
    induction names with
    | nil => intro start _ _; rfl
    | cons name names ih =>
        intro start hStart hNames
        have hName := hNames name (by simp)
        rw [List.foldl_cons, List.foldl_cons, append_text hPosix hStart hName]
        exact ih _ (hStart.push hName) fun other hMem => hNames other (by simp [hMem])
  obtain ⟨hNames, hHost⟩ := h
  cases c with
  | relative names =>
      rw [Canonical.elements]
      have hRelative := hFold names (.relative [])
        ⟨by simp [Canonical.names], by simp [Canonical.host]⟩ hNames
      rwa [Canonical.foldl_push_relative, List.nil_append] at hRelative
  | absolute names =>
      rw [Canonical.elements, List.foldl_cons, append_root hPosix]
      have hAbsolute := hFold names (.absolute [])
        ⟨by simp [Canonical.names], by simp [Canonical.host]⟩ hNames
      rwa [Canonical.foldl_push_absolute, List.nil_append] at hAbsolute
  | net host => exact append_net hPosix
  | netRoot host names =>
      rw [Canonical.elements, List.foldl_cons, List.foldl_cons, append_net hPosix,
        append_netRoot hPosix]
      have hNet := hFold names (.netRoot host []) ⟨by simp [Canonical.names], hHost⟩ hNames
      rwa [Canonical.foldl_push_netRoot, List.nil_append] at hNet

/-- Removing the filename of a text is popping its shape. -/
theorem removeFilename_text {c : Canonical} (h : c.WellFormed) :
    library.removeFilename c.text = c.pop.text := by
  rw [hPosix.removeFilename_eq, elements_text hPosix h, ← Canonical.elements_pop,
    foldl_append_elements hPosix h.pop]

end Library

end Filesystem
