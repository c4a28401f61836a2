import Nozomi.Text.Bytes
import Mathlib.Data.List.TakeWhile

/-! Lexical path operations of a POSIX path library, taken as a parameter with
its documented behaviour, and one executable library that behaves that way.
Nothing here touches a file system. -/
namespace Filesystem

open Text

/-- Iteration, `/=` and `remove_filename` on native path strings. -/
structure PathLibrary where
  elements : Bytes → List Bytes
  append : Bytes → Bytes → Bytes
  removeFilename : Bytes → Bytes

/-- `p /= q` as documented: concatenation, with one separator put between
two texts that need one. -/
def joined (p q : Bytes) : Bytes :=
  if q = [] then p
  else if p = [] ∨ p.getLast? = some slash ∨ q.head? = some slash then p ++ q
  else p ++ slash :: q

/-- The documented behaviour of Boost.Filesystem v3 on POSIX. Exactly two
leading slashes before a name make a network root; `//` alone is one element;
any other run of leading slashes is the root directory; inner runs collapse;
a trailing slash that is not a root yields `.`. Removing the filename rebuilds
the path from every element but the last. -/
structure PathLibrary.Posix (library : PathLibrary) : Prop where
  elements_nil : library.elements [] = []
  elements_name : ∀ name, IsName name → library.elements name = [name]
  elements_trailing : ∀ name count, IsName name →
    library.elements (name ++ slashes (count + 1)) = [name, dot]
  elements_cons : ∀ name count path, IsName name → path ≠ [] → path.head? ≠ some slash →
    library.elements (name ++ slashes (count + 1) ++ path) = name :: library.elements path
  elements_root : ∀ count path, count = 1 ∨ 3 ≤ count → path.head? ≠ some slash →
    library.elements (slashes count ++ path) = [slash] :: library.elements path
  elements_two : library.elements (slashes 2) = [slashes 2]
  elements_net : ∀ name, IsName name →
    library.elements (slashes 2 ++ name) = [slashes 2 ++ name]
  elements_net_root : ∀ name count path, IsName name → path.head? ≠ some slash →
    library.elements (slashes 2 ++ name ++ slashes (count + 1) ++ path) =
      (slashes 2 ++ name) :: [slash] :: library.elements path
  append_eq : ∀ p q, library.append p q = joined p q
  removeFilename_eq : ∀ p,
    library.removeFilename p = (library.elements p).dropLast.foldl library.append []

/-- Elements of a path that starts with no slash. -/
def relativeElements (path : Bytes) : List Bytes :=
  (path.splitOn slash).filter (· ≠ []) ++ if path.getLast? = some slash then [dot] else []

def posixElements (path : Bytes) : List Bytes :=
  let leading := (path.takeWhile (· = slash)).length
  let rest := path.dropWhile (· = slash)
  if leading = 0 then relativeElements rest
  else if leading = 2 then
    if rest = [] then [slashes 2]
    else
      let name := rest.takeWhile (· ≠ slash)
      let tail := rest.dropWhile (· ≠ slash)
      (slashes 2 ++ name) ::
        if tail = [] then [] else [slash] :: relativeElements (tail.dropWhile (· = slash))
  else [slash] :: relativeElements rest

/-- An executable library. Its `remove_filename` is the documented rebuild. -/
def posix : PathLibrary where
  elements := posixElements
  append := joined
  removeFilename p := (posixElements p).dropLast.foldl joined []

@[simp] theorem posix_elements (path : Bytes) : posix.elements path = posixElements path := rfl

theorem takeWhile_slashes (count : Nat) (path : Bytes) (hHead : path.head? ≠ some slash) :
    (slashes count ++ path).takeWhile (· = slash) = slashes count := by
  induction count with
  | zero => cases path <;> simp_all [slashes]
  | succ count ih => simpa [slashes, List.replicate_succ] using ih

theorem dropWhile_slashes (count : Nat) (path : Bytes) (hHead : path.head? ≠ some slash) :
    (slashes count ++ path).dropWhile (· = slash) = path := by
  induction count with
  | zero => cases path <;> simp_all [slashes]
  | succ count ih => simpa [slashes, List.replicate_succ] using ih

/-- Leading slashes are counted exactly, and what follows them is kept. -/
theorem posixElements_slashes (count : Nat) (path : Bytes) (hHead : path.head? ≠ some slash) :
    posixElements (slashes count ++ path) =
      if count = 0 then relativeElements path
      else if count = 2 then
        if path = [] then [slashes 2]
        else
          (slashes 2 ++ path.takeWhile (· ≠ slash)) ::
            if path.dropWhile (· ≠ slash) = [] then []
            else [slash] :: relativeElements ((path.dropWhile (· ≠ slash)).dropWhile (· = slash))
      else [slash] :: relativeElements path := by
  simp only [posixElements, takeWhile_slashes count path hHead, dropWhile_slashes count path hHead]
  simp [slashes]

theorem posixElements_relative (path : Bytes) (hHead : path.head? ≠ some slash) :
    posixElements path = relativeElements path := by
  simpa [slashes] using posixElements_slashes 0 path hHead

theorem takeWhile_name {name : Bytes} (h : IsName name) (count : Nat) (path : Bytes) :
    (name ++ slashes (count + 1) ++ path).takeWhile (· ≠ slash) = name := by
  rw [List.append_assoc, List.takeWhile_append_of_pos]
  · simp [slashes, List.replicate_succ]
  · intro c hc
    simpa using h.ne_slash hc

theorem dropWhile_name {name : Bytes} (h : IsName name) (count : Nat) (path : Bytes) :
    (name ++ slashes (count + 1) ++ path).dropWhile (· ≠ slash) = slashes (count + 1) ++ path := by
  rw [List.append_assoc, List.dropWhile_append_of_pos]
  · simp [slashes, List.replicate_succ]
  · intro c hc
    simpa using h.ne_slash hc

theorem relativeElements_name {name : Bytes} (h : IsName name) :
    relativeElements name = [name] := by
  simp [relativeElements, List.splitOn_eq_singleton h.slash_not_mem, h.ne_nil, h.getLast_ne]

/-- Splitting a run of slashes only yields empty pieces. -/
theorem splitOn_slashes_filter (count : Nat) (path : Bytes) :
    ((slashes count ++ path).splitOn slash).filter (· ≠ []) =
      (path.splitOn slash).filter (· ≠ []) := by
  induction count with
  | zero => rfl
  | succ count ih =>
      have hSplit := List.splitOn_append_cons_self (a := slash) [] (slashes count ++ path)
      simp only [List.nil_append, List.splitOn_nil] at hSplit
      simp only [slashes, List.replicate_succ, List.cons_append] at hSplit ih ⊢
      rw [hSplit, List.filter_cons_of_neg (by simp), List.nil_append, ih]

/-- The elements of a path after its first name. A slash at the end adds the element
`.`. -/
theorem relativeElements_name_append {name : Bytes} (h : IsName name) (count : Nat)
    (path : Bytes) :
    relativeElements (name ++ slashes (count + 1) ++ path) =
      name :: ((path.splitOn slash).filter (· ≠ []) ++
        if path = [] ∨ path.getLast? = some slash then [dot] else []) := by
  have hSplit := List.splitOn_append_cons_self (a := slash) name (slashes count ++ path)
  rw [List.splitOn_eq_singleton h.slash_not_mem] at hSplit
  have hText : name ++ slashes (count + 1) ++ path = name ++ slash :: (slashes count ++ path) := by
    simp [slashes, List.replicate_succ]
  have hLast : (name ++ slashes (count + 1) ++ path).getLast? = some slash ↔
      path = [] ∨ path.getLast? = some slash := by
    cases path with
    | nil => simp [slashes, List.getLast?_append, List.getLast?_replicate]
    | cons c path => simp [List.getLast?_append, List.getLast?_cons]
  simp only [relativeElements, hLast]
  rw [hText, hSplit, List.filter_append, splitOn_slashes_filter]
  simp [h.ne_nil]

/-- The executable library has the documented behaviour. -/
theorem posix_posix : posix.Posix where
  elements_nil := rfl
  elements_name := by
    intro name h
    have hHead : name.head? ≠ some slash := by simpa using h.head_ne []
    exact (posixElements_relative name hHead).trans (relativeElements_name h)
  elements_trailing := by
    intro name count h
    have hHead := h.head_ne (slashes (count + 1))
    have hRelative := relativeElements_name_append h count []
    rw [List.append_nil] at hRelative
    exact (posixElements_relative _ hHead).trans (hRelative.trans (by simp))
  elements_cons := by
    intro name count path h hNil hHead
    have hWhole : (name ++ slashes (count + 1) ++ path).head? ≠ some slash := by
      simpa using h.head_ne (slashes (count + 1) ++ path)
    rw [posix_elements, posix_elements, posixElements_relative _ hWhole, posixElements_relative path hHead,
      relativeElements_name_append h]
    simp [relativeElements, hNil]
  elements_root := by
    intro count path hCount hHead
    rw [posix_elements, posix_elements, posixElements_slashes count path hHead, posixElements_relative path hHead]
    rw [if_neg (by omega), if_neg (by omega)]
  elements_two := rfl
  elements_net := by
    intro name h
    have hHead : name.head? ≠ some slash := by simpa using h.head_ne []
    have hTake : name.takeWhile (· ≠ slash) = name :=
      List.takeWhile_eq_self_iff.mpr fun c hc => by simpa using h.ne_slash hc
    have hDrop : name.dropWhile (· ≠ slash) = [] :=
      List.dropWhile_eq_nil_iff.mpr fun c hc => by simpa using h.ne_slash hc
    exact (posixElements_slashes 2 name hHead).trans (by simp only [hTake, hDrop]; simp [h.ne_nil])
  elements_net_root := by
    intro name count path h hHead
    have hWhole : (name ++ slashes (count + 1) ++ path).head? ≠ some slash := by
      simpa using h.head_ne (slashes (count + 1) ++ path)
    have hSlashes := posixElements_slashes 2 (name ++ slashes (count + 1) ++ path) hWhole
    rw [takeWhile_name h, dropWhile_name h, dropWhile_slashes _ _ hHead] at hSlashes
    rw [posix_elements, posix_elements, posixElements_relative path hHead]
    have hNil : slashes (count + 1) ++ path ≠ [] := by simp [slashes]
    simpa [h.ne_nil, hNil] using hSlashes
  append_eq := fun _ _ => rfl
  removeFilename_eq := fun _ => rfl

end Filesystem
