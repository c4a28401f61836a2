import Nozomi.Handling.PathContainment

/-! What a sanitised path looks like. It has no component `.` or `..`, it is what its
components are joined to, and to sanitise it again changes nothing. Where there is no
network root, its parts are those of the path with each `..` resolved. -/
namespace Nozomi.StreamingFileHandler

open Text Filesystem

/-- A path that is rebuilt from its components, none of which is `.` or `..`. -/
structure Normal (library : PathLibrary) (path : Bytes) : Prop where
  components : ∀ component ∈ library.elements path, component ≠ dot ∧ component ≠ dotDot
  rebuilt : (library.elements path).foldl library.append [] = path

/-- The names of a shape are ordinary. -/
def Ordinary (c : Canonical) : Prop := ∀ name ∈ c.names, name ≠ dot ∧ name ≠ dotDot

/-- A component that is not `.` keeps the names ordinary: `..` takes one off and is
not kept. -/
theorem walk_ordinary {c : Canonical} (h : Ordinary c) {component : Bytes} (hDot : component ≠ dot) :
    Ordinary (walk c component) := by
  unfold walk
  split
  · intro name hMem
    apply h
    cases c with
    | relative names => exact List.dropLast_subset _ hMem
    | net host => cases hMem
    | absolute names | netRoot host names =>
        cases names with
        | nil => cases hMem
        | cons first names => exact List.dropLast_subset _ hMem
  · rename_i hDotDot
    intro name hMem
    have hNames : name ∈ c.names ∨ name = component := by
      cases c with
      | net host => exact Or.inr (List.mem_singleton.mp hMem)
      | relative names | absolute names | netRoot host names =>
          exact (List.mem_append.mp hMem).imp id List.mem_singleton.mp
    rcases hNames with hOld | rfl
    · exact h name hOld
    · exact ⟨hDot, hDotDot⟩

theorem foldl_walk_ordinary {c : Canonical} (h : Ordinary c) {components : List Bytes}
    (hDots : dot ∉ components) : Ordinary (components.foldl walk c) := by
  induction components generalizing c with
  | nil => exact h
  | cons component components ih =>
      obtain ⟨hFirst, hRest⟩ := not_or.mp (mt List.mem_cons.mpr hDots)
      exact ih (walk_ordinary h (Ne.symm hFirst)) hRest

/-- One part of a path, read after the parts that were kept so far. -/
def resolveStep (kept : List Bytes) (part : Bytes) : List Bytes :=
  if part = dotDot then kept.dropLast else kept ++ [part]

/-- What a path means: `..` takes off the part before it, if there is one. -/
def resolve (parts : List Bytes) : List Bytes := parts.foldl resolveStep []

/-- Exactly two slashes before a name. -/
def HasNetworkRoot (path : Bytes) : Prop :=
  ∃ rest, path = slashes 2 ++ rest ∧ rest ≠ [] ∧ rest.head? ≠ some slash

theorem walk_names {c : Canonical} (h : rootLevel c = 0) (component : Bytes) :
    (walk c component).names = resolveStep c.names component := by
  unfold walk resolveStep
  cases c with
  | relative names => split <;> rfl
  | absolute names => split <;> cases names <;> rfl
  | net host | netRoot host names => simp [rootLevel] at h

theorem foldl_walk_names {c : Canonical} (h : rootLevel c = 0) (components : List Bytes) :
    (components.foldl walk c).names = components.foldl resolveStep c.names := by
  induction components generalizing c with
  | nil => rfl
  | cons component components ih =>
      rw [List.foldl_cons, List.foldl_cons, ih (walk_rootLevel_zero h component), walk_names h]

theorem dot_not_mem_parts (path : Bytes) : dot ∉ parts path := by
  simp [parts]

/-- A text that starts with a slash is no component that is left out. -/
theorem slash_cons_ne (rest : Bytes) : slash :: rest ≠ dot ∧ slash :: rest ≠ dotDot := by
  constructor <;> intro h <;> cases h

section Library

variable {library : PathLibrary}

/-- Sanitising a normal path only puts it together again. -/
theorem sanitizePath_of_normal {path : Bytes} (h : Normal library path) : sanitizePath library path = path := by
  have hAppend : ∀ (components : List Bytes) (ret : Bytes),
      (∀ component ∈ components, component ≠ dot ∧ component ≠ dotDot) →
        components.foldl (sanitizeStep library) ret = components.foldl library.append ret := by
    intro components
    induction components with
    | nil => exact fun _ _ => rfl
    | cons component components ih =>
        intro ret hAll
        obtain ⟨⟨hDot, hDotDot⟩, hRest⟩ := List.forall_mem_cons.mp hAll
        rw [List.foldl_cons, List.foldl_cons, sanitizeStep, if_neg hDotDot, if_neg hDot]
        exact ih _ hRest
  rw [sanitizePath, hAppend _ [] h.components]
  exact h.rebuilt

variable (hPosix : library.Posix)
include hPosix

theorem normal_text {c : Canonical} (hWell : c.WellFormed) (hOrdinary : Ordinary c) :
    Normal library c.text := by
  have hElements := elements_text hPosix hWell
  constructor
  · rw [hElements]
    intro component hMem
    cases c with
    | relative names => exact hOrdinary component hMem
    | absolute names =>
        rcases List.mem_cons.mp hMem with rfl | hName
        · exact slash_cons_ne []
        · exact hOrdinary component hName
    | net host =>
        rw [List.mem_singleton.mp hMem]
        exact slash_cons_ne (slash :: host)
    | netRoot host names =>
        rcases List.mem_cons.mp hMem with rfl | hLater
        · exact slash_cons_ne (slash :: host)
        · rcases List.mem_cons.mp hLater with rfl | hName
          · exact slash_cons_ne []
          · exact hOrdinary component hName
  · rw [hElements, foldl_append_elements hPosix hWell]

/-- What the components after a root leave behind is normal. -/
theorem normal_foldl {start : Canonical} (hWell : start.WellFormed) (hOrdinary : Ordinary start)
    {path : Bytes} (hHead : path.head? ≠ some slash) :
    Normal library ((library.elements path).foldl (sanitizeStep library) start.text) := by
  obtain ⟨hWalked, hText⟩ := foldl_sanitizeStep hPosix path hHead hWell
  rw [hText]
  exact normal_text hPosix hWalked (foldl_walk_ordinary hOrdinary (dot_not_mem_parts path))

/-- Whatever leading slashes a path has, its sanitised text is normal. Two slashes
before a name are a network root, and all others are the root directory. -/
theorem normal_sanitizePath (path : Bytes) : Normal library (sanitizePath library path) := by
  have hNoNames : ∀ c : Canonical, c.names = [] → Ordinary c := by
    intro c hNames name hMem
    rw [hNames] at hMem
    cases hMem
  obtain ⟨count, rest, rfl, hHead⟩ := exists_slashes_append path
  by_cases hNet : count = 2
  · subst hNet
    by_cases hNil : rest = []
    · subst hNil
      have hAppend : library.append [] (slashes 2) = slashes 2 := hPosix.append_eq _ _
      have hText : sanitizePath library (slashes 2 ++ []) = slashes 2 := by
        rw [List.append_nil, sanitizePath, hPosix.elements_two, List.foldl_cons, List.foldl_nil]
        exact (sanitizeStep_slash [] [slash]).trans hAppend
      rw [hText]
      constructor
      · intro component hMem
        rw [hPosix.elements_two] at hMem
        rw [List.mem_singleton.mp hMem]
        exact slash_cons_ne [slash]
      · rw [hPosix.elements_two, List.foldl_cons, List.foldl_nil, hAppend]
    · obtain ⟨host, hName, hTail⟩ := exists_name_append rest hNil hHead
      have hStep : sanitizeStep library [] (slashes 2 ++ host) = (Canonical.net host).text :=
        (sanitizeStep_slash [] (slash :: host)).trans (append_net hPosix)
      rcases hTail with rfl | ⟨extra, tail, rfl, hTail⟩
      · rw [sanitizePath, hPosix.elements_net rest hName, List.foldl_cons, List.foldl_nil, hStep]
        exact normal_text hPosix ⟨by simp [Canonical.names], by simpa [Canonical.host] using hName⟩
          (hNoNames _ rfl)
      · rw [← List.append_assoc, ← List.append_assoc, sanitizePath,
          hPosix.elements_net_root host extra tail hName hTail, List.foldl_cons, hStep, List.foldl_cons]
        rw [show sanitizeStep library (Canonical.net host).text [slash] =
          (Canonical.netRoot host []).text from append_netRoot hPosix]
        exact normal_foldl hPosix ⟨by simp [Canonical.names], by simpa [Canonical.host] using hName⟩
          (hNoNames _ rfl) hTail
  · by_cases hZero : count = 0
    · subst hZero
      exact normal_foldl hPosix (⟨by simp [Canonical.names], by simp [Canonical.host]⟩ :
        (Canonical.relative []).WellFormed) (hNoNames _ rfl) hHead
    · rw [sanitizePath, hPosix.elements_root count rest (by omega) hHead, List.foldl_cons]
      rw [show sanitizeStep library [] [slash] = (Canonical.absolute []).text from append_root hPosix]
      exact normal_foldl hPosix ⟨by simp [Canonical.names], by simp [Canonical.host]⟩ (hNoNames _ rfl) hHead

/-- Sanitising gives a normal path, whatever it is given, and leaves exactly the
normal paths as they are. -/
theorem sanitizePath_projects (path : Bytes) :
    Normal library (sanitizePath library path) ∧
      sanitizePath library (sanitizePath library path) = sanitizePath library path ∧
      (sanitizePath library path = path ↔ Normal library path) := by
  have hNormal := normal_sanitizePath hPosix path
  refine ⟨hNormal, sanitizePath_of_normal hNormal, ?_, sanitizePath_of_normal⟩
  intro hSame
  exact hSame ▸ hNormal

/-- Below a root that is none of a network, the parts are resolved. -/
theorem parts_foldl {start : Canonical} (hWell : start.WellFormed) (hLevel : rootLevel start = 0)
    (hNames : start.names = []) {path : Bytes} (hHead : path.head? ≠ some slash) :
    parts ((library.elements path).foldl (sanitizeStep library) start.text) = resolve (parts path) := by
  have hOrdinary : Ordinary start := by
    intro name hMem
    rw [hNames] at hMem
    cases hMem
  obtain ⟨hWalked, hText⟩ := foldl_sanitizeStep hPosix path hHead hWell
  have hKept := foldl_walk_names hLevel (parts path)
  rw [hNames] at hKept
  have hAll : ∀ name ∈ resolve (parts path), decide (name ≠ dot) = true := by
    intro name hMem
    have hName := foldl_walk_ordinary hOrdinary (dot_not_mem_parts path) name (by rwa [hKept])
    simpa using hName.1
  rw [hText, Canonical.parts_text hWalked,
    (rootLevel_eq_zero _).mp (foldl_walk_rootLevel_zero hLevel _), hKept, Option.toList_none,
    List.nil_append, ← resolve, List.filter_eq_self.mpr hAll]

/-- Without a network root, a sanitised path is what its components mean, in order. -/
theorem parts_sanitizePath {path : Bytes} (hRoot : ¬HasNetworkRoot path) :
    parts (sanitizePath library path) = resolve (parts path) := by
  obtain ⟨count, rest, rfl, hHead⟩ := exists_slashes_append path
  rw [parts_slashes_append]
  by_cases hZero : count = 0
  · subst hZero
    exact parts_foldl hPosix (⟨by simp [Canonical.names], by simp [Canonical.host]⟩ :
      (Canonical.relative []).WellFormed) rfl rfl hHead
  by_cases hNet : count = 2
  · subst hNet
    obtain rfl : rest = [] := by
      by_contra hSome
      exact hRoot ⟨rest, rfl, hSome, hHead⟩
    rw [List.append_nil, sanitizePath, hPosix.elements_two, List.foldl_cons, List.foldl_nil]
    rw [show sanitizeStep library [] (slashes 2) = library.append [] (slashes 2) from
      sanitizeStep_slash [] [slash], hPosix.append_eq]
    rfl
  · rw [sanitizePath, hPosix.elements_root count rest (by omega) hHead, List.foldl_cons]
    rw [show sanitizeStep library [] [slash] = (Canonical.absolute []).text from append_root hPosix]
    exact parts_foldl hPosix ⟨by simp [Canonical.names], by simp [Canonical.host]⟩ rfl rfl hHead

/-- The file that is looked for: the parts of the base directory, and then those of
the path with each `..` resolved, unless the path has a network root. -/
theorem onRequestReceived_resolves (time : TimeLibrary) (expireTime : Tm)
    (handler : StreamingFileHandler) {path : Bytes} (hRoot : ¬HasNetworkRoot path) (request : HTTPRequest) :
    parts (onRequestReceived library time expireTime (setRequestArgs handler path) request).path =
      parts handler.path ++ resolve (parts path) := by
  rw [onRequestReceived_path, setRequestArgs, parts_append hPosix, parts_sanitizePath hPosix hRoot]

end Library

theorem onRequestReceived_resolves_example :
    parts (onRequestReceived posix ⟨fun _ _ _ => none, fun _ => 0⟩ ⟨0, 0, 0, 0, 0, 0, 0, 0, 0⟩
        (setRequestArgs (create (ascii "srv/www") 4096) (ascii "/../a//./b/../c"))
        ⟨⟨none, [], []⟩, .create⟩).path =
      parts (ascii "srv/www") ++ [ascii "a", ascii "c"] := by
  have hRoot : ¬HasNetworkRoot (ascii "/../a//./b/../c") := by
    intro ⟨rest, hPath, _⟩
    cases hPath
  exact onRequestReceived_resolves posix_posix _ _ (create (ascii "srv/www") 4096) hRoot
    ⟨⟨none, [], []⟩, .create⟩

theorem sanitizePath_projects_example :
    sanitizePath posix (sanitizePath posix (ascii "//host/./a/../..//b/")) =
      sanitizePath posix (ascii "//host/./a/../..//b/") :=
  (sanitizePath_projects posix_posix (ascii "//host/./a/../..//b/")).2.1

end Nozomi.StreamingFileHandler
