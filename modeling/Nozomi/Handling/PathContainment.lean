import Nozomi.Filesystem.Canonical
import Nozomi.Handling.StreamingFileHandler

/-! Where the file handler looks for a file. The text it builds from a request
path leaves the base directory in exactly one way: a network root `//..` that
no later component takes off again. -/
namespace Nozomi

open Text Filesystem

namespace StreamingFileHandler

/-- The parts of `path` are those of `basePath`, followed by parts none of
which climbs. -/
def Inside (basePath path : Bytes) : Prop :=
  ∃ below, parts path = parts basePath ++ below ∧ dotDot ∉ below

/-- A base directory path that ends in an ordinary component. -/
def OrdinaryBase (basePath : Bytes) : Prop :=
  ∃ parent name, basePath = parent ++ name ∧ (parent = [] ∨ parent.getLast? = some slash) ∧
    IsName name ∧ name ≠ dot ∧ name ≠ dotDot

theorem ordinaryBase_srv_www : OrdinaryBase (ascii "srv/www") :=
  ⟨ascii "srv/", ascii "www", by decide, by decide, ⟨by decide, by decide⟩, by decide, by decide⟩

/-- Read the components after a network root from left to right, where `level`
counts the root, its directory and the names kept so far. A name written
directly after the root also puts the root directory back. The root is taken
off when the count reaches zero. -/
def takesOffRoot : Nat → List Bytes → Bool
  | 0, _ => true
  | _ + 1, [] => false
  | level + 1, component :: rest =>
      if component = dotDot then takesOffRoot level rest
      else takesOffRoot (max 3 (level + 2)) rest

/-- The request path starts with exactly two slashes and `..`, as a whole
component, and its later components do not take that root off. -/
def keepsParentRoot (path : Bytes) : Bool :=
  (slashes 2 ++ dotDot).isPrefixOf path &&
    match path.drop 4 with
    | [] => true
    | c :: rest => c = slash ∧ takesOffRoot 2 (parts rest) = false

/-- What one component other than `.` does to the shape of the text. -/
def walk (c : Canonical) (component : Bytes) : Canonical :=
  if component = dotDot then c.pop else c.push component

/-- How far a shape is from losing its network root. -/
def rootLevel : Canonical → Nat
  | .relative _ | .absolute _ => 0
  | .net _ => 1
  | .netRoot _ names => 2 + names.length

theorem walk_wellFormed {c : Canonical} (h : c.WellFormed) {component : Bytes}
    (hName : IsName component) : (walk c component).WellFormed := by
  unfold walk
  split
  · exact h.pop
  · exact h.push hName

/-- Names never climb: only the network host can be `..`. -/
def NamesStay (c : Canonical) : Prop := dotDot ∉ c.names

/-- A component `..` is never kept as a name: it takes off a name, or there was
none. -/
theorem walk_namesStay {c : Canonical} (h : NamesStay c) (component : Bytes) :
    NamesStay (walk c component) := by
  unfold walk NamesStay at *
  split
  · cases c with
    | relative names => exact fun hMem => h (List.dropLast_subset _ hMem)
    | net host => simp [Canonical.pop, Canonical.names]
    | absolute names | netRoot host names =>
        cases names with
        | nil => simp [Canonical.pop, Canonical.names]
        | cons first names => exact fun hMem => h (List.dropLast_subset _ hMem)
  · rename_i hNot
    cases c with
    | net host => simpa [Canonical.push, Canonical.names] using Ne.symm hNot
    | relative names | absolute names | netRoot host names =>
        simpa [Canonical.push, Canonical.names] using ⟨h, Ne.symm hNot⟩

/-- A shape without a network root never gets one. -/
theorem walk_rootLevel_zero {c : Canonical} (h : rootLevel c = 0) (component : Bytes) :
    rootLevel (walk c component) = 0 := by
  unfold walk
  cases c with
  | relative names => split <;> rfl
  | absolute names => split <;> cases names <;> rfl
  | net host => simp [rootLevel] at h
  | netRoot host names => simp [rootLevel] at h

theorem foldl_walk_rootLevel_zero {c : Canonical} (h : rootLevel c = 0) (components : List Bytes) :
    rootLevel (components.foldl walk c) = 0 := by
  induction components generalizing c with
  | nil => exact h
  | cons component components ih => exact ih (walk_rootLevel_zero h component)

/-- A component `..` takes one element off a network root: a name, the root
directory, or the root itself. -/
theorem walk_rootLevel_dotDot (c : Canonical) :
    rootLevel (walk c dotDot) = rootLevel c - 1 := by
  cases c with
  | relative names => rfl
  | absolute names => cases names <;> rfl
  | net host => rfl
  | netRoot host names =>
      cases names with
      | nil => rfl
      | cons first names => simp [walk, Canonical.pop, rootLevel]

/-- A name below a network root brings its root directory with it, if that is not
there. -/
theorem walk_rootLevel_name {c : Canonical} (h : rootLevel c ≠ 0) {component : Bytes}
    (hNot : component ≠ dotDot) : rootLevel (walk c component) = max 3 (rootLevel c + 1) := by
  cases c with
  | relative names => simp [rootLevel] at h
  | absolute names => simp [rootLevel] at h
  | net host => simp [walk, hNot, Canonical.push, rootLevel]
  | netRoot host names =>
      simp only [walk, hNot, if_false, Canonical.push, rootLevel, List.length_append,
        List.length_singleton]
      omega

/-- The walk loses its network root exactly when the count reaches zero. -/
theorem foldl_walk_rootLevel (components : List Bytes) (c : Canonical) :
    rootLevel (components.foldl walk c) = 0 ↔ takesOffRoot (rootLevel c) components = true := by
  induction components generalizing c with
  | nil => cases hLevel : rootLevel c <;> simp [takesOffRoot, hLevel]
  | cons component components ih =>
      cases hLevel : rootLevel c with
      | zero => simp [takesOffRoot, foldl_walk_rootLevel_zero (walk_rootLevel_zero hLevel component)]
      | succ level =>
          rw [List.foldl_cons, ih, takesOffRoot]
          by_cases hDot : component = dotDot
          · rw [hDot, walk_rootLevel_dotDot, hLevel]
            simp
          · rw [walk_rootLevel_name (by omega) hDot, hLevel]
            simp [hDot]

/-- The host is never renamed, so it is known as long as the root is there. -/
theorem walk_host {c : Canonical} {host : Bytes} (h : ∀ other, c.host = some other → other = host)
    (component : Bytes) (other : Bytes) (hOther : (walk c component).host = some other) :
    other = host := by
  unfold walk at hOther
  split at hOther
  · cases c with
    | relative names | net host => simp [Canonical.pop, Canonical.host] at hOther
    | absolute names => cases names <;> simp [Canonical.pop, Canonical.host] at hOther
    | netRoot host names => cases names <;> exact h other hOther
  · cases c <;> exact h other hOther

/-- Components cannot change the host of a network root, but only take it off. -/
theorem foldl_walk_host {c : Canonical} {host : Bytes}
    (h : ∀ other, c.host = some other → other = host) (components : List Bytes) (other : Bytes)
    (hOther : (components.foldl walk c).host = some other) : other = host := by
  induction components generalizing c with
  | nil => exact h other hOther
  | cons component components ih => exact ih (walk_host h component) hOther

theorem foldl_walk_namesStay {c : Canonical} (h : NamesStay c) (components : List Bytes) :
    NamesStay (components.foldl walk c) := by
  induction components generalizing c with
  | nil => exact h
  | cons component components ih => exact ih (walk_namesStay h component)

theorem rootLevel_eq_zero (c : Canonical) : rootLevel c = 0 ↔ c.host = none := by
  cases c <;> simp [rootLevel, Canonical.host]

/-- After a network root and its directory, the host is still there exactly
if the components do not take the root off. -/
theorem foldl_walk_host_iff (components : List Bytes) (host : Bytes) :
    (components.foldl walk (.netRoot host [])).host = some dotDot ↔
      host = dotDot ∧ takesOffRoot 2 components = false := by
  have hLevel := foldl_walk_rootLevel components (.netRoot host [])
  rw [rootLevel_eq_zero] at hLevel
  have hStart : ∀ other, (Canonical.netRoot host []).host = some other → other = host := by
    simp [Canonical.host]
  cases hHost : (components.foldl walk (.netRoot host [])).host with
  | none => simp_all [rootLevel]
  | some other =>
      have hKnown := foldl_walk_host hStart components other hHost
      simp_all [rootLevel]

/-- A text climbs exactly if its network host is `..`. -/
theorem dotDot_mem_parts_text {c : Canonical} (h : c.WellFormed) (hStay : NamesStay c) :
    dotDot ∈ parts c.text ↔ c.host = some dotDot := by
  rw [Canonical.parts_text h, List.mem_filter, List.mem_append]
  constructor
  · rintro ⟨hHost | hName, _⟩
    · simpa using hHost
    · exact absurd hName hStay
  · intro hHost
    exact ⟨Or.inl (by simp [hHost]), by decide⟩

/-- The number of slashes before a text that does not begin with one can be read
off. -/
theorem slashes_append_inj {first second : Nat} {p q : Bytes}
    (hp : p.head? ≠ some slash) (hq : q.head? ≠ some slash)
    (h : slashes first ++ p = slashes second ++ q) : first = second ∧ p = q := by
  have hTake := congrArg (List.takeWhile (· = slash)) h
  have hDrop := congrArg (List.dropWhile (· = slash)) h
  rw [takeWhile_slashes _ _ hp, takeWhile_slashes _ _ hq] at hTake
  rw [dropWhile_slashes _ _ hp, dropWhile_slashes _ _ hq] at hDrop
  exact ⟨by simpa [slashes] using congrArg List.length hTake, hDrop⟩

theorem isName_dotDot : IsName dotDot := ⟨by decide, by decide⟩

/-- A text is cut at its first slash in one way only. -/
theorem append_slash_inj {first second p q : Bytes} (hFirst : slash ∉ first)
    (hSecond : slash ∉ second) (h : first ++ slash :: p = second ++ slash :: q) :
    first = second ∧ p = q := by
  induction first generalizing second with
  | nil =>
      cases second with
      | nil => exact ⟨rfl, by simpa using h⟩
      | cons c second => exact absurd (by simp [(List.cons.inj h).1]) hSecond
  | cons c first ih =>
      cases second with
      | nil => exact absurd (by simp [(List.cons.inj h).1]) hFirst
      | cons d second =>
          obtain ⟨rfl, hTail⟩ := List.cons.inj h
          obtain ⟨rfl, hRest⟩ := ih (by simp_all) (by simp_all) hTail
          exact ⟨rfl, hRest⟩

/-- What the check on the bytes says about the shape of the path: two slashes, `..`
as a whole component, and components after it that do not take it off. -/
theorem keepsParentRoot_iff (path : Bytes) :
    keepsParentRoot path = true ↔ ∃ rest, path = slashes 2 ++ (dotDot ++ rest) ∧
      (rest = [] ∨ ∃ tail, rest = slash :: tail ∧ takesOffRoot 2 (parts tail) = false) := by
  constructor
  · intro h
    simp only [keepsParentRoot, Bool.and_eq_true, List.isPrefixOf_iff_prefix] at h
    obtain ⟨⟨rest, rfl⟩, hRest⟩ := h
    refine ⟨rest, by simp, ?_⟩
    cases rest with
    | nil => exact Or.inl rfl
    | cons c tail =>
        simp [slashes] at hRest
        exact Or.inr ⟨tail, by rw [hRest.1], hRest.2⟩
  · rintro ⟨rest, rfl, rfl | ⟨tail, rfl, hTail⟩⟩
    · decide
    · simp [keepsParentRoot, slashes, hTail]

/-- Paths with any other number of slashes at the beginning have no network root. -/
theorem keepsParentRoot_of_count {count : Nat} {path : Bytes} (hHead : path.head? ≠ some slash)
    (hCount : count ≠ 2) : keepsParentRoot (slashes count ++ path) = false := by
  rw [← Bool.not_eq_true, keepsParentRoot_iff]
  rintro ⟨rest, hPath, _⟩
  have hDots : (dotDot ++ rest).head? ≠ some slash := isName_dotDot.head_ne rest
  exact hCount (slashes_append_inj hHead hDots hPath).1

/-- A network root alone is kept, so that it only matters what its name is. -/
theorem keepsParentRoot_host {host : Bytes} (h : IsName host) :
    keepsParentRoot (slashes 2 ++ host) = true ↔ host = dotDot := by
  rw [keepsParentRoot_iff]
  constructor
  · rintro ⟨rest, hPath, hRest⟩
    have hHost := (List.append_cancel_left hPath)
    rcases hRest with rfl | ⟨tail, rfl, _⟩
    · simpa using hHost
    · exact absurd (by simp [hHost]) h.slash_not_mem
  · intro hHost
    exact ⟨[], by simp [hHost], Or.inl rfl⟩

/-- A network root with components after it is kept exactly if they do not take it
off. -/
theorem keepsParentRoot_host_tail {host : Bytes} (h : IsName host) (count : Nat) (tail : Bytes) :
    keepsParentRoot (slashes 2 ++ host ++ slashes (count + 1) ++ tail) = true ↔
      host = dotDot ∧ takesOffRoot 2 (parts tail) = false := by
  have hText : slashes 2 ++ host ++ slashes (count + 1) ++ tail =
      slashes 2 ++ (host ++ slash :: (slashes count ++ tail)) := by
    simp [slashes, List.replicate_succ]
  have hParts := parts_slashes_append count tail
  rw [keepsParentRoot_iff, hText]
  constructor
  · rintro ⟨rest, hPath, hRest⟩
    have hHost := List.append_cancel_left hPath
    rcases hRest with rfl | ⟨other, rfl, hOther⟩
    · have hMem : slash ∈ dotDot := by rw [← List.append_nil dotDot, ← hHost]; simp
      exact absurd hMem (by decide)
    · obtain ⟨hName, hTail⟩ :=
        append_slash_inj h.slash_not_mem isName_dotDot.slash_not_mem hHost
      rw [← hTail, hParts] at hOther
      exact ⟨hName, hOther⟩
  · rintro ⟨rfl, hTail⟩
    exact ⟨_, rfl, Or.inr ⟨_, rfl, by rw [hParts]; exact hTail⟩⟩

/-- The date header has no influence on the path. -/
theorem onRequestReceived_path (library : PathLibrary) (time : TimeLibrary) (expireTime : Tm)
    (handler : StreamingFileHandler) (request : HTTPRequest) :
    (onRequestReceived library time expireTime handler request).path =
      library.append handler.path (sanitizePath library handler.rawPath) := by
  unfold onRequestReceived
  dsimp only
  split
  · rfl
  · split <;> rfl

section Library

variable {library : PathLibrary}

/-- An element that starts with a slash is always appended. -/
theorem sanitizeStep_slash (ret rest : Bytes) :
    sanitizeStep library ret (slash :: rest) = library.append ret (slash :: rest) := by
  have hSlash : slash ≠ 0x2E := by decide
  simp [sanitizeStep, hSlash]

variable (hPosix : library.Posix)
include hPosix

/-- One step of the loop, on a text with a shape, is one step on the shape. -/
theorem sanitizeStep_text {c : Canonical} (h : c.WellFormed) {component : Bytes}
    (hName : IsName component) (hDot : component ≠ dot) :
    sanitizeStep library c.text component = (walk c component).text := by
  unfold sanitizeStep walk
  split
  · exact removeFilename_text hPosix h
  · exact append_text hPosix h hName

/-- Below any shape, the components of a path that starts with no slash act
as its parts do. -/
theorem foldl_sanitizeStep (path : Bytes) (hHead : path.head? ≠ some slash)
    {c : Canonical} (h : c.WellFormed) :
    ((parts path).foldl walk c).WellFormed ∧
      (library.elements path).foldl (sanitizeStep library) c.text =
        ((parts path).foldl walk c).text := by
  induction hLength : path.length using Nat.strong_induction_on generalizing path c with
  | _ length ih =>
  by_cases hNil : path = []
  · subst hNil
    rw [hPosix.elements_nil]
    exact ⟨h, rfl⟩
  obtain ⟨name, hName, hTail⟩ := exists_name_append path hNil hHead
  -- A component `.` leaves the text alone and is no part.
  have hStep : ∃ d : Canonical, d.WellFormed ∧ sanitizeStep library c.text name = d.text ∧
      ∀ rest, (parts name ++ rest).foldl walk c = rest.foldl walk d := by
    rw [parts_name hName]
    by_cases hDot : name = dot
    · refine ⟨c, h, ?_, fun rest => by simp [hDot]⟩
      subst hDot
      rfl
    · exact ⟨walk c name, walk_wellFormed h hName, sanitizeStep_text hPosix h hName hDot,
        fun rest => by simp [hDot]⟩
  obtain ⟨d, hd, hText, hFold⟩ := hStep
  rcases hTail with rfl | ⟨count, rest, rfl, hRest⟩
  · have hWhole := hFold []
    rw [List.append_nil] at hWhole
    rw [hPosix.elements_name path hName, hWhole]
    exact ⟨hd, by simpa using hText⟩
  · have hParts : parts (name ++ slashes (count + 1) ++ rest) = parts name ++ parts rest := by
      have hSplit := parts_append_slash name (slashes count ++ rest)
      rw [parts_slashes_append] at hSplit
      simpa [slashes, List.replicate_succ] using hSplit
    rw [hParts, hFold]
    by_cases hEnd : rest = []
    · subst hEnd
      rw [List.append_nil, hPosix.elements_trailing name count hName]
      exact ⟨hd, by simpa [sanitizeStep] using hText⟩
    · rw [hPosix.elements_cons name count rest hName hEnd hRest, List.foldl_cons, hText]
      exact ih rest.length (by rw [← hLength]; simp [slashes]; omega) rest hRest hd rfl

/-- Whatever leading slashes a path has, its sanitised text climbs exactly if
its parent root is kept. -/
theorem dotDot_mem_parts_sanitizePath (path : Bytes) :
    dotDot ∈ parts (sanitizePath library path) ↔ keepsParentRoot path = true := by
  have hFold : ∀ (start : Canonical) (rest : Bytes), start.WellFormed → NamesStay start →
      rest.head? ≠ some slash →
      (dotDot ∈ parts ((library.elements rest).foldl (sanitizeStep library) start.text) ↔
        ((parts rest).foldl walk start).host = some dotDot) := by
    intro start rest hStart hStay hHead
    obtain ⟨hWell, hText⟩ := foldl_sanitizeStep hPosix rest hHead hStart
    rw [hText, dotDot_mem_parts_text hWell (foldl_walk_namesStay hStay _)]
  -- Without a network root there is no host to be `..`.
  have hNoHost : ∀ (start : Canonical) (rest : Bytes), start.WellFormed → NamesStay start →
      rest.head? ≠ some slash → rootLevel start = 0 →
      dotDot ∉ parts ((library.elements rest).foldl (sanitizeStep library) start.text) := by
    intro start rest hStart hStay hHead hLevel
    rw [hFold start rest hStart hStay hHead,
      (rootLevel_eq_zero _).mp (foldl_walk_rootLevel_zero hLevel _)]
    simp
  obtain ⟨count, rest, rfl, hHead⟩ := exists_slashes_append path
  by_cases hNet : count = 2
  · subst hNet
    by_cases hNil : rest = []
    · subst hNil
      rw [List.append_nil, sanitizePath, hPosix.elements_two, List.foldl_cons, List.foldl_nil]
      rw [show sanitizeStep library [] (slashes 2) = library.append [] (slashes 2) from
        sanitizeStep_slash [] [slash], hPosix.append_eq]
      decide
    · obtain ⟨host, hName, hTail⟩ := exists_name_append rest hNil hHead
      have hWell : (Canonical.net host).WellFormed :=
        ⟨by simp [Canonical.names], by simpa [Canonical.host] using hName⟩
      have hStep : sanitizeStep library [] (slashes 2 ++ host) = (Canonical.net host).text :=
        (sanitizeStep_slash [] (slash :: host)).trans (append_net hPosix)
      rcases hTail with rfl | ⟨extra, tail, rfl, hTail⟩
      · rw [sanitizePath, hPosix.elements_net rest hName, List.foldl_cons, List.foldl_nil, hStep,
          dotDot_mem_parts_text hWell (by simp [NamesStay, Canonical.names]),
          keepsParentRoot_host hName]
        simp [Canonical.host]
      · have hRoot : (Canonical.netRoot host []).WellFormed :=
          ⟨by simp [Canonical.names], by simpa [Canonical.host] using hName⟩
        have hStay : NamesStay (Canonical.netRoot host []) := by simp [NamesStay, Canonical.names]
        rw [← List.append_assoc, ← List.append_assoc, keepsParentRoot_host_tail hName,
          sanitizePath, hPosix.elements_net_root host extra tail hName hTail, List.foldl_cons, hStep,
          List.foldl_cons]
        rw [show sanitizeStep library (Canonical.net host).text [slash] =
            (Canonical.netRoot host []).text from append_netRoot hPosix,
          hFold _ tail hRoot hStay hTail]
        exact foldl_walk_host_iff (parts tail) host
  · rw [keepsParentRoot_of_count hHead hNet]
    simp only [Bool.false_eq_true, iff_false]
    by_cases hZero : count = 0
    · subst hZero
      simpa [sanitizePath, slashes, Canonical.text] using hNoHost (.relative []) rest
        ⟨by simp [Canonical.names], by simp [Canonical.host]⟩
        (by simp [NamesStay, Canonical.names]) hHead rfl
    · rw [sanitizePath, hPosix.elements_root count rest (by omega) hHead, List.foldl_cons]
      rw [show sanitizeStep library [] [slash] = (Canonical.absolute []).text from
        append_root hPosix]
      exact hNoHost (.absolute []) rest ⟨by simp [Canonical.names], by simp [Canonical.host]⟩
        (by simp [NamesStay, Canonical.names]) hHead rfl

/-- `/=` adds the parts of what is appended, whether or not a slash has to be put
between. -/
theorem parts_append (basePath text : Bytes) :
    parts (library.append basePath text) = parts basePath ++ parts text := by
  rw [hPosix.append_eq, joined]
  split
  · rename_i hText
    rw [hText, parts_nil, List.append_nil]
  split
  · rename_i hJoin
    rcases hJoin with rfl | hLast | hHead
    · rw [parts_nil, List.nil_append, List.nil_append]
    · obtain ⟨before, rfl⟩ := List.getLast?_eq_some_iff.mp hLast
      rw [List.append_assoc, List.singleton_append, parts_append_slash, parts_append_slash, parts_nil,
        List.append_nil]
    · obtain ⟨rest, rfl⟩ := List.head?_eq_some_iff.mp hHead
      rw [parts_append_slash, parts_cons_slash]
  · exact parts_append_slash basePath text

/-- What is appended stays inside exactly if none of its parts climbs. -/
theorem inside_append_iff (basePath text : Bytes) :
    Inside basePath (library.append basePath text) ↔ dotDot ∉ parts text := by
  rw [Inside, parts_append hPosix]
  constructor
  · rintro ⟨below, hBelow, hStay⟩
    rwa [List.append_cancel_left hBelow]
  · intro hStay
    exact ⟨_, rfl, hStay⟩

/-- The file handler stays below its base directory on exactly the request
paths that do not keep a network root `//..`. -/
theorem onRequestReceived_inside_iff (time : TimeLibrary) (expireTime : Tm)
    (handler : StreamingFileHandler) (path : Bytes) (request : HTTPRequest) :
    Inside handler.path (onRequestReceived library time expireTime
      (setRequestArgs handler path) request).path ↔ keepsParentRoot path = false := by
  rw [onRequestReceived_path, setRequestArgs, inside_append_iff hPosix, ← Bool.not_eq_true,
    ← dotDot_mem_parts_sanitizePath hPosix]

end Library

/-- Two more components `..` take the root off again. -/
theorem onRequestReceived_inside_example :
    Inside (ascii "srv/www") (onRequestReceived posix ⟨fun _ _ _ => none, fun _ => 0⟩
      ⟨0, 0, 0, 0, 0, 0, 0, 0, 0⟩ (setRequestArgs (create (ascii "srv/www") 4096)
        (ascii "//../../../index.html")) ⟨⟨none, [], []⟩, .create⟩).path :=
  (onRequestReceived_inside_iff posix_posix _ _ (create (ascii "srv/www") 4096) _ _).mpr (by decide)

/-- A network root `//..` is no component `..`, so it is appended as it is. -/
theorem onRequestReceived_escapes :
    posix.Posix ∧ OrdinaryBase (ascii "srv/www") ∧
      ¬Inside (ascii "srv/www") (onRequestReceived posix ⟨fun _ _ _ => none, fun _ => 0⟩
        ⟨0, 0, 0, 0, 0, 0, 0, 0, 0⟩ (setRequestArgs (create (ascii "srv/www") 4096)
          (ascii "//../secret")) ⟨⟨none, [], []⟩, .create⟩).path := by
  refine ⟨posix_posix, ordinaryBase_srv_www, ?_⟩
  rintro ⟨below, hParts, hStay⟩
  have hPath : parts (onRequestReceived posix ⟨fun _ _ _ => none, fun _ => 0⟩
      ⟨0, 0, 0, 0, 0, 0, 0, 0, 0⟩ (setRequestArgs (create (ascii "srv/www") 4096)
        (ascii "//../secret")) ⟨⟨none, [], []⟩, .create⟩).path =
      parts (ascii "srv/www") ++ [dotDot, ascii "secret"] := by decide
  rw [hPath, List.append_cancel_left_eq] at hParts
  exact hStay (hParts ▸ List.mem_cons_self ..)

end StreamingFileHandler

end Nozomi
