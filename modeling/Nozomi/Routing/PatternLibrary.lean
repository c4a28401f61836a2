import Nozomi.Routing.Routes
import Nozomi.Text.PatternGroups
import Nozomi.Text.PatternPlaces

/-! What is relied on of a regular expression library, for one expression at a time,
and an executable library: expressions are compiled by reading them, and matches are
found by the backtracking search. -/
namespace Nozomi

open Text

namespace RegexLibrary

variable {ρ : Type} (library : RegexLibrary ρ) (text : Bytes) (p : Pattern Byte Bytes)

/-- Whatever the library matches with the expression of a text is matched by the
pattern, and the groups are reported as they were captured. -/
def SoundAt : Prop :=
  ∀ regex path matched, library.compile text = .ok regex →
    library.regexMatch path regex = .ok (some matched) →
      ∃ captures, Pattern.Matches p path captures ∧ Pattern.Reports matched captures

/-- The library compiles the text. It matches a path exactly if the pattern accepts
it, and does not give up on any. -/
structure DecidesAt : Prop where
  compiles : ∃ regex, library.compile text = .ok regex
  sound : library.SoundAt text p
  complete : ∀ regex path, library.compile text = .ok regex →
    ∃ found, library.regexMatch path regex = .ok found ∧ (Pattern.Accepts p path → found.isSome)

/-- Unless the library gives up, it reports the match that is found first in the order
of Perl, and under each name the leftmost group that took part in it. -/
def SearchesAt : Prop :=
  ∀ regex path found, library.compile text = .ok regex →
    library.regexMatch path regex = .ok found → found = p.firstMatch path

/-- The library does not give up on the path with the expression of a text. -/
def Searches (path : Bytes) : Prop :=
  ∃ regex found, library.compile text = .ok regex ∧ library.regexMatch path regex = .ok found

/-- How a library reads the named groups of expressions, in the order in which they
begin and are numbered, and what each of them captures in the match of a path. -/
structure Groups where
  named : Bytes → List (Nat × Bytes)
  captured : Bytes → Bytes → Nat → Option Bytes
  begins : ∀ text group, group ∈ named text → ascii "(?" <+: text.drop group.1
  reported : ∀ text regex path matched, library.compile text = .ok regex →
    library.regexMatch path regex = .ok (some matched) → ∀ name,
      matched name = ((named text).zipIdx.filter fun group => group.1.2 = name).findSome? fun group =>
        captured text path group.2

variable {library text p}

/-- What is reported under the name of a single group is what it captured. -/
theorem Groups.reported_only (groups : library.Groups) {regex : ρ} {path name : Bytes} {matched : Match}
    (hCompile : library.compile text = .ok regex) (hMatch : library.regexMatch path regex = .ok (some matched))
    {place number : Nat}
    (hOnly : (groups.named text).zipIdx.filter (fun group => group.1.2 = name) = [((place, name), number)]) :
    matched name = groups.captured text path number := by
  rw [groups.reported text regex path matched hCompile hMatch, hOnly, List.findSome?_singleton]

theorem Searches.of_match {regex : ρ} {path : Bytes} {found : Option Match}
    (hCompile : library.compile text = .ok regex) (hFound : library.regexMatch path regex = .ok found) :
    library.Searches text path :=
  ⟨regex, found, hCompile, hFound⟩

theorem SearchesAt.soundAt (h : library.SearchesAt text p) : library.SoundAt text p := by
  intro regex path matched hCompile hMatch
  exact Pattern.firstMatch_sound (h regex path _ hCompile hMatch).symm

end RegexLibrary

/-- What a text means, which is nothing if it is not read as a pattern. -/
def patternMeaning (text : Bytes) : Pattern Byte Bytes :=
  (Pattern.parse text).getD (.set fun _ => false)

def patternLibrary : RegexLibrary (Pattern Byte Bytes) where
  compile text :=
    match Pattern.parse text with
    | none => .error .std
    | some p => .ok p
  regexMatch path p := .ok (p.firstMatch path)

theorem compile_patternLibrary_iff {text : Bytes} {p : Pattern Byte Bytes} :
    patternLibrary.compile text = .ok p ↔ Pattern.parse text = some p := by
  cases hParse : Pattern.parse text <;> simp [patternLibrary, hParse]

/-- Every text that is read is compiled, and searched in the order of Perl. -/
theorem patternLibrary_searchesAt {text : Bytes} {p : Pattern Byte Bytes}
    (hParse : Pattern.parse text = some p) : patternLibrary.SearchesAt text p := by
  intro regex path found hCompile hFound
  obtain rfl := Option.some.inj (hParse.symm.trans (compile_patternLibrary_iff.mp hCompile))
  exact (Except.ok.inj hFound).symm

theorem patternLibrary_decidesAt {text : Bytes} {p : Pattern Byte Bytes}
    (hParse : Pattern.parse text = some p) : patternLibrary.DecidesAt text p where
  compiles := ⟨p, compile_patternLibrary_iff.mpr hParse⟩
  sound := (patternLibrary_searchesAt hParse).soundAt
  complete regex path hCompile := by
    obtain rfl := Option.some.inj (hParse.symm.trans (compile_patternLibrary_iff.mp hCompile))
    exact ⟨_, rfl, (Pattern.firstMatch_isSome_iff p path).mpr⟩

/-- The groups that the library reads are those of the text, with the captures of the
way that is found first. -/
def patternGroups : patternLibrary.Groups where
  named := Pattern.namedGroups
  captured text path number :=
    (Pattern.parse text).bind fun p => (p.firstWay path).bind fun captures =>
      p.names[number]?.bind (Pattern.lastCapture captures number)
  begins text group hMem := by
    obtain ⟨rest, hRest⟩ := Pattern.namedGroups_place hMem
    exact ⟨_, hRest⟩
  reported text regex path matched hCompile hMatch name := by
    have hParse := compile_patternLibrary_iff.mp hCompile
    obtain ⟨captures, hWay, rfl⟩ := Option.map_eq_some_iff.mp (Except.ok.inj hMatch)
    rw [Pattern.reported, Pattern.names_of_parse hParse, List.zipIdx_map, List.findSome?_map,
      ← List.head?_filterMap, ← List.head?_filterMap, List.filterMap_filter]
    congr 1
    apply List.filterMap_congr
    rintro ⟨⟨place, other⟩, number⟩ hMem
    have hName : regex.names[number]? = some other := by
      rw [Pattern.names_of_parse hParse, List.getElem?_map, List.mem_zipIdx_iff_getElem?.mp hMem]
      rfl
    by_cases hSame : other = name
    · simp [hSame, hParse, hWay, hName]
    · simp [hSame]

end Nozomi
