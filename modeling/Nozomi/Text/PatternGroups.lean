import Nozomi.Text.PatternCaptures
import Nozomi.Text.PatternMatcher

/-! What a search reports about the groups of a pattern. The groups are numbered in
the order in which they begin, and several of them may have one name. -/
namespace Text

namespace Pattern

variable {α Name : Type}

/-- The groups with their numbers, from `n` on. -/
def number : Nat → Pattern α Name → Pattern α (Nat × Name)
  | _, empty => empty
  | _, set members => set members
  | n, seq first second => seq (first.number n) (second.number (n + first.names.length))
  | n, alt first second => alt (first.number n) (second.number (n + first.names.length))
  | n, rep greedy least most body => rep greedy least most (body.number n)
  | n, group name body => group (n, name) (body.number (n + 1))

/-- The numbers of the groups count their names from `n` on, in the order in which
they are opened. -/
theorem names_number (n : Nat) (p : Pattern α Name) :
    (p.number n).names = (p.names.zipIdx n).map Prod.swap := by
  induction p generalizing n with
  | empty | set => rfl
  | seq first second ihFirst ihSecond | alt first second ihFirst ihSecond =>
      simp only [number, names, ihFirst, ihSecond, List.zipIdx_append, List.map_append]
  | rep _ _ _ _ ih => exact ih n
  | group name body ih => simp only [number, names, ih, List.zipIdx_cons, List.map_cons, Prod.swap_prod_mk]

/-- What a match captures, without the numbers. -/
def unnumbered (captures : List ((Nat × Name) × List α)) : List (Name × List α) :=
  captures.map fun capture => (capture.1.2, capture.2)

theorem unnumbered_append (captures others : List ((Nat × Name) × List α)) :
    unnumbered (captures ++ others) = unnumbered captures ++ unnumbered others :=
  List.map_append ..

/-- The numbers of the groups change nothing about the matches. They only tell the
captures of one name apart. -/
theorem matches_number_iff {n : Nat} {p : Pattern α Name} {text : List α}
    {captures : List (Name × List α)} :
    Matches p text captures ↔
      ∃ numbered, Matches (p.number n) text numbered ∧ captures = unnumbered numbered := by
  induction p generalizing n text captures with
  | empty =>
      constructor
      · intro h
        obtain ⟨rfl, rfl⟩ := matches_empty_iff.mp h
        exact ⟨[], .empty, rfl⟩
      · rintro ⟨numbered, h, rfl⟩
        obtain ⟨rfl, rfl⟩ := matches_empty_iff.mp h
        exact .empty
  | set members =>
      constructor
      · intro h
        obtain ⟨a, hMember, rfl, rfl⟩ := matches_set_iff.mp h
        exact ⟨[], .set hMember, rfl⟩
      · rintro ⟨numbered, h, rfl⟩
        obtain ⟨a, hMember, rfl, rfl⟩ := matches_set_iff.mp h
        exact .set hMember
  | seq first second ihFirst ihSecond =>
      constructor
      · intro h
        obtain ⟨before, after, earlier, later, hFirst, hSecond, rfl, rfl⟩ := matches_seq_iff.mp h
        obtain ⟨one, hOne, rfl⟩ := (@ihFirst n _ _).mp hFirst
        obtain ⟨two, hTwo, rfl⟩ := (@ihSecond (n + first.names.length) _ _).mp hSecond
        exact ⟨one ++ two, .seq hOne hTwo, (unnumbered_append one two).symm⟩
      · rintro ⟨numbered, h, rfl⟩
        obtain ⟨before, after, one, two, hOne, hTwo, rfl, rfl⟩ := matches_seq_iff.mp h
        rw [unnumbered_append]
        exact .seq (ihFirst.mpr ⟨one, hOne, rfl⟩) (ihSecond.mpr ⟨two, hTwo, rfl⟩)
  | alt first second ihFirst ihSecond =>
      rw [matches_alt_iff, @ihFirst n, @ihSecond (n + first.names.length), ← exists_or]
      simp only [number, matches_alt_iff, or_and_right]
  | rep greedy least most body ih =>
      constructor
      · intro h
        obtain ⟨rounds, hRounds, rfl, rfl, hLeast, hMost⟩ := matches_rep_iff.mp h
        have hEach : ∀ round ∈ rounds, ∃ other : List α × List ((Nat × Name) × List α),
            Matches (body.number n) other.1 other.2 ∧ round = (other.1, unnumbered other.2) := by
          intro round hMem
          obtain ⟨numbered, hMatch, hSame⟩ := ih.mp (hRounds round hMem)
          exact ⟨(round.1, numbered), hMatch, Prod.ext rfl hSame⟩
        obtain ⟨others, hOthers, rfl⟩ := exists_map hEach
        have hMatch : Matches (rep greedy least most (body.number n)) (others.map Prod.fst).flatten
            (others.map Prod.snd).flatten :=
          matches_rep_iff.mpr ⟨others, hOthers, rfl, rfl, by simpa using hLeast, by simpa using hMost⟩
        rw [List.map_map]
        exact ⟨_, hMatch, by simp [unnumbered, Function.comp_def, List.map_flatten]⟩
      · rintro ⟨numbered, h, rfl⟩
        obtain ⟨rounds, hRounds, rfl, rfl, hLeast, hMost⟩ := matches_rep_iff.mp h
        refine matches_rep_iff.mpr ⟨rounds.map fun round => (round.1, unnumbered round.2), ?_, ?_, ?_,
          by simpa using hLeast, by simpa using hMost⟩
        · intro round hMem
          obtain ⟨other, hOther, rfl⟩ := List.mem_map.mp hMem
          exact ih.mpr ⟨other.2, hRounds other hOther, rfl⟩
        · simp [Function.comp_def]
        · simp [unnumbered, Function.comp_def, List.map_flatten]
  | group name body ih =>
      rw [matches_group_iff]
      simp only [number, matches_group_iff, @ih (n + 1)]
      constructor
      · rintro ⟨_, ⟨inner, hBody, rfl⟩, rfl⟩
        exact ⟨_, ⟨inner, hBody, rfl⟩, by rw [unnumbered_append]; rfl⟩
      · rintro ⟨_, ⟨inner, hBody, rfl⟩, rfl⟩
        exact ⟨_, ⟨inner, hBody, rfl⟩, by rw [unnumbered_append]; rfl⟩

/-- The captures of the first way that matches a whole text, by number and name. -/
def firstWay (p : Pattern α Name) (text : List α) : Option (List ((Nat × Name) × List α)) :=
  (p.number 0).regexMatch text

/-- A way through the groups of a pattern is a match, and only groups that occur have
captured something. -/
theorem firstWay_sound {p : Pattern α Name} {text : List α} {captures : List ((Nat × Name) × List α)}
    (h : p.firstWay text = some captures) :
    Matches p text (unnumbered captures) ∧
      ∀ capture ∈ captures, p.names[capture.1.1]? = some capture.1.2 := by
  have hMatch : Matches (p.number 0) text captures := regexMatch_sound h
  refine ⟨matches_number_iff.mpr ⟨captures, hMatch, rfl⟩, fun capture hMem => ?_⟩
  have hName := hMatch.mem_names capture hMem
  rw [names_number] at hName
  obtain ⟨⟨name, i⟩, hIndex, hSame⟩ := List.mem_map.mp hName
  rw [← hSame]
  exact List.mem_zipIdx_iff_getElem?.mp hIndex

/-- The search finds a way exactly if the pattern accepts the text. -/
theorem firstWay_isSome_iff (p : Pattern α Name) (text : List α) :
    (p.firstWay text).isSome ↔ Accepts p text := by
  rw [firstWay, regexMatch_isSome_iff, Accepts, Accepts]
  constructor
  · rintro ⟨numbered, h⟩
    exact ⟨_, matches_number_iff.mpr ⟨numbered, h, rfl⟩⟩
  · rintro ⟨captures, h⟩
    obtain ⟨numbered, hMatch, _⟩ := (@matches_number_iff _ _ 0 _ _ _).mp h
    exact ⟨numbered, hMatch⟩

section Reports

variable [DecidableEq Name]

/-- The first way to match a text goes through a group of the name. -/
def FirstThrough (p : Pattern α Name) (name : Name) (text : List α) : Prop :=
  ∃ captures, p.firstWay text = some captures ∧ ∃ captured, (name, captured) ∈ unnumbered captures

/-- What a group captured last. -/
def lastCapture (captures : List ((Nat × Name) × List α)) (number : Nat) (name : Name) : Option (List α) :=
  captures.reverse.lookup (number, name)

/-- What is reported under a name: the text of the leftmost group of that name that
took part, as it was captured last. -/
def reported (names : List Name) (captures : List ((Nat × Name) × List α)) (name : Name) :
    Option (List α) :=
  names.zipIdx.findSome? fun group =>
    if group.1 = name then lastCapture captures group.2 name else none

theorem reported_nil (names : List Name) (name : Name) :
    reported names ([] : List ((Nat × Name) × List α)) name = none := by
  rw [reported, List.findSome?_eq_none_iff]
  intro group _
  exact ite_self none

/-- What is reported under a name is the text of some capture with this name. Which
one it is depends on the numbers. -/
theorem reported_eq_some {names : List Name} {captures : List ((Nat × Name) × List α)} {name : Name}
    {text : List α} (h : reported names captures name = some text) :
    (name, text) ∈ unnumbered captures := by
  obtain ⟨⟨other, i⟩, _, hFound⟩ := List.exists_of_findSome?_eq_some h
  split at hFound
  · obtain ⟨later, earlier, hSplit, _⟩ := List.lookup_eq_some_iff.mp hFound
    have hMem : ((i, name), text) ∈ captures := by
      rw [← List.mem_reverse, hSplit]
      exact List.mem_append_right _ (List.mem_cons_self ..)
    exact List.mem_map.mpr ⟨_, hMem, rfl⟩
  · cases hFound

/-- Whatever a group of a name captured, something is reported under it. -/
theorem reported_isSome {names : List Name} {captures : List ((Nat × Name) × List α)} {name : Name}
    {i : Nat} {text : List α} (hMem : ((i, name), text) ∈ captures) (hName : names[i]? = some name) :
    (reported names captures name).isSome := by
  rw [reported, List.findSome?_isSome_iff]
  refine ⟨(name, i), List.mem_zipIdx_iff_getElem?.mpr hName, ?_⟩
  rw [if_pos rfl, lastCapture, List.lookup_isSome_iff]
  exact ⟨_, List.mem_reverse.mpr hMem, beq_self_eq_true _⟩

/-- What is reported of the first way that matches a whole text. -/
def firstMatch (p : Pattern α Name) (text : List α) : Option (Name → Option (List α)) :=
  (p.firstWay text).map (reported p.names)

/-- What a match reports about the groups, if it does not tell which one of a name took
part: one of the texts that were captured under the name. -/
structure Reports (matched : Name → Option (List α)) (captures : List (Name × List α)) : Prop where
  captured : ∀ name text, matched name = some text → (name, text) ∈ captures
  complete : ∀ name text, (name, text) ∈ captures → (matched name).isSome

theorem firstMatch_sound {p : Pattern α Name} {text : List α} {matched : Name → Option (List α)}
    (h : p.firstMatch text = some matched) :
    ∃ captures, Matches p text captures ∧ Reports matched captures := by
  obtain ⟨captures, hWay, rfl⟩ := Option.map_eq_some_iff.mp h
  obtain ⟨hMatch, hNames⟩ := firstWay_sound hWay
  refine ⟨unnumbered captures, hMatch, fun _ _ => reported_eq_some, fun name text hMem => ?_⟩
  obtain ⟨⟨⟨i, _⟩, _⟩, hCapture, hSame⟩ := List.mem_map.mp hMem
  obtain ⟨rfl, rfl⟩ := Prod.mk.inj hSame
  exact reported_isSome hCapture (hNames _ hCapture)

/-- Nothing is reported under a name exactly if the first way goes through no group of
that name, and then the text is matched with these groups cut out. -/
theorem firstMatch_eq_none {p : Pattern α Name} {text : List α} {matched : Name → Option (List α)}
    (h : p.firstMatch text = some matched) {name : Name} (hNone : matched name = none) :
    ¬p.FirstThrough name text ∧ Accepts (p.without name) text := by
  obtain ⟨captures, hWay, rfl⟩ := Option.map_eq_some_iff.mp h
  obtain ⟨hMatch, hNames⟩ := firstWay_sound hWay
  have hAvoids : ∀ capture ∈ unnumbered captures, capture.1 ≠ name := by
    intro capture hMem hSame
    obtain ⟨⟨⟨i, other⟩, captured⟩, hCapture, rfl⟩ := List.mem_map.mp hMem
    obtain rfl : other = name := hSame
    have hSome := reported_isSome hCapture (hNames _ hCapture)
    rw [hNone] at hSome
    cases hSome
  refine ⟨?_, accepts_without_iff.mpr ⟨_, hMatch, hAvoids⟩⟩
  intro ⟨others, hOther, captured, hMem⟩
  obtain rfl := Option.some.inj (hWay.symm.trans hOther)
  exact hAvoids _ hMem rfl

theorem firstMatch_isSome_iff (p : Pattern α Name) (text : List α) :
    (p.firstMatch text).isSome ↔ Accepts p text := by
  rw [firstMatch, Option.isSome_map, firstWay_isSome_iff]

end Reports

end Pattern

end Text
