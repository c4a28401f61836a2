import Mathlib.Data.List.Basic

/-! Regular expressions with named groups over any alphabet, and what their
matches capture. -/
namespace Text

/-- A repetition has a least number of rounds, and perhaps a greatest one. Whether it
is greedy matters to the order of a search, not to what is matched. -/
inductive Pattern (α Name : Type) where
  | empty
  | set (members : α → Bool)
  | seq (first second : Pattern α Name)
  | alt (first second : Pattern α Name)
  | rep (greedy : Bool) (least : Nat) (most : Option Nat) (body : Pattern α Name)
  | group (name : Name) (body : Pattern α Name)

namespace Pattern

variable {α Name : Type}

/-- A pattern matches a text and captures the listed texts on the way. A group
in a repetition may capture once in every round. -/
inductive Matches : Pattern α Name → List α → List (Name × List α) → Prop where
  | empty : Matches empty [] []
  | set {members : α → Bool} {a : α} (hMember : members a = true) : Matches (set members) [a] []
  | seq {first second : Pattern α Name} {text rest : List α} {captures others : List (Name × List α)}
      (hFirst : Matches first text captures) (hSecond : Matches second rest others) :
      Matches (seq first second) (text ++ rest) (captures ++ others)
  | altFirst {first second : Pattern α Name} {text : List α} {captures : List (Name × List α)}
      (h : Matches first text captures) : Matches (alt first second) text captures
  | altSecond {first second : Pattern α Name} {text : List α} {captures : List (Name × List α)}
      (h : Matches second text captures) : Matches (alt first second) text captures
  | done {greedy : Bool} {most : Option Nat} {body : Pattern α Name} :
      Matches (rep greedy 0 most body) [] []
  | again {greedy : Bool} {least : Nat} {most : Option Nat} {body : Pattern α Name}
      {text rest : List α} {captures others : List (Name × List α)} (hMost : most ≠ some 0)
      (hBody : Matches body text captures)
      (hRest : Matches (rep greedy (least - 1) (most.map Nat.pred) body) rest others) :
      Matches (rep greedy least most body) (text ++ rest) (captures ++ others)
  | group (name : Name) {body : Pattern α Name} {text : List α} {captures : List (Name × List α)}
      (h : Matches body text captures) : Matches (group name body) text (captures ++ [(name, text)])

/-- The texts that a pattern matches, whatever it captures. -/
def Accepts (p : Pattern α Name) (text : List α) : Prop := ∃ captures, Matches p text captures

/-- No named group occurs. -/
def Unnamed : Pattern α Name → Prop
  | empty | set _ => True
  | seq first second | alt first second => first.Unnamed ∧ second.Unnamed
  | rep _ _ _ body => body.Unnamed
  | group _ _ => False

def sequence : List (Pattern α Name) → Pattern α Name
  | [] => empty
  | [piece] => piece
  | piece :: next :: pieces => seq piece (sequence (next :: pieces))

/-- One of several patterns. There is no match if there are none. -/
def choice : List (Pattern α Name) → Pattern α Name
  | [] => set fun _ => false
  | [branch] => branch
  | branch :: next :: branches => alt branch (choice (next :: branches))

def optional (body : Pattern α Name) : Pattern α Name := rep true 0 (some 1) body

variable {text : List α} {captures : List (Name × List α)}

theorem matches_empty_iff :
    Matches (empty : Pattern α Name) text captures ↔ text = [] ∧ captures = [] := by
  constructor
  · rintro ⟨⟩
    exact ⟨rfl, rfl⟩
  · rintro ⟨rfl, rfl⟩
    exact .empty

theorem not_matches_set_false : ¬Matches (set fun _ => false : Pattern α Name) text captures := by
  rintro ⟨⟩
  contradiction

/-- A sequence matches a text that can be cut in two, with the captures of both in
order. -/
theorem matches_seq_iff {first second : Pattern α Name} :
    Matches (seq first second) text captures ↔ ∃ before after earlier later,
      Matches first before earlier ∧ Matches second after later ∧
        text = before ++ after ∧ captures = earlier ++ later := by
  constructor
  · rintro (_ | _ | ⟨hFirst, hSecond⟩)
    exact ⟨_, _, _, _, hFirst, hSecond, rfl, rfl⟩
  · rintro ⟨before, after, earlier, later, hFirst, hSecond, rfl, rfl⟩
    exact .seq hFirst hSecond

/-- An alternative matches what one of its sides does, with its captures. -/
theorem matches_alt_iff {first second : Pattern α Name} :
    Matches (alt first second) text captures ↔
      Matches first text captures ∨ Matches second text captures := by
  constructor
  · intro h
    cases h with
    | altFirst hFirst => exact Or.inl hFirst
    | altSecond hSecond => exact Or.inr hSecond
  · rintro (hFirst | hSecond)
    · exact .altFirst hFirst
    · exact .altSecond hSecond

theorem matches_group_iff {name : Name} {body : Pattern α Name} :
    Matches (group name body) text captures ↔
      ∃ inner, Matches body text inner ∧ captures = inner ++ [(name, text)] := by
  constructor
  · intro h
    cases h with
    | group _ hBody => exact ⟨_, hBody, rfl⟩
  · rintro ⟨inner, hBody, rfl⟩
    exact .group name hBody

/-- An option matches what its body does, and the empty text without captures. -/
theorem matches_optional_iff {body : Pattern α Name} :
    Matches (optional body) text captures ↔
      text = [] ∧ captures = [] ∨ Matches body text captures := by
  constructor
  · intro h
    cases h with
    | done => exact Or.inl ⟨rfl, rfl⟩
    | again _ hBody hRest =>
        cases hRest with
        | done => exact Or.inr (by simpa using hBody)
        | again hMost => exact absurd rfl hMost
  · rintro (⟨rfl, rfl⟩ | hBody)
    · exact .done
    · have hDone : Matches (rep true (0 - 1) ((some 1).map Nat.pred) body) [] [] := .done
      simpa [optional] using Matches.again (by decide) hBody hDone

/-- A sequence of pieces is the first piece and the sequence of the others. -/
theorem matches_sequence_cons_iff {piece : Pattern α Name} {pieces : List (Pattern α Name)} :
    Matches (sequence (piece :: pieces)) text captures ↔
      Matches (seq piece (sequence pieces)) text captures := by
  cases pieces with
  | cons => rfl
  | nil =>
      rw [matches_seq_iff]
      constructor
      · intro h
        exact ⟨text, [], captures, [], h, .empty, by simp, by simp⟩
      · rintro ⟨before, after, earlier, later, hPiece, hEmpty, rfl, rfl⟩
        obtain ⟨rfl, rfl⟩ := matches_empty_iff.mp hEmpty
        simpa [sequence] using hPiece

theorem matches_choice_iff {branches : List (Pattern α Name)} :
    Matches (choice branches) text captures ↔ ∃ branch ∈ branches, Matches branch text captures := by
  induction branches with
  | nil => simpa [choice] using not_matches_set_false
  | cons branch branches ih =>
      cases branches with
      | nil => simp [choice]
      | cons next branches => rw [choice, matches_alt_iff, ih]; simp

theorem matches_set_iff {members : α → Bool} :
    Matches (set members : Pattern α Name) text captures ↔
      ∃ a, members a = true ∧ text = [a] ∧ captures = [] := by
  constructor
  · intro h
    cases h with
    | set hMember => exact ⟨_, hMember, rfl, rfl⟩
  · rintro ⟨a, hMember, rfl, rfl⟩
    exact .set hMember

theorem exists_map {β γ : Type} {p : β → Prop} {f : β → γ} {values : List γ}
    (h : ∀ value ∈ values, ∃ source, p source ∧ value = f source) :
    ∃ sources : List β, (∀ source ∈ sources, p source) ∧ values = sources.map f := by
  induction values with
  | nil => exact ⟨[], by simp, rfl⟩
  | cons value values ih =>
      obtain ⟨⟨source, hSource, rfl⟩, hRest⟩ := List.forall_mem_cons.mp h
      obtain ⟨sources, hSources, rfl⟩ := ih hRest
      exact ⟨source :: sources, List.forall_mem_cons.mpr ⟨hSource, hSources⟩, rfl⟩

/-- A repetition matches what its rounds match one after the other, and captures what
they capture. -/
theorem matches_rep_iff {greedy : Bool} {least : Nat} {most : Option Nat} {body : Pattern α Name} :
    Matches (rep greedy least most body) text captures ↔
      ∃ rounds : List (List α × List (Name × List α)), (∀ round ∈ rounds, Matches body round.1 round.2) ∧
        text = (rounds.map Prod.fst).flatten ∧ captures = (rounds.map Prod.snd).flatten ∧
        least ≤ rounds.length ∧ ∀ bound ∈ most, rounds.length ≤ bound := by
  constructor
  · intro h
    generalize hPattern : rep greedy least most body = p at h
    induction h generalizing least most with
    | done =>
        obtain ⟨rfl, rfl, rfl, rfl⟩ := Pattern.rep.inj hPattern
        exact ⟨[], by simp⟩
    | @again _ _ most _ text _ captures _ hMost hBody _ _ ih =>
        obtain ⟨rfl, rfl, rfl, rfl⟩ := Pattern.rep.inj hPattern
        obtain ⟨rounds, hRounds, rfl, rfl, hLeast, hBound⟩ := ih rfl
        refine ⟨(text, captures) :: rounds, List.forall_mem_cons.mpr ⟨hBody, hRounds⟩, rfl, rfl, ?_, ?_⟩
        · rw [List.length_cons]
          omega
        · intro bound hMem
          have hRest := hBound (bound - 1) (Option.map_eq_some_iff.mpr ⟨bound, hMem, rfl⟩)
          have hPositive : bound ≠ 0 := by
            intro hZero
            exact hMost (hZero ▸ hMem)
          rw [List.length_cons]
          omega
    | _ => cases hPattern
  · intro ⟨rounds, hRounds, hText, hCaptures, hLeast, hBound⟩
    subst hText hCaptures
    induction rounds generalizing least most with
    | nil =>
        obtain rfl : least = 0 := Nat.le_zero.mp hLeast
        exact .done
    | cons round rounds ih =>
        obtain ⟨hFirst, hRest⟩ := List.forall_mem_cons.mp hRounds
        rw [List.length_cons] at hLeast hBound
        have hMost : most ≠ some 0 := by
          intro hZero
          exact absurd (hBound 0 hZero) (Nat.not_succ_le_zero _)
        refine .again hMost hFirst (ih hRest (by omega) fun bound hMem => ?_)
        obtain ⟨more, hMore, rfl⟩ := Option.map_eq_some_iff.mp hMem
        exact Nat.le_pred_of_lt (hBound more hMore)

/-- A repetition accepts what its rounds accept one after the other. -/
theorem accepts_rep_iff {greedy : Bool} {least : Nat} {most : Option Nat} {body : Pattern α Name} :
    Accepts (rep greedy least most body) text ↔ ∃ texts : List (List α), (∀ u ∈ texts, Accepts body u) ∧
      text = texts.flatten ∧ least ≤ texts.length ∧ ∀ bound ∈ most, texts.length ≤ bound := by
  constructor
  · intro ⟨captures, h⟩
    obtain ⟨rounds, hRounds, hText, _, hLeast, hMost⟩ := matches_rep_iff.mp h
    refine ⟨rounds.map Prod.fst, ?_, hText, by simpa using hLeast, by simpa using hMost⟩
    intro u hMem
    obtain ⟨round, hRound, rfl⟩ := List.mem_map.mp hMem
    exact ⟨round.2, hRounds round hRound⟩
  · intro ⟨texts, hTexts, hText, hLeast, hMost⟩
    have hEach : ∀ u ∈ texts, ∃ round : List α × List (Name × List α),
        Matches body round.1 round.2 ∧ u = round.1 := by
      intro u hMem
      obtain ⟨captures, hMatch⟩ := hTexts u hMem
      exact ⟨(u, captures), hMatch, rfl⟩
    obtain ⟨rounds, hRounds, rfl⟩ := exists_map hEach
    exact ⟨_, matches_rep_iff.mpr ⟨rounds, hRounds, hText, rfl, by simpa using hLeast,
      by simpa using hMost⟩⟩

/-- A text that is cut into nonempty parts has at least as many characters as parts. -/
theorem length_le_flatten {texts : List (List α)} (h : ∀ u ∈ texts, u ≠ []) :
    texts.length ≤ texts.flatten.length := by
  induction texts with
  | nil => exact Nat.zero_le 0
  | cons u texts ih =>
      obtain ⟨hFirst, hRest⟩ := List.forall_mem_cons.mp h
      have hPositive := List.length_pos_of_ne_nil hFirst
      have hLater := ih hRest
      rw [List.length_cons, List.flatten_cons, List.length_append]
      omega

/-- A repeated set matches texts of enough characters that are all in the set. -/
theorem Matches.rep_set {greedy : Bool} {least : Nat} {most : Option Nat} {members : α → Bool}
    (h : Matches (rep greedy least most (Pattern.set members) : Pattern α Name) text captures) :
    least ≤ text.length ∧ ∀ a ∈ text, members a = true := by
  obtain ⟨texts, hTexts, rfl, hLeast, _⟩ := accepts_rep_iff.mp ⟨captures, h⟩
  have hOne : ∀ u ∈ texts, ∃ a, members a = true ∧ u = [a] := by
    intro u hMem
    obtain ⟨_, hMatch⟩ := hTexts u hMem
    obtain ⟨a, hMember, hSame, _⟩ := matches_set_iff.mp hMatch
    exact ⟨a, hMember, hSame⟩
  constructor
  · refine Nat.le_trans hLeast (length_le_flatten fun u hMem => ?_)
    obtain ⟨a, _, rfl⟩ := hOne u hMem
    exact List.cons_ne_nil _ _
  · intro a hMem
    obtain ⟨u, hText, hInside⟩ := List.mem_flatten.mp hMem
    obtain ⟨b, hMember, rfl⟩ := hOne u hText
    rwa [List.mem_singleton.mp hInside]

/-- An unlimited repetition of a set accepts the texts over the set that are long
enough. -/
theorem accepts_rep_set_iff {greedy : Bool} {least : Nat} {members : α → Bool} :
    Accepts (rep greedy least none (set members) : Pattern α Name) text ↔
      least ≤ text.length ∧ ∀ a ∈ text, members a = true := by
  constructor
  · intro ⟨captures, h⟩
    exact h.rep_set
  · intro ⟨hLength, hMembers⟩
    have hText : text = (text.map fun a => [a]).flatten := List.flatMap_singleton' text |>.symm
    refine accepts_rep_iff.mpr ⟨text.map fun a => [a], ?_, hText, by simpa using hLength, by simp⟩
    intro u hMem
    obtain ⟨a, hText, rfl⟩ := List.mem_map.mp hMem
    exact ⟨[], .set (hMembers a hText)⟩

/-- Without named groups nothing is captured. -/
theorem Matches.captures_eq_nil {p : Pattern α Name} (h : Matches p text captures)
    (hUnnamed : p.Unnamed) : captures = [] := by
  induction h with
  | empty | set | done => rfl
  | seq _ _ ihFirst ihSecond => rw [ihFirst hUnnamed.1, ihSecond hUnnamed.2, List.append_nil]
  | altFirst _ ih => exact ih hUnnamed.1
  | altSecond _ ih => exact ih hUnnamed.2
  | again _ _ _ ihBody ihRest => rw [ihBody hUnnamed, ihRest hUnnamed, List.append_nil]
  | group => exact hUnnamed.elim

/-- A pattern without named groups captures nothing, so that a text is accepted
exactly if it is matched without captures. -/
theorem accepts_iff_of_unnamed {p : Pattern α Name} (hUnnamed : p.Unnamed) :
    Accepts p text ↔ Matches p text [] := by
  constructor
  · rintro ⟨captures, h⟩
    rwa [h.captures_eq_nil hUnnamed] at h
  · intro h
    exact ⟨[], h⟩

end Pattern

end Text
