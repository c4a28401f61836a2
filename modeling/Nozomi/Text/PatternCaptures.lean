import Mathlib.Data.List.Infix
import Nozomi.Text.Pattern

/-! Which groups take part in the matches of a pattern, and what they capture. -/
namespace Text

namespace Pattern

variable {α Name : Type}

/-- Some match goes without the group. This is read off the pattern: a
repetition may have no rounds, and an alternative may lack the group. -/
def Avoidable (name : Name) : Pattern α Name → Prop
  | empty => True
  | set members => ∃ a, members a = true
  | seq first second => first.Avoidable name ∧ second.Avoidable name
  | alt first second => first.Avoidable name ∨ second.Avoidable name
  | rep _ least most body => least = 0 ∨ (∀ bound ∈ most, least ≤ bound) ∧ body.Avoidable name
  | group other body => other ≠ name ∧ body.Avoidable name

/-- The group captures a text in some match. -/
def CanCapture (p : Pattern α Name) (name : Name) (captured : List α) : Prop :=
  ∃ text captures, Matches p text captures ∧ (name, captured) ∈ captures

/-- A group is avoidable exactly if some match captures nothing under its name. The
induction is over the pattern. -/
theorem avoidable_iff (name : Name) (p : Pattern α Name) :
    p.Avoidable name ↔
      ∃ text captures, Matches p text captures ∧ ∀ capture ∈ captures, capture.1 ≠ name := by
  induction p with
  | empty => exact iff_of_true trivial ⟨[], [], .empty, by simp⟩
  | set members =>
      constructor
      · rintro ⟨a, hMember⟩
        exact ⟨[a], [], .set hMember, by simp⟩
      · rintro ⟨text, captures, hMatch, _⟩
        cases hMatch with
        | set hMember => exact ⟨_, hMember⟩
  | seq first second ihFirst ihSecond =>
      rw [Avoidable, ihFirst, ihSecond]
      constructor
      · rintro ⟨⟨text, captures, hFirst, hAvoids⟩, rest, others, hSecond, hOthers⟩
        exact ⟨_, _, .seq hFirst hSecond, List.forall_mem_append.mpr ⟨hAvoids, hOthers⟩⟩
      · rintro ⟨text, captures, hMatch, hAvoids⟩
        obtain ⟨before, after, earlier, later, hFirst, hSecond, rfl, rfl⟩ := matches_seq_iff.mp hMatch
        obtain ⟨hEarlier, hLater⟩ := List.forall_mem_append.mp hAvoids
        exact ⟨⟨before, earlier, hFirst, hEarlier⟩, after, later, hSecond, hLater⟩
  | alt first second ihFirst ihSecond =>
      rw [Avoidable, ihFirst, ihSecond]
      simp only [matches_alt_iff, or_and_right, exists_or]
  | rep greedy least most body ih =>
      rw [Avoidable, ih]
      constructor
      · rintro (rfl | ⟨hMost, text, captures, hBody, hAvoids⟩)
        · exact ⟨[], [], .done, by simp⟩
        · refine ⟨_, _, matches_rep_iff.mpr ⟨List.replicate least (text, captures), ?_, rfl, rfl,
            by simp, by simpa using hMost⟩, ?_⟩
          · intro round hMem
            obtain rfl := List.eq_of_mem_replicate hMem
            exact hBody
          · intro capture hMem
            obtain ⟨inner, hInner, hCapture⟩ := List.mem_flatten.mp hMem
            rw [List.map_replicate] at hInner
            rw [List.eq_of_mem_replicate hInner] at hCapture
            exact hAvoids capture hCapture
      · rintro ⟨text, captures, hMatch, hAvoids⟩
        obtain ⟨rounds, hRounds, _, rfl, hLeast, hMost⟩ := matches_rep_iff.mp hMatch
        cases rounds with
        | nil => exact Or.inl (Nat.le_zero.mp hLeast)
        | cons round rounds =>
            refine Or.inr ⟨fun bound hMem => Nat.le_trans hLeast (hMost bound hMem), round.1, round.2,
              hRounds _ (List.mem_cons_self ..), fun capture hMem => hAvoids capture ?_⟩
            exact List.mem_append_left _ hMem
  | group other body ih =>
      rw [Avoidable, ih]
      constructor
      · rintro ⟨hOther, text, captures, hBody, hAvoids⟩
        refine ⟨text, captures ++ [(other, text)], .group other hBody, ?_⟩
        exact List.forall_mem_append.mpr ⟨hAvoids, by simpa using hOther⟩
      · rintro ⟨text, captures, hMatch, hAvoids⟩
        obtain ⟨inner, hBody, rfl⟩ := matches_group_iff.mp hMatch
        obtain ⟨hInner, hLast⟩ := List.forall_mem_append.mp hAvoids
        exact ⟨by simpa using hLast, text, inner, hBody, hInner⟩

/-- The names of the groups, in the order in which they begin. -/
def names : Pattern α Name → List Name
  | empty | set _ => []
  | seq first second | alt first second => first.names ++ second.names
  | rep _ _ _ body => body.names
  | group name body => name :: body.names

/-- Nothing is captured under other names. -/
theorem Matches.mem_names {p : Pattern α Name} {text : List α} {captures : List (Name × List α)}
    (h : Matches p text captures) : ∀ capture ∈ captures, capture.1 ∈ p.names := by
  induction h with
  | empty | set | done => simp
  | seq _ _ ihFirst ihSecond =>
      refine List.forall_mem_append.mpr ⟨fun capture hMem => ?_, fun capture hMem => ?_⟩
      · exact List.mem_append_left _ (ihFirst capture hMem)
      · exact List.mem_append_right _ (ihSecond capture hMem)
  | altFirst _ ih => exact fun capture hMem => List.mem_append_left _ (ih capture hMem)
  | altSecond _ ih => exact fun capture hMem => List.mem_append_right _ (ih capture hMem)
  | again _ _ _ ihBody ihRest => exact List.forall_mem_append.mpr ⟨ihBody, ihRest⟩
  | group name _ ih =>
      refine List.forall_mem_append.mpr ⟨fun capture hMem => List.mem_cons_of_mem _ (ih capture hMem), ?_⟩
      exact List.forall_mem_singleton.mpr (List.mem_cons_self ..)

section Without

variable [DecidableEq Name]

/-- The pattern with the groups of a name cut out, so that they match nothing. -/
def without (name : Name) : Pattern α Name → Pattern α Name
  | empty => empty
  | set members => set members
  | seq first second => seq (first.without name) (second.without name)
  | alt first second => alt (first.without name) (second.without name)
  | rep greedy least most body => rep greedy least most (body.without name)
  | group other body => if other = name then set fun _ => false else group other (body.without name)

theorem ne_of_mem_without {name : Name} {p : Pattern α Name} :
    ∀ other ∈ (p.without name).names, other ≠ name := by
  induction p with
  | empty | set => simp [without, names]
  | seq _ _ ihFirst ihSecond | alt _ _ ihFirst ihSecond =>
      exact List.forall_mem_append.mpr ⟨ihFirst, ihSecond⟩
  | rep _ _ _ _ ih => exact ih
  | group other body ih =>
      rw [without]
      split
      · simp [names]
      · rename_i hOther
        exact List.forall_mem_cons.mpr ⟨hOther, ih⟩

/-- What is left are the matches that capture nothing under the name. The induction is
over the pattern, with the rounds of a repetition one by one. -/
theorem matches_without_iff {name : Name} {p : Pattern α Name} {text : List α}
    {captures : List (Name × List α)} :
    Matches (p.without name) text captures ↔
      Matches p text captures ∧ ∀ capture ∈ captures, capture.1 ≠ name := by
  refine ⟨fun h => ⟨?_, fun capture hMem => ne_of_mem_without _ (h.mem_names capture hMem)⟩, ?_⟩
  · induction p generalizing text captures with
    | empty | set => exact h
    | seq first second ihFirst ihSecond =>
        obtain ⟨before, after, earlier, later, hFirst, hSecond, rfl, rfl⟩ := matches_seq_iff.mp h
        exact .seq (ihFirst hFirst) (ihSecond hSecond)
    | alt first second ihFirst ihSecond =>
        rcases matches_alt_iff.mp h with hFirst | hSecond
        · exact .altFirst (ihFirst hFirst)
        · exact .altSecond (ihSecond hSecond)
    | rep greedy least most body ih =>
        obtain ⟨rounds, hRounds, hSame⟩ := matches_rep_iff.mp h
        exact matches_rep_iff.mpr ⟨rounds, fun round hMem => ih (hRounds round hMem), hSame⟩
    | group other body ih =>
        rw [without] at h
        split at h
        · exact absurd h not_matches_set_false
        · obtain ⟨inner, hBody, rfl⟩ := matches_group_iff.mp h
          exact .group other (ih hBody)
  · intro ⟨h, hAvoids⟩
    induction p generalizing text captures with
    | empty | set => exact h
    | seq first second ihFirst ihSecond =>
        obtain ⟨before, after, earlier, later, hFirst, hSecond, rfl, rfl⟩ := matches_seq_iff.mp h
        obtain ⟨hEarlier, hLater⟩ := List.forall_mem_append.mp hAvoids
        exact .seq (ihFirst hFirst hEarlier) (ihSecond hSecond hLater)
    | alt first second ihFirst ihSecond =>
        rcases matches_alt_iff.mp h with hFirst | hSecond
        · exact .altFirst (ihFirst hFirst hAvoids)
        · exact .altSecond (ihSecond hSecond hAvoids)
    | rep greedy least most body ih =>
        obtain ⟨rounds, hRounds, rfl, rfl, hBounds⟩ := matches_rep_iff.mp h
        refine matches_rep_iff.mpr ⟨rounds, fun round hMem => ih (hRounds round hMem) ?_, rfl, rfl, hBounds⟩
        intro capture hCapture
        exact hAvoids capture (List.mem_flatten.mpr ⟨_, List.mem_map_of_mem hMem, hCapture⟩)
    | group other body ih =>
        obtain ⟨inner, hBody, rfl⟩ := matches_group_iff.mp h
        obtain ⟨hInner, hLast⟩ := List.forall_mem_append.mp hAvoids
        rw [without, if_neg (by simpa using hLast)]
        exact .group other (ih hBody hInner)

/-- A text is accepted with the groups cut out if some match captures nothing under
the name. -/
theorem accepts_without_iff {name : Name} {p : Pattern α Name} {text : List α} :
    Accepts (p.without name) text ↔
      ∃ captures, Matches p text captures ∧ ∀ capture ∈ captures, capture.1 ≠ name := by
  simp only [Accepts, matches_without_iff]

end Without

/-- Whatever is captured is a part of the text. -/
theorem Matches.captured_infix {p : Pattern α Name} {text : List α} {captures : List (Name × List α)}
    (h : Matches p text captures) {capture : Name × List α} (hMem : capture ∈ captures) :
    capture.2 <:+: text := by
  induction h with
  | empty | set | done => cases hMem
  | seq _ _ ihFirst ihSecond =>
      rcases List.mem_append.mp hMem with hFirst | hSecond
      · exact (ihFirst hFirst).trans (List.prefix_append _ _).isInfix
      · exact (ihSecond hSecond).trans (List.suffix_append _ _).isInfix
  | altFirst _ ih | altSecond _ ih => exact ih hMem
  | again _ _ _ ihBody ihRest =>
      rcases List.mem_append.mp hMem with hBody | hRest
      · exact (ihBody hBody).trans (List.prefix_append _ _).isInfix
      · exact (ihRest hRest).trans (List.suffix_append _ _).isInfix
  | group name _ ih =>
      rcases List.mem_append.mp hMem with hInner | hLast
      · exact ih hInner
      · obtain rfl := List.mem_singleton.mp hLast
        exact List.infix_refl _

end Pattern

end Text
