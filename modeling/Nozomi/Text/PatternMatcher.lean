import Nozomi.Text.Pattern

/-! A backtracking search for the matches of a pattern, in the order in which Perl
tries them: from left to right, the first alternative first, another round of a
greedy repetition before its end and of a lazy one after it. -/
namespace Text

namespace Pattern

/-- One way to match the beginning of a text. -/
structure Way (α Name : Type) where
  captures : List (Name × List α)
  used : List α
  rest : List α

variable {α Name : Type}

namespace Way

def skip (text : List α) : Way α Name := ⟨[], [], text⟩

/-- Go on after a first way. -/
def andThen (way next : Way α Name) : Way α Name :=
  ⟨way.captures ++ next.captures, way.used ++ next.used, next.rest⟩

/-- The captures of a way, made in each of several rounds. -/
def times (way : Way α Name) (count : Nat) : Way α Name :=
  { way with captures := (List.replicate count way.captures).flatten }

end Way

/-- Rounds of a repetition. A round that consumes nothing is the last one, and
counts for all rounds that are still required. -/
def rounds (greedy : Bool) (body : List α → List (Way α Name)) :
    Nat → Nat → Option Nat → List α → List (Way α Name)
  | 0, _, _, _ => []
  | fuel + 1, least, most, text =>
      let stop := if least = 0 then [.skip text] else []
      let more := if most = some 0 then [] else (body text).flatMap fun way =>
        if way.used.isEmpty then [way.times (max least 1)]
        else (rounds greedy body fuel (least - 1) (most.map Nat.pred) way.rest).map way.andThen
      if greedy then more ++ stop else stop ++ more

/-- All ways to match the beginning of a text, in the order of the search. Every
round but the last consumes something, so there are no more than `fuel`. -/
def ways : Pattern α Name → List α → List (Way α Name)
  | empty, text => [.skip text]
  | set _, [] => []
  | set members, a :: text => if members a then [⟨[], [a], text⟩] else []
  | seq first second, text =>
      (first.ways text).flatMap fun way => (second.ways way.rest).map way.andThen
  | alt first second, text => first.ways text ++ second.ways text
  | rep greedy least most body, text =>
      if most.all (least ≤ ·) then rounds greedy body.ways (text.length + 1) least most text else []
  | group name body, text =>
      (body.ways text).map fun way => { way with captures := way.captures ++ [(name, way.used)] }

/-- The captures of the first way that matches a whole text. -/
def regexMatch (p : Pattern α Name) (text : List α) : Option (List (Name × List α)) :=
  ((p.ways text).find? fun way => way.rest.isEmpty).map Way.captures

/-- What the rounds of a repetition can be, whatever their order. A lazy repetition
only tries to stop before it goes on. -/
theorem mem_rounds_iff {greedy : Bool} {body : List α → List (Way α Name)} {fuel least : Nat}
    {most : Option Nat} {text : List α} {way : Way α Name} :
    way ∈ rounds greedy body (fuel + 1) least most text ↔
      (least = 0 ∧ way = .skip text) ∨
      most ≠ some 0 ∧ ∃ first ∈ body text,
        (first.used = [] ∧ way = first.times (max least 1)) ∨
        (first.used ≠ [] ∧
          ∃ next ∈ rounds greedy body fuel (least - 1) (most.map Nat.pred) first.rest,
            way = first.andThen next) := by
  have hStop : (way ∈ if least = 0 then [Way.skip text] else []) ↔ least = 0 ∧ way = .skip text := by
    split <;> simp [*]
  have hRound : ∀ first : Way α Name,
      (way ∈ if first.used.isEmpty then [first.times (max least 1)] else
        (rounds greedy body fuel (least - 1) (most.map Nat.pred) first.rest).map first.andThen) ↔
      (first.used = [] ∧ way = first.times (max least 1)) ∨
        (first.used ≠ [] ∧
          ∃ next ∈ rounds greedy body fuel (least - 1) (most.map Nat.pred) first.rest,
            way = first.andThen next) := by
    intro first
    by_cases hUsed : first.used = []
    · simp [hUsed]
    · simp [hUsed, @eq_comm _ way]
  have hMore : (way ∈ if most = some 0 then [] else (body text).flatMap fun way =>
        if way.used.isEmpty then [way.times (max least 1)]
        else (rounds greedy body fuel (least - 1) (most.map Nat.pred) way.rest).map way.andThen) ↔
      most ≠ some 0 ∧ ∃ first ∈ body text,
        (first.used = [] ∧ way = first.times (max least 1)) ∨
        (first.used ≠ [] ∧
          ∃ next ∈ rounds greedy body fuel (least - 1) (most.map Nat.pred) first.rest,
            way = first.andThen next) := by
    split
    · rename_i hMost
      exact ⟨fun hMem => absurd hMem List.not_mem_nil, fun h => absurd hMost h.1⟩
    · rename_i hMost
      simp only [List.mem_flatMap, hRound, ne_eq, hMost, not_false_eq_true, true_and]
  rw [rounds]
  cases greedy with
  | true => rw [if_pos rfl, List.mem_append, hStop, hMore, or_comm]
  | false => rw [if_neg Bool.false_ne_true, List.mem_append, hStop, hMore]

/-- Empty rounds make as many rounds as are wanted. -/
theorem matches_rep_nil {greedy : Bool} {body : Pattern α Name} {captures : List (Name × List α)}
    (hBody : Matches body [] captures) {count least : Nat} {most : Option Nat} (hLeast : least ≤ count)
    (hMost : ∀ bound ∈ most, count ≤ bound) :
    Matches (rep greedy least most body) [] (List.replicate count captures).flatten := by
  refine matches_rep_iff.mpr ⟨List.replicate count ([], captures), ?_, by simp, by simp,
    by simpa using hLeast, by simpa using hMost⟩
  intro round hMem
  obtain rfl := List.eq_of_mem_replicate hMem
  exact hBody

/-- Every way through some rounds is a match of the repeated pattern. The induction
is over the fuel, with one round less to go. -/
theorem rounds_sound {greedy : Bool} {body : Pattern α Name} {least : Nat} {most : Option Nat}
    {fuel : Nat} {text : List α} {way : Way α Name} (hMost : ∀ bound ∈ most, least ≤ bound)
    (hBody : ∀ text, ∀ way ∈ body.ways text,
      Matches body way.used way.captures ∧ text = way.used ++ way.rest)
    (hMem : way ∈ rounds greedy body.ways fuel least most text) :
    Matches (rep greedy least most body) way.used way.captures ∧ text = way.used ++ way.rest := by
  induction fuel generalizing least most text way with
  | zero => cases hMem
  | succ fuel ih =>
      rcases mem_rounds_iff.mp hMem with ⟨rfl, rfl⟩ | ⟨hStart, first, hFirst, hRound⟩
      · exact ⟨.done, rfl⟩
      obtain ⟨hMatch, hText⟩ := hBody text first hFirst
      rcases hRound with ⟨hUsed, rfl⟩ | ⟨_, next, hNext, rfl⟩
      · rw [hUsed] at hMatch hText
        have hBound : ∀ bound ∈ most, max least 1 ≤ bound := by
          intro bound hMem
          have hLeast := hMost bound hMem
          have hPositive : bound ≠ 0 := by
            rintro rfl
            exact hStart hMem
          omega
        refine ⟨?_, by rw [Way.times, hUsed, hText]⟩
        rw [Way.times, hUsed]
        exact matches_rep_nil hMatch (Nat.le_max_left _ _) hBound
      · have hPred : ∀ bound ∈ most.map Nat.pred, least - 1 ≤ bound := by
          intro bound hMem
          obtain ⟨more, hMore, rfl⟩ := Option.map_eq_some_iff.mp hMem
          exact Nat.pred_le_pred (hMost more hMore)
        obtain ⟨hMatchRest, hTextRest⟩ := ih hPred hNext
        exact ⟨.again hStart hMatch hMatchRest, by simp [hText, hTextRest, Way.andThen]⟩

/-- Every way is a match of the text it uses, and leaves the rest. The induction is
over the pattern. -/
theorem ways_sound (p : Pattern α Name) (text : List α) : ∀ way ∈ p.ways text,
    Matches p way.used way.captures ∧ text = way.used ++ way.rest := by
  induction p generalizing text with
  | empty =>
      intro way hMem
      obtain rfl := List.mem_singleton.mp hMem
      exact ⟨.empty, rfl⟩
  | set members =>
      intro way hMem
      cases text with
      | nil => cases hMem
      | cons a text =>
          unfold ways at hMem
          split at hMem
          · rename_i hMember
            obtain rfl := List.mem_singleton.mp hMem
            exact ⟨.set hMember, rfl⟩
          · cases hMem
  | seq first second ihFirst ihSecond =>
      intro way hMem
      obtain ⟨before, hBefore, hRest⟩ := List.mem_flatMap.mp hMem
      obtain ⟨after, hAfter, rfl⟩ := List.mem_map.mp hRest
      obtain ⟨hFirst, hText⟩ := ihFirst text before hBefore
      obtain ⟨hSecond, hTextRest⟩ := ihSecond before.rest after hAfter
      exact ⟨.seq hFirst hSecond, by simp [hText, hTextRest, Way.andThen]⟩
  | alt first second ihFirst ihSecond =>
      intro way hMem
      rcases List.mem_append.mp hMem with hFirst | hSecond
      · exact ⟨.altFirst (ihFirst text way hFirst).1, (ihFirst text way hFirst).2⟩
      · exact ⟨.altSecond (ihSecond text way hSecond).1, (ihSecond text way hSecond).2⟩
  | rep greedy least most body ih =>
      intro way hMem
      unfold ways at hMem
      split at hMem
      · rename_i hMost
        exact rounds_sound (by simpa [Option.all_eq_true] using hMost) ih hMem
      · cases hMem
  | group name body ih =>
      intro way hMem
      obtain ⟨inner, hInner, rfl⟩ := List.mem_map.mp hMem
      obtain ⟨hMatch, hText⟩ := ih text inner hInner
      exact ⟨.group name hMatch, hText⟩

theorem regexMatch_sound {p : Pattern α Name} {text : List α} {captures : List (Name × List α)}
    (h : p.regexMatch text = some captures) : Matches p text captures := by
  obtain ⟨way, hWay, rfl⟩ := Option.map_eq_some_iff.mp h
  obtain ⟨hMatch, hText⟩ := ways_sound p text way (List.mem_of_find?_eq_some hWay)
  have hEnd : way.rest.isEmpty = true := by simpa using List.find?_some hWay
  rw [List.isEmpty_iff.mp hEnd, List.append_nil] at hText
  rwa [hText]

/-- Every way that leaves the same rest uses the same text. -/
theorem used_of_rest {p : Pattern α Name} {used rest : List α} {way : Way α Name}
    (hMem : way ∈ p.ways (used ++ rest)) (hRest : way.rest = rest) : way.used = used := by
  have hText := (ways_sound p _ way hMem).2
  rw [hRest] at hText
  exact (List.append_cancel_right hText).symm

/-- The search goes through rounds that are not empty, and then, if more rounds are
required, through an empty one. -/
theorem rounds_complete {greedy : Bool} {body : Pattern α Name} {texts : List (List α)}
    (hBody : ∀ u ∈ texts, ∀ rest, ∃ way ∈ body.ways (u ++ rest), way.rest = rest)
    (hNonempty : ∀ u ∈ texts, u ≠ []) {least fuel : Nat} {most : Option Nat}
    (hLeast : least ≤ texts.length ∨
      (∀ rest, ∃ way ∈ body.ways rest, way.rest = rest) ∧ ∀ bound ∈ most, least ≤ bound)
    (hMost : ∀ bound ∈ most, texts.length ≤ bound) (hFuel : texts.length < fuel) (rest : List α) :
    ∃ way ∈ rounds greedy body.ways fuel least most (texts.flatten ++ rest), way.rest = rest := by
  obtain ⟨fuel, rfl⟩ : ∃ more, fuel = more + 1 := ⟨fuel - 1, by omega⟩
  induction texts generalizing least most fuel with
  | nil =>
      by_cases hZero : least = 0
      · exact ⟨.skip rest, mem_rounds_iff.mpr (Or.inl ⟨hZero, rfl⟩), rfl⟩
      · rcases hLeast with hLeast | ⟨hEmpty, hBound⟩
        · exact absurd (Nat.le_zero.mp hLeast) hZero
        obtain ⟨way, hWay, hRest⟩ := hEmpty rest
        have hUsed : way.used = [] := @used_of_rest _ _ _ [] rest way hWay hRest
        have hStart : most ≠ some 0 := by
          intro hNone
          exact hZero (Nat.le_zero.mp (hBound 0 hNone))
        exact ⟨way.times (max least 1),
          mem_rounds_iff.mpr (Or.inr ⟨hStart, way, hWay, Or.inl ⟨hUsed, rfl⟩⟩), hRest⟩
  | cons u texts ih =>
      obtain ⟨hFirst, hOthers⟩ := List.forall_mem_cons.mp hBody
      obtain ⟨hFirstNonempty, hOthersNonempty⟩ := List.forall_mem_cons.mp hNonempty
      rw [List.length_cons] at hLeast hMost hFuel
      have hStart : most ≠ some 0 := by
        intro hZero
        exact absurd (hMost 0 hZero) (Nat.not_succ_le_zero _)
      obtain ⟨way, hWay, hWayRest⟩ := hFirst (texts.flatten ++ rest)
      have hUsed : way.used ≠ [] := by rwa [used_of_rest hWay hWayRest]
      have hBound : ∀ count : Nat, (∀ bound ∈ most, count ≤ bound) →
          ∀ bound ∈ most.map Nat.pred, count - 1 ≤ bound := by
        intro count hCount bound hMem
        obtain ⟨more, hMore, rfl⟩ := Option.map_eq_some_iff.mp hMem
        exact Nat.pred_le_pred (hCount more hMore)
      have hLater : least - 1 ≤ texts.length ∨
          (∀ rest, ∃ way ∈ body.ways rest, way.rest = rest) ∧
            ∀ bound ∈ most.map Nat.pred, least - 1 ≤ bound := by
        rcases hLeast with hLeast | ⟨hEmpty, hAll⟩
        · exact Or.inl (by omega)
        · exact Or.inr ⟨hEmpty, hBound least hAll⟩
      obtain ⟨fuel, rfl⟩ : ∃ more, fuel = more + 1 := ⟨fuel - 1, by omega⟩
      obtain ⟨next, hNext, hNextRest⟩ :=
        ih hOthers hOthersNonempty hLater (hBound _ hMost) fuel (by omega)
      refine ⟨way.andThen next, mem_rounds_iff.mpr (Or.inr ⟨hStart, way, ?_, Or.inr ⟨hUsed, next, ?_, rfl⟩⟩),
        hNextRest⟩
      · rwa [List.flatten_cons, List.append_assoc]
      · rwa [hWayRest]

/-- Empty rounds may be left out. There are fewer rounds then only if some were
empty. -/
theorem exists_rounds (texts : List (List α)) :
    ∃ kept : List (List α), kept.Sublist texts ∧ kept.flatten = texts.flatten ∧
      (∀ u ∈ kept, u ≠ []) ∧ (texts.length ≤ kept.length ∨ [] ∈ texts) := by
  refine ⟨texts.filter (!·.isEmpty), List.filter_sublist, List.flatten_filter_not_isEmpty, ?_, ?_⟩
  · intro u hMem hEmpty
    simp [hEmpty] at hMem
  · by_cases hEmpty : [] ∈ texts
    · exact Or.inr hEmpty
    · have hAll : texts.filter (!·.isEmpty) = texts := by
        refine List.filter_eq_self.mpr fun u hMem => ?_
        have hNonempty : u ≠ [] := fun hNil => hEmpty (hNil ▸ hMem)
        simpa using hNonempty
      exact Or.inl (Nat.le_of_eq (congrArg List.length hAll.symm))

/-- The search finds every text that a pattern accepts at the beginning of another.
Empty rounds are given up, which loses no text. -/
theorem ways_complete {p : Pattern α Name} {used : List α} (h : Accepts p used) (rest : List α) :
    ∃ way ∈ p.ways (used ++ rest), way.rest = rest := by
  induction p generalizing used rest with
  | empty =>
      obtain ⟨captures, hMatch⟩ := h
      obtain ⟨rfl, _⟩ := matches_empty_iff.mp hMatch
      exact ⟨.skip rest, List.mem_singleton_self _, rfl⟩
  | set members =>
      obtain ⟨captures, hMatch⟩ := h
      obtain ⟨a, hMember, rfl, _⟩ := matches_set_iff.mp hMatch
      exact ⟨⟨[], [a], rest⟩, by simp [ways, hMember], rfl⟩
  | seq first second ihFirst ihSecond =>
      obtain ⟨captures, hMatch⟩ := h
      obtain ⟨before, after, earlier, later, hFirst, hSecond, rfl, _⟩ := matches_seq_iff.mp hMatch
      obtain ⟨way, hWay, hWayRest⟩ := ihFirst ⟨earlier, hFirst⟩ (after ++ rest)
      obtain ⟨next, hNext, hNextRest⟩ := ihSecond ⟨later, hSecond⟩ rest
      refine ⟨way.andThen next, List.mem_flatMap.mpr ⟨way, ?_, ?_⟩, hNextRest⟩
      · rwa [List.append_assoc]
      · rw [hWayRest]
        exact List.mem_map.mpr ⟨next, hNext, rfl⟩
  | alt first second ihFirst ihSecond =>
      obtain ⟨captures, hMatch⟩ := h
      cases matches_alt_iff.mp hMatch with
      | inl hFirst =>
          obtain ⟨way, hWay, hWayRest⟩ := ihFirst ⟨captures, hFirst⟩ rest
          exact ⟨way, List.mem_append_left _ hWay, hWayRest⟩
      | inr hSecond =>
          obtain ⟨way, hWay, hWayRest⟩ := ihSecond ⟨captures, hSecond⟩ rest
          exact ⟨way, List.mem_append_right _ hWay, hWayRest⟩
  | rep greedy least most body ih =>
      obtain ⟨texts, hTexts, rfl, hLeast, hMost⟩ := accepts_rep_iff.mp h
      obtain ⟨kept, hKept, hSame, hNonempty, hEmpty⟩ := exists_rounds texts
      have hBody : ∀ u ∈ kept, ∀ rest, ∃ way ∈ body.ways (u ++ rest), way.rest = rest :=
        fun u hMem => ih (hTexts u (hKept.subset hMem))
      have hBound : ∀ bound ∈ most, kept.length ≤ bound :=
        fun bound hMem => Nat.le_trans hKept.length_le (hMost bound hMem)
      have hEnough : ∀ bound ∈ most, least ≤ bound :=
        fun bound hMem => Nat.le_trans hLeast (hMost bound hMem)
      have hRequired : least ≤ kept.length ∨
          (∀ rest, ∃ way ∈ body.ways rest, way.rest = rest) ∧ ∀ bound ∈ most, least ≤ bound := by
        rcases hEmpty with hLength | hMem
        · exact Or.inl (Nat.le_trans hLeast hLength)
        · exact Or.inr ⟨fun rest => ih (hTexts [] hMem) rest, hEnough⟩
      have hFuel : kept.length < (kept.flatten ++ rest).length + 1 := by
        have hCount := length_le_flatten hNonempty
        rw [List.length_append]
        omega
      rw [← hSame, ways, if_pos (by simpa [Option.all_eq_true] using hEnough)]
      exact rounds_complete hBody hNonempty hRequired hBound hFuel rest
  | group name body ih =>
      obtain ⟨captures, hMatch⟩ := h
      obtain ⟨inner, hInner, _⟩ := matches_group_iff.mp hMatch
      obtain ⟨way, hWay, hWayRest⟩ := ih ⟨inner, hInner⟩ rest
      exact ⟨_, List.mem_map.mpr ⟨way, hWay, rfl⟩, hWayRest⟩

/-- The search decides whether a pattern accepts a text. -/
theorem regexMatch_isSome_iff (p : Pattern α Name) (text : List α) :
    (p.regexMatch text).isSome ↔ Accepts p text := by
  constructor
  · intro h
    obtain ⟨captures, hFound⟩ := Option.isSome_iff_exists.mp h
    exact ⟨captures, regexMatch_sound hFound⟩
  · intro h
    obtain ⟨way, hWay, hRest⟩ := ways_complete h []
    rw [List.append_nil] at hWay
    rw [regexMatch, Option.isSome_map, List.find?_isSome]
    exact ⟨way, hWay, by rw [hRest]; rfl⟩

end Pattern

end Text
