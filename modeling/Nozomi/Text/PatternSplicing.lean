import Nozomi.Text.PatternSyntax

/-! What the text of a regular expression means when it stands inside another
one: after some pieces of a group, and before the bracket that closes it. -/
namespace Text

namespace Pattern

/-- Put pieces before the first of some branches. -/
def attach (pieces : List (Pattern Byte Bytes)) : List (Pattern Byte Bytes) →
    List (List (Pattern Byte Bytes)) → List (Pattern Byte Bytes) × List (List (Pattern Byte Bytes))
  | current, [] => (current ++ pieces, [])
  | current, branch :: earlier =>
      let attached := attach pieces branch earlier
      (current, attached.1 :: attached.2)

/-- The branch that is being read is at the head, so that a piece is pushed before
or after other pieces are attached to the first branch. -/
theorem attach_push (pieces current : List (Pattern Byte Bytes))
    (earlier : List (List (Pattern Byte Bytes))) (piece : Pattern Byte Bytes) :
    attach pieces (piece :: current) earlier =
      (piece :: (attach pieces current earlier).1, (attach pieces current earlier).2) := by
  cases earlier <;> rfl

/-- The frame that is read instead of `f` in a group that already has pieces. -/
def Frame.splice (name : Option Bytes) (pieces : List (Pattern Byte Bytes)) (f : Frame) : Frame :=
  let attached := attach pieces f.current f.earlier
  ⟨name, attached.1, attached.2⟩

/-- It does not matter to the next piece what stands before the text in its group. -/
theorem Frame.push_splice (name : Option Bytes) (pieces : List (Pattern Byte Bytes)) (f : Frame)
    (piece : Pattern Byte Bytes) :
    (f.push piece).splice name pieces = (f.splice name pieces).push piece := by
  simp only [splice, push, attach_push]

/-- Of the branches of a frame, the first one begins with the pieces that stand
before the text, and the others are as they are. The induction is over the branches
read so far. -/
theorem Frame.branches_splice (name : Option Bytes) (pieces : List (Pattern Byte Bytes)) (f : Frame)
    {first : List (Pattern Byte Bytes)} {others : List (List (Pattern Byte Bytes))}
    (h : f.branches = first :: others) :
    (f.splice name pieces).branches = (pieces.reverse ++ first) :: others := by
  obtain ⟨_, current, earlier⟩ := f
  simp only [branches, splice] at h ⊢
  induction earlier generalizing current others with
  | nil =>
      obtain ⟨rfl, rfl⟩ := List.cons.inj h
      simp [attach]
  | cons branch earlier ih =>
      rw [List.reverse_cons, List.map_append] at h ⊢
      cases hBefore : (branch :: earlier).reverse.map List.reverse with
      | nil => simp at hBefore
      | cons start middle =>
          rw [hBefore] at h
          obtain ⟨rfl, rfl⟩ := List.cons.inj h
          have hRest : _ = _ := ih branch hBefore
          rw [attach, hRest]
          rfl

theorem Frame.branches_ne_nil (f : Frame) : f.branches ≠ [] := by
  simp [branches]

namespace Machine

variable (name : Option Bytes) (pieces : List (Pattern Byte Bytes)) (rest : List Frame)

def spliceFrames (top : Frame) : List Frame → Frame × List Frame
  | [] => (top.splice name pieces, rest)
  | outer :: below =>
      let spliced := spliceFrames outer below
      (top, spliced.1 :: spliced.2)

/-- The machine that reads the same text inside a group with a name and pieces,
with the frames of `rest` around it. -/
def splice (s : Machine) : Machine :=
  let spliced := spliceFrames name pieces rest s.top s.below
  ⟨s.mode, spliced.1, spliced.2⟩

theorem push_splice (s : Machine) (piece : Pattern Byte Bytes) :
    (s.push piece).splice name pieces rest = (s.splice name pieces rest).push piece := by
  obtain ⟨mode, top, below⟩ := s
  cases below with
  | nil => simp only [push, splice, spliceFrames, Frame.push_splice]
  | cons outer below => rfl

/-- A branch that begins inside of the text has nothing to do with what stands
before it. -/
theorem branch_splice (s : Machine) :
    s.branch.splice name pieces rest = (s.splice name pieces rest).branch := by
  obtain ⟨mode, top, below⟩ := s
  cases below <;> rfl

variable {s s' : Machine} {c : Byte}

/-- A bracket that closes a group of the text closes the same group inside of
another text. The group was opened in the text, as otherwise there is no frame to
return to. -/
theorem leave_splice (h : s.leave = some s') :
    (s.splice name pieces rest).leave = some (s'.splice name pieces rest) := by
  obtain ⟨mode, top, below⟩ := s
  cases below with
  | nil => cases h
  | cons outer below =>
      obtain rfl := Option.some.inj h
      rw [push_splice]
      rfl

/-- The last piece of the text is changed in the same way, if the text has one.
Otherwise it would be the last piece before the text, so that the converse is false. -/
theorem changeLast_splice {mode : Mode} {change : Pattern Byte Bytes → Pattern Byte Bytes}
    (h : s.changeLast mode change = some s') :
    (s.splice name pieces rest).changeLast mode change = some (s'.splice name pieces rest) := by
  obtain ⟨mode, ⟨_, current, earlier⟩, below⟩ := s
  cases current with
  | nil => cases h
  | cons piece current =>
      obtain rfl := Option.some.inj h
      cases below with
      | nil => simp only [changeLast, splice, spliceFrames, Frame.splice, attach_push]
      | cons outer below => rfl

/-- A quantifier that the text allows means the same inside of another text. -/
theorem quantifier_splice (h : s.quantifier c = some s') :
    (s.splice name pieces rest).quantifier c = some (s'.splice name pieces rest) := by
  unfold quantifier at h ⊢
  rw [show (s.splice name pieces rest).mode = s.mode from rfl]
  cases hMode : s.mode with
  | piece =>
      rw [hMode] at h
      cases hQuantity : quantity c with
      | some bounds =>
          simp only [hQuantity] at h ⊢
          exact changeLast_splice name pieces rest h
      | none =>
          simp only [hQuantity] at h ⊢
          obtain rfl := Option.some.inj h
          rfl
  | quantified =>
      rw [hMode] at h
      by_cases hLazy : c = 0x3F
      · simp only [hLazy, if_true] at h ⊢
        exact changeLast_splice name pieces rest h
      · simp only [hLazy, if_false, reduceCtorEq] at h
  | _ =>
      rw [hMode] at h
      cases h

/-- A byte outside of sets and openings means the same inside of another text. -/
theorem item_splice (h : s.item c = some s') :
    (s.splice name pieces rest).item c = some (s'.splice name pieces rest) := by
  unfold item at h ⊢
  cases hToken : token c with
  | closing =>
      rw [hToken] at h
      exact leave_splice name pieces rest h
  | quantifier =>
      rw [hToken] at h
      exact quantifier_splice name pieces rest h
  | reserved =>
      rw [hToken] at h
      cases h
  | bar =>
      rw [hToken] at h
      obtain rfl := Option.some.inj h
      rw [branch_splice]
  | dot | literal =>
      rw [hToken] at h
      obtain rfl := Option.some.inj h
      rw [push_splice]
  | opening | bracket | backslash =>
      rw [hToken] at h
      obtain rfl := Option.some.inj h
      rfl

/-- Whatever is read on its own is read in the same way inside a group. The cases are
the modes of the machine, each of which leaves the frames below alone. -/
theorem step_splice (h : s.step c = some s') :
    (s.splice name pieces rest).step c = some (s'.splice name pieces rest) := by
  unfold step at h ⊢
  rw [show (s.splice name pieces rest).mode = s.mode from rfl]
  cases hMode : s.mode with
  | fresh | piece | quantified =>
      rw [hMode] at h
      exact item_splice name pieces rest h
  | escape =>
      rw [hMode] at h
      obtain ⟨members, hMembers, rfl⟩ := Option.map_eq_some_iff.mp h
      simp only [hMembers, Option.map_some, push_splice]
  | opening =>
      rw [hMode] at h
      by_cases hExtension : c = 0x3F
      · simp only [hExtension, if_true] at h ⊢
        obtain rfl := Option.some.inj h
        rfl
      · simp only [hExtension, if_false] at h ⊢
        exact item_splice name pieces rest h
  | extension =>
      rw [hMode] at h
      by_cases hPlain : c = 0x3A
      · simp only [hPlain, if_true] at h ⊢
        obtain rfl := Option.some.inj h
        rfl
      · by_cases hNamed : c = 0x3C
        · simp only [hNamed] at h ⊢
          obtain rfl := Option.some.inj h
          rfl
        · simp only [hPlain, hNamed, if_false, reduceCtorEq] at h
  | naming read =>
      rw [hMode] at h
      by_cases hEnd : c = 0x3E ∧ read ≠ []
      · simp only [if_pos hEnd] at h ⊢
        obtain rfl := Option.some.inj h
        rfl
      · by_cases hWord : isWord c
        · simp only [if_neg hEnd, if_pos hWord] at h ⊢
          obtain rfl := Option.some.inj h
          rfl
        · simp only [if_neg hEnd, if_neg hWord, reduceCtorEq] at h
  | counting least =>
      rw [hMode] at h
      by_cases hDigit : isDigit c
      · simp only [if_pos hDigit] at h ⊢
        obtain rfl := Option.some.inj h
        rfl
      · simp only [if_neg hDigit] at h ⊢
        obtain ⟨least, hLeast, h⟩ := Option.bind_eq_some_iff.mp h
        rw [hLeast, Option.bind_some]
        by_cases hComma : c = 0x2C
        · simp only [hComma, if_true] at h ⊢
          obtain rfl := Option.some.inj h
          rfl
        · by_cases hEnd : c = 0x7D
          · simp only [hEnd] at h ⊢
            exact changeLast_splice name pieces rest h
          · simp only [hComma, hEnd, if_false, reduceCtorEq] at h
  | countingTo least most =>
      rw [hMode] at h
      by_cases hDigit : isDigit c
      · simp only [if_pos hDigit] at h ⊢
        obtain rfl := Option.some.inj h
        rfl
      · by_cases hEnd : c = 0x7D ∧ most.all (least ≤ ·)
        · simp only [if_neg hDigit, if_pos hEnd] at h ⊢
          exact changeLast_splice name pieces rest h
        · simp only [if_neg hDigit, if_neg hEnd, reduceCtorEq] at h
  | set reader =>
      rw [hMode] at h
      obtain ⟨result, hResult, rfl⟩ := Option.map_eq_some_iff.mp h
      simp only [hResult, Option.map_some]
      cases result with
      | inl reader => rfl
      | inr members => rw [push_splice]

theorem run_cons (s : Machine) (c : Byte) (text : Bytes) :
    s.run (c :: text) = (s.step c).bind fun next => next.run text := by
  rw [run, List.foldlM_cons]
  rfl

theorem run_append (s : Machine) (before after : Bytes) :
    s.run (before ++ after) = (s.run before).bind fun next => next.run after := by
  rw [run, List.foldlM_append]
  rfl

/-- A text that can be read for itself can be read after other pieces and inside of
other groups, with the same effect on its own frames. The induction is over the
text. -/
theorem run_splice {text : Bytes} (h : s.run text = some s') :
    (s.splice name pieces rest).run text = some (s'.splice name pieces rest) := by
  induction text generalizing s with
  | nil =>
      obtain rfl := Option.some.inj h
      rfl
  | cons c text ih =>
      rw [run_cons] at h ⊢
      obtain ⟨next, hNext, hRest⟩ := Option.bind_eq_some_iff.mp h
      rw [step_splice name pieces rest hNext, Option.bind_some]
      exact ih hRest

/-- What can begin a text can also follow a piece. Only quantifiers need a piece
before them. -/
theorem step_of_fresh {mode : Mode} (hMode : mode.isBetween = true) {top : Frame}
    {below : List Frame} (h : step ⟨.fresh, top, below⟩ c = some s') :
    step ⟨mode, top, below⟩ c = some s' := by
  have hItem : item ⟨.fresh, top, below⟩ c = some s' := h
  have hSame : item ⟨mode, top, below⟩ c = some s' := by
    unfold item at hItem ⊢
    cases hToken : token c with
    | quantifier =>
        rw [hToken] at hItem
        cases hItem
    | reserved =>
        rw [hToken] at hItem
        cases hItem
    | closing | bar | dot | literal | opening | bracket | backslash =>
        rw [hToken] at hItem
        exact hItem
  cases mode with
  | fresh | piece | quantified => exact hSame
  | _ => cases hMode

/-- A closing bracket makes the frame on top a piece of the one below it. -/
theorem step_closing {mode : Mode} (hMode : mode.isBetween = true) (top outer : Frame)
    (below : List Frame) :
    step ⟨mode, top, outer :: below⟩ 0x29 = some (push ⟨mode, outer, below⟩ top.close) := by
  cases mode with
  | fresh | piece | quantified => rfl
  | _ => cases hMode

theorem step_opening {s : Machine} (hMode : s.mode.isBetween = true) :
    s.step 0x28 = some (s.goto .opening) := by
  obtain ⟨mode, top, below⟩ := s
  cases mode with
  | fresh | piece | quantified => rfl
  | _ => cases hMode

theorem run_naming {text : Bytes} (hWords : ∀ c ∈ text, isWord c = true) (s : Machine) (read : Bytes) :
    (s.goto (.naming read)).run text = some (s.goto (.naming (read ++ text))) := by
  induction text generalizing read with
  | nil => rw [List.append_nil]; rfl
  | cons c text ih =>
      obtain ⟨hWord, hWords⟩ := List.forall_mem_cons.mp hWords
      have hEnd : ¬(c = 0x3E ∧ read ≠ []) := by
        rintro ⟨rfl, _⟩
        cases hWord
      have hStep : (s.goto (.naming read)).step c = some (s.goto (.naming (read ++ [c]))) := by
        show ite _ _ _ = _
        rw [if_neg hEnd, if_pos hWord]
        rfl
      rw [run_cons, hStep, Option.bind_some, ih hWords, List.append_assoc]
      rfl

/-- How a group begins. -/
theorem run_enter_plain (hMode : s.mode.isBetween = true) :
    s.run (ascii "(?:") = some (s.enter none) := by
  rw [show ascii "(?:" = 0x28 :: [0x3F, 0x3A] from rfl, run_cons, step_opening hMode]
  rfl

theorem run_enter_named (hMode : s.mode.isBetween = true) {word : Bytes} (hNonempty : word ≠ [])
    (hWords : ∀ c ∈ word, isWord c = true) :
    s.run (ascii "(?<" ++ word ++ ascii ">") = some (s.enter (some word)) := by
  have hStart : s.run (ascii "(?<") = some (s.goto (.naming [])) := by
    rw [show ascii "(?<" = 0x28 :: [0x3F, 0x3C] from rfl, run_cons, step_opening hMode]
    rfl
  have hEnd : (s.goto (.naming word)).step 0x3E = some (s.enter (some word)) :=
    if_pos ⟨rfl, hNonempty⟩
  rw [run_append, run_append, hStart, Option.bind_some, run_naming hWords, Option.bind_some,
    List.nil_append, show ascii ">" = [0x3E] from rfl, run_cons, hEnd]
  rfl

/-- A text that is read on its own up to some frame is read after the pieces of a
group in the same way. -/
theorem run_spliced {text : Bytes} {last : Mode} {top : Frame}
    (hRun : Machine.init.run text = some ⟨last, top, []⟩) (hLast : last.isBetween = true)
    {mode : Mode} (hMode : mode.isBetween = true) :
    ∃ last : Mode, last.isBetween = true ∧
      run ⟨mode, ⟨name, pieces, []⟩, rest⟩ text = some ⟨last, top.splice name pieces, rest⟩ := by
  cases text with
  | nil =>
      cases hRun
      exact ⟨mode, hMode, rfl⟩
  | cons c text =>
      have hSpliced : run ⟨.fresh, ⟨name, pieces, []⟩, rest⟩ (c :: text) = _ :=
        run_splice name pieces rest hRun
      rw [run_cons] at hSpliced
      obtain ⟨next, hNext, hRest⟩ := Option.bind_eq_some_iff.mp hSpliced
      have hStep : step ⟨mode, ⟨name, pieces, []⟩, rest⟩ c = some next := step_of_fresh hMode hNext
      refine ⟨last, hLast, ?_⟩
      rw [run_cons, hStep, Option.bind_some, hRest]
      rfl

/-- What it means that a text is read as some branches. -/
theorem parseBranches_eq_some {text : Bytes} {branches : List (List (Pattern Byte Bytes))}
    (h : parseBranches text = some branches) :
    ∃ last top, last.isBetween = true ∧ Machine.init.run text = some ⟨last, top, []⟩ ∧
      top.branches = branches := by
  obtain ⟨f, hFinish, hBranches⟩ := Option.map_eq_some_iff.mp h
  obtain ⟨final, hRun, hFinal⟩ := Option.bind_eq_some_iff.mp hFinish
  unfold finish at hFinal
  by_cases hEnd : final.mode.isBetween ∧ final.below.isEmpty
  · rw [if_pos hEnd] at hFinal
    obtain rfl := Option.some.inj hFinal
    obtain ⟨last, top, below⟩ := final
    obtain rfl := List.isEmpty_iff.mp hEnd.2
    exact ⟨last, top, hEnd.1, hRun, hBranches⟩
  · rw [if_neg hEnd] at hFinal
    cases hFinal

/-- A text that is read on its own can stand after the pieces of a group. Its
first branch continues them, and its other branches are branches of the group. -/
theorem run_inside {text : Bytes} {first : List (Pattern Byte Bytes)}
    {others : List (List (Pattern Byte Bytes))} (hText : parseBranches text = some (first :: others))
    {mode : Mode} (hMode : mode.isBetween = true) (outer : Frame) :
    ∃ last : Mode, run ⟨mode, ⟨name, pieces, []⟩, outer :: rest⟩ (text ++ [0x29]) =
      some (push ⟨last, outer, rest⟩
        (wrap name (choice (((pieces.reverse ++ first) :: others).map sequence)))) := by
  obtain ⟨last, top, hLast, hRun, hBranches⟩ := parseBranches_eq_some hText
  obtain ⟨last, hLast, hInside⟩ := run_spliced name pieces (outer :: rest) hRun hLast hMode
  refine ⟨last, ?_⟩
  rw [run_append, hInside, Option.bind_some, run_cons, step_closing hLast, Option.bind_some,
    Frame.close, Frame.branches_splice name pieces top hBranches]
  rfl

/-- A group is one piece of what is around it. -/
theorem run_group {text : Bytes} {p : Pattern Byte Bytes} (hText : parse text = some p) (s : Machine) :
    (s.enter name).run (text ++ [0x29]) = some (s.push (wrap name p)) := by
  obtain ⟨branches, hBranches, rfl⟩ := Option.map_eq_some_iff.mp hText
  cases branches with
  | nil =>
      obtain ⟨f, _, hNil⟩ := Option.map_eq_some_iff.mp hBranches
      exact absurd hNil f.branches_ne_nil
  | cons first others =>
      obtain ⟨last, hRun⟩ := @run_inside name [] s.below _ _ _ hBranches .fresh rfl s.top
      exact hRun

end Machine

end Pattern

end Text
