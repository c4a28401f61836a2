import Nozomi.Text.PatternSplicing

/-! Texts of regular expressions that are put one after the other. Each is read as
the pieces that it is read as on its own. -/
namespace Text

namespace Pattern

variable {text more : Bytes} {pieces others : List (Pattern Byte Bytes)}

/-- Wherever a piece may stand in the first branch of a group, the text adds the
pieces. -/
def Reads (text : Bytes) (pieces : List (Pattern Byte Bytes)) : Prop :=
  ∀ (mode : Mode) (name : Option Bytes) (current : List (Pattern Byte Bytes)) (below : List Frame),
    mode.isBetween = true → ∃ last : Mode, last.isBetween = true ∧
      Machine.run ⟨mode, ⟨name, current, []⟩, below⟩ text =
        some ⟨last, ⟨name, pieces.reverse ++ current, []⟩, below⟩

/-- Texts that are read as pieces can be put one after the other, as each of them is
read alike after any other pieces. -/
theorem Reads.append (h : Reads text pieces) (hMore : Reads more others) :
    Reads (text ++ more) (pieces ++ others) := by
  intro mode name current below hMode
  obtain ⟨middle, hMiddle, hFirst⟩ := h mode name current below hMode
  obtain ⟨last, hLast, hSecond⟩ := hMore middle name (pieces.reverse ++ current) below hMiddle
  refine ⟨last, hLast, ?_⟩
  rw [Machine.run_append, hFirst, Option.bind_some, hSecond, List.reverse_append, List.append_assoc]

/-- A text of one branch is read as the pieces of the branch. -/
theorem reads_of_parseBranches (h : parseBranches text = some [pieces]) : Reads text pieces := by
  intro mode name current below hMode
  obtain ⟨last, top, hLast, hRun, hBranches⟩ := Machine.parseBranches_eq_some h
  obtain ⟨last, hLast, hInside⟩ := Machine.run_spliced name current below hRun hLast hMode
  obtain ⟨_, read, earlier⟩ := top
  have hOne : earlier = [] ∧ read.reverse = pieces := by
    cases earlier with
    | nil => simpa [Frame.branches] using hBranches
    | cons branch earlier => simpa [Frame.branches] using congrArg List.length hBranches
  refine ⟨last, hLast, ?_⟩
  rw [hInside, ← hOne.2, hOne.1, List.reverse_reverse]
  rfl

/-- A text that is one piece to every machine. -/
theorem reads_of_run {piece : Pattern Byte Bytes} {mode : Mode} (hMode : mode.isBetween = true)
    (h : ∀ s : Machine, s.mode.isBetween = true → s.run text = some ((s.push piece).goto mode)) :
    Reads text [piece] := by
  intro start name current below hStart
  exact ⟨mode, hMode, h ⟨start, ⟨name, current, []⟩, below⟩ hStart⟩

theorem Reads.parseBranches (h : Reads text pieces) : parseBranches text = some [pieces] := by
  obtain ⟨last, hLast, hRun⟩ := h .fresh none [] [] rfl
  have hStart : Machine.init.run text = some ⟨last, ⟨none, pieces.reverse ++ [], []⟩, []⟩ := hRun
  rw [Pattern.parseBranches, hStart, Option.bind_some, Machine.finish]
  simp [hLast, Frame.branches]

theorem Reads.parse (h : Reads text pieces) : parse text = some (sequence pieces) := by
  rw [Pattern.parse, h.parseBranches]
  rfl

/-- The characters that stand for themselves. -/
def isPlain (c : Byte) : Bool :=
  match token c with
  | .literal => true
  | _ => false

/-- A text without special characters is read character by character. -/
theorem reads_plain (h : ∀ c ∈ text, isPlain c = true) :
    Reads text (text.map fun c => set fun a => a = c) := by
  induction text with
  | nil => exact fun mode name current below hMode => ⟨mode, hMode, rfl⟩
  | cons c text ih =>
      obtain ⟨hPlain, hRest⟩ := List.forall_mem_cons.mp h
      have hToken : token c = .literal := by
        unfold isPlain at hPlain
        split at hPlain
        · assumption
        · cases hPlain
      have hFirst : Reads [c] [set fun a => a = c] := by
        refine @reads_of_run _ _ .piece rfl fun s hMode => ?_
        have hItem : s.item c = some (s.push (set fun a => a = c)) := by rw [Machine.item, hToken]
        have hStep : s.step c = s.item c := by
          obtain ⟨mode, top, below⟩ := s
          cases mode with
          | fresh | piece | quantified => rfl
          | _ => cases hMode
        rw [Machine.run_cons, hStep, hItem]
        rfl
      exact hFirst.append (ih hRest)

section Meaning

variable {α Name : Type} {first second : List (Pattern α Name)}

/-- A match of pieces one after the other, cut between two of them. -/
theorem matches_sequence_append_iff {text : List α} {captures : List (Name × List α)} :
    Matches (sequence (first ++ second)) text captures ↔ ∃ before after earlier later,
      Matches (sequence first) before earlier ∧ Matches (sequence second) after later ∧
        text = before ++ after ∧ captures = earlier ++ later := by
  induction first generalizing text captures with
  | nil =>
      constructor
      · intro h
        exact ⟨[], text, [], captures, .empty, h, rfl, rfl⟩
      · intro ⟨before, after, earlier, later, hEmpty, hSecond, hText, hCaptures⟩
        obtain ⟨rfl, rfl⟩ := matches_empty_iff.mp hEmpty
        rwa [hText, hCaptures]
  | cons piece first ih =>
      rw [List.cons_append, matches_sequence_cons_iff, matches_seq_iff]
      simp only [@matches_sequence_cons_iff _ _ _ _ _ first, matches_seq_iff, ih]
      constructor
      · intro ⟨start, _, own, _, hPiece, ⟨before, after, earlier, later, hFirst, hSecond, rfl, rfl⟩,
          hText, hCaptures⟩
        exact ⟨start ++ before, after, own ++ earlier, later,
          ⟨start, before, own, earlier, hPiece, hFirst, rfl, rfl⟩, hSecond, by simp [hText],
          by simp [hCaptures]⟩
      · intro ⟨_, after, _, later, ⟨start, before, own, earlier, hPiece, hFirst, rfl, rfl⟩, hSecond,
          hText, hCaptures⟩
        exact ⟨start, before ++ after, own, earlier ++ later, hPiece,
          ⟨before, after, earlier, later, hFirst, hSecond, rfl, rfl⟩, by simp [hText],
          by simp [hCaptures]⟩

/-- A text is matched by its characters one after the other, and no other is. -/
theorem matches_characters_iff [DecidableEq α] {text path : List α} {captures : List (Name × List α)} :
    Matches (sequence (text.map fun c => set fun a => decide (a = c))) path captures ↔
      path = text ∧ captures = [] := by
  induction text generalizing path captures with
  | nil => exact matches_empty_iff
  | cons c text ih =>
      rw [List.map_cons, matches_sequence_cons_iff, matches_seq_iff]
      simp only [ih, matches_set_iff, decide_eq_true_eq]
      constructor
      · intro ⟨_, _, _, _, ⟨a, hSame, hBefore, hEarlier⟩, ⟨hAfter, hLater⟩, hPath, hCaptures⟩
        simp [hPath, hCaptures, hBefore, hAfter, hEarlier, hLater, hSame]
      · intro ⟨hPath, hCaptures⟩
        exact ⟨[c], text, [], [], ⟨c, rfl, rfl, rfl⟩, ⟨rfl, rfl⟩, hPath, hCaptures⟩

theorem unnamed_sequence {pieces : List (Pattern α Name)} :
    (sequence pieces).Unnamed ↔ ∀ piece ∈ pieces, piece.Unnamed := by
  induction pieces with
  | nil => exact iff_of_true trivial (by simp)
  | cons piece pieces ih =>
      cases pieces with
      | nil => simp [sequence]
      | cons next pieces =>
          rw [List.forall_mem_cons, ← ih]
          rfl

end Meaning

end Pattern

end Text
