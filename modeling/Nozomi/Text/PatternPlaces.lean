import Nozomi.Text.PatternCaptures
import Nozomi.Text.PatternSplicing

/-! Where the named groups of a text stand. They are listed in the order in which they
begin, which is the order in which the groups of a pattern are numbered. -/
namespace Text

namespace Pattern

theorem names_sequence {α Name : Type} (pieces : List (Pattern α Name)) :
    (sequence pieces).names = pieces.flatMap names := by
  induction pieces with
  | nil => rfl
  | cons piece pieces ih =>
      cases pieces with
      | nil => exact (List.flatMap_singleton _ _).symm
      | cons next pieces => exact congrArg (piece.names ++ ·) ih

theorem names_choice {α Name : Type} (branches : List (Pattern α Name)) :
    (choice branches).names = branches.flatMap names := by
  induction branches with
  | nil => rfl
  | cons branch branches ih =>
      cases branches with
      | nil => exact (List.flatMap_singleton _ _).symm
      | cons next branches => exact congrArg (branch.names ++ ·) ih

theorem names_toLazy {α Name : Type} (p : Pattern α Name) : p.toLazy.names = p.names := by
  cases p <;> rfl

namespace Frame

/-- The names in a group that is being read, with its own. -/
def names (f : Frame) : List Bytes :=
  f.name.toList ++ f.branches.flatMap fun pieces => pieces.flatMap Pattern.names

/-- To close the branches of a frame into one pattern keeps their names and their
order. -/
theorem names_close (f : Frame) : f.close.names = f.names := by
  have hBranches : (choice (f.branches.map sequence)).names =
      f.branches.flatMap fun pieces => pieces.flatMap Pattern.names := by
    rw [names_choice, List.flatMap_map]
    simp only [names_sequence]
  rw [close, names]
  cases f.name with
  | none => exact hBranches
  | some name => exact congrArg (name :: ·) hBranches

theorem names_push (f : Frame) (piece : Pattern Byte Bytes) :
    (f.push piece).names = f.names ++ piece.names := by
  simp [names, branches, push]

/-- To change the last piece without changing its names keeps the names of the
frame. -/
theorem names_change {f : Frame} {piece other : Pattern Byte Bytes} {pieces : List (Pattern Byte Bytes)}
    (hCurrent : f.current = piece :: pieces) (hSame : other.names = piece.names) :
    names { f with current := other :: pieces } = f.names := by
  simp [names, branches, hCurrent, hSame]

end Frame

namespace Machine

variable {s t : Machine} {c : Byte} {text : Bytes}

/-- The names that have been read, in the order of the text. -/
def names (s : Machine) : List Bytes := s.below.reverse.flatMap Frame.names ++ s.top.names

/-- The name of the group whose opening a character completes. -/
def opens (s : Machine) (c : Byte) : Option Bytes :=
  match s.mode with
  | .naming read => if c = 0x3E ∧ read ≠ [] then some read else none
  | _ => none

/-- A piece that is pushed adds its names at the end, as the names of the machine are
those of its frames from the outermost on. -/
theorem names_push (s : Machine) (piece : Pattern Byte Bytes) :
    (s.push piece).names = s.names ++ piece.names := by
  rw [names, push, Frame.names_push, names, List.append_assoc]

/-- A group adds its name as soon as it is entered, before the names inside of it. -/
theorem names_enter (s : Machine) (name : Option Bytes) :
    (s.enter name).names = s.names ++ name.toList := by
  simp [names, enter, Frame.names, Frame.branches]

theorem names_branch (s : Machine) : s.branch.names = s.names := by
  simp [names, branch, Frame.names, Frame.branches]

/-- When a group is left, its frame becomes a piece of the frame around it, with the
same names in the same order. -/
theorem names_leave (h : s.leave = some t) : t.names = s.names := by
  obtain ⟨mode, top, below⟩ := s
  cases below with
  | nil => cases h
  | cons outer below =>
      obtain rfl := Option.some.inj h
      rw [names_push, Frame.names_close]
      simp [names]

/-- What is done to the last piece keeps the names, if it keeps those of the piece. -/
theorem names_changeLast {mode : Mode} {change : Pattern Byte Bytes → Pattern Byte Bytes}
    (hChange : ∀ piece, (change piece).names = piece.names) (h : s.changeLast mode change = some t) :
    t.names = s.names := by
  unfold changeLast at h
  split at h
  · cases h
  · rename_i piece pieces hCurrent
    obtain rfl := Option.some.inj h
    rw [names, names, Frame.names_change hCurrent (hChange piece)]

theorem names_repeatLast {least : Nat} {most : Option Nat} (h : s.repeatLast least most = some t) :
    t.names = s.names := by
  have hRep : ∀ piece : Pattern Byte Bytes, (rep true least most piece).names = piece.names := fun _ => rfl
  exact names_changeLast hRep h

/-- No quantifier changes the names, whatever it does to the piece or to the mode. -/
theorem names_quantifier (h : s.quantifier c = some t) : t.names = s.names := by
  unfold quantifier at h
  split at h
  · split at h
    · exact names_repeatLast h
    · obtain rfl := Option.some.inj h
      rfl
  · split at h
    · exact names_changeLast names_toLazy h
    · cases h
  · cases h

/-- Outside escapes and openings, no character adds a name. -/
theorem names_item (h : s.item c = some t) : t.names = s.names := by
  unfold item at h
  split at h
  case h_2 => exact names_leave h
  case h_7 => exact names_quantifier h
  case h_8 => cases h
  all_goals obtain rfl := Option.some.inj h
  case h_3 => exact names_branch s
  case h_6 | h_9 =>
    rw [names_push]
    exact List.append_nil _
  all_goals rfl

theorem names_set (members : Byte → Bool) : (s.push (set members)).names = s.names := by
  rw [names_push]
  exact List.append_nil _

/-- A step adds the name of the group that it opens, and no other. The cases are the
modes of the machine. -/
theorem step_names (h : s.step c = some t) : t.names = s.names ++ (s.opens c).toList := by
  obtain ⟨mode, top, below⟩ := s
  have hNothing : t.names = names ⟨mode, top, below⟩ → t.names = names ⟨mode, top, below⟩ ++ [] :=
    fun hSame => hSame.trans (List.append_nil _).symm
  cases mode with
  | fresh | piece | quantified => exact hNothing (names_item h)
  | escape =>
      obtain ⟨members, _, rfl⟩ := Option.map_eq_some_iff.mp h
      exact hNothing (names_set members)
  | opening =>
      apply hNothing
      simp only [step] at h
      split at h
      · obtain rfl := Option.some.inj h
        rfl
      · rw [names_item h, names_enter]
        exact List.append_nil _
  | extension =>
      apply hNothing
      simp only [step] at h
      split_ifs at h
      · obtain rfl := Option.some.inj h
        rw [names_enter]
        exact List.append_nil _
      · obtain rfl := Option.some.inj h
        rfl
  | naming read =>
      simp only [step] at h
      simp only [opens]
      split_ifs at h ⊢
      · obtain rfl := Option.some.inj h
        rw [names_enter]
      · obtain rfl := Option.some.inj h
        exact hNothing rfl
  | counting least =>
      apply hNothing
      simp only [step] at h
      split at h
      · obtain rfl := Option.some.inj h
        rfl
      · obtain ⟨least, _, hStep⟩ := Option.bind_eq_some_iff.mp h
        split_ifs at hStep
        · obtain rfl := Option.some.inj hStep
          rfl
        · exact names_repeatLast hStep
  | countingTo least most =>
      apply hNothing
      simp only [step] at h
      split_ifs at h
      · obtain rfl := Option.some.inj h
        rfl
      · exact names_repeatLast h
  | set reader =>
      apply hNothing
      obtain ⟨result, _, rfl⟩ := Option.map_eq_some_iff.mp h
      cases result with
      | inl reader => rfl
      | inr members => exact names_set members

/-- The places and names of the groups that a machine opens, if it stands at `i`. -/
def places (s : Machine) (i : Nat) : Bytes → List (Nat × Bytes)
  | [] => []
  | c :: text =>
      (s.opens c).toList.map (fun name => (i - (3 + name.length), name)) ++
        match s.step c with
        | none => []
        | some next => places next (i + 1) text

/-- After a text is read, the names of the machine are those that it had and those
of the places where a named group was entered on the way. -/
theorem run_names {i : Nat} (h : s.run text = some t) :
    t.names = s.names ++ (s.places i text).map Prod.snd := by
  induction text generalizing s i with
  | nil =>
      obtain rfl := Option.some.inj h
      exact (List.append_nil _).symm
  | cons c text ih =>
      rw [run_cons] at h
      obtain ⟨next, hStep, hRest⟩ := Option.bind_eq_some_iff.mp h
      rw [ih (i := i + 1) hRest, step_names hStep, places, hStep, List.append_assoc, List.map_append,
        List.map_map]
      congr 2
      exact (List.map_id _).symm

/-- What has been read of the opening of a group. -/
def Opened (read : Bytes) : Mode → Prop
  | .opening => ascii "(" <:+ read
  | .extension => ascii "(?" <:+ read
  | .naming name => ascii "(?<" ++ name <:+ read
  | _ => True

/-- A text and its suffix keep their relation when the same byte is added to both. -/
theorem suffix_snoc {part whole : Bytes} (c : Byte) (h : part <:+ whole) : part ++ [c] <:+ whole ++ [c] := by
  obtain ⟨before, rfl⟩ := h
  exact ⟨before, by rw [List.append_assoc]⟩

/-- After a change of the last piece, what has been read of an opening is still
accounted for. -/
theorem opened_changeLast {read : Bytes} {change : Pattern Byte Bytes → Pattern Byte Bytes} (mode : Mode)
    (hMode : Opened read mode) (h : s.changeLast mode change = some t) : Opened read t.mode := by
  unfold changeLast at h
  split at h
  · cases h
  · obtain rfl := Option.some.inj h
    exact hMode

theorem opened_quantifier (read : Bytes) (h : s.quantifier c = some t) : Opened read t.mode := by
  unfold quantifier at h
  split at h
  · split at h
    · exact opened_changeLast .quantified trivial h
    · obtain rfl := Option.some.inj h
      trivial
  · split at h
    · exact opened_changeLast .fresh trivial h
    · cases h
  · cases h

/-- Outside escapes and openings, a bracket alone begins an opening. -/
theorem opened_item (read : Bytes) (h : s.item c = some t) : Opened (read ++ [c]) t.mode := by
  unfold item at h
  cases hToken : token c <;> simp only [hToken] at h
  case opening =>
    obtain rfl := Option.some.inj h
    have hBracket : c = 0x28 := by
      unfold token at hToken
      split_ifs at hToken
      assumption
    exact ⟨read, by rw [hBracket]; rfl⟩
  case closing =>
    unfold leave at h
    split at h
    · cases h
    · obtain rfl := Option.some.inj h
      trivial
  case quantifier => exact opened_quantifier _ h
  case reserved => cases h
  all_goals
    obtain rfl := Option.some.inj h
    trivial

/-- Every byte either is part of an opening that the mode remembers, or ends it. The
cases are the modes of the machine. -/
theorem step_opened {read : Bytes} (hRead : Opened read s.mode) (h : s.step c = some t) :
    Opened (read ++ [c]) t.mode := by
  obtain ⟨mode, top, below⟩ := s
  cases mode with
  | fresh | piece | quantified => exact opened_item read h
  | escape =>
      obtain ⟨members, _, rfl⟩ := Option.map_eq_some_iff.mp h
      trivial
  | opening =>
      simp only [step] at h
      split at h
      · rename_i hMark
        obtain rfl := Option.some.inj h
        exact hMark ▸ suffix_snoc 0x3F hRead
      · exact opened_item read h
  | extension =>
      simp only [step] at h
      split_ifs at h with _ hLess
      · obtain rfl := Option.some.inj h
        trivial
      · obtain rfl := Option.some.inj h
        exact hLess ▸ suffix_snoc 0x3C hRead
  | naming name =>
      simp only [step] at h
      split_ifs at h
      · obtain rfl := Option.some.inj h
        trivial
      · obtain rfl := Option.some.inj h
        have hMore := suffix_snoc c hRead
        rw [List.append_assoc] at hMore
        exact hMore
  | counting least =>
      simp only [step] at h
      split at h
      · obtain rfl := Option.some.inj h
        trivial
      · obtain ⟨least, _, hStep⟩ := Option.bind_eq_some_iff.mp h
        split_ifs at hStep
        · obtain rfl := Option.some.inj hStep
          trivial
        · exact opened_changeLast .quantified trivial hStep
  | countingTo least most =>
      simp only [step] at h
      split_ifs at h
      · obtain rfl := Option.some.inj h
        trivial
      · exact opened_changeLast .quantified trivial h
  | set reader =>
      obtain ⟨result, _, rfl⟩ := Option.map_eq_some_iff.mp h
      cases result <;> trivial

/-- Each group is listed with the place where its opening stands. The induction is
over the text, with what was read before. -/
theorem place_of_mem {read : Bytes} (hRead : Opened read s.mode) {group : Nat × Bytes}
    (hMem : group ∈ s.places read.length text) :
    ascii "(?<" ++ group.2 <+: (read ++ text).drop group.1 := by
  induction text generalizing s read with
  | nil => cases hMem
  | cons c text ih =>
      rcases List.mem_append.mp hMem with hHere | hLater
      · obtain ⟨name, hName, rfl⟩ := List.mem_map.mp hHere
        have hNaming : s.mode = .naming name := by
          unfold opens at hName
          split at hName
          · split at hName
            · rw [List.mem_singleton.mp hName]
              assumption
            · cases hName
          · cases hName
        rw [hNaming] at hRead
        obtain ⟨before, rfl⟩ := hRead
        have hPlace : (before ++ (ascii "(?<" ++ name)).length - (3 + name.length) = before.length := by
          rw [List.length_append, List.length_append]
          exact Nat.add_sub_cancel ..
        rw [hPlace, List.append_assoc, List.drop_left]
        exact List.prefix_append _ _
      · cases hStep : s.step c with
        | none =>
            rw [hStep] at hLater
            cases hLater
        | some next =>
            rw [hStep] at hLater
            have hNext := step_opened hRead hStep
            have hMore := ih hNext (by simpa using hLater)
            rwa [List.append_assoc] at hMore

end Machine

/-- The named groups of a text, each with the place where it begins, in their order. -/
def namedGroups (text : Bytes) : List (Nat × Bytes) := Machine.init.places 0 text

/-- What stands in a bracketed set is no group. -/
example : namedGroups (ascii "/(?<a>x)[(?<b>y)]") = [(1, ascii "a")] := by decide

/-- The groups of a pattern are the named groups of its text. -/
theorem names_of_parse {text : Bytes} {p : Pattern Byte Bytes} (h : parse text = some p) :
    p.names = (namedGroups text).map Prod.snd := by
  obtain ⟨branches, hBranches, rfl⟩ := Option.map_eq_some_iff.mp h
  obtain ⟨last, top, _, hRun, rfl⟩ := Machine.parseBranches_eq_some hBranches
  have hOutermost : top.name = none := by
    have hSame := Option.some.inj (hRun.symm.trans (Machine.run_splice none [] [] hRun))
    exact congrArg (fun s : Machine => s.top.name) hSame
  have hNames : top.names = (namedGroups text).map Prod.snd := @Machine.run_names _ _ text 0 hRun
  rw [← hNames, Frame.names, hOutermost, names_choice, List.flatMap_map]
  simp only [names_sequence]
  rfl

/-- A named group begins where it is said to. -/
theorem namedGroups_place {text : Bytes} {group : Nat × Bytes} (hMem : group ∈ namedGroups text) :
    ascii "(?<" ++ group.2 <+: text.drop group.1 :=
  @Machine.place_of_mem .init text [] trivial group hMem

end Pattern

end Text
