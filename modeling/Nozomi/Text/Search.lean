import Mathlib.Data.List.Induction
import Nozomi.Text.Bytes

/-! `find` and `replace` of `std::string`. -/
namespace Text

/-- The first position at which a text has `wanted`. -/
def indexOf (wanted : Bytes) : Bytes → Option Nat
  | [] => if wanted = [] then some 0 else none
  | c :: text =>
      if wanted.isPrefixOf (c :: text) then some 0 else (indexOf wanted text).map (· + 1)

/-- `text.find(wanted, pos)`, with `none` for `npos`. -/
def find (text wanted : Bytes) (pos : Nat) : Option Nat :=
  if pos ≤ text.length then (indexOf wanted (text.drop pos)).map (pos + ·) else none

/-- `text.replace(pos, count, replacement)`, for a position in the text. -/
def replace (text : Bytes) (pos count : Nat) (replacement : Bytes) : Bytes :=
  text.take pos ++ replacement ++ text.drop (pos + count)

/-- `find` gives the first place at which a text stands. This is what the source
relies on when it replaces one placeholder after the other. -/
theorem indexOf_eq_some_iff (wanted text : Bytes) (i : Nat) :
    indexOf wanted text = some i ↔
      i ≤ text.length ∧ wanted <+: text.drop i ∧ ∀ j < i, ¬wanted <+: text.drop j := by
  induction text generalizing i with
  | nil =>
      by_cases hNil : wanted = []
      · simp only [indexOf, hNil, if_true, Option.some.injEq, List.length_nil, List.drop_nil]
        constructor
        · rintro rfl
          simp
        · rintro ⟨hLength, _⟩
          omega
      · simp [indexOf, hNil]
  | cons c text ih =>
      rw [indexOf]
      by_cases hHere : wanted <+: c :: text
      · rw [if_pos (List.isPrefixOf_iff_prefix.mpr hHere), Option.some.injEq]
        constructor
        · rintro rfl
          exact ⟨Nat.zero_le _, hHere, by simp⟩
        · rintro ⟨_, _, hNone⟩
          by_contra hZero
          exact hNone 0 (by omega) hHere
      · rw [if_neg (by simpa using hHere)]
        cases i with
        | zero => simp [hHere]
        | succ i =>
            simp only [Option.map_eq_some_iff, Nat.add_right_cancel_iff, exists_eq_right, ih,
              List.length_cons, Nat.add_le_add_iff_right, List.drop_succ_cons]
            apply and_congr_right
            intro _
            apply and_congr_right
            intro _
            constructor
            · intro hNone j hj
              cases j with
              | zero => exact hHere
              | succ j => exact hNone j (by omega)
            · intro hNone j hj
              exact hNone (j + 1) (by omega)

/-- A text that is there is found, no later than where it is. -/
theorem exists_indexOf {wanted text : Bytes} {i : Nat} (hLength : i ≤ text.length)
    (hThere : wanted <+: text.drop i) : ∃ j ≤ i, indexOf wanted text = some j := by
  induction i using Nat.strongRecOn with
  | ind i ih =>
      by_cases hEarlier : ∃ j < i, wanted <+: text.drop j
      · obtain ⟨j, hj, hPrefix⟩ := hEarlier
        obtain ⟨k, hk, hFound⟩ := ih j hj (by omega) hPrefix
        exact ⟨k, by omega, hFound⟩
      · refine ⟨i, Nat.le_refl i, (indexOf_eq_some_iff wanted text i).mpr ⟨hLength, hThere, ?_⟩⟩
        exact fun j hj hPrefix => hEarlier ⟨j, hj, hPrefix⟩

/-- A text that is found stands between two others. -/
theorem indexOf_split {wanted text : Bytes} {i : Nat} (h : indexOf wanted text = some i) :
    ∃ kept rest, kept.length = i ∧ text = kept ++ (wanted ++ rest) := by
  obtain ⟨hLength, ⟨rest, hRest⟩, _⟩ := (indexOf_eq_some_iff wanted text i).mp h
  exact ⟨text.take i, rest, by simp [hLength], by rw [hRest, List.take_append_drop]⟩

/-- Searching from a position is searching in the rest. -/
theorem find_append (done rest wanted : Bytes) :
    find (done ++ rest) wanted done.length = (indexOf wanted rest).map (done.length + ·) := by
  simp [find]

theorem replace_append (done kept wanted rest replacement : Bytes) :
    replace (done ++ (kept ++ (wanted ++ rest))) (done.length + kept.length) wanted.length replacement =
      done ++ (kept ++ (replacement ++ rest)) := by
  have hSplit : done ++ (kept ++ (wanted ++ rest)) = (done ++ kept) ++ (wanted ++ rest) := by simp
  rw [replace, hSplit, ← List.length_append, List.take_left, ← List.drop_drop, List.drop_left,
    List.drop_left]
  simp

/-- The text after a replacement, cut where a replacement as long as what was found
would end. -/
theorem replace_passed (done kept : Bytes) {wanted replacement : Bytes} (rest : Bytes)
    (hLength : wanted.length ≤ replacement.length) :
    replace (done ++ (kept ++ (wanted ++ rest))) (done.length + kept.length) wanted.length replacement =
        done ++ (kept ++ replacement.take wanted.length) ++ (replacement.drop wanted.length ++ rest) ∧
      done.length + kept.length + wanted.length =
        (done ++ (kept ++ replacement.take wanted.length)).length := by
  constructor
  · rw [replace_append]
    simp only [List.append_assoc]
    rw [← List.append_assoc (replacement.take _), List.take_append_drop]
  · rw [List.length_append, List.length_append, List.length_take_of_le hLength, Nat.add_assoc]

/-- The wanted texts stand one after another, perhaps with other texts between. -/
def InOrder : List Bytes → Bytes → Prop
  | [], _ => True
  | first :: wanted, text => ∃ before after, text = before ++ (first ++ after) ∧ InOrder wanted after

theorem InOrder.append_left {wanted : List Bytes} {text : Bytes} (h : InOrder wanted text)
    (start : Bytes) : InOrder wanted (start ++ text) := by
  cases wanted with
  | nil => trivial
  | cons first wanted =>
      obtain ⟨before, after, hText, hRest⟩ := h
      refine ⟨start ++ before, after, ?_, hRest⟩
      rw [hText, List.append_assoc]

/-- The first of the texts is found no later than where it stands, so the others
stand after what is found. -/
theorem InOrder.indexOf_first {first : Bytes} {wanted : List Bytes} {text : Bytes}
    (h : InOrder (first :: wanted) text) :
    ∃ kept rest, indexOf first text = some kept.length ∧ text = kept ++ (first ++ rest) ∧
      InOrder wanted rest := by
  obtain ⟨before, after, hText, hRest⟩ := h
  have hThere : first <+: text.drop before.length := by
    rw [hText, List.drop_left]
    exact List.prefix_append first after
  have hLength : before.length ≤ text.length := by simp [hText]
  obtain ⟨i, hi, hFound⟩ := exists_indexOf hLength hThere
  obtain ⟨kept, rest, hKept, hSplit⟩ := indexOf_split hFound
  have hAfter : after <:+ text := ⟨before ++ first, by rw [hText, List.append_assoc]⟩
  have hFoundRest : rest <:+ text := ⟨kept ++ first, by rw [hSplit, List.append_assoc]⟩
  have hShorter : after.length ≤ rest.length := by
    have hSame := congrArg List.length (hText.symm.trans hSplit)
    simp only [List.length_append] at hSame
    omega
  obtain ⟨more, hMore⟩ := List.suffix_of_suffix_length_le hAfter hFoundRest hShorter
  refine ⟨kept, rest, by rw [hFound, hKept], hSplit, ?_⟩
  rw [← hMore]
  exact hRest.append_left more

section Cutting

variable {α β : Type} {p : α → Prop} {separator : List α}

/-- A list is cut at its first element outside of `p` in one way only. The induction
is over the part before it. -/
theorem append_cons_inj {first second rest other : List α} {c d : α} (hFirst : ∀ a ∈ first, p a)
    (hSecond : ∀ a ∈ second, p a) (hc : ¬p c) (hd : ¬p d)
    (h : first ++ c :: rest = second ++ d :: other) : first = second ∧ rest = other := by
  induction first generalizing second with
  | nil =>
      cases second with
      | nil => exact ⟨rfl, (List.cons.inj h).2⟩
      | cons a second =>
          obtain ⟨rfl, _⟩ := List.cons.inj h
          exact absurd (hSecond c (List.mem_cons_self ..)) hc
  | cons a first ih =>
      cases second with
      | nil =>
          obtain ⟨rfl, _⟩ := List.cons.inj h
          exact absurd (hFirst a (List.mem_cons_self ..)) hd
      | cons b second =>
          obtain ⟨rfl, hTail⟩ := List.cons.inj h
          obtain ⟨rfl, hRest⟩ := ih (List.forall_mem_cons.mp hFirst).2
            (List.forall_mem_cons.mp hSecond).2 hTail
          exact ⟨rfl, hRest⟩

/-- A list is cut at its last separator in one way only. -/
theorem separator_append_inj {first second rest other : List α}
    (hSeparator : ∃ c, separator.getLast? = some c ∧ ¬p c) (hFirst : ∀ a ∈ first, p a)
    (hSecond : ∀ a ∈ second, p a) (h : rest ++ separator ++ first = other ++ separator ++ second) :
    rest = other ∧ first = second := by
  obtain ⟨c, hLast, hOutside⟩ := hSeparator
  obtain ⟨start, rfl⟩ := List.getLast?_eq_some_iff.mp hLast
  have hReverse : first.reverse ++ c :: (start.reverse ++ rest.reverse) =
      second.reverse ++ c :: (start.reverse ++ other.reverse) := by
    simpa using congrArg List.reverse h
  obtain ⟨hSame, _⟩ := append_cons_inj (by simpa using hFirst) (by simpa using hSecond) hOutside
    hOutside hReverse
  rw [List.reverse_injective hSame] at h
  exact ⟨List.append_cancel_right (List.append_cancel_right h), List.reverse_injective hSame⟩

/-- Separators keep names apart that follow an unknown start. The lists are read from
their ends, since nothing is known of the start. -/
theorem append_flatMap_inj {name : β → List α} (hSeparator : ∃ c, separator.getLast? = some c ∧ ¬p c)
    (hName : ∀ b, ∀ a ∈ name b, p a) (hInjective : Function.Injective name) {rest other : List α}
    {first second : List β} (hLength : first.length = second.length)
    (h : rest ++ first.flatMap (fun b => separator ++ name b) =
      other ++ second.flatMap fun b => separator ++ name b) : rest = other ∧ first = second := by
  induction first using List.reverseRecOn generalizing second with
  | nil =>
      obtain rfl : second = [] := List.length_eq_zero_iff.mp hLength.symm
      exact ⟨List.append_cancel_right h, rfl⟩
  | append_singleton first b ih =>
      cases second using List.reverseRecOn with
      | nil => simp at hLength
      | append_singleton second d =>
          simp only [List.flatMap_append, List.flatMap_singleton, ← List.append_assoc] at h
          obtain ⟨hBefore, hLast⟩ := separator_append_inj hSeparator (hName b) (hName d) h
          obtain ⟨hRest, hFirst⟩ := ih (by simpa using hLength) hBefore
          exact ⟨hRest, by rw [hFirst, hInjective hLast]⟩

end Cutting

end Text
