import Mathlib.Tactic.Ring
import Nozomi.Text.Bytes
import Nozomi.Time.Calendar

/-! Dates as HTTP headers write them, always in GMT, and the reading of their
numbers and names. -/
namespace Calendar

open Text

/-- The last digits of a number, `width` of them. -/
def digits : Nat → Nat → Bytes
  | 0, _ => []
  | width + 1, n => UInt8.ofNat (0x30 + n / 10 ^ width % 10) :: digits width n

def digitValue (c : Byte) : Option Nat :=
  if 0x30 ≤ c ∧ c ≤ 0x39 then some (c - 0x30).toNat else none

/-- Read at most `width` more digits of a number. -/
def number : Nat → Nat → Bytes → Nat × Bytes
  | 0, n, text => (n, text)
  | _, n, [] => (n, [])
  | width + 1, n, c :: text =>
      match digitValue c with
      | some d => number width (10 * n + d) text
      | none => (n, c :: text)

/-- Read a number of at least one digit that lies in a range. -/
def readNumber (low high width : Nat) (text : Bytes) : Option (Nat × Bytes) :=
  let found := number width 0 text
  if found.2.length < text.length ∧ low ≤ found.1 ∧ found.1 ≤ high then some found else none

def dayNames : List Bytes := ["Sun", "Mon", "Tue", "Wed", "Thu", "Fri", "Sat"].map ascii

def monthNames : List Bytes :=
  ["Jan", "Feb", "Mar", "Apr", "May", "Jun", "Jul", "Aug", "Sep", "Oct", "Nov", "Dec"].map ascii

/-- Read one of the names in a list, and give its position. -/
def readName (names : List Bytes) (text : Bytes) : Option (Nat × Bytes) :=
  (names.findIdx? fun name => name.isPrefixOf text).map fun i =>
    (i, text.drop (names.getD i []).length)

theorem digitValue_digit (d : Fin 10) : digitValue (UInt8.ofNat (0x30 + d)) = some d.val := by
  revert d
  decide

theorem length_digits (width n : Nat) : (digits width n).length = width := by
  induction width with
  | zero => rfl
  | succ width ih => rw [digits, List.length_cons, ih]

/-- Digits that were written are read back, whatever follows them. -/
theorem number_digits (width n start : Nat) (rest : Bytes) :
    number width start (digits width n ++ rest) = (start * 10 ^ width + n % 10 ^ width, rest) := by
  induction width generalizing start with
  | zero => simp [number, digits, Nat.mod_one]
  | succ width ih =>
      have hDigit := digitValue_digit ⟨n / 10 ^ width % 10, Nat.mod_lt _ (by decide)⟩
      simp only [digits, List.cons_append, number, hDigit, ih]
      rw [Nat.mod_pow_succ, Nat.pow_succ]
      congr 1
      ring

/-- A number in its bounds that fits its digits is read back, and what follows is
left. -/
theorem readNumber_digits {low high width n : Nat} (hWidth : 1 ≤ width) (hLow : low ≤ n)
    (hHigh : n ≤ high) (hFits : n < 10 ^ width) (rest : Bytes) :
    readNumber low high width (digits width n ++ rest) = some (n, rest) := by
  have hNumber : number width 0 (digits width n ++ rest) = (n, rest) := by
    rw [number_digits, Nat.mod_eq_of_lt hFits, Nat.zero_mul, Nat.zero_add]
  have hShorter : rest.length < (digits width n ++ rest).length := by
    rw [List.length_append, length_digits]
    omega
  simp only [readNumber, hNumber, hShorter, hLow, hHigh, and_self, if_true]

theorem readName_dayNames (wday : Fin 7) (rest : Bytes) :
    readName dayNames (dayNames.getD wday [] ++ rest) = some (wday.val, rest) := by
  match wday with
  | 0 | 1 | 2 | 3 | 4 | 5 | 6 => rfl

theorem readName_monthNames (mon : Fin 12) (rest : Bytes) :
    readName monthNames (monthNames.getD mon [] ++ rest) = some (mon.val, rest) := by
  match mon with
  | 0 | 1 | 2 | 3 | 4 | 5 | 6 | 7 | 8 | 9 | 10 | 11 => rfl

/-- A date in the form `Www, DD Mon YYYY HH:MM:SS GMT`. -/
structure HttpDate extends DateTime where
  wday : Fin 7
  year_le : year ≤ 9999

def HttpDate.write (date : HttpDate) : Bytes :=
  dayNames.getD date.wday [] ++ (ascii ", " ++ (digits 2 date.mday ++ (ascii " " ++
    (monthNames.getD date.mon [] ++ (ascii " " ++ (digits 4 date.year ++ (ascii " " ++
      (digits 2 date.hour ++ (ascii ":" ++ (digits 2 date.min ++ (ascii ":" ++
        (digits 2 date.sec ++ ascii " GMT"))))))))))))

theorem DateTime.mday_le_31 (date : DateTime) : date.mday ≤ 31 := by
  have hMonth : daysInMonth date.year date.mon ≤ 31 := by
    unfold daysInMonth
    split
    · split <;> decide
    all_goals decide
  exact Nat.le_trans date.mday_le hMonth

theorem digitValue_of_mem {width n : Nat} {c : Byte} (hMem : c ∈ digits width n) :
    (digitValue c).isSome = true := by
  induction width with
  | zero => simp [digits] at hMem
  | succ width ih =>
      rcases List.mem_cons.mp hMem with rfl | hRest
      · rw [digitValue_digit ⟨n / 10 ^ width % 10, Nat.mod_lt _ (by decide)⟩]
        rfl
      · exact ih hRest

theorem digits_ne_zero (width n : Nat) : ∀ c ∈ digits width n, c ≠ 0 := by
  rintro c hMem rfl
  exact absurd (digitValue_of_mem hMem) (by decide)

/-- A date has no null byte. -/
theorem HttpDate.write_ne_zero (date : HttpDate) : ∀ c ∈ date.write, c ≠ 0 := by
  have hDay : ∀ wday : Fin 7, ∀ c ∈ dayNames.getD wday [], c ≠ 0 := by decide +kernel
  have hMonth : ∀ mon : Fin 12, ∀ c ∈ monthNames.getD mon [], c ≠ 0 := by decide +kernel
  have hFixed : ∀ text ∈ [ascii ", ", ascii " ", ascii ":", ascii " GMT"], ∀ c ∈ text, c ≠ 0 := by
    decide +kernel
  simp only [List.forall_mem_cons] at hFixed
  obtain ⟨hComma, hSpace, hColon, hGmt, _⟩ := hFixed
  simp only [HttpDate.write, List.forall_mem_append]
  exact ⟨hDay _, hComma, digits_ne_zero _ _, hSpace, hMonth _, hSpace, digits_ne_zero _ _, hSpace,
    digits_ne_zero _ _, hColon, digits_ne_zero _ _, hColon, digits_ne_zero _ _, hGmt⟩

end Calendar
