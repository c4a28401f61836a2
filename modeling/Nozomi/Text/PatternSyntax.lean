import Nozomi.Text.Bytes
import Nozomi.Text.Pattern

/-! Reading the text of a regular expression in Perl syntax: literals, escapes,
bracketed sets, groups with and without names, quantifiers and alternation.
Anchors, look-around, back-references, inline flags, comments, possessive
quantifiers and characters given by their codes are not read, and a special
character needs a backslash to stand for itself. -/
namespace Text

namespace Pattern

def isDigit (c : Byte) : Bool := 0x30 ≤ c ∧ c ≤ 0x39
def isLower (c : Byte) : Bool := 0x61 ≤ c ∧ c ≤ 0x7A
def isUpper (c : Byte) : Bool := 0x41 ≤ c ∧ c ≤ 0x5A
def isAlnum (c : Byte) : Bool := isDigit c || isLower c || isUpper c
def isWord (c : Byte) : Bool := isAlnum c || c = 0x5F
def isVertical (c : Byte) : Bool := 0x0A ≤ c && c ≤ 0x0D
def isBlank (c : Byte) : Bool := c = 0x20 || c = 0x09
def isSpace (c : Byte) : Bool := isBlank c || isVertical c
def isGraph (c : Byte) : Bool := 0x21 ≤ c && c ≤ 0x7E

/-- The class that a small letter stands for after a backslash. -/
def letterClass (c : Byte) : Option (Byte → Bool) :=
  if c = 0x64 then some isDigit
  else if c = 0x77 then some isWord
  else if c = 0x73 then some isSpace
  else if c = 0x68 then some isBlank
  else if c = 0x76 then some isVertical
  else if c = 0x6C then some isLower
  else if c = 0x75 then some isUpper
  else none

/-- A capital letter stands for what is not in the class of the small one. -/
def classOf (c : Byte) : Option (Byte → Bool) :=
  if isUpper c then (letterClass (c + 0x20)).map fun members a => !members a else letterClass c

/-- The character that is meant after a backslash. Letters and digits stand for
themselves nowhere, and four other characters are boundaries. -/
def charOf (c : Byte) : Option Byte :=
  if c = 0x6E then some 0x0A
  else if c = 0x74 then some 0x09
  else if c = 0x72 then some 0x0D
  else if c = 0x66 then some 0x0C
  else if c = 0x61 then some 0x07
  else if c = 0x65 then some 0x1B
  else if isAlnum c ∨ c ∈ ascii "<>'\x60" then none
  else some c

def escaped (c : Byte) : Option (Byte → Bool) :=
  (classOf c).or ((charOf c).map fun char a => a = char)

/-- The names between `[:` and `:]`. -/
def namedClass (name : Bytes) : Option (Byte → Bool) :=
  if name = ascii "digit" then some isDigit
  else if name = ascii "lower" then some isLower
  else if name = ascii "upper" then some isUpper
  else if name = ascii "alpha" then some fun a => isLower a || isUpper a
  else if name = ascii "alnum" then some isAlnum
  else if name = ascii "word" then some isWord
  else if name = ascii "space" then some isSpace
  else if name = ascii "blank" then some isBlank
  else if name = ascii "graph" then some isGraph
  else if name = ascii "print" then some fun a => isGraph a || a = 0x20
  else if name = ascii "punct" then some fun a => isGraph a && !isAlnum a
  else if name = ascii "cntrl" then some fun a => a < 0x20 || a = 0x7F
  else if name = ascii "xdigit" then
    some fun a => isDigit a || (0x41 ≤ a && a ≤ 0x46) || (0x61 ≤ a && a ≤ 0x66)
  else match name with
    | [c] => letterClass c
    | _ => none

/-- Where the reader of a bracketed set stands. A single character may begin a
range, and then the end of the range is awaited. -/
inductive SetPlace where
  | start
  | first
  | between
  | single (c : Byte)
  | range (least : Byte)
  | escape (least : Option Byte)
  | nested
  | name (read : Bytes)
  | nameEnd (read : Bytes)

structure SetReader where
  negated : Bool
  members : Byte → Bool
  place : SetPlace

namespace SetReader

def init : SetReader := ⟨false, fun _ => false, .start⟩

def add (r : SetReader) (more : Byte → Bool) (place : SetPlace) : SetReader :=
  ⟨r.negated, fun a => r.members a || more a, place⟩

/-- One character of a set, perhaps the end of a range. -/
def char (r : SetReader) (least : Option Byte) (c : Byte) : Option SetReader :=
  match least with
  | none => some (r.add (fun a => a = c) (.single c))
  | some least => if least ≤ c then some (r.add (fun a => least ≤ a && a ≤ c) .between) else none

/-- What a closing bracket ends, or another reader. -/
abbrev Result := Option (SetReader ⊕ (Byte → Bool))

def finish (r : SetReader) : Result := some (.inr fun a => r.members a != r.negated)

def goto (r : SetReader) (place : SetPlace) : Result := some (.inl { r with place := place })

/-- A character where an item of the set may begin. -/
def item (r : SetReader) (c : Byte) : Result :=
  if c = 0x5B then r.goto .nested
  else if c = 0x5C then r.goto (.escape none)
  else (r.char none c).map .inl

/-- A character after a single one, which may begin a range. -/
def afterSingle (r : SetReader) (least c : Byte) : Result :=
  if c = 0x5D then r.finish else if c = 0x2D then r.goto (.range least) else r.item c

def step (r : SetReader) (c : Byte) : Result :=
  match r.place with
  | .start =>
      if c = 0x5E then some (.inl { r with negated := true, place := .first })
      else r.item c
  | .first => r.item c
  | .between => if c = 0x5D then r.finish else r.item c
  | .single least => r.afterSingle least c
  | .range least =>
      if c = 0x5D then (r.add (fun a => a = 0x2D) .between).finish
      else if c = 0x5B then none
      else if c = 0x5C then r.goto (.escape (some least))
      else (r.char (some least) c).map .inl
  | .escape least =>
      match classOf c with
      | some members => if least.isNone then some (.inl (r.add members .between)) else none
      | none => ((charOf c).bind (r.char least)).map .inl
  | .nested =>
      if c = 0x3A then r.goto (.name [])
      else if c = 0x2E ∨ c = 0x3D then none
      else (r.add (fun a => a = 0x5B) .between).afterSingle 0x5B c
  | .name read => if c = 0x3A then r.goto (.nameEnd read) else r.goto (.name (read ++ [c]))
  | .nameEnd read =>
      if c = 0x5D then (namedClass read).map fun members => .inl (r.add members .between) else none

end SetReader

def toLazy {α Name : Type} : Pattern α Name → Pattern α Name
  | rep _ least most body => rep false least most body
  | p => p

/-- A group with a name captures, one without only holds together. -/
def wrap {α Name : Type} (name : Option Name) (body : Pattern α Name) : Pattern α Name :=
  match name with
  | none => body
  | some name => group name body

/-- A group that is being read, with the pieces of its last branch and its
earlier branches, the latest first. -/
structure Frame where
  name : Option Bytes
  current : List (Pattern Byte Bytes)
  earlier : List (List (Pattern Byte Bytes))

namespace Frame

/-- The branches in the order of the text. -/
def branches (f : Frame) : List (List (Pattern Byte Bytes)) :=
  (f.current :: f.earlier).reverse.map List.reverse

def close (f : Frame) : Pattern Byte Bytes := wrap f.name (choice (f.branches.map sequence))

def push (f : Frame) (piece : Pattern Byte Bytes) : Frame := { f with current := piece :: f.current }

end Frame

/-- What a character means outside escapes and sets. -/
inductive Token where
  | opening
  | closing
  | bar
  | bracket
  | backslash
  | dot
  | quantifier
  | reserved
  | literal

def token (c : Byte) : Token :=
  if c = 0x28 then .opening
  else if c = 0x29 then .closing
  else if c = 0x7C then .bar
  else if c = 0x5B then .bracket
  else if c = 0x5C then .backslash
  else if c = 0x2E then .dot
  else if c ∈ ascii "*+?\x7b" then .quantifier
  else if c ∈ ascii "^$\x7d" then .reserved
  else .literal

/-- What was read last. Only after a piece may a quantifier follow, and after a
quantifier a question mark, which makes the repetition lazy. -/
inductive Mode where
  | fresh
  | piece
  | quantified
  | escape
  | opening
  | extension
  | naming (read : Bytes)
  | counting (least : Option Nat)
  | countingTo (least : Nat) (most : Option Nat)
  | set (reader : SetReader)

/-- Whether a text may end here. -/
def Mode.isBetween : Mode → Bool
  | fresh | piece | quantified => true
  | _ => false

structure Machine where
  mode : Mode
  top : Frame
  below : List Frame

namespace Machine

def init : Machine := ⟨.fresh, ⟨none, [], []⟩, []⟩

def goto (s : Machine) (mode : Mode) : Machine := { s with mode := mode }

def push (s : Machine) (piece : Pattern Byte Bytes) : Machine :=
  { s with mode := .piece, top := s.top.push piece }

def enter (s : Machine) (name : Option Bytes) : Machine :=
  ⟨.fresh, ⟨name, [], []⟩, s.top :: s.below⟩

def leave (s : Machine) : Option Machine :=
  match s.below with
  | [] => none
  | outer :: below => some (push ⟨s.mode, outer, below⟩ s.top.close)

def branch (s : Machine) : Machine :=
  { s with mode := .fresh, top := ⟨s.top.name, [], s.top.current :: s.top.earlier⟩ }

/-- Put another piece in the place of the last one. -/
def changeLast (s : Machine) (mode : Mode) (change : Pattern Byte Bytes → Pattern Byte Bytes) :
    Option Machine :=
  match s.top.current with
  | [] => none
  | piece :: pieces =>
      some { s with mode := mode, top := { s.top with current := change piece :: pieces } }

/-- Repeat the last piece. -/
def repeatLast (s : Machine) (least : Nat) (most : Option Nat) : Option Machine :=
  s.changeLast .quantified (rep true least most)

/-- Make the repetition that was read last a lazy one. -/
def lazyLast (s : Machine) : Option Machine := s.changeLast .fresh toLazy

/-- The three quantifiers of one character. -/
def quantity (c : Byte) : Option (Nat × Option Nat) :=
  if c = 0x2A then some (0, none)
  else if c = 0x2B then some (1, none)
  else if c = 0x3F then some (0, some 1)
  else none

/-- A quantifier, which needs a piece right before it. -/
def quantifier (s : Machine) (c : Byte) : Option Machine :=
  match s.mode with
  | .piece =>
      match quantity c with
      | some (least, most) => s.repeatLast least most
      | none => some (s.goto (.counting none))
  | .quantified => if c = 0x3F then s.lazyLast else none
  | _ => none

def item (s : Machine) (c : Byte) : Option Machine :=
  match token c with
  | .opening => some (s.goto .opening)
  | .closing => s.leave
  | .bar => some s.branch
  | .bracket => some (s.goto (.set .init))
  | .backslash => some (s.goto .escape)
  | .dot => some (s.push (set fun _ => true))
  | .quantifier => s.quantifier c
  | .reserved => none
  | .literal => some (s.push (set fun a => a = c))

def digit (c : Byte) : Nat := (c - 0x30).toNat

def step (s : Machine) (c : Byte) : Option Machine :=
  match s.mode with
  | .fresh | .piece | .quantified => s.item c
  | .escape => (escaped c).map fun members => s.push (set members)
  | .opening => if c = 0x3F then some (s.goto .extension) else (s.enter none).item c
  | .extension =>
      if c = 0x3A then some (s.enter none)
      else if c = 0x3C then some (s.goto (.naming []))
      else none
  | .naming read =>
      if c = 0x3E ∧ read ≠ [] then some (s.enter (some read))
      else if isWord c then some (s.goto (.naming (read ++ [c])))
      else none
  | .counting least =>
      if isDigit c then some (s.goto (.counting (some (10 * least.getD 0 + digit c))))
      else least.bind fun least =>
        if c = 0x2C then some (s.goto (.countingTo least none))
        else if c = 0x7D then s.repeatLast least (some least)
        else none
  | .countingTo least most =>
      if isDigit c then some (s.goto (.countingTo least (some (10 * most.getD 0 + digit c))))
      else if c = 0x7D ∧ most.all (least ≤ ·) then s.repeatLast least most
      else none
  | .set reader =>
      (reader.step c).map fun result =>
        match result with
        | .inl reader => s.goto (.set reader)
        | .inr members => s.push (set members)

def run (s : Machine) (text : Bytes) : Option Machine := text.foldlM step s

/-- A text ends outside of all groups and between two pieces. -/
def finish (s : Machine) : Option Frame :=
  if s.mode.isBetween ∧ s.below.isEmpty then some s.top else none

end Machine

/-- The branches of a text at its top level. -/
def parseBranches (text : Bytes) : Option (List (List (Pattern Byte Bytes))) :=
  ((Machine.run .init text).bind Machine.finish).map Frame.branches

/-- The pattern that a text denotes. -/
def parse (text : Bytes) : Option (Pattern Byte Bytes) :=
  (parseBranches text).map fun branches => choice (branches.map sequence)

example : parse (ascii "a|b*") =
    some (alt (set fun a => a = 0x61) (rep true 0 none (set fun a => a = 0x62))) := rfl

example : parse (ascii ")(a") = none := rfl

end Pattern

end Text
