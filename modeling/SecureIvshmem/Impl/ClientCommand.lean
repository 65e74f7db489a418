import Mathlib.Data.Nat.Digits.Defs

/-!
# The commands of the client

The line that `ivshmem_client_handle_stdin_command` of
`examples/ivshmem_client/main.c` reads, and what it makes of it. A byte is a
character. `none` is a number that does not fit an `int`, for which C leaves
`sscanf` undefined.
-/

namespace Ivshmem

/-- A command. -/
inductive ClientCommand where
  | help
  | dump
  | intAll
  | intVector (peerId vector : Int32)
  | intPeer (peerId : Int32)
  | invalid
  deriving DecidableEq

/-- `isspace`. -/
def isSpace (c : Char) : Bool :=
  c == ' ' || c == '\t' || c == '\n' || c == '\x0b' || c == '\x0c' || c == '\r'

/-- The characters after a literal, or nothing where `sscanf` meets
another. -/
def scanLiteral : List Char → List Char → Option (List Char)
  | [], s => some s
  | c :: cs, d :: s => if c = d then scanLiteral cs s else none
  | _ :: _, [] => none

/-- The value of a digit. -/
def digitValue (c : Char) : Nat := c.toNat - '0'.toNat

/-- The number that some digits write. -/
def digitsValue (cs : List Char) : Nat := cs.foldl (fun n c => 10 * n + digitValue c) 0

/-- The sign of a number, whether it is a minus. -/
def scanSign : List Char → Bool × List Char
  | '-' :: s => (true, s)
  | '+' :: s => (false, s)
  | s => (false, s)

/-- `%d`: a number, with the blanks before it, and what is left. -/
def scanInt (s : List Char) : Option (Int × List Char) :=
  let (negative, s) := scanSign (s.dropWhile isSpace)
  match s.takeWhile Char.isDigit with
  | [] => none
  | ds => some (if negative then -(digitsValue ds : Int) else digitsValue ds, s.dropWhile Char.isDigit)

/-- `int %d %d`: the numbers converted, two at most. -/
def scanNumbers (token : List Char) : List Int :=
  match scanLiteral ['i', 'n', 't'] token with
  | none => []
  | some s =>
    match scanInt s with
    | none => []
    | some (peerId, s) =>
      match scanInt s with
      | none => [peerId]
      | some (vector, _) => [peerId, vector]

/-- A number as an `int`. -/
def toInt32? (x : Int) : Option Int32 :=
  if Int32.minValue.toInt ≤ x ∧ x ≤ Int32.maxValue.toInt then some (.ofInt x) else none

/-- What a token that is not empty is. The second `sscanf` converts the same
number as the first, and returns 1 whatever follows it. -/
def parseToken (token : List Char) : Option ClientCommand :=
  if token = ['?'] ∨ token = ['h', 'e', 'l', 'p'] then some .help
  else if token = ['d', 'u', 'm', 'p'] then some .dump
  else if token = ['i', 'n', 't', ' ', 'a', 'l', 'l'] then some .intAll
  else
    match scanNumbers token with
    | [] => some .invalid
    | [peerId] => (toInt32? peerId).map .intPeer
    | peerId :: vector :: _ => do return .intVector (← toInt32? peerId) (← toInt32? vector)

/-- The size of `buf`, less the last zero. -/
abbrev commandMax : Nat := 127

/-- The separators of `strsep`. -/
def isSeparator (c : Char) : Bool := c == '\n' || c == '\r' || c == ';'

/-- The commands of what `read` put into `buf`, up to the first zero. -/
def parseCommands (input : List Char) : Option (List ClientCommand) :=
  ((input.takeWhile (· ≠ '\x00')).splitOnP isSeparator).filter (· ≠ []) |>.mapM parseToken

end Ivshmem
