/-! Fixed-width pieces of text: padding, counters with leading zeros, hexadecimal bytes. -/

namespace ScriptMachine.Text

/-- A run of blanks. -/
def blanks (n : Nat) : String :=
  "".pushn ' ' n

/-- Fills up on the right; text that is already wide enough stays as it is. -/
def padRight (width : Nat) (s : String) : String :=
  s ++ blanks (width - s.length)

/-- A count with leading zeros up to the given width; longer counts are not cut. -/
def zeroPadded (width n : Nat) : String :=
  let digits := toString n
  "".pushn '0' (width - digits.length) ++ digits

/-- Digits of a number in base sixteen, lower case, without leading zeros. -/
def hex (n : Nat) : String :=
  String.ofList (Nat.toDigits 16 n)

/-- Two lower-case hexadecimal digits. -/
def hexByte (b : UInt8) : String :=
  let digits := hex b.toNat
  "".pushn '0' (2 - digits.length) ++ digits

/-- Parts of a sentence with a separator between neighbours. -/
def join (separator : String) (parts : List String) : String :=
  separator.intercalate parts

/-- Lines of a text: a line feed ends a line, and one carriage return before it belongs to the
line's end. Text after the last line feed is a line of its own unless it is empty. -/
def lines (s : String) : List String :=
  go [] s.toList
where
  finish (ended : Bool) (line : List Char) : String :=
    match line with
    | '\r' :: rest => if ended then String.ofList rest.reverse else String.ofList line.reverse
    | _ => String.ofList line.reverse
  go (line : List Char) : List Char → List String
    | [] => if line.isEmpty then [] else [finish false line]
    | '\n' :: rest => finish true line :: go [] rest
    | c :: rest => go (c :: line) rest

end ScriptMachine.Text
