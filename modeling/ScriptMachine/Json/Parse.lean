import ScriptMachine.Json.Basic

/-! Reading JSON: one document with nothing but blanks around it. -/

namespace ScriptMachine

namespace Json

def isBlank (c : Char) : Bool :=
  c == ' ' || c == '\t' || c == '\n' || c == '\r'

def skipBlanks (t : List Char) : List Char :=
  t.dropWhile isBlank

/-! ### Numbers -/

/-- A run of digits and what follows it. -/
def digits (t : List Char) : List Char × List Char :=
  (t.takeWhile Char.isDigit, t.dropWhile Char.isDigit)

/-- A whole number: a zero alone, or digits that do not start with zero. -/
def whole? (t : List Char) : Option (List Char × List Char) :=
  match digits t with
  | ([], _) => none
  | (ds, rest) => if ds.head? = some '0' ∧ ds ≠ ['0'] then none else some (ds, rest)

/-- A point and at least one digit, or nothing. -/
def fraction? : List Char → Option (List Char × List Char)
  | '.' :: t =>
    match digits t with
    | ([], _) => none
    | (ds, rest) => some ('.' :: ds, rest)
  | t => some ([], t)

/-- An exponent: its mark, a sign if there is one, and at least one digit. -/
def exponentDigits? (mark : List Char) (t : List Char) : Option (List Char × List Char) :=
  match digits t with
  | ([], _) => none
  | (ds, rest) => some (mark ++ ds, rest)

/-- An exponent or nothing. -/
def exponent? : List Char → Option (List Char × List Char)
  | e :: t =>
    if e = 'e' ∨ e = 'E' then
      match t with
      | '+' :: t => exponentDigits? [e, '+'] t
      | '-' :: t => exponentDigits? [e, '-'] t
      | t => exponentDigits? [e] t
    else some ([], e :: t)
  | [] => some ([], [])

def number? (t : List Char) : Option (List Char × List Char) := do
  let (sign, t) :=
    match t with
    | '-' :: t => (['-'], t)
    | t => ([], t)
  let (ds, t) ← whole? t
  let (fraction, t) ← fraction? t
  let (exponent, t) ← exponent? t
  return (sign ++ ds ++ fraction ++ exponent, t)

/-! ### Texts -/

/-- The spelling of a text up to the quote that ends it. Controls are not allowed, and a backslash
starts one of the known escapes. -/
def spelling? : List Char → Option (List Char × List Char)
  | '"' :: rest => some ([], rest)
  | '\\' :: 'u' :: a :: b :: c :: d :: rest =>
    if (unit? a b c d).isSome then
      (spelling? rest).map fun (s, rest) => ('\\' :: 'u' :: a :: b :: c :: d :: s, rest)
    else none
  | '\\' :: c :: rest =>
    if (unescape? c).isSome then (spelling? rest).map fun (s, rest) => ('\\' :: c :: s, rest)
    else none
  | c :: rest =>
    if c.toNat < 0x20 ∨ c = '\\' then none
    else (spelling? rest).map fun (s, rest) => (c :: s, rest)
  | [] => none

/-! ### Documents -/

mutual

/-- A document at the start of a text, after blanks. The first argument bounds the number of
nested readings. -/
def value? : Nat → List Char → Option (Json × List Char)
  | 0, _ => none
  | bound + 1, t =>
    match skipBlanks t with
    | 'n' :: 'u' :: 'l' :: 'l' :: rest => some (.null, rest)
    | 't' :: 'r' :: 'u' :: 'e' :: rest => some (.bool true, rest)
    | 'f' :: 'a' :: 'l' :: 's' :: 'e' :: rest => some (.bool false, rest)
    | '"' :: rest => (spelling? rest).map fun (s, rest) => (.text s, rest)
    | '[' :: rest =>
      match skipBlanks rest with
      | ']' :: rest => some (.array [], rest)
      | rest => (items? bound rest).map fun (vs, rest) => (.array vs, rest)
    | '\x7b' :: rest =>
      match skipBlanks rest with
      | '\x7d' :: rest => some (.object [], rest)
      | rest => (members? bound rest).map fun (ms, rest) => (.object ms, rest)
    | t => (number? t).map fun (s, rest) => (.number s, rest)

/-- The items of an array, of which there is at least one, with the bracket that ends it. -/
def items? : Nat → List Char → Option (List Json × List Char)
  | 0, _ => none
  | bound + 1, t =>
    match value? bound t with
    | none => none
    | some (v, rest) =>
      match skipBlanks rest with
      | ',' :: rest => (items? bound rest).map fun (vs, rest) => (v :: vs, rest)
      | ']' :: rest => some ([v], rest)
      | _ => none

/-- The members of an object, of which there is at least one, with the brace that ends it. -/
def members? : Nat → List Char → Option (List (List Char × Json) × List Char)
  | 0, _ => none
  | bound + 1, t =>
    match skipBlanks t with
    | '"' :: rest =>
      match spelling? rest with
      | none => none
      | some (key, rest) =>
        match skipBlanks rest with
        | ':' :: rest =>
          match value? bound rest with
          | none => none
          | some (v, rest) =>
            match skipBlanks rest with
            | ',' :: rest => (members? bound rest).map fun (ms, rest) => ((key, v) :: ms, rest)
            | '\x7d' :: rest => some ([(key, v)], rest)
            | _ => none
        | _ => none
    | _ => none

end

/-- Reads a whole text. A reading consumes a character or is followed by one that does, so twice
the length bounds the nesting. -/
def parse? (s : String) : Option Json :=
  match value? (2 * s.length + 2) s.toList with
  | some (j, rest) => if (skipBlanks rest).isEmpty then some j else none
  | none => none

end Json

end ScriptMachine
