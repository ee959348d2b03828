/-! JSON documents as trees. Numbers and texts are kept as they are spelled. -/

namespace ScriptMachine

inductive Json where
  | null
  | bool (b : Bool)
  /-- A number by its spelling. -/
  | number (spelling : List Char)
  /-- A text by its spelling, without the quotes around it. -/
  | text (spelling : List Char)
  | array (items : List Json)
  | object (members : List (List Char × Json))
  deriving Inhabited

namespace Json

/-! ### Texts -/

def hexDigit (n : Nat) : Char :=
  "0123456789abcdef".toList.getD n '0'

/-- The spelling of a character in a text. Only quotes, backslashes and controls are escaped. -/
def escape (c : Char) : List Char :=
  if c = '"' then ['\\', '"']
  else if c = '\\' then ['\\', '\\']
  else if c = '\x08' then ['\\', 'b']
  else if c = '\x0c' then ['\\', 'f']
  else if c = '\n' then ['\\', 'n']
  else if c = '\r' then ['\\', 'r']
  else if c = '\t' then ['\\', 't']
  else if c.toNat < 0x20 then
    ['\\', 'u', '0', '0', hexDigit (c.toNat / 16), hexDigit (c.toNat % 16)]
  else [c]

def ofString (s : String) : Json :=
  .text (s.toList.flatMap escape)

def ofNat (n : Nat) : Json :=
  .number (toString n).toList

/-- The value of a hexadecimal digit. -/
def hexValue? (c : Char) : Option Nat :=
  if '0' ≤ c ∧ c ≤ '9' then some (c.toNat - 48)
  else if 'a' ≤ c ∧ c ≤ 'f' then some (c.toNat - 87)
  else if 'A' ≤ c ∧ c ≤ 'F' then some (c.toNat - 55)
  else none

/-- The number that four hexadecimal digits spell. -/
def unit? (a b c d : Char) : Option Nat := do
  return (((← hexValue? a) * 16 + (← hexValue? b)) * 16 + (← hexValue? c)) * 16 + (← hexValue? d)

/-- What a character means after a backslash, unless it starts a number. -/
def unescape? : Char → Option Char
  | '"' => some '"'
  | '\\' => some '\\'
  | '/' => some '/'
  | 'b' => some '\x08'
  | 'f' => some '\x0c'
  | 'n' => some '\n'
  | 'r' => some '\r'
  | 't' => some '\t'
  | _ => none

/-- The characters that a spelling stands for. Two units of a surrogate pair are one character, and
a unit of a pair without the other one stands for nothing. -/
def decode? : List Char → Option (List Char)
  | [] => some []
  | '\\' :: 'u' :: a :: b :: c :: d :: rest =>
    match unit? a b c d with
    | none => none
    | some high =>
      if high < 0xd800 ∨ 0xe000 ≤ high then (decode? rest).map (Char.ofNat high :: ·)
      else if 0xdc00 ≤ high then none
      else
        match rest with
        | '\\' :: 'u' :: a :: b :: c :: d :: rest =>
          match unit? a b c d with
          | none => none
          | some low =>
            if 0xdc00 ≤ low ∧ low < 0xe000 then
              (decode? rest).map
                (Char.ofNat (0x10000 + (high - 0xd800) * 0x400 + (low - 0xdc00)) :: ·)
            else none
        | _ => none
  | '\\' :: c :: rest =>
    match unescape? c with
    | none => none
    | some c => (decode? rest).map (c :: ·)
  | c :: rest => (decode? rest).map (c :: ·)

/-- The text that a document is. -/
def text? : Json → Option String
  | .text spelling => (decode? spelling).map String.ofList
  | _ => none

/-- The number that a document is, if it is spelled with digits alone. -/
def nat? : Json → Option Nat
  | .number spelling =>
    if spelling.all Char.isDigit then
      some (spelling.foldl (fun n c => n * 10 + (c.toNat - 48)) 0)
    else none
  | _ => none

def bool? : Json → Option Bool
  | .bool b => some b
  | _ => none

/-! ### Records -/

/-- A document as values of named fields. Members of an object are named, and other members than
the fields are skipped; no field may occur twice. An array gives values to the first fields. -/
def record? (names : List String) : Json → Option (List (String × Json))
  | .object members => do
    let members ← members.mapM fun m => do return (String.ofList (← decode? m.1), m.2)
    let known := members.filter fun m => names.contains m.1
    if (known.map (·.1)).Nodup then some known else none
  | .array items => if items.length ≤ names.length then some (names.zip items) else none
  | _ => none

/-- A field of a record by its reader; a missing field has the default value. -/
def field {α : Type} (record : List (String × Json)) (name : String) (default : α)
    (read : Json → Option α) : Option α :=
  match record.lookup name with
  | none => some default
  | some j => read j

end Json

end ScriptMachine
