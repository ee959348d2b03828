import ScriptMachine.Json.Basic

/-! Writing JSON, in one line or with an indented line for each item. -/

namespace ScriptMachine

namespace Json

def quote (spelling : List Char) : List Char :=
  '"' :: spelling ++ ['"']

/-- Pieces with a separator between neighbours. -/
def separated (separator : List Char) : List (List Char) → List Char
  | [] => []
  | [piece] => piece
  | piece :: rest => piece ++ separator ++ separated separator rest

/-! ### One line -/

mutual

/-- A document without any blanks. -/
def compact : Json → List Char
  | .null => "null".toList
  | .bool b => (if b then "true" else "false").toList
  | .number spelling => spelling
  | .text spelling => quote spelling
  | .array items => '[' :: separated [','] (compactItems items) ++ [']']
  | .object members => '\x7b' :: separated [','] (compactMembers members) ++ ['\x7d']

def compactItems : List Json → List (List Char)
  | [] => []
  | v :: rest => compact v :: compactItems rest

def compactMembers : List (List Char × Json) → List (List Char)
  | [] => []
  | (key, v) :: rest => (quote key ++ ':' :: compact v) :: compactMembers rest

end

/-! ### Indented lines -/

/-- A line end and the indentation of the next line. -/
def newline (indent : Nat) : List Char :=
  '\n' :: List.replicate indent ' '

/-- Brackets around items that stand on lines of their own; without items they stand together. -/
def enclosed (opening closing : Char) (indent : Nat) (items : List (List Char)) : List Char :=
  if items.isEmpty then [opening, closing]
  else
    opening :: newline (indent + 2) ++ separated (',' :: newline (indent + 2)) items
      ++ newline indent ++ [closing]

mutual

/-- A document with an indented line for each item and member. -/
def pretty (indent : Nat) : Json → List Char
  | .array items => enclosed '[' ']' indent (prettyItems (indent + 2) items)
  | .object members => enclosed '\x7b' '\x7d' indent (prettyMembers (indent + 2) members)
  | .null => "null".toList
  | .bool b => (if b then "true" else "false").toList
  | .number spelling => spelling
  | .text spelling => quote spelling

def prettyItems (indent : Nat) : List Json → List (List Char)
  | [] => []
  | v :: rest => pretty indent v :: prettyItems indent rest

def prettyMembers (indent : Nat) : List (List Char × Json) → List (List Char)
  | [] => []
  | (key, v) :: rest => (quote key ++ ':' :: ' ' :: pretty indent v) :: prettyMembers indent rest

end

end Json

end ScriptMachine
