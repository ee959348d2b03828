import ScriptMachine.Text.Column
import ScriptMachine.Text.Glyph

/-! Quoted text, in which every character can be told by sight. -/

namespace ScriptMachine.Text

/-- The spelling of a character between quotes. Hidden ones are shown by their number. -/
def escaped (c : Char) : String :=
  if c = '\x00' then "\\0"
  else if c = '\t' then "\\t"
  else if c = '\r' then "\\r"
  else if c = '\n' then "\\n"
  else if c = '\\' then "\\\\"
  else if c = '"' then "\\\""
  else if isHidden c then "\\u\x7b" ++ hex c.toNat ++ "\x7d"
  else String.singleton c

def quoted (s : String) : String :=
  "\"" ++ String.join (s.toList.map escaped) ++ "\""

end ScriptMachine.Text
