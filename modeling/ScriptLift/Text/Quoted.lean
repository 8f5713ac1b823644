import ScriptLift.Text.Hex
import ScriptLift.Text.Printable
import ScriptLift.Text.Extender

namespace ScriptLift.Text

/-- A code point by its number, as in `\u{301}`: lower case and without leading zeros. -/
def numbered (c : Char) : List Char :=
  ['\\', 'u', '\x7b'] ++ hexDigits c.toNat ++ ['\x7d']

/-- Characters that a reader could not see, or that would join the one before, are numbered. -/
def escape (c : Char) : List Char :=
  if c = '\x22' then ['\\', '\x22']
  else if c = '\\' then ['\\', '\\']
  else if c = '\n' then ['\\', 'n']
  else if c = '\r' then ['\\', 'r']
  else if c = '\t' then ['\\', 't']
  else if c = '\x00' then ['\\', '0']
  else if isExtender c || !isPrintable c then numbered c
  else [c]

/-- The literal: each character escaped on its own, between double quotes. -/
def quoted (text : String) : String :=
  String.ofList (['\x22'] ++ text.toList.flatMap escape ++ ['\x22'])

end ScriptLift.Text
