import Dalvik.Text.Hex
import Dalvik.Text.Invisible

/-!
# Quoted strings

The spelling of a string inside a diagnostic: between double quotes, with escapes for the quote, the
backslash and every character without a look of its own.
-/
namespace Dalvik.Text

def escapeChar (c : Char) : String :=
  if c = '\x00' then "\\0"
  else if c = '\t' then "\\t"
  else if c = '\n' then "\\n"
  else if c = '\r' then "\\r"
  else if c = '"' then "\\\""
  else if c = '\\' then "\\\\"
  else if isInvisible c then "\\u\x7b" ++ hexDigits c.toNat ++ "\x7d"
  else c.toString

def quoted (s : String) : String := "\"" ++ s.foldl (fun out c => out ++ escapeChar c) "" ++ "\""

end Dalvik.Text
