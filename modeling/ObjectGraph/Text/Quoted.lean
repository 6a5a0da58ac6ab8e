import ObjectGraph.Text.Hex
import ObjectGraph.Text.Printable

/-! Text between double quotes. Quotes and backslashes get a backslash, the common controls a
letter, and every other character that is not printable its number in braces. -/
namespace ObjectGraph.Text

def quoteChar (c : Char) : List Char :=
  if c = '"' ∨ c = '\\' then ['\\', c]
  else if c = '\n' then ['\\', 'n']
  else if c = '\r' then ['\\', 'r']
  else if c = '\t' then ['\\', 't']
  else if c.toNat = 0 then ['\\', '0']
  else if isPrintable c then [c]
  else ['\\', 'u', '\x7b'] ++ Hex.digits c.toNat ++ ['\x7d']

def quoted (s : String) : String :=
  String.ofList ('"' :: s.toList.flatMap quoteChar ++ ['"'])

end ObjectGraph.Text
