import GeneGraph.Text.GraphemeExtend
import GeneGraph.Text.Hex
import GeneGraph.Text.Unprintable

/-!
# Quoted text

A text in double quotes, written so that every character can be told from its look: quotes,
backslashes and the usual control characters take a backslash, characters that are unprintable
or extend the character before them are written by their code point.
-/

namespace GeneGraph.Text

def quotedChar (c : Char) : List Char :=
  if c = '"' then ['\\', '"']
  else if c = '\\' then ['\\', '\\']
  else if c = '\n' then ['\\', 'n']
  else if c = '\r' then ['\\', 'r']
  else if c = '\t' then ['\\', 't']
  else if c.toNat = 0 then ['\\', '0']
  else if 0x20 ≤ c.toNat ∧ c.toNat < 0x7F then [c]
  else if extendsGrapheme c || isUnprintable c then
    ['\\', 'u', '\x7b'] ++ hex c.toNat ++ ['\x7d']
  else [c]

def quoted (s : String) : String :=
  String.ofList ('"' :: s.toList.flatMap quotedChar ++ ['"'])

end GeneGraph.Text
