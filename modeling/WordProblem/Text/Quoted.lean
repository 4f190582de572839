import WordProblem.Text.Hidden

/-! # Quoted texts

A text between quotes as messages show it. Quotes, backslashes and hidden characters are
written as escapes.
-/
namespace WordProblem.Text

/-- A character inside quotes. -/
def shown (c : Char) : List Char :=
  if c = '"' then ['\\', '"']
  else if c = '\\' then ['\\', '\\']
  else if c = '\x00' then ['\\', '0']
  else if c = '\t' then ['\\', 't']
  else if c = '\n' then ['\\', 'n']
  else if c = '\r' then ['\\', 'r']
  else if isHidden c then ['\\', 'u', '\x7b'] ++ Nat.toDigits 16 c.toNat ++ ['\x7d']
  else [c]

def quoted (cs : List Char) : List Char := '"' :: cs.flatMap shown ++ ['"']

end WordProblem.Text
