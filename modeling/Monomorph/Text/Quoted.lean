import Monomorph.Text.Printable

/-!
# Quoted text

A text between double quotes, with everything escaped that would not be seen as itself: the quote and
the backslash by a backslash, tab, newline, return and the zero character by their letters, all other
unprintable or combining characters by their code in hexadecimal.
-/

namespace Monomorph.Text

/-- The digits of `n` in lower-case hexadecimal. -/
def hex (n : Nat) : List Char := Nat.toDigits 16 n

def escape (c : Char) : List Char :=
  if c = '"' then ['\\', '"']
  else if c = '\\' then ['\\', '\\']
  else if c = '\n' then ['\\', 'n']
  else if c = '\r' then ['\\', 'r']
  else if c = '\t' then ['\\', 't']
  else if c = '\x00' then ['\\', '0']
  else if ' ' ≤ c ∧ c ≤ '~' then [c]
  else if isCombining c || ! isPrintable c then
    ['\\', 'u', '\x7b'] ++ hex c.val.toNat ++ ['\x7d']
  else [c]

def quoted (text : String) : String :=
  String.ofList ('"' :: text.toList.flatMap escape ++ ['"'])

end Monomorph.Text
