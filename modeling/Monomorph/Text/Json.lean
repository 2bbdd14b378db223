import Monomorph.Text.Quoted

/-!
# JSON text

JSON values with members in a fixed order, written compactly or indented by two spaces. Only the quote,
the backslash and control characters are escaped in strings.
-/

namespace Monomorph

/-- A JSON value; a number is given by its text. -/
inductive Json where
  | null
  | bool (value : Bool)
  | number (text : String)
  | string (value : String)
  | array (elements : List Json)
  | object (members : List (String × Json))
  deriving Inhabited

namespace Json

def nat (n : Nat) : Json := .number (toString n)

/-- A value of a sum type: its name, alone or with what it carries. -/
def tagged (name : String) (payload : Json) : Json := .object [(name, payload)]

def escape (c : Char) : List Char :=
  if c = '"' then ['\\', '"']
  else if c = '\\' then ['\\', '\\']
  else if c = '\n' then ['\\', 'n']
  else if c = '\r' then ['\\', 'r']
  else if c = '\t' then ['\\', 't']
  else if c = '\x08' then ['\\', 'b']
  else if c = '\x0c' then ['\\', 'f']
  else if c < ' ' then
    let digits := Text.hex c.val.toNat
    ['\\', 'u'] ++ List.replicate (4 - digits.length) '0' ++ digits
  else [c]

def quoted (text : String) : String :=
  String.ofList ('"' :: text.toList.flatMap escape ++ ['"'])

/-- How the parts of arrays and objects are set apart. -/
inductive Spacing where
  | compact
  /-- One part a line, at a depth of indentation. -/
  | indented (depth : Nat)

namespace Spacing

def inner : Spacing → Spacing
  | compact => compact
  | indented depth => indented (depth + 1)

/-- What comes before a part and before the closing bracket. -/
def newline : Spacing → String
  | compact => ""
  | indented depth => "\n".pushn ' ' (2 * depth)

/-- What comes between a name and its value. -/
def colon : Spacing → String
  | compact => ":"
  | indented _ => ": "

end Spacing

mutual

def write (out : String) (spacing : Spacing) : Json → String
  | null => out ++ "null"
  | bool value => out ++ (if value then "true" else "false")
  | number text => out ++ text
  | string value => out ++ quoted value
  | array [] => out ++ "[]"
  | array (e :: rest) =>
    let out := write (out ++ "[" ++ spacing.inner.newline) spacing.inner e
    writeElements out spacing.inner rest ++ spacing.newline ++ "]"
  | object [] => out ++ "\x7b\x7d"
  | object ((name, value) :: rest) =>
    let out := out ++ "\x7b" ++ spacing.inner.newline ++ quoted name ++ spacing.colon
    let out := write out spacing.inner value
    writeMembers out spacing.inner rest ++ spacing.newline ++ "\x7d"

/-- Append the elements after the first. -/
def writeElements (out : String) (spacing : Spacing) : List Json → String
  | [] => out
  | e :: rest => writeElements (write (out ++ "," ++ spacing.newline) spacing e) spacing rest

/-- Append the members after the first. -/
def writeMembers (out : String) (spacing : Spacing) : List (String × Json) → String
  | [] => out
  | (name, value) :: rest =>
    let out := out ++ "," ++ spacing.newline ++ quoted name ++ spacing.colon
    writeMembers (write out spacing value) spacing rest

end

/-- The text on one line without spaces. -/
def compact (j : Json) : String := j.write "" .compact

/-- The text with one part a line, indented by two spaces a level. -/
def pretty (j : Json) : String := j.write "" (.indented 0)

end Json
end Monomorph
