/-!
# TOML documents

The tables and values of a TOML document, as far as settings need them: numbers and dates are recognized
and their values dropped. `Toml.ofText?` reads a document and refuses what the format does not allow,
among it keys given twice and tables extended where they may not be.
-/

namespace Monomorph

/-- Where a table comes from, which decides how it may be extended. -/
inductive TableOrigin where
  /-- A header names it. -/
  | header
  /-- A header names a table inside it. -/
  | implied
  /-- A dotted key names something inside it. -/
  | dotted
  /-- It is written in braces. -/
  | inlined
  deriving DecidableEq, Inhabited

/-- A TOML value. -/
inductive Toml where
  | string (value : String)
  | boolean (value : Bool)
  | number
  | date
  /-- An array, either a value or the tables with headers in double brackets. -/
  | array (ofTables : Bool) (elements : List Toml)
  | table (origin : TableOrigin) (entries : List (String × Toml))
  deriving Inhabited

namespace Toml

/-! ### Tables -/

/-- Replace the value of a key, or add it at the end. -/
def put (key : String) (value : Toml) : List (String × Toml) → List (String × Toml)
  | [] => [(key, value)]
  | (k, v) :: rest => if k = key then (k, value) :: rest else (k, v) :: put key value rest

/-- Change the table at a path inside a table. Missing tables are made; `dotted` says whether the path is
a dotted key, which must not lead through a table with a header of its own. A path leads into the last
one of an array of tables. -/
def modifyAt (dotted : Bool) (change : Toml → Option Toml) : (path : List String) → Toml → Option Toml
  | [], t => change t
  | key :: path, table origin entries => do
    let inner ←
      match entries.lookup key with
      | none => modifyAt dotted change path (table (if dotted then .dotted else .implied) [])
      | some (table o es) =>
        if o = .inlined ∨ (dotted ∧ o = .header) then none
        else modifyAt dotted change path (table o es)
      | some (array true (e :: es)) => do
        let all := e :: es
        let last ← modifyAt dotted change path (all.getLastD e)
        pure (array true (all.dropLast ++ [last]))
      | some _ => none
    return table origin (put key inner entries)
  | _ :: _, _ => none

/-- Add a key to a table, which must not have it. A table made by dotted keys takes only dotted keys. -/
def addKey (isDotted : Bool) (key : String) (value : Toml) : Toml → Option Toml
  | table origin entries =>
    if (origin == .dotted) != isDotted then none
    else if (entries.lookup key).isSome then none
    else some (table origin (entries ++ [(key, value)]))
  | _ => none

/-- Add the value of a dotted key to a table. -/
def addKeyValue (key : List String) (value : Toml) (t : Toml) : Option Toml := do
  let path := key.dropLast
  modifyAt true (addKey (!path.isEmpty) (key.getLastD "") value) path t

/-- Start the table of a header: new, or one that so far was only implied. -/
def openTable (key : String) : Toml → Option Toml
  | table origin entries =>
    match entries.lookup key with
    | none => some (table origin (entries ++ [(key, table .header [])]))
    | some (table .implied es) => some (table origin (put key (table .header es) entries))
    | some _ => none
  | _ => none

/-- Start the next table of a header in double brackets. -/
def openArrayTable (key : String) : Toml → Option Toml
  | table origin entries =>
    match entries.lookup key with
    | none => some (table origin (entries ++ [(key, array true [table .header []])]))
    | some (array true es) => some (table origin (put key (array true (es ++ [table .header []])) entries))
    | some _ => none
  | _ => none

/-! ### Characters -/

/-- A reader takes something off the front of the text. -/
abbrev Reader (α : Type) := List Char → Option (α × List Char)

def skipBlanks (cs : List Char) : List Char := cs.dropWhile fun c => c = ' ' || c = '\t'

/-- Characters that may stand in comments, and in strings if they are not special there. -/
def isPlain (c : Char) : Bool := c = '\t' || (' ' ≤ c && c ≠ '\x7f')

/-- Drop a comment, up to the end of the line. -/
def skipComment : List Char → List Char
  | '#' :: rest => rest.dropWhile isPlain
  | cs => cs

def newline? : List Char → Option (List Char)
  | '\n' :: rest => some rest
  | '\r' :: '\n' :: rest => some rest
  | _ => none

/-- Drop blanks, a comment and the end of the line, which the end of the text is too. -/
def endLine? (cs : List Char) : Option (List Char) :=
  match skipComment (skipBlanks cs) with
  | [] => some []
  | rest => newline? rest

/-- Drop blanks, comments and ends of lines, at most `fuel` lines. -/
def skipLines : (fuel : Nat) → List Char → List Char
  | 0, cs => cs
  | fuel + 1, cs =>
    let cs := skipComment (skipBlanks cs)
    match newline? cs with
    | some rest => skipLines fuel rest
    | none => cs

def hexDigit? (c : Char) : Option Nat :=
  if '0' ≤ c && c ≤ '9' then some (c.toNat - '0'.toNat)
  else if 'a' ≤ c && c ≤ 'f' then some (c.toNat - 'a'.toNat + 10)
  else if 'A' ≤ c && c ≤ 'F' then some (c.toNat - 'A'.toNat + 10)
  else none

/-- A character given by so many hexadecimal digits. -/
def codePoint? (digits : Nat) (cs : List Char) : Option (Char × List Char) := do
  let front := cs.take digits
  guard (front.length = digits)
  let code ← front.foldlM (fun n c => (hexDigit? c).map (16 * n + ·)) 0
  guard (code.isValidChar)
  return (Char.ofNat code, cs.drop digits)

def escape? : Reader Char
  | 'b' :: rest => some ('\x08', rest)
  | 't' :: rest => some ('\t', rest)
  | 'n' :: rest => some ('\n', rest)
  | 'f' :: rest => some ('\x0c', rest)
  | 'r' :: rest => some ('\r', rest)
  | '"' :: rest => some ('"', rest)
  | '\\' :: rest => some ('\\', rest)
  | 'u' :: rest => codePoint? 4 rest
  | 'U' :: rest => codePoint? 8 rest
  | _ => none

/-! ### Strings -/

/-- The rest of a string in double quotes; `acc` holds its characters, the last first. -/
def basicString? (acc : List Char) : (fuel : Nat) → Reader String
  | 0, _ => none
  | _ + 1, '"' :: rest => some (String.ofList acc.reverse, rest)
  | fuel + 1, '\\' :: rest => do
    let (c, rest) ← escape? rest
    basicString? (c :: acc) fuel rest
  | fuel + 1, c :: rest => if isPlain c then basicString? (c :: acc) fuel rest else none
  | _ + 1, [] => none

/-- The rest of a string in single quotes. -/
def literalString? (acc : List Char) : Reader String
  | '\'' :: rest => some (String.ofList acc.reverse, rest)
  | c :: rest => if isPlain c then literalString? (c :: acc) rest else none
  | [] => none

/-- The end of a string over several lines: three quotes, before which up to two belong to the string. -/
def closing? (quote : Char) (acc cs : List Char) : Option (String × List Char) :=
  let quotes := (cs.takeWhile (· = quote)).length
  if quotes < 3 then none
  else
    let kept := min (quotes - 3) 2
    some (String.ofList (List.replicate kept quote ++ acc).reverse, cs.drop (kept + 3))

def skipSpace : List Char → List Char
  | ' ' :: rest | '\t' :: rest | '\n' :: rest | '\r' :: '\n' :: rest => skipSpace rest
  | cs => cs

/-- The rest of a string over several lines. In double quotes there are escapes, and a backslash at the
end of a line joins it with what follows. -/
def longString? (quote : Char) (acc : List Char) : (fuel : Nat) → Reader String
  | 0, _ => none
  | fuel + 1, cs =>
    match closing? quote acc cs with
    | some result => some result
    | none =>
      match newline? cs with
      | some rest => longString? quote ('\n' :: acc) fuel rest
      | none =>
        match cs with
        | [] => none
        | '\\' :: rest =>
          if quote ≠ '"' then longString? quote ('\\' :: acc) fuel rest
          else
            match newline? (skipBlanks rest) with
            | some below => longString? quote acc fuel (skipSpace below)
            | none => do
              let (c, rest) ← escape? rest
              longString? quote (c :: acc) fuel rest
        | c :: rest => if isPlain c then longString? quote (c :: acc) fuel rest else none

def string? (cs : List Char) : Option (String × List Char) :=
  let fuel := cs.length + 1
  let afterNewline (rest : List Char) := (newline? rest).getD rest
  match cs with
  | '"' :: '"' :: '"' :: rest => longString? '"' [] fuel (afterNewline rest)
  | '\'' :: '\'' :: '\'' :: rest => longString? '\'' [] fuel (afterNewline rest)
  | '"' :: rest => basicString? [] fuel rest
  | '\'' :: rest => literalString? [] rest
  | _ => none

/-! ### Numbers and dates -/

/-- The longest run of digits with single underscores between them, if it has a digit. -/
def digitRun? (isDigit : Char → Bool) (cs : List Char) : Option (List Char × List Char) :=
  go [] cs
where
  go (acc : List Char) : List Char → Option (List Char × List Char)
    | '_' :: c :: rest =>
      if !acc.isEmpty && isDigit c then go (c :: acc) rest else none
    | c :: rest =>
      if isDigit c then go (c :: acc) rest
      else if acc.isEmpty then none else some (acc.reverse, c :: rest)
    | [] => if acc.isEmpty then none else some (acc.reverse, [])

/-- The number that digits write in a base. -/
def digitsValue (base : Nat) (digits : List Char) : Nat :=
  digits.foldl (fun n c => base * n + (hexDigit? c).getD 0) 0

/-- Drop a sign, and say whether it is a minus. -/
def sign (cs : List Char) : Bool × List Char :=
  match cs with
  | '-' :: rest => (true, rest)
  | '+' :: rest => (false, rest)
  | _ => (false, cs)

def basedInteger? (base : Nat) (isDigit : Char → Bool) (cs : List Char) :
    Option (Toml × List Char) := do
  let (digits, rest) ← digitRun? isDigit cs
  guard (digitsValue base digits < Nat.pow 2 63)
  return (number, rest)

/-- The integral digits of a decimal number: a zero stands alone. -/
def integralDigits? (cs : List Char) : Option (List Char × List Char) :=
  match cs with
  | '0' :: rest => some (['0'], rest)
  | _ => digitRun? Char.isDigit cs

/-- The exponent part of a float, if there is one. -/
def exponent? (cs : List Char) : Option (Option Int × List Char) :=
  match cs with
  | c :: rest =>
    if c = 'e' || c = 'E' then do
      let (negative, rest) := sign rest
      let (digits, rest) ← digitRun? Char.isDigit rest
      let e : Int := digitsValue 10 digits
      return (some (if negative then -e else e), rest)
    else some (none, cs)
  | [] => some (none, cs)

/-- Number of digits from the first one that is not zero. -/
def significantDigits (digits : List Char) : Nat := (digits.dropWhile (· = '0')).length

/-- Whether a decimal number is beyond what a double holds, that is, at least half way from the largest
double to the next power of two. That bound has 309 digits before its point. -/
def overflows (digits : List Char) (fractionLength : Nat) (exponent : Int) : Bool :=
  let n := digitsValue 10 digits
  let e := exponent - fractionLength
  let integralLength := significantDigits digits + e
  if n = 0 || integralLength < 309 then false
  else if 309 < integralLength then true
  else
    let bound := Nat.pow 2 1024 - Nat.pow 2 970
    if 0 ≤ e then bound ≤ n * Nat.pow 10 e.toNat else bound * Nat.pow 10 (-e).toNat ≤ n

def decimal? (cs : List Char) : Option (Toml × List Char) := do
  let (negative, body) := sign cs
  match body with
  | 'i' :: 'n' :: 'f' :: rest => return (number, rest)
  | 'n' :: 'a' :: 'n' :: rest => return (number, rest)
  | _ =>
    let (whole, rest) ← integralDigits? body
    let (fraction, rest) ←
      match rest with
      | '.' :: rest => do
        let (digits, rest) ← digitRun? Char.isDigit rest
        pure (some digits, rest)
      | _ => pure (none, rest)
    let (e, rest) ← exponent? rest
    if fraction.isNone && e.isNone then
      let n := digitsValue 10 whole
      guard (if negative then n ≤ Nat.pow 2 63 else n < Nat.pow 2 63)
      return (number, rest)
    else
      let digits := fraction.getD []
      guard (negative || !overflows (whole ++ digits) digits.length (e.getD 0))
      return (number, rest)

/-- So many decimal digits, with a value within bounds. -/
def fixedDigits? (count low high : Nat) (cs : List Char) : Option (Nat × List Char) := do
  let front := cs.take count
  guard (front.length = count && front.all Char.isDigit)
  let n := digitsValue 10 front
  guard (low ≤ n && n ≤ high)
  return (n, cs.drop count)

def char? (expected : Char) : List Char → Option (List Char)
  | c :: rest => if c = expected then some rest else none
  | [] => none

def daysOf (year month : Nat) : Nat :=
  if month = 2 then
    if year % 4 = 0 && (year % 100 ≠ 0 || year % 400 = 0) then 29 else 28
  else if month = 4 || month = 6 || month = 9 || month = 11 then 30
  else 31

def time? (cs : List Char) : Option (List Char) := do
  let (_, cs) ← fixedDigits? 2 0 23 cs
  let cs ← char? ':' cs
  let (_, cs) ← fixedDigits? 2 0 59 cs
  let cs ← char? ':' cs
  let (_, cs) ← fixedDigits? 2 0 60 cs
  match cs with
  | '.' :: rest =>
    let digits := rest.takeWhile Char.isDigit
    guard (!digits.isEmpty)
    return rest.drop digits.length
  | _ => return cs

/-- The offset of a time from universal time. -/
def offset? (cs : List Char) : Option (List Char) :=
  match cs with
  | c :: rest =>
    if c = 'Z' || c = 'z' then some rest
    else if c = '+' || c = '-' then do
      let (_, rest) ← fixedDigits? 2 0 23 rest
      let rest ← char? ':' rest
      let (_, rest) ← fixedDigits? 2 0 59 rest
      return rest
    else none
  | [] => none

/-- A date, perhaps with a time, perhaps with an offset. -/
def date? (cs : List Char) : Option (List Char) := do
  let (year, cs) ← fixedDigits? 4 0 9999 cs
  let cs ← char? '-' cs
  let (month, cs) ← fixedDigits? 2 1 12 cs
  let cs ← char? '-' cs
  let (_, cs) ← fixedDigits? 2 1 (daysOf year month) cs
  match cs with
  | c :: rest =>
    if c = 'T' || c = 't' || c = ' ' then
      match time? rest with
      | some rest => return (offset? rest).getD rest
      | none => return cs
    else return cs
  | [] => return cs

/-- Whether a text starts like a date: with four digits and a hyphen. -/
def startsDate (cs : List Char) : Bool :=
  (cs.take 4).length = 4 && (cs.take 4).all Char.isDigit && (cs.drop 4).head? == some '-'

/-- Whether a text starts like a time: with two digits and a colon. -/
def startsTime (cs : List Char) : Bool :=
  (cs.take 2).length = 2 && (cs.take 2).all Char.isDigit && (cs.drop 2).head? == some ':'

def numeric? (cs : List Char) : Option (Toml × List Char) :=
  if startsDate cs then (date? cs).map (date, ·)
  else if startsTime cs then (time? cs).map (date, ·)
  else
    match cs with
    | '0' :: 'x' :: rest => basedInteger? 16 (fun c => (hexDigit? c).isSome) rest
    | '0' :: 'o' :: rest => basedInteger? 8 (fun c => '0' ≤ c && c ≤ '7') rest
    | '0' :: 'b' :: rest => basedInteger? 2 (fun c => c = '0' || c = '1') rest
    | _ => decimal? cs

/-! ### Keys and values -/

/-- One part of a key, bare or quoted on one line. -/
def keyPart? (cs : List Char) : Option (String × List Char) :=
  match cs with
  | '"' :: rest => basicString? [] (cs.length + 1) rest
  | '\'' :: rest => literalString? [] rest
  | _ =>
    let bare := cs.takeWhile fun c => c.isAlphanum || c = '-' || c = '_'
    if bare.isEmpty then none else some (String.ofList bare, cs.drop bare.length)

def key? : (fuel : Nat) → Reader (List String)
  | 0, _ => none
  | fuel + 1, cs => do
    let (part, rest) ← keyPart? (skipBlanks cs)
    match skipBlanks rest with
    | '.' :: rest => do
      let (parts, rest) ← key? fuel rest
      return (part :: parts, rest)
    | rest => return ([part], rest)

/-- The most levels of brackets and braces in a value, and of parts in a key. -/
def depthLimit : Nat := 79

mutual

/-- A value inside so many brackets and braces that `depth` more are allowed. -/
def value? (depth : Nat) : (fuel : Nat) → Reader Toml
  | 0, _ => none
  | fuel + 1, cs =>
    match cs with
    | '"' :: _ | '\'' :: _ => (string? cs).map fun r => (string r.1, r.2)
    | 't' :: 'r' :: 'u' :: 'e' :: rest => some (boolean true, rest)
    | 'f' :: 'a' :: 'l' :: 's' :: 'e' :: rest => some (boolean false, rest)
    | '[' :: rest =>
      if depth = 0 then none
      else do
        let (elements, rest) ← elements? (depth - 1) fuel rest
        return (array false elements, rest)
    | '\x7b' :: rest =>
      if depth = 0 then none
      else
        match skipBlanks rest with
        | '\x7d' :: rest => some (table .inlined [], rest)
        | rest => do
          let (entries, rest) ← entries? (depth - 1) (table .header []) fuel rest
          return (entries, rest)
    | _ => numeric? cs

def elements? (depth : Nat) : (fuel : Nat) → Reader (List Toml)
  | 0, _ => none
  | fuel + 1, cs =>
    match skipLines fuel cs with
    | ']' :: rest => some ([], rest)
    | cs => do
      let (v, rest) ← value? depth fuel cs
      match skipLines fuel rest with
      | ',' :: rest => do
        let (vs, rest) ← elements? depth fuel rest
        return (v :: vs, rest)
      | ']' :: rest => return ([v], rest)
      | _ => none

/-- The rest of a table in braces, added to what it has so far. -/
def entries? (depth : Nat) (soFar : Toml) : (fuel : Nat) → Reader Toml
  | 0, _ => none
  | fuel + 1, cs => do
    let (key, rest) ← key? fuel cs
    guard (key.length ≤ depthLimit)
    let rest ← char? '=' rest
    let (v, rest) ← value? depth fuel (skipBlanks rest)
    let soFar ← addKeyValue key v soFar
    match skipBlanks rest with
    | ',' :: rest => entries? depth soFar fuel rest
    | '\x7d' :: rest =>
      match soFar with
      | table _ entries => return (table .inlined entries, rest)
      | _ => none
    | _ => none

end

/-! ### Documents -/

/-- A header: its key, and whether it stands in double brackets. -/
def header? (fuel : Nat) (cs : List Char) : Option (Bool × List String × List Char) := do
  let (double, rest) ←
    match cs with
    | '[' :: '[' :: rest => some (true, rest)
    | '[' :: rest => some (false, rest)
    | _ => none
  let (key, rest) ← key? fuel rest
  guard (key.length ≤ depthLimit)
  let rest ← char? ']' rest
  let rest ← if double then char? ']' rest else some rest
  return (double, key, rest)

/-- Read the lines of a document below a header, adding to what was read so far. -/
def lines? : (fuel : Nat) → (header : List String) → (root : Toml) → List Char → Option Toml
  | 0, _, _, _ => none
  | fuel + 1, header, root, cs =>
    match skipBlanks cs with
    | [] => some root
    | '[' :: rest => do
      let (double, key, rest) ← header? fuel ('[' :: rest)
      let opened := if double then openArrayTable (key.getLastD "") else openTable (key.getLastD "")
      let root ← modifyAt false opened key.dropLast root
      lines? fuel key root (← endLine? rest)
    | cs =>
      match newline? (skipComment cs) with
      | some rest => lines? fuel header root rest
      | none =>
        if (skipComment cs).isEmpty then some root
        else do
          let (key, rest) ← key? fuel cs
          guard (key.length ≤ depthLimit)
          let rest ← char? '=' rest
          let (v, rest) ← value? depthLimit fuel (skipBlanks rest)
          let root ← modifyAt false (addKeyValue key v) header root
          lines? fuel header root (← endLine? rest)

/-- Read a document, which may begin with a byte order mark. -/
def ofText? (text : String) : Option Toml :=
  let cs :=
    match text.toList with
    | '\ufeff' :: rest => rest
    | cs => cs
  lines? (2 * cs.length + 2) [] (table .header []) cs

end Toml
end Monomorph
