import GraphQL.Source.Span

/-!
# Values of string tokens

`stringValue?` decodes the escapes of a quoted string.  `blockStringValue` splits a block string into lines,
takes off the indentation that all lines but the first have in common, and drops blank lines at both ends.
-/

namespace GraphQL

namespace StringLiteral

/-- Drops characters that take exactly so many bytes. -/
def dropBytes? : (bytes : Nat) → List Char → Option (List Char)
  | 0, cs => some cs
  | _ + 1, [] => none
  | n + 1, c :: rest => if c.utf8Size ≤ n + 1 then dropBytes? (n + 1 - c.utf8Size) rest else none

/-- The characters without so many bytes at both ends, unless a character would be cut or the ends overlap. -/
def inner? (bytes : Nat) (cs : List Char) : Option (List Char) :=
  if byteCount cs < 2 * bytes then none
  else
    (dropBytes? bytes cs).bind fun r => (dropBytes? bytes r.reverse).map List.reverse

/-- The value of a hexadecimal digit. -/
def hexDigit? (c : Char) : Option Nat :=
  if '0' ≤ c ∧ c ≤ '9' then some (c.toNat - 48)
  else if 'a' ≤ c ∧ c ≤ 'f' then some (c.toNat - 87)
  else if 'A' ≤ c ∧ c ≤ 'F' then some (c.toNat - 55)
  else none

/-- The number of a list of hexadecimal digits. -/
def hexNumber? (ds : List Char) : Option Nat :=
  ds.foldlM (fun n c => (hexDigit? c).map (16 * n + ·)) 0

/-- The character of four characters after an escaped `u`: hexadecimal digits, the first of which may be a plus
sign instead.  Surrogates are no characters. -/
def unicodeEscape? (quad : List Char) : Option Char :=
  let digits := match quad with
    | '+' :: r => r
    | r => r
  (hexNumber? digits).bind fun n =>
    if h : n.isValidChar then some (Char.ofNatAux n h) else none

/-- What a simple escape stands for. -/
def simpleEscape? : Char → Option Char
  | '"' => some '"'
  | '\\' => some '\\'
  | '/' => some '/'
  | 'b' => some '\x08'
  | 'f' => some '\x0c'
  | 'n' => some '\n'
  | 'r' => some '\r'
  | 't' => some '\t'
  | _ => none

/-- Decodes the escapes. -/
def unescape? : List Char → Option (List Char)
  | [] => some []
  | ['\\'] => none
  | '\\' :: 'u' :: a :: b :: c :: d :: rest =>
    (unicodeEscape? [a, b, c, d]).bind fun ch => (unescape? rest).map (ch :: ·)
  | '\\' :: e :: rest => (simpleEscape? e).bind fun ch => (unescape? rest).map (ch :: ·)
  | c :: rest => (unescape? rest).map (c :: ·)

/-- Replaces every escaped triple quote by the quotes. -/
def unescapeTripleQuotes : List Char → List Char
  | '\\' :: '"' :: '"' :: '"' :: rest => '"' :: '"' :: '"' :: unescapeTripleQuotes rest
  | c :: rest => c :: unescapeTripleQuotes rest
  | [] => []

/-- Splits at line feeds, carriage returns, and pairs of a carriage return and a line feed. -/
def splitLines : List Char → List (List Char)
  | [] => [[]]
  | '\r' :: '\n' :: rest => [] :: splitLines rest
  | '\r' :: rest => [] :: splitLines rest
  | '\n' :: rest => [] :: splitLines rest
  | c :: rest =>
    match splitLines rest with
    | [] => [[c]]
    | line :: lines => (c :: line) :: lines

/-- Spaces and tabs. -/
def isIndentChar (c : Char) : Bool := c = ' ' || c = '\t'

/-- Whether a line holds spaces and tabs only. -/
def isBlankLine (line : List Char) : Bool := line.all isIndentChar

/-- The number of bytes of the spaces and tabs at the front. -/
def indentOf (line : List Char) : Nat := byteCount (line.takeWhile isIndentChar)

/-- The least indentation of the lines that are not blank, or zero. -/
def commonIndent (lines : List (List Char)) : Nat :=
  (((lines.filter (!isBlankLine ·)).map indentOf).min?).getD 0

/-- A line without so many bytes at its front.  One that is shorter becomes empty, and so would one of which a character
were cut. -/
def dropIndent (indent : Nat) (line : List Char) : List Char := (dropBytes? indent line).getD []

/-- Takes the common indentation off all lines but the first. -/
def dedent : List (List Char) → List (List Char)
  | [] => []
  | first :: others => first :: others.map (dropIndent (commonIndent others))

/-- Drops blank lines at both ends. -/
def trimBlankLines (lines : List (List Char)) : List (List Char) :=
  ((lines.dropWhile isBlankLine).reverse.dropWhile isBlankLine).reverse

end StringLiteral

open StringLiteral

/-- The value of a quoted string with its quotes, if all its escapes are valid. -/
def stringValue? (raw : String) : Option String :=
  ((inner? 1 raw.toList).bind unescape?).map String.ofList

/-- The value of a block string with its quotes. -/
def blockStringValue (raw : String) : String :=
  let inner := unescapeTripleQuotes ((inner? 3 raw.toList).getD [])
  String.ofList (List.intercalate ['\n'] (trimBlankLines (dedent (splitLines inner))))

end GraphQL
