import GraphQL.Document.Token

/-!
# Tokens of a source

`tokenize` cuts a source into tokens and ends with one `endOfFile` token.  Between tokens lie blanks, commas,
line ends, byte order marks and comments.  Whatever is no token becomes an error token: a lone character, a
number that goes on wrongly, a string without its end.
-/

namespace GraphQL

namespace Lexer

/-- What a scan takes from the front of the source. -/
structure Scanned where
  kind : TokenKind
  taken : List Char
  rest : List Char
  /-- Whether a backslash was the very last character of an open string. -/
  overrun : Bool := false

/-- Whether a name can start with the character. -/
def isNameStart (c : Char) : Bool := c.isAlpha || c = '_'

/-- Whether a name can go on with the character. -/
def isNameContinue (c : Char) : Bool := c.isAlphanum || c = '_'

/-- Whether the character can stand between tokens, comments aside. -/
def isIgnored (c : Char) : Bool :=
  c = ' ' || c = '\t' || c = '\r' || c = '\n' || c = ',' || c = '\ufeff'

/-- Drops everything up to the next token, and counts its bytes. -/
def dropIgnored : (inComment : Bool) → (offset : Nat) → List Char → Nat × List Char
  | _, offset, [] => (offset, [])
  | true, offset, c :: rest =>
    if c = '\n' ∨ c = '\r' then dropIgnored false (offset + 1) rest
    else dropIgnored true (offset + c.utf8Size) rest
  | false, offset, c :: rest =>
    if c = '#' then dropIgnored true (offset + 1) rest
    else if isIgnored c then dropIgnored false (offset + c.utf8Size) rest
    else (offset, c :: rest)

/-- Whether the next character is a digit. -/
def digitFollows : List Char → Bool
  | c :: _ => c.isDigit
  | [] => false

/-- A number must not run into a name or another point. -/
def finishNumber (isFloat : Bool) (taken rest : List Char) : Scanned :=
  let runsOn := match rest with
    | c :: _ => c = '.' || isNameStart c
    | [] => false
  ⟨if runsOn then .error else if isFloat then .float else .int, taken, rest, false⟩

/-- Scans an optional exponent. -/
def scanExponent (isFloat : Bool) (taken rest : List Char) : Scanned :=
  match rest with
  | [] => finishNumber isFloat taken []
  | c :: r =>
    if c = 'e' ∨ c = 'E' then
      let (sign, r) : List Char × List Char :=
        match r with
        | '+' :: r => (['+'], r)
        | '-' :: r => (['-'], r)
        | r => ([], r)
      let (digits, r) := r.span Char.isDigit
      if digits.isEmpty then ⟨.error, taken ++ c :: sign, r, false⟩
      else finishNumber true (taken ++ c :: sign ++ digits) r
    else finishNumber isFloat taken (c :: r)

/-- Scans an optional fraction. -/
def scanFraction (taken rest : List Char) : Scanned :=
  match rest with
  | '.' :: r =>
    let (digits, r) := r.span Char.isDigit
    if digits.isEmpty then ⟨.error, taken ++ ['.'], r, false⟩
    else scanExponent true (taken ++ '.' :: digits) r
  | r => scanExponent false taken r

/-- Scans a number: an optional minus, digits without a leading zero, a fraction, an exponent. -/
def scanNumber (cs : List Char) : Scanned :=
  let (sign, r) : List Char × List Char :=
    match cs with
    | '-' :: r => (['-'], r)
    | r => ([], r)
  match r with
  | '0' :: r =>
    if digitFollows r then ⟨.error, sign ++ ['0'], r, false⟩ else scanFraction (sign ++ ['0']) r
  | r =>
    let (digits, r) := r.span Char.isDigit
    if digits.isEmpty then ⟨.error, sign, r, false⟩ else scanFraction (sign ++ digits) r

/-- Scans a string after its opening quote.  It ends at a quote without a backslash before it; a backslash covers
whatever character follows, a line end included. -/
def scanString : (takenReversed rest : List Char) → Scanned
  | taken, [] => ⟨.error, taken.reverse, [], false⟩
  | taken, ['\\'] => ⟨.error, ('\\' :: taken).reverse, [], true⟩
  | taken, '\\' :: c :: rest => scanString (c :: '\\' :: taken) rest
  | taken, c :: rest =>
    if c = '"' then ⟨.string, (c :: taken).reverse, rest, false⟩
    else if c = '\n' ∨ c = '\r' then ⟨.error, taken.reverse, c :: rest, false⟩
    else scanString (c :: taken) rest

/-- Scans a block string after its three opening quotes. -/
def scanBlockString : (takenReversed rest : List Char) → Scanned
  | taken, [] => ⟨.error, taken.reverse, [], false⟩
  | taken, '"' :: '"' :: '"' :: rest =>
    ⟨.blockString, ('"' :: '"' :: '"' :: taken).reverse, rest, false⟩
  | taken, '\\' :: '"' :: '"' :: '"' :: rest =>
    scanBlockString ('"' :: '"' :: '"' :: '\\' :: taken) rest
  | taken, c :: rest => scanBlockString (c :: taken) rest

/-- Scans one token at a character that is not ignored. -/
def scan (c : Char) (rest : List Char) : Scanned :=
  match Punctuator.ofChar? c, c, rest with
  | some p, _, _ => ⟨.punctuator p, [c], rest, false⟩
  | none, '.', '.' :: '.' :: rest => ⟨.punctuator .spread, ['.', '.', '.'], rest, false⟩
  | none, '"', '"' :: '"' :: rest => scanBlockString ['"', '"', '"'] rest
  | none, '"', rest => scanString ['"'] rest
  | none, c, rest =>
    if isNameStart c then
      let (more, rest) := rest.span isNameContinue
      ⟨.name, c :: more, rest, false⟩
    else if c = '-' ∨ c.isDigit then scanNumber (c :: rest)
    else ⟨.error, [c], rest, false⟩

/-- The tokens from an offset on.  Every token takes a character, so `fuel` may be the number of characters. -/
def tokensFrom : (fuel : Nat) → (offset : Nat) → List Char → List Token
  | 0, offset, _ => [⟨.endOfFile, .empty offset, ""⟩]
  | fuel + 1, offset, cs =>
    match dropIgnored false offset cs with
    | (start, []) => [⟨.endOfFile, .empty start, ""⟩]
    | (start, c :: rest) =>
      let s := scan c rest
      let stop := start + byteCount s.taken + (if s.overrun then 1 else 0)
      ⟨s.kind, ⟨start, stop⟩, String.ofList s.taken⟩ :: tokensFrom fuel stop s.rest

end Lexer

/-- The tokens of a source, the last one `endOfFile`. -/
def tokenize (source : String) : List Token :=
  let cs := source.toList
  Lexer.tokensFrom (cs.length + 1) 0 cs

end GraphQL
