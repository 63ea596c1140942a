import GraphQL.Json.Basic

/-!
# Reading JSON

The text is cut into lexemes, and the lexemes drive a stack of open arrays and objects.  A key that is written
twice in an object keeps its place and takes the later value.  Numbers with a point or an exponent, integers
outside `-2 ^ 63 … 2 ^ 64 - 1` and `-0` are doubles; a number beyond the largest double is refused, and so is
a value nested deeper than `maxDepth`.
-/

namespace GraphQL

namespace Json

/-- A lexeme of a JSON text. -/
inductive Lexeme where
  | openArray | closeArray | openObject | closeObject | comma | colon
  | scalar (value : Json)
deriving Repr

/-- The value of a hexadecimal digit. -/
def hexValue? (c : Char) : Option Nat :=
  if '0' ≤ c ∧ c ≤ '9' then some (c.toNat - 48)
  else if 'a' ≤ c ∧ c ≤ 'f' then some (c.toNat - 87)
  else if 'A' ≤ c ∧ c ≤ 'F' then some (c.toNat - 55)
  else none

/-- The number of four hexadecimal digits. -/
def hexQuad? (a b c d : Char) : Option Nat := do
  return (← hexValue? a) * 4096 + (← hexValue? b) * 256 + (← hexValue? c) * 16 + (← hexValue? d)

/-- What a simple escape stands for. -/
def simpleEscape? (c : Char) : Option Char :=
  match c with
  | '"' => some '"'
  | '\\' => some '\\'
  | '/' => some '/'
  | 'b' => some '\x08'
  | 'f' => some '\x0c'
  | 'n' => some '\n'
  | 'r' => some '\r'
  | 't' => some '\t'
  | _ => none

/-- Reads the rest of a string after its opening quote; `acc` holds the characters read so far, last first.
Surrogates must come in pairs. -/
def readString? : (fuel : Nat) → (acc : List Char) → List Char → Option (String × List Char)
  | 0, _, _ => none
  | _ + 1, _, [] => none
  | fuel + 1, acc, c :: rest =>
    if c = '"' then some (String.ofList acc.reverse, rest)
    else if c.toNat < 0x20 then none
    else if c ≠ '\\' then readString? fuel (c :: acc) rest
    else
      match rest with
      | 'u' :: a :: b :: c :: d :: rest =>
        (hexQuad? a b c d).bind fun high =>
          if 0xD800 ≤ high ∧ high < 0xDC00 then
            match rest with
            | '\\' :: 'u' :: a :: b :: c :: d :: rest =>
              (hexQuad? a b c d).bind fun low =>
                if 0xDC00 ≤ low ∧ low < 0xE000 then
                  let code := 0x10000 + (high - 0xD800) * 0x400 + (low - 0xDC00)
                  readString? fuel (Char.ofNat code :: acc) rest
                else none
            | _ => none
          else if 0xDC00 ≤ high ∧ high < 0xE000 then none
          else readString? fuel (Char.ofNat high :: acc) rest
      | e :: rest => (simpleEscape? e).bind fun c => readString? fuel (c :: acc) rest
      | [] => none

/-- Splits off the characters of a number. -/
def spanNumber (cs : List Char) : List Char × List Char :=
  cs.span fun c => c.isDigit || c = '-' || c = '+' || c = '.' || c = 'e' || c = 'E'

/-- Reads a number: an optional minus, digits without a leading zero, an optional point with digits, an optional
exponent. -/
def readNumber? (cs : List Char) : Option Number :=
  let (negative, body) : Bool × List Char :=
    match cs with
    | '-' :: r => (true, r)
    | r => (false, r)
  let (whole, rest) := Double.spanDigits body
  let wholeIsValid := !whole.isEmpty && (whole.length = 1 || whole.head? ≠ some '0')
  let restIsValid :=
    match rest with
    | '.' :: c :: _ => c.isDigit
    | '.' :: [] => false
    | _ => true
  if !wholeIsValid || !restIsValid then none
  else
    let digits := Double.natOfDigits whole
    let value : Int := if negative then -(digits : Int) else digits
    if rest.isEmpty ∧ IntRange.word64.holds value ∧ ¬ (negative ∧ digits = 0) then some (.int value)
    else (Double.readUnsigned? negative body).bind Number.ofDouble?

/-- Cuts a text into lexemes; `acc` holds those read so far, last first.  Each takes at least one character. -/
def lexemes? : (fuel : Nat) → (acc : List Lexeme) → List Char → Option (List Lexeme)
  | _, acc, [] => some acc.reverse
  | 0, _, _ :: _ => none
  | fuel + 1, acc, c :: rest =>
    match c with
    | ' ' | '\t' | '\n' | '\r' => lexemes? fuel acc rest
    | '[' => lexemes? fuel (.openArray :: acc) rest
    | ']' => lexemes? fuel (.closeArray :: acc) rest
    | '\x7b' => lexemes? fuel (.openObject :: acc) rest
    | '\x7d' => lexemes? fuel (.closeObject :: acc) rest
    | ',' => lexemes? fuel (.comma :: acc) rest
    | ':' => lexemes? fuel (.colon :: acc) rest
    | '"' =>
      (readString? (rest.length + 1) [] rest).bind fun (s, rest) =>
        lexemes? fuel (.scalar (.string s) :: acc) rest
    | _ =>
      match c, rest with
      | 't', 'r' :: 'u' :: 'e' :: rest => lexemes? fuel (.scalar (.bool true) :: acc) rest
      | 'f', 'a' :: 'l' :: 's' :: 'e' :: rest => lexemes? fuel (.scalar (.bool false) :: acc) rest
      | 'n', 'u' :: 'l' :: 'l' :: rest => lexemes? fuel (.scalar .null :: acc) rest
      | _, _ =>
        let (digits, rest) := spanNumber (c :: rest)
        (readNumber? digits).bind fun n => lexemes? fuel (.scalar (.number n) :: acc) rest

/-- An array or object that is not yet closed. -/
inductive Frame where
  | array (itemsReversed : List Json)
  | object (fields : Dict Json)
  /-- An object after a key. -/
  | entry (fields : Dict Json) (key : String)

/-- What may come next. -/
inductive Expected where
  /-- A value; right after an opening bracket the closing one is allowed too. -/
  | value (afterOpen : Bool)
  /-- A key; right after an opening brace the closing one is allowed too. -/
  | key (afterOpen : Bool)
  | colon
  | commaOrClose
  | nothing (result : Json)

/-- The reader between two lexemes. -/
structure ReaderState where
  stack : List Frame
  expected : Expected

/-- How deep arrays and objects may be nested. -/
def maxDepth : Nat := 127

/-- Puts a finished value into the innermost open array or object. -/
def place? (value : Json) : List Frame → Option ReaderState
  | [] => some ⟨[], .nothing value⟩
  | .array items :: rest => some ⟨.array (value :: items) :: rest, .commaOrClose⟩
  | .entry fields key :: rest => some ⟨.object (fields.insert key value) :: rest, .commaOrClose⟩
  | .object _ :: _ => none

/-- Opens an array or object. -/
def open? (frame : Frame) (expected : Expected) (stack : List Frame) : Option ReaderState :=
  if stack.length < maxDepth then some ⟨frame :: stack, expected⟩ else none

/-- Closes the innermost array. -/
def closeArray? : List Frame → Option ReaderState
  | .array items :: rest => place? (.array items.reverse) rest
  | _ => none

/-- Closes the innermost object. -/
def closeObject? : List Frame → Option ReaderState
  | .object fields :: rest => place? (.object fields) rest
  | _ => none

/-- Takes one lexeme. -/
def ReaderState.step? (state : ReaderState) (lexeme : Lexeme) : Option ReaderState :=
  match state.expected, lexeme with
  | .value _, .scalar v => place? v state.stack
  | .value _, .openArray => open? (.array []) (.value true) state.stack
  | .value _, .openObject => open? (.object []) (.key true) state.stack
  | .value true, .closeArray => closeArray? state.stack
  | .key _, .scalar (.string key) =>
    match state.stack with
    | .object fields :: rest => some ⟨.entry fields key :: rest, .colon⟩
    | _ => none
  | .key true, .closeObject => closeObject? state.stack
  | .colon, .colon => some ⟨state.stack, .value false⟩
  | .commaOrClose, .comma =>
    match state.stack with
    | .array _ :: _ => some ⟨state.stack, .value false⟩
    | .object _ :: _ => some ⟨state.stack, .key false⟩
    | _ => none
  | .commaOrClose, .closeArray => closeArray? state.stack
  | .commaOrClose, .closeObject => closeObject? state.stack
  | _, _ => none

/-- Reads a text that holds one JSON value. -/
def read? (source : String) : Option Json :=
  let cs := source.toList
  (lexemes? cs.length [] cs).bind fun ls =>
    (ls.foldlM ReaderState.step? ⟨[], .value false⟩).bind fun state =>
      match state.expected with
      | .nothing result => some result
      | _ => none

end Json

end GraphQL
