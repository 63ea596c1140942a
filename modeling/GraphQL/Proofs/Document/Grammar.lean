import GraphQL.Document.Basic
import GraphQL.Document.StringLiteral
import GraphQL.Document.Token
import GraphQL.Number.Decimal

/-!
# The grammar of documents

`Spelled ts x ts'` says that the tokens `ts` begin with tokens that spell `x`, and go on with `ts'`.  There is one such
relation for each part of a document, and one rule for each way to write it.  A part reaches from the start of its first
token to the start of the token after it.

A token that is a value by itself spells it by its text (`Token.Spells`): an integer its sign and decimal digits, a number
with a fraction or an exponent the double nearest to it, a name a constant or an enum value.  `Token.Valid` says what is
asked of tokens wherever they stand.
-/

namespace GraphQL

/-- Tokens, what they begin with, and the tokens after it. -/
abbrev Spelling (α : Type) := List Token → α → List Token → Prop

namespace Grammar

/-- The kind of the first token. -/
def kindOf : List Token → TokenKind
  | [] => .endOfFile
  | t :: _ => t.kind

/-- Where the first token starts. -/
def startOf : List Token → Nat
  | [] => 0
  | t :: _ => t.span.start

/-- The span of what stands before other tokens. -/
def spanTo (ts ts' : List Token) : Span := ⟨startOf ts, startOf ts'⟩

/-- A punctuator. -/
inductive Sign (p : Punctuator) : List Token → List Token → Prop
  | mk {t ts} (h : t.kind = .punctuator p) : Sign p (t :: ts) ts

/-- A name with a text. -/
inductive Keyword (word : String) : List Token → List Token → Prop
  | mk {t ts} (hkind : t.kind = .name) (htext : t.text = word) : Keyword word (t :: ts) ts

/-- Any number of parts. -/
inductive Many {α : Type} (R : Spelling α) : Spelling (List α)
  | nil {ts} : Many R ts [] ts
  | cons {ts x ts₁ xs ts'} (head : R ts x ts₁) (tail : Many R ts₁ xs ts') : Many R ts (x :: xs) ts'

/-- A part or none. -/
inductive Optional {α : Type} (R : Spelling α) : Spelling (Option α)
  | none {ts} : Optional R ts none ts
  | some {ts x ts'} (h : R ts x ts') : Optional R ts (some x) ts'

/-- A part between punctuators. -/
inductive Enclosed {α : Type} (left right : Punctuator) (R : Spelling α) : Spelling α
  | mk {ts ts₁ x ts₂ ts'} (hleft : Sign left ts ts₁) (h : R ts₁ x ts₂) (hright : Sign right ts₂ ts') :
      Enclosed left right R ts x ts'

end Grammar

open Grammar

/-- A name is a name token. -/
inductive Name.Spelled : Spelling Name
  | mk {t ts} (h : t.kind = .name) : Name.Spelled (t :: ts) ⟨t.text, t.span⟩ ts

mutual

/-- A type: a name or a list, with or without an exclamation mark. -/
inductive TypeNode.Spelled : Spelling TypeNode
  | nullable {ts core ts'} (h : TypeNode.CoreSpelled ts core ts') : TypeNode.Spelled ts core ts'
  | nonNull {ts core ts₁ ts'} (h : TypeNode.CoreSpelled ts core ts₁) (hbang : Sign .bang ts₁ ts') :
      TypeNode.Spelled ts (.nonNull core) ts'

/-- A type up to its exclamation mark. -/
inductive TypeNode.CoreSpelled : Spelling TypeNode
  | named {ts name ts'} (h : Name.Spelled ts name ts') : TypeNode.CoreSpelled ts (.named name) ts'
  | list {ts item ts'} (h : Enclosed .openBracket .closeBracket TypeNode.Spelled ts item ts') :
      TypeNode.CoreSpelled ts (.list item) ts'

end

/-! ### Numbers -/

namespace Grammar

/-- A decimal digit with its value. -/
def IsDigit (c : Char) (d : Nat) : Prop := "0123456789".toList[d]? = some c

/-- Decimal digits with the number that they are: each counts ten times as much as the one after it. -/
inductive Digits : List Char → Nat → Prop
  | single {c d} (h : IsDigit c d) : Digits [c] d
  | snoc {ds n c d} (hds : Digits ds n) (h : IsDigit c d) : Digits (ds ++ [c]) (10 * n + d)

/-- An integer: digits, with a minus in front if it is negative. -/
inductive Integer : List Char → Int → Prop
  | positive {ds n} (h : Digits ds n) : Integer ds n
  | negative {ds n} (h : Digits ds n) : Integer ('-' :: ds) (-n)

/-- A fraction with its digits, or none. -/
inductive Fraction : List Char → List Char → Prop
  | none : Fraction [] []
  | some {ds} (h : ds ≠ []) : Fraction ('.' :: ds) ds

/-- An exponent: a mark, a sign or none, and digits.  Without one it is zero. -/
inductive Exponent : List Char → Int → Prop
  | none : Exponent [] 0
  | unsigned {e ds n} (he : e = 'e' ∨ e = 'E') (h : Digits ds n) : Exponent (e :: ds) n
  | positive {e ds n} (he : e = 'e' ∨ e = 'E') (h : Digits ds n) : Exponent (e :: '+' :: ds) n
  | negative {e ds n} (he : e = 'e' ∨ e = 'E') (h : Digits ds n) : Exponent (e :: '-' :: ds) (-n)

/-- A decimal number without a sign is `digits · 10 ^ exponent`. -/
inductive Unsigned : List Char → (digits : Nat) → (exponent : Int) → Prop
  | mk {whole point fraction mark digits exponent} (hwhole : whole ≠ []) (hfraction : Fraction point fraction)
      (hdigits : Digits (whole ++ fraction) digits) (hexponent : Exponent mark exponent) :
      Unsigned (whole ++ point ++ mark) digits (exponent - fraction.length)

/-- A decimal number, with a minus in front if it is negative. -/
inductive Numeral : List Char → (negative : Bool) → (digits : Nat) → (exponent : Int) → Prop
  | positive {cs digits exponent} (h : Unsigned cs digits exponent) : Numeral cs false digits exponent
  | negative {cs digits exponent} (h : Unsigned cs digits exponent) : Numeral ('-' :: cs) true digits exponent

/-- The names that are values of their own. -/
def constants : List (String × Literal) := [("true", .bool true), ("false", .bool false), ("null", .null)]

end Grammar

/-! ### Values -/

namespace Token

/-- A token that is a value by itself. -/
inductive Spells : Token → Literal → Prop
  | int {t i} (hkind : t.kind = .int) (h : Integer t.text.toList i) : Spells t (.int i)
  | float {t negative digits exponent} (hkind : t.kind = .float) (h : Numeral t.text.toList negative digits exponent) :
      Spells t (.float (.ofDecimal negative digits exponent))
  | string {t v} (hkind : t.kind = .string) (h : stringValue? t.text = some v) : Spells t (.string v)
  | blockString {t} (hkind : t.kind = .blockString) : Spells t (.string (blockStringValue t.text))
  | constant {t v} (hkind : t.kind = .name) (h : (t.text, v) ∈ constants) : Spells t v
  | enumValue {t} (hkind : t.kind = .name) (h : t.text ∉ constants.map Prod.fst) : Spells t (.enumValue t.text)

/-- There is nothing to report about the token: it is no error, an integer is one of 64 bits with a sign, and a string has
valid escapes. -/
structure Valid (t : Token) : Prop where
  ne_error : t.kind ≠ .error
  int : t.kind = .int → ∃ i, Integer t.text.toList i ∧ -9223372036854775808 ≤ i ∧ i ≤ 9223372036854775807
  string : t.kind = .string → (stringValue? t.text).isSome = true

end Token

mutual

/-- A value; variables are values only where these need not be constant. -/
inductive Literal.Spelled (isConst : Bool) : Spelling Literal
  | var {ts ts₁ name ts'} (hconst : isConst = false) (hdollar : Sign .dollar ts ts₁)
      (h : Name.Spelled ts₁ name ts') : Literal.Spelled isConst ts (.variable name) ts'
  | token {t v ts} (h : t.Spells v) : Literal.Spelled isConst (t :: ts) v ts
  | list {ts items ts'} (h : Enclosed .openBracket .closeBracket (Many (Literal.Spelled isConst)) ts items ts') :
      Literal.Spelled isConst ts (.list items) ts'
  | object {ts fields ts'} (h : Enclosed .openBrace .closeBrace (Many (Literal.FieldSpelled isConst)) ts fields ts') :
      Literal.Spelled isConst ts (.object fields) ts'

/-- A value with its name. -/
inductive Literal.FieldSpelled (isConst : Bool) : Spelling (Name × Literal)
  | mk {ts name ts₁ ts₂ v ts'} (hname : Name.Spelled ts name ts₁) (hcolon : Sign .colon ts₁ ts₂)
      (h : Literal.Spelled isConst ts₂ v ts') : Literal.FieldSpelled isConst ts (name, v) ts'

end

/-- An argument is a value with its name. -/
inductive Argument.Spelled : Spelling Argument
  | mk {ts name v ts'} (h : Literal.FieldSpelled false ts (name, v) ts') :
      Argument.Spelled ts ⟨name, v, spanTo ts ts'⟩ ts'

/-- Arguments stand in parentheses; if there are none, the parentheses are left out. -/
inductive Argument.ListSpelled : Spelling (List Argument)
  | none {ts} : Argument.ListSpelled ts [] ts
  | some {ts args ts'} (h : Enclosed .openParen .closeParen (Many Argument.Spelled) ts args ts') (hne : args ≠ []) :
      Argument.ListSpelled ts args ts'

/-- A directive. -/
inductive Directive.Spelled : Spelling Directive
  | mk {ts ts₁ name ts₂ args ts'} (hat : Sign .atSign ts ts₁) (hname : Name.Spelled ts₁ name ts₂)
      (hargs : Argument.ListSpelled ts₂ args ts') : Directive.Spelled ts ⟨name, args, spanTo ts ts'⟩ ts'

variable (lines : LineIndex)

mutual

/-- A selection set has at least one selection. -/
inductive SelectionSet.Spelled : Spelling SelectionSet
  | mk {ts selections ts'} (h : Enclosed .openBrace .closeBrace (Many Selection.Spelled) ts selections ts')
      (hne : selections ≠ []) : SelectionSet.Spelled ts ⟨selections, spanTo ts ts'⟩ ts'

/-- A selection. -/
inductive Selection.Spelled : Spelling Selection
  | field {ts name ts₁ args ts₂ ds ts₃ set ts'} (hname : Name.Spelled ts name ts₁)
      (hargs : Argument.ListSpelled ts₁ args ts₂) (hds : Many Directive.Spelled ts₂ ds ts₃)
      (hset : Optional SelectionSet.Spelled ts₃ set ts') :
      Selection.Spelled ts
        (.field ⟨none, name, args, ds, set, spanTo ts ts', lines.location (startOf ts)⟩) ts'
  | aliased {ts aliasName ts₀ ts₁ name ts₂ args ts₃ ds ts₄ set ts'} (halias : Name.Spelled ts aliasName ts₀)
      (hcolon : Sign .colon ts₀ ts₁) (hname : Name.Spelled ts₁ name ts₂) (hargs : Argument.ListSpelled ts₂ args ts₃)
      (hds : Many Directive.Spelled ts₃ ds ts₄) (hset : Optional SelectionSet.Spelled ts₄ set ts') :
      Selection.Spelled ts
        (.field ⟨some aliasName, name, args, ds, set, spanTo ts ts', lines.location (startOf ts)⟩) ts'
  | inlineOn {ts ts₁ ts₂ condition ts₃ ds ts₄ set ts'} (hspread : Sign .spread ts ts₁) (hon : Keyword "on" ts₁ ts₂)
      (hcondition : Name.Spelled ts₂ condition ts₃) (hds : Many Directive.Spelled ts₃ ds ts₄)
      (hset : SelectionSet.Spelled ts₄ set ts') :
      Selection.Spelled ts (.inline ⟨some condition, ds, set, spanTo ts ts'⟩) ts'
  | inline {ts ts₁ ds ts₂ set ts'} (hspread : Sign .spread ts ts₁) (hds : Many Directive.Spelled ts₁ ds ts₂)
      (hset : SelectionSet.Spelled ts₂ set ts') :
      Selection.Spelled ts (.inline ⟨none, ds, set, spanTo ts ts'⟩) ts'
  | spread {ts ts₁ name ts₂ ds ts'} (hspread : Sign .spread ts ts₁) (hname : Name.Spelled ts₁ name ts₂)
      (hon : name.value ≠ "on") (hds : Many Directive.Spelled ts₂ ds ts') :
      Selection.Spelled ts (.spread ⟨name, ds, spanTo ts ts'⟩) ts'

end

/-- The default of a variable is a constant value. -/
inductive VariableDefinition.DefaultSpelled : Spelling Literal
  | mk {ts ts₁ v ts'} (hequals : Sign .equals ts ts₁) (h : Literal.Spelled true ts₁ v ts') :
      VariableDefinition.DefaultSpelled ts v ts'

/-- The declaration of a variable. -/
inductive VariableDefinition.Spelled : Spelling VariableDefinition
  | mk {ts ts₁ name ts₂ ts₃ type ts₄ default ts₅ ds ts'} (hdollar : Sign .dollar ts ts₁)
      (hname : Name.Spelled ts₁ name ts₂) (hcolon : Sign .colon ts₂ ts₃) (htype : TypeNode.Spelled ts₃ type ts₄)
      (hdefault : Optional VariableDefinition.DefaultSpelled ts₄ default ts₅)
      (hds : Many Directive.Spelled ts₅ ds ts') :
      VariableDefinition.Spelled ts ⟨name, type, default, ds, spanTo ts ts', lines.location (startOf ts)⟩ ts'

/-- Declarations of variables stand in parentheses, which may be left out if there are none. -/
inductive VariableDefinition.ListSpelled : Spelling (List VariableDefinition)
  | none {ts} : VariableDefinition.ListSpelled ts [] ts
  | some {ts vs ts'} (h : Enclosed .openParen .closeParen (Many (VariableDefinition.Spelled lines)) ts vs ts') :
      VariableDefinition.ListSpelled ts vs ts'

/-- A definition: a selection set, an operation with its keyword, or a fragment. -/
inductive Definition.Spelled : Spelling Definition
  | query {ts set ts'} (h : SelectionSet.Spelled lines ts set ts') :
      Definition.Spelled ts (.operation ⟨.query, none, [], [], set, spanTo ts ts'⟩) ts'
  | operation {ts kind ts₁ name ts₂ vs ts₃ ds ts₄ set ts'} (hkind : Keyword (OperationKind.text kind) ts ts₁)
      (hname : Optional Name.Spelled ts₁ name ts₂) (hvs : VariableDefinition.ListSpelled lines ts₂ vs ts₃)
      (hds : Many Directive.Spelled ts₃ ds ts₄) (hset : SelectionSet.Spelled lines ts₄ set ts') :
      Definition.Spelled ts (.operation ⟨kind, name, vs, ds, set, spanTo ts ts'⟩) ts'
  | fragment {ts ts₁ name ts₂ ts₃ condition ts₄ ds ts₅ set ts'} (hfragment : Keyword "fragment" ts ts₁)
      (hname : Name.Spelled ts₁ name ts₂) (hne : name.value ≠ "on") (hon : Keyword "on" ts₂ ts₃)
      (hcondition : Name.Spelled ts₃ condition ts₄) (hds : Many Directive.Spelled ts₄ ds ts₅)
      (hset : SelectionSet.Spelled lines ts₅ set ts') :
      Definition.Spelled ts (.fragment ⟨name, condition, ds, set, spanTo ts ts'⟩) ts'

/-- A document has at least one definition, and nothing after the last. -/
inductive Document.Spelled : List Token → Document → Prop
  | mk {ts ds stop} (h : Many (Definition.Spelled lines) ts ds [stop]) (hstop : stop.kind = .endOfFile) (hne : ds ≠ []) :
      Document.Spelled ts ⟨ds, ⟨startOf ts, stop.span.stop⟩⟩

end GraphQL
