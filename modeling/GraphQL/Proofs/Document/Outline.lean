import GraphQL.Document.Basic

/-!
# Spans within spans

The parts of a document that have a span form a tree (`Document.outline`): literals and types have none, so the names inside
them belong to the part around them.  `SpanTree.LaidOut a trees b` says that trees lie one after the other between two offsets,
and that the same holds inside of each.  Then a span covers all that lies inside it, and neighbours do not overlap.
-/

namespace GraphQL

/-- A span, and the parts inside it in their order. -/
inductive SpanTree where
  | node (span : Span) (parts : List SpanTree)

namespace SpanTree

/-- The span of the whole. -/
def span : SpanTree → Span
  | node span _ => span

/-- The parts right inside. -/
def parts : SpanTree → List SpanTree
  | node _ parts => parts

mutual

/-- A tree and all trees inside it. -/
def nodes : SpanTree → List SpanTree
  | node span parts => node span parts :: nodesOf parts

/-- Some trees and all trees inside them. -/
def nodesOf : List SpanTree → List SpanTree
  | [] => []
  | t :: rest => nodes t ++ nodesOf rest

end

/-- All that lies inside a tree, at any depth, has its span inside the span of the tree, and neighbours follow each other
without overlap. -/
structure Nests (t : SpanTree) : Prop where
  inside : ∀ u ∈ nodesOf t.parts, t.span.start ≤ u.span.start ∧ u.span.stop ≤ t.span.stop
  ordered : t.parts.Pairwise fun u v => u.span.stop ≤ v.span.start

end SpanTree

/-! ### Outlines of documents -/

/-- A name, which has nothing inside it. -/
def Name.outline (n : Name) : SpanTree := .node n.span []

/-- A type has the name in it. -/
def TypeNode.outline (t : TypeNode) : SpanTree := t.innermost.outline

namespace Literal

mutual

/-- A literal has the variable, or the names of fields and what is in their values. -/
def outlines : Literal → List SpanTree
  | .variable name => [name.outline]
  | .list items => itemOutlines items
  | .object fields => fieldOutlines fields
  | _ => []

/-- What is in the items of a list. -/
def itemOutlines : List Literal → List SpanTree
  | [] => []
  | item :: rest => outlines item ++ itemOutlines rest

/-- The names of fields, each with what is in its value. -/
def fieldOutlines : List (Name × Literal) → List SpanTree
  | [] => []
  | (name, value) :: rest => name.outline :: (outlines value ++ fieldOutlines rest)

end

end Literal

/-- An argument has a name and what is in its value. -/
def Argument.outline (a : Argument) : SpanTree := .node a.span (a.name.outline :: a.value.outlines)

/-- A directive has a name and arguments. -/
def Directive.outline (d : Directive) : SpanTree := .node d.span (d.name.outline :: d.arguments.map Argument.outline)

namespace Selection

mutual

/-- A field has its alias, its name, its arguments and directives and the set of selections below it; other selections have
the name of a fragment or type, directives, and perhaps a set of selections. -/
def outline : Selection → SpanTree
  | .field ⟨aliasName, name, arguments, directives, set, span, _⟩ =>
    .node span (aliasName.toList.map Name.outline ++ (name.outline :: (arguments.map Argument.outline ++
      (directives.map Directive.outline ++ optionOutlines set))))
  | .spread ⟨name, directives, span⟩ => .node span (name.outline :: directives.map Directive.outline)
  | .inline ⟨condition, directives, set, span⟩ =>
    .node span (condition.toList.map Name.outline ++ (directives.map Directive.outline ++ [setOutline set]))

/-- A set of selections has the selections. -/
def setOutline : SelectionSetOf Selection → SpanTree
  | ⟨selections, span⟩ => .node span (listOutlines selections)

/-- The set of selections, if there is one. -/
def optionOutlines : Option (SelectionSetOf Selection) → List SpanTree
  | some set => [setOutline set]
  | none => []

/-- Selections in their order. -/
def listOutlines : List Selection → List SpanTree
  | [] => []
  | selection :: rest => outline selection :: listOutlines rest

end

end Selection

/-- A set of selections has the selections. -/
def SelectionSet.outline (set : SelectionSet) : SpanTree := Selection.setOutline set

/-- A variable has a name, a type, what is in its default, and directives. -/
def VariableDefinition.outline (v : VariableDefinition) : SpanTree :=
  .node v.span (v.name.outline :: v.type.outline :: ((v.default.elim [] Literal.outlines) ++
    v.directives.map Directive.outline))

/-- An operation has a name if it is written, variables, directives, and a set of selections. -/
def Operation.outline (o : Operation) : SpanTree :=
  .node o.span (o.name.toList.map Name.outline ++ (o.variableDefs.map VariableDefinition.outline ++
    (o.directives.map Directive.outline ++ [SelectionSet.outline o.selectionSet])))

/-- A fragment has its name and that of a type, directives, and a set of selections. -/
def Fragment.outline (f : Fragment) : SpanTree :=
  .node f.span (f.name.outline :: f.typeCondition.outline :: (f.directives.map Directive.outline ++
    [SelectionSet.outline f.selectionSet]))

/-- An operation or a fragment. -/
def Definition.outline : Definition → SpanTree
  | .operation o => o.outline
  | .fragment f => f.outline

/-- A document has its definitions. -/
def Document.outline (d : Document) : SpanTree := .node d.span (d.definitions.map Definition.outline)

/-! ### Trees between offsets -/

namespace SpanTree

/-- Trees lie one after the other between two offsets, and the same holds inside of each. -/
inductive LaidOut : Nat → List SpanTree → Nat → Prop
  | nil {a b : Nat} (h : a ≤ b) : LaidOut a [] b
  | cons {a b : Nat} {span : Span} {parts rest : List SpanTree} (start : a ≤ span.start)
      (inner : LaidOut span.start parts span.stop) (tail : LaidOut span.stop rest b) : LaidOut a (node span parts :: rest) b

namespace LaidOut

variable {a b m : Nat} {ts us parts : List SpanTree} {t : SpanTree}

theorem le (h : LaidOut a ts b) : a ≤ b := by
  induction h with
  | nil h => exact h
  | cons start _ _ ihinner ihtail => omega

theorem from_le {a' : Nat} (h : LaidOut a ts b) (ha : a' ≤ a) : LaidOut a' ts b := by
  cases h with
  | nil h => exact .nil (Nat.le_trans ha h)
  | cons start inner tail => exact .cons (Nat.le_trans ha start) inner tail

theorem to_le {b' : Nat} (h : LaidOut a ts b) (hb : b ≤ b') : LaidOut a ts b' := by
  induction h with
  | nil h => exact .nil (Nat.le_trans h hb)
  | cons start inner _ _ ihtail => exact .cons start inner (ihtail hb)

theorem append (h : LaidOut a ts m) (h' : LaidOut m us b) : LaidOut a (ts ++ us) b := by
  induction h with
  | nil h => exact h'.from_le h
  | cons start inner _ _ ihtail => exact .cons start inner (ihtail h')

theorem head (h : LaidOut a [t] m) (h' : LaidOut m ts b) : LaidOut a (t :: ts) b := h.append h'

/-- What lies between two offsets lies inside the span between them. -/
theorem node (h : LaidOut a parts b) : LaidOut a [.node ⟨a, b⟩ parts] b := .cons (Nat.le_refl a) h (.nil (Nat.le_refl b))

/-- Every span that lies between two offsets, at any depth, starts before it stops. -/
theorem bounds (h : LaidOut a ts b) : ∀ t ∈ nodesOf ts, a ≤ t.span.start ∧ t.span.start ≤ t.span.stop ∧ t.span.stop ≤ b := by
  induction h with
  | nil => exact fun t ht => absurd ht List.not_mem_nil
  | @cons a b span parts rest start inner tail ihinner ihtail =>
    intro t ht
    have hinner := inner.le
    have htail := tail.le
    rw [nodesOf, nodes] at ht
    rcases List.mem_append.1 ht with ht | ht
    · rcases List.mem_cons.1 ht with rfl | ht
      · exact ⟨start, hinner, htail⟩
      · obtain ⟨hstart, hle, hstop⟩ := ihinner t ht
        exact ⟨Nat.le_trans start hstart, hle, Nat.le_trans hstop htail⟩
    · obtain ⟨hstart, hle, hstop⟩ := ihtail t ht
      exact ⟨Nat.le_trans (Nat.le_trans start hinner) hstart, hle, hstop⟩

/-- Inside of every span the same holds. -/
theorem inner (h : LaidOut a ts b) : ∀ t ∈ nodesOf ts, LaidOut t.span.start t.parts t.span.stop := by
  induction h with
  | nil => exact fun t ht => absurd ht List.not_mem_nil
  | @cons a b span parts rest start inner tail ihinner ihtail =>
    intro t ht
    rw [nodesOf, nodes] at ht
    rcases List.mem_append.1 ht with ht | ht
    · rcases List.mem_cons.1 ht with rfl | ht
      · exact inner
      · exact ihinner t ht
    · exact ihtail t ht

theorem mem_nodesOf (h : t ∈ ts) : t ∈ nodesOf ts := by
  induction ts with
  | nil => exact absurd h List.not_mem_nil
  | cons u rest ih =>
    rw [nodesOf]
    rcases List.mem_cons.1 h with rfl | h
    · refine List.mem_append_left _ ?_
      cases t
      rw [nodes]
      exact List.mem_cons_self
    · exact List.mem_append_right _ (ih h)

theorem ordered (h : LaidOut a ts b) : ts.Pairwise fun t u => t.span.stop ≤ u.span.start := by
  induction h with
  | nil => exact .nil
  | cons _ _ tail _ ihtail => exact .cons (fun u hu => (tail.bounds u (mem_nodesOf hu)).1) ihtail

/-- Whatever lies between two offsets nests. -/
theorem nests (h : LaidOut a ts b) (ht : t ∈ nodesOf ts) : t.Nests := by
  have hinner := h.inner t ht
  refine ⟨fun u hu => ?_, hinner.ordered⟩
  obtain ⟨hstart, -, hstop⟩ := hinner.bounds u hu
  exact ⟨hstart, hstop⟩

end LaidOut

end SpanTree

end GraphQL
