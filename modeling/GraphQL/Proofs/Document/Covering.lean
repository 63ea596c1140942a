import GraphQL.Proofs.Document.Grammar

/-!
# What is spelled takes tokens

Whatever is spelled takes tokens from the front, none of which is an error or the end of the file.
-/

namespace GraphQL

open Grammar

/-- A number has the text of one. -/
def Token.Formed (t : Token) : Prop := t.kind = .int ∨ t.kind = .float → ∃ v, t.Spells v

/-- Tokens that are neither errors nor the end of the file, nor numbers without the text of one. -/
structure Token.Proper (t : Token) : Prop where
  ne_end : t.kind ≠ .endOfFile
  ne_error : t.kind ≠ .error
  formed : t.Formed

namespace Token

variable {t : Token}

theorem proper_of_punctuator {p : Punctuator} (h : t.kind = .punctuator p) : t.Proper :=
  ⟨by simp [h], by simp [h], by simp [Formed, h]⟩

theorem proper_of_name (h : t.kind = .name) : t.Proper :=
  ⟨by simp [h], by simp [h], by simp [Formed, h]⟩

theorem Spells.proper {v : Literal} (h : t.Spells v) : t.Proper := by
  have hformed : t.Formed := fun _ => ⟨v, h⟩
  cases h with
  | int hkind | float hkind | string hkind | blockString hkind | constant hkind | enumValue hkind =>
    exact ⟨by simp [hkind], by simp [hkind], hformed⟩

end Token

/-- The tokens go on with others, and all before these have a property. -/
inductive Across (P : Token → Prop) : List Token → List Token → Prop
  | refl {ts} : Across P ts ts
  | step {t ts ts'} (h : P t) (hts : Across P ts ts') : Across P (t :: ts) ts'

namespace Across

variable {P : Token → Prop} {ts ts₁ ts' : List Token}

theorem trans (h : Across P ts ts₁) (h' : Across P ts₁ ts') : Across P ts ts' := by
  induction h with
  | refl => exact h'
  | step ht _ ih => exact .step ht (ih h')

theorem length_le (h : Across P ts ts') : ts'.length ≤ ts.length := by
  induction h with
  | refl => exact Nat.le_refl _
  | step _ _ ih => exact Nat.le_succ_of_le ih

theorem subset (h : Across P ts ts') : ts' ⊆ ts := by
  induction h with
  | refl => exact List.Subset.refl _
  | step _ _ ih => exact List.subset_cons_of_subset _ ih

theorem forall_mem (h : Across P ts ts') (h' : ∀ t ∈ ts', P t) : ∀ t ∈ ts, P t := by
  induction h with
  | refl => exact h'
  | step ht _ ih => exact List.forall_mem_cons.2 ⟨ht, ih h'⟩

end Across

/-- Any number of tokens is taken. -/
abbrev Covers : List Token → List Token → Prop := Across Token.Proper

/-- At least one token is taken. -/
inductive Takes : List Token → List Token → Prop
  | mk {t ts ts'} (h : t.Proper) (hts : Covers ts ts') : Takes (t :: ts) ts'

namespace Takes

variable {ts ts₁ ts' : List Token}

theorem covers (h : Takes ts ts') : Covers ts ts' := by
  cases h with
  | mk h hts => exact .step h hts

theorem trans (h : Takes ts ts₁) (h' : Covers ts₁ ts') : Takes ts ts' := by
  cases h with
  | mk h hts => exact .mk h (hts.trans h')

theorem length_lt (h : Takes ts ts') : ts'.length < ts.length := by
  cases h with
  | mk _ hts => exact Nat.lt_succ_of_le hts.length_le

theorem ne_end (h : Takes ts ts') : kindOf ts ≠ .endOfFile := by
  cases h with
  | mk h _ => exact h.ne_end

end Takes

/-! ### Signs and lists -/

namespace Grammar

variable {ts ts' : List Token} {α : Type} {R : Spelling α}

theorem Sign.takes {p : Punctuator} (h : Sign p ts ts') : Takes ts ts' := by
  cases h with
  | mk h => exact .mk (Token.proper_of_punctuator h) .refl

theorem Sign.kindOf {p : Punctuator} (h : Sign p ts ts') : kindOf ts = .punctuator p := by
  cases h with
  | mk h => exact h

theorem Keyword.takes {word : String} (h : Keyword word ts ts') : Takes ts ts' := by
  cases h with
  | mk h => exact .mk (Token.proper_of_name h) .refl

theorem Keyword.kindOf {word : String} (h : Keyword word ts ts') : kindOf ts = .name := by
  cases h with
  | mk h => exact h

theorem Many.covers {xs : List α} (h : Many R ts xs ts') (hR : ∀ {ts x ts'}, R ts x ts' → Takes ts ts') :
    Covers ts ts' := by
  induction h with
  | nil => exact .refl
  | cons head _ ih => exact (hR head).covers.trans ih

theorem Optional.covers {x : Option α} (h : Optional R ts x ts') (hR : ∀ {ts x ts'}, R ts x ts' → Takes ts ts') :
    Covers ts ts' := by
  cases h with
  | none => exact .refl
  | some h => exact (hR h).covers

theorem Enclosed.takes {left right : Punctuator} {x : α} (h : Enclosed left right R ts x ts')
    (hR : ∀ {ts x ts'}, R ts x ts' → Covers ts ts') : Takes ts ts' := by
  cases h with
  | mk hleft h hright => exact hleft.takes.trans ((hR h).trans hright.takes.covers)

end Grammar

theorem Name.Spelled.takes {ts ts' : List Token} {name : Name} (h : Name.Spelled ts name ts') : Takes ts ts' := by
  cases h with
  | mk h => exact .mk (Token.proper_of_name h) .refl

theorem Name.Spelled.kindOf {ts ts' : List Token} {name : Name} (h : Name.Spelled ts name ts') : kindOf ts = .name := by
  cases h with
  | mk h => exact h

/-! ### Types and values -/

mutual

theorem TypeNode.Spelled.takes {ts ts' : List Token} {type : TypeNode} :
    TypeNode.Spelled ts type ts' → Takes ts ts'
  | .nullable h => h.takes
  | .nonNull h hbang => h.takes.trans hbang.takes.covers

theorem TypeNode.CoreSpelled.takes {ts ts' : List Token} {core : TypeNode} :
    TypeNode.CoreSpelled ts core ts' → Takes ts ts'
  | .named h => h.takes
  | .list (.mk hopen h hclose) => hopen.takes.trans (h.takes.covers.trans hclose.takes.covers)

end

mutual

theorem Literal.Spelled.takes {isConst : Bool} {ts ts' : List Token} {v : Literal} :
    Literal.Spelled isConst ts v ts' → Takes ts ts'
  | .var _ hdollar h => hdollar.takes.trans h.takes.covers
  | .token h => .mk h.proper .refl
  | .list (.mk hopen h hclose) => hopen.takes.trans ((Literal.covers_items h).trans hclose.takes.covers)
  | .object (.mk hopen h hclose) => hopen.takes.trans ((Literal.covers_fields h).trans hclose.takes.covers)

theorem Literal.FieldSpelled.takes {isConst : Bool} {ts ts' : List Token} {field : Name × Literal} :
    Literal.FieldSpelled isConst ts field ts' → Takes ts ts'
  | .mk hname hcolon h => hname.takes.trans (hcolon.takes.covers.trans h.takes.covers)

theorem Literal.covers_items {isConst : Bool} {ts ts' : List Token} {items : List Literal} :
    Many (Literal.Spelled isConst) ts items ts' → Covers ts ts'
  | .nil => .refl
  | .cons head tail => head.takes.covers.trans (Literal.covers_items tail)

theorem Literal.covers_fields {isConst : Bool} {ts ts' : List Token} {fields : List (Name × Literal)} :
    Many (Literal.FieldSpelled isConst) ts fields ts' → Covers ts ts'
  | .nil => .refl
  | .cons head tail => head.takes.covers.trans (Literal.covers_fields tail)

end

/-! ### Arguments and directives -/

section

variable {ts ts' : List Token}

theorem Argument.Spelled.takes {arg : Argument} (h : Argument.Spelled ts arg ts') : Takes ts ts' := by
  cases h with
  | mk h => exact h.takes

theorem Argument.ListSpelled.covers {args : List Argument} (h : Argument.ListSpelled ts args ts') : Covers ts ts' := by
  cases h with
  | none => exact .refl
  | some h => exact (h.takes fun h => h.covers Argument.Spelled.takes).covers

theorem Directive.Spelled.takes {d : Directive} (h : Directive.Spelled ts d ts') : Takes ts ts' := by
  cases h with
  | mk hat hname hargs => exact hat.takes.trans (hname.takes.covers.trans hargs.covers)

theorem Directive.covers {ds : List Directive} (h : Many Directive.Spelled ts ds ts') : Covers ts ts' :=
  h.covers Directive.Spelled.takes

end

/-! ### Selections -/

variable {lines : LineIndex}

mutual

theorem SelectionSet.Spelled.takes {ts ts' : List Token} {set : SelectionSet} :
    SelectionSet.Spelled lines ts set ts' → Takes ts ts'
  | .mk (.mk hopen h hclose) _ => hopen.takes.trans ((Selection.covers h).trans hclose.takes.covers)

theorem Selection.Spelled.takes {ts ts' : List Token} {s : Selection} :
    Selection.Spelled lines ts s ts' → Takes ts ts'
  | .field hname hargs hds hset =>
    hname.takes.trans (hargs.covers.trans ((Directive.covers hds).trans (SelectionSet.covers hset)))
  | .aliased halias hcolon hname hargs hds hset =>
    halias.takes.trans (hcolon.takes.covers.trans
      (hname.takes.covers.trans (hargs.covers.trans ((Directive.covers hds).trans (SelectionSet.covers hset)))))
  | .inlineOn hspread hon hcondition hds hset =>
    hspread.takes.trans (hon.takes.covers.trans
      (hcondition.takes.covers.trans ((Directive.covers hds).trans hset.takes.covers)))
  | .inline hspread hds hset => hspread.takes.trans ((Directive.covers hds).trans hset.takes.covers)
  | .spread hspread hname _ hds => hspread.takes.trans (hname.takes.covers.trans (Directive.covers hds))

theorem Selection.covers {ts ts' : List Token} {selections : List Selection} :
    Many (Selection.Spelled lines) ts selections ts' → Covers ts ts'
  | .nil => .refl
  | .cons head tail => head.takes.covers.trans (Selection.covers tail)

theorem SelectionSet.covers {ts ts' : List Token} {set : Option SelectionSet} :
    Optional (SelectionSet.Spelled lines) ts set ts' → Covers ts ts'
  | .none => .refl
  | .some h => h.takes.covers

end

/-! ### Definitions -/

section

variable {ts ts' : List Token}

theorem VariableDefinition.DefaultSpelled.takes {v : Literal} (h : VariableDefinition.DefaultSpelled ts v ts') :
    Takes ts ts' := by
  cases h with
  | mk hequals h => exact hequals.takes.trans h.takes.covers

theorem VariableDefinition.Spelled.takes {v : VariableDefinition} (h : VariableDefinition.Spelled lines ts v ts') :
    Takes ts ts' := by
  cases h with
  | mk hdollar hname hcolon htype hdefault hds =>
    exact hdollar.takes.trans (hname.takes.covers.trans (hcolon.takes.covers.trans (htype.takes.covers.trans
      ((hdefault.covers VariableDefinition.DefaultSpelled.takes).trans (Directive.covers hds)))))

theorem VariableDefinition.ListSpelled.covers {vs : List VariableDefinition}
    (h : VariableDefinition.ListSpelled lines ts vs ts') : Covers ts ts' := by
  cases h with
  | none => exact .refl
  | some h => exact (h.takes fun h => h.covers VariableDefinition.Spelled.takes).covers

theorem Definition.Spelled.takes {d : Definition} (h : Definition.Spelled lines ts d ts') : Takes ts ts' := by
  cases h with
  | query h => exact h.takes
  | operation hkind hname hvs hds hset =>
    exact hkind.takes.trans ((hname.covers Name.Spelled.takes).trans
      (hvs.covers.trans ((Directive.covers hds).trans hset.takes.covers)))
  | fragment hfragment hname _ hon hcondition hds hset =>
    exact hfragment.takes.trans (hname.takes.covers.trans (hon.takes.covers.trans
      (hcondition.takes.covers.trans ((Directive.covers hds).trans hset.takes.covers))))

end

end GraphQL
