import TypeInference.Proofs.TypeNames
import TypeInference.Tree.Decode
import TypeInference.Tree.Desugar

/-! # Trees with all their parts

A tree is intact if it has its parts, except for those that may be left out. Modules that are read from a document are
intact (`Decode.module_intact`). Nothing stops copying in such a tree, and the copy is the tree with its slots empty
(`Expr.copy_eq`). -/

namespace TypeInference

open List

variable {e : Expr} {rs : Replacements} {message : String} {α : Type}

/-! ### Intact trees -/

mutual
/-- The expression has its parts; `operators` tells whether operators may be among them. -/
def Expr.Intact (operators : Bool) : Expr → Prop
  | .missing => False
  | .func ⟨_, _, sign, body, _, _, _, _⟩ => (∀ s ∈ sign, s.Intact) ∧ (body = .missing ∨ body.Intact operators)
  | .cond _ _ _ condition thenBranch elseBranch =>
    condition.Intact operators ∧ thenBranch.Intact operators ∧ elseBranch.Intact operators
  | .matching _ subject cases => subject.Intact operators ∧ MatchCase.AllIntact operators cases
  | .binary _ _ left right => operators = true ∧ left.Intact operators ∧ right.Intact operators
  | .unary _ _ operand => operators = true ∧ operand.Intact operators
  | .call _ callee args => callee.Intact operators ∧ Labelled.AllIntact operators args
  | .argument ⟨_, _, value⟩ => value.Intact operators
  | .tuple _ _ elems => Labelled.AllIntact operators elems
  | .element ⟨_, _, value⟩ => value.Intact operators
  | .select _ owner _ => owner.Intact operators
  | .letBinding _ | .ident _ | .literal _ _ => True
def Labelled.AllIntact (operators : Bool) : List (Option Labelled) → Prop
  | [] => True
  | none :: _ => False
  | some ⟨_, _, value⟩ :: rest => value.Intact operators ∧ Labelled.AllIntact operators rest
def MatchCase.Intact (operators : Bool) : MatchCase → Prop
  | ⟨_, pattern, value, _⟩ => pattern.Intact operators ∧ value.Intact operators
def MatchCase.AllIntact (operators : Bool) : List (Option MatchCase) → Prop
  | [] => True
  | none :: _ => False
  | some c :: rest => c.Intact operators ∧ MatchCase.AllIntact operators rest
end

/-- A statement is an intact expression or a type alias with an intact signature. -/
def Node.Intact (operators : Bool) : Node → Prop
  | .alias a => a.sign.Intact
  | .expr e => e.Intact operators
  | _ => False

def Module.Intact (operators : Bool) (m : Module) : Prop := ∀ n ∈ m.statements, n.Intact operators

section

variable {operators : Bool}

theorem Expr.Intact.ne_missing (h : e.Intact operators) : e ≠ .missing := by
  rintro rfl
  exact h

theorem Expr.mark?_eq_some (h : e ≠ .missing) : ∃ mark, e.mark? = some mark := by
  cases e with
  | missing => exact absurd rfl h
  | _ => exact ⟨_, rfl⟩

/-! ### Copies -/

/-- The identifier with nothing found out about it. -/
def Ident.unbound (i : Ident) : Ident := { mark := { token := i.mark.token }, name := i.name }

mutual
/-- The same expression with no type and no scope, symbol or candidate found for any part of it. -/
def Expr.unbound : Expr → Expr
  | .missing => .missing
  | .func ⟨mark, name, sign, body, _, _, _, _⟩ =>
    .func { mark := { token := mark.token }, name := name, sign := sign.map (FuncSign.mapNames TypeName.blank),
            body := body.unbound }
  | .cond mark _ _ condition thenBranch elseBranch =>
    .cond { token := mark.token } noScope noScope condition.unbound thenBranch.unbound elseBranch.unbound
  | .matching mark subject cases => .matching { token := mark.token } subject.unbound (MatchCase.unboundAll cases)
  | .letBinding b => .letBinding { mark := { token := b.mark.token }, name := b.name }
  | .binary mark op left right => .binary { token := mark.token } op.unbound left.unbound right.unbound
  | .unary mark op operand => .unary { token := mark.token } op.unbound operand.unbound
  | .call mark callee args => .call { token := mark.token } callee.unbound (Labelled.unboundAll args)
  | .argument ⟨mark, label, value⟩ => .argument ⟨{ token := mark.token }, label, value.unbound⟩
  | .tuple mark label elems => .tuple { token := mark.token } label (Labelled.unboundAll elems)
  | .element ⟨mark, label, value⟩ => .element ⟨{ token := mark.token }, label, value.unbound⟩
  | .select mark owner member => .select { token := mark.token } owner.unbound member
  | .ident i => .ident i.unbound
  | .literal mark value => .literal { token := mark.token } value
def Labelled.unboundAll : List (Option Labelled) → List (Option Labelled)
  | [] => []
  | none :: rest => none :: Labelled.unboundAll rest
  | some ⟨mark, label, value⟩ :: rest =>
    some ⟨{ token := mark.token }, label, value.unbound⟩ :: Labelled.unboundAll rest
def MatchCase.unboundAll : List (Option MatchCase) → List (Option MatchCase)
  | [] => []
  | none :: rest => none :: MatchCase.unboundAll rest
  | some ⟨token, pattern, value, _⟩ :: rest =>
    some { token := token, pattern := pattern.unbound, value := value.unbound } :: MatchCase.unboundAll rest
end

mutual
theorem Expr.blank_eq : ∀ e : Expr, e.Intact operators → e.blank = .ok e.unbound
  | .missing, h => h.elim
  | .func ⟨_, _, sign, body, _, _, _, _⟩, ⟨hsign, hbody⟩ => by
    have hbody' : body.blank = .ok body.unbound := by
      rcases hbody with rfl | hbody
      · rfl
      · exact body.blank_eq hbody
    cases sign with
    | none =>
      rw [Expr.blank, hbody']
      rfl
    | some s =>
      rw [Expr.blank, s.blank_comes.comes (hsign s rfl), hbody']
      rfl
  | .cond _ _ _ condition thenBranch elseBranch, ⟨hcondition, hthen, helse⟩ => by
    rw [Expr.blank, condition.blank_eq hcondition, thenBranch.blank_eq hthen, elseBranch.blank_eq helse]
    rfl
  | .matching _ subject cases, ⟨hsubject, hcases⟩ => by
    rw [Expr.blank, subject.blank_eq hsubject, MatchCase.blankAll_eq cases hcases]
    rfl
  | .letBinding _, _ => rfl
  | .binary _ _ left right, ⟨_, hleft, hright⟩ => by
    rw [Expr.blank, left.blank_eq hleft, right.blank_eq hright]
    rfl
  | .unary _ _ operand, ⟨_, hoperand⟩ => by
    rw [Expr.blank, operand.blank_eq hoperand]
    rfl
  | .call _ callee args, ⟨hcallee, hargs⟩ => by
    rw [Expr.blank, callee.blank_eq hcallee, Labelled.blankAll_eq args hargs]
    rfl
  | .argument ⟨_, _, value⟩, h => by
    rw [Expr.blank, value.blank_eq h]
    rfl
  | .tuple _ _ elems, h => by
    rw [Expr.blank, Labelled.blankAll_eq elems h]
    rfl
  | .element ⟨_, _, value⟩, h => by
    rw [Expr.blank, value.blank_eq h]
    rfl
  | .select _ owner _, h => by
    rw [Expr.blank, owner.blank_eq h]
    rfl
  | .ident _, _ => rfl
  | .literal _ _, _ => rfl
theorem Labelled.blankAll_eq : ∀ xs : List (Option Labelled), Labelled.AllIntact operators xs →
    Labelled.blankAll xs = .ok (Labelled.unboundAll xs)
  | [], _ => rfl
  | none :: _, h => h.elim
  | some ⟨_, _, value⟩ :: rest, ⟨hvalue, hrest⟩ => by
    rw [Labelled.blankAll, value.blank_eq hvalue, Labelled.blankAll_eq rest hrest]
    rfl
theorem MatchCase.blankAll_eq : ∀ xs : List (Option MatchCase), MatchCase.AllIntact operators xs →
    MatchCase.blankAll xs = .ok (MatchCase.unboundAll xs)
  | [], _ => rfl
  | none :: _, h => h.elim
  | some ⟨_, pattern, value, _⟩ :: rest, ⟨⟨hpattern, hvalue⟩, hrest⟩ => by
    rw [MatchCase.blankAll, MatchCase.blank, pattern.blank_eq hpattern, value.blank_eq hvalue,
      MatchCase.blankAll_eq rest hrest]
    rfl
end

/-- An intact expression has a copy: itself, with all its slots empty. -/
theorem Expr.copy_eq (h : e.Intact operators) : e.copy = .ok e.unbound := by
  cases e with
  | missing => exact h.elim
  | _ => exact Expr.blank_eq _ h

mutual
theorem Expr.unbound_intact : ∀ e : Expr, e.Intact operators → e.unbound.Intact operators
  | .missing, h => h
  | .func ⟨_, _, sign, body, _, _, _, _⟩, ⟨hsign, hbody⟩ => by
    refine ⟨fun s' hs' => ?_, ?_⟩
    · obtain ⟨s, hs, rfl⟩ := Option.map_eq_some_iff.mp hs'
      exact s.intact_mapNames.mpr (hsign s hs)
    · rcases hbody with rfl | hbody
      · exact .inl rfl
      · exact .inr (body.unbound_intact hbody)
  | .cond _ _ _ condition thenBranch elseBranch, ⟨hcondition, hthen, helse⟩ =>
    ⟨condition.unbound_intact hcondition, thenBranch.unbound_intact hthen, elseBranch.unbound_intact helse⟩
  | .matching _ subject cases, ⟨hsubject, hcases⟩ =>
    ⟨subject.unbound_intact hsubject, MatchCase.unboundAll_intact cases hcases⟩
  | .letBinding _, _ => trivial
  | .binary _ _ left right, ⟨hoperators, hleft, hright⟩ =>
    ⟨hoperators, left.unbound_intact hleft, right.unbound_intact hright⟩
  | .unary _ _ operand, ⟨hoperators, hoperand⟩ => ⟨hoperators, operand.unbound_intact hoperand⟩
  | .call _ callee args, ⟨hcallee, hargs⟩ => ⟨callee.unbound_intact hcallee, Labelled.unboundAll_intact args hargs⟩
  | .argument ⟨_, _, value⟩, h => value.unbound_intact h
  | .tuple _ _ elems, h => Labelled.unboundAll_intact elems h
  | .element ⟨_, _, value⟩, h => value.unbound_intact h
  | .select _ owner _, h => owner.unbound_intact h
  | .ident _, _ => trivial
  | .literal _ _, _ => trivial
theorem Labelled.unboundAll_intact : ∀ xs : List (Option Labelled), Labelled.AllIntact operators xs →
    Labelled.AllIntact operators (Labelled.unboundAll xs)
  | [], _ => trivial
  | none :: _, h => h.elim
  | some ⟨_, _, value⟩ :: rest, ⟨hvalue, hrest⟩ => ⟨value.unbound_intact hvalue, Labelled.unboundAll_intact rest hrest⟩
theorem MatchCase.unboundAll_intact : ∀ xs : List (Option MatchCase), MatchCase.AllIntact operators xs →
    MatchCase.AllIntact operators (MatchCase.unboundAll xs)
  | [], _ => trivial
  | none :: _, h => h.elim
  | some ⟨_, pattern, value, _⟩ :: rest, ⟨⟨hpattern, hvalue⟩, hrest⟩ =>
    ⟨⟨pattern.unbound_intact hpattern, value.unbound_intact hvalue⟩, MatchCase.unboundAll_intact rest hrest⟩
end

end

end TypeInference
