import TypeInference.Proofs.Intact

/-! # Operators as calls, written out

Desugaring is compared with a rewriting that cannot fail: an operator becomes a call of its identifier at its anchor,
with the rewritten operands as arguments, in their order and without labels; an identifier becomes what `put` has for
it; and nothing else changes. On intact trees the two are the same (`Expr.desugarWith_eq`), and a tree without operators
is rewritten to itself (`Expr.rewritten_ident`). -/

namespace TypeInference

variable {m : Module} {rs : Replacements}

/-- The anchor of an expression, if it has one. -/
def Expr.anchor (e : Expr) : Token := (e.mark?.map Mark.token).getD {}

/-- An expression as an argument of the call that stands for an operator. -/
def Labelled.operand (e rewritten : Expr) : Option Labelled :=
  some { mark := { token := e.anchor }, label := "", value := rewritten }

mutual
/-- The expression with calls in the place of its operators. -/
def Expr.rewritten (put : Ident → Expr) : Expr → Expr
  | .missing => .missing
  | .func ⟨mark, name, sign, body, scope, inner, symbol, params⟩ =>
    .func ⟨mark, name, sign, body.rewritten put, scope, inner, symbol, params⟩
  | .cond mark thenScope elseScope condition thenBranch elseBranch =>
    .cond mark thenScope elseScope (condition.rewritten put) (thenBranch.rewritten put) (elseBranch.rewritten put)
  | .matching mark subject cases => .matching mark (subject.rewritten put) (MatchCase.rewrittenAll put cases)
  | .letBinding b => .letBinding b
  | .binary mark op left right =>
    .call { token := mark.token } (.ident op)
      [Labelled.operand left (left.rewritten put), Labelled.operand right (right.rewritten put)]
  | .unary mark op operand => .call { token := mark.token } (.ident op)
    [Labelled.operand operand (operand.rewritten put)]
  | .call mark callee args => .call mark (callee.rewritten put) (Labelled.rewrittenAll put args)
  | .argument ⟨mark, label, value⟩ => .argument ⟨mark, label, value.rewritten put⟩
  | .tuple mark label elems => .tuple mark label (Labelled.rewrittenAll put elems)
  | .element ⟨mark, label, value⟩ => .element ⟨mark, label, value.rewritten put⟩
  | .select mark owner member => .select mark (owner.rewritten put) member
  | .ident i => put i
  | .literal mark value => .literal mark value
def Labelled.rewrittenAll (put : Ident → Expr) : List (Option Labelled) → List (Option Labelled)
  | [] => []
  | none :: rest => none :: Labelled.rewrittenAll put rest
  | some ⟨mark, label, value⟩ :: rest => some ⟨mark, label, value.rewritten put⟩ :: Labelled.rewrittenAll put rest
def MatchCase.rewrittenAll (put : Ident → Expr) : List (Option MatchCase) → List (Option MatchCase)
  | [] => []
  | none :: rest => none :: MatchCase.rewrittenAll put rest
  | some ⟨token, pattern, value, inner⟩ :: rest =>
    some ⟨token, pattern.rewritten put, value.rewritten put, inner⟩ :: MatchCase.rewrittenAll put rest
end

/-- What stands in the place of an identifier: its replacement with all slots empty, in which only operators are
rewritten, or the identifier. -/
def Ident.replaced (rs : Replacements) (i : Ident) : Expr :=
  match rs.lookup i.name with
  | some e => e.unbound.rewritten .ident
  | none => .ident i

/-- A statement with calls in the place of its operators. -/
def Node.rewritten (rs : Replacements) : Node → Node
  | .expr e => .expr (e.rewritten (Ident.replaced rs))
  | n => n

/-- A module with calls in the place of its operators. -/
def Module.rewritten (rs : Replacements) (m : Module) :
    Module := { m with statements := m.statements.map (Node.rewritten rs) }

/-! ### Desugaring is rewriting -/

section

variable {operators : Bool}

theorem Expr.Intact.token_eq {e : Expr} (h : e.Intact operators) : e.token = .ok e.anchor := by
  obtain ⟨mark, hmark⟩ := Expr.mark?_eq_some h.ne_missing
  simp only [Expr.token, Expr.anchor, hmark, Option.map_some, Option.getD_some]

section

variable {replace : Ident → Except Fault Expr} {put : Ident → Expr}

mutual
theorem Expr.desugarWith_eq (hreplace : ∀ i, replace i = .ok (put i)) :
    ∀ e : Expr, e.Intact operators → e.desugarWith replace = .ok (e.rewritten put)
  | .missing, h => h.elim
  | .func ⟨_, _, _, body, _, _, _, _⟩, ⟨_, hbody⟩ => by
    have hbody' : body.desugarWith replace = .ok (body.rewritten put) := by
      rcases hbody with rfl | hbody
      · rfl
      · exact body.desugarWith_eq hreplace hbody
    rw [Expr.desugarWith, hbody']
    rfl
  | .cond _ _ _ condition thenBranch elseBranch, ⟨hcondition, hthen, helse⟩ => by
    rw [Expr.desugarWith, condition.desugarWith_eq hreplace hcondition, thenBranch.desugarWith_eq hreplace hthen,
      elseBranch.desugarWith_eq hreplace helse]
    rfl
  | .matching _ subject cases, ⟨hsubject, hcases⟩ => by
    rw [Expr.desugarWith, subject.desugarWith_eq hreplace hsubject, MatchCase.desugarAll_eq hreplace cases hcases]
    rfl
  | .letBinding _, _ => rfl
  | .binary _ _ left right, ⟨_, hleft, hright⟩ => by
    rw [Expr.desugarWith, hleft.token_eq, left.desugarWith_eq hreplace hleft, hright.token_eq,
      right.desugarWith_eq hreplace hright]
    rfl
  | .unary _ _ operand, ⟨_, hoperand⟩ => by
    rw [Expr.desugarWith, hoperand.token_eq, operand.desugarWith_eq hreplace hoperand]
    rfl
  | .call _ callee args, ⟨hcallee, hargs⟩ => by
    rw [Expr.desugarWith, callee.desugarWith_eq hreplace hcallee, Labelled.desugarAll_eq hreplace args hargs]
    rfl
  | .argument ⟨_, _, value⟩, h => by
    rw [Expr.desugarWith, value.desugarWith_eq hreplace h]
    rfl
  | .tuple _ _ elems, h => by
    rw [Expr.desugarWith, Labelled.desugarAll_eq hreplace elems h]
    rfl
  | .element ⟨_, _, value⟩, h => by
    rw [Expr.desugarWith, value.desugarWith_eq hreplace h]
    rfl
  | .select _ owner _, h => by
    rw [Expr.desugarWith, owner.desugarWith_eq hreplace h]
    rfl
  | .ident i, _ => hreplace i
  | .literal _ _, _ => rfl
theorem Labelled.desugarAll_eq (hreplace : ∀ i, replace i = .ok (put i)) :
    ∀ xs : List (Option Labelled), Labelled.AllIntact operators xs →
    Labelled.desugarAll replace xs = .ok (Labelled.rewrittenAll put xs)
  | [], _ => rfl
  | none :: _, h => h.elim
  | some ⟨_, _, value⟩ :: rest, ⟨hvalue, hrest⟩ => by
    rw [Labelled.desugarAll, value.desugarWith_eq hreplace hvalue, Labelled.desugarAll_eq hreplace rest hrest]
    rfl
theorem MatchCase.desugarAll_eq (hreplace : ∀ i, replace i = .ok (put i)) :
    ∀ xs : List (Option MatchCase), MatchCase.AllIntact operators xs →
      MatchCase.desugarAll replace xs = .ok (MatchCase.rewrittenAll put xs)
  | [], _ => rfl
  | none :: _, h => h.elim
  | some ⟨_, pattern, value, _⟩ :: rest, ⟨⟨hpattern, hvalue⟩, hrest⟩ => by
    rw [MatchCase.desugarAll, pattern.desugarWith_eq hreplace hpattern, value.desugarWith_eq hreplace hvalue,
      MatchCase.desugarAll_eq hreplace rest hrest]
    rfl
end

end

theorem intact_of_lookup (hrs : ∀ r ∈ rs, r.2.Intact operators) {name : String} {e : Expr}
    (h : rs.lookup name = some e) : e.Intact operators := by
  obtain ⟨ys, zs, rfl, -⟩ := List.lookup_eq_some_iff.mp h
  exact hrs (name, e) (by simp)

theorem Ident.replaceBy_eq (hrs : ∀ r ∈ rs, r.2.Intact operators) (i : Ident) :
    i.replaceBy rs = .ok (i.replaced rs) := by
  unfold Ident.replaceBy Ident.replaced
  cases hlookup : rs.lookup i.name with
  | none => rfl
  | some e =>
    have he := intact_of_lookup hrs hlookup
    dsimp only
    rw [Expr.copy_eq he]
    exact e.unbound.desugarWith_eq (fun _ => rfl) (e.unbound_intact he)

theorem Node.desugar_expr {e : Expr} (h : e ≠ .missing) :
    (Node.expr e).desugar rs = (do return .expr (← e.desugarWith (Ident.replaceBy rs))) := by
  cases e with
  | missing => exact absurd rfl h
  | _ => rfl

theorem Node.desugar_eq (hrs : ∀ r ∈ rs, r.2.Intact operators) {n : Node} (h : n.Intact operators) :
    n.desugar rs = .ok (n.rewritten rs) := by
  cases n with
  | «alias» a => rfl
  | expr e =>
    rw [Node.desugar_expr (Expr.Intact.ne_missing h), e.desugarWith_eq (Ident.replaceBy_eq hrs) h]
    rfl
  | _ => exact h.elim

theorem Module.desugar_eq (hrs : ∀ r ∈ rs, r.2.Intact operators) (h : m.Intact operators) :
    m.desugar rs = .ok (m.rewritten rs) := by
  have hstatements : ∀ ns : List Node, (∀ n ∈ ns, n.Intact operators) →
      ns.mapM (Node.desugar rs) = .ok (ns.map (Node.rewritten rs)) := by
    intro ns
    induction ns with
    | nil => exact fun _ => rfl
    | cons n ns ih =>
      intro hns
      obtain ⟨hn, hns⟩ := List.forall_mem_cons.mp hns
      rw [List.mapM_cons, Node.desugar_eq hrs hn, ih hns]
      rfl
  rw [Module.desugar, hstatements m.statements h]
  rfl

end

/-! ### Trees without operators -/

section

variable {operators : Bool} {put : Ident → Expr}

mutual
theorem Expr.rewritten_intact (hput : ∀ i, (put i).Intact false) : ∀ e : Expr, e.Intact operators →
    (e.rewritten put).Intact false
  | .missing, h => h
  | .func ⟨_, _, _, body, _, _, _, _⟩, ⟨hsign, hbody⟩ => by
    refine ⟨hsign, ?_⟩
    rcases hbody with rfl | hbody
    · exact .inl rfl
    · exact .inr (body.rewritten_intact hput hbody)
  | .cond _ _ _ condition thenBranch elseBranch, ⟨hcondition, hthen, helse⟩ =>
    ⟨condition.rewritten_intact hput hcondition, thenBranch.rewritten_intact hput hthen,
      elseBranch.rewritten_intact hput helse⟩
  | .matching _ subject cases, ⟨hsubject, hcases⟩ =>
    ⟨subject.rewritten_intact hput hsubject, MatchCase.rewrittenAll_intact hput cases hcases⟩
  | .letBinding _, _ => trivial
  | .binary _ _ left right, ⟨_, hleft, hright⟩ =>
    ⟨trivial, left.rewritten_intact hput hleft, right.rewritten_intact hput hright, trivial⟩
  | .unary _ _ operand, ⟨_, hoperand⟩ => ⟨trivial, operand.rewritten_intact hput hoperand, trivial⟩
  | .call _ callee args, ⟨hcallee, hargs⟩ => ⟨callee.rewritten_intact hput hcallee,
    Labelled.rewrittenAll_intact hput args hargs⟩
  | .argument ⟨_, _, value⟩, h => value.rewritten_intact hput h
  | .tuple _ _ elems, h => Labelled.rewrittenAll_intact hput elems h
  | .element ⟨_, _, value⟩, h => value.rewritten_intact hput h
  | .select _ owner _, h => owner.rewritten_intact hput h
  | .ident i, _ => hput i
  | .literal _ _, _ => trivial
theorem Labelled.rewrittenAll_intact (hput : ∀ i, (put i).Intact false) : ∀ xs : List (Option Labelled),
    Labelled.AllIntact operators xs → Labelled.AllIntact false (Labelled.rewrittenAll put xs)
  | [], _ => trivial
  | none :: _, h => h.elim
  | some ⟨_, _, value⟩ :: rest, ⟨hvalue, hrest⟩ =>
    ⟨value.rewritten_intact hput hvalue, Labelled.rewrittenAll_intact hput rest hrest⟩
theorem MatchCase.rewrittenAll_intact (hput : ∀ i, (put i).Intact false) : ∀ xs : List (Option MatchCase),
    MatchCase.AllIntact operators xs → MatchCase.AllIntact false (MatchCase.rewrittenAll put xs)
  | [], _ => trivial
  | none :: _, h => h.elim
  | some ⟨_, pattern, value, _⟩ :: rest, ⟨⟨hpattern, hvalue⟩, hrest⟩ =>
    ⟨⟨pattern.rewritten_intact hput hpattern, value.rewritten_intact hput hvalue⟩,
      MatchCase.rewrittenAll_intact hput rest hrest⟩
end

theorem Ident.replaced_intact (hrs : ∀ r ∈ rs, r.2.Intact operators) (i : Ident) : (i.replaced rs).Intact false := by
  unfold Ident.replaced
  cases hlookup : rs.lookup i.name with
  | none => trivial
  | some e =>
    have hput : ∀ i : Ident, (Expr.ident i).Intact false := fun _ => trivial
    exact e.unbound.rewritten_intact hput (e.unbound_intact (intact_of_lookup hrs hlookup))

theorem Module.rewritten_intact (hrs : ∀ r ∈ rs, r.2.Intact operators) (h : m.Intact operators) :
    (m.rewritten rs).Intact false := by
  intro n' hn'
  obtain ⟨n, hn, rfl⟩ := List.mem_map.mp hn'
  have hintact := h n hn
  cases n with
  | «alias» a => exact hintact
  | expr e => exact e.rewritten_intact (Ident.replaced_intact hrs) hintact
  | _ => exact hintact.elim

end

mutual
theorem Expr.rewritten_ident : ∀ e : Expr, e.Intact false → e.rewritten .ident = e
  | .missing, h => h.elim
  | .func ⟨_, _, _, body, _, _, _, _⟩, ⟨_, hbody⟩ => by
    have hbody' : body.rewritten .ident = body := by
      rcases hbody with rfl | hbody
      · rfl
      · exact body.rewritten_ident hbody
    rw [Expr.rewritten, hbody']
  | .cond _ _ _ condition thenBranch elseBranch, ⟨hcondition, hthen, helse⟩ => by
    rw [Expr.rewritten, condition.rewritten_ident hcondition, thenBranch.rewritten_ident hthen,
      elseBranch.rewritten_ident helse]
  | .matching _ subject cases, ⟨hsubject, hcases⟩ => by
    rw [Expr.rewritten, subject.rewritten_ident hsubject, MatchCase.rewrittenAll_ident cases hcases]
  | .letBinding _, _ => rfl
  | .binary .., ⟨hoperators, _⟩ => by cases hoperators
  | .unary .., ⟨hoperators, _⟩ => by cases hoperators
  | .call _ callee args, ⟨hcallee, hargs⟩ => by
    rw [Expr.rewritten, callee.rewritten_ident hcallee, Labelled.rewrittenAll_ident args hargs]
  | .argument ⟨_, _, value⟩, h => by rw [Expr.rewritten, value.rewritten_ident h]
  | .tuple _ _ elems, h => by rw [Expr.rewritten, Labelled.rewrittenAll_ident elems h]
  | .element ⟨_, _, value⟩, h => by rw [Expr.rewritten, value.rewritten_ident h]
  | .select _ owner _, h => by rw [Expr.rewritten, owner.rewritten_ident h]
  | .ident _, _ => rfl
  | .literal _ _, _ => rfl
theorem Labelled.rewrittenAll_ident : ∀ xs : List (Option Labelled), Labelled.AllIntact false xs →
    Labelled.rewrittenAll .ident xs = xs
  | [], _ => rfl
  | none :: _, h => h.elim
  | some ⟨_, _, value⟩ :: rest, ⟨hvalue, hrest⟩ => by
    rw [Labelled.rewrittenAll, value.rewritten_ident hvalue, Labelled.rewrittenAll_ident rest hrest]
theorem MatchCase.rewrittenAll_ident : ∀ xs : List (Option MatchCase), MatchCase.AllIntact false xs →
    MatchCase.rewrittenAll .ident xs = xs
  | [], _ => rfl
  | none :: _, h => h.elim
  | some ⟨_, pattern, value, _⟩ :: rest, ⟨⟨hpattern, hvalue⟩, hrest⟩ => by
    rw [MatchCase.rewrittenAll, pattern.rewritten_ident hpattern, value.rewritten_ident hvalue,
      MatchCase.rewrittenAll_ident rest hrest]
end

theorem Module.rewritten_nil (h : m.Intact false) : m.rewritten [] = m := by
  obtain ⟨token, name, id, statements, scope⟩ := m
  have hstatements : statements.map (Node.rewritten []) = statements := by
    refine (List.map_congr_left fun n hn => ?_).trans (List.map_id _)
    cases n with
    | expr e => exact congrArg Node.expr (e.rewritten_ident (h _ hn))
    | _ => rfl
  rw [Module.rewritten, hstatements]

/-- **Normalization is operator desugaring.** A module of type aliases and of expressions without gaps is always
desugared, also if expressions without gaps are put in the place of identifiers. The outcome is the rewritten module and
has no operators; where nothing is put in, desugaring it once more changes nothing. -/
theorem Module.desugar_eq_rewritten (hm : m.Intact true) (hrs : ∀ r ∈ rs, r.2.Intact true) :
    m.desugar rs = .ok (m.rewritten rs) ∧ (m.rewritten rs).Intact false ∧
      (rs = [] → (m.rewritten rs).desugar rs = .ok (m.rewritten rs)) := by
  have hintact := Module.rewritten_intact hrs hm
  refine ⟨Module.desugar_eq hrs hm, hintact, ?_⟩
  rintro rfl
  rw [Module.desugar_eq (by simp) hintact, Module.rewritten_nil hintact]

theorem Module.desugar_eq_rewritten_sum :
    let name (text : String) : Ident := { mark := { token := { lexeme := text } }, name := text }
    let one : Expr := .literal { token := { lexeme := "1" } } (.int 1)
    let sum : Expr := .binary { token := { lexeme := "+" } } (name "+") (.ident (name "a")) one
    let m : Module := { token := {}, name := "m", id := "", statements := [.expr sum] }
    -- an analysis has found scope and symbol of the replacement's `a`
    let known : Ident := { name "a" with scope := 2, symbol := 7, candidates := [7] }
    let rs : Replacements := [("a", .unary { token := { lexeme := "-" } } (name "-") (.ident known))]
    let operand (text : String) (e : Expr) : Option Labelled := some ⟨{ token := { lexeme := text } }, "", e⟩
    let minus : Expr := .call { token := { lexeme := "-" } } (.ident (name "-")) [operand "a" (.ident (name "a"))]
    let plus : Expr := .call { token := { lexeme := "+" } } (.ident (name "+")) [operand "a" minus, operand "1" one]
    m.Intact true ∧ (∀ r ∈ rs, r.2.Intact true) ∧ m.rewritten rs = { m with statements := [.expr plus] } ∧
      m.desugar rs = .ok (m.rewritten rs) ∧ (m.rewritten rs).Intact false ∧
      (rs = [] → (m.rewritten rs).desugar rs = .ok (m.rewritten rs)) := by
  intro name one sum m known rs operand minus plus
  have hm : m.Intact true := by simp [m, sum, one, Module.Intact, Node.Intact, Expr.Intact]
  have hrs : ∀ r ∈ rs, r.2.Intact true := by simp [rs, Expr.Intact]
  exact ⟨hm, hrs, rfl, Module.desugar_eq_rewritten hm hrs⟩

end TypeInference
