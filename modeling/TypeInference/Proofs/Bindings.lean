import TypeInference.Proofs.Scoping
import TypeInference.Proofs.TypeNames

/-! # Scopes in lockstep

Statements with their scopes and symbols filled in by two runs are the same up to numbers (`Expr.Bound`), as far as the
types and constraints that are made from them depend on these. -/

namespace TypeInference

open AnalysisM

variable {declared declared' : Option Func} {sign : Option FuncSign} {i j : ScopeId}

/-! ### Signatures -/

/-- The signature in two scopes that are paired. -/
def Sign.Scoped (ρ : Pairing) (s s' : Sign) : Prop := ∃ s0 i j, s = Sign.inside i s0 ∧ s' = Sign.inside j s0 ∧
    ρ.Ids .scope i j

def FuncSign.Scoped (ρ : Pairing) (sign sign' : Option FuncSign) : Prop :=
  ∃ sign0 i j, sign = Option.map (FuncSign.inside i) sign0 ∧ sign' = Option.map (FuncSign.inside j) sign0 ∧
    ρ.Ids .scope i j

section

variable {ρ ρ1 : Pairing}

theorem Sign.Scoped.mono (hρ : ρ ⊆ ρ1) {s s' : Sign} (h : s.Scoped ρ s') : s.Scoped ρ1 s' := by
  obtain ⟨s0, i, j, hs, hs', hij⟩ := h
  exact ⟨s0, i, j, hs, hs', hij.mono hρ⟩

theorem FuncSign.Scoped.mono (hρ : ρ ⊆ ρ1) {sign' : Option FuncSign} (h : FuncSign.Scoped ρ sign sign') :
    FuncSign.Scoped ρ1 sign sign' := by
  obtain ⟨sign0, i, j, hs, hs', hij⟩ := h
  exact ⟨sign0, i, j, hs, hs', hij.mono hρ⟩

end

/-! ### Expressions -/

mutual
/-- The expressions are the same up to the numbers that the analysis has filled in. Nothing is said of operators: they
cannot be typed. -/
inductive Expr.Bound (ρ : Pairing) : Expr → Expr → Prop where
  | missing : Expr.Bound ρ .missing .missing
  | func {token : Token} {t t' : Ty} {name : String} {sign sign' : Option FuncSign} {body body' : Expr}
      {scope scope' inner inner' : ScopeId} {symbol symbol' : SymbolId} {params params' : List SymbolId}
      (ht : t.Paired ρ t') (hsign : FuncSign.Scoped ρ sign sign') (hsymbol : name ≠ "" → ρ.Ids .symbol symbol symbol')
      (hbody : Expr.Bound ρ body body') :
      Expr.Bound ρ (.func ⟨⟨token, t⟩, name, sign, body, scope, inner, symbol, params⟩)
        (.func ⟨⟨token, t'⟩, name, sign', body', scope', inner', symbol', params'⟩)
  | cond {mark : Mark} {thenScope thenScope' elseScope elseScope' : ScopeId}
      {condition condition' thenBranch thenBranch' elseBranch elseBranch' : Expr}
      (hcondition : Expr.Bound ρ condition condition') (hthen : Expr.Bound ρ thenBranch thenBranch')
      (helse : Expr.Bound ρ elseBranch elseBranch') :
      Expr.Bound ρ (.cond mark thenScope elseScope condition thenBranch elseBranch)
        (.cond mark thenScope' elseScope' condition' thenBranch' elseBranch')
  | matching {mark : Mark} {subject subject' : Expr} {cases cases' : List (Option MatchCase)}
      (hsubject : Expr.Bound ρ subject subject') (hcases : MatchCase.AllBound ρ cases cases') :
      Expr.Bound ρ (.matching mark subject cases) (.matching mark subject' cases')
  | letBinding {mark : Mark} {name : String} {i j : ScopeId} {x y : SymbolId} (h : ρ.Ids .symbol x y) :
      Expr.Bound ρ (.letBinding ⟨mark, name, i, x⟩) (.letBinding ⟨mark, name, j, y⟩)
  | binary {mark mark' : Mark} {op op' : Ident} {left left' right right' : Expr} :
      Expr.Bound ρ (.binary mark op left right) (.binary mark' op' left' right')
  | unary {mark mark' : Mark} {op op' : Ident} {operand operand' : Expr} :
      Expr.Bound ρ (.unary mark op operand) (.unary mark' op' operand')
  | call {mark : Mark} {callee callee' : Expr} {args args' : List (Option Labelled)}
      (hcallee : Expr.Bound ρ callee callee') (hargs : Labelled.AllBound ρ args args') :
      Expr.Bound ρ (.call mark callee args) (.call mark callee' args')
  | argument {mark : Mark} {label : String} {value value' : Expr} (h : Expr.Bound ρ value value') :
      Expr.Bound ρ (.argument ⟨mark, label, value⟩) (.argument ⟨mark, label, value'⟩)
  | tuple {mark : Mark} {label : String} {elems elems' : List (Option Labelled)}
      (h : Labelled.AllBound ρ elems elems') : Expr.Bound ρ (.tuple mark label elems) (.tuple mark label elems')
  | element {mark : Mark} {label : String} {value value' : Expr} (h : Expr.Bound ρ value value') :
      Expr.Bound ρ (.element ⟨mark, label, value⟩) (.element ⟨mark, label, value'⟩)
  | select {mark : Mark} {owner owner' : Expr} {member : Member} (h : Expr.Bound ρ owner owner') :
      Expr.Bound ρ (.select mark owner member) (.select mark owner' member)
  | ident {mark : Mark} {name : String} {i j : ScopeId} (h : ρ.Ids .scope i j) :
      Expr.Bound ρ (.ident ⟨mark, name, i, [], noSymbol⟩) (.ident ⟨mark, name, j, [], noSymbol⟩)
  | literal {mark : Mark} {value : Constant} : Expr.Bound ρ (.literal mark value) (.literal mark value)
inductive Labelled.AllBound (ρ : Pairing) : List (Option Labelled) → List (Option Labelled) → Prop where
  | nil : Labelled.AllBound ρ [] []
  | cons {mark : Mark} {label : String} {value value' : Expr} {rest rest' : List (Option Labelled)}
      (h : Expr.Bound ρ value value') (hs : Labelled.AllBound ρ rest rest') :
      Labelled.AllBound ρ (some ⟨mark, label, value⟩ :: rest) (some ⟨mark, label, value'⟩ :: rest')
inductive MatchCase.Bound (ρ : Pairing) : MatchCase → MatchCase → Prop where
  | mk {token : Token} {pattern pattern' value value' : Expr} {inner inner' : ScopeId}
      (hpattern : Expr.Bound ρ pattern pattern') (hvalue : Expr.Bound ρ value value') :
      MatchCase.Bound ρ ⟨token, pattern, value, inner⟩ ⟨token, pattern', value', inner'⟩
inductive MatchCase.AllBound (ρ : Pairing) : List (Option MatchCase) → List (Option MatchCase) → Prop where
  | nil : MatchCase.AllBound ρ [] []
  | cons {x x' : MatchCase} {rest rest' : List (Option MatchCase)} (h : MatchCase.Bound ρ x x')
      (hs : MatchCase.AllBound ρ rest rest') : MatchCase.AllBound ρ (some x :: rest) (some x' :: rest')
end

section

variable {ρ ρ1 : Pairing}

mutual
theorem Expr.Bound.mono (hρ : ρ ⊆ ρ1) : ∀ {e e' : Expr}, e.Bound ρ e' → e.Bound ρ1 e'
  | _, _, .missing => .missing
  | _, _, .func ht hsign hsymbol hbody =>
    .func (ht.mono hρ) (hsign.mono hρ) (fun hname => (hsymbol hname).mono hρ) (hbody.mono hρ)
  | _, _, .cond hcondition hthen helse => .cond (hcondition.mono hρ) (hthen.mono hρ) (helse.mono hρ)
  | _, _, .matching hsubject hcases => .matching (hsubject.mono hρ) (hcases.mono hρ)
  | _, _, .letBinding h => .letBinding (h.mono hρ)
  | _, _, .binary => .binary
  | _, _, .unary => .unary
  | _, _, .call hcallee hargs => .call (hcallee.mono hρ) (hargs.mono hρ)
  | _, _, .argument h => .argument (h.mono hρ)
  | _, _, .tuple h => .tuple (h.mono hρ)
  | _, _, .element h => .element (h.mono hρ)
  | _, _, .select h => .select (h.mono hρ)
  | _, _, .ident h => .ident (h.mono hρ)
  | _, _, .literal => .literal
theorem Labelled.AllBound.mono (hρ : ρ ⊆ ρ1) : ∀ {xs xs' : List (Option Labelled)}, Labelled.AllBound ρ xs xs' →
    Labelled.AllBound ρ1 xs xs'
  | _, _, .nil => .nil
  | _, _, .cons h hs => .cons (h.mono hρ) (hs.mono hρ)
theorem MatchCase.Bound.mono (hρ : ρ ⊆ ρ1) : ∀ {x x' : MatchCase}, x.Bound ρ x' → x.Bound ρ1 x'
  | _, _, .mk hpattern hvalue => .mk (hpattern.mono hρ) (hvalue.mono hρ)
theorem MatchCase.AllBound.mono (hρ : ρ ⊆ ρ1) : ∀ {xs xs' : List (Option MatchCase)}, MatchCase.AllBound ρ xs xs' →
    MatchCase.AllBound ρ1 xs xs'
  | _, _, .nil => .nil
  | _, _, .cons h hs => .cons (h.mono hρ) (hs.mono hρ)
end

/-- The nodes stand in scopes that are paired. -/
structure Enclosure.Paired (ρ : Pairing) (env env' : Enclosure) : Prop where
  scope : ρ.Ids .scope env.scope env'.scope
  module : env.module = env'.module

theorem Enclosure.Paired.mono {env env' : Enclosure} (h : env.Paired ρ env') (hρ : ρ ⊆ ρ1) : env.Paired ρ1 env' :=
  ⟨h.scope.mono hρ, h.module⟩

end

section

variable {S : Scene} {ρ : Pairing} {env env' : Enclosure}

theorem enter_sim (henv : env.Paired ρ env') (name : String) (kind : ScopeKind) :
    Sim S.world ρ Enclosure.Paired (env.enter name kind) (env'.enter name kind) := by
  unfold Enclosure.enter
  rw [henv.module]
  exact .bind (newScope_sim _ _ _ henv.scope) fun _ hij => .pure ⟨hij, rfl⟩

theorem Func.declareUnless_sim (henv : env.Paired ρ env') (f : Func)
    (hdeclared : Option.Rel (Func.Declared ρ) declared declared') :
    Sim S.world ρ Func.Declared (f.declareUnless env declared) (f.declareUnless env' declared') := by
  cases hdeclared with
  | none => exact Func.declare_sim henv.scope f
  | some h => exact .pure h

-- Whether a signature is whole does not depend on the scope.
theorem FuncSign.bindIfAny_sim (hij : ρ.Ids .scope i j) (sign : Option FuncSign) :
    Sim S.world ρ FuncSign.Scoped (FuncSign.bindIfAny i sign) (FuncSign.bindIfAny j sign) := by
  cases sign with
  | none => exact .pure ⟨none, i, j, rfl, rfl, hij⟩
  | some s =>
    refine .bind (R := fun ρ s s' => FuncSign.Scoped ρ (some s) (some s')) (.lift fun h => ?_) fun _ h => .pure h
    obtain ⟨rfl, hs⟩ := s.inScope_comes.ensures _ h
    exact ⟨_, s.inScope_comes.comes hs, some s, i, j, rfl, rfl, hij⟩

instance FuncSign.bindIfAny_forward (i : ScopeId) (sign : Option FuncSign) : Forward (FuncSign.bindIfAny i sign) := by
  cases sign with
  | none => exact .pure _
  | some s => exact .bind (.lift _) fun _ => .pure _

instance Expr.bindBody_forward (env : Enclosure) (body : Expr) : Forward (body.bindBody env) := by
  unfold Expr.bindBody
  split
  · exact .pure _
  · infer_instance

theorem Expr.bind_func_sim {mark : Mark} {name : String} {body : Expr} {scope inner : ScopeId} {symbol : SymbolId}
    {params : List SymbolId} (henv : env.Paired ρ env') (hdeclared : Option.Rel (Func.Declared ρ) declared declared')
    (hbody : ∀ {ρ env env'}, env.Paired ρ env' → Sim S.world ρ Expr.Bound (body.bindBody env) (body.bindBody env')) :
    Sim S.world ρ Expr.Bound ((Expr.func ⟨mark, name, sign, body, scope, inner, symbol, params⟩).bind env declared)
      ((Expr.func ⟨mark, name, sign, body, scope, inner, symbol, params⟩).bind env' declared') := by
  rw [Expr.bind_func, Expr.bind_func]
  refine .bind (Func.declareUnless_sim henv _ hdeclared) fun {ρ1 f f'} hρ1 hf => ?_
  rw [← hf.sign, ← hf.name, ← hf.parameters]
  refine .bind (FuncSign.bindIfAny_sim (henv.mono hρ1).scope _) fun hρ2 hs => ?_
  refine .bind (enter_sim ((henv.mono hρ1).mono hρ2) _ _) fun hρ3 hwithin => ?_
  have hf3 := (hf.mono hρ2).mono hρ3
  refine .bind (Func.parameterTypes_sim hf3.type) fun hρ4 htypes => ?_
  refine .bind (declareParameters_sim _ (hwithin.mono hρ4).scope htypes) fun hρ5 _ => ?_
  refine .bind (hbody ((hwithin.mono hρ4).mono hρ5)) fun hρ6 hbody => .pure ?_
  have hsub := (hρ4.trans hρ5).trans hρ6
  have hf6 := hf3.mono hsub
  obtain ⟨⟨token, t⟩, name, _, _, scope, inner, symbol, params⟩ := f
  obtain ⟨⟨token', t'⟩, name', _, _, scope', inner', symbol', params'⟩ := f'
  obtain ⟨rfl, -, rfl, ht, hsymbol⟩ := hf6
  exact .func ht (hs.mono (hρ3.trans hsub)) hsymbol hbody

mutual
theorem Expr.bind_sim : ∀ (e : Expr) {ρ : Pairing} {env env' : Enclosure} {declared declared' : Option Func},
    env.Paired ρ env' → Option.Rel (Func.Declared ρ) declared declared' →
    Sim S.world ρ Expr.Bound (e.bind env declared) (e.bind env' declared')
  | .missing, _, _, _, _, _, _, _ => .throw _
  | .func ⟨mark, name, sign, body, scope, inner, symbol, params⟩, ρ, env, env', declared, declared', henv, hdeclared =>
    by
    refine Expr.bind_func_sim henv hdeclared fun {ρ env env'} henv => ?_
    unfold Expr.bindBody
    split
    · exact .pure .missing
    · exact body.bind_sim henv .none
  | .cond _ _ _ condition thenBranch elseBranch, _, _, _, _, _, henv, _ => by
    refine .bind (condition.bind_sim henv .none) fun hρ1 ha =>
      .bind (enter_sim (henv.mono hρ1) _ _) fun hρ2 hwithin => ?_
    refine .bind (thenBranch.bind_sim hwithin .none) fun hρ3 hb => ?_
    refine .bind (enter_sim (((henv.mono hρ1).mono hρ2).mono hρ3) _ _) fun hρ4 hwithin' => ?_
    refine .bind (elseBranch.bind_sim hwithin' .none) fun hρ5 hc => .pure ?_
    exact .cond (((ha.mono hρ2).mono hρ3).mono (hρ4.trans hρ5)) (hb.mono (hρ4.trans hρ5)) hc
  | .matching _ subject cases, _, _, _, _, _, henv, _ =>
    .bind (subject.bind_sim henv .none) fun hρ hsubject =>
      .bind (MatchCase.bindAll_sim cases (henv.mono hρ)) fun hρ' hcases => .pure (.matching (hsubject.mono hρ') hcases)
  | .letBinding b, _, _, _, _, _, henv, _ =>
    .bind (declareOnce_sim henv.scope _ _ fresh_sim false) fun _ hdeclared => .pure (by
      obtain ⟨x, y, rfl, rfl, hxy⟩ := hdeclared
      exact .letBinding hxy)
  | .binary _ _ left right, _, _, _, _, _, henv, _ =>
    .bind (left.bind_sim henv .none) fun hρ _ => .bind (right.bind_sim (henv.mono hρ) .none) fun _ _ => .pure .binary
  | .unary _ _ operand, _, _, _, _, _, henv, _ => .bind (operand.bind_sim henv .none) fun _ _ => .pure .unary
  | .call _ callee args, _, _, _, _, _, henv, _ =>
    .bind (callee.bind_sim henv .none) fun hρ hcallee =>
      .bind (Labelled.bindAll_sim args (henv.mono hρ)) fun hρ' hargs => .pure (.call (hcallee.mono hρ') hargs)
  | .argument ⟨_, _, value⟩, _, _, _, _, _, henv, _ => .bind (value.bind_sim henv .none) fun _ hvalue =>
    .pure (.argument hvalue)
  | .tuple _ _ elems, _, _, _, _, _, henv, _ => .bind (Labelled.bindAll_sim elems henv) fun _ helems =>
    .pure (.tuple helems)
  | .element ⟨_, _, value⟩, _, _, _, _, _, henv, _ => .bind (value.bind_sim henv .none) fun _ hvalue =>
    .pure (.element hvalue)
  | .select _ owner _, _, _, _, _, _, henv, _ => .bind (owner.bind_sim henv .none) fun _ howner =>
    .pure (.select howner)
  | .ident _, _, _, _, _, _, henv, _ => .pure (.ident henv.scope)
  | .literal _ _, _, _, _, _, _, _, _ => .pure .literal
theorem Labelled.bindAll_sim : ∀ (xs : List (Option Labelled)) {ρ : Pairing} {env env' : Enclosure}, env.Paired ρ env' →
    Sim S.world ρ Labelled.AllBound (Labelled.bindAll env xs) (Labelled.bindAll env' xs)
  | [], _, _, _, _ => .pure .nil
  | none :: _, _, _, _, _ => .throw _
  | some ⟨_, _, value⟩ :: rest, _, _, _, henv =>
    .bind (value.bind_sim henv .none) fun hρ hvalue => .bind (Labelled.bindAll_sim rest (henv.mono hρ)) fun hρ' hrest =>
      .pure (.cons (hvalue.mono hρ') hrest)
theorem MatchCase.bindAll_sim : ∀ (xs : List (Option MatchCase)) {ρ : Pairing} {env env' : Enclosure},
    env.Paired ρ env' → Sim S.world ρ MatchCase.AllBound (MatchCase.bindAll env xs) (MatchCase.bindAll env' xs)
  | [], _, _, _, _ => .pure .nil
  | none :: _, _, _, _, _ => .throw _
  | some ⟨token, pattern, value, _⟩ :: rest, _, _, _, henv => by
    refine .bind (R := MatchCase.Bound) ?_ fun hρ hcase =>
      .bind (MatchCase.bindAll_sim rest (henv.mono hρ)) fun hρ' hrest => .pure (.cons (hcase.mono hρ') hrest)
    exact .bind (enter_sim henv _ _) fun _ hwithin => .bind (pattern.bind_sim hwithin .none) fun hρ hpattern =>
      .bind (value.bind_sim (hwithin.mono hρ) .none) fun hρ' hvalue => .pure (.mk (hpattern.mono hρ') hvalue)
end

end

/-! ### Statements -/

/-- What a module may have as statements once it is desugared. -/
inductive Node.IsStatement : Node → Prop where
  | typeAlias (a : TypeAlias) : IsStatement (.alias a)
  | expr (e : Expr) : IsStatement (.expr e)

/-- What was declared ahead for a statement is the same up to numbers. -/
inductive Node.Ahead (ρ : Pairing) : Node → Node → Node → Prop where
  | typeAlias {a : TypeAlias} {i j : ScopeId} {x y : SymbolId} (h : ρ.Ids .symbol x y) :
      Ahead ρ (.alias a) (.alias { a with scope := i, symbol := x }) (.alias { a with scope := j, symbol := y })
  | func {f0 f f' : Func} (h : f.Declared ρ f') : Ahead ρ (.expr (.func f0)) (.expr (.func f)) (.expr (.func f'))
  | expr {e : Expr} (h : (Node.expr e).declaredFunc? = none) : Ahead ρ (.expr e) (.expr e) (.expr e)

/-- The statements are the same up to the numbers that the analysis has filled in. -/
inductive Node.Bound (ρ : Pairing) : Node → Node → Prop where
  | typeAlias {token : Token} {name : String} {sign sign' : Sign} {i j : ScopeId} {x y : SymbolId}
      (hsign : sign.Scoped ρ sign') (hsymbol : ρ.Ids .symbol x y) :
      Bound ρ (.alias ⟨token, name, sign, i, x⟩) (.alias ⟨token, name, sign', j, y⟩)
  | expr {e e' : Expr} (h : e.Bound ρ e') : Bound ρ (.expr e) (.expr e')

/-- Binds a statement, given with what was declared ahead. The enclosure stays as it is. -/
def Node.bindStatement (env : Enclosure) (p : Node × Node) : AnalysisM Node := do return (← Node.bind env p.2 p.1).1

section

variable {S : Scene} {ρ ρ1 : Pairing} {env env' : Enclosure} {n ahead ahead' : Node}

theorem Node.Ahead.mono (h : n.Ahead ρ ahead ahead') (hρ : ρ ⊆ ρ1) : n.Ahead ρ1 ahead ahead' := by
  cases h with
  | typeAlias h => exact .typeAlias (h.mono hρ)
  | func h => exact .func (h.mono hρ)
  | expr h => exact .expr h

theorem Node.Bound.mono {n' : Node} (h : n.Bound ρ n') (hρ : ρ ⊆ ρ1) : n.Bound ρ1 n' := by
  cases h with
  | typeAlias hsign hsymbol => exact .typeAlias (hsign.mono hρ) (hsymbol.mono hρ)
  | expr h => exact .expr (h.mono hρ)

theorem Node.declareAhead_sim (hn : n.IsStatement) (hij : ρ.Ids .scope i j) :
    Sim S.world ρ (fun ρ => n.Ahead ρ) (n.declareAhead i) (n.declareAhead j) := by
  cases hn with
  | typeAlias a =>
    refine .bind (TypeAlias.declare_sim hij a) fun _ h => .pure ?_
    obtain ⟨x, y, rfl, rfl, hxy⟩ := h
    exact .typeAlias hxy
  | expr e =>
    cases e with
    | func f =>
      unfold Node.declareAhead
      dsimp only
      split
      · next hname => exact .pure (.expr (if_pos hname))
      · exact .bind (Func.declare_sim hij f) fun _ hf => .pure (.func hf)
    | _ => exact .pure (.expr rfl)

theorem Node.Ahead.declaredFunc? (h : n.Ahead ρ ahead ahead') :
    Option.Rel (Func.Declared ρ) ahead.declaredFunc? ahead'.declaredFunc? := by
  cases h with
  | typeAlias => exact .none
  | @func f0 f f' h =>
    unfold Node.declaredFunc?
    dsimp only
    rw [← h.name]
    split
    · exact .none
    · exact .some h
  | expr h =>
    rw [h]
    exact .none

theorem Node.bindStatement_typeAlias (env : Enclosure) (ahead : Node) (a : TypeAlias) :
    Node.bindStatement env (.alias a, ahead) = (do
    let sign ← ((ahead.declaredAlias a).sign.inScope env.scope : Except Fault _)
    return .alias { ahead.declaredAlias a with sign := sign }) := by
  simp [Node.bindStatement, Node.bind.eq_3]

theorem Node.bindStatement_expr (env : Enclosure) (ahead : Node) (e : Expr) :
    Node.bindStatement env (.expr e, ahead) = (do
    let e ← e.bind env ahead.declaredFunc?
    return .expr e) := by
  simp [Node.bindStatement, Node.bind.eq_4]

theorem Node.bind_eq_bindStatement (hn : n.IsStatement) :
    Node.bind env ahead n = (do return (← Node.bindStatement env (n, ahead), env)) := by
  cases hn with
  | typeAlias a => simp [Node.bindStatement_typeAlias, Node.bind.eq_3]
  | expr e => simp [Node.bindStatement_expr, Node.bind.eq_4]

theorem Node.bindStatement_forward (env : Enclosure) (hn : n.IsStatement) (ahead : Node) :
    Forward (Node.bindStatement env (n, ahead)) := by
  cases hn with
  | typeAlias a =>
    rw [Node.bindStatement_typeAlias]
    exact .bind (.lift _) fun _ => .pure _
  | expr e =>
    rw [Node.bindStatement_expr]
    infer_instance

theorem Node.bindStatement_sim (hahead : n.Ahead ρ ahead ahead') (henv : env.Paired ρ env') :
    Sim S.world ρ Node.Bound (Node.bindStatement env (n, ahead)) (Node.bindStatement env' (n, ahead')) := by
  have hdeclared := hahead.declaredFunc?
  have hexpr (e : Expr) : Sim S.world ρ Node.Bound (Node.bindStatement env (Node.expr e, ahead))
      (Node.bindStatement env' (Node.expr e, ahead')) := by
    rw [Node.bindStatement_expr, Node.bindStatement_expr]
    exact .bind (e.bind_sim henv hdeclared) fun _ he => .pure (.expr he)
  cases hahead with
  | @typeAlias a i j x y hxy =>
    rw [Node.bindStatement_typeAlias, Node.bindStatement_typeAlias]
    refine .bind (R := Sign.Scoped) (.lift fun h => ?_) fun hρ hsign => .pure (.typeAlias hsign (hxy.mono hρ))
    obtain ⟨rfl, hs⟩ := a.sign.inScope_comes.ensures _ h
    exact ⟨_, a.sign.inScope_comes.comes hs, a.sign, _, _, rfl, rfl, henv.scope⟩
  | func => exact hexpr _
  | expr => exact hexpr _

theorem Node.bindAll_eq_mapM {aheads ns : List Node} (hns : ∀ n ∈ ns, n.IsStatement)
    (hlength : aheads.length = ns.length) :
    Node.bindAll env aheads ns = (do return (← (ns.zip aheads).mapM (Node.bindStatement env), env)) := by
  induction ns generalizing aheads with
  | nil =>
    obtain rfl := List.length_eq_zero_iff.mp hlength
    rfl
  | cons n ns ih =>
    obtain _ | ⟨ahead, aheads⟩ := aheads
    · cases hlength
    · have hrest := ih (fun n hn => hns n (List.mem_cons_of_mem _ hn)) (Nat.succ.inj hlength)
      rw [Node.bindAll, Node.bind_eq_bindStatement (hns n List.mem_cons_self)]
      simp [hrest]

end

end TypeInference
