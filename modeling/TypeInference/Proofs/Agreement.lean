import TypeInference.Proofs.Copies

/-! # Binding overwrites what it finds

`Agree` compares two computations of an analysis from every state: they stop in the same way, or come to the same state
with related results. Binding a tree agrees with binding its blank (`Module.bind_agree`): every slot that is read later
has been written before. What stays of the old slots are types of marks and of type names, which `unmark` takes out. -/

namespace TypeInference

open AnalysisM
open List

variable {env : Enclosure} {e e0 : Expr} {f g : Func} {n n0 : Node}

/-! ### Computations that agree -/

section

variable {ε α β γ δ : Type}

/-- The computations stop in the same way, or both come to results, which are related. -/
def Both (R : α → β → Prop) (x : Except ε α) (y : Except ε β) : Prop :=
  (∃ e, x = .error e ∧ y = .error e) ∨ ∃ a b, x = .ok a ∧ y = .ok b ∧ R a b

variable {R : α → β → Prop} {S : γ → δ → Prop}

theorem Both.ok {a : α} {b : β} (h : R a b) : Both R (.ok a : Except ε α) (.ok b) := .inr ⟨a, b, rfl, rfl, h⟩

theorem Both.error (e : ε) : Both R (.error e : Except ε α) (.error e) := .inl ⟨e, rfl, rfl⟩

theorem Both.bind {x : Except ε α} {y : Except ε β} {f : α → Except ε γ} {g : β → Except ε δ} (h : Both R x y)
    (hf : ∀ a b, R a b → Both S (f a) (g b)) : Both S (x >>= f) (y >>= g) := by
  rcases h with ⟨e, rfl, rfl⟩ | ⟨a, b, rfl, rfl, hab⟩
  · exact .error e
  · exact hf a b hab

theorem Comes.both {p : Prop} {a : α} {b : β} {x : Except Fault α} {y : Except Fault β} (hx : Comes p p a x)
    (hy : Comes p p b y) (hab : R a b) : Both R x y := by
  by_cases hp : p
  · exact .inr ⟨a, b, hx.comes hp, hy.comes hp, hab⟩
  · exact .inl ⟨.missing, hx.either.resolve_left fun h => hp (hx.only h),
      hy.either.resolve_left fun h => hp (hy.only h)⟩

theorem Both.refl (x : Except ε α) : Both Eq x x := by
  cases x with
  | error e => exact .error e
  | ok a => exact .ok rfl

/-- From every state, the computations stop in the same way or come to one state with results that are related. -/
def Agree (R : α → β → Prop) (x : AnalysisM α) (y : AnalysisM β) : Prop :=
  ∀ c, Both (fun p q => R p.1 q.1 ∧ p.2 = q.2) (x.run c) (y.run c)

namespace Agree

variable {x : AnalysisM α} {y : AnalysisM β} {f : α → AnalysisM γ} {g : β → AnalysisM δ}

theorem pure {a : α} {b : β} (h : R a b) : Agree R (Pure.pure a) (Pure.pure b) := fun _ => .ok ⟨h, rfl⟩

theorem throw (e : Fault) : Agree R (throw e) (throw e) := fun _ => .error e

protected theorem refl (x : AnalysisM α) : Agree Eq x x := fun c => by
  rcases Both.refl (x.run c) with h | ⟨p, q, hp, hq, rfl⟩
  · exact .inl h
  · exact .inr ⟨p, p, hp, hq, rfl, rfl⟩

protected theorem bind (h : Agree R x y) (hf : ∀ a b, R a b → Agree S (f a) (g b)) :
    Agree S (x >>= f) (y >>= g) := fun c => by
  rw [StateT.run_bind, StateT.run_bind]
  refine (h c).bind fun p q ⟨hpq, hstate⟩ => ?_
  rw [hstate]
  exact hf p.1 q.1 hpq q.2

theorem after {f g : α → AnalysisM γ} {S : γ → γ → Prop} (hf : ∀ a, Agree S (f a) (g a)) :
    Agree S (x >>= f) (x >>= g) :=
  (Agree.refl x).bind fun a _ h => h ▸ hf a

theorem lift {u : Except Fault α} {v : Except Fault β} (h : Both R u v) :
    Agree R (liftM u : AnalysisM α) (liftM v : AnalysisM β) := fun c => by
  rcases h with ⟨e, rfl, rfl⟩ | ⟨a, b, rfl, rfl, hab⟩
  · exact .error e
  · exact .ok ⟨hab, rfl⟩

theorem ite (p : Prop) [Decidable p] {x' : AnalysisM α} {y' : AnalysisM β} (h : Agree R x y) (h' : Agree R x' y') :
    Agree R (if p then x else x') (if p then y else y') := by
  split
  · exact h
  · exact h'

theorem join {x x' : AnalysisM α} {y : AnalysisM β} {κ : Type} (view : α → κ) {view' : β → κ}
    (h : Agree (fun a b => view a = view' b) x y) (h' : Agree (fun a b => view a = view' b) x' y) :
    Agree (fun a b => view a = view b) x x' := fun c => by
  rcases h c with ⟨e, hx, hy⟩ | ⟨p, q, hp, hq, hpq, hstate⟩ <;>
    rcases h' c with ⟨e', hx', hy'⟩ | ⟨p', q', hp', hq', hpq', hstate'⟩
  · obtain rfl := Except.error.inj (hy.symm.trans hy')
    exact .inl ⟨e, hx, hx'⟩
  · cases hy.symm.trans hq'
  · cases hq.symm.trans hy'
  · obtain rfl := Except.ok.inj (hq.symm.trans hq')
    exact .inr ⟨p, p', hp, hp', hpq.trans hpq'.symm, hstate.trans hstate'.symm⟩

end Agree

end

/-! ### What binding leaves of an earlier analysis -/

mutual
/-- The expression without types, those of functions apart, which binding gives them. -/
def Expr.unmark : Expr → Expr
  | .missing => .missing
  | .func ⟨mark, name, sign, body, scope, inner, symbol, params⟩ =>
    .func ⟨mark, name, sign.map FuncSign.unread, body.unmark, scope, inner, symbol, params⟩
  | .cond mark thenScope elseScope condition thenBranch elseBranch =>
    .cond mark.blank thenScope elseScope condition.unmark thenBranch.unmark elseBranch.unmark
  | .matching mark subject cases => .matching mark.blank subject.unmark (MatchCase.unmarkAll cases)
  | .letBinding b => .letBinding { b with mark := b.mark.blank }
  | .binary mark op left right => .binary mark.blank { op with mark := op.mark.blank } left.unmark right.unmark
  | .unary mark op operand => .unary mark.blank { op with mark := op.mark.blank } operand.unmark
  | .call mark callee args => .call mark.blank callee.unmark (Labelled.unmarkAll args)
  | .argument ⟨mark, label, value⟩ => .argument ⟨mark.blank, label, value.unmark⟩
  | .tuple mark label elems => .tuple mark.blank label (Labelled.unmarkAll elems)
  | .element ⟨mark, label, value⟩ => .element ⟨mark.blank, label, value.unmark⟩
  | .select mark owner member => .select mark.blank owner.unmark member
  | .ident i => .ident { i with mark := i.mark.blank }
  | .literal mark value => .literal mark.blank value
def Labelled.unmarkAll : List (Option Labelled) → List (Option Labelled)
  | [] => []
  | none :: xs => none :: Labelled.unmarkAll xs
  | some ⟨mark, label, value⟩ :: xs => some ⟨mark.blank, label, value.unmark⟩ :: Labelled.unmarkAll xs
def MatchCase.unmark : MatchCase → MatchCase
  | ⟨token, pattern, value, inner⟩ => ⟨token, pattern.unmark, value.unmark, inner⟩
def MatchCase.unmarkAll : List (Option MatchCase) → List (Option MatchCase)
  | [] => []
  | none :: cs => none :: MatchCase.unmarkAll cs
  | some c :: cs => some c.unmark :: MatchCase.unmarkAll cs
end

/-- A statement without what binding leaves of an earlier analysis. -/
def Node.unmark : Node → Node
  | .alias a => .alias { a with sign := a.sign.unread }
  | .expr e => .expr e.unmark
  | n => n

def Module.unmark (m : Module) : Module := { m with statements := m.statements.map Node.unmark }

/-! ### Signatures -/

theorem Sign.inScope_both (i : ScopeId) (s : Sign) : Ensures (fun s0 =>
    Both (fun a b => a.unread = b.unread) (s.inScope i) (s0.inScope i)) s.blank := fun s0 hs => by
  obtain ⟨rfl, -⟩ := s.blank_comes.ensures s0 hs
  have hblank := (s.mapNames TypeName.blank).inScope_comes (i := i)
  rw [s.intact_mapNames] at hblank
  refine s.inScope_comes.both hblank ?_
  rw [Sign.unread, Sign.unread, Sign.mapNames_mapNames, Sign.mapNames_mapNames, Sign.mapNames_mapNames]
  rfl

theorem FuncSign.inScope_both (i : ScopeId) (f : FuncSign) : Ensures (fun f0 =>
    Both (fun a b => a.unread = b.unread) (f.inScope i) (f0.inScope i)) f.blank := fun f0 hf => by
  obtain ⟨rfl, -⟩ := f.blank_comes.ensures f0 hf
  have hblank := (f.mapNames TypeName.blank).inScope_comes (i := i)
  rw [f.intact_mapNames] at hblank
  refine f.inScope_comes.both hblank ?_
  rw [FuncSign.unread, FuncSign.unread, FuncSign.mapNames_mapNames, FuncSign.mapNames_mapNames,
    FuncSign.mapNames_mapNames]
  rfl

/-! ### Functions -/

/-- The elements are both there and differ at most in their types. -/
def SignElem.SameHead (e e0 : Option SignElem) : Prop :=
  ∃ x y, e = some x ∧ e0 = some y ∧ x.token = y.token ∧ x.label = y.label ∧ x.name = y.name

theorem SignElem.blankAll_sameHeads : ∀ {es es0 : List (Option SignElem)}, SignElem.blankAll es = .ok es0 →
    Forall₂ SignElem.SameHead es es0
  | [], _, h => by
    cases h
    exact .nil
  | some ⟨_, _, _, sign⟩ :: es, _, h => by
    obtain ⟨e0, he, h⟩ := bind_eq_ok.mp h
    obtain ⟨es0, hes, h⟩ := bind_eq_ok.mp h
    obtain ⟨s0, hs, he⟩ := bind_eq_ok.mp he
    cases h
    cases he
    exact .cons ⟨_, _, rfl, rfl, rfl, rfl, rfl⟩ (SignElem.blankAll_sameHeads hes)

theorem FuncSign.parameters_sameHeads (h : FuncSign.blankIfAny f.sign = .ok g.sign) :
    Forall₂ SignElem.SameHead f.parameters g.parameters := by
  obtain ⟨_, _, sign, _, _, _, _, _⟩ := f
  obtain ⟨_, _, sign0, _, _, _, _, _⟩ := g
  match sign, h with
  | none, h =>
    cases h
    exact .nil
  | some ⟨_, none, _⟩, h =>
    obtain ⟨s, hs, h⟩ := bind_eq_ok.mp h
    obtain ⟨c0, -, hs⟩ := bind_eq_ok.mp hs
    cases hs
    cases h
    exact .nil
  | some ⟨_, some ⟨_, _, elems⟩, _⟩, h =>
    obtain ⟨s, hs, h⟩ := bind_eq_ok.mp h
    obtain ⟨d0, hd, hs⟩ := bind_eq_ok.mp hs
    obtain ⟨es0, hes, hd⟩ := bind_eq_ok.mp hd
    obtain ⟨c0, -, hs⟩ := bind_eq_ok.mp hs
    cases hd
    cases hs
    cases h
    exact SignElem.blankAll_sameHeads hes

/-- A declared function and the same function declared from a blank. -/
structure Func.SameDeclared (f g : Func) : Prop where
  mark : f.mark = g.mark
  name : f.name = g.name
  scope : f.scope = g.scope
  symbol : f.symbol = g.symbol
  sign : FuncSign.blankIfAny f.sign = .ok g.sign

theorem parameterFields_agree {ps qs : List (Option SignElem)} (h : Forall₂ SignElem.SameHead ps qs) :
    Agree Eq (ps.mapM fun
      | some e => do return { label := e.label, type := ← fresh : TupleField }
      | none => throw .missing) (qs.mapM fun
      | some e => do return { label := e.label, type := ← fresh : TupleField }
      | none => throw .missing) := by
  induction h with
  | nil => exact .refl _
  | cons hpq _ ih =>
    obtain ⟨x, y, rfl, rfl, -, hlabel, -⟩ := hpq
    rw [mapM_cons, mapM_cons]
    refine Agree.bind (R := Eq) ?_ fun a b hab => ih.bind fun as bs habs => .pure (by rw [hab, habs])
    dsimp only
    rw [hlabel]
    exact .refl _

theorem Func.declare_agree (i : ScopeId) (htoken : f.mark.token = g.mark.token) (hname : f.name = g.name)
    (hsign : FuncSign.blankIfAny f.sign = .ok g.sign) : Agree Func.SameDeclared (f.declare i) (g.declare i) := by
  unfold Func.declare
  refine (parameterFields_agree (FuncSign.parameters_sameHeads hsign)).bind fun fields _ h => h ▸ .after fun codomain =>
    .after fun type => ?_
  dsimp only
  rw [htoken, hname]
  split
  · exact .pure ⟨rfl, rfl, rfl, rfl, hsign⟩
  · exact .after fun symbol => .pure ⟨rfl, rfl, rfl, rfl, hsign⟩

theorem declareParameters_agree (i : ScopeId) :
    ∀ {ps qs : List (Option SignElem)} (types : List Ty), Forall₂ SignElem.SameHead ps qs →
    Agree Eq (declareParameters i (ps.zip types)) (declareParameters i (qs.zip types))
  | _, _, _, .nil => .refl _
  | _, _, [], .cons _ _ => .refl _
  | _, _, type :: types, .cons hpq h => by
    obtain ⟨x, y, rfl, rfl, htoken, hlabel, hname⟩ := hpq
    have ih := declareParameters_agree i types h
    rw [zip_cons_cons, zip_cons_cons, declareParameters, declareParameters, htoken, hlabel, hname]
    refine .ite _ ih (.after fun id => ?_)
    cases id with
    | none => exact ih
    | some id => exact ih.bind fun a b hab => .pure (by rw [hab])

theorem FuncSign.bindIfAny_agree (i : ScopeId) {sign sign0 : Option FuncSign}
    (h : FuncSign.blankIfAny sign = .ok sign0) :
    Agree (fun a b => a.map FuncSign.unread = b.map FuncSign.unread) (FuncSign.bindIfAny i sign)
    (FuncSign.bindIfAny i sign0) := by
  cases sign with
  | none =>
    cases h
    exact .pure rfl
  | some s =>
    obtain ⟨s0, hs, h⟩ := bind_eq_ok.mp h
    cases h
    exact (Agree.lift (s.inScope_both i s0 hs)).bind fun a b hab => .pure (congrArg some hab)

theorem Func.parameterTypes_congr (h : f.mark = g.mark) : f.parameterTypes = g.parameterTypes := by
  unfold Func.parameterTypes
  rw [h]

/-! ### Expressions -/

theorem Expr.bind_func_agree (htoken : f.mark.token = g.mark.token) (hname : f.name = g.name)
    (hsign : FuncSign.blankIfAny f.sign = .ok g.sign) {declared declared0 : Option Func}
    (hdeclared : Option.Rel Func.SameDeclared declared declared0)
    (hbody : ∀ env, Agree (fun a b => a.unmark = b.unmark) (f.body.bindBody env) (g.body.bindBody env)) :
    Agree (fun a b => a.unmark = b.unmark) ((Expr.func f).bind env declared) ((Expr.func g).bind env declared0) := by
  obtain ⟨mark, name, sign, body, scope, inner, symbol, params⟩ := f
  obtain ⟨mark0, name0, sign0, body0, scope0, inner0, symbol0, params0⟩ := g
  rw [Expr.bind_func, Expr.bind_func]
  have hdeclare :
      Agree Func.SameDeclared (Func.declareUnless env ⟨mark, name, sign, body, scope, inner, symbol, params⟩ declared)
      (Func.declareUnless env ⟨mark0, name0, sign0, body0, scope0, inner0, symbol0, params0⟩ declared0) := by
    cases hdeclared with
    | none => exact Func.declare_agree env.scope htoken hname hsign
    | some h => exact .pure h
  refine hdeclare.bind fun f g hfg => (FuncSign.bindIfAny_agree env.scope hfg.sign).bind fun s s0 hs => ?_
  rw [hfg.name, Func.parameterTypes_congr hfg.mark]
  refine .after fun within => .after fun types => ?_
  refine (declareParameters_agree within.scope types (FuncSign.parameters_sameHeads hfg.sign)).bind fun ps _ h => h ▸ ?_
  refine (hbody within).bind fun b b0 hb => .pure ?_
  simp only [Expr.unmark, hfg.mark, hfg.scope, hfg.symbol, hs, hb]

theorem Expr.bindBody_agree (he : e.blank = .ok e0)
    (h : Agree (fun a b => a.unmark = b.unmark) (e.bind env none) (e0.bind env none)) :
    Agree (fun a b => a.unmark = b.unmark) (e.bindBody env) (e0.bindBody env) := by
  by_cases hne : e = .missing
  · subst hne
    cases he
    exact .pure rfl
  · have hne0 := Expr.blank_ne_missing hne e0 he
    have hbody {e : Expr} (hne : e ≠ .missing) : e.bindBody env = e.bind env none := by
      cases e with
      | missing => exact absurd rfl hne
      | _ => rfl
    rw [hbody hne, hbody hne0]
    exact h

mutual
theorem Expr.bind_agree : ∀ e : Expr, Ensures (fun e0 => ∀ (env : Enclosure) {declared declared0 : Option Func},
    Option.Rel Func.SameDeclared declared declared0 →
      Agree (fun a b => a.unmark = b.unmark) (e.bind env declared) (e0.bind env declared0)) e.blank
  | .missing => .ok fun _ _ _ _ => .throw _
  | .func ⟨mark, name, sign, body, scope, inner, symbol, params⟩ => fun r hr env _ _ hdeclared => by
    rw [Expr.blank_func] at hr
    obtain ⟨sign0, hsign, hr⟩ := bind_eq_ok.mp hr
    obtain ⟨body0, hbody, hr⟩ := bind_eq_ok.mp hr
    cases hr
    apply Expr.bind_func_agree _ _ hsign hdeclared
    · exact fun env => Expr.bindBody_agree hbody (body.bind_agree body0 hbody env .none)
    · rfl
    · rfl
  | .cond _ _ _ condition thenBranch elseBranch => condition.bind_agree.bind fun c0 hc =>
    thenBranch.bind_agree.bind fun t0 ht => elseBranch.bind_agree.bind fun e0 he => .ok fun env _ _ _ => by
      refine (hc env .none).bind fun a b hab => .after fun thenEnv => ?_
      refine (ht thenEnv .none).bind fun a' b' hab' => .after fun elseEnv => ?_
      refine (he elseEnv .none).bind fun a'' b'' hab'' => .pure ?_
      simp only [Expr.unmark, Mark.blank, hab, hab', hab'']
  | .matching _ subject cases => subject.bind_agree.bind fun s0 hs =>
    (MatchCase.bindAll_agree cases).bind fun cs0 hcs => .ok fun env _ _ _ => (hs env .none).bind fun a b hab =>
    (hcs env).bind fun as bs habs =>
      .pure (by simp only [Expr.unmark, Mark.blank, hab, habs])
  | .letBinding _ => .ok fun _ _ _ _ => .after fun _ => .pure rfl
  | .binary _ _ left right => left.bind_agree.bind fun l0 hl => right.bind_agree.bind fun r0 hr =>
    .ok fun env _ _ _ => (hl env .none).bind fun a b hab => (hr env .none).bind fun a' b' hab' =>
      .pure (by simp only [Expr.unmark, Ident.bind, Ident.blank, Mark.blank, hab, hab'])
  | .unary _ _ operand => operand.bind_agree.bind fun o0 ho => .ok fun env _ _ _ => (ho env .none).bind fun a b hab =>
    .pure (by simp only [Expr.unmark, Ident.bind, Ident.blank, Mark.blank, hab])
  | .call _ callee args => callee.bind_agree.bind fun c0 hc => (Labelled.bindAll_agree args).bind fun as0 has =>
    .ok fun env _ _ _ => (hc env .none).bind fun a b hab => (has env).bind fun as bs habs =>
      .pure (by simp only [Expr.unmark, Mark.blank, hab, habs])
  | .argument ⟨_, _, value⟩ => value.bind_agree.bind fun v0 hv => .ok fun env _ _ _ =>
    (hv env .none).bind fun a b hab => .pure (by simp only [Expr.unmark, Mark.blank, hab])
  | .tuple _ _ elems => (Labelled.bindAll_agree elems).bind fun es0 hes => .ok fun env _ _ _ =>
    (hes env).bind fun as bs habs => .pure (by simp only [Expr.unmark, Mark.blank, habs])
  | .element ⟨_, _, value⟩ => value.bind_agree.bind fun v0 hv => .ok fun env _ _ _ => (hv env .none).bind fun a b hab =>
    .pure (by simp only [Expr.unmark, Mark.blank, hab])
  | .select _ owner _ => owner.bind_agree.bind fun o0 ho => .ok fun env _ _ _ => (ho env .none).bind fun a b hab =>
    .pure (by simp only [Expr.unmark, Mark.blank, hab])
  | .ident _ => .ok fun _ _ _ _ => .pure rfl
  | .literal .. => .ok fun _ _ _ _ => .pure rfl
theorem Labelled.bindAll_agree : ∀ xs : List (Option Labelled), Ensures (fun xs0 => ∀ env : Enclosure,
    Agree (fun a b => Labelled.unmarkAll a = Labelled.unmarkAll b) (Labelled.bindAll env xs) (Labelled.bindAll env xs0))
    (Labelled.blankAll xs)
  | [] => .ok fun _ => .pure rfl
  | none :: _ => .error
  | some ⟨_, _, value⟩ :: rest => value.bind_agree.bind fun v0 hv =>
    (Labelled.bindAll_agree rest).bind fun rest0 hrest => .ok fun env => (hv env .none).bind fun a b hab =>
    (hrest env).bind fun as bs habs =>
      .pure (by simp only [Labelled.unmarkAll, Mark.blank, hab, habs])
theorem MatchCase.bind_agree : ∀ x : MatchCase,
    Ensures (fun x0 => ∀ env : Enclosure, Agree (fun a b => a.unmark = b.unmark) (x.bind env) (x0.bind env)) x.blank
  | ⟨_, pattern, value, _⟩ => pattern.bind_agree.bind fun p0 hp => value.bind_agree.bind fun v0 hv =>
    .ok fun env => .after fun within => (hp within .none).bind fun a b hab => (hv within .none).bind fun a' b' hab' =>
      .pure (by simp only [MatchCase.unmark, hab, hab'])
theorem MatchCase.bindAll_agree : ∀ xs : List (Option MatchCase), Ensures (fun xs0 => ∀ env : Enclosure,
    Agree (fun a b => MatchCase.unmarkAll a = MatchCase.unmarkAll b) (MatchCase.bindAll env xs)
    (MatchCase.bindAll env xs0))
      (MatchCase.blankAll xs)
  | [] => .ok fun _ => .pure rfl
  | none :: _ => .error
  | some x :: rest => x.bind_agree.bind fun x0 hx => (MatchCase.bindAll_agree rest).bind fun rest0 hrest =>
    .ok fun env => (hx env).bind fun a b hab => (hrest env).bind fun as bs habs =>
      .pure (by simp only [MatchCase.unmarkAll, hab, habs])
end

theorem Expr.blank_ne_func (h : ∀ f, e ≠ .func f) : Ensures (fun e0 => ∀ f, e0 ≠ .func f) e.blank := by
  cases e with
  | func f => exact absurd rfl (h f)
  | missing | letBinding | ident | literal => exact .ok (by simp)
  | cond =>
    exact Ensures.trivial.bind fun _ _ => Ensures.trivial.bind fun _ _ => Ensures.trivial.bind fun _ _ => .ok (by simp)
  | matching | binary | call => exact Ensures.trivial.bind fun _ _ => Ensures.trivial.bind fun _ _ => .ok (by simp)
  | argument a | element a =>
    cases a
    exact Ensures.trivial.bind fun _ _ => .ok (by simp)
  | unary | tuple | select => exact Ensures.trivial.bind fun _ _ => .ok (by simp)

/-! ### Modules -/

/-- What was declared ahead for a statement is the same, up to old slots. -/
inductive Node.SameAhead : Node → Node → Node → Prop where
  | typeAlias {a b b0 : TypeAlias} (scope : b.scope = b0.scope) (symbol : b.symbol = b0.symbol) :
      SameAhead (.alias a) (.alias b) (.alias b0)
  | expr {e : Expr} {ahead ahead0 : Node} (h : Option.Rel Func.SameDeclared ahead.declaredFunc? ahead0.declaredFunc?) :
      SameAhead (.expr e) ahead ahead0

inductive Node.SameAheads : List Node → List Node → List Node → Prop where
  | nil : SameAheads [] [] []
  | cons {n ahead ahead0 : Node} {ns aheads aheads0 : List Node} (h : n.SameAhead ahead ahead0)
      (hs : SameAheads ns aheads aheads0) : SameAheads (n :: ns) (ahead :: aheads) (ahead0 :: aheads0)

theorem TypeAlias.declare_agree (i : ScopeId) {a a0 : TypeAlias} (htoken : a.token = a0.token)
    (hname : a.name = a0.name) :
    Agree (fun b b0 => b.scope = b0.scope ∧ b.symbol = b0.symbol) (a.declare i) (a0.declare i) := by
  unfold TypeAlias.declare
  rw [htoken, hname]
  exact .after fun symbol => .pure ⟨rfl, rfl⟩

theorem Expr.declareAhead_agree (i : ScopeId) (h : e.blank = .ok e0) :
    Agree (fun b b0 => (Node.expr e).SameAhead b b0) ((Node.expr e).declareAhead i)
    ((Node.expr e0).declareAhead i) := by
  by_cases hfunc : ∃ f, e = .func f
  · obtain ⟨⟨mark, name, sign, body, scope, inner, symbol, params⟩, rfl⟩ := hfunc
    rw [Expr.blank_func] at h
    obtain ⟨sign0, hsign, h⟩ := bind_eq_ok.mp h
    obtain ⟨body0, -, h⟩ := bind_eq_ok.mp h
    cases h
    rw [Node.declareAhead, Node.declareAhead]
    by_cases hname : name = ""
    · simp only [hname, if_pos]
      exact .pure (.expr .none)
    · simp only [hname, if_neg, not_false_eq_true]
      refine (Func.declare_agree i ?_ ?_ ?_).bind fun f g hfg => .pure (.expr ?_)
      · rfl
      · rfl
      · exact hsign
      · simp only [Node.declaredFunc?, hfg.name]
        split
        · exact .none
        · exact .some hfg
  · have hfunc0 : ∀ f, e0 ≠ .func f := Expr.blank_ne_func (by simpa using hfunc) e0 h
    have hahead {e : Expr} (h : ∀ f, e ≠ .func f) : (Node.expr e).declareAhead i = Pure.pure (.expr e) ∧
        (Node.expr e).declaredFunc? = none := by
      cases e with
      | func f => exact absurd rfl (h f)
      | _ => exact ⟨rfl, rfl⟩
    obtain ⟨hrun, hnone⟩ := hahead (by simpa using hfunc)
    obtain ⟨hrun0, hnone0⟩ := hahead hfunc0
    rw [hrun, hrun0]
    refine .pure (.expr ?_)
    rw [hnone, hnone0]
    exact .none

theorem Node.declareAhead_agree (i : ScopeId) (hn : n.IsStatement) (h : n.copy = .ok n0) :
    Agree n.SameAhead (n.declareAhead i) (n0.declareAhead i) := by
  cases hn with
  | typeAlias a =>
    obtain ⟨s0, -, h⟩ := bind_eq_ok.mp h
    cases h
    refine (TypeAlias.declare_agree i ?_ ?_).bind fun b b0 hb => .pure (.typeAlias hb.1 hb.2) <;> rfl
  | expr e =>
    obtain ⟨e0, he, h⟩ := bind_eq_ok.mp h
    cases h
    exact Expr.declareAhead_agree i (Expr.blank_of_copy he)

theorem Node.declareAheads_agree (i : ScopeId) : ∀ {ns ns0 : List Node}, (∀ n ∈ ns, n.IsStatement) →
    Node.copyAll ns = .ok ns0 →
    Agree (Node.SameAheads ns) (ns.mapM (Node.declareAhead i)) (ns0.mapM (Node.declareAhead i))
  | [], _, _, h => by
    cases h
    exact .pure .nil
  | n :: ns, _, hns, h => by
    obtain ⟨hn, hns⟩ := forall_mem_cons.mp hns
    obtain ⟨n0, hcopy, h⟩ := bind_eq_ok.mp h
    obtain ⟨ns0, hcopies, h⟩ := bind_eq_ok.mp h
    cases h
    rw [mapM_cons, mapM_cons]
    exact (Node.declareAhead_agree i hn hcopy).bind fun a b hab =>
      (Node.declareAheads_agree i hns hcopies).bind fun as bs habs => .pure (.cons hab habs)

theorem Node.bind_agree (env : Enclosure) {ahead ahead0 : Node} (h : n.copy = .ok n0)
    (hahead : n.SameAhead ahead ahead0) :
    Agree (fun p q => p.1.unmark = q.1.unmark ∧ p.2 = q.2) (Node.bind env ahead n) (Node.bind env ahead0 n0) := by
  cases hahead with
  | @typeAlias a b b0 hscope hsymbol =>
    obtain ⟨s0, hs, h⟩ := bind_eq_ok.mp h
    cases h
    refine (Agree.lift (a.sign.inScope_both env.scope s0 hs)).bind fun s s' hss => .pure ⟨?_, rfl⟩
    simp only [Node.unmark, Node.declaredAlias, hscope, hsymbol, hss]
  | @expr e _ _ hdeclared =>
    obtain ⟨e0, he, h⟩ := bind_eq_ok.mp h
    cases h
    exact (e.bind_agree e0 (Expr.blank_of_copy he) env hdeclared).bind fun a b hab =>
      .pure ⟨congrArg Node.expr hab, rfl⟩

theorem Node.bindAll_agree : ∀ {ns ns0 aheads aheads0 : List Node} (env : Enclosure), Node.copyAll ns = .ok ns0 →
    Node.SameAheads ns aheads aheads0 →
    Agree (fun p q => p.1.map Node.unmark = q.1.map Node.unmark ∧ p.2 = q.2) (Node.bindAll env aheads ns)
    (Node.bindAll env aheads0 ns0)
  | _, _, _, _, _, h, .nil => by
    cases h
    exact .pure ⟨rfl, rfl⟩
  | n :: ns, _, _, _, env, h, .cons hahead haheads => by
    obtain ⟨n0, hcopy, h⟩ := bind_eq_ok.mp h
    obtain ⟨ns0, hcopies, h⟩ := bind_eq_ok.mp h
    cases h
    refine (Node.bind_agree env hcopy hahead).bind fun ⟨a, env'⟩ ⟨b, _⟩ ⟨hab, henv⟩ => ?_
    obtain rfl : env' = _ := henv
    refine (Node.bindAll_agree env' hcopies haheads).bind fun as bs habs => .pure ⟨?_, habs.2⟩
    rw [map_cons, map_cons, hab, habs.1]

/-- **Binding a module agrees with binding its copy.** -/
theorem Module.bind_agree {m m0 : Module} (hm : ∀ n ∈ m.statements, n.IsStatement) (h : m.copy = .ok m0) :
    Agree (fun p q => p.1.unmark = q.1.unmark) m.bind m0.bind := by
  obtain ⟨token, name, id, statements, scope⟩ := m
  obtain ⟨statements0, hcopies, h⟩ := bind_eq_ok.mp h
  cases h
  refine .after fun c => .after fun i => (Node.declareAheads_agree i hm hcopies).bind fun aheads aheads0 haheads => ?_
  refine (Node.bindAll_agree _ hcopies haheads).bind fun p q hpq => .pure ?_
  simp only [Module.unmark, hpq.1]

end TypeInference
