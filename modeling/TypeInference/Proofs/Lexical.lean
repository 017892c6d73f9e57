import TypeInference.Proofs.Constructs
import TypeInference.Proofs.Slots

/-! # Trees in lexical scopes

In a tree in lexical scopes every name stands in the scope of the innermost construct around it, and every construct
that opens a scope has opened it inside of the scope that it stands in, and declares in it what its parts declare
(`Expr.Lexical`). Binding an intact module comes to a result, which is in lexical scopes (`Module.bind_lexical`), and
typing leaves it so (`Module.oblige_lexical`). -/

namespace TypeInference

open AnalysisM SymbolTable
open List

/-! ### Names and declarations of a tree -/

mutual
/-- What an expression declares in the scope that it stands in; what it declares in scopes of its own is not among
it. -/
def Expr.declares : Expr → List Declaration
  | .missing | .ident _ | .literal .. => []
  | .func ⟨_, name, _, _, _, _, symbol, _⟩ => if name = "" then [] else [⟨name, true, symbol⟩]
  | .cond _ _ _ condition _ _ => condition.declares
  | .matching _ subject _ => subject.declares
  | .letBinding b => [⟨b.name, false, b.symbol⟩]
  | .binary _ _ left right => left.declares ++ right.declares
  | .unary _ _ operand => operand.declares
  | .call _ callee args => callee.declares ++ Labelled.declares args
  | .argument ⟨_, _, value⟩ => value.declares
  | .tuple _ _ elems => Labelled.declares elems
  | .element ⟨_, _, value⟩ => value.declares
  | .select _ owner _ => owner.declares
def Labelled.declares : List (Option Labelled) → List Declaration
  | [] => []
  | none :: rest => Labelled.declares rest
  | some ⟨_, _, value⟩ :: rest => value.declares ++ Labelled.declares rest
end

theorem Expr.declares_func (f : Func) :
    (Expr.func f).declares = if f.name = "" then [] else [⟨f.name, true, f.symbol⟩] := by
  cases f
  rfl

/-- What a statement declares before the statements of the module are looked at: functions and type aliases. -/
def Node.declaresAhead : Node → List Declaration
  | .alias a => [⟨a.name, false, a.symbol⟩]
  | .expr (.func f) => (Expr.func f).declares
  | _ => []

/-- What a statement declares when its turn comes. -/
def Node.declaresLater : Node → List Declaration
  | .expr (.func _) => []
  | .expr e => e.declares
  | _ => []

/-- What a module declares in its scope. -/
def Module.declares (m : Module) : List Declaration :=
  m.statements.flatMap Node.declaresAhead ++ m.statements.flatMap Node.declaresLater

/-! ### Lexical scopes -/

mutual
/-- The expression stands in the scope, and so do its parts, except for those that stand in scopes of their own. -/
def Expr.Lexical (t : SymbolTable) (scope : ScopeId) : Expr → Prop
  | .missing | .literal .. => True
  | .func ⟨_, _, sign, body, own, inner, _, params⟩ =>
    own = scope ∧ (∀ s ∈ sign, ∀ n ∈ s.typeNames, n.scope = scope) ∧
      params.length = (FuncSign.parameterNames sign).eraseDups.length ∧
      t.Opens scope inner (FuncSign.declares sign params ++ body.declares) ∧ body.Lexical t inner
  | .cond _ thenScope elseScope condition thenBranch elseBranch =>
    condition.Lexical t scope ∧ (t.Opens scope thenScope thenBranch.declares ∧ thenBranch.Lexical t thenScope) ∧
      (t.Opens scope elseScope elseBranch.declares ∧ elseBranch.Lexical t elseScope)
  | .matching _ subject cases => subject.Lexical t scope ∧ MatchCase.AllLexical t scope cases
  | .letBinding b => b.scope = scope
  | .binary _ op left right => op.scope = scope ∧ left.Lexical t scope ∧ right.Lexical t scope
  | .unary _ op operand => op.scope = scope ∧ operand.Lexical t scope
  | .call _ callee args => callee.Lexical t scope ∧ Labelled.AllLexical t scope args
  | .argument ⟨_, _, value⟩ => value.Lexical t scope
  | .tuple _ _ elems => Labelled.AllLexical t scope elems
  | .element ⟨_, _, value⟩ => value.Lexical t scope
  | .select _ owner _ => owner.Lexical t scope
  | .ident i => i.scope = scope
def Labelled.AllLexical (t : SymbolTable) (scope : ScopeId) : List (Option Labelled) → Prop
  | [] => True
  | none :: rest => Labelled.AllLexical t scope rest
  | some ⟨_, _, value⟩ :: rest => value.Lexical t scope ∧ Labelled.AllLexical t scope rest
/-- The pattern and the value of a case stand in the scope of the case. -/
def MatchCase.AllLexical (t : SymbolTable) (scope : ScopeId) : List (Option MatchCase) → Prop
  | [] => True
  | none :: rest => MatchCase.AllLexical t scope rest
  | some ⟨_, pattern, value, inner⟩ :: rest =>
    (t.Opens scope inner (pattern.declares ++ value.declares) ∧ pattern.Lexical t inner ∧ value.Lexical t inner) ∧
      MatchCase.AllLexical t scope rest
end

def Node.Lexical (t : SymbolTable) (scope : ScopeId) : Node → Prop
  | .alias a => a.scope = scope ∧ ∀ n ∈ a.sign.typeNames, n.scope = scope
  | .expr e => e.Lexical t scope
  | _ => False

section

variable {t t1 : SymbolTable} {i : ScopeId}

mutual
theorem Expr.Lexical.mono (hg : GrowsAt i t t1) : ∀ {e : Expr} {scope : ScopeId}, i ≤ scope → e.Lexical t scope →
    e.Lexical t1 scope
  | .missing, _, _, _ => trivial
  | .literal .., _, _, _ => trivial
  | .func ⟨_, _, _, body, _, _, _, _⟩, _, hi, ⟨hown, hsign, hparams, hopens, hbody⟩ =>
    ⟨hown, hsign, hparams, hopens.mono hg hi,
      Expr.Lexical.mono (e := body) hg (Int.le_trans hi (Int.le_of_lt hopens.order)) hbody⟩
  | .cond .., _, hi, ⟨hcondition, ⟨hthen, hthenBranch⟩, helse, helseBranch⟩ =>
    ⟨Expr.Lexical.mono hg hi hcondition,
      ⟨hthen.mono hg hi, Expr.Lexical.mono hg (Int.le_trans hi (Int.le_of_lt hthen.order)) hthenBranch⟩,
      helse.mono hg hi, Expr.Lexical.mono hg (Int.le_trans hi (Int.le_of_lt helse.order)) helseBranch⟩
  | .matching .., _, hi, ⟨hsubject, hcases⟩ =>
    ⟨Expr.Lexical.mono hg hi hsubject, MatchCase.AllLexical.mono hg hi hcases⟩
  | .letBinding _, _, _, h => h
  | .binary .., _, hi, ⟨hop, hleft, hright⟩ => ⟨hop, Expr.Lexical.mono hg hi hleft, Expr.Lexical.mono hg hi hright⟩
  | .unary .., _, hi, ⟨hop, hoperand⟩ => ⟨hop, Expr.Lexical.mono hg hi hoperand⟩
  | .call .., _, hi, ⟨hcallee, hargs⟩ => ⟨Expr.Lexical.mono hg hi hcallee, Labelled.AllLexical.mono hg hi hargs⟩
  | .argument ⟨_, _, value⟩, _, hi, h => Expr.Lexical.mono (e := value) hg hi h
  | .tuple .., _, hi, h => Labelled.AllLexical.mono hg hi h
  | .element ⟨_, _, value⟩, _, hi, h => Expr.Lexical.mono (e := value) hg hi h
  | .select _ owner _, _, hi, h => Expr.Lexical.mono (e := owner) hg hi h
  | .ident _, _, _, h => h
theorem Labelled.AllLexical.mono (hg : GrowsAt i t t1) : ∀ {l : List (Option Labelled)} {scope : ScopeId}, i ≤ scope →
    Labelled.AllLexical t scope l → Labelled.AllLexical t1 scope l
  | [], _, _, _ => trivial
  | none :: rest, _, hi, h => Labelled.AllLexical.mono (l := rest) hg hi h
  | some ⟨_, _, _⟩ :: _, _, hi, ⟨hvalue, hrest⟩ =>
    ⟨Expr.Lexical.mono hg hi hvalue, Labelled.AllLexical.mono hg hi hrest⟩
theorem MatchCase.AllLexical.mono (hg : GrowsAt i t t1) : ∀ {l : List (Option MatchCase)} {scope : ScopeId}, i ≤ scope →
    MatchCase.AllLexical t scope l → MatchCase.AllLexical t1 scope l
  | [], _, _, _ => trivial
  | none :: rest, _, hi, h => MatchCase.AllLexical.mono (l := rest) hg hi h
  | some ⟨_, _, _, _⟩ :: _, _, hi, ⟨⟨hopens, hpattern, hvalue⟩, hrest⟩ =>
    have hinner := Int.le_trans hi (Int.le_of_lt hopens.order)
    ⟨⟨hopens.mono hg hi, Expr.Lexical.mono hg hinner hpattern, Expr.Lexical.mono hg hinner hvalue⟩,
      MatchCase.AllLexical.mono hg hi hrest⟩
end

theorem Node.Lexical.mono (hg : GrowsAt i t t1) {n : Node} (h : n.Lexical t i) : n.Lexical t1 i := by
  cases n with
  | «alias» a => exact h
  | expr e => exact Expr.Lexical.mono hg (Int.le_refl i) h
  | _ => exact h.elim

end

/-! ### Signatures -/

section

variable {i : ScopeId}

theorem SignElem.parameterNames_mapAllNames {h : TypeName → TypeName} (es : List (Option SignElem)) :
    SignElem.parameterNames (SignElem.mapAllNames h es) = SignElem.parameterNames es := by
  induction es with
  | nil => rfl
  | cons e es ih =>
    cases e with
    | none => exact ih
    | some e =>
      rw [SignElem.mapAllNames, SignElem.parameterNames_cons, SignElem.parameterNames_cons, ih]
      cases e
      rfl

theorem FuncSign.parameterNames_mapNames {h : TypeName → TypeName} : ∀ f : FuncSign,
    FuncSign.parameterNames (some (f.mapNames h)) = FuncSign.parameterNames (some f)
  | ⟨_, none, _⟩ => rfl
  | ⟨_, some ⟨_, _, elems⟩, _⟩ => SignElem.parameterNames_mapAllNames elems

/-- The type names of a signature that is bound stand in the scope, and the parameters keep their names. -/
theorem FuncSign.bindIfAny_typeNames {c c1 : Context} {sign sign' : Option FuncSign}
    (h : (FuncSign.bindIfAny i sign).run c = .ok (sign', c1)) : c1 = c ∧ (∀ s ∈ sign', ∀ n ∈ s.typeNames, n.scope = i) ∧
      FuncSign.parameterNames sign' = FuncSign.parameterNames sign := by
  cases sign with
  | none =>
    cases h
    exact ⟨rfl, by simp, rfl⟩
  | some s =>
    obtain ⟨s', c2, hlift, h⟩ := run_bind_eq_ok.mp h
    obtain ⟨s'', hs, heq⟩ := run_lift_eq_ok.mp hlift
    cases heq
    cases h
    obtain ⟨rfl, -⟩ := s.inScope_comes.ensures s' hs
    refine ⟨rfl, ?_, s.parameterNames_mapNames⟩
    rintro _ ⟨⟩ n hn
    exact FuncSign.scope_inside hn

end

/-! ### Functions -/

section

variable {c c1 : Context} {i : ScopeId}

/-- The function was declared in the scope: its type has a field for each parameter. -/
structure Func.Prepared (c : Context) (i : ScopeId) (f : Func) : Prop where
  scope : f.scope = i
  sign : ∀ s ∈ f.sign, s.Intact
  type : ∃ k d u label fields, f.mark.type = .node k ∧ c.graph.get? k = some (.function (some d) u) ∧
    c.graph.get? d = some (.tuple label fields) ∧ fields.length = f.parameters.length

theorem Func.Prepared.mono {f : Func} (h : f.Prepared c i) (hlater : Later c c1) : f.Prepared c1 i where
  scope := h.scope
  sign := h.sign
  type := by
    obtain ⟨k, d, u, label, fields, htype, hk, hd, hlength⟩ := h.type
    exact ⟨k, d, u, label, fields, htype, hlater.graph k _ hk, hlater.graph d _ hd, hlength⟩

theorem parameterFields_length : ∀ {params : List (Option SignElem)} {c c1 : Context} {fields : List TupleField},
    (params.mapM fun
      | some e => do return { label := e.label, type := ← fresh : TupleField }
      | none => throw .missing : AnalysisM (List TupleField)).run c = .ok (fields, c1) →
      fields.length = params.length ∧ c1.table = c.table
  | [], c, c1, fields, h => by
    cases h
    exact ⟨rfl, rfl⟩
  | p :: params, c, c1, fields, h => by
    rw [mapM_cons] at h
    obtain ⟨f, c2, hf, h⟩ := run_bind_eq_ok.mp h
    obtain ⟨fs, c3, hfs, h⟩ := run_bind_eq_ok.mp h
    cases h
    obtain ⟨hlength, htable⟩ := parameterFields_length hfs
    cases p with
    | none => cases hf
    | some e =>
      cases hf
      exact ⟨congrArg Nat.succ hlength, htable⟩

theorem Func.declare_gains (hi : c.HasScope i) {f : Func} (h : ∀ s ∈ f.sign, s.Intact) :
    Succeeds c (fun f' c1 => f'.Prepared c1 i ∧ Gains i (Expr.func f').declares c.table c1.table) (f.declare i) := by
  refine ((parameterFields_succeeds (Func.parameters_ne_none h)).also parameterFields_length).bind
    fun fields c1 hlater1 hfields => ?_
  obtain ⟨hfields, hlength, htable1⟩ := hfields
  refine fresh_succeeds.bind fun codomain c2 hlater2 hcodomain => ?_
  obtain ⟨hcodomain, htable2⟩ := hcodomain
  have hfunction := newFunction_succeeds (fun f hf => hlater2.has (hfields f hf)) hcodomain
  refine (hfunction.also (Q := fun type c3 => c3.table = c2.table ∧ ∃ k d, type = .node k ∧
    c3.graph.get? k = some (.function (some d) codomain) ∧ c3.graph.get? d = some (.tuple "" fields))
    fun {type c3} hrun => ?_).bind fun type c3 hlater3 htype => ?_
  · obtain ⟨hbuilds, k, d, rfl, hd, hk⟩ := newFunction_builds hrun
    exact ⟨hbuilds.grows.table, k, d, rfl, hk, hd⟩
  obtain ⟨hhas, htable3, k, d, rfl, hk, hd⟩ := htype
  have htable : c3.table = c.table := htable3.trans (htable2.trans htable1)
  have hi3 := hlater3.hasScope (hlater2.hasScope (hlater1.hasScope hi))
  dsimp only
  split
  · next hname =>
    refine .pure ⟨⟨rfl, h, k, d, codomain, "", fields, rfl, hk, hd, hlength⟩, ?_⟩
    rw [Expr.declares_func, if_pos hname, htable]
    exact .refl i c.table
  · next hname =>
    refine (declareOnce_gains hi3 f.mark.token f.name (.pure ⟨hhas.has, rfl⟩) true).bind fun id c4 hlater4 hgains =>
      .pure ⟨?_, ?_⟩
    · exact ⟨rfl, h, k, d, codomain, "", fields, rfl, hlater4.graph k _ hk, hlater4.graph d _ hd, hlength⟩
    · rw [Expr.declares_func, if_neg hname, ← htable]
      exact hgains

theorem TypeAlias.declare_gains (hi : c.HasScope i) (a : TypeAlias) :
    Succeeds c (fun a' c1 => (a'.name = a.name ∧ a'.scope = i) ∧ Gains i [⟨a'.name, false, a'.symbol⟩] c.table c1.table)
    (a.declare i) := by
  refine (declareOnce_gains hi a.token a.name ?_ false).bind fun id c1 _ hgains => .pure ⟨⟨rfl, rfl⟩, hgains⟩
  refine fresh_succeeds.bind fun t c1 _ ht =>
    (newType_succeeds (by simpa [Composite.parts] using ht.1) (by simp)).imp ?_
  rintro _ c2 - ⟨⟨k, rfl, hk⟩, htable⟩
  exact ⟨Context.has_node hk, htable.trans ht.2⟩

theorem Func.parameterTypes_eq {f : Func} (h : f.Prepared c i) {ts : List Ty}
    (hrun : f.parameterTypes.run c = .ok (ts, c1)) : c1 = c ∧ ts.length = f.parameters.length := by
  obtain ⟨k, d, u, label, fields, htype, hk, hd, hlength⟩ := h.type
  have hfunction : c.graph.function? f.mark.type = some (some d, u) := by
    rw [htype, TypeGraph.function?]
    simp [hk]
  have htuple : c.graph.tuple? (.node d) = some (label, fields) := by simp [TypeGraph.tuple?, hd]
  obtain ⟨c2, c3, hget, hrun⟩ := run_bind_eq_ok.mp hrun
  cases hget
  simp only [hfunction, htuple] at hrun
  cases hrun
  exact ⟨rfl, by rw [length_map, hlength]⟩

theorem Func.Prepared.hasFunction {f : Func} (h : f.Prepared c i) : c.HasFunction f.mark.type := by
  obtain ⟨k, d, u, label, fields, htype, hk, hd, -⟩ := h.type
  exact ⟨k, d, u, label, fields, htype, hk, hd⟩

theorem Func.declareParameters_gains {f : Func} (hf : f.Prepared c i) {within : Enclosure}
    (hwithin : c.HasScope within.scope) (hnew : c.table.Holds within.scope []) :
    Succeeds c (fun params c1 => params.length = (FuncSign.parameterNames f.sign).eraseDups.length ∧
        Gains within.scope (FuncSign.declares f.sign params) c.table c1.table)
      (do declareParameters within.scope (f.parameters.zip (← f.parameterTypes))) := by
  refine ((Func.parameterTypes_succeeds hf.hasFunction).also (Func.parameterTypes_eq hf)).bind fun types c1 _ htypes =>
    ?_
  obtain ⟨hhas, rfl, hlength⟩ := htypes
  have hparams : ∀ p ∈ f.parameters.zip types, p.1 ≠ none ∧ c1.Has p.2 := fun p hp =>
    ⟨Func.parameters_ne_none hf.sign _ (of_mem_zip hp).1, hhas _ (of_mem_zip hp).2⟩
  have hnone : ∀ name, Declaration.symbolsOf name [] = [] ↔ name ∉ ([] : List String) := fun name =>
      iff_of_true rfl not_mem_nil
  refine (TypeInference.declareParameters_gains hwithin hparams hnew hnone).imp fun ids c2 _ hids => ?_
  obtain ⟨names, hnames, hids, hgains⟩ := hids
  rw [map_fst_zip hlength.ge, Func.parameterNames_eq, filter_eq_self.mpr (by simp)] at hnames
  subst hnames
  exact ⟨hids, hgains⟩

/-- A function is declared where it stands unless it was declared ahead, and its body stands in its own scope. -/
theorem Expr.bind_func_lexical {env : Enclosure} (henv : c.HasScope env.scope) {declared : Option Func}
    (hdeclared : ∀ f ∈ declared, f.Prepared c env.scope) {mark : Mark} {name : String} {sign : Option FuncSign}
    {body : Expr} {scope inner : ScopeId} {symbol : SymbolId} {params : List SymbolId} (hsign : ∀ s ∈ sign, s.Intact)
    (hbody : ∀ {c : Context} {env : Enclosure}, c.HasScope env.scope →
      Succeeds c (fun body' c1 => Gains env.scope body'.declares c.table c1.table ∧ body'.Lexical c1.table env.scope)
      (body.bindBody env)) :
    Succeeds c (fun e c1 =>
        (∃ f : Func, e = .func f ∧ (∀ g ∈ declared, (Expr.func g).declares = e.declares) ∧
          (declared = none → f.name = name)) ∧
        Gains env.scope (if declared.isSome then [] else e.declares) c.table c1.table ∧ e.Lexical c1.table env.scope)
      ((Expr.func ⟨mark, name, sign, body, scope, inner, symbol, params⟩).bind env declared) := by
  rw [Expr.bind_func]
  have hprepared :
      Succeeds c (fun f c1 => f.Prepared c1 env.scope ∧ ((∀ g ∈ declared, g = f) ∧ (declared = none → f.name = name)) ∧
      Gains env.scope (if declared.isSome then [] else (Expr.func f).declares) c.table c1.table)
      (Func.declareUnless env ⟨mark, name, sign, body, scope, inner, symbol, params⟩ declared) := by
    cases declared with
    | none =>
      refine ((Func.declare_gains henv hsign).also fun hrun => Func.declare_sameHead env.scope _ hrun).imp
        fun f c1 _ hf => ?_
      exact ⟨hf.1.1, ⟨by simp, fun _ => hf.2.name⟩, hf.1.2⟩
    | some f => exact .pure ⟨hdeclared f rfl, by simp, .refl env.scope c.table⟩
  refine hprepared.bind fun f c1 hlater1 hf => ?_
  obtain ⟨hf, ⟨hahead, hname⟩, hgains⟩ := hf
  have henv1 := hlater1.hasScope henv
  have hsigned : Succeeds c1 (fun _ _ => True) (FuncSign.bindIfAny env.scope f.sign) := by
    cases hs : f.sign with
    | none => exact .pure trivial
    | some s =>
      have hlift : Succeeds c1 (fun _ _ => True) (liftM (s.inScope env.scope) : AnalysisM FuncSign) :=
        .lift fun _ => (FuncSign.inScope_gives henv1 (hf.sign s hs)).imp fun _ => And.imp_right fun _ => trivial
      exact hlift.bind fun _ _ _ _ => .pure trivial
  refine (hsigned.also FuncSign.bindIfAny_typeNames).bind fun sign' c2 _ hsign' => ?_
  obtain ⟨-, rfl, hnames, hparams⟩ := hsign'
  refine (enter_opens henv1 f.name .function).bind fun within c3 hlater3 hwithin => ?_
  obtain ⟨hwithin, hopens, hnew, hgrows⟩ := hwithin
  have hdeclares := Func.declareParameters_gains (hf.mono hlater3) hwithin hopens.holds
  rw [← bind_assoc]
  refine hdeclares.bind fun params' c4 hlater4 hparams' => ?_
  refine (hbody (hlater4.hasScope hwithin)).bind fun body' c5 hlater5 hbody' => .pure ?_
  obtain ⟨hlength, hgained⟩ := hparams'
  obtain ⟨hbodyGains, hbodyLexical⟩ := hbody'
  obtain ⟨hinside, hopened⟩ := hopens.own hnew (hgrows env.scope) (hgained.trans hbodyGains)
  have hall := hgains.trans hinside
  rw [List.append_nil] at hall
  rw [FuncSign.declares, ← hparams] at hopened
  refine ⟨⟨_, rfl, fun g hg => ?_, hname⟩, ?_, hf.scope, hnames, hparams ▸ hlength, hopened, hbodyLexical⟩
  · rw [hahead g hg, Expr.declares_func, Expr.declares_func]
  · rw [Expr.declares_func] at hall ⊢
    exact hall

end

/-! ### Expressions -/

theorem Expr.bindBody_lexical {body : Expr} {operators : Bool} {c : Context} {env : Enclosure}
    (h : body = .missing ∨ body.Intact operators) (hbind : body.Intact operators →
      Succeeds c (fun e' c1 => Gains env.scope e'.declares c.table c1.table ∧ e'.Lexical c1.table env.scope)
      (body.bind env none)) :
    Succeeds c (fun e' c1 => Gains env.scope e'.declares c.table c1.table ∧ e'.Lexical c1.table env.scope)
    (body.bindBody env) := by
  rcases h with rfl | h
  · exact .pure ⟨.refl env.scope c.table, trivial⟩
  · have heq : body.bindBody env = body.bind env none := by
      cases body with
      | missing => exact h.elim
      | _ => rfl
    rw [heq]
    exact hbind h

mutual
/-- Binding comes to a result on every intact expression, and the result is in lexical scopes. -/
theorem Expr.bind_lexical : ∀ (e : Expr) {c : Context} {env : Enclosure} {operators : Bool}, e.Intact operators →
    c.HasScope env.scope → Succeeds c (fun e' c1 => Gains env.scope e'.declares c.table c1.table ∧
    e'.Lexical c1.table env.scope) (e.bind env none)
  | .missing, _, _, _, h, _ => h.elim
  | .func ⟨_, _, _, body, _, _, _, _⟩, c, env, _, ⟨hsign, hbody⟩, henv => by
    refine (Expr.bind_func_lexical henv (by simp) hsign fun {c env} henv => ?_).imp fun e' c1 _ he' => he'.2
    exact Expr.bindBody_lexical hbody fun hbody => body.bind_lexical hbody henv
  | .cond _ _ _ condition thenBranch elseBranch, c, env, _, ⟨hcondition, hthen, helse⟩, henv => by
    refine (condition.bind_lexical hcondition henv).bind fun a c1 hlater1 ha => ?_
    obtain ⟨hgains, ha⟩ := ha
    refine (enter_opens (hlater1.hasScope henv) "" .branch).bind fun thenEnv c2 hlater2 hthenEnv => ?_
    obtain ⟨hthenScope, hthenOpens, hthenNew, hthenGrows⟩ := hthenEnv
    refine (thenBranch.bind_lexical hthen hthenScope).bind fun b c3 hlater3 hb => ?_
    obtain ⟨hbGains, hb⟩ := hb
    have hlater := (hlater1.trans hlater2).trans hlater3
    refine (enter_opens (hlater.hasScope henv) "" .branch).bind fun elseEnv c4 hlater4 helseEnv => ?_
    obtain ⟨helseScope, helseOpens, helseNew, helseGrows⟩ := helseEnv
    refine (elseBranch.bind_lexical helse helseScope).bind fun d c5 hlater5 hd => .pure ?_
    obtain ⟨hdGains, hd⟩ := hd
    -- each branch stands in a scope of its own and leaves the scopes around it as they were
    obtain ⟨hgains3, hthenOpens⟩ := hthenOpens.own hthenNew (hthenGrows env.scope) hbGains
    obtain ⟨hgains5, helseOpens⟩ := helseOpens.own helseNew (helseGrows env.scope) hdGains
    have hbranches := hgains3.trans hgains5
    have hall := hgains.trans hbranches
    rw [List.append_nil, List.append_nil] at hall
    refine ⟨hall, ha.mono hbranches.toGrowsAt (Int.le_refl _), ⟨hthenOpens.mono hgains5.toGrowsAt (Int.le_refl _), ?_⟩,
      helseOpens, hd⟩
    exact hb.mono hgains5.toGrowsAt (Int.le_of_lt hthenOpens.order)
  | .matching _ subject cases, c, env, _, ⟨hsubject, hcases⟩, henv => by
    refine (subject.bind_lexical hsubject henv).bind fun a c1 hlater1 ha => ?_
    refine (MatchCase.bindAll_lexical cases hcases (hlater1.hasScope henv)).bind fun b c2 hlater2 hb => .pure ?_
    have hgains := ha.1.trans hb.1
    rw [List.append_nil] at hgains
    exact ⟨hgains, ha.2.mono hb.1.toGrowsAt (Int.le_refl _), hb.2⟩
  | .letBinding b, c, env, _, _, henv =>
    (declareOnce_gains henv b.mark.token b.name fresh_succeeds false).bind fun id c1 _ hid => .pure ⟨hid, rfl⟩
  | .binary _ _ left right, c, env, _, ⟨_, hleft, hright⟩, henv => by
    refine (left.bind_lexical hleft henv).bind fun a c1 hlater1 ha => ?_
    refine (right.bind_lexical hright (hlater1.hasScope henv)).bind fun b c2 hlater2 hb => .pure ?_
    exact ⟨ha.1.trans hb.1, rfl, ha.2.mono hb.1.toGrowsAt (Int.le_refl _), hb.2⟩
  | .unary _ _ operand, c, env, _, ⟨_, hoperand⟩, henv =>
    (operand.bind_lexical hoperand henv).bind fun a c1 _ ha => .pure ⟨ha.1, rfl, ha.2⟩
  | .call _ callee args, c, env, _, ⟨hcallee, hargs⟩, henv => by
    refine (callee.bind_lexical hcallee henv).bind fun a c1 hlater1 ha => ?_
    refine (Labelled.bindAll_lexical args hargs (hlater1.hasScope henv)).bind fun b c2 hlater2 hb => .pure ?_
    exact ⟨ha.1.trans hb.1, ha.2.mono hb.1.toGrowsAt (Int.le_refl _), hb.2⟩
  | .argument ⟨_, _, value⟩, c, env, _, h, henv => (value.bind_lexical h henv).bind fun a c1 _ ha => .pure ha
  | .tuple _ _ elems, c, env, _, h, henv => (Labelled.bindAll_lexical elems h henv).bind fun a c1 _ ha => .pure ha
  | .element ⟨_, _, value⟩, c, env, _, h, henv => (value.bind_lexical h henv).bind fun a c1 _ ha => .pure ha
  | .select _ owner _, c, env, _, h, henv => (owner.bind_lexical h henv).bind fun a c1 _ ha => .pure ha
  | .ident _, c, env, _, _, _ => .pure ⟨.refl env.scope c.table, rfl⟩
  | .literal .., c, env, _, _, _ => .pure ⟨.refl env.scope c.table, trivial⟩
theorem Labelled.bindAll_lexical : ∀ (l : List (Option Labelled)) {c : Context} {env : Enclosure} {operators : Bool},
    Labelled.AllIntact operators l → c.HasScope env.scope →
    Succeeds c (fun l' c1 => Gains env.scope (Labelled.declares l') c.table c1.table ∧
    Labelled.AllLexical c1.table env.scope l')
      (Labelled.bindAll env l)
  | [], c, env, _, _, _ => .pure ⟨.refl env.scope c.table, trivial⟩
  | none :: _, _, _, _, h, _ => h.elim
  | some ⟨_, _, value⟩ :: rest, c, env, _, ⟨hvalue, hrest⟩, henv => by
    refine (value.bind_lexical hvalue henv).bind fun a c1 hlater1 ha => ?_
    refine (Labelled.bindAll_lexical rest hrest (hlater1.hasScope henv)).bind fun b c2 hlater2 hb => .pure ?_
    exact ⟨ha.1.trans hb.1, ha.2.mono hb.1.toGrowsAt (Int.le_refl _), hb.2⟩
theorem MatchCase.bindAll_lexical : ∀ (l : List (Option MatchCase)) {c : Context} {env : Enclosure} {operators : Bool},
    MatchCase.AllIntact operators l → c.HasScope env.scope →
    Succeeds c (fun l' c1 => Gains env.scope [] c.table c1.table ∧ MatchCase.AllLexical c1.table env.scope l')
    (MatchCase.bindAll env l)
  | [], c, env, _, _, _ => .pure ⟨.refl env.scope c.table, trivial⟩
  | none :: _, _, _, _, h, _ => h.elim
  | some ⟨token, pattern, value, inner⟩ :: rest, c, env, _, ⟨⟨hpattern, hvalue⟩, hrest⟩, henv => by
    have hcase : Succeeds c (fun x c1 => Gains env.scope [] c.table c1.table ∧
        MatchCase.AllLexical c1.table env.scope [some x]) (MatchCase.bind env ⟨token, pattern, value, inner⟩) := by
      refine (enter_opens henv "" .matchCase).bind fun within c1 _ hwithin => ?_
      obtain ⟨hscope, hopens, hnew, hgrows⟩ := hwithin
      refine (pattern.bind_lexical hpattern hscope).bind fun a c2 hlater2 ha => ?_
      refine (value.bind_lexical hvalue (hlater2.hasScope hscope)).bind fun b c3 _ hb => .pure ?_
      obtain ⟨hgains, hopens⟩ := hopens.own hnew (hgrows env.scope) (ha.1.trans hb.1)
      exact ⟨hgains, ⟨hopens, ha.2.mono hb.1.toGrowsAt (Int.le_refl _), hb.2⟩, trivial⟩
    refine hcase.bind fun x c1 hlater1 hx => ?_
    refine (MatchCase.bindAll_lexical rest hrest (hlater1.hasScope henv)).bind fun b c2 _ hb => .pure ?_
    have hx' := MatchCase.AllLexical.mono hb.1.toGrowsAt (Int.le_refl _) hx.2
    obtain ⟨token', pattern', value', inner'⟩ := x
    exact ⟨hx.1.trans hb.1, hx'.1, hb.2⟩
end

/-! ### Modules -/

section

variable {c c1 : Context} {i : ScopeId} {operators : Bool}

/-- What was declared ahead for a statement: a function with a name, a type alias, or nothing. -/
def Node.Awaits (c : Context) (i : ScopeId) (n ahead : Node) : Prop :=
  match n with
  | .alias a => ∃ b, ahead = .alias b ∧ b.name = a.name ∧ b.scope = i
  | .expr (.func f) => (∃ g, ahead = .expr (.func g) ∧ ahead.declaredFunc? = some g ∧ g.Prepared c i) ∨
      (f.name = "" ∧ ahead.declaredFunc? = none ∧ ahead.declaresAhead = [])
  | .expr _ => ahead.declaredFunc? = none ∧ ahead.declaresAhead = []
  | _ => False

theorem Node.declareAhead_gains (hi : c.HasScope i) {n : Node} (h : n.Intact operators) :
    Succeeds c (fun ahead c1 => n.Awaits c1 i ahead ∧ Gains i ahead.declaresAhead c.table c1.table)
    (n.declareAhead i) := by
  cases n with
  | «alias» a => exact (a.declare_gains hi).bind fun a' c1 _ ha' => .pure ⟨⟨a', rfl, ha'.1⟩, ha'.2⟩
  | expr e =>
    cases e with
    | func f =>
      obtain ⟨mark, name, sign, body, scope, inner, symbol, params⟩ := f
      rw [Node.declareAhead]
      split
      · next hname =>
        have hdeclares : (Expr.func ⟨mark, name, sign, body, scope, inner, symbol, params⟩).declares = [] :=
          if_pos hname
        refine .pure ⟨.inr ⟨hname, if_pos hname, hdeclares⟩, ?_⟩
        rw [Node.declaresAhead, hdeclares]
        exact .refl i c.table
      · next hname =>
        refine ((Func.declare_gains hi h.1).also fun hrun => Func.declare_sameHead i _ hrun).bind fun g c1 _ hg =>
          .pure ?_
        obtain ⟨⟨hprepared, hgains⟩, hsame⟩ := hg
        exact ⟨.inl ⟨g, rfl, if_neg (hsame.name ▸ hname), hprepared⟩, hgains⟩
    | _ => exact .pure ⟨⟨rfl, rfl⟩, .refl i c.table⟩
  | _ => exact h.elim

theorem Expr.bind_ne_func {e : Expr} (h : ∀ f, e ≠ .func f) (env : Enclosure) :
    Yields (fun e' => ∀ f, e' ≠ .func f) (e.bind env none) := by
  cases e with
  | missing => exact .throw
  | func f => exact absurd rfl (h f)
  | cond => exact .after fun _ => .after fun _ => .after fun _ => .after fun _ => .after fun _ => .pure (by simp)
  | letBinding | unary | tuple | select => exact .after fun _ => .pure (by simp)
  | matching | binary | call => exact .after fun _ => .after fun _ => .pure (by simp)
  | argument a | element a =>
    cases a
    exact .after fun _ => .pure (by simp)
  | ident | literal => exact .pure (by simp)

theorem Node.bind_expr_lexical {env : Enclosure} (henv : c.HasScope env.scope) {e : Expr} (h : e.Intact operators)
    (hne : ∀ f, e ≠ .func f) {ahead : Node} (hahead : ahead.declaredFunc? = none ∧ ahead.declaresAhead = []) :
    Succeeds c (fun r c1 => r.2 = env ∧ r.1.declaresAhead = ahead.declaresAhead ∧
    Gains env.scope r.1.declaresLater c.table c1.table ∧
      r.1.Lexical c1.table env.scope) (Node.bind env ahead (.expr e)) := by
  rw [Node.bind, hahead.1, hahead.2]
  refine ((e.bind_lexical h henv).also fun hrun => Expr.bind_ne_func hne env hrun).bind fun e' c1 _ he' =>
    .pure ⟨rfl, ?_⟩
  obtain ⟨⟨hgains, hlexical⟩, hne'⟩ := he'
  cases e' with
  | func f => exact absurd rfl (hne' f)
  | _ => exact ⟨rfl, hgains, hlexical⟩

theorem Node.bind_lexical {env : Enclosure} (henv : c.HasScope env.scope) {n ahead : Node} (h : n.Intact operators)
    (hahead : n.Awaits c env.scope ahead) :
    Succeeds c (fun r c1 => r.2 = env ∧ r.1.declaresAhead = ahead.declaresAhead ∧
    Gains env.scope r.1.declaresLater c.table c1.table ∧ r.1.Lexical c1.table env.scope) (Node.bind env ahead n) := by
  cases n with
  | «alias» a =>
    obtain ⟨b, rfl, hname, hscope⟩ := hahead
    rw [Node.bind]
    have hlift : Succeeds c (fun s c1 => c1 = c ∧ ∀ n ∈ s.typeNames, n.scope = env.scope)
        (liftM (a.sign.inScope env.scope) : AnalysisM Sign) := by
      refine .lift fun _ => ?_
      exact ⟨_, a.sign.inScope_comes.comes h, rfl, fun n hn => Sign.scope_inside hn⟩
    refine hlift.bind fun s c1 _ hs => .pure ⟨rfl, ?_, ?_, hscope, hs.2⟩
    · rw [Node.declaresAhead, Node.declaresAhead, hname]
      rfl
    · rw [hs.1]
      exact .refl env.scope c.table
  | expr e =>
    cases e with
    | func f =>
      obtain ⟨mark, name, sign, body, scope, inner, symbol, params⟩ := f
      have hbody {c : Context} {env : Enclosure} (henv : c.HasScope env.scope) :=
        Expr.bindBody_lexical h.2 fun hbody => body.bind_lexical hbody henv
      rw [Node.bind]
      rcases hahead with ⟨g, rfl, hg, hprepared⟩ | ⟨hname, hnone, hempty⟩
      · rw [hg]
        refine (Expr.bind_func_lexical henv (by simpa using hprepared) h.1 hbody).bind fun e' c1 _ he' =>
          .pure ⟨rfl, ?_⟩
        obtain ⟨⟨f, rfl, hdeclares, -⟩, hgains, hlexical⟩ := he'
        exact ⟨(hdeclares g rfl).symm, hgains, hlexical⟩
      · rw [hnone, hempty]
        refine (Expr.bind_func_lexical henv (by simp) h.1 hbody).bind fun e' c1 _ he' => .pure ⟨rfl, ?_⟩
        obtain ⟨⟨f, rfl, -, hf⟩, hgains, hlexical⟩ := he'
        have hdeclares : (Expr.func f).declares = [] := by rw [Expr.declares_func, if_pos ((hf rfl).trans hname)]
        rw [hdeclares] at hgains
        exact ⟨hdeclares, hgains, hlexical⟩
    | _ => exact Node.bind_expr_lexical henv h (by simp) hahead
  | _ => exact h.elim

theorem Node.Awaits.mono {n ahead : Node} (h : n.Awaits c i ahead) (hlater : Later c c1) : n.Awaits c1 i ahead := by
  cases n with
  | «alias» a => exact h
  | expr e =>
    cases e with
    | func f => exact h.imp_left (Exists.imp fun g => And.imp_right (And.imp_right fun hg => hg.mono hlater))
    | _ => exact h
  | _ => exact h.elim

theorem Node.declareAllAhead_gains : ∀ {ns : List Node} {c : Context}, c.HasScope i → (∀ n ∈ ns, n.Intact operators) →
    Succeeds c (fun aheads c1 => Forall₂ (Node.Awaits c1 i) ns aheads ∧
    Gains i (aheads.flatMap Node.declaresAhead) c.table c1.table)
      (ns.mapM (Node.declareAhead i))
  | [], c, _, _ => by
    rw [mapM_nil]
    exact .pure ⟨.nil, .refl i c.table⟩
  | n :: ns, c, hi, h => by
    obtain ⟨hn, hns⟩ := forall_mem_cons.mp h
    rw [mapM_cons]
    refine (Node.declareAhead_gains hi hn).bind fun ahead c1 hlater1 hahead => ?_
    refine (Node.declareAllAhead_gains (hlater1.hasScope hi) hns).bind fun aheads c2 hlater2 haheads => .pure ?_
    exact ⟨.cons (hahead.1.mono hlater2) haheads.1, hahead.2.trans haheads.2⟩

theorem Node.bindAll_lexical {env : Enclosure} : ∀ {ns aheads : List Node} {c : Context}, c.HasScope env.scope →
    (∀ n ∈ ns, n.Intact operators) → Forall₂ (Node.Awaits c env.scope) ns aheads →
      Succeeds c (fun r c1 => r.1.flatMap Node.declaresAhead = aheads.flatMap Node.declaresAhead ∧
        Gains env.scope (r.1.flatMap Node.declaresLater) c.table c1.table ∧ ∀ n ∈ r.1, n.Lexical c1.table env.scope)
        (Node.bindAll env aheads ns)
  | [], _, c, _, _, .nil => .pure ⟨rfl, .refl env.scope c.table, by simp⟩
  | n :: ns, ahead :: aheads, c, henv, hns, .cons hahead haheads => by
    obtain ⟨hn, hns⟩ := forall_mem_cons.mp hns
    rw [Node.bindAll]
    refine (Node.bind_lexical henv hn hahead).bind fun r c1 hlater1 hr => ?_
    obtain ⟨n', env'⟩ := r
    obtain ⟨rfl, hdeclares, hgains, hlexical⟩ := hr
    refine (Node.bindAll_lexical (hlater1.hasScope henv) hns (haheads.imp fun _ _ h => h.mono hlater1)).bind
      fun r c2 _ hr => .pure ?_
    obtain ⟨hdeclares', hgains', hlexical'⟩ := hr
    refine ⟨?_, hgains.trans hgains', forall_mem_cons.mpr ⟨hlexical.mono hgains'.toGrowsAt, hlexical'⟩⟩
    rw [flatMap_cons, flatMap_cons, hdeclares, hdeclares']

/-- **Binding is lexical.** Binding never stops on an intact module. The scope of the module is opened in the prelude,
the statements are in lexical scopes inside of it, and the scopes that were there stay as they were. -/
theorem Module.bind_lexical {m : Module} (h : m.Intact operators) (hprelude : c.HasScope c.prelude) :
    Succeeds c (fun r c1 => c1.table.Opens c.prelude r.1.scope r.1.declares ∧
      (∀ j s, c.table.scope j = .ok s → c1.table.scope j = .ok s) ∧
      ∀ n ∈ r.1.statements, n.Lexical c1.table r.1.scope) m.bind := by
  obtain ⟨token, name, id, statements, scope⟩ := m
  rw [Module.bind]
  refine .get_bind ((newScope_opens hprelude name .module _).bind fun i c1 _ hi => ?_)
  obtain ⟨hi, hopens, hnew, hgrows⟩ := hi
  refine (Node.declareAllAhead_gains hi h).bind fun aheads c2 hlater2 haheads => ?_
  obtain ⟨hawaits, hahead⟩ := haheads
  refine (Node.bindAll_lexical (hlater2.hasScope hi) h hawaits).bind fun r c3 _ hr => .pure ?_
  obtain ⟨hdeclares, hlater, hlexical⟩ := hr
  have hgains := (hgrows i).trans (hahead.trans hlater)
  refine ⟨?_, fun j s hs => hgains.others hs fun hji => hnew s (hji ▸ hs), hlexical⟩
  have hmodule := hopens.gains (hahead.trans hlater)
  rw [← hdeclares] at hmodule
  exact hmodule

end

/-! ### Typing -/

theorem TypeName.all_in_scope {ns ns' : List TypeName} (h : ns'.map TypeName.unread = ns.map TypeName.unread)
    {i : ScopeId} (hns : ∀ n ∈ ns, n.scope = i) : ∀ n ∈ ns', n.scope = i := fun n hn => by
  have hmem : n.unread ∈ ns.map TypeName.unread := h ▸ mem_map_of_mem hn
  obtain ⟨n', hn', heq⟩ := mem_map.mp hmem
  exact (congrArg TypeName.scope heq).symm.trans (hns n' hn')

theorem FuncSign.obligeIfAny_scopes (mark : Mark) (sign : Option FuncSign) :
    Yields (fun sign' => FuncSign.parameterNames sign' = FuncSign.parameterNames sign ∧
      ∀ i, (∀ s ∈ sign, ∀ n ∈ s.typeNames, n.scope = i) → ∀ s ∈ sign', ∀ n ∈ s.typeNames, n.scope = i)
      (FuncSign.obligeIfAny mark sign) := by
  cases sign with
  | none => exact .pure ⟨rfl, by simp⟩
  | some s =>
    refine s.read_unread.bind fun r hr => .after fun _ => .pure ⟨?_, fun i h => ?_⟩
    · have hparams := congrArg (fun f => FuncSign.parameterNames (some f)) hr
      exact r.1.parameterNames_mapNames.symm.trans (hparams.trans s.parameterNames_mapNames)
    · have hnames := congrArg FuncSign.typeNames hr
      rw [s.typeNames_mapNames, r.1.typeNames_mapNames] at hnames
      simpa using TypeName.all_in_scope hnames (h s rfl)

theorem Ident.oblige_scope (i : Ident) : Yields (fun i' => i'.scope = i.scope) i.oblige := by
  unfold Ident.oblige
  refine .after fun ids => ?_
  dsimp only
  split
  · exact .after fun _ => .pure rfl
  · exact .after fun _ => .after fun _ => .after fun _ => .pure rfl
  · exact .after fun _ => .after fun _ => .after fun _ => .pure rfl

/-- The second expression declares what the first does, and stands in the same scopes. -/
structure Expr.Kept (t : SymbolTable) (e e' : Expr) : Prop where
  func : (∃ f, e' = .func f) ↔ ∃ f, e = .func f
  declares : e'.declares = e.declares
  lexical : ∀ i, e.Lexical t i → e'.Lexical t i

section

variable {t : SymbolTable}

mutual
theorem Expr.oblige_lexical : ∀ e : Expr, Yields (e.Kept t) e.oblige
  | .missing => .throw
  | .func ⟨mark, _, sign, body, _, _, _, _⟩ => by
    rw [Expr.oblige_func]
    refine .after fun c => ?_
    split
    · exact .throw
    · next codomain _ =>
      refine (FuncSign.obligeIfAny_scopes mark sign).bind fun sign' hsign => ?_
      have hoblige := body.oblige_lexical
      have hbody : Yields (body.Kept t) (body.obligeBody mark codomain) := by
        cases body with
        | missing => exact .pure ⟨.rfl, rfl, fun _ h => h⟩
        | _ => exact hoblige.bind fun body' h => .after fun _ => .after fun _ => .pure h
      refine hbody.bind fun body' hbody' => .pure ⟨by simp, rfl, fun i h => ?_⟩
      obtain ⟨hown, hnames, hparams, hopens, hlexical⟩ := h
      rw [FuncSign.declares, ← hsign.1, ← hbody'.declares] at hopens
      exact ⟨hown, hsign.2 i hnames, hsign.1 ▸ hparams, hopens, hbody'.lexical _ hlexical⟩
  | .cond _ _ _ condition thenBranch elseBranch => by
    refine condition.oblige_lexical.bind fun a ha => .after fun _ => .after fun _ => ?_
    refine thenBranch.oblige_lexical.bind fun b hb => elseBranch.oblige_lexical.bind fun d hd => ?_
    refine .after fun _ => .after fun _ => .after fun _ => .pure ⟨by simp, ha.declares, fun i h => ?_⟩
    obtain ⟨hcondition, ⟨hthen, hthenBranch⟩, helse, helseBranch⟩ := h
    exact ⟨ha.lexical i hcondition, ⟨hb.declares ▸ hthen, hb.lexical _ hthenBranch⟩, hd.declares ▸ helse,
      hd.lexical _ helseBranch⟩
  | .matching mark subject cases =>
    subject.oblige_lexical.bind fun _ ha => .after fun subjectType =>
      (MatchCase.obligeAll_lexical cases mark subjectType 0).bind fun _ hb => .after fun _ =>
      .pure ⟨by simp, ha.declares, fun i h => ⟨ha.lexical i h.1, hb i h.2⟩⟩
  | .letBinding _ => .after fun _ => .pure ⟨by simp, rfl, fun _ h => h⟩
  | .binary .. => .throw
  | .unary .. => .throw
  | .call mark callee args => by
    refine (Labelled.obligeArgs_lexical args mark 0).bind fun r hr => .after fun result => ?_
    refine callee.oblige_lexical.bind fun a ha => .after fun _ => .after fun _ => .after fun _ =>
      .pure ⟨by simp, ?_, fun i h => ?_⟩
    · rw [Expr.declares, Expr.declares, ha.declares, hr.1]
    · exact ⟨ha.lexical i h.1, hr.2 i h.2⟩
  | .argument ⟨_, _, value⟩ => value.oblige_lexical.bind fun _ ha => .after fun _ =>
    .pure ⟨by simp, ha.declares, ha.lexical⟩
  | .tuple _ _ elems => (Labelled.obligeElems_lexical elems).bind fun _ ha => .after fun _ =>
    .pure ⟨by simp, ha.1, ha.2⟩
  | .element ⟨_, _, value⟩ => value.oblige_lexical.bind fun _ ha => .after fun _ =>
    .pure ⟨by simp, ha.declares, ha.lexical⟩
  | .select _ owner _ => owner.oblige_lexical.bind fun _ ha => .after fun _ => .after fun _ => .after fun _ =>
    .pure ⟨by simp, ha.declares, ha.lexical⟩
  | .ident i => i.oblige_scope.bind fun _ h => .pure ⟨by simp, rfl, fun j hj => h.trans hj⟩
  | .literal .. => .pure ⟨by simp, rfl, fun _ h => h⟩
theorem Labelled.obligeArgs_lexical : ∀ (l : List (Option Labelled)) (call : Mark) (k : Nat),
    Yields (fun r => Labelled.declares r.1 = Labelled.declares l ∧ ∀ i, Labelled.AllLexical t i l →
    Labelled.AllLexical t i r.1)
      (Labelled.obligeArgs call k l)
  | [], _, _ => .pure ⟨rfl, fun _ h => h⟩
  | none :: _, _, _ => .throw
  | some ⟨_, _, value⟩ :: rest, call, k => by
    refine .after fun slot => value.oblige_lexical.bind fun a ha => .after fun type => .after fun _ => ?_
    refine (Labelled.obligeArgs_lexical rest call (k + 1)).bind fun r hr =>
      .pure ⟨?_, fun i h => ⟨ha.lexical i h.1, hr.2 i h.2⟩⟩
    rw [Labelled.declares, Labelled.declares, ha.declares, hr.1]
theorem Labelled.obligeElems_lexical : ∀ l : List (Option Labelled),
    Yields (fun r => Labelled.declares r.1 = Labelled.declares l ∧ ∀ i, Labelled.AllLexical t i l →
    Labelled.AllLexical t i r.1)
      (Labelled.obligeElems l)
  | [] => .pure ⟨rfl, fun _ h => h⟩
  | none :: _ => .throw
  | some ⟨_, _, value⟩ :: rest => by
    refine value.oblige_lexical.bind fun a ha => .after fun type => ?_
    refine (Labelled.obligeElems_lexical rest).bind fun r hr => .pure ⟨?_, fun i h => ⟨ha.lexical i h.1, hr.2 i h.2⟩⟩
    rw [Labelled.declares, Labelled.declares, ha.declares, hr.1]
theorem MatchCase.obligeAll_lexical : ∀ (l : List (Option MatchCase)) (mark : Mark) (subject : Ty) (k : Nat),
    Yields (fun r => ∀ i, MatchCase.AllLexical t i l → MatchCase.AllLexical t i r.1)
    (MatchCase.obligeAll mark subject k l)
  | [], _, _, _ => .pure fun _ h => h
  | none :: _, _, _, _ => .throw
  | some ⟨_, pattern, value, _⟩ :: rest, mark, subject, k => by
    refine pattern.oblige_lexical.bind fun a ha => value.oblige_lexical.bind fun b hb => .after fun type =>
      .after fun _ => .after fun _ => ?_
    refine (MatchCase.obligeAll_lexical rest mark subject (k + 1)).bind fun r hr => .pure fun i h => ?_
    obtain ⟨⟨hopens, hpattern, hvalue⟩, hrest⟩ := h
    rw [← ha.declares, ← hb.declares] at hopens
    exact ⟨⟨hopens, ha.lexical _ hpattern, hb.lexical _ hvalue⟩, hr i hrest⟩
end

theorem TypeAlias.oblige_lexical (a : TypeAlias) :
    Yields (fun a' => (Node.alias a').declaresAhead = (Node.alias a).declaresAhead ∧ ∀ i, (Node.alias a).Lexical t i →
    (Node.alias a').Lexical t i) a.oblige := by
  unfold TypeAlias.oblige
  split
  · exact .pure ⟨rfl, fun _ h => h⟩
  · split
    · exact .pure ⟨rfl, fun _ h => h⟩
    · refine a.sign.read_unread.bind fun r hr => .after fun _ => .after fun _ => .after fun _ =>
        .pure ⟨rfl, fun i h => ?_⟩
      have hnames := congrArg Sign.typeNames hr
      rw [a.sign.typeNames_mapNames, r.1.typeNames_mapNames] at hnames
      exact ⟨h.1, TypeName.all_in_scope hnames h.2⟩

theorem Node.declares_expr (e : Expr) :
    ((∃ f, e = .func f) → (Node.expr e).declaresAhead = e.declares ∧ (Node.expr e).declaresLater = []) ∧
    ((¬ ∃ f, e = .func f) → (Node.expr e).declaresAhead = [] ∧ (Node.expr e).declaresLater = e.declares) := by
  cases e <;> simp [Node.declaresAhead, Node.declaresLater]

theorem Node.oblige_lexical {n : Node} {i : ScopeId} (h : n.Lexical t i) :
    Yields (fun n' => n'.declaresAhead = n.declaresAhead ∧ n'.declaresLater = n.declaresLater ∧ n'.Lexical t i)
    n.oblige := by
  cases n with
  | «alias» a => exact a.oblige_lexical.bind fun a' ha' => .pure ⟨ha'.1, rfl, ha'.2 i h⟩
  | expr e =>
    refine (e.oblige_lexical (t := t)).bind fun e' he' => .pure ?_
    obtain ⟨hfunc, hdeclares, hlexical⟩ := he'
    by_cases hf : ∃ f, e = .func f
    · have hdeclared := (Node.declares_expr e).1 hf
      have hdeclared' := (Node.declares_expr e').1 (hfunc.mpr hf)
      exact ⟨by rw [hdeclared.1, hdeclared'.1, hdeclares], by rw [hdeclared.2, hdeclared'.2], hlexical i h⟩
    · have hdeclared := (Node.declares_expr e).2 hf
      have hdeclared' := (Node.declares_expr e').2 (hfunc.not.mpr hf)
      exact ⟨by rw [hdeclared.1, hdeclared'.1], by rw [hdeclared.2, hdeclared'.2, hdeclares], hlexical i h⟩
  | _ => exact h.elim

theorem Node.obligeAll_lexical {i : ScopeId} : ∀ {ns : List Node}, (∀ n ∈ ns, n.Lexical t i) →
    Yields (fun ns' => ns'.flatMap Node.declaresAhead = ns.flatMap Node.declaresAhead ∧
      ns'.flatMap Node.declaresLater = ns.flatMap Node.declaresLater ∧ ∀ n ∈ ns', n.Lexical t i) (Node.obligeAll ns)
  | [], _ => .pure ⟨rfl, rfl, by simp⟩
  | n :: ns, h => by
    obtain ⟨hn, hns⟩ := forall_mem_cons.mp h
    refine (Node.oblige_lexical hn).bind fun n' hn' => (Node.obligeAll_lexical hns).bind fun ns' hns' => .pure ?_
    obtain ⟨hahead, hlater, hlexical⟩ := hn'
    obtain ⟨haheads, hlaters, hlexicals⟩ := hns'
    refine ⟨?_, ?_, forall_mem_cons.mpr ⟨hlexical, hlexicals⟩⟩
    · rw [flatMap_cons, flatMap_cons, hahead, haheads]
    · rw [flatMap_cons, flatMap_cons, hlater, hlaters]

/-- **Typing keeps lexical scopes.** -/
theorem Module.oblige_lexical {m : Module} (h : ∀ n ∈ m.statements, n.Lexical t m.scope) :
    Yields (fun m' => m'.scope = m.scope ∧ m'.declares = m.declares ∧ ∀ n ∈ m'.statements, n.Lexical t m.scope)
    m.oblige := by
  obtain ⟨token, name, id, statements, scope⟩ := m
  refine (Node.obligeAll_lexical h).bind fun ns hns => .pure ⟨rfl, ?_, hns.2.2⟩
  rw [Module.declares, Module.declares, hns.1, hns.2.1]

end

end TypeInference
