import TypeInference.Proofs.Agreement
import TypeInference.Proofs.Totality

/-! # Old slots have no say

A module may come to an analysis with the slots of an earlier one. Typing does not read what binding has left of them
(`Expr.oblige_settles`): it comes to the same types, constraints and problems, and to the same tree unless there is a
problem. So an analysis depends on the text of a module alone. -/

namespace TypeInference

open AnalysisM
open List

variable {e : Expr} {m : Module} {n : Node}

/-! ### Computations that settle -/

section

variable {α β : Type} {E F : Prop} {V : α → α → Prop} {W : β → β → Prop} {x y : AnalysisM α} {f g : α → AnalysisM β}

/-- From every state, the computations stop in the same way or come to one state with results that are alike. If there
is no problem in the end then there was none before, and the results are the same, provided that what they are made of
is the same. -/
def Settles (E : Prop) (V : α → α → Prop) (x y : AnalysisM α) : Prop :=
  ∀ c, Both (fun p q => V p.1 q.1 ∧ p.2 = q.2 ∧
    (p.2.diagnostics.entries = [] → c.diagnostics.entries = [] ∧ (E → p.1 = q.1))) (x.run c) (y.run c)

instance require_forward (d : Constraint) : Forward (require d) := ⟨fun h => by
  cases h
  exact onward_require _ d⟩

instance newUnion_forward (ts : List Ty) : Forward (newUnion ts) := by
  rw [newUnion_eq]
  refine .bind .get fun c => .bind (.lift _) fun cases => ?_
  split <;> infer_instance

instance functionType_forward (domain codomain : Ty) : Forward (functionType domain codomain) := by
  unfold functionType
  split <;> infer_instance

instance unitType_forward : Forward unitType := newType_forward _

instance meanings_forward (i : ScopeId) (name : String) : Forward (meanings i name) := .bind .get fun _ => .lift _

instance symbolType_forward (id : SymbolId) : Forward (symbolType id) := by
  unfold symbolType
  infer_instance

namespace Settles

theorem pure {a b : α} (h : V a b := by trivial) (hE : E → a = b := by simp +contextual) :
    Settles E V (Pure.pure a) (Pure.pure b) :=
  fun _ => .ok ⟨h, rfl, fun hc => ⟨hc, hE⟩⟩

theorem throw (e : Fault) : Settles E V (throw e) (throw e) := fun _ => .error e

protected theorem bind (h : Settles F V x y) (hf : ∀ a b, V a b → Settles (E ∧ (F → a = b)) W (f a) (g b)) :
    Settles E W (x >>= f) (y >>= g) := fun c => by
  rw [StateT.run_bind, StateT.run_bind]
  refine (h c).bind fun ⟨a, c1⟩ ⟨b, _⟩ ⟨hab, hstate, hclean⟩ => ?_
  obtain rfl : c1 = _ := hstate
  rcases hf a b hab c1 with herror | ⟨p, q, hp, hq, hW, hpq, hclean'⟩
  · exact .inl herror
  · refine .inr ⟨p, q, hp, hq, hW, hpq, fun hc => ?_⟩
    obtain ⟨hc1, hsame⟩ := hclean' hc
    exact ⟨(hclean hc1).1, fun hE => hsame ⟨hE, (hclean hc1).2⟩⟩

/-- The results have a part in common. -/
theorem pair {γ : Type} {x y : AnalysisM (α × γ)} {f g : α × γ → AnalysisM β} (h : Settles F (fun p q => p.2 = q.2) x y)
    (hf : ∀ a b t, Settles (E ∧ (F → a = b)) W (f (a, t)) (g (b, t))) : Settles E W (x >>= f) (y >>= g) :=
  h.bind fun ⟨a, t⟩ ⟨b, _⟩ ht => by
    obtain rfl : t = _ := ht
    simpa using hf a b t

theorem after [hx : Forward x] (hf : ∀ a, Settles E W (f a) (g a)) : Settles E W (x >>= f) (x >>= g) := fun c => by
  rw [StateT.run_bind, StateT.run_bind]
  cases hrun : x.run c with
  | error e => exact .error e
  | ok r =>
    obtain ⟨a, c1⟩ := r
    rcases hf a c1 with herror | ⟨p, q, hp, hq, hW, hpq, hclean⟩
    · exact .inl herror
    · exact .inr ⟨p, q, hp, hq, hW, hpq, fun hc => ⟨(hx.related hrun).problems (hclean hc).1, (hclean hc).2⟩⟩

theorem afterType {e e' : Expr} {f g : Ty → AnalysisM β} (h : e.type = e'.type) (hf : ∀ t, Settles E W (f t) (g t)) :
    Settles E W (liftM e.type >>= f) (liftM e'.type >>= g) := by
  rw [h]
  exact .after hf

theorem diagnose {a b : α} (code : Code) (token : Token) (message : String) (h : V a b) :
    Settles E V (do diagnose code token message; Pure.pure a)
    (do AnalysisM.diagnose code token message; Pure.pure b) := fun _ =>
  .ok ⟨h, rfl, fun hc => absurd hc (Diagnostics.add_ne_empty _ _)⟩

theorem join {E' : Prop} {z : AnalysisM α} (h : Settles E V x z) (h' : Settles E' V y z) (c : Context) :
    Both (fun p q => p.2 = q.2 ∧ (p.2.diagnostics.entries = [] → c.diagnostics.entries = [] ∧ (E → E' → p.1 = q.1)))
    (x.run c) (y.run c) := by
  rcases h c with ⟨e, hx, hz⟩ | ⟨p, r, hp, hr, -, hpr, hclean⟩ <;>
    rcases h' c with ⟨e', hy, hz'⟩ | ⟨q, r', hq, hr', -, hqr, hclean'⟩
  · obtain rfl := Except.error.inj (hz.symm.trans hz')
    exact .inl ⟨e, hx, hy⟩
  · cases hz.symm.trans hr'
  · cases hr.symm.trans hz'
  · obtain rfl := Except.ok.inj (hr.symm.trans hr')
    have hpq := hpr.trans hqr.symm
    exact .inr ⟨p, q, hp, hq, hpq, fun hc =>
      ⟨(hclean hc).1, fun hE hE' => ((hclean hc).2 hE).trans ((hclean' (hpq ▸ hc)).2 hE').symm⟩⟩

end Settles

end

/-! ### Signatures -/

theorem TypeName.read_settles (n : TypeName) :
    Settles True (fun p q => p.2 = q.2) n.read n.unread.read := by
  refine .after fun ids => ?_
  dsimp only [TypeName.unread]
  split
  · exact .diagnose _ _ _ rfl
  · refine .after fun c => .after fun symbol => ?_
    split
    · exact .pure
    · exact .diagnose _ _ _ rfl
  · exact .diagnose _ _ _ rfl

mutual
theorem Sign.read_settles : ∀ s : Sign, Settles True (fun p q => p.2 = q.2) s.read s.unread.read
  | .missing => .after fun _ => .pure
  | .name n => n.read_settles.pair fun _ _ _ => .pure
  | .func f => f.read_settles.pair fun _ _ _ => .pure
  | .tuple t => t.read_settles.pair fun _ _ _ => .pure
  | .union _ cases => (Sign.readAll_settles cases).pair fun _ _ _ => .after fun _ => .pure
theorem Sign.readAll_settles :
    ∀ ss : List Sign, Settles True (fun p q => p.2 = q.2) (Sign.readAll ss)
    (Sign.readAll (Sign.mapAllNames TypeName.unread ss))
  | [] => .pure
  | s :: ss => s.read_settles.pair fun _ _ _ => (Sign.readAll_settles ss).pair fun _ _ _ => .pure
theorem FuncSign.read_settles : ∀ f : FuncSign, Settles True (fun p q => p.2 = q.2) f.read f.unread.read
  | ⟨_, none, codomain⟩ => .after fun _ => codomain.read_settles.pair fun _ _ _ => .after fun _ => .pure
  | ⟨_, some domain, codomain⟩ => domain.read_settles.pair fun _ _ _ => codomain.read_settles.pair fun _ _ _ =>
    .after fun _ => .pure
theorem TupleSign.read_settles : ∀ t : TupleSign, Settles True (fun p q => p.2 = q.2) t.read t.unread.read
  | ⟨_, _, elems⟩ => (SignElem.readAll_settles elems).pair fun _ _ _ => .after fun _ => .pure
theorem SignElem.readAll_settles : ∀ es : List (Option SignElem),
    Settles True (fun p q => p.2 = q.2) (SignElem.readAll es)
    (SignElem.readAll (SignElem.mapAllNames TypeName.unread es))
  | [] => .pure
  | none :: _ => .throw _
  | some ⟨_, _, _, sign⟩ :: rest => sign.read_settles.pair fun _ _ _ =>
    (SignElem.readAll_settles rest).pair fun _ _ _ => .pure
end

/-! ### Expressions -/

@[simp] theorem Mark.typed_blank (mark : Mark) (t : Ty) : mark.blank.typed t = mark.typed t := rfl

instance Ident.oblige_forward (i : Ident) : Forward i.oblige := by
  refine .bind inferInstance fun ids => ?_
  dsimp only
  split <;> infer_instance

theorem FuncSign.obligeIfAny_settles (mark : Mark) (sign : Option FuncSign) :
    Settles True (fun _ _ => True) (FuncSign.obligeIfAny mark sign)
    (FuncSign.obligeIfAny mark (sign.map FuncSign.unread)) := by
  cases sign with
  | none => exact .pure
  | some s => exact s.read_settles.pair fun _ _ _ => .after fun _ => .pure

theorem Expr.unmark_ne_missing (h : e ≠ .missing) : e.unmark ≠ .missing := by
  cases e with
  | missing => exact absurd rfl h
  | func f =>
    cases f
    simp [Expr.unmark]
  | argument a | element a =>
    cases a
    simp [Expr.unmark]
  | _ => simp [Expr.unmark]

theorem Expr.obligeBody_settles (mark : Mark) (codomain : Ty)
    (h : Settles True (fun a b => a.type = b.type) e.oblige e.unmark.oblige) :
    Settles True (fun _ _ => True) (e.obligeBody mark codomain) (e.unmark.obligeBody mark codomain) := by
  by_cases hne : e = .missing
  · subst hne
    exact .pure
  · have hbody {e : Expr} (hne : e ≠ .missing) : e.obligeBody mark codomain = (do
        let body ← e.oblige
        require (.conformance (← (body.type : Except Fault _)) codomain (mark.location [.body]))
        pure body) := by
      cases e with
      | missing => exact absurd rfl hne
      | _ => rfl
    rw [hbody hne, hbody (Expr.unmark_ne_missing hne)]
    exact h.bind fun _ _ htype => .afterType htype fun _ => .after fun _ => .pure

mutual
theorem Expr.oblige_settles : ∀ e : Expr, Settles True (fun a b => a.type = b.type) e.oblige e.unmark.oblige
  | .missing => .throw _
  | .func ⟨mark, name, sign, body, scope, inner, symbol, params⟩ => by
    rw [Expr.unmark, Expr.oblige_func, Expr.oblige_func]
    refine .after fun c => ?_
    split
    · exact .throw _
    · exact (FuncSign.obligeIfAny_settles mark sign).bind fun _ _ _ =>
        (Expr.obligeBody_settles mark _ body.oblige_settles).bind fun _ _ _ => .pure
  | .cond _ _ _ condition thenBranch elseBranch => condition.oblige_settles.bind fun _ _ hcondition =>
    .afterType hcondition fun _ => .after fun _ => thenBranch.oblige_settles.bind fun _ _ hthen =>
      elseBranch.oblige_settles.bind fun _ _ helse => .afterType hthen fun _ => .afterType helse fun _ =>
      .after fun _ => .pure
  | .matching mark subject cases => subject.oblige_settles.bind fun _ _ hsubject => .afterType hsubject fun t =>
    (MatchCase.obligeAll_settles cases mark t 0).pair fun _ _ _ => .after fun _ => .pure
  | .letBinding _ => .after fun _ => .pure
  | .binary .. => .throw _
  | .unary .. => .throw _
  | .call mark callee args => (Labelled.obligeArgs_settles args mark 0).pair fun _ _ _ => .after fun _ =>
    callee.oblige_settles.bind fun _ _ hcallee => .after fun _ => .afterType hcallee fun _ => .after fun _ => .pure
  | .argument ⟨_, _, value⟩ => value.oblige_settles.bind fun _ _ hvalue => .afterType hvalue fun _ => .pure
  | .tuple _ _ elems => (Labelled.obligeElems_settles elems).pair fun _ _ _ => .after fun _ => .pure
  | .element ⟨_, _, value⟩ => value.oblige_settles.bind fun _ _ hvalue => .afterType hvalue fun _ => .pure
  | .select _ owner _ => owner.oblige_settles.bind fun _ _ howner => .after fun _ => .afterType howner fun _ =>
    .after fun _ => .pure
  | .ident _ => .after fun _ => .pure
  | .literal .. => .pure
theorem Labelled.obligeArgs_settles : ∀ (xs : List (Option Labelled)) (call : Mark) (k : Nat),
    Settles True (fun p q => p.2 = q.2) (Labelled.obligeArgs call k xs)
    (Labelled.obligeArgs call.blank k (Labelled.unmarkAll xs))
  | [], _, _ => .pure
  | none :: _, _, _ => .throw _
  | some ⟨_, _, value⟩ :: rest, call, k => .after fun _ => value.oblige_settles.bind fun _ _ hvalue =>
    .afterType hvalue fun _ => .after fun _ => (Labelled.obligeArgs_settles rest call (k + 1)).pair fun _ _ _ => .pure
theorem Labelled.obligeElems_settles : ∀ xs : List (Option Labelled),
    Settles True (fun p q => p.2 = q.2) (Labelled.obligeElems xs) (Labelled.obligeElems (Labelled.unmarkAll xs))
  | [] => .pure
  | none :: _ => .throw _
  | some ⟨_, _, value⟩ :: rest => value.oblige_settles.bind fun _ _ hvalue => .afterType hvalue fun _ =>
    (Labelled.obligeElems_settles rest).pair fun _ _ _ => .pure
theorem MatchCase.obligeAll_settles : ∀ (xs : List (Option MatchCase)) (mark : Mark) (subject : Ty) (k : Nat),
    Settles True (fun p q => p.2 = q.2) (MatchCase.obligeAll mark subject k xs)
      (MatchCase.obligeAll mark.blank subject k (MatchCase.unmarkAll xs))
  | [], _, _, _ => .pure
  | none :: _, _, _, _ => .throw _
  | some ⟨_, pattern, value, _⟩ :: rest, mark, subject, k => pattern.oblige_settles.bind fun _ _ hpattern =>
    value.oblige_settles.bind fun _ _ hvalue => .afterType hvalue fun _ => .afterType hpattern fun _ => .after fun _ =>
      (MatchCase.obligeAll_settles rest mark subject (k + 1)).pair fun _ _ _ => .pure
end

/-! ### Modules -/

theorem TypeAlias.oblige_settles (a : TypeAlias) :
    Settles (a.symbol ≠ noSymbol) (fun _ _ => True) a.oblige { a with sign := a.sign.unread : TypeAlias }.oblige := by
  by_cases hne : a.sign = .missing
  · obtain ⟨_, _, _, _, _⟩ := a
    subst hne
    exact .pure trivial fun _ => rfl
  · have hoblige {a : TypeAlias} (hne : a.sign ≠ .missing) : a.oblige = (if a.symbol = noSymbol then return a else do
        let r ← a.sign.read
        let metatype ← newType (.metatype r.2)
        require (.equality (← symbolType a.symbol) metatype { node := some a.token, path := [.signature] })
        return { a with sign := r.1 }) := by
      unfold TypeAlias.oblige
      split
      · contradiction
      · rfl
    rw [hoblige hne, hoblige (mt a.sign.mapNames_eq_missing.mp hne)]
    by_cases hsymbol : a.symbol = noSymbol
    · rw [if_pos hsymbol, if_pos hsymbol]
      exact .pure trivial fun h => absurd hsymbol h
    · rw [if_neg hsymbol, if_neg hsymbol]
      exact a.sign.read_settles.pair fun _ _ _ => .after fun _ => .after fun _ => .after fun _ => .pure

def Node.Declared (n : Node) : Prop := ∀ a, n = .alias a → a.symbol ≠ noSymbol

theorem Node.oblige_settles (hn : n.IsStatement) : Settles n.Declared (fun _ _ => True) n.oblige n.unmark.oblige := by
  cases hn with
  | typeAlias a => exact a.oblige_settles.bind fun _ _ _ => .pure trivial fun h => congrArg Node.alias (h.2 (h.1 a rfl))
  | expr e => exact e.oblige_settles.bind fun _ _ _ => .pure

theorem Node.obligeAll_settles : ∀ {ns : List Node}, (∀ n ∈ ns, n.IsStatement) →
    Settles (∀ n ∈ ns, n.Declared) (fun _ _ => True) (Node.obligeAll ns) (Node.obligeAll (ns.map Node.unmark))
  | [], _ => .pure
  | n :: ns, h => by
    obtain ⟨hn, hns⟩ := forall_mem_cons.mp h
    refine (Node.oblige_settles hn).bind fun _ _ _ => (Node.obligeAll_settles hns).bind fun _ _ _ =>
      .pure trivial fun ⟨⟨hdeclared, hsame⟩, hsame'⟩ => ?_
    obtain ⟨hn', hns'⟩ := forall_mem_cons.mp hdeclared
    rw [hsame hn', hsame' hns']

/-- **Typing a module comes to the same as typing it without what binding leaves of old slots.** -/
theorem Module.oblige_settles (hm : ∀ n ∈ m.statements, n.IsStatement) :
    Settles (∀ n ∈ m.statements, n.Declared) (fun _ _ => True) m.oblige m.unmark.oblige := by
  obtain ⟨token, name, id, statements, scope⟩ := m
  exact (Node.obligeAll_settles hm).bind fun _ _ _ => .pure trivial fun ⟨h, hsame⟩ => by rw [hsame h]

/-! ### Binding without problems -/

section

variable {α β : Type} {P : α → Prop} {Q : β → Prop} {x : AnalysisM α} {f : α → AnalysisM β}

/-- If there is no problem in the end then there was none before, and the result has the property. -/
def Clean (P : α → Prop) (x : AnalysisM α) : Prop :=
  ∀ ⦃c : Context⦄ ⦃a : α⦄ ⦃c1 : Context⦄, x.run c = .ok (a, c1) → c1.diagnostics.entries = [] →
    c.diagnostics.entries = [] ∧ P a

theorem Clean.of_forward [hx : Forward x] (hP : Yields P x) : Clean P x := fun _ _ _ hrun hc =>
    ⟨(hx.related hrun).problems hc, hP hrun⟩

theorem Clean.bind (hx : Clean P x) (hf : ∀ a, Clean (fun b => P a → Q b) (f a)) :
    Clean Q (x >>= f) := fun c b c2 hrun hc => by
  obtain ⟨a, c1, ha, hb⟩ := run_bind_eq_ok.mp hrun
  obtain ⟨hc1, hQ⟩ := hf a hb hc
  obtain ⟨hc0, hP⟩ := hx ha hc1
  exact ⟨hc0, hQ hP⟩

theorem Clean.after [Forward x] (hf : ∀ a, Clean Q (f a)) : Clean Q (x >>= f) :=
  (Clean.of_forward (P := fun _ => True) .any).bind fun a _ _ _ hrun hc => ⟨(hf a hrun hc).1, fun _ => (hf a hrun hc).2⟩

theorem Clean.pure {a : α} (h : P a) : Clean P (Pure.pure a) := .of_forward (.pure h)

end

theorem declare_ne_noSymbol (i : ScopeId) (name : String) (t : Ty) (overloadable : Bool) :
    Yields (· ≠ noSymbol) (declare i name t overloadable) := by
  refine .after fun c => fun c0 id c1 hrun => ?_
  obtain ⟨⟨table, id'⟩, c2, hlift, hrest⟩ := run_bind_eq_ok.mp hrun
  obtain ⟨r, hdeclare, heq⟩ := run_lift_eq_ok.mp hlift
  cases heq
  cases hrest
  rw [(SymbolTable.eq_declared hdeclare).1]
  exact natCast_ne_noSymbol _

theorem duplicate_clean (i : ScopeId) (token : Token) (name : String) :
    Clean (fun _ => False) (duplicate i token name) := by
  refine .after fun c => .after fun path c0 u c1 hrun hc => ?_
  cases hrun
  exact absurd hc (Diagnostics.add_ne_empty _ _)

theorem declareOnce_clean (i : ScopeId) (token : Token) (name : String) {type : AnalysisM Ty} [Forward type]
    (overloadable : Bool) :
    Clean (fun id => id.getD noSymbol ≠ noSymbol) (declareOnce i token name type overloadable) := by
  refine .after fun free => ?_
  cases free with
  | true => exact .after fun t => Clean.bind (.of_forward (declare_ne_noSymbol _ _ t _)) fun id => .pure fun hid => hid
  | false => exact (duplicate_clean i token name).bind fun _ => .pure fun h => h.elim

/-- If the statement is a type alias then it was declared ahead. -/
def Node.DeclaredBy (n ahead : Node) : Prop := ∀ a, n = .alias a → ∃ b, ahead = .alias b ∧ b.symbol ≠ noSymbol

theorem Node.declareAhead_clean (i : ScopeId) (hn : n.IsStatement) : Clean n.DeclaredBy (n.declareAhead i) := by
  cases hn with
  | typeAlias a =>
    have hdeclare : Clean (fun b => b.symbol ≠ noSymbol) (a.declare i) :=
      (declareOnce_clean i a.token a.name false).bind fun _ => .pure fun h => h
    exact hdeclare.bind fun b => .pure fun hb a' _ => ⟨b, rfl, hb⟩
  | expr e => exact .of_forward fun c ahead c1 _ a h => by cases h

theorem Node.declareAheads_clean (i : ScopeId) : ∀ {ns : List Node}, (∀ n ∈ ns, n.IsStatement) →
    Clean (Forall₂ Node.DeclaredBy ns) (ns.mapM (Node.declareAhead i))
  | [], _ => .pure .nil
  | n :: ns, h => by
    obtain ⟨hn, hns⟩ := forall_mem_cons.mp h
    rw [mapM_cons]
    exact (Node.declareAhead_clean i hn).bind fun a => (Node.declareAheads_clean i hns).bind fun as =>
      .pure fun has ha => .cons ha has

theorem Node.bind_clean (env : Enclosure) (hn : n.IsStatement) (ahead : Node) :
    Clean (fun r => n.DeclaredBy ahead → r.1.Declared) (Node.bind env ahead n) := by
  refine .of_forward ?_
  cases hn with
  | typeAlias a =>
    refine .after fun s => .pure fun hahead a' ha' => ?_
    obtain ⟨b, rfl, hb⟩ := hahead a rfl
    cases ha'
    exact hb
  | expr e => exact .after fun e' => .pure fun _ a h => by cases h

theorem Node.bindAll_clean : ∀ {ns : List Node} (env : Enclosure) (aheads : List Node), (∀ n ∈ ns, n.IsStatement) →
    Clean (fun r => Forall₂ Node.DeclaredBy ns aheads → ∀ n ∈ r.1, n.Declared) (Node.bindAll env aheads ns)
  | [], _, [], _ | [], _, _ :: _, _ | _ :: _, _, [], _ => .pure fun _ => by simp
  | n :: ns, env, ahead :: aheads, h => by
    obtain ⟨hn, hns⟩ := forall_mem_cons.mp h
    refine (Node.bind_clean env hn ahead).bind fun r => (Node.bindAll_clean r.2 aheads hns).bind fun rs =>
      .pure fun hrs hr hdeclared => ?_
    obtain _ | ⟨hahead, haheads⟩ := hdeclared
    exact forall_mem_cons.mpr ⟨hr hahead, hrs haheads⟩

theorem Module.bind_clean (hm : ∀ n ∈ m.statements, n.IsStatement) :
    Clean (fun r => ∀ n ∈ r.1.statements, n.Declared) m.bind := by
  obtain ⟨token, name, id, statements, scope⟩ := m
  exact .after fun c => .after fun i => (Node.declareAheads_clean i hm).bind fun aheads =>
    (Node.bindAll_clean _ aheads hm).bind fun r => .pure fun h haheads => h haheads

/-! ### Modules of one text -/

namespace Module

variable {m m' b b' : Module} {c : Context}

/-- Binds the names of a module and types it. -/
def annotate (m : Module) : AnalysisM Module := do
  let (m, _) ← m.bind
  m.oblige

theorem bind_same (h : m.SameText m') (hm : ∀ n ∈ m.statements, n.IsStatement) (c : Context) :
    Both (fun p q => p.1.1.unmark = q.1.1.unmark ∧ p.2 = q.2) (m.bind.run c) (m'.bind.run c) := by
  have hm' := h.isStatements hm
  obtain ⟨m0, hcopy, hcopy'⟩ := h
  exact Agree.join (fun p : Module × Enclosure => p.1.unmark) (Module.bind_agree hm hcopy)
    (Module.bind_agree hm' hcopy') c

theorem oblige_same (hunmark : b.unmark = b'.unmark) (hb : ∀ n ∈ b.statements, n.IsStatement)
    (hb' : ∀ n ∈ b'.statements, n.IsStatement) (c : Context) :
    Both (fun p q => p.2 = q.2 ∧ (p.2.diagnostics.entries = [] → c.diagnostics.entries = [] ∧
      ((∀ n ∈ b.statements, n.Declared) → (∀ n ∈ b'.statements, n.Declared) → p.1 = q.1))) (b.oblige.run c)
      (b'.oblige.run c) := by
  have hsettles := Module.oblige_settles hb'
  rw [← hunmark] at hsettles
  exact (Module.oblige_settles hb).join hsettles c

theorem bind_isStatements (h : m.SameText m') (hm : ∀ n ∈ m.statements, n.IsStatement) :
    Yields (fun r => ∀ n ∈ r.1.statements, n.IsStatement) m.bind := fun c r c1 hrun => by
  obtain ⟨ns0, hns⟩ := h.exists_copies
  exact Node.isStatements_of_copies hm hns ((Module.bind_fills hm hrun).1.trans hns)

/-- Analyses of modules of one text come to the same state, and without a problem to the same module. -/
theorem annotate_same (h : m.SameText m') (hm : ∀ n ∈ m.statements, n.IsStatement) (c : Context) :
    Both (fun p q => p.2 = q.2 ∧ (p.2.diagnostics.entries = [] → p.1 = q.1)) (m.annotate.run c)
    (m'.annotate.run c) := by
  have hm' := h.isStatements hm
  unfold annotate
  rw [StateT.run_bind, StateT.run_bind]
  rcases bind_same h hm c with ⟨e, he, he'⟩ | ⟨⟨⟨b, env⟩, c1⟩, ⟨⟨b', env'⟩, _⟩, hrun, hrun', hunmark, hstate⟩
  · rw [he, he']
    exact .error e
  · obtain rfl : c1 = _ := hstate
    rw [hrun, hrun']
    rcases oblige_same hunmark (bind_isStatements h hm hrun) (bind_isStatements h.symm hm' hrun') c1 with
      herror | ⟨p, q, hp, hq, hpq, hsame⟩
    · exact .inl herror
    · refine .inr ⟨p, q, hp, hq, hpq, fun hc => ?_⟩
      obtain ⟨hc1, hsame⟩ := hsame hc
      exact hsame (Module.bind_clean hm hrun hc1).2 (Module.bind_clean hm' hrun' hc1).2

end Module

/-! ### Sessions -/

namespace Session

variable {s : Session} {m m' : Module}

def withModule (s : Session) (m : Module) : Session := { s with module := some m }

/-- What binding leaves of a session, its module apart. -/
def bound (s : Session) (c : Context) (name id : String) : Session :=
  let counts := s!"scopes={c.table.scopes.size} symbols={c.table.symbols.size}"
  (s.adopt c).record c [s!"bound module module={name} id={id} {counts}"]

/-- What typing leaves of a session, its module apart. -/
def generated (s : Session) (c : Context) (name : String) : Session :=
  (s.adopt c).record c [s!"generated constraints module={name} count={c.constraints.length}"]

theorem bind_withModule (s : Session) (m : Module) : (s.withModule m).bind = (do
    let c ← s.newContext
    let r ← m.bind.run { c with logs := s.logging }
    return (s.bound r.2 r.1.1.name r.1.1.id).withModule r.1.1) := by
  unfold Session.bind bound withModule
  simp only [record_eq, adopt, foldl_diagnose]
  rfl

theorem generate_withModule (s : Session) (m : Module) : (s.withModule m).generate = (match s.ready? with
    | none => return s.withModule m
    | some c => do
      let r ← m.oblige.run { c with graph := s.graph }
      return (s.generated r.2 r.1.name).withModule r.1) := by
  have hready : (s.withModule m).ready? = s.ready? := rfl
  unfold Session.generate
  rw [hready]
  cases s.ready? with
  | none => rfl
  | some c =>
    unfold generated withModule
    simp only [record_eq, adopt, foldl_diagnose]

theorem bound_eq (s : Session) (c : Context) (name id : String) : (s.bound c name id).graph = c.graph ∧
    (s.bound c name id).analysis = some { c with diagnostics := {} } ∧
    (s.bound c name id).diagnostics = s.diagnostics ++ c.diagnostics.toList.map fun d => d.inFile s.file := by
  simp [bound, record_eq, adopt, foldl_diagnose]

theorem generated_diagnostics (s : Session) (c : Context) (name : String) :
    (s.generated c name).diagnostics = s.diagnostics ++ c.diagnostics.toList.map fun d => d.inFile s.file := by
  simp [generated, record_eq, adopt, foldl_diagnose]

end Session

theorem Module.oblige_name (m : Module) : Yields (fun m' => m'.name = m.name) m.oblige := by
  obtain ⟨token, name, id, statements, scope⟩ := m
  exact .after fun ns => .pure rfl

namespace Session

variable {s : Session} {m m' : Module}

theorem generate_same {b b' : Module} (hunmark : b.unmark = b'.unmark) (hb : ∀ n ∈ b.statements, n.IsStatement)
    (hb' : ∀ n ∈ b'.statements, n.IsStatement) {c : Context}
    (hdeclared : c.diagnostics.entries = [] → (∀ n ∈ b.statements, n.Declared) ∧ ∀ n ∈ b'.statements, n.Declared)
    {name id : String} {typed : Session} (h : ((s.bound c name id).withModule b).generate = .ok typed) :
    ∃ t', ((s.bound c name id).withModule b').generate = .ok (typed.withModule t') ∧
    (typed.diagnostics = [] → typed.withModule t' = typed) := by
  obtain ⟨hgraph, hanalysis, hdiagnostics⟩ := s.bound_eq c name id
  rw [generate_withModule] at h ⊢
  cases hready : (s.bound c name id).ready? with
  | none =>
    rw [hready] at h
    cases h
    refine ⟨b', rfl, fun hclean => ?_⟩
    have hsome : (s.bound c name id).ready? = _ := ready?_eq_some.mpr ⟨hclean, hanalysis⟩
    rw [hready] at hsome
    cases hsome
  | some c1 =>
    rw [hready] at h
    obtain ⟨hclean, hc1⟩ := ready?_eq_some.mp hready
    obtain ⟨hs, hproblems⟩ := append_eq_nil_iff.mp (hdiagnostics.symm.trans hclean)
    obtain ⟨hdeclared, hdeclared'⟩ := hdeclared (Diagnostics.entries_of_toList (map_eq_nil_iff.mp hproblems))
    obtain ⟨⟨t, c2⟩, hrun, h⟩ := TypeInference.bind_eq_ok.mp h
    cases h
    rcases Module.oblige_same hunmark hb hb' { c1 with graph := (s.bound c name id).graph } with
      ⟨e, he, -⟩ | ⟨p, ⟨t', c2'⟩, hp, hrun', hstate, hsame⟩
    · cases he.symm.trans hrun
    · obtain rfl := Except.ok.inj (hp.symm.trans hrun)
      obtain rfl : c2 = c2' := hstate
      have hname : t'.name = t.name := by
        rw [Module.oblige_name b' hrun', Module.oblige_name b hrun]
        exact (congrArg Module.name hunmark).symm
      refine ⟨t', ?_, fun hclean' => ?_⟩
      · refine TypeInference.bind_eq_ok.mpr ⟨_, hrun', ?_⟩
        rw [hname]
        rfl
      · have hc2 := (append_eq_nil_iff.mp ((generated_diagnostics _ _ _).symm.trans hclean')).2
        obtain rfl : t = t' := (hsame (Diagnostics.entries_of_toList (map_eq_nil_iff.mp hc2))).2 hdeclared hdeclared'
        rfl

end Session

/-- **Earlier annotations never leak into an analysis.** Let a module without gaps be bound and typed from the start of
an analysis. Every module of the same text, whatever is in its slots, gives the same state: the same symbols, problems,
constraints and types. Without a problem it gives the same module, too. This is so in particular for what any stages of
any analyses have made of the module, and for copies of that. -/
theorem earlier_slots_never_leak (s : Session) {m : Module} (hgraph : s.graph.Ground) (hintact : m.Intact false)
    (hid : m.id ≠ "") : ∃ c0 t c bound typed, s.newContext = .ok c0 ∧
    m.annotate.run { c0 with logs := s.logging } = .ok (t, c) ∧
      (s.withModule m).bind = .ok bound ∧ bound.generate = .ok typed ∧
        ∀ m', m.SameText m' ∨ Reworked m m' →
          (∃ t', m'.annotate.run { c0 with logs := s.logging } = .ok (t', c) ∧ (c.diagnostics.entries = [] → t' = t)) ∧
          ∃ bound' t', (s.withModule m').bind = .ok bound' ∧ bound'.generate = .ok (typed.withModule t') ∧
            (typed.diagnostics = [] → typed.withModule t' = typed) := by
  obtain ⟨c0, b, env, c, hstart, hbind, hc, hplaced⟩ := Session.bindModule_gives hgraph hintact
  obtain ⟨t, c1, hoblige, -⟩ := Module.oblige_succeeds hplaced hc
  have hannotate : m.annotate.run { c0 with logs := s.logging } = .ok (t, c1) :=
    run_bind_eq_ok.mpr ⟨(b, env), c, hbind, hoblige⟩
  have hbound : (s.withModule m).bind = .ok ((s.bound c b.name b.id).withModule b) := by
    rw [Session.bind_withModule, hstart, ok_bind, hbind]
    rfl
  have htotal := Session.bind_gives (s := s.withModule m) rfl hgraph hintact
  obtain ⟨typed, hgenerate⟩ : ∃ typed, ((s.bound c b.name b.id).withModule b).generate = .ok typed := by
    obtain ⟨s', hs', m1, c', hadopts, hc', hplaced', htree⟩ := htotal
    obtain rfl := Except.ok.inj (hbound.symm.trans hs')
    obtain ⟨typed, htyped, -⟩ := Session.generate_gives hintact hadopts hc' hplaced' htree
    exact ⟨typed, htyped⟩
  refine ⟨c0, t, c1, _, typed, hstart, hannotate, hbound, hgenerate, fun m' hm' => ?_⟩
  have hsame : m.SameText m' := hm'.elim id fun h => h.sameText hintact hid
  have hm := hintact.isStatements
  have hm' := hsame.isStatements hm
  constructor
  · rcases Module.annotate_same hsame hm { c0 with logs := s.logging } with
      ⟨e, he, -⟩ | ⟨p, ⟨t', c1'⟩, hp, hrun', hstate, htree⟩
    · cases he.symm.trans hannotate
    · obtain rfl := Except.ok.inj (hp.symm.trans hannotate)
      obtain rfl : c1 = c1' := hstate
      exact ⟨t', hrun', fun hclean => (htree hclean).symm⟩
  · rcases Module.bind_same hsame hm { c0 with logs := s.logging } with ⟨e, he, -⟩ | ⟨p, ⟨⟨b', env'⟩, c'⟩, hp, hbind',
      hunmark, hstate⟩
    · cases he.symm.trans hbind
    · obtain rfl := Except.ok.inj (hp.symm.trans hbind)
      obtain rfl : c = c' := hstate
      have hname : b.name = b'.name := (congrArg Module.name hunmark :)
      have hids : b.id = b'.id := (congrArg Module.id hunmark :)
      have hbound' : (s.withModule m').bind = .ok ((s.bound c b.name b.id).withModule b') := by
        rw [Session.bind_withModule, hstart, ok_bind, hbind', hname, hids]
        rfl
      obtain ⟨t', hgenerate', hclean⟩ := Session.generate_same hunmark (Module.bind_isStatements hsame hm hbind)
        (Module.bind_isStatements hsame.symm hm' hbind')
        (fun hc => ⟨(Module.bind_clean hm hbind hc).2, (Module.bind_clean hm' hbind' hc).2⟩) hgenerate
      exact ⟨_, t', hbound', hgenerate', hclean⟩

/-- A type alias and a name that is not defined; the name has slots. -/
def staleModule (symbol : SymbolId) (type : Ty) : Module where
  token := {}
  name := "m"
  id := "m"
  statements := [
    .alias { token := {}, name := "T", sign := .name { token := {}, name := "Int", metatype := type } },
    .expr (.ident { mark := { token := {}, type := type }, name := "x", symbol := symbol, candidates := [symbol] })]

theorem staleModule_annotate : ∃ c0 c t t', Context.initial {} = .ok c0 ∧
    (staleModule noSymbol .absent).annotate.run { c0 with logs := true } = .ok (t, c) ∧
    (staleModule 7 (.node 9)).annotate.run { c0 with logs := true } = .ok (t', c) := by
  have hintact : (staleModule noSymbol .absent).Intact false := by
    simp [staleModule, Module.Intact, Node.Intact, Sign.Intact, Expr.Intact]
  obtain ⟨c0, t, c, _, _, hstart, hrun, -, -, hsame⟩ :=
    earlier_slots_never_leak { file := "m" } ground_empty hintact (by decide)
  obtain ⟨⟨t', hrun', -⟩, -⟩ := hsame (staleModule 7 (.node 9)) (.inl ⟨_, rfl, rfl⟩)
  exact ⟨c0, c, t, t', hstart, hrun, hrun'⟩

end TypeInference
