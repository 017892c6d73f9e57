import TypeInference.Proofs.Intact
import TypeInference.Proofs.WellFormed

/-! # Binding intact modules

Nothing stops the binding of an intact module without operators, and it leaves what typing looks for
(`Module.bind_succeeds`): the names of the module stand in scopes that are there, its functions have function types, and
what it declares has symbols. A tree of which this is true is `Placed`. -/

namespace TypeInference

open AnalysisM
open List

/-! ### Bound trees -/

/-- The type names stand in scopes that are there. -/
def TypeName.AllPlaced (c : Context) (ns : List TypeName) : Prop := ∀ n ∈ ns, c.HasScope n.scope

theorem TypeName.AllPlaced.mono {c c1 : Context} {ns : List TypeName} (h : TypeName.AllPlaced c ns)
    (hlater : Later c c1) : TypeName.AllPlaced c1 ns := fun n hn => hlater.hasScope (h n hn)

/-- The signature is intact, and its type names are placed. -/
def Sign.Placed (c : Context) (s : Sign) : Prop := s.Intact ∧ TypeName.AllPlaced c s.typeNames

def FuncSign.Placed (c : Context) (f : FuncSign) : Prop := f.Intact ∧ TypeName.AllPlaced c f.typeNames

/-- A function with a name has a symbol of its own type, or else there is a problem. -/
def Func.Known (c : Context) (f : Func) : Prop := f.name ≠ "" → c.diagnostics.entries = [] →
    c.Declares f.symbol f.mark.type

theorem Func.Known.mono {c c1 : Context} {f : Func} (h : f.Known c) (hlater : Later c c1) :
    f.Known c1 := fun hname hclean =>
  hlater.declares (h hname (hlater.problems hclean))

mutual
/-- The expression has no operators, its names stand in scopes that are there, and its functions have function types. -/
def Expr.Placed (c : Context) : Expr → Prop
  | .missing | .binary .. | .unary .. => False
  | .func ⟨mark, name, sign, body, scope, inner, symbol, params⟩ =>
    (c.HasFunction mark.type ∧ Func.Known c ⟨mark, name, sign, body, scope, inner, symbol, params⟩) ∧
      (∀ s ∈ sign, s.Placed c) ∧ (body = .missing ∨ body.Placed c)
  | .cond _ _ _ condition thenBranch elseBranch => condition.Placed c ∧ thenBranch.Placed c ∧ elseBranch.Placed c
  | .matching _ subject cases => subject.Placed c ∧ MatchCase.AllPlaced c cases
  | .letBinding b => c.Names b.symbol
  | .call _ callee args => callee.Placed c ∧ Labelled.AllPlaced c args
  | .argument ⟨_, _, value⟩ => value.Placed c
  | .tuple _ _ elems => Labelled.AllPlaced c elems
  | .element ⟨_, _, value⟩ => value.Placed c
  | .select _ owner _ => owner.Placed c
  | .ident i => c.HasScope i.scope
  | .literal _ _ => True
def Labelled.AllPlaced (c : Context) : List (Option Labelled) → Prop
  | [] => True
  | none :: _ => False
  | some ⟨_, _, value⟩ :: rest => value.Placed c ∧ Labelled.AllPlaced c rest
def MatchCase.Placed (c : Context) : MatchCase → Prop
  | ⟨_, pattern, value, _⟩ => pattern.Placed c ∧ value.Placed c
def MatchCase.AllPlaced (c : Context) : List (Option MatchCase) → Prop
  | [] => True
  | none :: _ => False
  | some x :: rest => x.Placed c ∧ MatchCase.AllPlaced c rest
end

def Node.Placed (c : Context) : Node → Prop
  | .alias a => a.sign.Placed c ∧ c.Names a.symbol
  | .expr e => e.Placed c
  | _ => False

section

variable {c c1 : Context}

mutual
theorem Expr.Placed.mono (hlater : Later c c1) : ∀ {e : Expr}, e.Placed c → e.Placed c1
  | .missing, h => h.elim
  | .binary .., h => h.elim
  | .unary .., h => h.elim
  | .func ⟨_, _, _, _, _, _, _, _⟩, ⟨⟨htype, hknown⟩, hsign, hbody⟩ =>
    ⟨⟨hlater.hasFunction htype, hknown.mono hlater⟩, fun s hs => (hsign s hs).imp_right (·.mono hlater),
      hbody.imp_right (Expr.Placed.mono hlater)⟩
  | .cond .., ⟨hcondition, hthen, helse⟩ =>
    ⟨Expr.Placed.mono hlater hcondition, Expr.Placed.mono hlater hthen, Expr.Placed.mono hlater helse⟩
  | .matching .., ⟨hsubject, hcases⟩ => ⟨Expr.Placed.mono hlater hsubject, MatchCase.AllPlaced.mono hlater hcases⟩
  | .letBinding _, h => hlater.names h
  | .call .., ⟨hcallee, hargs⟩ => ⟨Expr.Placed.mono hlater hcallee, Labelled.AllPlaced.mono hlater hargs⟩
  | .argument ⟨_, _, value⟩, h => Expr.Placed.mono (e := value) hlater h
  | .tuple .., h => Labelled.AllPlaced.mono hlater h
  | .element ⟨_, _, value⟩, h => Expr.Placed.mono (e := value) hlater h
  | .select _ owner _, h => Expr.Placed.mono (e := owner) hlater h
  | .ident _, h => hlater.hasScope h
  | .literal .., _ => trivial
theorem Labelled.AllPlaced.mono (hlater : Later c c1) : ∀ {xs : List (Option Labelled)}, Labelled.AllPlaced c xs →
    Labelled.AllPlaced c1 xs
  | [], _ => trivial
  | none :: _, h => h.elim
  | some ⟨_, _, _⟩ :: _, ⟨hvalue, hrest⟩ => ⟨Expr.Placed.mono hlater hvalue, Labelled.AllPlaced.mono hlater hrest⟩
theorem MatchCase.Placed.mono (hlater : Later c c1) : ∀ {x : MatchCase}, x.Placed c → x.Placed c1
  | ⟨_, _, _, _⟩, ⟨hpattern, hvalue⟩ => ⟨Expr.Placed.mono hlater hpattern, Expr.Placed.mono hlater hvalue⟩
theorem MatchCase.AllPlaced.mono (hlater : Later c c1) : ∀ {xs : List (Option MatchCase)}, MatchCase.AllPlaced c xs →
    MatchCase.AllPlaced c1 xs
  | [], _ => trivial
  | none :: _, h => h.elim
  | some _ :: _, ⟨hx, hrest⟩ => ⟨MatchCase.Placed.mono hlater hx, MatchCase.AllPlaced.mono hlater hrest⟩
end

theorem Node.Placed.mono (hlater : Later c c1) {n : Node} (h : n.Placed c) : n.Placed c1 := by
  cases n with
  | «alias» a => exact ⟨h.1.imp_right (·.mono hlater), hlater.names h.2⟩
  | expr e => exact Expr.Placed.mono hlater h
  | _ => exact h.elim

/-! ### Signatures in their scopes -/

section

variable {i : ScopeId}

theorem Sign.inScope_gives (hi : c.HasScope i) {s : Sign} (h : s.Intact) : Gives (Sign.Placed c) (s.inScope i) := by
  refine (s.inScope_comes.gives h).imp fun s' => And.imp_right fun hs' => ?_
  subst hs'
  exact ⟨s.intact_mapNames.mpr h, fun n hn => Sign.scope_inside hn ▸ hi⟩

theorem FuncSign.inScope_gives (hi : c.HasScope i) {f : FuncSign} (h : f.Intact) :
    Gives (FuncSign.Placed c) (f.inScope i) := by
  refine (f.inScope_comes.gives h).imp fun f' => And.imp_right fun hf' => ?_
  subst hf'
  exact ⟨f.intact_mapNames.mpr h, fun n hn => FuncSign.scope_inside hn ▸ hi⟩

end

/-! ### Declarations -/

/-- The function has a function type, a symbol if it has a name, and an intact signature. -/
structure Func.Announced (c : Context) (f : Func) : Prop where
  type : c.HasFunction f.mark.type
  known : f.Known c
  sign : ∀ s ∈ f.sign, s.Intact

theorem Func.Announced.mono {f : Func} (h : f.Announced c) (hlater : Later c c1) : f.Announced c1 :=
  ⟨hlater.hasFunction h.type, h.known.mono hlater, h.sign⟩

theorem SignElem.AllIntact.ne_none : ∀ {es : List (Option SignElem)}, SignElem.AllIntact es → ∀ e ∈ es, e ≠ none
  | [], _, e, he => absurd he not_mem_nil
  | none :: _, h, _, _ => h.elim
  | some _ :: es, ⟨_, hes⟩, e, he => by
    rcases mem_cons.mp he with rfl | he
    · simp
    · exact SignElem.AllIntact.ne_none hes e he

theorem Func.parameters_ne_none {f : Func} (h : ∀ s ∈ f.sign, s.Intact) : ∀ e ∈ f.parameters, e ≠ none := by
  unfold Func.parameters
  split
  · next s hs =>
    have hs := h s hs
    obtain ⟨token, _ | ⟨token', label, elems⟩, codomain⟩ := s
    · simp
    · exact SignElem.AllIntact.ne_none hs.1
  · simp

theorem parameterFields_succeeds : ∀ {params : List (Option SignElem)} {c : Context}, (∀ e ∈ params, e ≠ none) →
    Succeeds c (fun fields c1 => ∀ f ∈ fields, c1.Has f.type) (params.mapM fun
      | some e => do return { label := e.label, type := ← fresh : TupleField }
      | none => throw .missing : AnalysisM (List TupleField))
  | [], c, _ => by
    rw [mapM_nil]
    exact .pure (by simp)
  | none :: params, c, h => absurd rfl (h none mem_cons_self)
  | some e :: params, c, h => by
    rw [mapM_cons]
    have hfield :
        Succeeds c (fun (f : TupleField) c1 => c1.Has f.type) (do return { label := e.label, type := ← fresh }) :=
      fresh_succeeds.bind fun t c1 _ ht => .pure ht.1
    refine hfield.bind fun f c1 _ hf => ?_
    refine (parameterFields_succeeds fun e he => h e (mem_cons_of_mem _ he)).bind fun fields c2 hlater hfields => ?_
    exact .pure (forall_mem_cons.mpr ⟨hlater.has hf, hfields⟩)

theorem Func.declare_succeeds {i : ScopeId} (hi : c.HasScope i) {f : Func} (h : ∀ s ∈ f.sign, s.Intact) :
    Succeeds c (fun f' c1 => f'.Announced c1) (f.declare i) := by
  refine (parameterFields_succeeds (Func.parameters_ne_none h)).bind fun fields c1 hlater1 hfields => ?_
  refine fresh_succeeds.bind fun codomain c2 hlater2 hcodomain => ?_
  refine (newFunction_succeeds (fun f hf => hlater2.has (hfields f hf)) hcodomain.1).bind fun type c3 hlater3 htype =>
    ?_
  have hi3 := hlater3.hasScope (hlater2.hasScope (hlater1.hasScope hi))
  dsimp only
  split
  · next hname => exact .pure ⟨htype, fun hne => absurd hname hne, h⟩
  · refine (declareOnce_succeeds (P := (· = type)) hi3 _ _ (.pure ⟨⟨rfl, htype.has⟩, rfl⟩) true).bind
      fun id c4 hlater4 hid => ?_
    refine .pure ⟨hlater4.hasFunction htype, fun _ hclean => ?_, h⟩
    obtain ⟨_, rfl, hdeclares⟩ := hid.2 hclean
    exact hdeclares

theorem TypeAlias.declare_succeeds {i : ScopeId} (hi : c.HasScope i) (a : TypeAlias) :
    Succeeds c (fun a' c1 => c1.Names a'.symbol) (a.declare i) := by
  refine (declareOnce_succeeds (P := fun _ => True) hi _ _ ?_ false).bind fun id c1 _ hid => .pure hid.1
  refine fresh_succeeds.bind fun t c1 _ ht =>
    (newType_succeeds (by simpa [Composite.parts] using ht.1) (by simp)).imp ?_
  rintro _ c2 - ⟨⟨i, rfl, hi⟩, htable⟩
  exact ⟨⟨trivial, Context.has_node hi⟩, htable.trans ht.2⟩

theorem Func.parameterTypes_succeeds {f : Func} (h : c.HasFunction f.mark.type) :
    Succeeds c (fun ts c1 => ∀ t ∈ ts, c1.Has t) f.parameterTypes := by
  obtain ⟨i, d, u, label, fields, htype, hi, hd⟩ := h
  have hfunction : c.graph.function? f.mark.type = some (some d, u) := by
    rw [htype, TypeGraph.function?]
    simp [hi]
  have htuple : c.graph.tuple? (.node d) = some (label, fields) := by simp [TypeGraph.tuple?, hd]
  intro hc
  refine ⟨fields.map TupleField.type, c, ?_, hc, .refl c, hc.parts hd⟩
  refine run_bind_eq_ok.mpr ⟨c, c, rfl, ?_⟩
  simp only [hfunction, htuple]
  rfl

theorem declareParameters_succeeds : ∀ {ps : List (Option SignElem × Ty)} {c : Context} {i : ScopeId}, c.HasScope i →
    (∀ p ∈ ps, p.1 ≠ none ∧ c.Has p.2) → Succeeds c (fun _ _ => True) (declareParameters i ps)
  | [], _, _, _, _ => .pure trivial
  | (none, _) :: _, _, _, _, h => absurd rfl (h _ mem_cons_self).1
  | (some e, t) :: ps, c, i, hi, h => by
    obtain ⟨⟨-, ht⟩, hps⟩ := forall_mem_cons.mp h
    have hrest {c1 : Context} (hlater : Later c c1) : Succeeds c1 (fun _ _ => True) (declareParameters i ps) :=
      declareParameters_succeeds (hlater.hasScope hi) fun p hp => ⟨(hps p hp).1, hlater.has (hps p hp).2⟩
    unfold declareParameters
    generalize (if e.name = "" then e.label else e.name) = name
    dsimp only
    split
    · exact hrest (.refl c)
    · refine (declareOnce_succeeds (P := fun _ => True) hi _ _ (.pure ⟨⟨trivial, ht⟩, rfl⟩) false).bind
        fun id c1 hlater _ => ?_
      cases id with
      | none => exact hrest hlater
      | some id => exact (hrest hlater).bind fun _ _ _ _ => .pure trivial

theorem enter_succeeds {env : Enclosure} (h : c.HasScope env.scope) (name : String) (kind : ScopeKind) :
    Succeeds c (fun env' c1 => c1.HasScope env'.scope) (env.enter name kind) :=
  (newScope_succeeds h name kind env.module).bind fun _ _ _ hi => .pure hi

/-! ### Binding -/

theorem Expr.bind_func_succeeds {env : Enclosure} (henv : c.HasScope env.scope) {declared : Option Func}
    (hdeclared : ∀ f ∈ declared, f.Announced c) {mark : Mark} {name : String} {sign : Option FuncSign} {body : Expr}
    {scope inner : ScopeId} {symbol : SymbolId} {params : List SymbolId} (hsign : ∀ s ∈ sign, s.Intact)
    (hbody : ∀ {c : Context} {env : Enclosure}, c.HasScope env.scope →
      Succeeds c (fun body' c1 => body' = .missing ∨ body'.Placed c1) (body.bindBody env)) :
    Succeeds c (fun e c1 => e.Placed c1)
    ((Expr.func ⟨mark, name, sign, body, scope, inner, symbol, params⟩).bind env declared) := by
  rw [Expr.bind_func]
  have hannounced : Succeeds c (fun f c1 => f.Announced c1)
      (Func.declareUnless env ⟨mark, name, sign, body, scope, inner, symbol, params⟩ declared) := by
    cases declared with
    | none => exact Func.declare_succeeds henv hsign
    | some f => exact .pure (hdeclared f rfl)
  refine hannounced.bind fun f c1 hlater1 hf => ?_
  have henv1 := hlater1.hasScope henv
  have hsigned : Succeeds c1 (fun sign' c2 => ∀ s ∈ sign', s.Placed c2) (FuncSign.bindIfAny env.scope f.sign) := by
    cases hs : f.sign with
    | none => exact .pure (by simp)
    | some s =>
      have hlift : Succeeds c1 (fun s' c2 => s'.Placed c2) (liftM (s.inScope env.scope) : AnalysisM FuncSign) :=
        .lift fun _ => FuncSign.inScope_gives henv1 (hf.sign s hs)
      exact hlift.bind fun s' c2 _ hs' => .pure (by simpa using hs')
  refine hsigned.bind fun sign' c2 hlater2 hsign' => ?_
  refine (enter_succeeds (hlater2.hasScope henv1) f.name .function).bind fun within c3 hlater3 hwithin => ?_
  have hf3 := (hf.mono hlater2).mono hlater3
  refine (Func.parameterTypes_succeeds hf3.type).bind fun types c4 hlater4 htypes => ?_
  have hwithin4 := hlater4.hasScope hwithin
  refine (declareParameters_succeeds hwithin4 fun p hp => ?_).bind fun params' c5 hlater5 _ => ?_
  · exact ⟨Func.parameters_ne_none hf3.sign _ (of_mem_zip hp).1, htypes _ (of_mem_zip hp).2⟩
  refine (hbody (hlater5.hasScope hwithin4)).bind fun body' c6 hlater6 hbody' => .pure ?_
  have hlater := (hlater4.trans hlater5).trans hlater6
  exact ⟨⟨hlater.hasFunction hf3.type, hf3.known.mono hlater⟩, fun s hs =>
    (hsign' s hs).imp_right (·.mono (hlater3.trans hlater)), hbody'⟩

mutual
theorem Expr.bind_succeeds : ∀ (e : Expr) {c : Context} {env : Enclosure} {declared : Option Func}, e.Intact false →
    c.HasScope env.scope → (∀ f ∈ declared, f.Announced c) →
    Succeeds c (fun e' c1 => e'.Placed c1) (e.bind env declared)
  | .missing, _, _, _, h, _, _ => h.elim
  | .func ⟨_, _, _, body, _, _, _, _⟩, c, env, declared, ⟨hsign, hbody⟩, henv, hdeclared => by
    refine Expr.bind_func_succeeds henv hdeclared hsign fun {c env} henv => ?_
    rcases hbody with rfl | hbody
    · exact .pure (.inl rfl)
    · have hbind : body.bindBody env = body.bind env none := by
        cases body with
        | missing => exact hbody.elim
        | _ => rfl
      rw [hbind]
      exact (body.bind_succeeds hbody henv (by simp)).imp fun _ _ _ h => .inr h
  | .cond _ _ _ condition thenBranch elseBranch, c, env, _, ⟨hcondition, hthen, helse⟩, henv, _ => by
    refine (condition.bind_succeeds hcondition henv (by simp)).bind fun a c1 hlater1 ha => ?_
    refine (enter_succeeds (hlater1.hasScope henv) "" .branch).bind fun thenEnv c2 hlater2 hthenEnv => ?_
    refine (thenBranch.bind_succeeds hthen hthenEnv (by simp)).bind fun b c3 hlater3 hb => ?_
    have hlater := (hlater1.trans hlater2).trans hlater3
    refine (enter_succeeds (hlater.hasScope henv) "" .branch).bind fun elseEnv c4 hlater4 helseEnv => ?_
    refine (elseBranch.bind_succeeds helse helseEnv (by simp)).bind fun d c5 hlater5 hd => .pure ?_
    have hlater' := hlater4.trans hlater5
    exact ⟨((ha.mono hlater2).mono hlater3).mono hlater', hb.mono hlater', hd⟩
  | .matching _ subject cases, c, env, _, ⟨hsubject, hcases⟩, henv, _ =>
    (subject.bind_succeeds hsubject henv (by simp)).bind fun a c1 hlater1 ha =>
      (MatchCase.bindAll_succeeds cases hcases (hlater1.hasScope henv)).bind fun b c2 hlater2 hb =>
        .pure ⟨ha.mono hlater2, hb⟩
  | .letBinding b, c, env, _, _, henv, _ =>
    (declareOnce_succeeds (P := fun _ => True) henv b.mark.token b.name
      (fresh_succeeds.imp fun _ _ _ => And.imp_left fun ht => ⟨trivial, ht⟩) false).bind fun id c1 _ hid => .pure hid.1
  | .binary .., _, _, _, h, _, _ => by cases h.1
  | .unary .., _, _, _, h, _, _ => by cases h.1
  | .call _ callee args, c, env, _, ⟨hcallee, hargs⟩, henv, _ =>
    (callee.bind_succeeds hcallee henv (by simp)).bind fun a c1 hlater1 ha =>
      (Labelled.bindAll_succeeds args hargs (hlater1.hasScope henv)).bind fun b c2 hlater2 hb =>
        .pure ⟨ha.mono hlater2, hb⟩
  | .argument ⟨_, _, value⟩, c, env, _, h, henv, _ => (value.bind_succeeds h henv (by simp)).bind fun a c1 _ ha =>
    .pure ha
  | .tuple _ _ elems, c, env, _, h, henv, _ => (Labelled.bindAll_succeeds elems h henv).bind fun a c1 _ ha => .pure ha
  | .element ⟨_, _, value⟩, c, env, _, h, henv, _ => (value.bind_succeeds h henv (by simp)).bind fun a c1 _ ha =>
    .pure ha
  | .select _ owner _, c, env, _, h, henv, _ => (owner.bind_succeeds h henv (by simp)).bind fun a c1 _ ha => .pure ha
  | .ident _, _, _, _, _, henv, _ => .pure henv
  | .literal .., _, _, _, _, _, _ => .pure trivial
theorem Labelled.bindAll_succeeds : ∀ (xs : List (Option Labelled)) {c : Context} {env : Enclosure},
    Labelled.AllIntact false xs → c.HasScope env.scope →
    Succeeds c (fun xs' c1 => Labelled.AllPlaced c1 xs') (Labelled.bindAll env xs)
  | [], _, _, _, _ => .pure trivial
  | none :: _, _, _, h, _ => h.elim
  | some ⟨_, _, value⟩ :: rest, c, env, ⟨hvalue, hrest⟩, henv =>
    (value.bind_succeeds hvalue henv (by simp)).bind fun a c1 hlater1 ha =>
      (Labelled.bindAll_succeeds rest hrest (hlater1.hasScope henv)).bind fun b c2 hlater2 hb =>
        .pure ⟨ha.mono hlater2, hb⟩
theorem MatchCase.bind_succeeds : ∀ (x : MatchCase) {c : Context} {env : Enclosure}, x.Intact false →
    c.HasScope env.scope → Succeeds c (fun x' c1 => x'.Placed c1) (x.bind env)
  | ⟨_, pattern, value, _⟩, c, env, ⟨hpattern, hvalue⟩, henv =>
    (enter_succeeds henv "" .matchCase).bind fun within c1 _ hwithin =>
      (pattern.bind_succeeds hpattern hwithin (by simp)).bind fun a c2 hlater2 ha =>
        (value.bind_succeeds hvalue (hlater2.hasScope hwithin) (by simp)).bind fun b c3 hlater3 hb =>
          .pure ⟨ha.mono hlater3, hb⟩
theorem MatchCase.bindAll_succeeds : ∀ (xs : List (Option MatchCase)) {c : Context} {env : Enclosure},
    MatchCase.AllIntact false xs → c.HasScope env.scope →
    Succeeds c (fun xs' c1 => MatchCase.AllPlaced c1 xs') (MatchCase.bindAll env xs)
  | [], _, _, _, _ => .pure trivial
  | none :: _, _, _, h, _ => h.elim
  | some x :: rest, _, _, ⟨hx, hrest⟩, henv =>
    (x.bind_succeeds hx henv).bind fun _ _ hlater1 ha =>
      (MatchCase.bindAll_succeeds rest hrest (hlater1.hasScope henv)).bind fun _ _ hlater2 hb =>
        .pure ⟨ha.mono hlater2, hb⟩
end

/-! ### Statements -/

/-- What was declared ahead for a statement is there. -/
def Node.Ready (c : Context) (n ahead : Node) : Prop :=
  match n with
  | .alias _ => ∃ a, ahead = .alias a ∧ c.Names a.symbol
  | .expr _ => ∀ f ∈ ahead.declaredFunc?, f.Announced c
  | _ => False

theorem Node.Ready.mono {n ahead : Node} (hlater : Later c c1) (h : n.Ready c ahead) : n.Ready c1 ahead := by
  cases n with
  | «alias» _ => exact h.imp fun a => And.imp_right hlater.names
  | expr _ => exact fun f hf => (h f hf).mono hlater
  | _ => exact h.elim

theorem Node.declaredFunc?_eq_some {n : Node} {f : Func} (h : n.declaredFunc? = some f) :
    n = .expr (.func f) ∧ f.name ≠ "" := by
  unfold Node.declaredFunc? at h
  split at h
  · split at h
    · cases h
    · next hname =>
      cases h
      exact ⟨rfl, hname⟩
  · cases h

theorem Node.declareAhead_succeeds {i : ScopeId} (hi : c.HasScope i) {n : Node} (h : n.Intact false) :
    Succeeds c (fun ahead c1 => n.Ready c1 ahead) (n.declareAhead i) := by
  cases n with
  | «alias» a => exact (a.declare_succeeds hi).bind fun a' c1 _ ha' => .pure ⟨a', rfl, ha'⟩
  | expr e =>
    cases e with
    | func f =>
      obtain ⟨mark, name, sign, body, scope, inner, symbol, params⟩ := f
      rw [Node.declareAhead]
      split
      · next hname =>
        refine .pure fun g hg => ?_
        obtain ⟨heq, hne⟩ := Node.declaredFunc?_eq_some hg
        cases heq
        exact absurd hname hne
      · refine (Func.declare_succeeds hi h.1).bind fun f' c1 _ hf' => .pure fun g hg => ?_
        obtain ⟨heq, -⟩ := Node.declaredFunc?_eq_some hg
        cases heq
        exact hf'
    | _ => exact .pure fun g hg => by cases hg
  | _ => exact h.elim

theorem Node.bind_succeeds {env : Enclosure} (henv : c.HasScope env.scope) {n ahead : Node} (h : n.Intact false)
    (hready : n.Ready c ahead) : Succeeds c (fun r c1 => r.1.Placed c1 ∧ r.2 = env) (Node.bind env ahead n) := by
  cases n with
  | «alias» a =>
    obtain ⟨b, rfl, hb⟩ := hready
    rw [Node.bind]
    have hlift : Succeeds c (fun s c1 => s.Placed c1 ∧ c1.Names b.symbol)
        (liftM (a.sign.inScope env.scope) : AnalysisM Sign) :=
      .lift fun _ => (Sign.inScope_gives henv h).imp fun _ => And.imp_right fun hs => ⟨hs, hb⟩
    exact hlift.bind fun s c1 _ hs => .pure ⟨hs, rfl⟩
  | expr e =>
    rw [Node.bind]
    exact (e.bind_succeeds h henv hready).bind fun e' c1 _ he' => .pure ⟨he', rfl⟩
  | _ => exact h.elim

theorem Node.bindAll_succeeds {env : Enclosure} : ∀ {ns aheads : List Node} {c : Context}, c.HasScope env.scope →
    (∀ n ∈ ns, n.Intact false) → Forall₂ (Node.Ready c) ns aheads →
      Succeeds c (fun r c1 => ∀ n ∈ r.1, n.Placed c1) (Node.bindAll env aheads ns)
  | [], _, c, _, _, .nil => .pure (by simp)
  | n :: ns, ahead :: aheads, c, henv, hns, .cons hready haheads => by
    obtain ⟨hn, hns⟩ := forall_mem_cons.mp hns
    rw [Node.bindAll]
    refine (Node.bind_succeeds henv hn hready).bind fun r c1 hlater1 hr => ?_
    obtain ⟨n', env'⟩ := r
    obtain ⟨hn', rfl⟩ := hr
    refine (Node.bindAll_succeeds (hlater1.hasScope henv) hns (haheads.imp fun _ _ h => h.mono hlater1)).bind
      fun r c2 hlater2 hr => ?_
    exact .pure (forall_mem_cons.mpr ⟨hn'.mono hlater2, hr⟩)

theorem Module.bind_succeeds {m : Module} (h : m.Intact false) (hprelude : c.HasScope c.prelude) :
    Succeeds c (fun r c1 => ∀ n ∈ r.1.statements, n.Placed c1) m.bind := by
  obtain ⟨token, name, id, statements, scope⟩ := m
  rw [Module.bind]
  refine .get_bind ((newScope_succeeds hprelude name .module _).bind fun i c1 _ hi => ?_)
  refine (Succeeds.mapM (S := fun n ahead c => n.Ready c ahead) (fun hlater h => h.mono hlater) fun n hn c2 hlater =>
    Node.declareAhead_succeeds (hlater.hasScope hi) (h n hn)).bind fun aheads c2 hlater2 haheads => ?_
  exact (Node.bindAll_succeeds (hlater2.hasScope hi) h haheads).bind fun r c3 _ hr => .pure hr

end

end TypeInference
