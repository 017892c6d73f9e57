import Mathlib.Tactic.FinCases
import TypeInference.Proofs.Enlargement
import TypeInference.Proofs.Overloads
import TypeInference.Proofs.Totality
import TypeInference.Proofs.Unfolding

/-! # Functions and their signatures

The type of a function is equated with the type that is read from its signature. For the solver a type equals a union
that has it as a case, so a use can narrow the type of a function. Where no union is involved it cannot: the function
and its symbol end with a type that is structurally equal to that of the signature, once this is resolved
(`function_respects_signature`). -/

namespace TypeInference

open AnalysisM
open List

variable {f : Func} {k : Nat} {x : Symbol} {id : SymbolId} {t a : Ty}

/-! ### Types that are resolved on the way -/

/-- The type `a` of the graph `z` is `t` with its variables resolved, which was done in a closed graph between `g` and
`z`. -/
def Substitution.Resolves (σ : Substitution) (g z : TypeGraph) (t a : Ty) : Prop :=
  ∃ g1 g2, g.Extends g1 ∧ g1.Closed ∧ σ.reify g1 t = .ok (g2, a) ∧ g2.Extends z

theorem Substitution.Resolves.mirrors {σ : Substitution} {g z : TypeGraph} (h : σ.Resolves g z t a) (hclosed : g.Closed)
    (hcomplete : g.Complete) (hσ : σ.Below g.size) (ht : t.Below g.size) (hunion : ¬ σ.HasUnion g t) :
    σ.Mirrors g z t a := by
  obtain ⟨g1, g2, hext, hg1, hreify, hz⟩ := h
  obtain ⟨g3, b, hreify', -, -, hmirrors⟩ := reify_mirrors hclosed hcomplete hσ hg1 hext ht hunion
  cases hreify.symm.trans hreify'
  exact hmirrors.mono hz

def analyses : Observation AnalysisM Context where
  Sees x c a c' := x.run c = .ok (a, c')
  pure h := by
    cases h
    exact ⟨rfl, rfl⟩
  bind h := run_bind_eq_ok.mp h
  lift h := by
    obtain ⟨a, ha, heq⟩ := run_lift_eq_ok.mp h
    cases heq
    exact ⟨ha, rfl⟩

/-- The graph of an analysis goes on from `g`, closed at every moment, and the symbols stay as they are. -/
def growth (g : TypeGraph) : Course Context where
  Good c := g.Extends c.graph ∧ c.graph.Closed
  Before c c' := c.graph.Extends c'.graph ∧ c'.table = c.table
  refl _ := ⟨TypeGraph.extends_refl _, rfl⟩
  trans h h' := ⟨fun i x hx => h'.1 i x (h.1 i x hx), h'.2.trans h.2⟩

section

variable {g : TypeGraph} {σ : Substitution} {c c' z : Context}

theorem resolve_leads (hσ : σ.Below g.size) (hc : (growth g).Good c) (h : (resolve σ t).run c = .ok (a, c')) :
    (growth g).Leads z c c' (σ.Resolves g z.graph t a) := by
  obtain ⟨c1, c2, hget, h⟩ := run_bind_eq_ok.mp h
  cases hget
  obtain ⟨⟨g', u⟩, c3, hlift, h⟩ := run_bind_eq_ok.mp h
  obtain ⟨r, hreify, heq⟩ := run_lift_eq_ok.mp hlift
  cases heq
  cases h
  obtain ⟨hext, hclosed⟩ := Substitution.reify_extends hc.2 (hσ.mono hc.1.size_le) hreify
  exact ⟨⟨fun i x hx => hext i x (hc.1 i x hx), hclosed⟩, ⟨hext, rfl⟩, fun hz => ⟨_, _, hc.1, hc.2, hreify, hz.1⟩⟩

/-- What becomes of a type in a mark. -/
def Mark.Resolves (σ : Substitution) (g z : TypeGraph) (mark mark' : Mark) : Prop :=
  mark.type ≠ .absent → σ.Resolves g z mark.type mark'.type

theorem Mark.resolve_leads (hσ : σ.Below g.size) {mark mark' : Mark} (hc : (growth g).Good c)
    (h : (mark.resolve σ).run c = .ok (mark', c')) :
    (growth g).Leads z c c' (Mark.Resolves σ g z.graph mark mark') := by
  unfold Mark.resolve at h
  split at h
  · next habsent =>
    cases h
    exact .rest hc fun hne => absurd habsent hne
  · obtain ⟨a, c1, hresolve, h⟩ := run_bind_eq_ok.mp h
    cases h
    exact (TypeInference.resolve_leads hσ hc hresolve).imp fun hres _ => hres

/-- What becomes of an identifier: nothing but the type in its mark is changed. -/
def Ident.Resolves (σ : Substitution) (g z : TypeGraph) (i i' : Ident) : Prop :=
  i' = { i with mark := i'.mark } ∧ Mark.Resolves σ g z i.mark i'.mark

theorem resolve_gradual (hσ : σ.Below g.size) (z : Context) : Gradual analyses
    { ident := fun i => do return { i with mark := ← i.mark.resolve σ }, mark := Mark.resolve σ } (growth g) z
    (Ident.Resolves σ g z.graph) (Mark.Resolves σ g z.graph) where
  ident hc h := by
    obtain ⟨mark, c1, hmark, h⟩ := run_bind_eq_ok.mp h
    cases h
    exact (Mark.resolve_leads hσ hc hmark).imp fun hres => ⟨rfl, hres⟩
  mark hc h := Mark.resolve_leads hσ hc h

def Symbol.Resolves (σ : Substitution) (g z : TypeGraph) (x y : Symbol) : Prop :=
  y = { x with type := y.type } ∧ σ.Resolves g z x.type y.type

theorem resolveAll_leads (hσ : σ.Below g.size) : ∀ {xs ys : List Symbol} {c c' : Context}, (growth g).Good c →
    (resolveAll σ xs).run c = .ok (ys, c') →
      (growth g).Leads z c c' (Forall₂ (Symbol.Resolves σ g z.graph) xs ys)
  | [], ys, c, c', hc, h => by
    cases h
    exact .rest hc .nil
  | x :: xs, ys, c, c', hc, h => by
    obtain ⟨t, c1, ys', ht, hys, rfl⟩ := resolveAll_cons h
    exact ((resolve_leads hσ hc ht).and fun hc1 => resolveAll_leads hσ hc1 hys).imp fun h => .cons ⟨rfl, h.1⟩ h.2

theorem SameNode.of_func {I : Ident → Ident → Prop} {M : Mark → Mark → Prop} {e : Expr} (h : SameNode I M (.func f) e) :
    ∃ f', e = .func f' ∧ f' = { f with mark := f'.mark, body := f'.body } ∧ M f.mark f'.mark := by
  cases h with
  | func h => exact ⟨_, rfl, rfl, h⟩

/-- What dispatch makes of a module and its symbols: identifiers are bound, and then all types are resolved, each in its
place. -/
structure Dispatches (σ : Substitution) (m : Module) (c : Context) (m' : Module) (c' : Context) : Prop where
  graph : c.graph.Extends c'.graph
  closed : c'.graph.Closed
  exprs : ∃ es, Kept (Dispatched c σ) Eq m.exprs es ∧
    Kept (Ident.Resolves σ c.graph c'.graph) (Mark.Resolves σ c.graph c'.graph) es m'.exprs
  scopes : c'.table.scopes = c.table.scopes
  listed : List.Forall₂ (Symbol.Resolves σ c.graph c'.graph) c.table.symbols.toList c'.table.symbols.toList

theorem Module.dispatches {m m' : Module} {clock clock' : Solver.Clock} (hclosed : c.graph.Closed)
    (hσ : σ.Below c.graph.size) (h : (m.dispatch σ clock).run c = .ok ((m', clock'), c'))
    (hclean : c'.diagnostics.entries = []) : Dispatches σ m c m' c' := by
  obtain ⟨⟨m1, clock1⟩, c1, hfirst, h⟩ := run_bind_eq_ok.mp h
  obtain ⟨u, c2, hsymbols, h⟩ := run_bind_eq_ok.mp h
  obtain ⟨m2, c3, hsecond, h⟩ := run_bind_eq_ok.mp h
  cases h
  obtain ⟨hsame, -⟩ := Module.change_kept (resolve_steady σ) ⟨_, _, hsecond, rfl, rfl⟩ trivial
  rw [hsame, resolveSymbols_problems hsymbols] at hclean
  obtain ⟨rfl, hkept1⟩ := Module.change_kept (dispatch_steady σ) ⟨_, _, hfirst⟩ hclean
  rw [resolveSymbols_eq] at hsymbols
  obtain ⟨c4, c5, hget, hsymbols⟩ := run_bind_eq_ok.mp hsymbols
  cases hget
  obtain ⟨symbols, c6, hall, hsymbols⟩ := run_bind_eq_ok.mp hsymbols
  cases hsymbols
  have hstart : (growth c1.graph).Good c1 := ⟨TypeGraph.extends_refl _, hclosed⟩
  -- the symbols are resolved in a graph that goes on until the end of the second pass
  have hleads := resolveAll_leads (z := { c6 with graph := c'.graph }) hσ hstart hall
  have hleads2 := Module.change_gradual (resolve_gradual hσ c') _
    { c6 with table := { c6.table with symbols := symbols.toArray } } _ _ hleads.good hsecond
  have htable : c'.table = { c6.table with symbols := symbols.toArray } := hleads2.before.2
  refine ⟨fun i x hx => hleads2.before.1 i x (hleads.before.1 i x hx), hleads2.good.2,
    ⟨m1.exprs, hkept1, (hleads2.shown ((growth _).refl c')).1⟩, ?_, ?_⟩
  · have hscopes : c6.table.scopes = c1.table.scopes := congrArg SymbolTable.scopes hleads.before.2
    rw [htable]
    exact hscopes
  · rw [htable]
    exact hleads.shown ⟨hleads2.before.1, rfl⟩

namespace Dispatches

variable {m m' : Module}

theorem funcs (h : Dispatches σ m c m' c') (hf : m.exprs[k]? = some (.func f)) :
    ∃ f', m'.exprs[k]? = some (.func f') ∧ f' = { f with mark := f'.mark, body := f'.body } ∧
      Mark.Resolves σ c.graph c'.graph f.mark f'.mark := by
  obtain ⟨es, hkept1, hkept2⟩ := h.exprs
  obtain ⟨e1, he1, hsame1⟩ := hkept1.get? hf
  obtain ⟨e2, he2, hsame2⟩ := hkept2.get? he1
  obtain ⟨f1, rfl, hf1, hmark1⟩ := hsame1.of_func
  obtain ⟨f2, rfl, hf2, hmark2⟩ := hsame2.of_func
  rw [← hmark1] at hmark2
  refine ⟨f2, he2, ?_, hmark2⟩
  rw [hf2, hf1]

theorem symbol (h : Dispatches σ m c m' c') (hx : c.table.symbol id = .ok x) :
    ∃ y, c'.table.symbol id = .ok y ∧ Symbol.Resolves σ c.graph c'.graph x y := by
  obtain ⟨a, rfl, ha⟩ := SymbolTable.symbol_eq_ok.mp hx
  rw [← Array.getElem?_toList] at ha
  obtain ⟨hlt, rfl⟩ := List.getElem?_eq_some_iff.mp ha
  have hlt' : a < c'.table.symbols.toList.length := h.listed.length_eq ▸ hlt
  refine ⟨c'.table.symbols.toList[a], SymbolTable.symbol_eq_ok.mpr ⟨a, rfl, ?_⟩, h.listed.get hlt hlt'⟩
  rw [← Array.getElem?_toList, List.getElem?_eq_getElem hlt']

theorem symbols (h : Dispatches σ m c m' c') (hx : c.table.symbol id = .ok x) :
    ∃ y, c'.table.symbol id = .ok y ∧ σ.Resolves c.graph c'.graph x.type y.type :=
  (h.symbol hx).imp fun _ => And.imp_right And.right

end Dispatches

end

/-! ### Accepted modules -/

theorem Context.WellFormed.wellPosed {c : Context} (hc : c.WellFormed) :
    Solver.WellPosed c.graph c.constraints .empty where
  closed := hc.closed
  complete := hc.complete
  types d hd t ht := (hc.constraints d hd t ht).below
  known := hc.known
  bindings p hp := by cases hp
  acyclic := Substitution.noVariableCycle_empty

section

variable {s generated final : Session} {m : Module} {σ : Substitution}

theorem Session.Trace.typed (t : Session.Trace s m generated final σ) (hgraph : s.graph.Ground)
    (hm : ∀ n ∈ m.statements, n.IsStatement) : t.context.WellFormed ∧ ∀ e ∈ t.typedModule.exprs, e.Typed t.context := by
  have hintact : m.Intact false := (Module.bind_fills hm t.declares).2 ⟨_, _, _, t.obliges⟩
  obtain ⟨c0, m1, env, c1, hstart, hbind, hc1, hplaced⟩ := Session.bindModule_gives hgraph hintact
  obtain rfl : c0 = t.initial := Except.ok.inj (hstart.symm.trans t.start)
  cases hbind.symm.trans t.declares
  obtain ⟨m2, c2, hoblige, hc2, -, htyped⟩ := Module.oblige_succeeds hplaced hc1
  rw [← Context.eq_of_clean t.declaredClean] at hoblige
  cases hoblige.symm.trans t.obliges
  exact ⟨hc2, htyped⟩

theorem Session.Trace.below (t : Session.Trace s m generated final σ) (hc : t.context.WellFormed) :
    σ.Below t.context.graph.size := by
  obtain ⟨e, hpath, -, rfl⟩ := Solver.emptied_of_solution (Solver.yields_of_solve t.solves) t.solved
  have hinside := (Solver.Visits.of_adopted hpath).inside hc.wellPosed.universe hc.wellPosed.inside
  exact fun p hp => hc.wellPosed.universe.below _ (hinside.table p hp)

end

/-- The type `a` of the graph is structurally equal to `t` with its variables resolved. -/
def Substitution.EqualsResolved (σ : Substitution) (g : TypeGraph) (a t : Ty) : Prop :=
  ∃ g' t', σ.reify g t = .ok (g', t') ∧ g'.equal a t' = .ok true

section

variable {s generated final : Session} {m typed : Module} {c : Context} {σ : Substitution}

theorem Session.Accepts.signed (h : s.Accepts m generated final σ) (hgraph : s.graph.Ground)
    (hm : ∀ n ∈ m.statements, n.IsStatement) (hc : generated.analysis = some c) (htyped : generated.module = some typed)
    (hf : typed.exprs[k]? = some (.func f)) : f.Signed c ∧ c.Has f.mark.type := by
  obtain ⟨t⟩ := h.trace
  obtain rfl : t.typedModule = typed := Option.some.inj (t.generatedModule.symm.trans htyped)
  obtain rfl : t.context = c := by
    rw [← Context.eq_of_clean t.contextClean]
    exact Option.some.inj (t.generatedContext.symm.trans hc)
  obtain ⟨⟨type, htype, hhas⟩, -, hsigned⟩ := (t.typed hgraph hm).2 _ (mem_of_getElem? hf)
  obtain rfl : f.mark.type = type := Except.ok.inj htype
  exact ⟨hsigned f rfl, hhas⟩

end

/-- **Signatures.** The type of a function with a signature, which is that of its symbol if it has a name, is equated
with the type read from the signature and equals it in the sense of the solver. If no union can be reached from either,
then the types that the function and its symbol have in the end are structurally equal to the type of the signature,
resolved. -/
theorem function_respects_signature (s generated final : Session) (m typed last : Module) (c c' : Context)
    (σ : Substitution) (h : s.Accepts m generated final σ) (hgraph : s.graph.Ground)
    (hm : ∀ n ∈ m.statements, n.IsStatement) (hc : generated.analysis = some c) (htyped : generated.module = some typed)
    (hc' : final.analysis = some c') (hlast : final.module = some last) (k : Nat) (f : Func) (sign : FuncSign)
    (hf : typed.exprs[k]? = some (.func f)) (hsign : f.sign = some sign) :
    ∃ f' declared, last.exprs[k]? = some (.func f') ∧ f'.name = f.name ∧ f'.sign = some sign ∧ f'.symbol = f.symbol ∧
      sign.ReadAs c declared ∧ .equality f.mark.type declared (f.mark.location [.signature]) ∈ c.constraints ∧
      σ.Related c.graph .equality f.mark.type declared ∧ (f.name ≠ "" → c.Declares f.symbol f.mark.type) ∧
      (¬ σ.HasUnion c.graph f.mark.type → ¬ σ.HasUnion c.graph declared →
        σ.EqualsResolved c'.graph f'.mark.type declared ∧
          (f.name ≠ "" → ∃ symbol, c'.table.symbol f.symbol = .ok symbol ∧
            σ.EqualsResolved c'.graph symbol.type declared)) := by
  obtain ⟨hsigned, hhas⟩ := h.signed hgraph hm hc htyped hf
  obtain ⟨declared, hread, hdeclared, hequal⟩ := hsigned.sign sign hsign
  obtain ⟨t⟩ := h.trace
  obtain rfl : { t.context with diagnostics := {} } = c := Option.some.inj (t.generatedContext.symm.trans hc)
  obtain rfl : { t.last with diagnostics := {} } = c' := Option.some.inj (t.finalContext.symm.trans hc')
  obtain rfl : t.typedModule = typed := Option.some.inj (t.generatedModule.symm.trans htyped)
  obtain rfl : t.lastModule = last := Option.some.inj (t.finalModule.symm.trans hlast)
  have hwell := (t.typed hgraph hm).1
  have hσ := t.below hwell
  obtain ⟨hground, -, hsat⟩ := Solver.satisfies_of_solve Substitution.noVariableCycle_empty.grounded t.solves
    (Solver.solved_of_solution? t.solved)
  have hrelated : σ.Related t.context.graph .equality f.mark.type declared := by
    cases hsat σ (.refl σ) hground _ hequal with
    | relate hrelated => exact hrelated
  have hdispatches := Module.dispatches (c := { t.context with diagnostics := {} }) hwell.closed hσ t.dispatches
    (Diagnostics.entries_of_toList t.lastClean)
  obtain ⟨f', hf', hsame, hmark⟩ := hdispatches.funcs hf
  refine ⟨f', declared, hf', by rw [hsame], by rw [hsame, hsign], by rw [hsame], hread, hequal, hrelated,
    (hsigned.known · rfl), fun hunion hunion' => ?_⟩
  -- what the type of the signature resolves to in the end, and what it is compared with
  obtain ⟨g', t', hreify, hext, -, hmirrors⟩ :=
    Substitution.reify_mirrors hwell.closed hwell.complete hσ hdispatches.closed hdispatches.graph
    hdeclared.below hunion'
  have hequals : ∀ {a : Ty}, σ.Resolves t.context.graph t.last.graph f.mark.type a →
      σ.EqualsResolved t.last.graph a declared := fun ha =>
    have ha := (ha.mirrors hwell.closed hwell.complete hσ hhas.below hunion).mono hext
    ⟨g', t', hreify, Substitution.equal_of_mirrors hrelated ha hmirrors⟩
  refine ⟨hequals (hmark hhas.ne_absent), fun hname => ?_⟩
  obtain ⟨x, hx, hxtype⟩ := hsigned.known hname rfl
  obtain ⟨y, hy, hxy⟩ := hdispatches.symbols hx
  rw [hxtype] at hxy
  exact ⟨y, hy, hequals hxy⟩

/-! ### A function that is narrower than its signature -/

/-- The function `f` from `Int` to `Int or Bool`, with the body `true`; the function `g` from `Int` to `Int`; and a
conditional on `f(1)` with a branch `g(1)`. -/
def narrowedModule : Module where
  token := {}
  name := "narrowed"
  statements := [
    .expr (.func {
      mark := { token := {} }, name := "f", body := .literal { token := {} } (.bool true),
      sign := some ⟨{}, some ⟨{}, "", [some ⟨{}, "", "x", namedSign "Int"⟩]⟩,
      .union {} [namedSign "Int", namedSign "Bool"]⟩ }),
    unaryFunc "g" (namedSign "Int") (namedSign "Int"),
    .expr (.cond { token := {} } noScope noScope (unaryCall "f" (.literal { token := {} } (.int 1)))
      (unaryCall "g" (.literal { token := {} } (.int 1))) (.literal { token := {} } (.int 2)))]

def narrowedSession : Session := { file := "", module := some narrowedModule, logging := false }

/-- The types that a function was equated with for its signature. -/
def Func.declaredTypes (f : Func) (constraints : List Constraint) : List Ty :=
  constraints.filterMap fun
    | .relate .equality t u location => if t = f.mark.type ∧
      location = f.mark.location [.signature] then some u else none
    | _ => none

theorem Func.mem_declaredTypes {constraints : List Constraint}
    (h : .equality f.mark.type t (f.mark.location [.signature]) ∈ constraints) : t ∈ f.declaredTypes constraints := by
  refine mem_filterMap.mpr ⟨_, h, ?_⟩
  simp

set_option maxRecDepth 20000 in
/-- The stages on the sample: `f` ends with a type that differs from that of its signature, and no unions are reached
from `g`. -/
theorem narrowedSession_stages : ∃ (generated final : Session) (typed last : Module) (c c' : Context) (σ : Substitution)
    (f f' g : Func) (sign sign' : FuncSign) (t u : Ty),
    narrowedSession.Accepts narrowedModule generated final σ ∧ generated.analysis = some c ∧
    generated.module = some typed ∧ final.analysis = some c' ∧ final.module = some last ∧
      typed.exprs[0]? = some (.func f) ∧ f.sign = some sign ∧ last.exprs[0]? = some (.func f') ∧
      f.declaredTypes c.constraints = [t] ∧ (σ.reify c'.graph t >>= fun r => r.1.equal f'.mark.type r.2) = .ok false ∧
      typed.exprs[2]? = some (.func g) ∧ g.sign = some sign' ∧ g.name = "g" ∧ g.declaredTypes c.constraints = [u] ∧
      σ.isSealed c.graph [g.mark.type, u, .node 66, .var 2, .var 3, .node 71, .int] = true := by
  refine ⟨?_, ?_, ?_, ?_, ?_, ?_, ?_, ?_, ?_, ?_, ?_, ?_, ?_, ?_,
    ⟨rfl, ⟨?_, ?_, ?bind, ?generate, ?solve, ?dispatch⟩, ?clean, ?solution⟩, ?analysis, ?typed, ?finalAnalysis, ?last,
    ?func, ?sign, ?lastFunc, ?declared, ?differ, ?other, ?otherSign, ?otherName, ?otherDeclared, ?sealed⟩
  case bind | generate | solve => cbv; exact rfl
  case dispatch =>
    apply Session.dispatch_of_passes 20
    case hc | hσ | hm | hfirst | hearly | hlate | hsecond => cbv
    case hadopt => cbv; exact rfl
  case clean => cbv
  case solution | analysis | typed | finalAnalysis => cbv; exact rfl
  case last => exact rfl
  case func => cbv; exact rfl
  case sign => exact rfl
  case lastFunc | declared => cbv; exact rfl
  case differ => cbv
  case other => cbv; exact rfl
  case otherSign => exact rfl
  case otherName => rfl
  case otherDeclared => cbv; exact rfl
  case sealed => cbv

theorem narrowedModule_statements : ∀ n ∈ narrowedModule.statements, n.IsStatement := by
  intro n hn
  fin_cases hn <;> exact .expr _

/-- A function need not keep the type of its signature: a use of it may choose a case of a union. -/
theorem function_narrower_than_signature : ¬ ∀ (s generated final : Session) (m typed last : Module) (c c' : Context)
    (σ : Substitution), s.Accepts m generated final σ → s.graph.Ground → (∀ n ∈ m.statements, n.IsStatement) →
    generated.analysis = some c → generated.module = some typed → final.analysis = some c' → final.module = some last →
    ∀ (k : Nat) (f f' : Func) (sign : FuncSign) (declared : Ty), typed.exprs[k]? = some (.func f) → f.sign = some sign →
      last.exprs[k]? = some (.func f') → sign.ReadAs c declared → σ.EqualsResolved c'.graph f'.mark.type declared := by
  intro hclaim
  obtain ⟨generated, final, typed, last, c, c', σ, f, f', -, sign, -, t, -, haccepts, hc, htyped, hc', hlast, hf, hsign,
    hf', hdeclared, hdiffer, -⟩ := narrowedSession_stages
  obtain ⟨declared, hread, -, hequal⟩ :=
    (haccepts.signed ground_empty narrowedModule_statements hc htyped hf).1.sign sign hsign
  have hmem := Func.mem_declaredTypes hequal
  rw [hdeclared, List.mem_singleton] at hmem
  subst hmem
  obtain ⟨g', t', hreify, hsame⟩ :=
    hclaim _ generated final _ typed last c c' σ haccepts ground_empty narrowedModule_statements hc htyped hc' hlast 0 f
    f' sign declared hf hsign hf' hread
  rw [hreify, ok_bind, hsame] at hdiffer
  cases hdiffer

/-- On the sample, the function whose signature has no union keeps its type, and so does its symbol. -/
theorem narrowedModule_signature :
    ∃ (generated final : Session) (typed last : Module) (c c' : Context) (σ : Substitution) (g g' : Func)
    (sign : FuncSign) (declared : Ty) (symbol : Symbol), narrowedSession.Accepts narrowedModule generated final σ ∧
    generated.analysis = some c ∧ generated.module = some typed ∧
      final.analysis = some c' ∧ final.module = some last ∧ typed.exprs[2]? = some (.func g) ∧ g.sign = some sign ∧
      last.exprs[2]? = some (.func g') ∧ sign.ReadAs c declared ∧ ¬ σ.HasUnion c.graph g.mark.type ∧
      ¬ σ.HasUnion c.graph declared ∧ σ.EqualsResolved c'.graph g'.mark.type declared ∧
      c'.table.symbol g.symbol = .ok symbol ∧ σ.EqualsResolved c'.graph symbol.type declared := by
  obtain ⟨generated, final, typed, last, c, c', σ, -, -, g, -, sign, -, u, haccepts, hc, htyped, hc', hlast, -, -, -, -,
    -, hg, hsign, hname, hdeclared, hsealed⟩ := narrowedSession_stages
  obtain ⟨g', declared, hg', -, -, -, hread, hequal, -, -, hkept⟩ :=
    function_respects_signature _ generated final _ typed last c c' σ haccepts ground_empty narrowedModule_statements hc
    htyped hc' hlast 2 g sign hg hsign
  have hmem := Func.mem_declaredTypes hequal
  rw [hdeclared, List.mem_singleton] at hmem
  subst hmem
  have hunion : ¬ σ.HasUnion c.graph g.mark.type := Substitution.not_hasUnion_of_isSealed hsealed (by simp)
  have hunion' : ¬ σ.HasUnion c.graph declared := Substitution.not_hasUnion_of_isSealed hsealed (by simp)
  obtain ⟨hfunc, hsymbol⟩ := hkept hunion hunion'
  obtain ⟨symbol, hsymbol, hsame⟩ := hsymbol (by simp [hname])
  exact ⟨generated, final, typed, last, c, c', σ, g, g', sign, declared, symbol, haccepts, hc, htyped, hc', hlast, hg,
    hsign, hg', hread, hunion, hunion', hfunc, hsymbol, hsame⟩

end TypeInference
