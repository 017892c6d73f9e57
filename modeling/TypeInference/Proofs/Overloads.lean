import TypeInference.Proofs.Acceptance
import TypeInference.Proofs.Generation
import TypeInference.Proofs.Soundness

/-! # The choice of overloads

Dispatching binds an identifier with several candidates to the first one whose type fits under the solution
(`Module.dispatch_kept`). It need not be the one with which the solver found its solution; but the solution can be
extended to satisfy all constraints of the module with the disjunction of the identifier replaced by the choice. -/

namespace TypeInference

open AnalysisM
open List

variable {c1 c2 : Context} {m m' m1 : Module} {clock clock' : Solver.Clock} {id : SymbolId}

/-! ### Watching -/

/-- Computations that solve on the way; the clock is not watched. -/
def overloads : Observation OverloadM Context where
  Sees x c a c' := ∃ clock clock', (x.run clock).run c = .ok ((a, clock'), c')
  pure := by
    rintro α a b c c' ⟨clock, clock', h⟩
    cases h
    exact ⟨rfl, rfl⟩
  bind := by
    rintro α β x f b c c'' ⟨clock, clock'', h⟩
    rw [StateT.run_bind] at h
    obtain ⟨⟨a, clock'⟩, c', hx, hf⟩ := run_bind_eq_ok.mp h
    exact ⟨a, c', ⟨clock, clock', hx⟩, ⟨clock', clock'', hf⟩⟩
  lift := by
    rintro α x b c c' ⟨clock, clock', h⟩
    cases x with
    | error e => cases h
    | ok a =>
      cases h
      exact ⟨rfl, rfl⟩

/-- Computations of an analysis, of which only the problems are watched. -/
def problems : Observation AnalysisM Diagnostics where
  Sees x d a d' := ∃ c c', x.run c = .ok (a, c') ∧ c.diagnostics = d ∧ c'.diagnostics = d'
  pure := by
    rintro α a b d d' ⟨c, c', h, rfl, rfl⟩
    cases h
    exact ⟨rfl, rfl⟩
  bind := by
    rintro α β x f b d d'' ⟨c, c'', h, rfl, rfl⟩
    obtain ⟨a, c', hx, hf⟩ := run_bind_eq_ok.mp h
    exact ⟨a, c'.diagnostics, ⟨c, c', hx, rfl, rfl⟩, ⟨c', c'', hf, rfl, rfl⟩⟩
  lift := by
    rintro α x b d d' ⟨c, c', h, rfl, rfl⟩
    obtain ⟨a, ha, heq⟩ := run_lift_eq_ok.mp h
    cases heq
    exact ⟨ha, rfl⟩

/-! ### Identifiers -/

/-- Whether the type of a candidate fits, by the verdict of the solver. -/
def Ident.Checks (i : Ident) (c : Context) (σ : Substitution) (id : SymbolId) (verdict : Bool) : Prop :=
  ∃ symbol clock report, c.table.symbol id = .ok symbol ∧
    Solver.solve c.graph [.equality i.mark.type symbol.type i.place] σ clock = .ok report ∧
    report.outcome.isOk = verdict

/-- The identifier has the first symbol that fits, if there are several. -/
structure Dispatched (c : Context) (σ : Substitution) (i i' : Ident) : Prop where
  same : i' = { i with symbol := i'.symbol }
  one : i.candidates.length ≤ 1 → i' = i
  several : 1 < i.candidates.length → ∃ earlier later, i.candidates = earlier ++ i'.symbol :: later ∧
    i.Checks c σ i'.symbol true ∧ ∀ id ∈ earlier, i.Checks c σ id false

variable {i : Ident} {c c' : Context} {σ : Substitution}

theorem Ident.fits_eq_ok {b : Bool} (h : overloads.Sees (i.fits σ id) c b c') : c' = c ∧ i.Checks c σ id b := by
  obtain ⟨c1, c2, ⟨k, k', hget⟩, h1⟩ := overloads.bind h
  cases hget
  obtain ⟨symbol, c3, hread, h2⟩ := overloads.bind h1
  obtain ⟨hsymbol, rfl⟩ := overloads.lift hread
  obtain ⟨clock, c4, ⟨l, l', hclock⟩, h3⟩ := overloads.bind h2
  cases hclock
  obtain ⟨report, c5, hrun, h4⟩ := overloads.bind h3
  obtain ⟨hsolve, rfl⟩ := overloads.lift hrun
  obtain ⟨u, c6, ⟨n, n', hset⟩, h5⟩ := overloads.bind h4
  cases hset
  obtain ⟨rfl, rfl⟩ := overloads.pure h5
  exact ⟨rfl, symbol, _, report, hsymbol, hsolve, rfl⟩

theorem Ident.find_eq_ok : ∀ {ids : List SymbolId} {r : Option SymbolId} {c c' : Context},
    overloads.Sees (ids.findM? (i.fits σ)) c r c' → c' = c ∧
      ∀ id, r = some id → ∃ earlier later, ids = earlier ++ id :: later ∧ i.Checks c σ id true ∧
        ∀ id' ∈ earlier, i.Checks c σ id' false
  | [], r, c, c', h => by
    obtain ⟨rfl, rfl⟩ := overloads.pure h
    exact ⟨rfl, fun id h => by cases h⟩
  | id :: ids, r, c, c', h => by
    obtain ⟨b, c1, hfits, hrest⟩ := overloads.bind h
    obtain ⟨rfl, hcheck⟩ := Ident.fits_eq_ok hfits
    cases b with
    | true =>
      obtain ⟨rfl, rfl⟩ := overloads.pure hrest
      refine ⟨rfl, fun id' h => ?_⟩
      cases h
      exact ⟨[], ids, rfl, hcheck, by simp⟩
    | false =>
      obtain ⟨rfl, hfound⟩ := Ident.find_eq_ok hrest
      refine ⟨rfl, fun id' h => ?_⟩
      obtain ⟨earlier, later, rfl, hid, hearlier⟩ := hfound id' h
      exact ⟨id :: earlier, later, rfl, hid, forall_mem_cons.mpr ⟨hcheck, hearlier⟩⟩

theorem Ident.dispatch_eq_ok {i' : Ident} (h : overloads.Sees (i.dispatch σ) c i' c')
    (hclean : c'.diagnostics.entries = []) : c' = c ∧ Dispatched c σ i i' := by
  unfold Ident.dispatch at h
  split at h
  · next hone =>
    obtain ⟨rfl, rfl⟩ := overloads.pure h
    exact ⟨rfl, rfl, fun _ => rfl, fun hmany => by omega⟩
  · next hmany =>
    obtain ⟨r, c1, hfind, hrest⟩ := overloads.bind h
    obtain ⟨rfl, hfound⟩ := Ident.find_eq_ok hfind
    cases r with
    | some id =>
      obtain ⟨rfl, rfl⟩ := overloads.pure hrest
      exact ⟨rfl, rfl, fun hone => absurd hone hmany, fun _ => hfound id rfl⟩
    | none =>
      obtain ⟨type, c2, -, hrest⟩ := overloads.bind hrest
      obtain ⟨c3, c4, -, hrest⟩ := overloads.bind hrest
      obtain ⟨u, c5, ⟨k, k', hdiagnose⟩, hrest⟩ := overloads.bind hrest
      obtain ⟨rfl, rfl⟩ := overloads.pure hrest
      cases hdiagnose
      exact absurd hclean (Diagnostics.add_ne_empty _ _)

/-! ### Modules -/

/-- Nothing but the mark is changed. -/
def Resolved (i i' : Ident) : Prop := i' = { i with mark := i'.mark }

theorem dispatch_steady (σ : Substitution) : Steady overloads { ident := Ident.dispatch σ, mark := pure }
    (fun c => c.diagnostics.entries = []) (fun c => Dispatched c σ) (fun _ => Eq) where
  ident h hclean := Ident.dispatch_eq_ok h hclean
  mark h _ := by
    obtain ⟨rfl, rfl⟩ := overloads.pure h
    exact ⟨rfl, rfl⟩

theorem resolve_problems {t t' : Ty} (h : (resolve σ t).run c = .ok (t', c')) : c'.diagnostics = c.diagnostics := by
  obtain ⟨a, c1, hget, h⟩ := run_bind_eq_ok.mp h
  cases hget
  obtain ⟨⟨g, u⟩, c2, hlift, h⟩ := run_bind_eq_ok.mp h
  obtain ⟨r, -, heq⟩ := run_lift_eq_ok.mp hlift
  cases heq
  cases h
  rfl

theorem Mark.resolve_problems {k k' : Mark} (h : (k.resolve σ).run c = .ok (k', c')) :
    c'.diagnostics = c.diagnostics := by
  unfold Mark.resolve at h
  split at h
  · cases h
    rfl
  · obtain ⟨t, c1, ht, h⟩ := run_bind_eq_ok.mp h
    cases h
    exact TypeInference.resolve_problems ht

theorem resolve_steady (σ : Substitution) : Steady problems
    { ident := fun i => do return { i with mark := ← i.mark.resolve σ }, mark := Mark.resolve σ }
    (fun _ => True) (fun _ => Resolved) (fun _ _ _ => True) where
  ident := by
    rintro i i' d d' ⟨c, c', h, rfl, rfl⟩ -
    obtain ⟨k, c1, hk, h⟩ := run_bind_eq_ok.mp h
    cases h
    exact ⟨Mark.resolve_problems hk, rfl⟩
  mark := by
    rintro k k' d d' ⟨c, c', h, rfl, rfl⟩ -
    exact ⟨Mark.resolve_problems h, trivial⟩

def resolveAll (σ : Substitution) (symbols : List Symbol) : AnalysisM (List Symbol) :=
  symbols.mapM fun s => do return { s with type := ← resolve σ s.type }

theorem resolveSymbols_eq (σ : Substitution) : resolveSymbols σ = (do
    let symbols ← resolveAll σ (← get).table.symbols.toList
    modify fun c => { c with table := { c.table with symbols := symbols.toArray } }) := by
  unfold resolveSymbols resolveAll
  simp only [Array.mapM_eq_mapM_toList, map_eq_pure_bind, bind_assoc, pure_bind]

theorem resolveAll_cons {x : Symbol} {xs ys : List Symbol} (h : (resolveAll σ (x :: xs)).run c = .ok (ys, c')) :
    ∃ t c1 ys', (resolve σ x.type).run c = .ok (t, c1) ∧ (resolveAll σ xs).run c1 = .ok (ys', c') ∧
    ys = { x with type := t } :: ys' := by
  unfold resolveAll at h
  rw [mapM_cons] at h
  obtain ⟨y, c1, hy, h⟩ := run_bind_eq_ok.mp h
  obtain ⟨ys', c2, hys, h⟩ := run_bind_eq_ok.mp h
  cases h
  obtain ⟨t, c3, ht, hy⟩ := run_bind_eq_ok.mp hy
  cases hy
  exact ⟨t, _, ys', ht, hys, rfl⟩

theorem resolveAll_problems : ∀ {xs ys : List Symbol} {c c' : Context}, (resolveAll σ xs).run c = .ok (ys, c') →
    c'.diagnostics = c.diagnostics
  | [], ys, c, c', h => by
    cases h
    rfl
  | x :: xs, ys, c, c', h => by
    obtain ⟨t, c1, ys', ht, hys, -⟩ := resolveAll_cons h
    exact (resolveAll_problems hys).trans (resolve_problems ht)

theorem resolveSymbols_problems {u : Unit} (h : (resolveSymbols σ).run c = .ok (u, c')) :
    c'.diagnostics = c.diagnostics := by
  rw [resolveSymbols_eq] at h
  obtain ⟨a, c1, hget, h⟩ := run_bind_eq_ok.mp h
  cases hget
  obtain ⟨symbols, c2, hsymbols, h⟩ := run_bind_eq_ok.mp h
  cases h
  have hsame : c2.diagnostics = c.diagnostics := resolveAll_problems hsymbols
  exact hsame

/-- **Dispatch.** If there is no problem, every identifier of the module is dispatched in its place, with the types and
symbols from before any of them was resolved. -/
theorem Module.dispatch_kept (h : (m.dispatch σ clock).run c = .ok ((m', clock'), c'))
    (hclean : c'.diagnostics.entries = []) : ∃ m1 : Module, Kept (Dispatched c σ) Eq m.exprs m1.exprs ∧
    Kept Resolved (fun _ _ => True) m1.exprs m'.exprs := by
  obtain ⟨⟨m1, clock1⟩, c1, hfirst, h⟩ := run_bind_eq_ok.mp h
  obtain ⟨u, c2, hsymbols, h⟩ := run_bind_eq_ok.mp h
  obtain ⟨m2, c3, hsecond, h⟩ := run_bind_eq_ok.mp h
  cases h
  obtain ⟨hsame, hkept2⟩ := Module.change_kept (resolve_steady σ) ⟨_, _, hsecond, rfl, rfl⟩ trivial
  rw [hsame, resolveSymbols_problems hsymbols] at hclean
  obtain ⟨rfl, hkept1⟩ := Module.change_kept (dispatch_steady σ) ⟨_, _, hfirst⟩ hclean
  exact ⟨m1, hkept1, hkept2⟩

theorem Module.dispatch_of_passes {symbols : List Symbol}
    (hfirst : ((m.change { ident := Ident.dispatch σ, mark := pure }).run clock).run c = .ok ((m1, clock'), c1))
    (hsymbols : (resolveAll σ c1.table.symbols.toList).run c1 = .ok (symbols, c2))
    (hsecond : (m1.change { ident := fun i => do return { i with mark := ← i.mark.resolve σ }
                            mark := Mark.resolve σ } : AnalysisM Module).run
      { c2 with table := { c2.table with symbols := symbols.toArray } } = .ok (m', c')) :
    (m.dispatch σ clock).run c = .ok ((m', clock'), c') := by
  refine run_bind_eq_ok.mpr ⟨(m1, clock'), c1, hfirst, ?_⟩
  refine run_bind_eq_ok.mpr ⟨(), _, ?_, run_bind_eq_ok.mpr ⟨m', c', hsecond, rfl⟩⟩
  rw [resolveSymbols_eq]
  exact run_bind_eq_ok.mpr ⟨c1, c1, rfl, run_bind_eq_ok.mpr ⟨symbols, c2, hsymbols, rfl⟩⟩

/-- The same in a session. The symbols are resolved in two parts, of which the first has `n` symbols. -/
theorem Session.dispatch_of_passes {s s' : Session} {c3 : Context} {early late : List Symbol} (n : Nat)
    (hc : s.ready? = some c) (hσ : s.solution = some σ) (hm : s.module = some m)
    (hfirst : ((m.change { ident := Ident.dispatch σ, mark := pure }).run s.clock).run { c with graph := s.graph } =
      .ok ((m1, clock'), c1)) (hearly : (resolveAll σ (c1.table.symbols.toList.take n)).run c1 = .ok (early, c2))
    (hlate : (resolveAll σ (c1.table.symbols.toList.drop n)).run c2 = .ok (late, c3))
    (hsecond : (m1.change { ident := fun i => do return { i with mark := ← i.mark.resolve σ }
                            mark := Mark.resolve σ } : AnalysisM Module).run
      { c3 with table := { c3.table with symbols := (early ++ late).toArray } } = .ok (m', c'))
    (hadopt : { s.adopt c' with module := some m', clock := clock' } = s') : s.dispatch = .ok s' := by
  have hsymbols : (resolveAll σ c1.table.symbols.toList).run c1 = .ok (early ++ late, c3) := by
    rw [← take_append_drop n c1.table.symbols.toList]
    exact run_mapM_append hearly hlate
  exact Session.dispatch_of_run hc hσ hm (Module.dispatch_of_passes hfirst hsymbols hsecond) hadopt

/-! ### Accepted modules -/

/-- A check that is passed extends the solution, unless it comes to a union without leaf cases and finds no solution. -/
theorem Ident.Checks.extends (h : i.Checks c σ id true) (hσ : σ.Grounded) :
    ∃ symbol, c.table.symbol id = .ok symbol ∧
      ((∃ σ', σ.Extends σ' ∧ σ'.Grounded ∧ σ'.Satisfies c.graph (.equality i.mark.type symbol.type i.place)) ∨
        ∃ clock, Solver.EndsAtLeafless c.graph [.equality i.mark.type symbol.type i.place] σ clock) := by
  obtain ⟨symbol, clock, report, hsymbol, hsolve, hok⟩ := h
  refine ⟨symbol, hsymbol, ?_⟩
  cases hout : report.outcome with
  | solved σ' =>
    obtain ⟨hground, hext, hsat⟩ := Solver.satisfies_of_solve hσ hsolve hout
    exact .inl ⟨σ', hext, hground, hsat σ' (.refl σ') hground _ (mem_singleton_self _)⟩
  | failed fs =>
    have hnone : report.outcome.solution? = none := by rw [hout]; rfl
    obtain ⟨e, hpath, he⟩ := (Solver.no_solution_iff (Solver.yields_of_solve hsolve) hok).mp hnone
    rcases hpath.noChoice_origin he with ⟨d, hd, location, hwithin⟩ | hleafless
    · obtain rfl := mem_singleton.mp hd
      cases hwithin
    · exact .inr ⟨clock, report, hsolve, (Solver.solution?_eq_none hok).mp hnone, hleafless⟩

theorem Ident.Recorded.oneOf {constraints : List Constraint} (h : i.Recorded c constraints)
    (hmany : 1 < i.candidates.length) : ∃ ts, Forall₂ c.TypeOf i.candidates ts ∧
      .oneOf (ts.map fun t => .equality i.mark.type t i.place) i.place ∈ constraints := by
  unfold Ident.Recorded at h
  split at h
  · next hnone => simp [hnone] at hmany
  · next hone => simp [hone] at hmany
  · exact h

/-- **The choice of overloads.** Of an identifier with several candidates, dispatch chooses the first that passes the
check under the solution. The solution can be extended to satisfy all constraints with the disjunction of the identifier
replaced by its equality with the choice, unless the check of the choice itself comes to a union without leaf cases and
finds no solution. -/
theorem overload_extends_solution (s generated final : Session) (m typed last : Module) (c : Context) (σ : Substitution)
    (h : s.Accepts m generated final σ) (hc : generated.analysis = some c) (hm : generated.module = some typed)
    (hlast : final.module = some last) (k : Nat) (i : Ident) (hi : typed.exprs[k]? = some (.ident i))
    (hmany : 1 < i.candidates.length) :
    ∃ i' earlier later symbol ts before after, last.exprs[k]? = some (.ident i') ∧
      i.candidates = earlier ++ i'.symbol :: later ∧ i.Checks c σ i'.symbol true ∧
      (∀ id ∈ earlier, i.Checks c σ id false) ∧ c.table.symbol i'.symbol = .ok symbol ∧
      List.Forall₂ c.TypeOf i.candidates ts ∧
      c.constraints = before ++ .oneOf (ts.map fun t => .equality i.mark.type t i.place) i.place :: after ∧
      ((∃ σ', σ.Extends σ' ∧ σ'.Grounded ∧
          ∀ d ∈ before ++ .equality i.mark.type symbol.type i.place :: after, σ'.Satisfies c.graph d) ∨
        ∃ clock, Solver.EndsAtLeafless c.graph [.equality i.mark.type symbol.type i.place] σ clock) := by
  obtain ⟨t⟩ := h.trace
  obtain rfl : { t.context with diagnostics := {} } = c := Option.some.inj (t.generatedContext.symm.trans hc)
  obtain rfl : t.typedModule = typed := Option.some.inj (t.generatedModule.symm.trans hm)
  obtain rfl : t.lastModule = last := Option.some.inj (t.finalModule.symm.trans hlast)
  have hsolved := Solver.solved_of_solution? t.solved
  obtain ⟨hground, -, hsat⟩ := Solver.satisfies_of_solve Substitution.noVariableCycle_empty.grounded t.solves hsolved
  -- the place of the identifier before, between and after the two passes
  obtain ⟨m1, hkept1, hkept2⟩ := Module.dispatch_kept t.dispatches (Diagnostics.entries_of_toList t.lastClean)
  obtain ⟨e1, he1, hsame1⟩ := hkept1.get? hi
  obtain ⟨e2, he2, hsame2⟩ := hkept2.get? he1
  obtain ⟨i1, rfl, hdispatched⟩ := hsame1.of_ident
  obtain ⟨i2, rfl, hresolved⟩ := hsame2.of_ident
  obtain ⟨earlier, later, hcandidates, hcheck, hearlier⟩ := hdispatched.several hmany
  have hsymbol : i2.symbol = i1.symbol := by rw [hresolved]
  rw [← hsymbol] at hcandidates hcheck
  obtain ⟨symbol, hsym, hextends⟩ := hcheck.extends hground
  have hmem := List.mem_of_getElem? hi
  obtain ⟨ts, hts, hrecorded⟩ := ((Module.oblige_typed t.obliges).idents i hmem).oneOf hmany
  obtain ⟨before, after, hsplit⟩ := List.append_of_mem hrecorded
  refine ⟨i2, earlier, later, symbol, ts, before, after, he2, hcandidates, hcheck, hearlier, hsym, hts, hsplit, ?_⟩
  rcases hextends with ⟨σ', hext, hground', hequal⟩ | hleafless
  · refine .inl ⟨σ', hext, hground', fun d hd => ?_⟩
    rcases List.mem_append.mp hd with hd | hd
    · exact hsat σ' hext hground' d (hsplit ▸ List.mem_append_left _ hd)
    · rcases List.mem_cons.mp hd with rfl | hd
      · exact hequal
      · exact hsat σ' hext hground' d (hsplit ▸ List.mem_append_right _ (List.mem_cons_of_mem _ hd))
  · exact .inr hleafless

/-! ### A choice that the solver rejected -/

def unaryFunc (name : String) (domain codomain : Sign) : Node :=
  .expr (.func {
    mark := { token := {} }, name := name, body := .literal { token := {} } (.int 0),
    sign := some ⟨{}, some ⟨{}, "", [some ⟨{}, "", "x", domain⟩]⟩, codomain⟩ })

def unaryCall (name : String) (value : Expr) : Expr :=
  .call { token := {} } (.ident { mark := { token := {} }, name := name }) [some ⟨{ token := {} }, "", value⟩]

def namedSign (name : String) : Sign := .name { token := {}, name := name }

/-- Two functions `f` from `Int`, to `Int or Bool` and to `Int`; two functions `g` to `Int`, from `Int` and from
`String`; and the call `g(f(1))`. -/
def overloadedModule : Module where
  token := {}
  name := "overloaded"
  statements := [
    unaryFunc "f" (namedSign "Int") (.union {} [namedSign "Int", namedSign "Bool"]),
    unaryFunc "f" (namedSign "Int") (namedSign "Int"),
    unaryFunc "g" (namedSign "Int") (namedSign "Int"),
    unaryFunc "g" (namedSign "String") (namedSign "Int"),
    .expr (unaryCall "g" (unaryCall "f" (.literal { token := {} } (.int 1))))]

def overloadedSession : Session := { file := "", module := some overloadedModule, logging := false }

set_option maxRecDepth 20000 in
/-- The stages on the sample. The solver took the second `f`, dispatch binds the first, and with the first the
constraints are rejected. -/
theorem overloadedSession_stages : ∃ (generated final : Session) (typed last : Module) (c : Context) (σ : Substitution)
    (mark : Mark) (i i' : Ident) (args : List (Option Labelled)) (symbol : Symbol) (ts : List Ty)
    (before after : List Constraint) (report : Solver.Report),
    overloadedSession.Accepts overloadedModule generated final σ ∧ generated.analysis = some c ∧
    generated.module = some typed ∧ final.module = some last ∧ typed.exprs[11]? = some (.call mark (.ident i) args) ∧
      typed.exprs[12]? = some (.ident i) ∧ last.exprs[12]? = some (.ident i') ∧ i.candidates.length = 2 ∧
      c.table.symbol i'.symbol = .ok symbol ∧ Forall₂ c.TypeOf i.candidates ts ∧
      c.constraints = before ++ .oneOf (ts.map fun t => .equality i.mark.type t i.place) i.place :: after ∧
      Solver.solve c.graph (before ++ .equality i.mark.type symbol.type i.place :: after) .empty generated.solverClock =
      .ok report ∧ report.outcome.isOk = false ∧
      report.outcome.failures.map Solver.Failure.kind = [.typeMismatch, .typeMismatch] := by
  refine ⟨?_, ?_, ?_, ?_, ?c, ?_, ?_, ?_, ?_, ?_, ?_, [.node 65, .node 67], List.take 9 (Context.constraints ?c),
    List.drop 10 (Context.constraints ?c), ?_, ⟨rfl, ⟨?_, ?_, ?bind, ?generate, ?solve, ?dispatch⟩, ?clean, ?solution⟩,
    ?analysis, ?typed, ?last, ?call, ?ident, ?bound, ?length, ?symbol, ?types, ?constraints, ?resolve,
    ?rejected, ?kinds⟩
  case bind | generate | solve => cbv; exact rfl
  case dispatch =>
    apply Session.dispatch_of_passes 20
    case hc | hσ | hm | hfirst | hearly | hlate | hsecond => cbv
    case hadopt => cbv; exact rfl
  case clean => cbv
  case solution | analysis | typed => cbv; exact rfl
  case last => exact rfl
  case call => cbv; exact rfl
  case ident => cbv
  case bound => cbv; exact rfl
  case length => cbv
  case symbol => cbv; exact rfl
  case types =>
    refine Forall₂.cons ?_ (Forall₂.cons ?_ .nil)
    · exact Or.inr ⟨_, rfl, rfl⟩
    · exact Or.inr ⟨_, rfl, rfl⟩
  case constraints => cbv
  case resolve => cbv; exact rfl
  case rejected | kinds => cbv

/-- With a choice of dispatch in place of the disjunction, the constraints need not have a solution, and not for lack of
time. -/
theorem overload_not_resolvable :
    ¬ ∀ (s generated final : Session) (m typed last : Module) (c : Context) (σ : Substitution),
    s.Accepts m generated final σ → generated.analysis = some c → generated.module = some typed →
    final.module = some last →
    ∀ (k : Nat) (i i' : Ident) (symbol : Symbol) (ts : List Ty) (before after : List Constraint),
      typed.exprs[k]? = some (.ident i) → last.exprs[k]? = some (.ident i') → 1 < i.candidates.length →
      c.table.symbol i'.symbol = .ok symbol → List.Forall₂ c.TypeOf i.candidates ts →
      c.constraints = before ++ .oneOf (ts.map fun t => .equality i.mark.type t i.place) i.place :: after →
      ∃ report, Solver.solve c.graph (before ++ .equality i.mark.type symbol.type i.place :: after) .empty
          generated.solverClock = .ok report ∧ (report.outcome.isOk = true ∨ ∃ f ∈ report.outcome.failures, f.kind = .timeout) := by
  intro hclaim
  obtain ⟨generated, final, typed, last, c, σ, mark, i, i', args, symbol, ts, before, after, report, haccepts, hc,
    htyped, hlast, -, hi, hi', htwo, hsymbol, hts, hconstraints, hsolve, hrejected, hkinds⟩ := overloadedSession_stages
  obtain ⟨report', hsolve', hclaimed⟩ :=
    hclaim _ generated final _ typed last c σ haccepts hc htyped hlast 12 i i' symbol ts before after hi hi'
    (by omega) hsymbol hts hconstraints
  obtain rfl : report = report' := Except.ok.inj (hsolve.symm.trans hsolve')
  rcases hclaimed with hok | ⟨f, hf, htimeout⟩
  · rw [hrejected] at hok
    cases hok
  · have hkind : f.kind ∈ report.outcome.failures.map Solver.Failure.kind := List.mem_map_of_mem hf
    rw [hkinds, htimeout] at hkind
    simp at hkind

/-- On the sample, the solution still extends to one with the choice of dispatch in place of the disjunction. -/
theorem overloadedModule_choice_extends :
    ∃ (generated final : Session) (typed last : Module) (c : Context) (σ : Substitution)
    (i i' : Ident) (earlier later : List SymbolId) (symbol : Symbol) (ts : List Ty) (before after : List Constraint),
    overloadedSession.Accepts overloadedModule generated final σ ∧ generated.analysis = some c ∧
      typed.exprs[12]? = some (.ident i) ∧ i.candidates.length = 2 ∧ last.exprs[12]? = some (.ident i') ∧
      i.candidates = earlier ++ i'.symbol :: later ∧ i.Checks c σ i'.symbol true ∧
      (∀ id ∈ earlier, i.Checks c σ id false) ∧ c.table.symbol i'.symbol = .ok symbol ∧
      List.Forall₂ c.TypeOf i.candidates ts ∧
      c.constraints = before ++ .oneOf (ts.map fun t => .equality i.mark.type t i.place) i.place :: after ∧
      ((∃ σ', σ.Extends σ' ∧ σ'.Grounded ∧
          ∀ d ∈ before ++ .equality i.mark.type symbol.type i.place :: after, σ'.Satisfies c.graph d) ∨
        ∃ clock, Solver.EndsAtLeafless c.graph [.equality i.mark.type symbol.type i.place] σ clock) := by
  obtain ⟨generated, final, typed, last, c, σ, -, i, -, -, -, -, -, -, -, haccepts, hc, htyped, hlast, -, hi,
      -, htwo, -⟩ :=
    overloadedSession_stages
  obtain ⟨i', earlier, later, symbol, ts, before, after, hchoice⟩ :=
    overload_extends_solution _ generated final _ typed last c σ haccepts hc htyped hlast 12 i hi (by omega)
  exact ⟨generated, final, typed, last, c, σ, i, i', earlier, later, symbol, ts, before, after, haccepts, hc, hi,
    htwo, hchoice⟩

end TypeInference
