import TypeInference.Proofs.Declarations
import TypeInference.Proofs.Overloads
import TypeInference.Proofs.Precedence

/-! # Calls and their callees

The solver binds the variable of an identifier that is called to the function type of the call before it looks at what
the identifier stands for (`Trace.callee_resolves`). So it is this function type that is equated with the type of the
symbol: the arguments conform to its domain, and the call is typed no wider than its codomain. It may be typed
narrower. -/

namespace TypeInference

open List

variable {fs : List TupleField} {d f n : NodeId} {domain : Option NodeId} {l : String} {result codomain callee : Ty}

/-- The arguments conform to the elements of the domain with their labels, and the result equals the codomain, once they
are resolved. -/
structure Substitution.FitsCall (σ : Substitution) (g : TypeGraph) (args : List (Option Labelled)) (result : Ty)
    (domain : Option NodeId) (codomain : Ty) : Prop where
  result : σ.Related g .equality result codomain
  arguments : ∃ d, domain = some d ∧ ∀ label fields, g.get? d = some (.tuple label fields) →
    List.Forall₂ (fun a f => ∃ x, a = some x ∧ x.label = f.label ∧
    σ.Related g .conformance x.mark.type f.type) args fields

/-! ### Equal function types -/

section

variable {σ : Substitution} {g : TypeGraph}

open Substitution

theorem not_isUnion_node {i : NodeId} {x : Composite} (hi : g.get? i = some x) (hx : ∀ cases, x ≠ .union cases) :
    ¬ σ.IsUnion g (.node i) :=
  not_isUnion_of_lookup (lookup_node i) hi hx

theorem fields_of_related {d' : NodeId} {l' : String} {fs' : List TupleField} (hd : g.get? d = some (.tuple l fs))
    (hd' : g.get? d' = some (.tuple l' fs')) (h : σ.Related g .equality (.node d) (.node d')) :
    Forall₂ (fun f f' => f.label = f'.label ∧ σ.Related g .equality f.type f'.type) fs fs' := by
  have hcongruent := h.congruent (not_isUnion_node hd (by simp)) (not_isUnion_node hd' (by simp))
  rw [lookup_node, lookup_node] at hcongruent
  cases hcongruent with
  | same =>
    cases hd.symm.trans hd'
    exact forall₂_same.mpr fun f _ => ⟨rfl, .bisimilar (.refl _ _ _)⟩
  | metatype hi => cases hd.symm.trans hi
  | function hi => cases hd.symm.trans hi
  | tuple hi hj shape fields =>
    cases hd.symm.trans hi
    cases hd'.symm.trans hj
    have hlabels : Forall₂ Eq (fs.map TupleField.label) (fs'.map TupleField.label) := by
      rw [(sameShape_iff.mp shape).2]
      exact forall₂_same.mpr fun _ _ => rfl
    exact Forall₂.mp (fun _ _ hlabel htype => ⟨hlabel, htype⟩)
      (forall₂_map_right_iff.mp (forall₂_map_left_iff.mp hlabels)) fields

/-- A function type that equals another one: the domains and the codomains are equal. -/
theorem parts_of_related (hd : g.get? d = some (.tuple l fs)) (hf : g.get? f = some (.function (some d) result))
    (hn : σ.lookup callee = .node n) (hcallee : g.get? n = some (.function domain codomain))
    (h : σ.Related g .equality (.node f) callee) : σ.Related g .equality result codomain ∧ ∃ d', domain = some d' ∧
    σ.Related g .equality (.node d) (.node d') := by
  have hcongruent := h.congruent (not_isUnion_node hf (by simp)) (not_isUnion_of_lookup hn hcallee (by simp))
  rw [lookup_node, hn] at hcongruent
  have hparts : σ.Related g .equality (.node d) (Solver.domainType domain) ∧ σ.Related g .equality result codomain := by
    cases hcongruent with
    | same =>
      cases hf.symm.trans hcallee
      exact ⟨.bisimilar (.refl _ _ _), .bisimilar (.refl _ _ _)⟩
    | metatype hi => cases hf.symm.trans hi
    | tuple hi => cases hf.symm.trans hi
    | function hi hj hdomain hcodomain =>
      cases hf.symm.trans hi
      cases hcallee.symm.trans hj
      exact ⟨hdomain, hcodomain⟩
  refine ⟨hparts.2, ?_⟩
  cases domain with
  | some d' => exact ⟨d', rfl, hparts.1⟩
  | none =>
    -- a tuple type does not equal a domain that is not there
    have habsent : ¬ σ.IsUnion g .absent := fun ⟨cases, hcases⟩ => by
      rw [lookup_of_ne_var (by simp)] at hcases
      cases hcases
    have hnone := hparts.1.congruent (not_isUnion_node hd (by simp)) habsent
    rw [lookup_node, lookup_of_ne_var (by simp)] at hnone
    cases hnone

theorem fitsCall_of_related {slots : List TupleField} {args : List (Option Labelled)} (hσ : σ.Grounded)
    (hd : g.get? d = some (.tuple "" slots)) (hf : g.get? f = some (.function (some d) result))
    (hn : σ.lookup callee = .node n) (hcallee : g.get? n = some (.function domain codomain))
    (h : σ.Related g .equality (.node f) callee)
    (hargs : Forall₂ (fun a f => ∃ x, a = some x ∧ x.label = f.label ∧ σ.Related g .conformance x.mark.type f.type) args
    slots) : σ.FitsCall g args result domain codomain := by
  obtain ⟨hresult, d', rfl, hdomain⟩ := parts_of_related hd hf hn hcallee h
  refine ⟨hresult, d', rfl, fun label fields hfields => ?_⟩
  refine forall₂_comp ?_ hargs (fields_of_related hd hfields hdomain)
  rintro a slot field ⟨x, rfl, hlabel, hconforms⟩ ⟨hlabel', hequal⟩
  exact ⟨x, rfl, hlabel.trans hlabel', hconforms.trans hσ hequal.conformance⟩

end

/-! ### Accepted modules -/

variable {s generated final : Session} {m : Module} {σ : Substitution} {mark : Mark} {i : Ident}
  {args : List (Option Labelled)}

/-- In the solution of a module, an identifier that is called has the function type of the call, to whose domain the
arguments have to conform. -/
theorem Session.Trace.callee_resolves (t : Session.Trace s m generated final σ) (hfresh : s.graph.VariableFree)
    (hcall : .call mark (.ident i) args ∈ t.typedModule.exprs) (hbound : i.candidates ≠ []) :
    ∃ slots d f, t.context.graph.get? d = some (.tuple "" slots) ∧
      t.context.graph.get? f = some (.function (some d) mark.type) ∧
      Forall₂ (ArgRecorded t.context.constraints) args slots ∧ i.Recorded t.context t.context.constraints ∧
      σ.lookup i.mark.type = .node f := by
  have hinUse : TypeRule.inUse.Holds { t.declared with diagnostics := {} } := by
    have h := inUse_of_bind hfresh t.start t.declares
    exact ⟨h.base, h.parts, h.symbols, h.constraints⟩
  obtain ⟨type, slots, f, before, after, hrecorded, hcallee⟩ :=
    (Module.oblige_typed t.obliges).recorded hinUse (by simp) _ hcall
  obtain ⟨v, rfl, hapart⟩ := hcallee i rfl hbound
  obtain ⟨d, hd, hf⟩ := hrecorded.composites
  have htype : i.mark.type = .var v := Except.ok.inj hrecorded.calleeType
  have hbefore : before ⊆ t.context.constraints := by
    rw [hrecorded.constraints]
    exact subset_append_left _ _
  refine ⟨slots, d, f, hd, hf, hrecorded.arguments, hapart.recorded.mono rfl hbefore, ?_⟩
  -- the variable of the identifier is out of reach until its equality with the function type is taken up
  have hsolves := t.solves
  rw [hrecorded.constraints] at hsolves
  have hg : t.context.graph.Avoids v := fun j x hj hv => hapart.apart.parts hj _ hv rfl
  rw [htype]
  refine Solver.lookup_of_solve hg hsolves (Solver.solved_of_solution? t.solved) fun e he hmention => ?_
  refine hapart.apart.constraints (d := e) ?_ hmention rfl
  rw [hrecorded.constraints]
  simpa [TypeRule.avoiding] using he

/-- Once the type of the identifier equals that of a symbol, the call fits the symbol. -/
theorem Session.Trace.fitsCall (t : Session.Trace s m generated final σ) (hfresh : s.graph.VariableFree)
    (hcall : .call mark (.ident i) args ∈ t.typedModule.exprs) (hbound : i.candidates ≠ []) {σ' : Substitution}
    (hext : σ.Extends σ') (hσ' : σ'.Grounded) (hcallee : σ'.Related t.context.graph .equality i.mark.type callee) :
    callee ≠ .error ∧ ∀ n domain codomain, σ'.lookup callee = .node n →
      t.context.graph.get? n = some (.function domain codomain) →
      σ'.FitsCall t.context.graph args mark.type domain codomain := by
  obtain ⟨slots, d, f, hd, hf, hargs, -, hlookup⟩ := t.callee_resolves hfresh hcall hbound
  obtain ⟨hσ, -, hsat⟩ := Solver.satisfies_of_solve Substitution.noVariableCycle_empty.grounded t.solves
    (Solver.solved_of_solution? t.solved)
  have hlookup' : σ'.lookup i.mark.type = .node f := by
    rw [hext.lookup_eq hσ hσ' (by simp [hlookup]), hlookup]
  have hequal : σ'.Related t.context.graph .equality (.node f) callee :=
    hcallee.congr hσ' (Substitution.bisimilar_of_lookup_eq (by simp [hlookup'])) (.refl _ _ _)
  refine ⟨?_, fun n domain codomain hn hfunction => fitsCall_of_related hσ' hd hf hn hfunction hequal ?_⟩
  · rintro rfl
    have herror : ¬ σ'.IsUnion t.context.graph .error := fun ⟨cases, hcases⟩ => by
      rw [Substitution.lookup_of_ne_var (by simp)] at hcases
      cases hcases
    have hcongruent := hequal.congruent (not_isUnion_node hf (by simp)) herror
    rw [Substitution.lookup_node, Substitution.lookup_of_ne_var (by simp)] at hcongruent
    cases hcongruent
  · refine hargs.imp fun a slot ha => ?_
    obtain ⟨x, location, rfl, hlabel, hmem⟩ := ha
    cases hsat σ' hext hσ' _ hmem with
    | relate hconforms => exact ⟨x, rfl, hlabel, hconforms⟩

/-- **Calls fit their callees.** A call whose callee is an identifier with a meaning is bound, by itself or by dispatch,
to a symbol. If this has a function type, every argument conforms to the element of the domain with its label, and the
type of the call equals the codomain in the sense of the solver: it is no wider. For a single meaning this holds of the
solution itself, for a choice among several of a table that extends it, unless the check of the choice comes to a union
without leaf cases and finds no solution. -/
theorem call_fits_callee (s generated final : Session) (m typed last : Module) (c : Context) (σ : Substitution)
    (h : s.Accepts m generated final σ) (hfresh : s.graph.VariableFree) (hc : generated.analysis = some c)
    (hm : generated.module = some typed) (hlast : final.module = some last) (k : Nat) (mark : Mark) (i : Ident)
    (args : List (Option Labelled)) (hcall : typed.exprs[k]? = some (.call mark (.ident i) args))
    (hbound : i.candidates ≠ []) : ∃ mark' i' args' symbol, last.exprs[k]? = some (.call mark' (.ident i') args') ∧
      i'.symbol ∈ i.candidates ∧ c.table.symbol i'.symbol = .ok symbol ∧
      ((∃ σ', σ.Extends σ' ∧ σ'.Grounded ∧ (i.candidates.length = 1 → σ' = σ) ∧
          ∀ n domain codomain, σ'.lookup symbol.type = .node n → c.graph.get? n = some (.function domain codomain) →
            σ'.FitsCall c.graph args mark.type domain codomain) ∨
        1 < i.candidates.length ∧
          ∃ clock, Solver.EndsAtLeafless c.graph [.equality i.mark.type symbol.type i.place] σ clock) := by
  obtain ⟨t⟩ := h.trace
  obtain rfl : { t.context with diagnostics := {} } = c := Option.some.inj (t.generatedContext.symm.trans hc)
  obtain rfl : t.typedModule = typed := Option.some.inj (t.generatedModule.symm.trans hm)
  obtain rfl : t.lastModule = last := Option.some.inj (t.finalModule.symm.trans hlast)
  obtain ⟨hσ, -, hsat⟩ := Solver.satisfies_of_solve Substitution.noVariableCycle_empty.grounded t.solves
    (Solver.solved_of_solution? t.solved)
  have hmem := List.mem_of_getElem? hcall
  -- the place of the call before, between and after the two passes of dispatch
  obtain ⟨m1, hkept1, hkept2⟩ := Module.dispatch_kept t.dispatches (Diagnostics.entries_of_toList t.lastClean)
  obtain ⟨e1, he1, hsame1⟩ := hkept1.get? hcall
  obtain ⟨e2, he2, hsame2⟩ := hkept2.get? he1
  obtain ⟨mark1, callee1, args1, rfl, hcallee1⟩ := hsame1.of_call
  obtain ⟨mark2, callee2, args2, rfl, hcallee2⟩ := hsame2.of_call
  obtain ⟨i1, rfl, hdispatched⟩ := hcallee1.of_ident
  obtain ⟨i2, rfl, hresolved⟩ := hcallee2.of_ident
  have hsymbol : i2.symbol = i1.symbol := by rw [hresolved]
  by_cases hmany : 1 < i.candidates.length
  · obtain ⟨earlier, later, hcandidates, hcheck, -⟩ := hdispatched.several hmany
    rw [← hsymbol] at hcandidates hcheck
    obtain ⟨symbol, hsym, hextends⟩ := hcheck.extends hσ
    refine ⟨mark2, i2, args2, symbol, he2, by simp [hcandidates], hsym, ?_⟩
    rcases hextends with ⟨σ', hext, hσ', hequal⟩ | hleafless
    · cases hequal with
      | relate hequal => exact .inl ⟨σ', hext, hσ', by omega, (t.fitsCall hfresh hmem hbound hext hσ' hequal).2⟩
    · exact .inr ⟨hmany, hleafless⟩
  · obtain ⟨id, hone⟩ : ∃ id, i.candidates = [id] := by
      rw [← List.length_eq_one_iff]
      have := List.length_pos_iff.mpr hbound
      omega
    obtain rfl := hdispatched.one (by omega)
    obtain ⟨-, -, -, -, -, -, hrecorded, -⟩ := t.callee_resolves hfresh hmem hbound
    unfold Ident.Recorded at hrecorded
    rw [hone] at hrecorded
    obtain ⟨rfl, type, htype, hequal⟩ := hrecorded
    cases hsat σ (.refl σ) hσ _ hequal with
    | relate hequal =>
      obtain ⟨hne, hfits⟩ := t.fitsCall hfresh hmem hbound (.refl σ) hσ hequal
      rcases htype with ⟨-, herror⟩ | ⟨symbol, hsym, rfl⟩
      · exact absurd herror hne
      · refine ⟨mark2, i2, args2, symbol, he2, by simp [hone, hsymbol], ?_, .inl ⟨σ, .refl σ, hσ, fun _ => rfl, hfits⟩⟩
        rw [hsymbol]
        exact hsym

/-! ### A call that is narrower than its callee -/

/-- A conditional on the call `f(1)`, and the function `f` from `Int` to `Int or Bool`. -/
def conditionModule : Module where
  token := {}
  name := "condition"
  statements := [
    .expr (.cond { token := {} } noScope noScope (unaryCall "f" (.literal { token := {} } (.int 1)))
    (.literal { token := {} } (.int 1))
      (.literal { token := {} } (.int 2))),
    unaryFunc "f" (namedSign "Int") (.union {} [namedSign "Int", namedSign "Bool"])]

def conditionSession : Session := { file := "", module := some conditionModule, logging := false }

set_option maxRecDepth 20000 in
/-- The stages on the sample: the call has the type `Bool`, the codomain of its callee is `Int or Bool`. -/
theorem conditionSession_stages :
    ∃ (generated final : Session) (typed last : Module) (c c' : Context) (σ : Substitution)
    (mark mark' : Mark) (i i' : Ident) (args args' : List (Option Labelled)) (symbol symbol' : Symbol)
    (n d n' d' u : NodeId) (codomain : Ty),
    conditionSession.Accepts conditionModule generated final σ ∧ generated.analysis = some c ∧
    generated.module = some typed ∧
      final.analysis = some c' ∧ final.module = some last ∧ typed.exprs[1]? = some (.call mark (.ident i) args) ∧
      last.exprs[1]? = some (.call mark' (.ident i') args') ∧ i.candidates = [i'.symbol] ∧
      c.table.symbol i'.symbol = .ok symbol ∧ symbol.type = .node n ∧
      c.graph.get? n = some (.function (some d) codomain) ∧ c'.table.symbol i'.symbol = .ok symbol' ∧
      symbol'.type = .node n' ∧ c'.graph.get? n' = some (.function (some d') (.node u)) ∧
      c'.graph.get? u = some (.union [.int, .bool]) ∧ mark'.type = .bool := by
  refine ⟨?_, ?_, ?_, ?_, ?_, ?_, ?_, ?_, ?_, ?_, ?_, ?_, ?_, ?_, ?_, ?_, ?_, ?_, ?_, ?_, ?_,
    ⟨rfl, ⟨?_, ?_, ?bind, ?generate, ?solve, ?dispatch⟩, ?clean, ?solution⟩, ?analysis, ?typed, ?finalAnalysis, ?last,
    ?call, ?lastCall, ?candidates, ?symbol, ?type, ?function, ?lastSymbol, ?lastType, ?lastFunction, ?union, ?narrow⟩
  case bind | generate | solve => cbv; exact rfl
  case dispatch =>
    apply Session.dispatch_of_passes 20
    case hc | hσ | hm | hfirst | hearly | hlate | hsecond => cbv
    case hadopt => cbv; exact rfl
  case clean => cbv
  case solution | analysis | typed | finalAnalysis => cbv; exact rfl
  case last => exact rfl
  case call | lastCall => cbv; exact rfl
  case candidates => cbv
  case symbol => cbv; exact rfl
  case type => exact rfl
  case function | lastSymbol => cbv; exact rfl
  case lastType => exact rfl
  case lastFunction => cbv; exact rfl
  case union | narrow => cbv

theorem variableFree_empty : TypeGraph.VariableFree {} := by
  intro i x hi
  cases hi

/-- A leaf case of the codomain need not conform to the type of the call, once they are resolved. -/
theorem call_narrower_than_callee :
    ¬ ∀ (s generated final : Session) (m last : Module) (c : Context) (σ : Substitution),
    s.Accepts m generated final σ → s.graph.VariableFree → final.analysis = some c → final.module = some last →
    ∀ (k : Nat) (mark : Mark) (i : Ident) (args : List (Option Labelled)) (symbol : Symbol) (n : NodeId)
      (domain : Option NodeId) (codomain leaf : Ty),
      last.exprs[k]? = some (.call mark (.ident i) args) → c.table.symbol i.symbol = .ok symbol →
      symbol.type = .node n → c.graph.get? n = some (.function domain codomain) →
      Substitution.empty.Leaf c.graph codomain leaf →
      Substitution.empty.Related c.graph .conformance leaf mark.type := by
  intro hclaim
  obtain ⟨generated, final, -, last, -, c, σ, -, mark, -, i, -, args, -, symbol, -, -, n, d, u, -, haccepts, -, -, hc,
    hlast, -, hcall, -, -, -, -, hsymbol, htype, hfunction, hunion, hbool⟩ := conditionSession_stages
  have hscalar : ∀ x : Scalar, ¬ Substitution.empty.IsUnion c.graph (.scalar x) := fun x ⟨cases, hcases⟩ => by
    rw [Substitution.lookup_of_ne_var (by simp)] at hcases
    cases hcases
  have hleaf : Substitution.empty.Leaf c.graph (.node u) .int := by
    have hcases : c.graph.unionCases? (Substitution.empty.lookup (.node u)) = some [.int, .bool] :=
      unionCases?_eq_some.mpr ⟨u, Substitution.lookup_node u, hunion⟩
    exact .case hcases List.mem_cons_self (.self (hscalar .int))
  have hconforms := hclaim _ generated final _ last c σ haccepts variableFree_empty hc hlast 1 mark i args symbol n
    (some d) (.node u) .int hcall hsymbol htype hfunction hleaf
  rw [hbool] at hconforms
  have hcongruent := hconforms.congruent (hscalar .int) (hscalar .bool)
  rw [Substitution.lookup_of_ne_var (by simp), Substitution.lookup_of_ne_var (by simp)] at hcongruent
  cases hcongruent

/-- On the sample, the argument conforms to the domain of the callee, and the call is no wider than its codomain. -/
theorem conditionModule_call_fits :
    ∃ (generated final : Session) (typed : Module) (c : Context) (σ : Substitution) (mark : Mark)
      (i : Ident) (args : List (Option Labelled)) (symbol : Symbol) (id : SymbolId) (n d : NodeId) (codomain : Ty),
      conditionSession.Accepts conditionModule generated final σ ∧ generated.analysis = some c ∧
      generated.module = some typed ∧
      typed.exprs[1]? = some (.call mark (.ident i) args) ∧ i.candidates = [id] ∧ c.table.symbol id = .ok symbol ∧
      symbol.type = .node n ∧ c.graph.get? n = some (.function (some d) codomain) ∧
      σ.FitsCall c.graph args mark.type (some d) codomain := by
  obtain ⟨generated, final, typed, last, c, -, σ, mark, -, i, i', args, -, symbol, -, n, d, -, -, -, codomain, haccepts,
    hc, htyped, -, hlast, hcall, -, hone, hsymbol, htype, hfunction, -⟩ := conditionSession_stages
  have hid : ∀ id ∈ i.candidates, id = i'.symbol := by simp [hone]
  obtain ⟨mark2, i2, args2, symbol2, -, hmem, hsymbol2, hfits⟩ :=
    call_fits_callee _ generated final _ typed last c σ haccepts variableFree_empty hc htyped hlast 1 mark i args hcall
    (by simp [hone])
  rw [hid _ hmem] at hsymbol2
  obtain rfl : symbol = symbol2 := Except.ok.inj (hsymbol.symm.trans hsymbol2)
  refine ⟨generated, final, typed, c, σ, mark, i, args, symbol, i'.symbol, n, d, codomain, haccepts, hc, htyped, hcall,
    hone, hsymbol, htype, hfunction, ?_⟩
  rcases hfits with ⟨σ', -, -, hσ', hfits⟩ | ⟨hmany, -⟩
  · obtain rfl := hσ' (by simp [hone])
    exact hfits n (some d) codomain (by rw [htype]; exact Substitution.lookup_node n) hfunction
  · simp [hone] at hmany

end TypeInference
