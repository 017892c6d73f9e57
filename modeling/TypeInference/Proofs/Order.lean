import Mathlib.Logic.Equiv.Nat
import TypeInference.Proofs.Calls
import TypeInference.Proofs.Modules
import TypeInference.Proofs.Renaming

/-! # The order of statements

The statements of a module may come in any order, as far as names, types and constraints go: these are the same up to a
renaming. Solving is another matter: which variables are bound first depends on the order, and with it whether a
solution is found. -/

namespace TypeInference

open List

variable {ns : List Node} {m : Module} {n n' : Node} {rs : Replacements} {s p : Session}

/-! ### From pairs to a renaming -/

section

variable {ρ : Pairing} {c c' : Context}

theorem Joined.next_eq (h : Joined ρ c c') (k : Numbered) : c.next k = c'.next k :=
  Nat.le_antisymm (h.linked.next_le h.left) (h.linked.le_next h.right)

/-- The pairs of a kind are a permutation of the numbers in use, and so of all numbers. -/
theorem Joined.exists_perm (h : Joined ρ c c') (k : Numbered) :
    ∃ π : Equiv.Perm Nat, (∀ {a b}, (k, a, b) ∈ ρ → π a = b) ∧ ∀ {a}, c.next k ≤ a → π a = a := by
  classical
  choose f hf using fun (a : Nat) (ha : a < c.next k) => h.left (k := k) ha
  choose g hg using fun (b : Nat) (hb : b < c.next k) => h.right (k := k) (h.next_eq k ▸ hb)
  have hfg (a : Nat) (ha : a < c.next k) (hb : f a ha < c.next k) : g (f a ha) hb = a :=
    (h.linked.bijective (hg _ hb) (hf a ha)).mpr rfl
  have hgf (b : Nat) (hb : b < c.next k) (ha : g b hb < c.next k) : f (g b hb) ha = b :=
    (h.linked.bijective (hf _ ha) (hg b hb)).mp rfl
  have hflt (a : Nat) (ha : a < c.next k) : f a ha < c.next k := h.next_eq k ▸ (h.linked.bound (hf a ha)).2
  have hglt (b : Nat) (hb : b < c.next k) : g b hb < c.next k := (h.linked.bound (hg b hb)).1
  refine ⟨⟨fun a => if ha : a < c.next k then f a ha else a, fun b => if hb : b < c.next k then g b hb else b,
    fun a => ?_, fun b => ?_⟩, fun {a b} hab => ?_, fun {a} ha => ?_⟩
  · by_cases ha : a < c.next k
    · simp [ha, hflt, hfg]
    · simp [ha]
  · by_cases hb : b < c.next k
    · simp [hb, hglt, hgf]
    · simp [hb]
  · have ha := (h.linked.bound hab).1
    simp only [Equiv.coe_fn_mk, dif_pos ha]
    exact (h.linked.bijective (hf a ha) hab).mp rfl
  · simp [Nat.not_lt.mpr ha]

/-- The renaming has the pairs among its own. -/
structure Renaming.Follows (σ : Renaming) (ρ : Pairing) : Prop where
  var : ∀ {a b : Nat}, (.var, a, b) ∈ ρ → σ.var a = b
  node : ∀ {a b : Nat}, (.node, a, b) ∈ ρ → σ.node a = b

variable {σ : Renaming}

theorem Ty.Paired.rename (hσ : σ.Follows ρ) {t t' : Ty} (h : t.Paired ρ t') : t' = t.rename σ := by
  cases h with
  | scalar | error => rfl
  | var h => exact congrArg Ty.var (hσ.var h).symm
  | node h => exact congrArg Ty.node (hσ.node h).symm

theorem forall₂_rename (hσ : σ.Follows ρ) {ts ts' : List Ty} (h : Forall₂ (Ty.Paired ρ) ts ts') :
    ts' = ts.map (Ty.rename σ) := by
  induction h with
  | nil => rfl
  | cons h _ ih => rw [map_cons, ← ih, ← h.rename hσ]

theorem Composite.Paired.rename (hσ : σ.Follows ρ) {x x' : Composite} (h : x.Paired ρ x') : x' = x.rename σ := by
  cases h with
  | metatype h => exact congrArg Composite.metatype (h.rename hσ)
  | function hd ht => rw [Composite.rename, ← ht.rename hσ, Option.map_some, hσ.node hd]
  | @tuple label fs fs' h =>
    refine congrArg (Composite.tuple label) ?_
    induction h with
    | nil => rfl
    | cons h _ ih => rw [map_cons, ← ih, TupleField.rename, ← h.type.rename hσ, h.label]
  | union h => exact congrArg Composite.union (forall₂_rename hσ h)

theorem Constraint.Paired.rename (hσ : σ.Follows ρ) {d d' : Constraint} (h : d.Paired ρ d') : d.Renamed σ d' := by
  cases h with
  | relate ht hu =>
    rw [ht.rename hσ, hu.rename hσ]
    exact .relate
  | member ho ht =>
    rw [ho.rename hσ, ht.rename hσ]
    exact .member
  | choice ht hperm hus =>
    rw [ht.rename hσ, forall₂_rename hσ hus]
    exact .choice (hperm.map _)

theorem Joined.exists_renaming (h : Joined ρ c c') : ∃ σ : Renaming, σ.Follows ρ ∧ c.graph.Renamed σ c'.graph := by
  obtain ⟨π, hπ, -⟩ := h.exists_perm .var
  obtain ⟨τ, hτ, houtside⟩ := h.exists_perm .node
  let σ : Renaming :=
    ⟨(Equiv.intEquivNatSumNat.trans (Equiv.sumCongr π (Equiv.refl Nat))).trans Equiv.intEquivNatSumNat.symm, τ⟩
  have hσ : σ.Follows ρ := ⟨fun {a b} hab => congrArg Int.ofNat (hπ hab), fun hab => hτ hab⟩
  refine ⟨σ, hσ, fun i => ?_⟩
  rcases Nat.lt_or_ge i c.graph.size with hlt | hge
  · obtain ⟨j, hij⟩ := h.left (k := .node) hlt
    obtain ⟨x, y, hx, hy, hxy⟩ := h.linked.graph hij
    rw [hσ.node hij, hx, hy, hxy.rename hσ]
    rfl
  · have hsize : c.graph.size = c'.graph.size := h.next_eq .node
    have hnone {g : TypeGraph} {n : Nat} (hn : g.size ≤ n) : g.get? n = none := Array.getElem?_eq_none hn
    have hi : σ.node i = i := houtside hge
    rw [hi, hnone hge, hnone (hsize ▸ hge)]
    rfl

end

/-! ### Stages before solving -/

/-- The stages before solving run on the module of a session and find no problem. -/
structure Session.Prepares (s : Session) (rs : Replacements) (p : Session) : Prop where
  stages : ∃ normal bound, s.normalize rs = .ok normal ∧ normal.bind = .ok bound ∧ bound.generate = .ok p
  clean : p.diagnostics = []

/-- The session with the statements of its module in another order, or with other statements. -/
def Session.withStatements (s : Session) (m : Module) (ns : List Node) :
    Session := { s with module := some { m with statements := ns } }

/-- What the stages before solving compute. -/
structure Session.Preparation (s : Session) (rs : Replacements) (m : Module) (p : Session) where
  normal : Module
  initial : Context
  bound : Module
  enclosure : Enclosure
  declared : Context
  typed : Module
  context : Context
  desugars : m.desugar rs = .ok normal
  start : s.newContext = .ok initial
  binds : normal.bind.run { initial with logs := s.logging } = .ok ((bound, enclosure), declared)
  declaredClean : declared.diagnostics.entries = []
  obliges : bound.oblige.run { declared with diagnostics := {} } = .ok (typed, context)
  contextClean : context.diagnostics.entries = []
  startClean : s.diagnostics = []
  graph : p.graph = context.graph
  module : p.module = some typed
  analysis : p.analysis = some { context with diagnostics := {} }

section

variable {s p : Session} {rs : Replacements} {m : Module}

theorem Session.Prepares.preparation (h : s.Prepares rs p) (hm : s.module = some m) :
    Nonempty (s.Preparation rs m p) := by
  obtain ⟨normal, bound, hnormalize, hbind, hgenerate⟩ := h.stages
  unfold Session.normalize at hnormalize
  rw [hm] at hnormalize
  obtain ⟨m0, hdesugar, hnormalize⟩ := TypeInference.bind_eq_ok.mp hnormalize
  cases hnormalize
  obtain ⟨c0, c1, b, env, hstart, hbinds, hadopts⟩ := Session.bind_eq_ok (m := m0) rfl hbind
  have hclean := Session.clean_before Session.generate_of_not_ready hgenerate h.clean
  obtain ⟨hclean0, hclean1⟩ := hadopts.clean hclean
  obtain ⟨t, c2, hobliges, hadopts'⟩ :=
    Session.generate_eq_ok (Session.ready?_eq_some.mpr ⟨hclean, hadopts.analysis⟩) hadopts.module hgenerate
  rw [hadopts.graph] at hobliges
  exact ⟨{
    normal := m0, initial := c0, bound := b, enclosure := env, declared := c1, typed := t, context := c2
    desugars := hdesugar, start := hstart, binds := hbinds, declaredClean := hclean1, obliges := hobliges
    contextClean := (hadopts'.clean h.clean).2, startClean := hclean0
    graph := hadopts'.graph, module := hadopts'.module, analysis := hadopts'.analysis }⟩

theorem Diagnostics.toList_of_entries {ds : Diagnostics} (h : ds.entries = []) : ds.toList = [] := by
  simp [Diagnostics.toList, h]

theorem Session.prepares_of_runs {normal bound typed : Module} {initial declared context : Context}
    {enclosure : Enclosure} (hm : s.module = some m) (hclean : s.diagnostics = [])
    (hdesugar : m.desugar rs = .ok normal) (hstart : s.newContext = .ok initial)
    (hbinds : normal.bind.run { initial with logs := s.logging } = .ok ((bound, enclosure), declared))
    (hdeclared : declared.diagnostics.entries = [])
    (hobliges : bound.oblige.run { declared with diagnostics := {} } = .ok (typed, context))
    (hcontext : context.diagnostics.entries = []) :
    ∃ p, s.Prepares rs p ∧ p.module = some typed ∧ p.analysis = some { context with diagnostics := {} } ∧
    p.graph = context.graph := by
  have hnormalize : s.normalize rs = .ok { s with module := some normal } := by
    unfold Session.normalize
    rw [hm]
    exact TypeInference.bind_eq_ok.mpr ⟨normal, hdesugar, rfl⟩
  obtain ⟨b, hbind, hadopts⟩ := Session.bind_of_run (s := { s with module := some normal }) rfl hstart hbinds
  have hcleanBound : b.diagnostics = [] := by
    rw [hadopts.diagnostics, Diagnostics.toList_of_entries hdeclared]
    simpa using hclean
  rw [← hadopts.graph] at hobliges
  obtain ⟨p, hgenerate, hadopts'⟩ :=
    Session.generate_of_run (Session.ready?_eq_some.mpr ⟨hcleanBound, hadopts.analysis⟩) hadopts.module hobliges
  refine ⟨p, ⟨⟨_, b, hnormalize, hbind, hgenerate⟩, ?_⟩, hadopts'.module, hadopts'.analysis, hadopts'.graph⟩
  rw [hadopts'.diagnostics, Diagnostics.toList_of_entries hcontext]
  simpa using hcleanBound

end

/-! ### Desugaring -/

theorem mapM_eq_ok_iff {α β : Type} {f : α → Except Fault β} {xs : List α} {ys : List β} :
    xs.mapM f = .ok ys ↔ Forall₂ (fun x y => f x = .ok y) xs ys := by
  induction xs generalizing ys with
  | nil =>
    rw [mapM_nil, pure_eq_ok, forall₂_nil_left_iff, eq_comm]
  | cons x xs ih =>
    rw [mapM_cons, bind_eq_ok, forall₂_cons_left_iff]
    constructor
    · rintro ⟨y, hy, h⟩
      obtain ⟨zs, hzs, h⟩ := bind_eq_ok.mp h
      cases h
      exact ⟨y, zs, hy, ih.mp hzs, rfl⟩
    · rintro ⟨y, zs, hy, hzs, rfl⟩
      exact ⟨y, hy, bind_eq_ok.mpr ⟨zs, ih.mpr hzs, rfl⟩⟩

theorem Node.desugar_isStatement (h : n.desugar rs = .ok n') : n'.IsStatement := by
  cases n with
  | «alias» a =>
    cases h
    exact .typeAlias a
  | expr e =>
    have hexpr {x : Except Fault Expr} (hx : (do return Node.expr (← x)) = .ok n') : n'.IsStatement := by
      obtain ⟨e', -, h⟩ := bind_eq_ok.mp hx
      cases h
      exact .expr e'
    cases e with
    | missing => cases h
    | _ => exact hexpr h
  | sign s => cases s <;> cases h
  | _ => cases h

theorem Module.desugar_perm {m0 : Module} (hperm : m.statements.Perm ns) (h : m.desugar rs = .ok m0) :
    ∃ ns0, Module.desugar rs { m with statements := ns } = .ok { m0 with statements := ns0 } ∧
      m0.statements.Perm ns0 ∧ ∀ n ∈ m0.statements, n.IsStatement := by
  obtain ⟨statements, hstatements, h⟩ := bind_eq_ok.mp h
  cases h
  have hall := mapM_eq_ok_iff.mp hstatements
  obtain ⟨ns0, hns0, hperm'⟩ := perm_comp_forall₂ hperm.symm hall
  refine ⟨ns0, bind_eq_ok.mpr ⟨ns0, mapM_eq_ok_iff.mpr hns0, rfl⟩, hperm'.symm, fun n hn => ?_⟩
  obtain ⟨n0, -, hdesugar⟩ := exists_of_forall₂ hall hn
  exact Node.desugar_isStatement hdesugar

/-! ### The same in any order -/

/-- The symbols have one name, and their types differ by the renaming only. -/
def SameSymbol (σ : Renaming) (c c' : Context) (x y : SymbolId) : Prop :=
  ∃ s s', c.table.symbol x = .ok s ∧ c'.table.symbol y = .ok s' ∧ s.name = s'.name ∧ s'.type = s.type.rename σ

/-- The statements declare the same, up to the renaming. -/
inductive Node.SameDeclaration (σ : Renaming) (c c' : Context) : Node → Node → Prop where
  | typeAlias {a a' : TypeAlias} (name : a.name = a'.name) (symbol : SameSymbol σ c c' a.symbol a'.symbol) :
      SameDeclaration σ c c' (.alias a) (.alias a')
  | func {f f' : Func} (name : f.name = f'.name) (type : f'.mark.type = f.mark.type.rename σ)
      (symbol : f.name ≠ "" → SameSymbol σ c c' f.symbol f'.symbol) :
      SameDeclaration σ c c' (.expr (.func f)) (.expr (.func f'))
  | expr {e e' : Expr} (hfunc : ∀ f, e ≠ .func f) (type : ∀ t, e.type = .ok t → e'.type = .ok (t.rename σ)) :
      SameDeclaration σ c c' (.expr e) (.expr e')

/-- Two sessions have come to the same types, constraints and declarations, up to the renaming. -/
structure Session.SameUpTo (σ : Renaming) (p p' : Session) (c c' : Context) (m m' : Module) : Prop where
  module : p.module = some m
  module' : p'.module = some m'
  analysis : p.analysis = some c
  analysis' : p'.analysis = some c'
  graph : p.graph = c.graph
  graph' : p'.graph = c'.graph
  types : c.graph.Renamed σ c'.graph
  constraints : Aligned (Constraint.Renamed σ) c.constraints c'.constraints
  statements : Aligned (Node.SameDeclaration σ c c') m.statements m'.statements

section

variable {ρ : Pairing} {c c' : Context} {σ : Renaming}

theorem SameSymbol.of_linked (h : Linked ρ c c') (hσ : σ.Follows ρ) {x y : SymbolId} (hxy : ρ.Ids .symbol x y) :
    SameSymbol σ c c' x y := by
  obtain ⟨a, b, rfl, rfl, hab⟩ := hxy
  obtain ⟨s, s', hs, hs', hpaired⟩ := h.alike hab
  exact ⟨s, s', SymbolTable.symbol_eq_ok.mpr ⟨a, rfl, hs⟩, SymbolTable.symbol_eq_ok.mpr ⟨b, rfl, hs'⟩, hpaired.name,
    hpaired.type.rename hσ⟩

theorem Node.SameTypes.sameDeclaration (hlinked : Linked ρ c c') (hσ : σ.Follows ρ) (h : n.SameTypes ρ n') :
    n.SameDeclaration σ c c' n' := by
  cases h with
  | typeAlias hname hsymbol => exact .typeAlias hname (.of_linked hlinked hσ hsymbol)
  | @expr e e' h =>
    have htype (t : Ty) (ht : e.type = .ok t) : e'.type = .ok (t.rename σ) := by
      obtain ⟨t', ht', hpaired⟩ := h.type ht
      rw [ht', hpaired.rename hσ]
    by_cases hfunc : ∃ f, e = .func f
    · obtain ⟨f, rfl⟩ := hfunc
      obtain ⟨f', rfl, hname, hsymbol⟩ := h.func rfl
      exact .func hname (Except.ok.inj (htype f.mark.type rfl)) fun hne => .of_linked hlinked hσ (hsymbol hne)
    · exact .expr (fun f hf => hfunc ⟨f, hf⟩) htype

/-- A table satisfies the constraints in one order if and only if the renamed table satisfies them in the other. -/
theorem Aligned.satisfies {g g' : TypeGraph} {ds ds' : List Constraint} (hg : g.Renamed σ g')
    (h : Aligned (Constraint.Renamed σ) ds ds') (θ : Substitution) : (∀ d ∈ ds, θ.Satisfies g d) ↔
    ∀ d ∈ ds', (θ.rename σ).Satisfies g' d := by
  obtain ⟨zs, hperm, hzs⟩ := h
  constructor
  · intro hds d' hd'
    obtain ⟨d, hd, hrenamed⟩ := exists_of_forall₂ hzs hd'
    exact (Substitution.satisfies_rename hg hrenamed).mp (hds d (hperm.mem_iff.mpr hd))
  · intro hds' d hd
    obtain ⟨d', hd', hrenamed⟩ := exists_of_forall₂ hzs.flip (hperm.mem_iff.mp hd)
    exact (Substitution.satisfies_rename hg hrenamed).mpr (hds' d' hd')

theorem onward_restart (h : c.diagnostics.entries = []) : Onward c { c with diagnostics := {} } where
  next k := by cases k <;> exact Nat.le_refl _
  graph := TypeGraph.extends_refl _
  symbols h := h
  parents h := ⟨_, h, rfl⟩
  problems _ := h
  sound := id

theorem Joined.restart (h : Joined ρ c c') (hc : c.diagnostics.entries = []) (hc' : c'.diagnostics.entries = []) :
    Joined ρ { c with diagnostics := {} } { c' with diagnostics := {} } where
  linked := h.linked.onward (onward_restart hc) (onward_restart hc')
  left {k a} ha := h.left (by cases k <;> exact ha)
  right {k b} hb := h.right (by cases k <;> exact hb)
  constraints := h.constraints

theorem Session.Prepares.rearranged (h : s.Prepares rs p) (hm : s.module = some m) (hg : s.graph.Ground)
    (hperm : m.statements.Perm ns) : ∃ p' σ c c' t t', (s.withStatements m ns).Prepares rs p' ∧
    p.SameUpTo σ p' c c' t t' := by
  obtain ⟨P⟩ := h.preparation hm
  obtain ⟨ns0, hdesugar, hperm0, hstatements⟩ := Module.desugar_perm hperm P.desugars
  obtain ⟨hsettled, hscopes, hprelude, hconstraints, hdiagnostics⟩ := settled_initial hg P.start
  have hsettled' : Context.Settled { P.initial with logs := s.logging } :=
    ⟨hsettled.graph, hsettled.types, hsettled.parents, hsettled.sound⟩
  obtain ⟨ρ, bs, c1', hbinds, hclean1', hjoined, hsound, hsound', hbound⟩ :=
    Module.bind_rearranged hsettled' hconstraints (by rw [hdiagnostics])
    ⟨0, hprelude, hscopes⟩ hstatements hperm0 P.binds P.declaredClean
  obtain ⟨ρ1, ts, c2', hobliges, hclean2', hjoined1, htyped⟩ :=
    Module.oblige_rearranged (hjoined.restart P.declaredClean hclean1') hsound hsound' rfl hbound P.obliges
    P.contextClean
  have hlast := hjoined1.restart P.contextClean hclean2'
  obtain ⟨σ, hσ, hrenamed⟩ := hlast.exists_renaming
  obtain ⟨p', hprepares, hmodule', hanalysis', hgraph'⟩ :=
    Session.prepares_of_runs (s := s.withStatements m ns) rfl P.startClean hdesugar P.start hbinds hclean1'
    hobliges hclean2'
  refine ⟨p', σ, _, _, _, _, hprepares, P.module, hmodule', P.analysis, hanalysis', P.graph, hgraph', hrenamed, ?_, ?_⟩
  · exact hlast.constraints.imp fun hd => hd.rename hσ
  · exact htyped.imp fun h => h.sameDeclaration hlast.linked hσ

theorem Session.Prepares.unique {p' : Session} (h : s.Prepares rs p) (h' : s.Prepares rs p') : p = p' := by
  obtain ⟨normal, bound, hnormalize, hbind, hgenerate⟩ := h.stages
  obtain ⟨normal', bound', hnormalize', hbind', hgenerate'⟩ := h'.stages
  obtain rfl := Except.ok.inj (hnormalize.symm.trans hnormalize')
  obtain rfl := Except.ok.inj (hbind.symm.trans hbind')
  exact Except.ok.inj (hgenerate.symm.trans hgenerate')

/-- **The order of statements.** Whether the stages before solving find a problem does not depend on the order of the
statements. If they find none, then types, constraints and declarations are the same up to a renaming. So a table
satisfies the constraints of one order if and only if the renamed table satisfies those of the other, and a solution
that is found for one of them is one for both. -/
theorem order_of_statements (rs : Replacements) (s : Session) (m : Module) (ns : List Node) (hm : s.module = some m)
    (hg : s.graph.Ground) (hperm : m.statements.Perm ns) :
    ((∃ p, s.Prepares rs p) ↔ ∃ p', (s.withStatements m ns).Prepares rs p') ∧
      ∀ p p', s.Prepares rs p → (s.withStatements m ns).Prepares rs p' → ∃ σ c c' t t', p.SameUpTo σ p' c c' t t' ∧
        (∀ θ : Substitution, (∀ d ∈ c.constraints, θ.Satisfies c.graph d) ↔
          ∀ d ∈ c'.constraints, (θ.rename σ).Satisfies c'.graph d) ∧
        ∀ q θ, p.solve = .ok q → q.diagnostics = [] → q.solution = some θ →
          ∀ d ∈ c'.constraints, (θ.rename σ).Satisfies c'.graph d := by
  refine ⟨⟨fun ⟨p, h⟩ => ?_, fun ⟨p', h'⟩ => ?_⟩, fun p p' h h' => ?_⟩
  · obtain ⟨p', -, -, -, -, -, h', -⟩ := h.rearranged hm hg hperm
    exact ⟨p', h'⟩
  · have hback : (s.withStatements m ns).withStatements { m with statements := ns } m.statements = s := by
      cases s
      cases m
      cases hm
      rfl
    obtain ⟨p, -, -, -, -, -, h, -⟩ := h'.rearranged rfl hg hperm.symm
    rw [hback] at h
    exact ⟨p, h⟩
  · obtain ⟨p'', σ, c, c', t, t', h'', hsame⟩ := h.rearranged hm hg hperm
    obtain rfl := h''.unique h'
    have hiff := fun θ => hsame.constraints.satisfies hsame.types θ
    refine ⟨σ, c, c', t, t', hsame, hiff, fun q θ hsolve hclean hsolution => (hiff θ).mp ?_⟩
    obtain ⟨report, hreport, hsolved⟩ :=
      Session.solve_eq_ok (Session.ready?_eq_some.mpr ⟨h.clean, hsame.analysis⟩) hsolve
    have hok : report.outcome.isOk = true := by
      by_contra hfailed
      exact hsolved.rejected (by simpa using hfailed) hclean
    rw [(hsolved.accepted hok).2] at hsolution
    rw [hsame.graph] at hreport
    obtain ⟨hθ, -, hsat⟩ := Solver.satisfies_of_solve Substitution.noVariableCycle_empty.grounded hreport
      (Solver.solved_of_solution? hsolution)
    exact hsat θ (.refl θ) hθ

end

/-! ### A verdict that depends on the order -/

/-- The statements of the sample with the function first. -/
def reversedStatements : List Node := conditionModule.statements.reverse

theorem conditionSession_normalize : conditionSession.normalize [] = .ok conditionSession := by cbv

set_option maxRecDepth 20000 in
/-- With the function first, its variables are bound by its signature and its body before its use is looked at. -/
theorem reversedSession_stages : ∃ normal bound generated solved,
    (conditionSession.withStatements conditionModule reversedStatements).normalize [] = .ok normal ∧
    normal.bind = .ok bound ∧
      bound.generate = .ok generated ∧ generated.solve = .ok solved ∧ solved.diagnostics ≠ [] := by
  refine ⟨?_, ?_, ?_, ?_, ?normalize, ?bind, ?generate, ?solve, ?problem⟩
  case normalize | bind | generate | solve => cbv; exact rfl
  case problem => exact cons_ne_nil _ _

theorem Session.run_of_stages {normal bound generated solved final : Session} (hdecode : s.decode = s)
    (hnormalize : s.normalize [] = .ok normal) (hbind : normal.bind = .ok bound)
    (hgenerate : bound.generate = .ok generated) (hsolve : generated.solve = .ok solved)
    (hdispatch : solved.dispatch = .ok final) : s.run = .ok final := by
  unfold Session.run
  rw [hdecode, hnormalize]
  exact TypeInference.bind_eq_ok.mpr ⟨_, rfl,
    TypeInference.bind_eq_ok.mpr ⟨_, hbind,
    TypeInference.bind_eq_ok.mpr ⟨_, hgenerate, TypeInference.bind_eq_ok.mpr ⟨_, hsolve, hdispatch⟩⟩⟩⟩

/-- On two orders of one module, in which every function has a signature, one run may find problems and the other
none. -/
theorem verdict_depends_on_order : ¬ ∀ (s final final' : Session) (m : Module) (ns : List Node), s.module = some m →
    s.graph.Ground → s.clock = none → (∀ f, .func f ∈ m.exprs → f.sign ≠ none) → m.statements.Perm ns →
    s.run = .ok final → (s.withStatements m ns).run = .ok final' →
    (final.diagnostics = [] ↔ final'.diagnostics = []) := by
  intro hclaim
  obtain ⟨generated, final, -, -, -, -, σ, -, -, -, -, -, -, -, -, -, -, -, -, -, -, haccepts, -⟩ :=
    conditionSession_stages
  obtain ⟨bound, solved, hbind, hgenerate, hsolve, hdispatch⟩ := haccepts.stages
  obtain ⟨normal', bound', generated', solved', hnormalize', hbind', hgenerate', hsolve', hproblem⟩ :=
    reversedSession_stages
  have hstays : solved'.dispatch = .ok solved' :=
    Session.dispatch_of_not_ready (by simp [Session.ready?, Session.hasProblems, hproblem])
  have hrun : conditionSession.run = .ok final :=
    Session.run_of_stages rfl conditionSession_normalize hbind hgenerate hsolve hdispatch
  have hrun' : (conditionSession.withStatements conditionModule reversedStatements).run = .ok solved' :=
    Session.run_of_stages rfl hnormalize' hbind' hgenerate' hsolve' hstays
  have hsigned : ∀ f, .func f ∈ conditionModule.exprs → f.sign ≠ none := by
    intro f hf
    simp [conditionModule, unaryCall, unaryFunc, Module.exprs, Node.allExprs, Node.exprs, Expr.exprs,
      Labelled.exprs] at hf
    simp [hf]
  exact hproblem ((hclaim _ final solved' _ _ rfl ground_empty rfl hsigned (List.reverse_perm _).symm hrun hrun').mp
    haccepts.clean)

theorem conditionModule_rearranged : ∃ (p p' : Session) (σ : Renaming) (c c' : Context) (t t' : Module),
    conditionSession.Prepares [] p ∧
    (conditionSession.withStatements conditionModule reversedStatements).Prepares [] p' ∧
      p.SameUpTo σ p' c c' t t' := by
  obtain ⟨generated, final, -, -, -, -, σ, -, -, -, -, -, -, -, -, -, -, -, -, -, -, haccepts, -⟩ :=
    conditionSession_stages
  obtain ⟨bound, solved, hbind, hgenerate, hsolve, hdispatch⟩ := haccepts.stages
  have hclean := Session.clean_before Session.solve_of_not_ready hsolve
    (Session.clean_before Session.dispatch_of_not_ready hdispatch haccepts.clean)
  have hprepares : conditionSession.Prepares [] generated :=
    ⟨⟨_, _, conditionSession_normalize, hbind, hgenerate⟩, hclean⟩
  obtain ⟨hiff, hsame⟩ := order_of_statements [] conditionSession conditionModule reversedStatements rfl ground_empty
    (List.reverse_perm _).symm
  obtain ⟨p', hprepares'⟩ := hiff.mp ⟨_, hprepares⟩
  obtain ⟨σ, c, c', t, t', h, -⟩ := hsame _ _ hprepares hprepares'
  exact ⟨_, p', σ, c, c', t, t', hprepares, hprepares', h⟩

end TypeInference
