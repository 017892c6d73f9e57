import TypeInference.Proofs.Obligations
import TypeInference.Proofs.Declarations

/-! # Modules with their statements in another order

Up to the constraints, the analysis of a module does not depend on the order of its statements: if it finds no problem
in one order then it finds none in any other, and what it makes is the same up to numbers (`Module.bind_rearranged`,
`Module.oblige_rearranged`). -/

namespace TypeInference

open AnalysisM
open List

variable {x : Composite} {env : Enclosure} {m b : Module} {i : ScopeId} {t : Ty} {α α' : Type}

/-! ### Where an analysis starts -/

/-- Neither absent nor a variable; a composite type is one of the first `n`. -/
def Ty.Ground (n : Nat) : Ty → Prop
  | .scalar _ | .error => True
  | .node i => i < n
  | .absent | .var _ => False

/-- Nothing is absent in the composite type, and it has no variables. -/
def Composite.Ground (n : Nat) : Composite → Prop
  | .metatype t => t.Ground n
  | .function none _ => False
  | .function (some d) t => d < n ∧ t.Ground n
  | .tuple _ fields => ∀ f ∈ fields, f.type.Ground n
  | .union cases => ∀ t ∈ cases, t.Ground n

/-- Nothing is absent in the graph, and it has no variables. -/
def TypeGraph.Ground (g : TypeGraph) : Prop := ∀ i x, g.get? i = some x → x.Ground g.size

/-- The state stands for itself: everything that it refers to is there. -/
structure Context.Settled (c : Context) : Prop where
  graph : c.graph.Ground
  types : ∀ {a : Nat} {s : Symbol}, c.table.symbols[a]? = some s → s.type.Ground c.graph.size
  parents : ∀ {a : Nat} {s : Scope}, c.table.scopes[a]? = some s → s.parent = noScope ∨ ∃ n : Nat, s.parent = n ∧
    n < c.table.scopes.size
  sound : c.table.Sound

/-- Everything is its own partner. -/
def Context.same (c : Context) : Pairing := {p | p.2.1 = p.2.2 ∧ p.2.1 < c.next p.1}

section

variable {m n : Nat} {g : TypeGraph} {c : Context}

theorem Ty.Ground.mono (h : t.Ground m) (hmn : m ≤ n) : t.Ground n := by
  cases t with
  | node i => exact Nat.lt_of_lt_of_le h hmn
  | scalar | error => trivial
  | absent | var => exact h

theorem Composite.Ground.mono (h : x.Ground m) (hmn : m ≤ n) : x.Ground n := by
  cases x with
  | metatype t => exact Ty.Ground.mono h hmn
  | function d t =>
    cases d with
    | none => exact h
    | some d => exact ⟨Nat.lt_of_lt_of_le h.1 hmn, h.2.mono hmn⟩
  | tuple label fields => exact fun f hf => (h f hf).mono hmn
  | union cases => exact fun t ht => (h t ht).mono hmn

theorem ground_empty : TypeGraph.Ground {} := by
  intro i x h
  simp [TypeGraph.get?] at h

theorem TypeGraph.Ground.add (hg : g.Ground) (hx : x.Ground g.size) : (g.add x).1.Ground := by
  have hsize : (g.add x).1.size = g.size + 1 := by simp [TypeGraph.add, TypeGraph.size]
  intro i y hy
  rw [hsize]
  rw [TypeGraph.get?_add] at hy
  split at hy
  · cases hy
    exact hx.mono (Nat.le_succ _)
  · exact (hg i y hy).mono (Nat.le_succ _)

theorem Ty.Ground.paired (h : t.Ground c.graph.size) : t.Paired c.same t := by
  cases t with
  | scalar s => exact .scalar s
  | error => exact .error
  | node i => exact .node ⟨rfl, h⟩
  | absent | var => exact h.elim

theorem Composite.Ground.paired (h : x.Ground c.graph.size) : x.Paired c.same x := by
  cases x with
  | metatype t => exact .metatype (Ty.Ground.paired h)
  | function d t =>
    cases d with
    | none => exact h.elim
    | some d => exact .function ⟨rfl, h.1⟩ h.2.paired
  | tuple label fields => exact .tuple (forall₂_same.mpr fun f hf => ⟨rfl, (h f hf).paired⟩)
  | union cases => exact .union (forall₂_same.mpr fun t ht => (h t ht).paired)

theorem Context.Settled.linked (h : c.Settled) : Linked c.same c c where
  bijective := by
    rintro k a b a' b' ⟨hab, -⟩ ⟨hab', -⟩
    dsimp only at hab hab'
    rw [hab, hab']
  bound := by
    rintro k a b ⟨hab, hlt⟩
    dsimp only at hab hlt
    exact ⟨hlt, hab ▸ hlt⟩
  alike := by
    rintro k a b ⟨hab, hlt⟩
    obtain rfl : a = b := hab
    have hscope {i : ScopeId} (hi : ∃ n : Nat, i = n ∧ n < c.table.scopes.size) : c.same.Ids .scope i i := by
      obtain ⟨n, rfl, hn⟩ := hi
      exact ⟨n, n, rfl, rfl, rfl, hn⟩
    cases k with
    | var => trivial
    | node =>
      obtain ⟨x, hx⟩ : ∃ x, c.graph.get? a = some x := ⟨_, Array.getElem?_eq_getElem hlt⟩
      exact ⟨x, x, hx, hx, (h.graph a x hx).paired⟩
    | scope =>
      obtain ⟨s, hs⟩ : ∃ s, c.table.scopes[a]? = some s := ⟨_, Array.getElem?_eq_getElem hlt⟩
      exact ⟨s, s, hs, hs, (h.parents hs).imp (fun h => ⟨h, h⟩) hscope⟩
    | symbol =>
      obtain ⟨s, hs⟩ : ∃ s, c.table.symbols[a]? = some s := ⟨_, Array.getElem?_eq_getElem hlt⟩
      exact ⟨s, s, hs, hs, rfl, (h.types hs).paired, rfl, hscope (h.sound.scope hs)⟩

theorem Context.Settled.add (h : c.Settled) (hx : x.Ground c.graph.size) :
    Context.Settled { c with graph := (c.graph.add x).1 } where
  graph := h.graph.add hx
  types hs := (h.types hs).mono (TypeGraph.extends_add _ _).size_le
  parents := h.parents
  sound := h.sound

theorem Context.Settled.declare (h : c.Settled) {name : String} {overloadable : Bool} {table : SymbolTable}
    {id : SymbolId} (ht : t.Ground c.graph.size) (hdeclare : c.table.declare i name t overloadable = .ok (table, id)) :
    Context.Settled { c with table := table } := by
  have hsound := h.sound.declare hdeclare
  obtain ⟨rfl, k, sc, rfl, hsc, rfl⟩ := SymbolTable.eq_declared hdeclare
  refine ⟨h.graph, fun {a s} hs => ?_, fun {a s} hs => ?_, hsound⟩
  · rcases SymbolTable.mem_symbols_declared hs with ⟨rfl, rfl⟩ | hs
    · exact ht
    · exact h.types hs
  · have hsize :
        (c.table.declared k sc name t overloadable).scopes.size = c.table.scopes.size := by simp [SymbolTable.declared]
    dsimp only at hs ⊢
    rw [SymbolTable.getElem?_scopes_declared hsc] at hs
    rw [hsize]
    split at hs
    · cases hs
      exact (h.parents hsc :)
    · exact h.parents hs

theorem Context.Settled.addScope (h : c.Settled) (name : String) (kind : ScopeKind) {parent : ScopeId} (module : String)
    (hparent : parent = noScope ∨ ∃ n : Nat, parent = n ∧ n < c.table.scopes.size) :
    Context.Settled { c with table := (c.table.addScope name kind parent module).1 } where
  graph := h.graph
  types := h.types
  parents {a s} hs := by
    have hsize : (c.table.addScope name kind parent module).1.scopes.size = c.table.scopes.size +
        1 := by simp [SymbolTable.addScope]
    have hmono {p : ScopeId} (hp : p = noScope ∨ ∃ n : Nat, p = n ∧ n < c.table.scopes.size) :
        p = noScope ∨ ∃ n : Nat, p = n ∧ n < c.table.scopes.size + 1 := by
      rcases hp with hp | ⟨n, hn, hlt⟩
      · exact .inl hp
      · exact .inr ⟨n, hn, Nat.lt_succ_of_lt hlt⟩
    dsimp only at hs ⊢
    rw [hsize]
    replace hs := Array.getElem?_push.symm.trans hs
    split at hs
    · cases hs
      exact hmono hparent
    · exact hmono (h.parents hs)
  sound := h.sound.addScope _ _ _ _

theorem Prelude.overloads_ground : ∀ o ∈ Prelude.overloads, (∀ t ∈ o.2.1, t.Ground 0) ∧ o.2.2.Ground 0 := by
  simp [Prelude.overloads, Prelude.binary, Prelude.numeric, Prelude.scalars, Ty.int, Ty.float, Ty.bool,
    Ty.string, Ty.Ground]

theorem settled_initial (hg : g.Ground) (h : Context.initial g = .ok c) :
    c.Settled ∧ 0 < c.table.scopes.size ∧ c.prelude = (0 : Nat) ∧ c.constraints = [] ∧ c.diagnostics = {} := by
  obtain ⟨⟨g', table, scope⟩, hprelude, h⟩ := bind_eq_ok.mp h
  cases h
  obtain ⟨⟨g1, t1⟩, hscalars, hprelude⟩ := bind_eq_ok.mp hprelude
  obtain ⟨⟨g2, t2⟩, hoverloads, hprelude⟩ := bind_eq_ok.mp hprelude
  cases hprelude
  let Ready (p : TypeGraph × SymbolTable) : Prop := Context.Settled { graph := p.1, table := p.2 } ∧ 0 < p.2.scopes.size
  have hready {p : TypeGraph × SymbolTable} (hp : Ready p) {name : String} {t : Ty} {overloadable : Bool}
      {table : SymbolTable} {id : SymbolId} (ht : t.Ground p.1.size)
      (hdeclare : p.2.declare 0 name t overloadable = .ok (table, id)) : Ready (p.1, table) := by
    refine ⟨hp.1.declare ht hdeclare, ?_⟩
    obtain ⟨-, k, sc, -, -, rfl⟩ := SymbolTable.eq_declared hdeclare
    simpa [SymbolTable.declared] using hp.2
  have hstart : Ready (g, (SymbolTable.addScope {} "prelude" .prelude noScope "prelude").1) := by
    have hempty : Context.Settled { graph := g } := ⟨hg, by simp, by simp, SymbolTable.sound_empty⟩
    exact ⟨hempty.addScope _ _ _ (.inl rfl), by simp [SymbolTable.addScope]⟩
  have h1 : Ready (g1, t1) := by
    refine foldlM_invariant (P := Ready) ?_ hstart hscalars
    rintro s - ⟨g, t⟩ p' hp hstep
    obtain ⟨⟨t', id⟩, hdeclare, heq⟩ := bind_eq_ok.mp hstep
    cases heq
    refine hready (p := ((g.add (.metatype (.scalar s))).1, t)) ⟨hp.1.add (x := .metatype (.scalar s)) trivial,
      hp.2⟩ ?_ hdeclare
    exact lt_size_of_get? (TypeGraph.get?_add_self _ _)
  have h2 : Ready (g', table) := by
    refine foldlM_invariant (P := Ready) ?_ h1 hoverloads
    rintro ⟨name, operands, result⟩ hmem ⟨g, t⟩ p' hp hstep
    obtain ⟨⟨t', id⟩, hdeclare, heq⟩ := bind_eq_ok.mp hstep
    cases heq
    obtain ⟨hoperands, hresult⟩ := Prelude.overloads_ground _ hmem
    have hdomain := hp.1.add (x := .tuple "" (operands.map fun t => { type := t })) (by
      simp only [Composite.Ground, forall_mem_map]
      exact fun t ht => (hoperands t ht).mono (Nat.zero_le _))
    have hfunction := hdomain.add (x := .function (some g.size) result)
      ⟨lt_size_of_get? (TypeGraph.get?_add_self _ _), hresult.mono (Nat.zero_le _)⟩
    refine hready (p := ((g.addOperator operands result).1, t)) ⟨hfunction, hp.2⟩ ?_ hdeclare
    exact lt_size_of_get? (TypeGraph.get?_add_self _ _)
  exact ⟨⟨h2.1.graph, h2.1.types, h2.1.parents, h2.1.sound⟩, h2.2, rfl, rfl, rfl⟩

end

/-! ### Everything paired -/

/-- Everything in the two states is paired, and their constraints are the same in some order. -/
structure Joined (ρ : Pairing) (c c' : Context) : Prop where
  linked : Linked ρ c c'
  left : ∀ {k : Numbered} {a : Nat}, a < c.next k → ∃ b, (k, a, b) ∈ ρ
  right : ∀ {k : Numbered} {b : Nat}, b < c'.next k → ∃ a, (k, a, b) ∈ ρ
  constraints : Aligned (Constraint.Paired ρ) c.constraints c'.constraints

section

variable {ρ ρ1 : Pairing} {c c' c1 c1' : Context}

theorem Aligned.append {Q : α → α' → Prop} {xs us : List α} {ys vs : List α'} (h : Aligned Q xs ys)
    (h' : Aligned Q us vs) : Aligned Q (xs ++ us) (ys ++ vs) := by
  obtain ⟨zs, hperm, hzs⟩ := h
  obtain ⟨ws, hperm', hws⟩ := h'
  exact ⟨zs ++ ws, hperm.append hperm', rel_append hzs hws⟩

theorem Aligned.imp {Q R : α → α' → Prop} {xs : List α} {ys : List α'} (h : Aligned Q xs ys)
    (hQR : ∀ {x y}, Q x y → R x y) : Aligned R xs ys := by
  obtain ⟨zs, hperm, hzs⟩ := h
  exact ⟨zs, hperm, hzs.imp fun _ _ => hQR⟩

theorem Context.Settled.joined (h : c.Settled) (hcs : c.constraints = []) : Joined c.same c c where
  linked := h.linked
  left ha := ⟨_, rfl, ha⟩
  right hb := ⟨_, rfl, hb⟩
  constraints := by
    rw [hcs]
    exact ⟨[], .nil, .nil⟩

theorem Joined.rearranged (h : Joined ρ c c') (hstage : Rearranged ρ c c' ρ1 c1 c1') : Joined ρ1 c1 c1' where
  linked := hstage.linked
  left {k a} ha := by
    rcases Nat.lt_or_ge a (c.next k) with hlt | hge
    · obtain ⟨b, hab⟩ := h.left hlt
      exact ⟨b, hstage.subset hab⟩
    · exact hstage.left hge ha
  right {k b} hb := by
    rcases Nat.lt_or_ge b (c'.next k) with hlt | hge
    · obtain ⟨a, hab⟩ := h.right hlt
      exact ⟨a, hstage.subset hab⟩
    · exact hstage.right hge hb
  constraints := by
    obtain ⟨new, new', hnew, hnew', haligned⟩ := hstage.constraints
    rw [hnew, hnew']
    exact (h.constraints.imp fun hd => hd.mono hstage.subset).append haligned

/-! ### Binding -/

/-- The identifier of a module, made up if it has none. -/
def Module.boundId (m : Module) : String := if m.id = "" then Module.generatedId else m.id

/-- The state with the scope of the module opened. -/
def Module.opened (m : Module) (c : Context) : Context :=
  { c with table := (c.table.addScope m.name .module c.prelude m.boundId).1 }

def Module.enclosure (m : Module) (c : Context) : Enclosure := { scope := c.table.scopes.size, module := m.boundId }

theorem run_mapM_length {β : Type} {f : α → AnalysisM β} {xs : List α} {as : List β}
    (h : (xs.mapM f).run c = .ok (as, c1)) : as.length = xs.length := by
  obtain ⟨ls, -, rfl, rfl⟩ := exists_legs h
  rw [length_map, length_map]

/-- What binding a module does: its functions and type aliases first, then all its statements. -/
theorem Module.bind_run_eq_ok (hstatements : ∀ n ∈ m.statements, n.IsStatement) :
    m.bind.run c = .ok ((b, env), c1) ↔ ∃ aheads c2 bs,
      (m.statements.mapM (Node.declareAhead (m.enclosure c).scope)).run (m.opened c) = .ok (aheads, c2) ∧
      ((m.statements.zip aheads).mapM (Node.bindStatement (m.enclosure c))).run c2 = .ok (bs, c1) ∧
      b = { m with id := m.boundId, statements := bs, scope := (m.enclosure c).scope } ∧ env = m.enclosure c := by
  obtain ⟨token, name, id, statements, scope⟩ := m
  have hall {aheads : List Node} (hlength : aheads.length = statements.length) :=
    @Node.bindAll_eq_mapM (Module.enclosure ⟨token, name, id, statements, scope⟩ c) aheads statements
      hstatements hlength
  constructor
  · intro h
    obtain ⟨c2, c3, hget, h⟩ := run_bind_eq_ok.mp h
    cases hget
    obtain ⟨scope, c4, hscope, h⟩ := run_bind_eq_ok.mp h
    cases hscope
    obtain ⟨aheads, c5, haheads, h⟩ := run_bind_eq_ok.mp h
    obtain ⟨⟨bs, env'⟩, c6, hbs, h⟩ := run_bind_eq_ok.mp h
    cases h
    erw [hall (run_mapM_length haheads)] at hbs
    obtain ⟨bs', c7, hbs, heq⟩ := run_bind_eq_ok.mp hbs
    cases heq
    exact ⟨aheads, c5, bs, haheads, hbs, rfl, rfl⟩
  · rintro ⟨aheads, c2, bs, haheads, hbs, rfl, rfl⟩
    refine run_bind_eq_ok.mpr ⟨c, c, rfl, run_bind_eq_ok.mpr ⟨_, _, rfl, run_bind_eq_ok.mpr ⟨aheads, c2, haheads, ?_⟩⟩⟩
    refine run_bind_eq_ok.mpr ⟨(bs, _), c1, ?_, rfl⟩
    erw [hall (run_mapM_length haheads)]
    exact run_bind_eq_ok.mpr ⟨bs, c1, hbs, rfl⟩

theorem declareAhead_stage (h : Joined ρ c c') (hc : c.table.Sound) (hc1 : c1.Fit) {j : ScopeId}
    (hij : ρ.Ids .scope i j) :
    Stage ρ c c1 c' Context.Fit (fun n n' => n = n' ∧ n.IsStatement) (fun ρ n a b => n.Ahead ρ a b)
    (Node.declareAhead i)
      (Node.declareAhead j) := by
  refine stage_of_sim h.linked h.right hc hc1 (fun _ => inferInstance) ?_
  rintro S n _ ⟨rfl, hn⟩
  exact Node.declareAhead_sim hn hij

theorem bindStatement_stage (h : Joined ρ c c') (hc : c.table.Sound) (hc1 : c1.Fit) {env' : Enclosure}
    (henv : env.Paired ρ env') :
    Stage ρ c c1 c' Context.Fit (fun p q => (p.1 = q.1 ∧ p.1.IsStatement) ∧ p.1.Ahead ρ p.2 q.2)
    (fun ρ _ a b => a.Bound ρ b)
      (Node.bindStatement env) (Node.bindStatement env') := by
  refine stage_of_sim h.linked h.right hc hc1 ?_ ?_
  · rintro ⟨n, a⟩ ⟨_, a'⟩ ⟨⟨rfl, hn⟩, -⟩
    exact Node.bindStatement_forward _ hn _
  · rintro S ⟨n, a⟩ ⟨_, a'⟩ ⟨⟨rfl, -⟩, ha⟩
    exact Node.bindStatement_sim ha henv

theorem Module.bind_rearranged {ns : List Node} (hc : c.Settled) (hcs : c.constraints = [])
    (hclean : c.diagnostics.entries = []) (hprelude : ∃ n : Nat, c.prelude = n ∧ n < c.table.scopes.size)
    (hstatements : ∀ n ∈ m.statements, n.IsStatement) (hperm : m.statements.Perm ns)
    (h : m.bind.run c = .ok ((b, env), c1)) (hclean1 : c1.diagnostics.entries = []) :
    ∃ ρ bs c1', (Module.bind { m with statements := ns }).run c =
      .ok (({ b with statements := bs }, env), c1') ∧ c1'.diagnostics.entries = [] ∧ Joined ρ c1 c1' ∧ c1.table.Sound ∧
      c1'.table.Sound ∧ Aligned (Node.Bound ρ) b.statements bs := by
  obtain ⟨aheads, c2, bs, haheads, hbs, rfl, rfl⟩ := (Module.bind_run_eq_ok hstatements).mp h
  have hopened : (m.opened c).Settled := hc.addScope _ _ _ (.inr hprelude)
  have hjoined0 : Joined (m.opened c).same (m.opened c) (m.opened c) := hopened.joined hcs
  have hscope : (m.opened c).same.Ids .scope (m.enclosure c).scope (m.enclosure c).scope :=
    ⟨_, _, rfl, rfl, rfl, by simp [Module.opened, Context.next, SymbolTable.addScope]⟩
  have hbinds : ∀ p ∈ m.statements.zip aheads, Forward (Node.bindStatement (m.enclosure c) p) := fun p hp =>
    Node.bindStatement_forward _ (hstatements _ (of_mem_zip hp).1) _
  have honward1 : Onward (m.opened c) c2 := (Carries.mapM fun _ _ => inferInstance).related haheads
  have honward2 : Onward c2 c1 := (Carries.mapM hbinds).related hbs
  have hc2 : c2.Fit := ⟨honward2.problems hclean1, honward1.sound hopened.sound⟩
  have hc1 : c1.Fit := ⟨hclean1, honward2.sound hc2.2⟩
  -- functions and type aliases
  have hsame : Aligned (fun n n' => n = n' ∧ n.IsStatement) m.statements ns :=
    ⟨ns, hperm, forall₂_same.mpr fun n hn => ⟨rfl, hstatements n (hperm.mem_iff.mpr hn)⟩⟩
  obtain ⟨ρ1, aheads', c2', haheads', hstage1, hc2', haligned1, -⟩ := mapM_rearranged hjoined0.linked haheads
    (fun _ _ => inferInstance) (declareAhead_stage hjoined0 hopened.sound hc2 hscope) (fun hρ h => h.mono hρ) hsame
    ⟨hclean, hopened.sound⟩
  have hjoined1 := hjoined0.rearranged hstage1
  -- all statements
  obtain ⟨ρ2, bs', c1', hbs', hstage2, hc1', -, haligned2⟩ := mapM_rearranged hjoined1.linked hbs hbinds
    (bindStatement_stage hjoined1 hc2.2 hc1 ⟨hscope.mono hstage1.subset, rfl⟩) (fun hρ h => h.mono hρ) haligned1 hc2'
  refine ⟨ρ2, bs', c1', (Module.bind_run_eq_ok fun n hn => hstatements n (hperm.mem_iff.mpr hn)).mpr
    ⟨aheads', c2', bs', haheads', hbs', rfl, rfl⟩, hc1'.1, hjoined1.rearranged hstage2, hc1.2, hc1'.2, ?_⟩
  refine haligned2.imp fun h => ?_
  obtain ⟨_, h⟩ := h
  exact h

/-! ### Typing -/

theorem Module.oblige_run_eq_ok : b.oblige.run c = .ok (m, c1) ↔
    ∃ ns, (b.statements.mapM Node.oblige).run c = .ok (ns, c1) ∧ m = { b with statements := ns } := by
  obtain ⟨token, name, id, statements, scope⟩ := b
  rw [Module.oblige, Node.obligeAll_eq_mapM]
  constructor
  · intro h
    obtain ⟨ns, c2, hns, h⟩ := run_bind_eq_ok.mp h
    cases h
    exact ⟨ns, hns, rfl⟩
  · rintro ⟨ns, hns, rfl⟩
    exact run_bind_eq_ok.mpr ⟨ns, c1, hns, rfl⟩

theorem Module.oblige_rearranged {bs : List Node} (h : Joined ρ c c') (hsound : c.table.Sound)
    (hsound' : c'.table.Sound) (hclean' : c'.diagnostics.entries = []) (hbs : Aligned (Node.Bound ρ) b.statements bs)
    (hrun : b.oblige.run c = .ok (m, c1)) (hclean1 : c1.diagnostics.entries = []) :
    ∃ ρ1 ns c1', (Module.oblige { b with statements := bs }).run c' =
      .ok ({ m with statements := ns }, c1') ∧ c1'.diagnostics.entries = [] ∧ Joined ρ1 c1 c1' ∧
        Aligned (Node.SameTypes ρ1) m.statements ns := by
  have hbuilds := (Module.oblige_typed hrun).builds
  obtain ⟨ns, hns, rfl⟩ := Module.oblige_run_eq_ok.mp hrun
  have hnamed : Named ρ c c' := ⟨hsound, hsound', fun _ => h.left, fun _ => h.right,
    iff_of_true (hbuilds.grows.problems hclean1) hclean'⟩
  obtain ⟨ρ1, ns', c1', hns', hstage, hc1', -, haligned⟩ :=
    mapM_rearranged h.linked hns (fun n _ => Node.oblige_forward n)
    (typing_stage h.linked hnamed hbuilds.grows.table hclean1) (fun hρ h => h.mono hρ) hbs ⟨hclean', rfl⟩
  exact ⟨ρ1, ns', c1', Module.oblige_run_eq_ok.mpr ⟨ns', hns', rfl⟩, hc1'.1, h.rearranged hstage,
    haligned.imp fun ⟨_, h⟩ => h⟩

end

end TypeInference
