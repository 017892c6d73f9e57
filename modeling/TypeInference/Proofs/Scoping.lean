import TypeInference.Proofs.Lockstep
import TypeInference.Proofs.Passage

/-! # Names in lockstep

Names are declared in lockstep, whatever other statements have declared in the meantime, as long as these leave the
names free (`Scene`). -/

namespace TypeInference

open AnalysisM
open List

variable {type : AnalysisM Ty} {overloadable : Bool} {c : Context} {f f' : Func} {name : String} {t : Ty} {α : Type}

/-! ### Going onward -/

instance : IsPreorder Context Onward where
  refl := .refl
  trans _ _ _ := .trans

/-- The computation loses nothing. -/
abbrev Forward {α : Type} (x : AnalysisM α) : Prop := Carries Onward x

instance fresh_forward : Forward fresh := ⟨fun h => by
  cases h
  exact onward_vars _ 1⟩

instance newType_forward (x : Composite) : Forward (newType x) := ⟨fun h => by
  cases h
  exact onward_add _ x⟩

instance newFunction_forward (fs : List TupleField) (t : Ty) : Forward (newFunction fs t) := ⟨fun {c _ _} h => by
  cases h
  exact (onward_add c _).trans (onward_add _ (.function (some c.graph.size) t))⟩

instance diagnose_forward (code : Code) (token : Token) (message : String) :
    Forward (diagnose code token message) := ⟨fun h => by
  cases h
  refine ⟨fun k => ?_, TypeGraph.extends_refl _, id, fun h => ⟨_, h, rfl⟩, fun h => absurd h ?_, id⟩
  · cases k <;> exact Nat.le_refl _
  · exact Diagnostics.add_ne_empty _ _⟩

instance newScope_forward (name : String) (kind : ScopeKind) (parent : ScopeId) (module : String) :
    Forward (newScope name kind parent module) := ⟨fun h => by
  cases h
  refine ⟨fun k => ?_, TypeGraph.extends_refl _, id, fun {a s} hs => ⟨s, ?_, rfl⟩, id, fun ht => ht.addScope _ _ _ _⟩
  · cases k <;> simp [Context.next]
  · have hlt := (Array.getElem?_eq_some_iff.mp hs).1
    exact (Array.getElem?_push.trans (if_neg (Nat.ne_of_lt hlt))).trans hs⟩

instance canDeclare_forward (scope : ScopeId) (name : String) (overloadable : Bool) :
    Forward (canDeclare scope name overloadable) :=
  .bind .get fun _ => .lift _

theorem onward_declared {n : Nat} {sc : Scope} (name : String) (type : Ty) (overloadable : Bool)
    (hsc : c.table.scopes[n]? = some sc)
    (hsound : c.table.Sound → (c.table.declared n sc name type overloadable).Sound) :
    Onward c { c with table := c.table.declared n sc name type overloadable } where
  next k := by cases k <;> simp [Context.next, SymbolTable.declared]
  graph := TypeGraph.extends_refl _
  symbols h := SymbolTable.symbols_declared_of_lt h
  parents {a s} hs := by
    dsimp only
    rw [SymbolTable.getElem?_scopes_declared hsc]
    split
    · next hna =>
      subst hna
      cases hsc.symm.trans hs
      exact ⟨_, rfl, rfl⟩
    · exact ⟨s, hs, rfl⟩
  problems h := h
  sound := hsound

instance declare_forward (scope : ScopeId) (name : String) (type : Ty) (overloadable : Bool) :
    Forward (declare scope name type overloadable) := ⟨fun h => by
  obtain ⟨a, c2, hget, h⟩ := run_bind_eq_ok.mp h
  cases hget
  obtain ⟨⟨table, new⟩, c3, hlift, h⟩ := run_bind_eq_ok.mp h
  obtain ⟨r, hdeclare, heq⟩ := run_lift_eq_ok.mp hlift
  cases heq
  cases h
  obtain ⟨-, n, sc, rfl, hsc, rfl⟩ := SymbolTable.eq_declared hdeclare
  exact onward_declared name type overloadable hsc fun ht => ht.declare hdeclare⟩

instance duplicate_forward (scope : ScopeId) (token : Token) (name : String) : Forward (duplicate scope token name) :=
  .bind .get fun _ => .bind (.lift _) fun _ => diagnose_forward _ _ _

instance declareOnce_forward [Forward type] (scope : ScopeId) (token : Token) (name : String) (overloadable : Bool) :
    Forward (declareOnce scope token name type overloadable) := by
  unfold declareOnce
  infer_instance

theorem parameterFields_forward (params : List (Option SignElem)) : Forward (params.mapM fun
    | some e => do return { label := e.label, type := ← fresh : TupleField }
    | none => throw .missing : AnalysisM (List TupleField)) := by
  refine .mapM fun p _ => ?_
  cases p with
  | none => exact .throw _
  | some e => exact .bind fresh_forward fun _ => .pure _

instance Func.declare_forward (scope : ScopeId) (f : Func) : Forward (f.declare scope) := by
  have := parameterFields_forward
  exact .bind (parameterFields_forward _) inferInstance

instance TypeAlias.declare_forward (scope : ScopeId) (a : TypeAlias) : Forward (a.declare scope) := by
  unfold TypeAlias.declare
  infer_instance

instance Func.parameterTypes_forward (f : Func) : Forward f.parameterTypes := by
  refine .bind .get fun c => ?_
  dsimp only
  split
  · split
    · exact .pure _
    · exact .throw _
  · exact .throw _

instance declareParameters_forward (scope : ScopeId) :
    ∀ params : List (Option SignElem × Ty), Forward (declareParameters scope params)
  | [] => .pure _
  | (none, _) :: _ => .throw _
  | (some e, type) :: rest => by
    have hrest := declareParameters_forward scope rest
    refine @Carries.ite _ _ _ _ _ _ hrest (.bind inferInstance fun id => ?_)
    cases id with
    | none => exact hrest
    | some id => exact .bind hrest fun _ => .pure _

instance : Declares Onward where
  scope := newScope_forward
  func := Func.declare_forward
  params f scope := .bind (Func.parameterTypes_forward f) fun _ => declareParameters_forward scope _
  letBinding := declareOnce_forward
  typeAlias := TypeAlias.declare_forward

/-! ### Scenes -/

/-- The surroundings in which a statement declares its names in two runs. In the second run other statements may have
gone before; the names that these have declared do not stand in the way of those that the first run ends up with. -/
structure Scene where
  /-- Where the first run has come to at the end of the statement. -/
  final : Context
  clean : final.diagnostics.entries = []
  /-- What is paired before the statement. -/
  base : Pairing
  /-- The number of symbols before the statement, in the first run. -/
  start : Nat
  /-- Symbols of the second run that have no partner. -/
  foreign : Set Symbol
  apart : ∀ {a : Nat} {s s' : Symbol}, final.table.symbols[a]? = some s → start ≤ a → s' ∈ foreign → s'.name = s.name →
    base.Ids .scope s.scope s'.scope → s.overloadable = true ∧ s'.overloadable = true

namespace Scene

variable {S : Scene} {ρ : Pairing} {c c' : Context}

structure Knows (S : Scene) (ρ : Pairing) (c c' : Context) : Prop where
  clean : c'.diagnostics.entries = []
  sound : c.table.Sound
  sound' : c'.table.Sound
  start : S.start ≤ c.table.symbols.size
  symbols : ∀ {b : Nat} {s' : Symbol}, c'.table.symbols[b]? = some s' → s' ∈ S.foreign ∨ ∃ a, (.symbol, a, b) ∈ ρ
  foreign : ∀ s' ∈ S.foreign, ∃ j : Nat, s'.scope = j ∧ j < c'.table.scopes.size ∧ ∀ i, (.scope, i, j) ∈ ρ →
    (.scope, i, j) ∈ S.base

/-- The first run may go on to where it ends. -/
def world (S : Scene) : World where
  Knows := S.Knows
  Allows c := Onward c S.final
  stable := by
    intro ρ ρ1 c c' c1 c1' h htable htable' _ hdiagnostics' hρ
    refine ⟨hdiagnostics' ▸ h.clean, htable ▸ h.sound, htable' ▸ h.sound', htable ▸ h.start, fun {b s'} hb => ?_,
      fun s' hs' => ?_⟩
    · refine (h.symbols (htable' ▸ hb)).imp_right fun ⟨a, hab⟩ => ⟨a, (hρ (.inr rfl)).mpr hab⟩
    · obtain ⟨j, hj, hlt, hbase⟩ := h.foreign s' hs'
      exact ⟨j, hj, htable' ▸ hlt, fun i hi => hbase i ((hρ (.inl rfl)).mp hi)⟩

instance respects {x : AnalysisM α} [hx : Forward x] : S.world.Respects x :=
  ⟨fun hrun hfinal => (hx.related hrun).trans hfinal⟩

theorem free (hlinked : Linked ρ c c') (hknows : S.Knows ρ c c') {i j : ScopeId} (hij : ρ.Ids .scope i j)
    (hfree : c.table.Free i name overloadable) {a : Nat} {s : Symbol} (ha : S.final.table.symbols[a]? = some s)
    (hstart : S.start ≤ a) (hs : s.name = name ∧ s.overloadable = overloadable ∧ s.scope = i) :
    c'.table.Free j name overloadable := by
  obtain ⟨m, n, rfl, rfl, hmn⟩ := hij
  obtain ⟨rfl, rfl, hscope⟩ := hs
  refine ⟨⟨n, rfl, (hlinked.bound hmn).2⟩, fun {b s'} hb hscope' hname => ?_⟩
  rcases hknows.symbols hb with hforeign | ⟨a', hab⟩
  · -- a symbol of another statement
    obtain ⟨k, hk, -, hbase⟩ := hknows.foreign s' hforeign
    obtain rfl : k = n := Int.ofNat.inj (hk.symm.trans hscope')
    exact S.apart ha hstart hforeign hname ⟨m, k, hscope, hk, hbase m hmn⟩
  · -- a partner of a symbol that the first run has found to be overloadable
    obtain ⟨x, y, hx, hy, hxy⟩ := hlinked.alike hab
    obtain rfl : s' = y := Option.some.inj (hb.symm.trans hy)
    obtain ⟨m', n', hm', hn', hmn'⟩ := hxy.scope
    obtain rfl : n' = n := Int.ofNat.inj (hn'.symm.trans hscope')
    obtain rfl : m' = m := (hlinked.bijective hmn' hmn).mpr rfl
    obtain ⟨hover, hover'⟩ := hfree.symbols hx hm' (hxy.name.trans hname)
    exact ⟨hover, hxy.overloadable ▸ hover'⟩

end Scene

/-! ### Scopes and declarations -/

section

variable {S : Scene} {ρ : Pairing} {i j : ScopeId}

theorem newScope_sim (name : String) (kind : ScopeKind) (module : String) (hij : ρ.Ids .scope i j) :
    Sim S.world ρ (fun ρ => ρ.Ids .scope) (newScope name kind i module) (newScope name kind j module) := by
  intro c c' c1 id hlinked hknows hrun hfinal
  have honward := (newScope_forward _ _ _ _).related hrun
  cases hrun
  have hrun' : (newScope name kind j module).run c' =
      .ok (c'.table.scopes.size, { c' with table := (c'.table.addScope name kind j module).1 }) := rfl
  have honward' := (newScope_forward _ _ _ _).related hrun'
  refine ⟨insert (.scope, c.table.scopes.size, c'.table.scopes.size) ρ, _, _, hrun', ?_, ?_, ?_, _, _, rfl, rfl,
    Set.mem_insert _ _⟩
  · refine advances_insert (k := .scope) ?_ ?_ rfl rfl
    · rintro (_ | _ | _ | _) <;> simp [Context.next]
    · rintro (_ | _ | _ | _) <;> simp [Context.next, SymbolTable.addScope]
  · refine hlinked.insert (k := .scope) honward honward' ?_ ?_ ⟨_, _, Array.getElem?_push_size,
      Array.getElem?_push_size, .inr ?_⟩
    · simp [Context.next]
    · simp [Context.next, SymbolTable.addScope]
    · exact hij.mono (Set.subset_insert _ _)
  · refine ⟨hknows.clean, honward.sound hknows.sound, honward'.sound hknows.sound', hknows.start, fun {b s'} hb => ?_,
      fun s' hs' => ?_⟩
    · exact (hknows.symbols hb).imp_right fun ⟨a, hab⟩ => ⟨a, Set.mem_insert_of_mem _ hab⟩
    · obtain ⟨n, hn, hlt, hbase⟩ := hknows.foreign s' hs'
      refine ⟨n, hn, Nat.lt_of_lt_of_le hlt (honward'.next .scope), ?_⟩
      rintro m (hm | hm)
      · cases hm
        exact absurd hlt (Nat.lt_irrefl _)
      · exact hbase m hm

theorem declare_eq_ok {c1 : Context} {id : SymbolId} (h : (declare i name t overloadable).run c = .ok (id, c1)) :
    ∃ table, c.table.declare i name t overloadable = .ok (table, id) ∧
      c1 = { c with table := table } := by
  obtain ⟨a, c2, hget, h⟩ := run_bind_eq_ok.mp h
  cases hget
  obtain ⟨⟨table, new⟩, c3, hlift, h⟩ := run_bind_eq_ok.mp h
  obtain ⟨r, hdeclare, heq⟩ := run_lift_eq_ok.mp hlift
  cases heq
  cases h
  exact ⟨table, hdeclare, rfl⟩

theorem declare_sim (hij : ρ.Ids .scope i j) (name : String) {t' : Ty} (ht : t.Paired ρ t') (overloadable : Bool) :
    Sim S.world ρ (fun ρ => ρ.Ids .symbol) (declare i name t overloadable) (declare j name t' overloadable) := by
  intro c c' c1 id hlinked hknows hrun hfinal
  have honward := (declare_forward _ _ _ _).related hrun
  obtain ⟨table, hdeclare, rfl⟩ := declare_eq_ok hrun
  obtain ⟨rfl, n, sc, rfl, hsc, rfl⟩ := SymbolTable.eq_declared hdeclare
  have hnew : (c.table.declared n sc name t overloadable).symbols[c.table.symbols.size]? = some _ :=
    SymbolTable.getElem?_symbols_declared.trans (if_pos rfl)
  have hfree' := Scene.free hlinked hknows hij (SymbolTable.free_of_declare hknows.sound hdeclare) (hfinal.symbols hnew)
    hknows.start ⟨rfl, rfl, rfl⟩
  obtain ⟨n', sc', rfl, hsc', hdeclare'⟩ := SymbolTable.declare_of_free hknows.sound' hfree' t'
  have hrun' : (declare n' name t' overloadable).run c' =
      .ok (c'.table.symbols.size, { c' with table := c'.table.declared n' sc' name t' overloadable }) :=
    run_bind_eq_ok.mpr ⟨c', c', rfl, run_bind_eq_ok.mpr ⟨_, c', run_lift_eq_ok.mpr ⟨_, hdeclare', rfl⟩, rfl⟩⟩
  have honward' := (declare_forward _ _ _ _).related hrun'
  have hnew' : (c'.table.declared n' sc' name t' overloadable).symbols[c'.table.symbols.size]? = some _ :=
    SymbolTable.getElem?_symbols_declared.trans (if_pos rfl)
  refine ⟨insert (.symbol, c.table.symbols.size, c'.table.symbols.size) ρ, _, _, hrun', ?_, ?_, ?_, _, _, rfl, rfl,
    Set.mem_insert _ _⟩
  · refine advances_insert (k := .symbol) ?_ ?_ rfl rfl
    · rintro (_ | _ | _ | _) <;> simp [Context.next, SymbolTable.declared]
    · rintro (_ | _ | _ | _) <;> simp [Context.next, SymbolTable.declared]
  · refine hlinked.insert (k := .symbol) honward honward' ?_ ?_ ⟨_, _, hnew, hnew', rfl, ?_, rfl, ?_⟩
    · simp [Context.next, SymbolTable.declared]
    · simp [Context.next, SymbolTable.declared]
    · exact ht.mono (Set.subset_insert _ _)
    · exact hij.mono (Set.subset_insert _ _)
  · refine ⟨hknows.clean, honward.sound hknows.sound, honward'.sound hknows.sound',
      Nat.le_trans hknows.start (honward.next .symbol), fun {b s'} hb => ?_, fun s' hs' => ?_⟩
    · rcases SymbolTable.mem_symbols_declared hb with ⟨rfl, -⟩ | hb
      · exact .inr ⟨_, Set.mem_insert _ _⟩
      · exact (hknows.symbols hb).imp_right fun ⟨a, hab⟩ => ⟨a, Set.mem_insert_of_mem _ hab⟩
    · obtain ⟨m, hm, hlt, hbase⟩ := hknows.foreign s' hs'
      refine ⟨m, hm, Nat.lt_of_lt_of_le hlt (honward'.next .scope), ?_⟩
      rintro k (hk | hk)
      · cases hk
      · exact hbase k hk

/-- Both declarations have succeeded, with partners as results. -/
def Declared (ρ : Pairing) (a b : Option SymbolId) : Prop := ∃ x y, a = some x ∧ b = some y ∧ ρ.Ids .symbol x y

theorem declareOnce_sim (hij : ρ.Ids .scope i j) (token : Token) (name : String) {type' : AnalysisM Ty}
    (htype : Sim S.world ρ Ty.Paired type type') [hforward : Forward type] (overloadable : Bool) :
    Sim S.world ρ Declared (declareOnce i token name type overloadable)
    (declareOnce j token name type' overloadable) := by
  intro c c' c1 id hlinked hknows hrun hfinal
  obtain ⟨free, c2, hcheck, hrun⟩ := run_bind_eq_ok.mp hrun
  obtain ⟨a, c3, hget, hcheck⟩ := run_bind_eq_ok.mp hcheck
  cases hget
  obtain ⟨r, hfree, heq⟩ := run_lift_eq_ok.mp hcheck
  cases heq
  cases free with
  | false =>
    -- the problem would be there in the end
    obtain ⟨u, c3, hduplicate, hrun⟩ := run_bind_eq_ok.mp hrun
    cases hrun
    obtain ⟨b, c4, hget, hduplicate⟩ := run_bind_eq_ok.mp hduplicate
    obtain ⟨path, c5, hlift, hduplicate⟩ := run_bind_eq_ok.mp hduplicate
    cases hduplicate
    exact absurd (hfinal.problems S.clean) (Diagnostics.add_ne_empty _ _)
  | true =>
    have hdeclared : Sim S.world ρ Declared (do return some (← declare i name (← type) overloadable))
        (do return some (← declare j name (← type') overloadable)) :=
      .bind htype fun hρ ht => .bind (declare_sim (hij.mono hρ) name ht overloadable) fun _ hid =>
        .pure ⟨_, _, rfl, rfl, hid⟩
    -- the symbol that the first run declares
    obtain ⟨t, c3, ht, hrest⟩ := run_bind_eq_ok.mp hrun
    obtain ⟨new, c4, hdeclare, hdone⟩ := run_bind_eq_ok.mp hrest
    cases hdone
    obtain ⟨table, htable, rfl⟩ := declare_eq_ok hdeclare
    obtain ⟨rfl, n, sc, rfl, hsc, rfl⟩ := SymbolTable.eq_declared htable
    have hnew : (c3.table.declared n sc name t overloadable).symbols[c3.table.symbols.size]? = some _ :=
      SymbolTable.getElem?_symbols_declared.trans (if_pos rfl)
    have hfree' := Scene.free hlinked hknows hij ((SymbolTable.canDeclare_eq_ok hknows.sound).mp hfree)
      (hfinal.symbols hnew) (Nat.le_trans hknows.start ((hforward.related ht).next .symbol)) ⟨rfl, rfl, rfl⟩
    have haccept : (canDeclare j name overloadable).run c' = .ok (true, c') := run_bind_eq_ok.mpr
      ⟨c', c', rfl, run_lift_eq_ok.mpr ⟨true, (SymbolTable.canDeclare_eq_ok hknows.sound').mpr hfree', rfl⟩⟩
    obtain ⟨ρ1, b, c1', hfollows⟩ := hdeclared hlinked hknows hrun hfinal
    exact ⟨ρ1, b, c1', run_bind_eq_ok.mpr ⟨true, c', haccept, hfollows.run⟩, hfollows.advances, hfollows.linked,
      hfollows.knows, hfollows.result⟩

theorem parameterFields_sim (params : List (Option SignElem)) : Sim S.world ρ (fun ρ => Forall₂ (TupleField.Paired ρ))
    (params.mapM fun
      | some e => do return { label := e.label, type := ← fresh : TupleField }
      | none => throw .missing : AnalysisM (List TupleField))
    (params.mapM fun
      | some e => do return { label := e.label, type := ← fresh : TupleField }
      | none => throw .missing : AnalysisM (List TupleField)) := by
  induction params generalizing ρ with
  | nil => exact .pure .nil
  | cons p params ih =>
    rw [mapM_cons]
    have := parameterFields_forward params
    refine .bind (R := TupleField.Paired) ?_ fun _ hfield => .bind ih fun hρ hfields =>
      .pure (.cons (hfield.mono hρ) hfields)
    cases p with
    | none => exact .throw _
    | some e => exact .bind fresh_sim fun _ ht => .pure ⟨rfl, ht⟩

/-- The functions were declared alike. -/
structure Func.Declared (ρ : Pairing) (f f' : Func) : Prop where
  name : f.name = f'.name
  sign : f.sign = f'.sign
  token : f.mark.token = f'.mark.token
  type : f.mark.type.Paired ρ f'.mark.type
  symbol : f.name ≠ "" → ρ.Ids .symbol f.symbol f'.symbol

theorem Func.Declared.mono {ρ1 : Pairing} (h : f.Declared ρ f') (hρ : ρ ⊆ ρ1) : f.Declared ρ1 f' :=
  ⟨h.name, h.sign, h.token, h.type.mono hρ, fun hname => (h.symbol hname).mono hρ⟩

theorem Func.Declared.parameters (h : f.Declared ρ f') : f.parameters = f'.parameters := by
  unfold Func.parameters
  rw [h.sign]

theorem Func.declare_sim (hij : ρ.Ids .scope i j) (f : Func) :
    Sim S.world ρ Func.Declared (f.declare i) (f.declare j) := by
  refine .bind (parameterFields_sim _) fun hρ hfields => .bind fresh_sim fun hρ' hcodomain => ?_
  refine .bind (newFunction_sim (hfields.imp fun _ _ h => h.mono hρ') hcodomain) fun hρ'' htype => ?_
  dsimp only
  split
  · next hname => exact .pure ⟨rfl, rfl, rfl, htype, fun h => absurd hname h⟩
  · refine .bind (declareOnce_sim (((hij.mono hρ).mono hρ').mono hρ'') _ _ (.pure htype) true) fun hsub hdeclared =>
      .pure ?_
    obtain ⟨x, y, rfl, rfl, hxy⟩ := hdeclared
    exact ⟨rfl, rfl, rfl, htype.mono hsub, fun _ => hxy⟩

theorem TypeAlias.declare_sim (hij : ρ.Ids .scope i j) (a : TypeAlias) :
    Sim S.world ρ (fun ρ b b' => ∃ x y, b = { a with scope := i, symbol := x } ∧
    b' = { a with scope := j, symbol := y } ∧ ρ.Ids .symbol x y) (a.declare i) (a.declare j) := by
  refine .bind (declareOnce_sim hij _ _ (.bind fresh_sim fun _ ht => newType_sim (.metatype ht)) false)
    fun _ hdeclared => .pure ?_
  obtain ⟨x, y, rfl, rfl, hxy⟩ := hdeclared
  exact ⟨x, y, rfl, rfl, hxy⟩

/-! ### Parameters -/

theorem Func.parameterTypes_sim (h : f.mark.type.Paired ρ f'.mark.type) :
    Sim S.world ρ (fun ρ => Forall₂ (Ty.Paired ρ)) f.parameterTypes f'.parameterTypes := by
  refine .get fun {c c'} hlinked _ => ?_
  have hfunction := function?_paired hlinked.graph h
  dsimp only
  revert hfunction
  generalize c.graph.function? f.mark.type = x, c'.graph.function? f'.mark.type = y
  intro hfunction
  rcases hfunction with @⟨⟨d, codomain⟩, ⟨d', codomain'⟩, hdomain, -⟩ | _
  · rcases hdomain with ⟨hdomain⟩ | _
    · have htuple := tuple?_paired hlinked.graph (.node hdomain)
      dsimp only
      revert htuple
      generalize c.graph.tuple? _ = x, c'.graph.tuple? _ = y
      rintro (@⟨⟨label, fields⟩, ⟨label', fields'⟩, -, hfields⟩ | _)
      · refine .pure ?_
        rw [forall₂_map_left_iff, forall₂_map_right_iff]
        exact hfields.imp fun _ _ h => h.type
      · exact .throw _
    · exact .throw _
  · exact .throw _

theorem declareParameters_sim : ∀ (params : List (Option SignElem)) {ρ : Pairing} {ts ts' : List Ty}, ρ.Ids .scope i j →
    Forall₂ (Ty.Paired ρ) ts ts' →
    Sim S.world ρ (fun _ _ _ => True) (declareParameters i (params.zip ts)) (declareParameters j (params.zip ts'))
  | [], _, _, _, _, _ => .pure trivial
  | _ :: _, _, _, _, _, .nil => by
    rw [zip_nil_right]
    exact .pure trivial
  | none :: _, _, _, _, _, .cons _ _ => .throw _
  | some e :: params, ρ, _, _, hij, .cons (a := t) (b := t') ht hts => by
    rw [zip_cons_cons, zip_cons_cons]
    unfold declareParameters
    dsimp only
    generalize (if e.name = "" then e.label else e.name) = name
    split
    · exact declareParameters_sim params hij hts
    · refine @Sim.bind _ _ _ _ _ _ _ _ _ _ _ _ (declareOnce_sim hij _ _ (.pure ht) false)
        (fun id => ?_) fun hρ hdeclared => ?_
      · cases id <;> infer_instance
      · obtain ⟨x, y, rfl, rfl, -⟩ := hdeclared
        exact .bind (declareParameters_sim params (hij.mono hρ) (hts.imp fun _ _ h => h.mono hρ)) fun _ _ =>
          .pure trivial

end

end TypeInference
