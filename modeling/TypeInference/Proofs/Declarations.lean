import TypeInference.Proofs.Generation
import TypeInference.Proofs.Passage

/-! # What declarations keep

Declaring keeps every rule for types (`Module.bind_keeps`): a new symbol has a type of new variables, or one that was
there. The prelude has no variables at all, so a module is typed with all of its variables in use (`inUse_of_bind`). -/

namespace TypeInference

open AnalysisM
open List

variable {c c' : Context} {scope : ScopeId} {overloadable : Bool} {env : Enclosure} {r : Expr × Context} {f : Func}
  {op : Ident} {given : List Ty} {sign : Option FuncSign} {kind : ScopeKind} {name label : String} {new id : SymbolId}
  {t t' table : SymbolTable} {token : Token} {type : Ty} {g : TypeGraph}

/-! ### Symbols -/

theorem SymbolTable.symbol_of_declare {s : Symbol} (h : t.declare scope name type overloadable = .ok (t', new))
    (hs : t'.symbol id = .ok s) : t.symbol id = .ok s ∨ s.type = type := by
  obtain ⟨old, -, h⟩ := bind_eq_ok.mp h
  have hpushed : t'.symbols = t.symbols.push
      { id := t.symbols.size, name := name, type := type, overloadable := overloadable, scope := scope } := by
    dsimp only at h
    split at h
    · split at h
      · cases h
      · obtain ⟨all, -, h⟩ := bind_eq_ok.mp h
        split at h
        · cases h
        · cases h
          rfl
    · cases h
      rfl
  unfold SymbolTable.symbol SymbolTable.element at hs ⊢
  rw [hpushed] at hs
  split at hs
  · cases hs
  · next hid =>
    rw [if_neg hid]
    rw [Array.getElem?_push] at hs
    split at hs
    · next x hx =>
      split at hx
      · cases hs
        cases hx
        exact .inr rfl
      · rw [hx]
        exact .inl hs
    · cases hs

theorem keeps_table (h : ∀ {id : SymbolId} {s : Symbol}, table.symbol id = .ok s → c.table.symbol id = .ok s ∨
    s.type ∈ given) : Keeps c { c with table := table } given [] := by
  refine ⟨Nat.le_refl _, fun q hq hgiven => ⟨⟨hq.base, hq.parts, ?_, hq.constraints⟩, by simp⟩⟩
  intro id s hs
  rcases h hs with hs | hs
  · exact hq.symbols hs
  · exact hgiven _ hs

theorem newScope_keeps {module : String} {parent id : ScopeId}
    (h : (newScope name kind parent module).run c = .ok (id, c')) : Keeps c c' [] [] := by
  cases h
  exact keeps_table fun hs => .inl hs

theorem declare_keeps (h : (declare scope name type overloadable).run c = .ok (id, c')) : Keeps c c' [type] [] := by
  obtain ⟨a, c1, hget, h⟩ := run_bind_eq_ok.mp h
  cases hget
  obtain ⟨⟨table, new⟩, c2, hlift, h⟩ := run_bind_eq_ok.mp h
  obtain ⟨r, hdeclare, heq⟩ := run_lift_eq_ok.mp hlift
  cases heq
  cases h
  exact keeps_table fun hs => (SymbolTable.symbol_of_declare hdeclare hs).imp_right fun hs => by simp [hs]

theorem duplicate_keeps {u : Unit} (h : (duplicate scope token name).run c = .ok (u, c')) : Keeps c c' [] [] := by
  obtain ⟨a, c1, hget, h⟩ := run_bind_eq_ok.mp h
  cases hget
  obtain ⟨path, c2, hlift, h⟩ := run_bind_eq_ok.mp h
  obtain ⟨r, -, heq⟩ := run_lift_eq_ok.mp hlift
  cases heq
  exact (diagnose_builds h).keeps

theorem declareOnce_keeps {type : AnalysisM Ty} {id : Option SymbolId}
    (htype : ∀ {t : Ty} {c c' : Context}, type.run c = .ok (t, c') → Keeps c c' given [t])
    (h : (declareOnce scope token name type overloadable).run c = .ok (id, c')) : Keeps c c' given [] := by
  obtain ⟨free, c1, hfree, h⟩ := run_bind_eq_ok.mp h
  obtain ⟨a, c2, hget, hfree⟩ := run_bind_eq_ok.mp hfree
  cases hget
  obtain ⟨r, -, heq⟩ := run_lift_eq_ok.mp hfree
  cases heq
  cases free with
  | true =>
    obtain ⟨t, c3, ht, h⟩ := run_bind_eq_ok.mp h
    obtain ⟨new, c4, hdeclare, h⟩ := run_bind_eq_ok.mp h
    cases h
    exact ((htype ht).trans (declare_keeps hdeclare) (by simp)).weaken (fun t ht => .inl ht) (by simp)
  | false =>
    obtain ⟨u, c3, hduplicate, h⟩ := run_bind_eq_ok.mp h
    cases h
    exact (duplicate_keeps hduplicate).weaken (by simp) (by simp)

/-! ### Functions and type aliases -/

theorem parameterFields_keeps : ∀ {params : List (Option SignElem)} {fields : List TupleField} {c c' : Context},
    (params.mapM fun
      | some e => do return { label := e.label, type := ← fresh : TupleField }
      | none => throw .missing : AnalysisM (List TupleField)).run c = .ok (fields, c') →
      Keeps c c' [] (fields.map TupleField.type)
  | [], fields, c, c', h => by
    cases h
    exact .refl c
  | p :: params, fields, c, c', h => by
    rw [mapM_cons] at h
    obtain ⟨f, c1, hf, h⟩ := run_bind_eq_ok.mp h
    obtain ⟨fs, c2, hfs, h⟩ := run_bind_eq_ok.mp h
    cases h
    cases p with
    | none => cases hf
    | some e =>
      obtain ⟨t, c3, hfresh, hf⟩ := run_bind_eq_ok.mp hf
      obtain ⟨rfl, rfl⟩ := fresh_eq_ok hfresh
      cases hf
      exact (builds_fresh c).keeps.trans (parameterFields_keeps hfs) (by simp)

theorem Func.declare_keeps {f' : Func} (h : (f.declare scope).run c = .ok (f', c')) : Keeps c c' [] [] := by
  obtain ⟨fields, c1, hfields, h⟩ := run_bind_eq_ok.mp h
  obtain ⟨codomain, c2, hfresh, h⟩ := run_bind_eq_ok.mp h
  obtain ⟨rfl, rfl⟩ := fresh_eq_ok hfresh
  obtain ⟨type, c3, hfunction, h⟩ := run_bind_eq_ok.mp h
  obtain ⟨hbuilds, i, d, rfl, -, -⟩ := newFunction_builds hfunction
  have hvars := (parameterFields_keeps hfields).trans (builds_fresh c1).keeps (by simp)
  have htyped : Keeps c c3 [] [] := (hvars.trans hbuilds.keeps (by simp; grind)).weaken (by simp) (by simp)
  dsimp only at h
  split at h
  · cases h
    exact htyped
  · obtain ⟨id, c4, hdeclare, h⟩ := run_bind_eq_ok.mp h
    cases h
    have hsymbol : Keeps c3 c' [] [] := by
      refine declareOnce_keeps (fun ht => ?_) hdeclare
      cases ht
      exact (Keeps.refl _).weaken (by simp) (by simp)
    exact htyped.trans hsymbol (by simp)

theorem TypeAlias.declare_keeps {a a' : TypeAlias} (h : (a.declare scope).run c = .ok (a', c')) : Keeps c c' [] [] := by
  obtain ⟨id, c1, hdeclare, h⟩ := run_bind_eq_ok.mp h
  cases h
  refine declareOnce_keeps (fun ht => ?_) hdeclare
  obtain ⟨u, c2, hfresh, ht⟩ := run_bind_eq_ok.mp ht
  obtain ⟨rfl, rfl⟩ := fresh_eq_ok hfresh
  obtain ⟨hbuilds, i, rfl, -⟩ := newType_builds ht
  exact ((builds_fresh _).keeps.trans hbuilds.keeps (by simp [Composite.parts])).weaken (by simp) (by simp)

theorem Func.parameterTypes_keeps {ts : List Ty} (h : f.parameterTypes.run c = .ok (ts, c')) :
    c' = c ∧ Keeps c c [] ts := by
  obtain ⟨a, c1, hget, h⟩ := run_bind_eq_ok.mp h
  cases hget
  dsimp only at h
  split at h
  · split at h
    · next htuple =>
      cases h
      obtain ⟨i, -, hi⟩ := tuple?_eq_some.mp htuple
      exact ⟨rfl, Nat.le_refl _, fun q hq _ => ⟨hq, hq.parts hi⟩⟩
    · cases h
  · cases h

theorem declareParameters_keeps : ∀ {ps : List (Option SignElem × Ty)} {ids : List SymbolId} {c c' : Context},
    (declareParameters scope ps).run c = .ok (ids, c') → Keeps c c' (ps.map Prod.snd) []
  | [], ids, c, c', h => by
    cases h
    exact (Keeps.refl c).weaken (by simp) (by simp)
  | (none, type) :: ps, ids, c, c', h => by cases h
  | (some e, type) :: ps, ids, c, c', h => by
    have hrest : ∀ {ids : List SymbolId} {c c' : Context}, (declareParameters scope ps).run c = .ok (ids, c') →
        Keeps c c' (type :: ps.map Prod.snd) [] :=
      fun h => (declareParameters_keeps h).weaken (fun t ht => .inl (mem_cons_of_mem _ ht)) (by simp)
    unfold declareParameters at h
    dsimp only at h
    generalize (if e.name = "" then e.label else e.name) = name at h
    split at h
    · exact hrest h
    · obtain ⟨id, c1, hdeclare, h⟩ := run_bind_eq_ok.mp h
      have hfirst : Keeps c c1 (type :: ps.map Prod.snd) [] := by
        refine declareOnce_keeps (fun ht => ?_) hdeclare
        cases ht
        exact (Keeps.refl _).weaken (by simp) (by simp)
      cases id with
      | some id =>
        obtain ⟨ids', c2, hids, h⟩ := run_bind_eq_ok.mp h
        cases h
        exact hfirst.trans (hrest hids) (fun t ht => .inr (.inl ht))
      | none => exact hfirst.trans (hrest h) (fun t ht => .inr (.inl ht))

/-! ### Modules -/

instance : IsPreorder Context (Keeps · · [] []) where
  refl := .refl
  trans _ _ _ h h' := h.trans h' (by simp)

instance : Declares (Keeps · · [] []) where
  scope _ _ _ _ := ⟨newScope_keeps⟩
  func _ _ := ⟨Func.declare_keeps⟩
  params f scope := ⟨fun h => by
    obtain ⟨types, c1, htypes, hparams⟩ := run_bind_eq_ok.mp h
    obtain ⟨rfl, hread⟩ := Func.parameterTypes_keeps htypes
    refine (hread.trans (declareParameters_keeps hparams) fun t ht => ?_).weaken (by simp) (by simp)
    obtain ⟨p, hp, rfl⟩ := mem_map.mp ht
    exact .inl (of_mem_zip hp).2⟩
  letBinding _ _ _ _ := ⟨fun h => by
    refine declareOnce_keeps (fun ht => ?_) h
    obtain ⟨rfl, rfl⟩ := fresh_eq_ok ht
    exact (builds_fresh _).keeps⟩
  typeAlias _ _ := ⟨TypeAlias.declare_keeps⟩

/-- **Declaration.** Declaring the names of a module keeps every rule for types. -/
theorem Module.bind_keeps {m : Module} {r : Module × Enclosure} (h : m.bind.run c = .ok (r, c')) : Keeps c c' [] [] :=
  (m.bind_carries (R := (Keeps · · [] []))).related h

/-! ### The prelude -/

/-- No composite type has a variable inside. -/
def TypeGraph.VariableFree (g : TypeGraph) : Prop := ∀ i x, g.get? i = some x → ∀ t ∈ x.parts, t.Fixed

def SymbolTable.VariableFree (table : SymbolTable) : Prop := ∀ id s, table.symbol id = .ok s → s.type.Fixed

theorem TypeGraph.VariableFree.add {x : Composite} (hg : g.VariableFree) (hx : ∀ t ∈ x.parts, t.Fixed) :
    (g.add x).1.VariableFree := by
  intro i y hy
  rw [TypeGraph.get?_add] at hy
  split at hy
  · cases hy
    exact hx
  · exact hg i y hy

theorem SymbolTable.VariableFree.declare {i : NodeId} (ht : t.VariableFree)
    (h : t.declare scope name (.node i) overloadable = .ok (t', new)) : t'.VariableFree := by
  intro id s hs
  rcases SymbolTable.symbol_of_declare h hs with hs | hs
  · exact ht id s hs
  · rw [hs]
    exact Ty.fixed_node i

theorem foldlM_invariant {α β : Type} {f : β → α → Except Fault β} {P : β → Prop} {xs : List α}
    (hf : ∀ x ∈ xs, ∀ b b', P b → f b x = .ok b' → P b') {b b' : β} (hb : P b) (h : xs.foldlM f b = .ok b') : P b' := by
  induction xs generalizing b with
  | nil =>
    cases h
    exact hb
  | cons x xs ih =>
    obtain ⟨b1, hfirst, h⟩ := bind_eq_ok.mp h
    obtain ⟨hx, hxs⟩ := forall_mem_cons.mp hf
    exact ih hxs (hx b b1 hb hfirst) h

theorem Prelude.overloads_fixed : ∀ o ∈ Prelude.overloads, (∀ t ∈ o.2.1, t.Fixed) ∧ o.2.2.Fixed := by
  simp [Prelude.overloads, Prelude.binary, Prelude.numeric, Prelude.scalars, Ty.int, Ty.float, Ty.bool, Ty.string]

theorem Prelude.declare_variableFree {g' : TypeGraph} (hg : g.VariableFree)
    (h : Prelude.declare g {} = .ok (g', table, scope)) : g'.VariableFree ∧ table.VariableFree := by
  obtain ⟨⟨g1, t1⟩, hscalars, h⟩ := bind_eq_ok.mp h
  obtain ⟨⟨g2, t2⟩, hoverloads, h⟩ := bind_eq_ok.mp h
  cases h
  have hempty : SymbolTable.VariableFree {} := fun id s hs => by
    unfold SymbolTable.symbol SymbolTable.element at hs
    split at hs
    · cases hs
    · simp at hs
  have h1 : g1.VariableFree ∧ t1.VariableFree := by
    refine foldlM_invariant (P := fun p => p.1.VariableFree ∧ p.2.VariableFree) ?_ ⟨hg, ?_⟩ hscalars
    · rintro s - ⟨g, t⟩ p' ⟨hg, ht⟩ hstep
      obtain ⟨⟨t', id⟩, hdeclare, heq⟩ := bind_eq_ok.mp hstep
      cases heq
      exact ⟨hg.add (by simp [Composite.parts]), ht.declare hdeclare⟩
    · exact hempty
  refine foldlM_invariant (P := fun p => p.1.VariableFree ∧ p.2.VariableFree) ?_ h1 hoverloads
  rintro ⟨name, operands, result⟩ hmem ⟨g, t⟩ p' ⟨hg, ht⟩ hstep
  obtain ⟨⟨t', id⟩, hdeclare, heq⟩ := bind_eq_ok.mp hstep
  cases heq
  obtain ⟨hoperands, hresult⟩ := Prelude.overloads_fixed _ hmem
  refine ⟨(hg.add ?_).add ?_, ht.declare hdeclare⟩
  · simpa [Composite.parts] using hoperands
  · simpa [Composite.parts] using hresult

/-- **Variables in use.** When a module has been declared, all variables are in use, if the types before had none. -/
theorem inUse_of_bind {c0 : Context} {m : Module} {r : Module × Enclosure} {logs : Bool} (hg : g.VariableFree)
    (hstart : Context.initial g = .ok c0) (h : m.bind.run { c0 with logs := logs } = .ok (r, c)) :
    TypeRule.inUse.Holds c := by
  obtain ⟨⟨g', table, scope⟩, hprelude, hstart⟩ := bind_eq_ok.mp hstart
  cases hstart
  obtain ⟨hg', htable⟩ := Prelude.declare_variableFree hg hprelude
  refine ((Module.bind_keeps h).rule _ ⟨Nat.le_refl _, ?_, ?_, ?_⟩ (by simp)).1
  · exact fun hi t ht => TypeRule.inUse.fixed (hg' _ _ hi t ht)
  · exact fun hs => TypeRule.inUse.fixed (htable _ _ hs)
  · intro d t hd
    cases hd

end TypeInference
