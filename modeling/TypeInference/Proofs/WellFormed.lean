import TypeInference.Proofs.Modules
import TypeInference.Proofs.Problems

/-! # Well-formed states

In a well-formed state nothing is absent, and everything that has a number has one that was given before. From such a
state the parts of an analysis come to a result and to a well-formed state again, if they are asked about things that
are there (`Succeeds`). -/

namespace TypeInference

open AnalysisM
open List

variable {overloadable : Bool} {x : Composite} {d : Constraint} {c1 : Context} {ts : List Ty} {i parent : ScopeId}
  {name : String} {id : SymbolId} {t : Ty} {g : TypeGraph}

/-! ### What is there -/

namespace Context

variable {c c1 : Context} {t : Ty}

/-- The type is there: not absent, and its number is one that was given. -/
def Has (c : Context) : Ty → Prop
  | .absent => False
  | .scalar _ | .error => True
  | .var v => 0 ≤ v ∧ v < c.vars
  | .node i => i < c.graph.size

def HasScope (c : Context) (i : ScopeId) : Prop := ∃ n : Nat, i = n ∧ n < c.table.scopes.size

def HasSymbol (c : Context) (id : SymbolId) : Prop := ∃ n : Nat, id = n ∧ n < c.table.symbols.size

/-- The number is that of a symbol with this type. -/
def Declares (c : Context) (id : SymbolId) (t : Ty) : Prop := ∃ s, c.table.symbol id = .ok s ∧ s.type = t

/-- A name is reported as undefined at the position. -/
def Reports (c : Context) (token : Token) : Prop := c.diagnostics.Reports .undefinedSymbol token

theorem has_fresh (c : Context) : Has { c with vars := c.vars + 1 } (.var c.vars) := by
  unfold Has
  dsimp only
  omega

theorem has_node {i : NodeId} (h : c.graph.get? i = some x) : c.Has (.node i) := lt_size_of_get? h

theorem Has.ne_absent (h : c.Has t) : t ≠ .absent := by
  rintro rfl
  exact h

theorem Has.below (h : c.Has t) : t.Below c.graph.size := by
  cases t with
  | node i => exact h
  | _ => trivial

end Context

/-- Nothing is lost from `c` to `c1`, no report and no constraint either. -/
structure Later (c c1 : Context) : Prop extends Onward c c1 where
  reports : ∀ {token : Token}, c.Reports token → c1.Reports token
  constraints : ∀ {d : Constraint}, d ∈ c.constraints → d ∈ c1.constraints

namespace Later

variable {c c1 c2 : Context}

theorem refl (c : Context) : Later c c := ⟨.refl c, id, id⟩

theorem trans (h : Later c c1) (h' : Later c1 c2) : Later c c2 :=
  ⟨h.toOnward.trans h'.toOnward, fun hr => h'.reports (h.reports hr), fun hd => h'.constraints (h.constraints hd)⟩

theorem has (h : Later c c1) (ht : c.Has t) : c1.Has t := by
  cases t with
  | absent => exact ht
  | scalar | error => trivial
  | var v =>
    have hvars : c.vars ≤ c1.vars := h.next .var
    exact ⟨ht.1, by have := ht.2; omega⟩
  | node i => exact Nat.lt_of_lt_of_le ht (h.next .node)

theorem hasScope (h : Later c c1) : c.HasScope i → c1.HasScope i := by
  rintro ⟨n, rfl, hn⟩
  exact ⟨n, rfl, Nat.lt_of_lt_of_le hn (h.next .scope)⟩

theorem hasSymbol (h : Later c c1) : c.HasSymbol id → c1.HasSymbol id := by
  rintro ⟨n, rfl, hn⟩
  exact ⟨n, rfl, Nat.lt_of_lt_of_le hn (h.next .symbol)⟩

theorem declares (h : Later c c1) : c.Declares id t → c1.Declares id t := by
  rintro ⟨s, hs, ht⟩
  obtain ⟨a, rfl, ha⟩ := SymbolTable.symbol_eq_ok.mp hs
  exact ⟨s, SymbolTable.symbol_eq_ok.mpr ⟨a, rfl, h.symbols ha⟩, ht⟩

end Later

/-! ### Well-formed states -/

/-- Everything that the state refers to is there. -/
structure Context.WellFormed (c : Context) : Prop where
  parts : ∀ {i : NodeId} {x : Composite}, c.graph.get? i = some x → ∀ t ∈ x.parts, c.Has t
  domains : ∀ {i : NodeId} {d : Option NodeId} {u : Ty}, c.graph.get? i = some (.function d u) → ∃ k, d = some k ∧
    k < c.graph.size
  symbols : ∀ {a : Nat} {s : Symbol}, c.table.symbols[a]? = some s → c.Has s.type
  parents : ∀ {a : Nat} {s : Scope}, c.table.scopes[a]? = some s → s.parent = noScope ∨ ∃ n : Nat, s.parent = n ∧ n < a
  sound : c.table.Sound
  constraints : ∀ d ∈ c.constraints, ∀ t, d.Mentions t → c.Has t
  known : ∀ d ∈ c.constraints, d.Known
  problems : c.diagnostics.Keyed

namespace Context.WellFormed

variable {c : Context}

theorem complete (h : c.WellFormed) : c.graph.Complete := by
  intro i u hi
  obtain ⟨k, hk, -⟩ := h.domains hi
  cases hk

theorem closed (h : c.WellFormed) : c.graph.Closed := by
  refine fun i x hi => ⟨fun t ht => (h.parts hi t ht).below, ?_⟩
  rintro d u rfl
  obtain ⟨k, hk, hlt⟩ := h.domains hi
  cases hk
  exact hlt

theorem fresh (h : c.WellFormed) : WellFormed { c with vars := c.vars + 1 } := by
  have hlater : Later c { c with vars := c.vars + 1 } := ⟨onward_vars c 1, id, id⟩
  exact ⟨fun hi t ht => hlater.has (h.parts hi t ht), h.domains, fun hs => hlater.has (h.symbols hs), h.parents,
    h.sound, fun d hd t ht => hlater.has (h.constraints d hd t ht), h.known, h.problems⟩

theorem add (h : c.WellFormed) (hparts : ∀ t ∈ x.parts, c.Has t)
    (hdomain : ∀ d u, x = .function d u → ∃ k, d = some k ∧ k < c.graph.size) :
    WellFormed { c with graph := (c.graph.add x).1 } := by
  have hlater : Later c { c with graph := (c.graph.add x).1 } := ⟨onward_add c x, id, id⟩
  refine ⟨fun {i y} hi => ?_, fun {i d u} hi => ?_, fun hs => hlater.has (h.symbols hs), h.parents, h.sound,
    fun d hd t ht => hlater.has (h.constraints d hd t ht), h.known, h.problems⟩
  · rw [TypeGraph.get?_add] at hi
    split at hi
    · cases hi
      exact fun t ht => hlater.has (hparts t ht)
    · exact fun t ht => hlater.has (h.parts hi t ht)
  · have hk : ∃ k, d = some k ∧ k < c.graph.size := by
      rw [TypeGraph.get?_add] at hi
      split at hi
      · exact hdomain d u (Option.some.inj hi)
      · exact h.domains hi
    exact hk.imp fun k => And.imp_right fun hlt => Nat.lt_of_lt_of_le hlt (hlater.next .node)

theorem require (h : c.WellFormed) (hknown : d.Known) (hd : ∀ t, d.Mentions t → c.Has t) :
    WellFormed { c with constraints := c.constraints ++ [d] } :=
  ⟨h.parts, h.domains, h.symbols, h.parents, h.sound,
    forall_mem_append.mpr ⟨h.constraints, forall_mem_singleton.mpr hd⟩,
    forall_mem_append.mpr ⟨h.known, forall_mem_singleton.mpr hknown⟩, h.problems⟩

theorem diagnose (h : c.WellFormed) {d : Diagnostic} (hd : d.code ∈ Code.known) :
    WellFormed { c with diagnostics := c.diagnostics.add d } :=
  ⟨h.parts, h.domains, h.symbols, h.parents, h.sound, h.constraints, h.known, h.problems.add hd⟩

theorem addScope (h : c.WellFormed) (name : String) (kind : ScopeKind) (module : String)
    (hparent : parent = noScope ∨ c.HasScope parent) :
    WellFormed { c with table := (c.table.addScope name kind parent module).1 } := by
  refine ⟨h.parts, h.domains, h.symbols, fun {a s} hs => ?_, h.sound.addScope _ _ _ _, h.constraints,
    h.known, h.problems⟩
  replace hs := Array.getElem?_push.symm.trans hs
  split at hs
  · next hlast =>
    cases hs
    exact hparent.imp_right fun ⟨n, hn, hlt⟩ => ⟨n, hn, hlast ▸ hlt⟩
  · exact h.parents hs

theorem declared (h : c.WellFormed) {n : Nat} {sc : Scope} (ht : c.Has t) (hsc : c.table.scopes[n]? = some sc)
    (hfree : c.table.Free n name overloadable) :
    WellFormed { c with table := c.table.declared n sc name t overloadable } := by
  refine ⟨h.parts, h.domains, fun {a s} hs => ?_, fun {a s} hs => ?_, h.sound.declared hfree hsc, h.constraints,
    h.known, h.problems⟩
  · rcases SymbolTable.mem_symbols_declared hs with ⟨-, rfl⟩ | hs
    · exact ht
    · exact h.symbols hs
  · dsimp only at hs
    rw [SymbolTable.getElem?_scopes_declared hsc] at hs
    split at hs
    · next hna =>
      cases hs
      have hparent : sc.parent = noScope ∨ ∃ k : Nat, sc.parent = k ∧ k < n := h.parents hsc
      exact hna ▸ hparent
    · exact h.parents hs

theorem nested (h : c.WellFormed) : c.table.Nested := ⟨h.parents⟩

theorem chain_gives (h : c.WellFormed) (hi : c.HasScope i) :
    Gives (fun scopes => ∀ s ∈ scopes, ∃ k : Nat, c.table.scopes[k]? = some s) (c.table.chain i) := by
  obtain ⟨n, rfl, hn⟩ := hi
  exact h.nested.chain_gives hn

theorem lookup_gives (h : c.WellFormed) (hi : c.HasScope i) (name : String) :
    Gives (fun ids => ∀ id ∈ ids, c.HasSymbol id) (c.table.lookup i name) := by
  obtain ⟨scopes, hchain, hscopes⟩ := h.chain_gives hi
  refine ⟨_, SymbolTable.lookup_of_chain hchain, fun id hid => ?_⟩
  obtain ⟨s, hs, hmem⟩ := SymbolTable.mem_innermostSymbols hid
  obtain ⟨k, hk⟩ := hscopes s hs
  obtain ⟨a, s', rfl, ha, -, -⟩ := (h.sound.listed hk name id).mp hmem
  exact ⟨a, rfl, (Array.getElem?_eq_some_iff.mp ha).1⟩

theorem canDeclare_gives (h : c.WellFormed) (hi : c.HasScope i) (name : String) (overloadable : Bool) :
    Gives (fun free => free = true → c.table.Free i name overloadable) (c.table.canDeclare i name overloadable) := by
  suffices hany : Gives (fun _ => True) (c.table.canDeclare i name overloadable) by
    obtain ⟨free, hfree, -⟩ := hany
    exact ⟨free, hfree, fun htrue => (SymbolTable.canDeclare_eq_ok h.sound).mp (htrue ▸ hfree)⟩
  obtain ⟨n, rfl, hn⟩ := hi
  obtain ⟨s, hs⟩ : ∃ s, c.table.scopes[n]? = some s := ⟨_, Array.getElem?_eq_getElem hn⟩
  have hlocal : c.table.lookupLocal n name = .ok (s.symbolsOf name) :=
    bind_eq_ok.mpr ⟨s, SymbolTable.scope_eq_ok.mpr ⟨n, rfl, hs⟩, rfl⟩
  unfold SymbolTable.canDeclare
  rw [hlocal, ok_bind]
  split
  · exact .ok trivial
  · split
    · exact .ok trivial
    · refine Gives.allM fun id hid => ?_
      obtain ⟨a, s', rfl, ha, -, -⟩ := (h.sound.listed hs name id).mp hid
      rw [SymbolTable.symbol_eq_ok.mpr ⟨a, rfl, ha⟩]
      exact .ok trivial

theorem distinctFrom_gives (h : c.WellFormed) : ∀ {ts known : List Ty}, (∀ t ∈ ts, c.Has t) → (∀ t ∈ known, c.Has t) →
    Gives (fun us => ∀ t ∈ us, c.Has t) (c.graph.distinctFrom known ts)
  | [], known, _, hknown => .ok hknown
  | t :: ts, known, hts, hknown => by
    obtain ⟨ht, hts⟩ := forall_mem_cons.mp hts
    have hany : Gives (fun _ => True) (known.anyM (c.graph.equal t)) := by
      refine Gives.anyM fun u hu => ?_
      obtain ⟨b, hb⟩ := equal_isOk h.closed h.complete ht.below (hknown u hu).below
      exact ⟨b, hb, trivial⟩
    unfold TypeGraph.distinctFrom
    refine hany.bind fun dup _ => ?_
    split
    · exact h.distinctFrom_gives hts hknown
    · exact h.distinctFrom_gives hts (forall_mem_append.mpr ⟨hknown, forall_mem_singleton.mpr ht⟩)

theorem openUnions_has (h : c.WellFormed) (hts : ∀ t ∈ ts, c.Has t) : ∀ t ∈ c.graph.openUnions ts, c.Has t := by
  intro t ht
  obtain ⟨u, hu, ht⟩ := mem_flatMap.mp ht
  cases hcases : c.graph.unionCases? u with
  | none =>
    rw [hcases] at ht
    obtain rfl : t = u := by simpa using ht
    exact hts t hu
  | some cases =>
    rw [hcases] at ht
    obtain ⟨i, -, hi⟩ := unionCases?_eq_some.mp hcases
    exact h.parts hi t ht

theorem union_gives (h : c.WellFormed) (hts : ∀ t ∈ ts, c.Has t) :
    (∃ t, c.graph.union ts = .ok (c.graph, t) ∧ c.Has t) ∨
      ∃ us, c.graph.union ts = .ok ((c.graph.add (.union us)).1, .node c.graph.size) ∧ ∀ t ∈ us, c.Has t := by
  obtain ⟨us, hus, hhas⟩ := h.distinctFrom_gives (h.openUnions_has hts) (by simp : ∀ t ∈ [], c.Has t)
  unfold TypeGraph.union
  rw [hus, ok_bind]
  split
  · exact .inl ⟨_, rfl, hhas _ (by simp)⟩
  · exact .inr ⟨us, rfl, hhas⟩

end Context.WellFormed

/-! ### Parts of an analysis that succeed -/

/-- From `c`, if it is well-formed, the computation comes to a result with the property, in a state that is well-formed
too and has lost nothing. -/
def Succeeds {α : Type} (c : Context) (Q : α → Context → Prop) (x : AnalysisM α) : Prop :=
  c.WellFormed → ∃ a c1, x.run c = .ok (a, c1) ∧ c1.WellFormed ∧ Later c c1 ∧ Q a c1

namespace Succeeds

variable {α β : Type} {c : Context} {P Q : α → Context → Prop} {R : β → Context → Prop}

theorem pure {a : α} (h : Q a c) : Succeeds c Q (Pure.pure a : AnalysisM α) := fun hc => ⟨a, c, rfl, hc, .refl c, h⟩

theorem bind {x : AnalysisM α} {f : α → AnalysisM β} (hx : Succeeds c P x)
    (hf : ∀ a c1, Later c c1 → P a c1 → Succeeds c1 R (f a)) : Succeeds c R (x >>= f) := by
  intro hc
  obtain ⟨a, c1, hrun, hc1, hlater, ha⟩ := hx hc
  obtain ⟨b, c2, hrun', hc2, hlater', hb⟩ := hf a c1 hlater ha hc1
  exact ⟨b, c2, run_bind_eq_ok.mpr ⟨a, c1, hrun, hrun'⟩, hc2, hlater.trans hlater', hb⟩

theorem imp {x : AnalysisM α} (hx : Succeeds c P x) (h : ∀ a c1, Later c c1 → P a c1 → Q a c1) : Succeeds c Q x := by
  intro hc
  obtain ⟨a, c1, hrun, hc1, hlater, ha⟩ := hx hc
  exact ⟨a, c1, hrun, hc1, hlater, h a c1 hlater ha⟩

theorem lift {x : Except Fault α} (h : c.WellFormed → Gives (fun a => Q a c) x) :
    Succeeds c Q (liftM x : AnalysisM α) := by
  intro hc
  obtain ⟨a, ha, hQ⟩ := h hc
  exact ⟨a, c, run_lift_eq_ok.mpr ⟨a, ha, rfl⟩, hc, .refl c, hQ⟩

theorem get : Succeeds c (fun a c1 => a = c ∧ c1 = c) (MonadStateOf.get : AnalysisM Context) := fun hc =>
    ⟨c, c, rfl, hc, .refl c, rfl, rfl⟩

theorem get_bind {f : Context → AnalysisM β} (h : Succeeds c R (f c)) : Succeeds c R (MonadStateOf.get >>= f) :=
  get.bind fun a c1 _ ⟨ha, hc1⟩ => by
    subst ha hc1
    exact h

theorem mapM {f : α → AnalysisM β} {S : α → β → Context → Prop}
    (hmono : ∀ {a b c c1}, Later c c1 → S a b c → S a b c1) : ∀ {xs : List α} {c : Context},
    (∀ x ∈ xs, ∀ c1, Later c c1 → Succeeds c1 (S x) (f x)) →
    Succeeds c (fun ys c1 => Forall₂ (S · · c1) xs ys) (xs.mapM f)
  | [], c, _ => by
    rw [mapM_nil]
    exact pure .nil
  | x :: xs, c, h => by
    obtain ⟨hx, hxs⟩ := forall_mem_cons.mp h
    rw [mapM_cons]
    refine (hx c (.refl c)).bind fun y c1 hlater hy => ?_
    refine (mapM (S := S) hmono fun x' hx' c2 hlater' => hxs x' hx' c2 (hlater.trans hlater')).bind
      fun ys c2 hlater' hys => ?_
    exact pure (.cons (hmono hlater' hy) hys)

end Succeeds

section

variable {c : Context} {t : Ty}

theorem fresh_succeeds : Succeeds c (fun t c1 => c1.Has t ∧ c1.table = c.table) fresh := fun hc =>
  ⟨_, _, rfl, hc.fresh, ⟨onward_vars c 1, id, id⟩, c.has_fresh, rfl⟩

theorem newType_succeeds (hparts : ∀ t ∈ x.parts, c.Has t)
    (hdomain : ∀ d u, x = .function d u → ∃ k, d = some k ∧ k < c.graph.size) :
    Succeeds c (fun t c1 => (∃ i, t = .node i ∧ c1.graph.get? i = some x) ∧ c1.table = c.table) (newType x) := fun hc =>
  ⟨_, _, rfl, hc.add hparts hdomain, ⟨onward_add c x, id, id⟩, ⟨_, rfl, TypeGraph.get?_add_self _ _⟩, rfl⟩

def Context.HasFunction (c : Context) (t : Ty) : Prop :=
  ∃ i d u label fields, t = .node i ∧ c.graph.get? i = some (.function (some d) u) ∧
    c.graph.get? d = some (.tuple label fields)

theorem Later.hasFunction (h : Later c c1) : c.HasFunction t → c1.HasFunction t := by
  rintro ⟨i, d, u, label, fields, ht, hi, hd⟩
  exact ⟨i, d, u, label, fields, ht, h.graph i _ hi, h.graph d _ hd⟩

theorem Context.HasFunction.has (h : c.HasFunction t) : c.Has t := by
  obtain ⟨i, d, u, label, fields, rfl, hi, -⟩ := h
  exact Context.has_node hi

theorem newFunction_succeeds {fields : List TupleField} {codomain : Ty} (hfields : ∀ f ∈ fields, c.Has f.type)
    (hcodomain : c.Has codomain) : Succeeds c (fun t c1 => c1.HasFunction t) (newFunction fields codomain) := by
  intro hc
  let c1 : Context := { c with graph := (c.graph.add (.tuple "" fields)).1 }
  have hlater : Later c c1 := ⟨onward_add c (.tuple "" fields), id, id⟩
  have hdomain : c1.graph.get? c.graph.size = some (.tuple "" fields) := TypeGraph.get?_add_self _ _
  have hc1 : c1.WellFormed := hc.add (by simpa [Composite.parts] using hfields) (by simp)
  have hlater1 : Later c1 { c1 with graph := (c1.graph.add (.function (some c.graph.size) codomain)).1 } :=
    ⟨onward_add c1 _, id, id⟩
  refine ⟨_, _, rfl, hc1.add ?_ ?_, hlater.trans hlater1, ?_⟩
  · simpa [Composite.parts] using hlater.has hcodomain
  · rintro _ _ ⟨⟩
    exact ⟨_, rfl, lt_size_of_get? hdomain⟩
  · exact ⟨_, _, _, _, _, rfl, TypeGraph.get?_add_self _ _, hlater1.graph _ _ hdomain⟩

theorem newUnion_succeeds (hts : ∀ t ∈ ts, c.Has t) : Succeeds c (fun t c1 => c1.Has t) (newUnion ts) := by
  intro hc
  have hrun {g : TypeGraph} {t : Ty} (h : c.graph.union ts = .ok (g, t)) :
      (newUnion ts).run c = .ok (t, { c with graph := g }) :=
    run_bind_eq_ok.mpr ⟨c, c, rfl, run_bind_eq_ok.mpr ⟨(g, t), c, run_lift_eq_ok.mpr ⟨_, h, rfl⟩, rfl⟩⟩
  rcases hc.union_gives hts with ⟨u, hunion, hu⟩ | ⟨us, hunion, hus⟩
  · exact ⟨u, c, hrun hunion, hc, .refl c, hu⟩
  · exact ⟨_, _, hrun hunion, hc.add hus (by simp), ⟨onward_add c _, id, id⟩,
      Context.has_node (TypeGraph.get?_add_self _ _)⟩

theorem require_succeeds (hknown : d.Known) (hd : ∀ t, d.Mentions t → c.Has t) :
    Succeeds c (fun _ c1 => d ∈ c1.constraints) (require d) := fun hc =>
  ⟨_, _, rfl, hc.require hknown hd, ⟨onward_require c d, id, mem_append_left _⟩, by simp⟩

theorem diagnose_succeeds {code : Code} {token : Token} {message : String} (hcode : code ∈ Code.known) :
    Succeeds c (fun _ c1 => c1.diagnostics.entries ≠ [] ∧ (code = .undefinedSymbol → c1.Reports token))
    (diagnose code token message) := by
  intro hc
  refine ⟨_, _, rfl, hc.diagnose (d := .of code token message) hcode,
    ⟨(diagnose_forward code token message).related rfl, ?_, id⟩, Diagnostics.add_ne_empty _ _, ?_⟩
  · exact fun hr => hr.add hc.problems hcode
  · rintro rfl
    exact Diagnostics.reports_add _ _

theorem newScope_succeeds (hparent : c.HasScope parent) (name : String) (kind : ScopeKind) (module : String) :
    Succeeds c (fun i c1 => c1.HasScope i) (newScope name kind parent module) := fun hc =>
  ⟨_, _, rfl, hc.addScope name kind module (.inr hparent),
      ⟨(newScope_forward name kind parent module).related rfl, id, id⟩, c.table.scopes.size, rfl, by
    simp⟩

theorem canDeclare_succeeds (hi : c.HasScope i) (name : String) (overloadable : Bool) :
    Succeeds c (fun free c1 => c1 = c ∧ (free = true → c.table.Free i name overloadable))
    (canDeclare i name overloadable) := by
  refine .get_bind (.lift fun hc => ?_)
  exact (hc.canDeclare_gives hi name overloadable).imp fun _ => And.imp_right fun h => ⟨rfl, h⟩

theorem declare_succeeds (hfree : c.table.Free i name overloadable) (ht : c.Has t) :
    Succeeds c (fun id c1 => c1.Declares id t) (declare i name t overloadable) := by
  intro hc
  obtain ⟨n, sc, rfl, hsc, hdeclare⟩ := SymbolTable.declare_of_free hc.sound hfree t
  have hrun : (declare n name t overloadable).run c =
      .ok ((c.table.symbols.size : SymbolId), { c with table := c.table.declared n sc name t overloadable }) :=
    run_bind_eq_ok.mpr ⟨c, c, rfl, run_bind_eq_ok.mpr ⟨_, c, run_lift_eq_ok.mpr ⟨_, hdeclare, rfl⟩, rfl⟩⟩
  have hsymbol : ∃ s, (c.table.declared n sc name t overloadable).symbols[c.table.symbols.size]? = some s ∧
      s.type = t :=
    ⟨_, Array.getElem?_push_size, rfl⟩
  obtain ⟨s, hs, hst⟩ := hsymbol
  exact ⟨_, _, hrun, hc.declared ht hsc hfree, ⟨(declare_forward _ _ _ _).related hrun, id, id⟩, s,
    SymbolTable.symbol_eq_ok.mpr ⟨_, rfl, hs⟩, hst⟩

theorem symbolType_succeeds (hid : id = noSymbol ∨ c.HasSymbol id) :
    Succeeds c (fun t c1 => c1.Has t) (symbolType id) := by
  unfold symbolType
  split
  · exact .pure trivial
  · next hne =>
    obtain ⟨n, rfl, hn⟩ := hid.resolve_left hne
    refine .get_bind ((Succeeds.lift fun hc => ?_).bind fun s c1 _ hs => .pure hs)
    have hs : c.table.symbols[n]? = some c.table.symbols[n] := Array.getElem?_eq_getElem hn
    exact ⟨_, SymbolTable.symbol_eq_ok.mpr ⟨n, rfl, hs⟩, hc.symbols hs⟩

theorem meanings_succeeds (hi : c.HasScope i) (name : String) :
    Succeeds c (fun ids c1 => ∀ id ∈ ids, c1.HasSymbol id) (meanings i name) :=
  .get_bind (.lift fun hc => hc.lookup_gives hi name)

theorem duplicate_succeeds (hi : c.HasScope i) (token : Token) (name : String) :
    Succeeds c (fun _ c1 => c1.diagnostics.entries ≠ []) (duplicate i token name) := by
  have hpath : Succeeds c (fun _ _ => True) (liftM (c.table.path i) : AnalysisM String) :=
    .lift fun hc => (hc.chain_gives hi).bind fun _ _ => .ok trivial
  exact .get_bind (hpath.bind fun _ _ _ _ => (diagnose_succeeds (by decide)).imp fun _ _ _ h => h.1)

/-- What was made of a declaration: a symbol or none. -/
def Context.Names (c : Context) (id : SymbolId) : Prop := id = noSymbol ∨ c.HasSymbol id

theorem Later.names (h : Later c c1) (hid : c.Names id) : c1.Names id := hid.imp_right h.hasSymbol

theorem Context.Declares.hasSymbol (h : c.Declares id t) : c.HasSymbol id := by
  obtain ⟨s, hs, -⟩ := h
  obtain ⟨a, rfl, ha⟩ := SymbolTable.symbol_eq_ok.mp hs
  exact ⟨a, rfl, (Array.getElem?_eq_some_iff.mp ha).1⟩

-- The type of a symbol is made after its name was found to be free, so it must leave the table alone.
theorem declareOnce_succeeds {P : Ty → Prop} (hi : c.HasScope i) (token : Token) (name : String) {type : AnalysisM Ty}
    (htype : Succeeds c (fun t c1 => (P t ∧ c1.Has t) ∧ c1.table = c.table) type) (overloadable : Bool) :
    Succeeds c (fun id c1 => c1.Names (id.getD noSymbol) ∧
      (c1.diagnostics.entries = [] → ∃ t, P t ∧ c1.Declares (id.getD noSymbol) t))
      (declareOnce i token name type overloadable) := by
  refine (canDeclare_succeeds hi name overloadable).bind fun free c1 _ ⟨hc1, hfree⟩ => ?_
  subst hc1
  split
  · next htrue =>
    refine htype.bind fun t c1 _ ⟨⟨hP, ht⟩, htable⟩ => ?_
    have hfree' : c1.table.Free i name overloadable := htable ▸ hfree htrue
    exact (declare_succeeds hfree' ht).bind fun id c2 _ hid => .pure ⟨.inr hid.hasSymbol, fun _ => ⟨t, hP, hid⟩⟩
  · exact (duplicate_succeeds hi token name).bind fun _ _ _ hproblem =>
      .pure ⟨.inl rfl, fun hclean => absurd hclean hproblem⟩

end

/-! ### Where an analysis starts -/

theorem Ty.Ground.has (h : t.Ground g.size) : Context.Has { graph := g } t := by
  cases t with
  | node i => exact h
  | scalar | error => trivial
  | absent | var => exact h.elim

/-- No scope is around the prelude. -/
def Context.Rooted (c : Context) : Prop := ∃ s, c.table.scope c.prelude = .ok s ∧ s.id = c.prelude ∧ s.parent = noScope

/-- The table takes up these names one after the other, overloadable or not. -/
structure Prelude.Open (names : List (String × Bool)) (p : TypeGraph × SymbolTable) : Prop where
  wellFormed : Context.WellFormed { graph := p.1, table := p.2 }
  root : ∃ s, p.2.scopes[0]? = some s ∧ s.id = 0 ∧ s.parent = noScope
  symbols : ∀ {a : Nat} {s : Symbol}, p.2.symbols[a]? = some s → ∀ n ∈ names, s.name = n.1 → n.2 = true ∧
    s.overloadable = true
  names : names.Pairwise fun n n' => n.1 = n'.1 → n'.2 = true ∧ n.2 = true

namespace Prelude

variable {g g' : TypeGraph} {t : SymbolTable} {names : List (String × Bool)}

theorem Open.scope {p : TypeGraph × SymbolTable} (h : Open names p) : 0 < p.2.scopes.size := by
  obtain ⟨s, hs, -⟩ := h.root
  exact (Array.getElem?_eq_some_iff.mp hs).1

theorem Open.declare {type : Ty} (h : Open ((name, overloadable) :: names) (g, t))
    (htype : Context.Has { graph := g } type) :
    Gives (fun r => Open names (g, r.1)) (t.declare 0 name type overloadable) := by
  obtain ⟨hrest, hnames⟩ := pairwise_cons.mp h.names
  have hfree : t.Free (0 : Nat) name overloadable :=
    ⟨⟨0, rfl, h.scope⟩, fun ha _ hname => h.symbols ha _ mem_cons_self hname⟩
  obtain ⟨n, sc, hn, hsc, hdeclare⟩ := SymbolTable.declare_of_free h.wellFormed.sound hfree type
  obtain rfl : n = 0 := by exact_mod_cast hn.symm
  refine ⟨_, hdeclare, h.wellFormed.declared htype hsc hfree, ?_, fun ha n hn hname => ?_, hnames⟩
  · obtain ⟨s, hs, hid, hparent⟩ := h.root
    obtain rfl := Option.some.inj (hs.symm.trans hsc)
    refine ⟨s.add name t.symbols.size, ?_, hid, hparent⟩
    rw [SymbolTable.getElem?_scopes_declared hsc, if_pos rfl]
  · rcases SymbolTable.mem_symbols_declared ha with ⟨-, rfl⟩ | ha
    · exact hrest n hn hname
    · exact h.symbols ha n (mem_cons_of_mem _ hn) hname

theorem Open.add (h : Open names (g, t)) (hparts : ∀ t ∈ x.parts, Context.Has { graph := g } t)
    (hdomain : ∀ d u, x = .function d u → ∃ k, d = some k ∧ k < g.size) : Open names ((g.add x).1, t) :=
  ⟨h.wellFormed.add hparts hdomain, h.root, h.symbols, h.names⟩

theorem declareScalars_gives : ∀ {ss : List Scalar} {p : TypeGraph × SymbolTable},
    Open (ss.map (fun s => (s.text, false)) ++ names) p → Gives (Open names) (ss.foldlM (declareScalar 0) p)
  | [], p, h => .ok h
  | s :: ss, (g, t), h => by
    rw [foldlM_cons]
    have hadd := h.add (x := .metatype (.scalar s)) (by simp [Composite.parts, Context.Has]) (by simp)
    have hstep : Gives (Open (ss.map (fun s => (s.text, false)) ++ names)) (declareScalar 0 (g, t) s) :=
      (hadd.declare (Context.has_node (TypeGraph.get?_add_self g _))).bind fun r hr => .ok hr
    exact hstep.bind fun p hp => declareScalars_gives hp

theorem declareOverloads_gives : ∀ {os : List Overload} {p : TypeGraph × SymbolTable},
    (∀ o ∈ os, (∀ t ∈ o.2.1, t.Ground 0) ∧ o.2.2.Ground 0) → Open (os.map fun o => (o.1, true)) p →
      Gives (Open []) (os.foldlM (declareOverload 0) p)
  | [], p, _, h => .ok h
  | (name, operands, result) :: os, (g, t), hos, h => by
    obtain ⟨⟨hoperands, hresult⟩, hos⟩ := forall_mem_cons.mp hos
    rw [foldlM_cons]
    have hhas {g : TypeGraph} {t : Ty} (ht : t.Ground 0) : Context.Has { graph := g } t := (ht.mono (Nat.zero_le _)).has
    have hdomain := h.add (x := .tuple "" (operands.map fun t => { type := t }))
      (by simpa [Composite.parts] using fun t ht => hhas (hoperands t ht)) (by simp)
    have hfunction := hdomain.add (x := .function (some g.size) result)
        (by simpa [Composite.parts] using hhas hresult) (by
      rintro _ _ ⟨⟩
      exact ⟨_, rfl, lt_size_of_get? (TypeGraph.get?_add_self _ _)⟩)
    have hstep : Gives (Open (os.map fun o => (o.1, true))) (declareOverload 0 (g, t) (name, operands, result)) :=
      (hfunction.declare (Context.has_node (TypeGraph.get?_add_self _ _))).bind fun r hr => .ok hr
    exact hstep.bind fun p hp => declareOverloads_gives hos hp

theorem names_pairwise : ((Scalar.all.map fun s => (s.text, false)) ++ overloads.map fun o => (o.1, true)).Pairwise
    fun n n' : String × Bool => n.1 = n'.1 → n'.2 = true ∧ n.2 = true := by
  decide

end Prelude

theorem TypeGraph.Ground.wellFormed (hg : g.Ground) : Context.WellFormed { graph := g } where
  parts {i x} hi t ht := by
    have hx := hg i x hi
    cases x with
    | metatype of =>
      obtain rfl := mem_singleton.mp ht
      exact Ty.Ground.has hx
    | function d u =>
      obtain rfl := mem_singleton.mp ht
      cases d with
      | none => exact hx.elim
      | some d => exact hx.2.has
    | tuple label fields =>
      obtain ⟨f, hf, rfl⟩ := mem_map.mp ht
      exact (hx f hf).has
    | union cases => exact (hx t ht).has
  domains {i d u} hi := by
    have hx := hg i _ hi
    cases d with
    | none => exact hx.elim
    | some d => exact ⟨d, rfl, hx.1⟩
  symbols hs := by simp at hs
  parents hs := by simp at hs
  sound := SymbolTable.sound_empty
  constraints d hd := by cases hd
  known d hd := by cases hd
  problems e he := by cases he

/-- An analysis of a graph without variables starts in a well-formed state, with the prelude as outermost scope. -/
theorem Context.initial_rooted (hg : g.Ground) :
    Gives (fun c => c.WellFormed ∧ c.Rooted ∧ c.diagnostics = {}) (Context.initial g) := by
  have hopen : Prelude.Open _ (g, (SymbolTable.addScope {} "prelude" .prelude noScope "prelude").1) :=
    ⟨hg.wellFormed.addScope _ _ _ (.inl rfl), ⟨_, rfl, rfl, rfl⟩,
      fun ha => by simp [SymbolTable.addScope] at ha, Prelude.names_pairwise⟩
  obtain ⟨p, hscalars, hp⟩ := Prelude.declareScalars_gives hopen
  obtain ⟨⟨g', t'⟩, hoverloads, hfinal⟩ := Prelude.declareOverloads_gives Prelude.overloads_ground hp
  have hprelude : Prelude.declare g {} = .ok (g', t', 0) :=
    bind_eq_ok.mpr ⟨p, hscalars, bind_eq_ok.mpr ⟨_, hoverloads, rfl⟩⟩
  have hwell := hfinal.wellFormed
  obtain ⟨s, hs, hroot⟩ := hfinal.root
  refine ⟨_, bind_eq_ok.mpr ⟨_, hprelude, rfl⟩, ?_, ⟨s, SymbolTable.scope_eq_ok.mpr ⟨0, rfl, hs⟩, hroot⟩, rfl⟩
  exact ⟨hwell.parts, hwell.domains, hwell.symbols, hwell.parents, hwell.sound, hwell.constraints, hwell.known,
    hwell.problems⟩

theorem Context.Rooted.hasScope {c : Context} (h : c.Rooted) : c.HasScope c.prelude := by
  obtain ⟨s, hs, -⟩ := h
  obtain ⟨n, hn, hat⟩ := SymbolTable.scope_eq_ok.mp hs
  exact ⟨n, hn, (Array.getElem?_eq_some_iff.mp hat).1⟩

theorem Context.initial_gives (hg : g.Ground) :
    Gives (fun c => c.WellFormed ∧ c.HasScope c.prelude ∧ c.diagnostics = {}) (Context.initial g) := by
  obtain ⟨c, hc, hwell, hroot, hdiagnostics⟩ := Context.initial_rooted hg
  exact ⟨c, hc, hwell, hroot.hasScope, hdiagnostics⟩

end TypeInference
