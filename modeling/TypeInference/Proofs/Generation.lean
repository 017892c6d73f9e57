import TypeInference.Proofs.Contexts
import TypeInference.Proofs.Expressions
import TypeInference.Analysis.Obligations

/-! # What generation records

Typing a module builds up the state of the analysis (`Builds`), and for every identifier and every call of the module it
leaves behind constraints that stay there (`Recorded`). -/

namespace TypeInference

open AnalysisM
open List

variable {c c' : Context} {t codomain of : Ty} {e : Expr} {r : Expr × Context} {i : Ident}
  {args rest : List (Option Labelled)} {ts given made : List Ty} {mark : Mark} {sign : Option FuncSign}
  {scope inner : ScopeId} {name : String} {id : SymbolId} {token : Token} {g : TypeGraph} {q : TypeRule} {u : Unit}

/-! ### Parts -/

theorem fresh_eq_ok (h : fresh.run c = .ok (t, c')) : t = .var c.vars ∧ c' = { c with vars := c.vars + 1 } := by
  cases h
  exact ⟨rfl, rfl⟩

theorem newType_builds {x : Composite} (h : (newType x).run c = .ok (t, c')) :
    Builds c c' x.parts [] ∧ ∃ i, t = .node i ∧ c'.graph.get? i = some x := by
  cases h
  exact ⟨builds_add c x, _, rfl, TypeGraph.get?_add_self _ _⟩

theorem newFunction_builds {fields : List TupleField} (h : (newFunction fields codomain).run c = .ok (t, c')) :
    Builds c c' (codomain :: fields.map TupleField.type) [] ∧
      ∃ i d, t = .node i ∧ c'.graph.get? d = some (.tuple "" fields) ∧
        c'.graph.get? i = some (.function (some d) codomain) := by
  cases h
  have htuple := builds_add c (.tuple "" fields)
  have hfunction := builds_add { c with graph := (c.graph.add (.tuple "" fields)).1 }
    (.function (some (c.graph.add (.tuple "" fields)).2) codomain)
  refine ⟨?_, _, _, rfl, hfunction.grows.graph _ _ (TypeGraph.get?_add_self _ _), TypeGraph.get?_add_self _ _⟩
  have hboth : Builds c _ (codomain :: fields.map TupleField.type) ([] ++ []) :=
    (htuple.weaken (fun t ht => .inl (mem_cons_of_mem _ ht)) (by simp)).trans hfunction
      (by simp [Composite.parts])
  exact hboth

theorem require_builds {d : Constraint} (given : List Ty) (h : (require d).run c = .ok (u, c'))
    (hd : ∀ t, d.Mentions t → t ∈ given ∨ t.Fixed) : Builds c c' given [] ∧ c'.constraints = c.constraints ++ [d] := by
  cases h
  exact ⟨builds_require d hd, rfl⟩

theorem diagnose_builds {code : Code} {message : String} (h : (diagnose code token message).run c = .ok (u, c')) :
    Builds c c' [] [] := by
  cases h
  exact builds_diagnose

theorem meanings_eq_ok {ids : List SymbolId} (h : (meanings scope name).run c = .ok (ids, c')) :
    c' = c ∧ c.table.lookup scope name = .ok ids := by
  obtain ⟨a, c1, hget, h⟩ := run_bind_eq_ok.mp h
  cases hget
  obtain ⟨ids', hids, heq⟩ := run_lift_eq_ok.mp h
  cases heq
  exact ⟨rfl, hids⟩

/-- The type of a symbol, or the error type if there is no symbol. -/
def Context.TypeOf (c : Context) (id : SymbolId) (t : Ty) : Prop :=
  (id = noSymbol ∧ t = .error) ∨ ∃ s, c.table.symbol id = .ok s ∧ s.type = t

theorem Context.TypeOf.mono (h : c.TypeOf id t) (htable : c'.table = c.table) : c'.TypeOf id t := by
  unfold TypeOf
  rw [htable]
  exact h

theorem symbolType_builds (h : (symbolType id).run c = .ok (t, c')) : c' = c ∧ c.TypeOf id t ∧ Builds c c [] [t] := by
  unfold symbolType at h
  split at h
  · next hid =>
    cases h
    exact ⟨rfl, .inl ⟨hid, rfl⟩, builds_read fun q _ => q.fixed (by simp)⟩
  · obtain ⟨a, c1, hget, h⟩ := run_bind_eq_ok.mp h
    cases hget
    obtain ⟨s, c2, hs, h⟩ := run_bind_eq_ok.mp h
    obtain ⟨s', hsymbol, heq⟩ := run_lift_eq_ok.mp hs
    cases heq
    cases h
    exact ⟨rfl, .inr ⟨_, hsymbol, rfl⟩, builds_read fun q hq => hq.symbols hsymbol⟩

/-! ### Unions -/

theorem mem_of_distinctFrom : ∀ {ts known us : List Ty}, g.distinctFrom known ts = .ok us →
    ∀ t ∈ us, t ∈ known ∨ t ∈ ts
  | [], known, us, h, t, ht => by
    cases h
    exact .inl ht
  | u :: ts, known, us, h, t, ht => by
    unfold TypeGraph.distinctFrom at h
    obtain ⟨dup, -, h⟩ := bind_eq_ok.mp h
    cases dup with
    | true => exact (mem_of_distinctFrom h t ht).imp_right (mem_cons_of_mem u)
    | false =>
      rcases mem_of_distinctFrom h t ht with hk | ht
      · rcases mem_append.mp hk with hk | hu
        · exact .inl hk
        · exact .inr (mem_singleton.mp hu ▸ mem_cons_self)
      · exact .inr (mem_cons_of_mem u ht)

theorem openUnions_allowed (hq : q.Holds c) (hts : ∀ t ∈ ts, q.Allows c.vars t) :
    ∀ t ∈ c.graph.openUnions ts, q.Allows c.vars t := by
  intro t ht
  obtain ⟨u, hu, ht⟩ := mem_flatMap.mp ht
  cases hcases : c.graph.unionCases? u with
  | none =>
    rw [hcases] at ht
    obtain rfl : t = u := by simpa using ht
    exact hts t hu
  | some cases =>
    rw [hcases] at ht
    unfold TypeGraph.unionCases? at hcases
    split at hcases
    · split at hcases
      · next hget =>
        cases hcases
        exact hq.parts hget t ht
      · cases hcases
    · cases hcases

theorem newUnion_builds (h : (newUnion ts).run c = .ok (t, c')) : Builds c c' ts [t] := by
  obtain ⟨a, c1, hget, h⟩ := run_bind_eq_ok.mp h
  cases hget
  obtain ⟨⟨g, u⟩, c2, hlift, h⟩ := run_bind_eq_ok.mp h
  obtain ⟨r, hunion, heq⟩ := run_lift_eq_ok.mp hlift
  cases heq
  cases h
  unfold TypeGraph.union at hunion
  obtain ⟨us, hus, hunion⟩ := bind_eq_ok.mp hunion
  have hallowed : ∀ q : TypeRule, q.Holds c → (∀ t ∈ ts, q.Allows c.vars t) → ∀ t ∈ us, q.Allows c.vars t := by
    intro q hq hts t ht
    rcases mem_of_distinctFrom hus t ht with ht | ht
    · cases ht
    · exact openUnions_allowed hq hts t ht
  split at hunion
  · cases hunion
    refine ⟨(Builds.refl c).grows, Nat.le_refl _, fun q hq hts => ⟨hq, ?_⟩⟩
    exact hallowed q hq hts
  · cases hunion
    have hadd := builds_add c (.union us)
    refine ⟨hadd.grows, hadd.keeps.vars, fun q hq hts => ?_⟩
    obtain ⟨hq', -⟩ := hadd.keeps.rule q hq (hallowed q hq hts)
    exact ⟨hq', by simpa using q.fixed (by simp)⟩

/-! ### Signatures -/

theorem metatype?_eq_some (h : g.metatype? t = some of) : ∃ i, t = .node i ∧ g.get? i = some (.metatype of) := by
  unfold TypeGraph.metatype? at h
  split at h
  · split at h
    · next hget =>
      cases h
      exact ⟨_, rfl, hget⟩
    · cases h
  · cases h

theorem metatype?_allowed (hq : q.Holds c) (h : c.graph.metatype? t = some of) : q.Allows c.vars of := by
  obtain ⟨i, -, hi⟩ := metatype?_eq_some h
  exact hq.parts hi of (by simp [Composite.parts])

/-! ### Identifiers -/

def Ident.place (i : Ident) : Location := i.mark.location [.identifier]

/-- The constraint of an identifier is among the constraints: its type is that of its symbol, or that of one of its
candidates. -/
def Ident.Recorded (c : Context) (constraints : List Constraint) (i : Ident) : Prop :=
  match i.candidates with
  | [] => True
  | [id] => i.symbol = id ∧ ∃ t, c.TypeOf id t ∧ .equality i.mark.type t i.place ∈ constraints
  | ids => ∃ ts, List.Forall₂ c.TypeOf ids ts ∧
      .oneOf (ts.map fun t => .equality i.mark.type t i.place) i.place ∈ constraints

theorem Ident.Recorded.mono {constraints constraints' : List Constraint} (h : i.Recorded c constraints)
    (htable : c'.table = c.table) (hsub : constraints ⊆ constraints') : i.Recorded c' constraints' := by
  unfold Ident.Recorded at h ⊢
  split
  · trivial
  · next id hid =>
    rw [hid] at h
    obtain ⟨hsymbol, t, ht, hmem⟩ := h
    exact ⟨hsymbol, t, ht.mono htable, hsub hmem⟩
  · next hnil hone =>
    split at h
    · next hcandidates => exact absurd hcandidates hnil
    · next hcandidates => exact absurd hcandidates (hone _)
    · obtain ⟨ts, hts, hmem⟩ := h
      exact ⟨ts, hts.imp fun _ _ ht => ht.mono htable, hsub hmem⟩

theorem choices_builds {type : Ty} {location : Location} :
    ∀ {ids : List SymbolId} {c c' : Context} {choices : List Constraint},
    (ids.mapM fun id => do return Constraint.equality type (← symbolType id) location : AnalysisM _).run c =
        .ok (choices, c') →
      c' = c ∧ ∃ ts, Forall₂ c.TypeOf ids ts ∧ choices = ts.map (fun t => .equality type t location) ∧ Builds c c [] ts
  | [], c, c', choices, h => by
    cases h
    exact ⟨rfl, [], .nil, rfl, .refl c⟩
  | id :: ids, c, c', choices, h => by
    rw [mapM_cons] at h
    obtain ⟨choice, c1, hchoice, h⟩ := run_bind_eq_ok.mp h
    obtain ⟨choices', c2, hchoices, h⟩ := run_bind_eq_ok.mp h
    cases h
    obtain ⟨t, c3, ht, hchoice⟩ := run_bind_eq_ok.mp hchoice
    cases hchoice
    obtain ⟨rfl, htype, hbuilds⟩ := symbolType_builds ht
    obtain ⟨rfl, ts, hts, rfl, hbuilds'⟩ := choices_builds hchoices
    exact ⟨rfl, t :: ts, .cons htype hts, rfl, hbuilds.trans hbuilds' (by simp)⟩

/-- The types that an expression hands on: its own, if it is not missing. -/
def Expr.handed (e : Expr) : List Ty := (e.mark?.map Mark.type).toList

theorem mem_handed (h : e.type = .ok t) : t ∈ e.handed := by
  unfold Expr.type at h
  split at h
  · next mark hmark =>
    cases h
    simp [Expr.handed, hmark]
  · cases h

theorem Ident.oblige_builds {i' : Ident} (h : i.oblige.run c = .ok (i', c')) :
    Builds c c' [] [i'.mark.type] ∧
    (i'.Recorded c' c'.constraints ∧ c'.table.lookup i'.scope i'.name = .ok i'.candidates) ∧
      (i'.candidates ≠ [] → i'.mark.type = .var c.vars ∧ c'.graph = c.graph ∧ c'.vars = c.vars + 1) := by
  unfold Ident.oblige at h
  obtain ⟨ids, c1, hids, hrest⟩ := run_bind_eq_ok.mp h
  obtain ⟨rfl, hlookup⟩ := meanings_eq_ok hids
  split at hrest
  · obtain ⟨u, c2, hdiagnose, hrest⟩ := run_bind_eq_ok.mp hrest
    cases hrest
    have hbuilds := diagnose_builds hdiagnose
    exact ⟨hbuilds.weaken (by simp) (by simp [Mark.typed]), ⟨trivial, hbuilds.grows.table ▸ hlookup⟩, by simp⟩
  · next id =>
    obtain ⟨type, c2, hfresh, hrest⟩ := run_bind_eq_ok.mp hrest
    obtain ⟨rfl, rfl⟩ := fresh_eq_ok hfresh
    obtain ⟨t, c3, ht, hrest⟩ := run_bind_eq_ok.mp hrest
    obtain ⟨rfl, htype, hread⟩ := symbolType_builds ht
    obtain ⟨u, c4, hrequire, hdone⟩ := run_bind_eq_ok.mp hrest
    obtain ⟨hconstraint, hcs⟩ := require_builds [.var c1.vars, t] hrequire (by simp)
    cases hdone
    have hbuilds := ((builds_fresh c1).trans hread (by simp)).trans hconstraint (by simp)
    refine ⟨hbuilds.weaken (by simp) (by simp [Mark.typed]),
      ⟨⟨rfl, t, htype.mono hbuilds.grows.table, ?_⟩, ?_⟩, fun _ => ?_⟩
    · rw [hcs]
      exact mem_append_right _ (mem_singleton_self _)
    · exact hbuilds.grows.table ▸ hlookup
    · cases hrequire
      exact ⟨rfl, rfl, rfl⟩
  · next hnil hone =>
    obtain ⟨type, c2, hfresh, hrest⟩ := run_bind_eq_ok.mp hrest
    obtain ⟨rfl, rfl⟩ := fresh_eq_ok hfresh
    obtain ⟨choices, c3, hchoices, hrest⟩ := run_bind_eq_ok.mp hrest
    obtain ⟨rfl, ts, hts, rfl, hread⟩ := choices_builds hchoices
    obtain ⟨u, c4, hrequire, hdone⟩ := run_bind_eq_ok.mp hrest
    obtain ⟨hconstraint, hcs⟩ := require_builds (.var c1.vars :: ts) hrequire (by simp; grind)
    cases hdone
    have hbuilds := ((builds_fresh c1).trans hread (by simp)).trans hconstraint (by simp; grind)
    refine ⟨hbuilds.weaken (by simp) (by simp [Mark.typed]), ⟨?_, hbuilds.grows.table ▸ hlookup⟩, fun _ => ?_⟩
    · unfold Ident.Recorded
      split
      · trivial
      · next hcandidates => exact absurd hcandidates (hone _)
      · refine ⟨ts, hts.imp fun _ _ ht => ht.mono hbuilds.grows.table, ?_⟩
        rw [hcs]
        exact mem_append_right _ (mem_singleton_self _)
    · cases hrequire
      exact ⟨rfl, rfl, rfl⟩

/-! ### Calls -/

/-- Where the constraint between a call and its callee comes from. -/
def Mark.callPlace (mark : Mark) : Location := mark.location [.callee]

/-- An argument conforms to a variable of the domain. -/
def ArgRecorded (constraints : List Constraint) (a : Option Labelled) (field : TupleField) : Prop :=
  ∃ x location, a = some x ∧ x.label = field.label ∧ .conformance x.mark.type field.type location ∈ constraints

/-- The constraints of a call: its arguments conform to the domain of a new function type with a new variable as its
result, which is the type of the call, and the callee has this type. -/
structure CallRecorded (c : Context) (mark : Mark) (callee : Expr) (args : List (Option Labelled)) (type : Ty)
    (fields : List TupleField) (function : NodeId) (before after : List Constraint) : Prop where
  calleeType : callee.type = .ok type
  composites : ∃ d, c.graph.get? d = some (.tuple "" fields) ∧
    c.graph.get? function = some (.function (some d) mark.type)
  constraints : c.constraints = before ++ .equality type (.node function) mark.callPlace :: after
  arguments : List.Forall₂ (ArgRecorded c.constraints) args fields

/-- An identifier that is called has a variable of its own, from `low` on. After the constraint between the call and the
callee it occurs nowhere again; none of the types in `shown` is this variable. -/
structure CalleeApart (low : Nat) (c : Context) (shown : List Ty) (i : Ident) (v : Nat)
    (before : List Constraint) : Prop where
  low : low ≤ v
  apart : (TypeRule.avoiding v (before.length + 1)).Holds c
  shown : ∀ t ∈ shown, t ≠ .var v
  recorded : i.Recorded c before

/-- The constraints of a call are there. -/
def Recorded (low : Nat) (c : Context) (shown : List Ty) : Expr → Prop
  | .call mark callee args => ∃ type fields function before after,
      CallRecorded c mark callee args type fields function before after ∧
        ∀ i, callee = .ident i → i.candidates ≠ [] → ∃ v : Nat, type = .var v ∧ CalleeApart low c shown i v before
  | _ => True

theorem Recorded.mono {low low' : Nat} {shown shown' : List Ty} (h : Recorded low c shown e) (hlow : low' ≤ low)
    (hbuilds : Builds c c' given made) (hgiven : ∀ t ∈ given, t ∈ shown ∨ t.Fixed)
    (hshown : ∀ t ∈ shown', t ∈ shown ∨ t ∈ made ∨ TypeRule.inUse.Allows low t) : Recorded low' c' shown' e := by
  have hsub : c.constraints ⊆ c'.constraints := hbuilds.grows.constraints.subset
  unfold Recorded at h ⊢
  split
  · obtain ⟨type, fields, function, before, after, h, hcallee⟩ := h
    obtain ⟨d, htuple, hfunction⟩ := h.composites
    obtain ⟨more, hmore⟩ := hbuilds.grows.constraints
    refine ⟨type, fields, function, before, after ++ more, ⟨h.calleeType, ?_, ?_, ?_⟩, ?_⟩
    · exact ⟨d, hbuilds.grows.graph _ _ htuple, hbuilds.grows.graph _ _ hfunction⟩
    · rw [← hmore, h.constraints]
      simp
    · refine h.arguments.imp fun a field ha => ?_
      obtain ⟨x, location, hx, hlabel, hmem⟩ := ha
      exact ⟨x, location, hx, hlabel, hsub hmem⟩
    · intro i hi hcandidates
      obtain ⟨v, hv, happart⟩ := hcallee i hi hcandidates
      obtain ⟨hrule, hmade⟩ := hbuilds.keeps.rule _ happart.apart fun t ht =>
        (hgiven t ht).elim (happart.shown t) fun h => h v
      refine ⟨v, hv, Nat.le_trans hlow happart.low, hrule, fun t ht => ?_,
        happart.recorded.mono hbuilds.grows.table fun _ h => h⟩
      rcases hshown t ht with ht | ht | ht
      · exact happart.shown t ht
      · exact hmade t ht
      · rintro rfl
        have hlt := ht v rfl
        have hle := happart.low
        omega
  · trivial

/-! ### Typing -/

/-- Part of the typing of a module: it builds up the state, and the constraints of the expressions `es` are recorded.
What is said of calls needs to know which variables are in use. -/
structure Typed (c c' : Context) (es : List Expr) (given made : List Ty) : Prop where
  builds : Builds c c' given made
  idents : ∀ i, .ident i ∈ es → i.Recorded c' c'.constraints
  meanings : ∀ i, .ident i ∈ es → c'.table.lookup i.scope i.name = .ok i.candidates
  recorded : TypeRule.inUse.Holds c → (∀ t ∈ given, TypeRule.inUse.Allows c.vars t) →
    ∀ e ∈ es, Recorded c.vars c' (given ++ made) e

theorem Builds.typed (h : Builds c c' given made) : Typed c c' [] given made :=
  ⟨h, fun _ hi => absurd hi not_mem_nil, fun _ hi => absurd hi not_mem_nil, fun _ _ _ he => absurd he not_mem_nil⟩

namespace Typed

variable {c c1 c2 : Context} {es es' : List Expr} {given given' made made' : List Ty}

protected theorem trans (h : Typed c c1 es given made) (h' : Typed c1 c2 es' given' made')
    (hgiven : ∀ t ∈ given', t ∈ made ∨ t ∈ given ∨ t.Fixed) : Typed c c2 (es ++ es') given (made ++ made') where
  builds := h.builds.trans h'.builds hgiven
  idents i hi := by
    rcases mem_append.mp hi with hi | hi
    · exact (h.idents i hi).mono h'.builds.grows.table h'.builds.grows.constraints.subset
    · exact h'.idents i hi
  meanings i hi := by
    rcases mem_append.mp hi with hi | hi
    · exact h'.builds.grows.table ▸ h.meanings i hi
    · exact h'.meanings i hi
  recorded hin hallow e he := by
    obtain ⟨hin1, hmade⟩ := h.builds.keeps.rule _ hin hallow
    have hallow1 : ∀ t ∈ given, TypeRule.inUse.Allows c1.vars t := fun t ht =>
      TypeRule.inUse.mono h.builds.keeps.vars (hallow t ht)
    rcases mem_append.mp he with he | he
    · refine (h.recorded hin hallow e he).mono (Nat.le_refl _) h'.builds ?_ ?_
      · intro t ht
        have := hgiven t ht
        simp only [mem_append]
        tauto
      · intro t ht
        simp only [mem_append] at ht ⊢
        tauto
    · have hrec := h'.recorded hin1 (fun t ht => ?_) e he
      · refine hrec.mono h.builds.keeps.vars (Builds.refl c2) (by simp) ?_
        intro t ht
        rcases mem_append.mp ht with ht | ht
        · exact .inr (.inr (hallow1 t ht))
        · rcases mem_append.mp ht with ht | ht
          · exact .inr (.inr (hmade t ht))
          · exact .inl (mem_append_right _ ht)
      · rcases hgiven t ht with ht | ht | ht
        · exact hmade t ht
        · exact hallow1 t ht
        · exact TypeRule.inUse.fixed ht

theorem weaken (h : Typed c c1 es given made) (hes : es' ⊆ es) (hgiven : ∀ t ∈ given, t ∈ given' ∨ t.Fixed)
    (hmade : ∀ t ∈ made', t ∈ made ∨ t ∈ given' ∨ t.Fixed) : Typed c c1 es' given' made' where
  builds := h.builds.weaken hgiven hmade
  idents i hi := h.idents i (hes hi)
  meanings i hi := h.meanings i (hes hi)
  recorded hin hallow e he := by
    have hallow' : ∀ t ∈ given, TypeRule.inUse.Allows c.vars t := fun t ht =>
      (hgiven t ht).elim (hallow t) TypeRule.inUse.fixed
    refine (h.recorded hin hallow' e (hes he)).mono (Nat.le_refl _) (Builds.refl c1) (by simp) fun t ht => ?_
    rcases mem_append.mp ht with ht | ht
    · exact .inr (.inr (hallow t ht))
    · rcases hmade t ht with ht | ht | ht
      · exact .inl (mem_append_right _ ht)
      · exact .inr (.inr (hallow t ht))
      · exact .inr (.inr (TypeRule.inUse.fixed ht))

theorem cons (h : Typed c c1 es given made) (he : TypeRule.inUse.Holds c → Recorded c.vars c1 (given ++ made) e)
    (hident : ∀ i, e = .ident i → i.Recorded c1 c1.constraints ∧ c1.table.lookup i.scope i.name = .ok i.candidates) :
    Typed c c1 (e :: es) given made where
  builds := h.builds
  idents i hi := by
    rcases mem_cons.mp hi with hi | hi
    · exact (hident i hi.symm).1
    · exact h.idents i hi
  meanings i hi := by
    rcases mem_cons.mp hi with hi | hi
    · exact (hident i hi.symm).2
    · exact h.meanings i hi
  recorded hin hallow := forall_mem_cons.mpr ⟨he hin, h.recorded hin hallow⟩

end Typed

theorem function?_eq_some {d : Option NodeId} {u : Ty} (h : g.function? t = some (d, u)) :
    ∃ i, t = .node i ∧ g.get? i = some (.function d u) := by
  unfold TypeGraph.function? at h
  split at h
  · split at h
    · next hget =>
      cases h
      exact ⟨_, rfl, hget⟩
    · cases h
  · cases h

/-! ### Computations that type -/

/-- Nothing is recorded of the expression itself: it is neither an identifier nor a call. -/
def Expr.isPlain : Expr → Bool
  | .call .. | .ident _ => false
  | _ => true

/-- Whenever the computation comes to a result, it has typed the expressions of the result, those in `known` apart, out
of the types in `given`, and it hands on the types in `made`. -/
def Types {α : Type} (known : List Expr) (given : List Ty) (x : AnalysisM α) (es : α → List Expr)
    (made : α → List Ty) : Prop :=
  ∀ (c c' : Context) (a : α), x.run c = .ok (a, c') → ∃ new, Typed c c' new given (made a) ∧ es a ⊆ known ++ new

/-- The same of a computation that types no expressions and may be given any types. -/
abbrev Makes {α : Type} (x : AnalysisM α) (made : α → List Ty) : Prop :=
  ∀ {known given}, Types known given x (fun _ => []) made

attribute [local simp] Expr.exprs Labelled.exprs MatchCase.exprs Node.exprs Node.allExprs Module.exprs Composite.parts

variable {known : List Expr}

namespace Types

variable {α β : Type} {x : AnalysisM α} {f : α → AnalysisM β} {es : α → List Expr} {es' : β → List Expr}
  {made : α → List Ty} {made' : β → List Ty}

theorem throw (e : Fault) : Types known given (throw e) es made := fun _ _ _ h => by cases h

theorem pure {a : α} (hes : ∀ e ∈ es a, e ∈ known ∨ e.isPlain := by simp +contextual [or_imp, forall_and, Expr.isPlain])
    (hmade : ∀ t ∈ made a, t ∈ given ∨ t.Fixed := by simp +contextual [Expr.handed, Expr.mark?, Mark.typed]) :
    Types known given (Pure.pure a) es made := fun c c' b h => by
  cases h
  have hplain : ∀ e ∈ (es a).filter Expr.isPlain, ∀ i, e ≠ .ident i := by
    rintro e he i rfl
    cases (mem_filter.mp he).2
  refine ⟨(es a).filter Expr.isPlain, ⟨(Builds.refl c).weaken (by simp) fun t ht => .inr (hmade t ht), fun i hi => ?_,
    fun i hi => ?_, fun _ _ e he => ?_⟩, fun e he => ?_⟩
  · exact absurd rfl (hplain _ hi i)
  · exact absurd rfl (hplain _ hi i)
  · obtain ⟨-, he⟩ := mem_filter.mp he
    cases e with
    | call => cases he
    | _ => trivial
  · exact mem_append.mpr ((hes e he).imp_right fun hplain => mem_filter.mpr ⟨he, hplain⟩)

protected theorem bind (hx : Types known given x es made)
    (hf : ∀ a, Types (es a ++ known) (made a ++ given) (f a) es' made') :
    Types known given (x >>= f) es' made' := fun c c2 b h => by
  obtain ⟨a, c1, hrun, h⟩ := run_bind_eq_ok.mp h
  obtain ⟨new, htyped, hnew⟩ := hx _ _ _ hrun
  obtain ⟨more, htyped', hmore⟩ := hf a _ _ _ h
  have hboth := htyped.trans htyped' fun t ht => by simpa [or_assoc] using Or.inl (mem_append.mp ht)
  refine ⟨new ++ more, hboth.weaken (Subset.refl _) (fun _ h => .inl h) fun t ht => .inl (mem_append_right _ ht),
    fun e he => ?_⟩
  have hfirst := @hnew e
  have hrest := @hmore e he
  simp only [mem_append] at hfirst hrest ⊢
  tauto

theorem of_builds {given' : List Ty} (h : ∀ {c c' a}, x.run c = .ok (a, c') → Builds c c' given' (made a))
    (hgiven : ∀ t ∈ given', t ∈ given ∨ t.Fixed) : Types known given x (fun _ => []) made := fun _ _ _ hrun =>
  ⟨[], (h hrun).typed.weaken (Subset.refl _) hgiven fun _ ht => .inl ht, nil_subset _⟩

theorem of_typed (h : ∀ {c c' a}, x.run c = .ok (a, c') → Typed c c' (es a) [] (made a)) :
    Types known given x es made := fun _ _ _ hrun =>
  ⟨_, (h hrun).weaken (Subset.refl _) (by simp) fun _ ht => .inl ht, subset_append_right _ _⟩

theorem typed {a : α} (h : Types [] given x es made) (hrun : x.run c = .ok (a, c')) :
    Typed c c' (es a) given (made a) := by
  obtain ⟨new, hnew, hsub⟩ := h _ _ _ hrun
  exact hnew.weaken hsub (fun _ ht => .inl ht) fun _ ht => .inl ht

/-- A type may be read off the state before the computation. -/
theorem seen (es : α → List Expr) (made : α → List Ty) {a : α} (ht : ∀ q : TypeRule, q.Holds c → q.Allows c.vars t)
    (h : Types known (t :: given) x es made) (hrun : x.run c = .ok (a, c')) :
    ∃ new, Typed c c' new given (made a) ∧ es a ⊆ known ++ new := by
  obtain ⟨new, hnew, hsub⟩ := h _ _ _ hrun
  have hread : Builds c c given [t] := (builds_read ht).weaken (by simp) fun _ h => .inl h
  refine ⟨new, (hread.typed.trans hnew fun u hu => ?_).weaken (Subset.refl _) (fun _ h => .inl h) fun u hu => ?_, hsub⟩
  · exact (mem_cons.mp hu).imp (by simp [·]) .inl
  · exact .inl (mem_append_right _ hu)

end Types

theorem fresh_types : Makes fresh fun t => [t] := .of_builds (fun h => by
  obtain ⟨rfl, rfl⟩ := fresh_eq_ok h
  exact builds_fresh _) (by simp)

theorem newType_types {x : Composite} (hx : ∀ t ∈ x.parts, t ∈ given ∨ t.Fixed) :
    Types known given (newType x) (fun _ => []) fun t => [t] := .of_builds (fun h => by
  obtain ⟨hbuilds, i, rfl, -⟩ := newType_builds h
  exact hbuilds.weaken (fun _ ht => .inl ht) (by simp)) hx

theorem require_types {d : Constraint} (hd : ∀ t, d.Mentions t → t ∈ given ∨ t.Fixed) :
    Types known given (require d) (fun _ => []) fun _ => [] :=
    .of_builds (fun h => (require_builds given h hd).1) fun _ ht => .inl ht

theorem newUnion_types (h : ∀ t ∈ ts, t ∈ given ∨ t.Fixed) :
    Types known given (newUnion ts) (fun _ => []) fun t => [t] :=
  .of_builds newUnion_builds h

theorem symbolType_types : Makes (symbolType id) fun t => [t] := .of_builds (fun h => by
  obtain ⟨rfl, -, hread⟩ := symbolType_builds h
  exact hread) (by simp)

theorem type_eq_ok {u : Ty} (h : (liftM e.type : AnalysisM Ty).run c = .ok (u, c')) : c' = c ∧ u ∈ e.handed := by
  obtain ⟨u', hu, heq⟩ := run_lift_eq_ok.mp h
  cases heq
  exact ⟨rfl, mem_handed hu⟩

theorem type_types (he : ∀ t ∈ e.handed, t ∈ given ∨ t.Fixed := by simp +contextual) :
    Types known given (liftM e.type : AnalysisM Ty) (fun _ => []) fun t => [t] := .of_builds (fun h => by
  obtain ⟨rfl, hmem⟩ := type_eq_ok h
  exact (Builds.refl _).weaken (by simp) fun t ht => .inr (.inl (mem_singleton.mp ht ▸ hmem))) he

@[simp] theorem Constant.fixed_type (value : Constant) : value.type.Fixed := by cases value <;> exact Ty.fixed_scalar _

/-! ### Signatures -/

theorem meanings_types : Makes (meanings scope name) fun _ => [] := .of_builds (fun h => by
  obtain ⟨rfl, -⟩ := meanings_eq_ok h
  exact .refl _) (by simp)

theorem TypeName.read_types (n : TypeName) : Makes n.read fun r => [r.2] := by
  intro known given
  have herror (code : Code) (token : Token) (message : String) :
      Makes (do diagnose code token message; return (n, Ty.error)) fun r => [r.2] :=
    .bind (.of_builds diagnose_builds (by simp)) fun _ => .pure
  refine .bind meanings_types fun ids => ?_
  split
  · exact herror _ _ _
  · intro c c' r h
    obtain ⟨a, c2, hget, h⟩ := run_bind_eq_ok.mp h
    cases hget
    obtain ⟨symbol, c3, hsymbol, h⟩ := run_bind_eq_ok.mp h
    obtain ⟨symbol', -, heq⟩ := run_lift_eq_ok.mp hsymbol
    cases heq
    split at h
    · next hmeta => exact Types.seen (fun _ => []) (fun r => [r.2]) (fun q hq => metatype?_allowed hq hmeta) .pure h
    · exact herror _ _ _ _ _ _ h
  · exact herror _ _ _

theorem unitType_types : Makes unitType fun t => [t] := newType_types (by simp)

theorem functionType_types {domain : Ty} (h : ∀ t ∈ [codomain], t ∈ given ∨ t.Fixed) :
    Types known given (functionType domain codomain) (fun _ => []) fun t => [t] := by
  unfold functionType
  split
  · exact newType_types h
  · exact .throw _

mutual
theorem Sign.read_types : ∀ s : Sign, Makes s.read fun r => [r.2]
  | .missing => .bind unitType_types fun _ => .pure
  | .name n => .bind n.read_types fun _ => .pure
  | .func f => .bind f.read_types fun _ => .pure
  | .tuple t => .bind t.read_types fun _ => .pure
  | .union _ cases => .bind (Sign.readAll_types cases) fun _ =>
    .bind (newUnion_types (by simp +contextual)) fun _ => .pure
theorem Sign.readAll_types : ∀ ss : List Sign, Makes (Sign.readAll ss) fun r => r.2
  | [] => .pure
  | s :: ss => .bind s.read_types fun _ => .bind (Sign.readAll_types ss) fun _ => .pure
theorem FuncSign.read_types : ∀ f : FuncSign, Makes f.read fun r => [r.2]
  | ⟨_, none, codomain⟩ => .bind unitType_types fun _ => .bind codomain.read_types fun _ =>
    .bind (functionType_types (by simp)) fun _ => .pure
  | ⟨_, some domain, codomain⟩ =>
    .bind domain.read_types fun _ => .bind codomain.read_types fun _ =>
      .bind (functionType_types (by simp)) fun _ => .pure
theorem TupleSign.read_types : ∀ t : TupleSign, Makes t.read fun r => [r.2]
  | ⟨_, _, elems⟩ => .bind (SignElem.readAll_types elems) fun _ =>
    .bind (newType_types (by simp +contextual)) fun _ => .pure
theorem SignElem.readAll_types : ∀ es : List (Option SignElem), Makes (SignElem.readAll es) fun r =>
    r.2.map TupleField.type
  | [] => .pure
  | none :: _ => .throw _
  | some ⟨_, _, _, sign⟩ :: es => .bind sign.read_types fun _ => .bind (SignElem.readAll_types es) fun _ => .pure
end

/-! ### Calls in the course of typing -/

theorem avoiding_of_inUse {k : Nat} (h : TypeRule.inUse.Holds c) (htable : c'.table = c.table)
    (hgraph : c'.graph = c.graph) (hvars : c'.vars = c.vars + 1) (hk : c'.constraints.length ≤ k) :
    (TypeRule.avoiding c.vars k).Holds c' where
  base := Nat.le_of_eq hvars.symm
  parts hi t ht hv := by
    rw [hgraph] at hi
    have := h.parts hi t ht _ hv
    omega
  symbols hs hv := by
    rw [htable] at hs
    have := h.symbols hs _ hv
    omega
  constraints hd _ := by
    have hnil : c'.constraints.drop k = [] := drop_eq_nil_of_le hk
    exact absurd hd (by simp [TypeRule.avoiding, hnil])

/-- What is known of an identifier right after it was typed. -/
def NewIdent (c c' : Context) (e : Expr) : Prop :=
  ∀ i, e = .ident i → i.candidates ≠ [] → i.mark.type = .var c.vars ∧ c'.graph = c.graph ∧ c'.vars = c.vars + 1

theorem call_typed {c1 c2 c3 : Context} {callee : Expr} {fields : List TupleField} {function : Ty}
    (hargs : Typed c c1 (Labelled.exprs .argument args) [] (fields.map TupleField.type))
    (hrecorded : Forall₂ (ArgRecorded c1.constraints) args fields)
    (hcallee : Typed { c1 with vars := c1.vars + 1 } c2 callee.exprs [] callee.handed)
    (hnew : NewIdent { c1 with vars := c1.vars + 1 } c2 callee)
    (hfunction : (newFunction fields (.var c1.vars)).run c2 = .ok (function, c3)) (htype : callee.type = .ok t)
    (hrequire : (require (.equality t function (mark.location [.callee]))).run c3 = .ok (u, c')) :
    Typed c c' (Expr.call (mark.typed (.var c1.vars)) callee args).exprs [] [.var c1.vars] := by
  obtain ⟨hmade, i, d, rfl, htuple, hnode⟩ := newFunction_builds hfunction
  obtain ⟨hconstraint, hcs⟩ := require_builds [t] hrequire (by simp)
  have h1 := (hargs.trans (builds_fresh c1).typed (by simp)).trans hcallee (by simp)
  have h2 := h1.trans hmade.typed fun u hu => .inl (by
    rcases mem_cons.mp hu with rfl | hu
    · simp
    · exact mem_append_left _ (mem_append_left _ hu))
  have h3 := h2.trans hconstraint.typed (by simp [mem_handed htype])
  refine (h3.weaken ?_ (by simp) (by simp)).cons (fun hin => ?_) nofun
  · intro x hx
    simp only [mem_append] at hx ⊢
    tauto
  · have hsub : c1.constraints ⊆ c'.constraints := by
      have hgrows := ((hcallee.builds.grows.trans hmade.grows).trans hconstraint.grows).constraints
      exact hgrows.subset
    refine ⟨t, fields, i, c3.constraints, [], ⟨htype, ⟨d, ?_, ?_⟩, hcs, ?_⟩, fun j hj hcandidates => ?_⟩
    · exact hconstraint.grows.graph _ _ htuple
    · exact hconstraint.grows.graph _ _ hnode
    · refine hrecorded.imp fun a field ha => ?_
      obtain ⟨x, location, hx, hlabel, hmem⟩ := ha
      exact ⟨x, location, hx, hlabel, hsub hmem⟩
    · obtain ⟨hvar, hgraph, hvars⟩ := hnew j hj hcandidates
      obtain ⟨hin1, hfields⟩ := hargs.builds.keeps.rule _ hin (by simp)
      obtain ⟨hin2, hresult⟩ := (builds_fresh c1).keeps.rule _ hin1 (by simp)
      have hident : j.Recorded c2 c2.constraints := hcallee.idents j (by simp [hj, Expr.exprs])
      have htj : t = .var ((c1.vars + 1 : Nat) : Int) := by
        rw [hj] at htype
        exact (Except.ok.inj htype).symm.trans hvar
      have hne : Ty.var (c1.vars : Int) ≠ .var ((c1.vars + 1 : Nat) : Int) := by
        intro heq
        have := Ty.var.inj heq
        omega
      refine ⟨c1.vars + 1, htj, ?_, ?_, ?_, ?_⟩
      · exact Nat.le_succ_of_le hargs.builds.keeps.vars
      · -- the function type is made of variables below that of the callee, and its own constraint is not watched
        have hk : c2.constraints.length ≤ c3.constraints.length + 1 :=
          Nat.le_succ_of_le hmade.grows.constraints.length_le
        have hrule := avoiding_of_inUse hin2 hcallee.builds.grows.table hgraph hvars hk
        obtain ⟨hrule3, -⟩ := hmade.keeps.rule _ hrule fun u hu => by
          intro hv
          rcases mem_cons.mp hu with rfl | hu
          · exact hne hv
          · have hlt : ((c1.vars + 1 : Nat) : Int) < c1.vars := hfields u hu _ hv
            omega
        cases hrequire
        exact ⟨hrule3.base, hrule3.parts, hrule3.symbols, fun hd _ => by simp [TypeRule.avoiding] at hd⟩
      · exact forall_mem_singleton.mpr hne
      · exact hident.mono ((hmade.grows.trans hconstraint.grows).table) hmade.grows.constraints.subset

/-! ### Expressions -/

/-- Types a function by its signature, if there is one. -/
def FuncSign.obligeIfAny (mark : Mark) : Option FuncSign → AnalysisM (Option FuncSign)
  | some s => do
    let (s, type) ← s.read
    require (.equality mark.type type (mark.location [.signature]))
    pure (some s)
  | none => pure none

/-- Types the body of a function, which may be missing. -/
def Expr.obligeBody (mark : Mark) (codomain : Ty) : Expr → AnalysisM Expr
  | .missing => pure .missing
  | body => do
    let body ← body.oblige
    require (.conformance (← (body.type : Except Fault _)) codomain (mark.location [.body]))
    pure body

theorem Expr.oblige_func (mark : Mark) (name : String) (sign : Option FuncSign) (body : Expr) (scope inner : ScopeId)
    (symbol : SymbolId) (params : List SymbolId) :
    (Expr.func ⟨mark, name, sign, body, scope, inner, symbol, params⟩).oblige = (do
      let c ← get
      match c.graph.function? mark.type with
      | none => throw (.unboundFunction name)
      | some (_, codomain) => do
        let sign ← FuncSign.obligeIfAny mark sign
        let body ← body.obligeBody mark codomain
        return .func ⟨mark, name, sign, body, scope, inner, symbol, params⟩) := by
  rw [Expr.oblige.eq_def]
  refine bind_congr fun c => ?_
  cases c.graph.function? mark.type with
  | none => rfl
  | some p => cases sign <;> cases body <;> simp [FuncSign.obligeIfAny, Expr.obligeBody]

/-- What is known of an identifier right after it was typed. -/
theorem Expr.oblige_newIdent (h : e.oblige.run c = .ok (.ident i, c')) (hcandidates : i.candidates ≠ []) :
    i.mark.type = .var c.vars ∧ c'.graph = c.graph ∧ c'.vars = c.vars + 1 := by
  cases e with
  | ident j =>
    obtain ⟨i', c1, h, heq⟩ := run_bind_eq_ok.mp h
    cases heq
    exact (Ident.oblige_builds h).2.2 hcandidates
  | missing | binary | unary => cases h
  | func f =>
    cases f
    rw [Expr.oblige_func] at h
    obtain ⟨a, c1, -, h⟩ := run_bind_eq_ok.mp h
    split at h
    · cases h
    · simp only [run_bind_eq_ok, run_pure_eq_ok, Prod.mk.injEq, reduceCtorEq, false_and, and_false, exists_false] at h
  | argument a | element a =>
    cases a
    simp only [Expr.oblige, run_bind_eq_ok, run_pure_eq_ok, Prod.mk.injEq, reduceCtorEq, false_and, and_false,
      exists_false] at h
  | _ =>
    simp only [Expr.oblige, run_bind_eq_ok, run_pure_eq_ok, Prod.mk.injEq, reduceCtorEq, false_and, and_false,
      exists_false] at h

mutual
theorem Expr.oblige_types : ∀ (e : Expr) {known : List Expr} {given : List Ty},
    Types known given e.oblige Expr.exprs Expr.handed
  | .missing, _, _ => .throw _
  | .func ⟨mark, name, sign, body, scope, inner, symbol, params⟩, known, given => by
    rw [Expr.oblige_func]
    intro c c' r h
    obtain ⟨a, c1, hget, h⟩ := run_bind_eq_ok.mp h
    cases hget
    split at h
    · cases h
    · next d codomain hfunction =>
      obtain ⟨i, hi, hnode⟩ := function?_eq_some hfunction
      have hsign : Types known (codomain :: given) (FuncSign.obligeIfAny mark sign) (fun _ => []) fun _ => [] := by
        cases sign with
        | none => exact .pure
        | some s => exact .bind s.read_types fun _ => .bind (require_types (by simp [hi])) fun _ => .pure
      have hbody : Types known (codomain :: given) (body.obligeBody mark codomain) Expr.exprs fun _ => [] := by
        unfold Expr.obligeBody
        split
        · exact .pure
        · exact .bind body.oblige_types fun _ => .bind type_types fun _ =>
            .bind (require_types (by simp)) fun _ => .pure
      refine Types.seen Expr.exprs Expr.handed (fun q hq => hq.parts hnode codomain (by simp))
        (.bind hsign fun _ => .bind hbody fun _ => .pure ?_ ?_) h
      · simp +contextual [Expr.isPlain]
      · simp [Expr.handed, Expr.mark?, hi]
  | .cond .., _, _ => .bind (Expr.oblige_types _) fun _ => .bind type_types fun _ =>
    .bind (require_types (by simp)) fun _ => .bind (Expr.oblige_types _) fun _ => .bind (Expr.oblige_types _) fun _ =>
    .bind type_types fun _ => .bind type_types fun _ =>
    .bind (newUnion_types (by simp)) fun _ => .pure
  | .matching _ subject cases, _, _ => .bind subject.oblige_types fun _ => .bind type_types fun _ =>
    .bind (MatchCase.obligeAll_types cases (by simp)) fun _ =>
      .bind (newUnion_types (by simp +contextual)) fun _ => .pure
  | .letBinding _, _, _ => .bind symbolType_types fun _ => .pure
  | .binary .., _, _ | .unary .., _, _ => .throw _
  | .call mark callee args, _, _ => .of_typed fun h => by
    obtain ⟨⟨args', fields⟩, c1, hargs, h⟩ := run_bind_eq_ok.mp h
    obtain ⟨result, c2, hfresh, h⟩ := run_bind_eq_ok.mp h
    obtain ⟨rfl, rfl⟩ := fresh_eq_ok hfresh
    obtain ⟨callee', c3, hcallee, h⟩ := run_bind_eq_ok.mp h
    obtain ⟨function, c4, hfunction, h⟩ := run_bind_eq_ok.mp h
    obtain ⟨t, c5, ht, h⟩ := run_bind_eq_ok.mp h
    obtain ⟨u, c6, hrequire, h⟩ := run_bind_eq_ok.mp h
    cases h
    obtain ⟨t', htype, heq⟩ := run_lift_eq_ok.mp ht
    cases heq
    obtain ⟨htyped, hrecorded⟩ := Labelled.obligeArgs_typed args hargs
    refine call_typed htyped hrecorded (callee.oblige_types.typed hcallee) ?_ hfunction htype hrequire
    rintro i rfl
    exact Expr.oblige_newIdent hcallee
  | .argument ⟨_, _, value⟩, _, _ | .element ⟨_, _, value⟩, _, _ => .bind value.oblige_types fun _ =>
    .bind type_types fun _ => .pure
  | .tuple _ _ elems, _, _ => .bind (Labelled.obligeElems_types elems) fun _ =>
    .bind (newType_types (by simp +contextual)) fun _ => .pure
  | .select _ owner _, _, _ => .bind owner.oblige_types fun _ => .bind fresh_types fun _ => .bind type_types fun _ =>
    .bind (require_types (by simp)) fun _ => .pure
  | .ident i, _, _ => .of_typed fun h => by
    obtain ⟨i', c1, hident, h⟩ := run_bind_eq_ok.mp h
    cases h
    obtain ⟨hbuilds, hrecorded, -⟩ := Ident.oblige_builds hident
    refine hbuilds.typed.cons (fun _ => trivial) fun j hj => ?_
    cases hj
    exact hrecorded
  | .literal .., _, _ => .pure
theorem Labelled.obligeArgs_typed :
    ∀ (xs : List (Option Labelled)) {call : Mark} {k : Nat} {xs' : List (Option Labelled)}
    {fields : List TupleField} {c c' : Context}, (Labelled.obligeArgs call k xs).run c = .ok ((xs', fields), c') →
      Typed c c' (Labelled.exprs .argument xs') [] (fields.map TupleField.type) ∧
      Forall₂ (ArgRecorded c'.constraints) xs' fields
  | [], _, _, _, _, c, _, h => by
    cases h
    exact ⟨(Builds.refl c).typed, .nil⟩
  | none :: _, _, _, _, _, _, _, h => by cases h
  | some ⟨mark, label, value⟩ :: rest, call, k, xs', fields, c, c', h => by
    obtain ⟨slot, c1, hfresh, h⟩ := run_bind_eq_ok.mp h
    obtain ⟨rfl, rfl⟩ := fresh_eq_ok hfresh
    obtain ⟨value', c2, hvalue, h⟩ := run_bind_eq_ok.mp h
    obtain ⟨t, c3, ht, h⟩ := run_bind_eq_ok.mp h
    obtain ⟨u, c4, hrequire, h⟩ := run_bind_eq_ok.mp h
    obtain ⟨⟨rest', fields'⟩, c5, hrest, h⟩ := run_bind_eq_ok.mp h
    cases h
    obtain ⟨rfl, hmem⟩ := type_eq_ok ht
    obtain ⟨hconstraint, hcs⟩ := require_builds [t, .var c.vars] hrequire (by simp)
    obtain ⟨htyped, hrecorded⟩ := Labelled.obligeArgs_typed rest hrest
    have hvalued : Typed _ _ value'.exprs [] value'.handed := value.oblige_types.typed hvalue
    have h1 := (builds_fresh c).typed.trans hvalued (by simp)
    have h2 := (h1.trans hconstraint.typed (by simp [hmem])).trans htyped (by simp)
    constructor
    · refine (h2.weaken (by simp) (by simp) ?_).cons (fun _ => trivial) nofun
      intro t ht
      rcases mem_cons.mp ht with rfl | ht
      · simp
      · exact .inl (mem_append_right _ ht)
    · refine .cons ⟨_, call.location [.tuple, .element k], rfl, rfl,
        htyped.builds.grows.constraints.subset ?_⟩ hrecorded
      rw [hcs]
      exact mem_append_right _ (mem_singleton_self _)
theorem Labelled.obligeElems_types : ∀ (xs : List (Option Labelled)) {known : List Expr} {given : List Ty},
    Types known given (Labelled.obligeElems xs) (fun r => Labelled.exprs .element r.1) fun r => r.2.map TupleField.type
  | [], _, _ => .pure
  | none :: _, _, _ => .throw _
  | some ⟨_, _, value⟩ :: rest, _, _ =>
    .bind value.oblige_types fun _ => .bind type_types fun _ => .bind (Labelled.obligeElems_types rest) fun _ => .pure
theorem MatchCase.obligeAll_types :
    ∀ (xs : List (Option MatchCase)) {known : List Expr} {given : List Ty} {mark : Mark} {subject : Ty}
    {k : Nat}, (subject ∈ given) →
    Types known given (MatchCase.obligeAll mark subject k xs) (fun r => MatchCase.exprs r.1) fun r => r.2
  | [], _, _, _, _, _, _ => .pure
  | none :: _, _, _, _, _, _, _ => .throw _
  | some ⟨_, pattern, value, _⟩ :: rest, _, _, _, _, _, h => .bind pattern.oblige_types fun _ =>
    .bind value.oblige_types fun _ => .bind type_types fun _ => .bind type_types fun _ =>
    .bind (require_types (by simp [h])) fun _ =>
    .bind (MatchCase.obligeAll_types rest (by simp [h])) fun _ => .pure
end

/-! ### Modules -/

theorem TypeAlias.oblige_types (a : TypeAlias) : Makes a.oblige fun _ => [] := by
  intro known given
  unfold TypeAlias.oblige
  split
  · exact .pure
  · split
    · exact .pure
    · exact .bind (Sign.read_types _) fun _ => .bind (newType_types (by simp)) fun _ => .bind symbolType_types fun _ =>
        .bind (require_types (by simp)) fun _ => .pure

mutual
theorem Node.oblige_types : ∀ (n : Node) {known : List Expr} {given : List Ty},
    Types known given n.oblige Node.exprs fun _ => []
  | .missing, _, _ => .throw _
  | .module m, _, _ => .bind m.oblige_types fun _ => .pure
  | .alias a, _, _ => .bind a.oblige_types fun _ => .pure
  | .expr e, _, _ => .bind e.oblige_types fun _ => .pure
  | .sign .missing, _, _ => .throw _
  | .sign (.name _), _, _ | .sign (.func _), _, _ | .sign (.tuple _), _, _ | .sign (.union ..), _, _ | .signElem _,
    _, _ => .pure
  | .matchCase x, _, _ => .bind x.pattern.oblige_types fun _ => .bind x.value.oblige_types fun _ => .pure
theorem Node.obligeAll_types : ∀ (ns : List Node) {known : List Expr} {given : List Ty},
    Types known given (Node.obligeAll ns) Node.allExprs fun _ => []
  | [], _, _ => .pure
  | n :: ns, _, _ => .bind n.oblige_types fun _ => .bind (Node.obligeAll_types ns) fun _ => .pure
theorem Module.oblige_types : ∀ (m : Module) {known : List Expr} {given : List Ty},
    Types known given m.oblige Module.exprs fun _ => []
  | ⟨_, _, _, statements, _⟩, _, _ => .bind (Node.obligeAll_types statements) fun _ => .pure
end

theorem Node.oblige_typed {n n' : Node} (h : n.oblige.run c = .ok (n', c')) :
    Typed c c' n'.exprs [] [] := n.oblige_types.typed h

/-- **Generation.** The constraints of all expressions of a module are recorded, and stay. -/
theorem Module.oblige_typed {m m' : Module} (h : m.oblige.run c = .ok (m', c')) :
    Typed c c' m'.exprs [] [] := m.oblige_types.typed h

end TypeInference
