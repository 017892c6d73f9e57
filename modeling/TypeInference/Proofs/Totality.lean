import TypeInference.Proofs.Desugaring
import TypeInference.Proofs.Grammar
import TypeInference.Proofs.Slots
import TypeInference.Proofs.Stages

/-! # Nothing stops the analysis of an intact module

A module that was bound can be typed (`Module.oblige_succeeds`): every expression gets a type, and every name has a
meaning or is reported. With the stages before it, this makes the analysis of a module total up to its constraints
(`intact_module_typed`). -/

namespace TypeInference

open AnalysisM
open List

variable {c : Context} {e : Expr} {mark : Mark} {m given : Module} {t : Ty}

section

variable {c c1 : Context}

/-! ### Reading signatures -/

theorem TypeName.read_succeeds {n : TypeName} (h : c.HasScope n.scope) :
    Succeeds c (fun r c1 => c1.Has r.2) n.read := by
  have herror {c : Context} {code : Code} {token : Token} {message : String} (hcode : code ∈ Code.known) :
      Succeeds c (fun r c1 => c1.Has r.2) (do diagnose code token message; return (n, Ty.error)) :=
    (diagnose_succeeds hcode).bind fun _ _ _ _ => .pure trivial
  refine (meanings_succeeds h n.name).bind fun ids c1 _ hids => ?_
  split
  · exact herror (by decide)
  · next id =>
    obtain ⟨k, rfl, hk⟩ := hids id mem_cons_self
    have hs : c1.table.symbols[k]? = some c1.table.symbols[k] := Array.getElem?_eq_getElem hk
    refine .get_bind ?_
    have hlift : Succeeds c1 (fun s c2 => c2 = c1) (liftM (c1.table.symbol k) : AnalysisM Symbol) :=
      .lift fun _ => ⟨_, SymbolTable.symbol_eq_ok.mpr ⟨k, rfl, hs⟩, rfl⟩
    refine hlift.bind fun s c2 _ hc2 => ?_
    subst hc2
    split
    · next type htype =>
      intro hc
      refine ⟨_, _, rfl, hc, .refl _, ?_⟩
      obtain ⟨i, -, hi⟩ := metatype?_eq_some htype
      exact hc.parts hi type (by simp [Composite.parts])
    · exact herror (by decide)
  · exact herror (by decide)

theorem unitType_succeeds : Succeeds c (fun t c1 => ∃ i, t = .node i ∧ c1.Has t) unitType := by
  refine (newType_succeeds (by simp [Composite.parts]) (by simp)).imp ?_
  rintro _ c1 - ⟨⟨i, rfl, hi⟩, -⟩
  exact ⟨i, rfl, Context.has_node hi⟩

theorem functionType_succeeds {d : NodeId} {codomain : Ty} (hdomain : c.Has (.node d)) (hcodomain : c.Has codomain) :
    Succeeds c (fun t c1 => c1.Has t) (functionType (.node d) codomain) := by
  refine (newType_succeeds (by simpa [Composite.parts] using hcodomain) ?_).imp ?_
  · rintro _ _ ⟨⟩
    exact ⟨d, rfl, hdomain⟩
  · rintro _ c1 - ⟨⟨i, rfl, hi⟩, -⟩
    exact Context.has_node hi

mutual
theorem Sign.read_succeeds : ∀ (s : Sign) {c : Context}, s.Intact → TypeName.AllPlaced c s.typeNames →
    Succeeds c (fun r c1 => c1.Has r.2) s.read
  | .missing, _, _, _ => unitType_succeeds.bind fun _ _ _ ht => .pure ht.choose_spec.2
  | .name n, _, _, hn => (TypeName.read_succeeds (hn n mem_cons_self)).bind fun _ _ _ hr => .pure hr
  | .func f, _, h, hn => (f.read_succeeds h hn).bind fun _ _ _ hr => .pure hr
  | .tuple t, _, h, hn => (t.read_succeeds h hn).bind fun _ _ _ ⟨_, hr⟩ => .pure hr.2
  | .union _ cases, _, h, hn => (Sign.readAll_succeeds cases h hn).bind fun _ _ _ hr =>
    (newUnion_succeeds hr).bind fun _ _ _ ht => .pure ht
theorem Sign.readAll_succeeds : ∀ (ss : List Sign) {c : Context}, Sign.AllIntact ss →
    TypeName.AllPlaced c (Sign.allTypeNames ss) → Succeeds c (fun r c1 => ∀ t ∈ r.2, c1.Has t) (Sign.readAll ss)
  | [], _, _, _ => .pure (by simp)
  | s :: ss, c, ⟨_, hs, hss⟩, hn => by
    obtain ⟨hn, hns⟩ := forall_mem_append.mp hn
    refine (s.read_succeeds hs hn).bind fun r c1 hlater1 hr => ?_
    refine (Sign.readAll_succeeds ss hss (TypeName.AllPlaced.mono hns hlater1)).bind fun rs c2 hlater2 hrs => ?_
    exact .pure (forall_mem_cons.mpr ⟨hlater2.has hr, hrs⟩)
theorem FuncSign.read_succeeds : ∀ (f : FuncSign) {c : Context}, f.Intact → TypeName.AllPlaced c f.typeNames →
    Succeeds c (fun r c1 => c1.Has r.2) f.read
  | ⟨_, none, codomain⟩, c, h, hn => by
    refine unitType_succeeds.bind fun d c1 hlater1 ⟨i, hd, hhas⟩ => ?_
    refine (codomain.read_succeeds h (hn.mono hlater1)).bind fun r c2 hlater2 hr => ?_
    subst hd
    exact (functionType_succeeds (hlater2.has hhas) hr).bind fun t c3 _ ht => .pure ht
  | ⟨_, some domain, codomain⟩, c, ⟨hdomain, hcodomain⟩, hn => by
    obtain ⟨hn, hns⟩ := forall_mem_append.mp hn
    refine (domain.read_succeeds hdomain hn).bind fun ⟨domain', d⟩ c1 hlater1 ⟨i, hd, hhas⟩ => ?_
    refine (codomain.read_succeeds hcodomain (TypeName.AllPlaced.mono hns hlater1)).bind fun r c2 hlater2 hr => ?_
    dsimp only at hd
    subst hd
    exact (functionType_succeeds (hlater2.has hhas) hr).bind fun t c3 _ ht => .pure ht
theorem TupleSign.read_succeeds : ∀ (t : TupleSign) {c : Context}, t.Intact → TypeName.AllPlaced c t.typeNames →
    Succeeds c (fun r c1 => ∃ i, r.2 = .node i ∧ c1.Has r.2) t.read
  | ⟨_, label, elems⟩, c, h, hn => by
    refine (SignElem.readAll_succeeds elems h hn).bind fun ⟨elems', fields⟩ c1 _ hfields => ?_
    refine (newType_succeeds (x := .tuple label fields) (by simpa [Composite.parts] using hfields) (by simp)).bind
      fun t c2 _ ht => ?_
    obtain ⟨⟨i, rfl, hi⟩, -⟩ := ht
    exact .pure ⟨i, rfl, Context.has_node hi⟩
theorem SignElem.readAll_succeeds : ∀ (es : List (Option SignElem)) {c : Context}, SignElem.AllIntact es →
    TypeName.AllPlaced c (SignElem.allTypeNames es) →
    Succeeds c (fun r c1 => ∀ f ∈ r.2, c1.Has f.type) (SignElem.readAll es)
  | [], _, _, _ => .pure (by simp)
  | none :: _, _, h, _ => h.elim
  | some ⟨_, _, _, sign⟩ :: es, c, ⟨hsign, hes⟩, hn => by
    obtain ⟨hn, hns⟩ := forall_mem_append.mp hn
    refine (sign.read_succeeds hsign hn).bind fun r c1 hlater1 hr => ?_
    refine (SignElem.readAll_succeeds es hes (TypeName.AllPlaced.mono hns hlater1)).bind fun rs c2 hlater2 hrs => ?_
    exact .pure (forall_mem_cons.mpr ⟨hlater2.has hr, hrs⟩)
end

/-! ### Typing -/

/-- The type was read from the signature, with the types and symbols of the state or some of them. -/
def FuncSign.ReadAs (c : Context) (s : FuncSign) (t : Ty) : Prop :=
  ∃ (before : FuncSign) (c1 c2 : Context), before.read.run c1 = .ok ((s, t), c2) ∧ c2.graph.Extends c.graph ∧
    ∀ (a : Nat) (x : Symbol), c2.table.symbols[a]? = some x → c.table.symbols[a]? = some x

theorem FuncSign.ReadAs.mono {s : FuncSign} (h : s.ReadAs c t) (hlater : Later c c1) : s.ReadAs c1 t := by
  obtain ⟨before, c2, c3, hread, hgraph, hsymbols⟩ := h
  exact ⟨before, c2, c3, hread, fun i x hx => hlater.graph i x (hgraph i x hx),
    fun a x hx => hlater.symbols (hsymbols a x hx)⟩

theorem FuncSign.read_readAs (s : FuncSign) (h : s.Placed c) :
    Succeeds c (fun r c1 => r.1.ReadAs c1 r.2 ∧ c1.Has r.2) s.read := by
  intro hc
  obtain ⟨⟨s', t⟩, c1, hrun, hc1, hlater, ht⟩ := s.read_succeeds h.1 h.2 hc
  exact ⟨(s', t), c1, hrun, hc1, hlater, ⟨s, c, c1, hrun, fun _ _ h => h, fun _ _ h => h⟩, ht⟩

/-- The function has its symbol, and its type is to be the one of its signature. -/
structure Func.Signed (c : Context) (f : Func) : Prop where
  known : f.Known c
  sign : ∀ s ∈ f.sign, ∃ t, s.ReadAs c t ∧ c.Has t ∧
    .equality f.mark.type t (f.mark.location [.signature]) ∈ c.constraints

theorem Func.Signed.mono {f : Func} (h : f.Signed c) (hlater : Later c c1) : f.Signed c1 where
  known := h.known.mono hlater
  sign s hs := by
    obtain ⟨t, hread, ht, hmem⟩ := h.sign s hs
    exact ⟨t, hread.mono hlater, hlater.has ht, hlater.constraints hmem⟩

/-- The expression has a type; a name has a meaning if it is not reported, and a function has its signature recorded. -/
structure Expr.Typed (c : Context) (e : Expr) : Prop where
  type : ∃ t, e.type = .ok t ∧ c.Has t
  ident : ∀ i, e = .ident i → i.candidates ≠ [] ∨ c.Reports i.mark.token
  func : ∀ f, e = .func f → f.Signed c

theorem Expr.Typed.mono (h : e.Typed c) (hlater : Later c c1) : e.Typed c1 :=
  ⟨h.type.imp fun _ => And.imp_right hlater.has, fun i hi => (h.ident i hi).imp_right hlater.reports,
    fun f hf => (h.func f hf).mono hlater⟩

/-- The expression is there, and everything in it is typed. -/
structure Expr.AllTyped (c : Context) (e : Expr) : Prop where
  present : e ≠ .missing
  exprs : ∀ x ∈ e.exprs, x.Typed c

theorem Expr.AllTyped.mono (h : e.AllTyped c) (hlater : Later c c1) : e.AllTyped c1 :=
  ⟨h.present, fun x hx => (h.exprs x hx).mono hlater⟩

theorem Expr.mem_exprs : ∀ {e : Expr}, e ≠ .missing → e ∈ e.exprs
  | .missing, h => absurd rfl h
  | .func ⟨_, _, _, _, _, _, _, _⟩, _ | .cond .., _ | .matching .., _ | .letBinding _, _ | .binary .., _ | .unary ..,
      _ | .call .., _
  | .argument ⟨_, _, _⟩, _ | .tuple .., _ | .element ⟨_, _, _⟩, _ | .select .., _ | .ident _, _ | .literal ..,
    _ => mem_cons_self

theorem Expr.typed_of_mark (hmark : e.mark? = some mark) (h : c.Has mark.type) (hident : ∀ i, e ≠ .ident i)
    (hfunc : ∀ f, e = .func f → f.Signed c) : e.Typed c where
  type := by
    unfold Expr.type
    rw [hmark]
    exact ⟨_, rfl, h⟩
  ident i hi := absurd hi (hident i)
  func := hfunc

theorem Expr.AllTyped.type_succeeds (h : e.AllTyped c) : Succeeds c (fun t c1 => c1 = c ∧ c.Has t)
    (liftM e.type : AnalysisM Ty) :=
  .lift fun _ => (h.exprs e (Expr.mem_exprs h.present)).type.imp fun _ => And.imp_right fun ht => ⟨rfl, ht⟩

theorem Expr.allTyped_of_parts {parts : List Expr} (hmark : e.mark? = some mark) (h : c.Has mark.type)
    (hident : ∀ i, e ≠ .ident i) (hfunc : ∀ f, e = .func f → f.Signed c) (hexprs : e.exprs = e :: parts)
    (hparts : ∀ x ∈ parts, x.Typed c) : e.AllTyped c where
  present := by
    rintro rfl
    cases hmark
  exprs := by
    rw [hexprs]
    exact forall_mem_cons.mpr ⟨Expr.typed_of_mark hmark h hident hfunc, hparts⟩

theorem requireRelation_succeeds {rel : Relation} {u : Ty} {location : Location} (ht : c.Has t) (hu : c.Has u) :
    Succeeds c (fun _ c1 => .relate rel t u location ∈ c1.constraints) (require (.relate rel t u location)) := by
  refine require_succeeds (Constraint.known_relate _ _ _ _) fun x hx => ?_
  rcases Constraint.mentions_relate.mp hx with rfl | rfl
  · exact ht
  · exact hu

theorem Ident.oblige_succeeds {i : Ident} (h : c.HasScope i.scope) :
    Succeeds c (fun i' c1 => c1.Has i'.mark.type ∧ (i'.candidates ≠ [] ∨ c1.Reports i'.mark.token)) i.oblige := by
  unfold Ident.oblige
  refine (meanings_succeeds h i.name).bind fun ids c1 _ hids => ?_
  split
  · exact (diagnose_succeeds (by decide)).bind fun _ c2 _ hreport => .pure ⟨trivial, .inr (hreport.2 rfl)⟩
  · next id =>
    refine fresh_succeeds.bind fun t c2 hlater2 ht => ?_
    refine (symbolType_succeeds (.inr (hlater2.hasSymbol (hids id mem_cons_self)))).bind fun u c3 hlater3 hu => ?_
    refine (requireRelation_succeeds (hlater3.has ht.1) hu).bind fun _ c4 hlater4 _ => .pure ⟨?_, .inl (by simp)⟩
    exact hlater4.has (hlater3.has ht.1)
  · next hnil _ =>
    refine fresh_succeeds.bind fun t c2 hlater2 ht => ?_
    refine (Succeeds.mapM (S := fun _ d c => d.Known ∧ ∀ x, Constraint.Mentions x d → c.Has x)
      (fun hlater h => ⟨h.1, fun x hx => hlater.has (h.2 x hx)⟩) fun id hid c3 hlater3 =>
      ?_).bind fun choices c3 hlater3 hchoices => ?_
    · refine (symbolType_succeeds (.inr (hlater3.hasSymbol (hlater2.hasSymbol (hids id hid))))).bind
        fun u c4 hlater4 hu => .pure ?_
      refine ⟨Constraint.known_relate _ _ _ _, fun x hx => ?_⟩
      rcases Constraint.mentions_relate.mp hx with rfl | rfl
      · exact hlater4.has (hlater3.has ht.1)
      · exact hu
    · have hall : ∀ d ∈ choices, d.Known ∧ ∀ x, Constraint.Mentions x d → c3.Has x :=
        ((forall₂_and_left _ _).mp (hchoices.flip.imp fun d _ hd => And.intro hd trivial)).1
      refine (require_succeeds (Constraint.known_oneOf _ fun d hd => (hall d hd).1) fun x hx =>
        ?_).bind fun _ c4 hlater4 _ => .pure ⟨hlater4.has (hlater3.has ht.1), .inl hnil⟩
      obtain ⟨d, hd, hx⟩ := Constraint.mentions_oneOf.mp hx
      exact (hall d hd).2 x hx

theorem Expr.oblige_func_succeeds {name : String} {sign : Option FuncSign} {body : Expr} {scope inner : ScopeId}
    {symbol : SymbolId} {params : List SymbolId} (htype : c.HasFunction mark.type)
    (hknown : Func.Known c ⟨mark, name, sign, body, scope, inner, symbol, params⟩) (hsign : ∀ s ∈ sign, s.Placed c)
    (hbody : ∀ {c1 : Context} {codomain : Ty}, Later c c1 → c1.Has codomain →
      Succeeds c1 (fun body' c2 => ∀ x ∈ body'.exprs, x.Typed c2) (body.obligeBody mark codomain)) :
    Succeeds c (fun e c1 => e.AllTyped c1)
    (Expr.func ⟨mark, name, sign, body, scope, inner, symbol, params⟩).oblige := by
  rw [Expr.oblige_func]
  have hsigned : Succeeds c (fun sign' c1 => ∀ s ∈ sign', ∃ t, s.ReadAs c1 t ∧ c1.Has t ∧
      .equality mark.type t (mark.location [.signature]) ∈ c1.constraints) (FuncSign.obligeIfAny mark sign) := by
    cases sign with
    | none => exact .pure (by simp)
    | some s =>
      refine (s.read_readAs (hsign s rfl)).bind fun ⟨s', t⟩ c1 hlater1 ⟨hread, ht⟩ => ?_
      refine (requireRelation_succeeds (hlater1.has htype.has) ht).bind fun _ c2 hlater2 hmem => .pure ?_
      rintro _ ⟨⟩
      exact ⟨t, hread.mono hlater2, hlater2.has ht, hmem⟩
  obtain ⟨i, d, u, label, fields, hnode, hi, hd⟩ := htype
  have hfunction : c.graph.function? mark.type = some (some d, u) := by
    rw [hnode, TypeGraph.function?]
    simp [hi]
  refine .get_bind ?_
  rw [hfunction]
  intro hc
  have hcodomain : c.Has u := hc.parts hi u (by simp [Composite.parts])
  refine (hsigned.bind fun sign' c1 hlater1 hsign' =>
    (hbody hlater1 (hlater1.has hcodomain)).bind fun body' c2 hlater2 hbody' => .pure ?_) hc
  have hmark : c.Has mark.type := hnode ▸ Context.has_node hi
  have hsigned' : Func.Signed c2 ⟨mark, name, sign', body', scope, inner, symbol, params⟩ := by
    refine ⟨fun hname hclean => (hknown.mono (hlater1.trans hlater2)) hname hclean, fun s hs => ?_⟩
    obtain ⟨t, hread, ht, hmem⟩ := hsign' s hs
    exact ⟨t, hread.mono hlater2, hlater2.has ht, hlater2.constraints hmem⟩
  refine Expr.allTyped_of_parts rfl (hlater2.has (hlater1.has hmark)) (by simp) ?_ rfl hbody'
  rintro _ ⟨⟩
  exact hsigned'

mutual
theorem Expr.oblige_succeeds : ∀ (e : Expr) {c : Context}, e.Placed c →
    Succeeds c (fun e' c1 => e'.AllTyped c1) e.oblige
  | .missing, _, h => h.elim
  | .func ⟨mark, _, _, body, _, _, _, _⟩, c, ⟨⟨htype, hknown⟩, hsign, hbody⟩ => by
    refine Expr.oblige_func_succeeds htype hknown hsign fun {c1 codomain} hlater hcodomain => ?_
    rcases hbody with rfl | hbody
    · exact .pure (by simp [Expr.exprs])
    · have hoblige : body.obligeBody mark codomain = (do
          let body ← body.oblige
          require (.conformance (← (body.type : Except Fault _)) codomain (mark.location [.body]))
          pure body) := by
        cases body with
        | missing => exact hbody.elim
        | _ => rfl
      rw [hoblige]
      refine (body.oblige_succeeds (hbody.mono hlater)).bind fun body' c2 hlater2 hbody' => ?_
      refine hbody'.type_succeeds.bind fun t c3 _ ⟨hc3, ht⟩ => ?_
      subst hc3
      refine (requireRelation_succeeds ht (hlater2.has hcodomain)).bind fun _ c3 hlater3 _ => .pure ?_
      exact (hbody'.mono hlater3).exprs
  | .cond _ _ _ condition thenBranch elseBranch, c, ⟨hcondition, hthen, helse⟩ => by
    refine (condition.oblige_succeeds hcondition).bind fun a c1 hlater1 ha => ?_
    refine ha.type_succeeds.bind fun t c2 _ ⟨hc2, ht⟩ => ?_
    subst hc2
    refine (requireRelation_succeeds (u := .bool) ht trivial).bind fun _ c2 hlater2 _ => ?_
    refine (thenBranch.oblige_succeeds ((hthen.mono hlater1).mono hlater2)).bind fun b c3 hlater3 hb => ?_
    refine (elseBranch.oblige_succeeds (((helse.mono hlater1).mono hlater2).mono hlater3)).bind fun d c4 hlater4 hd =>
      ?_
    have hb4 := hb.mono hlater4
    refine hb4.type_succeeds.bind fun u c5 _ ⟨hc5, hu⟩ => ?_
    subst hc5
    refine hd.type_succeeds.bind fun v c5 _ ⟨hc5, hv⟩ => ?_
    subst hc5
    refine (newUnion_succeeds (by simp [hu, hv])).bind fun type c5 hlater5 htype => .pure ?_
    refine Expr.allTyped_of_parts rfl htype (by simp) (by simp) rfl ?_
    have ha5 := (((ha.mono hlater2).mono hlater3).mono hlater4).mono hlater5
    exact forall_mem_append.mpr ⟨forall_mem_append.mpr ⟨ha5.exprs, (hb4.mono hlater5).exprs⟩, (hd.mono hlater5).exprs⟩
  | .matching mark subject cases, c, ⟨hsubject, hcases⟩ => by
    refine (subject.oblige_succeeds hsubject).bind fun a c1 hlater1 ha => ?_
    refine ha.type_succeeds.bind fun t c2 _ ⟨hc2, ht⟩ => ?_
    subst hc2
    refine (MatchCase.obligeAll_succeeds cases mark 0 (hcases.mono hlater1) ht).bind
      fun ⟨cases', types⟩ c2 hlater2 ⟨hcases', htypes⟩ => ?_
    refine (newUnion_succeeds htypes).bind fun type c3 hlater3 htype => .pure ?_
    refine Expr.allTyped_of_parts rfl htype (by simp) (by simp) rfl ?_
    exact forall_mem_append.mpr ⟨((ha.mono hlater2).mono hlater3).exprs, fun x hx => (hcases' x hx).mono hlater3⟩
  | .letBinding b, c, h =>
    (symbolType_succeeds h).bind fun t c1 _ ht =>
      .pure (Expr.allTyped_of_parts rfl ht (by simp) (by simp) rfl (by simp))
  | .binary .., _, h => h.elim
  | .unary .., _, h => h.elim
  | .call mark callee args, c, ⟨hcallee, hargs⟩ => by
    refine (Labelled.obligeArgs_succeeds args mark 0 hargs).bind fun ⟨args', fields⟩ c1 hlater1 ⟨hargs', hfields⟩ => ?_
    refine fresh_succeeds.bind fun result c2 hlater2 hresult => ?_
    refine (callee.oblige_succeeds ((hcallee.mono hlater1).mono hlater2)).bind fun a c3 hlater3 ha => ?_
    have hfields3 : ∀ f ∈ fields, c3.Has f.type := fun f hf => hlater3.has (hlater2.has (hfields f hf))
    refine (newFunction_succeeds hfields3 (hlater3.has hresult.1)).bind fun function c4 hlater4 hfunction => ?_
    have ha4 := ha.mono hlater4
    refine ha4.type_succeeds.bind fun t c5 _ ⟨hc5, ht⟩ => ?_
    subst hc5
    refine (requireRelation_succeeds ht hfunction.has).bind fun _ c5 hlater5 _ => .pure ?_
    have hlater := ((hlater2.trans hlater3).trans hlater4).trans hlater5
    have hresult5 := hlater5.has (hlater4.has (hlater3.has hresult.1))
    refine Expr.allTyped_of_parts rfl hresult5 (by simp) (by simp) rfl ?_
    exact forall_mem_append.mpr ⟨(ha4.mono hlater5).exprs, fun x hx => (hargs' x hx).mono hlater⟩
  | .argument ⟨_, _, value⟩, c, h => by
    refine (value.oblige_succeeds h).bind fun a c1 _ ha => ha.type_succeeds.bind fun t c2 _ ⟨hc2, ht⟩ => ?_
    subst hc2
    exact .pure (Expr.allTyped_of_parts rfl ht (by simp) (by simp) rfl ha.exprs)
  | .tuple _ label elems, c, h => by
    refine (Labelled.obligeElems_succeeds elems h).bind fun ⟨elems', fields⟩ c1 _ ⟨helems, hfields⟩ => ?_
    refine (newType_succeeds (x := .tuple label fields) (by simpa [Composite.parts] using hfields) (by simp)).bind
      fun t c2 hlater2 ht => ?_
    obtain ⟨⟨i, rfl, hi⟩, -⟩ := ht
    exact .pure (Expr.allTyped_of_parts rfl (Context.has_node hi) (by simp) (by simp) rfl fun x hx =>
      (helems x hx).mono hlater2)
  | .element ⟨_, _, value⟩, c, h => by
    refine (value.oblige_succeeds h).bind fun a c1 _ ha => ha.type_succeeds.bind fun t c2 _ ⟨hc2, ht⟩ => ?_
    subst hc2
    exact .pure (Expr.allTyped_of_parts rfl ht (by simp) (by simp) rfl ha.exprs)
  | .select _ owner _, c, h => by
    refine (owner.oblige_succeeds h).bind fun a c1 _ ha => fresh_succeeds.bind fun type c2 hlater2 htype => ?_
    have ha2 := ha.mono hlater2
    refine ha2.type_succeeds.bind fun t c3 _ ⟨hc3, ht⟩ => ?_
    subst hc3
    refine (require_succeeds (Constraint.known_member _ _ _ _) fun x hx => ?_).bind fun _ c3 hlater3 _ => .pure ?_
    · rcases Constraint.mentions_member.mp hx with rfl | rfl
      · exact ht
      · exact htype.1
    · exact Expr.allTyped_of_parts rfl (hlater3.has htype.1) (by simp) (by simp) rfl (ha2.mono hlater3).exprs
  | .ident i, c, h => (Ident.oblige_succeeds (i := i) h).bind fun i' c1 _ hi' => by
    refine .pure ⟨by simp, forall_mem_singleton.mpr ⟨⟨_, rfl, hi'.1⟩, ?_, by simp⟩⟩
    rintro _ ⟨⟩
    exact hi'.2
  | .literal _ value, c, _ => by
    refine .pure (Expr.allTyped_of_parts rfl ?_ (by simp) (by simp) rfl (by simp))
    cases value <;> exact trivial
theorem Labelled.obligeArgs_succeeds : ∀ (xs : List (Option Labelled)) (call : Mark) (k : Nat) {c : Context},
    Labelled.AllPlaced c xs → Succeeds c (fun r c1 => (∀ x ∈ Labelled.exprs .argument r.1, x.Typed c1) ∧
    ∀ f ∈ r.2, c1.Has f.type) (Labelled.obligeArgs call k xs)
  | [], _, _, _, _ => .pure ⟨by simp [Labelled.exprs], by simp⟩
  | none :: _, _, _, _, h => h.elim
  | some ⟨_, _, value⟩ :: rest, call, k, c, ⟨hvalue, hrest⟩ => by
    refine fresh_succeeds.bind fun slot c1 hlater1 hslot => ?_
    refine (value.oblige_succeeds (hvalue.mono hlater1)).bind fun a c2 hlater2 ha =>
      ha.type_succeeds.bind fun t c3 _ ⟨hc3, ht⟩ => ?_
    subst hc3
    refine (requireRelation_succeeds ht (hlater2.has hslot.1)).bind fun _ c3 hlater3 _ => ?_
    have hrest3 := ((hrest.mono hlater1).mono hlater2).mono hlater3
    refine (Labelled.obligeArgs_succeeds rest call (k + 1) hrest3).bind
      fun ⟨rest', fields⟩ c4 hlater4 ⟨hrest', hfields⟩ => .pure ?_
    have ha4 := (ha.mono hlater3).mono hlater4
    have hslot4 := hlater4.has (hlater3.has (hlater2.has hslot.1))
    refine ⟨forall_mem_cons.mpr ⟨?_, forall_mem_append.mpr ⟨ha4.exprs, hrest'⟩⟩, forall_mem_cons.mpr ⟨hslot4, hfields⟩⟩
    exact Expr.typed_of_mark rfl (hlater4.has (hlater3.has ht)) (by simp) (by simp)
theorem Labelled.obligeElems_succeeds : ∀ (xs : List (Option Labelled)) {c : Context}, Labelled.AllPlaced c xs →
    Succeeds c (fun r c1 => (∀ x ∈ Labelled.exprs .element r.1, x.Typed c1) ∧ ∀ f ∈ r.2, c1.Has f.type)
    (Labelled.obligeElems xs)
  | [], _, _ => .pure ⟨by simp [Labelled.exprs], by simp⟩
  | none :: _, _, h => h.elim
  | some ⟨_, _, value⟩ :: rest, c, ⟨hvalue, hrest⟩ => by
    refine (value.oblige_succeeds hvalue).bind fun a c1 hlater1 ha => ha.type_succeeds.bind fun t c2 _ ⟨hc2, ht⟩ => ?_
    subst hc2
    refine (Labelled.obligeElems_succeeds rest (hrest.mono hlater1)).bind
      fun ⟨rest', fields⟩ c2 hlater2 ⟨hrest', hfields⟩ => .pure ?_
    have ht2 := hlater2.has ht
    refine ⟨forall_mem_cons.mpr ⟨Expr.typed_of_mark rfl ht2 (by simp) (by simp), ?_⟩,
      forall_mem_cons.mpr ⟨ht2, hfields⟩⟩
    exact forall_mem_append.mpr ⟨(ha.mono hlater2).exprs, hrest'⟩
theorem MatchCase.obligeAll_succeeds :
    ∀ (xs : List (Option MatchCase)) (mark : Mark) (k : Nat) {c : Context} {subject : Ty}, MatchCase.AllPlaced c xs →
    c.Has subject → Succeeds c (fun r c1 => (∀ x ∈ MatchCase.exprs r.1, x.Typed c1) ∧ ∀ t ∈ r.2, c1.Has t)
      (MatchCase.obligeAll mark subject k xs)
  | [], _, _, _, _, _, _ => .pure ⟨by simp [MatchCase.exprs], by simp⟩
  | none :: _, _, _, _, _, h, _ => h.elim
  | some ⟨_, pattern, value, _⟩ :: rest, mark, k, c, subject, ⟨⟨hpattern, hvalue⟩, hrest⟩, hsubject => by
    refine (pattern.oblige_succeeds hpattern).bind fun a c1 hlater1 ha => ?_
    refine (value.oblige_succeeds (hvalue.mono hlater1)).bind fun b c2 hlater2 hb =>
      hb.type_succeeds.bind fun t c3 _ ⟨hc3, ht⟩ => ?_
    subst hc3
    have ha2 := ha.mono hlater2
    refine ha2.type_succeeds.bind fun u c3 _ ⟨hc3, hu⟩ => ?_
    subst hc3
    refine (requireRelation_succeeds hu (hlater2.has (hlater1.has hsubject))).bind fun _ c3 hlater3 _ => ?_
    have hlater := (hlater1.trans hlater2).trans hlater3
    refine (MatchCase.obligeAll_succeeds rest mark (k + 1) (hrest.mono hlater) (hlater.has hsubject)).bind
      fun ⟨rest', types⟩ c4 hlater4 ⟨hrest', htypes⟩ => .pure ?_
    have hlater' := hlater3.trans hlater4
    refine ⟨forall_mem_append.mpr ⟨forall_mem_append.mpr ⟨?_, ?_⟩, hrest'⟩,
      forall_mem_cons.mpr ⟨hlater'.has ht, htypes⟩⟩
    · exact (ha2.mono hlater').exprs
    · exact (hb.mono hlater').exprs
end

/-! ### Modules -/

theorem TypeAlias.oblige_succeeds {a : TypeAlias} (hsign : a.sign.Placed c) (hsymbol : c.Names a.symbol) :
    Succeeds c (fun _ _ => True) a.oblige := by
  unfold TypeAlias.oblige
  split
  · exact .pure trivial
  · split
    · exact .pure trivial
    · refine (a.sign.read_succeeds hsign.1 hsign.2).bind fun ⟨sign, t⟩ c1 hlater1 ht => ?_
      refine (newType_succeeds (x := .metatype t) (by simpa [Composite.parts] using ht) (by simp)).bind
        fun u c2 hlater2 hu => ?_
      obtain ⟨⟨i, rfl, hi⟩, -⟩ := hu
      refine (symbolType_succeeds (hlater2.names (hlater1.names hsymbol))).bind fun v c3 hlater3 hv => ?_
      exact (requireRelation_succeeds hv (hlater3.has (Context.has_node hi))).bind fun _ _ _ _ => .pure trivial

theorem Node.oblige_succeeds {n : Node} (h : n.Placed c) :
    Succeeds c (fun n' c1 => ∀ x ∈ n'.exprs, x.Typed c1) n.oblige := by
  cases n with
  | «alias» a => exact (TypeAlias.oblige_succeeds h.1 h.2).bind fun a' c1 _ _ => .pure (by simp [Node.exprs])
  | expr e => exact (e.oblige_succeeds h).bind fun e' c1 _ he' => .pure he'.exprs
  | _ => exact h.elim

theorem Node.obligeAll_succeeds : ∀ {ns : List Node} {c : Context}, (∀ n ∈ ns, n.Placed c) →
    Succeeds c (fun ns' c1 => ∀ x ∈ Node.allExprs ns', x.Typed c1) (Node.obligeAll ns)
  | [], _, _ => .pure (by simp [Node.allExprs])
  | n :: ns, c, h => by
    obtain ⟨hn, hns⟩ := forall_mem_cons.mp h
    refine (Node.oblige_succeeds hn).bind fun n' c1 hlater1 hn' => ?_
    refine (Node.obligeAll_succeeds fun m hm => (hns m hm).mono hlater1).bind fun ns' c2 hlater2 hns' => .pure ?_
    exact forall_mem_append.mpr ⟨fun x hx => (hn' x hx).mono hlater2, hns'⟩

theorem Module.oblige_succeeds (h : ∀ n ∈ m.statements, n.Placed c) :
    Succeeds c (fun m' c1 => ∀ x ∈ m'.exprs, x.Typed c1) m.oblige := by
  obtain ⟨token, name, id, statements, scope⟩ := m
  exact (Node.obligeAll_succeeds h).bind fun ns c1 _ hns => .pure hns

end

/-! ### Sessions -/

/-- The variable occurs in the type, at any depth. -/
inductive TypeGraph.Occurs (g : TypeGraph) (v : Int) : Ty → Prop where
  | var : Occurs g v (.var v)
  | part {i : NodeId} {x : Composite} {t : Ty} (hi : g.get? i = some x) (ht : t ∈ x.parts) (h : Occurs g v t) :
      Occurs g v (.node i)
  | domain {i d : NodeId} {u : Ty} (hi : g.get? i = some (.function (some d) u)) (h : Occurs g v (.node d)) :
      Occurs g v (.node i)

theorem Context.WellFormed.inUse (hc : c.WellFormed) {v : Int} (h : c.graph.Occurs v t) (ht : c.Has t) :
    0 ≤ v ∧ v < c.vars := by
  induction h with
  | var => exact ht
  | part hi hmem _ ih => exact ih (hc.parts hi _ hmem)
  | domain hi _ ih =>
    obtain ⟨k, hk, hlt⟩ := hc.domains hi
    cases hk
    exact ih hlt

/-- What typing makes of a module: the same tree, in which every expression has a type, every name has a meaning or is
reported as undefined where it stands, and the variables of types, symbols and constraints are among those that were
counted. -/
structure FullyTyped (given m : Module) (c : Context) (problems : List Diagnostic) : Prop where
  tree : ∃ ns, Node.copyAll given.statements = .ok ns ∧ Node.copyAll m.statements = .ok ns
  types : ∀ e ∈ m.exprs, ∃ t, e.type = .ok t ∧ t ≠ .absent
  names : ∀ i, .ident i ∈ m.exprs → i.candidates ≠ [] ∨
    ∃ d ∈ problems, d.code = .undefinedSymbol ∧ d.token.SamePlace i.mark.token
  exprVars : ∀ e ∈ m.exprs, ∀ t, e.type = .ok t → ∀ v, c.graph.Occurs v t → 0 ≤ v ∧ v < c.vars
  symbolVars : ∀ s ∈ c.table.symbols, ∀ v, c.graph.Occurs v s.type → 0 ≤ v ∧ v < c.vars
  constraintVars : ∀ d ∈ c.constraints, ∀ t, d.Mentions t → ∀ v, c.graph.Occurs v t → 0 ≤ v ∧ v < c.vars

theorem fullyTyped {problems : List Diagnostic} (hgiven : given.Intact false)
    (htree : Node.copyAll m.statements = Node.copyAll given.statements) (hc : c.WellFormed)
    (h : ∀ e ∈ m.exprs, e.Typed c) (hproblems : ∀ token, c.Reports token → ∃ d ∈ problems, d.code = .undefinedSymbol ∧
    d.token.SamePlace token) : FullyTyped given m { c with diagnostics := {} } problems where
  tree := by
    obtain ⟨ns, hns, -⟩ := Node.copyAll_gives hgiven
    exact ⟨ns, hns, htree.trans hns⟩
  types e he := by
    obtain ⟨t, ht, hhas⟩ := (h e he).type
    exact ⟨t, ht, hhas.ne_absent⟩
  names i hi := ((h _ hi).ident i rfl).imp_right (hproblems i.mark.token)
  exprVars e he t ht v hv := by
    obtain ⟨u, hu, hhas⟩ := (h e he).type
    obtain rfl : u = t := Except.ok.inj (hu.symm.trans ht)
    exact hc.inUse hv hhas
  symbolVars s hs v hv := by
    obtain ⟨a, ha, rfl⟩ := Array.mem_iff_getElem.mp hs
    exact hc.inUse hv (hc.symbols (Array.getElem?_eq_getElem ha))
  constraintVars d hd t ht v hv := hc.inUse hv (hc.constraints d hd t ht)

theorem Context.eq_of_clean (h : c.diagnostics.entries = []) : { c with diagnostics := {} } = c := by
  obtain ⟨graph, table, vars, prelude, constraints, ⟨entries⟩, logs⟩ := c
  obtain rfl : entries = [] := h
  rfl

namespace Session

variable {s s' : Session} {m : Module} {c : Context}

theorem Adopts.reports (h : Adopts s m c s') {token : Token} (hr : c.Reports token) :
    ∃ d ∈ s'.diagnostics, d.code = .undefinedSymbol ∧ d.token.SamePlace token := by
  obtain ⟨e, he, hcode, hplace⟩ := hr
  have hsame : (e.2.inFile s.file).code = e.2.code ∧ (e.2.inFile s.file).token = e.2.token := by
    unfold Diagnostic.inFile
    split <;> exact ⟨rfl, rfl⟩
  refine ⟨e.2.inFile s.file, ?_, hsame.1.trans hcode, hsame.2 ▸ hplace⟩
  rw [h.diagnostics]
  exact mem_append_right _ (mem_map_of_mem (Diagnostics.mem_toList.mpr ⟨e, he, rfl⟩))

theorem bindModule_gives (hgraph : s.graph.Ground) (hintact : m.Intact false) :
    ∃ c0 m' env c, s.newContext = .ok c0 ∧ m.bind.run { c0 with logs := s.logging } = .ok ((m', env), c) ∧
    c.WellFormed ∧ ∀ n ∈ m'.statements, n.Placed c := by
  obtain ⟨c0, hstart, hc0, hprelude, -⟩ := Context.initial_gives hgraph
  have hlogs : Context.WellFormed { c0 with logs := s.logging } :=
    ⟨hc0.parts, hc0.domains, hc0.symbols, hc0.parents, hc0.sound, hc0.constraints, hc0.known, hc0.problems⟩
  obtain ⟨⟨m', env⟩, c, hrun, hc, -, hplaced⟩ :=
    Module.bind_succeeds (c := { c0 with logs := s.logging }) hintact hprelude hlogs
  exact ⟨c0, m', env, c, hstart, hrun, hc, hplaced⟩

theorem bind_gives (hm : s.module = some m) (hgraph : s.graph.Ground) (hintact : m.Intact false) :
    Gives (fun s' => ∃ m' c, Adopts s m' c s' ∧ c.WellFormed ∧ (∀ n ∈ m'.statements, n.Placed c) ∧
      Node.copyAll m'.statements = Node.copyAll m.statements) s.bind := by
  obtain ⟨c0, m', env, c, hstart, hrun, hc, hplaced⟩ := bindModule_gives hgraph hintact
  obtain ⟨s', hbind, hadopts⟩ := bind_of_run hm hstart hrun
  exact ⟨s', hbind, m', c, hadopts, hc, hplaced, (Module.bind_fills (fun n hn => (hintact n hn).isStatement) hrun).1⟩

theorem generate_gives (hgiven : given.Intact false) (hadopts : Adopts s m c s') (hc : c.WellFormed)
    (hplaced : ∀ n ∈ m.statements, n.Placed c) (htree : Node.copyAll m.statements = Node.copyAll given.statements) :
    Gives (fun s'' => s'.diagnostics = [] →
      ∃ m' c', s''.module = some m' ∧ s''.analysis = some c' ∧ FullyTyped given m' c' s''.diagnostics) s'.generate := by
  by_cases hclean : s'.diagnostics = []
  · have hsame : { c with diagnostics := {}, graph := s'.graph } = c := by
      rw [hadopts.graph]
      exact Context.eq_of_clean (hadopts.clean hclean).2
    obtain ⟨m', c', hrun, hc', -, htyped⟩ := Module.oblige_succeeds hplaced hc
    rw [← hsame] at hrun
    obtain ⟨s'', hgenerate, hadopts'⟩ :=
      generate_of_run (ready?_eq_some.mpr ⟨hclean, hadopts.analysis⟩) hadopts.module hrun
    refine ⟨s'', hgenerate, fun _ => ⟨m', _, hadopts'.module, hadopts'.analysis, ?_⟩⟩
    have htree' := Module.oblige_copies (fun n hn => (hplaced n hn).isStatement) hrun
    exact fullyTyped hgiven (htree'.trans htree) hc' htyped fun _ hr => hadopts'.reports hr
  · have hready : s'.ready? = none := by simp [ready?, hasProblems, hclean]
    exact ⟨s', generate_of_not_ready hready, fun h => absurd h hclean⟩

end Session

/-- **Totality.** A module that is read from a document is intact. The stages up to the constraints come to a result for
every intact module and intact replacements; and if no problem is found before, then the module is fully typed. -/
theorem intact_module_typed :
    (∀ (file : String) (root : Document.Value) (m : Module), Decode.module file root = .ok m → m.Intact true) ∧
      ∀ (s : Session) (m : Module) (rs : Replacements), s.module = some m → s.graph.Ground → m.Intact true →
        (∀ r ∈ rs, r.2.Intact true) →
          ∃ normal bound typed, s.normalize rs = .ok normal ∧ normal.bind = .ok bound ∧ bound.generate = .ok typed ∧
            (bound.diagnostics = [] →
              ∃ m0 m' c, normal.module = some m0 ∧ typed.module = some m' ∧ typed.analysis = some c ∧
                FullyTyped m0 m' c typed.diagnostics) := by
  refine ⟨fun file root m h => Decode.module_intact file root m h, fun s m rs hm hgraph hintact hrs => ?_⟩
  have hdesugar := Module.desugar_eq hrs hintact
  have hintact' := Module.rewritten_intact hrs hintact
  have hnormalize : s.normalize rs = .ok { s with module := some (m.rewritten rs) } := by
    unfold Session.normalize
    rw [hm]
    exact bind_eq_ok.mpr ⟨_, hdesugar, rfl⟩
  obtain ⟨bound, hbind, m1, c1, hadopts, hc1, hplaced, htree⟩ :=
    Session.bind_gives (s := { s with module := some (m.rewritten rs) }) rfl hgraph hintact'
  obtain ⟨typed, hgenerate, htyped⟩ := Session.generate_gives hintact' hadopts hc1 hplaced htree
  exact ⟨_, bound, typed, hnormalize, hbind, hgenerate, fun hclean =>
    ⟨_, (htyped hclean).imp fun m' => Exists.imp fun c => And.intro rfl⟩⟩

/-! ### A module with operators, a replacement and an undefined name -/

def plainIdent (name : String) : Ident := { mark := { token := {} }, name := name }

/-- The alias `T` of `Int`, the function `f` that adds `y` to its argument, and `not z`. -/
def operatorModule : Module where
  token := {}
  name := "operators"
  statements := [
    .alias { token := {}, name := "T", sign := .name { token := {}, name := "Int" } },
    .expr (.func {
      mark := { token := {} }, name := "f"
      sign := some ⟨{}, some ⟨{}, "", [some ⟨{}, "", "x", .name { token := {}, name := "T" }⟩]⟩,
        .name { token := {}, name := "Int" }⟩
      body := .binary { token := {} } (plainIdent "+") (.ident (plainIdent "x")) (.ident (plainIdent "y")) }),
    .expr (.unary { token := {} } (plainIdent "not")
      (.ident { mark := { token := { lexeme := "z", file := "operators", line := 3, column := 5 } }, name := "z" }))]

/-- In the place of `y` comes `1 + 2`. -/
def operatorReplacements : Replacements :=
  [("y", .binary { token := {} } (plainIdent "+") (.literal { token := {} } (.int 1))
    (.literal { token := {} } (.int 2)))]

theorem operatorModule_intact : operatorModule.Intact true ∧ ∀ r ∈ operatorReplacements, r.2.Intact true := by
  simp [operatorModule, operatorReplacements, Module.Intact, Node.Intact, Expr.Intact, Sign.Intact, FuncSign.Intact,
    TupleSign.Intact, SignElem.AllIntact, SignElem.Intact]

theorem operatorModule_typed : ∃ normal bound typed m0 m' c,
    Session.normalize operatorReplacements { file := "operators", module := some operatorModule } = .ok normal ∧
      normal.bind = .ok bound ∧ bound.diagnostics = [] ∧ bound.generate = .ok typed ∧ normal.module = some m0 ∧
      typed.module = some m' ∧ typed.analysis = some c ∧ FullyTyped m0 m' c typed.diagnostics := by
  obtain ⟨hmodule, hreplacements⟩ := operatorModule_intact
  obtain ⟨normal, bound, typed, hnormalize, hbind, hgenerate, htyped⟩ := intact_module_typed.2
    { file := "operators", module := some operatorModule } operatorModule operatorReplacements rfl ground_empty hmodule
    hreplacements
  have hclean :
      (Session.normalize operatorReplacements { file := "operators", module := some operatorModule } >>=
      Session.bind).toOption.map Session.diagnostics = some [] := by decide +kernel
  rw [hnormalize, ok_bind, hbind] at hclean
  have hdiagnostics : bound.diagnostics = [] := Option.some.inj hclean
  obtain ⟨m0, m', c, hm0, hm', hc, hfull⟩ := htyped hdiagnostics
  exact ⟨normal, bound, typed, m0, m', c, hnormalize, hbind, hdiagnostics, hgenerate, hm0, hm', hc, hfull⟩

end TypeInference
