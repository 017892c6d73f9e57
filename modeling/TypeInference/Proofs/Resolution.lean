import TypeInference.Proofs.Signatures

/-! # No variable is left

A type is solid if nothing that can be reached from it is a variable or absent (`TypeGraph.Solid`). What reification
makes is solid (`reify_solid`). Dispatch resolves the types of all symbols and expressions, so after all stages have run
without a problem every type is solid and every identifier is one of its candidates (`accepted_module_solid`). -/

namespace TypeInference

open List

variable {x c : Composite} {e : Expr} {i' : Ident} {I : Ident → Ident → Prop} {M : Mark → Mark → Prop}
  {n size size' : Nat} {i u : NodeId} {t' : SymbolTable} {t : Ty}

/-! ### Solid types -/

namespace TypeGraph

/-- The second type can be reached from the first. -/
inductive Reaches (g : TypeGraph) : Ty → Ty → Prop where
  | refl (t : Ty) : Reaches g t t
  | part {i : NodeId} {x : Composite} {t u : Ty} (hi : g.get? i = some x) (ht : t ∈ x.parts) (h : Reaches g t u) :
      Reaches g (.node i) u
  | domain {i d : NodeId} {codomain u : Ty} (hi : g.get? i = some (.function (some d) codomain))
      (h : Reaches g (.node d) u) : Reaches g (.node i) u

/-- The type is no variable and not absent, and if it is a function type, its domain is not absent either. -/
def Definite (g : TypeGraph) : Ty → Prop
  | .absent | .var _ => False
  | .scalar _ | .error => True
  | .node i => ∃ x, g.get? i = some x ∧ ∀ codomain, x ≠ .function none codomain

/-- No variable can be reached, and nothing that is absent. -/
def Solid (g : TypeGraph) (t : Ty) : Prop := ∀ u, g.Reaches t u → g.Definite u

variable {g g' : TypeGraph} {t : Ty}

/-- A property of types that goes over to all parts makes them solid if it makes them definite. -/
theorem solid_of_closed {S : Ty → Prop} (hdefinite : ∀ u, S u → g.Definite u)
    (hparts : ∀ {i x}, S (.node i) → g.get? i = some x → ∀ u ∈ x.parts, S u)
    (hdomain : ∀ {i d codomain}, S (.node i) → g.get? i = some (.function (some d) codomain) → S (.node d)) (ht : S t) :
    g.Solid t := by
  intro u hreach
  induction hreach with
  | refl t => exact hdefinite t ht
  | part hi hmem _ ih => exact ih (hparts ht hi _ hmem)
  | domain hi _ ih => exact ih (hdomain ht hi)

theorem Solid.part (h : g.Solid t) (ht : t = .node i) (hi : g.get? i = some x) {u : Ty} (hu : u ∈ x.parts) :
    g.Solid u := fun w hw => h w (ht ▸ .part hi hu hw)

theorem Solid.extends (h : g.Solid t) (hext : g.Extends g') : g'.Solid t := by
  have hsame : ∀ {i x}, g.Solid (.node i) → g'.get? i = some x → g.get? i = some x := fun {i x} hsolid hx => by
    obtain ⟨y, hy, -⟩ := hsolid _ (.refl _)
    rw [hy, ← hx, hext i y hy]
  refine solid_of_closed (S := g.Solid) (fun u hu => ?_) (fun hsolid hx u hu => hsolid.part rfl (hsame hsolid hx) hu)
    (fun hsolid hx w hw => hsolid w (.domain (hsame hsolid hx) hw)) h
  have hdefinite := hu u (.refl u)
  cases u with
  | node i =>
    obtain ⟨x, hx, hdomain⟩ := hdefinite
    exact ⟨x, hext i x hx, hdomain⟩
  | _ => exact hdefinite

end TypeGraph

/-! ### What reification makes -/

/-- A leaf, or a node from number `n` on that is there. -/
def Ty.Firm (n size : Nat) : Ty → Prop
  | .absent | .var _ => False
  | .scalar _ | .error => True
  | .node i => n ≤ i ∧ i < size

/-- All parts are firm, and the domain of a function is there. -/
structure Composite.Firm (n size : Nat) (x : Composite) : Prop where
  parts : ∀ t ∈ x.parts, t.Firm n size
  domain : ∀ d codomain, x = .function d codomain → ∃ k, d = some k ∧ n ≤ k ∧ k < size

theorem Ty.firm_node {k : Nat} (hn : n ≤ k) (hk : k < size) : Ty.Firm n size (.node k) := ⟨hn, hk⟩

theorem Ty.Firm.mono (hsize : size ≤ size') (h : t.Firm n size) : t.Firm n size' := by
  cases t with
  | node i => exact ⟨h.1, Nat.lt_of_lt_of_le h.2 hsize⟩
  | _ => exact h

theorem Composite.Firm.mono (hsize : size ≤ size') (h : x.Firm n size) : x.Firm n size' where
  parts t ht := (h.parts t ht).mono hsize
  domain d codomain hx := by
    obtain ⟨k, hk, hn, hlt⟩ := h.domain d codomain hx
    exact ⟨k, hk, hn, Nat.lt_of_lt_of_le hlt hsize⟩

namespace Substitution

open ReifyM

namespace ReifyState

/-- The state of a reification that started with the graph `g`: the new nodes are firm, except for those whose parts are
not there yet, and the cases of new unions are firm at all times. -/
structure Firm (g : TypeGraph) (pending : List NodeId) (st : ReifyState) : Prop where
  kept : g.Extends st.graph
  results : ∀ p ∈ st.results, p.2.Firm g.size st.graph.size
  nodes : ∀ {k : NodeId} {x : Composite}, g.size ≤ k → k ∉ pending → st.graph.get? k = some x →
    x.Firm g.size st.graph.size
  unions : ∀ {k : NodeId} {cases : List Ty}, g.size ≤ k → st.graph.get? k = some (.union cases) →
    ∀ t ∈ cases, t.Firm g.size st.graph.size

variable {g : TypeGraph} {pending : List NodeId} {st st1 : ReifyState}

theorem Firm.size_le (h : st.Firm g pending) : g.size ≤ st.graph.size := h.kept.size_le

/-- What is told of the new nodes from `st` on. -/
def Adds (g : TypeGraph) (pending : List NodeId) (st : ReifyState) (t : Ty) (st1 : ReifyState) : Prop :=
  st1.Firm g pending ∧ st.graph.size ≤ st1.graph.size ∧ t.Firm g.size st1.graph.size

theorem Firm.pend (h : st.Firm g pending) (i : NodeId) : st.Firm g (i :: pending) :=
  ⟨h.kept, h.results, fun hk hnot => h.nodes hk fun hmem => hnot (mem_cons_of_mem _ hmem), h.unions⟩

theorem Firm.done (h : st.Firm g (i :: pending)) (hi : st.graph.get? i = some c) (hc : c.Firm g.size st.graph.size) :
    st.Firm g pending where
  kept := h.kept
  results := h.results
  nodes {k x} hk hnot hx := by
    by_cases heq : k = i
    · subst heq
      obtain rfl := Option.some.inj (hi.symm.trans hx)
      exact hc
    · exact h.nodes hk (fun hmem => (mem_cons.mp hmem).elim heq hnot) hx
  unions := h.unions

theorem Firm.note (h : st.Firm g pending) (unfinished : List NodeId) (referenced : List Ty) :
    Firm g pending { st with unfinished := unfinished, referenced := referenced } :=
  ⟨h.kept, h.results, h.nodes, h.unions⟩

theorem Firm.start (h : st.Firm g pending) (source : NodeId) (hc : ∀ cases, c = .union cases → cases = []) :
    Firm g (st.graph.size :: pending) { st with graph := (st.graph.add c).1,
                                                results := (source, .node st.graph.size) :: st.results } where
  kept i x hi := by
    have hlt := Nat.lt_of_lt_of_le (lt_size_of_get? hi) h.size_le
    rw [TypeGraph.get?_add, if_neg (Nat.ne_of_lt hlt)]
    exact h.kept i x hi
  results := by
    refine forall_mem_cons.mpr ⟨⟨h.size_le, by simp⟩, fun p hp => (h.results p hp).mono (by simp)⟩
  nodes {k x} hk hnot hx := by
    rw [mem_cons, not_or] at hnot
    rw [TypeGraph.get?_add, if_neg hnot.1] at hx
    exact (h.nodes hk hnot.2 hx).mono (by simp)
  unions {k cases} hk hx := by
    rw [TypeGraph.get?_add] at hx
    split at hx
    · rw [hc cases (Option.some.inj hx)]
      simp
    · exact fun t ht => (h.unions hk hx t ht).mono (by simp)

/-- A node that is given its content: it need not be there in full, unless the node is to be done. -/
theorem Firm.fill (h : st.Firm g (i :: pending)) (hi : g.size ≤ i)
    (hunion : ∀ cases, c = .union cases → ∀ t ∈ cases, t.Firm g.size st.graph.size)
    (hc : i ∉ pending → c.Firm g.size st.graph.size) : Firm g pending { st with graph := st.graph.set i c } where
  kept k x hk := by
    have hlt := Nat.lt_of_lt_of_le (lt_size_of_get? hk) hi
    rw [TypeGraph.get?_set, if_neg (Nat.ne_of_gt hlt)]
    exact h.kept k x hk
  results p hp := by simpa using h.results p hp
  nodes {k x} hk hnot hx := by
    rw [TypeGraph.size_set]
    rw [TypeGraph.get?_set] at hx
    split at hx
    · next heq =>
      subst heq
      split at hx
      · cases hx
        exact hc hnot
      · cases hx
    · next hne => exact h.nodes hk (fun hmem => (mem_cons.mp hmem).elim (Ne.symm hne) hnot) hx
  unions {k cases} hk hx := by
    rw [TypeGraph.size_set]
    rw [TypeGraph.get?_set] at hx
    split at hx
    · split at hx
      · exact hunion cases (Option.some.inj hx)
      · cases hx
    · exact h.unions hk hx

theorem Firm.unionCases (h : st.Firm g pending) (ht : t.Firm g.size st.graph.size) {cases : List Ty}
    (hcases : st.graph.unionCases? t = some cases) : ∀ u ∈ cases, u.Firm g.size st.graph.size := by
  obtain ⟨i, rfl, hi⟩ := unionCases?_eq_some.mp hcases
  exact h.unions ht.1 hi

end ReifyState

open ReifyState

variable {g : TypeGraph} {pending : List NodeId} {st : ReifyState} {σ : Substitution}

/-- The computation may stop, but what it returns is firm. -/
def Firmly (g : TypeGraph) (pending : List NodeId) (x : ReifyM Ty) : Prop :=
  ∀ {st : ReifyState}, st.Firm g pending → Spec (fun _ => True) x st (Adds g pending st)

theorem start_firm (h : st.Firm g pending) (source : NodeId) (hc : ∀ cases, c = .union cases → cases = []) :
    Spec (fun _ => True) (ReifyM.start source c) st fun i st1 => i = st.graph.size ∧ st1.Firm g (i :: pending) ∧
      st1.graph.get? i = some c ∧ st1.graph.size = st.graph.size + 1 :=
  .of_run rfl ⟨rfl, h.start source hc, TypeGraph.get?_add_self _ _, TypeGraph.size_add⟩

theorem fill_firm (h : st.Firm g (i :: pending)) (hi : g.size ≤ i)
    (hunion : ∀ cases, c = .union cases → ∀ t ∈ cases, t.Firm g.size st.graph.size)
    (hc : i ∉ pending → c.Firm g.size st.graph.size) : Spec (fun _ => True) (ReifyM.fill i c) st fun _ st1 =>
    st1.Firm g pending ∧ st1.graph.size = st.graph.size :=
  .of_run rfl ⟨h.fill hi hunion hc, TypeGraph.size_set⟩

theorem reifyFields_firm {reify : Ty → ReifyM Ty} {label : String} (hi : g.size ≤ i) :
    ∀ {rest done : List TupleField} {f : TupleField} {st : ReifyState}, (∀ t, Firmly g (i :: pending) (reify t)) →
      st.Firm g (i :: pending) → (∀ f ∈ done, f.type.Firm g.size st.graph.size) →
      Spec (fun _ => True) (reifyFields reify i label done (f :: rest)) st fun _ st1 =>
        st1.Firm g pending ∧ st.graph.size ≤ st1.graph.size
  | rest, done, f, st, hreify, hst, hdone => by
    refine .bind (hreify f.type hst) fun t st1 ht => ?_
    obtain ⟨hst1, hsize, ht⟩ := ht
    have hdone' : ∀ x ∈ done ++ [{ f with type := t }], x.type.Firm g.size st1.graph.size :=
      forall_mem_append.mpr ⟨fun x hx => (hdone x hx).mono hsize, forall_mem_singleton.mpr ht⟩
    cases rest with
    | nil =>
      refine .bind (fill_firm hst1 hi (fun _ h => by cases h) fun _ => ⟨?_, fun _ _ h => by cases h⟩) fun _ st2 hst2 =>
        ?_
      · intro u hu
        obtain ⟨x, hx, rfl⟩ := mem_map.mp hu
        exact hdone' x (by simpa using hx)
      · exact .pure ⟨hst2.1, hst2.2 ▸ hsize⟩
    | cons f' rest =>
      refine .bind (fill_firm (hst1.pend i) hi (fun _ h => by cases h) fun hnot =>
        absurd mem_cons_self hnot) fun _ st2 hst2 => ?_
      refine (reifyFields_firm hi hreify hst2.1 (hst2.2 ▸ hdone')).imp fun _ st3 => And.imp_right fun h => ?_
      exact Nat.le_trans hsize (hst2.2 ▸ h)

theorem addCase_firm (h : st.Firm g pending) (hu : g.size ≤ u) (ht : t.Firm g.size st.graph.size) :
    Spec (fun _ => True) (addCase u t) st fun _ st1 => st1.Firm g pending ∧ st1.graph.size = st.graph.size := by
  refine .get ?_
  dsimp only
  split
  · exact .pure ⟨h, rfl⟩
  · refine .liftBind (fun _ _ => trivial) fun known _ => ?_
    split
    · exact .pure ⟨h, rfl⟩
    · have hcases : ∀ t' ∈ (st.graph.unionCases? (.node u)).getD [] ++ [t], t'.Firm g.size st.graph.size := by
        refine forall_mem_append.mpr ⟨?_, forall_mem_singleton.mpr ht⟩
        cases hcases : st.graph.unionCases? (.node u) with
        | none => simp
        | some cases =>
          obtain ⟨i, hi, hat⟩ := unionCases?_eq_some.mp hcases
          cases hi
          exact h.unions hu hat
      refine fill_firm (h.pend u) hu (fun cases hx => ?_) fun _ => ⟨hcases, fun _ _ hx => by cases hx⟩
      cases hx
      exact hcases

theorem joinCase_firm (h : st.Firm g pending) (hu : g.size ≤ u) (ht : t.Firm g.size st.graph.size) :
    Spec (fun _ => True) (joinCase u t) st fun _ st1 => st1.Firm g pending ∧ st1.graph.size = st.graph.size := by
  unfold joinCase
  split
  · exact .pure ⟨h, rfl⟩
  · refine .get ?_
    split
    · next i cases hcases =>
      split
      · exact addCase_firm h hu ht
      · -- the cases of a finished union, one by one
        refine Spec.forM (I := fun st1 : ReifyState => st1.Firm g pending ∧ st1.graph.size = st.graph.size)
          (fun t' ht' st1 hst1 => ?_) ⟨h, rfl⟩
        have hfirm := h.unionCases ht hcases t' ht'
        rw [← hst1.2] at hfirm
        exact (addCase_firm hst1.1 hu hfirm).imp fun _ _ => And.imp_right fun hsize => hsize.trans hst1.2
    · exact addCase_firm h hu ht

theorem finishUnion_firm {source : NodeId} (h : st.Firm g pending) (hu : Ty.Firm g.size st.graph.size (.node u)) :
    Spec (fun _ => True) (finishUnion source u) st (Adds g pending st) := by
  refine .get ?_
  dsimp only
  split
  · next t hcases =>
    have ht := h.unionCases hu hcases t (mem_singleton_self t)
    split
    · exact .of_run rfl ⟨h.note _ _, Nat.le_refl _, hu⟩
    · exact .of_run rfl ⟨⟨h.kept, forall_mem_cons.mpr ⟨ht, h.results⟩, h.nodes, h.unions⟩, Nat.le_refl _, ht⟩
  · exact .of_run rfl ⟨h.note _ _, Nat.le_refl _, hu⟩

/-- Whatever is reified comes out firm. The induction is on the bound of the steps. -/
theorem reifyAux_firm : ∀ {fuel : Nat} {pending : List NodeId} (t : Ty), Firmly g pending (σ.reifyAux fuel t)
  | 0, _, _, _, _ => .throw trivial
  | fuel + 1, pending, t, st, hst => by
    have leaf : ∀ u : Ty, (∀ n size, u.Firm n size) → Spec (fun _ => True)
        (pure u : ReifyM Ty) st (Adds g pending st) := fun u hu =>
      .pure ⟨hst, Nat.le_refl _, hu _ _⟩
    unfold reifyAux
    split
    · exact leaf _ fun _ _ => trivial
    · exact leaf _ fun _ _ => trivial
    · exact leaf _ fun _ _ => trivial
    · exact leaf _ fun _ _ => trivial
    · next source hlookup =>
      refine .get ?_
      split
      · next out hout =>
        exact .of_run rfl ⟨hst.note _ _, Nat.le_refl _, hst.results _ (mem_of_lookup hout)⟩
      · refine .liftBind (fun _ _ => trivial) fun x _ => ?_
        have hn := hst.size_le
        split
        · next of _ =>
          refine .bind (start_firm hst source (by simp)) fun i st1 hi => ?_
          obtain ⟨rfl, hst1, -, hsize1⟩ := hi
          refine .bind (reifyAux_firm of hst1) fun t st2 ht => ?_
          obtain ⟨hst2, hsize2, ht⟩ := ht
          refine .bind (fill_firm hst2 hn (by simp) fun _ => ⟨forall_mem_singleton.mpr ht, by simp⟩) fun _ st3 hst3 =>
            .pure ?_
          exact ⟨hst3.1, by omega, Ty.firm_node hn (by omega)⟩
        · exact .throw trivial
        · next domain codomain _ =>
          refine .bind (start_firm hst source (by simp)) fun i st1 hi => ?_
          obtain ⟨rfl, hst1, -, hsize1⟩ := hi
          refine .bind (reifyAux_firm (.node domain) hst1) fun t st2 ht => ?_
          obtain ⟨hst2, hsize2, ht⟩ := ht
          split
          · next d =>
            -- the node stays pending until its codomain is there
            refine .bind (fill_firm (hst2.pend _) hn (by simp) fun hnot => absurd mem_cons_self hnot) fun _ st3 hst3 =>
              ?_
            refine .bind (reifyAux_firm codomain hst3.1) fun u st4 hu => ?_
            obtain ⟨hst4, hsize4, hu⟩ := hu
            have hd : Ty.Firm g.size st4.graph.size (.node d) := ht.mono (by omega)
            refine .bind (fill_firm hst4 hn (by simp) fun _ => ⟨forall_mem_singleton.mpr hu, ?_⟩) fun _ st5 hst5 =>
              .pure ?_
            · rintro _ _ ⟨⟩
              exact ⟨d, rfl, hd⟩
            · exact ⟨hst5.1, by omega, Ty.firm_node hn (by omega)⟩
          · exact .throw trivial
        · next label fields _ =>
          refine .bind (start_firm hst source (by simp)) fun i st1 hi => ?_
          obtain ⟨rfl, hst1, hcontent, hsize1⟩ := hi
          cases fields with
          | nil =>
            exact .pure ⟨hst1.done hcontent ⟨by simp [Composite.parts], by simp⟩, by omega, Ty.firm_node hn (by omega)⟩
          | cons f rest =>
            refine .bind (reifyFields_firm hn reifyAux_firm hst1 (by simp)) fun _ st2 hst2 => .pure ?_
            exact ⟨hst2.1, by omega, Ty.firm_node hn (by omega)⟩
        · next cases _ =>
          refine .bind (start_firm hst source (by simp)) fun u st1 hu => ?_
          obtain ⟨rfl, hst1, hcontent, hsize1⟩ := hu
          have hfirm := hst1.done hcontent ⟨by simp [Composite.parts], by simp⟩
          refine .step rfl ?_
          refine .bind (Spec.forM (I := fun st2 : ReifyState => st2.Firm g pending ∧ st.graph.size < st2.graph.size)
            (fun c _ st2 hst2 => ?_) ⟨hfirm.note _ _, Nat.lt_of_lt_of_eq (Nat.lt_succ_self _) hsize1.symm⟩)
            fun _ st3 hst3 => ?_
          · refine .bind (reifyAux_firm c hst2.1) fun t st3 ht => ?_
            obtain ⟨hst3, hsize3, ht⟩ := ht
            exact (joinCase_firm hst3 hn ht).imp fun _ st4 hst4 => ⟨hst4.1, by omega⟩
          · refine (finishUnion_firm hst3.1 ⟨hn, hst3.2⟩).imp fun t st4 ht => ⟨ht.1, ?_, ht.2.2⟩
            exact Nat.le_trans (Nat.le_of_lt hst3.2) ht.2.1

theorem firm_start (g : TypeGraph) : ReifyState.Firm g [] { graph := g } := by
  refine ⟨TypeGraph.extends_refl g, by simp, fun hk _ hx => ?_, fun hk hx => ?_⟩
  · exact absurd (lt_size_of_get? hx) (Nat.not_lt.mpr hk)
  · exact absurd (lt_size_of_get? hx) (Nat.not_lt.mpr hk)

/-- **Reification leaves no variable.** It adds to the graph, and what it returns is solid. -/
theorem reify_solid {g' : TypeGraph} {t' : Ty} (h : σ.reify g t = .ok (g', t')) : g.Extends g' ∧ g'.Solid t' := by
  obtain ⟨⟨a, st⟩, hrun, heq⟩ := bind_eq_ok.mp h
  cases heq
  obtain ⟨hst, -, ha⟩ := (reifyAux_firm t (firm_start g)).2 _ _ hrun
  refine ⟨hst.kept, TypeGraph.solid_of_closed (S := Ty.Firm g.size st.graph.size) (fun u hu => ?_) (fun hi hx => ?_)
    (fun hi hx => ?_) ha⟩
  · cases u with
    | node i =>
      obtain ⟨x, hx⟩ : ∃ x, st.graph.get? i = some x := ⟨_, Array.getElem?_eq_getElem hu.2⟩
      refine ⟨x, hx, fun codomain hnone => ?_⟩
      obtain ⟨k, hk, -⟩ := (hst.nodes hu.1 not_mem_nil hx).domain _ _ hnone
      cases hk
    | _ => exact hu
  · exact (hst.nodes hi.1 not_mem_nil hx).parts
  · obtain ⟨k, hk, hfirm⟩ := (hst.nodes hi.1 not_mem_nil hx).domain _ _ rfl
    cases hk
    exact hfirm

theorem Resolves.solid {z : TypeGraph} {a : Ty} (h : σ.Resolves g z t a) : z.Solid a := by
  obtain ⟨g1, g2, -, -, hreify, hz⟩ := h
  exact (reify_solid hreify).2.extends hz

end Substitution

/-! ### Accepted modules -/

/-- The types of two expressions of one form are related if their identifiers and marks are. -/
theorem SameNode.type (hI : ∀ i i', I i i' → M i.mark i'.mark) {e' : Expr} (h : SameNode I M e e')
    (ht : e.type = .ok t) : ∃ mark mark', M mark mark' ∧ mark.type = t ∧ e'.type = .ok mark'.type := by
  cases h with
  | missing => cases ht
  | ident h => exact ⟨_, _, hI _ _ h, Except.ok.inj ht, rfl⟩
  | binary h _ | unary h _ | call h _ => exact ⟨_, _, h, Except.ok.inj ht, rfl⟩
  | func h | cond h | matching h | letBinding h | argument h | tuple h | element h | select h | literal h =>
    exact ⟨_, _, h, Except.ok.inj ht, rfl⟩

theorem SameNode.ident_of (h : SameNode I M e (.ident i')) : ∃ i, e = .ident i ∧ I i i' := by
  cases h with
  | ident h => exact ⟨_, rfl, h⟩

theorem SymbolTable.scope_congr {t : SymbolTable} (h : t'.scopes = t.scopes) (i : ScopeId) :
    t'.scope i = t.scope i := by
  simp only [SymbolTable.scope, h]

theorem SymbolTable.chain_congr {t : SymbolTable} (h : t'.scopes = t.scopes) (i : ScopeId) :
    t'.chain i = t.chain i := by
  rw [chain, chain, h]
  generalize t.scopes.size + 1 = fuel
  induction fuel generalizing i with
  | zero => rfl
  | succ fuel ih =>
    rw [chainAux, chainAux, scope_congr h]
    simp only [ih]

/-- The identifier is bound to one of its candidates, which is declared under its name in a scope around it. -/
structure Ident.Settled (c : Context) (i : Ident) : Prop where
  candidate : i.symbol ∈ i.candidates
  symbol : ∃ s scope scopes, c.table.symbol i.symbol = .ok s ∧ s.name = i.name ∧ c.table.scope s.scope = .ok scope ∧
    c.table.chain i.scope = .ok scopes ∧ scope ∈ scopes

theorem Context.WellFormed.declared_of_lookup {c : Context} (hc : c.WellFormed) {i : ScopeId} {name : String}
    {ids : List SymbolId} (h : c.table.lookup i name = .ok ids) {id : SymbolId} (hid : id ∈ ids) :
    ∃ s scope scopes, c.table.symbol id = .ok s ∧ s.name = name ∧ c.table.scope s.scope = .ok scope ∧
    c.table.chain i = .ok scopes ∧ scope ∈ scopes := by
  have hscope : c.HasScope i := by
    rw [SymbolTable.lookup, SymbolTable.lookupAux] at h
    split at h
    · cases h
      cases hid
    · obtain ⟨sc, hsc, -⟩ := bind_eq_ok.mp h
      obtain ⟨n, hn, hat⟩ := SymbolTable.scope_eq_ok.mp hsc
      exact ⟨n, hn, (Array.getElem?_eq_some_iff.mp hat).1⟩
  obtain ⟨scopes, hchain, hscopes⟩ := hc.chain_gives hscope
  obtain rfl : SymbolTable.innermostSymbols name scopes = ids :=
    Except.ok.inj ((SymbolTable.lookup_of_chain hchain).symm.trans h)
  obtain ⟨scope, hmem, hlisted⟩ := SymbolTable.mem_innermostSymbols hid
  obtain ⟨k, hk⟩ := hscopes scope hmem
  obtain ⟨a, s, rfl, hs, hname, hin⟩ := (hc.sound.listed hk name id).mp hlisted
  exact ⟨s, scope, scopes, SymbolTable.symbol_eq_ok.mpr ⟨a, rfl, hs⟩, hname, SymbolTable.scope_eq_ok.mpr ⟨k, hin, hk⟩,
    hchain, hmem⟩

/-- The symbol of an identifier that was typed and dispatched is one of its candidates. -/
theorem Dispatched.candidate {c : Context} {σ : Substitution} {constraints : List Constraint} {i : Ident}
    (h : Dispatched c σ i i') (hrecorded : i.Recorded c constraints) (hne : i.candidates ≠ []) :
    i'.symbol ∈ i.candidates := by
  by_cases hone : i.candidates.length ≤ 1
  · obtain ⟨id, hid⟩ : ∃ id, i.candidates = [id] := length_eq_one_iff.mp
      (Nat.le_antisymm hone (length_pos_iff.mpr hne))
    rw [h.one hone]
    unfold Ident.Recorded at hrecorded
    rw [hid] at hrecorded ⊢
    exact mem_singleton.mpr hrecorded.1
  · obtain ⟨earlier, later, hcandidates, -⟩ := h.several (Nat.lt_of_not_le hone)
    rw [hcandidates]
    exact mem_append_right _ mem_cons_self

section

variable {s generated final : Session} {m : Module} {σ : Substitution}

theorem Session.Trace.dispatched (t : Session.Trace s m generated final σ) (hc : t.context.WellFormed) :
    Dispatches σ t.typedModule t.context t.lastModule t.last := by
  have hlast : t.last.diagnostics.entries = [] := Diagnostics.entries_of_toList t.lastClean
  have hdispatches := t.dispatches
  rw [Context.eq_of_clean t.contextClean] at hdispatches
  exact Module.dispatches hc.closed (t.below hc) hdispatches hlast

/-- **No variable is left.** After all stages have run on a module without a problem and with a solution, nothing that
can be reached from the type of an expression or of a symbol is a variable or absent, and every identifier is bound to
one of its candidates, which is declared under its name in a scope around it. -/
theorem accepted_module_solid (s generated final : Session) (m : Module) (σ : Substitution)
    (h : s.Accepts m generated final σ) (hgraph : s.graph.Ground) (hm : ∀ n ∈ m.statements, n.IsStatement) :
    ∃ last c, final.module = some last ∧ final.analysis = some c ∧
      (∀ e ∈ last.exprs, ∃ t, e.type = .ok t ∧ c.graph.Solid t) ∧
      (∀ x ∈ c.table.symbols, c.graph.Solid x.type) ∧ ∀ i, .ident i ∈ last.exprs → i.Settled c := by
  obtain ⟨t⟩ := h.trace
  obtain ⟨hwell, htyped⟩ := t.typed hgraph hm
  have hdispatched := t.dispatched hwell
  obtain ⟨es, hbound, hresolved⟩ := hdispatched.exprs
  refine ⟨t.lastModule, _, t.finalModule, t.finalContext, fun e he => ?_, fun x hx => ?_, fun i hi => ?_⟩
  · obtain ⟨e1, he1, hsame1⟩ := exists_of_forall₂ hresolved he
    obtain ⟨e0, he0, hsame0⟩ := exists_of_forall₂ hbound he1
    obtain ⟨type, htype, hhas⟩ := (htyped e0 he0).type
    obtain ⟨mark0, mark1, rfl, rfl, htype1⟩ := hsame0.type (fun i i' hi => by rw [hi.same]) htype
    obtain ⟨mark2, mark3, hmark, heq, htype2⟩ := hsame1.type (fun i i' hi => hi.2) htype1
    refine ⟨_, htype2, (hmark ?_).solid⟩
    rw [heq]
    exact hhas.ne_absent
  · have hx' : x ∈ t.last.table.symbols.toList := Array.mem_toList_iff.mpr hx
    obtain ⟨x0, -, hresolves⟩ := exists_of_forall₂ hdispatched.listed hx'
    exact hresolves.2.solid
  · obtain ⟨e1, he1, hsame1⟩ := exists_of_forall₂ hresolved hi
    obtain ⟨i1, rfl, hi1, -⟩ := hsame1.ident_of
    obtain ⟨e0, he0, hsame0⟩ := exists_of_forall₂ hbound he1
    obtain ⟨i0, rfl, hi0⟩ := hsame0.ident_of
    have hoblige := Module.oblige_typed t.obliges
    have hne : i0.candidates ≠ [] := by
      rcases (htyped _ he0).ident i0 rfl with hne | ⟨e, he, -⟩
      · exact hne
      · rw [t.contextClean] at he
        cases he
    have hcandidate := hi0.candidate (hoblige.idents i0 he0) hne
    obtain ⟨x, scope, scopes, hx, hname, hscope, hchain, hmem⟩ :=
      hwell.declared_of_lookup (hoblige.meanings i0 he0) hcandidate
    obtain ⟨y, hy, hxy, -⟩ := hdispatched.symbol hx
    have hsame : i.symbol = i1.symbol ∧ i.candidates = i0.candidates ∧ i.name = i0.name ∧ i.scope = i0.scope := by
      rw [hi1, hi0.same]
      exact ⟨rfl, rfl, rfl, rfl⟩
    refine ⟨by rwa [hsame.1, hsame.2.1], y, scope, scopes, hsame.1 ▸ hy, ?_, ?_, ?_, hmem⟩
    · rw [hxy, hsame.2.2.1]
      exact hname
    · rw [hxy]
      exact (SymbolTable.scope_congr hdispatched.scopes _).trans hscope
    · rw [hsame.2.2.2]
      exact (SymbolTable.chain_congr hdispatched.scopes _).trans hchain

end

theorem overloadedModule_statements : ∀ n ∈ overloadedModule.statements, n.IsStatement := by
  intro n hn
  fin_cases hn <;> exact .expr _

/-- On the sample, all types are solid, and the call of `f` is a call of one of the two functions. -/
theorem overloadedModule_solid :
    ∃ (generated final : Session) (σ : Substitution) (last : Module) (c : Context) (i : Ident),
    overloadedSession.Accepts overloadedModule generated final σ ∧ final.module = some last ∧ final.analysis = some c ∧
      last.exprs[12]? = some (.ident i) ∧ i.Settled c ∧ (∀ e ∈ last.exprs, ∃ t, e.type = .ok t ∧ c.graph.Solid t) ∧
      ∀ x ∈ c.table.symbols, c.graph.Solid x.type := by
  obtain ⟨generated, final, -, last, -, σ, -, -, i, -, -, -, -, -, -, haccepts, -, -, hlast, -, -, hi, -⟩ :=
    overloadedSession_stages
  obtain ⟨last', c, hlast', hc, htypes, hsymbols, hidents⟩ :=
    accepted_module_solid _ generated final _ σ haccepts ground_empty overloadedModule_statements
  obtain rfl : last' = last := Option.some.inj (hlast'.symm.trans hlast)
  exact ⟨generated, final, σ, last', c, i, haccepts, hlast, hc, hi, hidents i (List.mem_of_getElem? hi),
    htypes, hsymbols⟩

end TypeInference
