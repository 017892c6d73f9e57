import TypeInference.Proofs.Meaning

/-! # Reification comes to an end

The bound of reification is not felt: all that can stop it is an absent part, of a function type that is itself still
being copied. The same goes for all that a run reifies (`reify_enlarges`, `distinctOutcomes_raises`). A type without
unions, of a graph without absent parts, is always reified, to a copy of it (`reify_mirrors`). -/

namespace TypeInference

open List

namespace Substitution

open ReifyState

variable {g g' : TypeGraph} {σ : Substitution} {t : Ty}

/-! ### Reified types and tables -/

theorem region_all (hg : g.Closed) (hσ : σ.Below g.size) : σ.Region g (· < g.size) :=
  ⟨hg, hσ, fun h => h, fun _ h => lt_of_encloses hg hσ h⟩

theorem lt_of_lookup {i : NodeId} (hσ : σ.Below g.size) (ht : t.Below g.size) (h : σ.lookup t = .node i) :
    i < g.size := by
  have hlook := hσ.lookup ht
  rwa [h] at hlook

theorem reify_extends (hg : g.Closed) (hσ : σ.Below g.size) {t' : Ty} (h : σ.reify g t = .ok (g', t')) :
    g.Extends g' ∧ g'.Closed := by
  obtain ⟨-, hspec⟩ := reify_spec (P := Lacking) (region_all hg hσ) hg (TypeGraph.extends_refl g) (fun _ => rfl)
    (fun _ _ _ _ _ => .inr rfl) (lt_of_lookup hσ (below_of_reify h))
  obtain ⟨st, origin, rfl, hext, hrest, -⟩ := hspec g' t' h
  exact ⟨hext, hrest.sound.closed⟩

/-- A type of the graph is reified unless a part is absent, to a type of a graph that extends the given one. -/
theorem reify_raises (hg : g.Closed) (hσ : σ.Below g.size) (ht : t.Below g.size) : Raises Lacking (σ.reify g t) ∧
    ∀ g' t', σ.reify g t = .ok (g', t') → g'.Closed ∧ g.size ≤ g'.size ∧ t'.Below g'.size := by
  obtain ⟨hraises, hspec⟩ := reify_spec (P := Lacking) (region_all hg hσ) hg (TypeGraph.extends_refl g) (fun _ => rfl)
    (fun _ _ _ _ _ => .inr rfl) (lt_of_lookup hσ ht)
  refine ⟨hraises, fun g' t' h => ?_⟩
  obtain ⟨st, origin, rfl, hext, hrest, himage⟩ := hspec g' t' h
  exact ⟨hrest.sound.closed, hext.size_le, hrest.below himage⟩

theorem reified_raises (hg : g.Closed) (hσ : σ.Below g.size) : Raises Lacking (σ.reified g) ∧
    ∀ g' σ', σ.reified g = .ok (g', σ') → g'.Closed ∧ g.Extends g' ∧ σ'.Below g'.size := by
  have hspec := (atRest_start hg (TypeGraph.extends_refl g)).walk (P := Lacking) (region_all hg hσ) (Nat.le_refl _)
    (fun _ => rfl) (fun _ _ _ _ _ => .inr rfl) fun p hp => lt_of_lookup hσ (hσ p hp)
  refine ⟨.bind hspec.1 fun _ _ => .pure _, fun g' σ' h => ?_⟩
  obtain ⟨⟨entries, st⟩, hrun, h⟩ := bind_eq_ok.mp h
  cases h
  obtain ⟨⟨origin, hrest⟩, hkeeps, hbelow, -⟩ := hspec.2 _ _ hrun
  exact ⟨hrest.sound.closed, fun i x hi => (hkeeps.nodes i (lt_size_of_get? hi)).trans hi, hbelow⟩

theorem agreeOn_raises {s o : Substitution} (hg : g.Closed) (hs : s.Below g.size) (ho : o.Below g.size) (v : Int) :
    Raises Lacking (agreeOn g s o v) := by
  obtain ⟨hreify, hafter⟩ := reify_raises hg hs (t := .var v) trivial
  refine .bind hreify fun r hr => ?_
  obtain ⟨hg', hsize, -⟩ := hafter r.1 r.2 hr
  exact .bind (reify_raises hg' (ho.mono hsize) (t := .var v) trivial).1 fun r' _ => equal_raises _ _ _

/-! ### Types without unions -/

/-- What the parts of a node are shown by concerns its contents only. -/
theorem shows_inside {G : TypeGraph} {R : Ty → Ty → Prop} {i : NodeId} {a : Ty} (h : Shows g G R (.node i) a) :
    Shows g G (fun u b => u ∈ σ.contents g (.node i) ∧ R u b) (.node i) a := by
  cases h with
  | metatype hi hk h => exact .metatype hi hk ⟨mem_contents_of_parts (lookup_node i) hi (mem_singleton_self _), h⟩
  | function hi hk domain codomain =>
    exact .function hi hk ⟨mem_contents_of_domain (lookup_node i) hi, domain⟩
      ⟨mem_contents_of_parts (lookup_node i) hi (mem_singleton_self _), codomain⟩
  | tuple hi hk fields =>
    have hmem :=
      (forall₂_and_left _ _).mpr ⟨fun f hf => mem_contents_of_parts (σ := σ) (lookup_node i) hi (mem_map_of_mem hf),
      fields⟩
    exact .tuple hi hk (hmem.imp fun _ _ h => ⟨h.2.1, h.1, h.2.2⟩)

theorem hasUnion_congr {u : Ty} (h : σ.lookup t = σ.lookup u) (ht : σ.HasUnion g t) : σ.HasUnion g u := by
  cases ht with
  | here ht => exact .here ((isUnion_congr h).mp ht)
  | inside hx hunion => exact .inside (by simpa only [contents, h] using hx) hunion

theorem region_unionless (hg : g.Closed) (hσ : σ.Below g.size) :
    σ.Region g (fun i => i < g.size ∧ ¬ σ.HasUnion g (.node i)) where
  closed := hg
  below := hσ
  lt h := h.1
  step := by
    rintro i j ⟨-, hi⟩ hstep
    refine ⟨lt_of_encloses hg hσ hstep, fun hj => hi ?_⟩
    obtain ⟨u, hu, hlook⟩ := hstep
    exact .inside hu (hasUnion_congr (by rw [lookup_node, hlook]) hj)

/-- A type without unions, of a graph without absent parts, is reified in every closed graph that extends this one, to a
copy of it. -/
theorem reify_mirrors (hclosed : g.Closed) (hcomplete : g.Complete) (hσ : σ.Below g.size) (hg' : g'.Closed)
    (hext : g.Extends g') (ht : t.Below g.size) (hunion : ¬ σ.HasUnion g t) :
    ∃ G a, σ.reify g' t = .ok (G, a) ∧ g'.Extends G ∧ G.Closed ∧ σ.Mirrors g G t a := by
  have hD := region_unionless hclosed hσ
  have hstart : ∀ {i}, σ.lookup t = .node i → i < g.size ∧ ¬ σ.HasUnion g (.node i) := fun hi =>
    ⟨lt_of_lookup hσ ht hi, fun h => hunion (hasUnion_congr (by rw [lookup_node, hi]) h)⟩
  have htangled : ¬ σ.TangledByDomain g fun i => i < g.size ∧ ¬ σ.HasUnion g (.node i) := by
    rintro ⟨u, x, y, f, d, c, hu, hlook, -⟩
    obtain ⟨z, ⟨cases, hget, -⟩, -⟩ := Relation.TransGen.head'_iff.mp hlook.left
    exact hu.2 (.here (isUnion_of_lookup (lookup_node u) hget))
  have hdomain : ∀ i d c, (i < g.size ∧ ¬ σ.HasUnion g (.node i)) → g.get? i = some (.function d c) →
      (∃ e, d = some e ∧ ¬ σ.IsUnion g (.node e)) ∨ False := by
    intro i d c hi hget
    cases d with
    | none => exact absurd hget (hcomplete i _)
    | some d => exact .inl ⟨d, rfl, fun h => hi.2 (.inside (mem_contents_of_domain (lookup_node i) hget) (.here h))⟩
  obtain ⟨hraises, hspec⟩ := reify_spec (P := fun _ => False) hD hg' hext htangled hdomain hstart
  obtain ⟨⟨G, a⟩, hreify⟩ := exists_ok hraises
  obtain ⟨st, origin, rfl, hext', hrest, himage⟩ := hspec G a hreify
  refine ⟨st.graph, a, hreify, hext', hrest.sound.closed, fun t a => st.Image σ t a ∧ ¬ σ.HasUnion g t, ?_,
    himage, hunion⟩
  rintro t a ⟨ha, ht⟩
  rcases image_iff.mp ha with hreads | ⟨i, hi, -⟩
  · exact hreads.shows
  · have hnot : ¬ σ.HasUnion g (.node i) := fun h => ht (hasUnion_congr (by rw [lookup_node, hi]) h)
    obtain ⟨k, rfl, hk, hlt, rfl⟩ := hrest.traced.image_solid hi (fun h => hnot (.here h)) ha
    rw [hi]
    refine (shows_inside (shows_of_traced hrest.traced hk hlt fun h => hnot (.here h))).mono
      (fun u b h => ⟨h.2, fun hu => hnot (.inside h.1 hu)⟩) ?_
    exact fun _ _ _ h => h

end Substitution

/-! ### What a run reifies -/

/-- The computation stops for an absent part only, and returns a closed graph that is no smaller. -/
def Enlarges {α : Type} (g : TypeGraph) (x : Except Fault (TypeGraph × α)) : Prop :=
  Raises Lacking x ∧ ∀ g' a, x = .ok (g', a) → g'.Closed ∧ g.size ≤ g'.size

variable {g : TypeGraph} {σ : Substitution}

theorem Enlarges.pure {α : Type} {a : α} (hg : g.Closed) : Enlarges g (.ok (g, a)) := by
  refine ⟨.ok _, fun g' b h => ?_⟩
  cases h
  exact ⟨hg, Nat.le_refl _⟩

theorem Enlarges.bind {α β : Type} {x : Except Fault (TypeGraph × α)} {f : TypeGraph × α → Except Fault (TypeGraph × β)}
    (hx : Enlarges g x) (hf : ∀ g' a, g'.Closed → g.size ≤ g'.size → Enlarges g' (f (g', a))) :
    Enlarges g (x >>= f) := by
  refine ⟨.bind hx.1 fun r hr => ?_, fun g'' b h => ?_⟩
  · obtain ⟨hg', hsize⟩ := hx.2 r.1 r.2 hr
    exact (hf r.1 r.2 hg' hsize).1
  · obtain ⟨⟨g', a⟩, hr, h⟩ := bind_eq_ok.mp h
    obtain ⟨hg', hsize⟩ := hx.2 g' a hr
    obtain ⟨hg'', hsize'⟩ := (hf g' a hg' hsize).2 g'' b h
    exact ⟨hg'', Nat.le_trans hsize hsize'⟩

namespace Constraint

theorem reifyType_enlarges (hg : g.Closed) (hσ : σ.Below g.size) {t : Ty} (ht : t.Below g.size) :
    Enlarges g (reifyType σ g t) := by
  unfold reifyType
  split
  · exact .pure hg
  · obtain ⟨hreify, hafter⟩ := Substitution.reify_raises hg hσ ht
    exact ⟨hreify, fun g' t' h => ⟨(hafter g' t' h).1, (hafter g' t' h).2.1⟩⟩

mutual
theorem reify_enlarges : ∀ {c : Constraint} {g : TypeGraph}, g.Closed → σ.Below g.size →
    (∀ t, c.Mentions t → t.Below g.size) → Enlarges g (c.reify σ g)
  | .relate _ t u _, _, hg, hσ, hc =>
    (reifyType_enlarges hg hσ (hc t .left)).bind fun _ _ hg' hsize =>
      (reifyType_enlarges hg' (hσ.mono hsize) ((hc u .right).mono hsize)).bind fun _ _ hg'' _ => .pure hg''
  | .member t _ u _, _, hg, hσ, hc =>
    (reifyType_enlarges hg hσ (hc t .owner)).bind fun _ _ hg' hsize =>
      (reifyType_enlarges hg' (hσ.mono hsize) ((hc u .value).mono hsize)).bind fun _ _ hg'' _ => .pure hg''
  | .oneOf _ _, _, hg, hσ, hc =>
    (reifyAll_enlarges hg hσ fun _ hmem t ht => hc t (.choice hmem ht)).bind fun _ _ hg' _ => .pure hg'
  | .unknown _ _, _, hg, _, _ => .pure hg
theorem reifyAll_enlarges : ∀ {cs : List Constraint} {g : TypeGraph}, g.Closed → σ.Below g.size →
    (∀ c ∈ cs, ∀ t, c.Mentions t → t.Below g.size) → Enlarges g (reifyAll σ g cs)
  | [], _, hg, _, _ => .pure hg
  | c :: cs, g, hg, hσ, hcs => by
    obtain ⟨hc, hrest⟩ := forall_mem_cons.mp hcs
    refine (reify_enlarges hg hσ hc).bind fun g' _ hg' hsize => ?_
    exact (reifyAll_enlarges hg' (hσ.mono hsize) fun d hd t ht => (hrest d hd t ht).mono hsize).bind fun _ _ hg'' _ =>
      .pure hg''
end

end Constraint

namespace Solver

/-- In whatever order tables are walked, only an absent part stops their comparison. -/
theorem distinctOutcomes_raises {w : Walks} {past : List Event} : ∀ {rest : List Outcome} {g : TypeGraph}
    {known : List (Outcome × Substitution)}, g.Closed → (∀ o ∈ rest, ∀ σ, o.solution? = some σ → σ.Below g.size) →
    (∀ k ∈ known, k.2.Below g.size) → Raises Lacking (distinctOutcomes w past g known rest)
  | [], _, _, _, _, _ => .ok _
  | o :: rest, g, known, hg, hrest, hknown => by
    obtain ⟨ho, hrest⟩ := forall_mem_cons.mp hrest
    have hσ : (o.solution?.getD .empty).Below g.size := by
      cases h : o.solution? with
      | none => exact fun p hp => by cases hp
      | some σ => exact ho σ h
    have hwalked : (Substitution.mk (w.order past [rest.length] (o.solution?.getD .empty).entries)).Below g.size :=
      fun p hp => hσ p ((w.perm ..).mem_iff.mp hp)
    obtain ⟨hreified, hafter⟩ := Substitution.reified_raises hg hwalked
    refine .bind hreified fun r hr => ?_
    obtain ⟨hg', hext, hresolved⟩ := hafter r.1 r.2 hr
    have hrest' : ∀ o ∈ rest, ∀ σ, o.solution? = some σ → σ.Below r.1.size := fun o ho σ h =>
        (hrest o ho σ h).mono hext.size_le
    have hknown' : ∀ k ∈ known, k.2.Below r.1.size := fun k hk => (hknown k hk).mono hext.size_le
    refine .bind (.anyM fun k hk => .allM fun v _ => ?_) fun same _ => ?_
    · exact Substitution.agreeOn_raises hg' hresolved (hknown' k.1 (fst_mem_of_mem_zipIdx hk)) v
    · split
      · exact distinctOutcomes_raises hg' hrest' hknown'
      · exact distinctOutcomes_raises hg' hrest' (forall_mem_append.mpr ⟨hknown', forall_mem_singleton.mpr hresolved⟩)

end Solver

end TypeInference
