import TypeInference.Proofs.Normal

/-! # The order of a table

A table is reified entry by entry, and what has been built for one entry is used for the next ones. So the form of a
type may depend on the order, but what it stands for does not. Where reification makes normal types, these are the same
in every order (`reified_independent_of_order`). -/

namespace TypeInference

open Substitution ReifyState
open List

variable {G G' : TypeGraph} {S : Ty → Prop} {t a : Ty} {i j : NodeId} {r σ : Substitution} {D : NodeId → Prop}

/-! ### Reifying normal types -/

namespace TypeGraph.Normal

variable {T : Ty → Prop} {b c : Ty} {k u x : NodeId}

theorem transfer (hG : G.Normal S) (hG' : ∀ i x, S (.node i) → G.get? i = some x → G'.get? i = some x) :
    G'.Normal S := by
  have hback : ∀ {i x}, S (.node i) → G'.get? i = some x → G.get? i = some x := fun {i x} hi hx => by
    obtain ⟨y, hy⟩ := exists_get_of_lt (hG.supports.node hi)
    cases (hG' i y hi (get?_of_get hy)).symm.trans hx
    exact get?_of_get hy
  have hhead : ∀ {a}, S a → G'.head? a = G.head? a := fun {a} ha => by
    cases a with
    | node i =>
      obtain ⟨y, hy⟩ := exists_get_of_lt (hG.supports.node ha)
      simp [TypeGraph.head?, get?_of_get hy, hG' i y ha (get?_of_get hy)]
    | _ => rfl
  have hpart : ∀ {k cases c}, S (.node k) → G.get? k = some (.union cases) → c ∈ cases → S c := fun hk hget hc =>
      hG.supports.parts hk hget hc
  refine ⟨hG.supports.congr hG', hG.solid, hG.present, fun hk hget => ?_, fun hk hget c hc => ?_, fun hk hget => ?_,
    fun hk hget => hG.several hk (hback hk hget), fun {k cases x y} hk hget hx hy hne heq hlead => ?_⟩
  · obtain ⟨e, l, fields, rfl, he⟩ := hG.calls hk (hback hk hget)
    obtain ⟨d, hd, hSd⟩ := hG.supports.domain hk (hback hk hget)
    cases hd
    exact ⟨e, l, fields, rfl, hG' _ _ hSd he⟩
  · rw [hhead (hpart hk (hback hk hget) hc)]
    exact hG.flat hk (hback hk hget) c hc
  · refine (hG.apart hk (hback hk hget)).imp_of_mem fun ha hb hnot halike => hnot ?_
    exact (hG.supports.congr hG').alike (fun i x hi hx => hback hi hx) (hpart hk (hback hk hget) ha)
      (hpart hk (hback hk hget) hb) halike
  · have hSx := hpart hk (hback hk hget) hx
    rw [hhead hSx, hhead (hpart hk (hback hk hget) hy)] at heq
    exact hG.loose hk (hback hk hget) hx hy hne heq (leadsTo_of_supports hG.supports hG.solid hG' hSx hlead)

theorem union (hG : G.Normal S) (hG' : G.Normal T) : G.Normal fun a => S a ∨ T a where
  supports := by
    refine ⟨fun hk => hk.elim hG.supports.node hG'.supports.node, fun hk hx ht => hk.imp (fun hk => ?_) fun hk => ?_,
      fun hk hx => ?_⟩
    · exact hG.supports.parts hk hx ht
    · exact hG'.supports.parts hk hx ht
    · rcases hk with hk | hk
      · obtain ⟨d, hd, hSd⟩ := hG.supports.domain hk hx
        exact ⟨d, hd, .inl hSd⟩
      · obtain ⟨d, hd, hTd⟩ := hG'.supports.domain hk hx
        exact ⟨d, hd, .inr hTd⟩
  solid v := not_or.mpr ⟨hG.solid v, hG'.solid v⟩
  present := not_or.mpr ⟨hG.present, hG'.present⟩
  calls hk := hk.elim (fun hk => hG.calls hk) fun hk => hG'.calls hk
  flat hk := hk.elim (fun hk => hG.flat hk) fun hk => hG'.flat hk
  apart hk := hk.elim (fun hk => hG.apart hk) fun hk => hG'.apart hk
  several hk := hk.elim (fun hk => hG.several hk) fun hk => hG'.several hk
  loose hk := hk.elim (fun hk => hG.loose hk) fun hk => hG'.loose hk

theorem mem_of_hasCase (hG : G.Normal S) (hu : S (.node u)) (h : Relation.TransGen (r.HasCase G) u x) :
    ∃ cases, G.get? u = some (.union cases) ∧ .node x ∈ cases := by
  have hstep : ∀ {v y}, S (.node v) → r.HasCase G v y → ∃ cases, G.get? v = some (.union cases) ∧ .node y ∈ cases := by
    rintro v y hv ⟨cases, hget, c, hc, hy⟩
    have hSc := hG.supports.parts hv hget hc
    cases c with
    | var v => exact absurd hSc (hG.solid v)
    | _ => exact ⟨cases, hget, hy ▸ hc⟩
  induction h with
  | single h => exact hstep hu h
  | tail _ h ih =>
    -- a case has no cases
    obtain ⟨cases, hget, hz⟩ := ih
    obtain ⟨cases', hget', -⟩ := hstep (hG.supports.parts hu hget hz) h
    exact absurd (by simp [TypeGraph.head?, hget', Composite.head]) (hG.flat hu hget _ hz)

theorem sameHead_of_shown {R R' : Ty → Ty → Prop} {g : TypeGraph} {u y : Ty} (ht : t ≠ .absent ∧ ∀ v, t ≠ .var v)
    (hu : u ≠ .absent ∧ ∀ v, u ≠ .var v) (h : Shows g G R t y) (h' : Shows g G R' u y) :
    SameHead g (fun t u => ∃ a, R t a ∧ R' u a) t u := by
  cases h with
  | absent => exact absurd rfl ht.1
  | var v => exact absurd rfl (ht.2 v)
  | error =>
    cases h' with
    | absent => exact absurd rfl hu.1
    | var v => exact absurd rfl (hu.2 v)
    | error => exact .leaf (by simp)
  | scalar b =>
    cases h' with
    | scalar => exact .leaf (by simp)
  | metatype hi hk h =>
    cases h' with
    | metatype hj hk' h' =>
      cases hk.symm.trans hk'
      exact .metatype hi hj ⟨_, h, h'⟩
    | function _ hk' => cases hk.symm.trans hk'
    | tuple _ hk' => cases hk.symm.trans hk'
  | function hi hk domain codomain =>
    cases h' with
    | function hj hk' domain' codomain' =>
      cases hk.symm.trans hk'
      exact .function hi hj ⟨_, domain, domain'⟩ ⟨_, codomain, codomain'⟩
    | metatype _ hk' => cases hk.symm.trans hk'
    | tuple _ hk' => cases hk.symm.trans hk'
  | tuple hi hk fields =>
    cases h' with
    | tuple hj hk' fields' =>
      cases hk.symm.trans hk'
      exact .tuple hi hj (forall₂_comp (fun f f' f'' h h' => ⟨h.1.trans h'.1.symm, _, h.2, h'.2⟩) fields fields'.flip)
    | metatype _ hk' => cases hk.symm.trans hk'
    | function _ hk' => cases hk.symm.trans hk'

theorem synonymous_of_denotes (hG : G.Normal S) {u : Ty} (ht : S t) (hu : S u) (h : r.Denotes G G' t a)
    (h' : r.Denotes G G' u a) : G.Synonymous t u := by
  refine ⟨fun t u => (∃ a, r.Denotes G G' t a ∧ r.Denotes G G' u a) ∧ S t ∧ S u, ?_, ⟨a, h, h'⟩, ht, hu⟩
  rintro t u ⟨⟨a, h, h'⟩, ht, hu⟩
  have hleaf : ∀ {t x}, S t → (r.Leaf G t x ↔ empty.Leaf G t x) :=
    leaf_of_supports hG.supports hG.solid fun _ _ _ h => h
  have hsolid : ∀ {t}, S t → t ≠ .absent ∧ ∀ v, t ≠ .var v := fun ht =>
    ⟨fun h => hG.present (h ▸ ht), fun v h => hG.solid v (h ▸ ht)⟩
  have hhead : ∀ {x x' y}, empty.Leaf G t x → empty.Leaf G u x' → Shows G G' (r.Denotes G G') x y →
      Shows G G' (r.Denotes G G') x' y →
      SameHead G (fun t u => (∃ a, r.Denotes G G' t a ∧ r.Denotes G G' u a) ∧ S t ∧ S u) x x' :=
    fun hx hx' hxy hxy' => by
    have hSx := mem_of_leaf hG.supports ht hx
    have hSx' := mem_of_leaf hG.supports hu hx'
    exact hG.supports.sameHead (fun _ _ _ h => h) hSx hSx' (sameHead_of_shown (hsolid hSx) (hsolid hSx') hxy hxy')
  refine ⟨fun x hx => ?_, fun x' hx' => ?_⟩
  · obtain ⟨y, hy, hxy⟩ := h.step.1 x ((hleaf ht).mpr hx)
    obtain ⟨x', hx', hxy'⟩ := h'.step.2 y hy
    exact ⟨x', (hleaf hu).mp hx', hhead hx ((hleaf hu).mp hx') hxy hxy'⟩
  · obtain ⟨y, hy, hxy'⟩ := h'.step.1 x' ((hleaf hu).mpr hx')
    obtain ⟨x, hx, hxy⟩ := h.step.2 y hy
    exact ⟨x, (hleaf ht).mp hx, hhead ((hleaf ht).mp hx) hx' hxy hxy'⟩

variable (hG : G.Normal S) (hD : ∀ {i}, D i → S (.node i))

include hG hD

theorem not_tangled : ¬ r.Tangled G D := by
  rintro ⟨u, x, y, hu, hlook, hlead⟩
  obtain ⟨cases, hget, hx⟩ := hG.mem_of_hasCase (hD hu) hlook.left
  obtain ⟨cases', hget', hy⟩ := hG.mem_of_hasCase (hD hu) hlook.right
  cases hget.symm.trans hget'
  exact hG.loose (hD hu) hget hx hy hlook.ne hlook.head
    (leadsTo_of_supports hG.supports hG.solid (fun _ _ _ h => h) (hG.supports.parts (hD hu) hget hx) hlead)

theorem not_nested : ¬ r.Nested G D := by
  rintro ⟨u, v, hu, hcase, -, hunion, -⟩
  obtain ⟨cases, hget, hv⟩ := hG.mem_of_hasCase (hD hu) hcase
  exact hG.flat (hD hu) hget _ hv (isUnion_iff_head.mp hunion)

theorem not_solitary : ¬ r.Solitary G D := by
  rintro ⟨u, hu, hunion, -, G', a, ha, hdenotes⟩
  obtain ⟨k, cases, hk, hget⟩ := TypeGraph.union_of_head (isUnion_iff_head.mp hunion)
  cases hk
  have hSu := hD hu
  have hleaf : ∀ {t x}, S t → (r.Leaf G t x ↔ empty.Leaf G t x) :=
    leaf_of_supports hG.supports hG.solid fun _ _ _ h => h
  -- every case stands for what the union stands for
  have hcase : ∀ c ∈ cases, r.Denotes G G' c a := fun c hc => by
    have hSc := hG.supports.parts hSu hget hc
    have hself : empty.Leaf G c c := leaf_empty (hG.flat hSu hget c hc)
    obtain ⟨y, hy, hcy⟩ := hdenotes.step.1 c ((hleaf hSu).mpr ((hG.leaf_of_union hSu hget).mpr hc))
    rw [TypeGraph.eq_of_leaf ha hy] at hcy
    refine .of_step (fun x hx => ⟨a, leaf_empty ha, ?_⟩) fun y hy => ⟨c, (hleaf hSc).mpr hself, ?_⟩
    · rwa [TypeGraph.eq_of_leaf (hG.flat hSu hget c hc) ((hleaf hSc).mp hx)]
    · rwa [TypeGraph.eq_of_leaf ha hy]
  obtain ⟨x, hx, -⟩ := hdenotes.step.2 a (leaf_empty ha)
  rw [hleaf hSu, hG.leaf_of_union hSu hget] at hx
  match cases, hx, hget, hcase, hG.several hSu hget, hG.apart hSu hget with
  | c :: c' :: _, _, hget, hcase, _, hapart =>
    have hSc := hG.supports.parts hSu hget (t := c) (by simp [Composite.parts])
    have hSc' := hG.supports.parts hSu hget (t := c') (by simp [Composite.parts])
    refine (pairwise_cons.mp hapart).1 c' (by simp) (hG.alike hSc hSc' ?_)
    exact hG.synonymous_of_denotes hSc hSc' (hcase c (by simp)) (hcase c' (by simp))
  | [_], _, _, _, hone, _ => exact absurd rfl hone

end TypeGraph.Normal

namespace Substitution

variable {g : TypeGraph} {s s' : Substitution} {v : Int} {st : ReifyState} {n : Nat} {origin : NodeId → NodeId}

/-- What can be reached in the region is reified to normal types. -/
structure Tame (σ : Substitution) (g : TypeGraph) (D : NodeId → Prop) : Prop where
  region : σ.Region g D
  calls : ∀ i d c, D i → g.get? i = some (.function d c) → ∃ e l fields, d = some e ∧ g.get? e = some (.tuple l fields)
  loose : ¬ σ.Tangled g D
  flat : ¬ σ.Nested g D
  several : ¬ σ.Solitary g D

theorem Tame.normal (h : σ.Tame g D) (hst : st.AtRest σ g D n origin) : st.graph.Normal fun a => ∃ t, st.Image σ t a :=
  hst.normal h.calls h.loose h.flat h.several

/-- A type in a tame region is reified, in every larger graph, to a normal type that stands for it. -/
theorem Tame.reify (h : σ.Tame g D) (hext : g.Extends G) (hG : G.Closed) (ht : ∀ {j}, σ.lookup t = .node j → D j) :
    ∃ G' a S, σ.reify G t = .ok (G', a) ∧ G.Extends G' ∧ G'.Closed ∧ G'.Normal S ∧ S a ∧ σ.Denotes g G' t a := by
  obtain ⟨hraises, hspec⟩ := reify_spec (P := fun _ => False) h.region hG hext
    (fun htangled => h.loose htangled.tangled) (fun i d c hi hget => .inl (solid_of_tuple (h.calls i d c hi hget))) ht
  obtain ⟨⟨G', a⟩, hreify⟩ := exists_ok hraises
  obtain ⟨st, origin, rfl, hext', hrest, himage⟩ := hspec G' a hreify
  exact ⟨st.graph, a, _, hreify, hext', hrest.sound.closed, h.normal hrest, ⟨t, himage⟩, hrest.denotes h.loose himage⟩

theorem tame_of_normal (hG : G.Normal S) (hclosed : G.Closed) (hr : r.Below G.size) (ht : t.Below G.size)
    (hS : S (r.lookup t)) : r.Tame G (r.Reach G t) := by
  have hD : ∀ {i}, r.Reach G t i → S (.node i) := by
    rintro i ⟨j, hj, hlead⟩
    rw [hj] at hS
    exact hG.supports.leadsTo hS (leadsTo_of_supports hG.supports hG.solid (fun _ _ _ h => h) hS hlead)
  exact ⟨region_reach hclosed hr ht, fun i d c hi => hG.calls (hD hi), hG.not_tangled hD, hG.not_nested hD,
    hG.not_solitary hD⟩

/-! ### Tables that resolve variables to normal types -/

/-- In every graph that extends `G` the table resolves the variable to a normal type, which stands for `t`. -/
def Renders (r : Substitution) (G : TypeGraph) (v : Int) (σ : Substitution) (g : TypeGraph) (t : Ty) : Prop :=
  ∀ G', G.Extends G' → G'.Closed → ∃ G'' a S, r.reify G' (.var v) = .ok (G'', a) ∧ G'.Extends G'' ∧ G''.Closed ∧
    G''.Normal S ∧ S a ∧ σ.Denotes g G'' t a

theorem agreeOn_of_renders (h : r.Renders G v σ g t) (h' : s.Renders G v σ g t) (hext : G.Extends G')
    (hG' : G'.Closed) : agreeOn G' r s v = .ok true := by
  obtain ⟨G1, a, S, ha, hext1, hclosed1, hnormal, hSa, hdenotes⟩ := h G' hext hG'
  obtain ⟨G2, b, T, hb, hext2, -, hnormal', hTb, hdenotes'⟩ := h' G1 (fun i x hi => hext1 i x (hext i x hi)) hclosed1
  have hsame := fun i x (_ : S (.node i)) (hx : G1.get? i = some x) => hext2 i x hx
  have hboth := (hnormal.transfer hsame).union hnormal'
  have halike := hboth.alike (.inl hSa) (.inr hTb)
    ((hdenotes.transfer hnormal.supports hnormal.solid hsame hSa).synonymous hdenotes')
  obtain ⟨answer, hanswer⟩ := hboth.supports.equal_isOk (.inl hSa) (.inr hTb)
  have htrue : G2.equal a b = .ok true := by
    cases answer with
    | true => exact hanswer
    | false => exact absurd hanswer (equalAux_ne_false _ _ halike)
  simp only [agreeOn, ha, hb, ok_bind, htrue]

theorem lookupAux_of_no_chain (n : Nat) (h : ¬ ∃ vs u, σ.Chain t vs u) : ∃ w, σ.lookupAux n t = .var w := by
  induction n generalizing t with
  | zero =>
    cases t with
    | var v => exact ⟨v, rfl⟩
    | _ => exact absurd ⟨_, _, .stop fun v hv => by cases hv⟩ h
  | succ n ih =>
    cases t with
    | var v =>
      cases hget : σ.get? v with
      | none =>
        refine absurd ⟨_, _, .stop fun w hw => ?_⟩ h
        cases hw
        exact hget
      | some u =>
        simp only [lookupAux, hget]
        refine ih ?_
        rintro ⟨vs, w, hchain⟩
        exact h ⟨_, _, .link hget hchain⟩
    | _ => exact absurd ⟨_, _, .stop fun v hv => by cases hv⟩ h

theorem lookup_of_binding (hv : σ.get? v = some t) :
    σ.lookup (.var v) = σ.lookup t ∨ ∃ w w', σ.lookup (.var v) = .var w ∧ σ.lookup t = .var w' := by
  by_cases hchain : ∃ vs u, σ.Chain t vs u
  · obtain ⟨vs, u, hchain⟩ := hchain
    exact .inl (by rw [hchain.lookup_eq, (Chain.link hv hchain).lookup_eq])
  · obtain ⟨w, hw⟩ := lookupAux_of_no_chain (σ.size + 1) hchain
    have hchain' : ¬ ∃ vs u, σ.Chain (.var v) vs u := by
      rintro ⟨vs, u, hlink⟩
      cases hlink with
      | stop hend => simp [hend v rfl] at hv
      | link hget rest =>
        cases hv.symm.trans hget
        exact hchain ⟨_, _, rest⟩
    obtain ⟨w', hw'⟩ := lookupAux_of_no_chain (σ.size + 1) hchain'
    exact .inr ⟨w', w, hw', hw⟩

theorem Tame.renders (h : σ.Tame g D) (hv : σ.get? v = some t) (ht : ∀ {j}, σ.lookup t = .node j → D j) :
    σ.Renders g v σ g t := by
  intro G' hext hG'
  have hlookup := lookup_of_binding hv
  obtain ⟨G'', a, S, hreify, hext', hclosed, hnormal, ha, hdenotes⟩ := h.reify (t := .var v) hext hG' fun {j} hj => by
    rcases hlookup with heq | ⟨w, w', hw, -⟩
    · exact ht (heq ▸ hj)
    · cases hw.symm.trans hj
  exact ⟨G'', a, S, hreify, hext', hclosed, hnormal, ha, hdenotes.congr hlookup⟩

theorem renders_of_normal (hG : G.Normal S) (hclosed : G.Closed) (hr : r.Below G.size) (hv : r.get? v = some a)
    (ha : S a) (hdenotes : σ.Denotes g G t a) : r.Renders G v σ g t := by
  have hself : r.lookup a = a := by
    cases a with
    | var w => exact absurd ha (hG.solid w)
    | _ => rfl
  have hlookup : r.lookup (.var v) = a := by
    rcases lookup_of_binding hv with heq | ⟨w, w', -, hw⟩
    · exact heq.trans hself
    · exact absurd (hself.symm.trans hw ▸ ha) (hG.solid w')
  intro G' hext hG'
  obtain ⟨G'', b, T, hreify, hext', hclosed', hnormal, hb, hdenotes'⟩ :=
    (tame_of_normal (t := .var v) hG hclosed hr trivial (hlookup.symm ▸ ha)).reify hext hG' fun hj => ⟨_, hj, .refl⟩
  exact ⟨G'', b, T, hreify, hext', hclosed', hnormal, hb,
    hdenotes.comp (hdenotes'.congr (.inl (hlookup.trans hself.symm))) hG.supports hG.solid ha⟩

/-! ### Walks through a table -/

section Walks

variable {is : List NodeId} {b c : Ty} {x : NodeId}

theorem reifyAux_congr (h : s.lookup = s'.lookup) : s.reifyAux = s'.reifyAux := by
  funext n
  induction n with
  | zero => rfl
  | succ n ih =>
    funext t
    unfold reifyAux
    rw [h, ih]

/-- A tame table, walked in any order, is reified to a table of normal types, which stand for the types of the table. -/
theorem Tame.reified (h : s.Tame g D) (hlookup : s'.lookup = s.lookup)
    (hentries : ∀ p ∈ s'.entries, ∀ {j}, s.lookup p.2 = .node j → D j) (hext : g.Extends G) (hG : G.Closed) :
    ∃ G' r S, s'.reified G = .ok (G', r) ∧ G.Extends G' ∧ G'.Closed ∧ r.Below G'.size ∧ G'.Normal S ∧
      Forall₂ (fun p p' => p'.1 = p.1 ∧ S p'.2 ∧ s.Denotes g G' p.2 p'.2) s'.entries r.entries := by
  have hspec := (atRest_start hG hext).walk (P := fun _ => False) h.region hext.size_le
    (fun htangled => h.loose htangled.tangled) (fun i d c hi hget =>
    .inl (solid_of_tuple (h.calls i d c hi hget))) hentries
  obtain ⟨⟨entries, st⟩, hrun⟩ := exists_ok hspec.1
  obtain ⟨⟨origin, hrest⟩, hkeeps, hbelow, hall⟩ := hspec.2 _ _ hrun
  refine ⟨st.graph, ⟨entries⟩, _, ?_, fun i x hi => (hkeeps.nodes i (lt_size_of_get? hi)).trans hi, hrest.sound.closed,
    hbelow, h.normal hrest, hall.imp fun p p' hp => ⟨hp.1, ⟨_, hp.2⟩, hrest.denotes h.loose hp.2⟩⟩
  rw [← reifyAux_congr hlookup] at hrun
  exact bind_eq_ok.mpr ⟨(entries, st), hrun, rfl⟩

theorem lookup_of_forall₂ {Q : Ty → Ty → Prop} {es es' : List (Int × Ty)}
    (h : Forall₂ (fun p p' => p'.1 = p.1 ∧ Q p.2 p'.2) es es') (hv : es.lookup v = some t) :
    ∃ a, es'.lookup v = some a ∧ Q t a := by
  induction h with
  | nil => cases hv
  | @cons p p' _ _ hp _ ih =>
    obtain ⟨w, u⟩ := p
    obtain ⟨w', a⟩ := p'
    obtain ⟨rfl, hQ⟩ := hp
    cases hw : v == w' with
    | true =>
      rw [lookup_cons, hw] at hv
      cases hv
      exact ⟨a, by rw [lookup_cons, hw], hQ⟩
    | false =>
      rw [lookup_cons, hw] at hv
      obtain ⟨b, hb, hQb⟩ := ih hv
      exact ⟨b, by rwa [lookup_cons, hw], hQb⟩

/-- In a table that binds no variable twice a variable is bound to what stands beside it. -/
theorem get?_eq_some_iff (hs : s.vars.Nodup) : s.get? v = some t ↔ (v, t) ∈ s.entries :=
  ⟨mem_of_lookup, lookup_of_mem hs⟩

theorem lookup_of_perm (hs : s.vars.Nodup) (hperm : s.entries.Perm s'.entries) : s'.lookup = s.lookup := by
  have hs' : s'.vars.Nodup := (hperm.map Prod.fst).nodup_iff.mp hs
  have hget : ∀ v, s'.get? v = s.get? v := fun v => Option.ext fun t => by
    rw [get?_eq_some_iff hs, get?_eq_some_iff hs', hperm.mem_iff]
  have haux : ∀ n t, s'.lookupAux n t = s.lookupAux n t := by
    intro n
    induction n with
    | zero => intro t; cases t <;> rfl
    | succ n ih =>
      intro t
      cases t with
      | var v => simp only [lookupAux, hget, ih]
      | _ => rfl
  funext t
  rw [lookup, lookup, size, size, hperm.length_eq, haux]

/-- The composite types that can be reached from the types of the table. -/
def TableReach (s : Substitution) (g : TypeGraph) (i : NodeId) : Prop := ∃ p ∈ s.entries, s.Reach g p.2 i

theorem region_table (hclosed : g.Closed) (hs : s.Below g.size) : s.Region g (s.TableReach g) where
  closed := hclosed
  below := hs
  lt hi := by
    obtain ⟨p, hp, hreach⟩ := hi
    exact (region_reach hclosed hs (hs p hp)).lt hreach
  step hi hstep := by
    obtain ⟨p, hp, hreach⟩ := hi
    exact ⟨p, hp, (region_reach hclosed hs (hs p hp)).step hreach hstep⟩

theorem Renders.mono (h : r.Renders G v σ g t) (hext : G.Extends G') : r.Renders G' v σ g t :=
  fun G'' hext' => h G'' fun i x hi => hext' i x (hext i x hi)

/-- Tables that resolve the same variables, to what stands for the same types, are equivalent. -/
theorem equivalent_of_renders (hG : G.Closed) (hr : ∀ v ∈ r.vars, v ∈ s.vars)
    (h : ∀ v ∈ s.vars, ∃ t, r.Renders G v σ g t ∧ s'.Renders G v σ g t) (hs' : ∀ v ∈ s'.vars, v ∈ s.vars) :
    equivalent G r s' = .ok true := by
  refine allM_eq_true fun v hv => ?_
  have hvars : v ∈ s.vars := (mem_append.mp hv).elim (hr v) fun hv => hs' v (mem_of_mem_filter hv)
  obtain ⟨t, hrenders, hrenders'⟩ := h v hvars
  exact agreeOn_of_renders hrenders hrenders' (TypeGraph.extends_refl G) hG

theorem vars_of_forall₂ (h : Forall₂ (fun p p' => p'.1 = p.1) s.entries r.entries) : r.vars = s.vars := by
  obtain ⟨es⟩ := s
  obtain ⟨es'⟩ := r
  simp only [vars] at h ⊢
  induction h with
  | nil => rfl
  | cons hp _ ih => rw [map_cons, map_cons, hp, ih]

/-- **Reified tables do not depend on the order.** A table that binds no variable twice is reified in any two orders of
its entries, and the two tables that result are equivalent to each other and to the table, if function types take
tuples, no lookalikes of a union lead back to it, no union among the cases of another leads back to that, and no union
that leads back to itself stands for a single case. -/
theorem reified_independent_of_order {g : TypeGraph} {s s' : Substitution} (htame : s.Tame g (s.TableReach g))
    (hkeys : s.vars.Nodup) (hperm : s.entries.Perm s'.entries) :
    ∃ G r G' r', s.reified g = .ok (G, r) ∧ s'.reified G = .ok (G', r') ∧ equivalent G' r r' = .ok true ∧
      equivalent G' r s = .ok true ∧ equivalent G' r' s = .ok true := by
  have hD : ∀ p ∈ s.entries, ∀ {j}, s.lookup p.2 = .node j → s.TableReach g j := fun p hp j hj => ⟨p, hp, j, hj, .refl⟩
  obtain ⟨G, r, S, hr, hext, hG, hbelow, hnormal, hall⟩ :=
    htame.reified rfl hD (TypeGraph.extends_refl g) htame.region.closed
  obtain ⟨G', r', S', hr', hext', hG', hbelow', hnormal', hall'⟩ := htame.reified (lookup_of_perm hkeys hperm)
    (fun p hp => hD p (hperm.mem_iff.mpr hp)) hext hG
  have hkeys' : s'.vars.Nodup := (hperm.map Prod.fst).nodup_iff.mp hkeys
  have hrenders : ∀ v ∈ s.vars, ∃ t, r.Renders G' v s g t ∧ r'.Renders G' v s g t ∧
      s.Renders G' v s g t := fun v hv => by
    obtain ⟨⟨w, t⟩, hmem, hw⟩ := List.mem_map.mp hv
    cases hw
    have hget := (get?_eq_some_iff hkeys).mpr hmem
    obtain ⟨a, ha, hSa, hdenotes⟩ := lookup_of_forall₂ (Q := fun t a => S a ∧ s.Denotes g G t a) hall hget
    obtain ⟨a', ha', hSa', hdenotes'⟩ := lookup_of_forall₂ (Q := fun t a => S' a ∧ s.Denotes g G' t a) hall'
      ((get?_eq_some_iff hkeys').mpr (hperm.mem_iff.mp hmem))
    exact ⟨t, (renders_of_normal hnormal hG hbelow ha hSa hdenotes).mono hext',
      renders_of_normal hnormal' hG' hbelow' ha' hSa' hdenotes', (htame.renders hget (hD _ hmem)).mono fun i x hi =>
      hext' i x (hext i x hi)⟩
  have hrvars : ∀ v ∈ r.vars, v ∈ s.vars := fun v hv => vars_of_forall₂ (hall.imp fun _ _ hp => hp.1) ▸ hv
  have hrvars' : ∀ v ∈ r'.vars, v ∈ s.vars := fun v hv => by
    rw [vars_of_forall₂ (hall'.imp fun _ _ hp => hp.1)] at hv
    exact (hperm.map Prod.fst).mem_iff.mpr hv
  refine ⟨G, r, G', r', hr, hr', ?_, ?_, ?_⟩
  · exact equivalent_of_renders hG' hrvars (fun v hv => (hrenders v hv).imp fun t ht => ⟨ht.1, ht.2.1⟩) hrvars'
  · exact equivalent_of_renders hG' hrvars (fun v hv => (hrenders v hv).imp fun t ht => ⟨ht.1, ht.2.2⟩) fun v hv => hv
  · exact equivalent_of_renders hG' hrvars' (fun v hv => (hrenders v hv).imp fun t ht => ht.2) fun v hv => hv

/-- No two unions among the composite types lead to each other. -/
def unnested (σ : Substitution) (g : TypeGraph) (is : List NodeId) : Bool :=
  is.all fun u => is.all fun v => u == v || g.head? (.node u) != some .union || g.head? (.node v) != some .union ||
    !σ.mayLead g u v || !σ.mayLead g v u

/-- Every union among the composite types has two cases with different heads that are no unions. -/
def mixed (σ : Substitution) (g : TypeGraph) (is : List NodeId) : Bool :=
  is.all fun u => ((g.unionCases? (.node u)).getD [.int, .bool]).any fun c =>
    ((g.unionCases? (.node u)).getD [.int, .bool]).any fun c' =>
    g.head? (σ.lookup c) != some .union && g.head? (σ.lookup c') != some .union && g.head? (σ.lookup c) != g.head?
      (σ.lookup c')

theorem not_nested (his : σ.isClosed g is = true) (h : σ.unnested g is = true) (hD : ∀ i, D i → i ∈ is) :
    ¬ σ.Nested g D := by
  rintro ⟨u, v, hu, hcase, hne, hunion, hlead⟩
  have hback := leadsTo_of_cases hcase.to_reflTransGen
  have hcheck := all_eq_true.mp (all_eq_true.mp h u (hD u hu)) v (mem_of_leadsTo his (hD u hu) hback)
  have hhead : g.head? (.node u) = some .union := by
    obtain ⟨z, ⟨cases, hget, -⟩, -⟩ := Relation.TransGen.head'_iff.mp hcase
    simp [TypeGraph.head?, hget, Composite.head]
  simp only [hhead, isUnion_iff_head.mp hunion, bne_self_eq_false, Bool.or_false, Bool.or_eq_true, beq_iff_eq,
    Bool.not_eq_true'] at hcheck
  rcases hcheck with (heq | hno) | hno
  · exact hne heq.symm
  · exact not_leadsTo hno hback
  · exact not_leadsTo hno hlead

theorem not_solitary (h : σ.mixed g is = true) (hD : ∀ i, D i → i ∈ is) : ¬ σ.Solitary g D := by
  rintro ⟨u, hu, hunion, -, G, a, ha, hdenotes⟩
  obtain ⟨cases, hcases⟩ := hunion
  have hcheck := all_eq_true.mp h u (hD u hu)
  rw [lookup_node] at hcases
  simp only [hcases, Option.getD_some, any_eq_true, Bool.and_eq_true, bne_iff_ne] at hcheck
  obtain ⟨c, hc, c', hc', ⟨hflat, hflat'⟩, hne⟩ := hcheck
  -- both cases are leaves, and both are shown by the single case
  have hhead : ∀ c ∈ cases, g.head? (σ.lookup c) ≠ some .union →
      g.head? (σ.lookup c) = G.head? a := fun c hc hflat => by
    have hleaf : σ.Leaf g c (σ.lookup c) := .self fun hunion => hflat (by
      obtain ⟨cases, hcases⟩ := hunion
      obtain ⟨j, hj, hget⟩ := unionCases?_eq_some.mp hcases
      simp [TypeGraph.head?, hj, hget, Composite.head])
    obtain ⟨y, hy, hshows⟩ := hdenotes.step.1 _ (.case (by rwa [lookup_node]) hc hleaf)
    rw [TypeGraph.eq_of_leaf ha hy] at hshows
    exact hshows.head_eq
  exact hne ((hhead c hc hflat).trans (hhead c' hc' hflat').symm)

/-- A union that leads back to itself, through the table, with a union of lookalikes among its cases. -/
def treeGraph : TypeGraph :=
  ⟨#[.union [.node 1, .int, .node 2], .tuple "b" [{ type := .var 1 }, { type := .var 3 }],
    .union [.bool, .node 3, .node 4], .tuple "a" [{ type := .int }], .tuple "a" [{ type := .bool }]]⟩

def treeTable : Substitution := ⟨[(1, .node 0), (2, .node 1), (3, .node 2)]⟩

theorem treeTable_reversed : treeTable.vars.Nodup ∧ ∃ G r G' r', treeTable.reified treeGraph = .ok (G, r) ∧
    Substitution.reified ⟨treeTable.entries.reverse⟩ G = .ok (G', r') ∧ equivalent G' r r' = .ok true ∧
    equivalent G' r treeTable = .ok true ∧ equivalent G' r' treeTable = .ok true := by
  have his : treeTable.isClosed treeGraph [0, 1, 2, 3, 4] = true := by decide
  have hD : ∀ i, treeTable.TableReach treeGraph i → i ∈ [0, 1, 2, 3, 4] := by
    rintro i ⟨p, hp, j, hj, hlead⟩
    refine mem_of_leadsTo his ?_ hlead
    simp only [treeTable, List.mem_cons, List.not_mem_nil, or_false] at hp
    rcases hp with rfl | rfl | rfl <;> cases hj <;> decide
  have hfunctions : ∀ i d c, treeGraph.get? i ≠ some (.function d c) := by
    intro i d c hi
    have hlt : i < 5 := lt_size_of_get? hi
    interval_cases i <;> simp [treeGraph, TypeGraph.get?] at hi
  have htame : treeTable.Tame treeGraph (treeTable.TableReach treeGraph) := ⟨region_table (by decide) (by decide),
    fun i d c _ hi => absurd hi (hfunctions i d c), not_tangled his (by decide) hD, not_nested his (by decide) hD,
    not_solitary (by decide) hD⟩
  exact ⟨by decide, reified_independent_of_order htame (by decide) (List.reverse_perm _).symm⟩

end Walks

end Substitution

end TypeInference
