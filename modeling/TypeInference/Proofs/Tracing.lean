import TypeInference.Proofs.Canonical

/-! # Reification, step by step

`ReifyState.Traced` and `ReifyState.Neat` hold from the first step of a reification to the last (`reifyAux_traced`).
Only the comparison of two cases of a union can fail, and only if a function type that is under way can be reached from
one of them (`Traced.compare`); what it finds equal is alike unless a case leads back to the union. -/

namespace TypeInference.Substitution

open ReifyState ReifyM
open List

variable {σ : Substitution} {g : TypeGraph} {D : NodeId → Prop} {P : Fault → Prop} {L : Ledger} {st st1 : ReifyState}
  {t a b : Ty} {i k s u : NodeId} {label : String} {reify : Ty → ReifyM Ty}

/-! ### Comparing cases -/

/-- Leaves, and new nodes whose origins have the property. -/
def Ledger.Over (L : Ledger) (size : Nat) (Q : NodeId → Prop) : Ty → Prop
  | .node k => L.base ≤ k ∧ k < size ∧ Q (L.origin k)
  | _ => True

theorem ReifyState.Traced.image_node (h : st.Traced σ g D L) (ha : st.Image σ t (.node k)) :
    ∃ j, σ.lookup t = .node j ∧ L.base ≤ k ∧ k < st.graph.size ∧
    Relation.ReflTransGen (σ.HasCase g) j (L.origin k) := by
  rcases image_iff.mp ha with ha | ⟨j, hj, ha⟩
  · exact absurd rfl (ha.ne_node k)
  · exact ⟨j, hj, h.result_node ha⟩

/-- What a new node refers to is new, and its origin can be reached from the origin of the node. -/
theorem ReifyState.Traced.leadsOn (h : st.Traced σ g D L) (hk : L.base ≤ k) {x : Composite}
    (hx : st.graph.get? k = some x) (hu : x.Refers u) : L.base ≤ u ∧ u < st.graph.size ∧
    σ.LeadsOn g (L.origin k) (L.origin u) := by
  obtain ⟨v, t, hv, ht, himage⟩ := (h.nodes hk hx).refers hu
  obtain ⟨j, hj, hbase, hlt, hcases⟩ := h.image_node himage
  exact ⟨hbase, hlt, (Relation.TransGen.tail' hv ⟨t, ht, hj⟩).trans_left (leadsTo_of_cases hcases)⟩

/-- New nodes have all their parts if no function type among their origins waits for its domain. -/
theorem ReifyState.Traced.supports (h : st.Traced σ g D L) {Q : NodeId → Prop} (hQ : ∀ i j, Q i → σ.LeadsOn g i j → Q j)
    (hdomains : ∀ f ∈ L.domains, ¬ Q f) : st.graph.Supports (L.Over st.graph.size Q) where
  node hk := hk.2.1
  parts {k x t} hk hx ht := by
    cases t with
    | node u =>
      obtain ⟨hu, hlt, hleads⟩ := h.leadsOn hk.1 hx (.inl ht)
      exact ⟨hu, hlt, hQ _ _ hk.2.2 hleads⟩
    | _ => trivial
  domain {k d c} hk hx := by
    cases d with
    | none =>
      cases h.nodes hk.1 hx with
      | function _ hdomain _ =>
        rcases hdomain with ⟨e, he, -⟩ | ⟨-, hmem⟩
        · cases he
        · exact absurd hk.2.2 (hdomains _ hmem)
    | some d =>
      obtain ⟨hd, hlt, hleads⟩ := h.leadsOn hk.1 hx (.inr ⟨c, rfl⟩)
      exact ⟨d, rfl, hd, hlt, hQ _ _ hk.2.2 hleads⟩

/-- What is under way leads to the union that is being built. -/
structure Ledger.Around (L : Ledger) (σ : Substitution) (g : TypeGraph) (s : NodeId) : Prop where
  pending : ∀ p ∈ L.pending, σ.LeadsTo g p s
  domains : ∀ f ∈ L.domains, ∃ d c, g.get? f = some (.function (some d) c) ∧ σ.LeadsTo g d s

theorem ReifyState.Traced.case_node (h : st.Traced σ g D L) (hk : σ.CaseRelated g (st.Image σ) s (.node k)) :
    L.base ≤ k ∧ k < st.graph.size ∧ Relation.TransGen (σ.HasCase g) s (L.origin k) := by
  obtain ⟨v, cases, c, hv, hget, hc, himage⟩ := hk
  obtain ⟨j, hj, hbase, hlt, hcases⟩ := h.image_node himage
  exact ⟨hbase, hlt, (Relation.TransGen.tail' hv ⟨cases, hget, c, hc, hj⟩).trans_left hcases⟩

/-- What the answer to a comparison says, unless lookalikes were compared too early. -/
structure Ledger.Compared (L : Ledger) (σ : Substitution) (g : TypeGraph) (D : NodeId → Prop) (G : TypeGraph)
    (a b : Ty) : Prop where
  twins : G.equal a b = .ok true → ¬ σ.Tangled g D → L.Twins G b a
  apart : G.equal a b = .ok false → ¬ σ.Tangled g D → L.Apart G a b

/-- Two lookalikes of the union are compared, nodes that are not the same. The comparison meets only what they lead to,
so it finds what it looks for unless a function type there waits for its domain. -/
theorem ReifyState.Traced.compare_lookalikes (h : st.Traced σ g D L) (hP : σ.TangledByDomain g D → P .missing)
    (hs : D s) (haround : L.Around σ g s) {k' : NodeId} (hk : L.base ≤ k ∧ k < st.graph.size)
    (hk' : L.base ≤ k' ∧ k' < st.graph.size) (hlook : σ.Lookalikes g s (L.origin k) (L.origin k')) :
    Raises P (st.graph.equal (.node k) (.node k')) ∧ L.Compared σ g D st.graph (.node k) (.node k') := by
  -- what the two lead to
  let Q := fun i => σ.LeadsTo g (L.origin k) i ∨ σ.LeadsTo g (L.origin k') i
  have hQ : ∀ i j, Q i → σ.LeadsOn g i j → Q j := fun i j hi hij =>
    hi.imp (fun hi => hi.trans hij.to_reflTransGen) (fun hi => hi.trans hij.to_reflTransGen)
  by_cases hdomains : ∃ f ∈ L.domains, Q f
  · obtain ⟨f, hf, hkf⟩ := hdomains
    obtain ⟨d, c, hget, hd⟩ := haround.domains f hf
    have hby : σ.TangledByDomain g D := by
      rcases hkf with hkf | hkf
      · exact ⟨s, _, _, f, d, c, hs, hlook, hkf, hget, hd⟩
      · exact ⟨s, _, _, f, d, c, hs, hlook.symm, hkf, hget, hd⟩
    refine ⟨fun e he => ?_, fun _ htangled => absurd hby.tangled htangled,
      fun _ htangled => absurd hby.tangled htangled⟩
    rw [equal_raises _ _ _ e he]
    exact hP hby
  · have hS := h.supports hQ fun f hf hkf => hdomains ⟨f, hf, hkf⟩
    have hSk : L.Over st.graph.size Q (.node k) := ⟨hk.1, hk.2, .inl .refl⟩
    have hSk' : L.Over st.graph.size Q (.node k') := ⟨hk'.1, hk'.2, .inr .refl⟩
    obtain ⟨answer, hanswer⟩ := hS.equal_isOk hSk hSk'
    have hdone : ¬ σ.Tangled g D → ∀ v, L.Over st.graph.size Q (.node v) → L.Done v := fun htangled v hv =>
        ⟨hv.1, fun hp => by
      -- what is under way leads to the union
      have hback := haround.pending _ hp
      rcases hv.2.2 with hkv | hkv
      · exact htangled ⟨s, _, _, hs, hlook, hkv.trans hback⟩
      · exact htangled ⟨s, _, _, hs, hlook.symm, hkv.trans hback⟩⟩
    refine ⟨hanswer ▸ .ok answer, fun htrue htangled =>
      .inr ⟨_, hS, hdone htangled, hSk', hSk, (hS.alike_of_equal hSk hSk' htrue).symm⟩,
      fun hfalse htangled => .inr ⟨_, hS, hdone htangled, hSk, hSk', fun halike => equalAux_ne_false _ _ halike hfalse⟩⟩

theorem ReifyState.Traced.image_cases (h : st.Traced σ g D L) (ha : st.Image σ t a) :
    a = .error ∨ (∃ b, a = .scalar b) ∨ ∃ k, a = .node k := by
  have hleaf : ∀ {t}, σ.Reads t a → a = .error ∨ (∃ b, a = .scalar b) ∨ ∃ k, a = .node k := fun hreads => by
    unfold Reads at hreads
    split at hreads
    · exact .inl hreads
    · exact .inl hreads
    · exact .inl hreads
    · exact .inr (.inl ⟨_, hreads⟩)
    · exact hreads.elim
  rcases image_iff.mp ha with ha | ⟨j, -, ha⟩
  · exact hleaf ha
  · cases h.results ha with
    | node => exact .inr (.inr ⟨_, rfl⟩)
    | leaf h =>
      obtain ⟨_, _, _, _, _, _, hreads⟩ := h
      exact hleaf hreads

theorem ReifyState.Traced.head_ne (h : st.Traced σ g D L) (ha : σ.CaseRelated g (st.Image σ) s a)
    (hb : σ.CaseRelated g (st.Image σ) s b) (hne : a ≠ b) (hnodes : ¬ ∃ k k', a = .node k ∧ b = .node k') :
    st.graph.head? a ≠ st.graph.head? b := by
  obtain ⟨_, _, t, _, _, _, ha⟩ := ha
  obtain ⟨_, _, u, _, _, _, hb⟩ := hb
  rcases h.image_cases ha with rfl | ⟨x, rfl⟩ | ⟨k, rfl⟩ <;> rcases h.image_cases hb with rfl | ⟨y, rfl⟩ | ⟨k', rfl⟩
  · exact absurd rfl hne
  · simp [TypeGraph.head?]
  · exact (head?_ne_of_leaf (by simp)).symm
  · simp [TypeGraph.head?]
  · simpa [TypeGraph.head?] using hne
  · exact (head?_ne_of_leaf (by simp)).symm
  · exact head?_ne_of_leaf (by simp)
  · exact head?_ne_of_leaf (by simp)
  · exact absurd ⟨k, k', rfl, rfl⟩ hnodes

/-- Two cases of the union `u` are compared. They are lookalikes, or the answer is clear. -/
theorem ReifyState.Traced.compare (h : st.Traced σ g D L) (hP : σ.TangledByDomain g D → P .missing) (hs : D s)
    (haround : L.Around σ g s) (hu : L.base ≤ u) (hlt : u < st.graph.size) (horigin : L.origin u = s)
    (ha : σ.CaseRelated g (st.Image σ) s a) (hb : σ.CaseRelated g (st.Image σ) s b) (ha' : a ≠ .node u)
    (hb' : b ≠ .node u) : Raises P (st.graph.equal a b) ∧ L.Compared σ g D st.graph a b := by
  by_cases heq : a = b
  · subst heq
    rw [equal_self]
    refine ⟨.ok true, fun _ _ => .inl rfl, fun hfalse => ?_⟩
    rw [equal_self] at hfalse
    cases hfalse
  by_cases hnodes : ∃ k k', a = .node k ∧ b = .node k'
  · obtain ⟨k, k', rfl, rfl⟩ := hnodes
    obtain ⟨hk, hklt, hcase⟩ := h.case_node ha
    obtain ⟨hk', hklt', hcase'⟩ := h.case_node hb
    obtain ⟨x, hx⟩ := exists_get_of_lt hklt
    obtain ⟨y, hy⟩ := exists_get_of_lt hklt'
    replace hx := get?_of_get hx
    replace hy := get?_of_get hy
    by_cases hhead : x.head = y.head
    · refine h.compare_lookalikes hP hs haround ⟨hk, hklt⟩ ⟨hk', hklt'⟩
        ⟨hcase, hcase', fun hs => ha' ?_, fun hs => hb' ?_, fun hs => heq ?_, ?_⟩
      · rw [h.distinct hk hklt hu hlt (hs.trans horigin.symm)]
      · rw [h.distinct hk' hklt' hu hlt (hs.trans horigin.symm)]
      · rw [h.distinct hk hklt hk' hklt' hs]
      · rw [(h.nodes hk hx).head, (h.nodes hk' hy).head, hhead]
    · have hfalse := equal_of_head_ne hx hy hhead
      refine ⟨hfalse ▸ .ok false, fun htrue => (by cases hfalse.symm.trans htrue), fun _ _ => .inl fun h => hhead ?_⟩
      simpa [TypeGraph.head?, hx, hy] using h
  · have hleaf : st.graph.equal a b = .ok (a == b) := equalAux_leaf fun k k' hk hk' => hnodes ⟨k, k', hk, hk'⟩
    rw [beq_eq_false_iff_ne.mpr heq] at hleaf
    exact ⟨hleaf ▸ .ok false, fun htrue => (by cases hleaf.symm.trans htrue),
      fun _ _ => .inl (h.head_ne ha hb heq hnodes)⟩

/-! ### Nodes under way -/

/-- The ledger while the node for `i` is being built. -/
abbrev Ledger.during (L : Ledger) (i : NodeId) (origin : NodeId → NodeId)
    (domains : List NodeId := L.domains) : Ledger :=
  ⟨L.base, origin, i :: L.pending, domains⟩

/-- What has to hold where a type is reified: it lies in the region, and all that is under way leads to it. -/
structure Ledger.Awaits (L : Ledger) (σ : Substitution) (g : TypeGraph) (D : NodeId → Prop) (t : Ty) : Prop where
  region : ∀ {j}, σ.lookup t = .node j → D j
  pending : ∀ {j}, σ.lookup t = .node j → ∀ p ∈ L.pending, σ.LeadsOn g p j
  domains : ∀ {j}, σ.lookup t = .node j → ∀ f ∈ L.domains, ∃ d c, g.get? f = some (.function (some d) c) ∧
    σ.LeadsTo g d j

/-- A call for `t` has returned its result. Nodes may have been added, with the origins that `origin` gives. -/
structure ReifyState.Followed (σ : Substitution) (g : TypeGraph) (D : NodeId → Prop) (L : Ledger) (st : ReifyState)
    (t a : Ty) (origin : NodeId → NodeId) (st1 : ReifyState) : Prop where
  copied : Copied L.base st a st1
  agrees : ∀ k < st.graph.size, origin k = L.origin k
  traced : st1.Traced σ g D { L with origin := origin }
  neat : st1.Neat σ g D { L with origin := origin }
  image : st1.Image σ t a
  unfinished : st1.unfinished = st.unfinished
  referenced : st.referenced ⊆ st1.referenced
  /-- A union that is returned before it is complete has been noted. -/
  spoken : ∀ u, a = .node u → u ∈ st1.unfinished → a ∈ st1.referenced

/-- The node after those of `st` is being given its content, for the origin `i`. -/
structure ReifyState.Underway (σ : Substitution) (g : TypeGraph) (D : NodeId → Prop) (L : Ledger) (st : ReifyState)
    (i : NodeId) (domains : List NodeId) (origin : NodeId → NodeId) (st1 : ReifyState) : Prop where
  bounds : g.size ≤ L.base ∧ L.base ≤ st.graph.size
  building : Building L.base st st1
  agrees : ∀ k < st.graph.size, origin k = L.origin k
  self : origin st.graph.size = i
  traced : st1.Traced σ g D (L.during i origin domains)
  neat : st1.Neat σ g D (L.during i origin domains)
  result : st1.results.lookup i = some (.node st.graph.size)
  referenced : st.referenced ⊆ st1.referenced

namespace ReifyState.Underway

variable {domains domains' : List NodeId} {origin origin' : NodeId → NodeId} {c : Composite} {st2 : ReifyState} {u : Ty}
  {d e : NodeId}

theorem start (htraced : st.Traced σ g D L) (hneat : st.Neat σ g D L) (hst : st.Sound L.base) (hbase : g.size ≤ L.base)
    (hD : σ.Region g D) (hi : D i) (hnew : st.results.lookup i = none) (hdomains : L.domains ⊆ domains)
    (hc : Pictures σ g (fun _ _ => False) True (i ∈ domains) i c) (hbelow : c.Below 0) {unfinished : List NodeId}
    (hunfinished : ∀ k, k ∈ unfinished ↔ k ∈ st.unfinished ∨ k = st.graph.size ∧ σ.IsUnion g (.node i)) :
    Underway σ g D L st i domains (Function.update L.origin st.graph.size i)
      { st with graph := (st.graph.add c).1, results := (i, .node st.graph.size) :: st.results,
                unfinished := unfinished } where
  bounds := ⟨hbase, hst.size⟩
  building := (building_start hst (Nat.lt_of_lt_of_le (hD.lt hi) hbase) hnew (hbelow.mono (Nat.zero_le _))).note _ _
  agrees k hk := Function.update_of_ne (Nat.ne_of_lt hk) _ _
  self := Function.update_self _ _ _
  traced := htraced.start hst hi hnew hdomains hc hunfinished
  neat := by
    refine hneat.start htraced hst hnew ?_ fun k hk => ((hunfinished k).mp hk).imp_right And.left
    rintro cases rfl
    cases hc with
    | union _ hcases =>
      refine eq_nil_iff_forall_not_mem.mpr fun t ht => ?_
      obtain ⟨-, -, -, -, -, -, hfalse⟩ := hcases t ht
      exact hfalse
  result := by simp
  referenced := List.Subset.refl _

theorem call (h : Underway σ g D L st i domains origin st1)
    (hcall : Followed σ g D (L.during i origin domains) st1 t a origin' st2) :
    Underway σ g D L st i domains origin' st2 where
  bounds := h.bounds
  building := h.building.call hcall.copied
  agrees k hk := (hcall.agrees k (Nat.lt_trans hk h.building.opened)).trans (h.agrees k hk)
  self := (hcall.agrees _ h.building.opened).trans h.self
  traced := hcall.traced
  neat := hcall.neat
  result := hcall.copied.keeps.results _ _ h.result
  referenced := List.Subset.trans h.referenced hcall.referenced

theorem fill (h : Underway σ g D L st i domains origin st1) (hdomains : ∀ f ∈ domains, f = i ∨ f ∈ domains')
    (hc : Pictures σ g (st1.Image σ) True (i ∈ domains') i c) (hbelow : c.Below st1.graph.size)
    (hused : ∀ u, c.Refers u → u ∈ st1.unfinished → .node u ∈ st1.referenced)
    (hunion : ∀ cases, c = .union cases → (¬ σ.Nested g D → ∀ t ∈ cases, st1.graph.unionCases? t = none) ∧
      (¬ σ.Tangled g D → cases.Pairwise ((L.during i origin domains).Apart st1.graph))) :
    Underway σ g D L st i domains' origin { st1 with graph := st1.graph.set st.graph.size c } := by
  obtain ⟨hbase, hst⟩ := h.bounds
  obtain ⟨x, hx⟩ := exists_get_of_lt h.building.opened
  replace hx := get?_of_get hx
  have hhead : some c.head = some x.head := hc.head.symm.trans (h.self ▸ (h.traced.nodes hst hx).head)
  have hpending : origin st.graph.size ∈ i :: L.pending := h.self ▸ mem_cons_self
  refine ⟨h.bounds, h.building.fill hst hbelow, h.agrees, h.self, ?_, ?_, h.result, h.referenced⟩
  · refine h.traced.fill hbase hst h.building.opened hpending ?_ ?_ hused
    · exact h.self ▸ hdomains
    · exact h.self ▸ hc
  · exact h.neat.fill h.building.opened hpending hx (Option.some.inj hhead)
      (fun hnested cases hx => (hunion cases hx).1 hnested) fun htangled cases hx => (hunion cases hx).2 htangled

theorem filled (h : Underway σ g D L st i domains origin st1) :
    (st1.graph.set st.graph.size c).get? st.graph.size = some c := by
  rw [TypeGraph.get?_set, if_pos rfl, if_pos h.building.opened]

theorem finish (h : Underway σ g D L st i L.domains origin st1) (ht : σ.lookup t = .node i)
    (hunfinished : st1.unfinished = st.unfinished) (hget : st1.graph.get? st.graph.size = some c)
    (hc : Pictures σ g (st1.Image σ) False (i ∈ L.domains) i c) (hhead : c.head ≠ .union) :
    Followed σ g D L st t (.node st.graph.size) origin st1 := by
  have hunion : ¬ σ.IsUnion g (.node i) := fun h => hhead (Option.some.inj (hc.head.symm.trans (isUnion_iff_head.mp h)))
  refine ⟨h.building.copied h.building.opened, h.agrees, h.traced.done rfl h.bounds.2 h.self hget hc hunion,
    h.neat.done h.traced rfl h.bounds.2 h.self hget hhead, ?_, hunfinished, h.referenced, fun u hu hmem => ?_⟩
  · exact image_iff.mpr (.inr ⟨i, ht, h.result⟩)
  · cases hu
    exact absurd (h.self ▸ (h.traced.unfinished.mp hmem).2.2.2) hunion

theorem metatype (h : Underway σ g D L st i L.domains origin st1) (ht : σ.lookup t = .node i)
    (hunfinished : st1.unfinished = st.unfinished) (hi : g.get? i = some (.metatype u))
    (hcall : Followed σ g D (L.during i origin) st1 u a origin' st2) :
    Followed σ g D L st t (.node st.graph.size) origin'
    { st2 with graph := st2.graph.set st.graph.size (.metatype a) } := by
  have h2 := h.call hcall
  have hpicture : ∀ {waiting headless : Prop}, Pictures σ g (st2.Image σ) waiting headless i (.metatype a) :=
    .metatype hi (.inl hcall.image)
  refine (h2.fill (fun f hf => .inr hf) hpicture ⟨by simpa [Composite.parts] using hcall.copied.below, by simp⟩ ?_
    (by simp)).finish ht (hcall.unfinished.trans hunfinished) h2.filled hpicture (by simp [Composite.head])
  rintro k (hk | ⟨_, hk⟩) hmem
  · obtain rfl := mem_singleton.mp hk
    exact hcall.spoken k rfl hmem
  · cases hk

theorem domain (h : Underway σ g D L st i (i :: L.domains) origin st1) (hi : g.get? i = some (.function (some d) u))
    (hcall : Followed σ g D (L.during i origin (i :: L.domains)) st1 (.node d) (.node e) origin' st2) :
    Underway σ g D L st i L.domains origin'
    { st2 with graph := st2.graph.set st.graph.size (.function (some e) .absent) } := by
  refine (h.call hcall).fill (fun f hf => mem_cons.mp hf)
    (.function hi (.inl ⟨e, rfl, hcall.image⟩) (.inr ⟨rfl, trivial⟩))
    ⟨by simp [Composite.parts, Ty.Below], ?_⟩ ?_ (by simp)
  · rintro _ _ ⟨⟩
    exact hcall.copied.below
  · rintro k (hk | ⟨_, hk⟩) hmem
    · simp [Composite.parts] at hk
    · cases hk
      exact hcall.spoken e rfl hmem

theorem function (h : Underway σ g D L st i L.domains origin st1) (ht : σ.lookup t = .node i)
    (hunfinished : st1.unfinished = st.unfinished) (hi : g.get? i = some (.function (some d) u))
    (hcontent : st1.graph.get? st.graph.size = some (.function (some e) .absent))
    (hdomain : st1.Image σ (.node d) (.node e)) (hcall : Followed σ g D (L.during i origin) st1 u a origin' st2) :
    Followed σ g D L st t (.node st.graph.size) origin'
    { st2 with graph := st2.graph.set st.graph.size (.function (some e) a) } := by
  have h2 := h.call hcall
  have hcontent2 := (hcall.copied.keeps.nodes _ h.building.opened).trans hcontent
  have hpicture : ∀ {waiting headless : Prop}, Pictures σ g (st2.Image σ) waiting headless i (.function (some e) a) :=
    .function hi (.inl ⟨e, rfl, hdomain.mono hcall.copied.keeps.results⟩) (.inl hcall.image)
  refine (h2.fill (fun f hf => .inr hf) hpicture ⟨by simpa [Composite.parts] using hcall.copied.below, ?_⟩ ?_
    (by simp)).finish ht (hcall.unfinished.trans hunfinished) h2.filled hpicture (by simp [Composite.head])
  · rintro _ _ ⟨⟩
    exact (hcall.copied.sound.closed _ _ hcontent2).domain e .absent rfl
  · rintro k (hk | ⟨_, hk⟩) hmem
    · obtain rfl := mem_singleton.mp hk
      exact hcall.spoken k rfl hmem
    · cases hk
      exact h2.traced.used h.bounds.2 hcontent2 (.inr ⟨_, rfl⟩) hmem

end ReifyState.Underway

/-! ### Tuples -/

theorem below_fields {n : Nat} {done rest : List TupleField} (h : ∀ f ∈ done, f.type.Below n) :
    Composite.Below n (.tuple label (done ++ rest.map fun _ => { type := .absent })) := by
  refine ⟨fun u hu => ?_, by simp⟩
  obtain ⟨x, hx, rfl⟩ := mem_map.mp hu
  rcases mem_append.mp hx with hx | hx
  · exact h x hx
  · obtain ⟨y, -, rfl⟩ := mem_map.mp hx
    trivial

theorem reifyFields_traced :
    ∀ {rest ds done : List TupleField} {st1 : ReifyState} {origin : NodeId → NodeId},
    g.get? i = some (.tuple label (ds ++ rest)) →
      Underway σ g D L st i L.domains origin st1 → st1.unfinished = st.unfinished →
      Forall₂ (fun f f' => f.label = f'.label ∧ st1.Image σ f.type f'.type) ds done →
      st1.graph.get? st.graph.size = some (.tuple label (done ++ rest.map fun _ => { type := .absent })) →
      (∀ f ∈ rest, ∀ st1 origin, Underway σ g D L st i L.domains origin st1 → Spec P (reify f.type) st1 fun a st2 =>
        ∃ origin', Followed σ g D (L.during i origin) st1 f.type a origin' st2) →
      Spec P (reifyFields reify st.graph.size label done rest) st1 fun _ st2 =>
        ∃ origin' fields, Underway σ g D L st i L.domains origin' st2 ∧ st2.unfinished = st.unfinished ∧
          st2.graph.get? st.graph.size = some (.tuple label fields) ∧
          Pictures σ g (st2.Image σ) False (i ∈ L.domains) i (.tuple label fields)
  | [], ds, done, st1, origin, hi, h, hunfinished, hdone, hcontent, _ => by
    rw [List.append_nil] at hi
    rw [map_nil, List.append_nil] at hcontent
    exact .pure ⟨origin, done, h, hunfinished, hcontent, .tuple hi (hdone.imp fun _ _ h => .inl h)⟩
  | f :: rest, ds, done, st1, origin, hi, h, hunfinished, hdone, hcontent, hreify => by
    obtain ⟨hf, hrest⟩ := forall_mem_cons.mp hreify
    refine .bind (hf st1 origin h) fun a st2 ha => ?_
    obtain ⟨origin', ha⟩ := ha
    have h2 := h.call ha
    -- the call has left the node as it was
    have hcontent2 := (ha.copied.keeps.nodes _ h.building.opened).trans hcontent
    have hdone2 : Forall₂ (fun f f' => f.label = f'.label ∧ st2.Image σ f.type f'.type) (ds ++ [f])
        (done ++ [{ f with type := a }]) :=
      rel_append (hdone.imp fun _ _ h => ⟨h.1, h.2.mono ha.copied.keeps.results⟩) (.cons ⟨rfl, ha.image⟩ .nil)
    have hbelow : ∀ x ∈ done ++ [{ f with type := a }], x.type.Below st2.graph.size := by
      refine forall_mem_append.mpr ⟨fun x hx => ?_, forall_mem_singleton.mpr ha.copied.below⟩
      exact (ha.copied.sound.closed _ _ hcontent2).parts _ (mem_map_of_mem (mem_append_left _ hx))
    have hblank : Forall₂ (fun f f' : TupleField => f.label = f'.label ∧ st2.Image σ f.type f'.type ∨
        f'.type = .absent ∧ True) rest (rest.map fun _ => { type := .absent }) :=
      forall₂_map_right_iff.mpr (forall₂_same.mpr fun _ _ => .inr ⟨rfl, trivial⟩)
    refine .step rfl (reifyFields_traced (by simpa using hi) (h2.fill (fun f hf => .inr hf) (.tuple hi ?_)
      (below_fields hbelow) (fun u hu hmem => ?_) (by simp)) (ha.unfinished.trans hunfinished) hdone2 h2.filled hrest)
    · simpa using rel_append (hdone2.imp fun _ _ h => Or.inl h) hblank
    · -- a field that was there is noted in the content, the new one by the call
      rcases hu with hu | ⟨c, hu⟩
      · obtain ⟨x, hx, hxu⟩ := mem_map.mp hu
        rcases mem_append.mp hx with hx | hx
        · rcases mem_append.mp hx with hx | hx
          · exact h2.traced.used h.bounds.2 hcontent2 (.inl (hxu ▸ mem_map_of_mem (mem_append_left _ hx))) hmem
          · obtain rfl := mem_singleton.mp hx
            exact hxu ▸ ha.spoken u hxu hmem
        · obtain ⟨y, -, rfl⟩ := mem_map.mp hx
          cases hxu
      · cases hu

/-! ### Unions -/

/-- The union `u` may have got more cases; all else is as it was. -/
structure ReifyState.Grown (u : NodeId) (st st' : ReifyState) : Prop where
  results : st'.results = st.results
  unfinished : st'.unfinished = st.unfinished
  referenced : st'.referenced = st.referenced
  others : ∀ k, k ≠ u → st'.graph.get? k = st.graph.get? k
  grows : ∀ cases, st.graph.get? u = some (.union cases) → ∃ cases', st'.graph.get? u = some (.union cases') ∧
    cases ⊆ cases'

theorem ReifyState.Grown.refl (u : NodeId) (st : ReifyState) : st.Grown u st :=
  ⟨rfl, rfl, rfl, fun _ _ => rfl, fun cases h => ⟨cases, h, List.Subset.refl _⟩⟩

theorem ReifyState.Grown.trans {st2 : ReifyState} (h : Grown u st st1) (h' : Grown u st1 st2) : Grown u st st2 where
  results := h'.results.trans h.results
  unfinished := h'.unfinished.trans h.unfinished
  referenced := h'.referenced.trans h.referenced
  others k hk := (h'.others k hk).trans (h.others k hk)
  grows cases hget := by
    obtain ⟨cases', hget', hsub⟩ := h.grows cases hget
    obtain ⟨cases'', hget'', hsub'⟩ := h'.grows cases' hget'
    exact ⟨cases'', hget'', List.Subset.trans hsub hsub'⟩

/-- The type may be added to the union `u`, the copy of `i`. -/
structure ReifyState.Candidate (σ : Substitution) (g : TypeGraph) (D : NodeId → Prop) (i u : NodeId) (st : ReifyState)
    (b : Ty) : Prop where
  related : σ.CaseRelated g (st.Image σ) i b
  spoken : ∀ v, b = .node v → v ∈ st.unfinished → b ∈ st.referenced
  flat : ¬ σ.Nested g D → b ≠ .node u → st.graph.unionCases? b = none

theorem ReifyState.Candidate.grown (h : st.Candidate σ g D i u b) (hgrown : Grown u st st1) :
    st1.Candidate σ g D i u b where
  related := h.related.imp fun t ht => ht.mono (hgrown.results ▸ fun _ _ h => h)
  spoken v hv hmem := hgrown.referenced ▸ h.spoken v hv (hgrown.unfinished ▸ hmem)
  flat hnested hne := by
    have hflat := h.flat hnested hne
    cases b with
    | node k =>
      simp only [TypeGraph.unionCases?] at hflat ⊢
      rwa [hgrown.others k fun heq => hne (by rw [heq])]
    | _ => rfl

/-- The union after the nodes of `st` is being given its cases. -/
structure ReifyState.Gathering (σ : Substitution) (g : TypeGraph) (D : NodeId → Prop) (L : Ledger) (st : ReifyState)
    (i : NodeId) (origin : NodeId → NodeId)
    (st1 : ReifyState) : Prop extends Underway σ g D L st i L.domains origin st1 where
  region : D i
  around : (L.during i origin).Around σ g i
  unfinished : st1.unfinished = st.graph.size :: st.unfinished
  proper : ∀ cases, st1.graph.get? st.graph.size = some (.union cases) → .node st.graph.size ∉ cases

section

variable {origin : NodeId → NodeId}

theorem ReifyState.Gathering.source (h : Gathering σ g D L st i origin st1) :
    ∃ cases, g.get? i = some (.union cases) := by
  obtain ⟨cases, hcases⟩ := (h.traced.unfinished.mp (h.unfinished ▸ mem_cons_self)).2.2.2
  obtain ⟨j, hj, hget⟩ := unionCases?_eq_some.mp hcases
  cases (lookup_node _).symm.trans hj
  exact ⟨cases, h.self ▸ hget⟩

theorem ReifyState.Gathering.content (h : Gathering σ g D L st i origin st1) :
    ∃ cases, st1.graph.get? st.graph.size = some (.union cases) ∧ ∀ c ∈ cases, σ.CaseRelated g (st1.Image σ) i c := by
  obtain ⟨x, hx⟩ := exists_get_of_lt h.building.opened
  replace hx := get?_of_get hx
  have hpicture := h.traced.nodes h.bounds.2 hx
  have hunion := (h.traced.unfinished.mp (h.unfinished ▸ mem_cons_self)).2.2.2
  have hhead := Option.some.inj (hpicture.head.symm.trans (isUnion_iff_head.mp hunion))
  cases hpicture with
  | union _ hcases =>
    refine ⟨_, hx, fun c hc => ?_⟩
    have hcase : σ.CaseRelated g (st1.Image σ) (origin st.graph.size) c := hcases c hc
    rwa [h.self] at hcase
  | _ => cases hhead

theorem addCase_traced (hP : σ.TangledByDomain g D → P .missing) (h : Gathering σ g D L st i origin st1)
    (hb : st1.Candidate σ g D i st.graph.size b) :
    Spec P (addCase st.graph.size b) st1 fun _ st2 => Gathering σ g D L st i origin st2 ∧ Grown st.graph.size st1 st2 ∧
      (¬ σ.Tangled g D → b = .node st.graph.size ∨ (L.during i origin).Listed st2.graph st.graph.size b) := by
  have hst := h.bounds.2
  refine .get ?_
  dsimp only
  split
  · next heq => exact .pure ⟨h, .refl _ _, fun _ => .inl heq⟩
  · next hne =>
    obtain ⟨cases, hget, hcases⟩ := h.content
    rw [unionCases?_eq_some.mpr ⟨_, rfl, hget⟩, Option.getD_some]
    have hcompare := fun e (he : e ∈ cases) => h.traced.compare hP h.region h.around hst h.building.opened h.self
      (hcases e he) hb.related (fun heq => h.proper cases hget (heq ▸ he)) hne
    refine .liftBind (.anyM fun e he => (hcompare e he).1) fun known hknown => ?_
    cases known with
    | true =>
      refine .pure ⟨h, .refl _ _, fun htangled => .inr ⟨cases, hget, ?_⟩⟩
      obtain ⟨e, he, hequal⟩ := mem_of_anyM hknown
      exact ⟨e, he, (hcompare e he).2.twins hequal htangled⟩
    | false =>
      have hapart : ¬ σ.Tangled g D → ∀ e ∈ cases, (L.during i origin).Apart st1.graph e b := fun htangled e he =>
        (hcompare e he).2.apart (forall_of_anyM_false hknown e he) htangled
      have hfilled :
          (st1.graph.set st.graph.size (.union (cases ++ [b]))).get? st.graph.size = some (.union (cases ++ [b])) :=
        h.filled
      have hunder :
          Underway σ g D L st i L.domains origin
          { st1 with graph := st1.graph.set st.graph.size (.union (cases ++ [b])) } := by
        obtain ⟨cs, hcs⟩ := h.source
        have hall := forall_mem_append.mpr ⟨hcases, forall_mem_singleton.mpr hb.related⟩
        refine h.fill (fun f hf => .inr hf) (.union hcs hall) ⟨?_, by simp⟩ ?_ ?_
        · refine forall_mem_append.mpr ⟨(h.building.sound.closed _ _ hget).parts, forall_mem_singleton.mpr ?_⟩
          cases b with
          | node k => exact (h.traced.case_node hb.related).2.1
          | _ => trivial
        · rintro u (hu | ⟨c, hu⟩) hmem
          · rcases mem_append.mp hu with hu | hu
            · exact h.traced.used hst hget (.inl hu) hmem
            · obtain rfl := mem_singleton.mp hu
              exact hb.spoken u rfl hmem
          · cases hu
        · rintro cases' ⟨⟩
          refine ⟨fun hnested => ?_, fun htangled => ?_⟩
          · exact forall_mem_append.mpr ⟨h.neat.flat hnested hst hget, forall_mem_singleton.mpr (hb.flat hnested hne)⟩
          · refine pairwise_append.mpr ⟨h.neat.apart htangled hst hget, pairwise_singleton _ _, fun e he e' he' => ?_⟩
            obtain rfl := mem_singleton.mp he'
            exact hapart htangled e he
      refine .of_run rfl ⟨⟨hunder, h.region, h.around, h.unfinished, ?_⟩, ⟨rfl, rfl, rfl, ?_, ?_⟩,
        fun _ => .inr ⟨_, hfilled, b, by simp, .inl rfl⟩⟩
      · intro cases' hget' hmem
        cases hfilled.symm.trans hget'
        rcases mem_append.mp hmem with hmem | hmem
        · exact h.proper cases hget hmem
        · exact hne (mem_singleton.mp hmem).symm
      · intro k hk
        rw [TypeGraph.get?_set, if_neg hk.symm]
      · intro cases' hget'
        cases hget.symm.trans hget'
        exact ⟨_, hfilled, subset_append_left _ _⟩

variable {origin' : NodeId → NodeId} {st2 : ReifyState}

theorem ReifyState.Gathering.done_of_grown (h : Gathering σ g D L st i origin st1)
    (hgrown : Grown st.graph.size st1 st2) (k : NodeId) (x : Composite) (hk : (L.during i origin).Done k)
    (hx : st1.graph.get? k = some x) : (L.during i origin).Done k ∧ st2.graph.get? k = some x := by
  refine ⟨hk, (hgrown.others k ?_).trans hx⟩
  rintro rfl
  exact hk.2 (h.self ▸ mem_cons_self)

theorem ReifyState.Gathering.call (h : Gathering σ g D L st i origin st1)
    (hcall : Followed σ g D (L.during i origin) st1 t a origin' st2) : Gathering σ g D L st i origin' st2 where
  toUnderway := h.toUnderway.call hcall
  region := h.region
  around := ⟨h.around.pending, h.around.domains⟩
  unfinished := hcall.unfinished.trans h.unfinished
  proper cases hget := h.proper cases ((hcall.copied.keeps.nodes _ h.building.opened).symm.trans hget)

theorem ReifyState.Gathering.absorbed_of_call (h : Gathering σ g D L st i origin st1)
    (hcall : Followed σ g D (L.during i origin) st1 t a origin' st2)
    (hb : (L.during i origin).Absorbed st1 st.graph.size b) :
    (L.during i origin').Absorbed st2 st.graph.size b := by
  refine hb.mono (fun k x hk hx => ?_) (fun cases hget => ⟨cases, ?_, List.Subset.refl _⟩) hcall.referenced
  · have hlt := lt_size_of_get? hx
    refine ⟨⟨hk.1, ?_⟩, (hcall.copied.keeps.nodes k hlt).trans hx⟩
    change origin' k ∉ i :: L.pending
    rw [hcall.agrees k hlt]
    exact hk.2
  · exact (hcall.copied.keeps.nodes _ h.building.opened).trans hget

theorem addCases_traced (hP : σ.TangledByDomain g D → P .missing) :
    ∀ {cases : List Ty} {st1 : ReifyState}, Gathering σ g D L st i origin st1 →
    (∀ b ∈ cases, st1.Candidate σ g D i st.graph.size b) →
      Spec P (cases.forM (addCase st.graph.size)) st1 fun _ st2 => Gathering σ g D L st i origin st2 ∧
      Grown st.graph.size st1 st2 ∧ (¬ σ.Tangled g D → ∀ b ∈ cases,
          b = .node st.graph.size ∨ (L.during i origin).Listed st2.graph st.graph.size b)
  | [], st1, h, _ => .pure ⟨h, .refl _ _, by simp⟩
  | b :: cases, st1, h, hcases => by
    obtain ⟨hb, hcases⟩ := forall_mem_cons.mp hcases
    refine .bind (addCase_traced hP h hb) fun _ st2 h2 => ?_
    obtain ⟨h2, hgrown, hlisted⟩ := h2
    refine (addCases_traced hP h2 fun b hb => (hcases b hb).grown hgrown).imp fun _ st3 h3 => ?_
    obtain ⟨h3, hgrown', hlisted'⟩ := h3
    refine ⟨h3, hgrown.trans hgrown', fun htangled => forall_mem_cons.mpr ⟨?_, hlisted' htangled⟩⟩
    exact (hlisted htangled).imp_right fun hlisted => hlisted.mono (h2.done_of_grown hgrown') hgrown'.grows

theorem joinCase_traced (hP : σ.TangledByDomain g D → P .missing) (h : Gathering σ g D L st i origin st1)
    (hb : σ.CaseRelated g (st1.Image σ) i b) (hspoken : ∀ v, b = .node v → v ∈ st1.unfinished → b ∈ st1.referenced) :
    Spec P (joinCase st.graph.size b) st1 fun _ st2 => Gathering σ g D L st i origin st2 ∧ Grown st.graph.size st1 st2 ∧
      (¬ σ.Tangled g D → (L.during i origin).Absorbed st2 st.graph.size b) := by
  have hmem : st.graph.size ∈ st1.unfinished := h.unfinished ▸ mem_cons_self
  unfold joinCase
  split
  · next heq =>
    subst heq
    exact .pure ⟨h, .refl _ _, fun _ => .self (hspoken _ rfl hmem)⟩
  next hne =>
  have hadd : (¬ σ.Nested g D → st1.graph.unionCases? b = none) → Spec P (addCase st.graph.size b) st1 fun _ st2 =>
      Gathering σ g D L st i origin st2 ∧ Grown st.graph.size st1 st2 ∧
        (¬ σ.Tangled g D → (L.during i origin).Absorbed st2 st.graph.size b) := fun hflat =>
    (addCase_traced hP h ⟨hb, hspoken, fun hnested _ => hflat hnested⟩).imp fun _ _ h =>
      ⟨h.1, h.2.1, fun htangled => .listed ((h.2.2 htangled).resolve_left hne)⟩
  refine .get ?_
  split
  · next v cases hcases =>
    obtain ⟨v', hv', hget⟩ := unionCases?_eq_some.mp hcases
    cases hv'
    obtain ⟨hv, hlt, hcase⟩ := h.traced.case_node hb
    have hpicture := h.traced.nodes hv hget
    have hunion : σ.IsUnion g (.node (origin v)) := isUnion_iff_head.mpr hpicture.head
    split
    · next hmem' =>
      -- a union under way leads to this one, so it is nested
      obtain ⟨-, -, hpending, -⟩ := h.traced.unfinished.mp (contains_iff_mem.mp hmem')
      refine hadd fun hnested => absurd ⟨i, origin v, h.region, hcase, fun heq => hne ?_, hunion,
        h.around.pending _ hpending⟩ hnested
      rw [h.traced.distinct hv hlt h.bounds.2 h.building.opened (heq.trans h.self.symm)]
    · next hmem' =>
      have hdone : (L.during i origin).Done v := ⟨hv, fun hpending =>
        hmem' (contains_iff_mem.mpr (h.traced.unfinished.mpr ⟨hv, hlt, hpending, hunion⟩))⟩
      have hcandidates : ∀ b ∈ cases, st1.Candidate σ g D i st.graph.size b := by
        intro c hc
        refine ⟨?_, fun w hw => ?_, fun hnested _ => h.neat.flat hnested hv hget c hc⟩
        · cases hpicture with
          | union _ hall => exact (hall c hc).head hcase.to_reflTransGen
        · exact hw ▸ h.traced.used hv hget (.inl (hw ▸ hc))
      refine (addCases_traced hP h hcandidates).imp fun _ st2 h2 => ?_
      obtain ⟨h2, hgrown, hlisted⟩ := h2
      exact ⟨h2, hgrown, fun htangled => .inlined (h.done_of_grown hgrown v _ hdone hget).2 hdone (hlisted htangled)⟩
  · next hother =>
    refine hadd fun _ => Option.eq_none_iff_forall_ne_some.mpr fun cases hcases => ?_
    obtain ⟨v, rfl, -⟩ := unionCases?_eq_some.mp hcases
    exact hother v cases rfl hcases

theorem joinCases_traced (hP : σ.TangledByDomain g D → P .missing) :
    ∀ {rest ds : List Ty} {st1 : ReifyState} {origin : NodeId → NodeId}, g.get? i = some (.union (ds ++ rest)) →
      Gathering σ g D L st i origin st1 →
      (¬ σ.Tangled g D → ∀ c ∈ ds, ∃ b, st1.Image σ c b ∧
        (L.during i origin).Absorbed st1 st.graph.size b) →
      (∀ c ∈ rest, ∀ st1 origin, Gathering σ g D L st i origin st1 → Spec P (reify c) st1 fun a st2 =>
        ∃ origin', Followed σ g D (L.during i origin) st1 c a origin' st2) →
      Spec P (rest.forM fun c => do joinCase st.graph.size (← reify c)) st1 fun _ st2 =>
        ∃ origin', Gathering σ g D L st i origin' st2 ∧ (¬ σ.Tangled g D → ∀ c ∈ ds ++ rest, ∃ b, st2.Image σ c b ∧
          (L.during i origin').Absorbed st2 st.graph.size b)
  | [], ds, st1, origin, _, h, hds, _ => .pure ⟨origin, h, by simpa using hds⟩
  | c :: rest, ds, st1, origin, hget, h, hds, hreify => by
    obtain ⟨hc, hrest⟩ := forall_mem_cons.mp hreify
    refine .bind (Q := fun _ st3 => ∃ origin', Gathering σ g D L st i origin' st3 ∧
        (¬ σ.Tangled g D → ∀ c' ∈ ds ++ [c], ∃ b, st3.Image σ c' b ∧ (L.during i origin').Absorbed st3 st.graph.size b))
      (.bind (hc st1 origin h) fun b st2 hb => ?_) fun _ st3 h3 => ?_
    · obtain ⟨origin', hb⟩ := hb
      have hcase : σ.CaseRelated g (st2.Image σ) i b := ⟨i, _, c, .refl, hget, by simp, hb.image⟩
      refine (joinCase_traced hP (h.call hb) hcase hb.spoken).imp fun _ st3 h3 => ?_
      obtain ⟨h3, hgrown, habsorbed⟩ := h3
      have himage : ∀ {t a}, st2.Image σ t a → st3.Image σ t a := fun h => h.mono (hgrown.results ▸ fun _ _ h => h)
      refine ⟨origin', h3, fun htangled => forall_mem_append.mpr ⟨fun c' hc' => ?_, forall_mem_singleton.mpr ?_⟩⟩
      · obtain ⟨b', hb', habsorbed'⟩ := hds htangled c' hc'
        refine ⟨b', himage (hb'.mono hb.copied.keeps.results),
          (h.absorbed_of_call hb habsorbed').mono ?_ hgrown.grows ?_⟩
        · exact (h.call hb).done_of_grown hgrown
        · exact hgrown.referenced ▸ List.Subset.refl _
      · exact ⟨b, himage hb.image, habsorbed htangled⟩
    · obtain ⟨origin', h3, hds'⟩ := h3
      simpa using joinCases_traced hP (by simpa using hget) h3 hds' hrest

theorem finishUnion_traced (h : Gathering σ g D L st i origin st1) (htraced : st.Traced σ g D L)
    (hnew : st.results.lookup i = none) (ht : σ.lookup t = .node i)
    (hcases : ¬ σ.Tangled g D → ∀ cases, g.get? i = some (.union cases) → ∀ c ∈ cases, ∃ b, st1.Image σ c b ∧
      (L.during i origin).Absorbed st1 st.graph.size b) :
    Spec P (finishUnion i st.graph.size) st1 fun a st2 => Followed σ g D L st t a origin st2 := by
  have hnot : i ∉ L.pending := fun hmem => htraced.waiting i hmem hnew
  have hfresh : st.graph.size ∉ st.unfinished := fun hmem => Nat.lt_irrefl _ (htraced.unfinished.mp hmem).2.1
  have hunfinished : st1.unfinished.erase st.graph.size = st.unfinished := by rw [h.unfinished, erase_cons_head]
  have hmem : st.graph.size ∈ st1.unfinished := h.unfinished ▸ mem_cons_self
  -- the union stays in its place
  have stay : (∀ a, st1.graph.get? st.graph.size = some (.union [a]) → .node st.graph.size ∈ st1.referenced) →
      Followed σ g D L st t (.node st.graph.size) origin { st1 with unfinished := st.unfinished } := fun hone =>
    ⟨(h.building.note _ _).copied h.building.opened, h.agrees,
      h.traced.close rfl hnot h.self h.unfinished hfresh hcases,
      h.neat.close h.traced rfl h.self h.unfinished hone, image_iff.mpr (.inr ⟨i, ht, h.result⟩), rfl,
      h.referenced, fun u hu hmem => by cases hu; exact absurd hmem hfresh⟩
  refine .get ?_
  dsimp only
  rw [hunfinished]
  split
  · next a hunion =>
    obtain ⟨u, hu, hget⟩ := unionCases?_eq_some.mp hunion
    cases hu
    split
    · next href => exact .of_run rfl (stay fun _ _ => contains_iff_mem.mp href)
    · next href =>
      have hfree : .node st.graph.size ∉ st1.referenced := fun hmem => href (contains_iff_mem.mpr hmem)
      obtain ⟨htraced', himage⟩ := h.traced.collapse hmem hfree (h.self ▸ h.result) hget
      have hclosed := htraced'.close rfl hnot h.self h.unfinished hfresh fun htangled cases hcs c hc => by
        obtain ⟨b, hb, habsorbed⟩ := hcases htangled cases hcs c hc
        exact ⟨b, himage c b _ hb habsorbed h.bounds.2, habsorbed.mono (fun _ _ hk hx => ⟨hk, hx⟩)
          (fun cases hget => ⟨cases, hget, List.Subset.refl _⟩) (List.Subset.refl _)⟩
      have hneat := h.neat.collapse h.traced rfl hnot h.self h.unfinished hget hfree fun heq =>
        h.proper [a] hget (heq ▸ mem_singleton_self _)
      have hcopied := h.building.collapse hnew
        (h.building.sound.closed.unionCases? hunion a (mem_singleton_self a)) st.unfinished
      refine .of_run rfl ⟨hcopied, h.agrees, ?_, hneat, ?_, rfl, h.referenced, fun u hu hmem' => ?_⟩
      · simpa only [h.self] using hclosed
      · exact image_iff.mpr (.inr ⟨i, ht, by simp⟩)
      · exact hu ▸ h.traced.used h.bounds.2 hget (.inl (hu ▸ mem_singleton_self _))
          (h.unfinished ▸ mem_cons_of_mem _ hmem')
  · next hother =>
    refine .of_run rfl (stay fun a hget => ?_)
    exact absurd (unionCases?_eq_some.mpr ⟨_, rfl, hget⟩) (hother a)

end

/-! ### Types -/

section

variable {origin : NodeId → NodeId} {p : Ty} {d : NodeId} {c : Ty}

theorem Ledger.Awaits.part (h : L.Awaits σ g D t) (hD : σ.Region g D) (ht : σ.lookup t = .node i)
    (hp : p ∈ σ.contents g (.node i)) : (L.during i origin).Awaits σ g D p where
  region hj := hD.step (h.region ht) ⟨p, hp, hj⟩
  pending hj := forall_mem_cons.mpr ⟨.single ⟨p, hp, hj⟩, fun q hq => (h.pending ht q hq).tail ⟨p, hp, hj⟩⟩
  domains hj f hf := by
    obtain ⟨d, c, hget, hd⟩ := h.domains ht f hf
    exact ⟨d, c, hget, hd.tail ⟨p, hp, hj⟩⟩

theorem Ledger.Awaits.domain (h : L.Awaits σ g D t) (hD : σ.Region g D) (ht : σ.lookup t = .node i)
    (hget : g.get? i = some (.function (some d) c)) : (L.during i origin (i :: L.domains)).Awaits σ g D (.node d) := by
  have hpart : (L.during i origin).Awaits σ g D (.node d) :=
    h.part hD ht (mem_contents_of_domain (lookup_node i) hget)
  refine ⟨hpart.region, hpart.pending, fun hj => forall_mem_cons.mpr ⟨⟨d, c, hget, ?_⟩, hpart.domains hj⟩⟩
  cases (lookup_node d).symm.trans hj
  exact .refl

theorem Ledger.Awaits.around (h : L.Awaits σ g D t) (ht : σ.lookup t = .node i) (origin : NodeId → NodeId) :
    (L.during i origin).Around σ g i where
  pending := forall_mem_cons.mpr ⟨.refl, fun p hp => (h.pending ht p hp).to_reflTransGen⟩
  domains := h.domains ht

theorem ReifyState.Traced.image_solid (h : st.Traced σ g D L) (ht : σ.lookup t = .node d) (hd : ¬ σ.IsUnion g (.node d))
    (ha : st.Image σ t a) : ∃ k, a = .node k ∧ L.base ≤ k ∧ k < st.graph.size ∧ L.origin k = d := by
  have hnot : ∀ {cases}, g.get? d ≠ some (.union cases) := fun hget => hd (isUnion_of_lookup (lookup_node d) hget)
  rcases image_iff.mp ha with ha | ⟨j, hj, ha⟩
  · simp [Reads, ht] at ha
  · cases ht.symm.trans hj
    cases h.results ha with
    | @node k hk hcases =>
      rcases hcases.cases_head with rfl | ⟨j, ⟨cases, hget, -⟩, -⟩
      · exact ⟨k, rfl, hk.1, hk.2, rfl⟩
      · exact absurd hget hnot
    | leaf hleaf =>
      obtain ⟨v, cases, t, hv, hget, -⟩ := hleaf
      rcases hv.cases_head with rfl | ⟨j, ⟨cases', hget', -⟩, -⟩
      · exact absurd hget hnot
      · exact absurd hget' hnot

theorem solid_of_tuple {d : Option NodeId} (h : ∃ e l fields, d = some e ∧ g.get? e = some (.tuple l fields)) :
    ∃ e, d = some e ∧ ¬ σ.IsUnion g (.node e) := by
  obtain ⟨e, l, fields, hd, he⟩ := h
  exact ⟨e, hd, by simp [isUnion_iff_head, TypeGraph.head?, he, Composite.head]⟩

end

/-- A call for a type. The induction is on the bound, which exceeds the number of types that have no result yet. -/
theorem reifyAux_traced (hD : σ.Region g D) (hP : σ.TangledByDomain g D → P .missing)
    (hdomain : ∀ i d c, D i → g.get? i = some (.function d c) → (∃ e, d = some e ∧ ¬ σ.IsUnion g (.node e)) ∨
    P .missing) : ∀ {fuel : Nat} {t : Ty} {st : ReifyState} {L : Ledger}, g.size ≤ L.base → st.Sound L.base →
    st.Traced σ g D L → st.Neat σ g D L →
      L.Awaits σ g D t → st.left L.base < fuel → Spec P (σ.reifyAux fuel t) st fun a st1 =>
      ∃ origin, Followed σ g D L st t a origin st1
  | 0, _, _, _, _, _, _, _, _, hfuel => absurd hfuel (Nat.not_lt_zero _)
  | fuel + 1, t, st, L, hbase, hst, htraced, hneat, hawaits, hfuel => by
    have leaf : ∀ u : Ty, u.Below 0 → σ.Reads t u → Spec P (pure u : ReifyM Ty) st fun a st1 =>
        ∃ origin, Followed σ g D L st t a origin st1 :=
      fun u hu hreads => .pure ⟨L.origin, ⟨.refl _ st, hst, hu.mono (Nat.zero_le _)⟩, fun _ _ => rfl, htraced, hneat,
        image_iff.mpr (.inl hreads), rfl, List.Subset.refl _, fun k hk => absurd hk (hreads.ne_node k)⟩
    unfold reifyAux
    split
    · next hlook => exact leaf .error trivial (by simp [Reads, hlook])
    · next hlook => exact leaf .error trivial (by simp [Reads, hlook])
    · next hlook => exact leaf (.scalar _) trivial (by simp [Reads, hlook])
    · next hlook => exact leaf .error trivial (by simp [Reads, hlook])
    · next i hi =>
      have hDi := hawaits.region hi
      refine .get ?_
      split
      · next a ha =>
        refine .of_run rfl ⟨L.origin, ⟨⟨Nat.le_refl _, fun _ _ => rfl, fun _ _ h => h⟩,
          ⟨hst.size, hst.closed, hst.source, hst.results⟩, hst.results _ (mem_of_lookup ha)⟩, fun _ _ => rfl,
          htraced.note a, hneat.note htraced hst ha (hawaits.pending hi), image_iff.mpr (.inr ⟨i, hi, ha⟩), rfl,
          subset_cons_self _ _, fun _ _ _ => mem_cons_self⟩
      · next hnew =>
        -- a call for a part of the node that is being built
        have call : ∀ {st1 : ReifyState} {origin : NodeId → NodeId} {domains : List NodeId} (u : Ty),
            (L.during i origin domains).Awaits σ g D u → Underway σ g D L st i domains origin st1 →
            Spec P (σ.reifyAux fuel u) st1 fun a st2 =>
              ∃ origin', Followed σ g D (L.during i origin domains) st1 u a origin' st2 := fun u hu hst1 =>
          reifyAux_traced hD hP hdomain hbase hst1.building.sound hst1.traced hst1.neat hu
            (Nat.lt_of_lt_of_le hst1.building.left (Nat.le_of_lt_succ hfuel))
        obtain ⟨x, hx⟩ := exists_get_of_lt (hD.lt hDi)
        replace hx := get?_of_get hx
        rw [get_of_get? (htraced.given i x hx)]
        refine .step rfl ?_
        have hpart : ∀ {origin : NodeId → NodeId}, ∀ u ∈ x.parts, (L.during i origin).Awaits σ g D u :=
          fun u hu => hawaits.part hD hi (mem_contents_of_parts (lookup_node i) hx hu)
        have hnone : ¬ σ.IsUnion g (.node i) → ∀ k, k ∈ st.unfinished ↔ k ∈ st.unfinished ∨ k = st.graph.size ∧
            σ.IsUnion g (.node i) :=
          fun h k => (or_iff_left fun hk => h hk.2).symm
        cases x with
        | metatype u =>
          have h1 := Underway.start htraced hneat hst hbase hD hDi hnew (List.Subset.refl _)
            (.metatype hx (.inr ⟨rfl, trivial⟩)) ⟨by simp [Composite.parts, Ty.Below], by simp⟩
            (hnone (by simp [isUnion_iff_head, TypeGraph.head?, hx, Composite.head]))
          refine .step rfl (.bind (call u (hpart u (mem_singleton_self u)) h1) fun a st2 ha => ?_)
          obtain ⟨origin', ha⟩ := ha
          exact .step rfl (.pure ⟨origin', h1.metatype hi rfl hx ha⟩)
        | function d c =>
          have hdomain' := hdomain i d c hDi hx
          cases d with
          | none => exact .throw (hdomain'.resolve_left (by simp))
          | some d =>
            have h1 := Underway.start htraced hneat hst hbase hD hDi hnew (subset_cons_self i L.domains)
              (.function hx (.inr ⟨rfl, mem_cons_self⟩) (.inr ⟨rfl, trivial⟩))
              ⟨by simp [Composite.parts, Ty.Below], by simp⟩
              (hnone (by simp [isUnion_iff_head, TypeGraph.head?, hx, Composite.head]))
            refine .step rfl (.bind (call (.node d) (hawaits.domain hD hi hx) h1) fun a st2 ha => ?_)
            obtain ⟨origin', ha⟩ := ha
            by_cases hnode : ∃ e, a = .node e
            · obtain ⟨e, rfl⟩ := hnode
              have h2 := h1.domain hx ha
              refine .step rfl (.bind (call c (hpart c (mem_singleton_self c)) h2) fun b st3 hb => ?_)
              obtain ⟨origin'', hb⟩ := hb
              exact .step rfl (.pure ⟨origin'', h2.function hi ha.unfinished hx (h1.call ha).filled ha.image hb⟩)
            · have hmissing : P .missing := hdomain'.resolve_left fun hdomain => by
                obtain ⟨e, he, hsolid⟩ := hdomain
                cases he
                obtain ⟨k, hk, -⟩ := ha.traced.image_solid (lookup_node _) hsolid ha.image
                exact hnode ⟨k, hk⟩
              cases a with
              | node e => exact absurd ⟨e, rfl⟩ hnode
              | _ => exact .throw hmissing
        | tuple label fields =>
          have hblank : Forall₂ (fun f f' : TupleField => f.label = f'.label ∧ False ∨ f'.type = .absent ∧ True) fields
              (fields.map fun _ => { type := .absent }) :=
            forall₂_map_right_iff.mpr (forall₂_same.mpr fun _ _ => .inr ⟨rfl, trivial⟩)
          have h1 := Underway.start htraced hneat hst hbase hD hDi hnew (List.Subset.refl _) (.tuple hx hblank)
            ⟨by simp [Composite.parts, Ty.Below], by simp⟩
            (hnone (by simp [isUnion_iff_head, TypeGraph.head?, hx, Composite.head]))
          have hfields : g.get? i = some (.tuple label ([] ++ fields)) := hx
          refine .step rfl
            (.bind (reifyFields_traced hfields h1 rfl .nil (TypeGraph.get?_add_self _ _) fun f hf st2 origin h2 =>
            ?_) fun _ st3 h3 => ?_)
          · exact call f.type (hpart f.type (mem_map_of_mem hf)) h2
          · obtain ⟨origin', fields', h3, hunfinished, hget, hpicture⟩ := h3
            exact .pure ⟨origin', h3.finish hi hunfinished hget hpicture (by simp [Composite.head])⟩
        | union cases =>
          have hempty : Pictures σ g (fun _ _ => False) True (i ∈ L.domains) i (.union []) := .union hx (by simp)
          have hunion : ∀ k, k ∈ st.graph.size :: st.unfinished ↔ k ∈ st.unfinished ∨ k = st.graph.size ∧
              σ.IsUnion g (.node i) := fun k => by
            simp [isUnion_of_lookup (lookup_node i) hx, or_comm]
          have h1 := Underway.start htraced hneat hst hbase hD hDi hnew (List.Subset.refl _) hempty
              ⟨by simp [Composite.parts], by simp⟩ hunion
          have hcases : g.get? i = some (.union ([] ++ cases)) := hx
          refine .step rfl
            (.step rfl (.bind (joinCases_traced hP hcases ⟨h1, hDi, hawaits.around hi _, rfl, ?_⟩ (by simp)
            fun c hc st2 origin h2 => call c (hpart c hc) h2.toUnderway) fun _ st3 h3 => ?_))
          · intro cases' hget
            cases (TypeGraph.get?_add_self _ _).symm.trans hget
            simp
          · obtain ⟨origin', h3, hcases⟩ := h3
            refine (finishUnion_traced h3 htraced hnew hi fun htangled cases' hget => ?_).imp fun _ _ h => ⟨origin', h⟩
            cases hx.symm.trans hget
            exact hcases htangled

end TypeInference.Substitution
