import Mathlib.Tactic.IntervalCases
import TypeInference.Proofs.Tracing

/-! # What a reified type stands for

Read through the table, with the error type for what is unknown, a type and its reification stand for the same
(`Substitution.Denotes`), unless lookalikes of a union lead back to the union, which then compares them half-built
(`reified_type_denotes`). A case may get lost by this, but never is one invented. For the same reason reification may
stop where a function type without its domain is compared (`reify_stops_only_if_tangled`). -/

namespace TypeInference.Substitution

open ReifyState ReifyM
open List

variable {σ : Substitution} {g : TypeGraph} {D : NodeId → Prop} {t x y a b c : Ty} {i j k : NodeId}

/-! ### Types as sets of leaf cases -/

section LeafCases

variable {G : TypeGraph} {R : Ty → Ty → Prop}

@[simp] theorem lookup_empty (t : Ty) : empty.lookup t = t := by
  cases t <;> rfl

/-- Every leaf case of `a` has the form of a leaf case of `t`, with parts in the relation. -/
def Covers (σ : Substitution) (g G : TypeGraph) (R : Ty → Ty → Prop) (t a : Ty) : Prop :=
  ∀ y, empty.Leaf G a y → ∃ x, σ.Leaf g t x ∧ Shows g G R x y

/-- Every leaf case of `t` has its form taken on by a leaf case of `a`, with parts in the relation. -/
def CoveredBy (σ : Substitution) (g G : TypeGraph) (R : Ty → Ty → Prop) (t a : Ty) : Prop :=
  ∀ x, σ.Leaf g t x → ∃ y, empty.Leaf G a y ∧ Shows g G R x y

/-- The type `a` of the graph `G` stands for no more than `t` does in `g`, read through the table. -/
def StandsWithin (σ : Substitution) (g G : TypeGraph) (t a : Ty) : Prop :=
  ∃ R : Ty → Ty → Prop, (∀ t a, R t a → σ.Covers g G R t a) ∧ R t a

/-- The type `a` of the graph `G` stands for the same as `t` does in `g`, read through the table. -/
def Denotes (σ : Substitution) (g G : TypeGraph) (t a : Ty) : Prop :=
  ∃ R : Ty → Ty → Prop, (∀ t a, R t a → σ.CoveredBy g G R t a ∧ σ.Covers g G R t a) ∧ R t a

theorem not_isUnion_of_leaf (ht : ∀ i, σ.lookup t ≠ .node i) : ¬ σ.IsUnion g t := by
  rintro ⟨cases, hcases⟩
  obtain ⟨i, hi, -⟩ := unionCases?_eq_some.mp hcases
  exact ht i hi

theorem leaf_union_iff {cases : List Ty} (hi : g.get? i = some (.union cases)) :
    σ.Leaf g (.node i) x ↔ ∃ c ∈ cases, σ.Leaf g c x := by
  have hcases : g.unionCases? (σ.lookup (.node i)) = some cases := unionCases?_eq_some.mpr ⟨i, lookup_node i, hi⟩
  constructor
  · intro h
    cases h with
    | self hnot => exact absurd ⟨_, hcases⟩ hnot
    | case hcases' hc rest =>
      cases hcases.symm.trans hcases'
      exact ⟨_, hc, rest⟩
  · rintro ⟨c, hc, rest⟩
    exact .case hcases hc rest

theorem Leaf.of_cases (h : Relation.ReflTransGen (σ.HasCase g) i j) (hx : σ.Leaf g (.node j) x) :
    σ.Leaf g (.node i) x := by
  induction h using Relation.ReflTransGen.head_induction_on with
  | refl => exact hx
  | head hstep _ ih =>
    obtain ⟨cases, hi, c, hc, hj⟩ := hstep
    exact (leaf_union_iff hi).mpr ⟨c, hc, ih.congr (by rw [lookup_node, hj])⟩

theorem Reads.shows (h : σ.Reads t a) : Shows g G R (σ.lookup t) a := by
  unfold Reads at h
  split at h
  · next hlook =>
    rw [hlook, h]
    exact .absent
  · next hlook =>
    rw [hlook, h]
    exact .var _
  · next hlook =>
    rw [hlook, h]
    exact .error
  · next hlook =>
    rw [hlook, h]
    exact .scalar _
  · exact h.elim

theorem Reads.leaf (h : σ.Reads t a) : σ.Leaf g t (σ.lookup t) := by
  refine .self (not_isUnion_of_leaf fun i hlook => ?_)
  simp [Reads, hlook] at h

theorem head?_of_sameHead (h : SameHead G R a b) : G.head? a = G.head? b := by
  cases h with
  | leaf => rfl
  | metatype hi hj => simp [TypeGraph.head?, hi, hj, Composite.head]
  | function hi hj => simp [TypeGraph.head?, hi, hj, Composite.head]
  | tuple hi hj fields => simp [TypeGraph.head?, hi, hj, Composite.head, fields.length_eq]
  | union hi hj => simp [TypeGraph.head?, hi, hj, Composite.head]

theorem isUnion_empty : empty.IsUnion G a ↔ G.head? a = some .union := by
  cases a with
  | node k => exact isUnion_iff_head
  | _ => simp [IsUnion, TypeGraph.unionCases?, TypeGraph.head?]

theorem leaf_empty (h : G.head? a ≠ some .union) : empty.Leaf G a a := by
  simpa using Leaf.self (mt isUnion_empty.mp h)

/-- Leaf cases of alike types are alike. The induction is on the way to the leaf case. -/
theorem Leaf.alike (hy : empty.Leaf G a y) : ∀ {b}, G.Alike a b → ∃ z, empty.Leaf G b z ∧ G.Alike y z := by
  induction hy with
  | @self a hnot =>
    intro b halike
    have hhead := head?_of_sameHead (TypeGraph.Alike.isBisimulation G a b halike)
    rw [lookup_empty]
    exact ⟨b, leaf_empty fun hb => hnot (isUnion_empty.mpr (hhead.trans hb)), halike⟩
  | case hcases hc _ ih =>
    intro b halike
    obtain ⟨i, hi, hget⟩ := unionCases?_eq_some.mp hcases
    rw [lookup_empty] at hi
    subst hi
    cases TypeGraph.Alike.isBisimulation G _ _ halike with
    | union hi hj left =>
      cases hget.symm.trans hi
      obtain ⟨c', hc', halike'⟩ := left _ hc
      obtain ⟨z, hz, hyz⟩ := ih halike'
      exact ⟨z, (leaf_union_iff hj).mpr ⟨c', hc', hz⟩, hyz⟩
    | leaf hleaf => exact absurd rfl (hleaf _)
    | _ hi => cases hget.symm.trans hi

theorem shows_of_alike (h : Shows g G R x y) (halike : G.Alike y b) :
    Shows g G (fun t a => ∃ c, R t c ∧ G.Alike c a) x b := by
  cases h with
  | absent =>
    cases TypeGraph.Alike.isBisimulation G _ _ halike with
    | leaf => exact .absent
  | var v =>
    cases TypeGraph.Alike.isBisimulation G _ _ halike with
    | leaf => exact .var v
  | error =>
    cases TypeGraph.Alike.isBisimulation G _ _ halike with
    | leaf => exact .error
  | scalar s =>
    cases TypeGraph.Alike.isBisimulation G _ _ halike with
    | leaf => exact .scalar s
  | metatype hi hk h =>
    cases TypeGraph.Alike.isBisimulation G _ _ halike with
    | leaf hleaf => exact absurd rfl (hleaf _)
    | metatype hk' hj parts =>
      cases hk.symm.trans hk'
      exact .metatype hi hj ⟨_, h, parts⟩
    | _ hk' => cases hk.symm.trans hk'
  | function hi hk domain codomain =>
    cases TypeGraph.Alike.isBisimulation G _ _ halike with
    | leaf hleaf => exact absurd rfl (hleaf _)
    | function hk' hj domain' codomain' =>
      cases hk.symm.trans hk'
      exact .function hi hj ⟨_, domain, domain'⟩ ⟨_, codomain, codomain'⟩
    | _ hk' => cases hk.symm.trans hk'
  | tuple hi hk fields =>
    cases TypeGraph.Alike.isBisimulation G _ _ halike with
    | leaf hleaf => exact absurd rfl (hleaf _)
    | tuple hk' hj fields' =>
      cases hk.symm.trans hk'
      exact .tuple hi hj (forall₂_comp (fun f f' f'' h h' => ⟨h.1.trans h'.1, _, h.2, h'.2⟩) fields fields')
    | _ hk' => cases hk.symm.trans hk'

end LeafCases

/-! ### The state at the end -/

/-- Nothing is under way: all nodes after the first `n` are complete copies. -/
structure ReifyState.AtRest (σ : Substitution) (g : TypeGraph) (D : NodeId → Prop) (n : Nat) (origin : NodeId → NodeId)
    (st : ReifyState) : Prop where
  sound : st.Sound n
  traced : st.Traced σ g D ⟨n, origin, [], []⟩
  neat : st.Neat σ g D ⟨n, origin, [], []⟩

section AtRest

variable {st : ReifyState} {n : Nat} {origin : NodeId → NodeId}

theorem pictures_of_traced (h : st.Traced σ g D ⟨n, origin, [], []⟩) (hk : n ≤ k) {z : Composite}
    (hz : st.graph.get? k = some z) : Pictures σ g (st.Image σ) False False (origin k) z := by
  refine (h.nodes hk hz).imp (fun _ _ _ h => h) (fun hmem _ => ?_) fun hmem _ => ?_
  · cases hmem
  · cases hmem

theorem shows_of_traced (h : st.Traced σ g D ⟨n, origin, [], []⟩) (hk : n ≤ k) (hlt : k < st.graph.size)
    (hunion : ¬ σ.IsUnion g (.node (origin k))) : Shows g st.graph (st.Image σ) (.node (origin k)) (.node k) := by
  obtain ⟨z, hz⟩ := exists_get_of_lt hlt
  exact (pictures_of_traced h hk (get?_of_get hz)).shows (get?_of_get hz) hunion

theorem head?_of_traced (h : st.Traced σ g D ⟨n, origin, [], []⟩) (hk : n ≤ k) (hlt : k < st.graph.size) :
    g.head? (.node (origin k)) = st.graph.head? (.node k) := by
  obtain ⟨x, hx⟩ := exists_get_of_lt hlt
  have hhead := (h.nodes hk (get?_of_get hx)).head
  simpa [TypeGraph.head?, get?_of_get hx] using hhead

/-- No case is invented. The induction is on the way to a leaf case of the result. -/
theorem covers_of_traced (h : st.Traced σ g D ⟨n, origin, [], []⟩) (hy : empty.Leaf st.graph a y) :
    ∀ {t}, st.Image σ t a → ∃ x, σ.Leaf g t x ∧ Shows g st.graph (st.Image σ) x y := by
  induction hy with
  | @self a hnot =>
    intro t ha
    rw [lookup_empty]
    rcases image_iff.mp ha with hreads | ⟨i, hi, ha⟩
    · exact ⟨σ.lookup t, hreads.leaf, hreads.shows⟩
    · cases h.results ha with
      | @node k hk hcases =>
        have hunion : ¬ σ.IsUnion g (.node (origin k)) := fun hunion =>
          hnot (isUnion_empty.mpr ((head?_of_traced h hk.1 hk.2).symm.trans (isUnion_iff_head.mp hunion)))
        have hleaf : σ.Leaf g (.node (origin k)) (.node (origin k)) := by simpa using Leaf.self hunion
        exact ⟨_, (Leaf.of_cases hcases hleaf).congr (by rw [lookup_node, hi]), shows_of_traced h hk.1 hk.2 hunion⟩
      | leaf hleaf =>
        obtain ⟨v, cases, c, hv, hget, hc, hreads⟩ := hleaf
        have hcase : σ.Leaf g (.node v) (σ.lookup c) := (leaf_union_iff hget).mpr ⟨c, hc, hreads.leaf⟩
        exact ⟨_, (Leaf.of_cases hv hcase).congr (by rw [lookup_node, hi]), hreads.shows⟩
  | @case a c y cases hcases hc _ ih =>
    intro t ha
    obtain ⟨k, hk, hget⟩ := unionCases?_eq_some.mp hcases
    rw [lookup_empty] at hk
    subst hk
    obtain ⟨i, hi, hbase, hlt, horigin⟩ := h.image_node ha
    cases h.nodes hbase hget with
    | union _ hall =>
      obtain ⟨v, cases, c', hv, hget', hc', himage⟩ := hall c hc
      obtain ⟨x, hx, hshows⟩ := ih himage
      have hcase : σ.Leaf g (.node v) x := (leaf_union_iff hget').mpr ⟨c', hc', hx⟩
      exact ⟨x, (Leaf.of_cases (horigin.trans hv) hcase).congr (by rw [lookup_node, hi]), hshows⟩

/-- All new nodes have their parts at the end, so the new types are alike to themselves. -/
theorem alike_of_image (h : st.Traced σ g D ⟨n, origin, [], []⟩) (ha : st.Image σ t a) : st.graph.Alike a a := by
  refine TypeGraph.Alike.self (h.supports (Q := fun _ => True) (fun _ _ _ _ => trivial) (by simp)) ?_
  cases a with
  | node k =>
    obtain ⟨-, -, hk, hlt, -⟩ := h.image_node ha
    exact ⟨hk, hlt, trivial⟩
  | _ => trivial

theorem leaf_of_absorbed {L : Ledger} (hk : L.Absorbed st k b) (hy : empty.Leaf st.graph b y)
    (hself : st.graph.Alike y y) : ∃ z, empty.Leaf st.graph (.node k) z ∧ st.graph.Alike y z := by
  have hlisted : ∀ {c}, L.Listed st.graph k c → empty.Leaf st.graph c y → ∃ z, empty.Leaf st.graph (.node k) z ∧
      st.graph.Alike y z := by
    rintro c ⟨cases, hget, c', hc', rfl | ⟨-, -, -, -, -, halike⟩⟩ hc
    · exact ⟨y, (leaf_union_iff hget).mpr ⟨c, hc', hc⟩, hself⟩
    · obtain ⟨z, hz, hyz⟩ := hc.alike halike
      exact ⟨z, (leaf_union_iff hget).mpr ⟨c', hc', hz⟩, hyz⟩
  cases hk with
  | self => exact ⟨y, hy, hself⟩
  | listed h => exact hlisted h hy
  | @inlined v cases hv _ hall =>
    obtain ⟨c, hc, rest⟩ := (leaf_union_iff hv).mp hy
    rcases hall c hc with rfl | h
    · exact ⟨y, rest, hself⟩
    · exact hlisted h rest

theorem alike_of_leaf (h : st.Traced σ g D ⟨n, origin, [], []⟩) (ha : st.Image σ t a) (hy : empty.Leaf st.graph a y) :
    st.graph.Alike y y := by
  obtain ⟨z, -, hyz⟩ := hy.alike (alike_of_image h ha)
  exact hyz.trans hyz.symm

/-- No case is lost, unless lookalikes were compared too early. The induction is on the way to a leaf case of the
type. -/
theorem coveredBy_of_traced (h : st.Traced σ g D ⟨n, origin, [], []⟩) (hneat : st.Neat σ g D ⟨n, origin, [], []⟩)
    (htangled : ¬ σ.Tangled g D) (hx : σ.Leaf g t x) : ∀ {a}, st.Image σ t a →
      ∃ y, empty.Leaf st.graph a y ∧ Shows g st.graph (fun t a => ∃ c, st.Image σ t c ∧ st.graph.Alike c a) x y := by
  have hsame : ∀ t a, st.Image σ t a → ∃ c, st.Image σ t c ∧ st.graph.Alike c a := fun t a ha =>
      ⟨a, ha, alike_of_image h ha⟩
  induction hx with
  | @self t hnot =>
    intro a ha
    rcases image_iff.mp ha with hreads | ⟨i, hi, hresult⟩
    · exact ⟨a, leaf_empty (by cases a <;> simp [TypeGraph.head?]; exact absurd rfl (hreads.ne_node _)), hreads.shows⟩
    · have hunion : ¬ σ.IsUnion g (.node i) := mt (isUnion_congr (by rw [lookup_node, hi])).mp hnot
      cases h.results hresult with
      | @node k hk hcases =>
        rcases hcases.cases_head with heq | ⟨j, ⟨cases, hget, -⟩, -⟩
        · have horigin : i = origin k := heq
          subst horigin
          refine ⟨.node k, leaf_empty fun hhead =>
            hunion (isUnion_iff_head.mpr ((head?_of_traced h hk.1 hk.2).trans hhead)), ?_⟩
          rw [hi]
          exact (shows_of_traced h hk.1 hk.2 hunion).mono hsame fun _ _ _ h => h
        · exact absurd (isUnion_of_lookup (lookup_node i) hget) hunion
      | leaf hleaf =>
        obtain ⟨v, cases, c, hv, hget, -⟩ := hleaf
        rcases hv.cases_head with rfl | ⟨j, ⟨cases, hget, -⟩, -⟩
        · exact absurd (isUnion_of_lookup (lookup_node i) hget) hunion
        · exact absurd (isUnion_of_lookup (lookup_node i) hget) hunion
  | @case t c x cases hcases hc _ ih =>
    intro a ha
    obtain ⟨i, hi, hget⟩ := unionCases?_eq_some.mp hcases
    rcases image_iff.mp ha with hreads | ⟨i', hi', hresult⟩
    · simp [Reads, hi] at hreads
    cases hi.symm.trans hi'
    obtain ⟨k, hk, hlt, rfl, hend⟩ := hneat.ended (isUnion_of_lookup (lookup_node i) hget) hresult
    obtain ⟨b, hb, habsorbed⟩ := h.covered htangled ⟨hk, by simp⟩ hlt hget c hc
    obtain ⟨y, hy, hshows⟩ := ih hb
    obtain ⟨z, hz, hyz⟩ := leaf_of_absorbed habsorbed hy (alike_of_leaf h hb hy)
    refine ⟨z, ?_, (shows_of_alike hshows hyz).mono (fun t a hta => ?_) fun _ _ _ h => h⟩
    · -- the result is the union, or the only case of it
      rcases hend with rfl | ⟨-, hone⟩
      · exact hz
      · simpa [leaf_union_iff hone] using hz
    · obtain ⟨b, ⟨c, hc, hcb⟩, hba⟩ := hta
      exact ⟨c, hc, hcb.trans hba⟩

end AtRest

/-! ### Checking what leads where -/

section LeadsTo

variable {is : List NodeId}

/-- The composite types right inside a composite type. -/
def inside (σ : Substitution) (g : TypeGraph) (i : NodeId) : List NodeId :=
  (σ.contents g (.node i)).filterMap fun t =>
    match σ.lookup t with
    | .node j => some j
    | _ => none

/-- The composite types that can be reached in so many steps. -/
def reached (σ : Substitution) (g : TypeGraph) : Nat → List NodeId → List NodeId
  | 0, is => is
  | n + 1, is => σ.reached g n (is.flatMap (σ.inside g) ∪ is)

/-- The composite types have nothing inside but each other. -/
def isClosed (σ : Substitution) (g : TypeGraph) (is : List NodeId) : Bool :=
  is.all fun i => (σ.inside g i).all is.contains

/-- Whether the first composite type may lead to the second. -/
def mayLead (σ : Substitution) (g : TypeGraph) (i j : NodeId) : Bool :=
  !σ.isClosed g (σ.reached g g.size [i]) || (σ.reached g g.size [i]).contains j

/-- No lookalikes of a union among the composite types lead back to the union. -/
def untangled (σ : Substitution) (g : TypeGraph) (is : List NodeId) : Bool :=
  is.all fun u => g.head? (.node u) != some .union || is.all fun x => is.all fun y =>
    x == u || y == u || x == y || g.head? (.node x) != g.head? (.node y) || !σ.mayLead g x u

theorem mem_inside : j ∈ σ.inside g i ↔ σ.Encloses g i j := by
  simp only [inside, mem_filterMap, Encloses]
  refine exists_congr fun u => and_congr_right fun _ => ?_
  cases σ.lookup u <;> simp

theorem subset_reached : ∀ (n : Nat) (is : List NodeId), is ⊆ σ.reached g n is
  | 0, _ => List.Subset.refl _
  | n + 1, _ => fun _ hi => subset_reached n _ (mem_union_right _ hi)

theorem mem_of_leadsTo (his : σ.isClosed g is = true) (hi : i ∈ is) (h : σ.LeadsTo g i j) : j ∈ is := by
  simp only [isClosed, all_eq_true, contains_iff_mem] at his
  induction h with
  | refl => exact hi
  | tail _ hstep ih => exact his _ ih _ (mem_inside.mpr hstep)

theorem not_leadsTo (h : σ.mayLead g i j = false) : ¬ σ.LeadsTo g i j := by
  simp only [mayLead, Bool.or_eq_false_iff, Bool.not_eq_false'] at h
  intro hlead
  have hmem := mem_of_leadsTo h.1 (subset_reached _ _ (mem_singleton_self i)) hlead
  exact Bool.false_ne_true (h.2.symm.trans (contains_iff_mem.mpr hmem))

theorem not_tangled (his : σ.isClosed g is = true) (h : σ.untangled g is = true) (hD : ∀ i, D i → i ∈ is) :
    ¬ σ.Tangled g D := by
  rintro ⟨u, x, y, hu, hlook, hlead⟩
  have hmem : ∀ {z}, Relation.TransGen (σ.HasCase g) u z → z ∈ is := fun hz =>
    mem_of_leadsTo his (hD u hu) (leadsTo_of_cases hz.to_reflTransGen)
  have hunion : g.head? (.node u) = some .union := by
    obtain ⟨z, ⟨cases, hget, -⟩, -⟩ := Relation.TransGen.head'_iff.mp hlook.left
    simp [TypeGraph.head?, hget, Composite.head]
  simp only [untangled, all_eq_true] at h
  have hcheck := h u (hD u hu)
  simp only [hunion, bne_self_eq_false, Bool.false_or, all_eq_true] at hcheck
  have hxy := hcheck x (hmem hlook.left) y (hmem hlook.right)
  simp [hlook.left_ne, hlook.right_ne, hlook.ne, hlook.head] at hxy
  exact not_leadsTo hxy hlead

theorem mem_of_reach (his : σ.isClosed g is = true) (ht : σ.lookup t = .node i) (hi : i ∈ is) (j : NodeId)
    (h : σ.Reach g t j) : j ∈ is := by
  obtain ⟨i', hi', hlead⟩ := h
  cases ht.symm.trans hi'
  exact mem_of_leadsTo his hi hlead

end LeadsTo

/-! ### Types that are reified -/

section Reification

variable {G g' : TypeGraph} {P : Fault → Prop} {st : ReifyState} {n : Nat} {origin : NodeId → NodeId}

theorem atRest_start (hg' : g'.Closed) (hext : g.Extends g') : ReifyState.AtRest σ g D g'.size id { graph := g' } where
  sound := sound_start hg'
  traced := by
    refine ⟨hext, by simp, fun hk hlt => absurd hlt (Nat.not_lt.mpr hk), fun hk hlt => absurd hlt (Nat.not_lt.mpr hk),
      by simp, fun hk hx => absurd (lt_size_of_get? hx) (Nat.not_lt.mpr hk),
      fun hk hx => absurd (lt_size_of_get? hx) (Nat.not_lt.mpr hk), by simp,
      fun _ _ _ hk hlt => absurd hlt (Nat.not_lt.mpr hk.1)⟩
  neat := by
    refine ⟨by simp, fun _ _ _ hk hx => absurd (lt_size_of_get? hx) (Nat.not_lt.mpr hk),
      fun _ _ _ hk hx => absurd (lt_size_of_get? hx) (Nat.not_lt.mpr hk), by simp, by simp,
      fun hk _ hx => absurd (lt_size_of_get? hx) (Nat.not_lt.mpr hk.1), by simp⟩

theorem ReifyState.AtRest.call (h : st.AtRest σ g D n origin) (hD : σ.Region g D) (hn : g.size ≤ n)
    (hP : σ.TangledByDomain g D → P .missing)
    (hdomain : ∀ i d c, D i → g.get? i = some (.function d c) → (∃ e, d = some e ∧ ¬ σ.IsUnion g (.node e)) ∨
    P .missing) (ht : ∀ {j}, σ.lookup t = .node j → D j) :
    Spec P (σ.reifyAux (n + 1) t) st fun a st1 => ∃ origin', st1.AtRest σ g D n origin' ∧ st1.Image σ t a ∧
    Copied n st a st1 := by
  have hawaits : Ledger.Awaits ⟨n, origin, [], []⟩ σ g D t := ⟨ht, by simp, by simp⟩
  refine (reifyAux_traced hD hP hdomain hn h.sound h.traced h.neat hawaits (Nat.lt_succ_of_le (left_le _ _))).imp
    fun a st1 hcall => ?_
  obtain ⟨origin', hcall⟩ := hcall
  exact ⟨origin', ⟨hcall.copied.sound, hcall.traced, hcall.neat⟩, hcall.image, hcall.copied⟩

theorem ReifyState.AtRest.below (h : st.AtRest σ g D n origin) (ha : st.Image σ t a) : a.Below st.graph.size := by
  rcases image_iff.mp ha with hreads | ⟨i, -, hi⟩
  · cases a with
    | node k => exact absurd rfl (hreads.ne_node k)
    | _ => trivial
  · exact h.sound.results _ (mem_of_lookup hi)

theorem ReifyState.AtRest.walk (hD : σ.Region g D) (hn : g.size ≤ n) (hP : σ.TangledByDomain g D → P .missing)
    (hdomain : ∀ i d c, D i → g.get? i = some (.function d c) → (∃ e, d = some e ∧ ¬ σ.IsUnion g (.node e)) ∨
    P .missing) : ∀ {entries : List (Int × Ty)} {st : ReifyState} {origin : NodeId → NodeId}, st.AtRest σ g D n origin →
      (∀ p ∈ entries, ∀ {j}, σ.lookup p.2 = .node j → D j) →
      Spec P (entries.mapM fun p => do return (p.1, ← σ.reifyAux (n + 1) p.2)) st fun entries' st' =>
        (∃ origin', st'.AtRest σ g D n origin') ∧ st.Keeps st.graph.size st' ∧
          (∀ p ∈ entries', p.2.Below st'.graph.size) ∧
          Forall₂ (fun p p' => p'.1 = p.1 ∧ st'.Image σ p.2 p'.2) entries entries'
  | [], st, origin, hst, _ => .pure ⟨⟨origin, hst⟩, .refl _ _, by simp, .nil⟩
  | p :: entries, st, origin, hst, hentries => by
    obtain ⟨hp, hentries⟩ := forall_mem_cons.mp hentries
    rw [mapM_cons, bind_assoc]
    refine .bind (hst.call hD hn hP hdomain hp) fun a st1 ha => ?_
    obtain ⟨origin1, hst1, himage, hcopied⟩ := ha
    refine .step rfl (.bind (walk hD hn hP hdomain hst1 hentries) fun rest st2 hrest => ?_)
    obtain ⟨hst2, hkeeps, hbelow, hall⟩ := hrest
    refine .pure ⟨hst2, hcopied.keeps.trans hkeeps hcopied.keeps.size,
      forall_mem_cons.mpr ⟨hcopied.below.mono hkeeps.size, hbelow⟩, ?_⟩
    exact .cons ⟨rfl, himage.mono hkeeps.results⟩ hall

theorem exists_ok {α : Type} {x : Except Fault α} (h : Raises (fun _ => False) x) : ∃ a, x = .ok a := by
  cases x with
  | ok a => exact ⟨a, rfl⟩
  | error e => exact (h e rfl).elim

theorem reify_spec (hD : σ.Region g D) (hg' : g'.Closed) (hext : g.Extends g') (hP : σ.TangledByDomain g D → P .missing)
    (hdomain : ∀ i d c, D i → g.get? i = some (.function d c) → (∃ e, d = some e ∧ ¬ σ.IsUnion g (.node e)) ∨
    P .missing) (ht : ∀ {j}, σ.lookup t = .node j → D j) :
    Raises P (σ.reify g' t) ∧ ∀ G a, σ.reify g' t = .ok (G, a) →
      ∃ (st : ReifyState) (origin : NodeId → NodeId), st.graph = G ∧ g'.Extends G ∧ st.AtRest σ g D g'.size origin ∧
      st.Image σ t a := by
  have hspec := (atRest_start (σ := σ) (D := D) hg' hext).call hD hext.size_le hP hdomain ht
  refine ⟨.bind hspec.1 fun _ _ => .pure _, fun G a h => ?_⟩
  obtain ⟨⟨b, st⟩, hrun, h⟩ := bind_eq_ok.mp h
  cases h
  obtain ⟨origin, hrest, himage, hcopied⟩ := hspec.2 _ _ hrun
  exact ⟨st, origin, rfl, fun i x hi => (hcopied.keeps.nodes i (lt_size_of_get? hi)).trans hi, hrest, himage⟩

/-- **Where reification stops.** If every function type that can be reached from a type has a tuple for its domain, the
type is reified, unless two lookalikes of a union are compared while a function type that one of them leads to waits for
its domain. That is the only fault, and it takes a union with lookalikes and a function type among them whose domain
leads back to the union. -/
theorem reify_stops_only_if_tangled {g : TypeGraph} {σ : Substitution} {t : Ty} (hclosed : g.Closed)
    (hσ : σ.Below g.size) (ht : t.Below g.size) (hdomains : ∀ i d c, σ.Reach g t i → g.get? i = some (.function d c) →
      ∃ e l fields, d = some e ∧ g.get? e = some (.tuple l fields)) :
    (∃ G a, σ.reify g t = .ok (G, a)) ∨ σ.reify g t = .error .missing ∧ σ.TangledByDomain g (σ.Reach g t) := by
  have hspec := reify_spec (P := fun e => e = .missing ∧ σ.TangledByDomain g (σ.Reach g t))
    (region_reach hclosed hσ ht) hclosed
    (TypeGraph.extends_refl g) (fun h => ⟨rfl, h⟩) (fun i d c hi hget => .inl (solid_of_tuple (hdomains i d c hi hget)))
    fun hj => ⟨_, hj, .refl⟩
  cases h : σ.reify g t with
  | ok r => exact .inl ⟨r.1, r.2, rfl⟩
  | error e =>
    obtain ⟨rfl, htangled⟩ := hspec.1 e h
    exact .inr ⟨rfl, htangled⟩

/-- A union of two function types, the first of which takes the union. -/
def callbackGraph : TypeGraph :=
  ⟨#[.union [.node 1, .node 3], .function (some 2) .int, .tuple "" [{ type := .node 0 }], .function (some 4) .int,
    .tuple "" [{ type := .int }]]⟩

/-- The union is reified when it is met first, but not when it is met in the domain of its case. -/
theorem callbackGraph_reify : callbackGraph.Closed ∧ (∃ G a, empty.reify callbackGraph (.node 0) = .ok (G, a)) ∧
    empty.reify callbackGraph (.node 1) = .error .missing ∧
    empty.TangledByDomain callbackGraph (empty.Reach callbackGraph (.node 1)) := by
  have hclosed : callbackGraph.Closed := by decide
  have hdomains : ∀ i d c, callbackGraph.get? i = some (.function d c) → ∃ e l fields, d = some e ∧
      callbackGraph.get? e = some (.tuple l fields) := by
    intro i d c hi
    have hlt : i < 5 := lt_size_of_get? hi
    interval_cases i <;> simp [callbackGraph, TypeGraph.get?] at hi ⊢
    · exact ⟨_, hi.1.symm, _, _, rfl⟩
    · exact ⟨_, hi.1.symm, _, _, rfl⟩
  have hstops : empty.reify callbackGraph (.node 1) = .error .missing := rfl
  refine ⟨hclosed, ⟨_, _, rfl⟩, hstops, ?_⟩
  rcases reify_stops_only_if_tangled (σ := empty) (t := .node 1) hclosed (by decide) (by decide)
      fun i d c _ => hdomains i d c with ⟨G, a, h⟩ | ⟨-, h⟩
  · cases hstops.symm.trans h
  · exact h

/-- A type stands for the same as its result once nothing is under way. What the result is alike to stands for it
too. -/
theorem ReifyState.AtRest.denotes (h : st.AtRest σ g D n origin) (htangled : ¬ σ.Tangled g D) (ha : st.Image σ t a) :
    σ.Denotes g st.graph t a := by
  refine ⟨fun t a => ∃ c, st.Image σ t c ∧ st.graph.Alike c a, ?_, a, ha, alike_of_image h.traced ha⟩
  rintro t a ⟨c, hc, hca⟩
  refine ⟨fun x hx => ?_, fun y hy => ?_⟩
  · obtain ⟨y, hy, hshows⟩ := coveredBy_of_traced h.traced h.neat htangled hx hc
    obtain ⟨z, hz, hyz⟩ := hy.alike hca
    refine ⟨z, hz, (shows_of_alike hshows hyz).mono ?_ fun _ _ _ h => h⟩
    rintro t a ⟨b, ⟨c, hc, hcb⟩, hba⟩
    exact ⟨c, hc, hcb.trans hba⟩
  · obtain ⟨z, hz, hyz⟩ := hy.alike hca.symm
    obtain ⟨x, hx, hshows⟩ := covers_of_traced h.traced hz hc
    exact ⟨x, hx, shows_of_alike hshows hyz.symm⟩

/-- **Reification keeps what a type stands for.** A type and its reification stand for the same, unless lookalikes of a
union lead back to the union; and even then no case is invented. -/
theorem reified_type_denotes {g G : TypeGraph} {σ : Substitution} {t a : Ty} (hclosed : g.Closed) (hσ : σ.Below g.size)
    (h : σ.reify g t = .ok (G, a)) : σ.StandsWithin g G t a ∧ (¬ σ.Tangled g (σ.Reach g t) → σ.Denotes g G t a) := by
  obtain ⟨-, hspec⟩ := reify_spec (P := fun _ => True) (region_reach hclosed hσ (below_of_reify h)) hclosed
    (TypeGraph.extends_refl g) (fun _ => trivial) (fun _ _ _ _ _ => .inr trivial) fun hj => ⟨_, hj, .refl⟩
  obtain ⟨st, origin, rfl, -, hrest, himage⟩ := hspec G a h
  exact ⟨⟨st.Image σ, fun t a ha y hy => covers_of_traced hrest.traced hy ha, himage⟩,
    fun htangled => hrest.denotes htangled himage⟩

/-- A union with two lookalikes, a case that leads back to it, and another union among its cases that has it for a
case. -/
def listGraph : TypeGraph :=
  ⟨#[.union [.node 1, .node 2, .node 3, .node 4], .tuple "a" [{ type := .int }], .tuple "a" [{ type := .bool }],
    .tuple "b" [{ type := .var 1 }], .union [.var 1, .int]]⟩

def listTable : Substitution := empty.bind 1 (.node 0)

theorem listGraph_denotes : listGraph.Closed ∧ ¬ listTable.Tangled listGraph (listTable.Reach listGraph (.var 1)) ∧
    ∃ G a, listTable.reify listGraph (.var 1) = .ok (G, a) ∧ listTable.Denotes listGraph G (.var 1) a := by
  have hclosed : listGraph.Closed := by decide
  have his : listTable.isClosed listGraph [0, 1, 2, 3, 4] = true := by decide
  have htangled := not_tangled his (by decide) (mem_of_reach his (t := .var 1) rfl (by decide))
  have hrun : (listTable.reify listGraph (.var 1)).toOption.map (fun _ => ()) = some () := by decide +kernel
  obtain ⟨⟨G, a⟩, h, -⟩ := exists_ok_of_toOption_map hrun
  exact ⟨hclosed, htangled, G, a, h, (reified_type_denotes hclosed (by decide) h).2 htangled⟩

end Reification

end TypeInference.Substitution
