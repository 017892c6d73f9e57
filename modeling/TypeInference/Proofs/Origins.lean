import TypeInference.Proofs.Mirrors

/-! # Where reified types come from

Every node that reification adds stands for one composite type of the given graph, its origin. While it is under way it
may lack parts, but what it has are the results for the parts of its origin (`ReifyState.Traced`). So what can be
reached from a new node leads back to what can be reached from its origin. Unions compare cases that may lack parts;
those with one head, the lookalikes of a union, have all their parts unless one of them leads back to the union. -/

namespace TypeInference

open List

variable {x c : Composite} {domains unfinished pending : List NodeId} {n size : Nat} {i j : NodeId} {a : Ty}
  {g G : TypeGraph}

/-! ### Heads -/

/-- What can be seen of a type before its parts are there. -/
inductive Head where
  | error
  | scalar (s : Scalar)
  | metatype
  | function
  | tuple (label : String) (arity : Nat)
  | union
deriving DecidableEq

def Composite.head : Composite → Head
  | .metatype _ => .metatype
  | .function _ _ => .function
  | .tuple label fields => .tuple label fields.length
  | .union _ => .union

/-- The composite type refers to the node. -/
def Composite.Refers (x : Composite) (k : NodeId) : Prop := .node k ∈ x.parts ∨ ∃ c, x = .function (some k) c

/-- The head of a type; what is unknown looks like the error type. -/
def TypeGraph.head? (g : TypeGraph) : Ty → Option Head
  | .node i => (g.get? i).map Composite.head
  | .scalar s => some (.scalar s)
  | .absent | .error | .var _ => some .error

theorem head?_ne_of_leaf (ha : ∀ k, a ≠ .node k) : g.head? (.node i) ≠ g.head? a := by
  intro h
  cases hi : g.get? i with
  | none => cases a <;> simp_all [TypeGraph.head?]
  | some x => cases a <;> cases x <;> simp_all [TypeGraph.head?, Composite.head]

theorem equal_of_head_ne {y : Composite} (hi : g.get? i = some x) (hj : g.get? j = some y) (h : x.head ≠ y.head) :
    g.equal (.node i) (.node j) = .ok false := by
  have hne : i ≠ j := by
    rintro rfl
    cases hi.symm.trans hj
    exact h rfl
  simp only [TypeGraph.equal, TypeGraph.equalAux, if_neg hne, get_of_get? hi, get_of_get? hj, ok_bind]
  split
  · exact absurd rfl h
  · exact absurd rfl h
  · next l fs l' fs' =>
    have hshape : sameShape l fs l' fs' = false := by
      rw [Bool.eq_false_iff]
      intro hshape
      obtain rfl := (sameShape_iff.mp hshape).1
      exact h (by simp [Composite.head, length_eq_of_sameShape hshape])
    rw [hshape]
    rfl
  · exact absurd rfl h
  · rfl

theorem Shows.head_eq {R : Ty → Ty → Prop} {t : Ty} (h : Shows g G R t a) : g.head? t = G.head? a := by
  cases h with
  | metatype hi hk => simp [TypeGraph.head?, hi, hk, Composite.head]
  | function hi hk => simp [TypeGraph.head?, hi, hk, Composite.head]
  | tuple hi hk fields => simp [TypeGraph.head?, hi, hk, Composite.head, fields.length_eq]
  | _ => rfl

theorem TypeGraph.get?_set_eq_some {k : NodeId} (hk : k < g.size) :
    (g.set k c).get? j = some x ↔ k = j ∧ c = x ∨ k ≠ j ∧ g.get? j = some x := by
  rw [TypeGraph.get?_set, if_pos hk]
  split
  · next h => simp [h]
  · next h => simp [h]

namespace Substitution

/-! ### What leads where -/

/-- The second composite type is right inside the first, through what a variable resolves to. -/
def Encloses (σ : Substitution) (g : TypeGraph) (i j : NodeId) : Prop :=
  ∃ u ∈ σ.contents g (.node i), σ.lookup u = .node j

/-- The second composite type can be reached from the first, in no steps or more. -/
def LeadsTo (σ : Substitution) (g : TypeGraph) : NodeId → NodeId → Prop := Relation.ReflTransGen (σ.Encloses g)

/-- The second composite type can be reached from the first in some steps. -/
def LeadsOn (σ : Substitution) (g : TypeGraph) : NodeId → NodeId → Prop := Relation.TransGen (σ.Encloses g)

/-- The first is a union, and the second is one of its cases. -/
def HasCase (σ : Substitution) (g : TypeGraph) (i j : NodeId) : Prop :=
  ∃ cases, g.get? i = some (.union cases) ∧ ∃ c ∈ cases, σ.lookup c = .node j

/-- The composite types that can be reached from a type. -/
def Reach (σ : Substitution) (g : TypeGraph) (t : Ty) (j : NodeId) : Prop := ∃ i, σ.lookup t = .node i ∧ σ.LeadsTo g i j

/-- Two different cases of the union, or cases of unions among its cases, that have the same head. -/
structure Lookalikes (σ : Substitution) (g : TypeGraph) (u x y : NodeId) : Prop where
  left : Relation.TransGen (σ.HasCase g) u x
  right : Relation.TransGen (σ.HasCase g) u y
  left_ne : x ≠ u
  right_ne : y ≠ u
  ne : x ≠ y
  head : g.head? (.node x) = g.head? (.node y)

/-- Lookalikes of a union, one of which leads back to the union. -/
def Tangled (σ : Substitution) (g : TypeGraph) (D : NodeId → Prop) : Prop :=
  ∃ u x y, D u ∧ σ.Lookalikes g u x y ∧ σ.LeadsTo g x u

/-- Lookalikes of a union, one of which leads to a function type whose domain leads back to the union. -/
def TangledByDomain (σ : Substitution) (g : TypeGraph) (D : NodeId → Prop) : Prop :=
  ∃ u x y f d c, D u ∧ σ.Lookalikes g u x y ∧ σ.LeadsTo g x f ∧ g.get? f = some (.function (some d) c) ∧ σ.LeadsTo g d u

variable {σ : Substitution} {g : TypeGraph} {D : NodeId → Prop} {i j u x y : NodeId} {t : Ty}

theorem encloses_of_domain {d : NodeId} {c : Ty} (hi : g.get? i = some (.function (some d) c)) : σ.Encloses g i d :=
  ⟨.node d, mem_contents_of_domain (lookup_node i) hi, lookup_node d⟩

theorem encloses_of_part {p : Ty} (hi : g.get? i = some c) (hp : p ∈ c.parts) (hj : σ.lookup p = .node j) :
    σ.Encloses g i j :=
  ⟨p, mem_contents_of_parts (lookup_node i) hi hp, hj⟩

theorem HasCase.encloses (h : σ.HasCase g i j) : σ.Encloses g i j := by
  obtain ⟨cases, hi, c, hc, hj⟩ := h
  exact encloses_of_part hi hc hj

theorem leadsTo_of_cases (h : Relation.ReflTransGen (σ.HasCase g) i j) : σ.LeadsTo g i j :=
  Relation.ReflTransGen.mono (fun _ _ h => HasCase.encloses h) _ _ h

theorem Lookalikes.symm (h : σ.Lookalikes g u x y) : σ.Lookalikes g u y x :=
  ⟨h.right, h.left, h.right_ne, h.left_ne, h.ne.symm, h.head.symm⟩

theorem TangledByDomain.tangled (h : σ.TangledByDomain g D) : σ.Tangled g D := by
  obtain ⟨u, x, y, f, d, c, hu, hxy, hf, hget, hd⟩ := h
  exact ⟨u, x, y, hu, hxy, hf.trans (.head (encloses_of_domain hget) hd)⟩

theorem isUnion_iff_head : σ.IsUnion g (.node i) ↔ g.head? (.node i) = some .union := by
  constructor
  · rintro ⟨cases, hcases⟩
    obtain ⟨j, hj, hget⟩ := unionCases?_eq_some.mp hcases
    cases (lookup_node i).symm.trans hj
    simp [TypeGraph.head?, hget, Composite.head]
  · intro h
    obtain ⟨x, hx, hhead⟩ := Option.map_eq_some_iff.mp h
    cases x with
    | union cases => exact isUnion_of_lookup (lookup_node i) hx
    | _ => cases hhead

/-- A part of the graph in which every composite type that is referred to lies again. -/
structure Region (σ : Substitution) (g : TypeGraph) (D : NodeId → Prop) : Prop where
  closed : g.Closed
  below : σ.Below g.size
  lt : ∀ {i}, D i → i < g.size
  step : ∀ {i j}, D i → σ.Encloses g i j → D j

theorem lt_of_encloses (hclosed : g.Closed) (hσ : σ.Below g.size) (h : σ.Encloses g i j) : j < g.size := by
  obtain ⟨u, hu, hj⟩ := h
  suffices hbelow : u.Below g.size by
    have h := hσ.lookup hbelow
    rwa [hj] at h
  simp only [contents, lookup_node] at hu
  split at hu
  · next d c hget =>
    rcases mem_cons.mp hu with rfl | hu
    · exact (hclosed _ _ hget).domain d c rfl
    · exact (hclosed _ _ hget).parts u hu
  · next hget => exact (hclosed _ _ hget).parts u hu
  · cases hu

theorem region_reach (hclosed : g.Closed) (hσ : σ.Below g.size) (ht : t.Below g.size) : σ.Region g (σ.Reach g t) := by
  refine ⟨hclosed, hσ, ?_, ?_⟩
  · rintro i ⟨j, hj, hlead⟩
    cases hlead with
    | refl =>
      have h := hσ.lookup ht
      rwa [hj] at h
    | tail _ hstep => exact lt_of_encloses hclosed hσ hstep
  · rintro i j ⟨k, hk, hlead⟩ hstep
    exact ⟨k, hk, hlead.tail hstep⟩

/-! ### What a new node has -/

/-- The type resolves to a leaf, and the second type is what this is read as. -/
def Reads (σ : Substitution) (t a : Ty) : Prop :=
  match σ.lookup t with
  | .absent | .var _ | .error => a = .error
  | .scalar b => a = .scalar b
  | .node _ => False

theorem Reads.ne_node (h : σ.Reads t a) (k : NodeId) : a ≠ .node k := by
  unfold Reads at h
  split at h <;> first | exact h.elim | (subst h; simp)

/-- The relation holds between a case of the union, or of a union among its cases, and the type. -/
def CaseRelated (σ : Substitution) (g : TypeGraph) (R : Ty → Ty → Prop) (i : NodeId) (a : Ty) : Prop :=
  ∃ v cases c, Relation.ReflTransGen (σ.HasCase g) i v ∧ g.get? v = some (.union cases) ∧ c ∈ cases ∧ R c a

/-- The content is a picture of the composite type `i`: its parts are related to those of `i`, except for parts that are
not there yet. A union pictures cases and cases of cases, in any number. -/
inductive Pictures (σ : Substitution) (g : TypeGraph) (R : Ty → Ty → Prop) (waiting headless : Prop)
    (i : NodeId) : Composite → Prop where
  | metatype {t a : Ty} (hi : g.get? i = some (.metatype t)) (h : R t a ∨ a = .absent ∧ waiting) :
      Pictures σ g R waiting headless i (.metatype a)
  | function {d : NodeId} {e : Option NodeId} {c b : Ty} (hi : g.get? i = some (.function (some d) c))
      (domain : (∃ k, e = some k ∧ R (.node d) (.node k)) ∨ e = none ∧ headless)
      (codomain : R c b ∨ b = .absent ∧ waiting) : Pictures σ g R waiting headless i (.function e b)
  | tuple {l : String} {fs fs' : List TupleField} (hi : g.get? i = some (.tuple l fs))
      (fields : List.Forall₂ (fun f f' => f.label = f'.label ∧ R f.type f'.type ∨ f'.type = .absent ∧ waiting) fs fs') :
      Pictures σ g R waiting headless i (.tuple l fs')
  | union {cs cs' : List Ty} (hi : g.get? i = some (.union cs)) (cases : ∀ c ∈ cs', σ.CaseRelated g R i c) :
      Pictures σ g R waiting headless i (.union cs')

section

variable {R R' : Ty → Ty → Prop} {waiting waiting' headless headless' : Prop} {c : Composite} {a : Ty} {k : NodeId}

theorem CaseRelated.imp (hR : ∀ t, R t a → R' t a) (h : σ.CaseRelated g R i a) : σ.CaseRelated g R' i a := by
  obtain ⟨v, cases, t, hv, hget, ht, h⟩ := h
  exact ⟨v, cases, t, hv, hget, ht, hR t h⟩

theorem CaseRelated.head (hij : Relation.ReflTransGen (σ.HasCase g) i j) (h : σ.CaseRelated g R j a) :
    σ.CaseRelated g R i a := by
  obtain ⟨v, cases, t, hv, hget, ht, h⟩ := h
  exact ⟨v, cases, t, hij.trans hv, hget, ht, h⟩

theorem Pictures.imp (hR : ∀ t a, (∀ k, a = .node k → c.Refers k) → R t a → R' t a)
    (hwaiting : waiting → c.head ≠ .union → waiting') (hheadless : headless → c.head = .function → headless')
    (h : Pictures σ g R waiting headless i c) : Pictures σ g R' waiting' headless' i c := by
  cases h with
  | metatype hi h =>
    refine .metatype hi (h.imp (hR _ _ fun k hk => .inl ?_) (And.imp_right fun h =>
      hwaiting h (by simp [Composite.head])))
    exact hk ▸ mem_singleton_self _
  | function hi domain codomain =>
    refine .function hi (domain.imp (fun h => ?_) (And.imp_right fun h => hheadless h rfl))
      (codomain.imp (hR _ _ fun k hk => .inl ?_) (And.imp_right fun h => hwaiting h (by simp [Composite.head])))
    · obtain ⟨k, rfl, h⟩ := h
      exact ⟨k, rfl, hR _ _ (fun k' hk' => .inr ⟨_, by cases hk'; rfl⟩) h⟩
    · exact hk ▸ mem_singleton_self _
  | @tuple l fs fs' hi fields =>
    refine .tuple hi (forall₂_iff_get.mpr ⟨fields.length_eq, fun k hk hk' => ?_⟩)
    refine ((forall₂_iff_get.mp fields).2 k hk hk').imp (And.imp_right (hR _ _ fun k' h' => .inl ?_))
      (And.imp_right fun h => hwaiting h (by simp [Composite.head]))
    exact h' ▸ mem_map_of_mem (get_mem fs' _)
  | union hi cases =>
    refine .union hi fun c' hc' => (cases c' hc').imp fun t => hR t c' fun k hk => .inl ?_
    exact hk ▸ hc'

theorem Pictures.head (h : Pictures σ g R waiting headless i c) : g.head? (.node i) = some c.head := by
  cases h with
  | metatype hi => simp [TypeGraph.head?, hi, Composite.head]
  | function hi => simp [TypeGraph.head?, hi, Composite.head]
  | tuple hi fields => simp [TypeGraph.head?, hi, Composite.head, fields.length_eq]
  | union hi => simp [TypeGraph.head?, hi, Composite.head]

/-- What a picture refers to is related to something inside a type that the origin leads to. -/
theorem Pictures.refers (h : Pictures σ g R waiting headless i c) (hk : c.Refers k) :
    ∃ v t, σ.LeadsTo g i v ∧ t ∈ σ.contents g (.node v) ∧ R t (.node k) := by
  have here : ∀ {x : Composite} {t : Ty}, g.get? i = some x → t ∈ x.parts → R t (.node k) →
      ∃ v t, σ.LeadsTo g i v ∧ t ∈ σ.contents g (.node v) ∧ R t (.node k) := fun hi ht h =>
    ⟨i, _, .refl, mem_contents_of_parts (lookup_node i) hi ht, h⟩
  cases h with
  | metatype hi h =>
    rcases hk with hk | ⟨c, hk⟩
    · obtain rfl := mem_singleton.mp hk
      rcases h with h | ⟨h, -⟩
      · exact here hi (mem_singleton_self _) h
      · cases h
    · cases hk
  | function hi domain codomain =>
    rcases hk with hk | ⟨c, hk⟩
    · obtain rfl := mem_singleton.mp hk
      rcases codomain with h | ⟨h, -⟩
      · exact here hi (mem_singleton_self _) h
      · cases h
    · cases hk
      rcases domain with ⟨k', hk', h⟩ | ⟨h, -⟩
      · cases hk'
        exact ⟨i, _, .refl, mem_contents_of_domain (lookup_node i) hi, h⟩
      · cases h
  | tuple hi fields =>
    rcases hk with hk | ⟨c, hk⟩
    · obtain ⟨f', hf', hk⟩ := mem_map.mp hk
      obtain ⟨f, hf, h⟩ := exists_of_forall₂ fields hf'
      rw [hk] at h
      rcases h with ⟨-, h⟩ | ⟨h, -⟩
      · exact here hi (mem_map_of_mem hf) h
      · cases h
    · cases hk
  | union hi cases =>
    rcases hk with hk | ⟨c, hk⟩
    · obtain ⟨v, cs, t, hv, hget, ht, h⟩ := cases _ hk
      exact ⟨v, t, leadsTo_of_cases hv, mem_contents_of_parts (lookup_node v) hget ht, h⟩
    · cases hk

theorem Pictures.shows (h : Pictures σ g R False False i c) (hk : G.get? k = some c) (hi : ¬ σ.IsUnion g (.node i)) :
    Shows g G R (.node i) (.node k) := by
  cases h with
  | metatype hi h => exact .metatype hi hk (h.resolve_right And.right)
  | function hi domain codomain =>
    obtain ⟨e, rfl, hd⟩ := domain.resolve_right And.right
    exact .function hi hk hd (codomain.resolve_right And.right)
  | tuple hi fields => exact .tuple hi hk (fields.imp fun _ _ h => h.resolve_right And.right)
  | union hget => exact absurd (isUnion_of_lookup (lookup_node i) hget) hi

end

/-! ### States -/

/-- What is told of a reification besides its state: how many nodes were there first, the origins of the later ones, the
origins whose copies are not complete, and the function types among these whose domain is not there yet. -/
structure Ledger where
  base : Nat
  origin : NodeId → NodeId
  pending : List NodeId := []
  domains : List NodeId := []

namespace Ledger

/-- The copy is complete. -/
def Done (L : Ledger) (k : NodeId) : Prop := L.base ≤ k ∧ L.origin k ∉ L.pending

/-- The node `k` is added for the origin `i`. -/
def enter (L : Ledger) (k i : NodeId) (domains : List NodeId) : Ledger where
  base := L.base
  origin := Function.update L.origin k i
  pending := i :: L.pending
  domains := domains

/-- The types are one, or they are alike and lead to complete copies only. -/
def Twins (L : Ledger) (G : TypeGraph) (a b : Ty) : Prop :=
  a = b ∨ ∃ S : Ty → Prop, G.Supports S ∧ (∀ k, S (.node k) → L.Done k) ∧ S a ∧ S b ∧ G.Alike a b

/-- The union `k` has a case for the type. -/
def Listed (L : Ledger) (G : TypeGraph) (k : NodeId) (b : Ty) : Prop :=
  ∃ cases, G.get? k = some (.union cases) ∧ ∃ c ∈ cases, L.Twins G b c

/-- The type adds nothing to the union `k`: it is the union itself, it is one of the cases, or it is a union whose cases
are. -/
inductive Absorbed (L : Ledger) (st : ReifyState) (k : NodeId) : Ty → Prop where
  | self (h : .node k ∈ st.referenced) : Absorbed L st k (.node k)
  | listed {b : Ty} (h : L.Listed st.graph k b) : Absorbed L st k b
  | inlined {v : NodeId} {cases : List Ty} (hv : st.graph.get? v = some (.union cases)) (hdone : L.Done v)
      (h : ∀ b ∈ cases, b = .node k ∨ L.Listed st.graph k b) : Absorbed L st k (.node v)

/-- The result for the composite type `i`: a new node, for `i` or for a case of it, or a leaf that a case of it is read
as. -/
inductive Stands (L : Ledger) (σ : Substitution) (g : TypeGraph) (size : Nat) (i : NodeId) : Ty → Prop where
  | node {k : NodeId} (hk : L.base ≤ k ∧ k < size) (h : Relation.ReflTransGen (σ.HasCase g) i (L.origin k)) :
      Stands L σ g size i (.node k)
  | leaf {a : Ty} (h : σ.CaseRelated g σ.Reads i a) : Stands L σ g size i a

end Ledger

namespace ReifyState

/-- The new nodes are pictures of their origins, and so are the results. -/
structure Traced (σ : Substitution) (g : TypeGraph) (D : NodeId → Prop) (L : Ledger) (st : ReifyState) : Prop where
  given : g.Extends st.graph
  waiting : ∀ p ∈ L.pending, st.results.lookup p ≠ none
  born : ∀ {k}, L.base ≤ k → k < st.graph.size → D (L.origin k) ∧ st.results.lookup (L.origin k) ≠ none
  distinct : ∀ {k k'}, L.base ≤ k → k < st.graph.size → L.base ≤ k' → k' < st.graph.size →
    L.origin k = L.origin k' → k = k'
  results : ∀ {i a}, st.results.lookup i = some a → L.Stands σ g st.graph.size i a
  nodes : ∀ {k x}, L.base ≤ k → st.graph.get? k = some x →
    Pictures σ g (st.Image σ) (L.origin k ∈ L.pending) (L.origin k ∈ L.domains) (L.origin k) x
  /-- A union that is referred to before it is complete has been noted. -/
  used : ∀ {k x u}, L.base ≤ k → st.graph.get? k = some x → x.Refers u → u ∈ st.unfinished → .node u ∈ st.referenced
  unfinished : ∀ {k}, k ∈ st.unfinished ↔
    L.base ≤ k ∧ k < st.graph.size ∧ L.origin k ∈ L.pending ∧ σ.IsUnion g (.node (L.origin k))
  /-- The cases of a union are all there once it is complete, if no lookalikes were compared too early. -/
  covered : ¬ σ.Tangled g D → ∀ {k cases}, L.Done k → k < st.graph.size → g.get? (L.origin k) = some (.union cases) →
    ∀ c ∈ cases, ∃ b, st.Image σ c b ∧ L.Absorbed st k b

end ReifyState

theorem ReifyState.image_iff {st : ReifyState} :
    st.Image σ t a ↔ σ.Reads t a ∨ ∃ i, σ.lookup t = .node i ∧ st.results.lookup i = some a := by
  unfold ReifyState.Image Reads
  cases σ.lookup t <;> simp

theorem lookup_cons_eq_some {results : List (NodeId × Ty)} {b : Ty} :
    ((i, b) :: results).lookup j = some a ↔ j = i ∧ a = b ∨ j ≠ i ∧ results.lookup j = some a := by
  rw [lookup_cons]
  split
  · next h =>
    rw [beq_iff_eq] at h
    simp [h, eq_comm]
  · next h =>
    rw [beq_eq_false_iff_ne] at h
    simp [h]

namespace Ledger

variable {L L' : Ledger} {st st' : ReifyState} {G G' : TypeGraph} {a b : Ty} {k : NodeId}

theorem enter_origin (hk : k < n) : (L.enter n i domains).origin k = L.origin k :=
  Function.update_of_ne (Nat.ne_of_lt hk) _ _

theorem enter_origin_self : (L.enter n i domains).origin n = i := Function.update_self _ _ _

theorem Twins.mono (h : L.Twins G a b) (hdone : ∀ k x, L.Done k → G.get? k = some x → L'.Done k ∧ G'.get? k = some x) :
    L'.Twins G' a b := by
  rcases h with h | ⟨S, hS, hSdone, ha, hb, halike⟩
  · exact .inl h
  · have hsame := fun k x hk hx => (hdone k x (hSdone k hk) hx).2
    refine .inr ⟨S, hS.congr hsame, fun k hk => ?_, ha, hb, hS.alike hsame ha hb halike⟩
    obtain ⟨x, hx⟩ := exists_get_of_lt (hS.node hk)
    exact (hdone k x (hSdone k hk) (get?_of_get hx)).1

theorem Listed.mono (h : L.Listed G k b) (hdone : ∀ k x, L.Done k → G.get? k = some x → L'.Done k ∧ G'.get? k = some x)
    (hk : ∀ cases, G.get? k = some (.union cases) → ∃ cases', G'.get? k = some (.union cases') ∧ cases ⊆ cases') :
    L'.Listed G' k b := by
  obtain ⟨cases, hget, c, hc, htwins⟩ := h
  obtain ⟨cases', hget', hsub⟩ := hk cases hget
  exact ⟨cases', hget', c, hsub hc, htwins.mono hdone⟩

theorem Absorbed.mono (h : L.Absorbed st k b)
    (hdone : ∀ k x, L.Done k → st.graph.get? k = some x → L'.Done k ∧ st'.graph.get? k = some x)
    (hk : ∀ cases, st.graph.get? k = some (.union cases) → ∃ cases', st'.graph.get? k = some (.union cases') ∧
    cases ⊆ cases') (href : st.referenced ⊆ st'.referenced) : L'.Absorbed st' k b := by
  cases h with
  | self h => exact .self (href h)
  | listed h => exact .listed (h.mono hdone hk)
  | inlined hv hv' h =>
    obtain ⟨hv', hget⟩ := hdone _ _ hv' hv
    exact .inlined hget hv' fun b hb => (h b hb).imp_right fun h => h.mono hdone hk

theorem Absorbed.keep (h : L.Absorbed st k b) (hk : L.Done k)
    (hdone : ∀ k x, L.Done k → st.graph.get? k = some x → L'.Done k ∧ st'.graph.get? k = some x)
    (href : st.referenced ⊆ st'.referenced) : L'.Absorbed st' k b :=
  h.mono hdone (fun cases hget => ⟨cases, (hdone k _ hk hget).2, List.Subset.refl _⟩) href

theorem Stands.trans (hij : Relation.ReflTransGen (σ.HasCase g) i j) (h : L.Stands σ g size j a) :
    L.Stands σ g size i a := by
  cases h with
  | node hk h => exact .node hk (hij.trans h)
  | leaf h => exact .leaf (h.head hij)

theorem Stands.mono {size' : Nat} (h : L.Stands σ g size i a) (hbase : L'.base = L.base)
    (horigin : ∀ k < size, L'.origin k = L.origin k) (hsize : size ≤ size') : L'.Stands σ g size' i a := by
  cases h with
  | node hk h => exact .node ⟨hbase ▸ hk.1, Nat.lt_of_lt_of_le hk.2 hsize⟩ (horigin _ hk.2 ▸ h)
  | leaf h => exact .leaf h

end Ledger

namespace ReifyState.Traced

variable {L : Ledger} {st : ReifyState} {a : Ty} {k : NodeId} {c : Composite} {domains : List NodeId}

theorem result_node (h : st.Traced σ g D L) (hi : st.results.lookup i = some (.node k)) :
    L.base ≤ k ∧ k < st.graph.size ∧ Relation.ReflTransGen (σ.HasCase g) i (L.origin k) := by
  cases h.results hi with
  | node hk hcases => exact ⟨hk.1, hk.2, hcases⟩
  | leaf hleaf =>
    obtain ⟨_, _, _, _, _, _, hreads⟩ := hleaf
    exact absurd rfl (hreads.ne_node k)

/-- A node that is referred to before it was added, for an origin that has no result, was not referred to at all. -/
theorem refers_lt (hst : st.Sound L.base) {x : Composite} (hx : st.graph.get? k = some x) {v : NodeId}
    (hv : x.Refers v) : v < st.graph.size := by
  have hbelow := hst.closed k x hx
  rcases hv with hv | ⟨c, rfl⟩
  · exact hbelow.parts _ hv
  · exact hbelow.domain v c rfl

/-- Complete copies stay complete when a node is added, because its origin has no copy yet. -/
theorem done_of_start (h : st.Traced σ g D L) (hnew : st.results.lookup i = none) (k : NodeId) (x : Composite)
    (hk : L.Done k) (hx : st.graph.get? k = some x) : (L.enter st.graph.size i domains).Done k ∧
    (st.graph.add c).1.get? k = some x := by
  have hlt := lt_size_of_get? hx
  refine ⟨⟨hk.1, ?_⟩, TypeGraph.extends_add _ _ k x hx⟩
  rw [Ledger.enter_origin hlt]
  intro hmem
  rcases mem_cons.mp hmem with heq | hmem
  · exact (h.born hk.1 hlt).2 (heq ▸ hnew)
  · exact hk.2 hmem

theorem start (h : st.Traced σ g D L) (hst : st.Sound L.base) (hi : D i) (hnew : st.results.lookup i = none)
    (hdomains : L.domains ⊆ domains) (hc : Pictures σ g (fun _ _ => False) True (i ∈ domains) i c)
    (hunfinished : ∀ k, k ∈ unfinished ↔ k ∈ st.unfinished ∨ k = st.graph.size ∧ σ.IsUnion g (.node i)) :
    Traced σ g D (L.enter st.graph.size i domains)
      { st with graph := (st.graph.add c).1, results := (i, .node st.graph.size) :: st.results,
                unfinished := unfinished } := by
  have hold : ∀ {k}, k < st.graph.size → (L.enter st.graph.size i domains).origin k = L.origin k := Ledger.enter_origin
  have hself : (L.enter st.graph.size i domains).origin st.graph.size = i := Ledger.enter_origin_self
  have hlookup : ∀ j a, st.results.lookup j = some a →
      ((i, .node st.graph.size) :: st.results : List (NodeId × Ty)).lookup j = some a := by
    refine fun j a hj => lookup_cons_eq_some.mpr (.inr ⟨?_, hj⟩)
    rintro rfl
    cases hnew.symm.trans hj
  have hknown : ∀ j, st.results.lookup j ≠ none →
      ((i, .node st.graph.size) :: st.results : List (NodeId × Ty)).lookup j ≠ none := by
    intro j hj
    obtain ⟨a, ha⟩ := Option.ne_none_iff_exists'.mp hj
    rw [hlookup j a ha]
    simp
  have hsplit : ∀ {k}, k < (st.graph.add c).1.size → k < st.graph.size ∨ k = st.graph.size := fun hk => by
    rw [TypeGraph.size_add] at hk
    omega
  refine ⟨fun j x hj => TypeGraph.extends_add _ _ j x (h.given j x hj), fun p hp => ?_, fun {k} hk hlt => ?_,
    fun {k k'} hk hlt hk' hlt' heq => ?_, fun {j a} hj => ?_, fun {k x} hk hx => ?_, fun {k x u} hk hx hu hmem => ?_,
    fun {k} => ?_, fun htangled {k cases} hk hlt hget t ht => ?_⟩
  · rcases mem_cons.mp hp with rfl | hp
    · simp
    · exact hknown p (h.waiting p hp)
  · rcases hsplit hlt with hlt | rfl
    · rw [hold hlt]
      exact (h.born hk hlt).imp_right (hknown _)
    · rw [hself]
      exact ⟨hi, by simp⟩
  · rcases hsplit hlt with hlt | rfl <;> rcases hsplit hlt' with hlt' | rfl
    · rw [hold hlt, hold hlt'] at heq
      exact h.distinct hk hlt hk' hlt' heq
    · rw [hold hlt, hself] at heq
      exact absurd (heq ▸ hnew) (h.born hk hlt).2
    · rw [hself, hold hlt'] at heq
      exact absurd (heq ▸ hnew) (h.born hk' hlt').2
    · rfl
  · rw [TypeGraph.size_add]
    rcases lookup_cons_eq_some.mp hj with ⟨rfl, rfl⟩ | ⟨-, hj⟩
    · exact .node ⟨hst.size, Nat.lt_succ_self _⟩ (by rw [hself])
    · exact (h.results hj).mono rfl (fun _ => hold) (Nat.le_succ _)
  · dsimp only at hx
    rw [TypeGraph.get?_add] at hx
    split at hx
    · next heq =>
      subst heq
      cases hx
      rw [hself]
      exact hc.imp (fun _ _ _ hfalse => hfalse.elim) (fun _ _ => mem_cons_self) fun hmem _ => hmem
    · rw [hold (lt_size_of_get? hx)]
      exact (h.nodes hk hx).imp (fun _ _ _ ha => ha.mono hlookup) (fun hmem _ => mem_cons_of_mem _ hmem) fun hmem _ =>
        hdomains hmem
  · dsimp only at hx
    rw [TypeGraph.get?_add] at hx
    split at hx
    · cases hx
      obtain ⟨-, -, -, -, hfalse⟩ := hc.refers hu
      exact hfalse.elim
    · have hlt := refers_lt hst hx hu
      refine h.used hk hx hu (((hunfinished u).mp hmem).resolve_right fun heq => ?_)
      exact Nat.ne_of_lt hlt heq.1
  · dsimp only
    rw [hunfinished, h.unfinished, TypeGraph.size_add]
    constructor
    · rintro (⟨hk, hlt, hmem, hunion⟩ | ⟨rfl, hunion⟩)
      · rw [hold hlt]
        exact ⟨hk, Nat.lt_succ_of_lt hlt, mem_cons_of_mem _ hmem, hunion⟩
      · rw [hself]
        exact ⟨hst.size, Nat.lt_succ_self _, mem_cons_self, hunion⟩
    · rintro ⟨hk, hlt, hmem, hunion⟩
      rcases Nat.lt_succ_iff_lt_or_eq.mp hlt with hlt | rfl
      · rw [hold hlt] at hmem hunion
        rcases mem_cons.mp hmem with heq | hmem
        · exact absurd (heq ▸ hnew) (h.born hk hlt).2
        · exact .inl ⟨hk, hlt, hmem, hunion⟩
      · rw [hself] at hunion
        exact .inr ⟨rfl, hunion⟩
  · rcases hsplit hlt with hlt | rfl
    · have hk' : L.Done k := ⟨hk.1, fun hmem => hk.2 (by rw [hold hlt]; exact mem_cons_of_mem _ hmem)⟩
      rw [hold hlt] at hget
      obtain ⟨b, hb, habsorbed⟩ := h.covered htangled hk' hlt hget t ht
      exact ⟨b, hb.mono hlookup, habsorbed.keep hk' (h.done_of_start hnew) (List.Subset.refl _)⟩
    · exact absurd (by rw [hself]; exact mem_cons_self) hk.2

theorem note (h : st.Traced σ g D L) (a : Ty) : Traced σ g D L { st with referenced := a :: st.referenced } where
  given := h.given
  waiting := h.waiting
  born := h.born
  distinct := h.distinct
  results := h.results
  nodes hk hx := h.nodes hk hx
  used hk hx hu hmem := mem_cons_of_mem _ (h.used hk hx hu hmem)
  unfinished := h.unfinished
  covered htangled k cases hk hlt hget t ht := by
    obtain ⟨b, hb, habsorbed⟩ := h.covered htangled hk hlt hget t ht
    exact ⟨b, hb, habsorbed.keep hk (fun _ _ hk hx => ⟨hk, hx⟩) fun _ => mem_cons_of_mem _⟩

theorem fill (h : st.Traced σ g D L) (hbase : g.size ≤ L.base) (hk : L.base ≤ k) (hlt : k < st.graph.size)
    (hpending : L.origin k ∈ L.pending) (hdomains : ∀ f ∈ L.domains, f = L.origin k ∨ f ∈ domains)
    (hc : Pictures σ g (st.Image σ) True (L.origin k ∈ domains) (L.origin k) c)
    (hused : ∀ u, c.Refers u → u ∈ st.unfinished → .node u ∈ st.referenced) :
    Traced σ g D { L with domains := domains } { st with graph := st.graph.set k c } := by
  have hother : ∀ {j x}, k ≠ j → st.graph.get? j = some x → (st.graph.set k c).get? j = some x := fun hne hx =>
    (TypeGraph.get?_set_eq_some hlt).mpr (.inr ⟨hne, hx⟩)
  have hback : ∀ {j x}, (st.graph.set k c).get? j = some x → k = j ∧ c = x ∨ k ≠ j ∧ st.graph.get? j = some x :=
    (TypeGraph.get?_set_eq_some hlt).mp
  have hdone : ∀ j x, L.Done j → st.graph.get? j = some x →
      ({ L with domains := domains } : Ledger).Done j ∧ (st.graph.set k c).get? j = some x := fun j x hj hx =>
    ⟨hj, hother (by rintro rfl; exact hj.2 hpending) hx⟩
  refine ⟨fun j x hj => hother ?_ (h.given j x hj), h.waiting, fun hk hlt => h.born hk (by simpa using hlt),
    fun hk hlt hk' hlt' heq => ?_,
    fun hj => (h.results hj).mono rfl (fun _ _ => rfl) (by simp), fun {j x} hj hx => ?_, fun {j x u} hj hx hu hmem =>
    ?_, fun {j} => by simpa using h.unfinished, fun htangled {j cases} hj hlt' hget t ht => ?_⟩
  · exact Nat.ne_of_gt (Nat.lt_of_lt_of_le (lt_size_of_get? hj) (Nat.le_trans hbase hk))
  · exact h.distinct hk (by simpa using hlt) hk' (by simpa using hlt') heq
  · rcases hback hx with ⟨rfl, rfl⟩ | ⟨hne, hx⟩
    · exact hc.imp (fun _ _ _ ha => ha) (fun _ _ => hpending) fun hmem _ => hmem
    · refine (h.nodes hj hx).imp (fun _ _ _ ha => ha) (fun hmem _ => hmem) fun hmem _ =>
        (hdomains _ hmem).resolve_left fun heq => ?_
      exact hne (h.distinct hj (lt_size_of_get? hx) hk hlt heq).symm
  · rcases hback hx with ⟨rfl, rfl⟩ | ⟨-, hx⟩
    · exact hused u hu hmem
    · exact h.used hj hx hu hmem
  · obtain ⟨b, hb, habsorbed⟩ := h.covered htangled hj (by simpa using hlt') hget t ht
    exact ⟨b, hb, habsorbed.keep hj hdone (List.Subset.refl _)⟩

theorem mem_pending_iff (h : st.Traced σ g D L) (hL : L.pending = i :: pending) (hk : L.base ≤ k)
    (hlt : k < st.graph.size) (hi : L.origin k = i) (hj : L.base ≤ j) (hj' : j < st.graph.size) (hne : j ≠ k) :
    L.origin j ∈ L.pending ↔ L.origin j ∈ pending := by
  rw [hL, mem_cons, or_iff_right_iff_imp]
  exact fun heq => absurd (h.distinct hj hj' hk hlt (heq.trans hi.symm)) hne

theorem done (h : st.Traced σ g D L) (hL : L.pending = i :: pending) (hk : L.base ≤ k) (hi : L.origin k = i)
    (hget : st.graph.get? k = some c) (hc : Pictures σ g (st.Image σ) False (i ∈ L.domains) i c)
    (hunion : ¬ σ.IsUnion g (.node i)) : Traced σ g D { L with pending := pending } st := by
  have hlt := lt_size_of_get? hget
  have hmem := fun {j} => mem_pending_iff (j := j) h hL hk hlt hi
  have hsub : pending ⊆ L.pending := hL ▸ subset_cons_self _ _
  refine ⟨h.given, fun p hp => h.waiting p (hsub hp), h.born, h.distinct,
    fun hj => (h.results hj).mono rfl (fun _ _ => rfl) (Nat.le_refl _), fun {j x} hj hx => ?_, h.used, fun {j} => ?_,
    fun htangled {j cases} hj hlt' hget' t ht => ?_⟩
  · by_cases hne : j = k
    · subst hne
      cases hget.symm.trans hx
      rw [hi]
      exact hc.imp (fun _ _ _ ha => ha) (fun hfalse _ => hfalse.elim) fun hmem _ => hmem
    · exact (h.nodes hj hx).imp (fun _ _ _ ha => ha) (fun hp _ => (hmem hj (lt_size_of_get? hx) hne).mp hp)
        fun hmem _ => hmem
  · rw [h.unfinished]
    refine and_congr_right fun hj => and_congr_right fun hj' => ?_
    by_cases hne : j = k
    · subst hne
      rw [hi]
      exact ⟨fun h => absurd h.2 hunion, fun h => absurd h.2 hunion⟩
    · rw [hmem hj hj' hne]
  · have hne : j ≠ k := by
      rintro rfl
      exact hunion (isUnion_of_lookup (lookup_node _) (hi ▸ hget'))
    have hj' : L.Done j := ⟨hj.1, fun hp => hj.2 ((hmem hj.1 hlt' hne).mp hp)⟩
    obtain ⟨b, hb, habsorbed⟩ := h.covered htangled hj' hlt' hget' t ht
    exact ⟨b, hb, habsorbed.keep hj' (fun _ _ hv hx => ⟨⟨hv.1, fun hp => hv.2 (hsub hp)⟩, hx⟩) (List.Subset.refl _)⟩

theorem collapse (h : st.Traced σ g D L) (hk : k ∈ st.unfinished) (hfree : .node k ∉ st.referenced)
    (hresult : st.results.lookup (L.origin k) = some (.node k)) (hget : st.graph.get? k = some (.union [a])) :
    Traced σ g D L { st with results := (L.origin k, a) :: st.results } ∧
      ∀ t b j, st.Image σ t b → L.Absorbed st j b → L.base ≤ j →
        Image σ { st with results := (L.origin k, a) :: st.results } t b := by
  obtain ⟨hbase, hlt, hpending, -⟩ := h.unfinished.mp hk
  have hknown : ∀ i, st.results.lookup i ≠ none →
      ((L.origin k, a) :: st.results : List (NodeId × Ty)).lookup i ≠ none := by
    intro i hi
    rw [lookup_cons]
    split
    · simp
    · exact hi
  have himage : ∀ t b, st.Image σ t b → b ≠ .node k →
      Image σ { st with results := (L.origin k, a) :: st.results } t b := by
    intro t b hb hne
    rcases image_iff.mp hb with hb | ⟨i, hi, hb⟩
    · exact image_iff.mpr (.inl hb)
    · refine image_iff.mpr (.inr ⟨i, hi, lookup_cons_eq_some.mpr (.inr ⟨?_, hb⟩)⟩)
      rintro rfl
      exact hne (Option.some.inj (hb.symm.trans hresult))
  -- nothing refers to the union, or it would have been noted
  have hrefers : ∀ {j x}, L.base ≤ j → st.graph.get? j = some x → ¬ x.Refers k := fun hj hx href =>
      hfree (h.used hj hx href hk)
  have habsorbed : ∀ {b j}, L.base ≤ j → L.Absorbed st j b → b ≠ .node k := by
    rintro b j hj habsorbed rfl
    cases habsorbed with
    | self href => exact hfree href
    | listed hlisted =>
      obtain ⟨cases, hj', c, hc, rfl | ⟨S, -, hdone, hS, -⟩⟩ := hlisted
      · exact hrefers hj hj' (.inl hc)
      · exact (hdone k hS).2 hpending
    | inlined _ hdone => exact hdone.2 hpending
  refine ⟨⟨h.given, fun p hp => hknown p (h.waiting p hp), fun hj hj' => (h.born hj hj').imp_right (hknown _),
    h.distinct, fun {i b} hi => ?_, fun {j x} hj hx =>
    (h.nodes hj hx).imp (fun t b hb ha => ?_) (fun h _ => h) fun h _ => h, h.used, h.unfinished,
    fun htangled {j cases} hj hj' hget' t ht => ?_⟩, fun t b j hb hj hbase => himage t b hb (habsorbed hbase hj)⟩
  · rcases lookup_cons_eq_some.mp hi with ⟨rfl, rfl⟩ | ⟨-, hi⟩
    · cases h.nodes hbase hget with
      | union _ hcases =>
        obtain ⟨v, cases, t, hv, hgetv, ht, hb⟩ := hcases b (mem_singleton_self b)
        rcases image_iff.mp hb with hb | ⟨j, hj, hb⟩
        · exact .leaf ⟨v, cases, t, hv, hgetv, ht, hb⟩
        · exact (h.results hb).trans (hv.tail ⟨cases, hgetv, t, ht, hj⟩)
    · exact h.results hi
  · refine himage t b ha ?_
    rintro rfl
    exact hrefers hj hx (hb k rfl)
  · obtain ⟨b, hb, habsorbs⟩ := h.covered htangled hj hj' hget' t ht
    exact ⟨b, himage t b hb (habsorbed hj.1 habsorbs),
      habsorbs.keep hj (fun _ _ hv hx => ⟨hv, hx⟩) (List.Subset.refl _)⟩

theorem close (h : st.Traced σ g D L) (hL : L.pending = i :: pending) (hnot : i ∉ pending) (hi : L.origin k = i)
    (hunfinished : st.unfinished = k :: unfinished) (hfresh : k ∉ unfinished)
    (hcovered : ¬ σ.Tangled g D → ∀ cases, g.get? i = some (.union cases) → ∀ c ∈ cases, ∃ b, st.Image σ c b ∧
    L.Absorbed st k b) : Traced σ g D { L with pending := pending } { st with unfinished := unfinished } := by
  obtain ⟨hk, hlt, hpending, hunion⟩ := h.unfinished.mp (hunfinished ▸ mem_cons_self)
  have hmem := fun {j} => mem_pending_iff (j := j) h hL hk hlt hi
  have hsub : pending ⊆ L.pending := hL ▸ subset_cons_self _ _
  have hdone : ∀ v x, L.Done v → st.graph.get? v = some x → ({ L with pending := pending } : Ledger).Done v ∧
      st.graph.get? v = some x :=
    fun v x hv hx => ⟨⟨hv.1, fun hp => hv.2 (hsub hp)⟩, hx⟩
  refine ⟨h.given, fun p hp => h.waiting p (hsub hp), h.born, h.distinct,
    fun hj => (h.results hj).mono rfl (fun _ _ => rfl) (Nat.le_refl _),
    fun {j x} hj hx => ?_, fun {j x u} hj hx hu hmem => h.used hj hx hu (hunfinished ▸ mem_cons_of_mem _ hmem),
    fun {j} => ?_, fun htangled {j cases} hj hlt' hget' t ht => ?_⟩
  · refine (h.nodes hj hx).imp (fun _ _ _ ha => ha) (fun hp hne => (hmem hj (lt_size_of_get? hx) ?_).mp hp)
      fun hmem _ => hmem
    rintro rfl
    exact hne (Option.some.inj ((h.nodes hj hx).head.symm.trans (isUnion_iff_head.mp hunion)))
  · have hiff : j ∈ unfinished ↔ j ≠ k ∧ j ∈ st.unfinished := by
      rw [hunfinished, mem_cons]
      constructor
      · intro hj
        exact ⟨fun heq => hfresh (heq ▸ hj), .inr hj⟩
      · rintro ⟨hne, hj⟩
        exact hj.resolve_left hne
    rw [hiff, h.unfinished]
    constructor
    · rintro ⟨hne, hj, hj', hp, hu⟩
      exact ⟨hj, hj', (hmem hj hj' hne).mp hp, hu⟩
    · rintro ⟨hj, hj', hp, hu⟩
      refine ⟨?_, hj, hj', hsub hp, hu⟩
      rintro rfl
      exact hnot (hi ▸ hp)
  · by_cases hne : j = k
    · subst hne
      obtain ⟨b, hb, habsorbed⟩ := hcovered htangled cases (hi ▸ hget') t ht
      exact ⟨b, hb, habsorbed.mono hdone (fun cases hget => ⟨cases, hget, List.Subset.refl _⟩) (List.Subset.refl _)⟩
    · have hj' : L.Done j := ⟨hj.1, fun hp => hj.2 ((hmem hj.1 hlt' hne).mp hp)⟩
      obtain ⟨b, hb, habsorbed⟩ := h.covered htangled hj' hlt' hget' t ht
      exact ⟨b, hb, habsorbed.keep hj' hdone (List.Subset.refl _)⟩

end ReifyState.Traced

end Substitution

end TypeInference
