import Mathlib.Data.Fintype.Card
import Mathlib.Order.Interval.Finset.Nat
import TypeInference.Proofs.Resolution

/-! # Finite types

A type is finite if no variable and nothing absent can be reached from it, and no composite type leads back to itself.
What is inside a finite type is smaller (`FiniteType.acc_inside`). `Conforms` is the least relation with its rules, and
on finite types it is the conformance that constraints ask for (`FiniteType.conforms_iff`). Nothing stops the
reification of a finite type (`FiniteType.reify_isOk`). -/

namespace TypeInference

open Substitution
open List

variable {g G : TypeGraph} {t u w x y : Ty} {i j : NodeId} {c : Composite} {d : Option NodeId}

namespace TypeGraph

/-! ### What is inside a type -/

theorem Reaches.trans (h : g.Reaches t u) (h' : g.Reaches u w) : g.Reaches t w := by
  induction h with
  | refl => exact h'
  | part hi ht _ ih => exact .part hi ht (ih h')
  | domain hi _ ih => exact .domain hi (ih h')

/-- The first type can be reached from a type right inside the second. -/
def Inside (g : TypeGraph) (x t : Ty) : Prop := ∃ p ∈ empty.contents g t, g.Reaches p x

theorem reaches_of_mem_contents (hp : x ∈ empty.contents g t) : g.Reaches t x := by
  unfold contents at hp
  rw [lookup_empty] at hp
  split at hp
  · split at hp
    · next d c hi =>
      rcases mem_cons.mp hp with rfl | hp
      · exact .domain hi (.refl _)
      · exact .part hi hp (.refl _)
    · next hi => exact .part hi hp (.refl _)
    · cases hp
  · cases hp

theorem Inside.reaches (h : g.Inside x t) : g.Reaches t x := by
  obtain ⟨p, hp, hx⟩ := h
  exact (reaches_of_mem_contents hp).trans hx

theorem Inside.trans_reaches (h : g.Inside x t) (h' : g.Reaches x y) : g.Inside y t := by
  obtain ⟨p, hp, hx⟩ := h
  exact ⟨p, hp, hx.trans h'⟩

theorem inside_of_part (hi : g.get? i = some c) (hx : x ∈ c.parts) : g.Inside x (.node i) :=
  ⟨x, mem_contents_of_parts (lookup_node i) hi hx, .refl x⟩

theorem inside_of_domain {d : NodeId} {c : Ty} (hi : g.get? i = some (.function (some d) c)) :
    g.Inside (.node d) (.node i) :=
  ⟨.node d, mem_contents_of_domain (lookup_node i) hi, .refl _⟩

theorem reaches_of_leaf (h : empty.Leaf g t x) : g.Reaches t x := by
  induction h with
  | self => exact lookup_empty _ ▸ .refl _
  | case hcases hc _ ih =>
    obtain ⟨i, hi, hget⟩ := unionCases?_eq_some.mp hcases
    rw [lookup_empty] at hi
    exact hi ▸ .part hget hc ih

theorem inside_of_leaf (ht : empty.IsUnion g t) (h : empty.Leaf g t x) : g.Inside x t := by
  cases h with
  | self hnot => exact absurd ht hnot
  | case hcases hc rest =>
    obtain ⟨i, hi, hget⟩ := unionCases?_eq_some.mp hcases
    rw [lookup_empty] at hi
    exact hi ▸ (inside_of_part hget hc).trans_reaches (reaches_of_leaf rest)

theorem Reaches.leadsTo (h : g.Reaches t (.node j)) : ∃ i, t = .node i ∧ empty.LeadsTo g i j := by
  generalize hx : Ty.node j = x at h
  induction h with
  | refl => exact ⟨j, hx.symm, .refl⟩
  | part hi ht _ ih =>
    obtain ⟨k, rfl, hlead⟩ := ih hx
    exact ⟨_, rfl, .head (encloses_of_part hi ht (lookup_node k)) hlead⟩
  | domain hi _ ih =>
    obtain ⟨k, hk, hlead⟩ := ih hx
    cases hk
    exact ⟨_, rfl, .head (encloses_of_domain hi) hlead⟩

theorem Inside.leadsOn (h : g.Inside (.node j) t) : ∃ i, t = .node i ∧ empty.LeadsOn g i j := by
  obtain ⟨p, hp, hreach⟩ := h
  obtain ⟨k, rfl, hlead⟩ := hreach.leadsTo
  cases t with
  | node i => exact ⟨i, rfl, .head' ⟨_, hp, lookup_node k⟩ hlead⟩
  | _ => cases hp

/-! ### Finite types -/

/-- No variable can be reached and nothing that is absent, and no composite type that can be reached leads back to
itself. Every function that can be reached takes a tuple, and every union has a case. -/
structure FiniteType (g : TypeGraph) (t : Ty) : Prop where
  solid : g.Solid t
  acyclic : ∀ i, g.Reaches t (.node i) → ¬ empty.LeadsOn g i i
  domains : ∀ i d c, g.Reaches t (.node i) → g.get? i = some (.function (some d) c) →
    ∃ l fs, g.get? d = some (.tuple l fs)
  inhabited : ∀ i, g.Reaches t (.node i) → g.get? i ≠ some (.union [])

namespace FiniteType

theorem reaches (h : g.FiniteType t) (hu : g.Reaches t u) : g.FiniteType u where
  solid x hx := h.solid x (hu.trans hx)
  acyclic i hi := h.acyclic i (hu.trans hi)
  domains i d c hi := h.domains i d c (hu.trans hi)
  inhabited i hi := h.inhabited i (hu.trans hi)

theorem part (h : g.FiniteType (.node i)) (hi : g.get? i = some c) (hx : x ∈ c.parts) : g.FiniteType x :=
  h.reaches (inside_of_part hi hx).reaches

theorem leaf (h : g.FiniteType t) (hx : empty.Leaf g t x) : g.FiniteType x := h.reaches (reaches_of_leaf hx)

theorem ne_var (h : g.FiniteType t) (v : Int) : t ≠ .var v := by
  rintro rfl
  exact h.solid _ (.refl _)

theorem exists_get? (h : g.FiniteType (.node i)) : ∃ x, g.get? i = some x := by
  obtain ⟨x, hx, -⟩ := h.solid _ (.refl _)
  exact ⟨x, hx⟩

theorem below (h : g.FiniteType t) : t.Below g.size := by
  cases t with
  | node i =>
    obtain ⟨x, hx⟩ := h.exists_get?
    exact lt_size_of_get? hx
  | _ => trivial

theorem exists_domain {c : Ty} (h : g.FiniteType (.node i)) (hi : g.get? i = some (.function d c)) :
    ∃ e l fs, d = some e ∧ g.get? e = some (.tuple l fs) ∧ g.FiniteType (.node e) := by
  obtain ⟨x, hx, hdomain⟩ := h.solid _ (.refl _)
  cases hi.symm.trans hx
  cases d with
  | none => exact absurd rfl (hdomain c)
  | some e =>
    obtain ⟨l, fs, he⟩ := h.domains i e c (.refl _) hi
    exact ⟨e, l, fs, rfl, he, h.reaches (inside_of_domain hi).reaches⟩

theorem domainType {c : Ty} (h : g.FiniteType (.node i)) (hi : g.get? i = some (.function d c)) :
    g.FiniteType (Solver.domainType d) ∧ g.Inside (Solver.domainType d) (.node i) := by
  obtain ⟨e, _, _, rfl, -, he⟩ := h.exists_domain hi
  exact ⟨he, inside_of_domain hi⟩

theorem not_inside_self (h : g.FiniteType t) : ¬ g.Inside t t := by
  intro hinside
  cases t with
  | node i =>
    obtain ⟨j, hj, hlead⟩ := hinside.leadsOn
    cases hj
    exact h.acyclic i (.refl _) hlead
  | _ =>
    obtain ⟨p, hp, -⟩ := hinside
    cases hp

/-- What is inside a finite type is smaller: the graph has finitely many composite types to lead to. -/
theorem acc_inside (h : g.FiniteType t) : Acc g.Inside t := by
  have leaf : ∀ {u}, (∀ i, u ≠ .node i) → Acc g.Inside u := by
    refine fun {u} hu => .intro _ fun x hx => ?_
    obtain ⟨p, hp, -⟩ := hx
    cases u with
    | node i => exact absurd rfl (hu i)
    | _ => cases hp
  let S := {i : NodeId // g.FiniteType (.node i)}
  have hfinite : Finite S := ((Set.finite_Iio g.size).subset fun i (hi : g.FiniteType (.node i)) => hi.below).to_subtype
  let r : S → S → Prop := fun j i => empty.LeadsOn g i.1 j.1
  have hirrefl : Std.Irrefl r := ⟨fun i => i.2.acyclic i.1 (.refl _)⟩
  have htrans : IsTrans S r := ⟨fun a b c hab hbc => Relation.TransGen.trans hbc hab⟩
  have hwf : WellFounded r := Finite.wellFounded_of_trans_of_irrefl r
  have node : ∀ i : S, Acc g.Inside (.node i.1) := fun i => by
    induction i using hwf.induction with
    | _ i ih =>
      refine .intro _ fun x hx => ?_
      cases x with
      | node j =>
        obtain ⟨k, hk, hlead⟩ := hx.leadsOn
        cases hk
        exact ih ⟨j, i.2.reaches hx.reaches⟩ hlead
      | _ => exact leaf fun k hk => by cases hk
  cases t with
  | node i => exact node ⟨i, h⟩
  | _ => exact leaf fun i hi => by cases hi

theorem exists_leaf (h : g.FiniteType t) : ∃ x, empty.Leaf g t x := by
  induction h.acc_inside with
  | intro t _ ih =>
    by_cases ht : empty.IsUnion g t
    · obtain ⟨cases, hcases⟩ := ht
      obtain ⟨i, hi, hget⟩ := unionCases?_eq_some.mp hcases
      rw [lookup_empty] at hi
      subst hi
      cases cases with
      | nil => exact absurd hget (h.inhabited i (.refl _))
      | cons c cases =>
        have hc := inside_of_part hget (x := c) mem_cons_self
        obtain ⟨x, hx⟩ := ih c hc (h.reaches hc.reaches)
        exact ⟨x, .case hcases mem_cons_self hx⟩
    · exact ⟨_, .self ht⟩

end FiniteType

/-! ### Sorted graphs -/

/-- A leaf that is known, or one of the first `n` composite types. -/
def isEarlier (n : Nat) : Ty → Bool
  | .node i => i < n
  | .scalar _ | .error => true
  | .absent | .var _ => false

/-- A graph in which composite types are made of earlier ones, with tuples for domains and no union without cases. -/
def isSorted (g : TypeGraph) : Bool :=
  (List.range g.size).all fun i =>
    match g.get? i with
    | some (.function (some d) c) => decide (d < i) && isEarlier i c && (g.tuple? (.node d)).isSome
    | some (.function none _) | some (.union []) => false
    | some x => x.parts.all (isEarlier i)
    | none => true

theorem isEarlier_mono {m n : Nat} (hmn : m ≤ n) (h : isEarlier m t = true) : isEarlier n t = true := by
  cases t with
  | node i => exact decide_eq_true (Nat.lt_of_lt_of_le (of_decide_eq_true h) hmn)
  | absent => cases h
  | var v => cases h
  | _ => rfl

theorem earlier_of_isSorted (h : g.isSorted = true) (hi : g.get? i = some c) :
    (∀ x ∈ empty.contents g (.node i), isEarlier i x = true) ∧
      (∀ d a, c = .function d a → ∃ e l fs, d = some e ∧ g.get? e = some (.tuple l fs)) ∧ c ≠ .union [] := by
  have hcheck := all_eq_true.mp h i (mem_range.mpr (lt_size_of_get? hi))
  simp only [hi] at hcheck
  simp only [contents, lookup_empty, hi]
  split at hcheck
  · next d a heq =>
    cases heq
    simp only [Bool.and_eq_true, decide_eq_true_eq, Option.isSome_iff_exists] at hcheck
    obtain ⟨⟨hd, ha⟩, ⟨l, fs⟩, htuple⟩ := hcheck
    obtain ⟨e, he, hget⟩ := tuple?_eq_some.mp htuple
    cases he
    refine ⟨forall_mem_cons.mpr ⟨decide_eq_true hd, forall_mem_singleton.mpr ha⟩, fun d' a' heq => ?_, by simp⟩
    cases heq
    exact ⟨d, l, fs, rfl, hget⟩
  · cases hcheck
  · cases hcheck
  · next hfunction hnone hunion heq =>
    cases heq
    refine ⟨?_, fun d a heq => ?_, hunion⟩
    · split
      · next d a heq => exact absurd (Option.some.inj heq) (hfunction d a)
      · next heq =>
        cases heq
        exact all_eq_true.mp hcheck
      · next heq => cases heq
    · cases d with
      | none => exact absurd heq (hnone a)
      | some d => exact absurd heq (hfunction d a)
  · next heq => cases heq

theorem finiteType_of_isSorted (h : g.isSorted = true) (ht : isEarlier g.size t = true) : g.FiniteType t := by
  have hcontents : ∀ {i x}, x ∈ empty.contents g (.node i) → isEarlier i x = true := by
    intro i x hx
    cases hi : g.get? i with
    | none => simp [contents, hi] at hx
    | some c => exact (earlier_of_isSorted h hi).1 x hx
  have hreach : ∀ {t x}, g.Reaches t x → ∀ {n}, isEarlier n t = true → isEarlier n x = true := by
    intro t x hx
    induction hx with
    | refl => exact id
    | part hi hp _ ih =>
      intro n hn
      exact isEarlier_mono (Nat.le_of_lt (of_decide_eq_true hn))
        (ih (hcontents (mem_contents_of_parts (lookup_node _) hi hp)))
    | domain hi _ ih =>
      intro n hn
      exact isEarlier_mono (Nat.le_of_lt (of_decide_eq_true hn))
        (ih (hcontents (mem_contents_of_domain (lookup_node _) hi)))
  have hstep : ∀ {i j}, empty.Encloses g i j → j < i := by
    rintro i j ⟨u, hu, hj⟩
    rw [lookup_empty] at hj
    subst hj
    exact of_decide_eq_true (hcontents hu)
  have hlead : ∀ {i j}, empty.LeadsOn g i j → j < i := by
    intro i j hlead
    induction hlead with
    | single hij => exact hstep hij
    | tail _ hjk ih => exact Nat.lt_trans (hstep hjk) ih
  refine ⟨fun x hx => ?_, fun i _ hi => Nat.lt_irrefl i (hlead hi), fun i d c _ hget => ?_,
    fun i _ hget => (earlier_of_isSorted h hget).2.2 rfl⟩
  · have hx' := hreach hx ht
    cases x with
    | node i =>
      have hlt : i < g.nodes.size := of_decide_eq_true hx'
      have hget : g.get? i = some g.nodes[i] := Array.getElem?_eq_getElem hlt
      refine ⟨_, hget, fun c heq => ?_⟩
      obtain ⟨e, l, fs, he, -⟩ := (earlier_of_isSorted h hget).2.1 _ _ heq
      cases he
    | absent => cases hx'
    | var v => cases hx'
    | _ => trivial
  · obtain ⟨e, l, fs, heq, he⟩ := (earlier_of_isSorted h hget).2.1 _ _ rfl
    cases heq
    exact ⟨l, fs, he⟩

/-! ### Conformance -/

/-- The first type conforms to the second: they are equal, or the leaf cases of a union on the left conform, or a type
that is no union conforms to a leaf case of a union on the right, or the parts conform one by one, domains like
codomains. -/
inductive Conforms (g : TypeGraph) : Ty → Ty → Prop where
  | equal {t u : Ty} (h : g.equal t u = .ok true) : Conforms g t u
  | leftUnion {t u : Ty} (ht : empty.IsUnion g t) (h : ∀ x, empty.Leaf g t x → Conforms g x u) : Conforms g t u
  | rightUnion {t u y : Ty} (ht : ¬ empty.IsUnion g t) (hu : empty.IsUnion g u) (hy : empty.Leaf g u y)
      (h : Conforms g t y) : Conforms g t u
  | metatype {i j : NodeId} {a b : Ty} (hi : g.get? i = some (.metatype a)) (hj : g.get? j = some (.metatype b))
      (h : Conforms g a b) : Conforms g (.node i) (.node j)
  | function {i j : NodeId} {d d' : Option NodeId} {c c' : Ty} (hi : g.get? i = some (.function d c))
      (hj : g.get? j = some (.function d' c')) (domain : Conforms g (Solver.domainType d) (Solver.domainType d'))
      (codomain : Conforms g c c') : Conforms g (.node i) (.node j)
  | tuple {i j : NodeId} {l l' : String} {fs fs' : List TupleField} (hi : g.get? i = some (.tuple l fs))
      (hj : g.get? j = some (.tuple l' fs')) (shape : sameShape l fs l' fs' = true)
      (fields : ∀ p ∈ fs.zip fs', Conforms g p.1.type p.2.type) : Conforms g (.node i) (.node j)

theorem grounded_empty : empty.Grounded := noVariableCycle_empty.grounded

theorem Conforms.related (h : g.Conforms t u) : empty.Related g .conformance t u := by
  induction h with
  | equal h => exact .bisimilar (bisimilar_of_equal grounded_empty h)
  | leftUnion ht _ ih => exact related_of_leaves ht ih
  | rightUnion ht hu hy _ ih => exact .rightUnion ht hu hy ih
  | metatype hi hj _ ih => exact .metatype (lookup_node _) (lookup_node _) hi hj ih
  | function hi hj _ _ ihd ihc => exact .function (lookup_node _) (lookup_node _) hi hj ihd ihc
  | tuple hi hj shape _ ih => exact .tuple (lookup_node _) (lookup_node _) hi hj shape ih

/-- Bisimilar types conform if they are finite. The induction is on the type on the left. -/
theorem FiniteType.conforms_of_bisimilar (ht : g.FiniteType t) (h : empty.Bisimilar g t u) : g.Conforms t u := by
  induction ht.acc_inside generalizing u with
  | intro t _ ih =>
    have inner : ∀ {a b}, g.Inside a t → empty.Bisimilar g a b → g.Conforms a b := fun ha hab =>
        ih _ ha (ht.reaches ha.reaches) hab
    cases h.matches with
    | unions ht' hu left _ =>
      refine .leftUnion ht' fun x hx => ?_
      obtain ⟨y, hy, hxy⟩ := left x hx
      exact .rightUnion (hx.not_isUnion grounded_empty) hu hy (inner (inside_of_leaf ht' hx) hxy)
    | others _ _ hc =>
      rw [lookup_empty, lookup_empty] at hc
      cases hc with
      | same => exact .equal (equal_self g t)
      | metatype hi hj hp => exact .metatype hi hj (inner (inside_of_part hi (by simp [Composite.parts])) hp)
      | function hi hj hd hc =>
        exact .function hi hj (inner (ht.domainType hi).2 hd) (inner (inside_of_part hi (by simp [Composite.parts])) hc)
      | tuple hi hj shape fields =>
        refine .tuple hi hj shape fun p hp => ?_
        exact inner (inside_of_part hi (mem_map_of_mem (of_mem_zip hp).1)) (List.forall₂_zip fields hp)

theorem FiniteType.conforms_of_related {rel : Relation} (ht : g.FiniteType t) (h : empty.Related g rel t u) :
    g.Conforms t u := by
  induction h with
  | bisimilar h => exact ht.conforms_of_bisimilar h
  | leftUnion ht' _ _ ih => exact .leftUnion ht' fun x hx => ih x hx (ht.leaf hx)
  | unions ht' _ _ _ ih _ => exact .leftUnion ht' fun x hx => ih x hx (ht.leaf hx)
  | rightUnion ht' hu hy _ ih => exact .rightUnion ht' hu hy (ih ht)
  | metatype ht' hu hi hj _ ih =>
    rw [lookup_empty] at ht' hu
    subst ht' hu
    exact .metatype hi hj (ih (ht.part hi (by simp [Composite.parts])))
  | function ht' hu hi hj _ _ ihd ihc =>
    rw [lookup_empty] at ht' hu
    subst ht' hu
    exact .function hi hj (ihd (ht.domainType hi).1) (ihc (ht.part hi (by simp [Composite.parts])))
  | tuple ht' hu hi hj shape _ ih =>
    rw [lookup_empty] at ht' hu
    subst ht' hu
    exact .tuple hi hj shape fun p hp => ih p hp (ht.part hi (mem_map_of_mem (of_mem_zip hp).1))

theorem FiniteType.conforms_iff (ht : g.FiniteType t) : g.Conforms t u ↔ empty.Related g .conformance t u :=
  ⟨Conforms.related, ht.conforms_of_related⟩

theorem FiniteType.conforms_trans (ht : g.FiniteType t) (h : g.Conforms t u) (h' : g.Conforms u w) : g.Conforms t w :=
  ht.conforms_of_related (h.related.trans grounded_empty h'.related)

/-! ### Reification -/

theorem region_finite (hg : g.Closed) : empty.Region g (fun i => g.FiniteType (.node i)) where
  closed := hg
  below := fun p hp => by cases hp
  lt h := h.below
  step h := by
    rintro ⟨u, hu, hj⟩
    rw [lookup_empty] at hj
    exact h.reaches (reaches_of_mem_contents (hj ▸ hu))

theorem not_tangledByDomain_finite : ¬ empty.TangledByDomain g (fun i => g.FiniteType (.node i)) := by
  rintro ⟨u, x, y, f, d, c, hu, hlook, hlead, hget, hback⟩
  have hcases : empty.LeadsOn g u x := Relation.TransGen.mono (fun _ _ h => HasCase.encloses h) _ _ hlook.left
  exact hu.acyclic u (.refl _) (hcases.trans_left (hlead.trans (.head (encloses_of_domain hget) hback)))

theorem FiniteType.reify_isOk (ht : g.FiniteType t) (hg : g.Closed) (hG : G.Closed) (hext : g.Extends G) :
    ∃ G' a, empty.reify G t = .ok (G', a) ∧ g.Extends G' ∧ G'.Closed := by
  have hdomain : ∀ i d c, g.FiniteType (.node i) → g.get? i = some (.function d c) →
      (∃ e, d = some e ∧ ¬ empty.IsUnion g (.node e)) ∨ False := by
    intro i d c hi hget
    obtain ⟨e, l, fs, hd, he, -⟩ := hi.exists_domain hget
    exact .inl (solid_of_tuple ⟨e, l, fs, hd, he⟩)
  have hnode : ∀ {j}, empty.lookup t = .node j → g.FiniteType (.node j) := by
    intro j hj
    rw [lookup_empty] at hj
    exact hj ▸ ht
  obtain ⟨hraises, -⟩ := reify_spec (P := fun _ => False) (region_finite hg) hG hext not_tangledByDomain_finite
    hdomain hnode
  cases h : empty.reify G t with
  | error e => exact (hraises e h).elim
  | ok r =>
    obtain ⟨hkept, hclosed⟩ := reify_extends hG (fun p hp => by cases hp) h
    exact ⟨r.1, r.2, rfl, fun i x hi => hkept i x (hext i x hi), hclosed⟩

end TypeGraph

end TypeInference
