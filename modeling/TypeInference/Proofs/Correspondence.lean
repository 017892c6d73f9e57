import Mathlib.Data.List.Forall2
import TypeInference.Proofs.Bounds

/-! # Equality does not see numbers

Structural equality looks at the form of two types and at which of their nodes are the same. So types of two graphs that
correspond part by part (`Correspondence`) compare alike (`Correspondence.equal_eq`), whatever else the graphs have. -/

namespace TypeInference

open List

variable {T T' : Ty → Ty → Prop} {g g' : TypeGraph} {p q : Ty → Ty → Except Fault Bool} {γ δ α β : Type}

/-- The composite types have one form, and their parts correspond. -/
inductive Composite.Corresponds (T : Ty → Ty → Prop) : Composite → Composite → Prop where
  | metatype {t t' : Ty} (h : T t t') : Corresponds T (.metatype t) (.metatype t')
  | function {d d' : Option NodeId} {c c' : Ty} (domain : Option.Rel (fun i j => T (.node i) (.node j)) d d')
      (codomain : T c c') : Corresponds T (.function d c) (.function d' c')
  | tuple {label : String} {fs fs' : List TupleField}
      (fields : List.Forall₂ (fun f f' => f.label = f'.label ∧ T f.type f'.type) fs fs') :
      Corresponds T (.tuple label fs) (.tuple label fs')
  | union {cs cs' : List Ty} (cases : List.Forall₂ T cs cs') : Corresponds T (.union cs) (.union cs')

/-- The types in the relation are the same up to numbers: nodes correspond to nodes of one form, and no type to two
others. -/
structure Correspondence (T : Ty → Ty → Prop) (g g' : TypeGraph) : Prop where
  injective : ∀ {t t' u u'}, T t t' → T u u' → (t = u ↔ t' = u')
  isNode : ∀ {t t'}, T t t' → ((∃ i, t = .node i) ↔ ∃ j, t' = .node j)
  nodes : ∀ {i j}, T (.node i) (.node j) → ∃ x y, g.get? i = some x ∧ g'.get? j = some y ∧ x.Corresponds T y

/-! ### Lists -/

section

variable {α β : Type} [BEq α] [LawfulBEq α] [BEq β] [LawfulBEq β] {R : α → β → Prop} {xs : List α} {ys : List β}
  {x : α} {y : β}

theorem beq_congr (hR : ∀ {a a' b b'}, R a b → R a' b' → (a = a' ↔ b = b')) {a : α} {b : β} (h : R a b) (hxy : R x y) :
    (x == a) = (y == b) :=
  Bool.eq_iff_iff.mpr (by simpa using hR hxy h)

theorem contains_congr (hR : ∀ {a a' b b'}, R a b → R a' b' → (a = a' ↔ b = b')) (h : Forall₂ R xs ys) (hxy : R x y) :
    xs.contains x = ys.contains y := by
  induction h with
  | nil => rfl
  | cons hab _ ih => rw [contains_cons, contains_cons, ih, beq_congr hR hab hxy]

end

theorem forall₂_zip {R : α → γ → Prop} {S : β → δ → Prop} {xs : List α} {xs' : List γ} {ys : List β} {ys' : List δ}
    (hx : Forall₂ R xs xs') (hy : Forall₂ S ys ys') :
    Forall₂ (fun p p' => R p.1 p'.1 ∧ S p.2 p'.2) (xs.zip ys) (xs'.zip ys') := by
  induction hx generalizing ys ys' with
  | nil => simp
  | cons hx _ ih =>
    cases hy with
    | nil => simp
    | cons hy hys => exact .cons ⟨hx, hy⟩ (ih hys)

theorem anyM_congr {p : α → Except Fault Bool} {q : β → Except Fault Bool} {xs : List α} {ys : List β}
    (h : Forall₂ (fun x y => p x = q y) xs ys) : xs.anyM p = ys.anyM q := by
  induction h with
  | nil => rfl
  | cons hx _ ih => simp only [anyM_cons, hx, ih]

theorem allM_congr {p : α → Except Fault Bool} {q : β → Except Fault Bool} {xs : List α} {ys : List β}
    (h : Forall₂ (fun x y => p x = q y) xs ys) : xs.allM p = ys.allM q := by
  induction h with
  | nil => rfl
  | cons hx _ ih => simp only [allM_cons, hx, ih]

theorem covers_congr {xs ys xs' ys' : List Ty} (hx : Forall₂ T xs xs') (hy : Forall₂ T ys ys')
    (h : ∀ {t t' u u'}, T t t' → T u u' → p t u = q t' u') : TypeGraph.covers p xs ys = TypeGraph.covers q xs' ys' := by
  refine allM_congr (hx.imp fun t t' ht => ?_)
  exact anyM_congr (hy.imp fun u u' hu => h ht hu)

theorem sameShape_congr {l1 l2 : String} {fs1 fs1' fs2 fs2' : List TupleField}
    (h1 : Forall₂ (fun f f' => f.label = f'.label ∧ T f.type f'.type) fs1 fs1')
    (h2 : Forall₂ (fun f f' => f.label = f'.label ∧ T f.type f'.type) fs2 fs2') :
    sameShape l1 fs1 l2 fs2 = sameShape l1 fs1' l2 fs2' := by
  have hlabels : ∀ {fs fs' : List TupleField}, Forall₂ (fun f f' => f.label = f'.label ∧ T f.type f'.type) fs fs' →
      fs.map TupleField.label = fs'.map TupleField.label := by
    intro fs fs' h
    induction h with
    | nil => rfl
    | cons hf _ ih => simp [hf.1, ih]
  simp only [sameShape, hlabels h1, hlabels h2]

/-! ### Equality

Two graphs of different sizes give their comparisons different bounds, so the bound has to be seen not to matter. -/

/-- The computation comes to the same, unless it is given too few steps. -/
def Approximates {α : Type} (x y : Except Fault α) : Prop := x = .error .outOfSteps ∨ x = y

namespace Approximates

variable {α β : Type}

theorem refl (x : Except Fault α) : Approximates x x := .inr rfl

theorem bind {x y : Except Fault α} {f f' : α → Except Fault β} (h : Approximates x y)
    (hf : ∀ a, Approximates (f a) (f' a)) : Approximates (x >>= f) (y >>= f') := by
  rcases h with rfl | rfl
  · exact .inl rfl
  · cases x with
    | error e => exact .inr rfl
    | ok a => exact hf a

theorem anyM {p q : α → Except Fault Bool} (xs : List α) (h : ∀ x, Approximates (p x) (q x)) :
    Approximates (xs.anyM p) (xs.anyM q) := by
  induction xs with
  | nil => exact refl _
  | cons x xs ih =>
    simp only [anyM_cons]
    refine bind (h x) fun found => ?_
    cases found with
    | true => exact refl _
    | false => exact ih

theorem allM {p q : α → Except Fault Bool} (xs : List α) (h : ∀ x, Approximates (p x) (q x)) :
    Approximates (xs.allM p) (xs.allM q) := by
  induction xs with
  | nil => exact refl _
  | cons x xs ih =>
    simp only [allM_cons]
    refine bind (h x) fun holds => ?_
    cases holds with
    | true => exact ih
    | false => exact refl _

theorem covers (xs ys : List Ty) (h : ∀ t u, Approximates (p t u) (q t u)) :
    Approximates (TypeGraph.covers p xs ys) (TypeGraph.covers q xs ys) :=
  allM xs fun t => anyM ys (h t)

end Approximates

theorem equalAux_approximates (g : TypeGraph) : ∀ (fuel : Nat) (assumed : List (NodeId × NodeId)) (t u : Ty),
    Approximates (g.equalAux fuel assumed t u) (g.equalAux (fuel + 1) assumed t u)
  | 0, _, _, _ => .inl rfl
  | fuel + 1, assumed, t, u => by
    by_cases hnodes : ∃ i j, t = .node i ∧ u = .node j
    · obtain ⟨i, j, rfl, rfl⟩ := hnodes
      have inner :
          ∀ t u, Approximates (g.equalAux fuel ((i, j) :: assumed) t u)
          (g.equalAux (fuel + 1) ((i, j) :: assumed) t u) :=
        equalAux_approximates g fuel ((i, j) :: assumed)
      conv_lhs => unfold TypeGraph.equalAux
      conv_rhs => unfold TypeGraph.equalAux
      split
      · exact .refl _
      refine .bind (.refl _) fun x => .bind (.refl _) fun y => ?_
      split
      · split
        · exact .refl _
        · exact inner _ _
      · split
        · exact .refl _
        · have hcodomain : ∀ (same : Bool) (c c' : Ty),
              Approximates (if same then g.equalAux fuel ((i, j) :: assumed) c c' else pure false)
                (if same then g.equalAux (fuel + 1) ((i, j) :: assumed) c c' else pure false) := fun same c c' => by
            split
            · exact inner _ _
            · exact .refl _
          split
          · exact hcodomain true _ _
          · exact .bind (inner _ _) fun same => hcodomain same _ _
          · exact .refl _
      · split
        · exact .refl _
        · split
          · exact .refl _
          · exact .allM _ fun p => inner _ _
      · split
        · exact .refl _
        · refine .bind (.covers _ _ inner) fun same => ?_
          split
          · exact .covers _ _ inner
          · exact .refl _
      · exact .refl _
    · have hleaf : ∀ i j, t = .node i → u ≠ .node j := fun i j ht hu => hnodes ⟨i, j, ht, hu⟩
      rw [equalAux_leaf hleaf, equalAux_leaf hleaf]
      exact .refl _

theorem equalAux_eq_equal (g : TypeGraph) (t u : Ty) (n : Nat) : g.equalAux (g.size * g.size + 1 + n)
    [] t u = g.equal t u := by
  induction n with
  | zero => rfl
  | succ n ih =>
    rw [← ih]
    rcases equalAux_approximates g (g.size * g.size + 1 + n) [] t u with h | h
    · have hlacking := equal_raises g t u _ (ih.symm.trans h)
      cases hlacking
    · exact h.symm

/-! ### Comparisons -/

namespace Correspondence

/-- Pairs of nodes that correspond side by side. -/
def Pairs (T : Ty → Ty → Prop) (p p' : NodeId × NodeId) : Prop := T (.node p.1) (.node p'.1) ∧
    T (.node p.2) (.node p'.2)

theorem pairs_injective (h : Correspondence T g g') {p q p' q' : NodeId × NodeId} (hp : Pairs T p p')
    (hq : Pairs T q q') : p = q ↔ p' = q' := by
  have hleft : p.1 = q.1 ↔ p'.1 = q'.1 := by simpa using h.injective hp.1 hq.1
  have hright : p.2 = q.2 ↔ p'.2 = q'.2 := by simpa using h.injective hp.2 hq.2
  rw [Prod.ext_iff, Prod.ext_iff, hleft, hright]

theorem equalAux_eq (h : Correspondence T g g') :
    ∀ {fuel : Nat} {assumed assumed' : List (NodeId × NodeId)} {t t' u u' : Ty},
    Forall₂ (Pairs T) assumed assumed' → T t t' → T u u' → g.equalAux fuel assumed t u = g'.equalAux fuel assumed' t' u'
  | 0, _, _, _, _, _, _, _, _, _ => rfl
  | fuel + 1, assumed, assumed', t, t', u, u', hassumed, ht, hu => by
    by_cases hnodes : (∃ i, t = .node i) ∧ ∃ j, u = .node j
    · obtain ⟨⟨i', rfl⟩, j', rfl⟩ : (∃ i, t' = .node i) ∧ ∃ j, u' = .node j :=
        ⟨(h.isNode ht).mp hnodes.1, (h.isNode hu).mp hnodes.2⟩
      obtain ⟨⟨i, rfl⟩, j, rfl⟩ := hnodes
      obtain ⟨x, x', hx, hx', hxx⟩ := h.nodes ht
      obtain ⟨y, y', hy, hy', hyy⟩ := h.nodes hu
      have hpair : Pairs T (i, j) (i', j') := ⟨ht, hu⟩
      have inner : ∀ {t t' u u' : Ty}, T t t' → T u u' →
          g.equalAux fuel ((i, j) :: assumed) t u = g'.equalAux fuel ((i', j') :: assumed') t' u' := fun ht hu =>
        equalAux_eq h (.cons hpair hassumed) ht hu
      have hcontains := contains_congr h.pairs_injective hassumed hpair
      have hsame : i = j ↔ i' = j' := by simpa using h.injective ht hu
      simp only [TypeGraph.equalAux, hsame, TypeGraph.get, hx, hx', hy, hy', hcontains]
      congr 1
      simp only [bind, Except.bind]
      cases hxx with
      | metatype ha =>
        cases hyy with
        | metatype hb => simp only [inner ha hb]
        | _ => rfl
      | function hd hc =>
        cases hyy with
        | function hd' hc' =>
          cases hd with
          | none => cases hd' with
            | none => simp only [inner hc hc']
            | some => rfl
          | some hd => cases hd' with
            | none => rfl
            | some hd' => simp only [inner hd hd', inner hc hc']
        | _ => rfl
      | tuple ha =>
        cases hyy with
        | tuple hb =>
          have hfields :=
            (forall₂_zip ha hb).imp (S := fun p p' => g.equalAux fuel ((i, j) :: assumed) p.1.type p.2.type =
            g'.equalAux fuel ((i', j') :: assumed') p'.1.type p'.2.type) fun p p' hp => inner hp.1.2 hp.2.2
          simp only [sameShape_congr ha hb, allM_congr hfields]
        | _ => rfl
      | union ha =>
        cases hyy with
        | union hb => simp only [covers_congr ha hb inner, covers_congr hb ha inner]
        | _ => rfl
    · have hnodes' : ¬ ((∃ i, t' = .node i) ∧ ∃ j, u' = .node j) := by rwa [← h.isNode ht, ← h.isNode hu]
      have hbeq : (t == u) = (t' == u') := Bool.eq_iff_iff.mpr (by simpa using h.injective ht hu)
      rw [equalAux_leaf fun i j hi hj => hnodes ⟨⟨i, hi⟩, j, hj⟩, equalAux_leaf fun i j hi hj =>
        hnodes' ⟨⟨i, hi⟩, j, hj⟩, hbeq]

theorem equal_eq (h : Correspondence T g g') {t t' u u' : Ty} (ht : T t t') (hu : T u u') :
    g.equal t u = g'.equal t' u' := by
  have hleft := equalAux_eq_equal g t u (g'.size * g'.size)
  have hright := equalAux_eq_equal g' t' u' (g.size * g.size)
  rw [← hleft, ← hright, h.equalAux_eq .nil ht hu]
  congr 1
  omega

end Correspondence

end TypeInference
