import Mathlib.Data.List.Forall2
import TypeInference.Proofs.Computation
import TypeInference.Proofs.Lookup
import TypeInference.Solver.Step

/-! # Bisimilar types

What it means that two types are the same once a table has resolved them. A union counts as the set of its leaf cases,
and an unbound variable as a constant. Types are `Bisimilar` when some relation that is closed under one step of
comparison holds between them. Structural equality is sound for it under every table (`bisimilar_of_equal`). -/

namespace TypeInference

open Substitution
open List

variable {c : Composite} {assumed : List (NodeId × NodeId)} {fs fs' : List TupleField} {i : NodeId} {l l' : String}
  {w x : Ty} {α β : Type}

/-! ### One step into two types -/

/-- The types are one type, or they are composite types of one shape, no unions, with parts in the relation. -/
inductive Congruent (g : TypeGraph) (R : Ty → Ty → Prop) : Ty → Ty → Prop where
  | same (t : Ty) : Congruent g R t t
  | metatype {i j : NodeId} {t u : Ty} (hi : g.get? i = some (.metatype t)) (hj : g.get? j = some (.metatype u))
      (h : R t u) : Congruent g R (.node i) (.node j)
  | function {i j : NodeId} {d d' : Option NodeId} {c c' : Ty} (hi : g.get? i = some (.function d c))
      (hj : g.get? j = some (.function d' c')) (domain : R (Solver.domainType d) (Solver.domainType d'))
      (codomain : R c c') : Congruent g R (.node i) (.node j)
  | tuple {i j : NodeId} {l l' : String} {fs fs' : List TupleField} (hi : g.get? i = some (.tuple l fs))
      (hj : g.get? j = some (.tuple l' fs')) (shape : sameShape l fs l' fs' = true)
      (fields : List.Forall₂ (fun f f' => R f.type f'.type) fs fs') : Congruent g R (.node i) (.node j)

variable {g : TypeGraph} {R R' : Ty → Ty → Prop} {t u : Ty}

theorem sameShape_iff : sameShape l fs l' fs' = true ↔ l = l' ∧ fs.map TupleField.label = fs'.map TupleField.label := by
  simp [sameShape]

theorem sameShape_symm (h : sameShape l fs l' fs' = true) : sameShape l' fs' l fs = true := by
  rw [sameShape_iff] at h ⊢
  exact ⟨h.1.symm, h.2.symm⟩

theorem sameShape_trans {l'' : String} {fs'' : List TupleField} (h : sameShape l fs l' fs' = true)
    (h' : sameShape l' fs' l'' fs'' = true) : sameShape l fs l'' fs'' = true := by
  rw [sameShape_iff] at h h' ⊢
  exact ⟨h.1.trans h'.1, h.2.trans h'.2⟩

theorem length_eq_of_sameShape (h : sameShape l fs l' fs' = true) : fs.length = fs'.length := by
  have := congrArg List.length (sameShape_iff.mp h).2
  simpa using this

namespace Congruent

theorem mono (hR : ∀ a b, R a b → R' a b) (h : Congruent g R t u) : Congruent g R' t u := by
  cases h with
  | same => exact .same _
  | metatype hi hj h => exact .metatype hi hj (hR _ _ h)
  | function hi hj hd hc => exact .function hi hj (hR _ _ hd) (hR _ _ hc)
  | tuple hi hj shape fields => exact .tuple hi hj shape (fields.imp fun _ _ => hR _ _)

theorem symm (hR : ∀ a b, R a b → R' b a) (h : Congruent g R t u) : Congruent g R' u t := by
  cases h with
  | same => exact .same _
  | metatype hi hj h => exact .metatype hj hi (hR _ _ h)
  | function hi hj hd hc => exact .function hj hi (hR _ _ hd) (hR _ _ hc)
  | tuple hi hj shape fields =>
    exact .tuple hj hi (sameShape_symm shape) (fields.flip.imp fun _ _ => hR _ _)

end Congruent

theorem forall₂_comp {γ : Type} {P : α → β → Prop} {Q : β → γ → Prop} {S : α → γ → Prop}
    (h : ∀ a b c, P a b → Q b c → S a c) : ∀ {xs : List α} {ys : List β} {zs : List γ}, Forall₂ P xs ys →
    Forall₂ Q ys zs → Forall₂ S xs zs
  | _, _, _, .nil, .nil => .nil
  | _, _, _, .cons p ps, .cons q qs => .cons (h _ _ _ p q) (forall₂_comp h ps qs)

theorem Congruent.comp {P Q S : Ty → Ty → Prop} (hS : ∀ a b c, P a b → Q b c → S a c) (hP : ∀ a b, P a b → S a b)
    (hQ : ∀ a b, Q a b → S a b) (h : Congruent g P t u) (h' : Congruent g Q u w) : Congruent g S t w := by
  cases h with
  | same => exact h'.mono hQ
  | metatype hi hj p =>
    cases h' with
    | same => exact .metatype hi hj (hP _ _ p)
    | metatype hj' hk q => cases hj.symm.trans hj'; exact .metatype hi hk (hS _ _ _ p q)
    | function hj' _ _ _ => cases hj.symm.trans hj'
    | tuple hj' _ _ _ => cases hj.symm.trans hj'
  | function hi hj p q =>
    cases h' with
    | same => exact .function hi hj (hP _ _ p) (hP _ _ q)
    | metatype hj' _ _ => cases hj.symm.trans hj'
    | function hj' hk p' q' => cases hj.symm.trans hj'; exact .function hi hk (hS _ _ _ p p') (hS _ _ _ q q')
    | tuple hj' _ _ _ => cases hj.symm.trans hj'
  | tuple hi hj shape fields =>
    cases h' with
    | same => exact .tuple hi hj shape (fields.imp fun _ _ => hP _ _)
    | metatype hj' _ _ => cases hj.symm.trans hj'
    | function hj' _ _ _ => cases hj.symm.trans hj'
    | tuple hj' hk shape' fields' =>
      cases hj.symm.trans hj'
      exact .tuple hi hk (sameShape_trans shape shape')
        (forall₂_comp (fun f f' f'' => hS f.type f'.type f''.type) fields fields')

/-! ### Unions and their leaf cases -/

theorem unionCases?_eq_some {cases : List Ty} : g.unionCases? t = some cases ↔ ∃ i, t = .node i ∧
    g.get? i = some (.union cases) := by
  cases t with
  | node i =>
    simp only [TypeGraph.unionCases?, Ty.node.injEq, exists_eq_left']
    cases g.get? i with
    | none => simp
    | some c => cases c <;> simp
  | _ => simp [TypeGraph.unionCases?]

theorem tuple?_eq_some : g.tuple? t = some (l, fs) ↔ ∃ i, t = .node i ∧ g.get? i = some (.tuple l fs) := by
  cases t with
  | node i =>
    simp only [TypeGraph.tuple?, Ty.node.injEq, exists_eq_left']
    cases g.get? i with
    | none => simp
    | some c => cases c <;> simp
  | _ => simp [TypeGraph.tuple?]

theorem Congruent.eq_or_not_union (h : Congruent g R t u) :
    t = u ∨ (g.unionCases? t = none ∧ g.unionCases? u = none) := by
  cases h with
  | same => exact .inl rfl
  | metatype hi hj _ => exact .inr (by simp [TypeGraph.unionCases?, hi, hj])
  | function hi hj _ _ => exact .inr (by simp [TypeGraph.unionCases?, hi, hj])
  | tuple hi hj _ _ => exact .inr (by simp [TypeGraph.unionCases?, hi, hj])

namespace Substitution

def IsUnion (s : Substitution) (g : TypeGraph) (t : Ty) : Prop := ∃ cases, g.unionCases? (s.lookup t) = some cases

/-- The second type is what the first resolves to, if that is no union, or else a leaf case of it. -/
inductive Leaf (s : Substitution) (g : TypeGraph) : Ty → Ty → Prop where
  | self {t : Ty} (h : ¬ s.IsUnion g t) : Leaf s g t (s.lookup t)
  | case {t c x : Ty} {cases : List Ty} (h : g.unionCases? (s.lookup t) = some cases) (hc : c ∈ cases)
      (rest : Leaf s g c x) : Leaf s g t x

/-- One step of comparison of resolved types: unions with unions, leaf case by leaf case, and others by their parts. -/
inductive Matches (s : Substitution) (g : TypeGraph) (R : Ty → Ty → Prop) (t u : Ty) : Prop where
  | unions (ht : s.IsUnion g t) (hu : s.IsUnion g u) (left : ∀ x, s.Leaf g t x → ∃ y, s.Leaf g u y ∧ R x y)
      (right : ∀ y, s.Leaf g u y → ∃ x, s.Leaf g t x ∧ R x y)
  | others (ht : ¬ s.IsUnion g t) (hu : ¬ s.IsUnion g u) (h : Congruent g R (s.lookup t) (s.lookup u))

/-- The types are the same once they are resolved. -/
def Bisimilar (s : Substitution) (g : TypeGraph) (t u : Ty) : Prop :=
  ∃ R : Ty → Ty → Prop, (∀ a b, R a b → s.Matches g R a b) ∧ R t u

variable {s : Substitution}

theorem isUnion_congr (h : s.lookup t = s.lookup u) : s.IsUnion g t ↔ s.IsUnion g u := by
  simp only [IsUnion, h]

theorem Leaf.congr (h : s.lookup t = s.lookup u) (hx : s.Leaf g t x) : s.Leaf g u x := by
  cases hx with
  | self ht =>
    rw [h]
    exact .self (mt (isUnion_congr h).mpr ht)
  | case ht hc rest => exact .case (h ▸ ht) hc rest

theorem Leaf.isUnion_or (hx : s.Leaf g t x) : s.IsUnion g t ∨ x = s.lookup t := by
  cases hx with
  | self _ => exact .inr rfl
  | case ht _ _ => exact .inl ⟨_, ht⟩

theorem Leaf.lookup_eq (hs : s.Grounded) (hx : s.Leaf g t x) : s.lookup x = x := by
  induction hx with
  | self _ => exact hs.lookup_idem _
  | case _ _ _ ih => exact ih

theorem Leaf.not_isUnion (hs : s.Grounded) (hx : s.Leaf g t x) : ¬ s.IsUnion g x := by
  induction hx with
  | self h => rwa [isUnion_congr (hs.lookup_idem _)]
  | case _ _ _ ih => exact ih

/-! ### Bisimilarity is an equivalence -/

theorem bisimilar_of_lookup_eq (h : s.lookup t = s.lookup u) : s.Bisimilar g t u := by
  refine ⟨fun a b => s.lookup a = s.lookup b, fun a b hab => ?_, h⟩
  by_cases ha : s.IsUnion g a
  · exact .unions ha ((isUnion_congr hab).mp ha) (fun x hx => ⟨x, hx.congr hab, rfl⟩)
      (fun y hy => ⟨y, hy.congr hab.symm, rfl⟩)
  · exact .others ha (mt (isUnion_congr hab).mpr ha) (hab ▸ .same _)

theorem Bisimilar.refl (s : Substitution) (g : TypeGraph) (t : Ty) : s.Bisimilar g t t := bisimilar_of_lookup_eq rfl

theorem Bisimilar.matches (h : s.Bisimilar g t u) : s.Matches g (s.Bisimilar g) t u := by
  obtain ⟨R, hR, htu⟩ := h
  cases hR t u htu with
  | unions ht hu left right =>
    refine .unions ht hu (fun x hx => ?_) (fun y hy => ?_)
    · obtain ⟨y, hy, hxy⟩ := left x hx
      exact ⟨y, hy, R, hR, hxy⟩
    · obtain ⟨x, hx, hxy⟩ := right y hy
      exact ⟨x, hx, R, hR, hxy⟩
  | others ht hu h => exact .others ht hu (h.mono fun a b hab => ⟨R, hR, hab⟩)

theorem Bisimilar.symm (h : s.Bisimilar g t u) : s.Bisimilar g u t := by
  refine ⟨fun a b => s.Bisimilar g b a, fun a b hab => ?_, h⟩
  cases hab.matches with
  | unions hb ha left right => exact .unions ha hb right left
  | others hb ha h => exact .others ha hb (h.symm fun _ _ => id)

theorem Bisimilar.trans (h : s.Bisimilar g t u) (h' : s.Bisimilar g u w) : s.Bisimilar g t w := by
  refine ⟨fun a c => ∃ b, s.Bisimilar g a b ∧ s.Bisimilar g b c, fun a c ⟨b, hab, hbc⟩ => ?_, u, h, h'⟩
  cases hab.matches with
  | unions ha hb left right =>
    cases hbc.matches with
    | others hb' _ _ => exact absurd hb hb'
    | unions _ hc left' right' =>
      refine .unions ha hc (fun x hx => ?_) (fun z hz => ?_)
      · obtain ⟨y, hy, hxy⟩ := left x hx
        obtain ⟨z, hz, hyz⟩ := left' y hy
        exact ⟨z, hz, y, hxy, hyz⟩
      · obtain ⟨y, hy, hyz⟩ := right' z hz
        obtain ⟨x, hx, hxy⟩ := right y hy
        exact ⟨x, hx, y, hxy, hyz⟩
  | others ha hb h =>
    cases hbc.matches with
    | unions hb' _ _ _ => exact absurd hb' hb
    | others _ hc h' =>
      exact .others ha hc (h.comp (fun a b c hab hbc => ⟨b, hab, hbc⟩) (fun a b hab => ⟨b, hab, .refl s g b⟩)
        (fun a b hab => ⟨a, .refl s g a, hab⟩) h')

theorem Bisimilar.isUnion_iff (h : s.Bisimilar g t u) : s.IsUnion g t ↔ s.IsUnion g u := by
  cases h.matches with
  | unions ht hu _ _ => exact iff_of_true ht hu
  | others ht hu _ => exact iff_of_false ht hu

theorem Bisimilar.leaf (hs : s.Grounded) (h : s.Bisimilar g t u) (hx : s.Leaf g t x) :
    ∃ y, s.Leaf g u y ∧ s.Bisimilar g x y := by
  cases h.matches with
  | unions _ _ left _ => exact left x hx
  | others ht hu _ =>
    obtain rfl := hx.isUnion_or.resolve_left ht
    have ht' : s.Bisimilar g (s.lookup t) t := bisimilar_of_lookup_eq (hs.lookup_idem t)
    have hu' : s.Bisimilar g u (s.lookup u) := bisimilar_of_lookup_eq (hs.lookup_idem u).symm
    exact ⟨s.lookup u, .self hu, ht'.trans (h.trans hu')⟩

end Substitution

/-! ### Structural equality -/

/-- One step of structural comparison. Unions are compared as sets of cases, and the second inclusion is asked with its
sides swapped. -/
inductive EqualStep (g : TypeGraph) (R : Ty → Ty → Prop) : Ty → Ty → Prop where
  | parts {t u : Ty} (h : Congruent g R t u) : EqualStep g R t u
  | unions {i j : NodeId} {cs cs' : List Ty} (hi : g.get? i = some (.union cs)) (hj : g.get? j = some (.union cs'))
      (left : ∀ c ∈ cs, ∃ c' ∈ cs', R c c') (right : ∀ c' ∈ cs', ∃ c ∈ cs, R c' c) :
      EqualStep g R (.node i) (.node j)

theorem EqualStep.mono (hR : ∀ a b, R a b → R' a b) (h : EqualStep g R t u) : EqualStep g R' t u := by
  cases h with
  | parts h => exact .parts (h.mono hR)
  | unions hi hj left right =>
    refine .unions hi hj (fun c hc => ?_) (fun c' hc' => ?_)
    · obtain ⟨c', hc', h⟩ := left c hc
      exact ⟨c', hc', hR _ _ h⟩
    · obtain ⟨c, hc, h⟩ := right c' hc'
      exact ⟨c, hc, hR _ _ h⟩

theorem EqualStep.symm (hR : ∀ a b, R a b → R b a) (h : EqualStep g R t u) : EqualStep g R u t := by
  cases h with
  | parts h => exact .parts (h.symm hR)
  | unions hi hj left right => exact .unions hj hi right left

theorem EqualStep.congruent_or_unions (h : EqualStep g R t u) :
    Congruent g R t u ∨ ∃ cs cs', g.unionCases? t = some cs ∧ g.unionCases? u = some cs' ∧
      (∀ c ∈ cs, ∃ c' ∈ cs', R c c') ∧ ∀ c' ∈ cs', ∃ c ∈ cs, R c' c := by
  cases h with
  | parts h => exact .inl h
  | unions hi hj left right =>
    exact .inr ⟨_, _, unionCases?_eq_some.mpr ⟨_, rfl, hi⟩, unionCases?_eq_some.mpr ⟨_, rfl, hj⟩, left, right⟩

def Assumed (assumed : List (NodeId × NodeId)) (t u : Ty) : Prop := ∃ p ∈ assumed, t = .node p.1 ∧ u = .node p.2

/-- The types are structurally equal if the assumed pairs are. -/
def EqualUpTo (g : TypeGraph) (assumed : List (NodeId × NodeId)) (t u : Ty) : Prop :=
  ∃ R : Ty → Ty → Prop, (∀ a b, R a b → EqualStep g (fun x y => R x y ∨ Assumed assumed x y) a b) ∧ R t u

theorem EqualUpTo.refl (g : TypeGraph) (assumed : List (NodeId × NodeId)) (t : Ty) : EqualUpTo g assumed t t :=
  ⟨fun a b => a = b, fun a _ hab => hab ▸ .parts (.same a), rfl⟩

theorem EqualUpTo.step (h : EqualUpTo g assumed t u) :
    EqualStep g (fun x y => EqualUpTo g assumed x y ∨ Assumed assumed x y) t u := by
  obtain ⟨R, hR, htu⟩ := h
  exact (hR t u htu).mono fun a b hab => hab.imp_left fun h => ⟨R, hR, h⟩

/-- A pair that is equal up to itself is equal: this is where the circle of a recursive type closes. -/
theorem EqualUpTo.close {j : NodeId}
    (h : EqualStep g (fun x y => EqualUpTo g ((i, j) :: assumed) x y ∨ Assumed ((i, j) :: assumed) x y) (.node i)
      (.node j)) : EqualUpTo g assumed (.node i) (.node j) := by
  refine ⟨fun x y => EqualUpTo g ((i, j) :: assumed) x y ∨ (x = .node i ∧ y = .node j), ?_, .inr ⟨rfl, rfl⟩⟩
  have widen : ∀ x y, EqualUpTo g ((i, j) :: assumed) x y ∨ Assumed ((i, j) :: assumed) x y →
      (EqualUpTo g ((i, j) :: assumed) x y ∨ (x = .node i ∧ y = .node j)) ∨ Assumed assumed x y := by
    rintro x y (h | ⟨p, hp, hx, hy⟩)
    · exact .inl (.inl h)
    · rcases mem_cons.mp hp with rfl | hp
      · exact .inl (.inr ⟨hx, hy⟩)
      · exact .inr ⟨p, hp, hx, hy⟩
  rintro a b (hab | ⟨rfl, rfl⟩)
  · exact hab.step.mono widen
  · exact h.mono widen

theorem get?_of_get (h : g.get i = .ok c) : g.get? i = some c := by
  unfold TypeGraph.get at h
  split at h
  · next c' hc =>
    cases h
    exact hc
  · cases h

theorem get_of_get? (h : g.get? i = some c) : g.get i = .ok c := by
  rw [TypeGraph.get, h]

theorem exists_of_covers {equal : Ty → Ty → Except Fault Bool} {xs ys : List Ty}
    (h : TypeGraph.covers equal xs ys = .ok true) : ∀ x ∈ xs, ∃ y ∈ ys, equal x y = .ok true :=
  fun x hx => mem_of_anyM (forall_of_allM h x hx)

/-- Types that compare as equal are equal up to the pairs under comparison. The induction is on the depth of the
comparison; every pair of nodes is closed as soon as its parts are equal up to itself. -/
theorem equalUpTo_of_equalAux : ∀ (fuel : Nat) (assumed : List (NodeId × NodeId)) (t u : Ty),
    g.equalAux fuel assumed t u = .ok true → EqualUpTo g assumed t u ∨ Assumed assumed t u := by
  intro fuel
  induction fuel with
  | zero => intro assumed t u h; cases h
  | succ fuel ih =>
    intro assumed t u h
    have leaf : t = u → EqualUpTo g assumed t u := by
      rintro rfl
      exact .refl g assumed t
    match t, u with
    | .node i, .node j =>
      simp only [TypeGraph.equalAux] at h
      split at h
      · next hij => exact .inl (leaf (congrArg _ hij))
      · obtain ⟨ci, hci, h⟩ := bind_eq_ok.mp h
        obtain ⟨cj, hcj, h⟩ := bind_eq_ok.mp h
        have hi := get?_of_get hci
        have hj := get?_of_get hcj
        -- a pair that is met again is assumed; any other is closed with its parts
        have seen : assumed.contains (i, j) = true → Assumed assumed (.node i) (.node j) := fun hmem =>
          ⟨(i, j), by simpa using hmem, rfl, rfl⟩
        split at h
        · split at h
          · next hmem => exact .inr (seen hmem)
          · exact .inl (.close (.parts (.metatype hi hj (ih _ _ _ h))))
        · split at h
          · next hmem => exact .inr (seen hmem)
          · split at h
            · exact .inl (.close (.parts (.function hi hj (.inl (.refl g _ _)) (ih _ _ _ h))))
            · obtain ⟨domains, hd, h⟩ := bind_eq_ok.mp h
              cases domains with
              | false => cases h
              | true => exact .inl (.close (.parts (.function hi hj (ih _ _ _ hd) (ih _ _ _ h))))
            · cases h
        · split at h
          · cases h
          · next hshape =>
            split at h
            · next hmem => exact .inr (seen hmem)
            · refine .inl (.close (.parts (.tuple hi hj (by simpa using hshape) ?_)))
              refine forall₂_iff_zip.mpr ⟨length_eq_of_sameShape (by simpa using hshape), fun {f f'} hf => ?_⟩
              exact ih _ _ _ (forall_of_allM h (f, f') hf)
        · split at h
          · next hmem => exact .inr (seen hmem)
          · obtain ⟨b, hb, h⟩ := bind_eq_ok.mp h
            cases b with
            | false => cases h
            | true =>
              refine .inl (.close (.unions hi hj (fun c hc => ?_) (fun c' hc' => ?_)))
              · obtain ⟨c', hc', heq⟩ := exists_of_covers hb c hc
                exact ⟨c', hc', ih _ _ _ heq⟩
              · obtain ⟨c, hc, heq⟩ := exists_of_covers h c' hc'
                exact ⟨c, hc, ih _ _ _ heq⟩
        · cases h
    | .absent, u => exact .inl (leaf (by simpa [TypeGraph.equalAux] using h))
    | .scalar b, u => exact .inl (leaf (by simpa [TypeGraph.equalAux] using h))
    | .error, u => exact .inl (leaf (by simpa [TypeGraph.equalAux] using h))
    | .var v, u => exact .inl (leaf (by simpa [TypeGraph.equalAux] using h))
    | .node i, .absent => simp [TypeGraph.equalAux] at h
    | .node i, .scalar b => simp [TypeGraph.equalAux] at h
    | .node i, .error => simp [TypeGraph.equalAux] at h
    | .node i, .var v => simp [TypeGraph.equalAux] at h

theorem equal_self (g : TypeGraph) (t : Ty) : g.equal t t = .ok true := by
  cases t <;> simp [TypeGraph.equal, TypeGraph.equalAux]

theorem equalUpTo_of_equal (h : g.equal t u = .ok true) : EqualUpTo g [] t u := by
  rcases equalUpTo_of_equalAux _ _ _ _ h with h | ⟨p, hp, -⟩
  · exact h
  · cases hp

/-! ### Structural equality is sound -/

/-- Structurally equal once they are resolved at the root, in one of the two orders. -/
def Substitution.EqualRoots (s : Substitution) (g : TypeGraph) (t u : Ty) : Prop :=
  s.lookup t = s.lookup u ∨ EqualUpTo g [] (s.lookup t) (s.lookup u) ∨ EqualUpTo g [] (s.lookup u) (s.lookup t)

namespace Substitution

variable {s : Substitution}

theorem EqualRoots.symm (h : s.EqualRoots g t u) : s.EqualRoots g u t := by
  rcases h with h | h | h
  · exact .inl h.symm
  · exact .inr (.inr h)
  · exact .inr (.inl h)

/-- Types that are equal before they are resolved are one type or two composite types, which resolve to themselves. -/
theorem equalRoots_of_equalUpTo (h : EqualUpTo g [] t u) : s.EqualRoots g t u := by
  have hnode : ∀ i j, t = .node i → u = .node j → s.EqualRoots g t u := by
    rintro i j rfl rfl
    exact .inr (.inl (by simpa using h))
  cases h.step with
  | parts hp =>
    cases hp with
    | same => exact .inl rfl
    | metatype _ _ _ => exact hnode _ _ rfl rfl
    | function _ _ _ _ => exact hnode _ _ rfl rfl
    | tuple _ _ _ _ => exact hnode _ _ rfl rfl
  | unions _ _ _ _ => exact hnode _ _ rfl rfl

theorem EqualRoots.step (h : s.EqualRoots g t u) : EqualStep g (s.EqualRoots g) (s.lookup t) (s.lookup u) := by
  have widen : ∀ x y, EqualUpTo g [] x y ∨ Assumed [] x y → s.EqualRoots g x y := by
    rintro x y (h | ⟨p, hp, -⟩)
    · exact equalRoots_of_equalUpTo h
    · cases hp
  rcases h with h | h | h
  · exact h ▸ .parts (.same _)
  · exact h.step.mono widen
  · exact (h.step.mono widen).symm fun _ _ => EqualRoots.symm

/-- Leaf cases of types with equal roots correspond to each other. The induction is on the way to the leaf; at a union
it goes on with the case that the other side has for it. -/
theorem EqualRoots.leaf (hs : s.Grounded) (hx : s.Leaf g t x) (h : s.EqualRoots g t u) :
    ∃ y, s.Leaf g u y ∧ s.EqualRoots g x y := by
  induction hx generalizing u with
  | @self t ht =>
    have hroots : s.EqualRoots g (s.lookup t) (s.lookup u) := by
      simpa only [EqualRoots, hs.lookup_idem] using h
    refine ⟨s.lookup u, .self ?_, hroots⟩
    rintro ⟨cs, hcs⟩
    rcases h.step.congruent_or_unions with hp | ⟨cs', -, hcs', -⟩
    · rcases hp.eq_or_not_union with heq | ⟨-, hnone⟩
      · exact ht ⟨cs, heq ▸ hcs⟩
      · simp [hnone] at hcs
    · exact ht ⟨cs', hcs'⟩
  | @case t c x cs hcs hc rest ih =>
    rcases h.step.congruent_or_unions with hp | ⟨cs1, cs', hcs1, hcs', left, -⟩
    · rcases hp.eq_or_not_union with heq | ⟨hnone, -⟩
      · exact ⟨x, (Leaf.case hcs hc rest).congr heq, .inl rfl⟩
      · simp [hnone] at hcs
    · obtain rfl : cs = cs1 := Option.some.inj (hcs.symm.trans hcs1)
      obtain ⟨c', hc', hroots⟩ := left c hc
      obtain ⟨y, hy, hxy⟩ := ih hroots
      exact ⟨y, .case hcs' hc' hy, hxy⟩

theorem EqualRoots.bisimilar (hs : s.Grounded) (h : s.EqualRoots g t u) : s.Bisimilar g t u := by
  refine ⟨s.EqualRoots g, fun a b hab => ?_, h⟩
  have leaves : s.IsUnion g a → s.IsUnion g b → s.Matches g (s.EqualRoots g) a b := fun ha hb => by
    refine .unions ha hb (fun x hx => hab.leaf hs hx) (fun y hy => ?_)
    obtain ⟨x, hx, hyx⟩ := hab.symm.leaf hs hy
    exact ⟨x, hx, hyx.symm⟩
  rcases hab.step.congruent_or_unions with hp | ⟨cs, cs', hcs, hcs', -⟩
  · rcases hp.eq_or_not_union with heq | ⟨ha, hb⟩
    · by_cases hu : s.IsUnion g a
      · exact leaves hu ((isUnion_congr heq).mp hu)
      · exact .others hu (mt (isUnion_congr heq).mpr hu) hp
    · exact .others (by simp [IsUnion, ha]) (by simp [IsUnion, hb]) hp
  · exact leaves ⟨cs, hcs⟩ ⟨cs', hcs'⟩

theorem bisimilar_of_equal (hs : s.Grounded) (h : g.equal t u = .ok true) : s.Bisimilar g t u :=
  (equalRoots_of_equalUpTo (equalUpTo_of_equal h)).bisimilar hs

end Substitution

end TypeInference
