import TypeInference.Proofs.Bisimilarity

/-! # Where types occur

A type occurs in composite types (`Composite.parts`) and in constraints (`Constraint.Mentions`); `Constraint.Reaches`
adds what such types resolve to. A variable that occurs in none of these places is out of reach of the solver
(`Reaches.ne_var`). -/

namespace TypeInference

variable {w : Int} {choices : List Constraint}

/-- The types right inside a composite type. A domain is not among them: it is composite again. -/
def Composite.parts : Composite → List Ty
  | .metatype of => [of]
  | .function _ codomain => [codomain]
  | .tuple _ fields => fields.map TupleField.type
  | .union cases => cases

/-- The constraint, or one of its choices, speaks of the type. -/
inductive Constraint.Mentions (x : Ty) : Constraint → Prop where
  | left {rel : Relation} {u : Ty} {location : Location} : Mentions x (.relate rel x u location)
  | right {rel : Relation} {t : Ty} {location : Location} : Mentions x (.relate rel t x location)
  | owner {m : Member} {u : Ty} {location : Location} : Mentions x (.member x m u location)
  | value {m : Member} {t : Ty} {location : Location} : Mentions x (.member t m x location)
  | choice {choices : List Constraint} {location : Location} {c : Constraint} (hc : c ∈ choices) (h : Mentions x c) :
      Mentions x (.oneOf choices location)

namespace Constraint

variable {x t u : Ty} {location : Location}

@[simp] theorem mentions_relate {rel : Relation} : Mentions x (.relate rel t u location) ↔ x = t ∨ x = u := by
  constructor
  · rintro (_ | _) <;> simp
  · rintro (rfl | rfl)
    · exact .left
    · exact .right

@[simp] theorem mentions_member {m : Member} : Mentions x (.member t m u location) ↔ x = t ∨ x = u := by
  constructor
  · rintro (_ | _) <;> simp
  · rintro (rfl | rfl)
    · exact .owner
    · exact .value

@[simp] theorem mentions_oneOf : Mentions x (.oneOf choices location) ↔ ∃ c ∈ choices, Mentions x c := by
  constructor
  · intro h
    cases h with
    | choice hc h => exact ⟨_, hc, h⟩
  · rintro ⟨c, hc, h⟩
    exact .choice hc h

end Constraint

/-- The constraint is part of another one: the constraint itself, or part of one of its choices. -/
inductive Solver.Within (d : Constraint) : Constraint → Prop where
  | self : Within d d
  | choice {choices : List Constraint} {location : Location} {c : Constraint} (hc : c ∈ choices) (h : Within d c) :
      Within d (.oneOf choices location)

/-- The constraint is of a known kind, and so are its choices. -/
def Constraint.Known (c : Constraint) : Prop := ∀ kind location, ¬ Solver.Within (.unknown kind location) c

namespace Constraint

theorem known_relate (rel : Relation) (t u : Ty) (location : Location) :
    Known (.relate rel t u location) := fun _ _ h => by cases h

theorem known_member (t : Ty) (m : Member) (u : Ty) (location : Location) :
    Known (.member t m u location) := fun _ _ h => by cases h

theorem known_oneOf (location : Location) (h : ∀ c ∈ choices, c.Known) : Known (.oneOf choices location) := by
  intro kind location' hwithin
  cases hwithin with
  | choice hc hwithin => exact h _ hc kind location' hwithin

end Constraint

def Ty.Fixed (t : Ty) : Prop := ∀ v, t ≠ .var v

@[simp] theorem Ty.fixed_node (i : NodeId) : Ty.Fixed (.node i) := fun _ h => by cases h

@[simp] theorem Ty.fixed_scalar (s : Scalar) : Ty.Fixed (.scalar s) := fun _ h => by cases h

@[simp] theorem Ty.fixed_error : Ty.Fixed .error := fun _ h => by cases h

/-! ### Reach -/

/-- The types that can be found from the constraint: those it speaks of, those in composite types, and what they resolve
to. -/
inductive Constraint.Reaches (g : TypeGraph) (σ : Substitution) (c : Constraint) : Ty → Prop where
  | mentioned {t : Ty} (h : c.Mentions t) : Reaches g σ c t
  | part {t : Ty} {i : NodeId} {x : Composite} (hi : g.get? i = some x) (ht : t ∈ x.parts) : Reaches g σ c t
  | fixed {t : Ty} (ht : t.Fixed) : Reaches g σ c t
  | lookup {t : Ty} (h : Reaches g σ c t) : Reaches g σ c (σ.lookup t)

/-- No variable is bound to the variable. -/
def Substitution.Avoids (σ : Substitution) (v : Int) : Prop := ∀ w, σ.get? w ≠ some (.var v)

/-- The variable occurs in no composite type. -/
def TypeGraph.Avoids (g : TypeGraph) (v : Int) : Prop := ∀ i x, g.get? i = some x → .var v ∉ x.parts

section

variable {g : TypeGraph} {σ : Substitution} {c : Constraint} {t : Ty} {v : Int}

theorem Substitution.Chain.ne_var {u : Ty} {vs : List Int} (h : σ.Chain t vs u) (hσ : σ.Avoids v) (ht : t ≠ .var v) :
    u ≠ .var v := by
  induction h with
  | stop => exact ht
  | link hget _ ih =>
    refine ih fun heq => ?_
    rw [heq] at hget
    exact hσ _ hget

theorem Substitution.lookup_ne_var (hground : σ.Grounded) (hσ : σ.Avoids v) (ht : t ≠ .var v) :
    σ.lookup t ≠ .var v := by
  obtain ⟨vs, u, hchain⟩ := hground t
  rw [hchain.lookup_eq]
  exact hchain.ne_var hσ ht

theorem Substitution.get?_bind_ne (hw : v ≠ w) : (σ.bind w t).get? v = σ.get? v := by
  by_cases hself : t = .var w
  · rw [Substitution.bind, if_pos hself]
  · rw [get?_bind σ hself, if_neg hw]

theorem Substitution.Avoids.bind (h : σ.Avoids v) (ht : t ≠ .var v) : (σ.bind w t).Avoids v := by
  intro x hx
  by_cases hself : t = .var w
  · rw [Substitution.bind, if_pos hself] at hx
    exact h x hx
  · rw [get?_bind σ hself] at hx
    split at hx
    · exact ht (Option.some.inj hx)
    · exact h x hx

theorem Constraint.Reaches.ne_var (h : c.Reaches g σ t) (hground : σ.Grounded) (hg : g.Avoids v) (hσ : σ.Avoids v)
    (hc : ¬ c.Mentions (.var v)) : t ≠ .var v := by
  induction h with
  | mentioned h =>
    rintro rfl
    exact hc h
  | part hi ht =>
    rintro rfl
    exact hg _ _ hi ht
  | fixed ht => exact ht v
  | lookup _ ih => exact Substitution.lookup_ne_var hground hσ ih

theorem Substitution.Leaf.reaches {x : Ty} (hx : σ.Leaf g t x) (ht : c.Reaches g σ t) : c.Reaches g σ x := by
  induction hx with
  | self => exact .lookup ht
  | case hcases hc _ ih =>
    obtain ⟨i, -, hi⟩ := unionCases?_eq_some.mp hcases
    exact ih (.part hi hc)

end

end TypeInference
