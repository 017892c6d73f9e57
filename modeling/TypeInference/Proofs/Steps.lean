import TypeInference.Proofs.LeafCases
import TypeInference.Proofs.Occurrences
import TypeInference.Proofs.Runs

/-! # What a step does to a state

A rule of the solver settles the constraint, puts it back, binds an unbound variable, trades it for relations between
parts, or leaves a choice for later. `Effect` lists this once, and `matchTypes_effect` and `matchMember_effect` say that
there is nothing else. -/

namespace TypeInference.Solver

open Substitution
open List

variable {d c : Constraint} {v : Int} {cs : List Constraint} {m : Member} {i j : NodeId} {σ : Substitution}
  {right left : Ty}

/-! ### The work of a state -/

@[simp] theorem subst_pushAll (s : State) (cs : List Constraint) : (s.pushAll cs).subst = s.subst := by
  induction cs generalizing s with
  | nil => rfl
  | cons c cs ih => exact ih (s.push c)

theorem mem_pushAll {s : State} : d ∈ (s.pushAll cs).work ↔ d ∈ cs ∨ d ∈ s.work := by
  induction cs generalizing s with
  | nil => simp [State.pushAll]
  | cons c cs ih =>
    have h : (s.pushAll (c :: cs)) = (s.push c).pushAll cs := rfl
    rw [h, ih]
    simp only [State.push, mem_cons]
    tauto

theorem pushAll_pushAll (s : State) (cs ds : List Constraint) : (s.pushAll cs).pushAll ds = s.pushAll (cs ++ ds) := by
  simp [State.pushAll, foldl_append]

theorem mem_initial {assumed : Substitution} : c ∈ (State.initial cs assumed).work ↔ c ∈ cs := by
  simp [State.initial]

theorem lookup_of_lookupVar? {t : Ty} (h : σ.lookupVar? t = some v) : σ.lookup t = .var v := by
  unfold lookupVar? at h
  split at h
  · next hv =>
    cases h
    exact hv
  · cases h

/-- What is taken out of the work is a conformance between two variables, and the rest of the work stays. -/
theorem takeUnknown_perm : ∀ {work rest : List Constraint} {v w : Int},
    takeUnknown σ work = some ((v, w), rest) → ∃ t u location, σ.lookup t = .var v ∧ σ.lookup u = .var w ∧
      work.Perm (.conformance t u location :: rest)
  | [], rest, v, w, h => by cases h
  | c :: work, rest, v, w, h => by
    unfold takeUnknown at h
    dsimp only at h
    split at h
    · next hhere =>
      cases h
      split at hhere
      · next t u location =>
        split at hhere
        · next ht hu =>
          cases hhere
          exact ⟨t, u, location, lookup_of_lookupVar? ht, lookup_of_lookupVar? hu, .refl _⟩
        · cases hhere
      · cases hhere
    · obtain ⟨⟨⟨v', w'⟩, rest'⟩, htake, heq⟩ := Option.map_eq_some_iff.mp h
      cases heq
      obtain ⟨t, u, location, ht, hu, hperm⟩ := takeUnknown_perm htake
      exact ⟨t, u, location, ht, hu, (hperm.cons c).trans (.swap _ c rest')⟩

theorem takeUnknown_spec {work rest : List Constraint} {w : Int} (h : takeUnknown σ work = some ((v, w), rest)) :
    ∃ t u location, σ.lookup t = .var v ∧ σ.lookup u = .var w ∧ ∀ d, d ∈ work ↔ d = .conformance t u location ∨
    d ∈ rest := by
  obtain ⟨t, u, location, ht, hu, hperm⟩ := takeUnknown_perm h
  exact ⟨t, u, location, ht, hu, fun d => hperm.mem_iff.trans mem_cons⟩

/-! ### Effects -/

/-- The constraint relates two types that can be found from `c`, and comes from the place of `c` or from inside it. -/
def DerivedFrom (g : TypeGraph) (σ : Substitution) (c d : Constraint) : Prop :=
  ∃ rel t u steps, d = .relate rel t u (c.location.append steps) ∧ c.Reaches g σ t ∧ c.Reaches g σ u

/-- The constraint relates a type to one that is `b` under the table. -/
def RelatesTo (σ : Substitution) (b : Ty) (c : Constraint) : Prop :=
  ∃ rel t u location, c = .relate rel t u location ∧ σ.lookup u = b

/-- What becomes of the state below a constraint that is taken up. -/
inductive Effect (g : TypeGraph) (s : State) (c : Constraint) : State → Prop where
  | settled : Effect g s c s.progress
  | requeued : Effect g s c { s with work := s.work ++ [c], idle := s.idle + 1 }
  | bound {v : Int} {x y : Ty} (hv : s.subst.lookup x = .var v) (hx : c.Reaches g s.subst x)
      (hy : c.Reaches g s.subst y) : Effect g s c { s with subst := s.subst.bind v (s.subst.lookup y), idle := 0 }
  | pushed {cs : List Constraint} (hcs : ∀ d ∈ cs, DerivedFrom g s.subst c d) : Effect g s c (s.pushAll cs)
  /-- Parts of tuples count as progress even if there are none. -/
  | divided {cs : List Constraint} (hcs : ∀ d ∈ cs, DerivedFrom g s.subst c d) : Effect g s c (s.pushAll cs).progress
  | postponed {left : Ty} {j : NodeId} {cases ls : List Ty} (hj : g.get? j = some (.union cases))
      (hls : leafCases g s.subst j cases = .ok ls) (hc : RelatesTo s.subst (.node j) c) :
      Effect g s c (s.progress.enqueue (.oneOf (ls.map fun u => .conformance left u (c.location.append [.unionCase]))
        c.location))

variable {g : TypeGraph} {s s' : State} {rel : Relation} {t u : Ty} {location : Location} {events : List Event}

theorem append_nil (location : Location) : location.append [] = location := by
  simp [Location.append]

theorem reaches_leafCases {cases ls : List Ty} (hi : g.get? i = some (.union cases))
    (h : leafCases g s.subst i cases = .ok ls) : ∀ t ∈ ls, c.Reaches g s.subst t :=
  fun t ht => (leafCases_sound hi h t ht).reaches (.fixed (Ty.fixed_node i))

theorem derivedFrom_pushLeft {lefts : List Ty} (rel : Relation) (hlefts : ∀ t ∈ lefts, c.Reaches g s.subst t)
    (hright : c.Reaches g s.subst right) :
    ∀ d ∈ lefts.map fun t => Constraint.relate rel t right (c.location.append [.unionCase]),
    DerivedFrom g s.subst c d := by
  intro d hd
  obtain ⟨t, ht, rfl⟩ := mem_map.mp hd
  exact ⟨rel, t, right, _, rfl, hlefts t ht, hright⟩

theorem matchLeftUnion_effect {cases : List Ty} (hi : g.get? i = some (.union cases))
    (hright : c.Reaches g s.subst right) (h : matchLeftUnion g s rel i cases right c.location = .ok (.next s' events)) :
    Effect g s c s' := by
  unfold matchLeftUnion at h
  obtain ⟨lefts, hlefts, h⟩ := bind_eq_ok.mp h
  have hleft := reaches_leafCases (c := c) hi hlefts
  split at h
  · next j cases' hunion =>
    split at h
    · cases h
      exact .pushed (derivedFrom_pushLeft _ hleft hright)
    · obtain ⟨rights, hrights, h⟩ := bind_eq_ok.mp h
      cases h
      obtain ⟨k, hk, hj⟩ := unionCases?_eq_some.mp hunion
      cases hk
      rw [State.pushLeft, subst_pushAll] at hrights
      rw [State.pushLeft, State.pushLeft, pushAll_pushAll]
      exact .pushed (forall_mem_append.mpr ⟨derivedFrom_pushLeft _ hleft hright,
        derivedFrom_pushLeft _ (reaches_leafCases hj hrights) (.fixed (Ty.fixed_node i))⟩)
  · cases h
    exact .pushed (derivedFrom_pushLeft _ hleft hright)

theorem matchRightUnion_effect {cases : List Ty} (hj : g.get? j = some (.union cases))
    (hc : RelatesTo s.subst (.node j) c) (h : matchRightUnion g s left j cases c.location = .ok (.next s' events)) :
    Effect g s c s' := by
  unfold matchRightUnion at h
  obtain ⟨rights, hrights, h⟩ := bind_eq_ok.mp h
  obtain ⟨known, -, h⟩ := bind_eq_ok.mp h
  cases known with
  | true =>
    cases h
    exact .settled
  | false =>
    cases h
    exact .postponed hj hrights hc

theorem reaches_domainType (d : Option NodeId) : c.Reaches g s.subst (domainType d) := by
  cases d with
  | none => exact .fixed fun v hv => by cases hv
  | some d => exact .fixed (Ty.fixed_node d)

theorem matchParts_effect {x y : Composite} (hi : g.get? i = some x) (hj : g.get? j = some y)
    (h : matchParts s rel c.location x y = .next s' events) : Effect g s c s' := by
  unfold matchParts at h
  split at h
  · next d a d' b =>
    cases h
    show Effect g s c (s.pushAll [.relate rel (domainType d) (domainType d') (c.location.append [.domain]),
      .relate rel a b (c.location.append [.codomain])])
    refine .pushed (forall_mem_cons.mpr ⟨?_, forall_mem_singleton.mpr ?_⟩)
    · exact ⟨rel, _, _, _, rfl, reaches_domainType d, reaches_domainType d'⟩
    · exact ⟨rel, a, b, _, rfl, .part hi (by simp [Composite.parts]), .part hj (by simp [Composite.parts])⟩
  · split at h
    · cases h
      refine .divided fun d hd => ?_
      obtain ⟨⟨⟨f, f'⟩, k⟩, hf, rfl⟩ := mem_map.mp hd
      have hzip := of_mem_zip (fst_mem_of_mem_zipIdx hf)
      exact ⟨rel, f.type, f'.type, _, rfl, .part hi (mem_map_of_mem hzip.1), .part hj (mem_map_of_mem hzip.2)⟩
    · cases h
  · next a b =>
    cases h
    show Effect g s c (s.pushAll [.relate rel a b c.location])
    refine .pushed (forall_mem_singleton.mpr ⟨rel, a, b, [], by rw [append_nil], ?_, ?_⟩)
    · exact .part hi (by simp [Composite.parts])
    · exact .part hj (by simp [Composite.parts])
  · cases h

theorem matchComposite_effect (hc : RelatesTo s.subst right c)
    (h : matchComposite g s rel left right c.location = .ok (.next s' events)) : Effect g s c s' := by
  have hright : c.Reaches g s.subst right := by
    obtain ⟨rel, t, u, location, rfl, rfl⟩ := hc
    exact .lookup (.mentioned .right)
  unfold matchComposite at h
  split at h
  · next hunion =>
    obtain ⟨i, hi, hget⟩ := unionCases?_eq_some.mp hunion
    cases hi
    exact matchLeftUnion_effect hget hright h
  · next hunion =>
    obtain ⟨j, hj, hget⟩ := unionCases?_eq_some.mp hunion
    cases hj
    exact matchRightUnion_effect hget hc h
  · obtain ⟨x, hx, h⟩ := bind_eq_ok.mp h
    obtain ⟨y, hy, h⟩ := bind_eq_ok.mp h
    exact matchParts_effect (get?_of_get hx) (get?_of_get hy) (by simpa using h)
  · cases h

theorem matchTypes_effect (h : matchTypes g s rel t u location = .ok (.next s' events)) :
    Effect g s (.relate rel t u location) s' := by
  unfold matchTypes at h
  obtain ⟨equal, -, h⟩ := bind_eq_ok.mp h
  cases equal with
  | true =>
    cases h
    exact .settled
  | false =>
    simp only [Bool.false_eq_true, if_false] at h
    split at h
    · cases h
      exact .requeued
    · next ht _ _ =>
      cases h
      exact .bound ht (.mentioned .left) (.mentioned .right)
    · next hu _ _ _ =>
      cases h
      exact .bound hu (.mentioned .right) (.mentioned .left)
    · exact matchComposite_effect (c := .relate _ t u location) ⟨_, t, u, location, rfl, rfl⟩ h

theorem mem_of_field? {fields : List TupleField} {f : TupleField} (h : m.field? fields = some f) : f ∈ fields := by
  cases m with
  | label l => exact mem_of_find?_eq_some h
  | index i =>
    unfold Member.field? at h
    dsimp only at h
    split at h
    · cases h
    · exact mem_of_getElem? h

theorem matchMember_effect (h : matchMember g s t m u location = .next s' events) :
    Effect g s (.member t m u location) s' := by
  unfold matchMember at h
  dsimp only at h
  split at h
  · cases h
    exact .requeued
  · next htuple _ =>
    split at h
    · next f hfield =>
      cases h
      obtain ⟨i, -, hi⟩ := tuple?_eq_some.mp htuple
      show Effect g s _ (s.pushAll [.equality u f.type location])
      refine .pushed (forall_mem_singleton.mpr ⟨.equality, u, f.type,
        [], by rw [append_nil]; rfl, .mentioned .value, ?_⟩)
      exact .part hi (mem_map_of_mem (mem_of_field? hfield))
    · cases h
  · cases h

/-! ### The work after a step -/

/-- The constraint asks that a type fits one of the leaf cases of the union that `c` relates it to. -/
inductive CaseChoice (g : TypeGraph) (σ : Substitution) (c : Constraint) : Constraint → Prop where
  | intro {left : Ty} {j : NodeId} {cases ls : List Ty} {path location : Location} (hc : RelatesTo σ (.node j) c)
      (hj : g.get? j = some (.union cases)) (hls : leafCases g σ j cases = .ok ls) :
      CaseChoice g σ c (.oneOf (ls.map fun u => .conformance left u path) location)

theorem DerivedFrom.relates (h : DerivedFrom g σ c d) : ∃ rel t u location, d = .relate rel t u location := by
  obtain ⟨rel, t, u, steps, rfl, -, -⟩ := h
  exact ⟨rel, t, u, _, rfl⟩

theorem Effect.mem_work (h : Effect g s c s') (hd : d ∈ s'.work) :
    d = c ∨ d ∈ s.work ∨ (∃ rel t u location, d = .relate rel t u location) ∨ CaseChoice g s.subst c d := by
  cases h with
  | settled => exact .inr (.inl hd)
  | bound => exact .inr (.inl hd)
  | requeued =>
    rcases mem_append.mp hd with hd | hd
    · exact .inr (.inl hd)
    · exact .inl (mem_singleton.mp hd)
  | pushed hcs =>
    rcases mem_pushAll.mp hd with hd | hd
    · exact .inr (.inr (.inl (hcs d hd).relates))
    · exact .inr (.inl hd)
  | divided hcs =>
    rcases mem_pushAll.mp hd with hd | hd
    · exact .inr (.inr (.inl (hcs d hd).relates))
    · exact .inr (.inl hd)
  | postponed hj hls hc =>
    rcases mem_append.mp hd with hd | hd
    · exact .inr (.inl hd)
    · exact .inr (.inr (.inr (mem_singleton.mp hd ▸ .intro hc hj hls)))

theorem Advance.mem_work (h : Advance g s s') (hd : d ∈ s'.work) :
    d ∈ s.work ∨ (∃ rel t u location, d = .relate rel t u location) ∨ ∃ c rest, s.work = c :: rest ∧
    CaseChoice g s.subst c d := by
  have top : ∀ {c : Constraint} {rest : List Constraint}, s.work = c :: rest → Effect g (s.below rest) c s' →
      d ∈ s.work ∨ (∃ rel t u location, d = .relate rel t u location) ∨ ∃ c rest, s.work = c :: rest ∧
      CaseChoice g s.subst c d := by
    intro c rest hwork heffect
    rcases heffect.mem_work hd with rfl | hd | hrelates | hcases
    · exact .inl (hwork ▸ mem_cons_self)
    · exact .inl (hwork ▸ mem_cons_of_mem c hd)
    · exact .inr (.inl hrelates)
    · exact .inr (.inr ⟨c, rest, hwork, hcases⟩)
  cases h with
  | unstall _ h =>
    unfold Solver.unstall at h
    obtain ⟨⟨⟨v, w⟩, rest⟩, htake, h⟩ := Option.map_eq_some_iff.mp h
    obtain ⟨t, u, location, -, -, hwork⟩ := takeUnknown_spec htake
    cases h
    exact .inl ((hwork d).mpr (.inr hd))
  | relate hwork _ h => exact top hwork (matchTypes_effect h)
  | member hwork _ h => exact top hwork (matchMember_effect h)

end TypeInference.Solver
