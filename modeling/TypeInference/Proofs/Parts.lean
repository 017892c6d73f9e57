import TypeInference.Proofs.Precedence

/-! # Composite types part by part

Two composite types that are no unions are related by relating their parts (`Composite.Agree`), and the solver asks for
just that (`matchParts_next`); where it sees a mismatch no relation can hold (`not_agree_of_mismatch`). -/

namespace TypeInference

open List

variable {g : TypeGraph} {R : Ty → Ty → Prop} {t u : Ty} {x y : Composite}

/-- The composite types have one shape, are no unions and have their parts in the relation. -/
def Composite.Agree (R : Ty → Ty → Prop) : Composite → Composite → Prop
  | .metatype t, .metatype u => R t u
  | .function d c, .function d' c' => R (Solver.domainType d) (Solver.domainType d') ∧ R c c'
  | .tuple l fs, .tuple l' fs' => sameShape l fs l' fs' = true ∧ List.Forall₂ (fun f f' => R f.type f'.type) fs fs'
  | _, _ => False

theorem Composite.agree_self (hR : ∀ t, R t t) (hx : ∀ cases, x ≠ .union cases) : x.Agree R x := by
  cases x with
  | metatype t => exact hR t
  | function d c => exact ⟨hR _, hR _⟩
  | tuple l fs => exact ⟨sameShape_iff.mpr ⟨rfl, rfl⟩, forall₂_same.mpr fun f _ => hR f.type⟩
  | union cases => exact absurd rfl (hx cases)

theorem congruent_node_iff {i j : NodeId} (hR : ∀ t, R t t) (hi : g.get? i = some x) (hj : g.get? j = some y)
    (hx : ∀ cases, x ≠ .union cases) : Congruent g R (.node i) (.node j) ↔ x.Agree R y := by
  constructor
  · intro h
    cases h with
    | same =>
      cases hi.symm.trans hj
      exact Composite.agree_self hR hx
    | metatype hi' hj' h =>
      cases hi.symm.trans hi'
      cases hj.symm.trans hj'
      exact h
    | function hi' hj' domain codomain =>
      cases hi.symm.trans hi'
      cases hj.symm.trans hj'
      exact ⟨domain, codomain⟩
    | tuple hi' hj' shape fields =>
      cases hi.symm.trans hi'
      cases hj.symm.trans hj'
      exact ⟨shape, fields⟩
  · intro h
    unfold Composite.Agree at h
    split at h
    · exact .metatype hi hj h
    · exact .function hi hj h.1 h.2
    · exact .tuple hi hj h.1 h.2
    · exact h.elim

namespace Solver

variable {s s' : State} {rel : Relation} {location : Location} {events : List Event} {cs : List Constraint}

/-! ### Constraints that ask for one relation -/

/-- All constraints ask for the relation `rel`, between types for which `R` holds. -/
def Relates (rel : Relation) (R : Ty → Ty → Prop) (cs : List Constraint) : Prop :=
  ∀ c ∈ cs, ∃ t u location, c = .relate rel t u location ∧ R t u

theorem relates_nil : Relates rel R [] := forall_mem_nil _

theorem relates_cons : Relates rel R (.relate rel t u location :: cs) ↔ R t u ∧ Relates rel R cs := by
  refine forall_mem_cons.trans (and_congr_left fun _ => ⟨?_, fun h => ⟨t, u, location, rfl, h⟩⟩)
  rintro ⟨t', u', location', heq, h⟩
  cases heq
  exact h

theorem relates_initial {assumed : Substitution} : Relates rel R (State.initial cs assumed).work ↔
    Relates rel R cs := by
  simp only [Relates, mem_initial]

theorem relates_perm {cs' : List Constraint} (h : cs.Perm cs') : Relates rel R cs ↔ Relates rel R cs' := by
  simp only [Relates, h.mem_iff]

theorem relates_fields {fs fs' : List TupleField} (hlength : fs.length = fs'.length) :
    Relates rel R ((fs.zip fs').zipIdx.map fun p =>
    .relate rel p.1.1.type p.1.2.type (location.append [.element p.2])) ↔
      Forall₂ (fun f f' => R f.type f'.type) fs fs' := by
  rw [forall₂_iff_zip]
  constructor
  · intro h
    refine ⟨hlength, fun {f f'} hf => ?_⟩
    obtain ⟨k, hk⟩ := mem_iff_getElem?.mp hf
    obtain ⟨t, u, location', heq, hR⟩ := h _ (mem_map_of_mem (mk_mem_zipIdx_iff_getElem?.mpr hk))
    cases heq
    exact hR
  · rintro ⟨-, h⟩ c hc
    obtain ⟨p, hp, rfl⟩ := mem_map.mp hc
    exact ⟨_, _, _, rfl, h (fst_mem_of_mem_zipIdx hp)⟩

/-! ### Steps into composite types -/

/-- The step puts the constraints in place of the one that was taken up. -/
structure Puts (s : State) (cs : List Constraint) (s' : State) : Prop where
  work : ∀ d, d ∈ s'.work ↔ d ∈ cs ∨ d ∈ s.work
  subst : s'.subst = s.subst
  idle : s'.idle ≤ s.idle

theorem puts_pushAll (s : State) (cs : List Constraint) : Puts s cs (s.pushAll cs) :=
  ⟨fun _ => mem_pushAll, subst_pushAll s cs, idle_pushAll s cs⟩

theorem puts_progress (s : State) : Puts s [] s.progress := ⟨fun d => by simp [State.progress], rfl, Nat.zero_le _⟩

theorem puts_enqueue (s : State) (c : Constraint) : Puts s [c] (s.progress.enqueue c) := by
  refine ⟨fun d => ?_, rfl, Nat.zero_le _⟩
  rw [or_comm]
  exact mem_append

theorem Puts.forall_work {P : Constraint → Prop} (h : Puts s cs s') : (∀ c ∈ s'.work, P c) ↔ (∀ c ∈ cs, P c) ∧
    ∀ c ∈ s.work, P c := by
  simp only [h.work, or_imp, forall_and]

/-- In place of a relation between composite types the same is asked of their parts, and nothing else. -/
theorem matchParts_next (h : matchParts s rel location x y = .next s' events) :
    ∃ cs, Puts s cs s' ∧ ∀ R, Relates rel R cs ↔ x.Agree R y := by
  unfold matchParts at h
  split at h
  · next d c d' c' =>
    cases h
    refine ⟨[.relate rel (domainType d) (domainType d') _, .relate rel c c' _], puts_pushAll s _, fun R => ?_⟩
    rw [relates_cons, relates_cons, and_iff_left relates_nil]
    rfl
  · split at h
    · next hshape =>
      cases h
      refine ⟨_, ⟨(puts_pushAll s _).work, subst_pushAll s _, Nat.zero_le _⟩, fun R => ?_⟩
      exact (relates_fields (length_eq_of_sameShape hshape)).trans (and_iff_right hshape).symm
    · cases h
  · next t u =>
    cases h
    exact ⟨[.relate rel t u location], puts_pushAll s _, fun R => relates_cons.trans (and_iff_left relates_nil)⟩
  · cases h

theorem not_agree_of_mismatch (h : matchParts s rel location x y = .mismatch) : ¬ x.Agree R y := by
  unfold matchParts at h
  split at h
  · cases h
  · split at h
    · cases h
    · next hshape => exact fun hagree => hshape hagree.1
  · cases h
  · next hfunction htuple hmetatype =>
    intro hagree
    unfold Composite.Agree at hagree
    split at hagree
    · exact hmetatype _ _ rfl rfl
    · exact hfunction _ _ _ _ rfl rfl
    · exact htuple _ _ _ _ rfl rfl
    · exact hagree

theorem agree_of_next {F : Ty → Prop} (hx : ∀ t ∈ x.parts, F t) (hy : ∀ t ∈ y.parts, F t)
    (hdx : ∀ d c, x = .function d c → F (domainType d)) (hdy : ∀ d c, y = .function d c → F (domainType d))
    (h : matchParts s rel location x y = .next s' events) : x.Agree (fun t u => F t ∧ F u) y := by
  unfold matchParts at h
  split at h
  · exact ⟨⟨hdx _ _ rfl, hdy _ _ rfl⟩, hx _ (by simp [Composite.parts]), hy _ (by simp [Composite.parts])⟩
  · split at h
    · next hshape =>
      refine ⟨hshape, forall₂_iff_zip.mpr ⟨length_eq_of_sameShape hshape, fun {f f'} hf => ?_⟩⟩
      have hmem := of_mem_zip hf
      exact ⟨hx _ (mem_map_of_mem hmem.1), hy _ (mem_map_of_mem hmem.2)⟩
    · cases h
  · exact ⟨hx _ (by simp [Composite.parts]), hy _ (by simp [Composite.parts])⟩
  · cases h

end Solver

end TypeInference
