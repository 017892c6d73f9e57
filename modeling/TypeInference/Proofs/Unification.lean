import TypeInference.Proofs.Outcomes
import TypeInference.Proofs.Parts
import TypeInference.Proofs.Resolution

/-! # Equalities are unified

Between types that no union can be reached from, the solver is a unification procedure without an occurs check. A
solution is an assignment of regular types to variables (`Assignment`). Every step on an equality keeps the assignments
that solve the state (`Advance.equational`), and a mismatch leaves none (`Mismatch.unsolvable`), so a run ends with a
table that describes all assignments or with the proof that there are none. -/

namespace TypeInference

open Substitution

variable {g : TypeGraph} {x : Composite} {t u : Ty} {i : NodeId} {v : Int} {σ : Substitution}

/-! ### Types without unions -/

def TypeGraph.UnionFree (g : TypeGraph) (t : Ty) : Prop := ∀ u, g.Reaches t u → g.unionCases? u = none

namespace TypeGraph.UnionFree

theorem unionCases? (h : g.UnionFree t) : g.unionCases? t = none := h t (.refl t)

theorem part (h : g.UnionFree (.node i)) (hi : g.get? i = some x) (ht : t ∈ x.parts) : g.UnionFree t :=
  fun u hu => h u (.part hi ht hu)

theorem domain {d : Option NodeId} {c : Ty} (h : g.UnionFree (.node i)) (hi : g.get? i = some (.function d c)) :
    g.UnionFree (Solver.domainType d) := by
  intro u hu
  cases d with
  | none =>
    cases hu
    rfl
  | some d => exact h u (.domain hi hu)

theorem of_get? (h : ∀ i cases, g.get? i ≠ some (.union cases)) (t : Ty) : g.UnionFree t := by
  intro u _
  refine Option.eq_none_iff_forall_ne_some.mpr fun cases hu => ?_
  obtain ⟨i, -, hi⟩ := unionCases?_eq_some.mp hu
  exact h i cases hi

end TypeGraph.UnionFree

theorem TypeGraph.UnionFree.ne_union (h : g.UnionFree (.node i)) (hi : g.get? i = some x) (cases : List Ty) :
    x ≠ .union cases := by
  rintro rfl
  have := h.unionCases?
  simp [TypeGraph.unionCases?, hi] at this

/-! ### Assignments -/

section Assignments

variable {G : TypeGraph} {R : Ty → Ty → Prop}

/-- What is closed under a step of comparison is bisimilar: the greatest such relation is a fixed point. -/
theorem Substitution.bisimilar_of_matches (h : σ.Matches g (σ.Bisimilar g) t u) : σ.Bisimilar g t u := by
  refine ⟨fun a b => σ.Bisimilar g a b ∨ σ.Matches g (σ.Bisimilar g) a b, fun a b hab => ?_, .inr h⟩
  have hmatches : σ.Matches g (σ.Bisimilar g) a b := hab.elim Bisimilar.matches id
  cases hmatches with
  | unions ha hb left right =>
    refine .unions ha hb (fun x hx => ?_) (fun y hy => ?_)
    · obtain ⟨y, hy, hxy⟩ := left x hx
      exact ⟨y, hy, .inl hxy⟩
    · obtain ⟨x, hx, hxy⟩ := right y hy
      exact ⟨x, hx, .inl hxy⟩
  | others ha hb h => exact .others ha hb (h.mono fun _ _ => .inl)

theorem Congruent.extends (hG : g.Extends G) (h : Congruent g R t u) : Congruent G R t u := by
  cases h with
  | same => exact .same _
  | metatype hi hj h => exact .metatype (hG _ _ hi) (hG _ _ hj) h
  | function hi hj hd hc => exact .function (hG _ _ hi) (hG _ _ hj) hd hc
  | tuple hi hj shape fields => exact .tuple (hG _ _ hi) (hG _ _ hj) shape fields

theorem EqualUpTo.extends (hG : g.Extends G) {assumed : List (NodeId × NodeId)} (h : EqualUpTo g assumed t u) :
    EqualUpTo G assumed t u := by
  obtain ⟨R, hR, htu⟩ := h
  refine ⟨R, fun a b hab => ?_, htu⟩
  cases hR a b hab with
  | parts h => exact .parts (h.extends hG)
  | unions hi hj left right => exact .unions (hG _ _ hi) (hG _ _ hj) left right

/-- An assignment of regular types to the variables of a graph: a table over a graph that may have more types, in which
every chain of variables ends. -/
structure Assignment (g : TypeGraph) where
  graph : TypeGraph
  table : Substitution
  kept : g.Extends graph
  grounded : table.Grounded

namespace Assignment

variable (A : Assignment g)

/-- The types are the same once every variable has the type that is assigned to it. -/
def Same (t u : Ty) : Prop := A.table.Bisimilar A.graph t u

/-- Every variable that the table binds is assigned what the table says. -/
def Agrees (σ : Substitution) : Prop := ∀ v t, σ.get? v = some t → A.Same (.var v) t

variable {A}

theorem Same.refl (t : Ty) : A.Same t t := Bisimilar.refl _ _ t

theorem Same.symm (h : A.Same t u) : A.Same u t := Bisimilar.symm h

theorem Same.trans {w : Ty} (h : A.Same t u) (h' : A.Same u w) : A.Same t w := Bisimilar.trans h h'

theorem same_of_equal (h : g.equal t u = .ok true) : A.Same t u :=
  (equalRoots_of_equalUpTo ((equalUpTo_of_equal h).extends A.kept)).bisimilar A.grounded

theorem Agrees.same_lookup (h : A.Agrees σ) (hσ : σ.Grounded) (t : Ty) : A.Same t (σ.lookup t) := by
  obtain ⟨vs, u, hchain⟩ := hσ t
  rw [hchain.lookup_eq]
  induction hchain with
  | stop _ => exact .refl _
  | link hv _ ih => exact (h _ _ hv).trans ih

theorem Agrees.same_iff (h : A.Agrees σ) (hσ : σ.Grounded) (t u : Ty) : A.Same t u ↔ A.Same (σ.lookup t) (σ.lookup u) :=
  ⟨fun htu => (h.same_lookup hσ t).symm.trans (htu.trans (h.same_lookup hσ u)),
    fun htu => (h.same_lookup hσ t).trans (htu.trans (h.same_lookup hσ u).symm)⟩

theorem agrees_bind (hv : σ.get? v = none) (ht : t ≠ .var v) : A.Agrees (σ.bind v t) ↔ A.Agrees σ ∧
    A.Same (.var v) t := by
  constructor
  · intro h
    refine ⟨fun w u hw => h w u (extends_bind hv w u hw), h v t ?_⟩
    rw [get?_bind _ ht, if_pos rfl]
  · rintro ⟨h, hvt⟩ w u hw
    rw [get?_bind _ ht] at hw
    split at hw
    · next hwv =>
      cases hw
      exact hwv ▸ hvt
    · exact h w u hw

/-- Two types other than variables and unions are the same if they agree part by part. -/
theorem same_iff_congruent (htv : ∀ v, t ≠ .var v) (huv : ∀ v, u ≠ .var v) (ht : A.graph.unionCases? t = none)
    (hu : A.graph.unionCases? u = none) : A.Same t u ↔ Congruent A.graph A.Same t u := by
  have hnot : ∀ {t}, (∀ v, t ≠ .var v) → A.graph.unionCases? t = none → ¬ A.table.IsUnion A.graph t := by
    rintro t htv ht ⟨cases, hcases⟩
    rw [lookup_of_ne_var htv, ht] at hcases
    cases hcases
  constructor
  · intro h
    cases Bisimilar.matches h with
    | unions ht' _ _ _ => exact absurd ht' (hnot htv ht)
    | others _ _ h =>
      rw [lookup_of_ne_var htv, lookup_of_ne_var huv] at h
      exact h
  · intro h
    refine bisimilar_of_matches (.others (hnot htv ht) (hnot huv hu) ?_)
    rw [lookup_of_ne_var htv, lookup_of_ne_var huv]
    exact h

theorem Same.eq_or_nodes (htv : ∀ v, t ≠ .var v) (huv : ∀ v, u ≠ .var v) (h : A.Same t u) :
    t = u ∨ ∃ i j, t = .node i ∧ u = .node j := by
  cases Bisimilar.matches h with
  | unions ht hu _ _ =>
    obtain ⟨_, ht⟩ := ht
    obtain ⟨_, hu⟩ := hu
    rw [lookup_of_ne_var htv] at ht
    rw [lookup_of_ne_var huv] at hu
    obtain ⟨i, hi, -⟩ := unionCases?_eq_some.mp ht
    obtain ⟨j, hj, -⟩ := unionCases?_eq_some.mp hu
    exact .inr ⟨i, j, hi, hj⟩
  | others _ _ h =>
    rw [lookup_of_ne_var htv, lookup_of_ne_var huv] at h
    cases h with
    | same => exact .inl rfl
    | metatype | function | tuple => exact .inr ⟨_, _, rfl, rfl⟩

theorem same_node_iff {j : NodeId} {y : Composite} (hi : g.get? i = some x) (hj : g.get? j = some y)
    (hx : ∀ cases, x ≠ .union cases) (hy : ∀ cases, y ≠ .union cases) :
    A.Same (.node i) (.node j) ↔ x.Agree A.Same y := by
  have hnone : ∀ {k z}, g.get? k = some z → (∀ cases, z ≠ .union cases) → A.graph.unionCases? (.node k) = none := by
    intro k z hk hz
    simp only [TypeGraph.unionCases?, A.kept k z hk]
    cases z with
    | union cases => exact absurd rfl (hz cases)
    | _ => rfl
  rw [same_iff_congruent (fun v hv => by cases hv) (fun v hv => by cases hv) (hnone hi hx) (hnone hj hy)]
  exact congruent_node_iff Same.refl (A.kept i x hi) (A.kept j y hj) hx

end Assignment

end Assignments

namespace Solver

variable {s s' : State} {location : Location} {events : List Event} {r : StepResult}

/-! ### Steps -/

/-- What becomes of an equality between types without unions, by what its sides resolve to. -/
inductive EqualityStep (g : TypeGraph) (s : State) (a b : Ty) (location : Location) : StepResult → Prop where
  | settled (h : g.equal a b = .ok true) : EqualityStep g s a b location (.quiet s.progress)
  | left {v : Int} (ha : a = .var v) (hb : b ≠ .var v) : EqualityStep g s a b location (s.bindVar v b)
  | right {v : Int} (hb : b = .var v) (ha : a ≠ .var v) : EqualityStep g s a b location (s.bindVar v a)
  | parts {i j : NodeId} {x y : Composite} (ha : a = .node i) (hb : b = .node j) (hi : g.get? i = some x)
      (hj : g.get? j = some y) : EqualityStep g s a b location (matchParts s .equality location x y)
  | clash (hne : a ≠ b) (ha : ∀ v, a ≠ .var v) (hb : ∀ v, b ≠ .var v) (hnodes : ∀ i j, a = .node i → b ≠ .node j) :
      EqualityStep g s a b location .mismatch

theorem equalityStep_of_matchTypes (ht : g.unionCases? (s.subst.lookup t) = none)
    (hu : g.unionCases? (s.subst.lookup u) = none) (h : matchTypes g s .equality t u location = .ok r) :
    EqualityStep g s (s.subst.lookup t) (s.subst.lookup u) location r := by
  unfold matchTypes at h
  obtain ⟨equal, hequal, hstep⟩ := bind_eq_ok.mp h
  clear h
  generalize s.subst.lookup t = a at *
  generalize s.subst.lookup u = b at *
  cases equal with
  | true =>
    cases hstep
    exact .settled hequal
  | false =>
    have hne : a ≠ b := by
      rintro rfl
      rw [equal_self] at hequal
      cases hequal
    simp only [Bool.false_eq_true, if_false] at hstep
    split at hstep
    · next heq => cases heq
    · cases hstep
      exact .left rfl hne.symm
    · cases hstep
      exact .right rfl hne
    · next hb hvars =>
      clear hvars
      unfold matchComposite at hstep
      split at hstep
      · next hunion => cases ht.symm.trans hunion
      · next hunion => cases hu.symm.trans hunion
      · obtain ⟨x, hx, h⟩ := bind_eq_ok.mp hstep
        obtain ⟨y, hy, h⟩ := bind_eq_ok.mp h
        cases h
        exact .parts rfl rfl (get?_of_get hx) (get?_of_get hy)
      · next hnodes ha _ _ =>
        cases hstep
        exact .clash hne ha hb hnodes

/-! ### States -/

section States

variable {c : Constraint} {rest : List Constraint}

/-- All that is left to do is to equate types without unions, and none are bound. -/
structure State.Equational (g : TypeGraph) (s : State) : Prop where
  work : Relates .equality (fun t u => g.UnionFree t ∧ g.UnionFree u) s.work
  table : ∀ v t, s.subst.get? v = some t → g.UnionFree t
  grounded : s.subst.Grounded
  idle : s.idle = 0

/-- The assignment solves what is left to do, and it agrees with what is bound. -/
def State.SolvedBy (s : State) (A : Assignment g) : Prop := Relates .equality A.Same s.work ∧ A.Agrees s.subst

theorem State.Equational.unionFree_lookup (hs : s.Equational g) (ht : g.UnionFree t) :
    g.UnionFree (s.subst.lookup t) := by
  obtain ⟨vs, u, hchain⟩ := hs.grounded t
  rw [hchain.lookup_eq]
  induction hchain with
  | stop _ => exact ht
  | link hv _ ih => exact ih (hs.table _ _ hv)

/-- A top equality between types without unions is one between what these resolve to. -/
theorem State.Equational.top (hs : s.Equational g) (hwork : s.work = .equality t u location :: rest) :
    g.UnionFree (s.subst.lookup t) ∧ g.UnionFree (s.subst.lookup u) ∧ (s.below rest).Equational g ∧
      ∀ A : Assignment g, s.SolvedBy A ↔ A.Same (s.subst.lookup t) (s.subst.lookup u) ∧ (s.below rest).SolvedBy A := by
  have hfree := hs.work
  rw [hwork, relates_cons] at hfree
  obtain ⟨⟨ht, hu⟩, hrest⟩ := hfree
  refine ⟨hs.unionFree_lookup ht, hs.unionFree_lookup hu, ⟨hrest, hs.table, hs.grounded, hs.idle⟩, fun A => ?_⟩
  show Relates .equality A.Same s.work ∧ A.Agrees s.subst ↔ _ ∧ Relates .equality A.Same rest ∧ A.Agrees s.subst
  rw [hwork, relates_cons, ← and_assoc]
  exact and_congr_left fun hA => and_congr_left fun _ => hA.same_iff hs.grounded t u

theorem State.Equational.bind (hs : s.Equational g) (hv : s.subst.get? v = none) (ht : t ≠ .var v)
    (hend : s.subst.IsEnd t) (hfree : g.UnionFree t) :
    State.Equational g { s with subst := s.subst.bind v t, idle := 0 } ∧
      ∀ A : Assignment g, A.Same (.var v) t ∧ s.SolvedBy A ↔
      State.SolvedBy { s with subst := s.subst.bind v t, idle := 0 } A := by
  refine ⟨⟨hs.work, fun w x hw => ?_, hs.grounded.bind hv hend, rfl⟩, fun A => ?_⟩
  · rw [get?_bind _ ht] at hw
    split at hw
    · cases hw
      exact hfree
    · exact hs.table w x hw
  · show A.Same (.var v) t ∧ Relates .equality A.Same s.work ∧ A.Agrees s.subst ↔ Relates .equality A.Same s.work ∧
        A.Agrees (s.subst.bind v t)
    rw [Assignment.agrees_bind hv ht, and_left_comm, and_comm (a := A.Same _ _)]

theorem State.Equational.not_stalled (hs : s.Equational g) : ¬ s.Stalled := fun h => Nat.lt_irrefl 0 (hs.idle ▸ h.1)

theorem State.Equational.top_eq (hs : s.Equational g) (hwork : s.work = c :: rest) :
    ∃ t u location, c = .equality t u location := by
  obtain ⟨t, u, location, hc, -⟩ := hs.work c (hwork ▸ List.mem_cons_self)
  exact ⟨t, u, location, hc⟩

theorem Advance.equational (h : Advance g s s') (hs : s.Equational g) :
    s'.Equational g ∧ ∀ A : Assignment g, s.SolvedBy A ↔ s'.SolvedBy A := by
  cases h with
  | unstall stalled h => exact absurd stalled hs.not_stalled
  | member work _ h =>
    obtain ⟨t, u, location, hc⟩ := hs.top_eq work
    cases hc
  | @relate rel t u location rest events work _ h =>
    obtain ⟨_, _, _, hc⟩ := hs.top_eq work
    cases hc
    obtain ⟨ht, hu, hbelow, hsolved⟩ := hs.top work
    simp only [hsolved]
    have hstep := equalityStep_of_matchTypes (s := s.below rest) ht.unionCases? hu.unionCases? h
    have hend := hs.grounded.isEnd_lookup
    change EqualityStep g (s.below rest) (s.subst.lookup t) (s.subst.lookup u) location _ at hstep
    generalize hr : StepResult.next s' events = r at hstep
    cases hstep with
    | settled hequal =>
      cases hr
      exact ⟨⟨hbelow.work, hbelow.table, hbelow.grounded, rfl⟩, fun A =>
        and_iff_right (Assignment.same_of_equal hequal)⟩
    | left ha hb =>
      cases hr
      rw [ha]
      exact hbelow.bind (hend t _ ha) hb (hend u) hu
    | right hb ha =>
      cases hr
      obtain ⟨hbind, hiff⟩ := hbelow.bind (hend u _ hb) ha (hend t) ht
      rw [hb]
      exact ⟨hbind, fun A => (and_congr_left fun _ => ⟨.symm, .symm⟩).trans (hiff A)⟩
    | parts ha hb hi hj =>
      obtain ⟨cs, hputs, hparts⟩ := matchParts_next hr.symm
      have hwork : ∀ R, Relates .equality R s'.work ↔ _ ∧ Relates .equality R (s.below rest).work := fun R =>
        hputs.forall_work.trans (and_congr_left fun _ => hparts R)
      rw [ha] at ht
      rw [hb] at hu
      have hagree := agree_of_next (F := g.UnionFree) (fun _ => ht.part hi) (fun _ => hu.part hj)
        (fun _ _ hx => ht.domain (hx ▸ hi)) (fun _ _ hy => hu.domain (hy ▸ hj)) hr.symm
      refine ⟨⟨(hwork _).mpr ⟨hagree, hbelow.work⟩, hputs.subst ▸ hbelow.table, hputs.subst ▸ hbelow.grounded, ?_⟩,
        fun A => ?_⟩
      · exact Nat.le_zero.mp (hputs.idle.trans hbelow.idle.le)
      · rw [ha, hb, Assignment.same_node_iff hi hj (ht.ne_union hi) (hu.ne_union hj), State.SolvedBy, State.SolvedBy,
          hwork, hputs.subst, and_assoc]
    | clash => cases hr

theorem Mismatch.unsolvable (hwork : s.work = c :: rest) (h : Mismatch g s rest c) (hs : s.Equational g)
    (A : Assignment g) : ¬ s.SolvedBy A := by
  cases h with
  | member h =>
    obtain ⟨_, _, _, hc⟩ := hs.top_eq hwork
    cases hc
  | @relate rel t u location h =>
    obtain ⟨_, _, _, hc⟩ := hs.top_eq hwork
    cases hc
    obtain ⟨ht, hu, -, hsolved⟩ := hs.top hwork
    rw [hsolved]
    rintro ⟨hsame, -⟩
    have hstep := equalityStep_of_matchTypes (s := s.below rest) ht.unionCases? hu.unionCases? h
    change EqualityStep g (s.below rest) (s.subst.lookup t) (s.subst.lookup u) location _ at hstep
    generalize hr : StepResult.mismatch = r at hstep
    cases hstep with
    | settled => cases hr
    | left => cases hr
    | right => cases hr
    | parts ha hb hi hj =>
      rw [ha] at ht hsame
      rw [hb] at hu hsame
      exact not_agree_of_mismatch hr.symm ((Assignment.same_node_iff hi hj (ht.ne_union hi) (hu.ne_union hj)).mp hsame)
    | clash hne ha hb hnodes =>
      rcases hsame.eq_or_nodes ha hb with heq | ⟨i, j, hi, hj⟩
      · exact hne heq
      · exact hnodes i j hi hj

end States

/-! ### Runs -/

section Runs

variable {clock : Clock} {o : Outcome}

/-- The outcome answers for which assignments the property holds. A solution is one of them, read as an assignment, and
they are those that agree with it; a failure is a single mismatch, and there are none. The answer may be missing only if
there was a clock. -/
def Outcome.Answers (o : Outcome) (clock : Clock) (S : Assignment g → Prop) : Prop :=
  match o with
  | .solved σ => (∃ A, A.graph = g ∧ A.table = σ ∧ S A) ∧ ∀ A, S A ↔ A.Agrees σ
  | .failed fs => ∃ f, fs = [f] ∧ (f.kind = .typeMismatch ∧ (∀ A, ¬ S A) ∨ f.kind = .timeout ∧ clock ≠ none)

theorem Outcome.Answers.congr {S S' : Assignment g → Prop} (hS : ∀ A, S A ↔ S' A) (h : o.Answers clock S) :
    o.Answers clock S' := by
  obtain rfl : S = S' := funext fun A => propext (hS A)
  exact h

theorem answers_inductive (g : TypeGraph) (clock : Clock) :
    Inductive g fun s o => s.Equational g → o.Answers clock fun A : Assignment g => s.SolvedBy A where
  done {s} hwork hs := by
    have hall : ∀ A : Assignment g, s.SolvedBy A ↔ A.Agrees s.subst := by
      intro A
      rw [State.SolvedBy, hwork]
      exact and_iff_right relates_nil
    have hself : Assignment.Agrees ⟨g, s.subst, TypeGraph.extends_refl g, hs.grounded⟩ s.subst :=
      fun v t hv => bisimilar_of_lookup_eq (hs.grounded.lookup_of_get? hv)
    exact ⟨⟨_, rfl, rfl, (hall _).mpr hself⟩, hall⟩
  advance h ih hs := by
    obtain ⟨hs', hiff⟩ := h.equational hs
    exact (ih hs').congr fun A => (hiff A).symm
  stalled _ hstalled _ _ hs := absurd hstalled hs.not_stalled
  mismatch hwork _ h ho hs := by
    obtain ⟨f, rfl, hkind⟩ := ho
    exact ⟨f, rfl, .inl ⟨hkind, h.unsolvable hwork hs⟩⟩
  choice hwork _ _ _ hs := by
    obtain ⟨_, _, _, hc⟩ := hs.top_eq hwork
    cases hc

theorem answers_of_concludes {cs : List Constraint} {assumed : Substitution}
    (hcs : Relates .equality (fun t u => g.UnionFree t ∧ g.UnionFree u) cs) (hassumed : assumed.Grounded)
    (hfree : ∀ v t, assumed.get? v = some t → g.UnionFree t) (h : Concludes g cs assumed clock o) :
    o.Answers clock fun A : Assignment g => Relates .equality A.Same cs ∧ A.Agrees assumed := by
  obtain ⟨steps, sh, hrun⟩ := h
  have hs : (State.initial cs assumed).Equational g := ⟨relates_initial.mpr hcs, hfree, hassumed, rfl⟩
  have hlate : (⟨clock, []⟩ : Shared).clock ≠ none → ∀ (s : State) (o : Outcome), o.GivesUp .timeout → s.Equational g →
      o.Answers clock fun A : Assignment g => s.SolvedBy A := by
    rintro hclock s _ ⟨f, rfl, hkind⟩ -
    exact ⟨f, rfl, .inr ⟨hkind, hclock⟩⟩
  exact (run_induction (answers_inductive g clock) hlate hrun hs).congr fun A => and_congr_left fun _ => relates_initial

theorem Outcome.Answers.isOk_iff {S : Assignment g → Prop} (h : o.Answers none S) : o.isOk = true ↔ ∃ A, S A := by
  cases o with
  | solved σ =>
    obtain ⟨⟨A, -, -, hA⟩, -⟩ := h
    exact iff_of_true rfl ⟨A, hA⟩
  | failed fs =>
    obtain ⟨f, rfl, ⟨-, hnone⟩ | ⟨-, hclock⟩⟩ := h
    · exact iff_of_false Bool.false_ne_true fun ⟨A, hA⟩ => hnone A hA
    · exact absurd rfl hclock

/-- **Equalities are unified.** Let the constraints be equalities between types that no union can be reached from, and
let the assumptions bind such types, without a circle of variables. Whenever solving them ends with a solution, this is
a most general unifier: it solves the constraints itself, and an assignment of regular types to variables satisfies
constraints and assumptions exactly if it agrees with the solution. If it ends with a failure, this is a single mismatch
and no assignment satisfies them, or time was up. In another order the constraints have the same verdict. -/
theorem equalities_unified (g : TypeGraph) (cs : List Constraint) (assumed : Substitution)
    (hcs : Relates .equality (fun t u => g.UnionFree t ∧ g.UnionFree u) cs) (hassumed : assumed.NoVariableCycle)
    (hfree : ∀ v t, assumed.get? v = some t → g.UnionFree t) :
    (∀ clock o, Concludes g cs assumed clock o →
      o.Answers clock fun A : Assignment g => Relates .equality A.Same cs ∧ A.Agrees assumed) ∧
    ∀ cs' o o', cs'.Perm cs → Concludes g cs assumed none o → Concludes g cs' assumed none o' → o.isOk = o'.isOk := by
  refine ⟨fun clock o h => answers_of_concludes hcs hassumed.grounded hfree h, fun cs' o o' hperm h h' => ?_⟩
  have hcs' := (relates_perm hperm).mpr hcs
  have hanswer := answers_of_concludes hcs hassumed.grounded hfree h
  have hanswer' := answers_of_concludes hcs' hassumed.grounded hfree h'
  rw [Bool.eq_iff_iff, hanswer.isOk_iff, hanswer'.isOk_iff]
  exact exists_congr fun A => and_congr_left fun _ => (relates_perm hperm).symm

/-- A pair that starts a stream, a pair that is taken apart by variables, and one that is finite. -/
def pairGraph : TypeGraph :=
  ⟨#[.tuple "" [{ type := .int }, { type := .var 0 }], .tuple "" [{ type := .var 1 }, { type := .var 2 }],
    .tuple "" [{ type := .int }, { type := .bool }]]⟩

/-- The first variable is an infinite stream, and the others are its halves. -/
def streamEqualities : List Constraint := [.equality (.var 0) (.node 0) {}, .equality (.node 1) (.var 0) {}]

/-- A stream as before, with a rest that is not one. -/
def brokenStream : List Constraint := .equality (.var 2) (.node 2) {} :: streamEqualities

theorem pairGraph_unionFree (t : Ty) : pairGraph.UnionFree t := by
  refine .of_get? (fun i cases hi => ?_) t
  match i with
  | 0 | 1 | 2 => cases hi
  | i + 3 => cases hi

theorem brokenStream_equalities :
    Relates .equality (fun t u => pairGraph.UnionFree t ∧ pairGraph.UnionFree u) brokenStream := by
  have hfree : ∀ t u, pairGraph.UnionFree t ∧ pairGraph.UnionFree u := fun t u =>
      ⟨pairGraph_unionFree t, pairGraph_unionFree u⟩
  exact relates_cons.mpr ⟨hfree _ _, relates_cons.mpr ⟨hfree _ _, relates_cons.mpr ⟨hfree _ _, relates_nil⟩⟩⟩

/-- The table of the stream is most general although its type contains itself, and no assignment makes a stream of the
pair that ends, in whatever order this is asked. -/
theorem streams_unified :
    (∃ report, solve pairGraph streamEqualities .empty none = .ok report ∧
      report.outcome.solution? = some ⟨[(0, .node 1), (1, .int), (2, .node 1)]⟩ ∧
      report.outcome.Answers none fun A : Assignment pairGraph =>
        Relates .equality A.Same streamEqualities ∧ A.Agrees .empty) ∧
    ∃ report report', solve pairGraph brokenStream .empty none = .ok report ∧
      solve pairGraph brokenStream.reverse .empty none = .ok report' ∧
      report.outcome.isOk = false ∧ report.outcome.isOk = report'.outcome.isOk ∧
      report.outcome.Answers none fun A : Assignment pairGraph =>
        Relates .equality A.Same brokenStream ∧ A.Agrees .empty := by
  have hfree : ∀ v t, Substitution.empty.get? v = some t → pairGraph.UnionFree t := fun _ t _ => pairGraph_unionFree t
  have hstream := equalities_unified pairGraph streamEqualities .empty
    (fun c hc => brokenStream_equalities c (List.mem_cons_of_mem _ hc)) noVariableCycle_empty hfree
  have hbroken := equalities_unified pairGraph brokenStream .empty brokenStream_equalities noVariableCycle_empty hfree
  have hsolve : (solve pairGraph streamEqualities .empty none).toOption.map (fun r => r.outcome.solution?) =
      some (some ⟨[(0, .node 1), (1, .int), (2, .node 1)]⟩) := by cbv
  have hsolve1 : (solve pairGraph brokenStream .empty none).toOption.map (fun r => r.outcome.isOk) = some
      false := by cbv
  have hsolve2 : (solve pairGraph brokenStream.reverse .empty none).toOption.map (fun r => r.outcome.isOk) = some
      false := by cbv
  obtain ⟨report, h, hsolution⟩ := exists_ok_of_toOption_map hsolve
  obtain ⟨report1, h1, hok⟩ := exists_ok_of_toOption_map hsolve1
  obtain ⟨report2, h2, -⟩ := exists_ok_of_toOption_map hsolve2
  exact ⟨⟨report, h, hsolution, hstream.1 none _ (concludes_of_solve h)⟩, report1, report2, h1, h2, hok,
    hbroken.2 _ _ _ (List.reverse_perm _) (concludes_of_solve h1) (concludes_of_solve h2),
    hbroken.1 none _ (concludes_of_solve h1)⟩

end Runs

end Solver

end TypeInference
