import Mathlib.Algebra.Order.Group.Multiset
import Mathlib.Data.Finite.Prod
import Mathlib.Data.Set.Card
import Mathlib.Logic.Hydra
import Mathlib.Tactic.Abel
import TypeInference.Proofs.Enlargement
import TypeInference.Proofs.Unfolding

/-! # When solving comes to an end

A run need not end: recursive types are unfolded without a memory, so a comparison that leads back to itself is taken up
again and again. This is all that can go wrong. As long as no such comparison is taken up (`State.Circular`), the search
is well-founded: variables that are bound stay bound, and while none is bound, every constraint is traded for smaller
ones (`Smaller`), or is put back until a full round was made. -/

namespace TypeInference.Solver

open Substitution
open List

variable {p q : Comparison} {c : Constraint} {rest : List Constraint} {location : Location} {i : NodeId} {Q : Set Ty}
  {s : State} {t b a : Ty} {α : Type}

/-! ### Comparisons -/

/-- A relation between two resolved types. -/
structure Comparison where
  relation : Relation
  left : Ty
  right : Ty

/-- What a relation between two types compares. -/
def Comparison.of (σ : Substitution) (rel : Relation) (t u : Ty) : Comparison := ⟨rel, σ.lookup t, σ.lookup u⟩

/-- The first comparison is traded for the second, among others. -/
def Leads (g : TypeGraph) (σ : Substitution) (p q : Comparison) : Prop :=
  g.equal p.left p.right = .ok false ∧
    ∃ x y, Unfolds g σ p.relation p.left p.right q.relation x y ∧ q.left = σ.lookup x ∧ q.right = σ.lookup y

/-- The comparison is taken up next. -/
def State.Takes (s : State) (p : Comparison) : Prop :=
  ∃ rel t u location rest, s.work = .relate rel t u location :: rest ∧ ¬ s.Stalled ∧ p = .of s.subst rel t u

/-- A comparison is taken up that leads back to itself. -/
def State.Circular (g : TypeGraph) (s : State) : Prop := ∃ p, s.Takes p ∧ Relation.TransGen (Leads g s.subst) p p

section

variable {g : TypeGraph} {s0 : State} {Q : Set Ty} {σ : Substitution}

/-! ### Smaller comparisons -/

/-- A comparison that is taken up under the table leads to another one. -/
def Next (g : TypeGraph) (s0 : State) (σ : Substitution) (q p : Comparison) : Prop :=
  (∃ s, Visits g s0 s ∧ s.subst = σ ∧ s.Takes p) ∧ Leads g σ p q

/-- The comparison is between types of the set. -/
def Comparison.Inside (Q : Set Ty) (p : Comparison) : Prop := p.left ∈ Q ∧ p.right ∈ Q

theorem finite_inside (hQ : Q.Finite) : {p : Comparison | p.Inside Q}.Finite := by
  have hrel : ({.equality, .conformance} : Set Relation).Finite := Set.toFinite _
  refine ((hrel.prod (hQ.prod hQ)).image fun r => ⟨r.1, r.2.1, r.2.2⟩).subset fun p hp => ?_
  refine ⟨(p.relation, p.left, p.right), ⟨?_, hp.1, hp.2⟩, rfl⟩
  cases p.relation <;> simp

theorem Next.inside (hQ : Universe g Q) (hs0 : s0.Inside Q) (h : Next g s0 σ q p) : p.Inside Q ∧ q.Inside Q := by
  obtain ⟨⟨s, hs, rfl, rel, t, u, location, rest, hwork, -, rfl⟩, -, x, y, hunfolds, hx, hy⟩ := h
  have hin := hs.inside hQ hs0
  have htop := hin.work _ (hwork ▸ mem_cons_self)
  have hleft : s.subst.lookup t ∈ Q := hin.table.lookup hin.grounded (htop.types t .left)
  have hright : s.subst.lookup u ∈ Q := hin.table.lookup hin.grounded (htop.types u .right)
  obtain ⟨hxQ, hyQ⟩ := hunfolds.mem hQ hin.grounded hin.table hleft hright
  exact ⟨⟨hleft, hright⟩, hx ▸ hin.table.lookup hin.grounded hxQ, hy ▸ hin.table.lookup hin.grounded hyQ⟩

theorem leads_of_next (h : Relation.TransGen (Next g s0 σ) q p) : Relation.TransGen (Leads g σ) p q := by
  induction h with
  | single h => exact .single h.2
  | tail _ h ih => exact .head h.2 ih

/-- Where nothing is circular, a comparison leads to smaller ones: there are only finitely many to lead to. -/
theorem wellFounded_next (hQ : Universe g Q) (hs0 : s0.Inside Q) (hno : ∀ s, Visits g s0 s → ¬ s.Circular g) :
    WellFounded (Next g s0 σ) := by
  let S := {p : Comparison // p.Inside Q}
  have : Finite S := (finite_inside hQ.finite).to_subtype
  let r : S → S → Prop := fun q p => Relation.TransGen (Next g s0 σ) q.1 p.1
  have hirrefl : Std.Irrefl r := by
    refine ⟨fun p hp => ?_⟩
    obtain ⟨q, -, ⟨s, hs, rfl, htakes⟩, -⟩ := Relation.TransGen.tail'_iff.mp hp
    exact hno s hs ⟨p.1, htakes, leads_of_next hp⟩
  have htrans : IsTrans S r := ⟨fun a b c hab hbc => Relation.TransGen.trans hab hbc⟩
  have hwf : WellFounded r := Finite.wellFounded_of_trans_of_irrefl r
  have hacc : ∀ p : S, Acc (Next g s0 σ) p.1 := fun p => by
    induction p using hwf.induction with
    | _ p ih => exact Acc.intro p.1 fun q hq => ih ⟨q, (hq.inside hQ hs0).2⟩ (.single hq)
  refine ⟨fun p => Acc.intro p fun q hq => ?_⟩
  exact hacc ⟨q, (hq.inside hQ hs0).2⟩

/-! ### Smaller constraints -/

/-- The second constraint is taken up under the table and traded for the first, among others. -/
def Smaller (g : TypeGraph) (s0 : State) (σ : Substitution) (d c : Constraint) : Prop :=
  (∃ s rest, Visits g s0 s ∧ s.subst = σ ∧ s.work = c :: rest ∧ ¬ s.Stalled) ∧ Derives g σ c d

theorem acc_oneOf {choices : List Constraint} (h : ∀ c ∈ choices, Acc (Smaller g s0 σ) c) :
    Acc (Smaller g s0 σ) (.oneOf choices location) := by
  refine Acc.intro _ fun d hd => ?_
  cases hd.2 with
  | choice hc => exact h d hc

theorem acc_relate (hp : Acc (Next g s0 σ) p) : ∀ {rel : Relation} {t u : Ty} {location : Location},
    .of σ rel t u = p → Acc (Smaller g s0 σ) (.relate rel t u location) := by
  induction hp with
  | intro p _ ih =>
    rintro rel t u location rfl
    refine Acc.intro _ fun d hd => ?_
    obtain ⟨⟨s, rest, hs, rfl, hwork, hgoing⟩, hderives⟩ := hd
    -- the comparisons that the constraint is traded for come next
    have next : ∀ {rel' x y}, g.equal (s.subst.lookup t) (s.subst.lookup u) = .ok false →
        Unfolds g s.subst rel (s.subst.lookup t) (s.subst.lookup u) rel' x y →
        Next g s0 s.subst (.of s.subst rel' x y) (.of s.subst rel t u) := fun differ hunfolds =>
      ⟨⟨s, hs, rfl, rel, t, u, location, rest, hwork, hgoing, rfl⟩, differ, _, _, hunfolds, rfl, rfl⟩
    cases hderives with
    | relation differ h => exact ih _ (next differ h) rfl
    | postponed differ h =>
      refine acc_oneOf fun c hc => ?_
      obtain ⟨y, hy, rfl⟩ := mem_map.mp hc
      exact ih _ (next differ (h y hy)) rfl

theorem acc_smaller (hwf : WellFounded (Next g s0 σ)) : ∀ c : Constraint, Acc (Smaller g s0 σ) c
  | .relate rel t u location => acc_relate (hwf.apply _) rfl
  | .member t m u location => Acc.intro _ fun d hd => by
    cases hd.2 with
    | member => exact acc_relate (hwf.apply _) rfl
  | .oneOf choices location => acc_oneOf fun c hc => acc_smaller hwf c
  | .unknown kind location => Acc.intro _ fun d hd => by cases hd.2
termination_by c => sizeOf c
decreasing_by
  have := List.sizeOf_lt_of_mem hc
  simp only [Constraint.oneOf.sizeOf_spec]
  omega

/-! ### The search is well-founded -/

/-- The number of variables of the set that are not bound. -/
noncomputable def unknowns (Q : Set Ty) (σ : Substitution) : Nat := {v | Ty.var v ∈ Q ∧ σ.get? v = none}.ncard

theorem unknowns_bind_lt (hQ : Q.Finite) {v : Int} (hv : .var v ∈ Q) (hnone : σ.get? v = none) (ht : t ≠ .var v) :
    unknowns Q (σ.bind v t) < unknowns Q σ := by
  have hfinite : {v | Ty.var v ∈ Q ∧ σ.get? v = none}.Finite := by
    refine (hQ.preimage (f := Ty.var) ?_).subset fun w hw => hw.1
    exact fun a _ b _ h => Ty.var.inj h
  refine Set.ncard_lt_ncard (Set.ssubset_iff_exists.mpr ⟨fun w hw => ⟨hw.1, ?_⟩, v, ⟨hv, hnone⟩, fun h => ?_⟩) hfinite
  · by_contra hbound
    obtain ⟨u, hu⟩ := Option.ne_none_iff_exists'.mp hbound
    have hkept := extends_bind (t := t) hnone w u hu
    rw [hw.2] at hkept
    cases hkept
  · have hself : (σ.bind v t).get? v = some t := by simp [get?_bind σ ht]
    rw [h.2] at hself
    cases hself

/-- The states that the search comes to, each below the ones before it. -/
def Search (g : TypeGraph) (s0 s' s : State) : Prop := Visits g s0 s ∧ Move g s s'

/-- The order is that of three things in turn: the variables that are not bound, the pending constraints, and the
constraints that were not yet put back in this round. -/
theorem acc_search (hQ : Universe g Q) (hs0 : s0.Inside Q) (hno : ∀ s, Visits g s0 s → ¬ s.Circular g)
    (hs : Visits g s0 s) : Acc (Search g s0) s := by
  induction hn : unknowns Q s.subst using Nat.strong_induction_on generalizing s with
  | _ n ih =>
    have hsmaller : WellFounded (Smaller g s0 s.subst) := ⟨acc_smaller (wellFounded_next hQ hs0 hno)⟩
    have hcut := hsmaller.cutExpand
    have key : ∀ (m : Multiset Constraint) (s1 : State), Visits g s0 s1 → s1.subst = s.subst → ↑s1.work = m →
        Acc (Search g s0) s1 := by
      intro m
      induction m using hcut.induction with
      | _ m ihm =>
        intro s1 hs1 hsame hm
        induction hj : s1.work.length + 1 - s1.idle using Nat.strong_induction_on generalizing s1 with
        | _ j ihj =>
          refine Acc.intro s1 fun s2 hmove => ?_
          have hs2 : Visits g s0 s2 := hs1.tail hmove.2
          have hin := hs1.inside hQ hs0
          cases hmove.2.descent with
          | bound hc ht hu hv hne hsubst hwork =>
            refine ih _ ?_ hs2 rfl
            rw [hsubst, ← hn, ← hsame]
            refine unknowns_bind_lt hQ.finite ?_ (get?_of_lookup hin.grounded hv) hne
            exact hv ▸ hin.table.lookup hin.grounded ((hin.work _ hc).types _ ht)
          | @dropped c hsubst hwork =>
            refine ihm _ ?_ s2 hs2 (hsubst.trans hsame) rfl
            refine ⟨0, c, by simp, ?_⟩
            rw [← hm, Multiset.coe_eq_coe.mpr hwork, ← Multiset.cons_coe, ← Multiset.singleton_add, add_comm, add_zero]
          | @traded cs c rest top going hsubst hcs hwork =>
            refine ihm _ ?_ s2 hs2 (hsubst.trans hsame) rfl
            refine ⟨↑cs, c, fun d hd => ⟨⟨s1, rest, hs1, hsame, top, going⟩, hsame ▸ hcs d (Multiset.mem_coe.mp hd)⟩,
              ?_⟩
            rw [← hm, top, Multiset.coe_eq_coe.mpr hwork, ← Multiset.cons_coe, ← Multiset.singleton_add,
              ← Multiset.coe_add]
            abel
          | @requeued c rest top going hsubst hwork hidle =>
            have hperm : s2.work.Perm s1.work := by
              rw [hwork, top]
              exact perm_append_comm
            refine ihj _ ?_ s2 hs2 (hsubst.trans hsame) ((Multiset.coe_eq_coe.mpr hperm).trans hm) rfl
            have hlength : 0 < s1.work.length := by rw [top]; exact Nat.succ_pos _
            have hgoing : ¬ (s1.idle > 0 ∧ s1.idle ≥ s1.work.length) := going
            rw [hperm.length_eq, hidle]
            omega
    exact key _ s hs rfl rfl

end

/-! ### Steps that do not stop -/

section

variable {g : TypeGraph} {s : State} {rel : Relation} {t u : Ty} {location : Location}

abbrev Sure {α : Type} (x : Except Fault α) : Prop := Raises (fun _ => False) x

theorem sure_of_ok {x : Except Fault α} (h : ∃ a, x = .ok a) : Sure x := by
  obtain ⟨a, rfl⟩ := h
  exact .ok a

theorem Sure.exists_ok {x : Except Fault α} (h : Sure x) : ∃ a, x = .ok a := by
  cases x with
  | ok a => exact ⟨a, rfl⟩
  | error e => exact (h e rfl).elim

/-- In a graph without absent parts, no part is missed. -/
structure Whole (g : TypeGraph) (Q : Set Ty) : Prop extends Universe g Q where
  closed : g.Closed
  complete : g.Complete

theorem Whole.equal_sure (hQ : Whole g Q) {x y : Ty} (hx : x ∈ Q) (hy : y ∈ Q) : Sure (g.equal x y) :=
  sure_of_ok (equal_isOk hQ.closed hQ.complete (hQ.below x hx) (hQ.below y hy))

theorem Whole.leafCases_sure (hQ : Whole g Q) {σ : Substitution} (hin : σ.Inside Q) {cases : List Ty}
    (hi : g.get? i = some (.union cases)) : Sure (leafCases g σ i cases) :=
  sure_of_ok (leafCases_isOk hQ.closed hQ.complete (fun p hp => hQ.below _ (hin p hp)) hi)

theorem matchLeftUnion_sure (hQ : Whole g Q) (hin : s.subst.Inside Q) {cases : List Ty}
    (hi : g.get? i = some (.union cases)) : Sure (matchLeftUnion g s rel i cases b location) := by
  unfold matchLeftUnion
  refine .bind (hQ.leafCases_sure hin hi) fun lefts _ => ?_
  split
  · next hcases =>
    split
    · exact .pure _
    · obtain ⟨j, hj, hget⟩ := unionCases?_eq_some.mp hcases
      cases hj
      refine .bind (hQ.leafCases_sure ?_ hget) fun _ _ => .pure _
      rw [State.pushLeft, subst_pushAll]
      exact hin
  · exact .pure _

theorem matchRightUnion_sure (hQ : Whole g Q) (hσ : s.subst.Grounded) (hin : s.subst.Inside Q) {j : NodeId}
    {cases : List Ty} (ha : a ∈ Q) (hj : g.get? j = some (.union cases)) :
    Sure (matchRightUnion g s a j cases location) := by
  unfold matchRightUnion
  refine .bind (hQ.leafCases_sure hin hj) fun rights hrights => ?_
  refine .bind (.anyM fun x hx => hQ.equal_sure ha (hQ.leafCases hσ hin hj hrights hx)) fun known _ => ?_
  split <;> exact .pure _

theorem matchComposite_sure (hQ : Whole g Q) (hσ : s.subst.Grounded) (hin : s.subst.Inside Q) (ha : a ∈ Q)
    (hb : b ∈ Q) : Sure (matchComposite g s rel a b location) := by
  unfold matchComposite
  split
  · next hcases =>
    obtain ⟨i, hi, hget⟩ := unionCases?_eq_some.mp hcases
    cases hi
    exact matchLeftUnion_sure hQ hin hget
  · next hcases =>
    obtain ⟨j, hj, hget⟩ := unionCases?_eq_some.mp hcases
    cases hj
    exact matchRightUnion_sure hQ hσ hin ha hget
  · exact .bind (raises_of_lt (hQ.below _ ha)) fun _ _ => .bind (raises_of_lt (hQ.below _ hb)) fun _ _ => .pure _
  · exact .pure _

theorem matchTypes_sure (hQ : Whole g Q) (hσ : s.subst.Grounded) (hin : s.subst.Inside Q) (ht : t ∈ Q) (hu : u ∈ Q) :
    Sure (matchTypes g s rel t u location) := by
  have ha := hin.lookup hσ ht
  have hb := hin.lookup hσ hu
  unfold matchTypes
  refine .bind (hQ.equal_sure ha hb) fun same _ => ?_
  split
  · exact .pure _
  split
  · exact .pure _
  · exact .pure _
  · exact .pure _
  · exact matchComposite_sure hQ hσ hin ha hb

end

/-! ### Types that cannot be reified -/

/-- A run from the state comes to the outcome. -/
def Reaches (w : Walks) (g : TypeGraph) (s : State) (o : Outcome) : Prop :=
  ∃ steps sh sh', (runWith w g steps s).run sh = .ok (o, sh')

/-- Runs of the choices come to these outcomes, and several of them are accepted. -/
structure State.Contested (w : Walks) (g : TypeGraph) (s : State) (choices rest : List Constraint)
    (outcomes : List Outcome) : Prop where
  runs : Forall₂ (fun choice o => Reaches w g (s.choose choice rest) o) choices outcomes
  several : 1 < (outcomes.filter Outcome.isOk).length

/-- The top constraint of the state is given up but cannot be reified, or the solutions of its choices are compared but
cannot be reified. Time is up only where there is a clock. -/
inductive State.Unreifiable (w : Walks) (g : TypeGraph) (clocked : Prop) (s : State) : Prop where
  | stalled {c : Constraint} {rest : List Constraint} (work : s.work = c :: rest) (stalled : s.Stalled)
      (stuck : unstall s = none) (fault : c.reify s.subst g = .error .missing)
  | mismatch {c : Constraint} {rest : List Constraint} (work : s.work = c :: rest) (going : ¬ s.Stalled)
      (h : Mismatch g s rest c) (fault : c.reify s.subst g = .error .missing)
  | late {c : Constraint} {rest : List Constraint} (h : clocked) (work : s.work = c :: rest) (going : ¬ s.Stalled)
      (fault : c.reify s.subst g = .error .missing)
  | ambiguous {choices rest : List Constraint} {location : Location} {outcomes distinct : List Outcome}
      {past : List Event} (work : s.work = .oneOf choices location :: rest) (going : ¬ s.Stalled)
      (h : s.Contested w g choices rest outcomes)
      (compared : distinctOutcomes w past g [] (outcomes.filter Outcome.isOk) = .ok distinct)
      (undecided : ∀ o, distinct ≠ [o]) (fault : (Constraint.oneOf choices location).reify s.subst g = .error .missing)
  | compared {choices rest : List Constraint} {location : Location} {outcomes : List Outcome} {past : List Event}
      (work : s.work = .oneOf choices location :: rest) (going : ¬ s.Stalled)
      (h : s.Contested w g choices rest outcomes)
      (fault : distinctOutcomes w past g [] (outcomes.filter Outcome.isOk) = .error .missing)

/-- A run comes to a state in which types cannot be reified that have to be. -/
def Unreifiable (w : Walks) (g : TypeGraph) (clocked : Prop) (s0 : State) : Prop := ∃ s, Visits g s0 s ∧
    s.Unreifiable w g clocked

/-- The solution of the outcome is a table that was visited. -/
def Outcome.FromVisits (g : TypeGraph) (s0 : State) (o : Outcome) : Prop :=
  ∀ σ, o.solution? = some σ → ∃ s, Visits g s0 s ∧ s.subst = σ

section

variable {g : TypeGraph} {s0 s : State} {Q : Set Ty} {w : Walks} {clocked : Prop}

theorem reify_missing (hQ : Whole g Q) (hs0 : s0.Inside Q) (hs : Visits g s0 s) (hwork : s.work = c :: rest) {e : Fault}
    (he : c.reify s.subst g = .error e) : e = .missing := by
  have hin := hs.inside hQ.toUniverse hs0
  have hc : Posable Q c := hin.work c (hwork ▸ mem_cons_self)
  have hreify : Enlarges g (c.reify s.subst g) :=
    Constraint.reify_enlarges hQ.closed (fun p hp => hQ.below _ (hin.table p hp)) fun t ht => hQ.below t (hc.types t ht)
  exact hreify.1 e he

theorem distinct_missing (hQ : Whole g Q) (hs0 : s0.Inside Q) {outcomes : List Outcome}
    (h : ∀ o ∈ outcomes, o.FromVisits g s0) {past : List Event} {e : Fault}
    (he : distinctOutcomes w past g [] outcomes = .error e) : e = .missing := by
  refine distinctOutcomes_raises hQ.closed (fun o ho σ hσ => ?_) (by simp) e he
  obtain ⟨s1, hs1, rfl⟩ := h o ho σ hσ
  exact fun p hp => hQ.below _ ((hs1.inside hQ.toUniverse hs0).table p hp)

end

/-! ### Runs -/

section

variable {α β : Type} {U : Prop} {P : α → Prop}

/-- The answer of a computation that has all the time: a result, or the fault of an absent part, where this is
excused. -/
def Answers (U : Prop) (P : α → Prop) : Except Fault (α × Shared) → Prop
  | .ok (a, sh) => sh.clock = none ∧ P a
  | .error e => e = .missing ∧ U

/-- Given enough steps, the computation has an answer, which more steps do not change. -/
def Settles (U : Prop) (P : α → Prop) (x : Nat → RunM α) : Prop :=
  ∀ sh, sh.clock = none → ∃ n r, Answers U P r ∧ ∀ m ≥ n, (x m).run sh = r

namespace Settles

theorem pure {a : α} (h : P a) : Settles U P fun _ => Pure.pure a :=
  fun sh hsh => ⟨0, .ok (a, sh), ⟨hsh, h⟩, fun _ _ => rfl⟩

theorem bind {R : β → Prop} {x : Nat → RunM α} {f : α → Nat → RunM β} (hx : Settles U P x)
    (hf : ∀ a, P a → Settles U R (f a)) : Settles U R fun m => x m >>= fun a => f a m := by
  intro sh hsh
  obtain ⟨n, r, hr, hrun⟩ := hx sh hsh
  cases r with
  | error e =>
    refine ⟨n, .error e, hr, fun m hm => ?_⟩
    rw [StateT.run_bind, hrun m hm]
    rfl
  | ok r =>
    obtain ⟨a, sh'⟩ := r
    obtain ⟨n', r', hr', hrun'⟩ := hf a hr.2 sh' hr.1
    refine ⟨max n n', r', hr', fun m hm => ?_⟩
    rw [StateT.run_bind, hrun m (le_of_max_le_left hm)]
    exact hrun' m (le_of_max_le_right hm)

theorem shift {x : Nat → RunM α} (h : Settles U P fun m => x (m + 1)) : Settles U P x := by
  intro sh hsh
  obtain ⟨n, r, hr, hrun⟩ := h sh hsh
  refine ⟨n + 1, r, hr, fun m hm => ?_⟩
  obtain ⟨k, rfl⟩ := Nat.exists_eq_add_of_le' (Nat.le_trans (Nat.le_add_left 1 n) hm)
  exact hrun k (by omega)

theorem lift {x : Except Fault α} (hok : ∀ a, x = .ok a → P a) (herror : ∀ e, x = .error e → e = .missing ∧ U) :
    Settles U P fun _ => liftM x := by
  intro sh hsh
  cases hx : x with
  | ok a => exact ⟨0, .ok (a, sh), ⟨hsh, hok a hx⟩, fun _ _ => rfl⟩
  | error e => exact ⟨0, .error e, herror e hx, fun _ _ => rfl⟩

theorem reported : Settles U (fun _ => True) fun _ => reported :=
  fun sh hsh => ⟨0, .ok (sh.events, sh), ⟨hsh, trivial⟩, fun _ _ => rfl⟩

theorem report (events : List Event) : Settles U (fun _ => True) fun _ => report events :=
  fun sh hsh => ⟨0, .ok ((), { sh with events := events.reverse ++ sh.events }), ⟨hsh, trivial⟩, fun _ _ => rfl⟩

theorem expired : Settles U (fun late => late = false) fun _ => expired := by
  intro sh hsh
  refine ⟨0, .ok (false, sh), ⟨hsh, rfl⟩, fun _ _ => ?_⟩
  obtain ⟨clock, events⟩ := sh
  cases hsh
  rfl

theorem mapM {xs : List α} {R : α → β → Prop} {f : α → Nat → RunM β} (hf : ∀ x ∈ xs, Settles U (R x) (f x)) :
    Settles U (fun ys => Forall₂ R xs ys) fun m => xs.mapM fun x => f x m := by
  induction xs with
  | nil => exact pure .nil
  | cons x xs ih =>
    obtain ⟨hx, hxs⟩ := forall_mem_cons.mp hf
    simp only [mapM_cons]
    exact bind hx fun y hy => bind (ih hxs) fun ys hys => pure (.cons hy hys)

/-- Whatever comes out is what some run of the computation comes to. -/
theorem reached {x : Nat → RunM α} (h : Settles U P x) :
    Settles U (fun a => P a ∧ ∃ n sh sh', (x n).run sh = .ok (a, sh')) x := by
  intro sh hsh
  obtain ⟨n, r, hr, hrun⟩ := h sh hsh
  refine ⟨n, r, ?_, hrun⟩
  cases r with
  | ok r => exact ⟨hr.1, hr.2, n, sh, r.2, hrun n le_rfl⟩
  | error e => exact hr

theorem fail {g : TypeGraph} {s : State} {kind : FailureKind} {P : Outcome → Prop} (hP : ∀ fs, P (.failed fs))
    (hfault : ∀ e, c.reify s.subst g = .error e → e = .missing ∧ U) : Settles U P fun _ => fail g s c kind := by
  unfold Solver.fail
  exact .bind (.report _) fun _ _ => .bind (.lift (P := fun _ => True) (fun _ _ => trivial) hfault) fun r _ =>
    .pure (hP _)

end Settles

end

section

variable {g : TypeGraph} {s0 s : State} {Q : Set Ty} {w : Walks}

theorem one_lt_length {xs : List α} (hnil : xs = [] → False) (hone : ∀ x, xs = [x] → False) : 1 < xs.length := by
  rcases xs with _ | ⟨x, _ | ⟨y, xs⟩⟩
  · exact (hnil rfl).elim
  · exact (hone x rfl).elim
  · simp

theorem combine_settles (hQ : Whole g Q) (hs0 : s0.Inside Q) (hs : Visits g s0 s) {choices : List Constraint}
    (hwork : s.work = .oneOf choices location :: rest) (hgoing : ¬ s.Stalled) {outcomes : List Outcome}
    (houtcomes : Forall₂ (fun choice o => o.FromVisits g s0 ∧ Reaches w g (s.choose choice rest) o) choices outcomes) :
    Settles (Unreifiable w g False s0) (Outcome.FromVisits g s0) fun _ =>
    combineWith w g (s.below rest) (.oneOf choices location) outcomes := by
  have hvisits : ∀ o ∈ outcomes.filter Outcome.isOk, o.FromVisits g s0 := fun o ho =>
    (exists_of_forall₂ houtcomes (mem_filter.mp ho).1).elim fun _ h => h.2.1
  unfold combineWith
  refine .bind (.report _) fun _ _ => ?_
  split
  · exact .pure fun σ h => by cases h
  · next o ho => exact .pure (hvisits o (by simp [ho]))
  · next hnil hone =>
    have hcontested : s.Contested w g choices rest outcomes := ⟨houtcomes.imp fun _ _ h => h.2, one_lt_length hnil hone⟩
    refine .bind .reported fun past _ => .bind (.lift (fun _ => id) fun e he => ?_) fun distinct hdistinct => ?_
    · obtain rfl := distinct_missing hQ hs0 hvisits he
      exact ⟨rfl, s, hs, .compared hwork hgoing hcontested he⟩
    · split
      · next o =>
          exact .pure (hvisits o ((mem_of_distinctOutcomes hdistinct o (mem_singleton_self o)).resolve_left (by simp)))
      · next hmany =>
        refine .fail (fun _ σ h => by cases h) fun e he => ?_
        obtain rfl := reify_missing hQ hs0 hs hwork he
        exact ⟨rfl, s, hs, .ambiguous hwork hgoing hcontested hdistinct hmany he⟩

/-- From a state that the search is well-founded below, a run settles. The induction is on the search: whatever a run
does next is settled, as it goes on from states below. -/
theorem run_settles (hQ : Whole g Q) (hs0 : s0.Inside Q) (hacc : Acc (Search g s0) s) (hs : Visits g s0 s) :
    Settles (Unreifiable w g False s0) (Outcome.FromVisits g s0) fun m => runWith w g m s := by
  induction hacc with
  | intro s _ ih =>
    have hin := hs.inside hQ.toUniverse hs0
    have continues : ∀ {s' : State}, Move g s s' → Settles _ (Outcome.FromVisits g s0) fun m =>
        runWith w g m s' := fun hmove =>
      ih _ ⟨hs, hmove⟩ (hs.tail hmove)
    cases hwork : s.work with
    | nil =>
      simp only [runWith_nil hwork]
      refine .pure fun σ hσ => ⟨s, hs, ?_⟩
      exact Option.some.inj hσ
    | cons c rest =>
      have hc : Posable Q c := hin.work c (hwork ▸ mem_cons_self)
      have fails : ∀ {s1 : State} {kind : FailureKind}, s1.subst = s.subst →
          (c.reify s.subst g = .error .missing → s.Unreifiable w g False) →
          Settles (Unreifiable w g False s0) (Outcome.FromVisits g s0) fun _ => fail g s1 c kind := fun hsubst h =>
        .fail (fun _ σ h => by cases h) fun e he => by
          obtain rfl := reify_missing hQ hs0 hs hwork (hsubst ▸ he)
          exact ⟨rfl, s, hs, h (hsubst ▸ he)⟩
      refine .shift ?_
      by_cases hstalled : s.Stalled
      · simp only [runWith_stalled hwork hstalled]
        rcases unstall_cases s with hun | ⟨s', events, hun⟩
        · simp only [hun]
          exact fails rfl (.stalled hwork hstalled hun)
        · simp only [hun]
          exact .bind (.report _) fun _ _ => continues (.advance (.unstall hstalled hun))
      · simp only [runWith_going hwork hstalled]
        refine .bind .expired fun late hlate => ?_
        subst hlate
        refine .bind (.report _) fun _ _ => ?_
        cases c with
        | relate rel t u location =>
          have hsure : Sure (matchTypes g (s.below rest) rel t u location) :=
            matchTypes_sure hQ hin.grounded hin.table (hc.types t .left) (hc.types u .right)
          obtain ⟨r, hr⟩ := hsure.exists_ok
          simp only [resume_relate hr]
          cases r with
          | mismatch => exact fails rfl (.mismatch hwork hstalled (.relate hr))
          | next s' events => exact .bind (.report _) fun _ _ => continues (.advance (.relate hwork hstalled hr))
        | member t m u location =>
          simp only [resume]
          cases hr : matchMember g (s.below rest) t m u location with
          | mismatch => exact fails rfl (.mismatch hwork hstalled (.member hr))
          | next s' events => exact .bind (.report _) fun _ _ => continues (.advance (.member hwork hstalled hr))
        | oneOf choices location =>
          refine .bind (.mapM fun choice hchoice => (continues (.branch hwork hstalled hchoice)).reached)
            fun outcomes houtcomes => ?_
          refine .bind .expired fun late hlate => ?_
          subst hlate
          exact combine_settles hQ hs0 hs hwork hstalled houtcomes
        | unknown kind location => exact absurd .self (hc.known kind location)

end

/-- **Solving ends, unless it goes in circles.** For constraints of known kinds over the types of a graph without absent
parts and assumptions without a circle of variables, a run that has all the time comes to an outcome, which does not
depend on the number of steps that it is given, once these are enough. The exceptions are two: a comparison is taken up
that leads back to itself, or the run comes to a state in which the constraint that it gives up or the solutions that it
compares cannot be reified, and then this is the fault that ends it. All this holds in whatever order tables are
walked. -/
theorem solving_ends_unless_circular (w : Walks) (g : TypeGraph) (cs : List Constraint) (assumed : Substitution)
    (h : WellPosed g cs assumed) : (∃ s, Visits g (.initial cs assumed) s ∧ s.Circular g) ∨
    ∃ n r, (∀ m ≥ n, (runWith w g m (.initial cs assumed)).run { clock := none } = r) ∧
      ((∃ o sh, r = .ok (o, sh)) ∨ r = .error .missing ∧ Unreifiable w g False (.initial cs assumed)) := by
  by_cases hno : ∃ s, Visits g (.initial cs assumed) s ∧ s.Circular g
  · exact .inl hno
  refine .inr ?_
  have hacc := acc_search h.universe h.inside (fun s hs hcircular => hno ⟨s, hs, hcircular⟩) .refl
  obtain ⟨n, r, hr, hrun⟩ := run_settles ⟨h.universe, h.closed, h.complete⟩ h.inside hacc .refl { clock := none } rfl
  refine ⟨n, r, hrun, ?_⟩
  cases r with
  | ok r => exact .inl ⟨r.1, r.2, rfl⟩
  | error e => exact .inr ⟨congrArg _ hr.1, hr.2⟩

/-! ### A run in circles -/

theorem run_of_step {g : TypeGraph} {s' : State} {rel : Relation} {u : Ty} {events : List Event}
    (hwork : s.work = .relate rel t u location :: rest) (hidle : s.idle = 0)
    (hstep : matchTypes g (s.below rest) rel t u location = .ok (.next s' events)) (sh : Shared) (hsh : sh.clock = none)
    (n : Nat) : ∃ sh' : Shared, sh'.clock = none ∧ (run g (n + 1) s).run sh = (run g n s').run sh' := by
  have hgoing : ¬ s.Stalled := fun hstalled => absurd hstalled.1 (by simp [hidle])
  obtain ⟨clock, known⟩ := sh
  cases hsh
  rw [run, runWith_going hwork hgoing]
  simp only [resume, hstep]
  exact ⟨⟨none, events.reverse ++ .pop s.depth (.relate rel t u location) rest.length :: known⟩, rfl, rfl⟩

/-- Two recursive types of one form. -/
def twinGraph : TypeGraph := ⟨#[.tuple "a" [{ type := .var 1 }], .tuple "a" [{ type := .var 2 }]]⟩

/-- Each of two variables is the type with an element of itself, and one conforms to the other. -/
def twinConstraints : List Constraint :=
  [.equality (.var 1) (.node 0) {}, .equality (.var 2) (.node 1) {}, .conformance (.var 1) (.var 2) {}]

def twinTable : Substitution := (Substitution.empty.bind 2 (.node 1)).bind 1 (.node 0)

theorem run_twins (n : Nat) : ∀ (location : Location) (sh : Shared), sh.clock = none →
    (run twinGraph n { work := [.conformance (.var 1) (.var 2) location], subst := twinTable }).run sh = .error
    .outOfSteps := by
  induction n with
  | zero => exact fun _ _ _ => rfl
  | succ n ih =>
    intro location sh hsh
    let s : State := { work := [.conformance (.var 1) (.var 2) location], subst := twinTable }
    have hstep : matchTypes twinGraph (s.below []) .conformance (.var 1) (.var 2) location =
        .ok (.next { work := [.conformance (.var 1) (.var 2) (location.append [.element 0])], subst := twinTable }
        []) := by
      cbv
    obtain ⟨sh', hsh', hrun⟩ := run_of_step rfl rfl hstep sh hsh n
    exact hrun.trans (ih _ sh' hsh')

theorem run_twinConstraints (n : Nat) :
    (run twinGraph n (.initial twinConstraints .empty)).run { clock := none } = .error .outOfSteps := by
  have hinitial : State.initial twinConstraints .empty = { work := [.equality (.var 2) (.node 1) {},
      .equality (.var 1) (.node 0) {}, .conformance (.var 1) (.var 2) {}], subst := .empty } := by cbv
  rw [hinitial]
  rcases n with _ | _ | n
  · rfl
  · cbv
  · let c : Constraint := .conformance (.var 1) (.var 2) {}
    let e : Constraint := .equality (.var 1) (.node 0) {}
    have hstep1 : matchTypes twinGraph (State.below ⟨.equality (.var 2) (.node 1) {} :: [e, c], .empty, 0, 0⟩ [e, c])
        .equality (.var 2) (.node 1) {} = .ok (.next ⟨[e, c], Substitution.empty.bind 2 (.node 1), 0, 0⟩
        [.bind 0 2 (.node 1)]) := by cbv
    have hstep2 : matchTypes twinGraph (State.below ⟨e :: [c], Substitution.empty.bind 2 (.node 1), 0, 0⟩ [c]) .equality
        (.var 1) (.node 0) {} = .ok (.next ⟨[c], twinTable, 0, 0⟩ [.bind 0 1 (.node 0)]) := by cbv
    obtain ⟨sh1, hsh1, hrun1⟩ := run_of_step rfl rfl hstep1 { clock := none } rfl (n + 1)
    obtain ⟨sh2, hsh2, hrun2⟩ := run_of_step rfl rfl hstep2 sh1 hsh1 n
    exact hrun1.trans (hrun2.trans (run_twins n {} sh2 hsh2))

theorem twinGraph_get? {x : Composite} (h : twinGraph.get? i = some x) : ∃ v, x = .tuple "a" [{ type := .var v }] := by
  rcases i with _ | _ | i
  · exact ⟨1, (Option.some.inj h).symm⟩
  · exact ⟨2, (Option.some.inj h).symm⟩
  · cases h

theorem wellPosed_twinConstraints : WellPosed twinGraph twinConstraints .empty where
  closed i x hx := by
    obtain ⟨v, rfl⟩ := twinGraph_get? hx
    exact ⟨by simp [Composite.parts, Ty.Below], by simp⟩
  complete i c hx := by
    obtain ⟨v, hv⟩ := twinGraph_get? hx
    cases hv
  types c hc t ht := by
    simp only [twinConstraints, mem_cons, not_mem_nil, or_false] at hc
    rcases hc with rfl | rfl | rfl <;> rcases Constraint.mentions_relate.mp ht with rfl | rfl <;>
      simp [Ty.Below, twinGraph, TypeGraph.size]
  known c hc kind location h := by
    simp only [twinConstraints, mem_cons, not_mem_nil, or_false] at hc
    rcases hc with rfl | rfl | rfl <;> cases h
  bindings p hp := by cases hp
  acyclic := Substitution.noVariableCycle_empty

/-- On the sample a run has no outcome with any number of steps, so it comes to a comparison that leads back to
itself. -/
theorem twinConstraints_circular : WellPosed twinGraph twinConstraints .empty ∧
    (∀ n, (run twinGraph n (.initial twinConstraints .empty)).run { clock := none } = .error .outOfSteps) ∧
    ∃ s, Visits twinGraph (.initial twinConstraints .empty) s ∧ s.Circular twinGraph := by
  refine ⟨wellPosed_twinConstraints, run_twinConstraints, ?_⟩
  rcases solving_ends_unless_circular .inOrder twinGraph twinConstraints .empty wellPosed_twinConstraints with
    hcircular | ⟨n, r, hrun, hr⟩
  · exact hcircular
  · have hout := (hrun n le_rfl).symm.trans (run_twinConstraints n)
    rcases hr with ⟨o, sh, rfl⟩ | ⟨rfl, -⟩
    · cases hout
    · cases hout

end TypeInference.Solver
