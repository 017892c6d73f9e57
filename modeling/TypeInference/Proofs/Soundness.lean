import Mathlib
import TypeInference.Proofs.Steps

/-! # The solver is sound

A table that the solver returns satisfies all constraints that it was given. `Discharges` says what a step owes: every
later table that satisfies what is pending after it satisfies what was pending before. The pending constraints are
judged by the final table only. -/

namespace TypeInference.Solver

open Substitution
open List

variable {g : TypeGraph} {s s' : State} {rel : Relation} {t u x right left : Ty} {c : Constraint} {v : Int}
  {cs : List Constraint} {events : List Event} {ls : List Ty} {location : Location} {i j : NodeId} {σ0 σ : Substitution}

/-- The step from `s` to `s'` keeps what was known and trades the constraint `c` for what it adds to the work. -/
structure Discharges (g : TypeGraph) (s : State) (c : Constraint) (s' : State) : Prop where
  extend : s.subst.Extends s'.subst
  grounded : s'.subst.Grounded
  sound : ∀ σ : Substitution, s'.subst.Extends σ → σ.Grounded → (∀ d ∈ s'.work, σ.Satisfies g d) →
    σ.Satisfies g c ∧ ∀ d ∈ s.work, σ.Satisfies g d

/-! ### Steps that bind nothing -/

/-- A step that binds nothing: it is enough that the new constraints bring about the old one. -/
theorem discharges_of_pushAll (hs : s.subst.Grounded)
    (h : ∀ σ : Substitution, s.subst.Extends σ → σ.Grounded → (∀ d ∈ cs, σ.Satisfies g d) → σ.Satisfies g c) :
    Discharges g s c (s.pushAll cs) where
  extend := by rw [subst_pushAll]; exact .refl _
  grounded := by rwa [subst_pushAll]
  sound := fun σ hext hσ hwork => by
    rw [subst_pushAll] at hext
    exact ⟨h σ hext hσ fun d hd => hwork d (mem_pushAll.mpr (.inl hd)), fun d hd => hwork d (mem_pushAll.mpr (.inr hd))⟩

theorem discharges_progress (hs : s.subst.Grounded)
    (h : ∀ σ : Substitution, s.subst.Extends σ → σ.Grounded → σ.Satisfies g c) : Discharges g s c s.progress where
  extend := .refl _
  grounded := hs
  sound := fun σ hext hσ hwork => ⟨h σ hext hσ, hwork⟩

theorem Discharges.progress (h : Discharges g s c s') : Discharges g s c s'.progress :=
  ⟨h.extend, h.grounded, h.sound⟩

theorem discharges_enqueue {d : Constraint} {idle : Nat} (hs : s.subst.Grounded)
    (h : ∀ σ : Substitution, s.subst.Extends σ → σ.Grounded → σ.Satisfies g d → σ.Satisfies g c) :
    Discharges g s c { s with work := s.work ++ [d], idle := idle } where
  extend := .refl _
  grounded := hs
  sound := fun σ hext hσ hwork =>
    ⟨h σ hext hσ (hwork d (by simp)), fun e he => hwork e (mem_append_left _ he)⟩

theorem related_of_lookup (hext : σ0.Extends σ) (h0 : σ0.Grounded) (hσ : σ.Grounded)
    (h : σ.Related g rel (σ0.lookup t) (σ0.lookup u)) : σ.Related g rel t u :=
  h.congr hσ (bisimilar_of_lookup_eq (hext.lookup_lookup h0 hσ t)) (bisimilar_of_lookup_eq (hext.lookup_lookup h0 hσ u))

/-! ### Bindings -/

theorem get?_of_lookup (hσ : σ.Grounded) (h : σ.lookup t = .var v) : σ.get? v = none :=
  hσ.isEnd_lookup t v h

theorem discharges_bind {b : Ty} (hs : s.subst.Grounded) (hv : s.subst.get? v = none) (hb : s.subst.IsEnd b)
    (h : ∀ σ : Substitution, σ.lookup (.var v) = σ.lookup b →
    σ.lookup (s.subst.lookup t) = σ.lookup (s.subst.lookup u)) :
    Discharges g s (.relate rel t u location) { s with subst := s.subst.bind v b, idle := 0 } where
  extend := extends_bind hv
  grounded := hs.bind hv hb
  sound := fun σ hext hσ hwork => by
    have hs' := hs.bind hv hb
    have hvb : σ.lookup (.var v) = σ.lookup b := by
      rw [← hext.lookup_lookup hs' hσ (.var v), lookup_bind_eq hs', hext.lookup_lookup hs' hσ b]
    refine ⟨.relate ?_, hwork⟩
    exact related_of_lookup ((extends_bind hv).trans hext) hs hσ (.bisimilar (bisimilar_of_lookup_eq (h σ hvb)))

/-! ### Unions -/

/-- A later leaf case of a union comes from one of the leaf cases that were found, and that one is related to whatever
they all are. -/
theorem exists_related_leafCase {cases : List Ty} (hi : g.get? i = some (.union cases))
    (hls : leafCases g σ0 i cases = .ok ls) (hext : σ0.Extends σ) (h0 : σ0.Grounded) (hσ : σ.Grounded)
    (h : ∀ l ∈ ls, σ.Related g rel l u) (hx : σ.Leaf g (.node i) x) : ∃ l, σ.Related g rel l u ∧ σ.Leaf g l x := by
  obtain ⟨l, hl, hlx⟩ := (hext.leaf_iff h0 hσ).mp hx
  obtain ⟨y, hy, heq⟩ := leafCases_complete hi hls hl
  exact ⟨l, (h y hy).congr hσ (bisimilar_of_equal hσ heq) (.refl σ g u), hlx⟩

theorem related_leaf_of_not_isUnion (hσ : σ.Grounded) (hu : ¬ σ.IsUnion g u) (h : σ.Related g rel t u)
    (hx : σ.Leaf g t x) : σ.Related g rel x u := by
  by_cases ht : σ.IsUnion g t
  · exact h.leaf_left ht hu hx
  · obtain rfl := hx.isUnion_or.resolve_left ht
    exact h.congr hσ (bisimilar_of_lookup_eq (hσ.lookup_idem t).symm) (.refl σ g u)

theorem exists_leaf_of_leafCase {cases : List Ty} (hj : g.get? j = some (.union cases))
    (hls : leafCases g σ0 j cases = .ok ls) (hext : σ0.Extends σ) (h0 : σ0.Grounded) (hσ : σ.Grounded)
    (ht : ¬ σ.IsUnion g t) {l : Ty} (hl : l ∈ ls) (h : σ.Related g .conformance t l) :
    ∃ y, σ.Leaf g (.node j) y ∧ σ.Related g .conformance t y := by
  have hleaf : ∀ y, σ.Leaf g l y → σ.Leaf g (.node j) y := fun y hy =>
    (hext.leaf_iff h0 hσ).mpr ⟨l, leafCases_sound hj hls l hl, hy⟩
  by_cases hu : σ.IsUnion g l
  · obtain ⟨y, hy, hty⟩ := h.leaf_right ht hu
    exact ⟨y, hleaf y hy, hty⟩
  · exact ⟨σ.lookup l, hleaf _ (.self hu), h.congr hσ (.refl σ g t) (bisimilar_of_lookup_eq (hσ.lookup_idem l).symm)⟩

theorem related_of_satisfies (h : σ.Satisfies g (.relate rel t u location)) : σ.Related g rel t u := by
  cases h with
  | relate h => exact h

theorem matchLeftUnion_discharges {cases : List Ty} (hs : s.subst.Grounded) (hi : g.get? i = some (.union cases))
    (hr : ∀ v, right ≠ .var v) (h : matchLeftUnion g s rel i cases right location = .ok (.next s' events)) :
    Discharges g s (.relate rel (.node i) right location) s' := by
  unfold matchLeftUnion at h
  obtain ⟨lefts, hlefts, h⟩ := bind_eq_ok.mp h
  have hleft : ∀ σ : Substitution, σ.IsUnion g (.node i) := fun σ => isUnion_of_lookup (lookup_node i) hi
  split at h
  · next j cases' _ hunion =>
    obtain ⟨j', hj', hj⟩ := unionCases?_eq_some.mp hunion
    obtain rfl : j = j' := by simpa using hj'
    have hright : ∀ σ : Substitution, σ.IsUnion g (.node j) := fun σ => isUnion_of_lookup (lookup_node j) hj
    split at h
    · obtain ⟨rfl, -⟩ : s.pushLeft .conformance lefts (.node j) _ = s' ∧ [] = events := by
        simpa [StepResult.quiet] using h
      refine discharges_of_pushAll hs fun σ hext hσ hwork => .relate (related_of_leaves (hleft σ) fun x hx => ?_)
      have hrel : ∀ l ∈ lefts, σ.Related g .conformance l (.node j) := fun l hl =>
        related_of_satisfies (hwork _ (mem_map_of_mem hl))
      obtain ⟨l, hl, hlx⟩ := exists_related_leafCase hi hlefts hext hs hσ hrel hx
      exact hl.leaf hσ hlx
    · obtain ⟨rights, hrights, h⟩ := bind_eq_ok.mp h
      obtain ⟨rfl, -⟩ :
          (s.pushLeft .conformance lefts (.node j) _).pushLeft .conformance rights (.node i) _ = s' ∧ [] = events := by
        simpa [StepResult.quiet] using h
      rw [State.pushLeft, State.pushLeft, pushAll_pushAll]
      refine discharges_of_pushAll hs fun σ hext hσ hwork => .relate ?_
      have hrel : ∀ l ∈ lefts, σ.Related g .conformance l (.node j) := fun l hl =>
        related_of_satisfies (hwork _ (mem_append_left _ (mem_map_of_mem hl)))
      have hback : ∀ l ∈ rights, σ.Related g .conformance l (.node i) := fun l hl =>
        related_of_satisfies (hwork _ (mem_append_right _ (mem_map_of_mem hl)))
      refine .unions (hleft σ) (hright σ) (fun x hx => ?_) (fun _ y hy => ?_)
      · obtain ⟨l, hl, hlx⟩ := exists_related_leafCase hi hlefts hext hs hσ hrel hx
        exact hl.leaf hσ hlx
      · have hrights' : leafCases g s.subst j cases' = .ok rights := by simpa [State.pushLeft] using hrights
        obtain ⟨l, hl, hly⟩ := exists_related_leafCase hj hrights' hext hs hσ hback hy
        exact hl.leaf hσ hly
  · next right _ _ _ hnot =>
    obtain ⟨rfl, -⟩ : s.pushLeft rel lefts right _ = s' ∧ [] = events := by
      simpa [StepResult.quiet] using h
    refine discharges_of_pushAll hs fun σ hext hσ hwork => .relate ?_
    have hright : ¬ σ.IsUnion g right := by
      rintro ⟨cases', hunion⟩
      rw [lookup_of_ne_var hr] at hunion
      obtain ⟨j, hj, -⟩ := unionCases?_eq_some.mp hunion
      exact hnot j cases' hj hunion
    have hrel : ∀ l ∈ lefts, σ.Related g rel l right := fun l hl =>
      related_of_satisfies (hwork _ (mem_map_of_mem hl))
    refine .leftUnion (hleft σ) hright fun x hx => ?_
    obtain ⟨l, hl, hlx⟩ := exists_related_leafCase hi hlefts hext hs hσ hrel hx
    exact related_leaf_of_not_isUnion hσ hright hl hlx

theorem matchRightUnion_discharges {cases : List Ty} (hs : s.subst.Grounded) (hj : g.get? j = some (.union cases))
    (hl : ∀ v, left ≠ .var v) (hu : g.unionCases? left = none)
    (h : matchRightUnion g s left j cases location = .ok (.next s' events)) :
    Discharges g s (.relate rel left (.node j) location) s' := by
  unfold matchRightUnion at h
  obtain ⟨rights, hrights, h⟩ := bind_eq_ok.mp h
  obtain ⟨known, hknown, h⟩ := bind_eq_ok.mp h
  have hleft : ∀ σ : Substitution, ¬ σ.IsUnion g left := fun σ => by
    simp [IsUnion, lookup_of_ne_var hl, hu]
  -- in both cases the left side conforms to one of the leaf cases that were found
  have finish : ∀ σ : Substitution, s.subst.Extends σ → σ.Grounded → ∀ l ∈ rights, σ.Related g .conformance left l →
      σ.Satisfies g (.relate rel left (.node j) location) := by
    intro σ hext hσ l hmem hrel
    obtain ⟨y, hy, hrel⟩ := exists_leaf_of_leafCase hj hrights hext hs hσ (hleft σ) hmem hrel
    exact .relate (.rightUnion (hleft σ) (isUnion_of_lookup (lookup_node j) hj) hy hrel)
  cases known with
  | true =>
    obtain ⟨rfl, -⟩ : s.progress = s' ∧ [] = events := by simpa [StepResult.quiet] using h
    obtain ⟨l, hmem, heq⟩ := mem_of_anyM hknown
    exact discharges_progress hs fun σ hext hσ => finish σ hext hσ l hmem (.bisimilar (bisimilar_of_equal hσ heq))
  | false =>
    obtain ⟨rfl, -⟩ : s.progress.enqueue _ = s' ∧ [] = events := by simpa [StepResult.quiet] using h
    refine discharges_enqueue hs fun σ hext hσ hone => ?_
    cases hone with
    | oneOf hc hsat =>
      obtain ⟨l, hmem, rfl⟩ := mem_map.mp hc
      exact finish σ hext hσ l hmem (related_of_satisfies hsat)

/-! ### Composite types -/

theorem matchParts_discharges {c c' : Composite} (hs : s.subst.Grounded) (hi : g.get? i = some c)
    (hj : g.get? j = some c') (h : matchParts s rel location c c' = .next s' events) :
    Discharges g s (.relate rel (.node i) (.node j) location) s' := by
  unfold matchParts at h
  split at h
  · next d c d' c' =>
    cases h
    show Discharges g s _ (s.pushAll [.relate rel (domainType d) (domainType d') (location.append [.domain]),
      .relate rel c c' (location.append [.codomain])])
    refine discharges_of_pushAll hs fun σ _ _ hwork => .relate ?_
    obtain ⟨hdomain, hwork⟩ := forall_mem_cons.mp hwork
    obtain ⟨hcodomain, -⟩ := forall_mem_cons.mp hwork
    exact .function (lookup_node i) (lookup_node j) hi hj (related_of_satisfies hdomain)
      (related_of_satisfies hcodomain)
  · next l fs l' fs' =>
    split at h
    · next hshape =>
      cases h
      refine Discharges.progress (discharges_of_pushAll hs fun σ _ _ hwork => .relate ?_)
      refine .tuple (lookup_node i) (lookup_node j) hi hj hshape fun p hp => ?_
      obtain ⟨k, hk⟩ := mem_iff_getElem?.mp hp
      exact related_of_satisfies (hwork _ (mem_map_of_mem (mk_mem_zipIdx_iff_getElem?.mpr hk)))
    · cases h
  · next a b =>
    cases h
    show Discharges g s _ (s.pushAll [.relate rel a b location])
    refine discharges_of_pushAll hs fun σ _ _ hwork => .relate ?_
    exact .metatype (lookup_node i) (lookup_node j) hi hj (related_of_satisfies (hwork _ (mem_singleton_self _)))
  · cases h

theorem matchComposite_discharges (hs : s.subst.Grounded) (hl : ∀ v, left ≠ .var v) (hr : ∀ v, right ≠ .var v)
    (h : matchComposite g s rel left right location = .ok (.next s' events)) :
    Discharges g s (.relate rel left right location) s' := by
  unfold matchComposite at h
  split at h
  · next i cases hunion =>
    obtain ⟨i', hi', hi⟩ := unionCases?_eq_some.mp hunion
    obtain rfl : i = i' := by simpa using hi'
    exact matchLeftUnion_discharges hs hi hr h
  · next left _ _ _ _ j cases hnot hunion =>
    obtain ⟨j', hj', hj⟩ := unionCases?_eq_some.mp hunion
    obtain rfl : j = j' := by simpa using hj'
    refine matchRightUnion_discharges hs hj hl ?_ h
    refine Option.eq_none_iff_forall_ne_some.mpr fun cases' hleft => ?_
    obtain ⟨i, hi, -⟩ := unionCases?_eq_some.mp hleft
    exact hnot i cases' hi hleft
  · obtain ⟨c, hc, h⟩ := bind_eq_ok.mp h
    obtain ⟨c', hc', h⟩ := bind_eq_ok.mp h
    exact matchParts_discharges hs (get?_of_get hc) (get?_of_get hc') (by simpa using h)
  · cases h

/-! ### Constraints -/

theorem Discharges.of_lookup (hs : s.subst.Grounded)
    (h : Discharges g s (.relate rel (s.subst.lookup t) (s.subst.lookup u) location) s') :
    Discharges g s (.relate rel t u location) s' where
  extend := h.extend
  grounded := h.grounded
  sound := fun σ hext hσ hwork => by
    obtain ⟨hsat, hrest⟩ := h.sound σ hext hσ hwork
    exact ⟨.relate (related_of_lookup (h.extend.trans hext) hs hσ (related_of_satisfies hsat)), hrest⟩

theorem matchTypes_discharges (hs : s.subst.Grounded) (h : matchTypes g s rel t u location = .ok (.next s' events)) :
    Discharges g s (.relate rel t u location) s' := by
  unfold matchTypes at h
  obtain ⟨equal, hequal, h⟩ := bind_eq_ok.mp h
  cases equal with
  | true =>
    cases h
    refine (discharges_progress hs fun σ _ hσ => .relate ?_).of_lookup hs
    exact .bisimilar (bisimilar_of_equal hσ hequal)
  | false =>
    simp only [Bool.false_eq_true, if_false] at h
    split at h
    · cases h
      exact discharges_enqueue hs fun _ _ _ => id
    · next ht _ _ =>
      cases h
      exact discharges_bind hs (get?_of_lookup hs ht) (hs.isEnd_lookup u) fun σ hσ => by rw [ht, hσ]
    · next hu _ _ _ =>
      cases h
      exact discharges_bind hs (get?_of_lookup hs hu) (hs.isEnd_lookup t) fun σ hσ => by rw [hu, hσ]
    · next ht hu _ _ => exact (matchComposite_discharges hs ht hu h).of_lookup hs

theorem matchMember_discharges {owner type : Ty} {m : Member} (hs : s.subst.Grounded)
    (h : matchMember g s owner m type location = .next s' events) :
    Discharges g s (.member owner m type location) s' := by
  unfold matchMember at h
  dsimp only at h
  split at h
  · cases h
    exact discharges_enqueue hs fun _ _ _ => id
  · next l fields htuple hvar =>
    split at h
    · next f hf =>
      cases h
      show Discharges g s _ (s.pushAll [.equality type f.type location])
      refine discharges_of_pushAll hs fun σ hext hσ hwork => ?_
      have howner : σ.lookup owner = s.subst.lookup owner := hext.lookup_eq hs hσ hvar
      exact .member (howner ▸ htuple) hf (related_of_satisfies (hwork _ (mem_singleton_self _)))
    · cases h
  · cases h

theorem unstall_discharges (hs : s.subst.Grounded) (h : unstall s = some (.next s' events)) (hc : c ∈ s.work) :
    Discharges g s c s' := by
  unfold unstall at h
  obtain ⟨⟨⟨v, w⟩, rest⟩, htake, h⟩ := Option.map_eq_some_iff.mp h
  obtain ⟨t, u, location, ht, hu, hwork⟩ := takeUnknown_spec htake
  cases h
  have hb : Discharges g { s with work := rest } (.conformance t u location) _ :=
    discharges_bind hs (get?_of_lookup hs ht) (hu ▸ hs.isEnd_lookup u) fun σ hσ => by rw [ht, hu, hσ]
  refine ⟨hb.extend, hb.grounded, fun σ hext hσ hrest => ?_⟩
  obtain ⟨hsat, hall⟩ := hb.sound σ hext hσ hrest
  have hsatisfied : ∀ d ∈ s.work, σ.Satisfies g d := fun d hd => by
    rcases (hwork d).mp hd with rfl | hd
    · exact hsat
    · exact hall d hd
  exact ⟨hsatisfied c hc, hsatisfied⟩

/-! ### Runs -/

theorem Advance.sound (h : Advance g s s') (hs : s.subst.Grounded) :
    s.subst.Extends s'.subst ∧ s'.subst.Grounded ∧ ∀ σ : Substitution, s'.subst.Extends σ → σ.Grounded →
      (∀ d ∈ s'.work, σ.Satisfies g d) → ∀ d ∈ s.work, σ.Satisfies g d := by
  have top : ∀ {c : Constraint} {rest : List Constraint}, s.work = c :: rest → Discharges g (s.below rest) c s' →
      s.subst.Extends s'.subst ∧ s'.subst.Grounded ∧ ∀ σ : Substitution, s'.subst.Extends σ → σ.Grounded →
        (∀ d ∈ s'.work, σ.Satisfies g d) → ∀ d ∈ s.work, σ.Satisfies g d := by
    intro c rest hwork hd
    refine ⟨hd.extend, hd.grounded, fun σ hext hσ hsat => ?_⟩
    rw [hwork]
    exact forall_mem_cons.mpr (hd.sound σ hext hσ hsat)
  cases h with
  | unstall stalled h =>
    obtain ⟨c, hc⟩ : ∃ c, c ∈ s.work := by
      refine exists_mem_of_ne_nil _ fun hnil => ?_
      simp [Solver.unstall, hnil, takeUnknown] at h
    have hd : Discharges g s c s' := unstall_discharges hs h hc
    exact ⟨hd.extend, hd.grounded, fun σ hext hσ hsat => (hd.sound σ hext hσ hsat).2⟩
  | relate work _ h => exact top work (matchTypes_discharges hs h)
  | member work _ h => exact top work (matchMember_discharges hs h)

/-- A run that ends with a table has satisfied its work once and for all: every table that extends the solution
satisfies it. The induction is on the bound of the run. -/
theorem run_satisfies : ∀ (steps : Nat) (s : State) (sh sh' : Shared) (solution : Substitution), s.subst.Grounded →
    (run g steps s).run sh = .ok (.solved solution, sh') → solution.Grounded ∧ s.subst.Extends solution ∧
      ∀ σ : Substitution, solution.Extends σ → σ.Grounded → ∀ d ∈ s.work, σ.Satisfies g d := by
  intro steps
  induction steps with
  | zero =>
    intro s sh sh' solution hs h
    cases run_cases h rfl with
    | done work outcome =>
      cases outcome
      exact ⟨hs, .refl _, by simp [work]⟩
    | advance fuel _ _ => cases fuel
    | choose fuel _ _ _ _ => cases fuel
    | noChoice _ _ outcome => cases outcome
  | succ steps ih =>
    intro s sh sh' solution hs h
    cases run_cases h rfl with
    | done work outcome =>
      cases outcome
      exact ⟨hs, .refl _, by simp [work]⟩
    | advance fuel hadv hrun =>
      cases fuel
      obtain ⟨hext, hs', hsound⟩ := hadv.sound hs
      obtain ⟨hsol, hext', hsat⟩ := ih _ _ _ _ hs' hrun
      exact ⟨hsol, hext.trans hext', fun σ hσext hσ => hsound σ (hext'.trans hσext) hσ (hsat σ hσext hσ)⟩
    | @choose choices rest location choice _ _ _ fuel work _ hc hrun =>
      cases fuel
      obtain ⟨hsol, hext, hsat⟩ := ih (s.choose choice rest) _ _ _ hs hrun
      refine ⟨hsol, hext, fun σ hσext hσ => ?_⟩
      obtain ⟨hchoice, hrest⟩ := forall_mem_cons.mp (hsat σ hσext hσ)
      rw [work]
      exact forall_mem_cons.mpr ⟨.oneOf hc hchoice, hrest⟩
    | noChoice _ _ outcome => cases outcome

theorem satisfies_of_solve {assumed solution : Substitution} {clock : Clock} {report : Report}
    (hassumed : assumed.Grounded) (h : solve g cs assumed clock = .ok report)
    (hsolved : report.outcome = .solved solution) : solution.Grounded ∧ assumed.Extends solution ∧
      ∀ σ : Substitution, solution.Extends σ → σ.Grounded → ∀ c ∈ cs, σ.Satisfies g c := by
  unfold solve at h
  obtain ⟨⟨outcome, sh⟩, hrun, h⟩ := bind_eq_ok.mp h
  cases h
  cases hsolved
  obtain ⟨hsol, hext, hsat⟩ := run_satisfies _ _ _ _ _ hassumed hrun
  exact ⟨hsol, hext, fun σ hσext hσ c hc => hsat σ hσext hσ c (mem_initial.mpr hc)⟩

/-- **Soundness of the solver.** Whatever the constraints, the assumptions and the clock: a run that ends with
a solution, and so without failures, has found a table that satisfies every constraint. -/
theorem solution_satisfies_constraints (g : TypeGraph) (cs : List Constraint) (assumed : Substitution) (clock : Clock)
    (report : Report) (solution : Substitution) (acyclic : assumed.NoVariableCycle)
    (h : solve g cs assumed clock = .ok report) (hsolution : report.outcome.solution? = some solution) :
    ∀ c ∈ cs, solution.Satisfies g c := by
  have hsolved := solved_of_solution? hsolution
  obtain ⟨hsol, -, hsat⟩ := satisfies_of_solve acyclic.grounded h hsolved
  exact hsat solution (.refl _) hsol

/-- A union of two scalar types, and a tuple with a field of it. -/
def recordGraph : TypeGraph :=
  ⟨#[.union [.int, .bool], .tuple "a" [{ type := .var 1 }, { label := "x", type := .node 0 }]]⟩

/-- Constraints that take a choice, a member of the tuple and a conformance between variables to solve. -/
def recordConstraints : List Constraint :=
  [.conformance .int (.var 0) {}, .oneOf [.equality (.var 0) .string {}, .equality (.var 0) (.node 0) {}] {},
    .member (.node 1) (.label "x") (.var 2) {}, .conformance (.var 1) (.var 3) {}]

theorem recordSolution_satisfies_recordConstraints :
    ∃ report, solve recordGraph recordConstraints .empty (some 40) = .ok report ∧
      report.outcome.solution? = some ⟨[(0, .int), (1, .var 3), (2, .node 0)]⟩ ∧
      ∀ c ∈ recordConstraints, Satisfies ⟨[(0, .int), (1, .var 3), (2, .node 0)]⟩ recordGraph c := by
  have hrun : (solve recordGraph recordConstraints .empty (some 40)).toOption.map (fun r => r.outcome.solution?) =
      some (some ⟨[(0, .int), (1, .var 3), (2, .node 0)]⟩) := by cbv
  obtain ⟨report, h, hsolution⟩ := exists_ok_of_toOption_map hrun
  exact ⟨report, h, hsolution,
    solution_satisfies_constraints _ _ _ _ report _ noVariableCycle_empty h hsolution⟩

end TypeInference.Solver
