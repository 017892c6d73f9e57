import TypeInference.Proofs.Timeouts

/-! # How a run ends

What holds of the outcome of every run that ends is proved by induction along the ways in which it can end
(`run_induction`). -/

namespace TypeInference.Solver

open List

variable {g : TypeGraph} {s s' : State} {o : Outcome} {sh sh' : Shared} {c : Constraint} {rest : List Constraint}
  {steps : Nat}

/-- Solving comes to the outcome, if it is given enough steps. -/
def Concludes (g : TypeGraph) (cs : List Constraint) (assumed : Substitution) (clock : Clock) (o : Outcome) : Prop :=
  ∃ steps sh, (run g steps (.initial cs assumed)).run { clock := clock } = .ok (o, sh)

theorem concludes_of_solve {cs : List Constraint} {assumed : Substitution} {clock : Clock} {report : Report}
    (h : solve g cs assumed clock = .ok report) : Concludes g cs assumed clock report.outcome := by
  obtain ⟨r, hrun, h⟩ := bind_eq_ok.mp h
  cases h
  exact ⟨_, r.2, hrun⟩

/-! ### Induction over runs -/

/-- What is proved of the states and outcomes of runs, case by case. -/
structure Inductive (g : TypeGraph) (P : State → Outcome → Prop) : Prop where
  done : ∀ {s}, s.work = [] → P s (.solved s.subst)
  advance : ∀ {s s' o}, Advance g s s' → P s' o → P s o
  stalled : ∀ {s o c rest}, s.work = c :: rest → s.Stalled → unstall s = none → o.GivesUp .stalled → P s o
  mismatch : ∀ {s o c rest}, s.work = c :: rest → ¬ s.Stalled → Mismatch g s rest c → o.GivesUp .typeMismatch → P s o
  choice : ∀ {s o choices rest location outcomes sh sh'}, s.work = .oneOf choices location :: rest → ¬ s.Stalled →
    List.Forall₂ (fun choice o' => P (s.choose choice rest) o') choices outcomes →
    (combine g (s.below rest) (.oneOf choices location) outcomes).run sh = .ok (o, sh') → P s o

/-- What is inductive holds of every run that ends, if it holds when time is up. The induction is on the bound of the
run. -/
theorem run_induction {P : State → Outcome → Prop} (hP : Inductive g P)
    (hlate : sh.clock ≠ none → ∀ s o, o.GivesUp .timeout → P s o) (h : (run g steps s).run sh = .ok (o, sh')) :
    P s o := by
  suffices hall : ∀ steps s sh1 o sh', (sh.clock = none → sh1.clock = none) →
      (run g steps s).run sh1 = .ok (o, sh') → P s o from
    hall steps s sh o sh' id h
  clear h
  intro steps
  induction steps using Nat.strong_induction_on with
  | _ steps ih =>
    intro s sh1 o sh' hclock h
    cases run_ending h with
    | done work outcome => exact outcome ▸ hP.done work
    | stalled work stalled stuck outcome => exact hP.stalled work stalled stuck outcome.givesUp
    | late _ clock outcome => exact hlate (mt hclock clock) _ _ outcome.givesUp
    | mismatch work going h outcome => exact hP.mismatch work going h outcome.givesUp
    | advance fuel h clock run => exact hP.advance h (ih _ (by omega) _ _ _ _ (fun hsh => clock (hclock hsh)) run)
    | choice fuel work going clock runs combined =>
      refine hP.choice work going (forall₂_of_mapM (I := fun st => sh.clock = none → st.clock = none) ?_ ?_ runs)
        combined
      · intro choice st o' st' hst hrun
        exact ⟨ih _ (by omega) _ _ _ _ hst hrun, fun hsh => run_patient g _ _ _ _ _ hrun (hst hsh)⟩
      · exact fun hsh => clock (hclock hsh)

/-- What fails in a disjunction failed in one of its choices, or the choices leave the solution open. -/
theorem failures_of_combine {outcomes : List Outcome} (h : (combine g s c outcomes).run sh = .ok (o, sh')) :
    o.GivesUpOn g s.subst c .ambiguous ∨ ∀ f ∈ o.failures, ∃ o' ∈ outcomes, f ∈ o'.failures := by
  rcases combine_ending h with ⟨-, rfl⟩ | hmem | hgives
  · exact .inr fun f hf => mem_flatMap.mp hf
  · exact .inr fun f hf => ⟨o, hmem, hf⟩
  · exact .inl hgives

end TypeInference.Solver
