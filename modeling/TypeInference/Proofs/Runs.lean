import Mathlib.Order.Defs.Unbundled
import TypeInference.Proofs.Computation
import TypeInference.Solver.Run

/-! # What a run does

`Advance` is a step on the way from one state to the next. A run that ends has no work left, advances, gives up a
constraint, or combines the outcomes of the choices of a disjunction (`run_ending`). An accepted run takes over the
outcome of one choice, if there are choices (`run_cases`). Everything proved of runs starts from there. -/

namespace TypeInference.Solver

open List

variable {g : TypeGraph} {s s' : State} {o : Outcome} {sh sh' : Shared} {c : Constraint} {rest : List Constraint}
  {steps : Nat}

/-- Every pending constraint was put back since the last progress. -/
def State.Stalled (s : State) : Prop := s.idle > 0 ∧ s.idle ≥ s.work.length

/-- The state without its top constraint. -/
def State.below (s : State) (rest : List Constraint) : State := { s with work := rest }

/-- The state in which a choice of the top constraint is tried. -/
def State.choose (s : State) (choice : Constraint) (rest : List Constraint) : State :=
  { work := choice :: rest, subst := s.subst, depth := s.depth + 1 }

inductive Advance (g : TypeGraph) (s s' : State) : Prop where
  | unstall {events : List Event} (stalled : s.Stalled) (h : unstall s = some (.next s' events))
  | relate {rel : Relation} {t u : Ty} {location : Location} {rest : List Constraint} {events : List Event}
      (work : s.work = .relate rel t u location :: rest) (going : ¬ s.Stalled)
      (h : matchTypes g (s.below rest) rel t u location = .ok (.next s' events))
  | member {t u : Ty} {m : Member} {location : Location} {rest : List Constraint} {events : List Event}
      (work : s.work = .member t m u location :: rest) (going : ¬ s.Stalled)
      (h : matchMember g (s.below rest) t m u location = .next s' events)

/-! ### Outcomes -/

theorem solved_of_solution? {σ : Substitution} (h : o.solution? = some σ) : o = .solved σ := by
  cases o with
  | solved τ => exact congrArg Outcome.solved (Option.some.inj h)
  | failed fs => cases h

theorem run_fail (g : TypeGraph) (s : State) (c : Constraint) (kind : FailureKind) (sh : Shared) :
    (fail g s c kind).run sh = c.reify s.subst g >>= fun r =>
      .ok (.failed [⟨kind, r.2, r.1⟩], ⟨sh.clock, [.fail s.depth kind c] ++ sh.events⟩) := by
  unfold fail
  cases c.reify s.subst g with
  | error e => rfl
  | ok r => rfl

/-- A constraint was given up, and this is all that failed. -/
def Outcome.GivesUp (o : Outcome) (kind : FailureKind) : Prop := ∃ f : Failure, o = .failed [f] ∧ f.kind = kind

/-- This constraint was given up, reified by the table. -/
def Outcome.GivesUpOn (o : Outcome) (g : TypeGraph) (σ : Substitution) (c : Constraint) (kind : FailureKind) : Prop :=
  ∃ r, c.reify σ g = .ok r ∧ o = .failed [⟨kind, r.2, r.1⟩]

theorem givesUpOn_of_fail {kind : FailureKind} (h : (fail g s c kind).run sh = .ok (o, sh')) :
    o.GivesUpOn g s.subst c kind := by
  rw [run_fail] at h
  obtain ⟨r, hr, h⟩ := bind_eq_ok.mp h
  cases h
  exact ⟨r, hr, rfl⟩

theorem Outcome.GivesUpOn.givesUp {σ : Substitution} {kind : FailureKind} (h : o.GivesUpOn g σ c kind) :
    o.GivesUp kind :=
  h.elim fun _ h => ⟨_, h.2, rfl⟩

theorem Outcome.GivesUpOn.not_isOk {σ : Substitution} {kind : FailureKind} (h : o.GivesUpOn g σ c kind) :
    o.isOk = false := by
  obtain ⟨r, -, rfl⟩ := h
  rfl

/-! ### Choices -/

/-- Each outcome comes from a computation on some element, and there are as many of them. -/
theorem mem_of_distinctOutcomes {w : Walks} {past : List Event} : ∀ {rest : List Outcome} {g : TypeGraph}
    {known : List (Outcome × Substitution)} {os : List Outcome}, distinctOutcomes w past g known rest = .ok os →
    ∀ o ∈ os, o ∈ known.map Prod.fst ∨ o ∈ rest
  | [], g, known, os, h => by
    cases h
    exact fun o ho => .inl ho
  | r :: rest, g, known, os, h => by
    unfold distinctOutcomes at h
    obtain ⟨⟨g', resolved⟩, -, h⟩ := bind_eq_ok.mp h
    obtain ⟨dup, -, h⟩ := bind_eq_ok.mp h
    intro o ho
    cases dup with
    | true => exact (mem_of_distinctOutcomes h o ho).imp_right (mem_cons_of_mem r)
    | false =>
      rcases mem_of_distinctOutcomes h o ho with hk | hr
      · rw [map_append, mem_append] at hk
        refine hk.imp_right fun hk => ?_
        simp only [map_cons, map_nil, mem_singleton] at hk
        exact hk ▸ mem_cons_self
      · exact .inr (mem_cons_of_mem r hr)

/-- A disjunction passes on the failures of its choices, takes over the outcome of one, or is given up. -/
theorem combine_ending {outcomes : List Outcome} (h : (combine g s c outcomes).run sh = .ok (o, sh')) :
    outcomes.filter Outcome.isOk = [] ∧ o = .failed (outcomes.flatMap Outcome.failures) ∨ o ∈ outcomes ∨
    o.GivesUpOn g s.subst c .ambiguous := by
  unfold combine combineWith at h
  obtain ⟨-, sh1, -, h⟩ := run_bind_eq_ok.mp h
  split at h
  · next hnone =>
    cases h
    exact .inl ⟨hnone, rfl⟩
  · next o' hone =>
    cases h
    have hmem : o ∈ outcomes.filter Outcome.isOk := by simp [hone]
    exact .inr (.inl (mem_filter.mp hmem).1)
  · obtain ⟨past, sh1, -, h⟩ := run_bind_eq_ok.mp h
    obtain ⟨distinct, sh2, hd, h⟩ := run_bind_eq_ok.mp h
    obtain ⟨distinct', hos, heq⟩ := run_lift_eq_ok.mp hd
    obtain ⟨rfl, rfl⟩ := Prod.mk.inj heq
    split at h
    · cases h
      have hmem := (mem_of_distinctOutcomes hos _ (mem_singleton_self _)).resolve_left not_mem_nil
      exact .inr (.inl (mem_filter.mp hmem).1)
    · exact .inr (.inr (givesUpOn_of_fail h))

/-- An accepted outcome of a disjunction is that of one of its choices, unless there were no choices. -/
theorem combine_cases {outcomes : List Outcome} (h : (combine g s c outcomes).run sh = .ok (o, sh'))
    (ho : o.isOk = true) : o ∈ outcomes ∨ (outcomes = [] ∧ o = .failed []) := by
  rcases combine_ending h with ⟨hnone, rfl⟩ | hmem | hgives
  · -- a choice that was not accepted has failures, which would be failures of the disjunction
    have hfail : outcomes.flatMap Outcome.failures = [] := by simpa [Outcome.isOk, Outcome.failures] using ho
    have hempty : outcomes = [] := by
      refine eq_nil_iff_forall_not_mem.mpr fun o' ho' => ?_
      have hok := filter_eq_nil_iff.mp hnone o' ho'
      have hnil := flatMap_eq_nil_iff.mp hfail o' ho'
      simp [Outcome.isOk, hnil] at hok
    exact .inr ⟨hempty, by rw [hfail]⟩
  · exact .inl hmem
  · simp [hgives.not_isOk] at ho

/-! ### The equations of a run -/

section

variable {w : Walks}

/-- The run after a step. -/
def follow (w : Walks) (g : TypeGraph) (n : Nat) (s : State) (c : Constraint) : StepResult → RunM Outcome
  | .next s' events => do
    report events
    runWith w g n s'
  | .mismatch => fail g s c .typeMismatch

/-- The run after a constraint was taken from the top of the work. -/
def resume (w : Walks) (g : TypeGraph) (n : Nat) (s : State) : Constraint → RunM Outcome
  | .relate rel t u location => do
    follow w g n s (.relate rel t u location) (← (matchTypes g s rel t u location : Except Fault _))
  | .member t m u location => follow w g n s (.member t m u location) (matchMember g s t m u location)
  | .oneOf choices location => do
    let outcomes ← choices.mapM fun choice => runWith w g n (s.choose choice s.work)
    if ← expired then fail g s (.oneOf choices location) .timeout
    else combineWith w g s (.oneOf choices location) outcomes
  | .unknown _ _ => throw .unknownConstraint

theorem resume_relate {n : Nat} {rel : Relation} {t u : Ty} {location : Location} {r : StepResult}
    (h : matchTypes g s rel t u location = .ok r) :
    resume w g n s (.relate rel t u location) = follow w g n s (.relate rel t u location) r := by
  rw [resume, h]
  rfl

theorem unstall_cases (s : State) : unstall s = none ∨ ∃ s' events, unstall s = some (.next s' events) := by
  unfold unstall
  cases takeUnknown s.subst s.work with
  | none => exact .inl rfl
  | some r => exact .inr ⟨_, _, rfl⟩

theorem runWith_nil (h : s.work = []) (n : Nat) : runWith w g n s = pure (.solved s.subst) := by
  cases n with
  | zero => simp [runWith, h]
  | succ n => simp [runWith, h]

theorem runWith_stalled (hwork : s.work = c :: rest) (hstalled : s.Stalled) (n : Nat) :
    runWith w g (n + 1) s = (match unstall s with
      | some (.next s' events) => do
        report events
        runWith w g n s'
      | _ => fail g s c .stalled) := by
  have hif : s.idle > 0 ∧ s.idle ≥ (c :: rest).length := hwork ▸ hstalled
  rw [runWith.eq_def]
  simp only [hwork]
  exact if_pos hif

theorem runWith_going (hwork : s.work = c :: rest) (hgoing : ¬ s.Stalled) (n : Nat) :
    runWith w g (n + 1) s = (do
      if ← expired then fail g (s.below rest) c .timeout
      else
        report [.pop s.depth c rest.length]
        resume w g n (s.below rest) c) := by
  have hif : ¬ (s.idle > 0 ∧ s.idle ≥ (c :: rest).length) := hwork ▸ hgoing
  rw [runWith.eq_def]
  simp only [hwork]
  rw [if_neg hif]
  cases c <;> rfl

end

/-! ### What is shared -/

/-- The relation holds between what branches share before the computation and after it. -/
def Keeps (R : Shared → Shared → Prop) {α : Type} (x : RunM α) : Prop := ∀ sh a sh', x.run sh = .ok (a, sh') → R sh sh'

namespace Keeps

variable {α β : Type} {R : Shared → Shared → Prop}

theorem throw (fault : Fault) : Keeps R (throw fault : RunM α) := fun _ _ _ h => by cases h

variable [IsPreorder Shared R]

theorem pure (a : α) : Keeps R (Pure.pure a) := by
  intro sh b sh' h
  cases h
  exact refl_of R sh

theorem reported : Keeps R reported := by
  intro sh a sh' h
  cases h
  exact refl_of R sh

theorem bind {x : RunM α} {f : α → RunM β} (hx : Keeps R x) (hf : ∀ a, Keeps R (f a)) : Keeps R (x >>= f) := by
  intro sh b sh' h
  obtain ⟨a, sh1, ha, hb⟩ := run_bind_eq_ok.mp h
  exact trans_of R (hx sh a sh1 ha) (hf a sh1 b sh' hb)

theorem lift (x : Except Fault α) : Keeps R (liftM x : RunM α) := by
  intro sh a sh' h
  obtain ⟨b, -, heq⟩ := run_lift_eq_ok.mp h
  cases heq
  exact refl_of R sh

theorem mapM {xs : List α} {f : α → RunM β} (h : ∀ x ∈ xs, Keeps R (f x)) : Keeps R (xs.mapM f) := by
  induction xs with
  | nil => exact pure []
  | cons x xs ih =>
    rw [mapM_cons]
    obtain ⟨hx, hxs⟩ := forall_mem_cons.mp h
    exact bind hx fun y => bind (ih hxs) fun ys => pure _

theorem fail {kind : FailureKind} (h : Keeps R (report [.fail s.depth kind c])) : Keeps R (fail g s c kind) :=
  bind h fun _ => bind (lift _) fun _ => pure _

theorem combineWith {w : Walks} {outcomes : List Outcome} (hfail : Keeps R (report [.fail s.depth .ambiguous c]))
    (hbranches : ∀ events, (∀ e ∈ events, ∃ depth i ok, e = .branch depth i ok) → Keeps R (report events)) :
    Keeps R (combineWith w g s c outcomes) := by
  unfold Solver.combineWith
  refine bind (hbranches _ fun e he => ?_) fun _ => ?_
  · obtain ⟨x, -, rfl⟩ := mem_map.mp he
    exact ⟨_, _, _, rfl⟩
  · split
    · exact pure _
    · exact pure _
    · refine bind reported fun _ => bind (lift _) fun _ => ?_
      split
      · exact pure _
      · exact fail hfail

end Keeps

/-- The clock stays as it is, if it is so. -/
def Patient (clock : Clock) (sh sh' : Shared) : Prop := sh.clock = clock → sh'.clock = clock

instance {clock : Clock} : IsPreorder Shared (Patient clock) where
  refl _ := id
  trans _ _ _ h h' := h' ∘ h

theorem report_patient {clock : Clock} (events : List Event) : Keeps (Patient clock) (report events) := by
  intro sh a sh' h
  cases h
  exact id

theorem expired_patient : Keeps (Patient none) expired := by
  intro sh a sh' h hsh
  obtain ⟨sh1, sh2, hget, h⟩ := run_bind_eq_ok.mp h
  cases hget
  rw [hsh] at h
  cases h
  exact hsh

theorem run_patient (g : TypeGraph) (steps : Nat) (s : State) : Keeps (Patient none) (run g steps s) := by
  induction steps generalizing s with
  | zero =>
    unfold run runWith
    split
    · exact .pure _
    · exact .throw _
  | succ steps ih =>
    cases hwork : s.work with
    | nil =>
      rw [run, runWith_nil hwork]
      exact .pure _
    | cons c rest =>
      have hfollow : ∀ r, Keeps (Patient none) (follow .inOrder g steps (s.below rest) c r) := by
        intro r
        cases r with
        | next s' events => exact .bind (report_patient _) fun _ => ih s'
        | mismatch => exact .fail (report_patient _)
      by_cases hstalled : s.Stalled
      · rw [run, runWith_stalled hwork hstalled]
        split
        · exact .bind (report_patient _) fun _ => ih _
        · exact .fail (report_patient _)
      · rw [run, runWith_going hwork hstalled]
        refine .bind expired_patient fun late => ?_
        split
        · exact .fail (report_patient _)
        · refine .bind (report_patient _) fun _ => ?_
          cases c with
          | relate rel t u location => exact .bind (.lift _) hfollow
          | member t m u location => exact hfollow _
          | oneOf choices location =>
            refine .bind (.mapM fun choice _ => ih _) fun outcomes => .bind expired_patient fun late => ?_
            split
            · exact .fail (report_patient _)
            · exact .combineWith (report_patient _) fun _ _ => report_patient _
          | unknown kind location => exact .throw _

/-! ### Endings -/

/-- The top constraint cannot hold. -/
inductive Mismatch (g : TypeGraph) (s : State) (rest : List Constraint) : Constraint → Prop where
  | relate {rel : Relation} {t u : Ty} {location : Location}
      (h : matchTypes g (s.below rest) rel t u location = .ok .mismatch) : Mismatch g s rest (.relate rel t u location)
  | member {t u : Ty} {m : Member} {location : Location} (h : matchMember g (s.below rest) t m u location = .mismatch) :
      Mismatch g s rest (.member t m u location)

/-- How a run comes to its outcome. -/
inductive Ending (g : TypeGraph) (steps : Nat) (s : State) (sh : Shared) (o : Outcome) (sh' : Shared) : Prop where
  | done (work : s.work = []) (outcome : o = .solved s.subst)
  | advance {s' : State} {sh1 : Shared} {steps' : Nat} (fuel : steps = steps' + 1) (h : Advance g s s')
      (clock : sh.clock = none → sh1.clock = none) (run : (run g steps' s').run sh1 = .ok (o, sh'))
  | stalled {c : Constraint} {rest : List Constraint} (work : s.work = c :: rest) (stalled : s.Stalled)
      (stuck : unstall s = none) (outcome : o.GivesUpOn g s.subst c .stalled)
  | late {c : Constraint} {rest : List Constraint} (work : s.work = c :: rest) (clock : sh.clock ≠ none)
      (outcome : o.GivesUpOn g s.subst c .timeout)
  | mismatch {c : Constraint} {rest : List Constraint} (work : s.work = c :: rest) (going : ¬ s.Stalled)
      (h : Mismatch g s rest c) (outcome : o.GivesUpOn g s.subst c .typeMismatch)
  | choice {choices rest : List Constraint} {location : Location} {outcomes : List Outcome} {sh1 sh2 sh3 : Shared}
      {steps' : Nat} (fuel : steps = steps' + 1) (work : s.work = .oneOf choices location :: rest) (going : ¬ s.Stalled)
      (clock : sh.clock = none → sh1.clock = none)
      (runs : (choices.mapM fun choice => run g steps' (s.choose choice rest)).run sh1 = .ok (outcomes, sh2))
      (combined : (combine g (s.below rest) (.oneOf choices location) outcomes).run sh3 = .ok (o, sh'))

theorem clock_of_expired (h : expired.run sh = .ok (true, sh')) : sh.clock ≠ none := by
  intro hsh
  obtain ⟨sh1, sh2, hget, h⟩ := run_bind_eq_ok.mp h
  cases hget
  rw [hsh] at h
  cases h

theorem run_ending (h : (run g steps s).run sh = .ok (o, sh')) : Ending g steps s sh o sh' := by
  cases hwork : s.work with
  | nil =>
    rw [run, runWith_nil hwork] at h
    cases h
    exact .done hwork rfl
  | cons c rest =>
    cases steps with
    | zero =>
      unfold run runWith at h
      rw [hwork] at h
      cases h
    | succ steps =>
      by_cases hstalled : s.Stalled
      · rw [run, runWith_stalled hwork hstalled] at h
        rcases unstall_cases s with hun | ⟨s', events, hun⟩
        · rw [hun] at h
          exact .stalled hwork hstalled hun (givesUpOn_of_fail h)
        · rw [hun] at h
          obtain ⟨_, sh1, hreport, h⟩ := run_bind_eq_ok.mp h
          exact .advance rfl (.unstall hstalled hun) (report_patient _ _ _ _ hreport) h
      · rw [run, runWith_going hwork hstalled] at h
        obtain ⟨late, sh1, hlate, h⟩ := run_bind_eq_ok.mp h
        cases late with
        | true => exact .late hwork (clock_of_expired hlate) (givesUpOn_of_fail h)
        | false =>
          obtain ⟨_, sh2, hreport, h⟩ := run_bind_eq_ok.mp h
          have hclock : sh.clock = none → sh2.clock = none := fun hsh =>
              report_patient _ _ _ _ hreport (expired_patient _ _ _ hlate hsh)
          cases c with
          | relate rel t u location =>
            obtain ⟨r, sh3, hr, h⟩ := run_bind_eq_ok.mp h
            obtain ⟨r', hmatch, heq⟩ := run_lift_eq_ok.mp hr
            obtain ⟨rfl, rfl⟩ := Prod.mk.inj heq
            cases r' with
            | next s' events =>
              obtain ⟨_, sh4, hreport', h⟩ := run_bind_eq_ok.mp h
              exact .advance rfl (.relate hwork hstalled hmatch)
                (fun hsh => report_patient _ _ _ _ hreport' (hclock hsh)) h
            | mismatch => exact .mismatch hwork hstalled (.relate hmatch) (givesUpOn_of_fail h)
          | member t m u location =>
            change (follow .inOrder g steps (s.below rest) _ (matchMember g (s.below rest) t m u location)).run
              sh2 = _ at h
            cases hmatch : matchMember g (s.below rest) t m u location with
            | next s' events =>
              rw [hmatch] at h
              obtain ⟨_, sh3, hreport', h⟩ := run_bind_eq_ok.mp h
              exact .advance rfl (.member hwork hstalled hmatch)
                (fun hsh => report_patient _ _ _ _ hreport' (hclock hsh)) h
            | mismatch =>
              rw [hmatch] at h
              exact .mismatch hwork hstalled (.member hmatch) (givesUpOn_of_fail h)
          | oneOf choices location =>
            obtain ⟨outcomes, sh3, hruns, h⟩ := run_bind_eq_ok.mp h
            obtain ⟨late, sh4, hlate', h⟩ := run_bind_eq_ok.mp h
            cases late with
            | true =>
              refine .late hwork (fun hsh => clock_of_expired hlate' ?_) (givesUpOn_of_fail h)
              exact Keeps.mapM (fun choice _ => run_patient g steps _) _ _ _ hruns (hclock hsh)
            | false => exact .choice rfl hwork hstalled hclock hruns h
          | unknown kind location => cases h

/-! ### Accepted runs -/

/-- What an accepted run does first. -/
inductive FirstMove (g : TypeGraph) (steps : Nat) (s : State) (o : Outcome) (sh' : Shared) : Prop where
  | done (work : s.work = []) (outcome : o = .solved s.subst)
  | advance {s' : State} {sh1 : Shared} {steps' : Nat} (fuel : steps = steps' + 1) (h : Advance g s s')
      (run : (run g steps' s').run sh1 = .ok (o, sh'))
  | choose {choices rest : List Constraint} {location : Location} {choice : Constraint} {sh1 sh2 : Shared}
      {steps' : Nat} (fuel : steps = steps' + 1) (work : s.work = .oneOf choices location :: rest) (going : ¬ s.Stalled)
      (hc : choice ∈ choices) (run : (run g steps' (s.choose choice rest)).run sh1 = .ok (o, sh2))
  | noChoice {rest : List Constraint} {location : Location} (work : s.work = .oneOf [] location :: rest)
      (going : ¬ s.Stalled) (outcome : o = .failed [])

theorem run_cases (h : (run g steps s).run sh = .ok (o, sh')) (ho : o.isOk = true) : FirstMove g steps s o sh' := by
  have notOk : ∀ {σ : Substitution} {c : Constraint} {kind : FailureKind}, ¬ o.GivesUpOn g σ c kind := fun h => by
    simp [h.not_isOk] at ho
  cases run_ending h with
  | done work outcome => exact .done work outcome
  | advance fuel h _ run => exact .advance fuel h run
  | stalled _ _ _ outcome => exact absurd outcome notOk
  | late _ _ outcome => exact absurd outcome notOk
  | mismatch _ _ _ outcome => exact absurd outcome notOk
  | choice fuel work going _ runs combined =>
    rcases combine_cases combined ho with hin | ⟨rfl, rfl⟩
    · obtain ⟨choice, hc, sh1, sh2, hrun⟩ := exists_of_forall₂ (runs_of_mapM runs) hin
      exact .choose fuel work going hc hrun
    · cases runs_of_mapM runs
      exact .noChoice work going rfl

end TypeInference.Solver
