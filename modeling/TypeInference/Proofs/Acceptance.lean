import Mathlib
import TypeInference.Proofs.Stages
import TypeInference.Proofs.Steps

/-! # What acceptance is worth

A run is accepted when nothing was given up. Then it followed one choice of every disjunction until no work was left,
and returns the table that it had there; or it came to a disjunction that has no choices
(`acceptance_without_solution`). `Adopted` follows the choices whose outcome a run takes over. -/

namespace TypeInference.Solver

open Substitution

variable {g : TypeGraph} {s s' e : State} {o : Outcome} {steps : Nat} {cs : List Constraint} {location : Location}
  {assumed : Substitution}

/-- Some run from the state has the outcome. -/
def Yields (g : TypeGraph) (steps : Nat) (s : State) (o : Outcome) : Prop :=
  ∃ sh sh', (run g steps s).run sh = .ok (o, sh')

/-- The states that a run with the outcome `o` passes: of every disjunction a choice is followed that has the outcome
itself. -/
inductive Adopted (g : TypeGraph) (o : Outcome) : Nat → State → State → Prop where
  | here {steps : Nat} {s : State} : Adopted g o steps s s
  | advance {steps : Nat} {s s' e : State} (h : Advance g s s') (yields : Yields g steps s' o)
      (rest : Adopted g o steps s' e) : Adopted g o (steps + 1) s e
  | choose {steps : Nat} {s e : State} {choices pending : List Constraint} {location : Location} {choice : Constraint}
      (work : s.work = .oneOf choices location :: pending) (going : ¬ s.Stalled) (hc : choice ∈ choices)
      (yields : Yields g steps (s.choose choice pending) o)
      (rest : Adopted g o steps (s.choose choice pending) e) : Adopted g o (steps + 1) s e

/-- A disjunction without choices is next. -/
def State.NoChoice (s : State) : Prop := ∃ location rest, s.work = .oneOf [] location :: rest ∧ ¬ s.Stalled

/-! ### Accepted runs -/

theorem adopted_of_yields (h : Yields g steps s o) (ho : o.isOk = true) :
    ∃ e, Adopted g o steps s e ∧ (e.work = [] ∧ o = .solved e.subst ∨ e.NoChoice ∧ o = .failed []) := by
  induction steps generalizing s with
  | zero =>
    obtain ⟨sh, sh', h⟩ := h
    cases run_cases h ho with
    | done work outcome => exact ⟨s, .here, .inl ⟨work, outcome⟩⟩
    | noChoice work going outcome => exact ⟨s, .here, .inr ⟨⟨_, _, work, going⟩, outcome⟩⟩
    | advance fuel => cases fuel
    | choose fuel => cases fuel
  | succ steps ih =>
    obtain ⟨sh, sh', h⟩ := h
    cases run_cases h ho with
    | done work outcome => exact ⟨s, .here, .inl ⟨work, outcome⟩⟩
    | noChoice work going outcome => exact ⟨s, .here, .inr ⟨⟨_, _, work, going⟩, outcome⟩⟩
    | advance fuel hadvance run =>
      cases fuel
      obtain ⟨e, hpath, hend⟩ := ih ⟨_, _, run⟩
      exact ⟨e, .advance hadvance ⟨_, _, run⟩ hpath, hend⟩
    | choose fuel work going hc run =>
      cases fuel
      obtain ⟨e, hpath, hend⟩ := ih ⟨_, _, run⟩
      exact ⟨e, .choose work going hc ⟨_, _, run⟩ hpath, hend⟩

theorem State.NoChoice.outcome (he : e.NoChoice) (h : Yields g steps e o) (ho : o.isOk = true) : o = .failed [] := by
  obtain ⟨location, rest, hwork, hgoing⟩ := he
  obtain ⟨sh, sh', h⟩ := h
  cases run_cases h ho with
  | done work => simp [hwork] at work
  | noChoice _ _ outcome => exact outcome
  | advance _ hadvance =>
    cases hadvance with
    | unstall stalled => exact absurd stalled hgoing
    | relate work => simp [hwork] at work
    | member work => simp [hwork] at work
  | choose _ work _ hc =>
    obtain ⟨⟨rfl, -⟩, -⟩ : (_ = _ ∧ _) ∧ _ := by simpa [hwork] using work
    cases hc

theorem Adopted.yields (h : Adopted g o steps s e) (hs : Yields g steps s o) : ∃ n, Yields g n e o := by
  induction h with
  | here => exact ⟨_, hs⟩
  | advance _ yields _ ih => exact ih yields
  | choose _ _ _ yields _ ih => exact ih yields

/-! ### Where disjunctions without choices come from -/

/-- What may be pending in a run with the outcome `o` from the state `s0`. -/
inductive Posed (g : TypeGraph) (o : Outcome) (steps : Nat) (s0 : State) : Constraint → Prop where
  | given {c d : Constraint} (hc : c ∈ s0.work) (h : Within d c) : Posed g o steps s0 d
  | relation {rel : Relation} {t u : Ty} {location : Location} : Posed g o steps s0 (.relate rel t u location)
  | cases {s : State} {c d : Constraint} {rest : List Constraint} (hs : Adopted g o steps s0 s)
      (hwork : s.work = c :: rest) (h : CaseChoice g s.subst c d) : Posed g o steps s0 d

theorem Posed.of_advance {d : Constraint} (hadvance : Advance g s s') (hyields : Yields g steps s' o)
    (h : Posed g o steps s' d) : Posed g o (steps + 1) s d := by
  cases h with
  | relation => exact .relation
  | cases hs hwork h => exact .cases (.advance hadvance hyields hs) hwork h
  | given hc h =>
    rcases hadvance.mem_work hc with hc | ⟨rel, t, u, location, rfl⟩ | ⟨c, rest, hwork, hcases⟩
    · exact .given hc h
    · cases h
      exact .relation
    · cases h with
      | self => exact .cases .here hwork hcases
      | choice hd h =>
        cases hcases
        obtain ⟨u, -, rfl⟩ := List.mem_map.mp hd
        cases h
        exact .relation

theorem Posed.of_choose {choices pending : List Constraint} {choice d : Constraint}
    (hwork : s.work = .oneOf choices location :: pending) (hgoing : ¬ s.Stalled) (hchoice : choice ∈ choices)
    (hyields : Yields g steps (s.choose choice pending) o) (h : Posed g o steps (s.choose choice pending) d) :
    Posed g o (steps + 1) s d := by
  cases h with
  | relation => exact .relation
  | cases hs hwork' h => exact .cases (.choose hwork hgoing hchoice hyields hs) hwork' h
  | given hc h =>
    rcases List.mem_cons.mp hc with rfl | hc
    · exact .given (hwork ▸ List.mem_cons_self) (.choice hchoice h)
    · exact .given (hwork ▸ List.mem_cons_of_mem _ hc) h

theorem Adopted.posed (h : Adopted g o steps s e) : ∀ d ∈ e.work, Posed g o steps s d := by
  induction h with
  | here => exact fun d hd => .given hd .self
  | advance hadvance hyields _ ih => exact fun d hd => (ih d hd).of_advance hadvance hyields
  | choose hwork hgoing hc hyields _ ih => exact fun d hd => (ih d hd).of_choose hwork hgoing hc hyields

/-- The next constraint relates a type to a union that has no leaf cases under the table of the state: it has no cases,
or only cases that lead back to it. -/
def State.AtLeafless (g : TypeGraph) (s : State) : Prop :=
  ∃ c rest j cases, s.work = c :: rest ∧ RelatesTo s.subst (.node j) c ∧ g.get? j = some (.union cases) ∧
    ∀ x, ¬ s.subst.Leaf g (.node j) x

theorem Posed.noChoice (h : Posed g o steps s (.oneOf [] location)) :
    (∃ c ∈ s.work, Within (.oneOf [] location) c) ∨ ∃ s', Adopted g o steps s s' ∧ s'.AtLeafless g := by
  cases h with
  | given hc h => exact .inl ⟨_, hc, h⟩
  | @cases s' c _ rest hs hwork h =>
    generalize hd : Constraint.oneOf [] location = d at h
    obtain @⟨left, j, cases, ls, path, location', hc, hj, hls⟩ := h
    obtain ⟨hnil, -⟩ := Constraint.oneOf.inj hd
    obtain rfl := List.map_eq_nil_iff.mp hnil.symm
    refine .inr ⟨s', hs, c, rest, j, cases, hwork, hc, hj, fun x hx => ?_⟩
    obtain ⟨y, hy, -⟩ := leafCases_complete hj hls hx
    cases hy

/-! ### Acceptance -/

theorem yields_of_solve {clock : Clock} {report : Report} (h : solve g cs assumed clock = .ok report) :
    Yields g (stepsFor clock) (.initial cs assumed) report.outcome := by
  unfold solve at h
  obtain ⟨⟨outcome, sh⟩, hrun, h⟩ := bind_eq_ok.mp h
  cases h
  exact ⟨_, _, hrun⟩

/-- The constraints are accepted by a run that comes to a disjunction without choices. -/
def EndsWithoutChoice (g : TypeGraph) (cs : List Constraint) (assumed : Substitution) (clock : Clock) : Prop :=
  ∃ report, solve g cs assumed clock = .ok report ∧ report.outcome.isOk = true ∧
    ∃ e, Adopted g report.outcome (stepsFor clock) (.initial cs assumed) e ∧ e.NoChoice

theorem solution?_eq_none (ho : o.isOk = true) : o.solution? = none ↔ o = .failed [] := by
  cases o with
  | solved σ => simp [Outcome.solution?]
  | failed fs => simpa [Outcome.solution?, Outcome.isOk, Outcome.failures] using ho

/-- An accepted run has no solution exactly if it comes to a disjunction without choices. -/
theorem no_solution_iff (h : Yields g steps s o) (ho : o.isOk = true) :
    o.solution? = none ↔ ∃ e, Adopted g o steps s e ∧ e.NoChoice := by
  rw [solution?_eq_none ho]
  constructor
  · intro hfailed
    obtain ⟨e, hpath, ⟨-, hsolved⟩ | ⟨hchoice, -⟩⟩ := adopted_of_yields h ho
    · rw [hfailed] at hsolved
      cases hsolved
    · exact ⟨e, hpath, hchoice⟩
  · rintro ⟨e, hpath, hchoice⟩
    obtain ⟨n, hyields⟩ := hpath.yields h
    exact hchoice.outcome hyields ho

theorem emptied_of_solution {σ : Substitution} (h : Yields g steps s o) (hσ : o.solution? = some σ) :
    ∃ e, Adopted g o steps s e ∧ e.work = [] ∧ e.subst = σ := by
  have hsolved := solved_of_solution? hσ
  obtain ⟨e, hpath, ⟨hwork, hsubst⟩ | ⟨-, hfailed⟩⟩ := adopted_of_yields h (by rw [hsolved]; rfl)
  · rw [hsolved] at hsubst
    exact ⟨e, hpath, hwork, (Outcome.solved.inj hsubst).symm⟩
  · rw [hsolved] at hfailed
    cases hfailed

/-- A disjunction without choices was given, or made from a union without leaf cases that the run came to. -/
theorem Adopted.noChoice_origin (h : Adopted g o steps (.initial cs assumed) e) (he : e.NoChoice) :
    (∃ c ∈ cs, ∃ location, Within (.oneOf [] location) c) ∨ ∃ s, Adopted g o steps (.initial cs assumed) s ∧
    s.AtLeafless g := by
  obtain ⟨location, rest, hwork, -⟩ := he
  rcases (h.posed _ (hwork ▸ List.mem_cons_self)).noChoice with ⟨c, hc, hwithin⟩ | hleafless
  · exact .inl ⟨c, mem_initial.mp hc, location, hwithin⟩
  · exact .inr hleafless

/-- The constraints are accepted without a solution by a run that comes to a union without leaf cases. -/
def EndsAtLeafless (g : TypeGraph) (cs : List Constraint) (assumed : Substitution) (clock : Clock) : Prop :=
  ∃ report, solve g cs assumed clock = .ok report ∧ report.outcome = .failed [] ∧
    ∃ s, Adopted g report.outcome (stepsFor clock) (.initial cs assumed) s ∧ s.AtLeafless g

/-- A session is left without a problem and without a solution exactly if its constraints are. -/
theorem session_unsolved_iff {s s' : Session} {c : Context} (hc : s.ready? = some c) (h : s.solve = .ok s') :
    s'.diagnostics = [] ∧ s'.solution = none ↔ EndsWithoutChoice s.graph c.constraints .empty s.solverClock := by
  obtain ⟨report, hreport, hsolved⟩ := Session.solve_eq_ok hc h
  have hnone : report.outcome.isOk = true → (s'.solution = none ↔
      ∃ e, Adopted s.graph report.outcome (stepsFor s.solverClock) (.initial c.constraints .empty) e ∧ e.NoChoice) := by
    intro hok
    rw [(hsolved.accepted hok).2]
    exact no_solution_iff (yields_of_solve hreport) hok
  constructor
  · rintro ⟨hclean, hsolution⟩
    have hok : report.outcome.isOk = true := by
      by_contra hnot
      exact hsolved.rejected (by simpa using hnot) hclean
    exact ⟨report, hreport, hok, (hnone hok).mp hsolution⟩
  · rintro ⟨report', hreport', hok, hend⟩
    obtain rfl : report = report' := Except.ok.inj (hreport.symm.trans hreport')
    refine ⟨?_, (hnone hok).mpr hend⟩
    rw [(hsolved.accepted hok).1]
    exact (Session.ready?_eq_some.mp hc).1

/-- **What acceptance is worth.** An accepted run has a solution exactly if it does not come to a disjunction without
choices. A solution is the table of a run that emptied its work; without one, a disjunction without choices was given,
or the run came to a relation with a union that had no leaf cases under the table of the run there. A session is left
with neither a problem nor a solution in just this case. -/
theorem acceptance_without_solution (g : TypeGraph) (cs : List Constraint) (assumed : Substitution) (clock : Clock)
    (report : Report) (h : solve g cs assumed clock = .ok report) (hok : report.outcome.isOk = true) :
    (report.outcome.solution? = none ↔ EndsWithoutChoice g cs assumed clock) ∧
    (∀ σ, report.outcome.solution? = some σ →
      ∃ e, Adopted g report.outcome (stepsFor clock) (.initial cs assumed) e ∧ e.work = [] ∧ e.subst = σ) ∧
    (report.outcome.solution? = none → (∃ c ∈ cs, ∃ location, Within (.oneOf [] location) c) ∨
      ∃ s, Adopted g report.outcome (stepsFor clock) (.initial cs assumed) s ∧ s.AtLeafless g) ∧
    ∀ (s s' : Session) (c : Context), s.ready? = some c → s.solve = .ok s' →
      (s'.diagnostics = [] ∧ s'.solution = none ↔ EndsWithoutChoice s.graph c.constraints .empty s.solverClock) := by
  have hyields := yields_of_solve h
  refine ⟨⟨fun hnone => ⟨report, h, hok, (no_solution_iff hyields hok).mp hnone⟩, ?_⟩,
    fun σ hσ => emptied_of_solution hyields hσ, fun hnone => ?_, fun s s' c hc h => session_unsolved_iff hc h⟩
  · rintro ⟨report', h', -, hend⟩
    obtain rfl : report = report' := Except.ok.inj (h.symm.trans h')
    exact (no_solution_iff hyields hok).mpr hend
  · obtain ⟨e, hpath, he⟩ := (no_solution_iff hyields hok).mp hnone
    exact hpath.noChoice_origin he

def emptyUnionGraph : TypeGraph := ⟨#[.union []]⟩

/-- No type fits the union. -/
def emptyUnionConstraints : List Constraint := [.equality (.var 1) (.node 0) {}, .conformance .bool (.var 1) {}]

/-- A session that has these constraints to solve. -/
def emptyUnionSession : Session :=
  { file := "", clock := some 20, graph := emptyUnionGraph, analysis := some { constraints := emptyUnionConstraints } }

theorem emptyUnion_accepted_without_solution :
    (∃ report, solve emptyUnionGraph emptyUnionConstraints .empty (some 20) = .ok report ∧ report.outcome.isOk = true ∧
      report.outcome.solution? = none) ∧ EndsWithoutChoice emptyUnionGraph emptyUnionConstraints .empty (some 20) ∧
    ∃ s', emptyUnionSession.solve = .ok s' ∧ s'.diagnostics = [] ∧ s'.solution = none := by
  have hrun : (solve emptyUnionGraph emptyUnionConstraints .empty (some 20)).toOption.map
      (fun r => (r.outcome.isOk, r.outcome.solution?)) = some (true, none) := by cbv
  obtain ⟨report, h, hobs⟩ := exists_ok_of_toOption_map hrun
  obtain ⟨hok, hnone⟩ := Prod.mk.inj hobs
  obtain ⟨hiff, -, -, hunsolved⟩ := acceptance_without_solution _ _ _ _ report h hok
  have hend := hiff.mp hnone
  have hsession : emptyUnionSession.solve.toOption.map (fun _ => ()) = some () := by cbv
  obtain ⟨s', hs', -⟩ := exists_ok_of_toOption_map hsession
  have hready : emptyUnionSession.ready? = some { constraints := emptyUnionConstraints } := rfl
  have hclock : emptyUnionSession.solverClock = some 20 := by decide
  refine ⟨⟨report, h, hok, hnone⟩, hend, s', hs', (hunsolved _ s' _ hready hs').mpr ?_⟩
  rw [hclock]
  exact hend

end TypeInference.Solver
