import TypeInference.Proofs.Contexts
import TypeInference.Session

/-! # What a stage of a session does

One lemma for each stage that works on an analysis: what it computes, and what it leaves as it is. -/

namespace TypeInference.Session

variable {s s' : Session} {c c' : Context} {m m' : Module} {σ : Substitution}

theorem ready?_eq_some : s.ready? = some c ↔ s.diagnostics = [] ∧ s.analysis = some c := by
  simp [ready?, hasProblems]

theorem foldl_diagnose (ds : List Diagnostic) (s : Session) :
    ds.foldl diagnose s = { s with diagnostics := s.diagnostics ++ ds.map fun d => d.inFile s.file } := by
  induction ds generalizing s with
  | nil => simp
  | cons d ds ih =>
    rw [List.foldl_cons, ih]
    simp [diagnose]

theorem record_eq (s : Session) (c : Context) (lines : List String) :
    s.record c lines = { s with log := if c.logs then s.log ++ lines else s.log } := by
  unfold record
  split <;> rfl

/-! ### Solving -/

def solverClock (s : Session) : Solver.Clock := if s.settings.timeout > 0 then none else s.clock

/-- The session after its constraints were solved. -/
structure SolvedBy (s : Session) (report : Solver.Report) (s' : Session) : Prop where
  graph : s'.graph = s.graph
  module : s'.module = s.module
  analysis : s'.analysis = s.analysis
  accepted : report.outcome.isOk = true → s'.diagnostics = s.diagnostics ∧ s'.solution = report.outcome.solution?
  rejected : report.outcome.isOk = false → s'.diagnostics ≠ []

theorem solve_eq_ok (hc : s.ready? = some c) (h : s.solve = .ok s') :
    ∃ report, Solver.solve s.graph c.constraints .empty s.solverClock = .ok report ∧ SolvedBy s report s' := by
  unfold solve at h
  rw [hc] at h
  obtain ⟨report, hreport, h⟩ := bind_eq_ok.mp h
  refine ⟨report, hreport, ?_⟩
  by_cases hok : report.outcome.isOk = true
  · rw [if_pos hok] at h
    cases h
    constructor <;> split <;> split <;> simp [record_eq, hok]
  · rw [if_neg hok] at h
    cases h
    have hfail : report.outcome.failures ≠ [] := by simpa [Solver.Outcome.isOk] using hok
    rw [foldl_diagnose]
    constructor <;> split <;> split <;> simp [record_eq, hok, hfail]

/-! ### Stages that adopt an analysis -/

/-- The session has taken over what an analysis has found. -/
structure Adopts (s : Session) (m : Module) (c : Context) (s' : Session) : Prop where
  graph : s'.graph = c.graph
  module : s'.module = some m
  analysis : s'.analysis = some { c with diagnostics := {} }
  solution : s'.solution = s.solution
  diagnostics : s'.diagnostics = s.diagnostics ++ c.diagnostics.toList.map fun d => d.inFile s.file

theorem adopts (s : Session) (m : Module) (c : Context) (clock : Solver.Clock) (log : List String) :
    Adopts s m c { s.adopt c with module := some m, clock := clock, log := log } := by
  unfold adopt
  rw [foldl_diagnose]
  exact ⟨rfl, rfl, rfl, rfl, rfl⟩

theorem Adopts.clean (h : Adopts s m c s') (hclean : s'.diagnostics = []) :
    s.diagnostics = [] ∧ c.diagnostics.entries = [] := by
  obtain ⟨hs, hc⟩ := List.append_eq_nil_iff.mp (h.diagnostics.symm.trans hclean)
  exact ⟨hs, Diagnostics.entries_of_toList (List.map_eq_nil_iff.mp hc)⟩

theorem bind_eq_ok (hm : s.module = some m) (h : s.bind = .ok s') :
    ∃ c c' m' env, s.newContext = .ok c ∧ m.bind.run { c with logs := s.logging } = .ok ((m', env), c') ∧
    Adopts s m' c' s' := by
  unfold Session.bind at h
  rw [hm] at h
  obtain ⟨c, hc, h⟩ := TypeInference.bind_eq_ok.mp h
  obtain ⟨⟨⟨m', env⟩, c'⟩, hbind, h⟩ := TypeInference.bind_eq_ok.mp h
  cases h
  rw [record_eq]
  exact ⟨c, c', m', env, hc, hbind, adopts s m' c' _ _⟩

theorem generate_eq_ok (hc : s.ready? = some c) (hm : s.module = some m) (h : s.generate = .ok s') :
    ∃ m' c', m.oblige.run { c with graph := s.graph } = .ok (m', c') ∧ Adopts s m' c' s' := by
  unfold generate at h
  rw [hc, hm] at h
  obtain ⟨⟨m', c'⟩, hoblige, h⟩ := TypeInference.bind_eq_ok.mp h
  cases h
  rw [record_eq]
  exact ⟨m', c', hoblige, adopts s m' c' _ _⟩

theorem bind_of_run {env : Enclosure} (hm : s.module = some m) (hc : s.newContext = .ok c)
    (h : m.bind.run { c with logs := s.logging } = .ok ((m', env), c')) :
    ∃ s', s.bind = .ok s' ∧ Adopts s m' c' s' := by
  unfold Session.bind
  rw [hm]
  refine ⟨_, TypeInference.bind_eq_ok.mpr ⟨c, hc, TypeInference.bind_eq_ok.mpr ⟨_, h, rfl⟩⟩, ?_⟩
  rw [record_eq]
  exact adopts s m' c' _ _

theorem generate_of_run (hc : s.ready? = some c) (hm : s.module = some m)
    (h : m.oblige.run { c with graph := s.graph } = .ok (m', c')) : ∃ s', s.generate = .ok s' ∧ Adopts s m' c' s' := by
  unfold generate
  rw [hc, hm]
  refine ⟨_, TypeInference.bind_eq_ok.mpr ⟨_, h, rfl⟩, ?_⟩
  rw [record_eq]
  exact adopts s m' c' _ _

theorem dispatch_eq_ok (hc : s.ready? = some c) (hσ : s.solution = some σ) (hm : s.module = some m)
    (h : s.dispatch = .ok s') : ∃ m' clock' c', (m.dispatch σ s.clock).run { c with graph := s.graph } = .ok
    ((m', clock'), c') ∧ Adopts s m' c' s' := by
  unfold dispatch at h
  rw [hc, hσ, hm] at h
  obtain ⟨⟨⟨m', clock'⟩, c'⟩, hdispatch, h⟩ := TypeInference.bind_eq_ok.mp h
  cases h
  exact ⟨m', clock', c', hdispatch, adopts s m' c' _ _⟩

theorem dispatch_of_run {clock' : Solver.Clock} (hc : s.ready? = some c) (hσ : s.solution = some σ)
    (hm : s.module = some m) (h : (m.dispatch σ s.clock).run { c with graph := s.graph } = .ok ((m', clock'), c'))
    (hadopt : { s.adopt c' with module := some m', clock := clock' } = s') : s.dispatch = .ok s' := by
  unfold dispatch
  rw [hc, hσ, hm, ← hadopt]
  exact TypeInference.bind_eq_ok.mpr ⟨_, h, rfl⟩

/-! ### Problems stay -/

theorem generate_of_not_ready (h : s.ready? = none) : s.generate = .ok s := by
  unfold generate
  rw [h]
  rfl

theorem solve_of_not_ready (h : s.ready? = none) : s.solve = .ok s := by
  unfold solve
  rw [h]
  rfl

theorem dispatch_of_not_ready (h : s.ready? = none) : s.dispatch = .ok s := by
  unfold dispatch
  rw [h]
  rfl

theorem clean_before {stage : Session → Except Fault Session} (hstage : s.ready? = none → stage s = .ok s)
    (h : stage s = .ok s') (hclean : s'.diagnostics = []) : s.diagnostics = [] := by
  cases hs : s.diagnostics with
  | nil => rfl
  | cons d ds =>
    have hready : s.ready? = none := by simp [ready?, hasProblems, hs]
    obtain rfl : s = s' := Except.ok.inj ((hstage hready).symm.trans h)
    rw [hs] at hclean
    cases hclean

/-! ### Accepted modules -/

/-- All stages run on a module, without a problem and with a solution. -/
structure Accepts (s : Session) (m : Module) (generated final : Session) (σ : Substitution) : Prop where
  module : s.module = some m
  stages : ∃ bound solved, s.bind = .ok bound ∧ bound.generate = .ok generated ∧ generated.solve = .ok solved ∧
    solved.dispatch = .ok final
  clean : final.diagnostics = []
  solution : final.solution = some σ

/-- What the stages computed on the way. -/
structure Trace (s : Session) (m : Module) (generated final : Session) (σ : Substitution) where
  initial : Context
  /-- The state after names were declared. -/
  declared : Context
  declaredModule : Module
  enclosure : Enclosure
  /-- The state after constraints were recorded. -/
  context : Context
  typedModule : Module
  report : Solver.Report
  clock : Solver.Clock
  /-- The state after overloads were chosen. -/
  last : Context
  lastModule : Module
  lastClock : Solver.Clock
  start : s.newContext = .ok initial
  declares : m.bind.run { initial with logs := s.logging } = .ok ((declaredModule, enclosure), declared)
  obliges : declaredModule.oblige.run { declared with diagnostics := {} } = .ok (typedModule, context)
  generatedModule : generated.module = some typedModule
  generatedContext : generated.analysis = some { context with diagnostics := {} }
  solves : Solver.solve context.graph context.constraints .empty generated.solverClock = .ok report
  solved : report.outcome.solution? = some σ
  dispatches : (typedModule.dispatch σ clock).run { context with diagnostics := {} } = .ok
    ((lastModule, lastClock), last)
  finalModule : final.module = some lastModule
  finalContext : final.analysis = some { last with diagnostics := {} }
  declaredClean : declared.diagnostics.entries = []
  contextClean : context.diagnostics.entries = []
  lastClean : last.diagnostics.toList = []

theorem Accepts.trace {generated final : Session} (h : s.Accepts m generated final σ) :
    Nonempty (Trace s m generated final σ) := by
  obtain ⟨bound, solved, hbind, hgenerate, hsolve, hdispatch⟩ := h.stages
  obtain ⟨c0, cb, mb, env, hstart, hdeclare, hbound⟩ := Session.bind_eq_ok h.module hbind
  have hclean2 := clean_before dispatch_of_not_ready hdispatch h.clean
  have hclean1 := clean_before solve_of_not_ready hsolve hclean2
  have hclean0 := clean_before generate_of_not_ready hgenerate hclean1
  obtain ⟨m1, c1, hoblige, hgenerated⟩ :=
    generate_eq_ok (ready?_eq_some.mpr ⟨hclean0, hbound.analysis⟩) hbound.module hgenerate
  obtain ⟨report, hreport, hsolved⟩ := solve_eq_ok (ready?_eq_some.mpr ⟨hclean1, hgenerated.analysis⟩) hsolve
  have hready : solved.ready? = some { c1 with diagnostics := {} } :=
    ready?_eq_some.mpr ⟨hclean2, hsolved.analysis.trans hgenerated.analysis⟩
  have hok : report.outcome.isOk = true := by
    cases hok : report.outcome.isOk with
    | true => rfl
    | false => exact absurd hclean2 (hsolved.rejected hok)
  obtain ⟨-, hsolution⟩ := hsolved.accepted hok
  cases hσ : report.outcome.solution? with
  | none =>
    -- without a solution nothing is dispatched, and there is none in the end
    rw [hσ] at hsolution
    have hstays : solved.dispatch = .ok solved := by
      unfold dispatch
      rw [hready, hsolution]
      rfl
    obtain rfl : solved = final := Except.ok.inj (hstays.symm.trans hdispatch)
    have hnone := hsolution.symm.trans h.solution
    cases hnone
  | some τ =>
    rw [hσ] at hsolution
    obtain ⟨m3, clock, c3, hrun, hfinal⟩ :=
      dispatch_eq_ok hready hsolution (hsolved.module.trans hgenerated.module) hdispatch
    obtain rfl : τ = σ := by
      have hboth := hfinal.solution.symm.trans h.solution
      rw [hsolution] at hboth
      exact Option.some.inj hboth
    have hgraph1 := hgenerated.graph
    have hlast : c3.diagnostics.toList = [] := by
      have hall := hfinal.diagnostics.symm.trans h.clean
      simpa [hclean2] using hall
    refine ⟨{
      initial := c0, declared := cb, declaredModule := mb, enclosure := env, context := c1, typedModule := m1,
      report := report, clock := solved.clock, last := c3, lastModule := m3, lastClock := clock, start := hstart,
      declares := hdeclare, obliges := ?_, generatedModule := hgenerated.module, generatedContext :=
      hgenerated.analysis, solves := ?_, solved := hσ, dispatches := ?_, finalModule := hfinal.module, finalContext :=
      hfinal.analysis, declaredClean := (hbound.clean hclean0).2, contextClean := (hgenerated.clean hclean1).2,
      lastClean := hlast }⟩
    · rw [hbound.graph] at hoblige
      exact hoblige
    · rw [hgraph1] at hreport
      exact hreport
    · rw [hsolved.graph, hgraph1] at hrun
      exact hrun

end TypeInference.Session
