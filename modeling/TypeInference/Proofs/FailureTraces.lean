import TypeInference.Proofs.Outcomes
import TypeInference.Proofs.Resolution

/-! # Where failures come from

Whatever a run gives up was pending in a state that the search visited, and is reified by the table of that state
(`run_failures`). All that is ever pending lies at or inside the place of a constraint that was posed (`Traceable`), and
what is reified has no variable in it. -/

namespace TypeInference

/-- The second location is the first or inside it. -/
def Location.Leads (l l' : Location) : Prop := l'.node = l.node ∧ l.path <+: l'.path

theorem Location.Leads.append {l l' : Location} (h : l.Leads l') (path : List PathStep) : l.Leads (l'.append path) :=
  ⟨h.1, h.2.trans (List.prefix_append _ _)⟩

namespace Solver

open Substitution
open List

variable {g G : TypeGraph} {s s' : State} {o : Outcome} {c d : Constraint} {cs : List Constraint} {σ : Substitution}
  {steps : Nat} {sh sh' : Shared}

/-! ### What is given up -/

/-- The failure is a constraint that was pending in a visited state. -/
def Failure.FromVisit (g : TypeGraph) (s0 : State) (f : Failure) : Prop :=
  ∃ s c, Visits g s0 s ∧ c ∈ s.work ∧ c.reify s.subst g = .ok (f.graph, f.constraint)

theorem Failure.FromVisit.of_move {f : Failure} (hmove : Move g s s') (h : f.FromVisit g s') : f.FromVisit g s := by
  obtain ⟨s1, c, hvisits, hc⟩ := h
  exact ⟨s1, c, .head hmove hvisits, hc⟩

theorem Outcome.GivesUpOn.fromVisit {rest : List Constraint} {kind : FailureKind} (hwork : s.work = c :: rest)
    (h : o.GivesUpOn g s.subst c kind) : ∀ f ∈ o.failures, f.FromVisit g s := by
  obtain ⟨r, hr, rfl⟩ := h
  exact forall_mem_singleton.mpr ⟨s, c, .refl, hwork ▸ mem_cons_self, hr⟩

/-- The induction is on the bound of the run. -/
theorem run_failures : ∀ {steps : Nat} {s : State} {sh : Shared} {o : Outcome} {sh' : Shared},
    (run g steps s).run sh = .ok (o, sh') → ∀ f ∈ o.failures, f.FromVisit g s
  | steps, s, sh, o, sh', h => by
    cases run_ending h with
    | done _ outcome =>
      rw [outcome]
      exact fun f hf => absurd hf not_mem_nil
    | stalled work _ _ outcome => exact outcome.fromVisit work
    | late work _ outcome => exact outcome.fromVisit work
    | mismatch work _ _ outcome => exact outcome.fromVisit work
    | advance fuel hadvance _ run =>
      subst fuel
      exact fun f hf => (run_failures run f hf).of_move (.advance hadvance)
    | choice fuel work going _ runs combined =>
      subst fuel
      rcases failures_of_combine combined with ho | ho
      · exact ho.fromVisit work
      · intro f hf
        obtain ⟨o', ho', hf⟩ := ho f hf
        obtain ⟨choice, hchoice, st, st', hrun⟩ := exists_of_forall₂ (runs_of_mapM runs) ho'
        exact (run_failures hrun f hf).of_move (.branch work going hchoice)

/-! ### Where it comes from -/

/-- The constraint and its choices lie at or inside the place of a constraint that was posed, or of a choice of one. -/
def Traceable (cs : List Constraint) (d : Constraint) : Prop :=
  ∀ e, Within e d → ∃ c ∈ cs, ∃ b, Within b c ∧ b.location.Leads e.location

theorem Traceable.relate (h : Traceable cs c) (rel : Relation) (t u : Ty) (path : List PathStep) :
    Traceable cs (.relate rel t u (c.location.append path)) := by
  intro e he
  cases he
  obtain ⟨c0, hc0, b, hb, hleads⟩ := h c .self
  exact ⟨c0, hc0, b, hb, hleads.append path⟩

theorem Traceable.oneOf {choices : List Constraint} (h : Traceable cs c) (hchoices : ∀ d ∈ choices, Traceable cs d) :
    Traceable cs (.oneOf choices c.location) := by
  intro e he
  cases he with
  | self => exact h c .self
  | choice hd he => exact hchoices _ hd e he

/-- A step derives constraints from what is pending only. -/
theorem Effect.traceable (h : Effect g s c s') (hc : Traceable cs c) (hs : ∀ d ∈ s.work, Traceable cs d) :
    ∀ d ∈ s'.work, Traceable cs d := by
  have hderived : ∀ {d}, DerivedFrom g s.subst c d → Traceable cs d := by
    rintro - ⟨rel, t, u, path, rfl, -⟩
    exact hc.relate rel t u path
  intro d hd
  cases h with
  | settled => exact hs d hd
  | bound => exact hs d hd
  | requeued =>
    rcases mem_append.mp hd with hd | hd
    · exact hs d hd
    · exact mem_singleton.mp hd ▸ hc
  | pushed hcs => exact (mem_pushAll.mp hd).elim (fun hd => hderived (hcs d hd)) (hs d)
  | divided hcs => exact (mem_pushAll.mp hd).elim (fun hd => hderived (hcs d hd)) (hs d)
  | postponed hj hls =>
    rcases mem_append.mp hd with hd | hd
    · exact hs d hd
    · rw [mem_singleton.mp hd]
      refine hc.oneOf fun e he => ?_
      obtain ⟨u, -, rfl⟩ := mem_map.mp he
      exact hc.relate _ _ u _

theorem Move.traceable (h : Move g s s') (hs : ∀ d ∈ s.work, Traceable cs d) : ∀ d ∈ s'.work, Traceable cs d := by
  cases h with
  | advance h =>
    cases h with
    | unstall _ h =>
      obtain ⟨r, htake, h⟩ := Option.map_eq_some_iff.mp h
      obtain ⟨t, u, location, -, -, hwork⟩ := takeUnknown_spec htake
      cases h
      exact fun d hd => hs d ((hwork d).mpr (.inr hd))
    | relate hwork _ h =>
      obtain ⟨hc, hrest⟩ := forall_mem_cons.mp (hwork ▸ hs)
      exact (matchTypes_effect h).traceable hc hrest
    | member hwork _ h =>
      obtain ⟨hc, hrest⟩ := forall_mem_cons.mp (hwork ▸ hs)
      exact (matchMember_effect h).traceable hc hrest
  | branch hwork _ hchoice =>
    obtain ⟨hc, hrest⟩ := forall_mem_cons.mp (hwork ▸ hs)
    exact forall_mem_cons.mpr ⟨fun e he => hc e (.choice hchoice he), hrest⟩

theorem Visits.traceable {assumed : Substitution} (h : Visits g (.initial cs assumed) s) :
    ∀ d ∈ s.work, Traceable cs d := by
  induction h with
  | refl => exact fun d hd e he => ⟨d, mem_initial.mp hd, e, he, rfl, prefix_rfl⟩
  | tail _ hmove ih => exact hmove.traceable ih

end Solver

/-! ### What is left of it -/

namespace Constraint

open List

variable {g G : TypeGraph} {σ : Substitution} {c c' : Constraint}

theorem location_of_reify (h : c.reify σ g = .ok (G, c')) : c'.location = c.location := by
  cases c with
  | relate rel t u location =>
    obtain ⟨r, -, h⟩ := bind_eq_ok.mp h
    obtain ⟨r', -, h⟩ := bind_eq_ok.mp h
    cases h
    rfl
  | member t m u location =>
    obtain ⟨r, -, h⟩ := bind_eq_ok.mp h
    obtain ⟨r', -, h⟩ := bind_eq_ok.mp h
    cases h
    rfl
  | oneOf choices location =>
    obtain ⟨r, -, h⟩ := bind_eq_ok.mp h
    cases h
    rfl
  | unknown kind location =>
    cases h
    rfl

/-- The type is absent, or nothing that can be reached from it is a variable. -/
def Resolved (g : TypeGraph) (t : Ty) : Prop := t = .absent ∨ g.Solid t

theorem Resolved.extends {t : Ty} (h : Resolved g t) (hext : g.Extends G) :
    Resolved G t := h.imp_right fun h => h.extends hext

theorem resolved_of_reifyType {t a : Ty} (h : reifyType σ g t = .ok (G, a)) : g.Extends G ∧ Resolved G a := by
  unfold reifyType at h
  split at h
  · cases h
    exact ⟨TypeGraph.extends_refl g, .inl rfl⟩
  · obtain ⟨hext, hsolid⟩ := Substitution.reify_solid h
    exact ⟨hext, .inr hsolid⟩

/-- Two types are reified one after the other, and the first stays what it was. -/
theorem resolved_of_both {t u : Ty} {r r' : TypeGraph × Ty} (h : reifyType σ g t = .ok r)
    (h' : reifyType σ r.1 u = .ok r') : g.Extends r'.1 ∧ ∀ x, x = r.2 ∨ x = r'.2 → Resolved r'.1 x := by
  obtain ⟨hext, ht⟩ := resolved_of_reifyType h
  obtain ⟨hext', hu⟩ := resolved_of_reifyType h'
  refine ⟨fun i x hi => hext' i x (hext i x hi), ?_⟩
  rintro x (rfl | rfl)
  · exact ht.extends hext'
  · exact hu

mutual
theorem resolved_of_reify : ∀ {c c' : Constraint} {g G : TypeGraph}, c.reify σ g = .ok (G, c') → g.Extends G ∧
    ∀ x, c'.Mentions x → Resolved G x
  | .relate _ _ _ _, _, _, _, h => by
    obtain ⟨r, hr, h⟩ := bind_eq_ok.mp h
    obtain ⟨r', hr', h⟩ := bind_eq_ok.mp h
    cases h
    simpa using resolved_of_both hr hr'
  | .member _ _ _ _, _, _, _, h => by
    obtain ⟨r, hr, h⟩ := bind_eq_ok.mp h
    obtain ⟨r', hr', h⟩ := bind_eq_ok.mp h
    cases h
    simpa using resolved_of_both hr hr'
  | .oneOf _ _, _, _, _, h => by
    obtain ⟨r, hr, h⟩ := bind_eq_ok.mp h
    cases h
    obtain ⟨hext, hchoices⟩ := resolved_of_reifyAll hr
    refine ⟨hext, fun x hx => ?_⟩
    obtain ⟨d, hd, hx⟩ := mentions_oneOf.mp hx
    exact hchoices d hd x hx
  | .unknown _ _, _, _, _, h => by
    cases h
    exact ⟨TypeGraph.extends_refl _, fun x hx => by cases hx⟩
theorem resolved_of_reifyAll : ∀ {cs cs' : List Constraint} {g G : TypeGraph}, reifyAll σ g cs = .ok (G, cs') →
    g.Extends G ∧ ∀ d ∈ cs', ∀ x, d.Mentions x → Resolved G x
  | [], _, _, _, h => by
    cases h
    exact ⟨TypeGraph.extends_refl _, by simp⟩
  | c :: cs, _, _, _, h => by
    obtain ⟨r, hr, h⟩ := bind_eq_ok.mp h
    obtain ⟨r', hr', h⟩ := bind_eq_ok.mp h
    cases h
    obtain ⟨hext, hc⟩ := resolved_of_reify hr
    obtain ⟨hext', hcs⟩ := resolved_of_reifyAll hr'
    exact ⟨fun i x hi => hext' i x (hext i x hi), forall_mem_cons.mpr ⟨fun x hx => (hc x hx).extends hext', hcs⟩⟩
end

end Constraint

namespace Solver

/-- **Failures are traceable and closed.** Whatever the constraints, the assumptions and the time: what a run gives up
lies at the place of a constraint that was posed, or of a choice inside one, or further inside it, and no variable can
be reached from its types or those of its choices. -/
theorem failures_traceable_and_closed (g : TypeGraph) (cs : List Constraint) (assumed : Substitution) (clock : Clock)
    (report : Report) (h : solve g cs assumed clock = .ok report) : ∀ f ∈ report.outcome.failures,
      (∃ c ∈ cs, ∃ d, Within d c ∧ f.constraint.location.node = d.location.node ∧
        d.location.path <+: f.constraint.location.path) ∧
      ∀ t, f.constraint.Mentions t → ∀ u, f.graph.Reaches t u → ∀ v, u ≠ .var v := by
  obtain ⟨steps, sh, hrun⟩ := concludes_of_solve h
  intro f hf
  obtain ⟨s, c, hvisits, hc, hreify⟩ := run_failures hrun f hf
  obtain ⟨c0, hc0, d, hd, hleads⟩ := hvisits.traceable c hc c .self
  rw [← Constraint.location_of_reify hreify] at hleads
  refine ⟨⟨c0, hc0, d, hd, hleads⟩, fun t ht u hu v heq => ?_⟩
  subst heq
  rcases (Constraint.resolved_of_reify hreify).2 t ht with rfl | hsolid
  · cases hu
  · exact hsolid _ hu

/-- A choice between a tuple of an unknown type and an integer for another unknown type. -/
def openChoice : Constraint :=
  .oneOf [.equality (.var 1) (.node 0) ⟨none, [.element 0]⟩, .equality (.var 1) .int ⟨none, [.element 1]⟩]
    ⟨none, [.body]⟩

/-- The choice is left open and given up with both of its choices, in which the unknown types are errors. -/
theorem openChoice_closed : ∃ report f,
    solve ⟨#[.tuple "" [{ type := .var 2 }]]⟩ [openChoice] .empty none = .ok report ∧
    report.outcome.failures = [f] ∧ f.kind = .ambiguous ∧ f.constraint.Mentions (.node 1) ∧
    f.graph.get? 1 = some (.tuple "" [{ type := .error }]) ∧
    (∃ d, Within d openChoice ∧ f.constraint.location.node = d.location.node ∧
      d.location.path <+: f.constraint.location.path) ∧
    ∀ t, f.constraint.Mentions t → ∀ u, f.graph.Reaches t u → ∀ v, u ≠ .var v := by
  obtain ⟨report, f, hsolve, hf, hkind, hmentions, hget⟩ : ∃ report f, solve ⟨#[.tuple "" [{ type := .var 2 }]]⟩
      [openChoice] .empty none = .ok report ∧
      report.outcome.failures = [f] ∧ f.kind = .ambiguous ∧ f.constraint.Mentions (.node 1) ∧
      f.graph.get? 1 = some (.tuple "" [{ type := .error }]) :=
    ⟨_, _, by cbv, rfl, rfl, .choice List.mem_cons_self .right, rfl⟩
  obtain ⟨⟨c, hc, hplace⟩, hclosed⟩ := failures_traceable_and_closed _ _ _ _ report hsolve f
    (hf ▸ List.mem_singleton_self f)
  cases List.mem_singleton.mp hc
  exact ⟨report, f, hsolve, hf, hkind, hmentions, hget, hplace, hclosed⟩

end Solver

end TypeInference
