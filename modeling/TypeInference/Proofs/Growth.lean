import Mathlib.Logic.Relation
import TypeInference.Proofs.Acceptance
import TypeInference.Proofs.Soundness

/-! # The table of a run only grows

`Move` is what the search does with a state: a step, or the start of a branch on one choice of a disjunction. A move
changes at most one entry of the table, that of an unbound variable (`Change`), so no binding is ever overwritten. Every
binding that a run reports was made by a move between two states that the search visits (`fromVisit_reports`). -/

namespace TypeInference.Substitution

variable {s : Substitution} {c : Constraint} {events : List Event} {location : Location} {rel : Relation}
  {r : StepResult} {u right left t : Ty}

/-- Nothing is bound, or one variable that was unbound. -/
inductive Change (s : Substitution) : Substitution → Prop where
  | none : Change s s
  | bind {v : Int} {t : Ty} (unbound : s.get? v = Option.none) : Change s (s.bind v t)

theorem Change.extends {s' : Substitution} (h : s.Change s') : s.Extends s' := by
  cases h with
  | none => exact .refl s
  | bind unbound => exact extends_bind unbound

end TypeInference.Substitution

namespace TypeInference.Solver

open Substitution

variable {g : TypeGraph} {s s' : State}

/-! ### The search -/

/-- What the search does with a state: a step, or the start of a branch. -/
inductive Move (g : TypeGraph) (s : State) : State → Prop where
  | advance {s' : State} (h : Advance g s s') : Move g s s'
  | branch {choices rest : List Constraint} {location : Location} {choice : Constraint}
      (work : s.work = .oneOf choices location :: rest) (going : ¬ s.Stalled) (hc : choice ∈ choices) :
      Move g s (s.choose choice rest)

/-- The search from the first state comes to the second. -/
def Visits (g : TypeGraph) : State → State → Prop := Relation.ReflTransGen (Move g)

theorem Visits.of_adopted {o : Outcome} {steps : Nat} (h : Adopted g o steps s s') : Visits g s s' := by
  induction h with
  | here => exact .refl
  | advance hadvance _ _ ih => exact .head (.advance hadvance) ih
  | choose work going hc _ _ ih => exact .head (.branch work going hc) ih

/-! ### What a step binds and reports -/

/-- A step binds nothing and reports no binding, or it binds an unknown type and reports this. -/
inductive Tracked (s s' : State) (events : List Event) : Prop where
  | kept (subst : s'.subst = s.subst) (events : ∀ e ∈ events, ∀ depth v t, e ≠ .bind depth v t)
  | bound {x : Ty} {v : Int} {t : Ty} (unknown : s.subst.lookup x = .var v) (subst : s'.subst = s.subst.bind v t)
      (events : events = [.bind s.depth v t])

/-- A step without a report that binds nothing. -/
def Silent (s : State) (r : StepResult) : Prop := ∀ s' events, r = .next s' events → s'.subst = s.subst ∧ events = []

theorem silent_quiet (h : s'.subst = s.subst) : Silent s (.quiet s') := by
  intro s1 events heq
  cases heq
  exact ⟨h, rfl⟩

theorem silent_mismatch : Silent s .mismatch := fun _ _ h => by cases h

theorem matchLeftUnion_silent {i : NodeId} {cases : List Ty}
    (h : matchLeftUnion g s rel i cases right location = .ok r) : Silent s r := by
  unfold matchLeftUnion at h
  obtain ⟨lefts, -, h⟩ := bind_eq_ok.mp h
  split at h
  · split at h
    · cases h
      exact silent_quiet (subst_pushAll _ _)
    · obtain ⟨rights, -, h⟩ := bind_eq_ok.mp h
      cases h
      exact silent_quiet ((subst_pushAll _ _).trans (subst_pushAll _ _))
  · cases h
    exact silent_quiet (subst_pushAll _ _)

theorem matchRightUnion_silent {j : NodeId} {cases : List Ty} (h : matchRightUnion g s left j cases location = .ok r) :
    Silent s r := by
  unfold matchRightUnion at h
  obtain ⟨rights, -, h⟩ := bind_eq_ok.mp h
  obtain ⟨known, -, h⟩ := bind_eq_ok.mp h
  cases known with
  | true =>
    cases h
    exact silent_quiet rfl
  | false =>
    cases h
    exact silent_quiet rfl

theorem matchParts_silent {x y : Composite} : Silent s (matchParts s rel location x y) := by
  unfold matchParts
  split
  · exact silent_quiet rfl
  · split
    · exact silent_quiet (subst_pushAll _ _)
    · exact silent_mismatch
  · exact silent_quiet rfl
  · exact silent_mismatch

theorem matchComposite_silent (h : matchComposite g s rel left right location = .ok r) : Silent s r := by
  unfold matchComposite at h
  split at h
  · exact matchLeftUnion_silent h
  · exact matchRightUnion_silent h
  · obtain ⟨x, -, h⟩ := bind_eq_ok.mp h
    obtain ⟨y, -, h⟩ := bind_eq_ok.mp h
    cases h
    exact matchParts_silent
  · cases h
    exact silent_mismatch

theorem Silent.tracked (h : Silent s (.next s' events)) : Tracked s s' events := by
  obtain ⟨hsubst, rfl⟩ := h s' events rfl
  exact .kept hsubst (by simp)

theorem tracked_requeue (s : State) (c : Constraint) :
    Tracked s { s with work := s.work ++ [c], idle := s.idle + 1 } [.requeue s.depth c] :=
  .kept rfl (by simp)

theorem matchTypes_tracked (h : matchTypes g s rel t u location = .ok (.next s' events)) : Tracked s s' events := by
  unfold matchTypes at h
  obtain ⟨equal, -, h⟩ := bind_eq_ok.mp h
  cases equal with
  | true =>
    cases h
    exact .kept rfl (by simp)
  | false =>
    simp only [Bool.false_eq_true, if_false] at h
    split at h
    · cases h
      exact tracked_requeue s _
    · next ht _ _ =>
      cases h
      exact .bound ht rfl rfl
    · next hu _ _ _ =>
      cases h
      exact .bound hu rfl rfl
    · exact (matchComposite_silent h).tracked

theorem matchMember_tracked {m : Member} (h : matchMember g s t m u location = .next s' events) :
    Tracked s s' events := by
  unfold matchMember at h
  dsimp only at h
  split at h
  · cases h
    exact tracked_requeue s _
  · split at h
    · cases h
      exact .kept rfl (by simp)
    · cases h
  · cases h

theorem unstall_tracked (h : unstall s = some (.next s' events)) : Tracked s s' events := by
  unfold unstall at h
  obtain ⟨⟨⟨v, w⟩, rest⟩, htake, h⟩ := Option.map_eq_some_iff.mp h
  obtain ⟨t, u, location, ht, -, -⟩ := takeUnknown_spec htake
  cases h
  exact .bound ht rfl rfl

theorem Tracked.change (h : Tracked s s' events) (hs : s.subst.Grounded) : s.subst.Change s'.subst := by
  cases h with
  | kept subst => exact subst ▸ .none
  | bound unknown subst => exact subst ▸ .bind (get?_of_lookup hs unknown)

/-! ### Tables that are visited -/

theorem Move.change (h : Move g s s') (hs : s.subst.Grounded) : s.subst.Change s'.subst := by
  cases h with
  | branch => exact .none
  | advance h =>
    cases h with
    | unstall _ h => exact (unstall_tracked h).change hs
    | relate _ _ h => exact (matchTypes_tracked h).change hs
    | member _ _ h => exact (matchMember_tracked h).change hs

theorem Move.grounded (h : Move g s s') (hs : s.subst.Grounded) : s'.subst.Grounded := by
  cases h with
  | branch => exact hs
  | advance h => exact (h.sound hs).2.1

theorem Visits.extends (h : Visits g s s') (hs : s.subst.Grounded) : s.subst.Extends s'.subst ∧ s'.subst.Grounded := by
  induction h with
  | refl => exact ⟨.refl _, hs⟩
  | tail _ hmove ih => exact ⟨ih.1.trans (hmove.change ih.2).extends, hmove.grounded ih.2⟩

/-! ### What a run reports -/

/-- Only events of one kind are added to the report. -/
def Emits (P : Event → Prop) (sh sh' : Shared) : Prop := ∃ new, sh'.events = new ++ sh.events ∧ ∀ e ∈ new, P e

namespace Emits

variable {P Q : Event → Prop}

instance : IsPreorder Shared (Emits P) where
  refl _ := ⟨[], rfl, by simp⟩
  trans := by
    rintro sh sh1 sh' ⟨new, hnew, hall⟩ ⟨new', hnew', hall'⟩
    exact ⟨new' ++ new, by rw [hnew', hnew, List.append_assoc], List.forall_mem_append.mpr ⟨hall', hall⟩⟩

theorem mono {α : Type} {x : RunM α} (h : Keeps (Emits P) x) (hPQ : ∀ e, P e → Q e) : Keeps (Emits Q) x := by
  intro sh a sh' hrun
  obtain ⟨new, hnew, hall⟩ := h sh a sh' hrun
  exact ⟨new, hnew, fun e he => hPQ e (hall e he)⟩

theorem report (h : ∀ e ∈ events, P e) : Keeps (Emits P) (report events) := by
  intro sh a sh' hrun
  cases hrun
  exact ⟨events.reverse, rfl, fun e he => h e (List.mem_reverse.mp he)⟩

theorem expired : Keeps (Emits P) expired := by
  intro sh a sh' h
  obtain ⟨sh1, sh2, hget, h⟩ := run_bind_eq_ok.mp h
  cases hget
  split at h <;> cases h <;> exact ⟨[], rfl, by simp⟩

theorem fail {kind : FailureKind} (h : P (.fail s.depth kind c)) : Keeps (Emits P) (fail g s c kind) :=
  .fail (report (List.forall_mem_singleton.mpr h))

theorem combineWith {w : Walks} {outcomes : List Outcome} (hfail : P (.fail s.depth .ambiguous c))
    (hbranch : ∀ depth i ok, P (.branch depth i ok)) : Keeps (Emits P) (combineWith w g s c outcomes) := by
  refine .combineWith (report (List.forall_mem_singleton.mpr hfail)) fun events hevents => report fun e he => ?_
  obtain ⟨depth, i, ok, rfl⟩ := hevents e he
  exact hbranch depth i ok

end Emits

/-- What is shown of the events that are reported from a state on, kind by kind. -/
structure Reports (g : TypeGraph) (P : State → Event → Prop) : Prop where
  move : ∀ {s s' e}, Move g s s' → P s' e → P s e
  unstall : ∀ {s s' events}, s.Stalled → unstall s = some (.next s' events) → ∀ e ∈ events, P s e
  relate : ∀ {s s' rel t u location rest events}, s.work = .relate rel t u location :: rest → ¬ s.Stalled →
    matchTypes g (s.below rest) rel t u location = .ok (.next s' events) → ∀ e ∈ events, P s e
  member : ∀ {s s' t m u location rest events}, s.work = .member t m u location :: rest → ¬ s.Stalled →
    matchMember g (s.below rest) t m u location = .next s' events → ∀ e ∈ events, P s e
  stalled : ∀ {s c rest}, s.work = c :: rest → s.Stalled → Solver.unstall s = none → P s (.fail s.depth .stalled c)
  failed : ∀ {s c kind}, kind ≠ .stalled → P s (.fail s.depth kind c)
  pop : ∀ {s c n}, P s (.pop s.depth c n)
  branch : ∀ {s depth i ok}, P s (.branch depth i ok)

/-- What is shown kind by kind holds of all that a run reports. The induction is on the bound of the run. -/
theorem run_emits {P : State → Event → Prop} (hP : Reports g P) (steps : Nat) (s : State) :
    Keeps (Emits (P s)) (run g steps s) := by
  induction steps generalizing s with
  | zero =>
    unfold run runWith
    split
    · exact .pure _
    · exact .throw _
  | succ steps ih =>
    have next : ∀ {s' : State} {events : List Event}, Move g s s' → (∀ e ∈ events, P s e) →
        Keeps (Emits (P s)) (do report events; run g steps s') := fun hmove hevents =>
      .bind (Emits.report hevents) fun _ => Emits.mono (ih _) fun _ => hP.move hmove
    cases hwork : s.work with
    | nil =>
      rw [run, runWith_nil hwork]
      exact .pure _
    | cons c rest =>
      by_cases hstalled : s.Stalled
      · rw [run, runWith_stalled hwork hstalled]
        rcases unstall_cases s with hun | ⟨s', events, hun⟩
        · rw [hun]
          exact Emits.fail (hP.stalled hwork hstalled hun)
        · rw [hun]
          exact next (.advance (.unstall hstalled hun)) (hP.unstall hstalled hun)
      · rw [run, runWith_going hwork hstalled]
        refine .bind Emits.expired fun late => ?_
        cases late with
        | true => exact Emits.fail (hP.failed (s := s) (by simp))
        | false =>
          refine .bind (Emits.report (List.forall_mem_singleton.mpr hP.pop)) fun _ => ?_
          cases c with
          | relate rel t u location =>
            intro sh a sh' hrun
            obtain ⟨r, sh1, hr, hrun⟩ := run_bind_eq_ok.mp hrun
            obtain ⟨r', hmatch, heq⟩ := run_lift_eq_ok.mp hr
            cases heq
            cases r with
            | next s' events =>
              exact next (.advance (.relate hwork hstalled hmatch)) (hP.relate hwork hstalled hmatch) _ _ _ hrun
            | mismatch => exact Emits.fail (hP.failed (s := s) (by simp)) _ _ _ hrun
          | member t m u location =>
            rw [resume]
            cases hmatch : matchMember g (s.below rest) t m u location with
            | next s' events => exact next (.advance (.member hwork hstalled hmatch)) (hP.member hwork hstalled hmatch)
            | mismatch => exact Emits.fail (hP.failed (s := s) (by simp))
          | oneOf choices location =>
            refine .bind (.mapM fun choice hchoice => ?_) fun outcomes => .bind Emits.expired fun late => ?_
            · exact Emits.mono (ih (s.choose choice rest)) fun _ => hP.move (.branch hwork hstalled hchoice)
            · cases late with
              | true => exact Emits.fail (hP.failed (s := s) (by simp))
              | false => exact Emits.combineWith (hP.failed (s := s) (by simp)) fun _ _ _ => hP.branch
          | unknown kind location => exact .throw _

theorem mem_events_of_solve {P : State → Event → Prop} (hP : Reports g P) {cs : List Constraint}
    {assumed : Substitution} {clock : Clock} {report : Report} (h : solve g cs assumed clock = .ok report) :
    ∀ e ∈ report.events, P (.initial cs assumed) e := by
  unfold solve solveWith at h
  obtain ⟨⟨outcome, sh⟩, hrun, h⟩ := bind_eq_ok.mp h
  cases h
  obtain ⟨new, hnew, hall⟩ := run_emits hP _ _ _ _ _ hrun
  intro e he
  refine hall e ?_
  simpa [hnew] using he

/-- A binding that is reported was made by a move from a visited state. -/
def FromVisit (g : TypeGraph) (s0 : State) (e : Event) : Prop :=
  ∀ depth v t, e = .bind depth v t → ∃ s s' x, Visits g s0 s ∧ Move g s s' ∧ s.depth = depth ∧
    s.subst.lookup x = .var v ∧ s'.subst = s.subst.bind v t

theorem FromVisit.of_move {e : Event} (hmove : Move g s s') (h : FromVisit g s' e) : FromVisit g s e := by
  intro depth v t he
  obtain ⟨s1, s2, x, hvisits, hrest⟩ := h depth v t he
  exact ⟨s1, s2, x, .head hmove hvisits, hrest⟩

theorem Tracked.fromVisit {s1 : State} (h : Tracked s1 s' events) (hmove : Move g s s') (hsubst : s1.subst = s.subst)
    (hdepth : s1.depth = s.depth) : ∀ e ∈ events, FromVisit g s e := by
  intro e he depth v t hbind
  cases h with
  | kept _ events => exact absurd hbind (events e he depth v t)
  | bound unknown subst events =>
    subst events
    obtain rfl := List.mem_singleton.mp he
    cases hbind
    rw [hsubst] at unknown subst
    exact ⟨s, s', _, .refl, hmove, hdepth.symm, unknown, subst⟩

theorem fromVisit_reports (g : TypeGraph) : Reports g (FromVisit g) where
  move := .of_move
  unstall hstalled h := (unstall_tracked h).fromVisit (.advance (.unstall hstalled h)) rfl rfl
  relate hwork hgoing h := (matchTypes_tracked h).fromVisit (.advance (.relate hwork hgoing h)) rfl rfl
  member hwork hgoing h := (matchMember_tracked h).fromVisit (.advance (.member hwork hgoing h)) rfl rfl
  stalled _ _ _ _ _ _ h := by cases h
  failed _ _ _ _ h := by cases h
  pop _ _ _ h := by cases h
  branch _ _ _ h := by cases h

/-! ### Growth -/

/-- **The table only grows.** Whatever the constraints, assumptions without a circle of variables and a state that the
search comes to, in a branch or not: its table has no circle of variables, and it extends the assumptions and the table
of every state on the way. A move binds at most one variable, which was unbound. A run reports just such bindings, and
its solution is the table of a state that was visited. -/
theorem table_only_grows (g : TypeGraph) (cs : List Constraint) (assumed : Substitution)
    (hassumed : assumed.NoVariableCycle) :
    (∀ s, Visits g (.initial cs assumed) s → s.subst.NoVariableCycle ∧ assumed.Extends s.subst ∧
      (∀ s', Move g s s' → s.subst.Change s'.subst) ∧ ∀ s', Visits g s s' → s.subst.Extends s'.subst) ∧
    ∀ clock report, solve g cs assumed clock = .ok report →
      (∀ depth v t, .bind depth v t ∈ report.events → ∃ s s', Visits g (.initial cs assumed) s ∧ Move g s s' ∧
        s.depth = depth ∧ s.subst.get? v = none ∧ s'.subst = s.subst.bind v t) ∧
      ∀ σ, report.outcome.solution? = some σ → σ.NoVariableCycle ∧ assumed.Extends σ ∧
        ∃ s, Visits g (.initial cs assumed) s ∧ s.work = [] ∧ s.subst = σ := by
  have hgrounded : (State.initial cs assumed).subst.Grounded := hassumed.grounded
  refine ⟨fun s hs => ?_, fun clock report h => ⟨fun depth v t he => ?_, fun σ hσ => ?_⟩⟩
  · obtain ⟨hextends, hground⟩ := hs.extends hgrounded
    exact ⟨hground.noVariableCycle, hextends, fun s' hmove => hmove.change hground,
      fun s' hs' => (hs'.extends hground).1⟩
  · obtain ⟨s, s', x, hs, hmove, hdepth, hx, hsubst⟩ := mem_events_of_solve (fromVisit_reports g) h _ he depth v t rfl
    exact ⟨s, s', hs, hmove, hdepth, get?_of_lookup (hs.extends hgrounded).2 hx, hsubst⟩
  · obtain ⟨e, hadopted, hwork, rfl⟩ := emptied_of_solution (yields_of_solve h) hσ
    have hvisits := Visits.of_adopted hadopted
    obtain ⟨hextends, hground⟩ := hvisits.extends hgrounded
    exact ⟨hground.noVariableCycle, hextends, e, hvisits, hwork, rfl⟩

/-- One variable is known to be another one. -/
def aliasAssumption : Substitution := Substitution.empty.bind 1 (.var 2)

/-- A choice for the first variable, of which the second constraint leaves one, and two unknown types one of which
conforms to the other. -/
def aliasConstraints : List Constraint :=
  [.oneOf [.equality (.var 1) .bool {}, .equality (.var 1) .int {}] {}, .conformance (.var 2) .int {},
    .conformance (.var 3) (.var 4) {}]

theorem aliasAssumption_grows : aliasAssumption.NoVariableCycle ∧ ∃ report σ,
    solve {} aliasConstraints aliasAssumption none = .ok report ∧ report.outcome.solution? = some σ ∧
      σ.entries = [(1, .var 2), (2, .int), (3, .var 4)] ∧ aliasAssumption.Extends σ ∧ σ.NoVariableCycle ∧
      ∃ s s', Visits {} (.initial aliasConstraints aliasAssumption) s ∧ Move {} s s' ∧ s.depth = 1 ∧
      s.subst.get? 3 = none ∧ s'.subst = s.subst.bind 3 (.var 4) := by
  have hassumed : aliasAssumption.NoVariableCycle :=
    (noVariableCycle_empty.grounded.bind rfl fun _ _ => rfl).noVariableCycle
  have hrun : (solve {} aliasConstraints aliasAssumption none).toOption.map (fun r =>
      (r.outcome.solution?.map Substitution.entries, r.events.reverse[2]?)) =
        some (some [(1, .var 2), (2, .int), (3, .var 4)], some (.bind 1 3 (.var 4))) := by cbv
  obtain ⟨report, h, hobs⟩ := exists_ok_of_toOption_map hrun
  obtain ⟨hsolution, hevent⟩ := Prod.mk.inj hobs
  obtain ⟨σ, hσ, hentries⟩ := Option.map_eq_some_iff.mp hsolution
  obtain ⟨hbind, hsolved⟩ := (table_only_grows {} aliasConstraints aliasAssumption hassumed).2 none report h
  obtain ⟨hcycle, hextends, -⟩ := hsolved σ hσ
  exact ⟨hassumed, report, σ, h, hσ, hentries, hextends, hcycle,
    hbind 1 3 (.var 4) (List.mem_reverse.mp (List.mem_of_getElem? hevent))⟩

end TypeInference.Solver
