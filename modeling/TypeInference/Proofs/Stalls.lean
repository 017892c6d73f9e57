import TypeInference.Proofs.Outcomes

/-! # Constraints that wait

The solver counts how many constraints were put back in a row. The count is exact: so many constraints stand at the end
of the work, and all of them wait under the present table (`State.Tried`). When it has come to the length of the work, a
conformance between two unknown types is settled, if there is one; otherwise members of unknown types are all that is
left, and the run gives up (`stalls_are_exact`). -/

namespace TypeInference.Solver

open Substitution
open List

variable {g : TypeGraph} {s s' : State} {c : Constraint} {rest : List Constraint} {t u : Ty} {location : Location}

/-- The constraint waits until more is known: a member of an unknown type, or a conformance between two of them. -/
inductive Waits (σ : Substitution) : Constraint → Prop where
  | member {t u : Ty} {m : Member} {location : Location} {v : Int} (h : σ.lookup t = .var v) :
      Waits σ (.member t m u location)
  | conformance {t u : Ty} {location : Location} {v w : Int} (ht : σ.lookup t = .var v) (hu : σ.lookup u = .var w) :
      Waits σ (.conformance t u location)

/-- The constraints that were put back since the last progress stand at the end of the work, and wait. -/
def State.Tried (s : State) : Prop :=
  ∃ front waiting, s.work = front ++ waiting ∧ waiting.length = s.idle ∧ ∀ c ∈ waiting, Waits s.subst c

/-! ### What a step does to the count -/

section Steps

variable {rel : Relation} {events : List Event}

/-- What becomes of the count below a constraint that is taken up. A constraint that is settled in silence leaves the
count as it is. -/
inductive Counted (s : State) (c : Constraint) : State → Prop where
  | reset {s' : State} (h : s'.idle = 0) : Counted s c s'
  | silent : Counted s c s
  | requeued (h : Waits s.subst c) : Counted s c { s with work := s.work ++ [c], idle := s.idle + 1 }

theorem pushAll_resets (s : State) (cs : List Constraint) : (s.pushAll cs).idle = 0 ∨ s.pushAll cs = s := by
  induction cs generalizing s with
  | nil => exact .inr rfl
  | cons c cs ih =>
    rcases ih (s.push c) with h | h
    · exact .inl h
    · refine .inl ?_
      rw [State.pushAll, foldl_cons, ← State.pushAll, h]
      rfl

theorem counted_pushAll (cs : List Constraint) : Counted s c (s.pushAll cs) := by
  rcases pushAll_resets s cs with h | h
  · exact .reset h
  · rw [h]
    exact .silent

theorem matchLeftUnion_counted {i : NodeId} {cases : List Ty}
    (h : matchLeftUnion g s rel i cases u location = .ok (.next s' events)) : Counted s c s' := by
  unfold matchLeftUnion at h
  obtain ⟨lefts, -, h⟩ := bind_eq_ok.mp h
  split at h
  · split at h
    · cases h
      exact counted_pushAll _
    · obtain ⟨rights, -, h⟩ := bind_eq_ok.mp h
      cases h
      rw [State.pushLeft, State.pushLeft, pushAll_pushAll]
      exact counted_pushAll _
  · cases h
    exact counted_pushAll _

theorem matchComposite_counted (h : matchComposite g s rel t u location = .ok (.next s' events)) : Counted s c s' := by
  unfold matchComposite at h
  split at h
  · exact matchLeftUnion_counted h
  · unfold matchRightUnion at h
    obtain ⟨rights, -, h⟩ := bind_eq_ok.mp h
    obtain ⟨known, -, h⟩ := bind_eq_ok.mp h
    cases known with
    | true =>
      cases h
      exact .reset rfl
    | false =>
      cases h
      exact .reset rfl
  · obtain ⟨x, -, h⟩ := bind_eq_ok.mp h
    obtain ⟨y, -, h⟩ := bind_eq_ok.mp h
    unfold matchParts at h
    split at h
    · cases h
      exact .reset rfl
    · split at h
      · cases h
        exact .reset rfl
      · cases h
    · cases h
      exact .reset rfl
    · cases h
  · cases h

theorem matchTypes_counted (h : matchTypes g s rel t u location = .ok (.next s' events)) :
    Counted s (.relate rel t u location) s' := by
  unfold matchTypes at h
  obtain ⟨equal, -, h⟩ := bind_eq_ok.mp h
  cases equal with
  | true =>
    cases h
    exact .reset rfl
  | false =>
    simp only [Bool.false_eq_true, if_false] at h
    split at h
    · next ht hu _ =>
      cases h
      exact .requeued (.conformance ht hu)
    · cases h
      exact .reset rfl
    · cases h
      exact .reset rfl
    · exact matchComposite_counted h

theorem matchMember_counted {m : Member} (h : matchMember g s t m u location = .next s' events) :
    Counted s (.member t m u location) s' := by
  unfold matchMember at h
  dsimp only at h
  split at h
  · next ht =>
    cases h
    exact .requeued (.member ht)
  · split at h
    · cases h
      exact .reset rfl
    · cases h
  · cases h

end Steps

/-! ### The count is exact -/

theorem tried_of_idle (h : s.idle = 0) : s.Tried := ⟨s.work, [], by simp, h.symm, by simp⟩

theorem State.Tried.front (hs : s.Tried) (hwork : s.work = c :: rest) (hgoing : ¬ s.Stalled) :
    ∃ front waiting, rest = front ++ waiting ∧ waiting.length = s.idle ∧ ∀ d ∈ waiting, Waits s.subst d := by
  obtain ⟨front, waiting, hsplit, hlen, hwaits⟩ := hs
  cases front with
  | nil =>
    refine absurd ⟨?_, ?_⟩ hgoing
    · rw [← hlen, ← nil_append waiting, ← hsplit, hwork]
      exact Nat.succ_pos _
    · rw [← hlen, hsplit, nil_append]
  | cons d front =>
    rw [hwork] at hsplit
    cases hsplit
    exact ⟨front, waiting, rfl, hlen, hwaits⟩

theorem Counted.tried (h : Counted (s.below rest) c s') (hs : s.Tried) (hwork : s.work = c :: rest)
    (hgoing : ¬ s.Stalled) : s'.Tried := by
  obtain ⟨front, waiting, hsplit, hlen, hwaits⟩ := hs.front hwork hgoing
  cases h with
  | reset h => exact tried_of_idle h
  | silent => exact ⟨front, waiting, hsplit, hlen, hwaits⟩
  | requeued h =>
    refine ⟨front, waiting ++ [c], ?_, ?_, forall_mem_append.mpr ⟨hwaits, forall_mem_singleton.mpr h⟩⟩
    · rw [← append_assoc, ← hsplit]
      rfl
    · rw [length_append, hlen]
      rfl

theorem Move.tried (h : Move g s s') (hs : s.Tried) : s'.Tried := by
  cases h with
  | branch => exact tried_of_idle rfl
  | advance h =>
    cases h with
    | unstall _ h => exact tried_of_idle (idle_of_unstall h)
    | relate work going h => exact (matchTypes_counted h).tried hs work going
    | member work going h => exact (matchMember_counted h).tried hs work going

theorem Visits.tried (h : Visits g s s') (hs : s.Tried) : s'.Tried := by
  induction h with
  | refl => exact hs
  | tail _ hmove ih => exact hmove.tried ih

/-! ### Rounds of constraints that are put back -/

/-- The top constraint is put back, and nothing else happens. -/
structure Requeues (s s' : State) : Prop where
  work : ∃ c rest, s.work = c :: rest ∧ s'.work = rest ++ [c]
  subst : s'.subst = s.subst
  idle : s'.idle = s.idle + 1

/-- A variable is bound, or a constraint is traded for what it comes down to, which may be nothing. -/
inductive Progress (g : TypeGraph) (s s' : State) : Prop where
  | bound {x : Ty} {v : Int} (unknown : s.subst.lookup x = .var v) (t : Ty) (subst : s'.subst = s.subst.bind v t)
  | traded {c : Constraint} {rest : List Constraint} (cs : List Constraint) (work : s.work.Perm (c :: rest))
      (subst : s'.subst = s.subst) (derived : ∀ d ∈ cs, Derives g s.subst c d) (work' : s'.work.Perm (cs ++ rest))

theorem Move.requeues_or_progress (h : Move g s s') : Requeues s s' ∨ Progress g s s' := by
  cases h.descent with
  | bound _ _ _ hv _ hsubst => exact .inr (.bound hv _ hsubst)
  | dropped hsubst hwork => exact .inr (.traded [] hwork hsubst (by simp) (.refl _))
  | traded cs top _ hsubst hcs hwork => exact .inr (.traded cs (top ▸ .refl _) hsubst hcs hwork)
  | requeued top _ hsubst hwork hidle => exact .inl ⟨⟨_, _, top, hwork⟩, hsubst, hidle⟩

/-- So many constraints are put back in a row. -/
inductive RequeuesInARow (g : TypeGraph) : Nat → State → State → Prop where
  | zero (s : State) : RequeuesInARow g 0 s s
  | succ {n : Nat} {s s1 s2 : State} (row : RequeuesInARow g n s s1) (move : Move g s1 s2) (requeues : Requeues s1 s2) :
      RequeuesInARow g (n + 1) s s2

theorem Requeues.length (h : Requeues s s') : s'.work.length = s.work.length := by
  obtain ⟨c, rest, hwork, hwork'⟩ := h.work
  simp [hwork, hwork']

/-- A state from which a constraint is put back has not tried all of its constraints. -/
theorem Requeues.not_stalled (h : Requeues s s') (hmove : Move g s s') : ¬ s.Stalled := by
  cases hmove with
  | branch _ going => exact going
  | advance hadvance =>
    cases hadvance with
    | unstall _ hun =>
      have hidle := h.idle
      rw [idle_of_unstall hun] at hidle
      omega
    | relate _ going => exact going
    | member _ going => exact going

theorem RequeuesInARow.le {n : Nat} (h : RequeuesInARow g n s s') :
    s'.idle = s.idle + n ∧ s'.work.length = s.work.length ∧ n ≤ s.work.length := by
  induction h with
  | zero => exact ⟨rfl, rfl, Nat.zero_le _⟩
  | @succ n s s1 s2 _ move requeues ih =>
    obtain ⟨hidle, hlen, -⟩ := ih
    have hidle' := requeues.idle
    have hlen' := requeues.length
    have hgoing := requeues.not_stalled move
    obtain ⟨c, rest, hwork, -⟩ := requeues.work
    have hpos : 0 < s1.work.length := by
      rw [hwork]
      exact Nat.succ_pos _
    unfold State.Stalled at hgoing
    refine ⟨by omega, by omega, ?_⟩
    by_contra hgt
    exact hgoing ⟨by omega, by omega⟩

/-! ### Stuck states -/

section Stuck

variable {σ : Substitution}

/-- All that is left are members of unknown types. -/
structure State.Stuck (s : State) : Prop where
  some : s.work ≠ []
  members : ∀ c ∈ s.work, ∃ t m u location v, c = .member t m u location ∧ s.subst.lookup t = .var v

theorem lookupVar?_eq_some {v : Int} : σ.lookupVar? t = some v ↔ σ.lookup t = .var v := by
  refine ⟨lookup_of_lookupVar?, fun h => ?_⟩
  rw [lookupVar?, h]

/-- Nothing is taken out of the work if there is no conformance between unknown types. -/
theorem takeUnknown_eq_none {work : List Constraint} : takeUnknown σ work = none ↔
    ∀ t u location, .conformance t u location ∈ work → ∀ v w, ¬ (σ.lookup t = .var v ∧ σ.lookup u = .var w) := by
  induction work with
  | nil => simp [takeUnknown]
  | cons c work ih =>
    unfold takeUnknown
    dsimp only
    split
    · next hhere =>
      refine iff_of_false (by simp) fun hnone => ?_
      split at hhere
      · next t u location =>
        split at hhere
        · next ht hu => exact hnone t u location mem_cons_self _ _ ⟨lookupVar?_eq_some.mp ht, lookupVar?_eq_some.mp hu⟩
        · cases hhere
      · cases hhere
    · next hhere =>
      rw [Option.map_eq_none_iff, ih]
      refine ⟨fun hnone t u location hmem => ?_, fun hnone t u location hmem =>
        hnone t u location (mem_cons_of_mem c hmem)⟩
      rcases mem_cons.mp hmem with rfl | hmem
      · rintro v w ⟨ht, hu⟩
        simp [lookupVar?_eq_some.mpr ht, lookupVar?_eq_some.mpr hu] at hhere
      · exact hnone t u location hmem

theorem State.Tried.stuck (hs : s.Tried) (hwork : s.work = c :: rest) (hstalled : s.Stalled)
    (hnone : unstall s = none) : s.Stuck := by
  obtain ⟨front, waiting, hsplit, hlen, hwaits⟩ := hs
  obtain rfl : front = [] := by
    have hle := hstalled.2
    rw [hsplit, length_append] at hle
    exact eq_nil_of_length_eq_zero (by omega)
  refine ⟨by simp [hwork], fun d hd => ?_⟩
  rw [hsplit, nil_append] at hd
  cases hwaits d hd with
  | member h => exact ⟨_, _, _, _, _, rfl, h⟩
  | conformance ht hu =>
    have htake : takeUnknown s.subst s.work = none := Option.map_eq_none_iff.mp hnone
    rw [← nil_append waiting, ← hsplit] at hd
    exact absurd ⟨ht, hu⟩ (takeUnknown_eq_none.mp htake _ _ _ hd _ _)

theorem State.Stuck.unstall_eq_none (h : s.Stuck) : unstall s = none := by
  refine Option.map_eq_none_iff.mpr (takeUnknown_eq_none.mpr fun t u location hmem => ?_)
  obtain ⟨_, _, _, _, _, heq, -⟩ := h.members _ hmem
  cases heq

end Stuck

/-! ### Runs that stall -/

section Runs

variable {o : Outcome} {events : List Event}

theorem State.Stuck.run_eq (h : s.Stuck) (hwork : s.work = c :: rest) (hstalled : s.Stalled) (steps : Nat) :
    run g (steps + 1) s = fail g s c .stalled := by
  rw [run, runWith_stalled hwork hstalled, h.unstall_eq_none]

/-- A failure that is reported as a stall comes from a visited state where nothing can be settled. -/
def StallsOnVisit (g : TypeGraph) (s0 : State) (e : Event) : Prop :=
  ∀ depth c, e = .fail depth .stalled c → ∃ s rest, Visits g s0 s ∧ s.depth = depth ∧ s.work = c :: rest ∧ s.Stalled ∧
    unstall s = none

theorem StallsOnVisit.of_move {e : Event} (hmove : Move g s s') (h : StallsOnVisit g s' e) : StallsOnVisit g s e := by
  intro depth c he
  obtain ⟨s1, rest, hvisits, hrest⟩ := h depth c he
  exact ⟨s1, rest, .head hmove hvisits, hrest⟩

theorem stallsOnVisit_of_noFailure (h : ∀ e ∈ events, ¬ e.IsFailure) : ∀ e ∈ events, StallsOnVisit g s e := by
  intro e he depth c heq
  subst heq
  exact absurd trivial (h _ he)

/-- What a run reports as a stall is one. -/
theorem stallsOnVisit_reports (g : TypeGraph) : Reports g (StallsOnVisit g) where
  move := .of_move
  unstall _ h := stallsOnVisit_of_noFailure (unstall_noFailure h)
  relate _ _ h := stallsOnVisit_of_noFailure (matchTypes_noFailure h)
  member _ _ h := stallsOnVisit_of_noFailure (matchMember_noFailure h)
  stalled {s c rest} hwork hstalled hnone depth d heq := by
    cases heq
    exact ⟨s, rest, .refl, rfl, hwork, hstalled, hnone⟩
  failed hkind depth d heq := by
    cases heq
    exact absurd rfl hkind
  pop _ _ heq := by cases heq
  branch _ _ heq := by cases heq

/-- All that was given up as stalled was given up in visited states where nothing can be settled. -/
def Outcome.StallsOnVisit (g : TypeGraph) (s0 : State) (o : Outcome) : Prop :=
  ∀ f ∈ o.failures, f.kind = .stalled → ∃ s c rest, Visits g s0 s ∧ s.work = c :: rest ∧ s.Stalled ∧ unstall s = none

theorem Outcome.GivesUp.stallsOnVisit {kind : FailureKind} (h : o.GivesUp kind) (hkind : kind ≠ .stalled) :
    o.StallsOnVisit g s := by
  obtain ⟨f, rfl, rfl⟩ := h
  intro f' hf' hstalled
  obtain rfl := mem_singleton.mp hf'
  exact absurd hstalled hkind

theorem Outcome.StallsOnVisit.of_move (hmove : Move g s s') (h : o.StallsOnVisit g s') : o.StallsOnVisit g s := by
  intro f hf hkind
  obtain ⟨s1, c, rest, hvisits, hrest⟩ := h f hf hkind
  exact ⟨s1, c, rest, .head hmove hvisits, hrest⟩

theorem stallsOnVisit_inductive (g : TypeGraph) : Inductive g fun s o => o.StallsOnVisit g s where
  done _ f hf := by cases hf
  advance h ih := ih.of_move (.advance h)
  stalled hwork hstalled hnone _ _ _ _ := ⟨_, _, _, .refl, hwork, hstalled, hnone⟩
  mismatch _ _ _ ho := ho.stallsOnVisit (by simp)
  choice {s o choices rest location outcomes sh sh'} hwork hgoing hruns hcombine := by
    rcases failures_of_combine hcombine with ho | ho
    · exact ho.givesUp.stallsOnVisit (by simp)
    · intro f hf hkind
      obtain ⟨o', ho', hf'⟩ := ho f hf
      obtain ⟨choice, hchoice, hvisit⟩ := exists_of_forall₂ hruns ho'
      exact hvisit.of_move (.branch hwork hgoing hchoice) f hf' hkind

/-- **Stalls are exact.** In every state that the search comes to, in a branch or not: no more constraints are put back
in a row than there are constraints pending, and every other step binds a variable or trades a constraint for what it
comes down to. A run reports and gives up as stalled only a visited state in which all that is pending are members of
types that are unknown, and such a state is given up when all of its constraints were put back. -/
theorem stalls_are_exact (g : TypeGraph) (cs : List Constraint) (assumed : Substitution) :
    (∀ s, Visits g (.initial cs assumed) s → (∀ n s', RequeuesInARow g n s s' → n ≤ s.work.length) ∧
      ∀ s', Move g s s' → Requeues s s' ∨ Progress g s s') ∧
    (∀ s, Visits g (.initial cs assumed) s → assumed.NoVariableCycle → s.Stuck → ∀ c ∈ s.work, ∃ t m u location v,
      c = .member t m u location ∧ s.subst.lookup t = .var v ∧ s.subst.get? v = none) ∧
    (∀ clock report, solve g cs assumed clock = .ok report →
      (∀ depth c, .fail depth .stalled c ∈ report.events →
        ∃ s rest, Visits g (.initial cs assumed) s ∧ s.depth = depth ∧ s.work = c :: rest ∧ s.Stuck) ∧
      ∀ f ∈ report.outcome.failures, f.kind = .stalled → ∃ s, Visits g (.initial cs assumed) s ∧ s.Stuck) ∧
    ∀ s c rest, s.work = c :: rest → s.Stalled → s.Stuck → ∀ steps, run g (steps + 1) s = fail g s c .stalled := by
  have htried : (State.initial cs assumed).Tried := tried_of_idle rfl
  refine ⟨fun s _ => ⟨fun n s' hrow => hrow.le.2.2, fun s' hmove => hmove.requeues_or_progress⟩,
    fun s hs hassumed hstuck c hc => ?_,
    fun clock report h => ⟨fun depth c he => ?_, fun f hf hkind => ?_⟩, fun s c rest hwork hstalled hstuck steps =>
    hstuck.run_eq hwork hstalled steps⟩
  · obtain ⟨t, m, u, location, v, rfl, hv⟩ := hstuck.members c hc
    exact ⟨t, m, u, location, v, rfl, hv, get?_of_lookup (hs.extends hassumed.grounded).2 hv⟩
  · obtain ⟨s, rest, hvisits, hdepth, hwork, hstalled, hnone⟩ :=
      mem_events_of_solve (stallsOnVisit_reports g) h _ he depth c rfl
    exact ⟨s, rest, hvisits, hdepth, hwork, (hvisits.tried htried).stuck hwork hstalled hnone⟩
  · obtain ⟨steps, sh, hrun⟩ := concludes_of_solve h
    have hvisit := run_induction (stallsOnVisit_inductive g) (fun _ s o ho => ho.stallsOnVisit (by simp)) hrun
    obtain ⟨s, c, rest, hvisits, hwork, hstalled, hnone⟩ := hvisit f hf hkind
    exact ⟨s, hvisits, (hvisits.tried htried).stuck hwork hstalled hnone⟩

/-- One unknown type conforms to another, and a third one has a member. -/
def unknownConstraints : List Constraint :=
  [.conformance (.var 1) (.var 2) {}, .member (.var 3) (.label "x") (.var 4) {}]

/-- On the sample the conformance is settled, and then the member is given up, in a state where its owner is not
bound. -/
theorem unknownConstraints_stall : ∃ report, solve {} unknownConstraints .empty none = .ok report ∧
    report.outcome.failures.map Failure.kind = [.stalled] ∧
    (report.events.any fun e => e matches .bind 0 1 (.var 2)) = true ∧
    ∃ s, Visits {} (.initial unknownConstraints .empty) s ∧ s.Stuck ∧ ∀ c ∈ s.work, ∃ t m u location v,
      c = .member t m u location ∧ s.subst.lookup t = .var v ∧ s.subst.get? v = none := by
  have hsolve : (solve {} unknownConstraints .empty none).toOption.map (fun r => (r.outcome.failures.map Failure.kind,
      r.events.any fun e => e matches .bind 0 1 (.var 2))) = some ([.stalled], true) := by cbv
  obtain ⟨report, hreport, hpair⟩ := exists_ok_of_toOption_map hsolve
  obtain ⟨hkinds, hbound⟩ := Prod.mk.inj hpair
  obtain ⟨-, hunbound, hstalls, -⟩ := stalls_are_exact {} unknownConstraints .empty
  have hmem : FailureKind.stalled ∈ report.outcome.failures.map Failure.kind := by simp [hkinds]
  obtain ⟨f, hf, hkind⟩ := mem_map.mp hmem
  obtain ⟨s, hs, hstuck⟩ := (hstalls none report hreport).2 f hf hkind
  exact ⟨report, hreport, hkinds, hbound, s, hs, hstuck, hunbound s hs noVariableCycle_empty hstuck⟩

end Runs

end TypeInference.Solver
