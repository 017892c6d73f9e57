import TypeInference.Proofs.Soundness

/-! # What is solved first

The first state of a run has the equalities on top, the one that was recorded last first. So an equality that binds a
variable to a composite type does so before any earlier one is looked at, if those recorded later do not reach the
variable. `Awaits` is what a run keeps until then, and `lookup_of_awaits` says what the solution makes of the
variable. -/

namespace TypeInference.Solver

open Substitution
open List

variable {before after : List Constraint} {location : Location} {f : NodeId} {σ : Substitution}

/-! ### Sorted work -/

abbrev rank (d : Constraint) : Int := d.kind.rank

theorem eq_append_of_sorted {l : List Constraint} (h : l.Pairwise fun a b => rank a ≤ rank b) (k : Int) :
    l = l.filter (fun d => decide (rank d < k)) ++ l.filter (fun d => decide (k ≤ rank d)) := by
  induction h with
  | nil => rfl
  | @cons a l hhead htail ih =>
    by_cases hlt : rank a < k
    · have hle : ¬ k ≤ rank a := by omega
      simpa [hlt, hle] using ih
    · have hle : k ≤ rank a := by omega
      have hnone : l.filter (fun d => decide (rank d < k)) = [] := by
        refine filter_eq_nil_iff.mpr fun d hd => ?_
        have := hhead d hd
        simp only [decide_eq_true_eq]
        omega
      simpa [hlt, hle, hnone] using ih

theorem filter_mergeSort (cs : List Constraint) (k : Int) :
    (cs.mergeSort fun a b => rank a ≤ rank b).filter (fun d => decide (rank d = k)) = cs.filter
    (fun d => decide (rank d = k)) := by
  have hperm := (mergeSort_perm cs fun a b => rank a ≤ rank b).filter fun d => decide (rank d = k)
  have hsorted : (cs.filter fun d => decide (rank d = k)).Pairwise fun a b => decide (rank a ≤ rank b) = true := by
    refine pairwise_iff_forall_sublist.mpr fun {a b} hab => ?_
    have ha := mem_filter.mp (hab.subset (mem_cons_self))
    have hb := mem_filter.mp (hab.subset (mem_cons_of_mem a (mem_singleton_self b)))
    simp only [decide_eq_true_eq] at ha hb ⊢
    omega
  have hsub := sublist_mergeSort (fun a b c => by simp only [decide_eq_true_eq]; omega)
    (fun a b => by simp only [Bool.or_eq_true, decide_eq_true_eq]; omega) hsorted filter_sublist
  have hsub' := hsub.filter fun d => decide (rank d = k)
  simp only [filter_filter, Bool.and_self] at hsub'
  exact (hsub'.eq_of_length hperm.length_eq.symm).symm

/-- Above an equality there are only equalities that were recorded after it, and constraints of no known kind. -/
theorem initial_work {e : Constraint} (he : rank e = 3) (assumed : Substitution) :
    ∃ top rest, (State.initial (before ++ e :: after) assumed).work = top ++ e :: rest ∧
      ∀ d ∈ top, d ∈ after ∨ 3 < rank d := by
  let sorted := (before ++ e :: after).mergeSort fun a b => rank a ≤ rank b
  have hsorted : sorted.Pairwise fun a b => rank a ≤ rank b := by
    refine (pairwise_mergeSort ?_ ?_ _).imp fun h => of_decide_eq_true h
    · intro a b c
      simp only [decide_eq_true_eq]
      omega
    · intro a b
      simp only [Bool.or_eq_true, decide_eq_true_eq]
      omega
  let high := sorted.filter fun d => decide (3 ≤ rank d)
  have hlow : sorted = sorted.filter (fun d => decide (rank d < 3)) ++ high := eq_append_of_sorted hsorted 3
  have hhigh : high = high.filter (fun d => decide (rank d < 4)) ++ high.filter (fun d => decide (4 ≤ rank d)) :=
    eq_append_of_sorted (hsorted.filter _) 4
  have hmiddle : high.filter (fun d => decide (rank d < 4)) =
      before.filter (fun d => decide (rank d = 3)) ++ e :: after.filter (fun d => decide (rank d = 3)) := by
    have hboth : high.filter (fun d => decide (rank d < 4)) = sorted.filter (fun d => decide (rank d = 3)) := by
      rw [filter_filter]
      refine filter_congr fun d _ => ?_
      rw [← Bool.decide_and]
      exact decide_eq_decide.mpr (by omega)
    rw [hboth, filter_mergeSort]
    simp [he]
  rw [hmiddle] at hhigh
  rw [hhigh] at hlow
  refine ⟨(high.filter fun d => decide (4 ≤ rank d)).reverse ++ (after.filter fun d => decide (rank d = 3)).reverse,
    (before.filter fun d => decide (rank d = 3)).reverse ++ (sorted.filter fun d => decide (rank d < 3)).reverse, ?_,
    ?_⟩
  · refine (congrArg List.reverse hlow).trans ?_
    simp only [reverse_append, reverse_cons, append_assoc, cons_append, nil_append]
  · intro d hd
    simp only [mem_append, mem_reverse, mem_filter, decide_eq_true_eq] at hd
    rcases hd with hd | hd
    · exact .inr (by omega)
    · exact .inl hd.1

/-! ### Waiting for an equality -/

/-- The constraint is going to be taken up, and what comes before it does not speak of the variable, which is unbound
and out of reach. -/
structure Awaits (v : Int) (e : Constraint) (s : State) : Prop where
  work : ∃ top rest, s.work = top ++ e :: rest ∧ s.idle ≤ rest.length ∧ ∀ d ∈ top, ¬ d.Mentions (.var v)
  grounded : s.subst.Grounded
  unbound : s.subst.get? v = none
  avoids : s.subst.Avoids v

variable {g : TypeGraph} {s s' : State} {v : Int} {e c : Constraint} {top rest : List Constraint}

theorem Awaits.not_stalled (h : Awaits v e s) : ¬ s.Stalled := by
  obtain ⟨top, rest, hwork, hidle, -⟩ := h.work
  rintro ⟨-, hstalled⟩
  rw [hwork, length_append, length_cons] at hstalled
  omega

theorem work_pushAll (s : State) (cs : List Constraint) : (s.pushAll cs).work = cs.reverse ++ s.work := by
  induction cs generalizing s with
  | nil => rfl
  | cons c cs ih =>
    have h : (s.pushAll (c :: cs)).work = ((s.push c).pushAll cs).work := rfl
    rw [h, ih]
    simp [State.push]

theorem idle_pushAll (s : State) (cs : List Constraint) : (s.pushAll cs).idle ≤ s.idle := by
  induction cs generalizing s with
  | nil => exact Nat.le_refl _
  | cons c cs ih => exact Nat.le_trans (ih (s.push c)) (Nat.zero_le _)

theorem Effect.awaits (h : Effect g (s.below (top ++ e :: rest)) c s') (hground : s'.subst.Grounded) (hs : Awaits v e s)
    (hg : g.Avoids v) (hidle : s.idle ≤ rest.length) (hc : ¬ c.Mentions (.var v))
    (htop : ∀ d ∈ top, ¬ d.Mentions (.var v)) : Awaits v e s' := by
  have hreach : ∀ {t : Ty}, c.Reaches g s.subst t → t ≠ .var v := fun ht => ht.ne_var hs.grounded hg hs.avoids hc
  -- derived constraints come on top
  have hpush : ∀ {cs : List Constraint}, (∀ d ∈ cs, DerivedFrom g s.subst c d) →
      ∀ d ∈ cs.reverse ++ top, ¬ d.Mentions (.var v) := by
    intro cs hcs d hd
    rcases mem_append.mp hd with hd | hd
    · obtain ⟨rel, t, u, steps, rfl, ht, hu⟩ := hcs d (mem_reverse.mp hd)
      rw [Constraint.mentions_relate]
      exact fun h => h.elim (fun h => hreach ht h.symm) fun h => hreach hu h.symm
    · exact htop d hd
  cases h with
  | settled => exact ⟨⟨top, rest, rfl, Nat.zero_le _, htop⟩, hs.grounded, hs.unbound, hs.avoids⟩
  | requeued =>
    refine ⟨⟨top, rest ++ [c], ?_, ?_, htop⟩, hs.grounded, hs.unbound, hs.avoids⟩
    · simp [State.below]
    · rw [length_append, length_singleton]
      exact Nat.succ_le_succ hidle
  | @bound w x y hw hx hy =>
    have hxv : s.subst.lookup x ≠ .var v := lookup_ne_var hs.grounded hs.avoids (hreach hx)
    have hvw : v ≠ w := by
      rintro rfl
      exact hxv hw
    have hyv : s.subst.lookup y ≠ .var v := lookup_ne_var hs.grounded hs.avoids (hreach hy)
    exact ⟨⟨top, rest, rfl, Nat.zero_le _, htop⟩, hground, (get?_bind_ne hvw).trans hs.unbound, hs.avoids.bind hyv⟩
  | pushed hcs =>
    refine ⟨⟨_, rest, ?_, Nat.le_trans (idle_pushAll _ _) hidle, hpush hcs⟩, hground, ?_, ?_⟩
    · rw [work_pushAll, append_assoc]
      rfl
    · rw [subst_pushAll]
      exact hs.unbound
    · rw [subst_pushAll]
      exact hs.avoids
  | divided hcs =>
    refine ⟨⟨_, rest, ?_, Nat.zero_le _, hpush hcs⟩, hground, ?_, ?_⟩
    · show (State.pushAll _ _).work = _
      rw [work_pushAll, append_assoc]
      rfl
    · show (State.pushAll _ _).subst.get? v = none
      rw [subst_pushAll]
      exact hs.unbound
    · show (State.pushAll _ _).subst.Avoids v
      rw [subst_pushAll]
      exact hs.avoids
  | @postponed left _ _ ls =>
    let d : Constraint := .oneOf (ls.map fun u => .conformance left u (c.location.append [.unionCase])) c.location
    exact ⟨⟨top, rest ++ [d], append_assoc _ _ _, Nat.zero_le _, htop⟩, hground, hs.unbound, hs.avoids⟩

theorem bind_of_matchTypes {events : List Event} (hs : s.subst.Grounded) (hv : s.subst.get? v = none)
    (h : matchTypes g s .equality (.var v) (.node f) location = .ok (.next s' events)) :
    s'.subst.get? v = some (.node f) := by
  have hvar : s.subst.lookup (.var v) = .var v := lookup_of_isEnd fun w hw => by
    cases hw
    exact hv
  unfold matchTypes at h
  rw [hvar, lookup_node] at h
  obtain ⟨equal, hequal, h⟩ := bind_eq_ok.mp h
  cases equal with
  | true =>
    -- an unbound variable equals no composite type
    have hmatches := (bisimilar_of_equal hs hequal).matches
    cases hmatches with
    | unions ht =>
      obtain ⟨cases, hcases⟩ := ht
      rw [hvar] at hcases
      cases hcases
    | others _ _ hcongruent =>
      rw [hvar, lookup_node] at hcongruent
      cases hcongruent
  | false =>
    cases h
    rw [get?_bind _ (by simp), if_pos rfl]

/-- **Precedence of equalities.** A variable for which a run awaits an equality with a composite type resolves to this
type in the end. The induction is on the bound of the run. -/
theorem lookup_of_awaits (hg : g.Avoids v) {steps : Nat} {sh sh' : Shared}
    (hrun : (run g steps s).run sh = .ok (.solved σ, sh')) (h : Awaits v (.equality (.var v) (.node f) location) s) :
    σ.lookup (.var v) = .node f := by
  induction steps generalizing s sh sh' with
  | zero =>
    obtain ⟨top, rest, hwork, -⟩ := h.work
    cases run_cases hrun rfl with
    | done work => simp [hwork] at work
    | advance fuel => cases fuel
    | choose fuel => cases fuel
    | noChoice _ _ outcome => cases outcome
  | succ steps ih =>
    obtain ⟨top, rest, hwork, hidle, htop⟩ := h.work
    cases run_cases hrun rfl with
    | done work => simp [hwork] at work
    | noChoice _ _ outcome => cases outcome
    | choose fuel work going hc run =>
      cases fuel
      cases top with
      | nil => simp [hwork] at work
      | cons c top =>
        obtain ⟨rfl, rfl⟩ : c = _ ∧ _ = _ := by simpa [hwork] using work
        obtain ⟨hchoices, hbelow⟩ := forall_mem_cons.mp htop
        refine ih run ⟨⟨_ :: top, rest, rfl, Nat.zero_le rest.length, ?_⟩, h.grounded, h.unbound, h.avoids⟩
        exact forall_mem_cons.mpr ⟨fun hmention => hchoices (.choice hc hmention), hbelow⟩
    | advance fuel hadvance run =>
      cases fuel
      obtain ⟨-, hground, -⟩ := hadvance.sound h.grounded
      cases top with
      | nil =>
        cases hadvance with
        | unstall stalled => exact absurd stalled h.not_stalled
        | member work => simp [hwork] at work
        | relate work _ hmatch =>
          obtain ⟨⟨rfl, rfl, rfl, rfl⟩, rfl⟩ : (_ = _ ∧ _ = _ ∧ _ = _ ∧ _ = _) ∧ _ = _ := by simpa [hwork] using work
          have hbound := bind_of_matchTypes (s := s.below rest) h.grounded h.unbound hmatch
          obtain ⟨hσ, hext, -⟩ := run_satisfies _ _ _ _ _ hground run
          rw [hσ.lookup_of_get? (hext _ _ hbound), lookup_node]
      | cons c top =>
        obtain ⟨hc, hbelow⟩ := forall_mem_cons.mp htop
        cases hadvance with
        | unstall stalled => exact absurd stalled h.not_stalled
        | relate work _ hmatch =>
          obtain ⟨rfl, rfl⟩ : c = _ ∧ _ = _ := by simpa [hwork] using work
          exact ih run ((matchTypes_effect hmatch).awaits hground h hg hidle hc hbelow)
        | member work _ hmatch =>
          obtain ⟨rfl, rfl⟩ : c = _ ∧ _ = _ := by simpa [hwork] using work
          exact ih run ((matchMember_effect hmatch).awaits hground h hg hidle hc hbelow)

/-- The same of a solver that is given constraints: the equality is among them, and the variable occurs in no constraint
after it. -/
theorem lookup_of_solve {clock : Clock} {report : Report} (hg : g.Avoids v)
    (h : solve g (before ++ .equality (.var v) (.node f) location :: after) .empty clock = .ok report)
    (hsolved : report.outcome = .solved σ) (hafter : ∀ d ∈ after, ¬ d.Mentions (.var v)) :
    σ.lookup (.var v) = .node f := by
  unfold solve at h
  obtain ⟨⟨outcome, sh⟩, hrun, h⟩ := bind_eq_ok.mp h
  cases h
  cases hsolved
  obtain ⟨top, rest, hwork, htop⟩ := initial_work (e := .equality (.var v) (.node f) location) rfl .empty
  refine lookup_of_awaits hg hrun ⟨⟨top, rest, hwork, Nat.zero_le _, fun d hd => ?_⟩,
    noVariableCycle_empty.grounded, rfl, ?_⟩
  · rcases htop d hd with hd | hrank
    · exact hafter d hd
    · cases d with
      | unknown => intro hmention; cases hmention
      | relate rel => cases rel <;> cases hrank
      | member => cases hrank
      | oneOf => cases hrank
  · intro w hw
    cases hw

end TypeInference.Solver
