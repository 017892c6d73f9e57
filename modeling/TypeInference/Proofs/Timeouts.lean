import TypeInference.Proofs.Termination

/-! # Time that is up, and time that is enough

All branches of a run share one clock. Once it answers that time is up, all open choices and the disjunctions around
them end (`Spent`). A run that was never told so runs in the same way with more time and more steps. `Timed` says this
of a part of a run; a run asks at least once in every two steps, so the steps that it is given are enough for the time
that it has (`run_timed`). -/

namespace TypeInference.Solver

open List

variable {c : Constraint} {kind : FailureKind} {events : List Event} {location : Location} {t u : Ty}

/-- The event reports that the clock answered that time is up. -/
def Event.IsTimeout : Event → Prop
  | .fail _ .timeout _ => True
  | _ => False

@[simp] theorem isTimeout_fail {depth : Nat} : (Event.fail depth kind c).IsTimeout ↔ kind = .timeout := by
  cases kind <;> simp [Event.IsTimeout]

/-- The event reports that a constraint was given up. -/
def Event.IsFailure : Event → Prop
  | .fail _ _ _ => True
  | _ => False

section

variable {g : TypeGraph} {s s' : State} {events : List Event}

theorem matchTypes_noFailure {rel : Relation} (h : matchTypes g s rel t u location = .ok (.next s' events)) :
    ∀ e ∈ events, ¬ e.IsFailure := by
  unfold matchTypes at h
  obtain ⟨equal, -, h⟩ := bind_eq_ok.mp h
  cases equal with
  | true =>
    cases h
    simp
  | false =>
    simp only [Bool.false_eq_true, if_false] at h
    split at h
    · cases h
      simp [Event.IsFailure]
    · cases h
      simp [Event.IsFailure]
    · cases h
      simp [Event.IsFailure]
    · obtain ⟨-, rfl⟩ := matchComposite_silent h s' events rfl
      simp

theorem matchMember_noFailure {m : Member} (h : matchMember g s t m u location = .next s' events) :
    ∀ e ∈ events, ¬ e.IsFailure := by
  unfold matchMember at h
  dsimp only at h
  split at h
  · cases h
    simp [Event.IsFailure]
  · split at h
    · cases h
      simp
    · cases h
  · cases h

theorem unstall_noFailure (h : unstall s = some (.next s' events)) : ∀ e ∈ events, ¬ e.IsFailure := by
  unfold unstall at h
  obtain ⟨⟨⟨v, w⟩, rest⟩, -, h⟩ := Option.map_eq_some_iff.mp h
  cases h
  simp [Event.IsFailure]

theorem idle_of_unstall (h : unstall s = some (.next s' events)) : s'.idle = 0 := by
  unfold unstall at h
  obtain ⟨⟨⟨v, w⟩, rest⟩, -, h⟩ := Option.map_eq_some_iff.mp h
  cases h
  rfl

end

/-! ### Parts of a run under a clock -/

section

variable {α β : Type}

/-- What came of a computation that had `time` left and so many steps, when the events `known` were reported before. It
could not reify types, where this is excused; or it was told that time is up, and said so; or it was never told, and
does the same with more steps and more time. -/
inductive Punctual (U : Prop) (Late Timely : α → Prop) (x : Nat → RunM α) (steps time : Nat) (known : List Event) :
    Except Fault (α × Shared) → Prop where
  | unreifiable (h : U) : Punctual U Late Timely x steps time known (.error .missing)
  | late {a : α} {new : List Event} (h : Late a) (told : ∃ e ∈ new, e.IsTimeout) :
      Punctual U Late Timely x steps time known (.ok (a, ⟨some 0, new ++ known⟩))
  | timely {a : α} {left : Nat} {new : List Event} (h : Timely a) (untold : ∀ e ∈ new, ¬ e.IsTimeout)
      (hleft : left ≤ time)
      (same : ∀ more ≥ steps, ∀ extra,
        (x more).run ⟨some (time + extra), known⟩ = .ok (a, ⟨some (left + extra), new ++ known⟩)) :
      Punctual U Late Timely x steps time known (.ok (a, ⟨some left, new ++ known⟩))

/-- The computation keeps to its clock, from so many steps and so much time. -/
def Timed (U : Prop) (Late Timely : α → Prop) (steps time : Nat) (x : Nat → RunM α) : Prop :=
  ∀ known, Punctual U Late Timely x steps time known ((x steps).run ⟨some time, known⟩)

/-- The computation ends when no time is left, and leaves none. -/
def Spent (U : Prop) (P : α → Prop) (x : RunM α) : Prop :=
  ∀ known, (x.run ⟨some 0, known⟩ = .error .missing ∧ U) ∨
    ∃ a new, x.run ⟨some 0, known⟩ = .ok (a, ⟨some 0, new ++ known⟩) ∧ P a

variable {U : Prop} {Late Timely : α → Prop} {steps time : Nat}

theorem Timed.spent {P : α → Prop} {x : Nat → RunM α} (h : Timed U Late Timely steps 0 x) (hlate : ∀ a, Late a → P a)
    (htimely : ∀ a, Timely a → P a) : Spent U P (x steps) := by
  intro known
  have hx := h known
  generalize (x steps).run ⟨some 0, known⟩ = r at hx ⊢
  cases hx with
  | unreifiable h => exact .inl ⟨rfl, h⟩
  | late h _ => exact .inr ⟨_, _, rfl, hlate _ h⟩
  | timely h _ hleft _ =>
    obtain rfl := Nat.le_zero.mp hleft
    exact .inr ⟨_, _, rfl, htimely _ h⟩

theorem Spent.bind {P : α → Prop} {Q : β → Prop} {x : RunM α} {f : α → RunM β} (hx : Spent U P x)
    (hf : ∀ a, P a → Spent U Q (f a)) : Spent U Q (x >>= f) := by
  intro known
  rcases hx known with ⟨hrun, h⟩ | ⟨a, new, hrun, ha⟩
  · refine .inl ⟨?_, h⟩
    rw [StateT.run_bind, hrun]
    rfl
  · have hbind : (x >>= f).run ⟨some 0, known⟩ = (f a).run ⟨some 0, new ++ known⟩ := by
      rw [StateT.run_bind, hrun]
      rfl
    rw [hbind]
    rcases hf a ha (new ++ known) with ⟨hrun', h⟩ | ⟨b, new', hrun', hb⟩
    · exact .inl ⟨hrun', h⟩
    · exact .inr ⟨b, new' ++ new, by rw [hrun', append_assoc], hb⟩

theorem Spent.pure {P : α → Prop} {a : α} (h : P a) : Spent U P (Pure.pure a) :=
  fun _ => .inr ⟨a, [], rfl, h⟩

namespace Timed

theorem pure {a : α} (h : Timely a) : Timed U Late Timely steps time fun _ => Pure.pure a := by
  intro known
  have hsame : ∀ more ≥ steps, ∀ extra, (Pure.pure a : RunM α).run ⟨some (time + extra), known⟩ =
      .ok (a, ⟨some (time + extra), [] ++ known⟩) := fun _ _ _ => rfl
  exact .timely h (by simp) le_rfl hsame

theorem report (h : ∀ e ∈ events, ¬ e.IsTimeout) : Timed U (fun _ => False) (fun _ => True) steps time fun _ =>
    report events := by
  intro known
  have hsame : ∀ more ≥ steps, ∀ extra, (Solver.report events).run ⟨some (time + extra), known⟩ =
      .ok ((), ⟨some (time + extra), events.reverse ++ known⟩) := fun _ _ _ => rfl
  exact .timely trivial (fun e he => h e (mem_reverse.mp he)) le_rfl hsame

theorem lift {P : α → Prop} {x : Except Fault α} (hok : ∀ a, x = .ok a → P a)
    (herror : ∀ e, x = .error e → e = .missing ∧ U) : Timed U (fun _ => False) P steps time fun _ => liftM x := by
  intro known
  cases hx : x with
  | error e =>
    obtain ⟨rfl, h⟩ := herror e hx
    exact .unreifiable h
  | ok a =>
    have hsame : ∀ more ≥ steps, ∀ extra, (liftM (.ok a : Except Fault α) : RunM α).run ⟨some (time + extra), known⟩ =
        .ok (a, ⟨some (time + extra), [] ++ known⟩) := fun _ _ _ => rfl
    exact .timely (hok a hx) (by simp) le_rfl hsame

theorem reported : Timed U (fun _ => False) (fun _ => True) steps time fun _ => reported := by
  intro known
  have hsame : ∀ more ≥ steps, ∀ extra, Solver.reported.run ⟨some (time + extra), known⟩ =
      .ok (known, ⟨some (time + extra), [] ++ known⟩) := fun _ _ _ => rfl
  exact .timely trivial (by simp) le_rfl hsame

theorem bind {Late' Timely' : β → Prop} {x : Nat → RunM α} {f : α → Nat → RunM β}
    (hx : Timed U Late Timely steps time x) (hlate : ∀ a, Late a → Spent U Late' (f a steps))
    (htimely : ∀ a, Timely a → ∀ left ≤ time, Timed U Late' Timely' steps left (f a)) :
    Timed U Late' Timely' steps time fun n => x n >>= fun a => f a n := by
  intro known
  have hknown := hx known
  rw [StateT.run_bind]
  generalize (x steps).run ⟨some time, known⟩ = r at hknown ⊢
  cases hknown with
  | unreifiable h => exact .unreifiable h
  | @late a new ha told =>
    change Punctual U Late' Timely' _ steps time known ((f a steps).run ⟨some 0, new ++ known⟩)
    rcases hlate a ha (new ++ known) with ⟨hrun, h⟩ | ⟨b, new', hrun, hb⟩
    · rw [hrun]
      exact .unreifiable h
    · rw [hrun, ← append_assoc]
      obtain ⟨e, he, htimeout⟩ := told
      exact .late hb ⟨e, mem_append_right _ he, htimeout⟩
  | @timely a left new ha untold hleft same =>
    change Punctual U Late' Timely' _ steps time known ((f a steps).run ⟨some left, new ++ known⟩)
    have hf := htimely a ha left hleft (new ++ known)
    generalize (f a steps).run ⟨some left, new ++ known⟩ = r at hf ⊢
    cases hf with
    | unreifiable h => exact .unreifiable h
    | late hb told =>
      rw [← append_assoc]
      obtain ⟨e, he, htimeout⟩ := told
      exact .late hb ⟨e, mem_append_left _ he, htimeout⟩
    | timely hb untold' hleft' same' =>
      rw [← append_assoc]
      refine .timely hb (forall_mem_append.mpr ⟨untold', untold⟩) (hleft'.trans hleft) fun more hmore extra => ?_
      rw [StateT.run_bind, same more hmore extra]
      exact (same' more hmore extra).trans (by rw [append_assoc])

theorem shift {x : Nat → RunM α} (h : Timed U Late Timely steps time fun n => x (n + 1)) :
    Timed U Late Timely (steps + 1) time x := by
  intro known
  have hx := h known
  generalize (x (steps + 1)).run ⟨some time, known⟩ = r at hx ⊢
  cases hx with
  | unreifiable h => exact .unreifiable h
  | late h told => exact .late h told
  | timely h untold hleft same =>
    refine .timely h untold hleft fun more hmore extra => ?_
    obtain ⟨n, rfl⟩ := Nat.exists_eq_add_of_le' (Nat.le_trans (Nat.le_add_left 1 steps) hmore)
    exact same n (by omega) extra

theorem mapM {xs : List α} {Late : β → Prop} {Timely : α → β → Prop} {f : α → Nat → RunM β}
    (hf : ∀ x ∈ xs, ∀ left ≤ time, Timed U Late (Timely x) steps left (f x)) :
    Timed U (fun _ => True) (fun ys => Forall₂ Timely xs ys) steps time fun n => xs.mapM fun x => f x n := by
  induction xs generalizing time with
  | nil => exact pure .nil
  | cons x xs ih =>
    obtain ⟨hx, hxs⟩ := forall_mem_cons.mp hf
    simp only [mapM_cons]
    refine bind (hx time le_rfl) (fun y _ => ?_) fun y hy left hleft => ?_
    · have hrest : Timed U (fun _ => True) _ steps 0 _ :=
        ih fun x hx left hleft => hxs x hx left (hleft.trans (Nat.zero_le time))
      exact (hrest.spent (fun _ _ => trivial) fun _ _ => trivial).bind fun _ _ => .pure trivial
    · have hrest : Timed U (fun _ => True) _ steps left _ :=
        ih fun x hx left' hleft' => hxs x hx left' (hleft'.trans hleft)
      exact bind hrest (fun _ _ => .pure trivial) fun ys hys _ _ => pure (.cons hy hys)

/-- Whatever comes out in time is what some run of the computation comes to. -/
theorem reached {x : Nat → RunM α} (h : Timed U Late Timely steps time x) :
    Timed U Late (fun a => Timely a ∧ ∃ n sh sh', (x n).run sh = .ok (a, sh')) steps time x := by
  intro known
  have hx := h known
  generalize hr : (x steps).run ⟨some time, known⟩ = r at hx ⊢
  cases hx with
  | unreifiable h => exact .unreifiable h
  | late h told => exact .late h told
  | timely h untold hleft same => exact .timely ⟨h, steps, _, _, hr⟩ untold hleft same

end Timed

end

/-! ### Runs -/

section

variable {g : TypeGraph} {s0 s : State} {Q : Set Ty} {steps time : Nat} {U : Prop} {w : Walks}

end

/-! ### Other orders -/

section

variable {α β : Type} {R : α → α → Prop} {w w' : Walks} {g : TypeGraph} {s : State}

/-- Both have the same time left, and both were told that time is up, or none was. -/
structure Shared.Level (sh sh' : Shared) : Prop where
  clock : sh.clock = sh'.clock
  told : (∃ e ∈ sh.events, e.IsTimeout) ↔ ∃ e ∈ sh'.events, e.IsTimeout

/-- From level starts both computations come to level ends, with related results. -/
def Abreast (R : α → α → Prop) (x y : RunM α) : Prop :=
  ∀ sh sh', sh.Level sh' → ∀ a sh1 b sh1', x.run sh = .ok (a, sh1) → y.run sh' = .ok (b, sh1') → R a b ∧ sh1.Level sh1'

namespace Abreast

theorem pure {a b : α} (h : R a b) : Abreast R (Pure.pure a) (Pure.pure b) := by
  intro sh sh' hlevel a' sh1 b' sh1' ha hb
  cases ha
  cases hb
  exact ⟨h, hlevel⟩

theorem throw (fault : Fault) : Abreast R (throw fault) (throw fault) := fun _ _ _ _ _ _ _ h => by cases h

theorem bind {S : β → β → Prop} {x y : RunM α} {f f' : α → RunM β} (hx : Abreast R x y)
    (hf : ∀ a b, R a b → Abreast S (f a) (f' b)) : Abreast S (x >>= f) (y >>= f') := by
  intro sh sh' hlevel c sh2 d sh2' hc hd
  obtain ⟨a, sh1, ha, hc⟩ := run_bind_eq_ok.mp hc
  obtain ⟨b, sh1', hb, hd⟩ := run_bind_eq_ok.mp hd
  obtain ⟨hab, hlevel1⟩ := hx sh sh' hlevel a sh1 b sh1' ha hb
  exact hf a b hab sh1 sh1' hlevel1 c sh2 d sh2' hc hd

theorem lift (x : Except Fault α) : Abreast Eq (liftM x : RunM α) (liftM x) := by
  intro sh sh' hlevel a sh1 b sh1' ha hb
  obtain ⟨a', hx, heq⟩ := run_lift_eq_ok.mp ha
  obtain ⟨b', hx', heq'⟩ := run_lift_eq_ok.mp hb
  cases heq
  cases heq'
  exact ⟨Except.ok.inj (hx.symm.trans hx'), hlevel⟩

theorem report (events : List Event) : Abreast Eq (report events) (report events) := by
  intro sh sh' hlevel a sh1 b sh1' ha hb
  cases ha
  cases hb
  refine ⟨rfl, hlevel.clock, ?_⟩
  simp only [mem_append, or_and_right, exists_or, hlevel.told]

theorem expired : Abreast Eq expired expired := by
  rintro ⟨clock, known⟩ ⟨clock', known'⟩ ⟨rfl, htold⟩ a sh1 b sh1' ha hb
  rcases clock with _ | _ | n <;> cases ha <;> cases hb <;> exact ⟨rfl, rfl, htold⟩

theorem mapM {xs : List α} {f f' : α → RunM β} {S : β → β → Prop} (h : ∀ x, Abreast S (f x) (f' x)) :
    Abreast (fun _ _ => True) (xs.mapM f) (xs.mapM f') := by
  induction xs with
  | nil => exact pure trivial
  | cons x xs ih =>
    rw [mapM_cons, mapM_cons]
    exact bind (h x) fun _ _ _ => bind ih fun _ _ _ => pure trivial

theorem fail (g : TypeGraph) (s : State) (c : Constraint) (kind : FailureKind) :
    Abreast (fun _ _ => True) (fail g s c kind) (fail g s c kind) :=
  bind (report _) fun _ _ _ => bind (lift _) fun _ _ _ => pure trivial

/-- Whatever comes of the comparison of solutions, it takes no time. -/
theorem combineWith {outcomes outcomes' : List Outcome} :
    Abreast (fun _ _ => True) (combineWith w g s c outcomes) (combineWith w' g s c outcomes') := by
  have quiet : ∀ {w outcomes sh o sh1}, (Solver.combineWith w g s c outcomes).run sh = .ok (o, sh1) → sh1.Level sh := by
    intro w outcomes sh o sh1 h
    obtain ⟨new, hnew, huntold⟩ := Emits.combineWith (P := fun e => ¬ e.IsTimeout) (by simp)
      (fun _ _ _ => id) sh o sh1 h
    refine ⟨Keeps.combineWith (report_patient _) (fun _ _ => report_patient _) sh o sh1 h rfl, ?_⟩
    rw [hnew]
    simp only [mem_append, or_and_right, exists_or]
    exact or_iff_right fun ⟨e, he, htimeout⟩ => huntold e he htimeout
  intro sh sh' hlevel a sh1 b sh1' ha hb
  refine ⟨trivial, ?_, ?_⟩
  · rw [(quiet ha).clock, hlevel.clock, (quiet hb).clock]
  · rw [(quiet ha).told, hlevel.told, (quiet hb).told]

end Abreast

end

end TypeInference.Solver
