import TypeInference.Proofs.Bindings

/-! # Statements in another order

If every statement can be followed on its own (`Sim`), then so can all of them, in any order (`mapM_rearranged`): each
part of the second run is paired with the part of the first run for the same statement, and parts for different
statements make different things. -/

namespace TypeInference

open AnalysisM
open List

variable {α α' β β' : Type} {a : Nat} {k : Numbered}

/-! ### Parts of a run -/

/-- One part of a run: what was done, with which result, and the states before and after. -/
structure Leg (α β : Type) where
  job : α
  result : β
  before : Context
  after : Context

namespace Leg

variable (l : Leg α β)

/-- The number was given out in this part of the run. -/
def Made (k : Numbered) (a : Nat) : Prop := l.before.next k ≤ a ∧ a < l.after.next k

/-- The constraints that were recorded in this part of the run. -/
def recorded : List Constraint := l.after.constraints.drop l.before.constraints.length

/-- The parts of the run make different things. -/
def Apart (l l' : Leg α β) : Prop := ∀ {k : Numbered} {a : Nat}, l.Made k a → ¬ l'.Made k a

end Leg

/-- The parts of a run, one after the other. -/
inductive Legs (f : α → AnalysisM β) : Context → List (Leg α β) → Context → Prop where
  | nil (c : Context) : Legs f c [] c
  | cons {c c1 c2 : Context} {x : α} {a : β} {ls : List (Leg α β)} (hrun : (f x).run c = .ok (a, c1))
      (h : Legs f c1 ls c2) : Legs f c (⟨x, a, c, c1⟩ :: ls) c2

section

variable {f : α → AnalysisM β} {c c1 : Context} {ls : List (Leg α β)}

theorem exists_legs {xs : List α} {as : List β} (h : (xs.mapM f).run c = .ok (as, c1)) :
    ∃ ls : List (Leg α β), Legs f c ls c1 ∧ ls.map Leg.job = xs ∧ ls.map Leg.result = as := by
  induction xs generalizing c as with
  | nil =>
    cases h
    exact ⟨[], .nil _, rfl, rfl⟩
  | cons x xs ih =>
    rw [mapM_cons] at h
    obtain ⟨a, c2, ha, h⟩ := run_bind_eq_ok.mp h
    obtain ⟨as', c3, has, h⟩ := run_bind_eq_ok.mp h
    cases h
    obtain ⟨ls, hls, rfl, rfl⟩ := ih has
    exact ⟨⟨x, a, c, c2⟩ :: ls, .cons ha hls, rfl, rfl⟩

/-- A part of a run in its place. -/
structure Leg.Within (f : α → AnalysisM β) (c c1 : Context) (l : Leg α β) : Prop where
  run : (f l.job).run l.before = .ok (l.result, l.after)
  before : Onward c l.before
  after : Onward l.after c1

theorem Legs.onward (h : Legs f c ls c1) (hf : ∀ l ∈ ls, Forward (f l.job)) : Onward c c1 := by
  induction h with
  | nil c => exact .refl c
  | cons hrun _ ih =>
    obtain ⟨hx, hls⟩ := forall_mem_cons.mp hf
    exact (hx.related hrun).trans (ih hls)

theorem Legs.within (h : Legs f c ls c1) (hf : ∀ l ∈ ls, Forward (f l.job)) : ∀ l ∈ ls, l.Within f c c1 := by
  induction h with
  | nil c => simp
  | cons hrun h ih =>
    obtain ⟨hx, hls⟩ := forall_mem_cons.mp hf
    refine forall_mem_cons.mpr ⟨⟨hrun, .refl _, h.onward hls⟩, fun l hl => ?_⟩
    obtain ⟨hrun', hbefore, hafter⟩ := ih hls l hl
    exact ⟨hrun', (hx.related hrun).trans hbefore, hafter⟩

theorem Legs.apart (h : Legs f c ls c1) (hf : ∀ l ∈ ls, Forward (f l.job)) : ls.Pairwise Leg.Apart := by
  induction h with
  | nil c => exact .nil
  | cons hrun h ih =>
    obtain ⟨hx, hls⟩ := forall_mem_cons.mp hf
    refine pairwise_cons.mpr ⟨fun l hl {k a} hmade hmade' => ?_, ih hls⟩
    have hle := (h.within hls l hl).before.next k
    exact absurd (Nat.lt_of_lt_of_le hmade.2 hle) (Nat.not_lt.mpr hmade'.1)

theorem Legs.exists_made (h : Legs f c ls c1) (ha : c.next k ≤ a) (ha1 : a < c1.next k) : ∃ l ∈ ls, l.Made k a := by
  induction h with
  | nil c => exact absurd ha1 (Nat.not_lt.mpr ha)
  | @cons c c1 c2 x r ls hrun h ih =>
    rcases Nat.lt_or_ge a (c1.next k) with hlt | hge
    · exact ⟨_, mem_cons_self, ha, hlt⟩
    · obtain ⟨l, hl, hmade⟩ := ih hge ha1
      exact ⟨l, mem_cons_of_mem _ hl, hmade⟩

theorem Legs.constraints (h : Legs f c ls c1)
    (hls : ∀ l ∈ ls, l.after.constraints = l.before.constraints ++ l.recorded) :
    c1.constraints = c.constraints ++ ls.flatMap Leg.recorded := by
  induction h with
  | nil c => simp
  | cons hrun h ih =>
    obtain ⟨hx, hls⟩ := forall_mem_cons.mp hls
    rw [ih hls, hx, flatMap_cons, append_assoc]

end

theorem Leg.Apart.symm {l l' : Leg α β} (h : l.Apart l') : l'.Apart l := fun hmade hmade' => h hmade' hmade

/-! ### Gathering -/

/-- The parts `done` of the first run were followed, from the pairing `ρ0`; the second run has come to `c'`. -/
structure Gathered (ρ0 : Pairing) (c1 c0' : Context) (done : List (Leg α β)) (ρ : Pairing) (c' : Context) : Prop where
  subset : ρ0 ⊆ ρ
  linked : Linked ρ c1 c'
  onward : Onward c0' c'
  origin : ∀ {k : Numbered} {a b : Nat}, (k, a, b) ∈ ρ → (k, a, b) ∈ ρ0 ∨ c0'.next k ≤ b ∧ ∃ l ∈ done, l.Made k a
  left : ∀ {l : Leg α β} {k : Numbered} {a : Nat}, l ∈ done → l.Made k a → ∃ b, (k, a, b) ∈ ρ
  right : ∀ {k : Numbered} {b : Nat}, c0'.next k ≤ b → b < c'.next k → ∃ a, (k, a, b) ∈ ρ
  prefixes : ∀ l ∈ done, l.after.constraints = l.before.constraints ++ l.recorded
  constraints : ∃ new', c'.constraints = c0'.constraints ++ new' ∧
    List.Forall₂ (Constraint.Paired ρ) (done.flatMap Leg.recorded) new'

section

variable {ρ0 ρ ρ1 : Pairing} {c0 c1 c0' c' c1' : Context} {done : List (Leg α β)} {l : Leg α β}

theorem gathered_nil (hlinked : Linked ρ0 c1 c0') : Gathered ρ0 c1 c0' ([] : List (Leg α β)) ρ0 c0' where
  subset := subset_rfl
  linked := hlinked
  onward := .refl _
  origin h := .inl h
  left h := absurd h not_mem_nil
  right h h' := absurd h' (Nat.not_lt.mpr h)
  prefixes := by simp
  constraints := ⟨[], by simp, .nil⟩

theorem Advances.made (hadvances : Advances ρ0 l.before c' ρ1 l.after c1') (hlinked : Linked ρ1 l.after c1') {b : Nat}
    (h : (k, a, b) ∈ ρ1) : (k, a, b) ∈ ρ0 ∨ c'.next k ≤ b ∧ l.Made k a :=
  (hadvances.fresh h).imp_right fun hnew => ⟨hnew.2, hnew.1, (hlinked.bound h).1⟩

theorem Gathered.step (h : Gathered ρ0 c1 c0' done ρ c') (hafter : Onward l.after c1) (hapart : ∀ l' ∈ done, l'.Apart l)
    (hadvances : Advances ρ0 l.before c' ρ1 l.after c1') (hlinked : Linked ρ1 l.after c1') (honward : Onward c' c1') :
    Gathered ρ0 c1 c0' (done ++ [l]) (ρ ∪ ρ1) c1' := by
  have hold := h.linked.onward (.refl c1) honward
  have hnew := hlinked.onward hafter (.refl c1')
  have hboth {k : Numbered} {a b x y : Nat} (hab : (k, a, b) ∈ ρ) (hxy : (k, x, y) ∈ ρ1) : a = x ↔ b = y := by
    rcases hadvances.made hlinked hxy with hxy | ⟨hy, hmade⟩
    · exact h.linked.bijective hab (h.subset hxy)
    · rcases h.origin hab with hab | ⟨-, l', hl', hmade'⟩
      · exact hlinked.bijective (hadvances.subset hab) ‹_›
      · refine iff_of_false ?_ ?_
        · rintro rfl
          exact hapart l' hl' hmade' hmade
        · rintro rfl
          exact absurd (h.linked.bound hab).2 (Nat.not_lt.mpr hy)
  obtain ⟨new', hnew', hpaired⟩ := h.constraints
  obtain ⟨more, more', hmore, hmore', hpaired'⟩ := hadvances.constraints
  have hrecorded : l.recorded = more := by rw [Leg.recorded, hmore, drop_left]
  constructor
  case subset => exact h.subset.trans Set.subset_union_left
  case linked =>
    refine ⟨?_, ?_, ?_⟩
    · rintro k a b x y (hab | hab) (hxy | hxy)
      · exact h.linked.bijective hab hxy
      · exact hboth hab hxy
      · exact eq_comm.trans ((hboth hxy hab).trans eq_comm)
      · exact hlinked.bijective hab hxy
    · rintro k a b (hab | hab)
      · exact hold.bound hab
      · exact hnew.bound hab
    · rintro k a b (hab | hab)
      · exact (hold.alike hab).mono Set.subset_union_left (.refl _) (.refl _)
      · exact (hnew.alike hab).mono Set.subset_union_right (.refl _) (.refl _)
  case onward => exact h.onward.trans honward
  case origin =>
    rintro k a b (hab | hab)
    · refine (h.origin hab).imp_right fun ⟨hb, l', hl', hmade⟩ => ⟨hb, l', mem_append_left _ hl', hmade⟩
    · refine (hadvances.made hlinked hab).imp_right fun ⟨hb, hmade⟩ =>
        ⟨Nat.le_trans (h.onward.next k) hb, l, by simp, hmade⟩
  case left =>
    intro l' k a hl' hmade
    rcases mem_append.mp hl' with hl' | hl'
    · obtain ⟨b, hab⟩ := h.left hl' hmade
      exact ⟨b, .inl hab⟩
    · obtain rfl := mem_singleton.mp hl'
      obtain ⟨b, hab⟩ := hadvances.left hmade.1 hmade.2
      exact ⟨b, .inr hab⟩
  case right =>
    intro k b hb hb'
    rcases Nat.lt_or_ge b (c'.next k) with hlt | hge
    · obtain ⟨a, hab⟩ := h.right hb hlt
      exact ⟨a, .inl hab⟩
    · obtain ⟨a, hab⟩ := hadvances.right hge hb'
      exact ⟨a, .inr hab⟩
  case prefixes =>
    refine forall_mem_append.mpr ⟨h.prefixes, forall_mem_singleton.mpr ?_⟩
    rw [hrecorded, hmore]
  case constraints =>
    refine ⟨new' ++ more', by rw [hmore', hnew', append_assoc], ?_⟩
    rw [flatMap_append, flatMap_singleton, hrecorded]
    exact rel_append (hpaired.imp fun _ _ hd => hd.mono Set.subset_union_left)
      (hpaired'.imp fun _ _ hd => hd.mono Set.subset_union_right)

end

/-! ### Stages -/

/-- The lists have related elements, in some order. -/
def Aligned (Q : α → α' → Prop) (xs : List α) (ys : List α') : Prop := ∃ zs, xs.Perm zs ∧ List.Forall₂ Q zs ys

/-- A stage of an analysis went through in two orders: everything new is paired, and the new constraints are the same in
some order. -/
structure Rearranged (ρ0 : Pairing) (c0 c0' : Context) (ρ : Pairing) (c1 c1' : Context) : Prop where
  subset : ρ0 ⊆ ρ
  linked : Linked ρ c1 c1'
  left : ∀ {k : Numbered} {a : Nat}, c0.next k ≤ a → a < c1.next k → ∃ b, (k, a, b) ∈ ρ
  right : ∀ {k : Numbered} {b : Nat}, c0'.next k ≤ b → b < c1'.next k → ∃ a, (k, a, b) ∈ ρ
  constraints : ∃ new new', c1.constraints = c0.constraints ++ new ∧ c1'.constraints = c0'.constraints ++ new' ∧
    Aligned (Constraint.Paired ρ) new new'

/-- A part of the first run is followed, after other parts were. -/
def Stage (ρ0 : Pairing) (c0 c1 c0' : Context) (K : Context → Prop) (Q : α → α' → Prop)
    (R : Pairing → α → β → β' → Prop) (f : α → AnalysisM β) (g : α' → AnalysisM β') : Prop :=
  ∀ ⦃l : Leg α β⦄ ⦃done : List (Leg α β)⦄ ⦃ρ : Pairing⦄ ⦃c' : Context⦄ ⦃y : α'⦄, l.Within f c0 c1 →
    (∀ l' ∈ done, l'.Apart l) → Gathered ρ0 c1 c0' done ρ c' → K c' → Q l.job y →
    ∃ ρ1 b c1', (g y).run c' = .ok (b, c1') ∧
      Advances ρ0 l.before c' ρ1 l.after c1' ∧ Linked ρ1 l.after c1' ∧ Onward c' c1' ∧ K c1' ∧ R ρ1 l.job l.result b

section

variable {f : α → AnalysisM β} {g : α' → AnalysisM β'} {ρ0 : Pairing} {c0 c1 c0' : Context} {K : Context → Prop}
  {Q : α → α' → Prop} {R : Pairing → α → β → β' → Prop}

theorem Stage.gathered (hstage : Stage ρ0 c0 c1 c0' K Q R f g) (hmono : ∀ {ρ ρ1 x a b}, ρ ⊆ ρ1 → R ρ x a b → R ρ1 x a b)
    {ls : List (Leg α β)} {ys : List α'} (hys : Forall₂ (fun l y => Q l.job y) ls ys) :
    ∀ {done : List (Leg α β)} {ρ : Pairing} {c' : Context}, (∀ l ∈ ls, l.Within f c0 c1) →
    (done ++ ls).Pairwise Leg.Apart →
      Gathered ρ0 c1 c0' done ρ c' → K c' → ∃ ρ1 bs c1', (ys.mapM g).run c' = .ok (bs, c1') ∧ ρ ⊆ ρ1 ∧
        Gathered ρ0 c1 c0' (done ++ ls) ρ1 c1' ∧ K c1' ∧ Forall₂ (fun l b => R ρ1 l.job l.result b) ls bs := by
  induction hys with
  | nil =>
    intro done ρ c' _ _ hgathered hK
    exact ⟨ρ, [], c', rfl, subset_rfl, by simpa using hgathered, hK, .nil⟩
  | @cons l y ls ys hy hys ih =>
    intro done ρ c' hwithin hpairwise hgathered hK
    obtain ⟨hl, hls⟩ := forall_mem_cons.mp hwithin
    have hapart : ∀ l' ∈ done, l'.Apart l := fun l' hl' =>
      (pairwise_append.mp hpairwise).2.2 l' hl' l mem_cons_self
    obtain ⟨ρ1, b, c1', hrun, hadvances, hlinked, honward, hK1, hR⟩ := hstage hl hapart hgathered hK hy
    obtain ⟨ρ2, bs, c2', hruns, hsub, hgathered2, hK2, hRs⟩ := ih hls (by simpa using hpairwise)
      (hgathered.step hl.after hapart hadvances hlinked honward) hK1
    refine ⟨ρ2, b :: bs, c2', ?_, Set.subset_union_left.trans hsub, by simpa using hgathered2, hK2,
      .cons (hmono (Set.subset_union_right.trans hsub) hR) hRs⟩
    rw [mapM_cons]
    exact run_bind_eq_ok.mpr ⟨b, c1', hrun, run_bind_eq_ok.mpr ⟨bs, c2', hruns, rfl⟩⟩

theorem forall₂_zip_right {γ : Type} {P : γ → α → Prop} {P' : γ → β → Prop} {zs : List γ} {xs : List α} {ys : List β}
    (h : Forall₂ P zs xs) (h' : Forall₂ P' zs ys) : Forall₂ (fun z p => P z p.1 ∧ P' z p.2) zs (xs.zip ys) := by
  induction h generalizing ys with
  | nil => exact .nil
  | cons hz _ ih =>
    obtain _ | ⟨hz', h'⟩ := h'
    exact .cons ⟨hz, hz'⟩ (ih h')

theorem mapM_rearranged (hlinked : Linked ρ0 c0 c0') {xs : List α} {ys : List α'} {as : List β}
    (hrun : (xs.mapM f).run c0 = .ok (as, c1)) (hforward : ∀ x ∈ xs, Forward (f x))
    (hstage : Stage ρ0 c0 c1 c0' K Q R f g) (hmono : ∀ {ρ ρ1 x a b}, ρ ⊆ ρ1 → R ρ x a b → R ρ1 x a b)
    (hxy : Aligned Q xs ys) (hK : K c0') : ∃ ρ bs c1', (ys.mapM g).run c0' = .ok (bs, c1') ∧
    Rearranged ρ0 c0 c0' ρ c1 c1' ∧ K c1' ∧ Aligned (fun p q => Q p.1 q.1 ∧ R ρ p.1 p.2 q.2) (xs.zip as) (ys.zip bs) ∧
      Aligned (fun a b => ∃ x, R ρ x a b) as bs := by
  obtain ⟨ls, hls, rfl, rfl⟩ := exists_legs hrun
  have hforward : ∀ l ∈ ls, Forward (f l.job) := fun l hl => hforward _ (mem_map_of_mem hl)
  -- the parts of the first run, in the order of the second
  obtain ⟨zs, hperm, hzs⟩ := hxy
  obtain ⟨ls', rfl, hperm'⟩ : Relation.Comp (· = List.map Leg.job ·) List.Perm zs ls := by
    rw [eq_map_comp_perm]
    exact hperm.symm
  have hys : Forall₂ (fun l y => Q l.job y) ls' ys := forall₂_map_left_iff.mp hzs
  have honward := hls.onward hforward
  have hapart : ([] ++ ls').Pairwise Leg.Apart := (hperm'.pairwise_iff fun h => h.symm).mpr (hls.apart hforward)
  obtain ⟨ρ, bs, c1', hruns, -, hgathered, hK1, hR⟩ := hstage.gathered hmono hys
    (fun l hl => hls.within hforward l (hperm'.mem_iff.mp hl)) hapart
    (gathered_nil (hlinked.onward honward (.refl _))) hK
  rw [nil_append] at hgathered
  obtain ⟨new', hnew', hpaired⟩ := hgathered.constraints
  refine ⟨ρ, bs, c1', hruns, ⟨hgathered.subset, hgathered.linked, fun ha ha1 => ?_, hgathered.right, _, new',
    hls.constraints fun l hl => hgathered.prefixes l (hperm'.mem_iff.mpr hl), hnew', _, hperm'.symm.flatMap_right _,
    hpaired⟩, hK1, ⟨ls'.map (fun l => (l.job, l.result)), ?_, ?_⟩, ls'.map Leg.result, hperm'.symm.map _,
    forall₂_map_left_iff.mpr (hR.imp fun l _ h => ⟨l.job, h⟩)⟩
  · obtain ⟨l, hl, hmade⟩ := hls.exists_made ha ha1
    exact hgathered.left (hperm'.mem_iff.mpr hl) hmade
  · rw [zip_map']
    exact hperm'.symm.map _
  · exact forall₂_map_left_iff.mpr (forall₂_zip_right hys hR)

end

/-! ### Stages that declare names -/

/-- There is no problem yet, and the table is sound. -/
def Context.Fit (c : Context) : Prop := c.diagnostics.entries = [] ∧ c.table.Sound

section

variable {ρ0 ρ : Pairing} {c0 c1 c0' c' : Context} {f : α → AnalysisM β} {l : Leg α β} {done : List (Leg α β)}

/-- The scene of a part of the first run: the other parts that were followed have declared other names, or all are
overloads. -/
def Gathered.scene (h : Gathered ρ0 c1 c0' done ρ c') (hl : l.Within f c0 c1) (hapart : ∀ l' ∈ done, l'.Apart l)
    (hc1 : c1.Fit) : Scene where
  final := l.after
  clean := hl.after.problems hc1.1
  base := ρ0
  start := l.before.next .symbol
  foreign := {s' | ∃ a b, (.symbol, a, b) ∈ ρ ∧ (.symbol, a, b) ∉ ρ0 ∧ c'.table.symbols[b]? = some s'}
  apart := by
    rintro a s s' hs hstart ⟨a', b, hab, hnew, hs'⟩ hname hscope
    obtain ⟨t, t', ht, ht', hpaired⟩ := h.linked.alike hab
    obtain rfl : s' = t' := Option.some.inj (hs'.symm.trans ht')
    -- both are in one scope of the first run, under one name
    obtain ⟨l', hl', hmade⟩ := ((h.origin hab).resolve_left hnew).2
    have hne : a ≠ a' := by
      rintro rfl
      exact hapart l' hl' hmade ⟨hstart, (Array.getElem?_eq_some_iff.mp hs).1⟩
    have hsame : s.scope = t.scope := by
      obtain ⟨i, j, hi, hj, hij⟩ := hscope
      obtain ⟨i', j', hi', hj', hij'⟩ := hpaired.scope
      obtain rfl : j = j' := Int.ofNat.inj (hj.symm.trans hj')
      rw [hi, hi', (h.linked.bijective (h.subset hij) hij').mpr rfl]
    obtain ⟨hover, hover'⟩ := hc1.2.overloads (hl.after.symbols hs) ht hne hsame (hname.symm.trans hpaired.name.symm)
    exact ⟨hover, hpaired.overloadable ▸ hover'⟩

theorem Gathered.scene_knows (h : Gathered ρ0 c1 c0' done ρ c') (hl : l.Within f c0 c1)
    (hapart : ∀ l' ∈ done, l'.Apart l) (hc1 : c1.Fit) (hc0 : c0.table.Sound) (hc' : c'.Fit)
    (hright : ∀ {b}, b < c0'.next .symbol → ∃ a, (.symbol, a, b) ∈ ρ0) :
    (h.scene hl hapart hc1).Knows ρ0 l.before c' := by
  refine ⟨hc'.1, hl.before.sound hc0, hc'.2, Nat.le_refl _, fun {b s'} hb => ?_, ?_⟩
  · have hpaired : ∃ a, (.symbol, a, b) ∈ ρ := by
      rcases Nat.lt_or_ge b (c0'.next .symbol) with hlt | hge
      · obtain ⟨a, hab⟩ := hright hlt
        exact ⟨a, h.subset hab⟩
      · exact h.right hge (Array.getElem?_eq_some_iff.mp hb).1
    obtain ⟨a, hab⟩ := hpaired
    by_cases hold : (.symbol, a, b) ∈ ρ0
    · exact .inr ⟨a, hold⟩
    · exact .inl ⟨a, b, hab, hold, hb⟩
  · rintro s' ⟨a, b, hab, -, hs'⟩
    obtain ⟨t, t', -, ht', hpaired⟩ := h.linked.alike hab
    obtain rfl : s' = t' := Option.some.inj (hs'.symm.trans ht')
    obtain ⟨i, j, -, hj, hij⟩ := hpaired.scope
    exact ⟨j, hj, (h.linked.bound hij).2, fun _ => id⟩

theorem stage_of_sim {g : α' → AnalysisM β'} {Q : α → α' → Prop} {R : Pairing → α → β → β' → Prop}
    (hlinked : Linked ρ0 c0 c0') (hright : ∀ {b}, b < c0'.next .symbol → ∃ a, (.symbol, a, b) ∈ ρ0)
    (hc0 : c0.table.Sound) (hc1 : c1.Fit) (hforward : ∀ {x y}, Q x y → Forward (g y))
    (hsim : ∀ {S : Scene} {x y}, Q x y → Sim S.world ρ0 (fun ρ => R ρ x) (f x) (g y)) :
    Stage ρ0 c0 c1 c0' Context.Fit Q R f g := by
  intro l done ρ c' y hl hapart hgathered hc' hy
  have hrun := hl.run
  obtain ⟨ρ1, b, c1', hfollows⟩ := hsim (S := hgathered.scene hl hapart hc1) hy
    (hlinked.onward hl.before hgathered.onward) (hgathered.scene_knows hl hapart hc1 hc0 hc' hright) hrun (.refl _)
  exact ⟨ρ1, b, c1', hfollows.run, hfollows.advances, hfollows.linked, (hforward hy).related hfollows.run,
    ⟨hfollows.knows.clean, hfollows.knows.sound'⟩, hfollows.result⟩

end

end TypeInference
