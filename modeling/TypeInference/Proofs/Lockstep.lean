import TypeInference.Proofs.Contexts
import TypeInference.Proofs.Pairing
import TypeInference.Proofs.Tables

/-! # Two analyses in lockstep

The same part of an analysis is run from two states that know the same things under different numbers (`Linked`). Each
thing that one run makes has a partner that the other makes at the same time, and the pairing grows by these
(`Advances`). `Sim`: if the first run comes to a result, then so does the second, to the same one up to the pairing.
What a state has beyond the pairing is left alone. -/

namespace TypeInference

open List

variable {x y : Composite}

/-! ### States -/

/-- The first number that is not in use. -/
def Context.next (c : Context) : Numbered → Nat
  | .var => c.vars
  | .node => c.graph.size
  | .scope => c.table.scopes.size
  | .symbol => c.table.symbols.size

/-- Nothing is lost from `c` to `c1`: what has a number keeps it, problems stay, and a sound table stays sound. -/
structure Onward (c c1 : Context) : Prop where
  next : ∀ k, c.next k ≤ c1.next k
  graph : c.graph.Extends c1.graph
  symbols : ∀ {a : Nat} {s : Symbol}, c.table.symbols[a]? = some s → c1.table.symbols[a]? = some s
  parents : ∀ {a : Nat} {s : Scope}, c.table.scopes[a]? = some s → ∃ s1, c1.table.scopes[a]? = some s1 ∧
    s1.parent = s.parent
  problems : c1.diagnostics.entries = [] → c.diagnostics.entries = []
  sound : c.table.Sound → c1.table.Sound

namespace Onward

variable {c c1 c2 : Context}

theorem refl (c : Context) : Onward c c :=
  ⟨fun _ => Nat.le_refl _, TypeGraph.extends_refl _, id, fun h => ⟨_, h, rfl⟩, id, id⟩

theorem trans (h : Onward c c1) (h' : Onward c1 c2) : Onward c c2 where
  next k := Nat.le_trans (h.next k) (h'.next k)
  graph i x hx := h'.graph i x (h.graph i x hx)
  symbols ha := h'.symbols (h.symbols ha)
  parents ha := by
    obtain ⟨s1, hs1, hparent⟩ := h.parents ha
    obtain ⟨s2, hs2, hparent'⟩ := h'.parents hs1
    exact ⟨s2, hs2, hparent'.trans hparent⟩
  problems hclean := h.problems (h'.problems hclean)
  sound ht := h'.sound (h.sound ht)

end Onward

/-- Numbers that are paired. -/
def Pairing.Ids (ρ : Pairing) (k : Numbered) (i j : Int) : Prop := ∃ a b : Nat, i = a ∧ j = b ∧ (k, a, b) ∈ ρ

theorem Pairing.Ids.mono {ρ ρ' : Pairing} {k : Numbered} {i j : Int} (h : ρ.Ids k i j) (hρ : ρ ⊆ ρ') :
    ρ'.Ids k i j := by
  obtain ⟨a, b, hi, hj, hab⟩ := h
  exact ⟨a, b, hi, hj, hρ hab⟩

/-- The symbols are the same up to numbers. -/
structure Symbol.Paired (ρ : Pairing) (s s' : Symbol) : Prop where
  name : s.name = s'.name
  type : s.type.Paired ρ s'.type
  overloadable : s.overloadable = s'.overloadable
  scope : ρ.Ids .scope s.scope s'.scope

/-- The scopes around two scopes: there are none, or they are paired. -/
def Scope.Nested (ρ : Pairing) (s s' : Scope) : Prop :=
  (s.parent = noScope ∧ s'.parent = noScope) ∨ ρ.Ids .scope s.parent s'.parent

/-- What the numbers stand for is the same up to numbers. Of a scope, only its place is compared. -/
def Context.Alike (ρ : Pairing) (c c' : Context) : Numbered → Nat → Nat → Prop
  | .var, _, _ => True
  | .node, i, j => ∃ x y, c.graph.get? i = some x ∧ c'.graph.get? j = some y ∧ x.Paired ρ y
  | .scope, i, j => ∃ s s', c.table.scopes[i]? = some s ∧ c'.table.scopes[j]? = some s' ∧ s.Nested ρ s'
  | .symbol, i, j => ∃ s s', c.table.symbols[i]? = some s ∧ c'.table.symbols[j]? = some s' ∧ s.Paired ρ s'

/-- The states know the same things, as far as these are paired. -/
structure Linked (ρ : Pairing) (c c' : Context) : Prop where
  bijective : ρ.Bijective
  bound : ∀ {k : Numbered} {a b : Nat}, (k, a, b) ∈ ρ → a < c.next k ∧ b < c'.next k
  alike : ∀ {k : Numbered} {a b : Nat}, (k, a, b) ∈ ρ → c.Alike ρ c' k a b

section

variable {ρ ρ1 ρ2 : Pairing} {c c' c1 c1' c2 c2' : Context} {k : Numbered} {a b : Nat}

theorem Symbol.Paired.mono {s s' : Symbol} (h : s.Paired ρ s') (hρ : ρ ⊆ ρ1) : s.Paired ρ1 s' :=
  ⟨h.name, h.type.mono hρ, h.overloadable, h.scope.mono hρ⟩

theorem Context.Alike.mono (h : c.Alike ρ c' k a b) (hρ : ρ ⊆ ρ1) (hc : Onward c c1) (hc' : Onward c' c1') :
    c1.Alike ρ1 c1' k a b := by
  cases k with
  | var => trivial
  | node =>
    obtain ⟨x, y, hx, hy, hxy⟩ := h
    exact ⟨x, y, hc.graph _ _ hx, hc'.graph _ _ hy, hxy.mono hρ⟩
  | scope =>
    obtain ⟨s, s', hs, hs', hnested⟩ := h
    obtain ⟨s1, hs1, hparent⟩ := hc.parents hs
    obtain ⟨s1', hs1', hparent'⟩ := hc'.parents hs'
    refine ⟨s1, s1', hs1, hs1', ?_⟩
    unfold Scope.Nested
    rw [hparent, hparent']
    exact hnested.imp_right fun h => h.mono hρ
  | symbol =>
    obtain ⟨s, s', hs, hs', hsame⟩ := h
    exact ⟨s, s', hc.symbols hs, hc'.symbols hs', hsame.mono hρ⟩

theorem Linked.graph (h : Linked ρ c c') : c.graph.Paired ρ c'.graph := fun _ _ hij => h.alike hij

theorem Linked.onward (h : Linked ρ c c') (hc : Onward c c1) (hc' : Onward c' c1') : Linked ρ c1 c1' where
  bijective := h.bijective
  bound hab := ⟨Nat.lt_of_lt_of_le (h.bound hab).1 (hc.next _), Nat.lt_of_lt_of_le (h.bound hab).2 (hc'.next _)⟩
  alike hab := (h.alike hab).mono subset_rfl hc hc'

theorem Pairing.Bijective.insert (h : ρ.Bijective) (ha : ∀ b', (k, a, b') ∉ ρ) (hb : ∀ a', (k, a', b) ∉ ρ) :
    Pairing.Bijective (insert (k, a, b) ρ) := by
  rintro k' x y x' y' (hxy | hxy) (hxy' | hxy')
  · cases hxy
    cases hxy'
    simp
  · cases hxy
    refine iff_of_false ?_ ?_
    · rintro rfl
      exact ha _ hxy'
    · rintro rfl
      exact hb _ hxy'
  · cases hxy'
    refine iff_of_false ?_ ?_
    · rintro rfl
      exact ha _ hxy
    · rintro rfl
      exact hb _ hxy
  · exact h hxy hxy'

theorem Linked.insert (h : Linked ρ c c') (hc : Onward c c1) (hc' : Onward c' c1') (hk : c.next k < c1.next k)
    (hk' : c'.next k < c1'.next k) (hnew : c1.Alike (insert (k, c.next k, c'.next k) ρ) c1' k (c.next k) (c'.next k)) :
    Linked (insert (k, c.next k, c'.next k) ρ) c1 c1' where
  bijective := h.bijective.insert (fun b' hab => absurd (h.bound hab).1 (Nat.lt_irrefl _))
    (fun a' hab => absurd (h.bound hab).2 (Nat.lt_irrefl _))
  bound := by
    rintro k' x y (hxy | hxy)
    · cases hxy
      exact ⟨hk, hk'⟩
    · exact (h.onward hc hc').bound hxy
  alike := by
    rintro k' x y (hxy | hxy)
    · cases hxy
      exact hnew
    · exact (h.alike hxy).mono (Set.subset_insert _ _) hc hc'

/-! ### Progress -/

/-- The constraints are the same up to numbers; the choices that an identifier leaves may come in another order. -/
inductive Constraint.Paired (ρ : Pairing) : Constraint → Constraint → Prop where
  | relate {rel : Relation} {t t' u u' : Ty} {location : Location} (ht : t.Paired ρ t') (hu : u.Paired ρ u') :
      Paired ρ (.relate rel t u location) (.relate rel t' u' location)
  | member {owner owner' type type' : Ty} {m : Member} {location : Location} (howner : owner.Paired ρ owner')
      (htype : type.Paired ρ type') : Paired ρ (.member owner m type location) (.member owner' m type' location)
  | choice {t t' : Ty} {us vs us' : List Ty} {location : Location} (ht : t.Paired ρ t') (hperm : us.Perm vs)
      (hus : List.Forall₂ (Ty.Paired ρ) vs us') :
      Paired ρ (.oneOf (us.map fun u => .equality t u location) location)
      (.oneOf (us'.map fun u => .equality t' u location) location)

theorem Constraint.Paired.mono {d d' : Constraint} (h : d.Paired ρ d') (hρ : ρ ⊆ ρ1) : d.Paired ρ1 d' := by
  cases h with
  | relate ht hu => exact .relate (ht.mono hρ) (hu.mono hρ)
  | member howner htype => exact .member (howner.mono hρ) (htype.mono hρ)
  | choice ht hperm hus => exact .choice (ht.mono hρ) hperm (hus.imp fun _ _ hu => hu.mono hρ)

/-- Two runs in lockstep: everything that is new is paired with something new, and the new constraints are the same. -/
structure Advances (ρ : Pairing) (c c' : Context) (ρ1 : Pairing) (c1 c1' : Context) : Prop where
  subset : ρ ⊆ ρ1
  next : ∀ k, c.next k ≤ c1.next k ∧ c'.next k ≤ c1'.next k
  fresh : ∀ {k : Numbered} {a b : Nat}, (k, a, b) ∈ ρ1 → (k, a, b) ∈ ρ ∨ (c.next k ≤ a ∧ c'.next k ≤ b)
  left : ∀ {k : Numbered} {a : Nat}, c.next k ≤ a → a < c1.next k → ∃ b, (k, a, b) ∈ ρ1
  right : ∀ {k : Numbered} {b : Nat}, c'.next k ≤ b → b < c1'.next k → ∃ a, (k, a, b) ∈ ρ1
  constraints : ∃ new new', c1.constraints = c.constraints ++ new ∧ c1'.constraints = c'.constraints ++ new' ∧
    List.Forall₂ (Constraint.Paired ρ1) new new'

theorem Advances.refl (ρ : Pairing) (c c' : Context) : Advances ρ c c' ρ c c' where
  subset := subset_rfl
  next k := ⟨Nat.le_refl _, Nat.le_refl _⟩
  fresh h := .inl h
  left h h' := absurd h' (Nat.not_lt.mpr h)
  right h h' := absurd h' (Nat.not_lt.mpr h)
  constraints := ⟨[], [], by simp⟩

theorem Advances.trans (h : Advances ρ c c' ρ1 c1 c1') (h' : Advances ρ1 c1 c1' ρ2 c2 c2') :
    Advances ρ c c' ρ2 c2 c2' where
  subset := h.subset.trans h'.subset
  next k := ⟨Nat.le_trans (h.next k).1 (h'.next k).1, Nat.le_trans (h.next k).2 (h'.next k).2⟩
  fresh {k a b} hab := by
    rcases h'.fresh hab with hab | ⟨ha, hb⟩
    · exact h.fresh hab
    · exact .inr ⟨Nat.le_trans (h.next k).1 ha, Nat.le_trans (h.next k).2 hb⟩
  left {k a} ha ha' := by
    rcases Nat.lt_or_ge a (c1.next k) with hlt | hge
    · obtain ⟨b, hab⟩ := h.left ha hlt
      exact ⟨b, h'.subset hab⟩
    · exact h'.left hge ha'
  right {k b} hb hb' := by
    rcases Nat.lt_or_ge b (c1'.next k) with hlt | hge
    · obtain ⟨a, hab⟩ := h.right hb hlt
      exact ⟨a, h'.subset hab⟩
    · exact h'.right hge hb'
  constraints := by
    obtain ⟨new, new', hnew, hnew', hpaired⟩ := h.constraints
    obtain ⟨more, more', hmore, hmore', hpaired'⟩ := h'.constraints
    refine ⟨new ++ more, new' ++ more', ?_, ?_, rel_append (hpaired.imp fun _ _ hd => hd.mono h'.subset) hpaired'⟩
    · rw [hmore, hnew, append_assoc]
    · rw [hmore', hnew', append_assoc]

theorem advances_insert (hnext : ∀ k', c1.next k' = if k' = k then c.next k + 1 else c.next k')
    (hnext' : ∀ k', c1'.next k' = if k' = k then c'.next k + 1 else c'.next k') (hcs : c1.constraints = c.constraints)
    (hcs' : c1'.constraints = c'.constraints) : Advances ρ c c' (insert (k, c.next k, c'.next k) ρ) c1 c1' where
  subset := Set.subset_insert _ _
  next k' := by
    rw [hnext, hnext']
    split
    · next h => exact h ▸ ⟨Nat.le_succ _, Nat.le_succ _⟩
    · exact ⟨Nat.le_refl _, Nat.le_refl _⟩
  fresh := by
    rintro k' x y (hxy | hxy)
    · cases hxy
      exact .inr ⟨Nat.le_refl _, Nat.le_refl _⟩
    · exact .inl hxy
  left {k' x} hx hx' := by
    rw [hnext] at hx'
    split at hx'
    · next h =>
      subst h
      obtain rfl : x = c.next k' := by omega
      exact ⟨_, Set.mem_insert _ _⟩
    · exact absurd hx' (Nat.not_lt.mpr hx)
  right {k' y} hy hy' := by
    rw [hnext'] at hy'
    split at hy'
    · next h =>
      subst h
      obtain rfl : y = c'.next k' := by omega
      exact ⟨_, Set.mem_insert _ _⟩
    · exact absurd hy' (Nat.not_lt.mpr hy)
  constraints := ⟨[], [], by simpa using hcs, by simpa using hcs', .nil⟩

end

/-! ### Simulation -/

/-- What else is known in the course of the two runs, and where the first run may end. What is known is about names and
problems. -/
structure World where
  Knows : Pairing → Context → Context → Prop
  Allows : Context → Prop
  stable : ∀ {ρ ρ1 : Pairing} {c c' c1 c1' : Context}, Knows ρ c c' → c1.table = c.table → c1'.table = c'.table →
    c1.diagnostics = c.diagnostics → c1'.diagnostics = c'.diagnostics →
    (∀ {k a b}, k = .scope ∨ k = .symbol → ((k, a, b) ∈ ρ1 ↔ (k, a, b) ∈ ρ)) → Knows ρ1 c1 c1'

variable {α β γ δ : Type} {W : World} {ρ : Pairing} {R : Pairing → α → β → Prop}

/-- The second run goes on as the first one did. -/
structure Follows (W : World) (ρ : Pairing) (c c' : Context) (R : Pairing → α → β → Prop) (y : AnalysisM β) (a : α)
    (c1 : Context) (ρ1 : Pairing) (b : β) (c1' : Context) : Prop where
  run : y.run c' = .ok (b, c1')
  advances : Advances ρ c c' ρ1 c1 c1'
  linked : Linked ρ1 c1 c1'
  knows : W.Knows ρ1 c1 c1'
  result : R ρ1 a b

/-- Whatever `x` does, `y` does from a state that knows the same. -/
def Sim (W : World) (ρ : Pairing) (R : Pairing → α → β → Prop) (x : AnalysisM α) (y : AnalysisM β) : Prop :=
  ∀ ⦃c c' c1 : Context⦄ ⦃a : α⦄, Linked ρ c c' → W.Knows ρ c c' → x.run c = .ok (a, c1) → W.Allows c1 →
    ∃ ρ1 b c1', Follows W ρ c c' R y a c1 ρ1 b c1'

/-- If the computation ends where the first run may end, it starts where the first run may end. -/
class World.Respects (W : World) (x : AnalysisM α) : Prop where
  allows : ∀ {c c1 : Context} {a : α}, x.run c = .ok (a, c1) → W.Allows c1 → W.Allows c

namespace Sim

variable {x : AnalysisM α} {y : AnalysisM β} {a : α} {b : β}

theorem pure (h : R ρ a b) : Sim W ρ R (Pure.pure a) (Pure.pure b) := by
  intro c c' c1 a' hlinked hknows hrun hallow
  cases hrun
  exact ⟨ρ, b, c', rfl, .refl _ _ _, hlinked, hknows, h⟩

theorem throw (e : Fault) : Sim W ρ R (throw e) y := fun _ _ _ _ _ _ hrun => by cases hrun

theorem bind {S : Pairing → γ → δ → Prop} {f : α → AnalysisM γ} {g : β → AnalysisM δ} (hx : Sim W ρ R x y)
    [hW : ∀ a, W.Respects (f a)] (hf : ∀ {ρ1 a b}, ρ ⊆ ρ1 → R ρ1 a b → Sim W ρ1 S (f a) (g b)) :
    Sim W ρ S (x >>= f) (y >>= g) := by
  intro c c' c2 r hlinked hknows hrun hallow
  obtain ⟨a, c1, hrun1, hrun2⟩ := run_bind_eq_ok.mp hrun
  obtain ⟨ρ1, b, c1', h1⟩ := hx hlinked hknows hrun1 ((hW a).allows hrun2 hallow)
  obtain ⟨ρ2, r', c2', h2⟩ := hf h1.advances.subset h1.result h1.linked h1.knows hrun2 hallow
  exact ⟨ρ2, r', c2', run_bind_eq_ok.mpr ⟨b, c1', h1.run, h2.run⟩, h1.advances.trans h2.advances, h2.linked,
    h2.knows, h2.result⟩

theorem lift {x : Except Fault α} {y : Except Fault β} (h : ∀ {a}, x = .ok a → ∃ b, y = .ok b ∧ R ρ a b) :
    Sim W ρ R (liftM x) (liftM y) := by
  intro c c' c1 a hlinked hknows hrun hallow
  obtain ⟨a', hx, heq⟩ := run_lift_eq_ok.mp hrun
  cases heq
  obtain ⟨b, hy, hR⟩ := h hx
  exact ⟨ρ, b, c', run_lift_eq_ok.mpr ⟨b, hy, rfl⟩, .refl _ _ _, hlinked, hknows, hR⟩

theorem get {f : Context → AnalysisM α} {g : Context → AnalysisM β}
    (h : ∀ {c c'}, Linked ρ c c' → W.Knows ρ c c' → Sim W ρ R (f c) (g c')) :
    Sim W ρ R (MonadStateOf.get >>= f) (MonadStateOf.get >>= g) := by
  intro c c' c1 a hlinked hknows hrun hallow
  obtain ⟨ρ1, b, c1', hfollows⟩ := h hlinked hknows hlinked hknows hrun hallow
  exact ⟨ρ1, b, c1', hfollows.run, hfollows.advances, hfollows.linked, hfollows.knows, hfollows.result⟩

end Sim

/-! ### New variables and types -/

theorem onward_vars (c : Context) (n : Nat) : Onward c { c with vars := c.vars + n } where
  next k := by cases k <;> simp [Context.next]
  graph := TypeGraph.extends_refl _
  symbols h := h
  parents h := ⟨_, h, rfl⟩
  problems h := h
  sound h := h

theorem onward_add (c : Context) (x : Composite) : Onward c { c with graph := (c.graph.add x).1 } where
  next k := by cases k <;> simp [Context.next, TypeGraph.add, TypeGraph.size]
  graph := TypeGraph.extends_add _ _
  symbols h := h
  parents h := ⟨_, h, rfl⟩
  problems h := h
  sound h := h

theorem fresh_sim : Sim W ρ Ty.Paired AnalysisM.fresh AnalysisM.fresh := by
  intro c c' c1 t hlinked hknows hrun hallow
  cases hrun
  refine ⟨insert (.var, c.vars, c'.vars) ρ, .var c'.vars, { c' with vars := c'.vars + 1 }, rfl, ?_, ?_, ?_,
    .var (Set.mem_insert _ _)⟩
  · exact advances_insert (k := .var) (by rintro (_ | _ | _ | _) <;> rfl) (by rintro (_ | _ | _ | _) <;> rfl) rfl rfl
  · exact hlinked.insert (k := .var) (onward_vars c 1) (onward_vars c' 1) (Nat.lt_succ_self _)
      (Nat.lt_succ_self _) trivial
  · refine W.stable hknows rfl rfl rfl rfl ?_
    rintro k a b (rfl | rfl) <;> simp

theorem add_follows {c c' : Context} (hxy : x.Paired ρ y) (hlinked : Linked ρ c c') (hknows : W.Knows ρ c c') :
    Follows W ρ c c' Ty.Paired (AnalysisM.newType y) (.node c.graph.size) { c with graph := (c.graph.add x).1 }
      (insert (.node, c.graph.size, c'.graph.size) ρ) (.node c'.graph.size)
      { c' with graph := (c'.graph.add y).1 } where
  run := rfl
  advances := by
    refine advances_insert (k := .node) ?_ ?_ rfl rfl
    · rintro (_ | _ | _ | _) <;> simp [Context.next, TypeGraph.add, TypeGraph.size]
    · rintro (_ | _ | _ | _) <;> simp [Context.next, TypeGraph.add, TypeGraph.size]
  linked := by
    refine hlinked.insert (k := .node) (onward_add c x) (onward_add c' y) ?_ ?_
      ⟨x, y, ?_, ?_, hxy.mono (Set.subset_insert _ _)⟩
    · simp [Context.next, TypeGraph.add, TypeGraph.size]
    · simp [Context.next, TypeGraph.add, TypeGraph.size]
    · exact TypeGraph.get?_add_self _ _
    · exact TypeGraph.get?_add_self _ _
  knows := by
    refine W.stable hknows rfl rfl rfl rfl ?_
    rintro k a b (rfl | rfl) <;> simp
  result := .node (Set.mem_insert _ _)

theorem newType_sim (hxy : x.Paired ρ y) : Sim W ρ Ty.Paired (AnalysisM.newType x) (AnalysisM.newType y) := by
  intro c c' c1 t hlinked hknows hrun hallow
  cases hrun
  exact ⟨_, _, _, add_follows hxy hlinked hknows⟩

theorem newFunction_sim {fs fs' : List TupleField} {t t' : Ty} (hfs : Forall₂ (TupleField.Paired ρ) fs fs')
    (ht : t.Paired ρ t') : Sim W ρ Ty.Paired (AnalysisM.newFunction fs t) (AnalysisM.newFunction fs' t') := by
  intro c c' c1 u hlinked hknows hrun hallow
  cases hrun
  have htuple := add_follows (x := .tuple "" fs) (y := .tuple "" fs') (.tuple hfs) hlinked hknows
  have hfunction := add_follows (x := .function (some c.graph.size) t) (y := .function (some c'.graph.size) t')
    (.function (Set.mem_insert _ _) (ht.mono htuple.advances.subset)) htuple.linked htuple.knows
  exact ⟨_, _, _, rfl, htuple.advances.trans hfunction.advances, hfunction.linked, hfunction.knows, hfunction.result⟩

end TypeInference
