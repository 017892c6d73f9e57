import Mathlib.Data.List.ProdSigma
import TypeInference.Proofs.LeafCases
import TypeInference.Proofs.Occurrences

/-! # Bounds that are never felt

A walk through a graph of types never enters a node, or a pair of nodes, twice, so its bound is not reached: all that
can stop it is a part that is absent (`equal_raises`, `leafCases_raises`). In a graph without absent parts nothing does
(`equal_isOk`, `leafCases_isOk`). -/

namespace TypeInference

open List

variable {x : Composite} {P : Fault → Prop} {assumed : List (NodeId × NodeId)} {m n fuel : Nat} {i j : NodeId}
  {σ : Substitution} {t u : Ty} {g : TypeGraph}

/-! ### Faults of a computation -/

/-- If the computation stops, then with one of these faults. -/
def Raises {α : Type} (P : Fault → Prop) (x : Except Fault α) : Prop := ∀ e, x = .error e → P e

/-- The faults of an operation that lacks a part. -/
def Lacking (e : Fault) : Prop := e = .missing

/-- The faults of an operation that was cut off. -/
def CutOff (e : Fault) : Prop := e = .outOfSteps

namespace Raises

variable {α β : Type} {P Q : Fault → Prop}

theorem ok (a : α) : Raises P (.ok a) := fun _ h => by cases h

theorem pure (a : α) : Raises P (Pure.pure a : Except Fault α) := ok a

theorem error {e : Fault} (h : P e) : Raises P (.error e : Except Fault α) := fun _ he => by
  cases he
  exact h

theorem bind {x : Except Fault α} {f : α → Except Fault β} (hx : Raises P x) (hf : ∀ a, x = .ok a → Raises P (f a)) :
    Raises P (x >>= f) := by
  cases x with
  | error e => exact error (hx e rfl)
  | ok a => exact hf a rfl

theorem anyM {p : α → Except Fault Bool} {xs : List α} (h : ∀ x ∈ xs, Raises P (p x)) : Raises P (xs.anyM p) := by
  induction xs with
  | nil => exact pure false
  | cons x xs ih =>
    obtain ⟨hx, hxs⟩ := forall_mem_cons.mp h
    refine bind hx fun b _ => ?_
    cases b with
    | true => exact pure true
    | false => exact ih hxs

theorem allM {p : α → Except Fault Bool} {xs : List α} (h : ∀ x ∈ xs, Raises P (p x)) : Raises P (xs.allM p) := by
  induction xs with
  | nil => exact pure true
  | cons x xs ih =>
    obtain ⟨hx, hxs⟩ := forall_mem_cons.mp h
    refine bind hx fun b _ => ?_
    cases b with
    | true => exact ih hxs
    | false => exact pure false

theorem exists_ok {x : Except Fault α} (h : Raises Lacking x) (h' : Raises CutOff x) : ∃ a, x = .ok a := by
  cases x with
  | ok a => exact ⟨a, rfl⟩
  | error e =>
    have hboth := (h e rfl).symm.trans (h' e rfl)
    cases hboth

end Raises

theorem get_raises (g : TypeGraph) (i : NodeId) : Raises Lacking (g.get i) := by
  unfold TypeGraph.get
  split
  · exact .ok _
  · exact .error rfl

theorem lt_size_of_get? (h : g.get? i = some x) : i < g.size :=
  (Array.getElem?_eq_some_iff.mp h).1

/-! ### Graphs without absent parts -/

/-- The type is not composite, or one of the first `n` composite types. -/
def Ty.Below (n : Nat) : Ty → Prop
  | .node i => i < n
  | _ => True

theorem Ty.Below.mono (h : t.Below m) (hmn : m ≤ n) : t.Below n := by
  cases t with
  | node i => exact Nat.lt_of_lt_of_le h hmn
  | _ => trivial

/-- The parts of the composite type, its domain included, are below `n`. -/
structure Composite.Below (n : Nat) (x : Composite) : Prop where
  parts : ∀ t ∈ x.parts, t.Below n
  domain : ∀ d c, x = .function (some d) c → d < n

theorem Composite.Below.mono (h : x.Below m) (hmn : m ≤ n) : x.Below n :=
  ⟨fun t ht => (h.parts t ht).mono hmn, fun d c hx => Nat.lt_of_lt_of_le (h.domain d c hx) hmn⟩

/-- Composite types have their parts in the graph. -/
def TypeGraph.Closed (g : TypeGraph) : Prop := ∀ i x, g.get? i = some x → x.Below g.size

/-- Every function type has a domain. -/
def TypeGraph.Complete (g : TypeGraph) : Prop := ∀ i c, g.get? i ≠ some (.function none c)

instance Ty.decidableBelow (n : Nat) : ∀ t : Ty, Decidable (t.Below n)
  | .node i => inferInstanceAs (Decidable (i < n))
  | .absent | .scalar _ | .error | .var _ => .isTrue trivial

theorem Composite.below_iff :
    x.Below n ↔ (∀ t ∈ x.parts, t.Below n) ∧ match x with
      | .function (some d) _ => d < n
      | _ => True := by
  constructor
  · intro h
    refine ⟨h.parts, ?_⟩
    split
    · next d c => exact h.domain d c rfl
    · trivial
  · rintro ⟨hparts, hdomain⟩
    refine ⟨hparts, ?_⟩
    rintro d c rfl
    exact hdomain

instance Composite.decidableBelow (n : Nat) : ∀ x : Composite, Decidable (x.Below n)
  | .metatype _ | .tuple _ _ | .union _ | .function none _ | .function (some _) _ => decidable_of_iff' _ below_iff

theorem TypeGraph.forall_get?_iff {P : Composite → Prop} : (∀ i x, g.get? i = some x → P x) ↔
    ∀ x ∈ g.nodes.toList, P x := by
  constructor
  · intro h x hx
    obtain ⟨i, hi⟩ := List.getElem?_of_mem hx
    exact h i x (by rwa [Array.getElem?_toList] at hi)
  · intro h i x hx
    exact h x (Array.mem_toList_iff.mpr (Array.mem_of_getElem? hx))

instance TypeGraph.decidableClosed (g : TypeGraph) : Decidable g.Closed :=
  decidable_of_iff' _ forall_get?_iff

theorem TypeGraph.complete_iff : g.Complete ↔ ∀ x ∈ g.nodes.toList, ∀ c ∈ x.parts, x ≠ .function none c := by
  rw [← forall_get?_iff]
  constructor
  · rintro h i x hx c - rfl
    exact h i c hx
  · intro h i c hx
    exact h i _ hx c (mem_singleton_self c) rfl

instance TypeGraph.decidableComplete (g : TypeGraph) : Decidable g.Complete := decidable_of_iff' _ complete_iff

theorem exists_get_of_lt (h : i < g.size) : ∃ x, g.get i = .ok x := by
  have hget : g.get? i = some g.nodes[i] := Array.getElem?_eq_getElem h
  exact ⟨g.nodes[i], by rw [TypeGraph.get, hget]⟩

theorem raises_of_lt (h : i < g.size) : Raises P (g.get i) := by
  obtain ⟨x, hx⟩ := exists_get_of_lt h
  rw [hx]
  exact .ok x

/-! ### Structural equality -/

/-- The pairs that are under comparison: nodes of the graph, none twice. -/
structure Entered (g : TypeGraph) (assumed : List (NodeId × NodeId)) : Prop where
  nodup : assumed.Nodup
  bound : ∀ p ∈ assumed, p.1 < g.size ∧ p.2 < g.size

theorem Entered.length_le (h : Entered g assumed) : assumed.length ≤ g.size * g.size := by
  have hsub : assumed ⊆ (List.range g.size).product (List.range g.size) := fun p hp =>
    mem_product.mpr ⟨mem_range.mpr (h.bound p hp).1, mem_range.mpr (h.bound p hp).2⟩
  have hle := (subperm_of_subset h.nodup hsub).length_le
  have hlength : ((List.range g.size).product (List.range g.size)).length = g.size * g.size :=
    (length_product _ _).trans (by simp)
  rwa [hlength] at hle

theorem Entered.cons (h : Entered g assumed) (hi : i < g.size) (hj : j < g.size)
    (hnew : ¬ assumed.contains (i, j) = true) : Entered g ((i, j) :: assumed) where
  nodup := nodup_cons.mpr ⟨by simpa using hnew, h.nodup⟩
  bound := forall_mem_cons.mpr ⟨⟨hi, hj⟩, h.bound⟩

/-- How a comparison of two composite types can stop: in a part, or because one has a domain and the other has none. -/
theorem equalAux_node_raises (hi : Raises P (g.get i)) (hj : Raises P (g.get j))
    (hparts : ∀ {x y t u}, g.get? i = some x → g.get? j = some y → ¬ assumed.contains (i, j) = true → t ∈ x.parts →
    u ∈ y.parts →
      Raises P (g.equalAux fuel ((i, j) :: assumed) t u) ∧ Raises P (g.equalAux fuel ((i, j) :: assumed) u t))
    (hdomains : ∀ {d d' c c'}, g.get? i = some (.function (some d) c) → g.get? j = some (.function (some d') c') →
      ¬ assumed.contains (i, j) = true → Raises P (g.equalAux fuel ((i, j) :: assumed) (.node d) (.node d')))
    (hlacking : ∀ {d d' c c'}, g.get? i = some (.function d c) → g.get? j = some (.function d' c') →
    d = none ∨ d' = none → P .missing) : Raises P (g.equalAux (fuel + 1) assumed (.node i) (.node j)) := by
  simp only [TypeGraph.equalAux]
  split
  · exact .ok _
  refine .bind hi fun x hx => .bind hj fun y hy => ?_
  replace hx := get?_of_get hx
  replace hy := get?_of_get hy
  split
  · split
    · exact .pure _
    · next hnew => exact (hparts hx hy hnew (mem_singleton_self _) (mem_singleton_self _)).1
  · split
    · exact .pure _
    · next hnew =>
      have hcodomain := (hparts hx hy hnew (mem_singleton_self _) (mem_singleton_self _)).1
      split
      · exact hcodomain
      · refine .bind (hdomains hx hy hnew) fun same _ => ?_
        split
        · exact hcodomain
        · exact .pure _
      · next hsome =>
        refine .bind (.error (hlacking hx hy ?_)) fun _ h => by cases h
        by_contra hboth
        obtain ⟨hd, hd'⟩ := not_or.mp hboth
        obtain ⟨d, rfl⟩ := Option.ne_none_iff_exists'.mp hd
        obtain ⟨d', rfl⟩ := Option.ne_none_iff_exists'.mp hd'
        exact hsome d d' rfl rfl
  · split
    · exact .pure _
    · split
      · exact .pure _
      · next hnew =>
        refine .allM fun p hp => ?_
        obtain ⟨hf, hf'⟩ := of_mem_zip hp
        exact (hparts hx hy hnew (mem_map_of_mem hf) (mem_map_of_mem hf')).1
  · split
    · exact .pure _
    · next hnew =>
      refine .bind (.allM fun t ht => .anyM fun u hu => (hparts hx hy hnew ht hu).1) fun same _ => ?_
      split
      · exact .allM fun u hu => .anyM fun t ht => (hparts hx hy hnew ht hu).2
      · exact .pure _
  · exact .pure _

theorem equalAux_leaf (h : ∀ i j, t = .node i → u ≠ .node j) : g.equalAux (fuel + 1) assumed t u = .ok (t == u) := by
  cases t with
  | node i =>
    cases u with
    | node j => exact absurd rfl (h i j rfl)
    | _ => rfl
  | _ => rfl

/-- The induction is on the bound: a pair that is entered was not entered before, so the list of entered pairs grows as
the bound shrinks. -/
theorem equalAux_raises : ∀ {fuel : Nat} {assumed : List (NodeId × NodeId)} {t u : Ty}, Entered g assumed →
    g.size * g.size < assumed.length + fuel → Raises Lacking (g.equalAux fuel assumed t u)
  | 0, assumed, t, u, hentered, hfuel => absurd hentered.length_le (by omega)
  | fuel + 1, assumed, t, u, hentered, hfuel => by
    by_cases hnodes : ∃ i j, t = .node i ∧ u = .node j
    · obtain ⟨i, j, rfl, rfl⟩ := hnodes
      have inner : ∀ {x y t u}, g.get? i = some x → g.get? j = some y → ¬ assumed.contains (i, j) = true →
          Raises Lacking (g.equalAux fuel ((i, j) :: assumed) t u) := fun hi hj hnew =>
        equalAux_raises (hentered.cons (lt_size_of_get? hi) (lt_size_of_get? hj) hnew)
          (by simp only [length_cons]; omega)
      exact equalAux_node_raises (get_raises g i) (get_raises g j)
        (fun hi hj hnew _ _ => ⟨inner hi hj hnew, inner hi hj hnew⟩) (fun hi hj hnew => inner hi hj hnew)
        (fun _ _ _ => rfl)
    · rw [equalAux_leaf fun i j ht hu => hnodes ⟨i, j, ht, hu⟩]
      exact .ok _

theorem equal_raises (g : TypeGraph) (t u : Ty) : Raises Lacking (g.equal t u) :=
  equalAux_raises ⟨nodup_nil, by simp⟩ (by simp)

/-- The types of the set have all their parts, in the set again. -/
structure TypeGraph.Supports (g : TypeGraph) (P : Ty → Prop) : Prop where
  node : ∀ {i}, P (.node i) → i < g.size
  parts : ∀ {i x t}, P (.node i) → g.get? i = some x → t ∈ x.parts → P t
  domain : ∀ {i d c}, P (.node i) → g.get? i = some (.function d c) → ∃ d', d = some d' ∧ P (.node d')

theorem TypeGraph.Closed.supports (hclosed : g.Closed) (hcomplete : g.Complete) : g.Supports (Ty.Below g.size) where
  node := fun hi => hi
  parts := fun _ hx ht => (hclosed _ _ hx).parts _ ht
  domain := fun {i d c} _ hi => by
    cases d with
    | none => exact absurd hi (hcomplete i c)
    | some d => exact ⟨d, rfl, (hclosed _ _ hi).domain d c rfl⟩

theorem equalAux_cutOff {P : Ty → Prop} (hg : g.Supports P) :
    ∀ {fuel : Nat} {assumed : List (NodeId × NodeId)} {t u : Ty}, P t → P u →
    Raises CutOff (g.equalAux fuel assumed t u)
  | 0, _, _, _, _, _ => .error rfl
  | fuel + 1, assumed, t, u, ht, hu => by
    by_cases hnodes : ∃ i j, t = .node i ∧ u = .node j
    · obtain ⟨i, j, rfl, rfl⟩ := hnodes
      refine equalAux_node_raises (raises_of_lt (hg.node ht)) (raises_of_lt (hg.node hu)) (fun hi hj _ ht' hu' => ?_)
        (fun hi hj _ => ?_) (fun hi hj hnone => ?_)
      · have ht' := hg.parts ht hi ht'
        have hu' := hg.parts hu hj hu'
        exact ⟨equalAux_cutOff hg ht' hu', equalAux_cutOff hg hu' ht'⟩
      · obtain ⟨d, hd, hdomain⟩ := hg.domain ht hi
        obtain ⟨d', hd', hdomain'⟩ := hg.domain hu hj
        cases hd
        cases hd'
        exact equalAux_cutOff hg hdomain hdomain'
      · obtain ⟨d, rfl, -⟩ := hg.domain ht hi
        obtain ⟨d', rfl, -⟩ := hg.domain hu hj
        simp at hnone
    · rw [equalAux_leaf fun i j ht hu => hnodes ⟨i, j, ht, hu⟩]
      exact .ok _

theorem TypeGraph.Supports.equal_isOk {P : Ty → Prop} (hg : g.Supports P) (ht : P t) (hu : P u) :
    ∃ b, g.equal t u = .ok b :=
  (equal_raises g t u).exists_ok (equalAux_cutOff hg ht hu)

theorem equal_isOk (hclosed : g.Closed) (hcomplete : g.Complete) (ht : t.Below g.size) (hu : u.Below g.size) :
    ∃ b, g.equal t u = .ok b :=
  (hclosed.supports hcomplete).equal_isOk ht hu

/-! ### Leaf cases -/

theorem foldlM_raises {α β : Type} (I : β → Prop) {f : β → α → Except Fault β} {xs : List α}
    (hf : ∀ b, ∀ x ∈ xs, I b → Raises P (f b x) ∧ ∀ b', f b x = .ok b' → I b') {b : β} (hb : I b) :
    Raises P (xs.foldlM f b) ∧ ∀ b', xs.foldlM f b = .ok b' → I b' := by
  induction xs generalizing b with
  | nil =>
    refine ⟨.pure b, fun b' h => ?_⟩
    cases h
    exact hb
  | cons x xs ih =>
    obtain ⟨hx, hnext⟩ := hf b x mem_cons_self hb
    have hrest := fun b' h => ih (fun b x hx => hf b x (mem_cons_of_mem _ hx)) (hnext b' h)
    rw [foldlM_cons]
    refine ⟨.bind hx fun b' h => (hrest b' h).1, fun b' h => ?_⟩
    obtain ⟨b1, hb1, h⟩ := bind_eq_ok.mp h
    exact (hrest b1 hb1).2 b' h

namespace Solver

variable {g : TypeGraph} {σ : Substitution}

/-- The unions that were opened: nodes of the graph, none twice. -/
structure LeafState.Fits (g : TypeGraph) (found : LeafState) : Prop where
  nodup : found.opened.Nodup
  bound : ∀ i ∈ found.opened, i < g.size

theorem LeafState.Fits.length_le {found : LeafState} (h : found.Fits g) : found.opened.length ≤ g.size := by
  have hsub : found.opened ⊆ List.range g.size := fun i hi => mem_range.mpr (h.bound i hi)
  simpa using (subperm_of_subset h.nodup hsub).length_le

/-- The induction is on the bound: a union that is opened was not opened before. -/
theorem addLeaves_raises : ∀ (fuel : Nat) {found : LeafState} (t : Ty), found.Fits g →
    g.size < found.opened.length + fuel → Raises Lacking (addLeaves g σ fuel found t) ∧
      ∀ found', addLeaves g σ fuel found t = .ok found' → found'.Fits g ∧ found.opened.length ≤ found'.opened.length
  | 0, found, t, hfits, hfuel => absurd hfits.length_le (by omega)
  | fuel + 1, found, t, hfits, hfuel => by
    unfold addLeaves
    split
    · next i cases hi hcases =>
      split
      · refine ⟨.ok _, fun found' h => ?_⟩
        cases h
        exact ⟨hfits, Nat.le_refl _⟩
      · next hnew =>
        have hi' : i < g.size := by
          obtain ⟨j, hj, hget⟩ := unionCases?_eq_some.mp hcases
          obtain rfl : i = j := by simpa using hi.symm.trans hj
          exact lt_size_of_get? hget
        have hopen : LeafState.Fits g { found with opened := i :: found.opened } :=
          ⟨nodup_cons.mpr ⟨by simpa using hnew, hfits.nodup⟩, forall_mem_cons.mpr ⟨hi', hfits.bound⟩⟩
        have hcase : ∀ f, ∀ x ∈ cases, f.Fits g ∧ found.opened.length + 1 ≤ f.opened.length →
            Raises Lacking (addLeaves g σ fuel f x) ∧ ∀ f', addLeaves g σ fuel f x = .ok f' →
              f'.Fits g ∧ found.opened.length + 1 ≤ f'.opened.length := by
          intro f x _ hf
          have hlength := hf.2
          obtain ⟨hx, hnext⟩ := addLeaves_raises fuel x hf.1 (by omega)
          exact ⟨hx, fun f' h => ⟨(hnext f' h).1, Nat.le_trans hlength (hnext f' h).2⟩⟩
        obtain ⟨hraises, hkeeps⟩ := foldlM_raises (fun f : LeafState => f.Fits g ∧
          found.opened.length + 1 ≤ f.opened.length) hcase ⟨hopen, Nat.le_refl _⟩
        exact ⟨hraises, fun found' h => ⟨(hkeeps found' h).1, Nat.le_of_succ_le (hkeeps found' h).2⟩⟩
    · refine ⟨.bind (.anyM fun u _ => equal_raises g u _) fun known _ => ?_, fun found' h => ?_⟩
      · split <;> exact .pure _
      · obtain ⟨known, -, h⟩ := bind_eq_ok.mp h
        split at h <;> cases h <;> exact ⟨⟨hfits.nodup, hfits.bound⟩, Nat.le_refl _⟩

theorem leafCases_raises {u : NodeId} {cases : List Ty} (hu : u < g.size) : Raises Lacking (leafCases g σ u cases) := by
  have hstart : LeafState.Fits g { opened := [u] } := ⟨nodup_singleton u, by simpa using hu⟩
  refine .bind (foldlM_raises (fun found : LeafState => found.Fits g ∧ 1 ≤ found.opened.length) (fun found t _ h => ?_)
    ⟨hstart, by simp⟩).1 fun _ _ => .pure _
  obtain ⟨ht, hnext⟩ := addLeaves_raises (g.size + 1) t h.1 (by omega)
  exact ⟨ht, fun found' h' => ⟨(hnext found' h').1, Nat.le_trans h.2 (hnext found' h').2⟩⟩

end Solver

/-! ### Tables -/

/-- Variables are bound to types below `n`. -/
def Substitution.Below (n : Nat) (σ : Substitution) : Prop := ∀ p ∈ σ.entries, p.2.Below n

instance Substitution.decidableBelow (σ : Substitution) (n : Nat) : Decidable (σ.Below n) :=
  inferInstanceAs (Decidable (∀ p ∈ σ.entries, p.2.Below n))

theorem Substitution.Below.get? (h : σ.Below n) {v : Int} (hv : σ.get? v = some t) : t.Below n := by
  obtain ⟨l1, l2, hl, -⟩ := List.lookup_eq_some_iff.mp hv
  exact h (v, t) (by simp [hl])

theorem Substitution.Below.lookup (h : σ.Below n) (ht : t.Below n) : (σ.lookup t).Below n := by
  have haux : ∀ (steps : Nat) {t : Ty}, t.Below n → (σ.lookupAux steps t).Below n := by
    intro steps
    induction steps with
    | zero => intro t ht; exact ht
    | succ steps ih =>
      intro t ht
      cases t with
      | var v =>
        unfold Substitution.lookupAux
        split
        · next hv => exact ih (h.get? hv)
        · trivial
      | _ => exact ht
  exact haux _ ht

theorem Substitution.Below.mono (h : σ.Below m) (hmn : m ≤ n) : σ.Below n :=
  fun p hp => (h p hp).mono hmn

namespace Solver

variable {g : TypeGraph} {σ : Substitution}

/-- In a graph without absent parts, the walk can only be cut off, and it finds types of the graph. -/
theorem addLeaves_cutOff (hclosed : g.Closed) (hcomplete : g.Complete) (hσ : σ.Below g.size) :
    ∀ {fuel : Nat} {found : LeafState} {t : Ty}, (∀ y ∈ found.leaves, y.Below g.size) → t.Below g.size →
      Raises CutOff (addLeaves g σ fuel found t) ∧
        ∀ found', addLeaves g σ fuel found t = .ok found' → ∀ y ∈ found'.leaves, y.Below g.size
  | 0, _, _, _, _ => ⟨.error rfl, fun _ h => by cases h⟩
  | fuel + 1, found, t, hfound, ht => by
    unfold addLeaves
    split
    · next i cases hi hcases =>
      split
      · refine ⟨.ok _, fun found' h => ?_⟩
        cases h
        exact hfound
      · obtain ⟨j, -, hget⟩ := unionCases?_eq_some.mp hcases
        exact foldlM_raises (fun f : LeafState => ∀ y ∈ f.leaves, y.Below g.size)
          (fun f x hx hf => addLeaves_cutOff hclosed hcomplete hσ hf ((hclosed j _ hget).parts x hx)) hfound
    · have hlook := hσ.lookup ht
      have hg := hclosed.supports hcomplete
      refine ⟨.bind (.anyM fun u hu => equalAux_cutOff hg (hfound u hu) hlook) fun known _ => ?_, fun found' h => ?_⟩
      · split <;> exact .pure _
      · obtain ⟨known, -, h⟩ := bind_eq_ok.mp h
        split at h <;> cases h
        · exact hfound
        · exact forall_mem_append.mpr ⟨hfound, forall_mem_singleton.mpr hlook⟩

theorem leafCases_isOk (hclosed : g.Closed) (hcomplete : g.Complete) (hσ : σ.Below g.size) {u : NodeId}
    {cases : List Ty} (hu : g.get? u = some (.union cases)) : ∃ ls, leafCases g σ u cases = .ok ls := by
  refine (leafCases_raises (lt_size_of_get? hu)).exists_ok ?_
  exact .bind (foldlM_raises (fun f : LeafState => ∀ y ∈ f.leaves, y.Below g.size)
    (fun f x hx hf => addLeaves_cutOff hclosed hcomplete hσ hf ((hclosed u _ hu).parts x hx)) (by simp)).1 fun _ _ =>
    .pure _

end Solver

end TypeInference
