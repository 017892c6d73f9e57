import Mathlib.Logic.Equiv.Defs
import TypeInference.Proofs.Satisfaction

/-! # Renaming

Variables and composite types are numbers, and another numbering is as good: when types, tables and constraints are
renamed together, a table satisfies the same constraints (`satisfies_rename`). -/

namespace TypeInference

open List

variable {d d' : Constraint} {fs : List TupleField} {l : String} {x : Ty}

/-- Another numbering of variables and composite types. -/
structure Renaming where
  var : Equiv.Perm Int
  node : Equiv.Perm NodeId

def Renaming.symm (σ : Renaming) : Renaming := ⟨σ.var.symm, σ.node.symm⟩

/-! ### Renamed types -/

def Ty.rename (σ : Renaming) : Ty → Ty
  | .var v => .var (σ.var v)
  | .node i => .node (σ.node i)
  | t => t

def TupleField.rename (σ : Renaming) (f : TupleField) : TupleField := { f with type := f.type.rename σ }

def Composite.rename (σ : Renaming) : Composite → Composite
  | .metatype t => .metatype (t.rename σ)
  | .function d t => .function (d.map σ.node) (t.rename σ)
  | .tuple label fields => .tuple label (fields.map (TupleField.rename σ))
  | .union cases => .union (cases.map (Ty.rename σ))

/-- The second graph is the first one, renamed. -/
def TypeGraph.Renamed (σ : Renaming) (g g' : TypeGraph) : Prop :=
  ∀ i, g'.get? (σ.node i) = (g.get? i).map (Composite.rename σ)

/-- The bindings of a table, renamed one by one. -/
def Substitution.rename (σ : Renaming) (s : Substitution) : Substitution :=
  ⟨s.entries.map fun e => (σ.var e.1, e.2.rename σ)⟩

section

variable {σ : Renaming} {g g' : TypeGraph} {s : Substitution} {t u : Ty}

@[simp] theorem Ty.rename_symm (σ : Renaming) (t : Ty) : (t.rename σ).rename σ.symm = t := by
  cases t <;> simp [rename, Renaming.symm]

@[simp] theorem TupleField.rename_symm (σ : Renaming) (f : TupleField) : (f.rename σ).rename σ.symm = f := by
  simp [rename]

@[simp] theorem Composite.rename_symm (σ : Renaming) (x : Composite) : (x.rename σ).rename σ.symm = x := by
  cases x with
  | metatype t => simp [rename]
  | function d t =>
    have hnode (i : NodeId) : σ.symm.node (σ.node i) = i := σ.node.symm_apply_apply i
    cases d <;> simp [rename, hnode]
  | tuple label fields => simp [rename, Function.comp_def]
  | union cases => simp [rename, Function.comp_def]

@[simp] theorem Substitution.rename_symm (σ : Renaming) (s : Substitution) : (s.rename σ).rename σ.symm = s := by
  obtain ⟨entries⟩ := s
  have hvar (v : Int) : σ.symm.var (σ.var v) = v := σ.var.symm_apply_apply v
  simp [rename, Function.comp_def, hvar]

theorem TypeGraph.Renamed.symm (h : g.Renamed σ g') : g'.Renamed σ.symm g := fun i => by
  have hi := h (σ.node.symm i)
  rw [Equiv.apply_symm_apply] at hi
  rw [hi, Option.map_map]
  have hid : Composite.rename σ.symm ∘ Composite.rename σ = id := funext fun x => x.rename_symm σ
  rw [hid, Option.map_id_fun]
  rfl

/-! ### Renamed tables -/

namespace Substitution

theorem get?_rename (σ : Renaming) (s : Substitution) (v : Int) :
    (s.rename σ).get? (σ.var v) = (s.get? v).map (Ty.rename σ) := by
  obtain ⟨entries⟩ := s
  unfold get? rename
  induction entries with
  | nil => rfl
  | cons e entries ih =>
    obtain ⟨w, t⟩ := e
    simp only [map_cons, lookup_cons]
    by_cases h : v = w
    · subst h
      simp
    · have h' : (σ.var v == σ.var w) = false := by simpa using h
      have hvw : (v == w) = false := by simpa using h
      rw [h', hvw]
      exact ih

theorem lookupAux_rename (σ : Renaming) (s : Substitution) : ∀ (steps : Nat) (t : Ty),
    (s.rename σ).lookupAux steps (t.rename σ) = (s.lookupAux steps t).rename σ
  | 0, t => by cases t <;> rfl
  | steps + 1, .var v => by
    have hget := get?_rename σ s v
    unfold lookupAux Ty.rename
    dsimp only
    rw [hget]
    cases s.get? v with
    | none => rfl
    | some t => exact lookupAux_rename σ s steps t
  | steps + 1, .absent | steps + 1, .error | steps + 1, .scalar _ | steps + 1, .node _ => rfl

@[simp] theorem lookup_rename (σ : Renaming) (s : Substitution) (t : Ty) :
    (s.rename σ).lookup (t.rename σ) = (s.lookup t).rename σ := by
  unfold lookup
  rw [lookupAux_rename]
  simp [size, rename]

end Substitution

theorem TypeGraph.Renamed.get? (h : g.Renamed σ g') {i : NodeId} {x : Composite} (hi : g.get? i = some x) :
    g'.get? (σ.node i) = some (x.rename σ) := by
  rw [h, hi]
  rfl

theorem unionCases?_rename (h : g.Renamed σ g') {cases : List Ty} (ht : g.unionCases? t = some cases) :
    g'.unionCases? (t.rename σ) = some (cases.map (Ty.rename σ)) := by
  obtain ⟨i, rfl, hi⟩ := unionCases?_eq_some.mp ht
  exact unionCases?_eq_some.mpr ⟨_, rfl, h.get? hi⟩

theorem tuple?_rename (h : g.Renamed σ g') (ht : g.tuple? t = some (l, fs)) :
    g'.tuple? (t.rename σ) = some (l, fs.map (TupleField.rename σ)) := by
  obtain ⟨i, rfl, hi⟩ := tuple?_eq_some.mp ht
  exact tuple?_eq_some.mpr ⟨_, rfl, h.get? hi⟩

/-! ### What is renamed means the same -/

namespace Substitution

theorem IsUnion.rename (h : g.Renamed σ g') (ht : s.IsUnion g t) : (s.rename σ).IsUnion g' (t.rename σ) := by
  obtain ⟨cases, ht⟩ := ht
  refine ⟨cases.map (Ty.rename σ), ?_⟩
  rw [lookup_rename]
  exact unionCases?_rename h ht

theorem isUnion_rename (h : g.Renamed σ g') : (s.rename σ).IsUnion g' (t.rename σ) ↔ s.IsUnion g t :=
  ⟨fun ht => by simpa using ht.rename h.symm, fun ht => ht.rename h⟩

theorem Leaf.rename (h : g.Renamed σ g') (hx : s.Leaf g t x) : (s.rename σ).Leaf g' (t.rename σ) (x.rename σ) := by
  induction hx with
  | self ht =>
    rw [← lookup_rename]
    exact .self (mt (isUnion_rename h).mp ht)
  | case ht hc _ ih =>
    refine .case ?_ (mem_map_of_mem hc) ih
    rw [lookup_rename]
    exact unionCases?_rename h ht

theorem exists_leaf_rename (h : g.Renamed σ g') (hx : (s.rename σ).Leaf g' (t.rename σ) x) :
    ∃ y, s.Leaf g t y ∧ x = y.rename σ := by
  refine ⟨x.rename σ.symm, by simpa using hx.rename h.symm, ?_⟩
  exact (Ty.rename_symm σ.symm x).symm

end Substitution

theorem domainType_rename (σ : Renaming) (d : Option NodeId) :
    Solver.domainType (d.map σ.node) = (Solver.domainType d).rename σ := by
  cases d <;> rfl

theorem sameShape_rename {l' : String} {fs' : List TupleField} (shape : sameShape l fs l' fs' = true) :
    sameShape l (fs.map (TupleField.rename σ)) l' (fs'.map (TupleField.rename σ)) = true := by
  rw [sameShape_iff] at shape ⊢
  simpa [Function.comp_def, TupleField.rename] using shape

theorem Congruent.rename (h : g.Renamed σ g') {R R' : Ty → Ty → Prop} (hR : ∀ a b, R a b → R' (a.rename σ) (b.rename σ))
    (ht : Congruent g R t u) : Congruent g' R' (t.rename σ) (u.rename σ) := by
  cases ht with
  | same => exact .same _
  | metatype hi hj hp => exact .metatype (h.get? hi) (h.get? hj) (hR _ _ hp)
  | function hi hj hd hc =>
    refine .function (h.get? hi) (h.get? hj) ?_ (hR _ _ hc)
    rw [domainType_rename, domainType_rename]
    exact hR _ _ hd
  | tuple hi hj shape fields =>
    refine .tuple (h.get? hi) (h.get? hj) (sameShape_rename shape) ?_
    rw [forall₂_map_left_iff, forall₂_map_right_iff]
    exact fields.imp fun _ _ hf => hR _ _ hf

namespace Substitution

theorem Bisimilar.rename (h : g.Renamed σ g') (ht : s.Bisimilar g t u) :
    (s.rename σ).Bisimilar g' (t.rename σ) (u.rename σ) := by
  refine ⟨fun a b => ∃ a0 b0, a = a0.rename σ ∧ b = b0.rename σ ∧ s.Bisimilar g a0 b0, ?_, t, u, rfl, rfl, ht⟩
  rintro _ _ ⟨a, b, rfl, rfl, hab⟩
  cases hab.matches with
  | unions ha hb left right =>
    refine .unions (ha.rename h) (hb.rename h) (fun x' hx' => ?_) (fun y' hy' => ?_)
    · obtain ⟨x, hx, rfl⟩ := exists_leaf_rename h hx'
      obtain ⟨y, hy, hxy⟩ := left x hx
      exact ⟨y.rename σ, hy.rename h, x, y, rfl, rfl, hxy⟩
    · obtain ⟨y, hy, rfl⟩ := exists_leaf_rename h hy'
      obtain ⟨x, hx, hxy⟩ := right y hy
      exact ⟨x.rename σ, hx.rename h, x, y, rfl, rfl, hxy⟩
  | others ha hb hcongruent =>
    refine .others (mt (isUnion_rename h).mp ha) (mt (isUnion_rename h).mp hb) ?_
    rw [lookup_rename, lookup_rename]
    exact hcongruent.rename h fun a b hab => ⟨a, b, rfl, rfl, hab⟩

theorem Related.rename (h : g.Renamed σ g') {rel : Relation} (ht : s.Related g rel t u) :
    (s.rename σ).Related g' rel (t.rename σ) (u.rename σ) := by
  have hnode {t : Ty} {i : NodeId} (ht : s.lookup t = .node i) :
      (s.rename σ).lookup (t.rename σ) = .node (σ.node i) := by
    rw [lookup_rename, ht]
    rfl
  induction ht with
  | bisimilar ht => exact .bisimilar (ht.rename h)
  | leftUnion ht hu _ ih =>
    refine .leftUnion (ht.rename h) (mt (isUnion_rename h).mp hu) fun x' hx' => ?_
    obtain ⟨x, hx, rfl⟩ := exists_leaf_rename h hx'
    exact ih x hx
  | unions ht hu _ _ ih ihback =>
    refine .unions (ht.rename h) (hu.rename h) (fun x' hx' => ?_) (fun hrel y' hy' => ?_)
    · obtain ⟨x, hx, rfl⟩ := exists_leaf_rename h hx'
      exact ih x hx
    · obtain ⟨y, hy, rfl⟩ := exists_leaf_rename h hy'
      exact ihback hrel y hy
  | rightUnion ht hu hy _ ih => exact .rightUnion (mt (isUnion_rename h).mp ht) (hu.rename h) (hy.rename h) ih
  | metatype ht hu hi hj _ ih => exact .metatype (hnode ht) (hnode hu) (h.get? hi) (h.get? hj) ih
  | function ht hu hi hj _ _ ihd ihc =>
    refine .function (hnode ht) (hnode hu) (h.get? hi) (h.get? hj) ?_ ihc
    rw [domainType_rename, domainType_rename]
    exact ihd
  | tuple ht hu hi hj shape _ ih =>
    refine .tuple (hnode ht) (hnode hu) (h.get? hi) (h.get? hj) (sameShape_rename shape) fun p hp => ?_
    rw [zip_map] at hp
    obtain ⟨q, hq, rfl⟩ := mem_map.mp hp
    exact ih q hq

end Substitution

/-! ### Renamed constraints -/

/-- The second constraint is the first one, renamed; the choices that it leaves may come in another order. -/
inductive Constraint.Renamed (σ : Renaming) : Constraint → Constraint → Prop where
  | relate {rel : Relation} {t u : Ty} {location : Location} :
      Renamed σ (.relate rel t u location) (.relate rel (t.rename σ) (u.rename σ) location)
  | member {owner type : Ty} {m : Member} {location : Location} :
      Renamed σ (.member owner m type location) (.member (owner.rename σ) m (type.rename σ) location)
  | choice {t : Ty} {us us' : List Ty} {location : Location} (h : (us.map (Ty.rename σ)).Perm us') :
      Renamed σ (.oneOf (us.map fun u => .equality t u location) location)
        (.oneOf (us'.map fun u => .equality (t.rename σ) u location) location)

theorem Constraint.Renamed.symm (h : d.Renamed σ d') : d'.Renamed σ.symm d := by
  cases h with
  | @relate rel t u location => simpa using @relate σ.symm rel (t.rename σ) (u.rename σ) location
  | @member owner type m location => simpa using @member σ.symm (owner.rename σ) (type.rename σ) m location
  | @choice t us us' location h =>
    have hback :
        (us'.map (Ty.rename σ.symm)).Perm us := by simpa [Function.comp_def] using (h.map (Ty.rename σ.symm)).symm
    simpa using @choice σ.symm (t.rename σ) _ _ location hback

theorem field?_rename (σ : Renaming) (fs : List TupleField) (m : Member) :
    m.field? (fs.map (TupleField.rename σ)) = (m.field? fs).map (TupleField.rename σ) := by
  cases m with
  | label l => exact List.find?_map
  | index i =>
    unfold Member.field?
    dsimp only
    split
    · rfl
    · exact List.getElem?_map

namespace Substitution

theorem Satisfies.rename (h : g.Renamed σ g') (hd : d.Renamed σ d') (hs : s.Satisfies g d) :
    (s.rename σ).Satisfies g' d' := by
  cases hd with
  | relate =>
    cases hs with
    | relate ht => exact .relate (ht.rename h)
  | member =>
    cases hs with
    | member ho hf ht =>
      have ho' := tuple?_rename h ho
      rw [← lookup_rename] at ho'
      have hf' := (field?_rename σ _ _).trans (congrArg (Option.map (TupleField.rename σ)) hf)
      exact .member ho' hf' (ht.rename h)
  | choice hus =>
    cases hs with
    | oneOf hc hs =>
      obtain ⟨u, hu, rfl⟩ := mem_map.mp hc
      refine .oneOf (mem_map_of_mem (hus.mem_iff.mp (mem_map_of_mem hu))) ?_
      cases hs with
      | relate ht => exact .relate (ht.rename h)

/-- A table satisfies a constraint if and only if the renamed table satisfies the renamed constraint. -/
theorem satisfies_rename (h : g.Renamed σ g') (hd : d.Renamed σ d') : s.Satisfies g d ↔ (s.rename σ).Satisfies g' d' :=
  ⟨fun hs => hs.rename h hd, fun hs => by simpa using hs.rename h.symm hd.symm⟩

end Substitution

end

end TypeInference
