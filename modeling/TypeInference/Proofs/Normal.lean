import Mathlib.Data.Fintype.EquivFin
import TypeInference.Proofs.Meaning

/-! # Normal types

Types in normal form have flat unions with no case twice and never one case (`TypeGraph.Normal`), and normal types that
stand for the same are alike (`TypeGraph.Normal.alike`), if lookalikes of a union do not lead back to it: a union that
stands for the same as a type that is no union would have two cases that stand for the same, and these would have to
hold another such union, but cannot hold the first one again.

What reification makes is in normal form, if no lookalikes of a union lead back to it, no union among the cases of
another leads back to that, and no union that leads back to itself stands for a single case
(`ReifyState.AtRest.normal`). -/

namespace TypeInference

open Substitution
open List

variable {G : TypeGraph} {R : Ty → Ty → Prop} {S T : Ty → Prop} {a b c x y : Ty} {i j k : NodeId}

/-! ### Types that stand for the same -/

namespace TypeGraph

/-- The types have leaf cases with the same heads, and with parts in the relation. -/
structure SameLeaves (G : TypeGraph) (R : Ty → Ty → Prop) (a b : Ty) : Prop where
  left : ∀ x, empty.Leaf G a x → ∃ y, empty.Leaf G b y ∧ SameHead G R x y
  right : ∀ y, empty.Leaf G b y → ∃ x, empty.Leaf G a x ∧ SameHead G R x y

/-- The types stand for the same. -/
def Synonymous (G : TypeGraph) (a b : Ty) : Prop := ∃ R : Ty → Ty → Prop, (∀ a b, R a b → G.SameLeaves R a b) ∧ R a b

namespace Synonymous

theorem sameLeaves (h : G.Synonymous a b) : G.SameLeaves G.Synonymous a b := by
  obtain ⟨R, hR, hab⟩ := h
  have hle : ∀ a b, R a b → G.Synonymous a b := fun a b hab => ⟨R, hR, hab⟩
  refine ⟨fun x hx => ?_, fun y hy => ?_⟩
  · obtain ⟨y, hy, hxy⟩ := (hR a b hab).left x hx
    exact ⟨y, hy, hxy.mono hle⟩
  · obtain ⟨x, hx, hxy⟩ := (hR a b hab).right y hy
    exact ⟨x, hx, hxy.mono hle⟩

theorem symm (h : G.Synonymous a b) : G.Synonymous b a := by
  refine ⟨fun a b => G.Synonymous b a, fun a b hab => ⟨fun x hx => ?_, fun y hy => ?_⟩, h⟩
  · obtain ⟨y, hy, hyx⟩ := hab.sameLeaves.right x hx
    exact ⟨y, hy, hyx.symm fun _ _ => id⟩
  · obtain ⟨x, hx, hyx⟩ := hab.sameLeaves.left y hy
    exact ⟨x, hx, hyx.symm fun _ _ => id⟩

theorem trans (h : G.Synonymous a b) (h' : G.Synonymous b c) : G.Synonymous a c := by
  refine ⟨fun a c => ∃ b, G.Synonymous a b ∧ G.Synonymous b c, ?_, b, h, h'⟩
  rintro a c ⟨b, hab, hbc⟩
  refine ⟨fun x hx => ?_, fun z hz => ?_⟩
  · obtain ⟨y, hy, hxy⟩ := hab.sameLeaves.left x hx
    obtain ⟨z, hz, hyz⟩ := hbc.sameLeaves.left y hy
    exact ⟨z, hz, hxy.comp (fun _ b _ h h' => ⟨b, h, h'⟩) hyz⟩
  · obtain ⟨y, hy, hyz⟩ := hbc.sameLeaves.right z hz
    obtain ⟨x, hx, hxy⟩ := hab.sameLeaves.right y hy
    exact ⟨x, hx, hxy.comp (fun _ b _ h h' => ⟨b, h, h'⟩) hyz⟩

end Synonymous

theorem eq_of_leaf (ha : G.head? a ≠ some .union) (h : empty.Leaf G a x) : x = a := by
  cases h with
  | self => exact lookup_empty a
  | case hcases => exact absurd (isUnion_empty.mp ⟨_, hcases⟩) ha

theorem union_of_head (h : G.head? a = some .union) : ∃ k cases, a = .node k ∧ G.get? k = some (.union cases) := by
  obtain ⟨cases, hcases⟩ := isUnion_empty.mpr h
  obtain ⟨k, hk, hget⟩ := unionCases?_eq_some.mp hcases
  exact ⟨k, cases, by simpa using hk, hget⟩

theorem Synonymous.of_sameHead (ha : G.head? a ≠ some .union) (h : SameHead G G.Synonymous a b) : G.Synonymous a b := by
  have hb : G.head? b ≠ some .union := head?_of_sameHead h ▸ ha
  refine ⟨fun x y => G.Synonymous x y ∨ x = a ∧ y = b, ?_, .inr ⟨rfl, rfl⟩⟩
  rintro x y (hxy | ⟨rfl, rfl⟩)
  · refine ⟨fun z hz => ?_, fun z hz => ?_⟩
    · obtain ⟨w, hw, hzw⟩ := hxy.sameLeaves.left z hz
      exact ⟨w, hw, hzw.mono fun _ _ => .inl⟩
    · obtain ⟨w, hw, hzw⟩ := hxy.sameLeaves.right z hz
      exact ⟨w, hw, hzw.mono fun _ _ => .inl⟩
  · refine ⟨fun z hz => ⟨y, leaf_empty hb, ?_⟩, fun z hz => ⟨x, leaf_empty ha, ?_⟩⟩
    · rw [eq_of_leaf ha hz]
      exact h.mono fun _ _ => .inl
    · rw [eq_of_leaf hb hz]
      exact h.mono fun _ _ => .inl

/-! ### Normal types -/

/-- The types have all their parts, functions take tuples, and unions are flat, have no case twice and never one case;
and no case of a union that has the head of another leads back to the union. -/
structure Normal (G : TypeGraph) (S : Ty → Prop) : Prop where
  supports : G.Supports S
  solid : ∀ v, ¬ S (.var v)
  present : ¬ S .absent
  calls : ∀ {k d c}, S (.node k) → G.get? k = some (.function d c) → ∃ e l fields, d = some e ∧
    G.get? e = some (.tuple l fields)
  flat : ∀ {k cases}, S (.node k) → G.get? k = some (.union cases) → ∀ c ∈ cases, G.head? c ≠ some .union
  apart : ∀ {k cases}, S (.node k) → G.get? k = some (.union cases) → cases.Pairwise fun a b => ¬ G.Alike a b
  several : ∀ {k cases}, S (.node k) → G.get? k = some (.union cases) → cases.length ≠ 1
  loose : ∀ {k cases x y}, S (.node k) → G.get? k = some (.union cases) → .node x ∈ cases → .node y ∈ cases → x ≠ y →
    G.head? (.node x) = G.head? (.node y) → ¬ empty.LeadsTo G x k

theorem encloses_empty : empty.Encloses G i j ↔ ∃ x, G.get? i = some x ∧ x.Refers j := by
  unfold Encloses contents
  simp only [lookup_empty, exists_eq_right]
  constructor
  · intro h
    split at h
    · next d c hget =>
      refine ⟨_, hget, ?_⟩
      rcases mem_cons.mp h with h | h
      · cases h
        exact .inr ⟨c, rfl⟩
      · exact .inl h
    · next hget => exact ⟨_, hget, .inl h⟩
    · cases h
  · rintro ⟨x, hx, hj | ⟨c, rfl⟩⟩
    · simp only [hx]
      cases x with
      | function d c =>
        cases d with
        | none => exact hj
        | some d => exact mem_cons_of_mem _ hj
      | _ => exact hj
    · simp [hx]

theorem Supports.leadsTo (hS : G.Supports S) (hi : S (.node i)) (h : empty.LeadsTo G i j) : S (.node j) := by
  induction h with
  | refl => exact hi
  | tail _ hstep ih =>
    obtain ⟨x, hx, hj | ⟨c, rfl⟩⟩ := encloses_empty.mp hstep
    · exact hS.parts ih hx hj
    · obtain ⟨d, hd, hSd⟩ := hS.domain ih hx
      cases hd
      exact hSd

theorem Supports.reach (hS : G.Supports S) (a b : Ty) :
    G.Supports fun c => S c ∧ ∀ j, c = .node j → ∃ i, (a = .node i ∨ b = .node i) ∧ empty.LeadsTo G i j where
  node hk := hS.node hk.1
  parts {k x t} hk hx ht := by
    refine ⟨hS.parts hk.1 hx ht, fun j hj => ?_⟩
    obtain ⟨i, hi, hlead⟩ := hk.2 k rfl
    exact ⟨i, hi, hlead.tail (encloses_empty.mpr ⟨x, hx, .inl (hj ▸ ht)⟩)⟩
  domain {k d c} hk hx := by
    obtain ⟨d, rfl, hd⟩ := hS.domain hk.1 hx
    refine ⟨d, rfl, hd, fun j hj => ?_⟩
    obtain ⟨i, hi, hlead⟩ := hk.2 k rfl
    cases hj
    exact ⟨i, hi, hlead.tail (encloses_empty.mpr ⟨_, hx, .inr ⟨c, rfl⟩⟩)⟩

namespace Normal

theorem leaf_of_union (hG : G.Normal S) {cases : List Ty} (hk : S (.node k)) (hget : G.get? k = some (.union cases)) :
    empty.Leaf G (.node k) x ↔ x ∈ cases := by
  rw [leaf_union_iff hget]
  constructor
  · rintro ⟨c, hc, rest⟩
    rwa [eq_of_leaf (hG.flat hk hget c hc) rest]
  · intro hx
    exact ⟨x, hx, leaf_empty (hG.flat hk hget x hx)⟩

theorem alike_of_unmixed (hG : G.Normal S) (hT : G.Supports T) (hTS : ∀ a, T a → S a)
    (hmixed : ∀ {k cases b}, T (.node k) → G.get? k = some (.union cases) → T b → G.head? b ≠ some .union →
    ¬ G.Synonymous (.node k) b) (ha : T a) (hb : T b) (h : G.Synonymous a b) : G.Alike a b := by
  refine ⟨fun a b => G.Synonymous a b ∧ T a ∧ T b, ?_, h, ha, hb⟩
  rintro a b ⟨hab, ha, hb⟩
  have hwithin : SameHead G G.Synonymous a b → SameHead G (fun a b => G.Synonymous a b ∧ T a ∧ T b) a b :=
    hT.sameHead (fun _ _ _ h => h) ha hb
  by_cases hua : G.head? a = some .union <;> by_cases hub : G.head? b = some .union
  · -- two unions: their cases are their leaf cases
    obtain ⟨k, cases, rfl, hk⟩ := union_of_head hua
    obtain ⟨k', cases', rfl, hk'⟩ := union_of_head hub
    have hleaf := fun {x} => hG.leaf_of_union (x := x) (hTS _ ha) hk
    have hleaf' := fun {x} => hG.leaf_of_union (x := x) (hTS _ hb) hk'
    refine hwithin (.union hk hk' (fun c hc => ?_) fun c' hc' => ?_)
    · obtain ⟨c', hc', hcc⟩ := hab.sameLeaves.left c (hleaf.mpr hc)
      exact ⟨c', hleaf'.mp hc', .of_sameHead (hG.flat (hTS _ ha) hk c hc) hcc⟩
    · obtain ⟨c, hc, hcc⟩ := hab.sameLeaves.right c' (hleaf'.mpr hc')
      exact ⟨c, hleaf.mp hc, .of_sameHead (hG.flat (hTS _ ha) hk c (hleaf.mp hc)) hcc⟩
  · obtain ⟨k, cases, rfl, hk⟩ := union_of_head hua
    exact absurd hab (hmixed ha hk hb hub)
  · obtain ⟨k, cases, rfl, hk⟩ := union_of_head hub
    exact absurd hab.symm (hmixed hb hk ha hua)
  · obtain ⟨y, hy, hay⟩ := hab.sameLeaves.left a (leaf_empty hua)
    rw [eq_of_leaf hub hy] at hay
    exact hwithin hay

/-- If a union is synonymous to a type that is none, then so is a union that it leads to and that does not lead back to
it. -/
theorem exists_mixed (hG : G.Normal S) {cases : List Ty} (hk : S (.node k)) (hget : G.get? k = some (.union cases))
    (hub : G.head? b ≠ some .union) (h : G.Synonymous (.node k) b) :
    ∃ k' cases' b', S (.node k') ∧ G.get? k' = some (.union cases') ∧ S b' ∧ G.head? b' ≠ some .union ∧
    G.Synonymous (.node k') b' ∧ empty.LeadsTo G k k' ∧ ¬ empty.LeadsTo G k' k := by
  have hcase : ∀ c ∈ cases, SameHead G G.Synonymous c b := fun c hc => by
    obtain ⟨y, hy, hcy⟩ := h.sameLeaves.left c ((hG.leaf_of_union hk hget).mpr hc)
    rwa [eq_of_leaf hub hy] at hcy
  -- the union has two cases, which have the head of the other type both
  obtain ⟨c, c', hc, hc', hne⟩ : ∃ c c', c ∈ cases ∧ c' ∈ cases ∧ ¬ G.Alike c c' := by
    obtain ⟨x, hx, -⟩ := h.sameLeaves.right b (leaf_empty hub)
    rw [hG.leaf_of_union hk hget] at hx
    match cases, hx, hG.several hk hget, hG.apart hk hget with
    | c :: c' :: _, _, _, hapart => exact ⟨c, c', by simp, by simp, (pairwise_cons.mp hapart).1 c' (by simp)⟩
    | [_], _, hone, _ => exact absurd rfl hone
  have hhead : SameHead G G.Synonymous c c' := (hcase c hc).comp (fun _ _ _ h h' => h.trans h')
      ((hcase c' hc').symm fun _ _ h => h.symm)
  have hsyn : G.Synonymous c c' := .of_sameHead (hG.flat hk hget c hc) hhead
  -- so something that the two lead to is a union and synonymous to a type that is none
  by_contra hnone
  refine hne (hG.alike_of_unmixed (hG.supports.reach c c') (fun _ h => h.1)
    (fun {k' cases' b'} hk' hget' hb' hub' hsyn' => ?_)
    ⟨hG.supports.parts hk hget hc, fun j hj => ⟨j, .inl hj, .refl⟩⟩ ⟨hG.supports.parts hk hget hc',
    fun j hj => ⟨j, .inr hj, .refl⟩⟩ hsyn)
  obtain ⟨x, hx, hlead⟩ := hk'.2 k' rfl
  obtain ⟨y, y', rfl, rfl⟩ : ∃ y y', c = .node y ∧ c' = .node y' := by
    cases hhead with
    | leaf hleaf => exact absurd (hx.elim id id) (hleaf x)
    | _ => exact ⟨_, _, rfl, rfl⟩
  have hyy : y ≠ y' := by
    rintro rfl
    exact hne (.self hG.supports (hG.supports.parts hk hget hc))
  have hloose : ¬ empty.LeadsTo G x k := by
    rcases hx with hx | hx
    · cases hx
      exact hG.loose hk hget hc hc' hyy (head?_of_sameHead hhead)
    · cases hx
      exact hG.loose hk hget hc' hc hyy.symm (head?_of_sameHead hhead).symm
  refine hnone ⟨k', cases', b', hk'.1, hget', hb'.1, hub', hsyn', .head (encloses_empty.mpr ⟨_, hget, .inl ?_⟩) hlead,
    fun hback => hloose (hlead.trans hback)⟩
  rcases hx with hx | hx
  · exact hx ▸ hc
  · exact hx ▸ hc'

/-- A union is not synonymous to a type that is none. The induction is on what the union leads to without a way back. -/
theorem not_synonymous (hG : G.Normal S) {cases : List Ty} (hk : S (.node k)) (hget : G.get? k = some (.union cases))
    (hub : G.head? b ≠ some .union) : ¬ G.Synonymous (.node k) b := by
  have hwf : WellFounded fun i j : Fin G.size => empty.LeadsTo G j i ∧ ¬ empty.LeadsTo G i j :=
    @Finite.wellFounded_of_trans_of_irrefl _ _ _ ⟨fun i j l hij hjl =>
      ⟨hjl.1.trans hij.1, fun hil => hij.2 (hil.trans hjl.1)⟩⟩ ⟨fun i hi => hi.2 hi.1⟩
  suffices hall : ∀ i : Fin G.size, ∀ cases b, S (.node i) → G.get? i = some (.union cases) → G.head? b ≠ some .union →
      ¬ G.Synonymous (.node i) b from hall ⟨k, lt_size_of_get? hget⟩ cases b hk hget hub
  intro i
  induction i using hwf.induction with
  | _ i ih =>
    intro cases b hk hget hub h
    obtain ⟨k', cases', b', hk', hget', -, hub', h', hlead, hback⟩ := hG.exists_mixed hk hget hub h
    exact ih ⟨k', lt_size_of_get? hget'⟩ ⟨hlead, hback⟩ cases' b' hk' hget' hub' h'

/-- **Normal forms are unique.** Normal types that stand for the same are alike. -/
protected theorem alike (hG : G.Normal S) (ha : S a) (hb : S b) (h : G.Synonymous a b) : G.Alike a b :=
  hG.alike_of_unmixed hG.supports (fun _ => id) (fun hk hget _ => hG.not_synonymous hk hget) ha hb h

end Normal

end TypeGraph

/-! ### Types of a table and types of a graph -/

namespace Substitution

variable {σ τ : Substitution} {g G' : TypeGraph} {D : NodeId → Prop} {R' : Ty → Ty → Prop} {t u : Ty}

theorem sameHead_of_shows (h : Shows g G R x a) (h' : Shows g G R' x b) :
    SameHead G (fun a b => ∃ t, R t a ∧ R' t b) a b := by
  cases h with
  | metatype hi hk h =>
    obtain ⟨k', b, rfl, hk', h'⟩ := h'.of_metatype hi
    exact .metatype hk hk' ⟨_, h, h'⟩
  | function hi hk domain codomain =>
    obtain ⟨d', k', e, b, hd, rfl, hk', domain', codomain'⟩ := h'.of_function hi
    cases hd
    exact .function hk hk' ⟨_, domain, domain'⟩ ⟨_, codomain, codomain'⟩
  | tuple hi hk fields =>
    obtain ⟨k', fs', rfl, hk', fields'⟩ := h'.of_tuple hi
    exact .tuple hk hk' (forall₂_comp (fun f f' f'' h h' => ⟨h.1.symm.trans h'.1, _, h.2, h'.2⟩) fields.flip fields')
  | absent => cases h' with | absent => exact .leaf (by simp)
  | var => cases h' with | var => exact .leaf (by simp)
  | error => cases h' with | error => exact .leaf (by simp)
  | scalar => cases h' with | scalar => exact .leaf (by simp)

theorem Denotes.synonymous (h : σ.Denotes g G t a) (h' : σ.Denotes g G t b) : G.Synonymous a b := by
  obtain ⟨R, hR, hta⟩ := h
  obtain ⟨R', hR', htb⟩ := h'
  refine ⟨fun a b => ∃ t, R t a ∧ R' t b, ?_, t, hta, htb⟩
  rintro a b ⟨t, hta, htb⟩
  refine ⟨fun y hy => ?_, fun z hz => ?_⟩
  · obtain ⟨x, hx, hxy⟩ := (hR t a hta).2 y hy
    obtain ⟨z, hz, hxz⟩ := (hR' t b htb).1 x hx
    exact ⟨z, hz, sameHead_of_shows hxy hxz⟩
  · obtain ⟨x, hx, hxz⟩ := (hR' t b htb).2 z hz
    obtain ⟨y, hy, hxy⟩ := (hR t a hta).1 x hx
    exact ⟨y, hy, sameHead_of_shows hxy hxz⟩

/-- Leaf cases depend on what types of a set resolve to only, if cases of these are in the set. -/
theorem Leaf.transfer (hcases : ∀ {a cases}, S a → G.unionCases? (σ.lookup a) = some cases → ∀ c ∈ cases, S c)
    (hsame : ∀ {a}, S a → τ.lookup a = σ.lookup a ∧ G'.unionCases? (τ.lookup a) = G.unionCases? (σ.lookup a))
    (h : σ.Leaf G a y) (ha : S a) : τ.Leaf G' a y := by
  induction h with
  | @self a hnot =>
    rw [← (hsame ha).1]
    refine .self fun hunion => hnot ?_
    obtain ⟨cases, hunion⟩ := hunion
    exact ⟨cases, (hsame ha).2 ▸ hunion⟩
  | case hunion hc _ ih => exact .case ((hsame ha).2.trans hunion) hc (ih (hcases ha hunion _ hc))

/-- Where no variables are met, leaf cases do not depend on the table, nor on the rest of the graph. -/
theorem leaf_of_supports (hS : G.Supports S) (hsolid : ∀ v, ¬ S (.var v))
    (hG' : ∀ i x, S (.node i) → G.get? i = some x → G'.get? i = some x) (ha : S a) :
    τ.Leaf G' a y ↔ empty.Leaf G a y := by
  have hlookup : ∀ {a}, S a → τ.lookup a = a := fun {a} ha => by
    cases a with
    | var v => exact absurd ha (hsolid v)
    | _ => rfl
  have hunion : ∀ {a}, S a → G'.unionCases? a = G.unionCases? a := fun {a} ha => by
    cases a with
    | node k =>
      obtain ⟨x, hx⟩ := exists_get_of_lt (hS.node ha)
      simp [TypeGraph.unionCases?, get?_of_get hx, hG' k x ha (get?_of_get hx)]
    | _ => rfl
  have hcases : ∀ {a cases}, S a → G.unionCases? a = some cases → ∀ c ∈ cases, S c := fun {a cases} ha h c hc => by
    obtain ⟨k, rfl, hk⟩ := unionCases?_eq_some.mp h
    exact hS.parts ha hk hc
  constructor
  · intro h
    refine h.transfer (fun ha h => hcases ha ?_) (fun ha => ?_) ha
    · rwa [hlookup ha, hunion ha] at h
    · rw [lookup_empty, hlookup ha, hunion ha]
      exact ⟨rfl, rfl⟩
  · intro h
    refine h.transfer (fun ha h => hcases ha ?_) (fun ha => ?_) ha
    · rwa [lookup_empty] at h
    · rw [lookup_empty, hlookup ha, hunion ha]
      exact ⟨rfl, rfl⟩

theorem encloses_of_supports (hS : G.Supports S) (hsolid : ∀ v, ¬ S (.var v))
    (hG' : ∀ i x, S (.node i) → G.get? i = some x → G'.get? i = some x) (hi : S (.node i)) (h : τ.Encloses G' i j) :
    empty.Encloses G i j := by
  obtain ⟨u, hu, hj⟩ := h
  obtain ⟨x, hx⟩ := exists_get_of_lt (hS.node hi)
  replace hx := get?_of_get hx
  have hlookup : S u → u = .node j := fun hSu => by
    cases u with
    | var v => exact absurd hSu (hsolid v)
    | _ => exact hj
  rw [TypeGraph.encloses_empty]
  refine ⟨x, hx, ?_⟩
  simp only [contents, lookup_node, hG' i x hi hx] at hu
  split at hu
  · next d c heq =>
    cases heq
    rcases mem_cons.mp hu with rfl | hu
    · cases (lookup_node d).symm.trans hj
      exact .inr ⟨c, rfl⟩
    · exact .inl (hlookup (hS.parts hi hx hu) ▸ hu)
  · next heq =>
    cases heq
    exact .inl (hlookup (hS.parts hi hx hu) ▸ hu)
  · cases hu

theorem leadsTo_of_supports (hS : G.Supports S) (hsolid : ∀ v, ¬ S (.var v))
    (hG' : ∀ i x, S (.node i) → G.get? i = some x → G'.get? i = some x) (hi : S (.node i)) (h : τ.LeadsTo G' i j) :
    empty.LeadsTo G i j := by
  induction h with
  | refl => exact .refl
  | tail _ hstep ih => exact ih.tail (encloses_of_supports hS hsolid hG' (hS.leadsTo hi ih) hstep)

theorem mem_of_leaf (hS : G.Supports S) (ha : S a) (h : empty.Leaf G a y) : S y := by
  induction h with
  | self => rwa [lookup_empty]
  | case hcases hc _ ih =>
    obtain ⟨k, hk, hget⟩ := unionCases?_eq_some.mp hcases
    rw [lookup_empty] at hk
    exact ih (hS.parts (hk ▸ ha) hget hc)

/-- What shows a type shows it in every graph with the same nodes, and with types of the set for parts. -/
theorem shows_of_supports (hS : G.Supports S) (hG' : ∀ i x, S (.node i) → G.get? i = some x → G'.get? i = some x)
    (ha : S a) (h : Shows g G R x a) : Shows g G' (fun t a => R t a ∧ S a) x a := by
  cases h with
  | absent => exact .absent
  | var v => exact .var v
  | error => exact .error
  | scalar b => exact .scalar b
  | metatype hi hk h => exact .metatype hi (hG' _ _ ha hk) ⟨h, hS.parts ha hk (mem_singleton_self _)⟩
  | function hi hk domain codomain =>
    obtain ⟨d, hd, hSd⟩ := hS.domain ha hk
    cases hd
    exact .function hi (hG' _ _ ha hk) ⟨domain, hSd⟩ ⟨codomain, hS.parts ha hk (mem_singleton_self _)⟩
  | tuple hi hk fields =>
    refine .tuple hi (hG' _ _ ha hk) (forall₂_iff_get.mpr ⟨fields.length_eq, fun k h h' => ?_⟩)
    obtain ⟨hlabel, hparts⟩ := (forall₂_iff_get.mp fields).2 k h h'
    exact ⟨hlabel, hparts, hS.parts ha hk (mem_map_of_mem (get_mem _ _))⟩

theorem Denotes.transfer (h : σ.Denotes g G t a) (hS : G.Supports S) (hsolid : ∀ v, ¬ S (.var v))
    (hG' : ∀ i x, S (.node i) → G.get? i = some x → G'.get? i = some x) (ha : S a) : σ.Denotes g G' t a := by
  obtain ⟨R, hR, hta⟩ := h
  refine ⟨fun t a => R t a ∧ S a, ?_, hta, ha⟩
  rintro t a ⟨hta, ha⟩
  refine ⟨fun x hx => ?_, fun y hy => ?_⟩
  · obtain ⟨y, hy, hxy⟩ := (hR t a hta).1 x hx
    exact ⟨y, (leaf_of_supports hS hsolid hG' ha).mpr hy, shows_of_supports hS hG' (mem_of_leaf hS ha hy) hxy⟩
  · rw [leaf_of_supports hS hsolid hG' ha] at hy
    obtain ⟨x, hx, hxy⟩ := (hR t a hta).2 y hy
    exact ⟨x, hx, shows_of_supports hS hG' (mem_of_leaf hS ha hy) hxy⟩

theorem shows_comp {z : Ty} (h : Shows g G R x y) (h' : Shows G G' R' y z) :
    Shows g G' (fun t c => ∃ a, R t a ∧ R' a c) x z := by
  cases h with
  | absent => cases h' with | error => exact .absent
  | var v => cases h' with | error => exact .var v
  | error => cases h' with | error => exact .error
  | scalar b => cases h' with | scalar => exact .scalar b
  | metatype hi hk h =>
    obtain ⟨k', b, rfl, hk', h'⟩ := h'.of_metatype hk
    exact .metatype hi hk' ⟨_, h, h'⟩
  | function hi hk domain codomain =>
    obtain ⟨d', k', e, b, hd, rfl, hk', domain', codomain'⟩ := h'.of_function hk
    cases hd
    exact .function hi hk' ⟨_, domain, domain'⟩ ⟨_, codomain, codomain'⟩
  | tuple hi hk fields =>
    obtain ⟨k', fs', rfl, hk', fields'⟩ := h'.of_tuple hk
    exact .tuple hi hk' (forall₂_comp (fun f f' f'' h h' => ⟨h.1.trans h'.1, _, h.2, h'.2⟩) fields fields')

theorem Denotes.comp (h : σ.Denotes g G t a) (h' : τ.Denotes G G' a c) (hS : G.Supports S) (hsolid : ∀ v, ¬ S (.var v))
    (ha : S a) : σ.Denotes g G' t c := by
  obtain ⟨R, hR, hta⟩ := h
  obtain ⟨R', hR', hac⟩ := h'
  refine ⟨fun t c => ∃ a, (R t a ∧ S a) ∧ R' a c, ?_, a, ⟨hta, ha⟩, hac⟩
  rintro t c ⟨a, ⟨hta, ha⟩, hac⟩
  refine ⟨fun x hx => ?_, fun z hz => ?_⟩
  · obtain ⟨y, hy, hxy⟩ := (hR t a hta).1 x hx
    obtain ⟨z, hz, hyz⟩ := (hR' a c hac).1 y ((leaf_of_supports hS hsolid (fun _ _ _ h => h) ha).mpr hy)
    exact ⟨z, hz, shows_comp (shows_of_supports hS (fun _ _ _ h => h) (mem_of_leaf hS ha hy) hxy) hyz⟩
  · obtain ⟨y, hy, hyz⟩ := (hR' a c hac).2 z hz
    rw [leaf_of_supports hS hsolid (fun _ _ _ h => h) ha] at hy
    obtain ⟨x, hx, hxy⟩ := (hR t a hta).2 y hy
    exact ⟨x, hx, shows_comp (shows_of_supports hS (fun _ _ _ h => h) (mem_of_leaf hS ha hy) hxy) hyz⟩

theorem Denotes.step (h : σ.Denotes g G t a) : σ.CoveredBy g G (σ.Denotes g G) t a ∧
    σ.Covers g G (σ.Denotes g G) t a := by
  obtain ⟨R, hR, hta⟩ := h
  have hle : ∀ {x y}, Shows g G R x y → Shows g G (σ.Denotes g G) x y := fun h =>
      h.mono (fun t a hta => ⟨R, hR, hta⟩) fun _ _ _ h => h
  refine ⟨fun x hx => ?_, fun y hy => ?_⟩
  · obtain ⟨y, hy, hxy⟩ := (hR t a hta).1 x hx
    exact ⟨y, hy, hle hxy⟩
  · obtain ⟨x, hx, hxy⟩ := (hR t a hta).2 y hy
    exact ⟨x, hx, hle hxy⟩

theorem Denotes.of_step (h : σ.CoveredBy g G (σ.Denotes g G) t a) (h' : σ.Covers g G (σ.Denotes g G) t a) :
    σ.Denotes g G t a := by
  have hle : ∀ {x y}, Shows g G (σ.Denotes g G) x y →
      Shows g G (fun u b => σ.Denotes g G u b ∨ u = t ∧ b = a) x y := fun h =>
    h.mono (fun _ _ => .inl) fun _ _ _ h => h
  have hstep : ∀ {u b}, σ.CoveredBy g G (σ.Denotes g G) u b ∧ σ.Covers g G (σ.Denotes g G) u b →
      σ.CoveredBy g G (fun u b => σ.Denotes g G u b ∨ u = t ∧ b = a) u b ∧
      σ.Covers g G (fun u b => σ.Denotes g G u b ∨ u = t ∧ b = a) u b := by
    rintro u b ⟨hleft, hright⟩
    refine ⟨fun x hx => ?_, fun y hy => ?_⟩
    · obtain ⟨y, hy, hxy⟩ := hleft x hx
      exact ⟨y, hy, hle hxy⟩
    · obtain ⟨x, hx, hxy⟩ := hright y hy
      exact ⟨x, hx, hle hxy⟩
  refine ⟨fun u b => σ.Denotes g G u b ∨ u = t ∧ b = a, ?_, .inr ⟨rfl, rfl⟩⟩
  rintro u b (hub | ⟨rfl, rfl⟩)
  · exact hstep hub.step
  · exact hstep ⟨h, h'⟩

theorem Denotes.of_leaves (h : σ.Denotes g G t a) (hab : ∀ y, empty.Leaf G a y ↔ empty.Leaf G b y) :
    σ.Denotes g G t b := by
  refine .of_step (fun x hx => ?_) fun y hy => h.step.2 y ((hab y).mpr hy)
  obtain ⟨y, hy, hxy⟩ := h.step.1 x hx
  exact ⟨y, (hab y).mp hy, hxy⟩

theorem leaf_of_var {v : Int} (ht : σ.lookup t = .var v) : σ.Leaf g t x ↔ x = .var v := by
  have hnot : ¬ σ.IsUnion g t := not_isUnion_of_leaf (by simp [ht])
  constructor
  · intro h
    exact (h.isUnion_or.resolve_left hnot).trans ht
  · rintro rfl
    exact ht ▸ Leaf.self hnot

theorem Denotes.congr (h : σ.Denotes g G t a)
    (htu : σ.lookup t = σ.lookup u ∨ ∃ v w, σ.lookup t = .var v ∧ σ.lookup u = .var w) : σ.Denotes g G u a := by
  rcases htu with heq | ⟨v, w, hv, hw⟩
  · refine .of_step (fun x hx => h.step.1 x (hx.congr heq.symm)) fun y hy => ?_
    obtain ⟨x, hx, hxy⟩ := h.step.2 y hy
    exact ⟨x, hx.congr heq, hxy⟩
  · -- what is unknown reads as the error type
    refine .of_step (fun x hx => ?_) fun y hy => ?_
    · obtain ⟨y, hy, hxy⟩ := h.step.1 _ ((leaf_of_var hv).mpr rfl)
      cases (leaf_of_var hw).mp hx
      cases hxy with
      | var => exact ⟨_, hy, .var w⟩
    · obtain ⟨x, hx, hxy⟩ := h.step.2 y hy
      cases (leaf_of_var hv).mp hx
      cases hxy with
      | var => exact ⟨_, (leaf_of_var hw).mpr rfl, .var w⟩

/-! ### What reification makes is normal -/

/-- A union that leads back to itself stands for a single case. -/
def Solitary (σ : Substitution) (g : TypeGraph) (D : NodeId → Prop) : Prop :=
  ∃ u, D u ∧ σ.IsUnion g (.node u) ∧ σ.LeadsOn g u u ∧ ∃ (G : TypeGraph) (a : Ty), G.head? a ≠ some .union ∧
    σ.Denotes g G (.node u) a

variable {st : ReifyState} {n : Nat} {origin : NodeId → NodeId}

namespace ReifyState.AtRest

theorem supports (h : st.AtRest σ g D n origin) : st.graph.Supports fun a => ∃ t, st.Image σ t a where
  node hk := by
    obtain ⟨t, ht⟩ := hk
    obtain ⟨-, -, -, hlt, -⟩ := h.traced.image_node ht
    exact hlt
  parts {k x a} hk hx ha := by
    obtain ⟨t, ht⟩ := hk
    obtain ⟨-, -, hbase, -⟩ := h.traced.image_node ht
    cases pictures_of_traced h.traced hbase hx with
    | metatype _ hof =>
      cases mem_singleton.mp ha
      exact ⟨_, hof.resolve_right And.right⟩
    | function _ _ codomain =>
      cases mem_singleton.mp ha
      exact ⟨_, codomain.resolve_right And.right⟩
    | tuple _ fields =>
      obtain ⟨f', hf', rfl⟩ := mem_map.mp ha
      obtain ⟨f, -, hf⟩ := exists_of_forall₂ fields hf'
      exact ⟨_, (hf.resolve_right And.right).2⟩
    | union _ cases =>
      obtain ⟨_, _, t, _, _, _, ht⟩ := cases a ha
      exact ⟨t, ht⟩
  domain {k d c} hk hx := by
    obtain ⟨t, ht⟩ := hk
    obtain ⟨-, -, hbase, -⟩ := h.traced.image_node ht
    cases pictures_of_traced h.traced hbase hx with
    | function _ domain _ =>
      obtain ⟨e, rfl, he⟩ := domain.resolve_right And.right
      exact ⟨e, rfl, _, he⟩

theorem tuple_of_image (h : st.AtRest σ g D n origin) {l : String} {fields : List TupleField}
    (hi : g.get? i = some (.tuple l fields)) (ha : st.Image σ (.node i) (.node k)) :
    ∃ l' fields', st.graph.get? k = some (.tuple l' fields') := by
  obtain ⟨j, hj, hbase, hlt, hcases⟩ := h.traced.image_node ha
  cases (lookup_node i).symm.trans hj
  have horigin : i = origin k := by
    rcases hcases.cases_head with heq | ⟨_, ⟨cases, hget, -⟩, -⟩
    · exact heq
    · cases hi.symm.trans hget
  obtain ⟨x, hx⟩ := exists_get_of_lt hlt
  have hhead := head?_of_traced h.traced hbase hlt
  rw [← horigin] at hhead
  simp only [TypeGraph.head?, hi, get?_of_get hx, Option.map_some, Composite.head] at hhead
  cases x with
  | tuple l' fields' => exact ⟨l', fields', get?_of_get hx⟩
  | _ => cases hhead

theorem leadsTo_origin (h : st.AtRest σ g D n origin) (hi : n ≤ i) (hlead : empty.LeadsTo st.graph i j) :
    n ≤ j ∧ σ.LeadsTo g (origin i) (origin j) := by
  induction hlead with
  | refl => exact ⟨hi, .refl⟩
  | tail _ hstep ih =>
    obtain ⟨x, hx, hrefers⟩ := TypeGraph.encloses_empty.mp hstep
    obtain ⟨hbase, -, hlead⟩ := h.traced.leadsOn ih.1 hx hrefers
    exact ⟨hbase, ih.2.trans hlead.to_reflTransGen⟩

/-- A union that is a result and has one case leads back to itself, and stands for that case. -/
theorem solitary_of_one (h : st.AtRest σ g D n origin) (htangled : ¬ σ.Tangled g D) (ht : st.Image σ t (.node k))
    (hget : st.graph.get? k = some (.union [a])) (hflat : st.graph.head? a ≠ some .union) : σ.Solitary g D := by
  rcases image_iff.mp ht with ht | ⟨i, -, ht⟩
  · exact absurd rfl (ht.ne_node k)
  obtain ⟨hbase, hlt, -⟩ := h.traced.result_node ht
  have hresult := h.neat.whole ht
  have himage : st.Image σ (.node (origin k)) (.node k) := image_iff.mpr (.inr ⟨_, lookup_node _, hresult⟩)
  have hunion : σ.IsUnion g (.node (origin k)) :=
    isUnion_iff_head.mpr ((head?_of_traced h.traced hbase hlt).trans (by simp [TypeGraph.head?, hget, Composite.head]))
  refine ⟨origin k, (h.traced.born hbase hlt).1, hunion, h.neat.kept ⟨hbase, by simp⟩ hresult hget, st.graph,
    a, hflat, ?_⟩
  exact (h.denotes htangled himage).of_leaves fun y => by simp [leaf_union_iff hget]

theorem normal (h : st.AtRest σ g D n origin)
    (hdomain : ∀ i d c, D i → g.get? i = some (.function d c) → ∃ e l fields, d = some e ∧
    g.get? e = some (.tuple l fields)) (htangled : ¬ σ.Tangled g D) (hnested : ¬ σ.Nested g D)
    (hsolitary : ¬ σ.Solitary g D) : st.graph.Normal fun a => ∃ t, st.Image σ t a := by
  have hflat : ∀ {k cases}, n ≤ k → st.graph.get? k = some (.union cases) →
      ∀ c ∈ cases, st.graph.head? c ≠ some .union := by
    intro k cases hk hget c hc hunion
    obtain ⟨cases', hcases'⟩ := isUnion_empty.mpr hunion
    rw [lookup_empty, h.neat.flat hnested hk hget c hc] at hcases'
    cases hcases'
  have hnew : ∀ {k}, (∃ t, st.Image σ t (.node k)) → n ≤ k := fun hk => by
    obtain ⟨t, ht⟩ := hk
    obtain ⟨-, -, hle, -⟩ := h.traced.image_node ht
    exact hle
  refine ⟨h.supports, fun v hv => ?_, fun habsent => ?_, fun {k d c} hk hget => ?_, fun hk hget => hflat (hnew hk) hget,
    fun hk hget => ?_, fun {k cases} hk hget hone => ?_, fun {k cases x y} hk hget hx hy hne hhead hlead => ?_⟩
  · obtain ⟨t, ht⟩ := hv
    rcases h.traced.image_cases ht with h | ⟨_, h⟩ | ⟨_, h⟩ <;> cases h
  · obtain ⟨t, ht⟩ := habsent
    rcases h.traced.image_cases ht with h | ⟨_, h⟩ | ⟨_, h⟩ <;> cases h
  · have hbase := hnew hk
    cases pictures_of_traced h.traced hbase hget with
    | @function d _ _ _ hi domain _ =>
      obtain ⟨e, rfl, he⟩ := domain.resolve_right And.right
      obtain ⟨d', l, fields, hd, htuple⟩ := hdomain _ _ _ (h.traced.born hbase (lt_size_of_get? hget)).1 hi
      cases hd
      obtain ⟨l', fields', hget'⟩ := h.tuple_of_image htuple he
      exact ⟨e, l', fields', rfl, hget'⟩
  · refine (h.neat.apart htangled (hnew hk) hget).imp fun hapart halike => ?_
    rcases hapart with hhead | ⟨-, -, -, -, -, hnot⟩
    · exact hhead (head?_of_sameHead (TypeGraph.Alike.isBisimulation _ _ _ halike))
    · exact hnot halike
  · obtain ⟨a, rfl⟩ := length_eq_one_iff.mp hone
    obtain ⟨t, ht⟩ := hk
    exact hsolitary (h.solitary_of_one htangled ht hget (hflat (hnew ⟨t, ht⟩) hget a (mem_singleton_self a)))
  · have hbase := hnew hk
    have hlt := lt_size_of_get? hget
    cases pictures_of_traced h.traced hbase hget with
    | union _ hall =>
      obtain ⟨hx', hxlt, hxcase⟩ := h.traced.case_node (hall _ hx)
      obtain ⟨hy', hylt, hycase⟩ := h.traced.case_node (hall _ hy)
      -- a case of the union is no union, so it is not the union
      have hself : ∀ {z}, .node z ∈ cases → n ≤ z → z < st.graph.size →
          origin z ≠ origin k := fun {z} hz hz' hzlt heq => by
        obtain rfl := h.traced.distinct hz' hzlt hbase hlt heq
        exact hflat hbase hget _ hz (by simp [TypeGraph.head?, hget, Composite.head])
      refine htangled ⟨origin k, origin x, origin y, (h.traced.born hbase hlt).1,
        ⟨hxcase, hycase, hself hx hx' hxlt, hself hy hy' hylt, fun heq => hne (h.traced.distinct hx' hxlt hy' hylt heq),
        ?_⟩, (h.leadsTo_origin hx' hlead).2⟩
      rw [head?_of_traced h.traced hx' hxlt, head?_of_traced h.traced hy' hylt, hhead]

end ReifyState.AtRest

end Substitution

end TypeInference
