import TypeInference.Proofs.TableOrder

/-! # Unions in normal form

Two operations make unions. Reification makes flat ones without equal cases, unless unions lead back to each other
(`reified_unions_flat`). The union of a list of types keeps the first of every class of equal types, so it depends only
on which types are in the list, opened one level and up to equality (`TypeGraph.JoinOf.alike`): it is a join
(`union_is_join`). -/

namespace TypeInference

open Substitution
open List

variable {g g' G : TypeGraph} {ts us known cases cases' : List Ty} {t u r x : Ty}

/-! ### Unions that reification makes -/

/-- **Reified unions are flat.** In what a type is reified to, a union has a union for a case only if some union among
the cases of another one leads back to it, and it has two equal cases only if lookalikes of a union lead back to it. -/
theorem reified_unions_flat {g G : TypeGraph} {σ : Substitution} {t a : Ty} {k : NodeId} {cases : List Ty}
    (hclosed : g.Closed) (hσ : σ.Below g.size) (h : σ.reify g t = .ok (G, a)) (hk : empty.Reach G a k)
    (hget : G.get? k = some (.union cases)) : (¬ σ.Nested g (σ.Reach g t) → ∀ c ∈ cases, G.unionCases? c = none) ∧
      (¬ σ.Tangled g (σ.Reach g t) → cases.Pairwise fun b c => G.equal b c = .ok false) := by
  have hD := region_reach hclosed hσ (below_of_reify h)
  obtain ⟨-, hspec⟩ := reify_spec (P := fun _ => True) hD hclosed (TypeGraph.extends_refl g) (fun _ => trivial)
    (fun _ _ _ _ _ => .inr trivial) fun hj => ⟨_, hj, .refl⟩
  obtain ⟨st, origin, rfl, -, hrest, ha⟩ := hspec G a h
  obtain ⟨i, hi, hlead⟩ := hk
  rw [lookup_empty] at hi
  subst hi
  have hS := hrest.supports
  have hSk := hS.leadsTo ⟨t, ha⟩ hlead
  obtain ⟨u, hu⟩ := hSk
  obtain ⟨-, -, hbase, -⟩ := hrest.traced.image_node hu
  refine ⟨fun hnested => hrest.neat.flat hnested hbase hget, fun htangled => ?_⟩
  refine (hrest.neat.apart htangled hbase hget).imp_of_mem fun {b c} hb hc hapart => ?_
  have hb := hS.parts ⟨u, hu⟩ hget hb
  have hc := hS.parts ⟨u, hu⟩ hget hc
  obtain ⟨same, hsame⟩ := hS.equal_isOk hb hc
  cases same with
  | false => exact hsame
  | true =>
    have halike := hS.alike_of_equal hb hc hsame
    rcases hapart with hhead | ⟨-, -, -, -, -, hnot⟩
    · exact absurd (head?_of_sameHead (TypeGraph.Alike.isBisimulation _ _ _ halike)) hhead
    · exact absurd halike hnot

/-- Two unions that are cases of each other, side by side. -/
def knotGraph : TypeGraph :=
  ⟨#[.tuple "" [{ type := .node 1 }, { type := .node 2 }], .union [.node 2, .int], .union [.node 1, .bool]]⟩

/-- The second of the two is left with the first among its cases, because it was met while the first was under way. -/
theorem knotGraph_nested : knotGraph.Closed ∧ ¬ empty.Tangled knotGraph (empty.Reach knotGraph (.node 0)) ∧
    empty.Nested knotGraph (empty.Reach knotGraph (.node 0)) ∧
    ∃ G, empty.reify knotGraph (.node 0) = .ok (G, .node 3) ∧ G.get? 5 = some (.union [.node 4, .bool]) ∧
      G.get? 4 = some (.union [.bool, .int]) ∧ G.equal (.node 4) .bool = .ok false := by
  have hclosed : knotGraph.Closed := by decide
  have his : empty.isClosed knotGraph [0, 1, 2] = true := by decide
  have htangled := not_tangled his (by decide) (mem_of_reach his (t := .node 0) rfl (by decide))
  have hrun : (empty.reify knotGraph (.node 0)).toOption.map (fun r => (r.2, r.1.get? 3, r.1.get? 4, r.1.get? 5)) =
      some (.node 3, some (.tuple "" [{ type := .node 4 }, { type := .node 5 }]), some (.union [.bool, .int]),
        some (.union [.node 4, .bool])) := by
    decide +kernel
  obtain ⟨⟨G, a⟩, h, hG⟩ := exists_ok_of_toOption_map hrun
  simp only [Prod.mk.injEq] at hG
  obtain ⟨rfl, h3, h4, h5⟩ := hG
  have hreach : empty.Reach G (.node 3) 5 :=
    ⟨3, rfl, .single (TypeGraph.encloses_empty.mpr ⟨_, h3, .inl (by simp [Composite.parts])⟩)⟩
  obtain ⟨hflat, hapart⟩ := reified_unions_flat hclosed (by decide) h hreach h5
  refine ⟨hclosed, htangled, by_contra fun hnot => ?_, G, h, h5, h4, ?_⟩
  · have hcases := hflat hnot (.node 4) (by simp)
    simp [TypeGraph.unionCases?, h4] at hcases
  · exact (pairwise_cons.mp (hapart htangled)).1 .bool (by simp)

/-! ### Types of a larger graph -/

/-- Types of a graph without absent parts are alike in every larger graph if they are alike in it. -/
theorem alike_iff_of_extends (hclosed : g.Closed) (hcomplete : g.Complete) (hext : g.Extends G) (ht : t.Below g.size)
    (hu : u.Below g.size) : G.Alike t u ↔ g.Alike t u := by
  have hS := hclosed.supports hcomplete
  have hsame : ∀ i x, Ty.Below g.size (.node i) → g.get? i = some x → G.get? i = some x := fun i x _ hi => hext i x hi
  refine ⟨fun h => (hS.congr hsame).alike (fun i x hi hx => ?_) ht hu h, hS.alike hsame ht hu⟩
  obtain ⟨y, hy⟩ := exists_get_of_lt hi
  rw [← hx, hext i y (get?_of_get hy)]
  exact get?_of_get hy

namespace TypeGraph

/-! ### The first of every class -/

/-- The second list has the types of the first that equal none before them, where `before` came first. -/
inductive Firsts (g : TypeGraph) : List Ty → List Ty → List Ty → Prop where
  | nil {before : List Ty} : Firsts g before [] []
  | keep {before ts us : List Ty} {t : Ty} (h : ∀ u ∈ before, g.equal u t = .ok false)
      (rest : Firsts g (before ++ [t]) ts us) : Firsts g before (t :: ts) (t :: us)
  | drop {before ts us : List Ty} {t : Ty} (h : ∃ u ∈ before, g.equal u t = .ok true)
      (rest : Firsts g (before ++ [t]) ts us) : Firsts g before (t :: ts) us

variable {before : List Ty}

theorem Firsts.sublist (h : g.Firsts before ts us) : us.Sublist ts := by
  induction h with
  | nil => exact .slnil
  | keep _ _ ih => exact ih.cons_cons _
  | drop _ _ ih => exact ih.cons _

theorem Firsts.apart (h : g.Firsts before ts us) : us.Pairwise (fun u t => g.equal u t = .ok false) ∧
    ∀ u ∈ before, ∀ t ∈ us, g.equal u t = .ok false := by
  induction h with
  | nil => exact ⟨.nil, fun _ _ _ ht => absurd ht not_mem_nil⟩
  | keep h _ ih =>
    refine ⟨pairwise_cons.mpr ⟨fun t ht => ih.2 _ (by simp) t ht, ih.1⟩, fun u hu t ht => ?_⟩
    rcases mem_cons.mp ht with rfl | ht
    · exact h u hu
    · exact ih.2 u (mem_append_left _ hu) t ht
  | drop _ _ ih => exact ⟨ih.1, fun u hu => ih.2 u (mem_append_left _ hu)⟩

theorem distinctFrom_firsts (hclosed : g.Closed) (hcomplete : g.Complete) :
    ∀ (ts known before : List Ty), (∀ t ∈ ts, t.Below g.size) → (∀ t ∈ before, t.Below g.size) → known ⊆ before →
    (∀ t ∈ before, ∃ u ∈ known, g.Alike u t) → ∃ us, g.distinctFrom known ts = .ok (known ++ us) ∧
    g.Firsts before ts us ∧ ∀ t ∈ before ++ ts, ∃ u ∈ known ++ us, g.Alike u t
  | [], known, before, _, _, _, hknown => ⟨[], by simp [distinctFrom], .nil, by simpa using hknown⟩
  | t :: ts, known, before, hts, hbefore, hsub, hknown => by
    obtain ⟨ht, hts⟩ := forall_mem_cons.mp hts
    have hbefore' : ∀ u ∈ before ++ [t], u.Below g.size := forall_mem_append.mpr ⟨hbefore, forall_mem_singleton.mpr ht⟩
    have hcompare : ∀ u ∈ known, Gives (fun _ => True) (g.equal t u) := fun u hu =>
      (equal_isOk hclosed hcomplete ht (hbefore u (hsub hu))).imp fun _ h => ⟨h, trivial⟩
    obtain ⟨dup, hdup, -⟩ := Gives.anyM hcompare
    cases dup with
    | true =>
      obtain ⟨u, hu, hequal⟩ := mem_of_anyM hdup
      have halike := (alike_of_equal hclosed hcomplete ht (hbefore u (hsub hu)) hequal).symm
      obtain ⟨us, hus, hfirsts, hall⟩ := distinctFrom_firsts hclosed hcomplete ts known _ hts hbefore'
        (Subset.trans hsub (subset_append_left _ _))
        (forall_mem_append.mpr ⟨hknown, forall_mem_singleton.mpr ⟨u, hu, halike⟩⟩)
      refine ⟨us, ?_, .drop ⟨u, hsub hu, ?_⟩ hfirsts, by simpa using hall⟩
      · simp only [distinctFrom, hdup, ok_bind, if_true, hus]
      · exact (equal_eq_true_iff_alike hclosed hcomplete (hbefore u (hsub hu)) ht).mpr halike
    | false =>
      have hself : ∃ u ∈ known ++ [t], g.Alike u t := ⟨t, by simp, .refl hclosed hcomplete ht⟩
      have hknown' : ∀ u ∈ before, ∃ k ∈ known ++ [t], g.Alike k u := fun u hu =>
        (hknown u hu).imp fun _ h => ⟨mem_append_left _ h.1, h.2⟩
      obtain ⟨us, hus, hfirsts, hall⟩ := distinctFrom_firsts hclosed hcomplete ts (known ++ [t]) _ hts hbefore'
        (append_subset.mpr ⟨Subset.trans hsub (subset_append_left _ _), subset_append_right _ _⟩)
        (forall_mem_append.mpr ⟨hknown', forall_mem_singleton.mpr hself⟩)
      refine ⟨t :: us, ?_, .keep (fun u hu => ?_) hfirsts, by simpa using hall⟩
      · simp only [distinctFrom, hdup, ok_bind, Bool.false_eq_true, if_false, hus, append_assoc, singleton_append]
      · obtain ⟨k, hk, halike⟩ := hknown u hu
        obtain ⟨same, hsame⟩ := equal_isOk hclosed hcomplete (hbefore u hu) ht
        cases same with
        | false => exact hsame
        | true =>
          have hkt := halike.trans (alike_of_equal hclosed hcomplete (hbefore u hu) ht hsame)
          have htrue := (equal_eq_true_iff_alike hclosed hcomplete ht (hbefore k (hsub hk))).mpr hkt.symm
          cases htrue.symm.trans (forall_of_anyM_false hdup k hk)

/-! ### The union of a list -/

/-- Types of the graph, and no union among them has a union for a case. -/
structure Flat (g : TypeGraph) (ts : List Ty) : Prop where
  below : ∀ t ∈ ts, t.Below g.size
  cases : ∀ t ∈ ts, ∀ cs, g.unionCases? t = some cs → ∀ c ∈ cs, g.unionCases? c = none

/-- The type `r` of `g'` is the union of the types: it stands for the first of every class of equal types among them,
opened one level, either as the only one or as a union of these, which are no unions and of which no two are equal. -/
structure JoinOf (g : TypeGraph) (ts : List Ty) (g' : TypeGraph) (r : Ty) (cases : List Ty) : Prop where
  firsts : g.Firsts [] (g.openUnions ts) cases
  flat : ∀ c ∈ cases, g.unionCases? c = none
  apart : cases.Pairwise fun b c => g.equal b c = .ok false
  covers : ∀ t ∈ g.openUnions ts, ∃ c ∈ cases, g.equal c t = .ok true
  result : cases = [r] ∧ g' = g ∨ cases.length ≠ 1 ∧ g' = (g.add (.union cases)).1 ∧ r = .node g.size

theorem mem_openUnions : x ∈ g.openUnions ts ↔ ∃ t ∈ ts, (∃ cs, g.unionCases? t = some cs ∧ x ∈ cs) ∨
    g.unionCases? t = none ∧ x = t := by
  simp only [openUnions, mem_flatMap]
  refine exists_congr fun t => and_congr_right fun _ => ?_
  cases g.unionCases? t <;> simp

theorem openUnions_append : g.openUnions (ts ++ us) = g.openUnions ts ++ g.openUnions us := flatMap_append

namespace Flat

theorem subset (h : g.Flat ts) (hus : us ⊆ ts) : g.Flat us :=
  ⟨fun t ht => h.below t (hus ht), fun t ht => h.cases t (hus ht)⟩

theorem below_open (h : g.Flat ts) (hclosed : g.Closed) : ∀ x ∈ g.openUnions ts, x.Below g.size := by
  intro x hx
  obtain ⟨t, ht, ⟨cs, hcs, hx⟩ | ⟨-, rfl⟩⟩ := mem_openUnions.mp hx
  · exact hclosed.unionCases? hcs x hx
  · exact h.below x ht

theorem flat_open (h : g.Flat ts) : ∀ x ∈ g.openUnions ts, g.unionCases? x = none := by
  intro x hx
  obtain ⟨t, ht, ⟨cs, hcs, hx⟩ | ⟨hnone, rfl⟩⟩ := mem_openUnions.mp hx
  · exact h.cases t ht cs hcs x hx
  · exact hnone

theorem union_joinOf (h : g.Flat ts) (hclosed : g.Closed) (hcomplete : g.Complete) :
    ∃ g' r cases, g.union ts = .ok (g', r) ∧ g.JoinOf ts g' r cases := by
  have hbelow := h.below_open hclosed
  obtain ⟨cases, hcases, hfirsts, hall⟩ := distinctFrom_firsts hclosed hcomplete _ []
    [] hbelow (by simp) (by simp) (by simp)
  simp only [nil_append] at hcases hall
  have hsub := hfirsts.sublist.subset
  have hjoin : ∀ {g' r}, cases = [r] ∧ g' = g ∨ cases.length ≠ 1 ∧ g' = (g.add (.union cases)).1 ∧ r = .node g.size →
      g.JoinOf ts g' r cases := fun hresult =>
      ⟨hfirsts, fun c hc => h.flat_open c (hsub hc), hfirsts.apart.1, fun t ht => by
    obtain ⟨c, hc, halike⟩ := hall t ht
    exact ⟨c, hc, (equal_eq_true_iff_alike hclosed hcomplete (hbelow c (hsub hc)) (hbelow t ht)).mpr halike⟩, hresult⟩
  unfold union
  rw [hcases, ok_bind]
  rcases cases with - | ⟨r, - | ⟨c, cs⟩⟩
  · exact ⟨_, _, [], rfl, hjoin (.inr ⟨by simp, rfl, rfl⟩)⟩
  · exact ⟨g, r, [r], rfl, hjoin (.inl ⟨rfl, rfl⟩)⟩
  · exact ⟨_, _, _, rfl, hjoin (.inr ⟨by simp, rfl, rfl⟩)⟩

end Flat

theorem unionCases?_of_extends (hext : g.Extends G) (ht : t.Below g.size) : G.unionCases? t = g.unionCases? t := by
  cases t with
  | node i =>
    obtain ⟨x, hx⟩ := exists_get_of_lt ht
    simp only [unionCases?, get?_of_get hx, hext i x (get?_of_get hx)]
  | _ => rfl

theorem openUnions_of_extends (hext : g.Extends G) (hts : ∀ t ∈ ts, t.Below g.size) :
    G.openUnions ts = g.openUnions ts :=
  flatMap_congr fun t ht => by rw [unionCases?_of_extends hext (hts t ht)]

theorem Flat.of_extends (h : g.Flat ts) (hclosed : g.Closed) (hext : g.Extends G) : G.Flat ts where
  below t ht := (h.below t ht).mono hext.size_le
  cases t ht cs hcs c hc := by
    rw [unionCases?_of_extends hext (h.below t ht)] at hcs
    rw [unionCases?_of_extends hext (hclosed.unionCases? hcs c hc)]
    exact h.cases t ht cs hcs c hc

/-- Types with the same head and alike parts are alike. -/
theorem Alike.of_sameHead (h : SameHead g g.Alike t u) : g.Alike t u :=
  ⟨SameHead g g.Alike, fun _ _ h => h.mono (isBisimulation g), h⟩

namespace JoinOf

variable {g1 g2 : TypeGraph} {r' : Ty}

theorem grows (h : g.JoinOf ts g1 r cases) (hts : g.Flat ts) (hclosed : g.Closed) (hcomplete : g.Complete) :
    g.Extends g1 ∧ g1.Closed ∧ g1.Complete ∧ r.Below g1.size := by
  have hbelow : ∀ c ∈ cases, c.Below g.size := fun c hc => hts.below_open hclosed c (h.firsts.sublist.subset hc)
  rcases h.result with ⟨rfl, rfl⟩ | ⟨-, rfl, rfl⟩
  · exact ⟨extends_refl g1, hclosed, hcomplete, hbelow r (by simp)⟩
  · refine ⟨extends_add g _, hclosed.add ⟨hbelow, fun _ _ h => by cases h⟩, fun i c hi => ?_, by simp [Ty.Below]⟩
    rw [get?_add] at hi
    split at hi
    · cases hi
    · exact hcomplete i c hi

/-- A union is opened to the types that it stands for. -/
theorem openUnions_eq (h : g.JoinOf ts g1 r cases) : g1.openUnions [r] = cases := by
  rcases h.result with ⟨rfl, rfl⟩ | ⟨-, rfl, rfl⟩
  · simp [openUnions, h.flat r (by simp)]
  · simp [openUnions, unionCases?, get?_add]

theorem flat_result (h : g.JoinOf ts g1 r cases) (hts : g.Flat ts) (hclosed : g.Closed) (hcomplete : g.Complete) :
    g1.Flat [r] := by
  obtain ⟨hext, -, -, hr⟩ := h.grows hts hclosed hcomplete
  refine ⟨forall_mem_singleton.mpr hr, forall_mem_singleton.mpr fun cs hcs c hc => ?_⟩
  have hmem : c ∈ g1.openUnions [r] := mem_openUnions.mpr ⟨r, by simp, .inl ⟨cs, hcs, hc⟩⟩
  rw [h.openUnions_eq] at hmem
  rw [unionCases?_of_extends hext (hts.below_open hclosed c (h.firsts.sublist.subset hmem))]
  exact h.flat c hmem

/-- What is found equal among the types of the list is alike, before and after. -/
theorem alike_of_equal_open (h : g.JoinOf ts g1 r cases) (hts : g.Flat ts) (hclosed : g.Closed) (hcomplete : g.Complete)
    (ht : t ∈ g.openUnions ts) (hu : u ∈ g.openUnions ts) (hequal : g.equal t u = .ok true) : g1.Alike t u := by
  have ht := hts.below_open hclosed t ht
  have hu := hts.below_open hclosed u hu
  exact (alike_iff_of_extends hclosed hcomplete (h.grows hts hclosed hcomplete).1 ht hu).mpr
    (alike_of_equal hclosed hcomplete ht hu hequal)

/-- If the types of one list have counterparts in the other and no two of the other are alike, then the other has one
type if the one has. -/
theorem length_eq_one (hleft : ∀ b ∈ cases, ∃ c ∈ cases', g.Alike b c) (hright : ∀ c ∈ cases', ∃ b ∈ cases, g.Alike b c)
    (hapart : cases'.Pairwise fun b c => ¬ g.Alike b c) (h : cases.length = 1) : cases'.length = 1 := by
  obtain ⟨a, rfl⟩ := length_eq_one_iff.mp h
  simp only [mem_singleton, exists_eq_left] at hleft hright
  rcases cases' with - | ⟨b, - | ⟨c, cs⟩⟩
  · obtain ⟨c, hc, -⟩ := hleft a rfl
    cases hc
  · rfl
  · have hbc := (hright b (by simp)).symm.trans (hright c (by simp))
    exact absurd hbc ((pairwise_cons.mp hapart).1 c (by simp))

/-- Unions of lists with the same types, opened one level and up to equality, are equal. -/
theorem alike (h : g.JoinOf ts g1 r cases) (h' : g1.JoinOf us g2 r' cases') (hclosed : g.Closed)
    (hcomplete : g.Complete) (hts : g.Flat ts) (hus : g1.Flat us)
    (hleft : ∀ x ∈ g.openUnions ts, ∃ y ∈ g1.openUnions us, g1.Alike x y)
    (hright : ∀ y ∈ g1.openUnions us, ∃ x ∈ g.openUnions ts, g1.Alike x y) : g2.equal r r' = .ok true := by
  obtain ⟨hext, hclosed1, hcomplete1, hr⟩ := h.grows hts hclosed hcomplete
  obtain ⟨hext', hclosed2, hcomplete2, hr'⟩ := h'.grows hus hclosed1 hcomplete1
  have hbelow : ∀ c ∈ cases, c.Below g.size := fun c hc => hts.below_open hclosed c (h.firsts.sublist.subset hc)
  have hbelow' : ∀ c ∈ cases', c.Below g1.size := fun c hc => hus.below_open hclosed1 c (h'.firsts.sublist.subset hc)
  have hcover : ∀ b ∈ cases, ∃ c ∈ cases', g1.Alike b c := by
    intro b hb
    obtain ⟨y, hy, hby⟩ := hleft b (h.firsts.sublist.subset hb)
    obtain ⟨c, hc, hcy⟩ := h'.covers y hy
    exact ⟨c, hc, hby.trans (alike_of_equal hclosed1 hcomplete1 (hbelow' c hc) (hus.below_open hclosed1 y hy) hcy).symm⟩
  have hcover' : ∀ c ∈ cases', ∃ b ∈ cases, g1.Alike b c := by
    intro c hc
    obtain ⟨x, hx, hxc⟩ := hright c (h'.firsts.sublist.subset hc)
    obtain ⟨b, hb, hbx⟩ := h.covers x hx
    exact ⟨b, hb, (h.alike_of_equal_open hts hclosed hcomplete (h.firsts.sublist.subset hb) hx hbx).trans hxc⟩
  have hapart : cases.Pairwise fun b c => ¬ g1.Alike b c := h.apart.imp_of_mem fun {b c} hb hc hne halike => by
    rw [alike_iff_of_extends hclosed hcomplete hext (hbelow b hb) (hbelow c hc),
      ← equal_eq_true_iff_alike hclosed hcomplete (hbelow b hb) (hbelow c hc), hne] at halike
    cases halike
  have hapart' : cases'.Pairwise fun b c => ¬ g1.Alike b c := h'.apart.imp_of_mem fun {b c} hb hc hne halike => by
    rw [← equal_eq_true_iff_alike hclosed1 hcomplete1 (hbelow' b hb) (hbelow' c hc), hne] at halike
    cases halike
  have hlength : cases.length = 1 ↔ cases'.length = 1 := ⟨length_eq_one hcover hcover' hapart',
    length_eq_one (fun c hc => (hcover' c hc).imp fun _ hb => ⟨hb.1, hb.2.symm⟩)
      (fun b hb => (hcover b hb).imp fun _ hc => ⟨hc.1, hc.2.symm⟩) hapart⟩
  have hlift : ∀ {b c}, b.Below g1.size → c.Below g1.size → g1.Alike b c → g2.Alike b c := fun hb hc =>
    (alike_iff_of_extends hclosed1 hcomplete1 hext' hb hc).mpr
  refine (equal_eq_true_iff_alike hclosed2 hcomplete2 (hr.mono hext'.size_le) hr').mpr ?_
  rcases h.result, h'.result with ⟨⟨rfl, rfl⟩ | ⟨hne, rfl, rfl⟩, ⟨rfl, rfl⟩ | ⟨hne', rfl, rfl⟩⟩
  · simpa using hcover
  · exact absurd (hlength.mp rfl) hne'
  · exact absurd (hlength.mpr rfl) hne
  · refine .of_sameHead (.union (hext' _ _ (get?_add_self g (.union cases))) (get?_add_self _ (.union cases'))
      (fun b hb => ?_) fun c hc => ?_)
    · obtain ⟨c, hc, hbc⟩ := hcover b hb
      exact ⟨c, hc, hlift ((hbelow b hb).mono hext.size_le) (hbelow' c hc) hbc⟩
    · obtain ⟨b, hb, hbc⟩ := hcover' c hc
      exact ⟨b, hb, hlift ((hbelow b hb).mono hext.size_le) (hbelow' c hc) hbc⟩

end JoinOf

/-- The unions of the two lists are made one after the other, and they are equal. -/
def Unites (g : TypeGraph) (ts us : List Ty) : Prop :=
  ∃ g1 r g2 r', g.union ts = .ok (g1, r) ∧ g1.union us = .ok (g2, r') ∧ g2.equal r r' = .ok true

theorem unites_of_alike (hclosed : g.Closed) (hcomplete : g.Complete) (hts : g.Flat ts) (hus : g.Flat us)
    (hleft : ∀ x ∈ g.openUnions ts, ∃ y ∈ g.openUnions us, g.Alike x y)
    (hright : ∀ y ∈ g.openUnions us, ∃ x ∈ g.openUnions ts, g.Alike x y) : g.Unites ts us := by
  obtain ⟨g1, r, cases, hr, hjoin⟩ := hts.union_joinOf hclosed hcomplete
  obtain ⟨hext, hclosed1, hcomplete1, -⟩ := hjoin.grows hts hclosed hcomplete
  have hus1 := hus.of_extends hclosed hext
  obtain ⟨g2, r', cases', hr', hjoin'⟩ := hus1.union_joinOf hclosed1 hcomplete1
  have hopen := openUnions_of_extends hext hus.below
  have hlift : ∀ {x y}, x ∈ g.openUnions ts → y ∈ g.openUnions us → g.Alike x y → g1.Alike x y := fun hx hy =>
    (alike_iff_of_extends hclosed hcomplete hext (hts.below_open hclosed _ hx) (hus.below_open hclosed _ hy)).mpr
  refine ⟨g1, r, g2, r', hr, hr', hjoin.alike hjoin' hclosed hcomplete hts hus1 (fun x hx => ?_) fun y hy => ?_⟩
  · obtain ⟨y, hy, hxy⟩ := hleft x hx
    exact ⟨y, hopen ▸ hy, hlift hx hy hxy⟩
  · rw [hopen] at hy
    obtain ⟨x, hx, hxy⟩ := hright y hy
    exact ⟨x, hx, hlift hx hy hxy⟩

end TypeGraph

/-- **The union of a list is a join.** Over a graph without absent parts, for lists of types in which no union has a
union for a case: the union is made, and it stands for the first of every class of equal types in the list; permuting
the list, repeating a type of it, or putting the union of some of its types in their place gives an equal type; and the
union of the result alone equals the result. -/
theorem union_is_join (g : TypeGraph) (hclosed : g.Closed) (hcomplete : g.Complete) (ts : List Ty) (hts : g.Flat ts) :
    (∃ g' r cases, g.union ts = .ok (g', r) ∧ g.JoinOf ts g' r cases ∧
      ∃ g'' r', g'.union [r] = .ok (g'', r') ∧ g''.equal r r' = .ok true) ∧
    (∀ us, ts.Perm us → g.Unites ts us) ∧ (∀ t ∈ ts, ∀ us, us.Perm (t :: ts) → g.Unites ts us) ∧
    ∀ ys zs, ts.Perm (ys ++ zs) → ∃ g' r, g.union ys = .ok (g', r) ∧ ∀ us, us.Perm (r :: zs) → g'.Unites us ts := by
  have hsame : ∀ us, (∀ t, t ∈ us ↔ t ∈ ts) → g.Unites ts us := by
    intro us hmem
    have hopen : ∀ x, x ∈ g.openUnions us ↔
        x ∈ g.openUnions ts := fun x => by simp only [TypeGraph.mem_openUnions, hmem]
    have hself : ∀ x ∈ g.openUnions ts, g.Alike x x := fun x hx => .refl hclosed hcomplete (hts.below_open hclosed x hx)
    exact TypeGraph.unites_of_alike hclosed hcomplete hts (hts.subset fun t ht => (hmem t).mp ht)
      (fun x hx => ⟨x, (hopen x).mpr hx, hself x hx⟩) fun y hy => ⟨y, (hopen y).mp hy, hself y ((hopen y).mp hy)⟩
  refine ⟨?_, fun us hperm => hsame us fun t => hperm.mem_iff.symm, fun t ht us hperm => hsame us fun u => ?_,
    fun ys zs hperm => ?_⟩
  · obtain ⟨g1, r, cases, hr, hjoin⟩ := hts.union_joinOf hclosed hcomplete
    obtain ⟨hext, hclosed1, hcomplete1, -⟩ := hjoin.grows hts hclosed hcomplete
    have hflat := hjoin.flat_result hts hclosed hcomplete
    obtain ⟨g2, r', cases', hr', hjoin'⟩ := hflat.union_joinOf hclosed1 hcomplete1
    refine ⟨g1, r, cases, hr, hjoin, g2, r', hr',
      hjoin.alike hjoin' hclosed hcomplete hts hflat (fun x hx => ?_) fun y hy => ?_⟩
    · obtain ⟨c, hc, hcx⟩ := hjoin.covers x hx
      exact ⟨c, hjoin.openUnions_eq ▸ hc,
        (hjoin.alike_of_equal_open hts hclosed hcomplete (hjoin.firsts.sublist.subset hc) hx hcx).symm⟩
    · rw [hjoin.openUnions_eq] at hy
      have hy' := hjoin.firsts.sublist.subset hy
      exact ⟨y, hy', .refl hclosed1 hcomplete1 ((hts.below_open hclosed y hy').mono hext.size_le)⟩
  · rw [hperm.mem_iff, mem_cons, or_iff_right_iff_imp]
    exact fun hu => hu ▸ ht
  · have hys := hts.subset fun t ht => hperm.mem_iff.mpr (mem_append_left zs ht)
    obtain ⟨g1, r, cases, hr, hjoin⟩ := hys.union_joinOf hclosed hcomplete
    obtain ⟨hext, hclosed1, hcomplete1, -⟩ := hjoin.grows hys hclosed hcomplete
    have hflat := hjoin.flat_result hys hclosed hcomplete
    have hts1 := hts.of_extends hclosed hext
    have hzs := hts.subset fun t ht => hperm.mem_iff.mpr (mem_append_right ys ht)
    have hzs1 := hzs.of_extends hclosed hext
    have hrest : g1.Flat (r :: zs) := ⟨forall_mem_cons.mpr ⟨hflat.below r (by simp), hzs1.below⟩,
      forall_mem_cons.mpr ⟨hflat.cases r (by simp), hzs1.cases⟩⟩
    refine ⟨g1, r, hr, fun us hus => ?_⟩
    have hmem : ∀ x, x ∈ g1.openUnions us ↔ x ∈ cases ∨ x ∈ g.openUnions zs := fun x => by
      rw [← hjoin.openUnions_eq, ← TypeGraph.openUnions_of_extends hext hzs.below, ← mem_append,
        ← TypeGraph.openUnions_append]
      exact (hus.flatMap_right _).mem_iff
    have hmem' : ∀ x, x ∈ g1.openUnions ts ↔ x ∈ g.openUnions ys ∨ x ∈ g.openUnions zs := fun x => by
      rw [TypeGraph.openUnions_of_extends hext hts.below, ← mem_append, ← TypeGraph.openUnions_append]
      exact (hperm.flatMap_right _).mem_iff
    have hself : ∀ x ∈ g1.openUnions ts, g1.Alike x x := fun x hx =>
        .refl hclosed1 hcomplete1 (hts1.below_open hclosed1 x hx)
    refine TypeGraph.unites_of_alike hclosed1 hcomplete1 (hrest.subset fun t ht => hus.mem_iff.mp ht) hts1
      (fun x hx => ?_) fun y hy => ?_
    · have hx' := (hmem' x).mpr (((hmem x).mp hx).imp_left fun hc => hjoin.firsts.sublist.subset hc)
      exact ⟨x, hx', hself x hx'⟩
    · rcases (hmem' y).mp hy with hy' | hy'
      · obtain ⟨c, hc, hcy⟩ := hjoin.covers y hy'
        exact ⟨c, (hmem c).mpr (.inl hc), hjoin.alike_of_equal_open hys hclosed hcomplete
          (hjoin.firsts.sublist.subset hc) hy' hcy⟩
      · exact ⟨y, (hmem y).mpr (.inr hy'), hself y hy⟩

/-- Unions of loops of different lengths, in two orders and with one of them made first. -/
theorem loopGraph_unites : loopGraph.Closed ∧ loopGraph.Complete ∧ loopGraph.Flat [.node 4, .node 3, .bool] ∧
    (∃ g' r cases, loopGraph.union [.node 4, .node 3, .bool] = .ok (g', r) ∧
      loopGraph.JoinOf [.node 4, .node 3, .bool] g' r cases) ∧
    loopGraph.Unites [.node 4, .node 3, .bool] [.bool, .node 3, .node 4] ∧
    ∃ g' r, loopGraph.union [.node 4, .node 3] = .ok (g', r) ∧ g'.Unites [.bool, r] [.node 4, .node 3, .bool] := by
  have hclosed : loopGraph.Closed := by decide
  have hcomplete : loopGraph.Complete := by decide
  have hflat : loopGraph.Flat [.node 4, .node 3, .bool] := by
    refine ⟨by decide, ?_⟩
    simp only [forall_mem_cons]
    refine ⟨?_, ?_, ?_, by simp⟩ <;> intro cs hcs <;> cases hcs
    all_goals decide
  obtain ⟨⟨g', r, cases, hr, hjoin, -⟩, hperm, -, hgroup⟩ := union_is_join loopGraph hclosed hcomplete _ hflat
  obtain ⟨g1, r1, hr1, hrest⟩ := hgroup [.node 4, .node 3] [.bool] (.refl _)
  exact ⟨hclosed, hcomplete, hflat, ⟨g', r, cases, hr, hjoin⟩, hperm _ (by decide), g1, r1, hr1, hrest _ (.swap _ _ _)⟩

end TypeInference
