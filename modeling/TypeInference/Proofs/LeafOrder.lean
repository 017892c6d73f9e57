import TypeInference.Proofs.Equality

/-! # The order of leaf cases

Leaf cases come in the order in which a depth-first walk first visits them. Routes are compared position by position, so
this is the order of first routes: a leaf case stands for the types that equal it, and its route is the least one to any
of them (`FirstRoute`). -/

namespace TypeInference.Solver

open Substitution
open List

variable {g : TypeGraph} {s : Substitution} {R : List Nat → Ty → Prop} {P : Ty → Prop} {known : List Ty}
  {new : List (List Nat × Ty)}

/-- The route leads from the union to the type, and no route before it leads to a type that equals this one. -/
def FirstRoute (g : TypeGraph) (s : Substitution) (u : NodeId) (ps : List Nat) (y : Ty) : Prop :=
  s.Route g [] (.node u) ps y ∧ ∀ qs x, s.Route g [] (.node u) qs x → g.equal y x = .ok true → ps ≤ qs

theorem Walked.fresh (h : Walked g R known new) : ∀ e ∈ new, ∀ z ∈ known, g.equal z e.2 = .ok false := by
  induction h with
  | done _ => simp
  | found _ _ hnew _ ih => exact forall_mem_cons.mpr ⟨hnew, fun e he z hz => ih e he z (mem_append_left _ hz)⟩

theorem Walked.distinct (h : Walked g R known new) : (new.map Prod.snd).Pairwise fun x y =>
    g.equal x y = .ok false := by
  induction h with
  | done _ => exact .nil
  | found _ _ _ rest ih =>
    exact .cons (forall_mem_map.mpr fun e he => rest.fresh e he _ (by simp)) ih

/-- A leaf case that is added later has a later route: on an earlier one it would have been known. -/
theorem Walked.increasing (hR : ∀ ps x y, R ps x → R ps y → x = y) (h : Walked g R known new) :
    (new.map Prod.fst).Pairwise (· < ·) := by
  induction h with
  | done _ => exact .nil
  | @found known ps y new hy first _ rest ih =>
    refine .cons (forall_mem_map.mpr fun e he => ?_) ih
    have hfresh := rest.fresh e he
    rcases lt_trichotomy ps e.1 with hlt | heq | hlt
    · exact hlt
    · have hsame : y = e.2 := hR ps _ _ hy (heq ▸ rest.routes e he)
      have hself := hfresh y (by simp)
      rw [← hsame, equal_self] at hself
      cases hself
    · obtain ⟨z, hz, heq⟩ := first e.1 e.2 (rest.routes e he) hlt
      exact absurd ((hfresh z (mem_append_left _ hz)).symm.trans heq) (by simp)

theorem Walked.first (hP : ∀ ps x, R ps x → P x)
    (hequal : ∀ x y z, P x → P y → P z → g.equal z x = .ok true → g.equal y x = .ok true → g.equal z y = .ok true)
    (hknown : ∀ z ∈ known, P z) (h : Walked g R known new) :
    ∀ e ∈ new, ∀ qs x, R qs x → g.equal e.2 x = .ok true → e.1 ≤ qs := by
  induction h with
  | done _ => simp
  | found h first hnew _ ih =>
    refine forall_mem_cons.mpr ⟨fun qs x hx heq => not_lt.mp fun hlt => ?_, ih ?_⟩
    · obtain ⟨z, hz, hzx⟩ := first qs x hx hlt
      have htrue := hequal x _ z (hP qs x hx) (hP _ _ h) (hknown z hz) hzx heq
      exact absurd ((hnew z hz).symm.trans htrue) (by simp)
    · exact forall_mem_append.mpr ⟨hknown, forall_mem_singleton.mpr (hP _ _ h)⟩

theorem below_of_leaf {t x : Ty} (hclosed : g.Closed) (hs : s.Below g.size) (ht : t.Below g.size) (h : s.Leaf g t x) :
    x.Below g.size := by
  induction h with
  | self _ => exact hs.lookup ht
  | case hcases hc _ ih =>
    obtain ⟨i, -, hi⟩ := unionCases?_eq_some.mp hcases
    exact ih ((hclosed i _ hi).parts _ hc)

/-- **The leaf cases of a union.** In a graph whose composite types have all their parts, cyclic or not, and with a
table without a circle of variables, the walk to the leaf cases of a union ends. It finds no union and no bound
variable, no two equal types, leaf cases only, and up to equality every leaf case, by increasing first routes. -/
theorem leafCases_by_first_route (g : TypeGraph) (hclosed : g.Closed) (hcomplete : g.Complete) (s : Substitution)
    (hs : s.NoVariableCycle) (hbelow : s.Below g.size) (u : NodeId) (cases : List Ty)
    (hu : g.get? u = some (.union cases)) : ∃ ls, leafCases g s u cases = .ok ls ∧
      (∀ y ∈ ls, g.unionCases? y = none ∧ s.IsEnd y) ∧
      (ls.Pairwise fun x y => g.equal x y = .ok false) ∧ (∀ y ∈ ls, s.Leaf g (.node u) y) ∧
      (∀ x, s.Leaf g (.node u) x → ∃ y ∈ ls, g.equal y x = .ok true) ∧
      ∃ routes, routes.Pairwise (· < ·) ∧ Forall₂ (FirstRoute g s u) routes ls := by
  obtain ⟨ls, hls⟩ := leafCases_isOk hclosed hcomplete hbelow hu
  have hsound := leafCases_sound hu hls
  refine ⟨ls, hls, fun y hy => ?_, ?_, hsound, fun x => leafCases_complete hu hls, ?_⟩
  · have hend := (hsound y hy).lookup_eq hs.grounded
    refine ⟨Option.eq_none_iff_forall_ne_some.mpr fun cs hcs => ?_, hend ▸ hs.grounded.isEnd_lookup y⟩
    exact (hsound y hy).not_isUnion hs.grounded ⟨cs, hend.symm ▸ hcs⟩
  · obtain ⟨new, rfl, hwalked⟩ := leafCases_walked hu hls
    exact hwalked.distinct
  · obtain ⟨new, rfl, hwalked⟩ := leafCases_walked hu hls
    have hnode : (Ty.node u).Below g.size := lt_size_of_get? hu
    have hP : ∀ ps x, s.Route g [] (.node u) ps x → x.Below g.size := fun ps x hx =>
        below_of_leaf hclosed hbelow hnode hx.isLeaf
    have hfirst := hwalked.first hP (fun x y z hx hy hz hzx hyx => ?_) (by simp)
    · refine ⟨new.map Prod.fst, hwalked.increasing fun ps x y hx hy => hx.unique hy, ?_⟩
      rw [forall₂_map_left_iff, forall₂_map_right_iff, forall₂_same]
      exact fun e he => ⟨hwalked.routes e he, hfirst e he⟩
    · have hiff := fun {a b : Ty} (ha : a.Below g.size) (hb : b.Below g.size) =>
          equal_eq_true_iff_alike hclosed hcomplete ha hb
      exact (hiff hz hy).mpr (((hiff hz hx).mp hzx).trans ((hiff hy hx).mp hyx).symm)

/-- Two unions that contain each other, directly and through a variable, and equal cases in both. -/
def tangledGraph : TypeGraph := ⟨#[.union [.node 1, .var 1, .var 3, .int], .union [.node 0, .bool, .var 2]]⟩

def tangledTable : Substitution := (Substitution.empty.bind 1 (.node 1)).bind 2 .int

theorem tangledGraph_leafCases :
    leafCases tangledGraph tangledTable 0 [.node 1, .var 1, .var 3, .int] = .ok [.bool, .int, .var 3] ∧
    ∃ routes, routes.Pairwise (· < ·) ∧
    Forall₂ (FirstRoute tangledGraph tangledTable 0) routes [.bool, .int, .var 3] := by
  have hs : tangledTable.NoVariableCycle :=
    ((noVariableCycle_empty.grounded.bind rfl fun _ h => by cases h).bind rfl fun _ h => by cases h).noVariableCycle
  have hcomputed : leafCases tangledGraph tangledTable 0 [.node 1, .var 1, .var 3, .int] =
      .ok [.bool, .int, .var 3] := by decide
  obtain ⟨ls, hls, -, -, -, -, routes, hroutes⟩ :=
    leafCases_by_first_route tangledGraph (by decide) (by decide) tangledTable hs (by decide) 0 _ rfl
  obtain rfl := Except.ok.inj (hcomputed.symm.trans hls)
  exact ⟨hcomputed, routes, hroutes⟩

end TypeInference.Solver
