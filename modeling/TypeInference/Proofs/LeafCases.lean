import Mathlib.Data.List.Lex
import TypeInference.Proofs.Satisfaction

/-! # What the walk to the leaf cases finds

`leafCases` opens unions depth first and opens none twice. What it comes to is described by routes: ways from the union
to its leaf cases on which no union occurs twice. The walk finds a leaf case for every route, up to structural equality,
and whatever lies on an earlier route is known when a leaf case is added (`Walked`). So it finds leaf cases only, and
every leaf case (`leafCases_sound`, `leafCases_complete`). Leaf cases found with one table are refined, not changed, by
a table that extends it (`Extends.leaf_iff`). -/

namespace TypeInference.Substitution

open List

variable {g : TypeGraph} {s : Substitution} {avoid avoid' : List NodeId} {t x y : Ty} {ps : List Nat} {i : NodeId}
  {cases : List Ty} {k : Nat}

/-! ### Routes -/

/-- A way from a type to one of its leaf cases, by the positions of the cases on it. The unions on it are all different,
and none is among those to avoid. -/
inductive Route (s : Substitution) (g : TypeGraph) : List NodeId → Ty → List Nat → Ty → Prop where
  | leaf {avoid : List NodeId} {t : Ty} (h : ¬ s.IsUnion g t) : Route s g avoid t [] (s.lookup t)
  | case {avoid : List NodeId} {t c x : Ty} {i : NodeId} {cases : List Ty} {k : Nat} {ps : List Nat}
      (ht : s.lookup t = .node i) (hi : g.get? i = some (.union cases)) (hfresh : i ∉ avoid) (hc : cases[k]? = some c)
      (rest : Route s g (i :: avoid) c ps x) : Route s g avoid t (k :: ps) x

/-- A route from one of the types, which have the positions from `k` on. -/
def RouteFrom (s : Substitution) (g : TypeGraph) (avoid : List NodeId) (k : Nat) (ts : List Ty) (ps : List Nat)
    (x : Ty) : Prop :=
  ∃ j c qs, ps = (k + j) :: qs ∧ ts[j]? = some c ∧ s.Route g avoid c qs x

theorem Route.isLeaf (h : s.Route g avoid t ps x) : s.Leaf g t x := by
  induction h with
  | leaf h => exact .self h
  | case ht hi _ hc _ ih => exact .case (unionCases?_eq_some.mpr ⟨_, ht, hi⟩) (mem_of_getElem? hc) ih

theorem Route.mono (h : s.Route g avoid t ps x) (hsub : avoid' ⊆ avoid) : s.Route g avoid' t ps x := by
  induction h generalizing avoid' with
  | leaf h => exact .leaf h
  | case ht hi hfresh hc _ ih => exact .case ht hi (fun h => hfresh (hsub h)) hc (ih (cons_subset_cons _ hsub))

theorem Route.unique (h : s.Route g avoid t ps x) (h' : s.Route g avoid' t ps y) : x = y := by
  induction h generalizing avoid' with
  | leaf _ =>
    cases h'
    rfl
  | case ht hi _ hc _ ih =>
    cases h' with
    | case ht' hi' _ hc' rest' =>
      obtain rfl : _ = _ := Ty.node.inj (ht.symm.trans ht')
      obtain rfl : _ = _ := Composite.union.inj (Option.some.inj (hi.symm.trans hi'))
      obtain rfl : _ = _ := Option.some.inj (hc.symm.trans hc')
      exact ih rest'

/-- A route that does not avoid a union comes to it, and goes on from there. -/
theorem Route.avoid_or (i : NodeId) (h : s.Route g avoid t ps x) : s.Route g (i :: avoid) t ps x ∨
    ∃ qs, s.Route g avoid (.node i) qs x := by
  induction h with
  | leaf h => exact .inl (.leaf h)
  | @case avoid t c x j cases k ps ht hi hfresh hc rest ih =>
    by_cases hji : j = i
    · subst hji
      exact .inr ⟨_, .case (lookup_node j) hi hfresh hc rest⟩
    · rcases ih with h | ⟨qs, h⟩
      · exact .inl (.case ht hi (by simp [hji, hfresh]) hc (h.mono (by simp)))
      · exact .inr ⟨qs, h.mono (subset_cons_self j avoid)⟩

theorem exists_route (h : s.Leaf g t x) : ∃ ps, s.Route g [] t ps x := by
  induction h with
  | self h => exact ⟨[], .leaf h⟩
  | case hcases hc _ ih =>
    obtain ⟨i, ht, hi⟩ := unionCases?_eq_some.mp hcases
    obtain ⟨ps, hroute⟩ := ih
    obtain ⟨k, hk⟩ := getElem?_of_mem hc
    rcases hroute.avoid_or i with h | ⟨qs, h⟩
    · exact ⟨k :: ps, .case ht hi not_mem_nil hk h⟩
    · cases h with
      | leaf hnot => exact absurd (isUnion_of_lookup (lookup_node i) hi) hnot
      | case ht' hi' hfresh hc' rest =>
        obtain rfl : i = _ := by simpa using ht'
        exact ⟨_, .case ht hi' hfresh hc' rest⟩

theorem route_iff (ht : s.lookup t = .node i) (hi : g.get? i = some (.union cases)) (hfresh : i ∉ avoid) :
    s.Route g avoid t ps x ↔ s.RouteFrom g (i :: avoid) 0 cases ps x := by
  constructor
  · intro h
    cases h with
    | leaf hnot => exact absurd (isUnion_of_lookup ht hi) hnot
    | case ht' hi' _ hc rest =>
      obtain rfl : i = _ := Ty.node.inj (ht.symm.trans ht')
      obtain rfl : cases = _ := Composite.union.inj (Option.some.inj (hi.symm.trans hi'))
      exact ⟨_, _, _, by simp, hc, rest⟩
  · rintro ⟨j, c, qs, rfl, hc, rest⟩
    exact .case ht hi hfresh (by simpa using hc) rest

theorem routeFrom_cons {ts : List Ty} :
    s.RouteFrom g avoid k (t :: ts) ps x ↔ (∃ qs, ps = k :: qs ∧ s.Route g avoid t qs x) ∨
    s.RouteFrom g avoid (k + 1) ts ps x := by
  constructor
  · rintro ⟨j, c, qs, rfl, hc, h⟩
    cases j with
    | zero =>
      obtain rfl : t = c := by simpa using hc
      exact .inl ⟨qs, rfl, h⟩
    | succ j => exact .inr ⟨j, c, qs, by rw [Nat.add_right_comm]; rfl, by simpa using hc, h⟩
  · rintro (⟨qs, rfl, h⟩ | ⟨j, c, qs, rfl, hc, h⟩)
    · exact ⟨0, t, qs, rfl, rfl, h⟩
    · exact ⟨j + 1, c, qs, by rw [Nat.add_right_comm]; rfl, by simpa using hc, h⟩

end TypeInference.Substitution

namespace TypeInference.Solver

open Substitution
open List

/-! ### What is known along the way -/

/-- The type equals one of the list. -/
def Known (g : TypeGraph) (ls : List Ty) (x : Ty) : Prop := ∃ y ∈ ls, g.equal y x = .ok true

/-- A walk along routes adds leaf cases, each with its route, to those it knew before. When it adds one, it knows what
lies on all earlier routes, and this one equals nothing known; in the end it knows what lies on any route. -/
inductive Walked (g : TypeGraph) (R : List Nat → Ty → Prop) : List Ty → List (List Nat × Ty) → Prop where
  | done {known : List Ty} (h : ∀ ps x, R ps x → Known g known x) : Walked g R known []
  | found {known : List Ty} {ps : List Nat} {y : Ty} {new : List (List Nat × Ty)} (h : R ps y)
      (first : ∀ qs x, R qs x → qs < ps → Known g known x) (hnew : ∀ z ∈ known, g.equal z y = .ok false)
      (rest : Walked g R (known ++ [y]) new) : Walked g R known ((ps, y) :: new)

variable {g : TypeGraph} {R R' : List Nat → Ty → Prop} {known known' : List Ty} {new new' : List (List Nat × Ty)}
  {ps : List Nat} {x : Ty}

theorem Known.mono (hsub : known ⊆ known') (h : Known g known x) : Known g known' x := by
  obtain ⟨y, hy, heq⟩ := h
  exact ⟨y, hsub hy, heq⟩

theorem Walked.all (h : Walked g R known new) (hx : R ps x) : Known g (known ++ new.map Prod.snd) x := by
  induction h with
  | done h => simpa using h ps x hx
  | found _ _ _ _ ih => simpa using ih

theorem Walked.routes (h : Walked g R known new) : ∀ e ∈ new, R e.1 e.2 := by
  induction h with
  | done _ => simp
  | found h _ _ _ ih => exact forall_mem_cons.mpr ⟨h, ih⟩

/-- Routes to what is known make no difference to a walk. -/
theorem Walked.absorb (h : Walked g R known new) (hR : ∀ ps x, R' ps x → Known g known x) :
    Walked g (fun ps x => R' ps x ∨ R ps x) known new := by
  induction h with
  | done h => exact .done fun ps x hx => hx.elim (hR ps x) (h ps x)
  | found h first hnew _ ih =>
    refine .found (.inr h) (fun qs x hx hlt => hx.elim (hR qs x) fun hx => first qs x hx hlt) hnew
      (ih fun qs x hx => ?_)
    exact (hR qs x hx).mono (subset_append_left _ _)

theorem Walked.append (h : Walked g R known new) (h' : Walked g R' (known ++ new.map Prod.snd) new')
    (hlt : ∀ ps x qs y, R ps x → R' qs y → ps < qs) : Walked g (fun ps x => R ps x ∨ R' ps x) known (new ++ new') := by
  induction h with
  | done h => exact Walked.absorb (by simpa using h') h
  | found h first hnew _ ih =>
    refine .found (.inl h) (fun qs x hx hqs => ?_) hnew (ih (by simpa using h'))
    rcases hx with hx | hx
    · exact first qs x hx hqs
    · exact absurd hqs (lt_asymm (hlt _ _ _ _ h hx))

theorem Walked.under (k : Nat) (h : Walked g R known new) :
    Walked g (fun ps x => ∃ qs, ps = k :: qs ∧ R qs x) known (new.map (Prod.map (k :: ·) id)) := by
  induction h with
  | done h =>
    refine .done fun ps x hx => ?_
    obtain ⟨qs, rfl, hx⟩ := hx
    exact h qs x hx
  | found h first hnew _ ih =>
    refine .found ⟨_, rfl, h⟩ (fun ps x hx hlt => ?_) hnew ih
    obtain ⟨qs, rfl, hx⟩ := hx
    exact first qs x hx (by simpa using hlt)

/-! ### The walk -/

variable {s : Substitution} {avoid : List NodeId} {found found' : LeafState} {t : Ty} {u : NodeId} {cases ls : List Ty}

/-- Of the unions that were opened, those to avoid are under way, and all that routes from the others come to is
known. -/
structure LeafState.Settled (g : TypeGraph) (s : Substitution) (avoid : List NodeId) (found : LeafState) : Prop where
  avoided : avoid ⊆ found.opened
  others : ∀ i ∈ found.opened, i ∈ avoid ∨ ∀ ps x, s.Route g avoid (.node i) ps x → Known g found.leaves x

/-- The walk along the routes has led from the one state to the other. -/
def Adds (g : TypeGraph) (s : Substitution) (avoid : List NodeId) (R : List Nat → Ty → Prop)
    (found found' : LeafState) : Prop :=
  found'.Settled g s avoid ∧ ∃ new, found'.leaves = found.leaves ++ new.map Prod.snd ∧ Walked g R found.leaves new

theorem LeafState.Settled.stays (h : found.Settled g s avoid) (hR : ∀ ps x, R ps x → Known g found.leaves x) :
    Adds g s avoid R found found :=
  ⟨h, [], by simp, .done hR⟩

theorem foldlM_adds {f : LeafState → Ty → Except Fault LeafState}
    (hf : ∀ found found' t, f found t = .ok found' → found.Settled g s avoid →
    Adds g s avoid (s.Route g avoid t) found found') (ts : List Ty) (k : Nat) (found found' : LeafState)
    (h : ts.foldlM f found = .ok found') (hfound : found.Settled g s avoid) :
    Adds g s avoid (s.RouteFrom g avoid k ts) found found' := by
  induction ts generalizing k found with
  | nil =>
    cases h
    refine hfound.stays fun ps x hx => ?_
    obtain ⟨j, c, qs, -, hc, -⟩ := hx
    simp at hc
  | cons t ts ih =>
    rw [foldlM_cons] at h
    obtain ⟨mid, hmid, h⟩ := bind_eq_ok.mp h
    obtain ⟨hsettled, new, hnew, hwalked⟩ := hf _ _ _ hmid hfound
    obtain ⟨hsettled', new', hnew', hwalked'⟩ := ih (k + 1) mid h hsettled
    have hmap : (new.map (Prod.map (k :: ·) id)).map Prod.snd = new.map Prod.snd := by simp [Function.comp_def]
    refine ⟨hsettled', new.map (Prod.map (k :: ·) id) ++ new', by rw [hnew', hnew, map_append, hmap, append_assoc], ?_⟩
    rw [show s.RouteFrom g avoid k (t :: ts) = _ from funext₂ fun ps x => propext routeFrom_cons]
    refine (hwalked.under k).append (by rwa [hmap, ← hnew]) ?_
    rintro _ x _ y ⟨ps, rfl, -⟩ ⟨j, c, qs, rfl, -, -⟩
    exact cons_lt_cons_iff.mpr (.inl (by omega))

theorem LeafState.Settled.open {i : NodeId} (h : found.Settled g s avoid) :
    LeafState.Settled g s (i :: avoid) { found with opened := i :: found.opened } where
  avoided := cons_subset_cons i h.avoided
  others := fun j hj => by
    rcases mem_cons.mp hj with rfl | hj
    · exact .inl mem_cons_self
    · exact (h.others j hj).imp (mem_cons_of_mem i) fun hroutes ps x hx =>
        hroutes ps x (hx.mono (subset_cons_self i avoid))

/-- A union that was walked through is no longer under way. A route from another one may come to it, and then goes on as
a route from it. -/
theorem LeafState.Settled.close {i : NodeId} (h : found.Settled g s (i :: avoid))
    (hi : ∀ ps x, s.Route g avoid (.node i) ps x → Known g found.leaves x) : found.Settled g s avoid where
  avoided := fun j hj => h.avoided (mem_cons_of_mem i hj)
  others := fun j hj => by
    rcases h.others j hj with hj | hroutes
    · rcases mem_cons.mp hj with rfl | hj
      · exact .inr hi
      · exact .inl hj
    · refine .inr fun ps x hx => ?_
      rcases hx.avoid_or i with hx | ⟨qs, hx⟩
      · exact hroutes ps x hx
      · exact hi qs x hx

/-- The walk from one type. The induction is on the bound of its depth. -/
theorem addLeaves_adds : ∀ (fuel : Nat) {avoid : List NodeId} (found found' : LeafState) (t : Ty),
    addLeaves g s fuel found t = .ok found' → found.Settled g s avoid →
    Adds g s avoid (s.Route g avoid t) found found' := by
  intro fuel
  induction fuel with
  | zero => intro avoid found found' t h; cases h
  | succ fuel ih =>
    intro avoid found found' t h hfound
    unfold addLeaves at h
    split at h
    · next i cases ht hcases =>
      obtain ⟨j, hj, hget⟩ := unionCases?_eq_some.mp hcases
      obtain rfl : i = j := by simpa using ht.symm.trans hj
      split at h
      · next hopened =>
        cases h
        refine hfound.stays fun ps x hx => ?_
        cases hx with
        | leaf hnot => exact absurd ⟨cases, hcases⟩ hnot
        | case ht' hi' hfresh hc rest =>
          obtain rfl : i = _ := Ty.node.inj (ht.symm.trans ht')
          rcases hfound.others i (by simpa using hopened) with hi | hroutes
          · exact absurd hi hfresh
          · exact hroutes _ x (.case (lookup_node i) hi' hfresh hc rest)
      · next hopened =>
        have hfresh : i ∉ avoid := fun hi => hopened (by simpa using hfound.avoided hi)
        obtain ⟨hsettled, new, hnew, hwalked⟩ := foldlM_adds ih cases 0 _ _ h hfound.open
        rw [show s.RouteFrom g (i :: avoid) 0 cases = s.Route g avoid t from
          funext₂ fun ps x => propext (route_iff ht hget hfresh).symm] at hwalked
        refine ⟨hsettled.close fun ps x hx => ?_, new, hnew, hwalked⟩
        rw [hnew]
        exact hwalked.all ((route_iff ht hget hfresh).mpr ((route_iff (lookup_node i) hget hfresh).mp hx))
    · next hnot =>
      have hu : ¬ s.IsUnion g t := by
        rintro ⟨cases, hcases⟩
        obtain ⟨i, hi, -⟩ := unionCases?_eq_some.mp hcases
        exact hnot i cases hi hcases
      have hroute : ∀ ps x, s.Route g avoid t ps x → x = s.lookup t := by
        intro ps x hx
        cases hx with
        | leaf _ => rfl
        | case ht hi _ _ _ => exact absurd (isUnion_of_lookup ht hi) hu
      obtain ⟨known, hknown, h⟩ := bind_eq_ok.mp h
      cases known with
      | true =>
        cases h
        exact hfound.stays fun ps x hx => hroute ps x hx ▸ mem_of_anyM hknown
      | false =>
        cases h
        have hself : Known g (found.leaves ++ [s.lookup t]) (s.lookup t) := ⟨_, by simp, equal_self g _⟩
        refine ⟨⟨hfound.avoided, fun i hi => (hfound.others i hi).imp_right fun hroutes ps x hx => ?_⟩,
          [([], s.lookup t)], rfl, ?_⟩
        · exact (hroutes ps x hx).mono (subset_append_left _ _)
        · refine .found (.leaf hu) (fun qs x _ hlt => absurd hlt (not_lt_nil qs)) (forall_of_anyM_false hknown)
            (.done fun ps x hx => ?_)
          rw [hroute ps x hx]
          exact hself

theorem leafCases_walked (hu : g.get? u = some (.union cases)) (h : leafCases g s u cases = .ok ls) :
    ∃ new, ls = new.map Prod.snd ∧ Walked g (s.Route g [] (.node u)) [] new := by
  obtain ⟨found, hfound, h⟩ := bind_eq_ok.mp h
  obtain rfl : found.leaves = ls := by simpa using h
  have hstart : LeafState.Settled g s [u] { opened := [u] } := ⟨List.Subset.refl _, fun i hi => .inl hi⟩
  obtain ⟨-, new, hnew, hwalked⟩ := foldlM_adds (addLeaves_adds _) cases 0 _ _ hfound hstart
  refine ⟨new, by simpa using hnew, ?_⟩
  rwa [show s.Route g [] (.node u) = s.RouteFrom g [u] 0 cases from
    funext₂ fun ps x => propext (route_iff (lookup_node u) hu not_mem_nil)]

theorem leafCases_sound (hu : g.get? u = some (.union cases)) (h : leafCases g s u cases = .ok ls) :
    ∀ y ∈ ls, s.Leaf g (.node u) y := by
  obtain ⟨new, rfl, hwalked⟩ := leafCases_walked hu h
  intro y hy
  obtain ⟨e, he, rfl⟩ := mem_map.mp hy
  exact (hwalked.routes e he).isLeaf

theorem leafCases_complete (hu : g.get? u = some (.union cases)) (h : leafCases g s u cases = .ok ls)
    (hx : s.Leaf g (.node u) x) : ∃ y ∈ ls, g.equal y x = .ok true := by
  obtain ⟨new, rfl, hwalked⟩ := leafCases_walked hu h
  obtain ⟨ps, hroute⟩ := exists_route hx
  exact hwalked.all hroute

end TypeInference.Solver

namespace TypeInference.Substitution

variable {g : TypeGraph} {s s' : Substitution} {t x : Ty}

theorem not_isUnion_of_var {v : Int} (h : s.lookup t = .var v) : ¬ s.IsUnion g t := by
  simp [IsUnion, h, TypeGraph.unionCases?]

/-- The leaf cases under a table that extends another are the leaf cases of the leaf cases under the other: only a leaf
that was an unbound variable can have become something else. -/
theorem Extends.leaf_iff (h : s.Extends s') (hs : s.Grounded) (hs' : s'.Grounded) :
    s'.Leaf g t x ↔ ∃ l, s.Leaf g t l ∧ s'.Leaf g l x := by
  constructor
  · intro hx
    induction hx with
    | @self t hu =>
      refine ⟨s.lookup t, .self ?_, ?_⟩
      · rintro ⟨cases, hcases⟩
        obtain ⟨i, hi, hget⟩ := unionCases?_eq_some.mp hcases
        exact hu (isUnion_of_lookup ((h.lookup_eq hs hs' (by simp [hi])).trans hi) hget)
      · exact (Leaf.self hu).congr (h.lookup_lookup hs hs' t).symm
    | @case t c x cases hcases hc rest ih =>
      cases hlook : s.lookup t with
      | var v =>
        refine ⟨s.lookup t, .self (not_isUnion_of_var hlook), ?_⟩
        exact (Leaf.case hcases hc rest).congr (h.lookup_lookup hs hs' t).symm
      | _ =>
        have heq := h.lookup_eq hs hs' (t := t) (by simp [hlook])
        obtain ⟨l, hl, hlx⟩ := ih
        exact ⟨l, .case (heq ▸ hcases) hc hl, hlx⟩
  · rintro ⟨l, hl, hx⟩
    induction hl with
    | @self t _ => exact hx.congr (h.lookup_lookup hs hs' t)
    | @case t c l cases hcases hc _ ih =>
      obtain ⟨i, hi, -⟩ := unionCases?_eq_some.mp hcases
      have heq := h.lookup_eq hs hs' (t := t) (by simp [hi])
      exact .case (heq ▸ hcases) hc (ih hx)

end TypeInference.Substitution
