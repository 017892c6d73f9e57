import TypeInference.Proofs.Bounds

/-! # Structural equality is decided

Types that are related by some bisimulation are `Alike`, which is the greatest bisimulation and an equivalence on the
types of the graph. Structural equality keeps pairs of types only while they are under comparison. What it finds equal
is alike, because the pairs that it takes for granted are closed on the way back (`alike_of_equal`), and it never tells
alike types apart (`equalAux_ne_false`). In a graph without absent parts it always answers, so it decides whether types
are alike. -/

namespace TypeInference

open List

variable {S : Ty → Prop}

/-! ### Bisimulations -/

/-- The types have the same head, and their parts are in the relation. Unions have a case for each case of the other. -/
inductive SameHead (g : TypeGraph) (R : Ty → Ty → Prop) : Ty → Ty → Prop where
  | leaf {t : Ty} (h : ∀ i, t ≠ .node i) : SameHead g R t t
  | metatype {i j : NodeId} {t u : Ty} (hi : g.get? i = some (.metatype t)) (hj : g.get? j = some (.metatype u))
      (h : R t u) : SameHead g R (.node i) (.node j)
  | function {i j d d' : NodeId} {c c' : Ty} (hi : g.get? i = some (.function (some d) c))
      (hj : g.get? j = some (.function (some d') c')) (domain : R (.node d) (.node d')) (codomain : R c c') :
      SameHead g R (.node i) (.node j)
  | tuple {i j : NodeId} {l : String} {fs fs' : List TupleField} (hi : g.get? i = some (.tuple l fs))
      (hj : g.get? j = some (.tuple l fs'))
      (fields : List.Forall₂ (fun f f' => f.label = f'.label ∧ R f.type f'.type) fs fs') :
      SameHead g R (.node i) (.node j)
  | union {i j : NodeId} {cs cs' : List Ty} (hi : g.get? i = some (.union cs)) (hj : g.get? j = some (.union cs'))
      (left : ∀ c ∈ cs, ∃ c' ∈ cs', R c c') (right : ∀ c' ∈ cs', ∃ c ∈ cs, R c c') : SameHead g R (.node i) (.node j)

/-- The relation looks into the types that it relates, one step after the other. -/
def TypeGraph.IsBisimulation (g : TypeGraph) (R : Ty → Ty → Prop) : Prop := ∀ t u, R t u → SameHead g R t u

/-- Some bisimulation relates the types. -/
def TypeGraph.Alike (g : TypeGraph) (t u : Ty) : Prop := ∃ R : Ty → Ty → Prop, g.IsBisimulation R ∧ R t u

variable {g : TypeGraph} {P Q R : Ty → Ty → Prop} {t u w : Ty}

namespace SameHead

theorem mono (hR : ∀ a b, P a b → R a b) (h : SameHead g P t u) : SameHead g R t u := by
  cases h with
  | leaf h => exact .leaf h
  | metatype hi hj h => exact .metatype hi hj (hR _ _ h)
  | function hi hj domain codomain => exact .function hi hj (hR _ _ domain) (hR _ _ codomain)
  | tuple hi hj fields => exact .tuple hi hj (fields.imp fun _ _ h => ⟨h.1, hR _ _ h.2⟩)
  | union hi hj left right =>
    refine .union hi hj (fun c hc => ?_) (fun c' hc' => ?_)
    · obtain ⟨c', hc', h⟩ := left c hc
      exact ⟨c', hc', hR _ _ h⟩
    · obtain ⟨c, hc, h⟩ := right c' hc'
      exact ⟨c, hc, hR _ _ h⟩

theorem symm (hR : ∀ a b, P a b → R b a) (h : SameHead g P t u) : SameHead g R u t := by
  cases h with
  | leaf h => exact .leaf h
  | metatype hi hj h => exact .metatype hj hi (hR _ _ h)
  | function hi hj domain codomain => exact .function hj hi (hR _ _ domain) (hR _ _ codomain)
  | tuple hi hj fields => exact .tuple hj hi (fields.flip.imp fun _ _ h => ⟨h.1.symm, hR _ _ h.2⟩)
  | union hi hj left right =>
    refine .union hj hi (fun c' hc' => ?_) (fun c hc => ?_)
    · obtain ⟨c, hc, h⟩ := right c' hc'
      exact ⟨c, hc, hR _ _ h⟩
    · obtain ⟨c', hc', h⟩ := left c hc
      exact ⟨c', hc', hR _ _ h⟩

theorem comp (hR : ∀ a b c, P a b → Q b c → R a c) (h : SameHead g P t u) (h' : SameHead g Q u w) :
    SameHead g R t w := by
  cases h with
  | leaf ht =>
    cases h' with
    | leaf => exact .leaf ht
    | _ => exact absurd rfl (ht _)
  | metatype hi hj p =>
    cases h' with
    | leaf hu => exact absurd rfl (hu _)
    | metatype hj' hk q =>
      cases hj.symm.trans hj'
      exact .metatype hi hk (hR _ _ _ p q)
    | _ hj' => cases hj.symm.trans hj'
  | function hi hj domain codomain =>
    cases h' with
    | leaf hu => exact absurd rfl (hu _)
    | function hj' hk domain' codomain' =>
      cases hj.symm.trans hj'
      exact .function hi hk (hR _ _ _ domain domain') (hR _ _ _ codomain codomain')
    | _ hj' => cases hj.symm.trans hj'
  | tuple hi hj fields =>
    cases h' with
    | leaf hu => exact absurd rfl (hu _)
    | tuple hj' hk fields' =>
      cases hj.symm.trans hj'
      exact .tuple hi hk (forall₂_comp (fun f f' f'' h h' => ⟨h.1.trans h'.1, hR _ _ _ h.2 h'.2⟩) fields fields')
    | _ hj' => cases hj.symm.trans hj'
  | union hi hj left right =>
    cases h' with
    | leaf hu => exact absurd rfl (hu _)
    | union hj' hk left' right' =>
      cases hj.symm.trans hj'
      refine .union hi hk (fun c hc => ?_) (fun c'' hc'' => ?_)
      · obtain ⟨c', hc', h⟩ := left c hc
        obtain ⟨c'', hc'', h'⟩ := left' c' hc'
        exact ⟨c'', hc'', hR _ _ _ h h'⟩
      · obtain ⟨c', hc', h'⟩ := right' c'' hc''
        obtain ⟨c, hc, h⟩ := right c' hc'
        exact ⟨c, hc, hR _ _ _ h h'⟩
    | _ hj' => cases hj.symm.trans hj'

end SameHead

theorem sameHead_self (hg : g.Supports S) (hR : ∀ a : Ty, S a → R a a) (ht : S t) : SameHead g R t t := by
  cases t with
  | node i =>
    obtain ⟨x, hx⟩ := exists_get_of_lt (hg.node ht)
    replace hx := get?_of_get hx
    have hpart : ∀ a ∈ x.parts, R a a := fun a ha => hR a (hg.parts ht hx ha)
    cases x with
    | metatype a => exact .metatype hx hx (hpart a (mem_singleton_self a))
    | function d c =>
      obtain ⟨d, rfl, hd⟩ := hg.domain ht hx
      exact .function hx hx (hR (.node d) hd) (hpart c (mem_singleton_self c))
    | tuple l fs =>
      exact .tuple hx hx (forall₂_same.mpr fun f hf => ⟨rfl, hpart f.type (mem_map_of_mem hf)⟩)
    | union cs => exact .union hx hx (fun c hc => ⟨c, hc, hpart c hc⟩) (fun c hc => ⟨c, hc, hpart c hc⟩)
  | _ => exact .leaf fun i h => by cases h

namespace TypeGraph.Alike

theorem isBisimulation (g : TypeGraph) : g.IsBisimulation g.Alike := by
  rintro t u ⟨R, hR, htu⟩
  exact (hR t u htu).mono fun a b hab => ⟨R, hR, hab⟩

theorem self (hg : g.Supports S) (ht : S t) : g.Alike t t := by
  refine ⟨fun a b => a = b ∧ S a, ?_, rfl, ht⟩
  rintro a b ⟨rfl, ha⟩
  exact sameHead_self hg (fun a ha => ⟨rfl, ha⟩) ha

theorem refl (hclosed : g.Closed) (hcomplete : g.Complete) (ht : t.Below g.size) : g.Alike t t :=
  self (hclosed.supports hcomplete) ht

theorem symm (h : g.Alike t u) : g.Alike u t := by
  refine ⟨fun a b => g.Alike b a, fun a b hab => ?_, h⟩
  exact (isBisimulation g b a hab).symm fun _ _ => id

theorem trans (h : g.Alike t u) (h' : g.Alike u w) : g.Alike t w := by
  refine ⟨fun a c => ∃ b, g.Alike a b ∧ g.Alike b c, ?_, u, h, h'⟩
  rintro a c ⟨b, hab, hbc⟩
  exact (isBisimulation g a b hab).comp (fun a b c hab hbc => ⟨b, hab, hbc⟩) (isBisimulation g b c hbc)

end TypeGraph.Alike

namespace TypeGraph.Supports

variable {S : Ty → Prop} {g' : TypeGraph}

theorem congr (hg : g.Supports S) (h : ∀ i x, S (.node i) → g.get? i = some x → g'.get? i = some x) :
    g'.Supports S := by
  have hsame : ∀ {i x}, S (.node i) → g'.get? i = some x → g.get? i = some x := fun {i x} hi hx => by
    obtain ⟨y, hy⟩ := exists_get_of_lt (hg.node hi)
    replace hy := get?_of_get hy
    cases (h i y hi hy).symm.trans hx
    exact hy
  refine ⟨fun hi => ?_, fun hi hx ht => hg.parts hi (hsame hi hx) ht, fun hi hx => hg.domain hi (hsame hi hx)⟩
  obtain ⟨y, hy⟩ := exists_get_of_lt (hg.node hi)
  exact lt_size_of_get? (h _ y hi (get?_of_get hy))

/-- Where types have all their parts, their heads are compared with these only, in every graph with the same nodes. -/
theorem sameHead (hg : g.Supports S) (h : ∀ i x, S (.node i) → g.get? i = some x → g'.get? i = some x) (ht : S t)
    (hu : S u) (hhead : SameHead g R t u) : SameHead g' (fun a b => R a b ∧ S a ∧ S b) t u := by
  cases hhead with
  | leaf hleaf => exact .leaf hleaf
  | metatype hi hj hparts =>
    exact .metatype (h _ _ ht hi) (h _ _ hu hj)
      ⟨hparts, hg.parts ht hi (mem_singleton_self _), hg.parts hu hj (mem_singleton_self _)⟩
  | function hi hj domain codomain =>
    obtain ⟨d, hd, hdomain⟩ := hg.domain ht hi
    obtain ⟨d', hd', hdomain'⟩ := hg.domain hu hj
    cases hd
    cases hd'
    exact .function (h _ _ ht hi) (h _ _ hu hj) ⟨domain, hdomain, hdomain'⟩
      ⟨codomain, hg.parts ht hi (mem_singleton_self _), hg.parts hu hj (mem_singleton_self _)⟩
  | tuple hi hj fields =>
    refine .tuple (h _ _ ht hi) (h _ _ hu hj) (forall₂_iff_get.mpr ⟨fields.length_eq, fun k hk hk' => ?_⟩)
    obtain ⟨hlabel, hparts⟩ := (forall₂_iff_get.mp fields).2 k hk hk'
    exact ⟨hlabel, hparts, hg.parts ht hi (mem_map_of_mem (get_mem _ _)), hg.parts hu hj (mem_map_of_mem (get_mem _ _))⟩
  | union hi hj left right =>
    refine .union (h _ _ ht hi) (h _ _ hu hj) (fun c hc => ?_) (fun c' hc' => ?_)
    · obtain ⟨c', hc', hcc⟩ := left c hc
      exact ⟨c', hc', hcc, hg.parts ht hi hc, hg.parts hu hj hc'⟩
    · obtain ⟨c, hc, hcc⟩ := right c' hc'
      exact ⟨c, hc, hcc, hg.parts ht hi hc, hg.parts hu hj hc'⟩

theorem alike (hg : g.Supports S) (h : ∀ i x, S (.node i) → g.get? i = some x → g'.get? i = some x) (ht : S t)
    (hu : S u) (halike : g.Alike t u) : g'.Alike t u := by
  refine ⟨fun a b => g.Alike a b ∧ S a ∧ S b, ?_, halike, ht, hu⟩
  rintro a b ⟨hab, ha, hb⟩
  exact hg.sameHead h ha hb (Alike.isBisimulation g a b hab)

end TypeGraph.Supports

/-! ### What is found equal is alike -/

/-- A step of structural comparison relates types with the same head, as long as the types have all their parts. -/
theorem sameHead_of_equalStep (hg : g.Supports S) (ht : S t) (hu : S u) (hsame : ∀ a : Ty, S a → R a a)
    (hR : ∀ a b : Ty, S a → S b → P a b → R a b ∧ R b a) (h : EqualStep g P t u) : SameHead g R t u := by
  cases h with
  | parts h =>
    cases h with
    | same => exact sameHead_self hg hsame ht
    | metatype hi hj h =>
      exact .metatype hi hj (hR _ _ (hg.parts ht hi (mem_singleton_self _)) (hg.parts hu hj (mem_singleton_self _)) h).1
    | @function i j d d' c c' hi hj domain codomain =>
      obtain ⟨d, rfl, hd⟩ := hg.domain ht hi
      obtain ⟨d', rfl, hd'⟩ := hg.domain hu hj
      exact .function hi hj (hR (.node d) (.node d') hd hd' domain).1
        (hR _ _ (hg.parts ht hi (mem_singleton_self _)) (hg.parts hu hj (mem_singleton_self _)) codomain).1
    | @tuple i j l l' fs fs' hi hj shape fields =>
      obtain ⟨rfl, hlabels⟩ := sameShape_iff.mp shape
      refine .tuple hi hj (forall₂_iff_get.mpr ⟨fields.length_eq, fun k hk hk' => ?_⟩)
      have hlabel := congrArg (·[k]?) hlabels
      have hfields := (forall₂_iff_get.mp fields).2 k hk hk'
      refine ⟨by simpa [hk, hk'] using hlabel, (hR _ _ ?_ ?_ hfields).1⟩
      · exact hg.parts ht hi (mem_map_of_mem (get_mem fs _))
      · exact hg.parts hu hj (mem_map_of_mem (get_mem fs' _))
  | unions hi hj left right =>
    refine .union hi hj (fun c hc => ?_) (fun c' hc' => ?_)
    · obtain ⟨c', hc', h⟩ := left c hc
      exact ⟨c', hc', (hR _ _ (hg.parts ht hi hc) (hg.parts hu hj hc') h).1⟩
    · obtain ⟨c, hc, h⟩ := right c' hc'
      exact ⟨c, hc, (hR _ _ (hg.parts hu hj hc') (hg.parts ht hi hc) h).2⟩

theorem alike_of_equalUpTo (hg : g.Supports S) (ht : S t) (hu : S u) (h : EqualUpTo g [] t u) : g.Alike t u := by
  -- the second inclusion between unions is asked with its sides swapped, so the relation is taken in both orders
  refine ⟨fun a b => S a ∧ S b ∧ (EqualUpTo g [] a b ∨ EqualUpTo g [] b a), ?_, ht, hu, .inl h⟩
  have hsame : ∀ a : Ty, S a → S a ∧ S a ∧ (EqualUpTo g [] a a ∨ EqualUpTo g [] a a) := fun a ha =>
      ⟨ha, ha, .inl (.refl g [] a)⟩
  have hstep : ∀ a b : Ty, S a → S b → EqualUpTo g [] a b → SameHead g
      (fun a b => S a ∧ S b ∧ (EqualUpTo g [] a b ∨ EqualUpTo g [] b a)) a b := by
    intro a b ha hb hab
    refine sameHead_of_equalStep hg ha hb hsame ?_ hab.step
    rintro x y hx hy (hxy | ⟨p, hp, -⟩)
    · exact ⟨⟨hx, hy, .inl hxy⟩, hy, hx, .inr hxy⟩
    · cases hp
  rintro a b ⟨ha, hb, hab | hba⟩
  · exact hstep a b ha hb hab
  · exact (hstep b a hb ha hba).symm fun x y h => ⟨h.2.1, h.1, h.2.2.symm⟩

theorem TypeGraph.Supports.alike_of_equal (hg : g.Supports S) (ht : S t) (hu : S u) (h : g.equal t u = .ok true) :
    g.Alike t u :=
  alike_of_equalUpTo hg ht hu (equalUpTo_of_equal h)

theorem alike_of_equal (hclosed : g.Closed) (hcomplete : g.Complete) (ht : t.Below g.size) (hu : u.Below g.size)
    (h : g.equal t u = .ok true) : g.Alike t u :=
  (hclosed.supports hcomplete).alike_of_equal ht hu h

/-! ### Alike types are not told apart -/

theorem sameShape_of_forall₂ {l : String} {fs fs' : List TupleField}
    (h : Forall₂ (fun f f' => f.label = f'.label ∧ R f.type f'.type) fs fs') : sameShape l fs l fs' = true := by
  refine sameShape_iff.mpr ⟨rfl, ?_⟩
  induction h with
  | nil => rfl
  | cons h _ ih => rw [map_cons, map_cons, h.1, ih]

/-- The induction is on the depth of the comparison. Whether a pair is under comparison already plays no part: such a
pair counts as equal. -/
theorem equalAux_ne_false : ∀ (fuel : Nat) (assumed : List (NodeId × NodeId)) {t u : Ty}, g.Alike t u →
    g.equalAux fuel assumed t u ≠ .ok false := by
  intro fuel
  induction fuel with
  | zero => intro assumed t u _ h; cases h
  | succ fuel ih =>
    intro assumed t u halike h
    have hcovers : ∀ {assumed : List (NodeId × NodeId)} {cs cs' : List Ty}, (∀ c ∈ cs, ∃ c' ∈ cs', g.Alike c c') →
        TypeGraph.covers (g.equalAux fuel assumed) cs cs' ≠ .ok false := by
      intro assumed cs cs' hall h
      obtain ⟨c, hc, hany⟩ := exists_of_allM_false h
      obtain ⟨c', hc', halike⟩ := hall c hc
      exact ih assumed halike (forall_of_anyM_false hany c' hc')
    cases TypeGraph.Alike.isBisimulation g t u halike with
    | leaf ht =>
      rw [equalAux_leaf fun i _ hi => absurd hi (ht i)] at h
      simp at h
    | metatype hi hj hparts =>
      simp only [TypeGraph.equalAux, get_of_get? hi, get_of_get? hj, ok_bind] at h
      split at h
      · cases h
      split at h
      · cases h
      · exact ih _ hparts h
    | function hi hj domain codomain =>
      simp only [TypeGraph.equalAux, get_of_get? hi, get_of_get? hj, ok_bind] at h
      split at h
      · cases h
      split at h
      · cases h
      obtain ⟨domains, hdomains, h⟩ := bind_eq_ok.mp h
      cases domains with
      | true => exact ih _ codomain h
      | false => exact ih _ domain hdomains
    | tuple hi hj fields =>
      simp only [TypeGraph.equalAux, get_of_get? hi, get_of_get? hj, ok_bind] at h
      split at h
      · cases h
      split at h
      · next hshape => simp [sameShape_of_forall₂ fields] at hshape
      split at h
      · cases h
      · obtain ⟨⟨f, f'⟩, hf, hdiffer⟩ := exists_of_allM_false h
        exact ih _ ((forall₂_iff_zip.mp fields).2 hf).2 hdiffer
    | union hi hj left right =>
      simp only [TypeGraph.equalAux, get_of_get? hi, get_of_get? hj, ok_bind] at h
      split at h
      · cases h
      split at h
      · cases h
      obtain ⟨covered, hcovered, h⟩ := bind_eq_ok.mp h
      cases covered with
      | true =>
        refine hcovers (fun c' hc' => ?_) h
        obtain ⟨c, hc, halike⟩ := right c' hc'
        exact ⟨c, hc, halike.symm⟩
      | false => exact hcovers left hcovered

theorem equal_eq_true_iff_alike (hclosed : g.Closed) (hcomplete : g.Complete) (ht : t.Below g.size)
    (hu : u.Below g.size) : g.equal t u = .ok true ↔ g.Alike t u := by
  refine ⟨alike_of_equal hclosed hcomplete ht hu, fun halike => ?_⟩
  obtain ⟨same, hsame⟩ := equal_isOk hclosed hcomplete ht hu
  cases same with
  | true => exact hsame
  | false => exact absurd hsame (equalAux_ne_false _ _ halike)

/-- **Structural equality of recursive types is decided.** In a graph whose composite types have all their parts, cyclic
or not, the comparison of two types ends; it answers yes exactly if some bisimulation relates the types, and it is an
equivalence. -/
theorem equal_decides_bisimulation (g : TypeGraph) (hclosed : g.Closed) (hcomplete : g.Complete) :
    (∀ t u : Ty, t.Below g.size → u.Below g.size →
      ∃ same : Bool, g.equal t u = .ok same ∧ (same = true ↔ ∃ R : Ty → Ty → Prop, g.IsBisimulation R ∧ R t u)) ∧
    Equivalence fun t u : { t : Ty // t.Below g.size } => g.equal t u = .ok true := by
  have hiff := fun (t u : { t : Ty // t.Below g.size }) => equal_eq_true_iff_alike hclosed hcomplete t.2 u.2
  refine ⟨fun t u ht hu => ?_, fun t => ?_, fun {t u} h => ?_, fun {t u w} h h' => ?_⟩
  · obtain ⟨same, hsame⟩ := equal_isOk hclosed hcomplete ht hu
    refine ⟨same, hsame, ?_⟩
    rw [← Except.ok.injEq (ε := Fault), ← hsame]
    exact hiff ⟨t, ht⟩ ⟨u, hu⟩
  · exact (hiff t t).mpr (.refl hclosed hcomplete t.2)
  · exact (hiff u t).mpr ((hiff t u).mp h).symm
  · exact (hiff t w).mpr (((hiff t u).mp h).trans ((hiff u w).mp h'))

/-- Loops of one, two and two types, two unions of them, and a type that looks like the start of a loop. -/
def loopGraph : TypeGraph :=
  ⟨#[.tuple "a" [{ type := .node 0 }], .tuple "a" [{ type := .node 2 }], .tuple "a" [{ type := .node 1 }],
    .union [.int, .node 0], .union [.node 2, .int, .node 1], .tuple "a" [{ type := .int }]]⟩

/-- Unions of loops of different lengths are related by a bisimulation, and a loop is related to nothing that ends. -/
theorem loopGraph_bisimulations : loopGraph.Closed ∧ loopGraph.Complete ∧
    (∃ R : Ty → Ty → Prop, loopGraph.IsBisimulation R ∧ R (.node 3) (.node 4)) ∧
    ¬ ∃ R : Ty → Ty → Prop, loopGraph.IsBisimulation R ∧ R (.node 0) (.node 5) := by
  have hclosed : loopGraph.Closed := by decide
  have hcomplete : loopGraph.Complete := by decide
  obtain ⟨hdecides, -⟩ := equal_decides_bisimulation loopGraph hclosed hcomplete
  obtain ⟨same, hsame, hiff⟩ := hdecides (.node 3) (.node 4) (by decide) (by decide)
  obtain ⟨same', hsame', hiff'⟩ := hdecides (.node 0) (.node 5) (by decide) (by decide)
  have htrue : loopGraph.equal (.node 3) (.node 4) = .ok true := by decide
  have hfalse : loopGraph.equal (.node 0) (.node 5) = .ok false := by decide
  refine ⟨hclosed, hcomplete, hiff.mp ?_, fun h => ?_⟩
  · exact Except.ok.inj (hsame.symm.trans htrue)
  · have hboth := Except.ok.inj (hsame'.symm.trans hfalse)
    exact absurd (hiff'.mpr h) (by simp [hboth])

end TypeInference
