import TypeInference.Proofs.Bisimilarity

/-! # Satisfied constraints

When a table satisfies constraints, apart from the solver. `Related` is the least relation with the rules of equality
and of conformance, on types resolved through the table and up to bisimilarity (`Related.congr`). An equality is a
conformance (`Related.conformance`), and conformance is transitive (`Related.trans`). -/

namespace TypeInference.Substitution

variable {i : NodeId} {x : Ty} {P : Ty → Ty → Prop}

/-- The types are related, once they are resolved. A union on the left stands for all of its leaf cases, and one on the
right for any of them. -/
inductive Related (s : Substitution) (g : TypeGraph) : Relation → Ty → Ty → Prop where
  | bisimilar {rel : Relation} {t u : Ty} (h : s.Bisimilar g t u) : Related s g rel t u
  | leftUnion {rel : Relation} {t u : Ty} (ht : s.IsUnion g t) (hu : ¬ s.IsUnion g u)
      (h : ∀ x, s.Leaf g t x → Related s g rel x u) : Related s g rel t u
  /-- Two unions: the left conforms to the right, and in an equality the right to the left too. -/
  | unions {rel : Relation} {t u : Ty} (ht : s.IsUnion g t) (hu : s.IsUnion g u)
      (h : ∀ x, s.Leaf g t x → Related s g .conformance x u)
      (back : rel = .equality → ∀ y, s.Leaf g u y → Related s g .conformance y t) : Related s g rel t u
  | rightUnion {rel : Relation} {t u y : Ty} (ht : ¬ s.IsUnion g t) (hu : s.IsUnion g u) (hy : s.Leaf g u y)
      (h : Related s g .conformance t y) : Related s g rel t u
  | metatype {rel : Relation} {t u a b : Ty} {i j : NodeId} (ht : s.lookup t = .node i) (hu : s.lookup u = .node j)
      (hi : g.get? i = some (.metatype a)) (hj : g.get? j = some (.metatype b)) (h : Related s g rel a b) :
      Related s g rel t u
  | function {rel : Relation} {t u c c' : Ty} {d d' : Option NodeId} {i j : NodeId} (ht : s.lookup t = .node i)
      (hu : s.lookup u = .node j) (hi : g.get? i = some (.function d c)) (hj : g.get? j = some (.function d' c'))
      (domain : Related s g rel (Solver.domainType d) (Solver.domainType d')) (codomain : Related s g rel c c') :
      Related s g rel t u
  | tuple {rel : Relation} {t u : Ty} {l l' : String} {fs fs' : List TupleField} {i j : NodeId}
      (ht : s.lookup t = .node i) (hu : s.lookup u = .node j) (hi : g.get? i = some (.tuple l fs))
      (hj : g.get? j = some (.tuple l' fs')) (shape : sameShape l fs l' fs' = true)
      (fields : ∀ p ∈ fs.zip fs', Related s g rel p.1.type p.2.type) : Related s g rel t u

/-- The table satisfies the constraint. The type that is asked for of a member stands on the left of the equality. -/
inductive Satisfies (s : Substitution) (g : TypeGraph) : Constraint → Prop where
  | relate {rel : Relation} {t u : Ty} {location : Location} (h : s.Related g rel t u) :
      Satisfies s g (.relate rel t u location)
  | member {owner type : Ty} {member : Member} {location : Location} {l : String} {fs : List TupleField}
      {f : TupleField} (ho : g.tuple? (s.lookup owner) = some (l, fs)) (hf : member.field? fs = some f)
      (h : s.Related g .equality type f.type) : Satisfies s g (.member owner member type location)
  | oneOf {choices : List Constraint} {location : Location} {c : Constraint} (hc : c ∈ choices)
      (h : Satisfies s g c) : Satisfies s g (.oneOf choices location)

variable {s : Substitution} {g : TypeGraph} {rel : Relation} {t u : Ty}

theorem isUnion_of_lookup {cases : List Ty} (ht : s.lookup t = .node i) (hi : g.get? i = some (.union cases)) :
    s.IsUnion g t :=
  ⟨cases, unionCases?_eq_some.mpr ⟨i, ht, hi⟩⟩

theorem not_isUnion_of_lookup {c : Composite} (ht : s.lookup t = .node i) (hi : g.get? i = some c)
    (hc : ∀ cases, c ≠ .union cases) : ¬ s.IsUnion g t := by
  rintro ⟨cases, h⟩
  obtain ⟨j, hj, hget⟩ := unionCases?_eq_some.mp h
  obtain rfl : i = j := by simpa using ht.symm.trans hj
  exact hc cases (Option.some.inj (hi.symm.trans hget))

/-! ### Types that are no unions -/

theorem Related.congruent (ht : ¬ s.IsUnion g t) (hu : ¬ s.IsUnion g u) (h : s.Related g rel t u) :
    Congruent g (s.Related g rel) (s.lookup t) (s.lookup u) := by
  cases h with
  | bisimilar h =>
    cases h.matches with
    | unions ht' _ _ _ => exact absurd ht' ht
    | others _ _ h => exact h.mono fun _ _ => .bisimilar
  | leftUnion ht' _ _ => exact absurd ht' ht
  | unions ht' _ _ _ => exact absurd ht' ht
  | rightUnion _ hu' _ _ => exact absurd hu' hu
  | metatype ht hu hi hj h => exact ht ▸ hu ▸ .metatype hi hj h
  | function ht hu hi hj hd hc => exact ht ▸ hu ▸ .function hi hj hd hc
  | tuple ht hu hi hj shape fields =>
    refine ht ▸ hu ▸ .tuple hi hj shape (List.forall₂_iff_zip.mpr ⟨length_eq_of_sameShape shape, ?_⟩)
    exact fun {f f'} hf => fields (f, f') hf

theorem Congruent.related (h : Congruent g (s.Related g rel) (s.lookup t) (s.lookup u)) : s.Related g rel t u := by
  generalize ha : s.lookup t = a at h
  generalize hb : s.lookup u = b at h
  cases h with
  | same => exact .bisimilar (bisimilar_of_lookup_eq (ha.trans hb.symm))
  | metatype hi hj h => exact .metatype ha hb hi hj h
  | function hi hj hd hc => exact .function ha hb hi hj hd hc
  | tuple hi hj shape fields => exact .tuple ha hb hi hj shape fun p hp => List.forall₂_zip fields hp

theorem Bisimilar.congruent (ht : ¬ s.IsUnion g t) (h : s.Bisimilar g t u) :
    Congruent g (s.Bisimilar g) (s.lookup t) (s.lookup u) := by
  cases h.matches with
  | unions ht' _ _ _ => exact absurd ht' ht
  | others _ _ h => exact h

/-! ### Bisimilar sides -/

/-- The relation of composite types follows from that of their parts, up to bisimilarity. -/
theorem related_of_parts (hP : ∀ a b, P a b → ∀ a' b', s.Bisimilar g a a' → s.Bisimilar g b b' → s.Related g rel a' b')
    {t' u' : Ty} (ht : ¬ s.IsUnion g t) (hu : ¬ s.IsUnion g u) (h : Congruent g P (s.lookup t) (s.lookup u))
    (htt : s.Bisimilar g t t') (huu : s.Bisimilar g u u') : s.Related g rel t' u' := by
  have hleft : Congruent g (s.Bisimilar g) (s.lookup t') (s.lookup t) :=
    htt.symm.congruent (mt htt.isUnion_iff.mpr ht)
  have hright : Congruent g (s.Bisimilar g) (s.lookup u) (s.lookup u') := huu.congruent hu
  have hmid : Congruent g (fun a b => ∀ b', s.Bisimilar g b b' → s.Related g rel a b') (s.lookup t')
      (s.lookup u) := by
    refine hleft.comp (fun a b c hab hbc c' hc => ?_) (fun a b hab b' hb => ?_) (fun a b hab b' hb => ?_) h
    · exact hP b c hbc a c' hab.symm hc
    · exact .bisimilar (hab.trans hb)
    · exact hP a b hab a b' (.refl s g a) hb
  refine Congruent.related (hmid.comp (fun a b c hab hbc => ?_) (fun a b hab => ?_) (fun a b hab => ?_) hright)
  · exact hab c hbc
  · exact hab b (.refl s g b)
  · exact .bisimilar hab

theorem Related.congr (hs : s.Grounded) (h : s.Related g rel t u) :
    ∀ {t' u' : Ty}, s.Bisimilar g t t' → s.Bisimilar g u u' → s.Related g rel t' u' := by
  induction h with
  | bisimilar h =>
    intro t' u' htt huu
    exact .bisimilar (htt.symm.trans (h.trans huu))
  | leftUnion ht hu _ ih =>
    intro t' u' htt huu
    refine .leftUnion (htt.isUnion_iff.mp ht) (mt huu.isUnion_iff.mpr hu) fun x' hx' => ?_
    obtain ⟨x, hx, hxx⟩ := htt.symm.leaf hs hx'
    exact ih x hx hxx.symm huu
  | unions ht hu _ _ ih ihback =>
    intro t' u' htt huu
    refine .unions (htt.isUnion_iff.mp ht) (huu.isUnion_iff.mp hu) (fun x' hx' => ?_) (fun hrel y' hy' => ?_)
    · obtain ⟨x, hx, hxx⟩ := htt.symm.leaf hs hx'
      exact ih x hx hxx.symm huu
    · obtain ⟨y, hy, hyy⟩ := huu.symm.leaf hs hy'
      exact ihback hrel y hy hyy.symm htt
  | rightUnion ht hu hy _ ih =>
    intro t' u' htt huu
    obtain ⟨y', hy', hyy⟩ := huu.leaf hs hy
    exact .rightUnion (mt htt.isUnion_iff.mpr ht) (huu.isUnion_iff.mp hu) hy' (ih htt hyy)
  | metatype ht hu hi hj _ ih =>
    intro t' u' htt huu
    refine related_of_parts (P := fun a b => ∀ {a' b'}, s.Bisimilar g a a' → s.Bisimilar g b b' → s.Related g _ a' b')
      (fun a b h a' b' => h) ?_ ?_ (ht ▸ hu ▸ .metatype hi hj ih) htt huu
    · exact not_isUnion_of_lookup ht hi (by simp)
    · exact not_isUnion_of_lookup hu hj (by simp)
  | function ht hu hi hj _ _ ihd ihc =>
    intro t' u' htt huu
    refine related_of_parts (P := fun a b => ∀ {a' b'}, s.Bisimilar g a a' → s.Bisimilar g b b' → s.Related g _ a' b')
      (fun a b h a' b' => h) ?_ ?_ (ht ▸ hu ▸ .function hi hj ihd ihc) htt huu
    · exact not_isUnion_of_lookup ht hi (by simp)
    · exact not_isUnion_of_lookup hu hj (by simp)
  | tuple ht hu hi hj shape _ ih =>
    intro t' u' htt huu
    refine related_of_parts (P := fun a b => ∀ {a' b'}, s.Bisimilar g a a' → s.Bisimilar g b b' → s.Related g _ a' b')
      (fun a b h a' b' => h) ?_ ?_ (ht ▸ hu ▸ .tuple hi hj shape ?_) htt huu
    · exact not_isUnion_of_lookup ht hi (by simp)
    · exact not_isUnion_of_lookup hu hj (by simp)
    · exact List.forall₂_iff_zip.mpr ⟨length_eq_of_sameShape shape, fun {f f'} hf => ih (f, f') hf⟩

/-! ### Unions on either side -/

/-- What a union on the left says about each of its leaf cases, if there is none on the right. -/
theorem Related.leaf_left (ht : s.IsUnion g t) (hu : ¬ s.IsUnion g u) (h : s.Related g rel t u) (hx : s.Leaf g t x) :
    s.Related g rel x u := by
  cases h with
  | bisimilar h => exact absurd (h.isUnion_iff.mp ht) hu
  | leftUnion _ _ h => exact h x hx
  | unions _ hu' _ _ => exact absurd hu' hu
  | rightUnion ht' _ _ _ => exact absurd ht ht'
  | metatype ht' _ hi _ _ => exact absurd ht (not_isUnion_of_lookup ht' hi (by simp))
  | function ht' _ hi _ _ _ => exact absurd ht (not_isUnion_of_lookup ht' hi (by simp))
  | tuple ht' _ hi _ _ _ => exact absurd ht (not_isUnion_of_lookup ht' hi (by simp))

/-- A type that is no union conforms to a leaf case of a union that it is related to. -/
theorem Related.leaf_right (ht : ¬ s.IsUnion g t) (hu : s.IsUnion g u) (h : s.Related g rel t u) :
    ∃ y, s.Leaf g u y ∧ s.Related g .conformance t y := by
  cases h with
  | bisimilar h => exact absurd (h.isUnion_iff.mpr hu) ht
  | leftUnion ht' _ _ => exact absurd ht' ht
  | unions ht' _ _ _ => exact absurd ht' ht
  | rightUnion _ _ hy h => exact ⟨_, hy, h⟩
  | metatype _ hu' _ hj _ => exact absurd hu (not_isUnion_of_lookup hu' hj (by simp))
  | function _ hu' _ hj _ _ => exact absurd hu (not_isUnion_of_lookup hu' hj (by simp))
  | tuple _ hu' _ hj _ _ => exact absurd hu (not_isUnion_of_lookup hu' hj (by simp))

/-- Each leaf case of a union conforms to another union that the first is related to. -/
theorem Related.leaf_unions (hs : s.Grounded) (ht : s.IsUnion g t) (hu : s.IsUnion g u) (h : s.Related g rel t u)
    (hx : s.Leaf g t x) : s.Related g .conformance x u := by
  cases h with
  | bisimilar h =>
    obtain ⟨y, hy, hxy⟩ := h.leaf hs hx
    exact .rightUnion (hx.not_isUnion hs) hu hy (.bisimilar hxy)
  | leftUnion _ hu' _ => exact absurd hu hu'
  | unions _ _ h _ => exact h x hx
  | rightUnion ht' _ _ _ => exact absurd ht ht'
  | metatype ht' _ hi _ _ => exact absurd ht (not_isUnion_of_lookup ht' hi (by simp))
  | function ht' _ hi _ _ _ => exact absurd ht (not_isUnion_of_lookup ht' hi (by simp))
  | tuple ht' _ hi _ _ _ => exact absurd ht (not_isUnion_of_lookup ht' hi (by simp))

/-! ### Conformance -/

theorem Related.conformance (h : s.Related g rel t u) : s.Related g .conformance t u := by
  induction h with
  | bisimilar h => exact .bisimilar h
  | leftUnion ht hu _ ih => exact .leftUnion ht hu ih
  | unions ht hu _ _ ih _ => exact .unions ht hu ih (fun hrel => by cases hrel)
  | rightUnion ht hu hy _ ih => exact .rightUnion ht hu hy ih
  | metatype ht hu hi hj _ ih => exact .metatype ht hu hi hj ih
  | function ht hu hi hj _ _ ihd ihc => exact .function ht hu hi hj ihd ihc
  | tuple ht hu hi hj shape _ ih => exact .tuple ht hu hi hj shape ih

theorem Related.leaf (hs : s.Grounded) (h : s.Related g rel t u) (hx : s.Leaf g t x) :
    s.Related g .conformance x u := by
  by_cases ht : s.IsUnion g t
  · by_cases hu : s.IsUnion g u
    · exact h.leaf_unions hs ht hu hx
    · exact (h.leaf_left ht hu hx).conformance
  · obtain rfl := hx.isUnion_or.resolve_left ht
    exact h.conformance.congr hs (bisimilar_of_lookup_eq (hs.lookup_idem t).symm) (.refl s g u)

theorem related_of_leaves (ht : s.IsUnion g t) (h : ∀ x, s.Leaf g t x → s.Related g .conformance x u) :
    s.Related g .conformance t u := by
  by_cases hu : s.IsUnion g u
  · exact .unions ht hu h (fun hrel => by cases hrel)
  · exact .leftUnion ht hu h

/-- A type that is no union is congruent to a leaf case of each type that it conforms to. -/
theorem Related.congruent_leaf (hs : s.Grounded) (ht : ¬ s.IsUnion g t) (h : s.Related g .conformance t u) :
    ∃ y, s.Leaf g u y ∧ Congruent g (s.Related g .conformance) (s.lookup t) y := by
  by_cases hu : s.IsUnion g u
  · obtain ⟨y, hy, hty⟩ := h.leaf_right ht hu
    have hc := hty.congruent ht (hy.not_isUnion hs)
    rw [hy.lookup_eq hs] at hc
    exact ⟨y, hy, hc⟩
  · exact ⟨s.lookup u, .self hu, h.congruent ht hu⟩

theorem related_of_congruent_leaf (hs : s.Grounded) (ht : ¬ s.IsUnion g t) {y : Ty} (hy : s.Leaf g u y)
    (h : Congruent g (s.Related g .conformance) (s.lookup t) y) : s.Related g .conformance t u := by
  by_cases hu : s.IsUnion g u
  · rw [← hy.lookup_eq hs] at h
    exact .rightUnion ht hu hy (Congruent.related h)
  · obtain rfl := hy.isUnion_or.resolve_left hu
    exact Congruent.related h

theorem related_of_wider (hP : ∀ a b, P a b → ∀ c, s.Related g .conformance b c → s.Related g .conformance a c)
    (hs : s.Grounded) {w : Ty} (ht : ¬ s.IsUnion g t) (hu : ¬ s.IsUnion g u)
    (h : Congruent g P (s.lookup t) (s.lookup u)) (h' : s.Related g .conformance u w) :
    s.Related g .conformance t w := by
  obtain ⟨y, hy, hc⟩ := h'.congruent_leaf hs hu
  refine related_of_congruent_leaf hs ht hy (h.comp (fun a b c hab hbc => ?_) (fun a b hab => ?_) (fun _ _ => id) hc)
  · exact hP a b hab c hbc
  · exact hP a b hab b (.bisimilar (.refl s g b))

theorem Related.trans (hs : s.Grounded) (h : s.Related g rel t u) :
    ∀ {w : Ty}, s.Related g .conformance u w → s.Related g .conformance t w := by
  induction h with
  | bisimilar h =>
    intro w h'
    exact h'.congr hs h.symm (.refl s g w)
  | leftUnion ht _ _ ih =>
    intro w h'
    exact related_of_leaves ht fun x hx => ih x hx h'
  | unions ht _ _ _ ih _ =>
    intro w h'
    exact related_of_leaves ht fun x hx => ih x hx h'
  | rightUnion _ _ hy _ ih =>
    intro w h'
    exact ih (h'.leaf hs hy)
  | metatype ht hu hi hj _ ih =>
    intro w h'
    refine related_of_wider (P := fun a b => ∀ {c}, s.Related g .conformance b c → s.Related g .conformance a c)
      (fun a b h c => h) hs ?_ ?_ (ht ▸ hu ▸ .metatype hi hj ih) h'
    · exact not_isUnion_of_lookup ht hi (by simp)
    · exact not_isUnion_of_lookup hu hj (by simp)
  | function ht hu hi hj _ _ ihd ihc =>
    intro w h'
    refine related_of_wider (P := fun a b => ∀ {c}, s.Related g .conformance b c → s.Related g .conformance a c)
      (fun a b h c => h) hs ?_ ?_ (ht ▸ hu ▸ .function hi hj ihd ihc) h'
    · exact not_isUnion_of_lookup ht hi (by simp)
    · exact not_isUnion_of_lookup hu hj (by simp)
  | tuple ht hu hi hj shape _ ih =>
    intro w h'
    refine related_of_wider (P := fun a b => ∀ {c}, s.Related g .conformance b c → s.Related g .conformance a c)
      (fun a b h c => h) hs ?_ ?_ (ht ▸ hu ▸ .tuple hi hj shape ?_) h'
    · exact not_isUnion_of_lookup ht hi (by simp)
    · exact not_isUnion_of_lookup hu hj (by simp)
    · exact List.forall₂_iff_zip.mpr ⟨length_eq_of_sameShape shape, fun {f f'} hf => ih (f, f') hf⟩

end TypeInference.Substitution
