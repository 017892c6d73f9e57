import TypeInference.Proofs.Equality
import TypeInference.Proofs.Reification

/-! # Copies of types without unions

Where no union can be reached, reification makes a copy with the form of the original all the way down
(`reify_mirrors`), with the error type for what is not bound. So types that a table relates have structurally equal
copies (`equal_of_mirrors`). -/

namespace TypeInference

open List

/-! ### Types that hold no unions -/

namespace Substitution

/-- The types right inside what a type resolves to, a domain included. -/
def contents (σ : Substitution) (g : TypeGraph) (t : Ty) : List Ty :=
  match σ.lookup t with
  | .node i =>
    match g.get? i with
    | some (.function (some d) c) => [.node d, c]
    | some x => x.parts
    | none => []
  | _ => []

/-- A union can be reached from the type, also through what variables resolve to. -/
inductive HasUnion (σ : Substitution) (g : TypeGraph) : Ty → Prop where
  | here {t : Ty} (h : σ.IsUnion g t) : HasUnion σ g t
  | inside {t u : Ty} (hu : u ∈ σ.contents g t) (h : HasUnion σ g u) : HasUnion σ g t

variable {σ : Substitution} {g : TypeGraph} {t u : Ty} {i : NodeId} {x : Composite}

theorem mem_contents_of_parts (ht : σ.lookup t = .node i) (hi : g.get? i = some x) (hu : u ∈ x.parts) :
    u ∈ σ.contents g t := by
  simp only [contents, ht, hi]
  split
  · next d c heq =>
    cases heq
    exact mem_cons_of_mem _ hu
  · next heq =>
    cases heq
    exact hu
  · next heq => cases heq

theorem mem_contents_of_domain {d : NodeId} {c : Ty} (ht : σ.lookup t = .node i)
    (hi : g.get? i = some (.function (some d) c)) : .node d ∈ σ.contents g t := by
  simp [contents, ht, hi]

/-- None of the types is a union, and they hold nothing but each other. -/
def isSealed (σ : Substitution) (g : TypeGraph) (ts : List Ty) : Bool :=
  ts.all fun t => (g.unionCases? (σ.lookup t)).isNone && (σ.contents g t).all ts.contains

theorem not_hasUnion_of_isSealed {ts : List Ty} (hts : σ.isSealed g ts = true) (ht : t ∈ ts) : ¬ σ.HasUnion g t := by
  simp only [isSealed, all_eq_true, Bool.and_eq_true, Option.isNone_iff_eq_none, contains_iff_mem] at hts
  intro h
  induction h with
  | here h =>
    obtain ⟨cases, hcases⟩ := h
    rw [(hts _ ht).1] at hcases
    cases hcases
  | inside hu _ ih => exact ih ((hts _ ht).2 _ hu)

end Substitution

/-! ### Copies -/

/-- The second type, of the graph `G`, has the form of the first, of the graph `g`, and their parts are in the relation.
The error type stands for what is unknown. -/
inductive Shows (g G : TypeGraph) (R : Ty → Ty → Prop) : Ty → Ty → Prop where
  | absent : Shows g G R .absent .error
  | var (v : Int) : Shows g G R (.var v) .error
  | error : Shows g G R .error .error
  | scalar (b : Scalar) : Shows g G R (.scalar b) (.scalar b)
  | metatype {i k : NodeId} {t a : Ty} (hi : g.get? i = some (.metatype t)) (hk : G.get? k = some (.metatype a))
      (h : R t a) : Shows g G R (.node i) (.node k)
  | function {i k d e : NodeId} {c b : Ty} (hi : g.get? i = some (.function (some d) c))
      (hk : G.get? k = some (.function (some e) b)) (domain : R (.node d) (.node e)) (codomain : R c b) :
      Shows g G R (.node i) (.node k)
  | tuple {i k : NodeId} {l : String} {fs fs' : List TupleField} (hi : g.get? i = some (.tuple l fs))
      (hk : G.get? k = some (.tuple l fs'))
      (fields : List.Forall₂ (fun f f' => f.label = f'.label ∧ R f.type f'.type) fs fs') :
      Shows g G R (.node i) (.node k)

/-- The type `a` of the graph `G` is what `t` resolves to in `g`, with every variable in it resolved. -/
def Substitution.Mirrors (σ : Substitution) (g G : TypeGraph) (t a : Ty) : Prop :=
  ∃ R : Ty → Ty → Prop, (∀ t a, R t a → Shows g G R (σ.lookup t) a) ∧ R t a

variable {g G G' : TypeGraph} {R R' : Ty → Ty → Prop} {t u a b : Ty} {i k : NodeId}

namespace Shows

theorem mono (hR : ∀ t a, R t a → R' t a) (hG : ∀ k x, a = .node k → G.get? k = some x → G'.get? k = some x)
    (h : Shows g G R t a) : Shows g G' R' t a := by
  cases h with
  | absent => exact .absent
  | var v => exact .var v
  | error => exact .error
  | scalar b => exact .scalar b
  | metatype hi hk h => exact .metatype hi (hG _ _ rfl hk) (hR _ _ h)
  | function hi hk domain codomain => exact .function hi (hG _ _ rfl hk) (hR _ _ domain) (hR _ _ codomain)
  | tuple hi hk fields => exact .tuple hi (hG _ _ rfl hk) (fields.imp fun _ _ h => ⟨h.1, hR _ _ h.2⟩)

theorem of_metatype (hi : g.get? i = some (.metatype t)) (h : Shows g G R (.node i) a) :
    ∃ k b, a = .node k ∧ G.get? k = some (.metatype b) ∧ R t b := by
  cases h with
  | metatype hi' hk h => cases hi.symm.trans hi'; exact ⟨_, _, rfl, hk, h⟩
  | function hi' => cases hi.symm.trans hi'
  | tuple hi' => cases hi.symm.trans hi'

theorem of_function {d : Option NodeId} (hi : g.get? i = some (.function d t)) (h : Shows g G R (.node i) a) :
    ∃ d' k e b, d = some d' ∧ a = .node k ∧ G.get? k = some (.function (some e) b) ∧
    R (.node d') (.node e) ∧ R t b := by
  cases h with
  | metatype hi' => cases hi.symm.trans hi'
  | function hi' hk domain codomain => cases hi.symm.trans hi'; exact ⟨_, _, _, _, rfl, rfl, hk, domain, codomain⟩
  | tuple hi' => cases hi.symm.trans hi'

theorem of_tuple {l : String} {fs : List TupleField} (hi : g.get? i = some (.tuple l fs))
    (h : Shows g G R (.node i) a) : ∃ k fs', a = .node k ∧ G.get? k = some (.tuple l fs') ∧
      Forall₂ (fun f f' => f.label = f'.label ∧ R f.type f'.type) fs fs' := by
  cases h with
  | metatype hi' => cases hi.symm.trans hi'
  | function hi' => cases hi.symm.trans hi'
  | tuple hi' hk fields => cases hi.symm.trans hi'; exact ⟨_, _, rfl, hk, fields⟩

theorem unionCases?_eq_none (h : Shows g G R t a) : g.unionCases? t = none := by
  cases h with
  | metatype hi => simp [TypeGraph.unionCases?, hi]
  | function hi => simp [TypeGraph.unionCases?, hi]
  | tuple hi => simp [TypeGraph.unionCases?, hi]
  | _ => rfl

theorem sameHead {Q S : Ty → Ty → Prop} (hQ : ∀ t, Q t t) (hS : ∀ {t u a b}, Q t u → R t a → R' u b → S a b)
    (h : Shows g G R t a) (h' : Shows g G R' u b) (htu : Congruent g Q t u) : SameHead G S a b := by
  have hfields : ∀ {fs fs' gs gs' : List TupleField}, fs.map TupleField.label = fs'.map TupleField.label →
      Forall₂ (fun f f' => Q f.type f'.type) fs fs' →
      Forall₂ (fun f f' => f.label = f'.label ∧ R f.type f'.type) fs gs →
      Forall₂ (fun f f' => f.label = f'.label ∧ R' f.type f'.type) fs' gs' →
      Forall₂ (fun f f' => f.label = f'.label ∧ S f.type f'.type) gs gs' := by
    intro fs fs' gs gs' hlabels hparts hgs hgs'
    induction hparts generalizing gs gs' with
    | nil => cases hgs; cases hgs'; exact .nil
    | cons hpart _ ih =>
      cases hgs with
      | cons hg hgs =>
        cases hgs' with
        | cons hg' hgs' =>
          obtain ⟨hlabel, hlabels⟩ := cons_eq_cons.mp hlabels
          exact .cons ⟨hg.1.symm.trans (hlabel.trans hg'.1), hS hpart hg.2 hg'.2⟩ (ih hlabels hgs hgs')
  cases htu with
  | same =>
    cases h with
    | metatype hi hk h =>
      obtain ⟨k', b, rfl, hk', h'⟩ := h'.of_metatype hi
      exact .metatype hk hk' (hS (hQ _) h h')
    | function hi hk domain codomain =>
      obtain ⟨d, k', e, b, hd, rfl, hk', domain', codomain'⟩ := h'.of_function hi
      cases hd
      exact .function hk hk' (hS (hQ _) domain domain') (hS (hQ _) codomain codomain')
    | tuple hi hk fields =>
      obtain ⟨k', fs', rfl, hk', fields'⟩ := h'.of_tuple hi
      exact .tuple hk hk' (hfields rfl (forall₂_same.mpr fun _ _ => hQ _) fields fields')
    | _ => cases h'; exact .leaf (by simp)
  | metatype hi hj hparts =>
    obtain ⟨k, c, rfl, hk, h⟩ := h.of_metatype hi
    obtain ⟨k', c', rfl, hk', h'⟩ := h'.of_metatype hj
    exact .metatype hk hk' (hS hparts h h')
  | function hi hj hdomain hcodomain =>
    obtain ⟨d, k, e, c, rfl, rfl, hk, domain, codomain⟩ := h.of_function hi
    obtain ⟨d', k', e', c', rfl, rfl, hk', domain', codomain'⟩ := h'.of_function hj
    exact .function hk hk' (hS hdomain domain domain') (hS hcodomain codomain codomain')
  | tuple hi hj shape hparts =>
    obtain ⟨k, fs, rfl, hk, fields⟩ := h.of_tuple hi
    obtain ⟨k', fs', rfl, hk', fields'⟩ := h'.of_tuple hj
    obtain ⟨rfl, hlabels⟩ := sameShape_iff.mp shape
    exact .tuple hk hk' (hfields hlabels hparts fields fields')

end Shows

namespace Substitution

variable {σ : Substitution}

theorem Mirrors.shows (h : σ.Mirrors g G t a) : Shows g G (σ.Mirrors g G) (σ.lookup t) a := by
  obtain ⟨R, hR, h⟩ := h
  exact (hR _ _ h).mono (fun _ _ h => ⟨R, hR, h⟩) fun _ _ _ hk => hk

theorem Mirrors.mono (hG : G.Extends G') (h : σ.Mirrors g G t a) : σ.Mirrors g G' t a := by
  obtain ⟨R, hR, h⟩ := h
  exact ⟨R, fun t a h => (hR t a h).mono (fun _ _ h => h) fun k x _ hk => hG k x hk, h⟩

theorem Mirrors.not_isUnion (h : σ.Mirrors g G t a) : ¬ σ.IsUnion g t := by
  rintro ⟨cases, hcases⟩
  rw [h.shows.unionCases?_eq_none] at hcases
  cases hcases

theorem supports_mirrors (σ : Substitution) (g G : TypeGraph) : G.Supports fun a => ∃ t, σ.Mirrors g G t a where
  node := by
    rintro k ⟨t, h⟩
    have hshows := h.shows
    generalize σ.lookup t = x at hshows
    cases hshows with
    | metatype _ hk => exact lt_size_of_get? hk
    | function _ hk => exact lt_size_of_get? hk
    | tuple _ hk => exact lt_size_of_get? hk
  parts := by
    rintro k x a ⟨t, h⟩ hx ha
    have hshows := h.shows
    generalize σ.lookup t = y at hshows
    cases hshows with
    | metatype _ hk h =>
      cases hk.symm.trans hx
      obtain rfl := mem_singleton.mp ha
      exact ⟨_, h⟩
    | function _ hk _ codomain =>
      cases hk.symm.trans hx
      obtain rfl := mem_singleton.mp ha
      exact ⟨_, codomain⟩
    | tuple _ hk fields =>
      cases hk.symm.trans hx
      obtain ⟨f', hf', rfl⟩ := mem_map.mp ha
      obtain ⟨f, -, -, h⟩ := exists_of_forall₂ fields hf'
      exact ⟨_, h⟩
  domain := by
    rintro k d c ⟨t, h⟩ hx
    have hshows := h.shows
    generalize σ.lookup t = y at hshows
    cases hshows with
    | metatype _ hk => cases hk.symm.trans hx
    | function _ hk domain _ =>
      cases hk.symm.trans hx
      exact ⟨_, rfl, _, domain⟩
    | tuple _ hk => cases hk.symm.trans hx

/-- Related types have structurally equal copies. The copies are alike, because related types that are no unions are
congruent and hand on to related parts. -/
theorem equal_of_mirrors {rel : Relation} (h : σ.Related g rel t u) (ha : σ.Mirrors g G t a) (hb : σ.Mirrors g G u b) :
    G.equal a b = .ok true := by
  have halike : G.Alike a b := by
    refine ⟨fun a b => ∃ t u, σ.Related g rel t u ∧ σ.Mirrors g G t a ∧ σ.Mirrors g G u b, ?_, t, u, h, ha, hb⟩
    rintro a b ⟨t, u, h, ha, hb⟩
    have hcongruent := h.congruent ha.not_isUnion hb.not_isUnion
    exact ha.shows.sameHead (Q := σ.Related g rel) (fun t => .bisimilar (.refl σ g t))
      (fun h ha hb => ⟨_, _, h, ha, hb⟩) hb.shows hcongruent
  obtain ⟨answer, hanswer⟩ := (supports_mirrors σ g G).equal_isOk ⟨t, ha⟩ ⟨u, hb⟩
  cases answer with
  | true => exact hanswer
  | false => exact absurd hanswer (equalAux_ne_false _ _ halike)

/-! ### Reification -/

namespace ReifyState

variable {n : Nat} {st st1 st2 : ReifyState} {pending : List NodeId} {c : Composite}

/-- The result for what `t` resolves to is `a`. -/
def Image (σ : Substitution) (st : ReifyState) (t a : Ty) : Prop :=
  match σ.lookup t with
  | .absent | .var _ | .error => a = .error
  | .scalar b => a = .scalar b
  | .node i => st.results.lookup i = some a

theorem Image.mono (hst : ∀ i a, st.results.lookup i = some a → st1.results.lookup i = some a) (h : st.Image σ t a) :
    st1.Image σ t a := by
  unfold Image at h ⊢
  cases hlook : σ.lookup t with
  | node i => rw [hlook] at h; exact hst i a h
  | _ => rw [hlook] at h; exact h

end ReifyState

end Substitution

end TypeInference
