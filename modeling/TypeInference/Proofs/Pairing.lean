import TypeInference.Proofs.Correspondence

/-! # Types up to their numbers

Two analyses of the same statements may number their variables and composite types differently. A pairing tells which
numbers stand for the same thing. Types that are paired compare alike (`equal_paired`), and their unions are formed
alike (`distinctFrom_paired`), whatever the graphs have beyond the pairing. -/

namespace TypeInference

open List

variable {x y : Composite} {ts ts' : List Ty} {t t' u u' : Ty}

/-- What is numbered in an analysis. -/
inductive Numbered where
  | var
  | node
  | scope
  | symbol
deriving DecidableEq

/-- Numbers that stand for the same thing in two analyses. -/
abbrev Pairing := Set (Numbered × Nat × Nat)

/-- No number has two partners. -/
def Pairing.Bijective (ρ : Pairing) : Prop :=
  ∀ ⦃k : Numbered⦄ ⦃a b a' b' : Nat⦄, (k, a, b) ∈ ρ → (k, a', b') ∈ ρ → (a = a' ↔ b = b')

/-- The types are the same up to numbers. -/
inductive Ty.Paired (ρ : Pairing) : Ty → Ty → Prop where
  | scalar (s : Scalar) : Paired ρ (.scalar s) (.scalar s)
  | error : Paired ρ .error .error
  | var {a b : Nat} (h : (.var, a, b) ∈ ρ) : Paired ρ (.var a) (.var b)
  | node {i j : NodeId} (h : (.node, i, j) ∈ ρ) : Paired ρ (.node i) (.node j)

/-- The fields have one label and paired types. -/
structure TupleField.Paired (ρ : Pairing) (f f' : TupleField) : Prop where
  label : f.label = f'.label
  type : f.type.Paired ρ f'.type

/-- The composite types are the same up to numbers. A function type has a domain. -/
inductive Composite.Paired (ρ : Pairing) : Composite → Composite → Prop where
  | metatype {t t' : Ty} (h : t.Paired ρ t') : Paired ρ (.metatype t) (.metatype t')
  | function {d d' : NodeId} {c c' : Ty} (hd : (.node, d, d') ∈ ρ) (hc : c.Paired ρ c') :
      Paired ρ (.function (some d) c) (.function (some d') c')
  | tuple {label : String} {fs fs' : List TupleField} (h : List.Forall₂ (TupleField.Paired ρ) fs fs') :
      Paired ρ (.tuple label fs) (.tuple label fs')
  | union {cs cs' : List Ty} (h : List.Forall₂ (Ty.Paired ρ) cs cs') : Paired ρ (.union cs) (.union cs')

/-- Composite types that are paired are there, and the same up to numbers. -/
def TypeGraph.Paired (ρ : Pairing) (g g' : TypeGraph) : Prop :=
  ∀ ⦃i j : NodeId⦄, (.node, i, j) ∈ ρ → ∃ x y, g.get? i = some x ∧ g'.get? j = some y ∧ x.Paired ρ y

section

variable {ρ ρ' : Pairing} {g g' : TypeGraph}

theorem Ty.Paired.mono (hρ : ρ ⊆ ρ') (h : t.Paired ρ t') : t.Paired ρ' t' := by
  cases h with
  | scalar s => exact .scalar s
  | error => exact .error
  | var h => exact .var (hρ h)
  | node h => exact .node (hρ h)

theorem TupleField.Paired.mono (hρ : ρ ⊆ ρ') {f f' : TupleField} (h : f.Paired ρ f') : f.Paired ρ' f' :=
  ⟨h.label, h.type.mono hρ⟩

theorem Composite.Paired.mono (hρ : ρ ⊆ ρ') (h : x.Paired ρ y) : x.Paired ρ' y := by
  cases h with
  | metatype h => exact .metatype (h.mono hρ)
  | function hd hc => exact .function (hρ hd) (hc.mono hρ)
  | tuple h => exact .tuple (h.imp fun _ _ hf => hf.mono hρ)
  | union h => exact .union (h.imp fun _ _ ht => ht.mono hρ)

theorem Ty.Paired.eq_iff (hρ : ρ.Bijective) (ht : t.Paired ρ t') (hu : u.Paired ρ u') : t = u ↔ t' = u' := by
  cases ht with
  | scalar s => cases hu <;> simp
  | error => cases hu <;> simp
  | var h =>
    cases hu with
    | var h' => simpa [Int.natCast_inj] using hρ h h'
    | _ => simp
  | node h =>
    cases hu with
    | node h' => simpa using hρ h h'
    | _ => simp

/-! ### Parts -/

theorem unionCases?_paired (hg : g.Paired ρ g') (h : t.Paired ρ t') :
    Option.Rel (Forall₂ (Ty.Paired ρ)) (g.unionCases? t) (g'.unionCases? t') := by
  cases h with
  | node h =>
    obtain ⟨x, y, hx, hy, hxy⟩ := hg h
    unfold TypeGraph.unionCases?
    simp only [hx, hy]
    cases hxy with
    | union h => exact .some h
    | _ => exact .none
  | _ => exact .none

theorem metatype?_paired (hg : g.Paired ρ g') (h : t.Paired ρ t') :
    Option.Rel (Ty.Paired ρ) (g.metatype? t) (g'.metatype? t') := by
  cases h with
  | node h =>
    obtain ⟨x, y, hx, hy, hxy⟩ := hg h
    unfold TypeGraph.metatype?
    simp only [hx, hy]
    cases hxy with
    | metatype h => exact .some h
    | _ => exact .none
  | _ => exact .none

theorem tuple?_paired (hg : g.Paired ρ g') (h : t.Paired ρ t') :
    Option.Rel (fun p p' => p.1 = p'.1 ∧ Forall₂ (TupleField.Paired ρ) p.2 p'.2) (g.tuple? t) (g'.tuple? t') := by
  cases h with
  | node h =>
    obtain ⟨x, y, hx, hy, hxy⟩ := hg h
    unfold TypeGraph.tuple?
    simp only [hx, hy]
    cases hxy with
    | tuple h => exact .some ⟨rfl, h⟩
    | _ => exact .none
  | _ => exact .none

theorem function?_paired (hg : g.Paired ρ g') (h : t.Paired ρ t') :
    Option.Rel (fun p p' => Option.Rel (fun d d' => (.node, d, d') ∈ ρ) p.1 p'.1 ∧ p.2.Paired ρ p'.2) (g.function? t)
      (g'.function? t') := by
  cases h with
  | node h =>
    obtain ⟨x, y, hx, hy, hxy⟩ := hg h
    unfold TypeGraph.function?
    simp only [hx, hy]
    cases hxy with
    | function hd hc => exact .some ⟨.some hd, hc⟩
    | _ => exact .none
  | _ => exact .none

/-! ### Equality -/

theorem Composite.Paired.corresponds (h : x.Paired ρ y) : x.Corresponds (Ty.Paired ρ) y := by
  cases h with
  | metatype h => exact .metatype h
  | function hd hc => exact .function (.some (.node hd)) hc
  | tuple h => exact .tuple (h.imp fun _ _ hf => ⟨hf.label, hf.type⟩)
  | union h => exact .union h

theorem correspondence_paired (hρ : ρ.Bijective) (hg : g.Paired ρ g') : Correspondence (Ty.Paired ρ) g g' where
  injective := Ty.Paired.eq_iff hρ
  isNode h := by cases h <;> simp
  nodes h := by
    cases h with
    | node h =>
      obtain ⟨x, y, hx, hy, hxy⟩ := hg h
      exact ⟨x, y, hx, hy, hxy.corresponds⟩

theorem equal_paired (hρ : ρ.Bijective) (hg : g.Paired ρ g') (ht : t.Paired ρ t') (hu : u.Paired ρ u') :
    g.equal t u = g'.equal t' u' :=
  (correspondence_paired hρ hg).equal_eq ht hu

/-! ### Unions -/

theorem openUnions_paired (hg : g.Paired ρ g') (h : Forall₂ (Ty.Paired ρ) ts ts') :
    Forall₂ (Ty.Paired ρ) (g.openUnions ts) (g'.openUnions ts') := by
  unfold TypeGraph.openUnions
  induction h with
  | nil => exact .nil
  | @cons t t' _ _ ht _ ih =>
    simp only [flatMap_cons]
    refine rel_append ?_ ih
    have hcases := unionCases?_paired hg ht
    revert hcases
    generalize g.unionCases? t = cs
    generalize g'.unionCases? t' = cs'
    rintro (hcs | _)
    · exact hcs
    · exact .cons ht .nil

theorem distinctFrom_paired (hρ : ρ.Bijective) (hg : g.Paired ρ g') (h : Forall₂ (Ty.Paired ρ) ts ts') :
    ∀ {known known' us : List Ty}, Forall₂ (Ty.Paired ρ) known known' → g.distinctFrom known ts = .ok us →
      ∃ us', g'.distinctFrom known' ts' = .ok us' ∧ Forall₂ (Ty.Paired ρ) us us' := by
  induction h with
  | nil =>
    intro known known' us hknown hus
    cases hus
    exact ⟨known', rfl, hknown⟩
  | @cons t t' _ _ ht _ ih =>
    intro known known' us hknown hus
    have hany : known.anyM (g.equal t) = known'.anyM (g'.equal t') :=
      anyM_congr (hknown.imp fun u u' hu => equal_paired hρ hg ht hu)
    obtain ⟨found, hfound, hus⟩ := bind_eq_ok.mp hus
    rw [hany] at hfound
    cases found with
    | true =>
      obtain ⟨us', hus', hpaired⟩ := ih hknown hus
      exact ⟨us', bind_eq_ok.mpr ⟨true, hfound, hus'⟩, hpaired⟩
    | false =>
      obtain ⟨us', hus', hpaired⟩ := ih (rel_append hknown (.cons ht .nil)) hus
      exact ⟨us', bind_eq_ok.mpr ⟨false, hfound, hus'⟩, hpaired⟩

end

end TypeInference
