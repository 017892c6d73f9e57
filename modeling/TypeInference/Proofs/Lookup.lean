import Mathlib.Data.List.Nodup
import Mathlib.Data.List.Perm.Subperm
import Mathlib.Logic.Relation
import TypeInference.Substitution.Basic

/-! # Chains of variables

In a table without a circle of variables every chain ends (`Grounded`), `lookup` is its end, and the end is no bound
variable. A table that binds one more unbound variable stays grounded and extends the old one, and lookups in it factor
through those in the old one (`lookup_lookup`). -/

namespace TypeInference.Substitution

open List

variable {v : Int} {vs : List Int} {t u : Ty}

def Links (s : Substitution) (v w : Int) : Prop := s.get? v = some (.var w)

/-- No chain of variables comes back to where it started. -/
def NoVariableCycle (s : Substitution) : Prop := ∀ v, ¬ Relation.TransGen s.Links v v

/-- The type is no bound variable. -/
def IsEnd (s : Substitution) (t : Ty) : Prop := ∀ v, t = .var v → s.get? v = none

/-- The chain that starts with the first type visits the variables of the list and ends with the second. -/
inductive Chain (s : Substitution) : Ty → List Int → Ty → Prop where
  | stop {t : Ty} (h : s.IsEnd t) : Chain s t [] t
  | link {v : Int} {t u : Ty} {vs : List Int} (h : s.get? v = some t) (rest : Chain s t vs u) :
      Chain s (.var v) (v :: vs) u

/-- Every chain ends. -/
def Grounded (s : Substitution) : Prop := ∀ t, ∃ vs u, s.Chain t vs u

variable {s s' : Substitution}

/-! ### Entries -/

theorem get?_insertEntry (v w : Int) (t : Ty) (entries : List (Int × Ty)) :
    (insertEntry v t entries).lookup w = if w = v then some t else entries.lookup w := by
  induction entries with
  | nil =>
    by_cases h : w = v
    · simp [insertEntry, h]
    · have hv : (w == v) = false := by simpa using h
      simp [insertEntry, lookup_cons, hv, h]
  | cons e rest ih =>
    obtain ⟨x, u⟩ := e
    unfold insertEntry
    by_cases hw : w = v
    · subst hw
      split
      · simp
      · split
        · simp
        · have hx : (w == x) = false := by simpa using by assumption
          simp [lookup_cons, hx, ih]
    · have hv : (w == v) = false := by simpa using hw
      split
      · simp [lookup_cons, hv]
      · split
        · subst x
          simp [lookup_cons, hv]
        · simp only [lookup_cons, ih, hw, if_false]

theorem get?_bind (s : Substitution) (ht : t ≠ .var v) (w : Int) :
    (s.bind v t).get? w = if w = v then some t else s.get? w := by
  simp only [bind, ht, if_false, get?]
  exact get?_insertEntry v w t s.entries

theorem mem_vars_of_get? (h : s.get? v = some t) : v ∈ s.vars := by
  obtain ⟨l1, l2, hl, -⟩ := List.lookup_eq_some_iff.mp h
  simp [vars, hl]

/-! ### Chains -/

theorem Chain.isEnd (h : s.Chain t vs u) : s.IsEnd u := by
  induction h with
  | stop h => exact h
  | link _ _ ih => exact ih

theorem Chain.unique {u' : Ty} {vs' : List Int} (h : s.Chain t vs u) (h' : s.Chain t vs' u') : vs = vs' ∧ u = u' := by
  induction h generalizing vs' with
  | stop hend =>
    cases h' with
    | stop _ => exact ⟨rfl, rfl⟩
    | link hget _ => simp [hend _ rfl] at hget
  | link hget _ ih =>
    cases h' with
    | stop hend => simp [hend _ rfl] at hget
    | link hget' rest' =>
      obtain rfl : _ = _ := Option.some.inj (hget.symm.trans hget')
      obtain ⟨rfl, rfl⟩ := ih rest'
      exact ⟨rfl, rfl⟩

theorem Chain.subset_vars (h : s.Chain t vs u) : vs ⊆ s.vars := by
  induction h with
  | stop _ => exact nil_subset _
  | link hget _ ih => exact cons_subset.mpr ⟨mem_vars_of_get? hget, ih⟩

theorem Chain.drop (h : s.Chain t vs u) (hv : v ∈ vs) : ∃ ws, s.Chain (.var v) ws u ∧ ws.length ≤ vs.length := by
  induction h with
  | stop _ => simp at hv
  | link hget rest ih =>
    rcases mem_cons.mp hv with rfl | hv
    · exact ⟨_, .link hget rest, Nat.le_refl _⟩
    · obtain ⟨ws, hws, hle⟩ := ih hv
      exact ⟨ws, hws, Nat.le_succ_of_le hle⟩

/-- A chain that ends visits no variable twice: from the second visit on it would have to be both as long as from the
first and shorter. -/
theorem Chain.nodup (h : s.Chain t vs u) : vs.Nodup := by
  induction h with
  | stop _ => exact nodup_nil
  | link hget rest ih =>
    refine nodup_cons.mpr ⟨fun hv => ?_, ih⟩
    obtain ⟨ws, hws, hle⟩ := rest.drop hv
    obtain ⟨rfl, -⟩ := hws.unique (.link hget rest)
    exact Nat.not_succ_le_self _ hle

theorem Chain.length_le (h : s.Chain t vs u) : vs.length ≤ s.size := by
  have hsub : vs.Subperm s.vars := subperm_of_subset h.nodup h.subset_vars
  simpa [vars, size] using hsub.length_le

theorem Chain.lookupAux_eq (h : s.Chain t vs u) : ∀ {n : Nat}, vs.length ≤ n → s.lookupAux n t = u := by
  induction h with
  | @stop t hend =>
    intro n _
    cases t with
    | var v => cases n <;> simp [lookupAux, hend v rfl]
    | _ => simp [lookupAux]
  | link hget _ ih =>
    intro n hn
    cases n with
    | zero => simp at hn
    | succ n =>
      simp only [lookupAux, hget]
      exact ih (by simpa using hn)

theorem Chain.lookup_eq (h : s.Chain t vs u) : s.lookup t = u :=
  h.lookupAux_eq (Nat.le_succ_of_le h.length_le)

/-! ### Circles of variables -/

/-- The chain that starts with the type comes to the variable. -/
def ComesTo (s : Substitution) (t : Ty) (v : Int) : Prop := ∃ w, t = .var w ∧ Relation.ReflTransGen s.Links w v

/-- The chain from the variable comes back to it. -/
def OnCircle (s : Substitution) (v : Int) : Prop := Relation.TransGen s.Links v v

theorem Links.unique : Relator.RightUnique s.Links := by
  intro v w w' hw hw'
  exact Ty.var.inj (Option.some.inj (hw.symm.trans hw'))

theorem Links.lookupAux_eq {w : Int} (h : s.Links v w) (n : Nat) :
    s.lookupAux (n + 1) (.var v) = s.lookupAux n (.var w) := by
  rw [lookupAux, h]

theorem OnCircle.next {w : Int} (hv : s.OnCircle v) (h : s.Links v w) : s.OnCircle w := by
  obtain ⟨x, hx, hback⟩ := Relation.TransGen.head'_iff.mp hv
  obtain rfl := Links.unique h hx
  exact .tail' hback h

/-- What a variable of a circle leads to leads back to it. -/
theorem OnCircle.back {w : Int} (hv : s.OnCircle v) (h : Relation.ReflTransGen s.Links v w) :
    Relation.TransGen s.Links w v := by
  induction h with
  | refl => exact hv
  | tail _ hlink ih =>
    obtain ⟨y, hy, hback⟩ := Relation.TransGen.head'_iff.mp ih
    obtain rfl := Links.unique hlink hy
    exact .trans_right hback hv

theorem OnCircle.lookupAux (hv : s.OnCircle v) (n : Nat) :
    ∃ w, s.lookupAux n (.var v) = .var w ∧ Relation.ReflTransGen s.Links v w ∧ s.OnCircle w := by
  induction n generalizing v with
  | zero => exact ⟨v, rfl, .refl, hv⟩
  | succ n ih =>
    obtain ⟨x, hx, -⟩ := Relation.TransGen.head'_iff.mp hv
    obtain ⟨w, hw, hlinks, hcircle⟩ := ih (hv.next hx)
    exact ⟨w, (hx.lookupAux_eq n).trans hw, .head hx hlinks, hcircle⟩

/-- From a variable that all variables of a list lead to, the chain goes on to one that is not in the list, or it has
closed a circle. So it ends, or is on a circle, before the list has outgrown the table. -/
theorem chain_or_onCircle (n : Nat) : ∀ (seen : List Int) (v : Int), seen.Nodup → seen ⊆ s.vars →
    (∀ x ∈ seen, Relation.TransGen s.Links x v) → s.size < seen.length + n → (∃ vs u, s.Chain (.var v) vs u) ∨
      ∃ w, s.lookupAux n (.var v) = .var w ∧ Relation.ReflTransGen s.Links v w ∧ s.OnCircle w := by
  induction n with
  | zero =>
    intro seen v hnodup hsub _ hlt
    have hle := (subperm_of_subset hnodup hsub).length_le
    simp only [vars, length_map] at hle
    simp only [size] at hlt
    omega
  | succ n ih =>
    intro seen v hnodup hsub hreach hlt
    cases hget : s.get? v with
    | none => exact .inl ⟨[], _, .stop fun w hw => by cases hw; exact hget⟩
    | some t =>
      cases t with
      | var w =>
        have hlink : s.Links v w := hget
        by_cases hv : v ∈ seen
        · exact .inr (OnCircle.lookupAux (hreach v hv) (n + 1))
        have hreach' : ∀ x ∈ v :: seen, Relation.TransGen s.Links x w := by
          intro x hx
          rcases mem_cons.mp hx with rfl | hx
          · exact .single hlink
          · exact (hreach x hx).tail hlink
        rcases ih (v :: seen) w (nodup_cons.mpr ⟨hv, hnodup⟩) (cons_subset.mpr ⟨mem_vars_of_get? hget, hsub⟩) hreach'
          (by simp only [length_cons]; omega) with ⟨vs, u, hc⟩ | ⟨x, hx, hlinks, hcircle⟩
        · exact .inl ⟨v :: vs, u, .link hget hc⟩
        · exact .inr ⟨x, (hlink.lookupAux_eq n).trans hx, .head hlink hlinks, hcircle⟩
      | _ => exact .inl ⟨[v], _, .link hget (.stop fun w hw => by cases hw)⟩

theorem chain_or_lookup_onCircle (s : Substitution) (t : Ty) :
    (∃ vs u, s.Chain t vs u) ∨ ∃ w, s.lookup t = .var w ∧ s.ComesTo t w ∧ s.OnCircle w := by
  cases t with
  | var v =>
    refine (chain_or_onCircle (s.size + 1) [] v nodup_nil (nil_subset _) (by simp) (by simp)).imp_right fun h => ?_
    obtain ⟨w, hw, hlinks, hcircle⟩ := h
    exact ⟨w, hw, ⟨v, rfl, hlinks⟩, hcircle⟩
  | _ => exact .inl ⟨[], _, .stop fun w hw => by cases hw⟩

theorem Chain.along {w : Int} (h : s.Chain (.var v) vs u) (hlinks : Relation.ReflTransGen s.Links v w) :
    ∃ ws, s.Chain (.var w) ws u := by
  induction hlinks with
  | refl => exact ⟨vs, h⟩
  | tail _ hlink ih =>
    obtain ⟨ws, hws⟩ := ih
    cases hws with
    | stop hend => exact absurd hlink (by simp [Links, hend _ rfl])
    | link hget rest =>
      obtain rfl := Option.some.inj (hget.symm.trans hlink)
      exact ⟨_, rest⟩

theorem Chain.not_onCircle (h : s.Chain (.var v) vs u) : ¬ s.OnCircle v := by
  intro hv
  obtain ⟨w, hw, -, hcircle⟩ := hv.lookupAux (s.size + 1)
  obtain ⟨x, hx, -⟩ := Relation.TransGen.head'_iff.mp hcircle
  exact absurd hx (by simp [Links, h.isEnd w (h.lookup_eq.symm.trans hw)])

theorem NoVariableCycle.grounded (hs : s.NoVariableCycle) : s.Grounded := by
  intro t
  rcases s.chain_or_lookup_onCircle t with hc | ⟨w, -, -, hw⟩
  · exact hc
  · exact absurd hw (hs w)

theorem Grounded.noVariableCycle (h : s.Grounded) : s.NoVariableCycle := by
  intro v hv
  obtain ⟨vs, u, hc⟩ := h (.var v)
  exact hc.not_onCircle hv

theorem noVariableCycle_empty : empty.NoVariableCycle := by
  intro v h
  obtain ⟨w, hw, -⟩ := Relation.TransGen.head'_iff.mp h
  simp [Links, get?, empty] at hw

/-! ### Lookups in grounded tables -/

theorem lookup_of_isEnd (h : s.IsEnd t) : s.lookup t = t := (Chain.stop h).lookup_eq

/-- The number of steps of a lookup is enough for every chain, however long. If the chain from a type comes to no
circle, it ends, with a type that is no bound variable, and `lookup` finds this end, which is its own lookup. If it
comes to a circle, `lookup` finds a bound variable of this circle. -/
theorem lookup_end_or_circle (s : Substitution) (t : Ty) :
    ((∀ v, s.ComesTo t v → ¬ s.OnCircle v) →
      ∃ vs u, s.Chain t vs u ∧ s.IsEnd u ∧ s.lookup t = u ∧ s.lookup u = u) ∧
    ∀ v, s.ComesTo t v → s.OnCircle v → ∃ w, s.lookup t = .var w ∧ (s.get? w).isSome ∧
      Relation.TransGen s.Links v w ∧ Relation.TransGen s.Links w v := by
  rcases s.chain_or_lookup_onCircle t with ⟨vs, u, hc⟩ | ⟨w, hw, ⟨x, rfl, hxw⟩, hcircle⟩
  · refine ⟨fun _ => ⟨vs, u, hc, hc.isEnd, hc.lookup_eq, lookup_of_isEnd hc.isEnd⟩, ?_⟩
    rintro v ⟨x, rfl, hxv⟩ hv
    obtain ⟨ws, hws⟩ := hc.along hxv
    exact absurd hv hws.not_onCircle
  · refine ⟨fun hno => absurd hcircle (hno w ⟨x, rfl, hxw⟩), ?_⟩
    rintro v ⟨_, heq, hxv⟩ hv
    cases heq
    -- both variables are on the chain from `x`, so one of them comes first and leads to the other
    have hwv : Relation.TransGen s.Links w v := by
      rcases Relation.ReflTransGen.total_of_right_unique Links.unique hxv hxw with h | h
      · exact hv.back h
      · exact hcircle.trans_left h
    obtain ⟨y, hy, -⟩ := Relation.TransGen.head'_iff.mp hwv
    exact ⟨w, hw, Option.isSome_of_eq_some hy, hcircle.back hwv.to_reflTransGen, hwv⟩

theorem lookup_of_ne_var (h : ∀ v, t ≠ .var v) : s.lookup t = t :=
  lookup_of_isEnd fun v hv => absurd hv (h v)

@[simp] theorem lookup_node (i : NodeId) : s.lookup (.node i) = .node i :=
  lookup_of_ne_var fun _ h => by cases h

namespace Grounded

theorem isEnd_lookup (hs : s.Grounded) (t : Ty) : s.IsEnd (s.lookup t) := by
  obtain ⟨vs, u, hc⟩ := hs t
  rw [hc.lookup_eq]
  exact hc.isEnd

@[simp] theorem lookup_idem (hs : s.Grounded) (t : Ty) : s.lookup (s.lookup t) = s.lookup t :=
  lookup_of_isEnd (hs.isEnd_lookup t)

theorem lookup_of_get? (hs : s.Grounded) (h : s.get? v = some t) : s.lookup (.var v) = s.lookup t := by
  obtain ⟨vs, u, hc⟩ := hs t
  rw [(Chain.link h hc).lookup_eq, hc.lookup_eq]

end Grounded

/-! ### Extension -/

/-- The second table keeps every binding of the first. -/
def Extends (s s' : Substitution) : Prop := ∀ v t, s.get? v = some t → s'.get? v = some t

theorem Extends.refl (s : Substitution) : s.Extends s := fun _ _ h => h

theorem Extends.trans {s1 s2 s3 : Substitution} (h : s1.Extends s2) (h' : s2.Extends s3) : s1.Extends s3 :=
  fun v t hv => h' v t (h v t hv)

theorem Extends.lookup_lookup (h : s.Extends s') (hs : s.Grounded) (hs' : s'.Grounded) (t : Ty) :
    s'.lookup (s.lookup t) = s'.lookup t := by
  obtain ⟨vs, u, hc⟩ := hs t
  rw [hc.lookup_eq]
  induction hc with
  | stop _ => rfl
  | link hget _ ih => rw [ih, hs'.lookup_of_get? (h _ _ hget)]

theorem Extends.lookup_eq (h : s.Extends s') (hs : s.Grounded) (hs' : s'.Grounded) (ht : ∀ v, s.lookup t ≠ .var v) :
    s'.lookup t = s.lookup t := by
  rw [← h.lookup_lookup hs hs' t]
  exact lookup_of_ne_var ht

theorem extends_bind (hv : s.get? v = none) : s.Extends (s.bind v t) := by
  intro w u hw
  by_cases ht : t = .var v
  · simpa [bind, ht] using hw
  · have hne : w ≠ v := by
      rintro rfl
      simp [hv] at hw
    simpa [get?_bind s ht, hne] using hw

theorem Grounded.bind (hs : s.Grounded) (hv : s.get? v = none) (ht : s.IsEnd t) : (s.bind v t).Grounded := by
  by_cases hself : t = .var v
  · simpa [Substitution.bind, hself] using hs
  -- the only chains that change are those that ended with `v`; they go on to `t` and end there
  have hend : ∀ u, s.IsEnd u → u ≠ .var v → (s.bind v t).IsEnd u := by
    intro u hu hne w hw
    have hwv : w ≠ v := fun h => hne (h ▸ hw)
    simpa [get?_bind s hself, hwv] using hu w hw
  intro x
  obtain ⟨vs, u, hc⟩ := hs x
  induction hc with
  | @stop u hu =>
    by_cases huv : u = .var v
    · subst huv
      exact ⟨[v], t, .link (by simp [get?_bind s hself]) (.stop (hend t ht hself))⟩
    · exact ⟨[], u, .stop (hend u hu huv)⟩
  | link hget _ ih =>
    obtain ⟨ws, y, hy⟩ := ih
    exact ⟨_, y, .link (extends_bind hv _ _ hget) hy⟩

theorem lookup_bind_eq (hs' : (s.bind v t).Grounded) : (s.bind v t).lookup (.var v) = (s.bind v t).lookup t := by
  by_cases hself : t = .var v
  · rw [hself]
  · exact hs'.lookup_of_get? (by simp [get?_bind s hself])

end TypeInference.Substitution
