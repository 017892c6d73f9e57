import TypeInference.Proofs.Occurrences
import TypeInference.Analysis.Context

/-! # The state of an analysis, part by part

`Grows`: types, symbols and constraints stay, and new ones come after them. `Keeps`: an analysis never gives the number
of a variable twice. What this is worth is said by rules for types. A rule allows every type that is no variable, and
every variable that is made while it is in force; a part of an analysis keeps every rule, if the types that it is given
are allowed. -/

namespace TypeInference

open List

/-! ### Problems -/

theorem Diagnostics.add_ne_empty (ds : Diagnostics) (d : Diagnostic) : (ds.add d).entries ≠ [] := by
  unfold Diagnostics.add
  split <;> simp

theorem Diagnostics.entries_of_toList {ds : Diagnostics} (h : ds.toList = []) : ds.entries = [] := by
  have hlength := congrArg List.length h
  unfold Diagnostics.toList at hlength
  rw [length_mergeSort, length_map] at hlength
  exact eq_nil_of_length_eq_zero hlength

/-! ### Rules -/

/-- A rule for types. Constraints are watched from the position `start` on. -/
structure TypeRule where
  /-- Whether a type is allowed while that many variables are in use. -/
  Allows : Nat → Ty → Prop
  base : Nat
  start : Nat
  mono {n n' : Nat} {t : Ty} : n ≤ n' → Allows n t → Allows n' t
  fresh {n : Nat} : base ≤ n → Allows (n + 1) (.var n)
  fixed {n : Nat} {t : Ty} : t.Fixed → Allows n t

namespace TypeRule

/-- All variables are in use. -/
def inUse : TypeRule where
  Allows n t := ∀ v, t = .var v → v < n
  base := 0
  start := 0
  mono h ht v hv := by
    have := ht v hv
    omega
  fresh _ v hv := by
    cases hv
    omega
  fixed ht v hv := absurd hv (ht v)

/-- The variable does not occur. -/
def avoiding (v start : Nat) : TypeRule where
  Allows _ t := t ≠ .var v
  base := v + 1
  start := start
  mono _ ht := ht
  fresh h hv := by
    cases hv
    omega
  fixed ht := ht v

/-- The rule is kept in a state. -/
structure Holds (q : TypeRule) (c : Context) : Prop where
  base : q.base ≤ c.vars
  parts {i : NodeId} {x : Composite} : c.graph.get? i = some x → ∀ t ∈ x.parts, q.Allows c.vars t
  symbols {id : SymbolId} {s : Symbol} : c.table.symbol id = .ok s → q.Allows c.vars s.type
  constraints {d : Constraint} {t : Ty} : d ∈ c.constraints.drop q.start → d.Mentions t → q.Allows c.vars t

end TypeRule

/-- From `c` to `c'` every rule is kept that allows the types in `given`; then it allows those in `made`. -/
structure Keeps (c c' : Context) (given made : List Ty) : Prop where
  vars : c.vars ≤ c'.vars
  rule (q : TypeRule) : q.Holds c → (∀ t ∈ given, q.Allows c.vars t) → q.Holds c' ∧ ∀ t ∈ made, q.Allows c'.vars t

namespace Keeps

variable {c c1 c2 : Context} {given given' made made' : List Ty}

theorem refl (c : Context) : Keeps c c [] [] := ⟨Nat.le_refl _, fun _ h _ => ⟨h, by simp⟩⟩

protected theorem trans (h : Keeps c c1 given made) (h' : Keeps c1 c2 given' made')
    (hgiven : ∀ t ∈ given', t ∈ made ∨ t ∈ given ∨ t.Fixed) : Keeps c c2 given (made ++ made') where
  vars := Nat.le_trans h.vars h'.vars
  rule q hq hallow := by
    obtain ⟨hq1, hmade⟩ := h.rule q hq hallow
    obtain ⟨hq2, hmade'⟩ := h'.rule q hq1 fun t ht => by
      rcases hgiven t ht with ht | ht | ht
      · exact hmade t ht
      · exact q.mono h.vars (hallow t ht)
      · exact q.fixed ht
    refine ⟨hq2, fun t ht => ?_⟩
    rcases mem_append.mp ht with ht | ht
    · exact q.mono h'.vars (hmade t ht)
    · exact hmade' t ht

theorem weaken (h : Keeps c c1 given made) (hgiven : ∀ t ∈ given, t ∈ given' ∨ t.Fixed)
    (hmade : ∀ t ∈ made', t ∈ made ∨ t ∈ given' ∨ t.Fixed) : Keeps c c1 given' made' where
  vars := h.vars
  rule q hq hallow := by
    obtain ⟨hq1, hallow1⟩ := h.rule q hq fun t ht => (hgiven t ht).elim (hallow t) q.fixed
    refine ⟨hq1, fun t ht => ?_⟩
    rcases hmade t ht with ht | ht | ht
    · exact hallow1 t ht
    · exact q.mono h.vars (hallow t ht)
    · exact q.fixed ht

end Keeps

/-! ### Growth -/

/-- What is known of the first graph is known of the second. -/
def TypeGraph.Extends (g g' : TypeGraph) : Prop := ∀ i x, g.get? i = some x → g'.get? i = some x

namespace TypeGraph

variable {g g' : TypeGraph} {x : Composite} {i : NodeId}

theorem extends_refl (g : TypeGraph) : g.Extends g := fun _ _ h => h

theorem Extends.size_le (h : g.Extends g') : g.size ≤ g'.size := by
  by_contra hlt
  obtain ⟨x, hx⟩ : ∃ x, g.get? g'.size = some x := ⟨_, Array.getElem?_eq_getElem (Nat.not_le.mp hlt)⟩
  have hx' := h _ _ hx
  simp [get?, size] at hx'

theorem get?_add : (g.add x).1.get? i = if i = g.size then some x else g.get? i := by
  unfold add get? size
  exact Array.getElem?_push

theorem extends_add (g : TypeGraph) (x : Composite) : g.Extends (g.add x).1 := by
  intro i y h
  have hi : i ≠ g.size := by
    rintro rfl
    simp [get?, size] at h
  rw [get?_add, if_neg hi]
  exact h

theorem get?_add_self (g : TypeGraph) (x : Composite) : (g.add x).1.get? (g.add x).2 = some x := by
  rw [get?_add]
  exact if_pos rfl

end TypeGraph

/-- Nothing is lost from `c` to `c'`, and no symbol is added. -/
structure Grows (c c' : Context) : Prop where
  table : c'.table = c.table
  graph : c.graph.Extends c'.graph
  constraints : c.constraints <+: c'.constraints
  problems : c'.diagnostics.entries = [] → c.diagnostics.entries = []

theorem Grows.trans {c c1 c2 : Context} (h : Grows c c1) (h' : Grows c1 c2) : Grows c c2 where
  table := h'.table.trans h.table
  graph := fun i x hi => h'.graph i x (h.graph i x hi)
  constraints := h.constraints.trans h'.constraints
  problems hc := h.problems (h'.problems hc)

/-- The state grows and every rule is kept. -/
structure Builds (c c' : Context) (given made : List Ty) : Prop where
  grows : Grows c c'
  keeps : Keeps c c' given made

namespace Builds

variable {c c1 c2 : Context} {given given' made made' : List Ty}

theorem refl (c : Context) : Builds c c [] [] where
  grows := ⟨rfl, TypeGraph.extends_refl _, prefix_rfl, id⟩
  keeps := .refl c

protected theorem trans (h : Builds c c1 given made) (h' : Builds c1 c2 given' made')
    (hgiven : ∀ t ∈ given', t ∈ made ∨ t ∈ given ∨ t.Fixed) : Builds c c2 given (made ++ made') where
  grows := h.grows.trans h'.grows
  keeps := h.keeps.trans h'.keeps hgiven

theorem weaken (h : Builds c c1 given made) (hgiven : ∀ t ∈ given, t ∈ given' ∨ t.Fixed)
    (hmade : ∀ t ∈ made', t ∈ made ∨ t ∈ given' ∨ t.Fixed) : Builds c c1 given' made' :=
  ⟨h.grows, h.keeps.weaken hgiven hmade⟩

end Builds

/-! ### Parts of an analysis -/

open AnalysisM

section

variable {c c' : Context} {given : List Ty}

theorem builds_fresh (c : Context) : Builds c { c with vars := c.vars + 1 } [] [.var c.vars] where
  grows := ⟨rfl, TypeGraph.extends_refl _, prefix_rfl, id⟩
  keeps := by
    refine ⟨Nat.le_succ _, fun q hq _ => ⟨⟨?_, ?_, ?_, ?_⟩, ?_⟩⟩
    · exact Nat.le_succ_of_le hq.base
    · exact fun hi t ht => q.mono (Nat.le_succ _) (hq.parts hi t ht)
    · exact fun hs => q.mono (Nat.le_succ _) (hq.symbols hs)
    · exact fun hd hm => q.mono (Nat.le_succ _) (hq.constraints hd hm)
    · intro t ht
      obtain rfl := mem_singleton.mp ht
      exact q.fresh hq.base

theorem builds_graph {g : TypeGraph} (hext : c.graph.Extends g)
    (hnew : ∀ i x, g.get? i = some x → c.graph.get? i = some x ∨ ∀ t ∈ x.parts, t ∈ given ∨ t.Fixed) :
    Builds c { c with graph := g } given [] where
  grows := ⟨rfl, hext, prefix_rfl, id⟩
  keeps := by
    refine ⟨Nat.le_refl _, fun q hq hgiven => ⟨⟨hq.base, ?_, hq.symbols, hq.constraints⟩, by simp⟩⟩
    intro i x hi t ht
    rcases hnew i x hi with hi | hparts
    · exact hq.parts hi t ht
    · exact (hparts t ht).elim (hgiven t) q.fixed

theorem builds_add (c : Context) (x : Composite) : Builds c { c with graph := (c.graph.add x).1 } x.parts [] := by
  refine builds_graph (TypeGraph.extends_add _ _) fun i y hi => ?_
  rw [TypeGraph.get?_add] at hi
  split at hi
  · cases hi
    exact .inr fun t ht => .inl ht
  · exact .inl hi

theorem builds_require (d : Constraint) (hd : ∀ t, d.Mentions t → t ∈ given ∨ t.Fixed) :
    Builds c { c with constraints := c.constraints ++ [d] } given [] where
  grows := ⟨rfl, TypeGraph.extends_refl _, prefix_append _ _, id⟩
  keeps := by
    refine ⟨Nat.le_refl _, fun q hq hgiven => ⟨⟨hq.base, hq.parts, hq.symbols, ?_⟩, by simp⟩⟩
    intro e t he hm
    rw [drop_append, mem_append] at he
    rcases he with he | he
    · exact hq.constraints he hm
    · obtain rfl := mem_singleton.mp (mem_of_mem_drop he)
      exact (hd t hm).elim (hgiven t) q.fixed

theorem builds_diagnose {d : Diagnostic} : Builds c { c with diagnostics := c.diagnostics.add d } [] [] where
  grows := ⟨rfl, TypeGraph.extends_refl _, prefix_rfl, fun h => absurd h (Diagnostics.add_ne_empty _ _)⟩
  keeps := ⟨Nat.le_refl _, fun _ hq _ => ⟨⟨hq.base, hq.parts, hq.symbols, hq.constraints⟩, by simp⟩⟩

theorem builds_read {t : Ty} (h : ∀ q : TypeRule, q.Holds c → q.Allows c.vars t) : Builds c c [] [t] where
  grows := (Builds.refl c).grows
  keeps := ⟨Nat.le_refl _, fun q hq _ => ⟨hq, by simpa using h q hq⟩⟩

end

end TypeInference
