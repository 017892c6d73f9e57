import Mathlib.Algebra.Order.SuccPred
import Mathlib.Data.Finset.Card
import Mathlib.Data.List.Forall2
import TypeInference.Proofs.Bounds
import TypeInference.Proofs.Contexts
import TypeInference.Solver.Run

/-! # States of reification

Reification copies what can be reached from a type into new nodes, one copy for every node. It never touches a node that
was there before (`Keeps`), and a call leaves fewer types without a result (`Building`). -/

namespace TypeInference

open List

/-! ### Computations on a state -/

/-- What a computation does from a state: it stops with one of these faults only, and what it returns satisfies `Q`. -/
def Spec {S α : Type} (P : Fault → Prop) (x : StateT S (Except Fault) α) (s : S) (Q : α → S → Prop) : Prop :=
  Raises P (x.run s) ∧ ∀ a s', x.run s = .ok (a, s') → Q a s'

namespace Spec

variable {S α β : Type} {P : Fault → Prop} {s : S}

theorem pure {Q : α → S → Prop} {a : α} (h : Q a s) : Spec P (Pure.pure a : StateT S (Except Fault) α) s Q := by
  refine ⟨.pure _, fun b s' hb => ?_⟩
  cases hb
  exact h

theorem bind {x : StateT S (Except Fault) α} {f : α → StateT S (Except Fault) β} {Q : α → S → Prop} {R : β → S → Prop}
    (hx : Spec P x s Q) (hf : ∀ a s', Q a s' → Spec P (f a) s' R) : Spec P (x >>= f) s R := by
  constructor
  · rw [StateT.run_bind]
    exact .bind hx.1 fun r hr => (hf r.1 r.2 (hx.2 r.1 r.2 hr)).1
  · intro b s'' h
    obtain ⟨a, s', ha, hb⟩ := run_bind_eq_ok.mp h
    exact (hf a s' (hx.2 a s' ha)).2 b s'' hb

theorem lift {x : Except Fault α} {Q : α → S → Prop} (h : Raises P x) (hQ : ∀ a, x = .ok a → Q a s) :
    Spec P (liftM x : StateT S (Except Fault) α) s Q := by
  constructor
  · have hrun : (liftM x : StateT S (Except Fault) α).run s = x >>= fun a => Pure.pure (a, s) := rfl
    rw [hrun]
    exact .bind h fun _ _ => .pure _
  · intro a s' ha
    obtain ⟨b, hb, heq⟩ := run_lift_eq_ok.mp ha
    cases heq
    exact hQ a hb

protected theorem imp {x : StateT S (Except Fault) α} {Q R : α → S → Prop} (hx : Spec P x s Q)
    (h : ∀ a s', Q a s' → R a s') : Spec P x s R := ⟨hx.1, fun a s' hrun => h a s' (hx.2 a s' hrun)⟩

theorem throw {e : Fault} {Q : α → S → Prop} (h : P e) : Spec P (throw e : StateT S (Except Fault) α) s Q :=
  ⟨.error h, fun _ _ h => by cases h⟩

theorem liftBind {x : Except Fault α} {f : α → StateT S (Except Fault) β} {R : β → S → Prop} (h : Raises P x)
    (hf : ∀ a, x = .ok a → Spec P (f a) s R) : Spec P (liftM x >>= f) s R :=
  bind (lift (Q := fun a s' => x = .ok a ∧ s' = s) h fun _ ha => ⟨ha, rfl⟩) fun a _ ha => ha.2 ▸ hf a ha.1

theorem get {f : S → StateT S (Except Fault) β} {R : β → S → Prop} (h : Spec P (f s) s R) :
    Spec P (MonadStateOf.get >>= f) s R := h

theorem step {x : StateT S (Except Fault) α} {f : α → StateT S (Except Fault) β} {R : β → S → Prop} {a : α} {s' : S}
    (h : x.run s = .ok (a, s')) (hf : Spec P (f a) s' R) : Spec P (x >>= f) s R :=
  bind (Q := fun b t => b = a ∧ t = s')
    ⟨h ▸ .ok _, fun b t hb => by cases h.symm.trans hb; exact ⟨rfl, rfl⟩⟩ fun b t hb => hb.1 ▸ hb.2 ▸ hf

theorem of_run {x : StateT S (Except Fault) α} {Q : α → S → Prop} {a : α} {s' : S} (h : x.run s = .ok (a, s'))
    (hQ : Q a s') : Spec P x s Q := by
  refine ⟨h ▸ .ok _, fun b s'' hb => ?_⟩
  cases h.symm.trans hb
  exact hQ

theorem forM {I : S → Prop} {f : α → StateT S (Except Fault) PUnit} {xs : List α}
    (hf : ∀ x ∈ xs, ∀ s, I s → Spec P (f x) s fun _ s' => I s') (hs : I s) : Spec P (xs.forM f) s fun _ s' => I s' := by
  induction xs generalizing s with
  | nil => exact pure hs
  | cons x xs ih =>
    obtain ⟨hx, hxs⟩ := forall_mem_cons.mp hf
    exact bind (hx s hs) fun _ s' hs' => ih hxs hs'

theorem mapM {I : S → Prop} {Q : α → β → Prop} {f : α → StateT S (Except Fault) β} {xs : List α}
    (hf : ∀ x ∈ xs, ∀ s, I s → Spec P (f x) s fun y s' => Q x y ∧ I s') (hs : I s) :
    Spec P (xs.mapM f) s fun ys s' => Forall₂ Q xs ys ∧ I s' := by
  induction xs generalizing s with
  | nil => exact pure ⟨.nil, hs⟩
  | cons x xs ih =>
    obtain ⟨hx, hxs⟩ := forall_mem_cons.mp hf
    rw [mapM_cons]
    exact bind (hx s hs) fun y s1 hy => bind (ih hxs hy.2) fun ys s2 hys => pure ⟨.cons hy.1 hys.1, hys.2⟩

end Spec

/-! ### Contents of nodes -/

namespace TypeGraph

variable {g g' : TypeGraph} {i j : NodeId} {c : Composite}

theorem get?_set : (g.set i c).get? j = if i = j then (if i < g.size then some c else none) else g.get? j :=
  Array.getElem?_setIfInBounds

@[simp] theorem size_set : (g.set i c).size = g.size := Array.size_setIfInBounds

@[simp] theorem size_add : (g.add c).1.size = g.size + 1 := Array.size_push _

theorem Closed.add (hg : g.Closed) (hc : c.Below g.size) : (g.add c).1.Closed := by
  intro j x hj
  rw [size_add]
  rw [get?_add] at hj
  split at hj
  · cases hj
    exact hc.mono (Nat.le_succ _)
  · exact (hg j x hj).mono (Nat.le_succ _)

theorem Closed.set (hg : g.Closed) (hc : c.Below g.size) : (g.set i c).Closed := by
  intro j x hj
  rw [size_set]
  rw [get?_set] at hj
  split at hj
  · split at hj
    · cases hj
      exact hc
    · cases hj
  · exact hg j x hj

theorem Closed.unionCases? (hg : g.Closed) {t : Ty} {cases : List Ty} (h : g.unionCases? t = some cases) :
    ∀ u ∈ cases, u.Below g.size := by
  obtain ⟨i, -, hi⟩ := unionCases?_eq_some.mp h
  exact (hg i _ hi).parts

end TypeGraph

namespace Substitution

open ReifyM

/-! ### States of reification -/

namespace ReifyState

/-- The types of the state are in its graph, and those that were there first, `n` of them, refer to each other only. -/
structure Sound (n : Nat) (st : ReifyState) : Prop where
  size : n ≤ st.graph.size
  closed : st.graph.Closed
  source : ∀ i < n, ∀ x, st.graph.get? i = some x → x.Below n
  results : ∀ p ∈ st.results, p.2.Below st.graph.size

/-- The first `m` nodes stay as they are, and so does every result. -/
structure Keeps (m : Nat) (st st' : ReifyState) : Prop where
  size : st.graph.size ≤ st'.graph.size
  nodes : ∀ i < m, st'.graph.get? i = st.graph.get? i
  results : ∀ s out, st.results.lookup s = some out → st'.results.lookup s = some out

theorem Keeps.refl (m : Nat) (st : ReifyState) : st.Keeps m st := ⟨Nat.le_refl _, fun _ _ => rfl, fun _ _ h => h⟩

theorem Keeps.trans {m m' : Nat} {st st1 st2 : ReifyState} (h : st.Keeps m st1) (h' : st1.Keeps m' st2) (hm : m ≤ m') :
    st.Keeps m st2 where
  size := Nat.le_trans h.size h'.size
  nodes := fun i hi => (h'.nodes i (Nat.lt_of_lt_of_le hi hm)).trans (h.nodes i hi)
  results := fun s out ho => h'.results s out (h.results s out ho)

/-- The number of types among the first `n` that have no result yet. -/
def left (n : Nat) (st : ReifyState) : Nat := ((Finset.range n).filter fun i => st.results.lookup i = none).card

theorem Keeps.left_le {m n : Nat} {st st' : ReifyState} (h : st.Keeps m st') : st'.left n ≤ st.left n := by
  refine Finset.card_le_card fun i hi => ?_
  rw [Finset.mem_filter] at hi ⊢
  refine ⟨hi.1, ?_⟩
  cases hs : st.results.lookup i with
  | none => rfl
  | some out => rw [h.results i out hs] at hi; simp at hi

/-- What a call leaves behind that returns a type. -/
structure Copied (n : Nat) (st : ReifyState) (t : Ty) (st' : ReifyState) : Prop where
  keeps : st.Keeps st.graph.size st'
  sound : st'.Sound n
  below : t.Below st'.graph.size

/-- A node was added after `st` and is being given its content. -/
structure Building (n : Nat) (st st' : ReifyState) : Prop where
  keeps : st.Keeps st.graph.size st'
  sound : st'.Sound n
  opened : st.graph.size < st'.graph.size
  left : st'.left n < st.left n

variable {n : Nat} {st st1 st2 : ReifyState} {c : Composite} {t : Ty}

theorem building_start {source : NodeId} (hst : st.Sound n) (hsource : source < n)
    (hnew : st.results.lookup source = none) (hc : c.Below st.graph.size) : Building n st
      { st with graph := (st.graph.add c).1, results := (source, .node st.graph.size) :: st.results } where
  keeps := by
    refine ⟨by simp, fun i hi => ?_, fun s out ho => ?_⟩
    · rw [TypeGraph.get?_add, if_neg (Nat.ne_of_lt hi)]
    · have hne : (s == source) = false := by
        rw [beq_eq_false_iff_ne]
        rintro rfl
        rw [hnew] at ho
        cases ho
      simpa [lookup_cons, hne] using ho
  sound := by
    refine ⟨by simpa using Nat.le_succ_of_le hst.size, hst.closed.add hc, fun i hi x hx => ?_, ?_⟩
    · rw [TypeGraph.get?_add, if_neg (Nat.ne_of_lt (Nat.lt_of_lt_of_le hi hst.size))] at hx
      exact hst.source i hi x hx
    · refine forall_mem_cons.mpr ⟨?_, fun p hp => (hst.results p hp).mono (by simp)⟩
      simp [Ty.Below]
  opened := by simp
  left := by
    refine Finset.card_lt_card ((Finset.ssubset_iff_of_subset fun i hi => ?_).mpr ⟨source, ?_, ?_⟩)
    · rw [Finset.mem_filter] at hi ⊢
      refine ⟨hi.1, ?_⟩
      have hi' := hi.2
      rw [lookup_cons] at hi'
      split at hi'
      · cases hi'
      · exact hi'
    · exact Finset.mem_filter.mpr ⟨Finset.mem_range.mpr hsource, hnew⟩
    · simp

theorem Building.fill (h : Building n st st1) (hn : n ≤ st.graph.size) (hc : c.Below st1.graph.size) :
    Building n st { st1 with graph := st1.graph.set st.graph.size c } where
  keeps := by
    refine ⟨by simpa using h.keeps.size, fun i hi => ?_, h.keeps.results⟩
    rw [TypeGraph.get?_set, if_neg (Nat.ne_of_gt hi)]
    exact h.keeps.nodes i hi
  sound := by
    refine ⟨by simpa using h.sound.size, h.sound.closed.set hc, fun i hi x hx => ?_, fun p hp => ?_⟩
    · rw [TypeGraph.get?_set, if_neg (Nat.ne_of_gt (Nat.lt_of_lt_of_le hi hn))] at hx
      exact h.sound.source i hi x hx
    · simpa using h.sound.results p hp
  opened := by simpa using h.opened
  left := h.left

theorem Building.call (h : Building n st st1) (hc : Copied n st1 t st2) : Building n st st2 where
  keeps := h.keeps.trans hc.keeps (Nat.le_of_lt h.opened)
  sound := hc.sound
  opened := Nat.lt_of_lt_of_le h.opened hc.keeps.size
  left := Nat.lt_of_le_of_lt hc.keeps.left_le h.left

theorem Building.copied (h : Building n st st1) (ht : t.Below st1.graph.size) :
    Copied n st t st1 := ⟨h.keeps, h.sound, ht⟩

theorem Building.collapse {source : NodeId} (h : Building n st st1) (hnew : st.results.lookup source = none)
    (ht : t.Below st1.graph.size) (unfinished : List NodeId) :
    Copied n st t { st1 with unfinished := unfinished, results := (source, t) :: st1.results } := by
  refine ⟨⟨h.keeps.size, h.keeps.nodes, fun s out ho => ?_⟩, ⟨h.sound.size, h.sound.closed, h.sound.source, ?_⟩, ht⟩
  · have hne : (s == source) = false := by
      rw [beq_eq_false_iff_ne]
      rintro rfl
      rw [hnew] at ho
      cases ho
    simpa [lookup_cons, hne] using h.keeps.results s out ho
  · exact forall_mem_cons.mpr ⟨ht, h.sound.results⟩

theorem Building.note (h : Building n st st1) (unfinished : List NodeId) (referenced : List Ty) :
    Building n st { st1 with unfinished := unfinished, referenced := referenced } :=
  ⟨⟨h.keeps.size, h.keeps.nodes, h.keeps.results⟩, ⟨h.sound.size, h.sound.closed, h.sound.source, h.sound.results⟩,
    h.opened, h.left⟩

end ReifyState

open ReifyState

variable {n : Nat} {st st1 : ReifyState} {σ : Substitution}

theorem mem_of_lookup {α β : Type} [BEq α] [LawfulBEq α] {entries : List (α × β)} {a : α} {b : β}
    (h : entries.lookup a = some b) : (a, b) ∈ entries := by
  obtain ⟨l1, l2, rfl, -⟩ := List.lookup_eq_some_iff.mp h
  simp

/-! ### The first state -/

variable {g : TypeGraph}

theorem sound_start (hg : g.Closed) : ReifyState.Sound g.size { graph := g } :=
  ⟨Nat.le_refl _, hg, fun i _ x hx => hg i x hx, by simp⟩

theorem left_le (n : Nat) (st : ReifyState) : st.left n ≤ n := by
  have h := Finset.card_filter_le (Finset.range n) fun i => st.results.lookup i = none
  rwa [Finset.card_range] at h

theorem below_of_reify {t : Ty} {r : TypeGraph × Ty} (h : σ.reify g t = .ok r) : t.Below g.size := by
  cases t with
  | node i =>
    obtain ⟨r, hrun, -⟩ := bind_eq_ok.mp h
    unfold reifyAux at hrun
    rw [lookup_node] at hrun
    obtain ⟨st, st1, hget, hrun⟩ := run_bind_eq_ok.mp hrun
    cases hget
    obtain ⟨x, st2, hlift, -⟩ := run_bind_eq_ok.mp hrun
    obtain ⟨y, hy, -⟩ := run_lift_eq_ok.mp hlift
    exact lt_size_of_get? (get?_of_get hy)
  | _ => trivial

end Substitution

end TypeInference
