import Mathlib.Data.List.Forall2
import TypeInference.Fault

/-! # Computations that succeed

A computation that succeeds has succeeded in each of its parts. The lemmas here take a successful computation apart: a
sequence, a computation on a state, a quantifier over a list. -/

namespace TypeInference

open List

variable {α β σ : Type}

theorem bind_eq_ok {x : Except Fault α} {f : α → Except Fault β} {b : β} :
    (x >>= f) = .ok b ↔ ∃ a, x = .ok a ∧ f a = .ok b := by
  cases x with
  | error e => simp [bind, Except.bind]
  | ok a => simp [bind, Except.bind]

theorem ok_bind {ε : Type} {a : α} {f : α → Except ε β} : (Except.ok a >>= f) = f a := rfl

@[simp] theorem pure_eq_ok {a b : α} : (pure a : Except Fault α) = .ok b ↔ a = b := by
  simp [pure, Except.pure]

theorem exists_ok_of_toOption_map {x : Except Fault α} {f : α → β} {b : β} (h : x.toOption.map f = some b) :
    ∃ a, x = .ok a ∧ f a = b := by
  cases x with
  | error e => cases h
  | ok a => exact ⟨a, rfl, Option.some.inj h⟩

theorem run_bind_eq_ok {x : StateT σ (Except Fault) α} {f : α → StateT σ (Except Fault) β} {s : σ} {r : β × σ} :
    (x >>= f).run s = .ok r ↔ ∃ a s', x.run s = .ok (a, s') ∧ (f a).run s' = .ok r := by
  rw [StateT.run_bind, bind_eq_ok]
  constructor
  · rintro ⟨⟨a, s'⟩, hx, hf⟩
    exact ⟨a, s', hx, hf⟩
  · rintro ⟨a, s', hx, hf⟩
    exact ⟨(a, s'), hx, hf⟩

@[simp] theorem run_pure_eq_ok {a : α} {s : σ} {r : α × σ} : (pure a : StateT σ (Except Fault) α).run s = .ok r ↔
    (a, s) = r := by
  rw [StateT.run_pure, pure_eq_ok]

theorem run_lift_eq_ok {x : Except Fault α} {s : σ} {r : α × σ} :
    (liftM x : StateT σ (Except Fault) α).run s = .ok r ↔ ∃ a, x = .ok a ∧ (a, s) = r := by
  have h : (liftM x : StateT σ (Except Fault) α).run s = x >>= fun a => pure (a, s) := rfl
  rw [h, bind_eq_ok]
  simp

/-! ### Computations with a result -/

/-- The computation comes to a result with the property. -/
def Gives {ε : Type} (P : α → Prop) (x : Except ε α) : Prop := ∃ a, x = .ok a ∧ P a

/-- The result has the property if the computation comes to one. -/
def Ensures {ε : Type} (P : α → Prop) (x : Except ε α) : Prop := ∀ a, x = .ok a → P a

section

variable {ε : Type} {P : α → Prop} {Q : β → Prop}

theorem Gives.ok {a : α} (h : P a) : Gives P (.ok a : Except ε α) := ⟨a, rfl, h⟩

theorem Gives.bind {x : Except ε α} {f : α → Except ε β} (hx : Gives P x) (hf : ∀ a, P a → Gives Q (f a)) :
    Gives Q (x >>= f) := by
  obtain ⟨a, rfl, ha⟩ := hx
  exact hf a ha

theorem Gives.anyM {p : α → Except ε Bool} : ∀ {xs : List α}, (∀ x ∈ xs, Gives (fun _ => True) (p x)) →
    Gives (fun _ => True) (xs.anyM p)
  | [], _ => .ok True.intro
  | x :: xs, h => by
    obtain ⟨hx, hxs⟩ := forall_mem_cons.mp h
    refine hx.bind fun b _ => ?_
    cases b with
    | true => exact .ok True.intro
    | false => exact Gives.anyM hxs

theorem Gives.allM {p : α → Except ε Bool} : ∀ {xs : List α}, (∀ x ∈ xs, Gives (fun _ => True) (p x)) →
    Gives (fun _ => True) (xs.allM p)
  | [], _ => .ok True.intro
  | x :: xs, h => by
    obtain ⟨hx, hxs⟩ := forall_mem_cons.mp h
    refine hx.bind fun b _ => ?_
    cases b with
    | true => exact Gives.allM hxs
    | false => exact .ok True.intro

theorem Ensures.ok {a : α} (h : P a) : Ensures P (.ok a : Except ε α) := fun b hb => by
  cases hb
  exact h

theorem Ensures.error {e : ε} : Ensures P (.error e) := fun a ha => by cases ha

theorem Ensures.trivial {x : Except ε α} : Ensures (fun _ => True) x := fun _ _ => True.intro

theorem Ensures.bind {x : Except ε α} {f : α → Except ε β} (hx : Ensures P x) (hf : ∀ a, P a → Ensures Q (f a)) :
    Ensures Q (x >>= f) := by
  cases x with
  | error e => exact .error
  | ok a => exact hf a (hx a rfl)

end

/-! ### Lists -/

theorem exists_of_forall₂ {R : α → β → Prop} {xs : List α} {ys : List β} (h : Forall₂ R xs ys) {y : β} (hy : y ∈ ys) :
    ∃ x ∈ xs, R x y := by
  induction h with
  | nil => cases hy
  | @cons x _ xs _ hxy _ ih =>
    rcases mem_cons.mp hy with rfl | hy
    · exact ⟨x, mem_cons_self, hxy⟩
    · obtain ⟨x', hx', h⟩ := ih hy
      exact ⟨x', mem_cons_of_mem _ hx', h⟩

theorem forall₂_of_mapM {f : α → StateT σ (Except Fault) β} {Q : α → β → Prop} {I : σ → Prop}
    (hf : ∀ x st y st', I st → (f x).run st = .ok (y, st') → Q x y ∧ I st') :
    ∀ {xs : List α} {st : σ} {ys : List β} {st' : σ}, I st → (xs.mapM f).run st = .ok (ys, st') → Forall₂ Q xs ys
  | [], st, ys, st', _, h => by
    simp only [mapM_nil, run_pure_eq_ok, Prod.mk.injEq] at h
    rw [← h.1]
    exact .nil
  | x :: xs, st, ys, st', hI, h => by
    rw [mapM_cons] at h
    obtain ⟨y, st1, hy, h⟩ := run_bind_eq_ok.mp h
    obtain ⟨ys', st2, hys, h⟩ := run_bind_eq_ok.mp h
    simp only [run_pure_eq_ok, Prod.mk.injEq] at h
    rw [← h.1]
    obtain ⟨hQ, hI1⟩ := hf x st y st1 hI hy
    exact .cons hQ (forall₂_of_mapM hf hI1 hys)

theorem runs_of_mapM {f : α → StateT σ (Except Fault) β} {xs : List α} {st st' : σ} {ys : List β}
    (h : (xs.mapM f).run st = .ok (ys, st')) : Forall₂ (fun x y => ∃ st1 st2, (f x).run st1 = .ok (y, st2)) xs ys :=
  forall₂_of_mapM (I := fun _ => True) (fun _ st _ st' _ h => ⟨⟨st, st', h⟩, trivial⟩) trivial h

theorem run_mapM_append {f : α → StateT σ (Except Fault) β} {xs ys : List α} {xs' ys' : List β} {s s1 s2 : σ}
    (hxs : (xs.mapM f).run s = .ok (xs', s1)) (hys : (ys.mapM f).run s1 = .ok (ys', s2)) :
    ((xs ++ ys).mapM f).run s = .ok (xs' ++ ys', s2) := by
  rw [mapM_append]
  exact run_bind_eq_ok.mpr ⟨xs', s1, hxs, run_bind_eq_ok.mpr ⟨ys', s2, hys, rfl⟩⟩

theorem lookup_of_mem {κ : Type} [BEq κ] [LawfulBEq κ] {entries : List (κ × β)} {k : κ} {b : β}
    (hkeys : (entries.map Prod.fst).Nodup) (h : (k, b) ∈ entries) : entries.lookup k = some b := by
  obtain ⟨before, after, rfl⟩ := append_of_mem h
  refine List.lookup_eq_some_iff.mpr ⟨before, after, rfl, fun p hp => ?_⟩
  rw [map_append, map_cons] at hkeys
  have hdisjoint := (nodup_append.mp hkeys).2.2
  simpa using (hdisjoint p.1 (mem_map_of_mem hp) k mem_cons_self).symm

theorem mem_of_anyM {p : α → Except Fault Bool} {xs : List α} (h : xs.anyM p = .ok true) :
    ∃ x ∈ xs, p x = .ok true := by
  induction xs with
  | nil => cases h
  | cons x xs ih =>
    obtain ⟨b, hb, h⟩ := bind_eq_ok.mp h
    cases b with
    | true => exact ⟨x, mem_cons_self, hb⟩
    | false =>
      obtain ⟨y, hy, hp⟩ := ih h
      exact ⟨y, mem_cons_of_mem x hy, hp⟩

theorem forall_of_allM {p : α → Except Fault Bool} {xs : List α} (h : xs.allM p = .ok true) :
    ∀ x ∈ xs, p x = .ok true := by
  induction xs with
  | nil => simp
  | cons x xs ih =>
    obtain ⟨b, hb, h⟩ := bind_eq_ok.mp h
    cases b with
    | true => exact forall_mem_cons.mpr ⟨hb, ih h⟩
    | false => cases h

theorem allM_eq_true {p : α → Except Fault Bool} : ∀ {xs : List α}, (∀ x ∈ xs, p x = .ok true) → xs.allM p = .ok true
  | [], _ => rfl
  | x :: xs, h => by
    obtain ⟨hx, hxs⟩ := forall_mem_cons.mp h
    exact bind_eq_ok.mpr ⟨true, hx, allM_eq_true hxs⟩

theorem forall_of_anyM_false {p : α → Except Fault Bool} {xs : List α} (h : xs.anyM p = .ok false) :
    ∀ x ∈ xs, p x = .ok false := by
  induction xs with
  | nil => simp
  | cons x xs ih =>
    obtain ⟨b, hb, h⟩ := bind_eq_ok.mp h
    cases b with
    | true => cases h
    | false => exact forall_mem_cons.mpr ⟨hb, ih h⟩

theorem exists_of_allM_false {p : α → Except Fault Bool} {xs : List α} (h : xs.allM p = .ok false) :
    ∃ x ∈ xs, p x = .ok false := by
  induction xs with
  | nil => cases h
  | cons x xs ih =>
    obtain ⟨b, hb, h⟩ := bind_eq_ok.mp h
    cases b with
    | true =>
      obtain ⟨y, hy, hp⟩ := ih h
      exact ⟨y, mem_cons_of_mem x hy, hp⟩
    | false => exact ⟨x, mem_cons_self, hb⟩

end TypeInference
