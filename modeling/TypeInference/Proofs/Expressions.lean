import Mathlib.Data.List.Forall2
import TypeInference.Proofs.Computation
import TypeInference.Tree.Copy
import TypeInference.Tree.Traverse

/-! # The expressions of a tree

`exprs` lists the expressions of a tree in source order. A change in place keeps the list up to identifiers and marks:
`Module.change_gradual` pairs the expressions before and after it, for computations of any kind that can be watched
(`Observation`). If identifiers and marks keep their text then so does the tree (`Module.change_copy`). -/

namespace TypeInference

variable {e : Expr} {I : Ident → Ident → Prop} {es es' : List Expr} {M : Mark → Mark → Prop}

mutual
/-- The expressions of an expression in source order, itself first. -/
def Expr.exprs : Expr → List Expr
  | .missing => []
  | .func ⟨mark, name, sign, body, scope, inner, symbol, params⟩ =>
    .func ⟨mark, name, sign, body, scope, inner, symbol, params⟩ :: body.exprs
  | .cond mark thenScope elseScope condition thenBranch elseBranch =>
    .cond mark thenScope elseScope condition thenBranch elseBranch ::
      (condition.exprs ++ thenBranch.exprs ++ elseBranch.exprs)
  | .matching mark subject cases => .matching mark subject cases :: (subject.exprs ++ MatchCase.exprs cases)
  | .letBinding b => [.letBinding b]
  | .binary mark op left right => .binary mark op left right :: .ident op :: (left.exprs ++ right.exprs)
  | .unary mark op operand => .unary mark op operand :: .ident op :: operand.exprs
  | .call mark callee args => .call mark callee args :: (callee.exprs ++ Labelled.exprs .argument args)
  | .argument ⟨mark, label, value⟩ => .argument ⟨mark, label, value⟩ :: value.exprs
  | .tuple mark label elems => .tuple mark label elems :: Labelled.exprs .element elems
  | .element ⟨mark, label, value⟩ => .element ⟨mark, label, value⟩ :: value.exprs
  | .select mark owner member => .select mark owner member :: owner.exprs
  | .ident i => [.ident i]
  | .literal mark value => [.literal mark value]
/-- Arguments or elements; `wrap` tells which. -/
def Labelled.exprs (wrap : Labelled → Expr) : List (Option Labelled) → List Expr
  | [] => []
  | none :: rest => Labelled.exprs wrap rest
  | some ⟨mark, label, value⟩ :: rest => wrap ⟨mark, label, value⟩ :: (value.exprs ++ Labelled.exprs wrap rest)
def MatchCase.exprs : List (Option MatchCase) → List Expr
  | [] => []
  | none :: rest => MatchCase.exprs rest
  | some ⟨_, pattern, value, _⟩ :: rest => pattern.exprs ++ value.exprs ++ MatchCase.exprs rest
end

mutual
def Node.exprs : Node → List Expr
  | .module m => m.exprs
  | .expr e => e.exprs
  | .matchCase c => c.pattern.exprs ++ c.value.exprs
  | _ => []
def Node.allExprs : List Node → List Expr
  | [] => []
  | n :: ns => n.exprs ++ Node.allExprs ns
def Module.exprs : Module → List Expr
  | ⟨_, _, _, statements, _⟩ => Node.allExprs statements
end

/-! ### Expressions in the same place -/

/-- Two expressions of one form; their identifiers and marks are related. Of their parts, only a callee is looked
into. -/
inductive SameNode (I : Ident → Ident → Prop) (M : Mark → Mark → Prop) : Expr → Expr → Prop where
  | missing : SameNode I M .missing .missing
  | func {mark mark' : Mark} {name : String} {sign : Option FuncSign} {body body' : Expr} {scope inner : ScopeId}
      {symbol : SymbolId} {params : List SymbolId} (h : M mark mark') :
      SameNode I M (.func ⟨mark, name, sign, body, scope, inner, symbol, params⟩)
        (.func ⟨mark', name, sign, body', scope, inner, symbol, params⟩)
  | cond {mark mark' : Mark} {thenScope elseScope : ScopeId} {a b c a' b' c' : Expr} (h : M mark mark') :
      SameNode I M (.cond mark thenScope elseScope a b c) (.cond mark' thenScope elseScope a' b' c')
  | matching {mark mark' : Mark} {a a' : Expr} {cases cases' : List (Option MatchCase)} (h : M mark mark') :
      SameNode I M (.matching mark a cases) (.matching mark' a' cases')
  | letBinding {b : LetBinding} {mark' : Mark} (h : M b.mark mark') :
      SameNode I M (.letBinding b) (.letBinding { b with mark := mark' })
  | binary {mark mark' : Mark} {op op' : Ident} {a b a' b' : Expr} (h : M mark mark') (hop : I op op') :
      SameNode I M (.binary mark op a b) (.binary mark' op' a' b')
  | unary {mark mark' : Mark} {op op' : Ident} {a a' : Expr} (h : M mark mark') (hop : I op op') :
      SameNode I M (.unary mark op a) (.unary mark' op' a')
  | call {mark mark' : Mark} {callee callee' : Expr} {args args' : List (Option Labelled)} (h : M mark mark')
      (hcallee : SameNode I M callee callee') : SameNode I M (.call mark callee args) (.call mark' callee' args')
  | argument {mark mark' : Mark} {label : String} {a a' : Expr} (h : M mark mark') :
      SameNode I M (.argument ⟨mark, label, a⟩) (.argument ⟨mark', label, a'⟩)
  | tuple {mark mark' : Mark} {label : String} {elems elems' : List (Option Labelled)} (h : M mark mark') :
      SameNode I M (.tuple mark label elems) (.tuple mark' label elems')
  | element {mark mark' : Mark} {label : String} {a a' : Expr} (h : M mark mark') :
      SameNode I M (.element ⟨mark, label, a⟩) (.element ⟨mark', label, a'⟩)
  | select {mark mark' : Mark} {a a' : Expr} {member : Member} (h : M mark mark') :
      SameNode I M (.select mark a member) (.select mark' a' member)
  | ident {i i' : Ident} (h : I i i') : SameNode I M (.ident i) (.ident i')
  | literal {mark mark' : Mark} {value : Constant} (h : M mark mark') :
      SameNode I M (.literal mark value) (.literal mark' value)

theorem SameNode.of_ident {i : Ident} (h : SameNode I M (.ident i) e) : ∃ i', e = .ident i' ∧ I i i' := by
  cases h with
  | ident h => exact ⟨_, rfl, h⟩

theorem SameNode.of_call {mark : Mark} {callee : Expr} {args : List (Option Labelled)}
    (h : SameNode I M (.call mark callee args) e) : ∃ mark' callee' args', e = .call mark' callee' args' ∧
    SameNode I M callee callee' := by
  cases h with
  | call _ hcallee => exact ⟨_, _, _, rfl, hcallee⟩

/-- The expressions of two trees are the same place by place. -/
def Kept (I : Ident → Ident → Prop) (M : Mark → Mark → Prop) : List Expr → List Expr → Prop :=
  List.Forall₂ (SameNode I M)

theorem Kept.append {fs fs' : List Expr} (he : Kept I M es es') (hf : Kept I M fs fs') :
    Kept I M (es ++ fs) (es' ++ fs') :=
  List.rel_append he hf

theorem Kept.get? (h : Kept I M es es') {k : Nat} (he : es[k]? = some e) :
    ∃ e', es'[k]? = some e' ∧ SameNode I M e e' := by
  induction h generalizing k with
  | nil => cases he
  | cons hsame _ ih =>
    cases k with
    | zero =>
      obtain rfl := Option.some.inj he
      exact ⟨_, rfl, hsame⟩
    | succ k => exact ih he

/-- Identifiers and marks that are related differ in slots only. -/
structure KeepsText (I : Ident → Ident → Prop) (M : Mark → Mark → Prop) : Prop where
  ident {i i' : Ident} : I i i' → i'.blank = i.blank
  mark {a a' : Mark} : M a a' → a'.blank = a.blank

/-! ### Watching computations -/

/-- A way to see what computations come to: from which state to which result and state. -/
structure Observation (m : Type → Type) [Monad m] [MonadLiftT (Except Fault) m] (S : Type) where
  Sees {α : Type} : m α → S → α → S → Prop
  pure {α : Type} {a b : α} {s s' : S} : Sees (Pure.pure a) s b s' → b = a ∧ s' = s
  bind {α β : Type} {x : m α} {f : α → m β} {b : β} {s s'' : S} :
    Sees (x >>= f) s b s'' → ∃ a s', Sees x s a s' ∧ Sees (f a) s' b s''
  lift {α : Type} {x : Except Fault α} {b : α} {s s' : S} : Sees (liftM x : m α) s b s' → x = .ok b ∧ s' = s

/-- How a state may go on: from good states to good ones, each of them before the next. -/
structure Course (S : Type) where
  Good : S → Prop
  Before : S → S → Prop
  refl (s : S) : Before s s
  trans {s s1 s2 : S} : Before s s1 → Before s1 s2 → Before s s2

namespace Course

variable {S : Type} {k : Course S} {z s s1 s2 : S} {P Q : Prop}

/-- The state has gone on from `s` to `s1`, and `P` holds if this is before `z`. -/
structure Leads (k : Course S) (z s s1 : S) (P : Prop) : Prop where
  good : k.Good s1
  before : k.Before s s1
  shown : k.Before s1 z → P

theorem Leads.rest (hs : k.Good s) (h : P) : k.Leads z s s P := ⟨hs, k.refl s, fun _ => h⟩

protected theorem Leads.and (h : k.Leads z s s1 P) (h' : k.Good s1 → k.Leads z s1 s2 Q) : k.Leads z s s2 (P ∧ Q) where
  good := (h' h.good).good
  before := k.trans h.before (h' h.good).before
  shown hz := ⟨h.shown (k.trans (h' h.good).before hz), (h' h.good).shown hz⟩

protected theorem Leads.imp (h : k.Leads z s s1 P) (hPQ : P → Q) :
    k.Leads z s s1 Q := ⟨h.good, h.before, fun hz => hPQ (h.shown hz)⟩

end Course

/-- Changes under which the state goes on. What is said of them is said of states before `z`. -/
structure Gradual {m : Type → Type} [Monad m] [MonadLiftT (Except Fault) m] {S : Type} (o : Observation m S)
    (c : Changes m) (k : Course S) (z : S) (I : Ident → Ident → Prop) (M : Mark → Mark → Prop) : Prop where
  ident {i i' : Ident} {s s' : S} : k.Good s → o.Sees (c.ident i) s i' s' → k.Leads z s s' (I i i')
  mark {a a' : Mark} {s s' : S} : k.Good s → o.Sees (c.mark a) s a' s' → k.Leads z s s' (M a a')

/-- Changes that leave the state alone as long as it is clean after them. -/
structure Steady {m : Type → Type} [Monad m] [MonadLiftT (Except Fault) m] {S : Type} (o : Observation m S)
    (c : Changes m) (clean : S → Prop) (I : S → Ident → Ident → Prop) (M : S → Mark → Mark → Prop) : Prop where
  ident {i i' : Ident} {s s' : S} : o.Sees (c.ident i) s i' s' → clean s' → s' = s ∧ I s i i'
  mark {k k' : Mark} {s s' : S} : o.Sees (c.mark k) s k' s' → clean s' → s' = s ∧ M s k k'

/-! ### Changes in place -/

section

variable {m : Type → Type} [Monad m] [MonadLiftT (Except Fault) m] {S : Type} {o : Observation m S} {c : Changes m}

section

variable {k : Course S} {z : S} {I : Ident → Ident → Prop} {M : Mark → Mark → Prop}

/-- Wherever the computation comes to a result from a good state, the state has gone on, and `P` holds of the result if
this is before `z`. -/
def Observation.Shows (o : Observation m S) (k : Course S) (z : S) {α : Type} (x : m α) (P : α → Prop) : Prop :=
  ∀ (s : S) (a : α) (s' : S), k.Good s → o.Sees x s a s' → k.Leads z s s' (P a)

namespace Observation.Shows

variable {α β : Type} {x : m α} {f : α → m β} {P : α → Prop} {Q : β → Prop}

theorem pure {a : α} (h : P a) : o.Shows k z (Pure.pure a) P := fun s b s' hs hrun => by
  obtain ⟨rfl, rfl⟩ := o.pure hrun
  exact .rest hs h

protected theorem bind (hx : o.Shows k z x P) (hf : ∀ a, o.Shows k z (f a) fun b => P a → Q b) :
    o.Shows k z (x >>= f) Q :=
  fun s b s2 hs hrun => by
    obtain ⟨a, s1, hfirst, hrest⟩ := o.bind hrun
    exact ((hx _ _ _ hs hfirst).and fun hs1 => hf a _ _ _ hs1 hrest).imp fun h => h.2 h.1

theorem check {y : Except Fault Unit} {f : Unit → m β} (hf : o.Shows k z (f ()) Q) : o.Shows k z (liftM y >>= f) Q :=
  fun s b s2 hs hrun => by
    obtain ⟨_, s1, hcheck, hrest⟩ := o.bind hrun
    obtain ⟨-, rfl⟩ := o.lift hcheck
    exact hf _ _ _ hs hrest

theorem gap : o.Shows k z (TypeInference.gap : m α) P := fun _ _ _ _ hrun => by cases (o.lift hrun).1

end Observation.Shows

/-- What a change leaves of an expression. -/
structure Expr.Changed (I : Ident → Ident → Prop) (M : Mark → Mark → Prop) (e e' : Expr) : Prop where
  same : SameNode I M e e'
  kept : Kept I M e.exprs e'.exprs
  text : KeepsText I M → e'.blank = e.blank

section

variable (h : Gradual o c k z I M)
include h

theorem Gradual.shows_mark (mark : Mark) : o.Shows k z (c.mark mark) (M mark) := fun _ _ _ => h.mark

theorem Gradual.shows_ident (i : Ident) : o.Shows k z (c.ident i) (I i) := fun _ _ _ => h.ident

set_option linter.unusedSectionVars false in
mutual
theorem Expr.change_gradual : ∀ e : Expr, o.Shows k z (e.change c) (e.Changed I M)
  | .missing => .pure ⟨.missing, .nil, fun _ => rfl⟩
  | .func ⟨mark, name, sign, body, scope, inner, symbol, params⟩ => .bind (h.shows_mark _) fun mark' => by
    have hbody : o.Shows k z (do return .func ⟨mark', name, sign, ← body.change c, scope, inner, symbol, params⟩)
        fun e' => M mark mark' → Expr.Changed I M (.func ⟨mark, name, sign, body, scope, inner, symbol, params⟩) e' :=
      .bind body.change_gradual fun _ => .pure fun hb hm =>
        ⟨.func hm, .cons (.func hm) hb.kept, fun ht => by simp only [Expr.blank, ht.mark hm, hb.text ht]⟩
    cases sign with
    | none => exact hbody
    | some sign => exact .check hbody
  | .cond _ _ _ condition thenBranch elseBranch => .bind (h.shows_mark _) fun _ =>
    .bind condition.change_gradual fun _ => .bind thenBranch.change_gradual fun _ =>
    .bind elseBranch.change_gradual fun _ => .pure fun hc hb ha hm =>
      ⟨.cond hm, .cons (.cond hm) ((Kept.append ha.kept hb.kept).append hc.kept), fun ht => by
        simp only [Expr.blank, ht.mark hm, ha.text ht, hb.text ht, hc.text ht]⟩
  | .matching _ subject cases => .bind (h.shows_mark _) fun _ => .bind subject.change_gradual fun _ =>
    .bind (MatchCase.change_gradual cases) fun _ => .pure fun hc hs hm =>
      ⟨.matching hm, .cons (.matching hm) (Kept.append hs.kept hc.1),
        fun ht => by simp only [Expr.blank, ht.mark hm, hs.text ht, hc.2 ht]⟩
  | .letBinding _ => .bind (h.shows_mark _) fun _ => .pure fun hm =>
    ⟨.letBinding hm, .cons (.letBinding hm) .nil, fun ht => by simp only [Expr.blank, ht.mark hm]⟩
  | .binary _ _ left right => .bind (h.shows_mark _) fun _ => .bind (h.shows_ident _) fun _ =>
    .bind left.change_gradual fun _ => .bind right.change_gradual fun _ => .pure fun hr hl hi hm =>
      ⟨.binary hm hi, .cons (.binary hm hi) (.cons (.ident hi) (Kept.append hl.kept hr.kept)), fun ht => by
        simp only [Expr.blank, ht.mark hm, ht.ident hi, hl.text ht, hr.text ht]⟩
  | .unary _ _ operand => .bind (h.shows_mark _) fun _ => .bind (h.shows_ident _) fun _ =>
    .bind operand.change_gradual fun _ => .pure fun ho hi hm =>
    ⟨.unary hm hi, .cons (.unary hm hi) (.cons (.ident hi) ho.kept), fun ht => by
      simp only [Expr.blank, ht.mark hm, ht.ident hi, ho.text ht]⟩
  | .call _ callee args => .bind (h.shows_mark _) fun _ => .bind callee.change_gradual fun _ =>
    .bind (Labelled.change_gradual .argument .argument args) fun _ => .pure fun ha hc hm =>
      ⟨.call hm hc.same, .cons (.call hm hc.same) (Kept.append hc.kept ha.1), fun ht => by
        simp only [Expr.blank, ht.mark hm, hc.text ht, ha.2 ht]⟩
  | .argument ⟨_, _, value⟩ => .bind (h.shows_mark _) fun _ => .bind value.change_gradual fun _ => .pure fun hv hm =>
    ⟨.argument hm, .cons (.argument hm) hv.kept, fun ht => by simp only [Expr.blank, ht.mark hm, hv.text ht]⟩
  | .tuple _ _ elems => .bind (h.shows_mark _) fun _ => .bind (Labelled.change_gradual .element .element elems) fun _ =>
    .pure fun he hm => ⟨.tuple hm, .cons (.tuple hm) he.1, fun ht => by simp only [Expr.blank, ht.mark hm, he.2 ht]⟩
  | .element ⟨_, _, value⟩ => .bind (h.shows_mark _) fun _ => .bind value.change_gradual fun _ => .pure fun hv hm =>
    ⟨.element hm, .cons (.element hm) hv.kept, fun ht => by simp only [Expr.blank, ht.mark hm, hv.text ht]⟩
  | .select _ owner _ => .bind (h.shows_mark _) fun _ => .bind owner.change_gradual fun _ => .pure fun ho hm =>
    ⟨.select hm, .cons (.select hm) ho.kept, fun ht => by simp only [Expr.blank, ht.mark hm, ho.text ht]⟩
  | .ident _ => .bind (h.shows_ident _) fun _ => .pure fun hi =>
    ⟨.ident hi, .cons (.ident hi) .nil, fun ht => by simp only [Expr.blank, ht.ident hi]⟩
  | .literal .. => .bind (h.shows_mark _) fun _ => .pure fun hm =>
    ⟨.literal hm, .cons (.literal hm) .nil, fun ht => by simp only [Expr.blank, ht.mark hm]⟩
theorem Labelled.change_gradual (wrap : Labelled → Expr)
    (hwrap : ∀ {I : Ident → Ident → Prop} {M : Mark → Mark → Prop} {mark mark' : Mark} {label : String} {a a' : Expr},
      M mark mark' → SameNode I M (wrap ⟨mark, label, a⟩) (wrap ⟨mark', label, a'⟩)) :
    ∀ xs : List (Option Labelled), o.Shows k z (Labelled.changeAll c xs) fun xs' =>
      Kept I M (Labelled.exprs wrap xs) (Labelled.exprs wrap xs') ∧
        (KeepsText I M → Labelled.blankAll xs' = Labelled.blankAll xs)
  | [] => .pure ⟨.nil, fun _ => rfl⟩
  | none :: _ => .gap
  | some ⟨_, _, value⟩ :: rest => .bind (h.shows_mark _) fun _ => .bind value.change_gradual fun _ =>
    .bind (Labelled.change_gradual wrap hwrap rest) fun _ => .pure fun hr hv hm =>
      ⟨.cons (hwrap hm) (Kept.append hv.kept hr.1),
        fun ht => by simp only [Labelled.blankAll, ht.mark hm, hv.text ht, hr.2 ht]⟩
theorem MatchCase.change_gradual : ∀ xs : List (Option MatchCase), o.Shows k z (MatchCase.changeAll c xs) fun xs' =>
    Kept I M (MatchCase.exprs xs) (MatchCase.exprs xs') ∧
      (KeepsText I M → MatchCase.blankAll xs' = MatchCase.blankAll xs)
  | [] => .pure ⟨.nil, fun _ => rfl⟩
  | none :: _ => .gap
  | some ⟨_, pattern, value, _⟩ :: rest => .bind pattern.change_gradual fun _ => .bind value.change_gradual fun _ =>
    .bind (MatchCase.change_gradual rest) fun _ => .pure fun hr hv hp =>
      ⟨(Kept.append hp.kept hv.kept).append hr.1, fun ht => by
        simp only [MatchCase.blankAll, MatchCase.blank, hp.text ht, hv.text ht, hr.2 ht]⟩
end

set_option linter.unusedSectionVars false in
mutual
theorem Node.change_gradual : ∀ n : Node, o.Shows k z (n.change c) fun n' =>
    Kept I M n.exprs n'.exprs ∧ (KeepsText I M → n'.copy = n.copy)
  | .missing => .pure ⟨.nil, fun _ => rfl⟩
  | .module x => .bind x.change_gradual fun _ => .pure fun hx => ⟨hx.1, fun ht => by simp only [Node.copy, hx.2 ht]⟩
  | .alias _ | .sign _ | .signElem _ => .check (.pure ⟨.nil, fun _ => rfl⟩)
  | .expr e => .bind (e.change_gradual h) fun e' => .pure fun he => ⟨he.kept, fun ht => by
    have hcopy : e'.copy = e.copy := by
      cases he.same with
      | missing => rfl
      | _ => exact he.text ht
    simp only [Node.copy, hcopy]⟩
  | .matchCase ⟨_, pattern, value, _⟩ => .bind (pattern.change_gradual h) fun _ =>
    .bind (value.change_gradual h) fun _ => .pure fun hv hp =>
    ⟨Kept.append hp.kept hv.kept, fun ht => by simp only [Node.copy, MatchCase.blank, hp.text ht, hv.text ht]⟩
theorem Node.changeAll_gradual : ∀ ns : List Node, o.Shows k z (Node.changeAll c ns) fun ns' =>
    Kept I M (Node.allExprs ns) (Node.allExprs ns') ∧ (KeepsText I M → Node.copyAll ns' = Node.copyAll ns)
  | [] => .pure ⟨.nil, fun _ => rfl⟩
  | n :: ns => .bind n.change_gradual fun _ => .bind (Node.changeAll_gradual ns) fun _ => .pure fun hns hn =>
    ⟨Kept.append hn.1 hns.1, fun ht => by simp only [Node.copyAll, hn.2 ht, hns.2 ht]⟩
/-- **Changes in place.** A change goes on from state to state and keeps every expression in its place. -/
theorem Module.change_gradual : ∀ x : Module, o.Shows k z (x.change c) fun x' =>
    Kept I M x.exprs x'.exprs ∧ (KeepsText I M → x'.copy = x.copy)
  | ⟨_, _, _, statements, _⟩ => .bind (Node.changeAll_gradual statements) fun _ => .pure fun hs =>
    ⟨hs.1, fun ht => by simp only [Module.copy, hs.2 ht]⟩
end

end

end

variable {clean : S → Prop} {I : S → Ident → Ident → Prop} {M : S → Mark → Mark → Prop}

/-- A state before a clean one is that state. -/
def Course.steady (clean : S → Prop) : Course S where
  Good _ := True
  Before s s' := clean s' → s' = s
  refl _ _ := rfl
  trans h h' hclean := by
    obtain rfl := h' hclean
    exact h hclean

theorem Steady.gradual (h : Steady o c clean I M) {z : S} (hz : clean z) :
    Gradual o c (Course.steady clean) z (I z) (M z) where
  ident _ hrun := ⟨trivial, fun hclean => (h.ident hrun hclean).1, fun hbefore => by
    obtain rfl := hbefore hz
    obtain ⟨rfl, hI⟩ := h.ident hrun hz
    exact hI⟩
  mark _ hrun := ⟨trivial, fun hclean => (h.mark hrun hclean).1, fun hbefore => by
    obtain rfl := hbefore hz
    obtain ⟨rfl, hM⟩ := h.mark hrun hz
    exact hM⟩

/-- A change that leaves the state clean has left it alone, and has kept every expression in its place. -/
theorem Module.change_kept (h : Steady o c clean I M) {x x' : Module} {s s' : S} (hrun : o.Sees (x.change c) s x' s')
    (hclean : clean s') : s' = s ∧ Kept (I s) (M s) x.exprs x'.exprs := by
  have hleads := Module.change_gradual (h.gradual hclean) x s _ _ trivial hrun
  obtain rfl := hleads.before hclean
  exact ⟨rfl, (hleads.shown fun _ => rfl).1⟩

/-- Changes to slots only. -/
structure FillsSlots (o : Observation m S) (c : Changes m) : Prop where
  ident {i i' : Ident} {s s' : S} : o.Sees (c.ident i) s i' s' → i'.blank = i.blank
  mark {k k' : Mark} {s s' : S} : o.Sees (c.mark k) s k' s' → k'.blank = k.blank

theorem Module.change_copy (h : FillsSlots o c) {x x' : Module} {s s' : S} (hrun : o.Sees (x.change c) s x' s') :
    x'.copy = x.copy := by
  have hgradual : Gradual o c ⟨fun _ => True, fun _ _ => True, fun _ => trivial, fun _ _ => trivial⟩ s
      (fun i i' => i'.blank = i.blank) (fun k k' => k'.blank = k.blank) :=
    ⟨fun _ hi => ⟨trivial, trivial, fun _ => h.ident hi⟩, fun _ hk => ⟨trivial, trivial, fun _ => h.mark hk⟩⟩
  exact ((Module.change_gradual hgradual x s _ _ trivial hrun).shown trivial).2 ⟨fun h => h, fun h => h⟩

end

end TypeInference
