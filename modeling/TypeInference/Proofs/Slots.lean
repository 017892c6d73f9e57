import TypeInference.Proofs.Placement

/-! # An analysis fills in slots

Binding and typing fill the slots of a tree and change nothing else, so the statements of a module have the same copies
after the two as before (`Module.bind_fills`, `Module.oblige_copies`). Neither gets past a part that is missing, so a
module that passes both is intact. -/

namespace TypeInference

open AnalysisM
open List

variable {operators : Bool} {env : Enclosure} {e : Expr} {f : Func} {m : Module} {n ahead : Node}
  {declared : Option Func}

/-- The result has the property in whatever state the computation comes to one. -/
def Yields {α : Type} (P : α → Prop) (x : AnalysisM α) : Prop :=
  ∀ ⦃c : Context⦄ ⦃a : α⦄ ⦃c1 : Context⦄, x.run c = .ok (a, c1) → P a

namespace Yields

variable {α β : Type} {P : α → Prop} {Q : β → Prop} {x : AnalysisM α} {f : α → AnalysisM β}

theorem pure {a : α} (h : P a) : Yields P (Pure.pure a : AnalysisM α) := fun c b c1 hrun => by
  cases run_pure_eq_ok.mp hrun
  exact h

theorem throw {e : Fault} : Yields P (throw e : AnalysisM α) := fun c b c1 hrun => by cases hrun

theorem any : Yields (fun _ => True) x := fun _ _ _ _ => trivial

protected theorem bind (hx : Yields P x) (hf : ∀ a, P a → Yields Q (f a)) : Yields Q (x >>= f) := fun c b c2 hrun => by
  obtain ⟨a, c1, ha, hb⟩ := run_bind_eq_ok.mp hrun
  exact hf a (hx ha) hb

theorem after (hf : ∀ a, Yields Q (f a)) : Yields Q (x >>= f) := any.bind fun a _ => hf a

theorem lift {y : Except Fault α} (h : Ensures P y) : Yields P (liftM y : AnalysisM α) := fun c a c1 hrun => by
  obtain ⟨b, hb, heq⟩ := run_lift_eq_ok.mp hrun
  cases heq
  exact h _ hb

theorem mapM {S : α → β → Prop} (h : ∀ x, Yields (S x) (f x)) : ∀ xs : List α, Yields (Forall₂ S xs) (xs.mapM f)
  | [] => by
    rw [mapM_nil]
    exact .pure .nil
  | x :: xs => by
    rw [mapM_cons]
    exact (h x).bind fun y hy => (mapM h xs).bind fun ys hys => .pure (.cons hy hys)

end Yields

@[simp] theorem Mark.blank_typed (mark : Mark) (t : Ty) : (mark.typed t).blank = mark.blank := rfl

/-! ### Signatures -/

theorem TypeName.read_unread (n : TypeName) : Yields (fun r => r.1.unread = n.unread) n.read := by
  unfold TypeName.read
  refine .after fun ids => ?_
  split
  · exact .after fun _ => .pure rfl
  · refine .after fun c => .after fun symbol => ?_
    split
    · exact .pure rfl
    · exact .after fun _ => .pure rfl
  · exact .after fun _ => .pure rfl

mutual
/-- Reading a signature changes nothing but the types that its names are found to stand for. -/
theorem Sign.read_unread : ∀ s : Sign, Yields (fun r => r.1.unread = s.unread) s.read
  | .missing => .after fun _ => .pure rfl
  | .name n => n.read_unread.bind fun _ h => .pure (congrArg Sign.name h)
  | .func f => f.read_unread.bind fun _ h => .pure (congrArg Sign.func h)
  | .tuple t => t.read_unread.bind fun _ h => .pure (congrArg Sign.tuple h)
  | .union token cases => (Sign.readAll_unread cases).bind fun _ h => .after fun _ =>
    .pure (congrArg (Sign.union token) h)
theorem Sign.readAll_unread : ∀ ss : List Sign,
    Yields (fun r => Sign.mapAllNames TypeName.unread r.1 = Sign.mapAllNames TypeName.unread ss) (Sign.readAll ss)
  | [] => .pure rfl
  | s :: ss => s.read_unread.bind fun _ h => (Sign.readAll_unread ss).bind fun _ hs =>
    .pure (by simp only [Sign.mapAllNames, h, hs])
theorem FuncSign.read_unread : ∀ f : FuncSign, Yields (fun r => r.1.unread = f.unread) f.read
  | ⟨_, none, codomain⟩ => .after fun _ => codomain.read_unread.bind fun _ h => .after fun _ =>
    .pure (by simp only [FuncSign.mapNames, h])
  | ⟨_, some domain, codomain⟩ => domain.read_unread.bind fun _ hd => codomain.read_unread.bind fun _ h =>
    .after fun _ => .pure (by simp only [FuncSign.mapNames, hd, h])
theorem TupleSign.read_unread : ∀ t : TupleSign, Yields (fun r => r.1.unread = t.unread) t.read
  | ⟨_, _, elems⟩ => (SignElem.readAll_unread elems).bind fun _ h => .after fun _ =>
    .pure (by simp only [TupleSign.mapNames, h])
theorem SignElem.readAll_unread : ∀ es : List (Option SignElem),
    Yields (fun r => SignElem.mapAllNames TypeName.unread r.1 = SignElem.mapAllNames TypeName.unread es)
    (SignElem.readAll es)
  | [] => .pure rfl
  | none :: _ => .throw
  | some ⟨_, _, _, sign⟩ :: es => sign.read_unread.bind fun _ h => (SignElem.readAll_unread es).bind fun _ hs =>
    .pure (by simp only [SignElem.mapAllNames, SignElem.mapNames, h, hs])
end

theorem Sign.blank_congr {s s' : Sign} (h : s'.unread = s.unread) : s'.blank = s.blank := by
  have hunread (s : Sign) : s.unread.blank = s.blank := s.blank_mapNames (h := TypeName.unread) fun _ => rfl
  rw [← hunread s', h, hunread s]

theorem FuncSign.blank_congr {f f' : FuncSign} (h : f'.unread = f.unread) : f'.blank = f.blank := by
  have hunread (f : FuncSign) : f.unread.blank = f.blank := f.blank_mapNames (h := TypeName.unread) fun _ => rfl
  rw [← hunread f', h, hunread f]

/-! ### Binding expressions -/

/-- The computation comes to a result from some state. -/
def Passes {α : Type} (x : AnalysisM α) : Prop := ∃ c a c1, x.run c = .ok (a, c1)

section

variable {α β : Type} {x : AnalysisM α} {f : α → AnalysisM β}

theorem Passes.first (h : Passes (x >>= f)) : Passes x := by
  obtain ⟨c, b, c2, hrun⟩ := h
  obtain ⟨a, c1, ha, -⟩ := run_bind_eq_ok.mp hrun
  exact ⟨c, a, c1, ha⟩

theorem Passes.rest (h : Passes (x >>= f)) : ∃ a, Passes (f a) := by
  obtain ⟨c, b, c2, hrun⟩ := h
  obtain ⟨a, c1, -, hb⟩ := run_bind_eq_ok.mp hrun
  exact ⟨a, c1, b, c2, hb⟩

theorem not_passes_throw {e : Fault} : ¬ Passes (throw e : AnalysisM α) := by
  rintro ⟨c, a, c1, hrun⟩
  cases hrun

end

def FuncSign.blankIfAny : Option FuncSign → Except Fault (Option FuncSign)
  | some s => do return some (← s.blank)
  | none => .ok none

theorem Expr.blank_func (f : Func) : (Expr.func f).blank = (do
    let sign ← FuncSign.blankIfAny f.sign
    let body ← f.body.blank
    return .func { mark := f.mark.blank, name := f.name, sign := sign, body := body }) := by
  obtain ⟨mark, name, sign, body, scope, inner, symbol, params⟩ := f
  cases sign with
  | none => rfl
  | some s =>
    rw [Expr.blank, FuncSign.blankIfAny]
    cases s.blank <;> rfl

/-- What a declaration keeps of a function. -/
structure Func.SameHead (f g : Func) : Prop where
  token : f.mark.token = g.mark.token
  name : f.name = g.name
  sign : f.sign = g.sign

theorem Func.declare_sameHead (i : ScopeId) (f : Func) : Yields (fun f' => f'.SameHead f) (f.declare i) := by
  unfold Func.declare
  refine .after fun fields => .after fun codomain => .after fun type => ?_
  dsimp only
  split
  · exact .pure ⟨rfl, rfl, rfl⟩
  · exact .after fun symbol => .pure ⟨rfl, rfl, rfl⟩

theorem FuncSign.bindIfAny_fills (i : ScopeId) (sign : Option FuncSign) :
    Yields (fun sign' => FuncSign.blankIfAny sign' = FuncSign.blankIfAny sign ∧ ∀ s ∈ sign, s.Intact)
    (FuncSign.bindIfAny i sign) := by
  cases sign with
  | none => exact .pure ⟨rfl, by simp⟩
  | some s =>
    refine (Yields.lift s.inScope_comes.ensures).bind fun s' h => .pure ⟨?_, by simpa using h.2⟩
    simp only [FuncSign.blankIfAny, h.1, s.blank_mapNames (h := TypeName.inside i) fun _ => rfl]

theorem Expr.blank_ne_missing (h : e ≠ .missing) : Ensures (· ≠ .missing) e.blank := by
  cases e with
  | missing => exact absurd rfl h
  | func f =>
    rw [Expr.blank_func]
    exact Ensures.trivial.bind fun _ _ => Ensures.trivial.bind fun _ _ => .ok (by simp)
  | cond =>
    exact Ensures.trivial.bind fun _ _ => Ensures.trivial.bind fun _ _ => Ensures.trivial.bind fun _ _ => .ok (by simp)
  | matching => exact Ensures.trivial.bind fun _ _ => Ensures.trivial.bind fun _ _ => .ok (by simp)
  | letBinding | ident | literal => exact .ok (by simp)
  | binary => exact Ensures.trivial.bind fun _ _ => Ensures.trivial.bind fun _ _ => .ok (by simp)
  | unary => exact Ensures.trivial.bind fun _ _ => .ok (by simp)
  | call => exact Ensures.trivial.bind fun _ _ => Ensures.trivial.bind fun _ _ => .ok (by simp)
  | argument a | element a =>
    cases a
    exact Ensures.trivial.bind fun _ _ => .ok (by simp)
  | tuple | select => exact Ensures.trivial.bind fun _ _ => .ok (by simp)

/-- Binding leaves the text of an expression as it is. If the result can be typed then the expression has its parts, and
no operators. -/
structure Expr.Filled (e e' : Expr) : Prop where
  blank : e'.blank = e.blank
  intact : Passes e'.oblige → e.Intact false

/-- The same of the body of a function, which may be missing. -/
structure Expr.BodyFilled (e e' : Expr) : Prop where
  blank : e'.blank = e.blank
  intact {mark : Mark} {codomain : Ty} : Passes (e'.obligeBody mark codomain) → e = .missing ∨ e.Intact false

theorem Expr.bindBody_fills (h : Yields e.Filled (e.bind env none)) : Yields e.BodyFilled (e.bindBody env) := by
  by_cases hne : e = .missing
  · subst hne
    exact .pure ⟨rfl, fun _ => .inl rfl⟩
  · have hbody : e.bindBody env = e.bind env none := by
      cases e with
      | missing => exact absurd rfl hne
      | _ => rfl
    rw [hbody]
    intro c e' c1 hrun
    obtain ⟨hblank, hintact⟩ := h hrun
    have hne' : e' ≠ .missing := by
      rintro rfl
      exact Expr.blank_ne_missing hne _ hblank.symm rfl
    refine ⟨hblank, fun hpasses => .inr (hintact ?_)⟩
    cases e' with
    | missing => exact absurd rfl hne'
    | _ => exact hpasses.first

theorem Expr.bind_func_fills (hdeclared : ∀ g ∈ declared, g.SameHead f)
    (hbody : ∀ env, Yields f.body.BodyFilled (f.body.bindBody env)) :
    Yields (Expr.func f).Filled ((Expr.func f).bind env declared) := by
  obtain ⟨mark, name, sign, body, scope, inner, symbol, params⟩ := f
  rw [Expr.bind_func]
  have hhead : Yields (fun g => g.SameHead ⟨mark, name, sign, body, scope, inner, symbol, params⟩)
      (Func.declareUnless env ⟨mark, name, sign, body, scope, inner, symbol, params⟩ declared) := by
    cases declared with
    | none => exact Func.declare_sameHead env.scope _
    | some g => exact .pure (hdeclared g rfl)
  refine hhead.bind fun g hg => ?_
  obtain rfl : g.sign = sign := hg.sign
  refine (FuncSign.bindIfAny_fills env.scope g.sign).bind fun sign' hsign => .after fun within => .after fun types =>
    .after fun params' => ?_
  refine (hbody within).bind fun body' hbody' => .pure ⟨?_, fun hpasses => ?_⟩
  · simp only [Expr.blank_func, Mark.blank, hsign.1, hg.token, hg.name, hbody'.blank]
  · rw [Expr.oblige_func] at hpasses
    obtain ⟨c, hpasses⟩ := hpasses.rest
    split at hpasses
    · exact absurd hpasses not_passes_throw
    · obtain ⟨_, hpasses⟩ := hpasses.rest
      exact ⟨hsign.2, hbody'.intact hpasses.first⟩

mutual
theorem Expr.bind_fills : ∀ (e : Expr) (env : Enclosure) (declared : Option Func),
    (∀ g ∈ declared, ∀ f, e = .func f → g.SameHead f) → Yields e.Filled (e.bind env declared)
  | .missing, _, _, _ => .throw
  | .func ⟨_, _, _, body, _, _, _, _⟩, env, declared, hdeclared =>
    Expr.bind_func_fills (fun g hg => hdeclared g hg _ rfl) fun env =>
      Expr.bindBody_fills (body.bind_fills env none (by simp))
  | .cond _ _ _ condition thenBranch elseBranch, env, _, _ => by
    refine (condition.bind_fills env none (by simp)).bind fun a ha => .after fun thenEnv => ?_
    refine (thenBranch.bind_fills thenEnv none (by simp)).bind fun b hb => .after fun elseEnv => ?_
    refine (elseBranch.bind_fills elseEnv none (by simp)).bind fun d hd =>
      .pure ⟨by simp only [Expr.blank, ha.blank, hb.blank, hd.blank], fun h => ?_⟩
    obtain ⟨_, h1⟩ := h.rest
    obtain ⟨_, h2⟩ := h1.rest
    obtain ⟨_, h3⟩ := h2.rest
    obtain ⟨_, h4⟩ := h3.rest
    exact ⟨ha.intact h.first, hb.intact h3.first, hd.intact h4.first⟩
  | .matching _ subject cases, env, _, _ => by
    refine (subject.bind_fills env none (by simp)).bind fun a ha => (MatchCase.bindAll_fills cases env).bind fun b hb =>
      .pure ⟨by simp only [Expr.blank, ha.blank, hb.1], fun h => ?_⟩
    obtain ⟨_, h1⟩ := h.rest
    obtain ⟨_, h2⟩ := h1.rest
    exact ⟨ha.intact h.first, hb.2 _ _ _ h2.first⟩
  | .letBinding _, _, _, _ => .after fun _ => .pure ⟨rfl, fun _ => trivial⟩
  | .binary _ _ left right, env, _, _ =>
    (left.bind_fills env none (by simp)).bind fun _ ha => (right.bind_fills env none (by simp)).bind fun _ hb =>
      .pure ⟨by simp only [Expr.blank, Ident.bind, Ident.blank, ha.blank, hb.blank], fun h => absurd h not_passes_throw⟩
  | .unary _ _ operand, env, _, _ => (operand.bind_fills env none (by simp)).bind fun _ ha =>
    .pure ⟨by simp only [Expr.blank, Ident.bind, Ident.blank, ha.blank], fun h => absurd h not_passes_throw⟩
  | .call _ callee args, env, _, _ => by
    refine (callee.bind_fills env none (by simp)).bind fun a ha => (Labelled.bindAll_fills args env).bind fun b hb =>
      .pure ⟨by simp only [Expr.blank, ha.blank, hb.1], fun h => ?_⟩
    obtain ⟨_, h1⟩ := h.rest
    obtain ⟨_, h2⟩ := h1.rest
    exact ⟨ha.intact h2.first, hb.2.1 _ _ h.first⟩
  | .argument ⟨_, _, value⟩, env, _, _ => (value.bind_fills env none (by simp)).bind fun _ ha =>
    .pure ⟨by simp only [Expr.blank, ha.blank], fun h => ha.intact h.first⟩
  | .tuple _ _ elems, env, _, _ => (Labelled.bindAll_fills elems env).bind fun _ ha =>
    .pure ⟨by simp only [Expr.blank, ha.1], fun h => ha.2.2 h.first⟩
  | .element ⟨_, _, value⟩, env, _, _ => (value.bind_fills env none (by simp)).bind fun _ ha =>
    .pure ⟨by simp only [Expr.blank, ha.blank], fun h => ha.intact h.first⟩
  | .select _ owner _, env, _, _ => (owner.bind_fills env none (by simp)).bind fun _ ha =>
    .pure ⟨by simp only [Expr.blank, ha.blank], fun h => ha.intact h.first⟩
  | .ident _, _, _, _ => .pure ⟨rfl, fun _ => trivial⟩
  | .literal .., _, _, _ => .pure ⟨rfl, fun _ => trivial⟩
theorem Labelled.bindAll_fills : ∀ (xs : List (Option Labelled)) (env : Enclosure),
    Yields (fun xs' => Labelled.blankAll xs' = Labelled.blankAll xs ∧
      (∀ call k, Passes (Labelled.obligeArgs call k xs') → Labelled.AllIntact false xs) ∧
      (Passes (Labelled.obligeElems xs') → Labelled.AllIntact false xs)) (Labelled.bindAll env xs)
  | [], _ => .pure ⟨rfl, fun _ _ _ => trivial, fun _ => trivial⟩
  | none :: _, _ => .throw
  | some ⟨_, _, value⟩ :: rest, env => by
    refine (value.bind_fills env none (by simp)).bind fun a ha => (Labelled.bindAll_fills rest env).bind fun b hb => ?_
    refine .pure ⟨by simp only [Labelled.blankAll, ha.blank, hb.1], fun call k h => ?_, fun h => ?_⟩
    · obtain ⟨_, h1⟩ := h.rest
      obtain ⟨_, h2⟩ := h1.rest
      obtain ⟨_, h3⟩ := h2.rest
      obtain ⟨_, h4⟩ := h3.rest
      exact ⟨ha.intact h1.first, hb.2.1 _ _ h4.first⟩
    · obtain ⟨_, h1⟩ := h.rest
      obtain ⟨_, h2⟩ := h1.rest
      exact ⟨ha.intact h.first, hb.2.2 h2.first⟩
theorem MatchCase.bindAll_fills : ∀ (xs : List (Option MatchCase)) (env : Enclosure),
    Yields (fun xs' => MatchCase.blankAll xs' = MatchCase.blankAll xs ∧
      ∀ mark subject k, Passes (MatchCase.obligeAll mark subject k xs') → MatchCase.AllIntact false xs)
      (MatchCase.bindAll env xs)
  | [], _ => .pure ⟨rfl, fun _ _ _ _ => trivial⟩
  | none :: _, _ => .throw
  | some ⟨token, pattern, value, inner⟩ :: rest, env => by
    have hcase : Yields (fun x' => x'.token = token ∧ pattern.Filled x'.pattern ∧ value.Filled x'.value)
        (MatchCase.bind env ⟨token, pattern, value, inner⟩) :=
      .after fun within => (pattern.bind_fills within none (by simp)).bind fun a ha =>
        (value.bind_fills within none (by simp)).bind fun b hb => .pure ⟨rfl, ha, hb⟩
    refine hcase.bind fun ⟨_, _, _, _⟩ ⟨htoken, ha, hb⟩ => (MatchCase.bindAll_fills rest env).bind fun bs hbs => ?_
    obtain rfl : _ = token := htoken
    refine .pure
      ⟨by simp only [MatchCase.blankAll, MatchCase.blank, ha.blank, hb.blank, hbs.1], fun mark subject k h => ?_⟩
    obtain ⟨_, h1⟩ := h.rest
    obtain ⟨_, h2⟩ := h1.rest
    obtain ⟨_, h3⟩ := h2.rest
    obtain ⟨_, h4⟩ := h3.rest
    obtain ⟨_, h5⟩ := h4.rest
    exact ⟨⟨ha.intact h.first, hb.intact h1.first⟩, hbs.2 _ _ _ h5.first⟩
end

/-! ### Typing expressions -/

theorem Ident.oblige_blank (i : Ident) : Yields (fun i' => i'.blank = i.blank) i.oblige := by
  unfold Ident.oblige
  refine .after fun ids => ?_
  dsimp only
  split
  · exact .after fun _ => .pure rfl
  · exact .after fun _ => .after fun _ => .after fun _ => .pure rfl
  · exact .after fun _ => .after fun _ => .after fun _ => .pure rfl

theorem FuncSign.obligeIfAny_blank (mark : Mark) (sign : Option FuncSign) :
    Yields (fun sign' => FuncSign.blankIfAny sign' = FuncSign.blankIfAny sign) (FuncSign.obligeIfAny mark sign) := by
  cases sign with
  | none => exact .pure rfl
  | some s =>
    exact s.read_unread.bind fun r h => .after fun _ =>
      .pure (by simp only [FuncSign.blankIfAny, FuncSign.blank_congr h])

mutual
theorem Expr.oblige_blank : ∀ e : Expr, Yields (fun e' => e'.blank = e.blank) e.oblige
  | .missing => .throw
  | .func ⟨mark, _, sign, body, _, _, _, _⟩ => by
    rw [Expr.oblige_func]
    refine .after fun c => ?_
    split
    · exact .throw
    · next codomain _ =>
      refine (FuncSign.obligeIfAny_blank mark sign).bind fun sign' hsign => ?_
      have hoblige := body.oblige_blank
      have hbody : Yields (fun body' => body'.blank = body.blank) (body.obligeBody mark codomain) := by
        cases body with
        | missing => exact .pure rfl
        | _ => exact hoblige.bind fun body' h => .after fun _ => .after fun _ => .pure h
      exact hbody.bind fun body' h => .pure (by simp only [Expr.blank_func, hsign, h])
  | .cond _ _ _ condition thenBranch elseBranch => by
    refine condition.oblige_blank.bind fun a ha => .after fun _ => .after fun _ => ?_
    refine thenBranch.oblige_blank.bind fun b hb => elseBranch.oblige_blank.bind fun d hd => ?_
    refine .after fun _ => .after fun _ => .after fun _ => .pure ?_
    simp only [Expr.blank, Mark.blank_typed, ha, hb, hd]
  | .matching mark subject cases =>
    subject.oblige_blank.bind fun _ ha => .after fun subjectType =>
      (MatchCase.obligeAll_blank cases mark subjectType 0).bind fun _ hb => .after fun _ =>
      .pure (by simp only [Expr.blank, Mark.blank_typed, ha, hb])
  | .letBinding _ => .after fun _ => .pure rfl
  | .binary .. => .throw
  | .unary .. => .throw
  | .call mark callee args => by
    refine (Labelled.obligeArgs_blank args mark 0).bind fun r hr => .after fun result => ?_
    refine callee.oblige_blank.bind fun a ha => .after fun _ => .after fun _ => .after fun _ => .pure ?_
    simp only [Expr.blank, Mark.blank_typed, ha, hr]
  | .argument ⟨_, _, value⟩ => value.oblige_blank.bind fun _ ha => .after fun _ =>
    .pure (by simp only [Expr.blank, Mark.blank_typed, ha])
  | .tuple _ _ elems => (Labelled.obligeElems_blank elems).bind fun _ ha => .after fun _ =>
    .pure (by simp only [Expr.blank, Mark.blank_typed, ha])
  | .element ⟨_, _, value⟩ => value.oblige_blank.bind fun _ ha => .after fun _ =>
    .pure (by simp only [Expr.blank, Mark.blank_typed, ha])
  | .select _ owner _ => owner.oblige_blank.bind fun _ ha => .after fun _ => .after fun _ => .after fun _ =>
    .pure (by simp only [Expr.blank, Mark.blank_typed, ha])
  | .ident i => i.oblige_blank.bind fun _ h => .pure (by simp only [Expr.blank, h])
  | .literal .. => .pure rfl
theorem Labelled.obligeArgs_blank : ∀ (xs : List (Option Labelled)) (call : Mark) (k : Nat),
    Yields (fun r => Labelled.blankAll r.1 = Labelled.blankAll xs) (Labelled.obligeArgs call k xs)
  | [], _, _ => .pure rfl
  | none :: _, _, _ => .throw
  | some ⟨_, _, value⟩ :: rest, call, k => by
    refine .after fun slot => value.oblige_blank.bind fun a ha => .after fun type => .after fun _ => ?_
    refine (Labelled.obligeArgs_blank rest call (k + 1)).bind fun r hr => .pure ?_
    simp only [Labelled.blankAll, Mark.blank_typed, ha, hr]
theorem Labelled.obligeElems_blank : ∀ xs : List (Option Labelled),
    Yields (fun r => Labelled.blankAll r.1 = Labelled.blankAll xs) (Labelled.obligeElems xs)
  | [] => .pure rfl
  | none :: _ => .throw
  | some ⟨_, _, value⟩ :: rest => by
    refine value.oblige_blank.bind fun a ha => .after fun type =>
      (Labelled.obligeElems_blank rest).bind fun r hr => .pure ?_
    simp only [Labelled.blankAll, Mark.blank_typed, ha, hr]
theorem MatchCase.obligeAll_blank : ∀ (xs : List (Option MatchCase)) (mark : Mark) (subject : Ty) (k : Nat),
    Yields (fun r => MatchCase.blankAll r.1 = MatchCase.blankAll xs) (MatchCase.obligeAll mark subject k xs)
  | [], _, _, _ => .pure rfl
  | none :: _, _, _, _ => .throw
  | some ⟨_, pattern, value, _⟩ :: rest, mark, subject, k => by
    refine pattern.oblige_blank.bind fun a ha => value.oblige_blank.bind fun b hb => .after fun type => .after fun _ =>
      .after fun _ => ?_
    refine (MatchCase.obligeAll_blank rest mark subject (k + 1)).bind fun r hr => .pure ?_
    simp only [MatchCase.blankAll, MatchCase.blank, ha, hb, hr]
end

/-! ### Statements -/

theorem Expr.copy_of_ne (h : e ≠ .missing) : e.copy = e.blank := by
  cases e with
  | missing => exact absurd rfl h
  | _ => rfl

theorem Expr.copy_eq_of_blank {e' : Expr} (h : e'.blank = e.blank) : e'.copy = e.copy := by
  by_cases he : e = .missing
  · subst he
    obtain rfl : e' = .missing := by_contra fun he' => Expr.blank_ne_missing he' _ h rfl
    rfl
  · have he' : e' ≠ .missing := by
      rintro rfl
      exact Expr.blank_ne_missing he _ h.symm rfl
    rw [Expr.copy_of_ne he, Expr.copy_of_ne he', h]

theorem Node.Intact.isStatement (h : n.Intact operators) : n.IsStatement := by
  cases n with
  | «alias» a => exact .typeAlias a
  | expr e => exact .expr e
  | _ => exact h.elim

theorem Node.Placed.isStatement {c : Context} (h : n.Placed c) : n.IsStatement := by
  cases n with
  | «alias» a => exact .typeAlias a
  | expr e => exact .expr e
  | _ => exact h.elim

theorem Node.copyAll_gives : ∀ {ns : List Node}, (∀ n ∈ ns, n.Intact operators) →
    Gives (fun _ => True) (Node.copyAll ns)
  | [], _ => .ok trivial
  | n :: ns, h => by
    obtain ⟨hn, hns⟩ := forall_mem_cons.mp h
    have hcopy : Gives (fun _ => True) n.copy := by
      cases n with
      | «alias» a => exact (a.sign.blank_comes.gives hn).bind fun _ _ => .ok trivial
      | expr e =>
        rw [Node.copy, Expr.copy_eq hn]
        exact .ok trivial
      | _ => exact hn.elim
    exact hcopy.bind fun _ _ => (Node.copyAll_gives hns).bind fun _ _ => .ok trivial

/-- A function that is declared ahead is that of the statement. -/
def Node.Announces (n ahead : Node) : Prop := ∀ g ∈ ahead.declaredFunc?, ∀ f, n = .expr (.func f) → g.SameHead f

theorem Node.declareAhead_announces (i : ScopeId) (n : Node) : Yields n.Announces (n.declareAhead i) := by
  have hsame (f : Func) : f.SameHead f := ⟨rfl, rfl, rfl⟩
  have hother (ahead : Node) (h : ∀ f, n ≠ .expr (.func f)) : n.Announces ahead := fun g _ f hf => absurd hf (h f)
  cases n with
  | expr e =>
    cases e with
    | func f =>
      have hfunc {f' : Func} (hf' : f'.SameHead f) :
          (Node.expr (.func f)).Announces (.expr (.func f')) := fun g hg f0 hf0 => by
        obtain ⟨heq, -⟩ := Node.declaredFunc?_eq_some hg
        cases heq
        cases hf0
        exact hf'
      rw [Node.declareAhead]
      split
      · exact .pure (hfunc (hsame f))
      · exact (Func.declare_sameHead i f).bind fun f' hf' => .pure (hfunc hf')
    | _ => exact .pure (hother _ (by simp))
  | «alias» a => exact .after fun a' => .pure (hother _ (by simp))
  | _ => exact .pure (hother _ (by simp))

theorem Node.bind_fills (env : Enclosure) (hn : n.IsStatement) (hahead : n.Announces ahead) :
    Yields (fun r => r.1.copy = n.copy ∧ (Passes r.1.oblige → n.Intact false)) (Node.bind env ahead n) := by
  cases hn with
  | typeAlias a =>
    have hkept : (ahead.declaredAlias a).token = a.token ∧ (ahead.declaredAlias a).name = a.name ∧
        (ahead.declaredAlias a).sign = a.sign := by
      cases ahead <;> exact ⟨rfl, rfl, rfl⟩
    refine (Yields.lift (ahead.declaredAlias a).sign.inScope_comes.ensures).bind fun s hs => .pure ⟨?_, fun _ => ?_⟩
    · simp only [Node.copy, hs.1, Sign.blank_mapNames (h := TypeName.inside env.scope) fun _ => rfl, hkept]
    · rw [hkept.2.2] at hs
      exact hs.2
  | expr e =>
    refine (e.bind_fills env ahead.declaredFunc? fun g hg f hf => hahead g hg f (by rw [hf])).bind fun e' he' => ?_
    exact .pure ⟨by simp only [Node.copy, Expr.copy_eq_of_blank he'.blank], fun h => he'.intact h.first⟩

theorem Node.bindAll_fills : ∀ {ns aheads : List Node} (env : Enclosure), (∀ n ∈ ns, n.IsStatement) →
    Forall₂ Node.Announces ns aheads → Yields (fun r => Node.copyAll r.1 = Node.copyAll ns ∧
      (Passes (Node.obligeAll r.1) → ∀ n ∈ ns, n.Intact false)) (Node.bindAll env aheads ns)
  | _, _, _, _, .nil => .pure ⟨rfl, by simp⟩
  | n :: ns, ahead :: aheads, env, hns, .cons hahead haheads => by
    obtain ⟨hn, hns⟩ := forall_mem_cons.mp hns
    refine (Node.bind_fills env hn hahead).bind fun ⟨n', env'⟩ hn' => ?_
    refine (Node.bindAll_fills env' hns haheads).bind fun r hr =>
      .pure ⟨by simp only [Node.copyAll, hn'.1, hr.1], fun h => ?_⟩
    obtain ⟨_, h1⟩ := h.rest
    exact forall_mem_cons.mpr ⟨hn'.2 h.first, hr.2 h1.first⟩

/-- **Binding fills in slots.** A module of statements that is bound and typed has all its parts. -/
theorem Module.bind_fills (h : ∀ n ∈ m.statements, n.IsStatement) :
    Yields (fun r => Node.copyAll r.1.statements = Node.copyAll m.statements ∧
    (Passes r.1.oblige → m.Intact false)) m.bind := by
  obtain ⟨token, name, id, statements, scope⟩ := m
  refine .after fun c => .after fun i => ?_
  refine (Yields.mapM (Node.declareAhead_announces i) statements).bind fun aheads haheads => ?_
  exact (Node.bindAll_fills _ h haheads).bind fun r hr => .pure ⟨hr.1, fun h => hr.2 h.first⟩

theorem TypeAlias.oblige_copy (a : TypeAlias) :
    Yields (fun a' => (Node.alias a').copy = (Node.alias a).copy) a.oblige := by
  unfold TypeAlias.oblige
  split
  · exact .pure rfl
  · split
    · exact .pure rfl
    · exact a.sign.read_unread.bind fun r h => .after fun _ => .after fun _ => .after fun _ =>
        .pure (by simp only [Node.copy, Sign.blank_congr h])

theorem Node.oblige_copy (hn : n.IsStatement) : Yields (fun n' => n'.copy = n.copy) n.oblige := by
  cases hn with
  | typeAlias a => exact a.oblige_copy.bind fun a' ha' => .pure ha'
  | expr e => exact e.oblige_blank.bind fun e' he' => .pure (by simp only [Node.copy, Expr.copy_eq_of_blank he'])

theorem Node.obligeAll_copies : ∀ {ns : List Node}, (∀ n ∈ ns, n.IsStatement) →
    Yields (fun ns' => Node.copyAll ns' = Node.copyAll ns) (Node.obligeAll ns)
  | [], _ => .pure rfl
  | n :: ns, h => by
    obtain ⟨hn, hns⟩ := forall_mem_cons.mp h
    refine (Node.oblige_copy hn).bind fun n' hn' => (Node.obligeAll_copies hns).bind fun ns' hns' => .pure ?_
    simp only [Node.copyAll, hn', hns']

/-- **Typing fills in slots.** -/
theorem Module.oblige_copies (h : ∀ n ∈ m.statements, n.IsStatement) :
    Yields (fun m' => Node.copyAll m'.statements = Node.copyAll m.statements) m.oblige := by
  obtain ⟨token, name, id, statements, scope⟩ := m
  exact (Node.obligeAll_copies h).bind fun ns hns => .pure hns

end TypeInference
