import Mathlib.Order.Defs.Unbundled
import TypeInference.Proofs.Computation
import TypeInference.Analysis.Scoping

/-! # What binding does to the state

Binding walks through a module and declares names on the way. A preorder on states is kept by the whole of it if it is
kept by the declarations and by the opening of a scope (`Module.bind_carries`): nothing else changes the state. -/

namespace TypeInference

open AnalysisM
open List

variable {R : Context → Context → Prop}

/-- The computation leads from every state to a state that is related to it. -/
class Carries {α : Type} (R : Context → Context → Prop) (x : AnalysisM α) : Prop where
  related : ∀ {c c1 : Context} {a : α}, x.run c = .ok (a, c1) → R c c1

namespace Carries

variable {α β γ : Type} {x : AnalysisM α}

instance throw (e : Fault) : Carries R (throw e : AnalysisM α) := ⟨fun h => by cases h⟩

instance ite {p : Prop} [Decidable p] {y : AnalysisM α} [hx : Carries R x] [hy : Carries R y] :
    Carries R (if p then x else y) := by
  split
  · exact hx
  · exact hy

variable [IsPreorder Context R]

instance pure (a : α) : Carries R (Pure.pure a : AnalysisM α) := ⟨fun h => by
  cases h
  exact refl_of R _⟩

theorem bind {f : α → AnalysisM β} (hx : Carries R x) (hf : ∀ a, Carries R (f a)) : Carries R (x >>= f) := ⟨fun h => by
  obtain ⟨a, c1, ha, hb⟩ := run_bind_eq_ok.mp h
  exact trans_of R (hx.related ha) ((hf a).related hb)⟩

instance {f : α → AnalysisM β} [hx : Carries R x] [hf : ∀ a, Carries R (f a)] : Carries R (x >>= f) := bind hx hf

/-- The first two computations belong together. -/
theorem bind₂ {f : α → AnalysisM β} {k : β → AnalysisM γ} (h : Carries R (x >>= f)) (hk : ∀ b, Carries R (k b)) :
    Carries R (x >>= fun a => f a >>= k) := by
  rw [← bind_assoc]
  exact h.bind hk

instance lift (x : Except Fault α) : Carries R (liftM x : AnalysisM α) := ⟨fun h => by
  obtain ⟨a, -, heq⟩ := run_lift_eq_ok.mp h
  cases heq
  exact refl_of R _⟩

instance get : Carries R (MonadState.get : AnalysisM Context) := ⟨fun h => by
  cases h
  exact refl_of R _⟩

theorem mapM {f : α → AnalysisM β} : ∀ {xs : List α}, (∀ a ∈ xs, Carries R (f a)) → Carries R (xs.mapM f)
  | [], _ => by
    rw [mapM_nil]
    exact pure _
  | x :: xs, hf => by
    obtain ⟨hx, hxs⟩ := forall_mem_cons.mp hf
    rw [mapM_cons]
    exact bind hx fun _ => bind (mapM hxs) fun _ => pure _

instance {f : α → AnalysisM β} {xs : List α} [hf : ∀ a, Carries R (f a)] : Carries R (xs.mapM f) := mapM fun a _ => hf a

end Carries

/-! ### Functions, step by step -/

/-- Declares a function unless it was declared before. -/
def Func.declareUnless (env : Enclosure) (f : Func) : Option Func → AnalysisM Func
  | some f => pure f
  | none => f.declare env.scope

/-- Tells the type names of a signature their scope, if there is a signature. -/
def FuncSign.bindIfAny (scope : ScopeId) : Option FuncSign → AnalysisM (Option FuncSign)
  | some s => do return some (← (s.inScope scope : Except Fault _))
  | none => pure none

/-- Binds the body of a function, which may be missing. -/
def Expr.bindBody (env : Enclosure) : Expr → AnalysisM Expr
  | .missing => pure .missing
  | body => body.bind env none

theorem Expr.bind_func (mark : Mark) (name : String) (sign : Option FuncSign) (body : Expr) (scope inner : ScopeId)
    (symbol : SymbolId) (params : List SymbolId) (env : Enclosure) (declared : Option Func) :
    (Expr.func ⟨mark, name, sign, body, scope, inner, symbol, params⟩).bind env declared = (do
      let f ← Func.declareUnless env ⟨mark, name, sign, body, scope, inner, symbol, params⟩ declared
      let sign ← FuncSign.bindIfAny env.scope f.sign
      let within ← env.enter f.name .function
      let types ← f.parameterTypes
      let params ← declareParameters within.scope (f.parameters.zip types)
      let body ← body.bindBody within
      return .func { f with sign := sign, inner := within.scope, params := params, body := body }) := by
  rw [Expr.bind.eq_def]
  have hrest : ∀ f : Func, (do
      let sign ← match f.sign with
        | some s => do pure (some (← (s.inScope env.scope : Except Fault _)))
        | none => pure none
      let within ← env.enter f.name .function
      let types ← f.parameterTypes
      let params ← declareParameters within.scope (f.parameters.zip types)
      let body ← match body with
        | .missing => pure .missing
        | body => body.bind within none
      return Expr.func { f with sign := sign, inner := within.scope, params := params,
                                body := body } : AnalysisM Expr) = (do
      let sign ← FuncSign.bindIfAny env.scope f.sign
      let within ← env.enter f.name .function
      let types ← f.parameterTypes
      let params ← declareParameters within.scope (f.parameters.zip types)
      let body ← body.bindBody within
      return .func { f with sign := sign, inner := within.scope, params := params, body := body }) := by
    intro f
    cases f.sign <;> cases body <;> simp [FuncSign.bindIfAny, Expr.bindBody]
  cases declared with
  | none => exact bind_congr hrest
  | some f => exact bind_congr hrest

/-! ### Walks -/

/-- What changes the state in the course of binding keeps to the relation. -/
class Declares (R : Context → Context → Prop) : Prop where
  scope : ∀ (name : String) (kind : ScopeKind) (parent : ScopeId) (module : String),
    Carries R (newScope name kind parent module)
  func : ∀ (scope : ScopeId) (f : Func), Carries R (f.declare scope)
  params :
    ∀ (f : Func) (scope : ScopeId), Carries R (do declareParameters scope (f.parameters.zip (← f.parameterTypes)))
  letBinding : ∀ (scope : ScopeId) (token : Token) (name : String) (overloadable : Bool),
    Carries R (declareOnce scope token name fresh overloadable)
  typeAlias : ∀ (scope : ScopeId) (a : TypeAlias), Carries R (a.declare scope)

section

variable [IsPreorder Context R]

attribute [instance] Declares.scope Declares.func Declares.letBinding Declares.typeAlias

instance enter_carries [hR : Declares R] (env : Enclosure) (name : String) (kind : ScopeKind) :
    Carries R (env.enter name kind) :=
  .bind (hR.scope _ _ _ _) fun _ => .pure _

mutual
theorem Expr.bind_carries [hR : Declares R] : ∀ (e : Expr) (env : Enclosure) (declared : Option Func),
    Carries R (e.bind env declared)
  | .missing, _, _ => .throw _
  | .func ⟨mark, name, sign, body, scope, inner, symbol, params⟩, env, declared => by
    rw [Expr.bind_func]
    refine .bind ?_ fun f => .bind ?_ fun _ => .bind (enter_carries _ _ _) fun within =>
      .bind₂ (hR.params f within.scope) fun _ => .bind ?_ fun _ => .pure _
    · cases declared with
      | none => exact hR.func _ _
      | some f => exact .pure _
    · cases f.sign with
      | none => exact .pure _
      | some s => exact .bind (.lift _) fun _ => .pure _
    · unfold Expr.bindBody
      split
      · exact .pure _
      · exact body.bind_carries within none
  | .cond _ _ _ condition thenBranch elseBranch, env, _ =>
    .bind (condition.bind_carries env none) fun _ => .bind (enter_carries _ _ _) fun _ =>
      .bind (thenBranch.bind_carries _ none) fun _ => .bind (enter_carries _ _ _) fun _ =>
      .bind (elseBranch.bind_carries _ none) fun _ => .pure _
  | .matching _ subject cases, env, _ =>
    .bind (subject.bind_carries env none) fun _ => .bind (MatchCase.bindAll_carries cases env) fun _ => .pure _
  | .letBinding _, _, _ => .bind (hR.letBinding _ _ _ _) fun _ => .pure _
  | .binary _ _ left right, env, _ =>
    .bind (left.bind_carries env none) fun _ => .bind (right.bind_carries env none) fun _ => .pure _
  | .unary _ _ operand, env, _ => .bind (operand.bind_carries env none) fun _ => .pure _
  | .call _ callee args, env, _ =>
    .bind (callee.bind_carries env none) fun _ => .bind (Labelled.bindAll_carries args env) fun _ => .pure _
  | .argument ⟨_, _, value⟩, env, _ => .bind (value.bind_carries env none) fun _ => .pure _
  | .tuple _ _ elems, env, _ => .bind (Labelled.bindAll_carries elems env) fun _ => .pure _
  | .element ⟨_, _, value⟩, env, _ => .bind (value.bind_carries env none) fun _ => .pure _
  | .select _ owner _, env, _ => .bind (owner.bind_carries env none) fun _ => .pure _
  | .ident _, _, _ => .pure _
  | .literal _ _, _, _ => .pure _
theorem Labelled.bindAll_carries [Declares R] :
    ∀ (xs : List (Option Labelled)) (env : Enclosure), Carries R (Labelled.bindAll env xs)
  | [], _ => .pure _
  | none :: _, _ => .throw _
  | some ⟨_, _, value⟩ :: rest, env =>
    .bind (value.bind_carries env none) fun _ => .bind (Labelled.bindAll_carries rest env) fun _ => .pure _
theorem MatchCase.bind_carries [Declares R] : ∀ (x : MatchCase) (env : Enclosure), Carries R (x.bind env)
  | ⟨_, pattern, value, _⟩, _ =>
    .bind (enter_carries _ _ _) fun _ => .bind (pattern.bind_carries _ none) fun _ =>
      .bind (value.bind_carries _ none) fun _ => .pure _
theorem MatchCase.bindAll_carries [Declares R] :
    ∀ (xs : List (Option MatchCase)) (env : Enclosure), Carries R (MatchCase.bindAll env xs)
  | [], _ => .pure _
  | none :: _, _ => .throw _
  | some x :: rest, env => .bind (x.bind_carries env) fun _ =>
    .bind (MatchCase.bindAll_carries rest env) fun _ => .pure _
end

attribute [instance] Expr.bind_carries Labelled.bindAll_carries MatchCase.bindAll_carries

instance Node.declareAhead_carries [Declares R] (scope : ScopeId) (n : Node) : Carries R (n.declareAhead scope) := by
  unfold Node.declareAhead
  split <;> infer_instance

mutual
theorem Node.bind_carries [Declares R] : ∀ (n : Node) (env : Enclosure) (ahead : Node),
    Carries R (Node.bind env ahead n)
  | .missing, _, _ => .throw _
  | .module m, _, _ => .bind m.bind_carries fun _ => .pure _
  | .alias _, _, _ => .bind (.lift _) fun _ => .pure _
  | .expr e, env, _ => .bind (e.bind_carries env _) fun _ => .pure _
  | .sign .missing, _, _ => .throw _
  | .sign (.name _), _, _ | .sign (.func _), _, _ | .sign (.tuple _), _, _ | .sign (.union ..), _, _ | .signElem _, _,
    _ => .bind (.lift _) fun _ => .pure _
  | .matchCase x, env, _ => .bind (x.bind_carries env) fun _ => .pure _
theorem Node.bindAll_carries [Declares R] : ∀ (ns : List Node) (env : Enclosure) (aheads : List Node),
    Carries R (Node.bindAll env aheads ns)
  | [], _, aheads => by cases aheads <;> exact .pure _
  | _ :: _, _, [] => .pure _
  | n :: ns, env, ahead :: aheads => .bind (n.bind_carries env ahead) fun _ =>
    .bind (Node.bindAll_carries ns _ aheads) fun _ => .pure _
/-- **Binding.** Binding a module keeps to every preorder on states that the declarations keep to. -/
theorem Module.bind_carries [hR : Declares R] : ∀ m : Module, Carries R m.bind
  | ⟨_, _, _, statements, _⟩ =>
    .bind .get fun _ => .bind (hR.scope _ _ _ _) fun _ => .bind (.mapM fun n _ => n.declareAhead_carries _) fun _ =>
      .bind (Node.bindAll_carries statements _ _) fun _ => .pure _
end

attribute [instance] Node.bind_carries

end

end TypeInference
