import TypeInference.Proofs.Lexical
import TypeInference.Proofs.Totality

/-! # What names mean

A place in a module is a node with a scope, together with the constructs around it that open scopes, the innermost first
(`Module.places`). A name means what the innermost of them declares (`Place.Lexical`), wherever it declares it, or else
what the prelude does. Binding puts every place of an intact module in such a scope, and typing gives every identifier
the symbols that it means (`binding_is_lexical`). -/

namespace TypeInference

open AnalysisM SymbolTable
open List

variable {around : List Construct} {scopes : List Scope} {n : Node} {t : SymbolTable}

/-! ### Places -/

/-- A construct that opens a scope, and what it declares in it. -/
structure Construct where
  scope : ScopeId
  declares : List Declaration

/-- A node that has a scope. -/
inductive Occurrence where
  | ident (i : Ident)
  | typeName (n : TypeName)
  | letBinding (b : LetBinding)
  | func (f : Func)
  | typeAlias (a : TypeAlias)

def Occurrence.scope : Occurrence → ScopeId
  | .ident i => i.scope
  | .typeName n => n.scope
  | .letBinding b => b.scope
  | .func f => f.scope
  | .typeAlias a => a.scope

/-- A node that has a scope, and the constructs around it, the innermost first. -/
structure Place where
  occurrence : Occurrence
  around : List Construct

/-- The places of type names that stand next to each other. -/
def TypeName.places (around : List Construct) (ns : List TypeName) : List Place := ns.map fun n => ⟨.typeName n, around⟩

mutual
/-- The places of an expression that stands in these constructs. -/
def Expr.places (around : List Construct) : Expr → List Place
  | .missing | .literal .. => []
  | .func ⟨mark, name, sign, body, scope, inner, symbol, params⟩ =>
    ⟨.func ⟨mark, name, sign, body, scope, inner, symbol, params⟩, around⟩ ::
      (TypeName.places around ((sign.map FuncSign.typeNames).getD []) ++
        body.places (⟨inner, FuncSign.declares sign params ++ body.declares⟩ :: around))
  | .cond _ thenScope elseScope condition thenBranch elseBranch =>
    condition.places around ++ thenBranch.places (⟨thenScope, thenBranch.declares⟩ :: around) ++
      elseBranch.places (⟨elseScope, elseBranch.declares⟩ :: around)
  | .matching _ subject cases => subject.places around ++ MatchCase.places around cases
  | .letBinding b => [⟨.letBinding b, around⟩]
  | .binary _ op left right => ⟨.ident op, around⟩ :: (left.places around ++ right.places around)
  | .unary _ op operand => ⟨.ident op, around⟩ :: operand.places around
  | .call _ callee args => callee.places around ++ Labelled.places around args
  | .argument ⟨_, _, value⟩ => value.places around
  | .tuple _ _ elems => Labelled.places around elems
  | .element ⟨_, _, value⟩ => value.places around
  | .select _ owner _ => owner.places around
  | .ident i => [⟨.ident i, around⟩]
def Labelled.places (around : List Construct) : List (Option Labelled) → List Place
  | [] => []
  | none :: rest => Labelled.places around rest
  | some ⟨_, _, value⟩ :: rest => value.places around ++ Labelled.places around rest
def MatchCase.places (around : List Construct) : List (Option MatchCase) → List Place
  | [] => []
  | none :: rest => MatchCase.places around rest
  | some ⟨_, pattern, value, inner⟩ :: rest =>
    pattern.places (⟨inner, pattern.declares ++ value.declares⟩ :: around) ++
      value.places (⟨inner, pattern.declares ++ value.declares⟩ :: around) ++ MatchCase.places around rest
end

def Node.places (around : List Construct) : Node → List Place
  | .alias a => ⟨.typeAlias a, around⟩ :: TypeName.places around a.sign.typeNames
  | .expr e => e.places around
  | _ => []

/-- The places of a module, which all stand in its scope. -/
def Module.places (m : Module) : List Place := m.statements.flatMap (Node.places [⟨m.scope, m.declares⟩])

/-! ### Meanings -/

namespace Construct

/-- The symbols that the innermost construct declares under the name; those of the prelude if no construct does. -/
def resolve (prelude : Scope) (name : String) : List Construct → List SymbolId
  | [] => prelude.symbolsOf name
  | k :: around =>
    if (Declaration.symbolsOf name k.declares).isEmpty then resolve prelude name around else Declaration.symbolsOf
      name k.declares

def innermost (prelude : ScopeId) : List Construct → ScopeId
  | [] => prelude
  | k :: _ => k.scope

/-- Each construct has opened its scope in that of the next one, and the last one in the prelude. -/
def Nested (t : SymbolTable) (prelude : ScopeId) : List Construct → Prop
  | [] => True
  | k :: around => t.Opens (innermost prelude around) k.scope k.declares ∧ Nested t prelude around

end Construct

/-- A place is in a lexical scope. -/
structure Place.Lexical (t : SymbolTable) (prelude : Scope) (p : Place) : Prop where
  /-- The scopes from the place outward are those of the constructs around it, and the prelude. -/
  chain : ∃ scopes, t.chain p.occurrence.scope = .ok scopes ∧
    scopes.map Scope.id = p.around.map Construct.scope ++ [prelude.id]
  /-- A name means what the innermost of them declares. -/
  lookup : ∀ name, t.lookup p.occurrence.scope name = .ok (Construct.resolve prelude name p.around)
  /-- The constructs declare these symbols, in their own scopes. -/
  symbols : ∀ k ∈ p.around, ∀ d ∈ k.declares, d.symbol ≠ noSymbol →
    ∃ s, t.symbol d.symbol = .ok s ∧ s.name = d.name ∧ s.scope = k.scope ∧ s.overloadable = d.overloadable
  /-- A declaration without a symbol is one whose name was taken. -/
  answered : ∀ k ∈ p.around, Declaration.Answered [] k.declares
  /-- A function has declared all of its parameters, each name once. -/
  parameters : ∀ f, p.occurrence = .func f → f.params.length = (FuncSign.parameterNames f.sign).eraseDups.length

/-! ### The way outward -/

namespace Construct

variable {t : SymbolTable} {prelude : Scope}

/-- The scope is that of the construct. -/
def HasScope (k : Construct) (s : Scope) : Prop := s.id = k.scope ∧
    ∀ name, s.symbolsOf name = Declaration.symbolsOf name k.declares

theorem resolve_eq (h : Forall₂ HasScope around scopes) (name : String) :
    innermostSymbols name (scopes ++ [prelude]) = resolve prelude name around := by
  induction h with
  | nil =>
    rw [nil_append, innermostSymbols, innermostSymbols, resolve]
    split
    · next hempty => exact (isEmpty_iff.mp hempty).symm
    · rfl
  | cons hk _ ih => rw [cons_append, innermostSymbols, resolve, hk.2 name, ih]

theorem map_id_eq (h : Forall₂ HasScope around scopes) : scopes.map Scope.id = around.map Construct.scope := by
  induction h with
  | nil => rfl
  | cons hk _ ih => rw [map_cons, map_cons, hk.1, ih]

section

variable (hroot : t.scope prelude.id = .ok prelude) (hparent : prelude.parent = noScope)

include hroot in
theorem Nested.innermost_eq : ∀ {around : List Construct}, Nested t prelude.id around →
    ∃ n : Nat, innermost prelude.id around = n ∧ n < t.scopes.size
  | [], _ => by
    obtain ⟨n, hn, hat⟩ := scope_eq_ok.mp hroot
    exact ⟨n, hn, (Array.getElem?_eq_some_iff.mp hat).1⟩
  | k :: _, h => by
    obtain ⟨s, hs, -⟩ := h.1.scope
    obtain ⟨n, hn, hat⟩ := scope_eq_ok.mp hs
    exact ⟨n, hn, (Array.getElem?_eq_some_iff.mp hat).1⟩

include hroot hparent

-- A scope is numbered after the scope around it, so the number of the innermost one bounds the steps outward.
theorem Nested.chainAux_eq : ∀ {around : List Construct} {fuel n : Nat}, Nested t prelude.id around →
    innermost prelude.id around = n → n + 1 < fuel → ∃ scopes, Forall₂ HasScope around scopes ∧
      t.chainAux fuel (innermost prelude.id around) = .ok (scopes ++ [prelude])
  | [], fuel, n, _, _, hfuel => by
    obtain ⟨fuel, rfl⟩ : ∃ k, fuel = k + 1 + 1 := ⟨fuel - 2, by omega⟩
    refine ⟨[], .nil, chainAux_succ hroot ?_⟩
    rw [hparent, chainAux, if_pos rfl]
  | k :: around, fuel, n, h, hn, hfuel => by
    obtain ⟨hopens, hnested⟩ := h
    obtain ⟨s, hs, hid, hup⟩ := hopens.scope
    obtain ⟨s', hs', hnames⟩ := hopens.holds.names
    obtain rfl := Except.ok.inj (hs.symm.trans hs')
    obtain ⟨m, hm, -⟩ := hnested.innermost_eq hroot
    have horder : m < n := by
      have hlt := hopens.order
      rw [hm, show k.scope = n from hn] at hlt
      exact Int.ofNat_lt.mp hlt
    obtain ⟨fuel, rfl⟩ : ∃ k, fuel = k + 1 := ⟨fuel - 1, by omega⟩
    obtain ⟨scopes, hscopes, hchain⟩ := Nested.chainAux_eq hnested hm (by omega : m + 1 < fuel)
    exact ⟨s :: scopes, .cons ⟨hid, hnames⟩ hscopes, chainAux_succ hs (hup ▸ hchain)⟩

theorem Nested.chain_eq (h : Nested t prelude.id around) : ∃ scopes, Forall₂ HasScope around scopes ∧
    t.chain (innermost prelude.id around) = .ok (scopes ++ [prelude]) := by
  obtain ⟨n, hn, hlt⟩ := h.innermost_eq hroot
  exact h.chainAux_eq hroot hparent hn (Nat.succ_lt_succ hlt)

end

end Construct

/-! ### Places in lexical scopes -/

/-- The constructs around the place are nested, the place stands in the innermost one, and a function has its
parameters. -/
def Place.Nested (t : SymbolTable) (prelude : ScopeId) (p : Place) : Prop :=
  Construct.Nested t prelude p.around ∧ p.occurrence.scope = Construct.innermost prelude p.around ∧
    ∀ f, p.occurrence = .func f → f.params.length = (FuncSign.parameterNames f.sign).eraseDups.length

theorem Construct.Nested.mem {prelude : ScopeId} : ∀ {around : List Construct}, Construct.Nested t prelude around →
    ∀ k ∈ around, t.Holds k.scope k.declares
  | [], _, k, hk => by cases hk
  | _ :: around, h, k, hk => by
    rcases mem_cons.mp hk with rfl | hk
    · exact h.1.holds
    · exact Construct.Nested.mem h.2 k hk

theorem Place.Nested.lexical {prelude : Scope} (hsound : t.Sound) (hroot : t.scope prelude.id = .ok prelude)
    (hparent : prelude.parent = noScope) {p : Place} (h : p.Nested t prelude.id) : p.Lexical t prelude := by
  obtain ⟨hnested, hscope, hparams⟩ := h
  obtain ⟨scopes, hscopes, hchain⟩ := hnested.chain_eq hroot hparent
  refine ⟨⟨_, hscope ▸ hchain, by rw [map_append, Construct.map_id_eq hscopes]; rfl⟩, fun name => ?_,
    fun k hk d hd hne => ?_, fun k hk => (hnested.mem k hk).answered, hparams⟩
  · rw [hscope, lookup_of_chain hchain, Construct.resolve_eq hscopes]
  · have hholds := hnested.mem k hk
    obtain ⟨s, hs, hover⟩ := hholds.flags d hd hne
    obtain ⟨a, ha, hat⟩ := symbol_eq_ok.mp hs
    have hmem : d.symbol ∈ Declaration.symbolsOf d.name k.declares :=
      Declaration.mem_symbolsOf.mpr ⟨d, hd, rfl, hne, rfl⟩
    rw [ha] at hmem
    obtain ⟨s', hat', hname, hin⟩ := (hholds.mem_iff hsound).mp hmem
    obtain rfl := Option.some.inj (hat.symm.trans hat')
    exact ⟨s, hs, hname, hin, hover⟩

section

variable {t : SymbolTable} {i : ScopeId}

theorem TypeName.places_nested {ns : List TypeName} (h : ∀ n ∈ ns, n.scope = Construct.innermost i around)
    (hnested : Construct.Nested t i around) : ∀ p ∈ TypeName.places around ns, p.Nested t i := by
  intro p hp
  obtain ⟨n, hn, rfl⟩ := mem_map.mp hp
  exact ⟨hnested, h n hn, nofun⟩

mutual
theorem Expr.places_nested : ∀ {e : Expr} {around : List Construct}, e.Lexical t (Construct.innermost i around) →
    Construct.Nested t i around → ∀ p ∈ e.places around, p.Nested t i
  | .missing, _, _, _ => by simp [Expr.places]
  | .literal .., _, _, _ => by simp [Expr.places]
  | .func ⟨_, _, sign, body, _, _, _, _⟩, around, ⟨hown, hsign, hparams, hopens, hbody⟩, hnested => by
    have hnames : ∀ n ∈ (sign.map FuncSign.typeNames).getD [], n.scope = Construct.innermost i around := by
      cases sign with
      | none => simp
      | some s => exact hsign s rfl
    rw [Expr.places]
    refine forall_mem_cons.mpr ⟨⟨hnested, hown, fun f hf => ?_⟩,
      forall_mem_append.mpr ⟨TypeName.places_nested hnames hnested, ?_⟩⟩
    · cases hf
      exact hparams
    · exact Expr.places_nested (e := body) hbody ⟨hopens, hnested⟩
  | .cond _ _ _ condition thenBranch elseBranch, around, ⟨hcondition, ⟨hthen, hthenBranch⟩, helse, helseBranch⟩,
      hnested => by
    rw [Expr.places]
    refine forall_mem_append.mpr ⟨forall_mem_append.mpr ⟨Expr.places_nested hcondition hnested, ?_⟩, ?_⟩
    · exact Expr.places_nested (e := thenBranch) hthenBranch ⟨hthen, hnested⟩
    · exact Expr.places_nested (e := elseBranch) helseBranch ⟨helse, hnested⟩
  | .matching .., _, ⟨hsubject, hcases⟩, hnested =>
    forall_mem_append.mpr ⟨Expr.places_nested hsubject hnested, MatchCase.places_nested hcases hnested⟩
  | .letBinding _, _, h, hnested => forall_mem_singleton.mpr ⟨hnested, h, nofun⟩
  | .binary .., _, ⟨hop, hleft, hright⟩, hnested => forall_mem_cons.mpr ⟨⟨hnested, hop, nofun⟩,
    forall_mem_append.mpr ⟨Expr.places_nested hleft hnested, Expr.places_nested hright hnested⟩⟩
  | .unary .., _, ⟨hop, hoperand⟩, hnested => forall_mem_cons.mpr ⟨⟨hnested, hop, nofun⟩,
    Expr.places_nested hoperand hnested⟩
  | .call .., _, ⟨hcallee, hargs⟩, hnested =>
    forall_mem_append.mpr ⟨Expr.places_nested hcallee hnested, Labelled.places_nested hargs hnested⟩
  | .argument ⟨_, _, value⟩, _, h, hnested => Expr.places_nested (e := value) h hnested
  | .tuple .., _, h, hnested => Labelled.places_nested h hnested
  | .element ⟨_, _, value⟩, _, h, hnested => Expr.places_nested (e := value) h hnested
  | .select _ owner _, _, h, hnested => Expr.places_nested (e := owner) h hnested
  | .ident _, _, h, hnested => forall_mem_singleton.mpr ⟨hnested, h, nofun⟩
theorem Labelled.places_nested : ∀ {l : List (Option Labelled)} {around : List Construct},
    Labelled.AllLexical t (Construct.innermost i around) l → Construct.Nested t i around →
    ∀ p ∈ Labelled.places around l, p.Nested t i
  | [], _, _, _ => by simp [Labelled.places]
  | none :: rest, _, h, hnested => Labelled.places_nested (l := rest) h hnested
  | some ⟨_, _, _⟩ :: _, _, ⟨hvalue, hrest⟩, hnested =>
    forall_mem_append.mpr ⟨Expr.places_nested hvalue hnested, Labelled.places_nested hrest hnested⟩
theorem MatchCase.places_nested : ∀ {l : List (Option MatchCase)} {around : List Construct},
    MatchCase.AllLexical t (Construct.innermost i around) l → Construct.Nested t i around →
    ∀ p ∈ MatchCase.places around l, p.Nested t i
  | [], _, _, _ => by simp [MatchCase.places]
  | none :: rest, _, h, hnested => MatchCase.places_nested (l := rest) h hnested
  | some ⟨_, pattern, value, _⟩ :: rest, _, ⟨⟨hopens, hpattern, hvalue⟩, hrest⟩, hnested => by
    rw [MatchCase.places]
    refine forall_mem_append.mpr ⟨forall_mem_append.mpr ⟨?_, ?_⟩, MatchCase.places_nested hrest hnested⟩
    · exact Expr.places_nested (e := pattern) hpattern ⟨hopens, hnested⟩
    · exact Expr.places_nested (e := value) hvalue ⟨hopens, hnested⟩
end

theorem Module.places_nested {m : Module} (hopens : t.Opens i m.scope m.declares)
    (h : ∀ n ∈ m.statements, n.Lexical t m.scope) : ∀ p ∈ m.places, p.Nested t i := by
  intro p hp
  obtain ⟨n, hn, hp⟩ := mem_flatMap.mp hp
  have hnested : Construct.Nested t i [⟨m.scope, m.declares⟩] := ⟨hopens, trivial⟩
  have hlexical := h n hn
  cases n with
  | «alias» a =>
    rcases mem_cons.mp hp with rfl | hp
    · exact ⟨hnested, hlexical.1, nofun⟩
    · exact TypeName.places_nested hlexical.2 hnested p hp
  | expr e =>
    have he : e.Lexical t m.scope := hlexical
    exact Expr.places_nested he hnested p hp
  | _ => exact hlexical.elim

end

/-! ### Identifiers -/

/-- An identifier that has the place is one of these expressions. -/
def Place.Among (es : List Expr) (p : Place) : Prop := ∀ i, p.occurrence = .ident i → .ident i ∈ es

theorem Place.all_among {ps : List Place} {es es' : List Expr} (h : ∀ p ∈ ps, p.Among es) (hsub : ∀ e ∈ es, e ∈ es') :
    ∀ p ∈ ps, p.Among es' := fun p hp i hi => hsub _ (h p hp i hi)

theorem TypeName.places_among (around : List Construct) (ns : List TypeName) (es : List Expr) :
    ∀ p ∈ TypeName.places around ns, p.Among es := by
  intro p hp i hi
  obtain ⟨n, -, rfl⟩ := mem_map.mp hp
  cases hi

mutual
theorem Expr.places_among : ∀ (e : Expr) (around : List Construct), ∀ p ∈ e.places around, p.Among e.exprs
  | .missing, _ => by simp [Expr.places]
  | .literal .., _ => by simp [Expr.places]
  | .func ⟨_, _, _, body, _, _, _, _⟩, around => by
    rw [Expr.places]
    refine forall_mem_cons.mpr ⟨fun i hi => (by cases hi), forall_mem_append.mpr ⟨TypeName.places_among around _ _, ?_⟩⟩
    exact Place.all_among (body.places_among _) fun e he => mem_cons_of_mem _ he
  | .cond _ _ _ condition thenBranch elseBranch, around => by
    rw [Expr.places]
    refine forall_mem_append.mpr ⟨forall_mem_append.mpr ⟨?_, ?_⟩, ?_⟩
    · exact Place.all_among (condition.places_among _) fun e he => by simp [Expr.exprs, he]
    · exact Place.all_among (thenBranch.places_among _) fun e he => by simp [Expr.exprs, he]
    · exact Place.all_among (elseBranch.places_among _) fun e he => by simp [Expr.exprs, he]
  | .matching _ subject cases, around => by
    refine forall_mem_append.mpr ⟨?_, ?_⟩
    · exact Place.all_among (subject.places_among _) fun e he => by simp [Expr.exprs, he]
    · exact Place.all_among (MatchCase.places_among cases _) fun e he => by simp [Expr.exprs, he]
  | .letBinding _, _ => forall_mem_singleton.mpr fun i hi => by cases hi
  | .binary _ op left right, around => by
    refine forall_mem_cons.mpr ⟨fun i hi => ?_, forall_mem_append.mpr ⟨?_, ?_⟩⟩
    · cases hi
      simp [Expr.exprs]
    · exact Place.all_among (left.places_among _) fun e he => by simp [Expr.exprs, he]
    · exact Place.all_among (right.places_among _) fun e he => by simp [Expr.exprs, he]
  | .unary _ op operand, around => by
    refine forall_mem_cons.mpr ⟨fun i hi => ?_, ?_⟩
    · cases hi
      simp [Expr.exprs]
    · exact Place.all_among (operand.places_among _) fun e he => by simp [Expr.exprs, he]
  | .call _ callee args, around => by
    refine forall_mem_append.mpr ⟨?_, ?_⟩
    · exact Place.all_among (callee.places_among _) fun e he => by simp [Expr.exprs, he]
    · exact Place.all_among (Labelled.places_among args .argument _) fun e he => by simp [Expr.exprs, he]
  | .argument ⟨_, _, value⟩, around => Place.all_among (value.places_among around) fun e he => mem_cons_of_mem _ he
  | .tuple _ _ elems, around => Place.all_among (Labelled.places_among elems .element around) fun e he =>
    mem_cons_of_mem _ he
  | .element ⟨_, _, value⟩, around => Place.all_among (value.places_among around) fun e he => mem_cons_of_mem _ he
  | .select _ owner _, around => Place.all_among (owner.places_among around) fun e he => mem_cons_of_mem _ he
  | .ident i, _ => forall_mem_singleton.mpr fun j hj => by
    cases hj
    exact mem_singleton_self _
theorem Labelled.places_among : ∀ (l : List (Option Labelled)) (wrap : Labelled → Expr) (around : List Construct),
    ∀ p ∈ Labelled.places around l, p.Among (Labelled.exprs wrap l)
  | [], _, _ => by simp [Labelled.places]
  | none :: rest, wrap, around => Labelled.places_among rest wrap around
  | some ⟨_, _, value⟩ :: rest, wrap, around => by
    refine forall_mem_append.mpr ⟨?_, ?_⟩
    · exact Place.all_among (value.places_among _) fun e he => by simp [Labelled.exprs, he]
    · exact Place.all_among (Labelled.places_among rest wrap _) fun e he => by simp [Labelled.exprs, he]
theorem MatchCase.places_among : ∀ (l : List (Option MatchCase)) (around : List Construct),
    ∀ p ∈ MatchCase.places around l, p.Among (MatchCase.exprs l)
  | [], _ => by simp [MatchCase.places]
  | none :: rest, around => MatchCase.places_among rest around
  | some ⟨_, pattern, value, _⟩ :: rest, around => by
    rw [MatchCase.places]
    refine forall_mem_append.mpr ⟨forall_mem_append.mpr ⟨?_, ?_⟩, ?_⟩
    · exact Place.all_among (pattern.places_among _) fun e he => by simp [MatchCase.exprs, he]
    · exact Place.all_among (value.places_among _) fun e he => by simp [MatchCase.exprs, he]
    · exact Place.all_among (MatchCase.places_among rest _) fun e he => by simp [MatchCase.exprs, he]
end

theorem Node.mem_allExprs {e : Expr} (he : e ∈ n.exprs) : ∀ {ns : List Node}, n ∈ ns → e ∈ Node.allExprs ns
  | n' :: ns, hn => by
    rw [Node.allExprs]
    rcases mem_cons.mp hn with rfl | hn
    · exact mem_append_left _ he
    · exact mem_append_right _ (Node.mem_allExprs he hn)

theorem Node.places_among : ∀ p ∈ n.places around, p.Among n.exprs := by
  cases n with
  | «alias» a =>
    exact forall_mem_cons.mpr ⟨fun i hi => (by cases hi), TypeName.places_among around _ _⟩
  | expr e => exact e.places_among around
  | _ => simp [Node.places]

theorem Module.places_among (m : Module) : ∀ p ∈ m.places, p.Among m.exprs := by
  obtain ⟨token, name, id, statements, scope⟩ := m
  intro p hp
  obtain ⟨n, hn, hp⟩ := mem_flatMap.mp hp
  exact Place.all_among Node.places_among (fun e he => Node.mem_allExprs he hn) p hp

/-! ### Modules -/

/-- **Lexical scoping.** An analysis starts with the prelude as outermost scope. Binding comes to a result on every
intact module, with operators or without, and puts every place of the module in a lexical scope; typing leaves it there.
The candidates of every identifier are what its name means there: the symbols that the innermost construct around it
declares under the name. -/
theorem binding_is_lexical :
    (∀ g : TypeGraph, g.Ground → ∃ c, Context.initial g = .ok c ∧ c.WellFormed ∧ c.Rooted) ∧
      ∀ (c : Context) (m : Module) (operators : Bool), c.WellFormed → c.Rooted → m.Intact operators →
        ∃ prelude bound env c1, c.table.scope c.prelude = .ok prelude ∧ m.bind.run c = .ok ((bound, env), c1) ∧
          Node.copyAll bound.statements = Node.copyAll m.statements ∧ (∀ p ∈ bound.places, p.Lexical c1.table prelude) ∧
          (operators = false → ∃ typed c2, bound.oblige.run c1 = .ok (typed, c2) ∧
            Node.copyAll typed.statements = Node.copyAll m.statements ∧
            ∀ p ∈ typed.places, p.Lexical c2.table prelude ∧
              ∀ i, p.occurrence = .ident i → i.candidates = Construct.resolve prelude i.name p.around) := by
  refine ⟨fun g hg => ?_, fun c m operators hc hroot h => ?_⟩
  · obtain ⟨c, hc, hwell, hroot, -⟩ := Context.initial_rooted hg
    exact ⟨c, hc, hwell, hroot⟩
  have hscope := hroot.hasScope
  obtain ⟨prelude, hprelude, hid, hparent⟩ := hroot
  obtain ⟨⟨bound, env⟩, c1, hbind, hc1, -, hopens, hkept, hlexical⟩ := Module.bind_lexical h hscope hc
  rw [← hid] at hopens
  have hroot1 : c1.table.scope prelude.id = .ok prelude := hkept _ _ (hid ▸ hprelude)
  have hcopies := (Module.bind_fills (fun n hn => (h n hn).isStatement) hbind).1
  refine ⟨prelude, bound, env, c1, hprelude, hbind, hcopies, fun p hp => ?_, ?_⟩
  · exact (Module.places_nested hopens hlexical p hp).lexical hc1.sound hroot1 hparent
  rintro rfl
  obtain ⟨r, c', hbind', -, -, hplaced⟩ := Module.bind_succeeds h hscope hc
  obtain ⟨rfl, rfl⟩ := Prod.mk.inj (Except.ok.inj (hbind.symm.trans hbind'))
  obtain ⟨typed, c2, hoblige, -⟩ := Module.oblige_succeeds hplaced hc1
  have hcopies' := Module.oblige_copies (fun n hn => (hplaced n hn).isStatement) hoblige
  refine ⟨typed, c2, hoblige, hcopies'.trans hcopies, fun p hp => ?_⟩
  have htyped := Module.oblige_typed hoblige
  have htable : c2.table = c1.table := htyped.builds.grows.table
  obtain ⟨htypedScope, hdeclares, hlexical'⟩ := Module.oblige_lexical hlexical hoblige
  rw [← htypedScope] at hlexical'
  rw [← htypedScope, ← hdeclares] at hopens
  have hp' := (Module.places_nested hopens hlexical' p hp).lexical hc1.sound hroot1 hparent
  rw [← htable] at hp'
  refine ⟨hp', fun i hi => ?_⟩
  have hmeaning := htyped.meanings i (typed.places_among p hp i hi)
  have hlookup := hp'.lookup i.name
  rw [hi] at hlookup
  exact Except.ok.inj (hmeaning.symm.trans hlookup)

/-! ### A module with a hidden name -/

/-- A call of `f`, which is defined below for `Int` and declared for `String`. The first `f` matches its argument `x`
with a new `x`. -/
def shadowingModule : Module where
  token := {}
  name := "shadowing"
  statements := [
    .expr (.call { token := {} } (.ident (plainIdent "f"))
    [some ⟨{ token := {} }, "", .literal { token := {} } (.int 1)⟩]), .expr (.func {
      mark := { token := {} }, name := "f",
      sign := some ⟨{}, some ⟨{}, "", [some ⟨{}, "", "x", .name { token := {}, name := "Int" }⟩]⟩,
      .name { token := {}, name := "Int" }⟩, body := .matching { token := {} } (.ident (plainIdent "x"))
        [some ⟨{}, .letBinding { mark := { token := {} }, name := "x" }, .ident (plainIdent "x"), noScope⟩] }),
    .expr (.func {
      mark := { token := {} }, name := "f",
      sign := some ⟨{}, some ⟨{}, "", [some ⟨{}, "", "x", .name { token := {}, name := "String" }⟩]⟩,
      .name { token := {}, name := "Int" }⟩, body := .missing })]

theorem shadowingModule_intact : shadowingModule.Intact false := by
  simp [shadowingModule, Module.Intact, Node.Intact, Expr.Intact, Labelled.AllIntact, MatchCase.AllIntact,
    MatchCase.Intact, FuncSign.Intact, TupleSign.Intact, SignElem.AllIntact, SignElem.Intact, Sign.Intact]

/-- The candidates of an identifier; nothing else has any. -/
def Occurrence.candidates : Occurrence → List SymbolId
  | .ident i => i.candidates
  | _ => []

/-- `f` means both functions, the subject of the match is the parameter, and the value of its case is the new `x`. -/
theorem shadowingModule_lexical : ∃ c prelude bound env c1 typed c2, Context.initial {} = .ok c ∧
    shadowingModule.bind.run c = .ok ((bound, env), c1) ∧ bound.oblige.run c1 = .ok (typed, c2) ∧
    (typed.places.map fun p => (p.occurrence.candidates, p.around.map Construct.scope)) =
      [([34, 35], [1]), ([], [1]), ([], [1]), ([], [1]), ([36], [2, 1]), ([], [3, 2, 1]), ([37], [3, 2, 1]), ([], [1]),
      ([], [1]), ([], [1])] ∧
    ∀ p ∈ typed.places, p.Lexical c2.table prelude ∧
      ∀ i, p.occurrence = .ident i → i.candidates = Construct.resolve prelude i.name p.around := by
  obtain ⟨c, hinitial, hwell, hroot⟩ := binding_is_lexical.1 {} ground_empty
  obtain ⟨prelude, bound, env, c1, -, hbind, -, -, htyped⟩ :=
    binding_is_lexical.2 c shadowingModule false hwell hroot shadowingModule_intact
  obtain ⟨typed, c2, hoblige, -, hplaces⟩ := htyped rfl
  refine ⟨c, prelude, bound, env, c1, typed, c2, hinitial, hbind, hoblige, ?_, hplaces⟩
  have hrun : ((Context.initial {} >>= fun c => (do (← shadowingModule.bind).1.oblige).run c).toOption.map fun r =>
      r.1.places.map fun p => (p.occurrence.candidates, p.around.map Construct.scope)) = some [([34, 35], [1]),
        ([], [1]), ([], [1]), ([], [1]), ([36], [2, 1]), ([], [3, 2, 1]), ([37], [3, 2, 1]), ([], [1]), ([], [1]),
        ([], [1])] := by
    decide +kernel
  have hboth : (do (← shadowingModule.bind).1.oblige).run c = .ok (typed, c2) :=
    run_bind_eq_ok.mpr ⟨(bound, env), c1, hbind, hoblige⟩
  rw [hinitial, ok_bind, hboth] at hrun
  exact Option.some.inj hrun

end TypeInference
