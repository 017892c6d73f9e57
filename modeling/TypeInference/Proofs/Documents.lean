import Mathlib.Algebra.Order.Group.Int
import Mathlib.Data.List.Forall2
import TypeInference.Proofs.Decoding
import TypeInference.Proofs.Problems

/-! # Modules kept as documents

`Writable` says of a tree alone that it can be written as a document: it has its parts, no analysis has touched it, and
every name, member and literal has a text. Such a tree has a document (`Module.exists_writing`), and whichever of its
documents is read, the tree comes back (`written_module_read_back`). -/

namespace TypeInference

open Document (Value)
open Document.Value (given IsText IsItems)
open List

/-! ### Values from their contents -/

namespace Document.Value

def ofText (text : String) : Value := .scalar ⟨1, 1⟩ text .plain

def ofItems (items : List Value) : Value := .sequence ⟨1, 1⟩ items

def ofEntries (entries : List (String × Value)) : Value := .mapping ⟨1, 1⟩ (entries.map fun e => (ofText e.1, e.2))

theorem isScalar_ofText (text : String) : (ofText text).IsScalar text := ⟨_, _, rfl⟩

theorem isSequence_ofItems (items : List Value) : (ofItems items).IsSequence items := ⟨_, rfl⟩

theorem isMapping_ofEntries (entries : List (String × Value)) : (ofEntries entries).IsMapping entries := by
  refine ⟨_, _, rfl, ?_⟩
  rw [map_map]
  exact .of_eq (map_id' entries)

/-- A mapping with one key, and below it the parts that are there. -/
def ofRecord (key : String) (parts : List (String × Option Value)) : Value := ofEntries [(key, ofEntries (given parts))]

theorem isRecord_ofRecord (key : String) (parts : List (String × Option Value)) :
    (ofRecord key parts).IsRecord key parts :=
  ⟨_, isMapping_ofEntries _, isMapping_ofEntries _⟩

end Document.Value

open Document.Value (ofText ofItems ofEntries ofRecord isScalar_ofText isSequence_ofItems isMapping_ofEntries
    isRecord_ofRecord)

/-! ### Texts of literals -/

namespace Literal

theorem digits?_repr (n : Nat) : digits? n.repr.toList = some n := by
  rw [Nat.toList_repr, digits?]
  have hne : Nat.toDigits 10 n ≠ [] := Nat.toDigits_ne_nil
  have hdigits : (Nat.toDigits 10 n).all Char.isDigit = true :=
    all_eq_true.mpr fun c hc => Nat.isDigit_of_mem_toDigits (by decide) (by decide) hc
  have hvalue : (Nat.toDigits 10 n).foldl (fun n c => n * 10 + (c.toNat - '0'.toNat)) 0 = n := by
    simp only [Nat.mul_comm _ 10]
    exact Nat.ofDigitChars_ten_toDigits
  rw [hdigits, hvalue, isEmpty_eq_false_iff.mpr hne]
  rfl

theorem sign_repr (n : Nat) : sign n.repr.toList = (false, n.repr.toList) := by
  have hminus : '-' ∉ n.repr.toList := notMem_repr (by decide) n
  have hplus : '+' ∉ n.repr.toList := notMem_repr (by decide) n
  cases hcs : n.repr.toList with
  | nil => rfl
  | cons c cs =>
    rw [hcs] at hminus hplus
    rw [sign]
    · rintro _ ⟨⟩
      exact hminus mem_cons_self
    · rintro _ ⟨⟩
      exact hplus mem_cons_self

theorem int?_repr {n : Int} (hmin : -2 ^ 63 ≤ n) (hmax : n < 2 ^ 63) : int? n.repr = some n := by
  have hpow : Nat.pow 2 63 = 9223372036854775808 := by decide
  by_cases hn : 0 ≤ n
  · have hlt : n.toNat < Nat.pow 2 63 := by omega
    have hback : (n.toNat : Int) = n := by omega
    simp only [int?, toList_int_repr, if_pos hn, sign_repr, digits?_repr, Option.bind_eq_bind, Option.bind_some, hlt,
      hback, Bool.false_eq_true, if_false, if_true]
  · have hle : (-n).toNat ≤ Nat.pow 2 63 := by omega
    have hback : -((-n).toNat : Int) = n := by omega
    simp only [int?, toList_int_repr, if_neg hn, sign, digits?_repr, Option.bind_eq_bind, Option.bind_some, hle,
      hback, if_true]

end Literal

/-- An integer is one of 64 bits, and some text stands for a floating point number. -/
def Constant.Writable : Constant → Prop
  | .int value => -2 ^ 63 ≤ value ∧ value < 2 ^ 63
  | .float bits => ∃ text, Literal.float? text = some bits
  | .bool _ | .string _ => True

theorem Constant.Writable.exists_text : ∀ {c : Constant}, c.Writable → ∃ text, c.ReadFrom text
  | .int value, ⟨hmin, hmax⟩ => ⟨value.repr, Literal.int?_repr hmin hmax⟩
  | .float _, h => h
  | .bool true, _ => ⟨"true", rfl⟩
  | .bool false, _ => ⟨"false", rfl⟩
  | .string value, _ => ⟨value, rfl⟩

/-- A label that is not empty, or a number that is not negative. -/
def Member.Writable : Member → Prop
  | .label name => name ≠ ""
  | .index number => 0 ≤ number ∧ number < 2 ^ 63

theorem Member.Writable.exists_writing : ∀ {m : Member}, m.Writable → ∃ l i, m.WrittenAs l i
  | .label name, hname => ⟨some (ofText name), none, hname, rfl, _, rfl, isScalar_ofText name⟩
  | .index number, ⟨hmin, hmax⟩ =>
    ⟨none, some (ofText number.repr), hmin, rfl, _, rfl, _, isScalar_ofText _, Literal.int?_repr (by omega) hmax⟩

/-! ### Trees that can be written -/

mutual
def Sign.Writable : Sign → Prop
  | .missing => False
  | .name n => n.scope = noScope ∧ n.metatype = .absent
  | .func f => f.Writable
  | .tuple t => t.Writable
  | .union _ cases => Sign.AllWritable cases
def Sign.AllWritable : List Sign → Prop
  | [] => True
  | s :: ss => s.Writable ∧ Sign.AllWritable ss
/-- The domain is there and has no label. -/
def FuncSign.Writable : FuncSign → Prop
  | ⟨_, none, _⟩ => False
  | ⟨_, some ⟨_, label, elems⟩, codomain⟩ => label = "" ∧ SignElem.AllWritable elems ∧ codomain.Writable
def TupleSign.Writable : TupleSign → Prop
  | ⟨_, _, elems⟩ => SignElem.AllWritable elems
def SignElem.Writable : SignElem → Prop
  | ⟨_, _, name, sign⟩ => name = "" ∧ sign.Writable
def SignElem.AllWritable : List (Option SignElem) → Prop
  | [] => True
  | none :: _ => False
  | some e :: es => e.Writable ∧ SignElem.AllWritable es
end

/-- A function is declared with a signature; its parameters may have names. -/
def FuncSign.Declarable : Option FuncSign → Prop
  | some ⟨_, some ⟨_, label, elems⟩, codomain⟩ => label = "" ∧ (∀ e ∈ elems, ∃ x, e = some x ∧ x.sign.Writable) ∧
    codomain.Writable
  | _ => False

mutual
def Expr.Writable : Expr → Prop
  | .missing | .argument _ | .element _ => False
  | .func ⟨mark, name, sign, body, scope, inner, symbol, params⟩ =>
    Func.Unbound ⟨mark, name, sign, body, scope, inner, symbol, params⟩ ∧ FuncSign.Declarable sign ∧ body.Writable
  | .cond mark thenScope elseScope condition thenBranch elseBranch =>
    (mark.type = .absent ∧ thenScope = noScope ∧ elseScope = noScope) ∧ condition.Writable ∧ thenBranch.Writable ∧
      elseBranch.Writable
  | .matching mark subject cases => mark.type = .absent ∧ subject.Writable ∧ MatchCase.AllWritable cases
  | .letBinding b => b.Unbound
  | .binary mark op left right => (mark.type = .absent ∧ op.Unbound) ∧ left.Writable ∧ right.Writable
  | .unary mark op operand => (mark.type = .absent ∧ op.Unbound) ∧ operand.Writable
  | .call mark callee args => mark.type = .absent ∧ callee.Writable ∧ Labelled.AllWritable args
  | .tuple mark _ elems => mark.type = .absent ∧ Labelled.AllWritable elems
  | .select mark owner member => mark.type = .absent ∧ owner.Writable ∧ member.Writable
  | .ident i => i.Unbound
  | .literal mark value => mark.type = .absent ∧ value.Writable
def Labelled.AllWritable : List (Option Labelled) → Prop
  | [] => True
  | none :: _ => False
  | some ⟨mark, _, value⟩ :: xs => mark.type = .absent ∧ value.Writable ∧ Labelled.AllWritable xs
def MatchCase.AllWritable : List (Option MatchCase) → Prop
  | [] => True
  | none :: _ => False
  | some ⟨_, pattern, value, inner⟩ :: cs => inner = noScope ∧ pattern.Writable ∧ value.Writable ∧
    MatchCase.AllWritable cs
end

/-- A statement is a type alias or an expression. -/
def Node.Writable : Node → Prop
  | .alias a => a.scope = noScope ∧ a.symbol = noSymbol ∧ a.sign.Writable
  | .expr e => e.Writable
  | _ => False

def Module.Writable (m : Module) : Prop := m.scope = noScope ∧ ∀ n ∈ m.statements, n.Writable

/-! ### A document for every tree -/

mutual
theorem Sign.exists_writing : ∀ s : Sign, s.Writable → ∃ v, s.WrittenAs v
  | .name n, ⟨hscope, hmetatype⟩ => ⟨ofText n.name, hscope, hmetatype, isScalar_ofText _⟩
  | .func f, h => f.exists_writing h
  | .tuple t, h => by
    obtain ⟨v, hv⟩ := t.exists_writing h
    exact ⟨_, v, isMapping_ofEntries _, hv⟩
  | .union _ cases, h => by
    obtain ⟨vs, hvs⟩ := Sign.exists_writings cases h
    exact ⟨_, _, vs, isMapping_ofEntries _, isSequence_ofItems vs, hvs⟩
theorem Sign.exists_writings : ∀ ss : List Sign, Sign.AllWritable ss → ∃ vs, Sign.AllWrittenAs ss vs
  | [], _ => ⟨[], rfl⟩
  | s :: ss, ⟨hs, hss⟩ => by
    obtain ⟨v, hv⟩ := s.exists_writing hs
    obtain ⟨vs, hvs⟩ := Sign.exists_writings ss hss
    exact ⟨v :: vs, v, vs, rfl, hv, hvs⟩
theorem FuncSign.exists_writing : ∀ f : FuncSign, f.Writable → ∃ v, f.WrittenAs v
  | ⟨_, some ⟨_, _, elems⟩, codomain⟩, ⟨hlabel, helems, hcodomain⟩ => by
    obtain ⟨vs, hvs⟩ := SignElem.exists_writings elems helems
    obtain ⟨r, hr⟩ := codomain.exists_writing hcodomain
    exact ⟨_, hlabel, some (ofItems vs), vs, some r, isRecord_ofRecord _ _, isSequence_ofItems vs, hvs, hr⟩
theorem TupleSign.exists_writing : ∀ t : TupleSign, t.Writable → ∃ v, t.WrittenAs v
  | ⟨_, label, elems⟩, h => by
    obtain ⟨vs, hvs⟩ := SignElem.exists_writings elems h
    exact ⟨_, some (ofText label), some (ofItems vs), vs, isMapping_ofEntries _, isScalar_ofText label,
      isSequence_ofItems vs, hvs⟩
theorem SignElem.exists_writings : ∀ es : List (Option SignElem), SignElem.AllWritable es →
    ∃ vs, SignElem.AllWrittenAs es vs
  | [], _ => ⟨[], rfl⟩
  | some ⟨_, label, _, sign⟩ :: es, ⟨⟨hname, hsign⟩, hes⟩ => by
    obtain ⟨t, ht⟩ := sign.exists_writing hsign
    obtain ⟨vs, hvs⟩ := SignElem.exists_writings es hes
    exact ⟨_ :: vs, _, vs, rfl,
      ⟨hname, .inr ⟨some (ofText label), t, isMapping_ofEntries _, isScalar_ofText label, ht⟩⟩, hvs⟩
end

theorem FuncSign.Declarable.exists_writing : ∀ {sign : Option FuncSign}, FuncSign.Declarable sign →
    ∃ ps r, FuncSign.DeclaredAs sign ps r
  | some ⟨_, some ⟨_, _, elems⟩, codomain⟩, ⟨hlabel, helems, hcodomain⟩ => by
    have hparams : ∃ vs, Forall₂ (fun e v => ∃ x : SignElem, e = some x ∧ x.DeclaredAs v) elems vs := by
      clear hcodomain
      induction elems with
      | nil => exact ⟨[], .nil⟩
      | cons e es ih =>
        obtain ⟨⟨x, rfl, hx⟩, hes⟩ := forall_mem_cons.mp helems
        obtain ⟨t, ht⟩ := x.sign.exists_writing hx
        obtain ⟨vs, hvs⟩ := ih hes
        have hparam :
            x.DeclaredAs
            (ofEntries (given [("name", some (ofText x.name)), ("label", some (ofText x.label)), ("type", some t)])) :=
          ⟨_, _, t, isMapping_ofEntries _, isScalar_ofText x.name, isScalar_ofText x.label, ht⟩
        exact ⟨_ :: vs, .cons ⟨x, rfl, hparam⟩ hvs⟩
    obtain ⟨vs, hvs⟩ := hparams
    obtain ⟨r, hr⟩ := codomain.exists_writing hcodomain
    exact ⟨some (ofItems vs), some r, hlabel, ⟨vs, isSequence_ofItems vs, hvs⟩, hr⟩

mutual
theorem Expr.exists_writing : ∀ e : Expr, e.Writable → ∃ v, e.WrittenAs v
  | .func ⟨_, name, _, body, _, _, _, _⟩, ⟨hf, hsign, hbody⟩ => by
    obtain ⟨ps, r, hpsr⟩ := hsign.exists_writing
    obtain ⟨b, hb⟩ := body.exists_writing hbody
    exact ⟨_, hf, some (ofText name), ps, r, b, isRecord_ofRecord _ _, isScalar_ofText name, hpsr, hb⟩
  | .cond _ _ _ condition thenBranch elseBranch, ⟨hslots, hcondition, hthen, helse⟩ => by
    obtain ⟨c, hc⟩ := condition.exists_writing hcondition
    obtain ⟨t, ht⟩ := thenBranch.exists_writing hthen
    obtain ⟨e, he⟩ := elseBranch.exists_writing helse
    exact ⟨_, hslots, c, t, e, isRecord_ofRecord _ _, hc, ht, he⟩
  | .matching _ subject cases, ⟨hmark, hsubject, hcases⟩ => by
    obtain ⟨s, hs⟩ := subject.exists_writing hsubject
    obtain ⟨vs, hvs⟩ := MatchCase.exists_writings cases hcases
    exact ⟨_, hmark, s, some (ofItems vs), vs, isRecord_ofRecord _ _, hs, isSequence_ofItems vs, hvs⟩
  | .letBinding b, hb => ⟨_, hb, ofText b.name, isMapping_ofEntries _, isScalar_ofText b.name⟩
  | .binary _ op left right, ⟨hslots, hleft, hright⟩ => by
    obtain ⟨l, hl⟩ := left.exists_writing hleft
    obtain ⟨r, hr⟩ := right.exists_writing hright
    exact ⟨_, hslots, ofText op.name, l, r, isRecord_ofRecord _ _, isScalar_ofText op.name, hl, hr⟩
  | .unary _ op operand, ⟨hslots, hoperand⟩ => by
    obtain ⟨x, hx⟩ := operand.exists_writing hoperand
    exact ⟨_, hslots, ofText op.name, x, isRecord_ofRecord _ _, isScalar_ofText op.name, hx⟩
  | .call _ callee args, ⟨hmark, hcallee, hargs⟩ => by
    obtain ⟨c, hc⟩ := callee.exists_writing hcallee
    obtain ⟨vs, hvs⟩ := Labelled.exists_writings args hargs
    exact ⟨_, hmark, c, some (ofItems vs), vs, isRecord_ofRecord _ _, hc, isSequence_ofItems vs, hvs⟩
  | .tuple _ label elems, ⟨hmark, helems⟩ => by
    obtain ⟨vs, hvs⟩ := Labelled.exists_writings elems helems
    exact ⟨_, hmark, some (ofText label), some (ofItems vs), vs, isRecord_ofRecord _ _, isScalar_ofText label,
      isSequence_ofItems vs, hvs⟩
  | .select _ owner member, ⟨hmark, howner, hmember⟩ => by
    obtain ⟨o, ho⟩ := owner.exists_writing howner
    obtain ⟨l, i, hli⟩ := hmember.exists_writing
    exact ⟨_, hmark, o, l, i, isRecord_ofRecord _ _, ho, hli⟩
  | .ident i, hi => ⟨_, hi, ofText i.name, isMapping_ofEntries _, isScalar_ofText i.name⟩
  | .literal _ value, ⟨hmark, hvalue⟩ => by
    obtain ⟨text, htext⟩ := hvalue.exists_text
    exact ⟨_, hmark, ofText text, text, isMapping_ofEntries _, isScalar_ofText text, htext⟩
theorem Labelled.exists_writings : ∀ xs : List (Option Labelled), Labelled.AllWritable xs →
    ∃ vs, Labelled.AllWrittenAs xs vs
  | [], _ => ⟨[], rfl⟩
  | some ⟨_, label, value⟩ :: xs, ⟨hmark, hvalue, hxs⟩ => by
    obtain ⟨v, hv⟩ := value.exists_writing hvalue
    obtain ⟨vs, hvs⟩ := Labelled.exists_writings xs hxs
    exact ⟨_ :: vs, _, vs, rfl,
      ⟨hmark, .inr ⟨some (ofText label), v, isMapping_ofEntries _, isScalar_ofText label, hv⟩⟩, hvs⟩
theorem MatchCase.exists_writings : ∀ cs : List (Option MatchCase), MatchCase.AllWritable cs →
    ∃ vs, MatchCase.AllWrittenAs cs vs
  | [], _ => ⟨[], rfl⟩
  | some ⟨_, pattern, value, _⟩ :: cs, ⟨hinner, hpattern, hvalue, hcs⟩ => by
    obtain ⟨p, hp⟩ := pattern.exists_writing hpattern
    obtain ⟨x, hx⟩ := value.exists_writing hvalue
    obtain ⟨vs, hvs⟩ := MatchCase.exists_writings cs hcs
    exact ⟨_ :: vs, _, vs, rfl, ⟨hinner, p, x, isMapping_ofEntries _, hp, hx⟩, hvs⟩
end

theorem Node.exists_writing : ∀ {n : Node}, n.Writable → ∃ v, n.WrittenAs v
  | .alias a, ⟨hscope, hsymbol, hsign⟩ => by
    obtain ⟨s, hs⟩ := a.sign.exists_writing hsign
    exact ⟨_, hscope, hsymbol, ofText a.name, s, isMapping_ofEntries _, isScalar_ofText a.name, hs⟩
  | .expr e, h => by
    obtain ⟨v, hv⟩ := e.exists_writing h
    exact ⟨v, .inl hv⟩

theorem Module.exists_writing (file : String) {m : Module} (h : m.Writable) : ∃ v, m.WrittenAs file v := by
  obtain ⟨hscope, hstatements⟩ := h
  have hwritings : ∃ vs, Forall₂ Node.WrittenAs m.statements vs := by
    generalize m.statements = statements at hstatements
    induction statements with
    | nil => exact ⟨[], .nil⟩
    | cons n ns ih =>
      obtain ⟨hn, hns⟩ := forall_mem_cons.mp hstatements
      obtain ⟨v, hv⟩ := n.exists_writing hn
      obtain ⟨vs, hvs⟩ := ih hns
      exact ⟨v :: vs, .cons hv hvs⟩
  obtain ⟨vs, hvs⟩ := hwritings
  refine ⟨_, hscope, some (ofText m.name), none, some (ofItems vs), vs, isMapping_ofEntries _, isScalar_ofText m.name,
    ?_, isSequence_ofItems vs, hvs⟩
  simp

/-! ### Modules read back -/

/-- A tree of the constructs that documents have can be written, and reading any document that it is written as gives
the tree back, anchors and identifier apart: labels, names, literals, parts that may be left out, their order and their
nesting are kept. -/
theorem written_module_read_back (file : String) (m : Module) (h : m.Writable) :
    (∃ v, m.WrittenAs file v) ∧ ∀ v, m.WrittenAs file v → ∃ m', Decode.module file v = .ok m' ∧ m'.bare = m.bare :=
  ⟨Module.exists_writing file h, fun _ hv => Decode.module_gives hv⟩

/-- A recursive type, a function that returns nothing and has a match as its body, and a selection from a record. -/
def natModule : Module where
  token := {}
  name := "nat"
  statements := [
    .alias {
      token := {}, name := "Nat"
      sign := .ofCases [.tuple (.build "zero" []), .tuple (.build "succ" [some (.build "" "" (.ofName "Nat"))])] },
    .expr (.func {
      mark := { token := {} }, name := "visit"
      sign := some (.build (.tuple (.build "" [])) [some (.build "of" "n" (.ofName "Nat"))])
      body := .matching { token := {} } (.ident (.ofName "n"))
        [some (.build (.ofLet "m") (.tuple { token := {} } "" []))] }),
    .expr (.select { token := {} }
      (.tuple { token := {} } "point" [some ⟨{ token := {} }, "x", .ofConstant (.int (-3))⟩]) (.label "x"))]

theorem natModule_writable : natModule.Writable := by
  refine ⟨rfl, ?_⟩
  simp [natModule, Node.Writable, Sign.Writable, Sign.AllWritable, TupleSign.Writable, SignElem.Writable,
    SignElem.AllWritable, Sign.ofCases, Sign.ofName, TupleSign.build, SignElem.build, FuncSign.build,
    FuncSign.Declarable, Expr.Writable, MatchCase.AllWritable, MatchCase.build,
    Labelled.AllWritable, Func.Unbound, Ident.Unbound, Ident.ofName, Expr.ofLet, Expr.newMark, LetBinding.Unbound,
    Expr.ofConstant, Constant.Writable, Member.Writable]

theorem natModule_read_back : natModule.Writable ∧ (∃ v, natModule.WrittenAs "nat.alp.yaml" v) ∧
    ∀ v, natModule.WrittenAs "nat.alp.yaml" v → ∃ m', Decode.module "nat.alp.yaml" v = .ok m' ∧
    m'.bare = natModule.bare :=
  ⟨natModule_writable, written_module_read_back "nat.alp.yaml" natModule natModule_writable⟩

end TypeInference
