import TypeInference.Proofs.Decoding

/-! # Documents that are modules, and documents that are none

Reading a document gives a tree that is written so, or a problem at a node that does not fit the grammar. `Judged` says
both of a step of the reader. There are exceptions: the text of a string and the label of a selection are taken as they
are (`Lax`), and an operator that is left out is a problem of the file as a whole (`LacksOperator`). -/

namespace TypeInference

open Document (Value)
open Document.Value (given IsText IsItems)
open List

variable {place : Document.Place} {fs : Fields} {known : List String} {vs : List Value} {k : Nat} {o : Option Value}
  {w body : Value} {e : Value × Value}

/-! ### Signatures that are written are intact -/

theorem Sign.intact_of_returns {s : Sign} {r : Option Value} (h : r.elim s.IsUnit s.WrittenAs)
    (hs : ∀ v, s.WrittenAs v → s.Intact) : s.Intact := by
  cases r with
  | none =>
    obtain ⟨unit, rfl⟩ := h
    trivial
  | some r => exact hs r h

mutual
theorem Sign.WrittenAs.intact : ∀ {s : Sign} {v : Value}, s.WrittenAs v → s ≠ .missing ∧ s.Intact
  | .name _, _, _ => ⟨by simp, trivial⟩
  | .func _, _, h => ⟨by simp, FuncSign.WrittenAs.intact h⟩
  | .tuple _, _, ⟨_, _, h⟩ => ⟨by simp, TupleSign.WrittenAs.intact h⟩
  | .union .., _, ⟨_, _, _, _, h⟩ => ⟨by simp, Sign.AllWrittenAs.intact h⟩
theorem Sign.AllWrittenAs.intact : ∀ {ss : List Sign} {vs : List Value}, Sign.AllWrittenAs ss vs → Sign.AllIntact ss
  | [], _, _ => trivial
  | _ :: _, _, ⟨_, _, _, hs, hss⟩ =>
    ⟨(Sign.WrittenAs.intact hs).1, (Sign.WrittenAs.intact hs).2, Sign.AllWrittenAs.intact hss⟩
theorem FuncSign.WrittenAs.intact : ∀ {f : FuncSign} {v : Value}, f.WrittenAs v → f.Intact
  | ⟨_, some ⟨_, _, _⟩, _⟩, _, ⟨_, _, _, _, _, _, helems, hreturns⟩ =>
    ⟨SignElem.AllWrittenAs.intact helems, Sign.intact_of_returns hreturns fun _ h => (Sign.WrittenAs.intact h).2⟩
theorem TupleSign.WrittenAs.intact : ∀ {t : TupleSign} {v : Value}, t.WrittenAs v → t.Intact
  | ⟨_, _, _⟩, _, ⟨_, _, _, _, _, _, helems⟩ => SignElem.AllWrittenAs.intact helems
theorem SignElem.WrittenAs.intact : ∀ {e : SignElem} {v : Value}, e.WrittenAs v → e.Intact
  | ⟨_, _, _, _⟩, _, ⟨_, .inl ⟨_, h⟩⟩ => (Sign.WrittenAs.intact h).2
  | ⟨_, _, _, _⟩, _, ⟨_, .inr ⟨_, _, _, _, h⟩⟩ => (Sign.WrittenAs.intact h).2
theorem SignElem.AllWrittenAs.intact : ∀ {es : List (Option SignElem)} {vs : List Value}, SignElem.AllWrittenAs es vs →
    SignElem.AllIntact es
  | [], _, _ => trivial
  | some _ :: _, _, ⟨_, _, _, he, hes⟩ => ⟨SignElem.WrittenAs.intact he, SignElem.AllWrittenAs.intact hes⟩
end

theorem FuncSign.DeclaredAs.intact {ps r : Option Value} : ∀ {sign : Option FuncSign}, FuncSign.DeclaredAs sign ps r →
    ∀ s ∈ sign, s.Intact
  | some ⟨_, some ⟨_, _, elems⟩, _⟩, ⟨_, ⟨_, hitems, helems⟩, hreturns⟩, _, rfl => by
    refine ⟨?_, Sign.intact_of_returns hreturns fun _ h => h.intact.2⟩
    clear hitems
    induction helems with
    | nil => trivial
    | cons he _ ih =>
      obtain ⟨⟨_, _, _, _⟩, rfl, _, _, _, _, _, _, hs⟩ := he
      exact ⟨hs.intact.2, ih⟩

theorem TypeAlias.WrittenAs.intact {a : TypeAlias} {v : Value} (h : a.WrittenAs v) : a.sign.Intact := by
  obtain ⟨_, _, _, _, _, _, hs⟩ := h
  exact hs.intact.2

namespace Document.Value

/-- The nodes of a document. -/
inductive Holds (root : Value) : Value → Prop
  | root : Holds root root
  | item {place : Place} {items : List Value} {w : Value} (h : Holds root (.sequence place items))
      (hw : w ∈ items) : Holds root w
  | key {place : Place} {entries : List (Value × Value)} {e : Value × Value} (h : Holds root (.mapping place entries))
    (he : e ∈ entries) : Holds root e.1
  | value {place : Place} {entries : List (Value × Value)} {e : Value × Value} (h : Holds root (.mapping place entries))
    (he : e ∈ entries) : Holds root e.2

mutual
/-- There are no references in the value. -/
def Plain : Value → Prop
  | .scalar .. => True
  | .sequence _ items => PlainItems items
  | .mapping _ entries => PlainEntries entries
  | .reference .. => False
def PlainItems : List Value → Prop
  | [] => True
  | v :: vs => v.Plain ∧ PlainItems vs
def PlainEntries : List (Value × Value) → Prop
  | [] => True
  | (k, v) :: rest => k.Plain ∧ v.Plain ∧ PlainEntries rest
end

theorem PlainItems.of_mem : ∀ {items : List Value}, PlainItems items → w ∈ items → w.Plain
  | v :: vs, ⟨hv, hvs⟩, hw => by
    rcases mem_cons.mp hw with rfl | hw
    · exact hv
    · exact hvs.of_mem hw

theorem PlainEntries.of_mem : ∀ {entries : List (Value × Value)}, PlainEntries entries → e ∈ entries →
    e.1.Plain ∧ e.2.Plain
  | (k, v) :: rest, ⟨hk, hv, hrest⟩, he => by
    rcases mem_cons.mp he with rfl | he
    · exact ⟨hk, hv⟩
    · exact hrest.of_mem he

theorem Plain.of_holds {root : Value} (h : root.Plain) (hw : root.Holds w) : w.Plain := by
  induction hw with
  | root => exact h
  | item _ hw ih => exact PlainItems.of_mem ih hw
  | key _ he ih => exact (PlainEntries.of_mem ih he).1
  | value _ he ih => exact (PlainEntries.of_mem ih he).2

/-- A string whose text is no scalar, or a selection with a label that is no scalar or empty. -/
def Lax (root : Value) : Prop :=
  ∃ v body, root.Holds v ∧
    ((v.IsMapping [("string", body)] ∧ ∀ text, ¬ body.IsScalar text) ∨
      (v.IsMapping [("select", body)] ∧ ∃ l, Decode.value? body "label" = some l ∧ ∀ text, l.IsScalar text → text = ""))

/-- An operator expression without its operator. -/
def LacksOperator (root : Value) : Prop :=
  ∃ v body, root.Holds v ∧ (v.IsMapping [("binary", body)] ∨ v.IsMapping [("unary", body)]) ∧
    Decode.value? body "op" = none

end Document.Value

namespace Decode

/-- The message is true of the node: what is wrong with it, or what it lacks. -/
inductive Offends (root : Value) : Value → String → Prop
  | noMapping {w : Value} (what : String) (h : ∀ place entries, w ≠ .mapping place entries) :
      Offends root w s!"{what} must be a mapping"
  | noSingle {w : Value} (what : String) (h : ∀ place entry, w ≠ .mapping place [entry]) :
    Offends root w s!"{what} must be a mapping with exactly one key"
  | noScalar {w : Value} (what : String) (h : ∀ text, ¬ w.IsScalar text) : Offends root w s!"{what} must be a scalar"
  | noSequence {w : Value} (what : String) (h : ∀ items, ¬ w.IsSequence items) :
      Offends root w s!"{what} must be a sequence"
  | unknownField {place : Document.Place} {entries : List (Value × Value)} {e : Value × Value} (what : String)
    (known : List String) (hv : root.Holds (.mapping place entries)) (he : e ∈ entries) (h : e.1.text ∉ known) :
    Offends root e.1
      (let expected := ", ".intercalate known
       s!"unknown field {Text.quote e.1.text} in {what} (expected one of {expected})")
  | duplicateField {place : Document.Place} {before after : List (Value × Value)} {e : Value × Value} (what : String)
    (hv : root.Holds (.mapping place (before ++ e :: after))) (h : e.1.text ∈ before.map fun d => d.1.text) :
    Offends root e.1 s!"duplicate field {Text.quote e.1.text} in {what}"
  | lacksField {place : Document.Place} {entries : List (Value × Value)} (what key : String)
    (h : value? (.mapping place entries) key = none) :
    Offends root (.mapping place entries) s!"{what} requires {Text.quote key}"
  | unknownSign {w : Value} (h : w.text ∉ ["tuple", "union", "func"]) :
      Offends root w s!"unknown signature {Text.quote w.text}"
  | unknownExpr {w : Value}
    (h : w.text ∉ ["int", "float", "bool", "string", "ident", "let", "call", "binary", "unary", "if", "match",
    "tuple", "select", "func"]) : Offends root w s!"unknown expression {Text.quote w.text}"
  | noLiteral {w : Value} (what : String) (h : ∀ c : Constant, c.key = what → ¬ c.ReadFrom w.text) :
    Offends root w s!"invalid {what} literal {Text.quote w.text}"
  | noIndex {w : Value} (h : ∀ i, Literal.int? w.text = some i → i < 0) :
      Offends root w s!"invalid index {Text.quote w.text}"
  | labelAndIndex {w : Value} (hlabel : value? w "label" ≠ none) (hindex : value? w "index" ≠ none) :
    Offends root w "select takes either a label or an index"
  | noMember {w : Value} (hlabel : value? w "label" = none) (hindex : value? w "index" = none) :
    Offends root w "select requires a label or an index"
  | noId {w : Value} {p : ModuleId.Problem} (h : ModuleId.read w.text = .error p) :
      Offends root w s!"module id: {p.message}"

/-- What a problem of a document may be. -/
def Refusal (file : String) (root : Value) (d : Diagnostic) : Prop :=
  (∃ w message, root.Holds w ∧ Offends root w message ∧ d = .of .malformedModule (anchor file w w.text) message) ∨
    (root.LacksOperator ∧ d = .of .malformedModule { file := file } "missing operator")

/-- The step gives what it should, or a problem of the document. -/
def Judged (file : String) (root : Value) {α : Type} (P : α → Prop) : Result α → Prop
  | .ok a => P a
  | .error d => Refusal file root d

variable {file : String} {root : Value}

section

variable {α β : Type} {P : α → Prop} {Q : β → Prop}

theorem Judged.bind {x : Result α} {f : α → Result β} (hx : Judged file root P x)
    (hf : ∀ a, P a → Judged file root Q (f a)) : Judged file root Q (x >>= f) := by
  cases x with
  | error d => exact hx
  | ok a => exact hf a hx

theorem Judged.imp {P' : α → Prop} {x : Result α} (h : Judged file root P x) (himp : ∀ a, P a → P' a) :
    Judged file root P' x := by
  cases x with
  | error d => exact h
  | ok a => exact himp a h

theorem Judged.mapM {R : β → α → Prop} {f : α → Result β} :
    ∀ {xs : List α}, (∀ x ∈ xs, Judged file root (fun y => R y x) (f x)) →
    Judged file root (fun ys => Forall₂ R ys xs) (xs.mapM f)
  | [], _ => .nil
  | x :: xs, h => by
    obtain ⟨hx, hxs⟩ := forall_mem_cons.mp h
    rw [mapM_cons]
    exact hx.bind fun y hy => (Judged.mapM hxs).bind fun ys hys => .cons hy hys

theorem judged_problem {n : Value} {message : String} (hn : root.Holds n) (h : Offends root n message) :
    Judged file root P (problem file n message) := .inl ⟨n, message, hn, h, rfl⟩

end

/-! ### Parts of a mapping -/

/-- A node of the document with a bound on its size. -/
structure Within (root : Value) (k : Nat) (w : Value) : Prop where
  holds : root.Holds w
  size_le : w.size ≤ k

theorem Within.mono {j : Nat} (h : Within root j w) (hjk : j ≤ k) :
    Within root k w := ⟨h.holds, Nat.le_trans h.size_le hjk⟩

theorem Within.item {items : List Value} (h : Within root k (.sequence place items)) (hw : w ∈ items) :
    Within root k w := by
  have hsize := h.size_le
  rw [Value.size] at hsize
  exact ⟨h.holds.item hw, by have := Document.Value.size_le_sizeItems hw; omega⟩

theorem Within.value {entries : List (Value × Value)} (h : Within root (k + 1) (.mapping place entries))
    (he : e ∈ entries) : Within root k e.2 := by
  have hsize := h.size_le
  rw [Value.size] at hsize
  exact ⟨h.holds.value he, by have := Document.Value.size_le_sizeEntries he; omega⟩

/-- What is found in a mapping with known keys. -/
structure Entries (root : Value) (k : Nat) (known : List String) (n : Value) (fs : Fields) : Prop where
  holds : root.Holds n
  written : ∃ place entries, n = .mapping place entries ∧ fs = entries.map fun e => (e.1.text, e.2)
  nodup : (fs.map Prod.fst).Nodup
  known_of_mem : ∀ e ∈ fs, e.1 ∈ known
  within : ∀ key w, fs.lookup key = some w → Within root k w

section

variable {k : Nat} {known : List String} {n : Value} {fs : Fields}

theorem Entries.isMapping (h : Entries root k known n fs) {parts : List (String × Option Value)}
    (hparts : parts.map Prod.fst = known) (hknown : known.Nodup) (hfinds : Finds fs parts) :
    n.IsMapping (given parts) := by
  obtain ⟨place, entries, rfl, rfl⟩ := h.written
  refine ⟨place, entries, rfl, ?_⟩
  have hgiven := nodup_given (hparts ▸ hknown)
  refine (perm_ext_iff_of_nodup (List.Nodup.of_map _ h.nodup) (List.Nodup.of_map _ hgiven)).mpr fun e => ?_
  obtain ⟨key, w⟩ := e
  rw [Document.Value.mem_given, ← lookup_eq_some_iff h.nodup]
  constructor
  · intro hw
    have hkey : key ∈ parts.map Prod.fst := hparts ▸ h.known_of_mem _ ((lookup_eq_some_iff h.nodup).mp hw)
    obtain ⟨p, hp, rfl⟩ := mem_map.mp hkey
    have hsame : p.2 = some w := (finds_iff.mp hfinds p hp).symm.trans hw
    rw [← hsame]
    exact hp
  · exact fun hp => finds_iff.mp hfinds _ hp

theorem Entries.value?_eq (h : Entries root k known n fs) (key : String) : value? n key = fs.lookup key := by
  obtain ⟨place, entries, rfl, rfl⟩ := h.written
  exact value?_eq_lookup

/-- The entries that are still to come have keys that are unknown, repeated or added to those that were found. -/
theorem checkFields_judged (what : String) : ∀ (before : List (Value × Value)) {entries : List (Value × Value)},
    root.Holds (.mapping place (before ++ entries)) → ((before.map fun e => (e.1.text, e.2)).map Prod.fst).Nodup →
    (∀ e ∈ before, e.1.text ∈ known) →
    Judged file root (fun fs => fs = (before ++ entries).map (fun e => (e.1.text, e.2)) ∧ (fs.map Prod.fst).Nodup ∧
    ∀ e ∈ fs, e.1 ∈ known)
      (checkFields file what known (before.map fun e => (e.1.text, e.2)) entries)
  | before, [], _, hnodup, hknown => by
    refine ⟨by simp, hnodup, fun e he => ?_⟩
    obtain ⟨d, hd, rfl⟩ := mem_map.mp he
    exact hknown d hd
  | before, e :: entries, hn, hnodup, hknown => by
    have hkey := hn.key (e := e) (by simp)
    have hshift : before ++ e :: entries = (before ++ [e]) ++ entries := by simp
    rw [checkFields]
    split
    · next hunknown => exact judged_problem hkey (.unknownField what known hn (by simp) (by simpa using hunknown))
    · next hin =>
      split
      · next hfound =>
        obtain ⟨w, hw⟩ := Option.isSome_iff_exists.mp hfound
        obtain ⟨d, hd, hsame⟩ := mem_map.mp ((lookup_eq_some_iff hnodup).mp hw)
        exact judged_problem hkey (.duplicateField what hn (mem_map.mpr ⟨d, hd, congrArg Prod.fst hsame⟩))
      · next hfresh =>
        have hnext := checkFields_judged what (before ++ [e]) (hshift ▸ hn)
          (by
            rw [map_append, map_append, nodup_append]
            refine ⟨hnodup, by simp, fun a ha b hb hab => hfresh ?_⟩
            obtain ⟨p, hp, rfl⟩ := mem_map.mp ha
            obtain rfl : b = e.1.text := by simpa using hb
            have hlookup := (lookup_eq_some_iff hnodup).mpr (show (p.1, p.2) ∈ _ from hp)
            rw [← hab, hlookup]
            rfl)
          (by
            intro d hd
            rcases mem_append.mp hd with hd | hd
            · exact hknown d hd
            · obtain rfl := mem_singleton.mp hd
              simpa using hin)
        have hfound : (before.map fun e => (e.1.text, e.2)) ++ [(e.1.text, e.2)] = (before ++ [e]).map fun e =>
            (e.1.text, e.2) := by simp
        rw [hfound, hshift]
        exact hnext

theorem fields_judged (what : String) (known : List String) (hn : Within root k n) :
    Judged file root (Entries root k known n) (fields file n what known) := by
  cases n with
  | mapping place entries =>
    refine (checkFields_judged what [] hn.holds (by simp) (by simp)).imp fun fs hfs => ?_
    obtain ⟨rfl, hnodup, hknown⟩ := hfs
    refine ⟨hn.holds, ⟨place, entries, rfl, rfl⟩, hnodup, hknown, fun key w hw => ?_⟩
    obtain ⟨e, he, hsame⟩ := mem_map.mp ((lookup_eq_some_iff hnodup).mp hw)
    cases hsame
    exact (hn.mono (Nat.le_succ k)).value he
  | _ => exact judged_problem hn.holds (.noMapping what (by simp))

theorem single_judged (what : String) (hn : Within root (k + 1) n) :
    Judged file root (fun e => n.IsMapping [(e.1.text, e.2)] ∧ root.Holds e.1 ∧ Within root k e.2)
    (single file n what) := by
  unfold single
  split
  · next place e => exact ⟨⟨place, [e], rfl, .refl _⟩, hn.holds.key mem_cons_self, hn.value mem_cons_self⟩
  · next hsingle => exact judged_problem hn.holds (.noSingle what fun place entry h => hsingle place entry h)

theorem scalar_judged (what : String) (hn : root.Holds n) :
    Judged file root (fun text => n.IsScalar text) (scalar file (some n) what) := by
  cases n with
  | scalar place text style => exact ⟨place, style, rfl⟩
  | _ => exact judged_problem hn (.noScalar what (by simp [Value.IsScalar]))

theorem optionalScalar_judged (what : String) (ho : ∀ w, o = some w → Within root k w) :
    Judged file root (IsText o) (optionalScalar file o what) := by
  cases o with
  | none => exact rfl
  | some w => exact scalar_judged what (ho w rfl).holds

theorem items_judged (what : String) (ho : ∀ w, o = some w → Within root k w) :
    Judged file root (fun vs => IsItems o vs ∧ ∀ w ∈ vs, Within root k w) (items file o what) := by
  cases o with
  | none => exact ⟨rfl, by simp⟩
  | some w =>
    cases w with
    | sequence place vs => exact ⟨⟨place, rfl⟩, fun w hw => (ho _ rfl).item hw⟩
    | _ => exact judged_problem (ho _ rfl).holds (.noSequence what (by simp [Value.IsSequence]))

theorem required_judged (what key : String) (h : Entries root k known n fs) :
    Judged file root (fun w => fs.lookup key = some w ∧ Within root k w) (required file n fs key what) := by
  unfold required
  cases hw : fs.lookup key with
  | some w => exact ⟨rfl, h.within key w hw⟩
  | none =>
    have hvalue := h.value?_eq key
    obtain ⟨place, entries, rfl, -⟩ := h.written
    exact judged_problem h.holds (.lacksField what key (hvalue.trans hw))

end

/-! ### Signatures -/

section

variable {k : Nat} {n : Value}

theorem allWrittenAs_elems {es : List SignElem} (h : Forall₂ SignElem.WrittenAs es vs) :
    SignElem.AllWrittenAs (es.map some) vs := by
  induction h with
  | nil => rfl
  | cons he _ ih => exact ⟨_, _, rfl, he, ih⟩

theorem allWrittenAs_signs {ss : List Sign} (h : Forall₂ Sign.WrittenAs ss vs) : Sign.AllWrittenAs ss vs := by
  induction h with
  | nil => rfl
  | cons hs _ ih => exact ⟨_, _, rfl, hs, ih⟩

section

variable {sign : Value → Result Sign} (hsign : ∀ w, Within root k w →
  Judged file root (fun s => s.WrittenAs w) (sign w))
include hsign

theorem signElem_judged (hn : Within root k n) : Judged file root (fun e => e.WrittenAs n) (signElem sign file n) := by
  unfold signElem
  split
  · exact (fields_judged "element" ["label", "type"] hn).bind fun fs hfs =>
      (optionalScalar_judged "element label" (hfs.within "label")).bind fun label hlabel =>
        (required_judged "element" "type" hfs).bind fun t ht => (hsign t ht.2).bind fun s hs =>
          ⟨rfl, .inr ⟨_, t, hfs.isMapping rfl (by decide) ⟨rfl, ht.1, trivial⟩, hlabel, hs⟩⟩
  · exact (hsign n hn).bind fun s hs => ⟨rfl, .inl ⟨rfl, hs⟩⟩

theorem tupleSign_judged (hn : Within root k n) : Judged file root (fun t => t.WrittenAs n) (tupleSign sign file n) :=
  (fields_judged "tuple signature" ["label", "elements"] hn).bind fun fs hfs =>
    (optionalScalar_judged "tuple label" (hfs.within "label")).bind fun label hlabel =>
      (items_judged "elements" (hfs.within "elements")).bind fun vs hvs =>
        (Judged.mapM fun v hv => signElem_judged hsign (hvs.2 v hv)).bind fun es hes =>
          ⟨_, _, vs, hfs.isMapping rfl (by decide) ⟨rfl, rfl, trivial⟩, hlabel, hvs.1, allWrittenAs_elems hes⟩

end

theorem signAux_judged : ∀ (fuel : Nat) (n : Value), Within root fuel n →
    Judged file root (fun s => s.WrittenAs n) (signAux file fuel n)
  | 0, n, hn => absurd hn.size_le (Nat.not_le.mpr n.size_pos)
  | fuel + 1, n, hn => by
    have hsign := signAux_judged fuel
    unfold signAux
    split
    · next place text style => exact ⟨rfl, rfl, place, style, rfl⟩
    · refine (single_judged "signature" hn).bind fun e he => ?_
      obtain ⟨key, body⟩ := e
      obtain ⟨hmapping, hkey, hbody⟩ := he
      dsimp only at hmapping hkey hbody ⊢
      split
      · next htext =>
        rw [htext] at hmapping
        exact (tupleSign_judged hsign hbody).bind fun t ht => ⟨body, hmapping, ht⟩
      · next htext =>
        rw [htext] at hmapping
        refine (items_judged "union cases" (o := some body) (by rintro _ ⟨⟩; exact hbody)).bind fun vs hvs => ?_
        exact (Judged.mapM fun v hv => hsign v (hvs.2 v hv)).bind fun ss hss =>
          ⟨body, vs, hmapping, hvs.1, allWrittenAs_signs hss⟩
      · next htext =>
        rw [htext] at hmapping
        refine (fields_judged "function signature" ["params", "returns"] hbody).bind fun fs hfs =>
          (items_judged "params" (hfs.within "params")).bind fun vs hvs =>
            (Judged.mapM fun v hv => signElem_judged hsign (hvs.2 v hv)).bind fun es hes => ?_
        have hrest {codomain : Sign} (hcodomain : (fs.lookup "returns").elim codomain.IsUnit codomain.WrittenAs) :
            (Sign.func (funcSign file n es codomain)).WrittenAs n :=
          ⟨rfl, _, vs, _, ⟨body, hmapping, hfs.isMapping rfl (by decide) ⟨rfl, rfl, trivial⟩⟩, hvs.1,
            allWrittenAs_elems hes, hcodomain⟩
        split
        · next r hr => exact (hsign r (hfs.within _ _ hr)).bind fun codomain hcodomain => hrest (by rwa [hr])
        · next hr => exact hrest (by rw [hr]; exact ⟨_, rfl⟩)
      · next htuple hunion hfunc => exact judged_problem hkey (.unknownSign (by simpa using ⟨htuple, hunion, hfunc⟩))

theorem sign_judged (hn : root.Holds n) : Judged file root (fun s => s.WrittenAs n) (sign file n) :=
  signAux_judged _ n ⟨hn, Nat.le_refl _⟩

theorem param_judged (hn : Within root k n) : Judged file root (fun e => e.DeclaredAs n) (param file n) :=
  (fields_judged "parameter" ["name", "label", "type"] hn).bind fun fs hfs =>
    (optionalScalar_judged "parameter name" (hfs.within "name")).bind fun name hname =>
      (optionalScalar_judged "parameter label" (hfs.within "label")).bind fun label hlabel =>
        (required_judged "parameter" "type" hfs).bind fun t ht => (sign_judged ht.2.holds).bind fun s hs =>
          ⟨_, _, t, hfs.isMapping rfl (by decide) ⟨rfl, rfl, ht.1, trivial⟩, hname, hlabel, hs⟩

end

/-! ### Expressions -/

/-- The document has no references, and its strings and selections are as they should be. -/
def Strict (root : Value) : Prop := root.Plain ∧ ¬ root.Lax

section

variable {k : Nat} {n : Value}

theorem exists_isScalar (hroot : root.Plain) (hn : root.Holds n) (htext : n.text ≠ "") : n.IsScalar n.text := by
  cases n with
  | scalar place text style => exact ⟨place, style, rfl⟩
  | reference => exact (hroot.of_holds hn).elim
  | _ => exact absurd rfl htext

theorem int?_empty : Literal.int? "" = none := by decide +kernel

theorem float?_empty : Literal.float? "" = none := by decide +kernel

theorem bool?_empty : Literal.bool? "" = none := by decide +kernel

theorem literal_judged {what : String} (read : String → Option Constant) (hn : n.IsMapping [(what, body)])
    (hbody : root.Holds body) (hempty : read "" = none)
    (hread : ∀ c text, (c.key = what ∧ c.ReadFrom text) ↔ read text = some c) :
    Judged file root (fun e => e.Intact true ∧ (Strict root → e.WrittenAs n))
    (literal file n body what (read body.text)) := by
  unfold literal
  cases hc : read body.text with
  | none =>
    refine judged_problem hbody (.noLiteral what fun c hkey hfrom => ?_)
    rw [(hread c body.text).mp ⟨hkey, hfrom⟩] at hc
    cases hc
  | some c =>
    refine ⟨trivial, fun hroot => ?_⟩
    obtain ⟨rfl, hfrom⟩ := (hread c body.text).mpr hc
    have htext : body.text ≠ "" := by
      intro htext
      rw [htext, hempty] at hc
      cases hc
    exact ⟨rfl, body, body.text, hn, exists_isScalar hroot.1 hbody htext, hfrom⟩

theorem member_judged (hn : n.IsMapping [("select", body)]) (hholds : root.Holds n)
    (hfs : Entries root k known body fs) :
    Judged file root (fun m => Strict root → m.WrittenAs (fs.lookup "label") (fs.lookup "index"))
    (member file body fs) := by
  have hlabel := hfs.value?_eq "label"
  have hindex := hfs.value?_eq "index"
  unfold member
  split
  · next l i hl hi => exact judged_problem hfs.holds (.labelAndIndex (by simp [hlabel, hl]) (by simp [hindex, hi]))
  · next l hl hi =>
    intro hroot
    have hscalar : ∃ text, l.IsScalar text ∧ text ≠ "" := by
      by_contra hno
      refine hroot.2 ⟨n, body, hholds, .inr ⟨hn, l, hlabel.trans hl, fun text htext => ?_⟩⟩
      exact by_contra fun hne => hno ⟨text, htext, hne⟩
    obtain ⟨_, ⟨place, style, rfl⟩, hne⟩ := hscalar
    rw [Value.text, Member.ofLabel, if_neg hne, hl, hi]
    exact ⟨hne, rfl, _, rfl, place, style, rfl⟩
  · next i hl hi =>
    have hholds := (hfs.within _ _ hi).holds
    have hbad (hnone : ∀ j, Literal.int? i.text = some j → j < 0) :
        Judged file root (fun m : Member => Strict root → m.WrittenAs (fs.lookup "label") (fs.lookup "index"))
          (problem file i s!"invalid index {Text.quote i.text}") :=
      judged_problem hholds (.noIndex hnone)
    split
    · next j hj =>
      split
      · next hneg => exact hbad fun _ h => (Option.some.inj (hj.symm.trans h)) ▸ hneg
      · next hpos =>
        intro hroot
        have htext : i.text ≠ "" := by
          intro htext
          rw [htext, int?_empty] at hj
          cases hj
        rw [hl, hi]
        exact ⟨Int.not_lt.mp hpos, rfl, i, rfl, i.text, exists_isScalar hroot.1 hholds htext, hj⟩
    · next hnone => exact hbad fun j hj => by rw [hnone] at hj; cases hj
  · next hl hi => exact judged_problem hfs.holds (.noMember (hlabel.trans hl) (hindex.trans hi))

theorem operator_judged (hfs : Entries root k known body fs) (hlacks : value? body "op" = none → root.LacksOperator) :
    Judged file root (fun op => op.Unbound ∧ ∃ o, fs.lookup "op" = some o ∧ o.IsScalar op.name) (operator file fs) := by
  unfold operator
  cases ho : fs.lookup "op" with
  | none => exact .inr ⟨hlacks ((hfs.value?_eq "op").trans ho), rfl⟩
  | some o =>
    exact (scalar_judged "operator" (hfs.within _ _ ho).holds).bind fun name hname =>
      ⟨⟨rfl, rfl, rfl, rfl⟩, o, rfl, hname⟩

section

variable {expr : Value → Result Expr}
  (hexpr : ∀ w, Within root k w → Judged file root (fun e => e.Intact true ∧ (Strict root → e.WrittenAs w)) (expr w))
include hexpr

theorem operand_judged (key : String) (hfs : Entries root k known body fs) :
    Judged file root (fun e => ∃ w, fs.lookup key = some w ∧ e.Intact true ∧ (Strict root → e.WrittenAs w))
    (operand expr file body fs key) :=
  (required_judged "expression" key hfs).bind fun w hw => (hexpr w hw.2).imp fun _ he => ⟨w, hw.1, he⟩

theorem labelled_judged (what : String) (hn : Within root k n) :
    Judged file root (fun x => x.value.Intact true ∧ (Strict root → x.WrittenAs n)) (labelled expr file what n) := by
  unfold labelled
  split
  · exact (fields_judged what ["label", "value"] hn).bind fun fs hfs =>
      (optionalScalar_judged (what ++ " label") (hfs.within "label")).bind fun label hlabel =>
        (required_judged what "value" hfs).bind fun w hw => (hexpr w hw.2).bind fun e he => ⟨he.1, fun hroot =>
          ⟨rfl, .inr ⟨_, w, hfs.isMapping rfl (by decide) ⟨rfl, hw.1, trivial⟩, hlabel, he.2 hroot⟩⟩⟩
  · exact (hexpr n hn).bind fun e he => ⟨he.1, fun hroot => ⟨rfl, .inl ⟨rfl, he.2 hroot⟩⟩⟩

theorem matchCase_judged (hn : Within root k n) :
    Judged file root (fun x => x.Intact true ∧ (Strict root → x.WrittenAs n)) (matchCase expr file n) :=
  (fields_judged "match case" ["pattern", "value"] hn).bind fun fs hfs =>
    (operand_judged hexpr "pattern" hfs).bind fun pattern hpattern =>
        (operand_judged hexpr "value" hfs).bind fun value hvalue => by
      obtain ⟨p, hp, hpattern⟩ := hpattern
      obtain ⟨w, hw, hvalue⟩ := hvalue
      exact ⟨⟨hpattern.1, hvalue.1⟩, fun hroot =>
        ⟨rfl, p, w, hfs.isMapping rfl (by decide) ⟨hp, hw, trivial⟩, hpattern.2 hroot, hvalue.2 hroot⟩⟩

theorem function_judged (name : String) (hfs : Entries root k known n fs) :
    Judged file root (fun f => f.name = name ∧ f.Unbound ∧
    FuncSign.DeclaredAs f.sign (fs.lookup "params") (fs.lookup "returns") ∧
      ∃ b, fs.lookup "body" = some b ∧ f.body.Intact true ∧ (Strict root → f.body.WrittenAs b))
      (function expr file n name fs) := by
  refine (items_judged "params" (hfs.within "params")).bind fun vs hvs =>
    (Judged.mapM fun v hv => param_judged (hvs.2 v hv)).bind fun es hes => ?_
  have helems : Forall₂ (fun e v => ∃ x, e = some x ∧ x.DeclaredAs v) (es.map some) vs :=
    forall₂_map_left_iff.mpr (hes.imp fun e _ he => ⟨e, rfl, he⟩)
  have hrest {codomain : Sign} (hcodomain : (fs.lookup "returns").elim codomain.IsUnit codomain.WrittenAs) :
      Judged file root (fun f => f.name = name ∧ f.Unbound ∧
      FuncSign.DeclaredAs f.sign (fs.lookup "params") (fs.lookup "returns") ∧
        ∃ b, fs.lookup "body" = some b ∧ f.body.Intact true ∧ (Strict root → f.body.WrittenAs b)) (do
      let body ← required file n fs "body" "function"
      return { mark := { token := anchor file n name }, name := name, sign := some (funcSign file n es codomain)
               body := ← expr body } : Result Func) :=
    (required_judged "function" "body" hfs).bind fun b hb => (hexpr b hb.2).bind fun e he =>
      ⟨rfl, ⟨rfl, rfl, rfl, rfl, rfl⟩, ⟨rfl, ⟨vs, hvs.1, helems⟩, hcodomain⟩, b, hb.1, he⟩
  dsimp only
  split
  · next r hr => exact (sign_judged (hfs.within _ _ hr).holds).bind fun codomain hcodomain => hrest (by rwa [hr])
  · next hr => exact hrest (by rw [hr]; exact ⟨_, rfl⟩)

end

theorem labelled_all {xs : List Labelled}
    (h : Forall₂ (fun x v => x.value.Intact true ∧ (Strict root → x.WrittenAs v)) xs vs) :
    Labelled.AllIntact true (xs.map some) ∧ (Strict root → Labelled.AllWrittenAs (xs.map some) vs) := by
  induction h with
  | nil => exact ⟨trivial, fun _ => rfl⟩
  | @cons x _ _ _ hx _ ih =>
    cases x
    exact ⟨⟨hx.1, ih.1⟩, fun hroot => ⟨_, _, rfl, hx.2 hroot, ih.2 hroot⟩⟩

theorem matchCase_all {xs : List MatchCase}
    (h : Forall₂ (fun x v => x.Intact true ∧ (Strict root → x.WrittenAs v)) xs vs) :
    MatchCase.AllIntact true (xs.map some) ∧ (Strict root → MatchCase.AllWrittenAs (xs.map some) vs) := by
  induction h with
  | nil => exact ⟨trivial, fun _ => rfl⟩
  | cons hx _ ih => exact ⟨⟨hx.1, ih.1⟩, fun hroot => ⟨_, _, rfl, hx.2 hroot, ih.2 hroot⟩⟩

/-- The induction is on the bound, which is never less than the size of the node. -/
theorem exprAux_judged : ∀ (fuel : Nat) (n : Value), Within root fuel n →
    Judged file root (fun e => e.Intact true ∧ (Strict root → e.WrittenAs n)) (exprAux file fuel n)
  | 0, n, hn => absurd hn.size_le (Nat.not_le.mpr n.size_pos)
  | fuel + 1, n, hn => by
    have hexpr := exprAux_judged fuel
    unfold exprAux
    refine (single_judged "expression" hn).bind fun e he => ?_
    obtain ⟨key, body⟩ := e
    obtain ⟨hmapping, hkey, hbody⟩ := he
    dsimp only at hmapping hkey hbody ⊢
    split <;> try rename_i htext; rw [htext] at hmapping
    · refine literal_judged (fun text => (Literal.int? text).map .int) hmapping hbody.holds
        (by rw [int?_empty]; rfl) fun c text => ?_
      cases c <;> simp [Constant.key, Constant.ReadFrom]
    · refine literal_judged (fun text => (Literal.float? text).map .float) hmapping hbody.holds
        (by rw [float?_empty]; rfl) fun c text => ?_
      cases c <;> simp [Constant.key, Constant.ReadFrom]
    · refine literal_judged (fun text => (Literal.bool? text).map .bool) hmapping hbody.holds
        (by rw [bool?_empty]; rfl) fun c text => ?_
      cases c <;> simp [Constant.key, Constant.ReadFrom]
    · refine ⟨trivial, fun hroot => ?_⟩
      have hscalar : ∃ text, body.IsScalar text := by
        by_contra hno
        exact hroot.2 ⟨n, body, hn.holds, .inl ⟨hmapping, not_exists.mp hno⟩⟩
      obtain ⟨text, place, style, rfl⟩ := hscalar
      exact ⟨rfl, _, text, hmapping, ⟨place, style, rfl⟩, rfl⟩
    · exact (scalar_judged "identifier" hbody.holds).bind fun name hname =>
        ⟨trivial, fun _ => ⟨⟨rfl, rfl, rfl, rfl⟩, body, hmapping, hname⟩⟩
    · exact (scalar_judged "let binding" hbody.holds).bind fun name hname =>
        ⟨trivial, fun _ => ⟨⟨rfl, rfl, rfl⟩, body, hmapping, hname⟩⟩
    · refine (fields_judged "call" ["callee", "args"] hbody).bind fun fs hfs =>
        (operand_judged hexpr "callee" hfs).bind fun callee hcallee =>
        (items_judged "args" (hfs.within "args")).bind fun vs hvs =>
          (Judged.mapM fun v hv => labelled_judged hexpr "argument" (hvs.2 v hv)).bind fun xs hxs => ?_
      obtain ⟨c, hc, hcallee⟩ := hcallee
      exact ⟨⟨hcallee.1, (labelled_all hxs).1⟩, fun hroot =>
        ⟨rfl, c, _, vs, ⟨body, hmapping, hfs.isMapping rfl (by decide) ⟨hc, rfl, trivial⟩⟩, hcallee.2 hroot, hvs.1,
          (labelled_all hxs).2 hroot⟩⟩
    · refine (fields_judged "binary expression" ["op", "left", "right"] hbody).bind fun fs hfs =>
        (operator_judged hfs fun hop => ⟨n, body, hn.holds, .inl hmapping, hop⟩).bind fun op hop =>
          (operand_judged hexpr "left" hfs).bind fun left hleft =>
            (operand_judged hexpr "right" hfs).bind fun right hright => ?_
      obtain ⟨hunbound, o, ho, hname⟩ := hop
      obtain ⟨l, hl, hleft⟩ := hleft
      obtain ⟨r, hr, hright⟩ := hright
      exact ⟨⟨rfl, hleft.1, hright.1⟩, fun hroot => ⟨⟨rfl, hunbound⟩, o, l, r,
        ⟨body, hmapping, hfs.isMapping rfl (by decide) ⟨ho, hl, hr, trivial⟩⟩, hname, hleft.2 hroot, hright.2 hroot⟩⟩
    · refine (fields_judged "unary expression" ["op", "operand"] hbody).bind fun fs hfs =>
        (operator_judged hfs fun hop => ⟨n, body, hn.holds, .inr hmapping, hop⟩).bind fun op hop =>
          (operand_judged hexpr "operand" hfs).bind fun operand hoperand => ?_
      obtain ⟨hunbound, o, ho, hname⟩ := hop
      obtain ⟨x, hx, hoperand⟩ := hoperand
      exact ⟨⟨rfl, hoperand.1⟩, fun hroot =>
        ⟨⟨rfl, hunbound⟩, o, x, ⟨body, hmapping, hfs.isMapping rfl (by decide) ⟨ho, hx, trivial⟩⟩, hname,
          hoperand.2 hroot⟩⟩
    · refine (fields_judged "if expression" ["cond", "then", "else"] hbody).bind fun fs hfs =>
        (operand_judged hexpr "cond" hfs).bind fun condition hcondition =>
          (operand_judged hexpr "then" hfs).bind fun thenBranch hthen =>
          (operand_judged hexpr "else" hfs).bind fun elseBranch helse => ?_
      obtain ⟨c, hc, hcondition⟩ := hcondition
      obtain ⟨t, ht, hthen⟩ := hthen
      obtain ⟨e, he, helse⟩ := helse
      exact ⟨⟨hcondition.1, hthen.1, helse.1⟩, fun hroot => ⟨⟨rfl, rfl, rfl⟩, c, t, e,
        ⟨body, hmapping, hfs.isMapping rfl (by decide) ⟨hc, ht, he, trivial⟩⟩, hcondition.2 hroot, hthen.2 hroot,
        helse.2 hroot⟩⟩
    · refine (fields_judged "match expression" ["subject", "cases"] hbody).bind fun fs hfs =>
        (operand_judged hexpr "subject" hfs).bind fun subject hsubject =>
          (items_judged "cases" (hfs.within "cases")).bind fun vs hvs =>
          (Judged.mapM fun v hv => matchCase_judged hexpr (hvs.2 v hv)).bind fun xs hxs => ?_
      obtain ⟨s, hs, hsubject⟩ := hsubject
      exact ⟨⟨hsubject.1, (matchCase_all hxs).1⟩, fun hroot => ⟨rfl, s, _, vs,
        ⟨body, hmapping, hfs.isMapping rfl (by decide) ⟨hs, rfl, trivial⟩⟩, hsubject.2 hroot, hvs.1,
        (matchCase_all hxs).2 hroot⟩⟩
    · exact (fields_judged "tuple" ["label", "elements"] hbody).bind fun fs hfs =>
        (optionalScalar_judged "tuple label" (hfs.within "label")).bind fun label hlabel =>
          (items_judged "elements" (hfs.within "elements")).bind fun vs hvs =>
            (Judged.mapM fun v hv => labelled_judged hexpr "element" (hvs.2 v hv)).bind fun xs hxs =>
              ⟨(labelled_all hxs).1, fun hroot =>
              ⟨rfl, _, _, vs, ⟨body, hmapping, hfs.isMapping rfl (by decide) ⟨rfl, rfl, trivial⟩⟩, hlabel, hvs.1,
              (labelled_all hxs).2 hroot⟩⟩
    · refine (fields_judged "select expression" ["owner", "label", "index"] hbody).bind fun fs hfs =>
        (operand_judged hexpr "owner" hfs).bind fun owner howner =>
          (member_judged hmapping hn.holds hfs).bind fun m hm => ?_
      obtain ⟨o, ho, howner⟩ := howner
      exact ⟨howner.1, fun hroot =>
        ⟨rfl, o, _, _, ⟨body, hmapping, hfs.isMapping rfl (by decide) ⟨ho, rfl, rfl, trivial⟩⟩,
          howner.2 hroot, hm hroot⟩⟩
    · refine (fields_judged "function" ["name", "params", "returns", "body"] hbody).bind fun fs hfs =>
        (optionalScalar_judged "function name" (hfs.within "name")).bind fun name hname =>
          (function_judged hexpr name hfs).bind fun f hf => ?_
      cases f
      obtain ⟨rfl, hunbound, hsign, b, hb, hf⟩ := hf
      exact ⟨⟨hsign.intact, .inr hf.1⟩, fun hroot => ⟨hunbound, _, _, _, b,
        ⟨body, hmapping, hfs.isMapping rfl (by decide) ⟨rfl, rfl, rfl, hb, trivial⟩⟩, hname, hsign, hf.2 hroot⟩⟩
    · exact judged_problem hkey (.unknownExpr (by simp_all))

theorem expr_judged (hn : Within root k n) :
    Judged file root (fun e => e.Intact true ∧ (Strict root → e.WrittenAs n)) (expr file n) :=
  exprAux_judged _ n ⟨hn.holds, Nat.le_refl _⟩

/-! ### Modules -/

theorem typeAlias_judged (hn : Within root k n) (htype : (value? n "type").isSome) :
    Judged file root (fun a => a.WrittenAs n) (typeAlias file n) := by
  refine (fields_judged "type alias" ["type", "is"] hn).bind fun fs hfs => ?_
  rw [hfs.value?_eq] at htype
  obtain ⟨t, ht⟩ := Option.isSome_iff_exists.mp htype
  rw [ht]
  exact (scalar_judged "type name" (hfs.within _ _ ht).holds).bind fun name hname =>
    (required_judged "type alias" "is" hfs).bind fun d hd =>
    (sign_judged hd.2.holds).bind fun s hs =>
      ⟨rfl, rfl, t, d, hfs.isMapping rfl (by decide) ⟨ht, hd.1, trivial⟩, hname, hs⟩

theorem statement_judged (hn : Within root k n) :
    Judged file root (fun s => s.Intact true ∧ (Strict root → s.WrittenAs n)) (statement file n) := by
  unfold statement
  split
  · next htype => exact (typeAlias_judged hn htype).bind fun a ha => ⟨ha.intact, fun _ => ha⟩
  · split
    · next place name style hname =>
      refine (fields_judged "function" ["func", "params", "returns", "body"] hn).bind fun fs hfs =>
        (function_judged (fun _ => expr_judged) name hfs).bind fun f hf => ?_
      obtain ⟨rfl, hunbound, hsign, b, hb, hf⟩ := hf
      rw [hfs.value?_eq] at hname
      refine ⟨?_, fun hroot => .inr ⟨f, rfl, hunbound, _, _, _, b,
        hfs.isMapping rfl (by decide) ⟨hname, rfl, rfl, hb, trivial⟩, ⟨place, style, rfl⟩, hsign, hf.2 hroot⟩⟩
      cases f
      exact ⟨hsign.intact, .inr hf.1⟩
    · exact (expr_judged hn).bind fun e he => ⟨he.1, fun hroot => .inl (he.2 hroot)⟩

theorem moduleId_judged (ho : ∀ w, o = some w → Within root k w) :
    Judged file root (fun _ => Strict root → ∀ w ∈ o, ∃ text, w.IsScalar text ∧ ∃ uuid, ModuleId.read text = .ok uuid)
    (moduleId file o) := by
  cases o with
  | none => exact fun _ => by simp
  | some w =>
    unfold moduleId
    dsimp only
    split
    · next id hid =>
      rintro hroot _ ⟨⟩
      have htext : w.text ≠ "" := by
        intro htext
        rw [htext] at hid
        cases hid
      exact ⟨w.text, exists_isScalar hroot.1 (ho w rfl).holds htext, id, hid⟩
    · next p hp => exact judged_problem (ho w rfl).holds (.noId hp)

theorem module_judged (file : String) (root : Value) :
    Judged file root (fun m => m.Intact true ∧ (Strict root → m.WrittenAs file root)) (module file root) := by
  refine (fields_judged (k := root.size) "module document" ["module", "id", "statements"] ⟨.root, Nat.le_refl _⟩).bind
    fun fs hfs => ?_
  have hrest {token : Token}
      (hname : (fs.lookup "module").elim (token.lexeme = SourceFile.moduleName file) fun n => n.IsScalar token.lexeme) :
      Judged file root (fun m => m.Intact true ∧ (Strict root → m.WrittenAs file root)) (do
        let id ← moduleId file (fs.lookup "id")
        let statements ← items file (fs.lookup "statements") "statements"
        return { token := token, name := token.lexeme, id := id, statements := ← statements.mapM (statement file) } :
            Result Module) := by
    refine (moduleId_judged (hfs.within "id")).bind fun id hid =>
      (items_judged "statements" (hfs.within "statements")).bind fun vs hvs =>
      (Judged.mapM fun v hv => statement_judged (hvs.2 v hv)).bind fun ns hns => ?_
    obtain ⟨hintact, hwritten⟩ := (forall₂_and_left ns vs).mp hns
    exact ⟨hintact, fun hroot => ⟨rfl, _, _, _, vs, hfs.isMapping rfl (by decide) ⟨rfl, rfl, rfl, trivial⟩, hname,
      hid hroot, hvs.1, hwritten.imp fun _ _ h => h hroot⟩⟩
  dsimp only
  split
  · next n hn =>
      exact (scalar_judged "module name" (hfs.within _ _ hn).holds).bind fun name hname =>
        hrest (by rw [hn]; exact hname)
  · next hn => exact hrest (by rw [hn]; rfl)

theorem module_intact (file : String) (root : Value) : Ensures (Module.Intact true) (module file root) := by
  intro m h
  have hjudged := module_judged file root
  rw [h] at hjudged
  exact hjudged.1

/-- **The reader accepts only its grammar**, but for strings and for the labels of selections: a document without
references that is read as a module is one that the module is written as, unless the text of a string in it is no scalar
or a selection in it has a label that is no scalar or empty. -/
theorem writtenAs_of_module {m : Module} (hroot : root.Plain) (h : module file root = .ok m) :
    m.WrittenAs file root ∨ root.Lax := by
  have hjudged := module_judged file root
  rw [h] at hjudged
  by_cases hlax : root.Lax
  · exact .inr hlax
  · exact .inl (hjudged.2 ⟨hroot, hlax⟩)

theorem writtenAs_of_module_binary :
    let int : Value := .mapping ⟨1, 37⟩ [(.scalar ⟨1, 38⟩ "int" .plain, .scalar ⟨1, 43⟩ "1" .plain)]
    let sum : Value := .mapping ⟨1, 24⟩
      [(.scalar ⟨1, 25⟩ "right" .plain, int), (.scalar ⟨1, 48⟩ "op" .plain, .scalar ⟨1, 52⟩ "+" .plain),
      (.scalar ⟨1, 55⟩ "left" .plain, int)]
    let root : Value := .mapping ⟨1, 1⟩ [(.scalar ⟨1, 1⟩ "statements" .plain,
      .sequence ⟨1, 13⟩ [.mapping ⟨1, 14⟩ [(.scalar ⟨1, 15⟩ "binary" .plain, sum)]])]
    ∃ m, module "sum.yaml" root = .ok m ∧ (m.WrittenAs "sum.yaml" root ∨ root.Lax) :=
  ⟨_, rfl, writtenAs_of_module (by simp [Value.Plain, Value.PlainItems, Value.PlainEntries]) rfl⟩

end

end Decode

end TypeInference
