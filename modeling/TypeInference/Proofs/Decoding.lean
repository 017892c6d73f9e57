import Mathlib.Data.List.Nodup
import TypeInference.Proofs.Encoding
import TypeInference.Proofs.Intact

/-! # Documents read back

Reading a document that a tree is written as gives the tree, its anchors apart. `fields_bind` says what is found in a
mapping; one lemma for each construct reads it back where its parts, which are smaller, are read back (`reads_call`, …),
and inductions on the bound put them together (`Sign.reads`, `Expr.reads`, `Decode.module_gives`). -/

namespace TypeInference

open Document (Value)
open Document.Value (given IsText IsItems)
open List

variable {e : Expr} {fs : Fields} {f : Func} {op : Ident} {elems : List (Option SignElem)}
  {entries : List (String × Value)} {vs : List Value} {mark : Mark} {m : Member} {o l i ps r : Option Value} {s : Sign}
  {name label file : String} {token : Token} {v c x : Value}

namespace Document.Value

variable {v w : Value} {key : String}

/-! ### Sizes -/

theorem size_pos : ∀ v : Value, 0 < v.size
  | .scalar .. | .reference .. => Nat.zero_lt_one
  | .sequence .. | .mapping .. => by
    rw [size]
    omega

theorem size_le_sizeItems : ∀ {items : List Value}, w ∈ items → w.size ≤ sizeItems items
  | x :: xs, h => by
    rw [sizeItems]
    rcases mem_cons.mp h with rfl | h
    · omega
    · have := size_le_sizeItems h
      omega

theorem size_le_sizeEntries : ∀ {entries : List (Value × Value)} {e : Value × Value}, e ∈ entries →
    e.2.size ≤ sizeEntries entries
  | (k, x) :: xs, e, h => by
    rw [sizeEntries]
    rcases mem_cons.mp h with rfl | h
    · dsimp only
      omega
    · have := size_le_sizeEntries h
      omega

theorem IsSequence.size_lt {items : List Value} (h : v.IsSequence items) (hw : w ∈ items) : w.size < v.size := by
  obtain ⟨place, rfl⟩ := h
  have := size_le_sizeItems hw
  rw [size]
  omega

theorem IsMapping.size_lt (h : v.IsMapping entries) (hw : (key, w) ∈ entries) : w.size < v.size := by
  obtain ⟨place, written, rfl, hperm⟩ := h
  obtain ⟨e, he, heq⟩ := mem_map.mp (hperm.mem_iff.mpr hw)
  cases heq
  have := size_le_sizeEntries he
  rw [size]
  omega

theorem IsMapping.singleton (h : v.IsMapping [(key, w)]) : ∃ place k, v = .mapping place [(k, w)] ∧ k.text = key := by
  obtain ⟨place, written, rfl, hperm⟩ := h
  obtain ⟨e, rfl, he⟩ := map_eq_singleton_iff.mp (perm_singleton.mp hperm)
  cases he
  exact ⟨place, e.1, rfl, rfl⟩

theorem mem_given : ∀ {parts : List (String × Option Value)}, (key, w) ∈ given parts ↔ (key, some w) ∈ parts
  | [] => by simp [given]
  | (_, none) :: parts => by simp [given, mem_given]
  | (_, some _) :: parts => by simp [given, mem_given]

/-- The one key of a record, with its content. -/
theorem IsRecord.opens {parts : List (String × Option Value)} {fuel : Nat} (h : v.IsRecord name parts)
    (hsize : v.size ≤ fuel + 1) : ∃ place k body, v = .mapping place [(k, body)] ∧ k.text = name ∧
    body.IsMapping (given parts) ∧ body.size ≤ fuel := by
  obtain ⟨body, hv, hbody⟩ := h
  have := hv.size_lt mem_cons_self
  obtain ⟨place, k, rfl, hkey⟩ := hv.singleton
  exact ⟨place, k, body, rfl, hkey, hbody, by omega⟩

end Document.Value

namespace Decode

variable {file what : String} {v w : Value} {text key : String} {parts : List (String × Option Value)} {bound : Nat}

/-! ### Parts of a mapping -/

/-- The entries have these values under these keys. -/
def Finds (fs : Fields) : List (String × Option Value) → Prop
  | [] => True
  | (key, v) :: parts => fs.lookup key = v ∧ Finds fs parts

theorem finds_iff : ∀ {parts : List (String × Option Value)}, Finds fs parts ↔ ∀ p ∈ parts, fs.lookup p.1 = p.2
  | [] => by simp [Finds]
  | _ :: parts => by simp [Finds, finds_iff]

theorem lookup_eq_some_iff (h : (fs.map Prod.fst).Nodup) : fs.lookup key = some w ↔ (key, w) ∈ fs := by
  induction fs with
  | nil => simp
  | cons e fs ih =>
    obtain ⟨k, x⟩ := e
    obtain ⟨hk, hfs⟩ := nodup_cons.mp h
    rw [lookup_cons, mem_cons, Prod.mk.injEq]
    by_cases hkey : key = k
    · subst hkey
      have hnot : (key, w) ∉ fs := fun hmem => hk (mem_map.mpr ⟨_, hmem, rfl⟩)
      simp [hnot, eq_comm]
    · rw [beq_false_of_ne hkey]
      simp only [hkey, false_and, false_or]
      exact ih hfs

theorem checkFields_eq {known : List String} : ∀ {entries : List (Value × Value)} {found : Fields},
    (∀ e ∈ entries, e.1.text ∈ known) → ((found ++ entries.map fun e => (e.1.text, e.2)).map Prod.fst).Nodup →
    checkFields file what known found entries = .ok (found ++ entries.map fun e => (e.1.text, e.2))
  | [], found, _, _ => by simp [checkFields]
  | (k, x) :: entries, found, hknown, hnodup => by
    obtain ⟨hk, hknown⟩ := forall_mem_cons.mp hknown
    have hfresh : found.lookup k.text = none := by
      rw [map_append, nodup_append] at hnodup
      refine Option.eq_none_iff_forall_ne_some.mpr fun y hy => ?_
      have hmem := (lookup_eq_some_iff hnodup.1).mp hy
      exact hnodup.2.2 k.text (mem_map.mpr ⟨_, hmem, rfl⟩) k.text mem_cons_self rfl
    have hshift : (found ++ ((k, x) :: entries).map fun e => (e.1.text, e.2))
        = (found ++ [(k.text, x)]) ++ entries.map fun e => (e.1.text, e.2) := by simp
    rw [hshift] at hnodup ⊢
    rw [checkFields, contains_iff_mem.mpr hk, hfresh]
    exact checkFields_eq hknown hnodup

theorem nodup_given (h : (parts.map Prod.fst).Nodup) : ((given parts).map Prod.fst).Nodup := by
  refine List.Nodup.sublist ?_ h
  clear h
  induction parts with
  | nil => exact .slnil
  | cons p parts ih =>
    obtain ⟨k, _ | x⟩ := p
    · exact ih.cons k
    · exact ih.cons_cons k

theorem key_mem_of_given (h : (key, w) ∈ given parts) : key ∈ parts.map Prod.fst :=
  mem_map.mpr ⟨_, Document.Value.mem_given.mp h, rfl⟩

/-- Where the keys are distinct, a lookup in some of the parts, in any order, finds each of them that is there. -/
theorem finds_of_perm (hnodup : (parts.map Prod.fst).Nodup) (hperm : fs.Perm (given parts)) : Finds fs parts := by
  have hfs : (fs.map Prod.fst).Nodup := (hperm.map Prod.fst).nodup_iff.mpr (nodup_given hnodup)
  refine finds_iff.mpr fun p hp => Option.ext fun x => ?_
  rw [lookup_eq_some_iff hfs, hperm.mem_iff, Document.Value.mem_given]
  constructor
  · intro hx
    exact congrArg Prod.snd (inj_on_of_nodup_map hnodup hp hx rfl)
  · intro hx
    rw [← hx]
    exact hp

/-- A part of a mapping, as it is found: what is there is no larger than the bound. -/
def Part (fs : Fields) (bound : Nat) (key : String) (o : Option Value) : Prop := fs.lookup key = o ∧
    ∀ w ∈ o, w.size ≤ bound

/-- The statement holds once all the parts are found. -/
def Once (fs : Fields) (bound : Nat) (goal : Prop) : List (String × Option Value) → Prop
  | [] => goal
  | (key, o) :: parts => Part fs bound key o → Once fs bound goal parts

theorem Once.of_parts {goal : Prop} : ∀ {parts : List (String × Option Value)}, Once fs bound goal parts →
    (∀ p ∈ parts, Part fs bound p.1 p.2) → goal
  | [], h, _ => h
  | _ :: _, h, hparts => by
    obtain ⟨hpart, hparts⟩ := forall_mem_cons.mp hparts
    exact Once.of_parts (h hpart) hparts

section

variable {α : Type} {Q : α → Prop}

theorem fields_bind {k : Fields → Result α} {known : List String} (h : v.IsMapping (given parts))
    (hsize : v.size ≤ bound) (hknown : parts.map Prod.fst = known) (hnodup : known.Nodup)
    (hk : ∀ fs, Once fs bound (Gives Q (k fs)) parts) : Gives Q (fields file v what known >>= k) := by
  subst hknown
  have hlt (key w) (hw : (key, some w) ∈ parts) := h.size_lt (Document.Value.mem_given.mpr hw)
  obtain ⟨place, written, rfl, hperm⟩ := h
  have hkeys : ∀ e ∈ written, e.1.text ∈ parts.map Prod.fst := fun e he =>
    key_mem_of_given (hperm.mem_iff.mp (mem_map.mpr ⟨e, he, rfl⟩))
  have hwritten := (hperm.map Prod.fst).nodup_iff.mpr (nodup_given hnodup)
  have hfields : fields file (.mapping place written) what (parts.map Prod.fst) = .ok _ := checkFields_eq hkeys hwritten
  rw [hfields]
  refine (hk _).of_parts fun p hp => ⟨finds_iff.mp (finds_of_perm hnodup hperm) p hp, fun w hw => ?_⟩
  have := hlt p.1 w (hw ▸ hp)
  omega

theorem scalar_bind {k : String → Result α} (h : v.IsScalar text) (hk : Gives Q (k text)) :
    Gives Q (scalar file (some v) what >>= k) := by
  obtain ⟨place, style, rfl⟩ := h
  exact hk

theorem text_bind {k : String → Result α} (ho : Part fs bound key o) (h : IsText o text) (hk : Gives Q (k text)) :
    Gives Q (optionalScalar file (fs.lookup key) what >>= k) := by
  rw [ho.1]
  cases o with
  | none =>
    cases h
    exact hk
  | some v => exact scalar_bind h hk

theorem items_bind {k : List Value → Result α} (ho : Part fs bound key o) (h : IsItems o vs)
    (hk : (∀ v ∈ vs, v.size ≤ bound) → Gives Q (k vs)) : Gives Q (items file (fs.lookup key) what >>= k) := by
  obtain ⟨ho, hsize⟩ := ho
  rw [ho]
  cases o with
  | none =>
    cases h
    exact hk (by simp)
  | some v =>
    refine (show items file (some v) what = .ok vs from ?_) ▸ hk fun w hw => ?_
    · obtain ⟨place, rfl⟩ := h
      rfl
    · have := h.size_lt hw
      have := hsize v rfl
      omega

theorem required_bind {k : Value → Result α} (ho : Part fs bound key (some w)) (hk : w.size ≤ bound → Gives Q (k w)) :
    Gives Q (required file v fs key what >>= k) := by
  rw [required, ho.1]
  exact hk (ho.2 w rfl)

end

theorem value?_eq_lookup {place : Document.Place} {entries : List (Value × Value)} :
    value? (.mapping place entries) key = (entries.map fun e => (e.1.text, e.2)).lookup key := by
  rw [value?]
  induction entries with
  | nil => rfl
  | cons e entries ih =>
    rw [List.find?_cons, map_cons, lookup_cons, Bool.beq_comm]
    cases key == e.1.text with
    | true => rfl
    | false => exact ih

theorem value?_of_mem (h : v.IsMapping (given parts)) (hnodup : (parts.map Prod.fst).Nodup) (ho : (key, o) ∈ parts) :
    value? v key = o := by
  obtain ⟨place, written, rfl, hperm⟩ := h
  rw [value?_eq_lookup]
  exact finds_iff.mp (finds_of_perm hnodup hperm) _ ho

theorem value?_of_not_mem (h : v.IsMapping entries) (hkey : key ∉ entries.map Prod.fst) : value? v key = none := by
  obtain ⟨place, written, rfl, hperm⟩ := h
  rw [value?_eq_lookup, lookup_eq_none_iff]
  intro e he
  have hmem := (hperm.map Prod.fst).mem_iff.mp (mem_map.mpr ⟨e, he, rfl⟩)
  rw [bne_iff_ne]
  rintro rfl
  exact hkey hmem

theorem value?_of_not_part (h : v.IsMapping (given parts)) (hkey : key ∉ parts.map Prod.fst) : value? v key = none :=
  value?_of_not_mem h fun hmem => by
    obtain ⟨⟨k, w⟩, hw, rfl⟩ := mem_map.mp hmem
    exact hkey (key_mem_of_given hw)

/-! ### Signatures -/

/-- A signature does not look like an element with a label: it is no mapping with the key `type`. -/
theorem value?_type_of_sign : ∀ {s : Sign}, s.WrittenAs v → value? v "type" = none
  | .name _, ⟨_, _, _, _, h⟩ => by
    subst h
    rfl
  | .tuple _, ⟨_, h, _⟩ => value?_of_not_mem h (by simp)
  | .union .., ⟨_, _, h, _⟩ => value?_of_not_mem h (by simp)
  | .func ⟨_, some ⟨_, _, _⟩, _⟩, ⟨_, _, _, _, ⟨_, h, _⟩, _⟩ => value?_of_not_mem h (by simp)

/-- Reading the value gives the signature, its anchors apart. -/
def ReadsSign (file : String) (fuel : Nat) (s : Sign) (v : Value) : Prop :=
  Gives (fun s' => s'.bare = s.bare) (signAux file fuel v)

section

variable {fuel : Nat} (ih : ∀ {s : Sign} {v : Value}, s.WrittenAs v → v.size ≤ fuel → ReadsSign file fuel s v)
include ih

theorem signs_give : ∀ {ss : List Sign} {vs : List Value}, Sign.AllWrittenAs ss vs → (∀ v ∈ vs, v.size ≤ fuel) →
    Gives (fun ss' => Sign.bareAll ss' = Sign.bareAll ss) (vs.mapM (signAux file fuel))
  | [], _, h, _ => by
    cases h
    exact .ok rfl
  | s :: ss, _, ⟨v, rest, hvs, hs, hss⟩, hsize => by
    subst hvs
    obtain ⟨hv, hrest⟩ := forall_mem_cons.mp hsize
    rw [mapM_cons]
    refine (ih hs hv).bind fun s' hs' => (signs_give hss hrest).bind fun ss' hss' => .ok ?_
    simp only [Sign.bareAll, hs', hss']

theorem signElem_gives {e : SignElem} (hv : e.WrittenAs v) (hsize : v.size ≤ fuel) :
    Gives (fun x => x.bare = e.bare) (signElem (signAux file fuel) file v) := by
  obtain ⟨token, label, name, s⟩ := e
  obtain ⟨rfl, ⟨rfl, hv⟩ | ⟨l, t, hv, hl, ht⟩⟩ := hv
  · unfold signElem
    rw [value?_type_of_sign hv]
    refine (ih hv hsize).bind fun s' hs' => .ok ?_
    simp only [SignElem.bare, hs']
  · have htype : value? v "type" = some t := value?_of_mem hv (by simp) (by simp)
    unfold signElem
    rw [htype, Option.isSome_some, if_pos rfl]
    refine fields_bind hv hsize rfl (by decide) fun fs hlabel htype => text_bind hlabel hl <|
      required_bind htype fun hle => (ih ht hle).bind fun s' hs' => .ok ?_
    simp only [SignElem.bare, hs']

theorem signElems_give : ∀ {es : List (Option SignElem)} {vs : List Value}, SignElem.AllWrittenAs es vs →
    (∀ v ∈ vs, v.size ≤ fuel) →
    Gives (fun xs => SignElem.bareAll (xs.map some) = SignElem.bareAll es) (vs.mapM (signElem (signAux file fuel) file))
  | [], _, h, _ => by
    cases h
    exact .ok rfl
  | some e :: es, _, ⟨v, rest, hvs, he, hes⟩, hsize => by
    subst hvs
    obtain ⟨hv, hrest⟩ := forall_mem_cons.mp hsize
    rw [mapM_cons]
    refine (signElem_gives ih he hv).bind fun x hx => (signElems_give hes hrest).bind fun xs hxs => .ok ?_
    simp only [map_cons, SignElem.bareAll, hx, hxs]

theorem tupleSign_gives {t : TupleSign} (hv : t.WrittenAs v) (hsize : v.size ≤ fuel) :
    Gives (fun t' => t'.bare = t.bare) (tupleSign (signAux file fuel) file v) := by
  obtain ⟨token, label, elems⟩ := t
  obtain ⟨l, es, vs, hv, hl, hvs, helems⟩ := hv
  refine fields_bind hv hsize rfl (by decide) fun fs hlabel hes => text_bind hlabel hl <| items_bind hes hvs fun hle =>
    (signElems_give ih helems hle).bind fun xs hxs => .ok ?_
  simp only [TupleSign.bare, hxs]

theorem reads_func {f : FuncSign} (hv : f.WrittenAs v) (hsize : v.size ≤ fuel + 1) :
    ReadsSign file (fuel + 1) (.func f) v := by
  obtain ⟨token, _ | ⟨token', label, elems⟩, codomain⟩ := f
  · exact hv.elim
  obtain ⟨rfl, params, vs, returns, hv, hvs, helems, hreturns⟩ := hv
  obtain ⟨place, k, body, rfl, hkey, hbody, hsize⟩ := hv.opens hsize
  unfold ReadsSign signAux
  simp only [single, ok_bind, hkey]
  refine fields_bind hbody hsize rfl (by decide) fun fs hps hr => items_bind hps hvs fun hle =>
    (signElems_give ih helems hle).bind fun es hes => ?_
  have hfunc {s : Sign} (hs : s.bare = codomain.bare) :
      (Sign.func (funcSign file (.mapping place [(k, body)]) es s)).bare =
      (Sign.func ⟨token, some ⟨token', "", elems⟩, codomain⟩).bare := by
    simp only [funcSign, Sign.bare, FuncSign.bare, TupleSign.bare, hes, hs]
  rw [hr.1]
  cases returns with
  | none =>
    obtain ⟨unit, rfl⟩ := hreturns
    exact .ok (hfunc rfl)
  | some r => exact (ih hreturns (hr.2 r rfl)).bind fun s hs => .ok (hfunc hs)

end

end Decode

open Decode

/-- The induction is on the bound, which is never less than the size of the value. -/
theorem Sign.reads (file : String) : ∀ {fuel : Nat} {s : Sign} {v : Value}, s.WrittenAs v → v.size ≤ fuel →
    ReadsSign file fuel s v
  | 0, _, v, _, hsize => absurd v.size_pos (by omega)
  | fuel + 1, .name n, _, ⟨hscope, hmetatype, place, style, hv⟩, _ => by
    subst hv
    refine .ok ?_
    simp only [Sign.bare, hscope, hmetatype]
  | fuel + 1, .func f, _, hv, hsize => reads_func (Sign.reads file) hv hsize
  | fuel + 1, .tuple t, _, ⟨body, hv, ht⟩, hsize => by
    have := hv.size_lt mem_cons_self
    obtain ⟨place, k, rfl, hkey⟩ := hv.singleton
    unfold ReadsSign signAux
    simp only [single, ok_bind, hkey]
    exact (tupleSign_gives (Sign.reads file) ht (by omega)).bind fun t' ht' => .ok (congrArg Sign.tuple ht')
  | fuel + 1, .union _ cases, _, ⟨body, vs, hv, hbody, hcases⟩, hsize => by
    have := hv.size_lt mem_cons_self
    obtain ⟨place, k, rfl, hkey⟩ := hv.singleton
    have hle (w : Value) (hw : w ∈ vs) : w.size ≤ fuel := by
      have := hbody.size_lt hw
      omega
    obtain ⟨place', rfl⟩ := hbody
    unfold ReadsSign signAux
    simp only [single, ok_bind, hkey]
    exact (signs_give (Sign.reads file) hcases hle).bind fun ss hss => .ok (congrArg (Sign.union {}) hss)

theorem Sign.reads_sign (h : s.WrittenAs v) : Gives (fun s' => s'.bare = s.bare) (Decode.sign file v) :=
  Sign.reads file h (Nat.le_refl _)

/-! ### Functions -/

namespace Decode

variable {file what : String} {v w : Value} {text key : String} {bound fuel : Nat}

theorem param_gives {e : SignElem} (hv : e.DeclaredAs v) : Gives (fun x => x.bare = e.bare) (param file v) := by
  obtain ⟨token, label, name, sign⟩ := e
  obtain ⟨n, l, t, hv, hn, hl, ht⟩ := hv
  refine fields_bind hv (Nat.le_refl _) rfl (by decide) fun fs hname hlabel htype => text_bind hname hn <|
    text_bind hlabel hl <| required_bind htype fun _ => (Sign.reads_sign ht).bind fun s hs => .ok ?_
  simp only [SignElem.bare, hs]

theorem params_give (h : Forall₂ (fun e v => ∃ x, e = some x ∧ x.DeclaredAs v) elems vs) :
    Gives (fun xs => SignElem.bareAll (xs.map some) = SignElem.bareAll elems) (vs.mapM (param file)) := by
  induction h with
  | nil => exact .ok rfl
  | cons he _ ih =>
    obtain ⟨e, rfl, he⟩ := he
    rw [mapM_cons]
    refine (param_gives he).bind fun x hx => ih.bind fun xs hxs => .ok ?_
    simp only [map_cons, SignElem.bareAll, hx, hxs]

theorem function_gives {expr : Value → Result Expr} (hf : f.Unbound) (hsign : FuncSign.DeclaredAs f.sign ps r)
    (hps : Part fs bound "params" ps) (hr : Part fs bound "returns" r) (hw : Part fs bound "body" (some w))
    (hbody : w.size ≤ bound → Gives (fun e => e.bare = f.body.bare) (expr w)) :
    Gives (fun f' => (Expr.func f').bare = (Expr.func f).bare) (function expr file v f.name fs) := by
  obtain ⟨mark, name, sign, body, scope, inner, symbol, params⟩ := f
  obtain ⟨hmark, rfl, rfl, rfl, rfl⟩ := hf
  obtain _ | ⟨token, _ | ⟨token', label, elems⟩, codomain⟩ := sign
  · exact hsign.elim
  · exact hsign.elim
  obtain ⟨rfl, ⟨vs, hvs, helems⟩, hreturns⟩ := hsign
  refine items_bind hps hvs fun _ => (params_give helems).bind fun es hes => ?_
  have hmark : mark.type = .absent := hmark
  have hfunc {s : Sign} {e : Expr} (hs : s.bare = codomain.bare) (he : e.bare = body.bare) :
      (Expr.func { mark := { token := anchor file v name }, name := name, sign := some (funcSign file v es s),
                   body := e }).bare
        = (Expr.func { mark := mark, name := name, sign := some ⟨token, some ⟨token', "", elems⟩, codomain⟩,
                       body := body }).bare := by
    simp only [Expr.bare, he, Option.map_some, funcSign, FuncSign.bare, TupleSign.bare, hes, hs, Mark.bare, hmark]
  rw [hr.1]
  cases r with
  | none =>
    obtain ⟨unit, rfl⟩ := hreturns
    exact required_bind hw fun hle => (hbody hle).bind fun e he => .ok (hfunc rfl he)
  | some r =>
    exact (Sign.reads_sign hreturns).bind fun s hs => required_bind hw fun hle => (hbody hle).bind fun e he =>
      .ok (hfunc hs he)

/-! ### Expressions -/

/-- An expression is a mapping with one key, which no other part has; under `func` there is a mapping. -/
theorem exists_key_of_expr : ∀ {e : Expr}, e.WrittenAs v → ∃ key body,
    v.IsMapping [(key, body)] ∧ key ≠ "value" ∧ key ≠ "type" ∧ (key = "func" → ∃ entries, body.IsMapping entries)
  | .func ⟨_, _, _, _, _, _, _, _⟩, ⟨_, _, _, _, _, ⟨body, h, hbody⟩, _⟩ =>
    ⟨_, body, h, by decide, by decide, fun _ => ⟨_, hbody⟩⟩
  | .cond .., ⟨_, _, _, _, ⟨body, h, _⟩, _⟩ => ⟨_, body, h, by decide, by decide, by simp⟩
  | .matching .., ⟨_, _, _, _, ⟨body, h, _⟩, _⟩ => ⟨_, body, h, by decide, by decide, by simp⟩
  | .letBinding _, ⟨_, body, h, _⟩ => ⟨_, body, h, by decide, by decide, by simp⟩
  | .binary .., ⟨_, _, _, _, ⟨body, h, _⟩, _⟩ => ⟨_, body, h, by decide, by decide, by simp⟩
  | .unary .., ⟨_, _, _, ⟨body, h, _⟩, _⟩ => ⟨_, body, h, by decide, by decide, by simp⟩
  | .call .., ⟨_, _, _, _, ⟨body, h, _⟩, _⟩ => ⟨_, body, h, by decide, by decide, by simp⟩
  | .tuple .., ⟨_, _, _, _, ⟨body, h, _⟩, _⟩ => ⟨_, body, h, by decide, by decide, by simp⟩
  | .select .., ⟨_, _, _, _, ⟨body, h, _⟩, _⟩ => ⟨_, body, h, by decide, by decide, by simp⟩
  | .ident _, ⟨_, body, h, _⟩ => ⟨_, body, h, by decide, by decide, by simp⟩
  | .literal _ c, ⟨_, body, _, h, _⟩ =>
    ⟨_, body,
      h, by cases c <;> simp [Constant.key], by cases c <;> simp [Constant.key], by cases c <;> simp [Constant.key]⟩

theorem value?_value_of_expr (h : e.WrittenAs v) : value? v "value" = none := by
  obtain ⟨key, body, hv, hkey, _⟩ := exists_key_of_expr h
  exact value?_of_not_mem hv (by simpa using hkey.symm)

theorem value?_type_of_expr (h : e.WrittenAs v) : value? v "type" = none := by
  obtain ⟨key, body, hv, _, hkey, _⟩ := exists_key_of_expr h
  exact value?_of_not_mem hv (by simpa using hkey.symm)

theorem value?_func_of_expr (h : e.WrittenAs v) :
    value? v "func" = none ∨ ∃ place entries, value? v "func" = some (.mapping place entries) := by
  obtain ⟨key, body, hv, _, _, hbody⟩ := exists_key_of_expr h
  by_cases hkey : key = "func"
  · subst hkey
    obtain ⟨entries, place, written, rfl, _⟩ := hbody rfl
    obtain ⟨place', k, rfl, hk⟩ := hv.singleton
    refine .inr ⟨place, written, ?_⟩
    rw [value?_eq_lookup, map_singleton, hk]
    rfl
  · exact .inl (value?_of_not_mem hv (by simpa [eq_comm] using hkey))

/-- Reading the value gives the expression, its anchors apart. -/
def ReadsExpr (file : String) (fuel : Nat) (e : Expr) (v : Value) : Prop :=
  Gives (fun e' => e'.bare = e.bare) (exprAux file fuel v)

attribute [local simp] exprAux

theorem reads_literal {c : Constant} (h : (Expr.literal mark c).WrittenAs v) :
    ReadsExpr file (fuel + 1) (.literal mark c) v := by
  obtain ⟨hmark, w, text, hv, ⟨place', style, rfl⟩, hc⟩ := h
  obtain ⟨place, k, rfl, hkey⟩ := hv.singleton
  have hbare {token : Token} : (Expr.literal { token := token } c).bare = (Expr.literal mark c).bare := by
    simp only [Expr.bare, Mark.bare, hmark]
  unfold ReadsExpr exprAux
  cases c with
  | string value =>
    cases hc
    simp only [single, ok_bind, hkey, Constant.key]
    exact .ok hbare
  | int | float | bool =>
    unfold Constant.ReadFrom at hc
    simp only [single, ok_bind, hkey, Constant.key]
    simp only [literal, Value.text, hc, Option.map_some]
    exact .ok hbare

theorem reads_ident {i : Ident} (h : (Expr.ident i).WrittenAs v) : ReadsExpr file (fuel + 1) (.ident i) v := by
  obtain ⟨⟨htype, hscope, hcandidates, hsymbol⟩, body, hv, hbody⟩ := h
  obtain ⟨place, k, rfl, hkey⟩ := hv.singleton
  unfold ReadsExpr exprAux
  simp only [single, ok_bind, hkey]
  refine scalar_bind hbody (.ok ?_)
  simp only [Expr.bare, Ident.bare, Mark.bare, htype, hscope, hcandidates, hsymbol]

theorem reads_letBinding {b : LetBinding} (h : (Expr.letBinding b).WrittenAs v) :
    ReadsExpr file (fuel + 1) (.letBinding b) v := by
  obtain ⟨⟨htype, hscope, hsymbol⟩, body, hv, hbody⟩ := h
  obtain ⟨place, k, rfl, hkey⟩ := hv.singleton
  unfold ReadsExpr exprAux
  simp only [single, ok_bind, hkey]
  refine scalar_bind hbody (.ok ?_)
  simp only [Expr.bare, Mark.bare, htype, hscope, hsymbol]

theorem operator_gives (hop : op.Unbound) (hw : w.IsScalar op.name) (h : Part fs bound "op" (some w)) :
    Gives (fun i => i.bare = op.bare) (operator file fs) := by
  unfold operator
  rw [h.1]
  obtain ⟨htype, hscope, hcandidates, hsymbol⟩ := hop
  refine scalar_bind hw (.ok ?_)
  simp only [Ident.bare, Mark.bare, htype, hscope, hcandidates, hsymbol]

theorem member_eq (hm : m.WrittenAs l i) (hl : Part fs bound "label" l) (hi : Part fs bound "index" i) :
    member file v fs = .ok m := by
  unfold member
  rw [hl.1, hi.1]
  cases m with
  | label name =>
    obtain ⟨hname, rfl, label, hlabel, place, style, rfl⟩ := hm
    cases hlabel
    exact congrArg Except.ok (if_neg hname)
  | index number =>
    obtain ⟨hnumber, rfl, index, hindex, text, ⟨place, style, rfl⟩, htext⟩ := hm
    cases hindex
    dsimp only [Value.text]
    rw [htext]
    exact if_neg (by omega)

section

variable (ih : ∀ {e : Expr} {v : Value}, e.WrittenAs v → v.size ≤ fuel → ReadsExpr file fuel e v)
include ih

theorem operand_gives (hw : Part fs fuel key (some w)) (he : e.WrittenAs w) :
    Gives (fun e' => e'.bare = e.bare) (operand (exprAux file fuel) file v fs key) :=
  required_bind hw fun hle => ih he hle

theorem labelled_gives {x : Labelled} (hv : x.WrittenAs v) (hsize : v.size ≤ fuel) :
    Gives (fun y => y.bare = x.bare) (labelled (exprAux file fuel) file what v) := by
  obtain ⟨mark, label, e⟩ := x
  obtain ⟨hmark, ⟨rfl, hv⟩ | ⟨l, x, hv, hl, hx⟩⟩ := hv
  · unfold labelled
    rw [value?_value_of_expr hv]
    refine (ih hv hsize).bind fun e' he' => .ok ?_
    simp only [Labelled.bare, Mark.bare, hmark, he']
  · have hvalue : value? v "value" = some x := value?_of_mem hv (by simp) (by simp)
    unfold labelled
    rw [hvalue, Option.isSome_some, if_pos rfl]
    refine fields_bind hv hsize rfl (by decide) fun fs hlabel hvalue => text_bind hlabel hl <|
      required_bind hvalue fun hle => (ih hx hle).bind fun e' he' => .ok ?_
    simp only [Labelled.bare, Mark.bare, hmark, he']

theorem labelledAll_gives : ∀ {xs : List (Option Labelled)} {vs : List Value}, Labelled.AllWrittenAs xs vs →
    (∀ v ∈ vs, v.size ≤ fuel) → Gives (fun ys => Labelled.bareAll (ys.map some) = Labelled.bareAll xs)
    (vs.mapM (labelled (exprAux file fuel) file what))
  | [], _, h, _ => by
    cases h
    exact .ok rfl
  | some x :: xs, _, ⟨v, rest, hvs, hx, hxs⟩, hsize => by
    subst hvs
    obtain ⟨hv, hrest⟩ := forall_mem_cons.mp hsize
    rw [mapM_cons]
    refine (labelled_gives ih hx hv).bind fun y hy => (labelledAll_gives hxs hrest).bind fun ys hys => .ok ?_
    simp only [map_cons, Labelled.bareAll, hy, hys]

theorem matchCases_give : ∀ {cs : List (Option MatchCase)} {vs : List Value}, MatchCase.AllWrittenAs cs vs →
    (∀ v ∈ vs, v.size ≤ fuel) → Gives (fun xs => MatchCase.bareAll (xs.map some) = MatchCase.bareAll cs)
    (vs.mapM (matchCase (exprAux file fuel) file))
  | [], _, h, _ => by
    cases h
    exact .ok rfl
  | some ⟨token, pattern, value, _⟩ :: cs, _, ⟨v, rest, hvs, ⟨hinner, p, x, hc, hp, hx⟩, hcs⟩, hsize => by
    subst hvs hinner
    obtain ⟨hv, hrest⟩ := forall_mem_cons.mp hsize
    have hcase :
        Gives (fun c => c.bare = MatchCase.bare ⟨token, pattern, value, noScope⟩)
        (matchCase (exprAux file fuel) file v) := by
      refine fields_bind hc hv rfl (by decide) fun fs hpattern hvalue => (operand_gives ih hpattern hp).bind fun a ha =>
        (operand_gives ih hvalue hx).bind fun b hb => .ok ?_
      simp only [MatchCase.bare, ha, hb]
    rw [mapM_cons]
    refine hcase.bind fun y hy => (matchCases_give hcs hrest).bind fun ys hys => .ok ?_
    simp only [map_cons, MatchCase.bareAll, hy, hys]

variable (hsize : v.size ≤ fuel + 1)
include hsize

theorem reads_call {callee : Expr} {args : List (Option Labelled)} (h : (Expr.call mark callee args).WrittenAs v) :
    ReadsExpr file (fuel + 1) (.call mark callee args) v := by
  obtain ⟨hmark, c, o, vs, hv, hc, hvs, hargs⟩ := h
  obtain ⟨place, k, body, rfl, hkey, hbody, hsize⟩ := hv.opens hsize
  unfold ReadsExpr exprAux
  simp only [single, ok_bind, hkey]
  refine fields_bind hbody hsize rfl (by decide) fun fs hcallee ho => (operand_gives ih hcallee hc).bind fun e he =>
    items_bind ho hvs fun hle => (labelledAll_gives ih hargs hle).bind fun xs hxs => .ok ?_
  simp only [Expr.bare, Mark.bare, hmark, he, hxs]

theorem reads_binary {left right : Expr} (h : (Expr.binary mark op left right).WrittenAs v) :
    ReadsExpr file (fuel + 1) (.binary mark op left right) v := by
  obtain ⟨⟨hmark, hop⟩, o, l, r, hv, ho, hl, hr⟩ := h
  obtain ⟨place, k, body, rfl, hkey, hbody, hsize⟩ := hv.opens hsize
  unfold ReadsExpr exprAux
  simp only [single, ok_bind, hkey]
  refine fields_bind hbody hsize rfl (by decide) fun fs hname hleft hright =>
    (operator_gives hop ho hname).bind fun i hi => (operand_gives ih hleft hl).bind fun a ha =>
    (operand_gives ih hright hr).bind fun b hb => .ok ?_
  simp only [Expr.bare, Mark.bare, hmark, hi, ha, hb]

theorem reads_unary {operand : Expr} (h : (Expr.unary mark op operand).WrittenAs v) :
    ReadsExpr file (fuel + 1) (.unary mark op operand) v := by
  obtain ⟨⟨hmark, hop⟩, o, x, hv, ho, hx⟩ := h
  obtain ⟨place, k, body, rfl, hkey, hbody, hsize⟩ := hv.opens hsize
  unfold ReadsExpr exprAux
  simp only [single, ok_bind, hkey]
  refine fields_bind hbody hsize rfl (by decide) fun fs hname hoperand => (operator_gives hop ho hname).bind fun i hi =>
    (operand_gives ih hoperand hx).bind fun a ha => .ok ?_
  simp only [Expr.bare, Mark.bare, hmark, hi, ha]

theorem reads_cond {thenScope elseScope : ScopeId} {condition thenBranch elseBranch : Expr}
    (h : (Expr.cond mark thenScope elseScope condition thenBranch elseBranch).WrittenAs v) :
    ReadsExpr file (fuel + 1) (.cond mark thenScope elseScope condition thenBranch elseBranch) v := by
  obtain ⟨⟨hmark, rfl, rfl⟩, c, t, e, hv, hc, ht, he⟩ := h
  obtain ⟨place, k, body, rfl, hkey, hbody, hsize⟩ := hv.opens hsize
  unfold ReadsExpr exprAux
  simp only [single, ok_bind, hkey]
  refine fields_bind hbody hsize rfl (by decide) fun fs hcondition hthen helse =>
    (operand_gives ih hcondition hc).bind fun x hx => (operand_gives ih hthen ht).bind fun y hy =>
    (operand_gives ih helse he).bind fun z hz => .ok ?_
  simp only [Expr.bare, Mark.bare, hmark, hx, hy, hz]

theorem reads_matching {subject : Expr} {cases : List (Option MatchCase)}
    (h : (Expr.matching mark subject cases).WrittenAs v) :
    ReadsExpr file (fuel + 1) (.matching mark subject cases) v := by
  obtain ⟨hmark, s, o, vs, hv, hs, hvs, hcases⟩ := h
  obtain ⟨place, k, body, rfl, hkey, hbody, hsize⟩ := hv.opens hsize
  unfold ReadsExpr exprAux
  simp only [single, ok_bind, hkey]
  refine fields_bind hbody hsize rfl (by decide) fun fs hsubject ho => (operand_gives ih hsubject hs).bind fun e he =>
    items_bind ho hvs fun hle => (matchCases_give ih hcases hle).bind fun xs hxs => .ok ?_
  simp only [Expr.bare, Mark.bare, hmark, he, hxs]

theorem reads_tuple {elems : List (Option Labelled)} (h : (Expr.tuple mark label elems).WrittenAs v) :
    ReadsExpr file (fuel + 1) (.tuple mark label elems) v := by
  obtain ⟨hmark, l, o, vs, hv, hl, hvs, helems⟩ := h
  obtain ⟨place, k, body, rfl, hkey, hbody, hsize⟩ := hv.opens hsize
  unfold ReadsExpr exprAux
  simp only [single, ok_bind, hkey]
  refine fields_bind hbody hsize rfl (by decide) fun fs hlabel ho => text_bind hlabel hl <| items_bind ho hvs fun hle =>
    (labelledAll_gives ih helems hle).bind fun xs hxs => .ok ?_
  simp only [Expr.bare, Mark.bare, hmark, hxs]

theorem reads_select {owner : Expr} (h : (Expr.select mark owner m).WrittenAs v) :
    ReadsExpr file (fuel + 1) (.select mark owner m) v := by
  obtain ⟨hmark, o, l, i, hv, ho, hm⟩ := h
  obtain ⟨place, k, body, rfl, hkey, hbody, hsize⟩ := hv.opens hsize
  unfold ReadsExpr exprAux
  simp only [single, ok_bind, hkey]
  refine fields_bind hbody hsize rfl (by decide) fun fs howner hl hi => (operand_gives ih howner ho).bind fun e he => ?_
  rw [member_eq hm hl hi]
  refine .ok ?_
  simp only [Expr.bare, Mark.bare, hmark, he]

theorem reads_function (h : (Expr.func f).WrittenAs v) : ReadsExpr file (fuel + 1) (.func f) v := by
  cases f
  obtain ⟨hf, n, ps, r, b, hv, hn, hsign, hb⟩ := h
  obtain ⟨place, k, body, rfl, hkey, hbody, hsize⟩ := hv.opens hsize
  unfold ReadsExpr exprAux
  simp only [single, ok_bind, hkey]
  exact fields_bind hbody hsize rfl (by decide) fun fs hname hps hr hw => text_bind hname hn <|
    (function_gives hf hsign hps hr hw (ih hb)).bind fun f' hf' => .ok hf'

end

end Decode

theorem Expr.reads (file : String) : ∀ {fuel : Nat} {e : Expr} {v : Value}, e.WrittenAs v → v.size ≤ fuel →
    ReadsExpr file fuel e v
  | 0, _, v, _, hsize => absurd v.size_pos (by omega)
  | fuel + 1, e, v, h, hsize => by
    have ih {e : Expr} {v : Value} : e.WrittenAs v → v.size ≤ fuel → ReadsExpr file fuel e v := Expr.reads file
    cases e with
    | missing | argument | element => exact h.elim
    | func => exact reads_function ih hsize h
    | cond => exact reads_cond ih hsize h
    | matching => exact reads_matching ih hsize h
    | letBinding => exact reads_letBinding h
    | binary => exact reads_binary ih hsize h
    | unary => exact reads_unary ih hsize h
    | call => exact reads_call ih hsize h
    | tuple => exact reads_tuple ih hsize h
    | select => exact reads_select ih hsize h
    | ident => exact reads_ident h
    | literal => exact reads_literal h

theorem Expr.reads_expr (h : e.WrittenAs v) : Gives (fun e' => e'.bare = e.bare) (Decode.expr file v) :=
  Expr.reads file h (Nat.le_refl _)

/-! ### Statements and modules -/

namespace Decode

variable {file : String} {v : Value}

theorem typeAlias_gives {a : TypeAlias} (hv : a.WrittenAs v) :
    Gives (fun a' => (Node.alias a').bare = (Node.alias a).bare) (typeAlias file v) := by
  obtain ⟨hscope, hsymbol, n, s, hv, hn, hs⟩ := hv
  refine fields_bind hv (Nat.le_refl _) rfl (by decide) fun fs htype his => ?_
  rw [htype.1]
  refine scalar_bind hn <| required_bind his fun _ => (Sign.reads_sign hs).bind fun s' hs' => .ok ?_
  simp only [Node.bare, hs', hscope, hsymbol]

theorem stated_gives (hv : f.StatedAs v) : Gives (fun n => n.bare = (Node.expr (.func f)).bare) (statement file v) := by
  obtain ⟨hf, n, ps, r, b, hv, ⟨place, style, rfl⟩, hsign, hb⟩ := hv
  have htype : value? v "type" = none := value?_of_not_part hv (by simp)
  have hfunc : value? v "func" = some (.scalar place f.name style) := value?_of_mem hv (by simp) (by simp)
  unfold statement
  rw [htype, hfunc]
  exact fields_bind hv (Nat.le_refl _) rfl (by decide) fun fs _ hps hr hbody =>
    (function_gives hf hsign hps hr hbody fun _ => Expr.reads_expr hb).bind fun f' hf' => .ok (congrArg Node.expr hf')

theorem statement_gives {n : Node} (hn : n.WrittenAs v) : Gives (fun n' => n'.bare = n.bare) (statement file v) := by
  cases n with
  | «alias» a =>
    obtain ⟨_, _, n, s, hv, _⟩ := id hn
    have htype : value? v "type" = some n := value?_of_mem hv (by simp) (by simp)
    unfold statement
    rw [htype, Option.isSome_some, if_pos rfl]
    exact (typeAlias_gives hn).bind fun a' ha' => .ok ha'
  | expr e =>
    rcases hn with hv | ⟨f, rfl, hv⟩
    · have hexpr : Gives (fun n => n.bare = (Node.expr e).bare)
          (do return Node.expr (← Decode.expr file v) : Result Node) :=
        (Expr.reads_expr hv).bind fun e' he' => .ok (congrArg Node.expr he')
      unfold statement
      rw [value?_type_of_expr hv]
      rcases value?_func_of_expr hv with hfunc | ⟨place, entries, hfunc⟩
      · rw [hfunc]
        exact hexpr
      · rw [hfunc]
        exact hexpr
    · exact stated_gives hv
  | missing | module | sign | signElem | matchCase => exact hn.elim

theorem statements_give {ns : List Node} (h : Forall₂ Node.WrittenAs ns vs) :
    Gives (fun ns' => ns'.map Node.bare = ns.map Node.bare) (vs.mapM (statement file)) := by
  induction h with
  | nil => exact .ok rfl
  | cons hn _ ih =>
    rw [mapM_cons]
    refine (statement_gives hn).bind fun n' hn' => ih.bind fun ns' hns' => .ok ?_
    simp only [map_cons, hn', hns']

theorem moduleId_gives {id : Option Value}
    (h : ∀ w ∈ id, ∃ text, w.IsScalar text ∧ ∃ uuid, ModuleId.read text = .ok uuid) :
    Gives (fun _ => True) (moduleId file id) := by
  cases id with
  | none => exact .ok trivial
  | some w =>
    obtain ⟨text, ⟨place, style, rfl⟩, uuid, huuid⟩ := h w rfl
    have huuid : ModuleId.read (Value.scalar place text style).text = .ok uuid := huuid
    simp only [moduleId, huuid]
    exact .ok trivial

theorem module_gives {m : Module} (hv : m.WrittenAs file v) :
    Gives (fun m' => m'.bare = m.bare) (Decode.module file v) := by
  obtain ⟨hscope, n, id, ss, vs, hv, hn, hid, hvs, hstatements⟩ := hv
  refine fields_bind hv (Nat.le_refl _) rfl (by decide) fun fs hfn hfid hfs => ?_
  have hrest {token : Token} (htoken : token.lexeme = m.name) : Gives (fun m' => m'.bare = m.bare) (do
      let id ← moduleId file (fs.lookup "id")
      let statements ← items file (fs.lookup "statements") "statements"
      return { token := token, name := token.lexeme, id := id, statements := ← statements.mapM (statement file) } :
          Result Module) := by
    rw [hfid.1]
    refine (moduleId_gives hid).bind fun uuid _ => items_bind hfs hvs fun _ =>
      (statements_give hstatements).bind fun ns hns => .ok ?_
    simp only [Module.bare, htoken, hns, hscope]
  cases n with
  | none =>
    rw [hfn.1]
    exact hrest hn.symm
  | some n =>
    obtain ⟨place, style, rfl⟩ := hn
    rw [hfn.1]
    exact hrest rfl

end Decode

end TypeInference
