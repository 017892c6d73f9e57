import TypeInference.Analysis.Scoping
import TypeInference.Proofs.Computation
import TypeInference.Tree.Copy

/-! # The type names of a signature

All that an analysis changes in a signature are its type names. `mapNames` changes every one of them and keeps the form
of the signature. Binding tells type names their scope (`Sign.inScope_comes`), and a copy has their slots empty
(`Sign.blank_comes`). Neither is stopped in an intact signature. -/

namespace TypeInference

open List

variable {α β : Type} {i : ScopeId} {h : TypeName → TypeName}

/-! ### Computations with one result -/

/-- A missing part is all that stops the computation. It comes to the result if `p` holds, and only if `q` does. -/
structure Comes (p q : Prop) (a : α) (x : Except Fault α) : Prop where
  either : x = .ok a ∨ x = .error .missing
  comes : p → x = .ok a
  only : x = .ok a → q

namespace Comes

variable {p q p' q' : Prop} {a b : α} {x : Except Fault α}

theorem ok (hq : q) : Comes p q a (.ok a) := ⟨.inl rfl, fun _ => rfl, fun _ => hq⟩

theorem missing (hp : ¬ p) : Comes p q a (.error .missing) := ⟨.inr rfl, fun h => absurd h hp, fun h => by cases h⟩

theorem imp (hx : Comes p q a x) (hp : p' → p) (hq : q → q') : Comes p' q' a x :=
  ⟨hx.either, fun h => hx.comes (hp h), fun h => hq (hx.only h)⟩

theorem bind {f : α → Except Fault β} {b : β} (hx : Comes p q a x) (hf : Comes p' q' b (f a)) :
    Comes (p ∧ p') (q ∧ q') b (x >>= f) := by
  rcases hx.either with rfl | rfl
  · exact hf.imp And.right fun h => ⟨hx.only rfl, h⟩
  · exact .missing fun h => by cases hx.comes h.1

theorem map (g : α → β) (hx : Comes p q a x) : Comes p q (g a) (x >>= fun a => pure (g a)) := by
  rcases hx.either with rfl | rfl
  · exact .ok (hx.only rfl)
  · exact .missing fun h => by cases hx.comes h

theorem gives (hx : Comes p q a x) (hp : p) : Gives (· = a) x := ⟨a, hx.comes hp, rfl⟩

theorem ensures (hx : Comes p q a x) : Ensures (fun b => b = a ∧ q) x := fun b hb => by
  rcases hx.either with h | h
  · exact ⟨Except.ok.inj (hb.symm.trans h), hx.only h⟩
  · cases hb.symm.trans h

end Comes

/-! ### Intact signatures -/

mutual
/-- The signature has its parts, except for those that may be left out. -/
def Sign.Intact : Sign → Prop
  | .missing | .name _ => True
  | .func f => f.Intact
  | .tuple t => t.Intact
  | .union _ cases => Sign.AllIntact cases
/-- No case of a union is left out. -/
def Sign.AllIntact : List Sign → Prop
  | [] => True
  | s :: ss => s ≠ .missing ∧ s.Intact ∧ Sign.AllIntact ss
def FuncSign.Intact : FuncSign → Prop
  | ⟨_, none, codomain⟩ => codomain.Intact
  | ⟨_, some domain, codomain⟩ => domain.Intact ∧ codomain.Intact
def TupleSign.Intact : TupleSign → Prop
  | ⟨_, _, elems⟩ => SignElem.AllIntact elems
def SignElem.Intact : SignElem → Prop
  | ⟨_, _, _, sign⟩ => sign.Intact
def SignElem.AllIntact : List (Option SignElem) → Prop
  | [] => True
  | none :: _ => False
  | some e :: es => e.Intact ∧ SignElem.AllIntact es
end

/-! ### Type names -/

mutual
def Sign.typeNames : Sign → List TypeName
  | .missing => []
  | .name n => [n]
  | .func f => f.typeNames
  | .tuple t => t.typeNames
  | .union _ cases => Sign.allTypeNames cases
def Sign.allTypeNames : List Sign → List TypeName
  | [] => []
  | s :: ss => s.typeNames ++ Sign.allTypeNames ss
def FuncSign.typeNames : FuncSign → List TypeName
  | ⟨_, none, codomain⟩ => codomain.typeNames
  | ⟨_, some domain, codomain⟩ => domain.typeNames ++ codomain.typeNames
def TupleSign.typeNames : TupleSign → List TypeName
  | ⟨_, _, elems⟩ => SignElem.allTypeNames elems
def SignElem.typeNames : SignElem → List TypeName
  | ⟨_, _, _, sign⟩ => sign.typeNames
def SignElem.allTypeNames : List (Option SignElem) → List TypeName
  | [] => []
  | none :: es => SignElem.allTypeNames es
  | some e :: es => e.typeNames ++ SignElem.allTypeNames es
end

mutual
def Sign.mapNames (h : TypeName → TypeName) : Sign → Sign
  | .missing => .missing
  | .name n => .name (h n)
  | .func f => .func (f.mapNames h)
  | .tuple t => .tuple (t.mapNames h)
  | .union token cases => .union token (Sign.mapAllNames h cases)
def Sign.mapAllNames (h : TypeName → TypeName) : List Sign → List Sign
  | [] => []
  | s :: ss => s.mapNames h :: Sign.mapAllNames h ss
def FuncSign.mapNames (h : TypeName → TypeName) : FuncSign → FuncSign
  | ⟨token, none, codomain⟩ => ⟨token, none, codomain.mapNames h⟩
  | ⟨token, some domain, codomain⟩ => ⟨token, some (domain.mapNames h), codomain.mapNames h⟩
def TupleSign.mapNames (h : TypeName → TypeName) : TupleSign → TupleSign
  | ⟨token, label, elems⟩ => ⟨token, label, SignElem.mapAllNames h elems⟩
def SignElem.mapNames (h : TypeName → TypeName) : SignElem → SignElem
  | ⟨token, label, name, sign⟩ => ⟨token, label, name, sign.mapNames h⟩
def SignElem.mapAllNames (h : TypeName → TypeName) : List (Option SignElem) → List (Option SignElem)
  | [] => []
  | none :: es => none :: SignElem.mapAllNames h es
  | some e :: es => some (e.mapNames h) :: SignElem.mapAllNames h es
end

namespace TypeName

def inside (i : ScopeId) (n : TypeName) : TypeName := { n with scope := i }

def blank (n : TypeName) : TypeName := { token := n.token, name := n.name }

/-- The name without the type that it was found to stand for. -/
def unread (n : TypeName) : TypeName := { n with metatype := .absent }

end TypeName

abbrev Sign.inside (i : ScopeId) (s : Sign) : Sign := s.mapNames (TypeName.inside i)

abbrev FuncSign.inside (i : ScopeId) (f : FuncSign) : FuncSign := f.mapNames (TypeName.inside i)

/-- The signature without the types that its names were found to stand for. -/
abbrev Sign.unread (s : Sign) : Sign := s.mapNames TypeName.unread

abbrev FuncSign.unread (f : FuncSign) : FuncSign := f.mapNames TypeName.unread

abbrev TupleSign.unread (t : TupleSign) : TupleSign := t.mapNames TypeName.unread

theorem Sign.mapNames_eq_missing (s : Sign) : s.mapNames h = .missing ↔ s = .missing := by
  cases s <;> simp [Sign.mapNames]

mutual
theorem Sign.typeNames_mapNames : ∀ s : Sign, (s.mapNames h).typeNames = s.typeNames.map h
  | .missing => rfl
  | .name _ => rfl
  | .func f => f.typeNames_mapNames
  | .tuple t => t.typeNames_mapNames
  | .union _ cases => Sign.allTypeNames_mapAllNames cases
theorem Sign.allTypeNames_mapAllNames :
    ∀ ss : List Sign, Sign.allTypeNames (Sign.mapAllNames h ss) = (Sign.allTypeNames ss).map h
  | [] => rfl
  | s :: ss => by
    simp only [Sign.mapAllNames, Sign.allTypeNames, map_append, s.typeNames_mapNames, Sign.allTypeNames_mapAllNames ss]
theorem FuncSign.typeNames_mapNames : ∀ f : FuncSign, (f.mapNames h).typeNames = f.typeNames.map h
  | ⟨_, none, codomain⟩ => codomain.typeNames_mapNames
  | ⟨_, some domain, codomain⟩ => by
    simp only [FuncSign.mapNames, FuncSign.typeNames, map_append, domain.typeNames_mapNames,
      codomain.typeNames_mapNames]
theorem TupleSign.typeNames_mapNames : ∀ t : TupleSign, (t.mapNames h).typeNames = t.typeNames.map h
  | ⟨_, _, elems⟩ => SignElem.allTypeNames_mapAllNames elems
theorem SignElem.allTypeNames_mapAllNames : ∀ es : List (Option SignElem),
    SignElem.allTypeNames (SignElem.mapAllNames h es) = (SignElem.allTypeNames es).map h
  | [] => rfl
  | none :: es => SignElem.allTypeNames_mapAllNames es
  | some ⟨_, _, _, sign⟩ :: es => by
    simp only [SignElem.mapAllNames, SignElem.mapNames, SignElem.allTypeNames, SignElem.typeNames, map_append,
      sign.typeNames_mapNames, SignElem.allTypeNames_mapAllNames es]
end

theorem Sign.scope_inside {s : Sign} {n : TypeName} (hn : n ∈ (s.inside i).typeNames) : n.scope = i := by
  rw [s.typeNames_mapNames] at hn
  obtain ⟨n, -, rfl⟩ := mem_map.mp hn
  rfl

theorem FuncSign.scope_inside {f : FuncSign} {n : TypeName} (hn : n ∈ (f.inside i).typeNames) : n.scope = i := by
  rw [f.typeNames_mapNames] at hn
  obtain ⟨n, -, rfl⟩ := mem_map.mp hn
  rfl

mutual
theorem Sign.mapNames_mapNames {k : TypeName → TypeName} : ∀ s : Sign, (s.mapNames h).mapNames k = s.mapNames (k ∘ h)
  | .missing => rfl
  | .name _ => rfl
  | .func f => congrArg Sign.func f.mapNames_mapNames
  | .tuple t => congrArg Sign.tuple t.mapNames_mapNames
  | .union token cases => congrArg (Sign.union token) (Sign.mapAllNames_mapAllNames cases)
theorem Sign.mapAllNames_mapAllNames {k : TypeName → TypeName} : ∀ ss : List Sign,
    Sign.mapAllNames k (Sign.mapAllNames h ss) = Sign.mapAllNames (k ∘ h) ss
  | [] => rfl
  | s :: ss => by simp only [Sign.mapAllNames, s.mapNames_mapNames, Sign.mapAllNames_mapAllNames ss]
theorem FuncSign.mapNames_mapNames {k : TypeName → TypeName} :
    ∀ f : FuncSign, (f.mapNames h).mapNames k = f.mapNames (k ∘ h)
  | ⟨_, none, codomain⟩ => by simp only [FuncSign.mapNames, codomain.mapNames_mapNames]
  | ⟨_, some domain, codomain⟩ => by simp only [FuncSign.mapNames, domain.mapNames_mapNames, codomain.mapNames_mapNames]
theorem TupleSign.mapNames_mapNames {k : TypeName → TypeName} :
    ∀ t : TupleSign, (t.mapNames h).mapNames k = t.mapNames (k ∘ h)
  | ⟨_, _, elems⟩ => by simp only [TupleSign.mapNames, SignElem.mapAllNames_mapAllNames elems]
theorem SignElem.mapAllNames_mapAllNames {k : TypeName → TypeName} : ∀ es : List (Option SignElem),
    SignElem.mapAllNames k (SignElem.mapAllNames h es) = SignElem.mapAllNames (k ∘ h) es
  | [] => rfl
  | none :: es => congrArg (none :: ·) (SignElem.mapAllNames_mapAllNames es)
  | some ⟨_, _, _, sign⟩ :: es => by
    simp only [SignElem.mapAllNames, SignElem.mapNames, sign.mapNames_mapNames, SignElem.mapAllNames_mapAllNames es]
end

mutual
theorem Sign.intact_mapNames : ∀ s : Sign, (s.mapNames h).Intact ↔ s.Intact
  | .missing => .rfl
  | .name _ => .rfl
  | .func f => f.intact_mapNames
  | .tuple t => t.intact_mapNames
  | .union _ cases => Sign.allIntact_mapAllNames cases
theorem Sign.allIntact_mapAllNames : ∀ ss : List Sign, Sign.AllIntact (Sign.mapAllNames h ss) ↔ Sign.AllIntact ss
  | [] => .rfl
  | s :: ss => and_congr (not_congr s.mapNames_eq_missing) (and_congr s.intact_mapNames (Sign.allIntact_mapAllNames ss))
theorem FuncSign.intact_mapNames : ∀ f : FuncSign, (f.mapNames h).Intact ↔ f.Intact
  | ⟨_, none, codomain⟩ => codomain.intact_mapNames
  | ⟨_, some domain, codomain⟩ => and_congr domain.intact_mapNames codomain.intact_mapNames
theorem TupleSign.intact_mapNames : ∀ t : TupleSign, (t.mapNames h).Intact ↔ t.Intact
  | ⟨_, _, elems⟩ => SignElem.allIntact_mapAllNames elems
theorem SignElem.allIntact_mapAllNames : ∀ es : List (Option SignElem), SignElem.AllIntact (SignElem.mapAllNames h es) ↔
    SignElem.AllIntact es
  | [] => .rfl
  | none :: _ => .rfl
  | some ⟨_, _, _, sign⟩ :: es => and_congr sign.intact_mapNames (SignElem.allIntact_mapAllNames es)
end

/-! ### Binding -/

mutual
theorem Sign.inScope_comes : ∀ s : Sign, Comes s.Intact s.Intact (s.inside i) (s.inScope i)
  | .missing => .ok trivial
  | .name _ => .ok trivial
  | .func f => f.inScope_comes.map Sign.func
  | .tuple t => t.inScope_comes.map Sign.tuple
  | .union token cases => (Sign.inScopeCases_comes cases).map (Sign.union token)
theorem Sign.inScopeCases_comes : ∀ ss : List Sign,
    Comes (Sign.AllIntact ss) (Sign.AllIntact ss) (Sign.mapAllNames (TypeName.inside i) ss) (Sign.inScopeCases i ss)
  | [] => .ok trivial
  | s :: ss => by
    have hcons (hne : s ≠ .missing) :
        Comes (Sign.AllIntact (s :: ss)) (Sign.AllIntact (s :: ss)) (Sign.mapAllNames (TypeName.inside i) (s :: ss))
        (do return (← s.inScope i) :: (← Sign.inScopeCases i ss)) :=
      (s.inScope_comes.bind ((Sign.inScopeCases_comes ss).map (s.inside i :: ·))).imp And.right fun h => ⟨hne, h⟩
    cases s with
    | missing => exact .missing fun h => h.1 rfl
    | _ => exact hcons (by simp)
theorem FuncSign.inScope_comes : ∀ f : FuncSign, Comes f.Intact f.Intact (f.inside i) (f.inScope i)
  | ⟨token, none, codomain⟩ => codomain.inScope_comes.map (FuncSign.mk token none)
  | ⟨token, some domain, codomain⟩ =>
    domain.inScope_comes.bind
      (codomain.inScope_comes.map (FuncSign.mk token (some (domain.mapNames (TypeName.inside i)))))
theorem TupleSign.inScope_comes :
    ∀ t : TupleSign, Comes t.Intact t.Intact (t.mapNames (TypeName.inside i)) (t.inScope i)
  | ⟨token, label, elems⟩ => (SignElem.inScopeAll_comes elems).map (TupleSign.mk token label)
theorem SignElem.inScope_comes : ∀ e : SignElem, Comes e.Intact e.Intact (e.mapNames (TypeName.inside i)) (e.inScope i)
  | ⟨token, label, name, sign⟩ => sign.inScope_comes.map (SignElem.mk token label name)
theorem SignElem.inScopeAll_comes : ∀ es : List (Option SignElem),
    Comes (SignElem.AllIntact es) (SignElem.AllIntact es) (SignElem.mapAllNames (TypeName.inside i) es)
    (SignElem.inScopeAll i es)
  | [] => .ok trivial
  | none :: _ => .missing id
  | some e :: es =>
    e.inScope_comes.bind ((SignElem.inScopeAll_comes es).map (some (e.mapNames (TypeName.inside i)) :: ·))
end

/-! ### Copies -/

mutual
theorem Sign.blank_comes : ∀ s : Sign, Comes s.Intact True (s.mapNames TypeName.blank) s.blank
  | .missing => .ok trivial
  | .name _ => .ok trivial
  | .func f => f.blank_comes.map Sign.func
  | .tuple t => t.blank_comes.map Sign.tuple
  | .union token cases => (Sign.blankAll_comes cases).map (Sign.union token)
theorem Sign.blankAll_comes :
    ∀ ss : List Sign, Comes (Sign.AllIntact ss) True (Sign.mapAllNames TypeName.blank ss) (Sign.blankAll ss)
  | [] => .ok trivial
  | s :: ss => (s.blank_comes.bind ((Sign.blankAll_comes ss).map (s.mapNames TypeName.blank :: ·))).imp And.right
    fun _ => trivial
theorem FuncSign.blank_comes : ∀ f : FuncSign, Comes f.Intact True (f.mapNames TypeName.blank) f.blank
  | ⟨token, none, codomain⟩ => codomain.blank_comes.map (FuncSign.mk token none)
  | ⟨token, some domain, codomain⟩ =>
    (domain.blank_comes.bind (codomain.blank_comes.map (FuncSign.mk token (some (domain.mapNames TypeName.blank))))).imp
      id fun _ => trivial
theorem TupleSign.blank_comes : ∀ t : TupleSign, Comes t.Intact True (t.mapNames TypeName.blank) t.blank
  | ⟨token, label, elems⟩ => (SignElem.blankAll_comes elems).map (TupleSign.mk token label)
theorem SignElem.blank_comes : ∀ e : SignElem, Comes e.Intact True (e.mapNames TypeName.blank) e.blank
  | ⟨token, label, name, sign⟩ => sign.blank_comes.map (SignElem.mk token label name)
theorem SignElem.blankAll_comes : ∀ es : List (Option SignElem),
    Comes (SignElem.AllIntact es) True (SignElem.mapAllNames TypeName.blank es) (SignElem.blankAll es)
  | [] => .ok trivial
  | none :: _ => .missing id
  | some e :: es => (e.blank_comes.bind ((SignElem.blankAll_comes es).map (some (e.mapNames TypeName.blank) :: ·))).imp
    id fun _ => trivial
end

mutual
theorem Sign.blank_mapNames (hh : ∀ n, (h n).blank = n.blank) : ∀ s : Sign, (s.mapNames h).blank = s.blank
  | .missing => rfl
  | .name n => congrArg (fun n => Except.ok (Sign.name n)) (hh n)
  | .func f => by simp only [Sign.mapNames, Sign.blank, f.blank_mapNames hh]
  | .tuple t => by simp only [Sign.mapNames, Sign.blank, t.blank_mapNames hh]
  | .union _ cases => by simp only [Sign.mapNames, Sign.blank, Sign.blankAll_mapAllNames hh cases]
theorem Sign.blankAll_mapAllNames (hh : ∀ n, (h n).blank = n.blank) :
    ∀ ss : List Sign, Sign.blankAll (Sign.mapAllNames h ss) = Sign.blankAll ss
  | [] => rfl
  | s :: ss => by simp only [Sign.mapAllNames, Sign.blankAll, s.blank_mapNames hh, Sign.blankAll_mapAllNames hh ss]
theorem FuncSign.blank_mapNames (hh : ∀ n, (h n).blank = n.blank) : ∀ f : FuncSign, (f.mapNames h).blank = f.blank
  | ⟨_, none, codomain⟩ => by simp only [FuncSign.mapNames, FuncSign.blank, codomain.blank_mapNames hh]
  | ⟨_, some domain, codomain⟩ =>
    by simp only [FuncSign.mapNames, FuncSign.blank, domain.blank_mapNames hh, codomain.blank_mapNames hh]
theorem TupleSign.blank_mapNames (hh : ∀ n, (h n).blank = n.blank) : ∀ t : TupleSign, (t.mapNames h).blank = t.blank
  | ⟨_, _, elems⟩ => by simp only [TupleSign.mapNames, TupleSign.blank, SignElem.blankAll_mapAllNames hh elems]
theorem SignElem.blankAll_mapAllNames (hh : ∀ n, (h n).blank = n.blank) : ∀ es : List (Option SignElem),
    SignElem.blankAll (SignElem.mapAllNames h es) = SignElem.blankAll es
  | [] => rfl
  | none :: _ => rfl
  | some ⟨_, _, _, sign⟩ :: es => by
    simp only [SignElem.mapAllNames, SignElem.mapNames, SignElem.blankAll, SignElem.blank, sign.blank_mapNames hh,
      SignElem.blankAll_mapAllNames hh es]
end

end TypeInference
