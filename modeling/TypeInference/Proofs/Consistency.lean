import Mathlib.Data.List.Perm.Subperm
import TypeInference.Proofs.Tables
import TypeInference.Symbol.Operation

/-! # The table is consistent after all operations

A table holds its declarations three times: in the array of its symbols, in the lists of each scope by name, and in the
order of the names of each scope. The three agree after every sequence of operations on an empty table, whether the
operations were carried out or stopped half way (`operations_keep_consistency`). The operations in place do what the
functions on tables do (`run_declare`, `run_copyScope`); what is kept is `Regular`, and `Regular.consistent` reads the
agreement off it. -/

namespace TypeInference

open SymbolTable
open List

variable {n : Nat} {op : Operation} {sc src s : Scope} {dst : ScopeId}

/-! ### The names of a scope -/

/-- The names of a scope stand in the order of their first symbols, and all its symbols are below the bound. -/
structure Scope.Tidy (s : Scope) (bound : Nat) : Prop where
  keys : (s.names.map Prod.fst).Nodup
  distinct : s.ordered.Nodup
  mem_ordered : ∀ name, name ∈ s.ordered ↔ s.symbolsOf name ≠ []
  first : s.ordered.Pairwise fun a b => ∃ x ∈ s.symbolsOf a, ∀ y ∈ s.symbolsOf b, x < y
  below : ∀ name, ∀ x ∈ s.symbolsOf name, x < bound

namespace Scope.Tidy

variable {s : Scope} {bound : Nat} {name : String}

theorem keys_addName (id : SymbolId) (names : List (String × List SymbolId)) :
    (addName name id names).map Prod.fst =
      if name ∈ names.map Prod.fst then names.map Prod.fst else names.map Prod.fst ++ [name] := by
  induction names with
  | nil => rfl
  | cons entry names ih =>
    obtain ⟨first, ids⟩ := entry
    by_cases hfirst : first = name
    · simp [addName, hfirst]
    · have hne : name ≠ first := fun h => hfirst h.symm
      simp only [addName, if_neg hfirst, map_cons, ih, mem_cons, hne, false_or]
      split <;> rfl

theorem add (h : s.Tidy bound) (name : String) : (s.add name bound).Tidy (bound + 1) where
  keys := by
    change ((addName name bound s.names).map Prod.fst).Nodup
    rw [keys_addName]
    split
    · exact h.keys
    · next hnew =>
        exact nodup_append.mpr ⟨h.keys, nodup_singleton name, by simpa using fun x hx => ne_of_mem_of_not_mem hx hnew⟩
  distinct := by
    change (s.orderedWith name).Nodup
    unfold orderedWith
    split
    · next hempty =>
      have hnew : name ∉ s.ordered := fun hmem => (h.mem_ordered name).mp hmem (isEmpty_iff.mp hempty)
      exact nodup_append.mpr ⟨h.distinct, nodup_singleton name, by simpa using fun x hx => ne_of_mem_of_not_mem hx hnew⟩
    · exact h.distinct
  mem_ordered other := by
    change other ∈ s.orderedWith name ↔ _
    rw [symbolsOf_add]
    unfold orderedWith
    by_cases hother : other = name
    · subst hother
      by_cases hempty : (s.symbolsOf other).isEmpty
      · simp [hempty]
      · have hmem := (h.mem_ordered other).mpr fun h => hempty (isEmpty_iff.mpr h)
        simp [hempty, hmem]
    · rw [if_neg hother, ← h.mem_ordered]
      split
      · simp [hother]
      · rfl
  first := by
    have hgrown : s.ordered.Pairwise fun a b => ∃ x ∈ (s.add name bound).symbolsOf a,
        ∀ y ∈ (s.add name bound).symbolsOf b, x < y := by
      refine h.first.imp fun {a b} hab => ?_
      obtain ⟨x, hx, hlt⟩ := hab
      refine ⟨x, ?_, fun y hy => ?_⟩
      · rw [symbolsOf_add]
        split
        · next ha => exact mem_append_left _ (ha ▸ hx)
        · exact hx
      · rw [symbolsOf_add] at hy
        split at hy
        · next hb =>
          rcases mem_append.mp hy with hy | hy
          · exact hlt y (hb ▸ hy)
          · rw [mem_singleton.mp hy]
            exact h.below a x hx
        · exact hlt y hy
    change (s.orderedWith name).Pairwise _
    unfold orderedWith
    split
    · next hempty =>
      refine pairwise_append.mpr ⟨hgrown, pairwise_singleton _ _, fun a ha b hb => ?_⟩
      obtain rfl := mem_singleton.mp hb
      have hne : a ≠ b := fun heq => (h.mem_ordered a).mp ha (heq ▸ isEmpty_iff.mp hempty)
      obtain ⟨x, hx⟩ := exists_mem_of_ne_nil _ ((h.mem_ordered a).mp ha)
      refine ⟨x, by rwa [symbolsOf_add, if_neg hne], fun y hy => ?_⟩
      rw [symbolsOf_add, if_pos rfl, isEmpty_iff.mp hempty] at hy
      obtain rfl : y = bound := by simpa using hy
      exact h.below a x hx
    · exact hgrown
  below other x hx := by
    have hlt : (bound : Int) < (bound + 1 : Nat) := by omega
    rw [symbolsOf_add] at hx
    split at hx
    · rcases mem_append.mp hx with hx | hx
      · exact Int.lt_trans (h.below name x hx) hlt
      · rw [mem_singleton.mp hx]
        exact hlt
    · exact Int.lt_trans (h.below other x hx) hlt

theorem mono (h : s.Tidy bound) {larger : Nat} (hle : bound ≤ larger) : s.Tidy larger :=
  ⟨h.keys, h.distinct, h.mem_ordered, h.first, fun name x hx =>
    Int.lt_of_lt_of_le (h.below name x hx) (by exact_mod_cast hle)⟩

theorem empty (id : ScopeId) (label : String) (kind : ScopeKind) (parent : ScopeId) (module : String) (bound : Nat) :
    Tidy { id := id, name := label, kind := kind, parent := parent, module := module } bound where
  keys := nodup_nil
  distinct := nodup_nil
  mem_ordered name := by simp [symbolsOf]
  first := .nil
  below name x hx := by cases hx

end Scope.Tidy

namespace SymbolTable

variable {t t' t1 : SymbolTable} {i : ScopeId} {name : String} {type : Ty} {overloadable : Bool}
  {id : SymbolId} {α β : Type}

/-! ### Consistent tables -/

/-- The symbols, the lists of the scopes by name and the orders of the names agree. -/
structure Consistent (t : SymbolTable) : Prop where
  scopeIds : ∀ {n : Nat} {sc : Scope}, t.scopes[n]? = some sc → sc.id = n
  symbolIds : ∀ {n : Nat} {s : Symbol}, t.symbols[n]? = some s → s.id = n
  keys : ∀ {n : Nat} {sc : Scope}, t.scopes[n]? = some sc → (sc.names.map Prod.fst).Nodup
  /-- A symbol is listed once under its own name in its own scope. -/
  listed : ∀ {n : Nat} {s : Symbol}, t.symbols[n]? = some s →
    ∃ (i : Nat) (sc : Scope), s.scope = i ∧ t.scopes[i]? = some sc ∧ (sc.symbolsOf s.name).count (n : Int) = 1
  /-- What is listed is a symbol of that name and scope. -/
  proper : ∀ {i : Nat} {sc : Scope}, t.scopes[i]? = some sc → ∀ (name : String), ∀ id ∈ sc.symbolsOf name,
    ∃ (n : Nat) (s : Symbol), id = n ∧ t.symbols[n]? = some s ∧ s.name = name ∧ s.scope = i
  distinct : ∀ {n : Nat} {sc : Scope}, t.scopes[n]? = some sc → sc.ordered.Nodup
  mem_ordered : ∀ {n : Nat} {sc : Scope}, t.scopes[n]? = some sc → ∀ name, name ∈ sc.ordered ↔ sc.symbolsOf name ≠ []
  /-- Of two names the one that was declared first stands first. -/
  first : ∀ {n : Nat} {sc : Scope}, t.scopes[n]? = some sc →
    sc.ordered.Pairwise fun a b => ∃ x ∈ sc.symbolsOf a, ∀ y ∈ sc.symbolsOf b, x < y
  overloads : ∀ {n : Nat} {sc : Scope}, t.scopes[n]? = some sc → ∀ name, 2 ≤ (sc.symbolsOf name).length →
    ∀ id ∈ sc.symbolsOf name, ∃ s, t.symbol id = .ok s ∧ s.overloadable = true

/-- What every operation keeps. -/
structure Regular (t : SymbolTable) : Prop where
  sound : t.Sound
  nested : t.Nested
  scopeIds : ∀ {n : Nat} {sc : Scope}, t.scopes[n]? = some sc → sc.id = n
  symbolIds : ∀ {n : Nat} {s : Symbol}, t.symbols[n]? = some s → s.id = n
  tidy : ∀ {n : Nat} {sc : Scope}, t.scopes[n]? = some sc → sc.Tidy t.symbols.size

theorem Sound.overloadable_of_two (h : t.Sound) (hsc : t.scopes[n]? = some sc) {x y : SymbolId}
    (hx : x ∈ sc.symbolsOf name) (hy : y ∈ sc.symbolsOf name) (hne : x ≠ y) :
    ∃ s s', t.symbol x = .ok s ∧ t.symbol y = .ok s' ∧ s.overloadable = true ∧ s'.overloadable = true := by
  obtain ⟨a, s, rfl, ha, hname, hscope⟩ := (h.listed hsc name x).mp hx
  obtain ⟨b, s', rfl, hb, hname', hscope'⟩ := (h.listed hsc name y).mp hy
  have hab : a ≠ b := fun hab => hne (congrArg Nat.cast hab)
  exact ⟨s, s', symbol_eq_ok.mpr ⟨a, rfl, ha⟩, symbol_eq_ok.mpr ⟨b, rfl, hb⟩,
    h.overloads ha hb hab (hscope.trans hscope'.symm) (hname.trans hname'.symm)⟩

namespace Regular

theorem consistent (h : t.Regular) : t.Consistent where
  scopeIds := h.scopeIds
  symbolIds := h.symbolIds
  keys hsc := (h.tidy hsc).keys
  listed {n s} hs := by
    obtain ⟨i, hi, hlt⟩ := h.sound.scope hs
    have hsc : t.scopes[i]? = some t.scopes[i] := Array.getElem?_eq_getElem hlt
    have hmem := (h.sound.listed hsc s.name n).mpr ⟨n, s, rfl, hs, rfl, hi⟩
    exact ⟨i, _, hi, hsc, count_eq_one_of_mem (h.sound.nodup hsc s.name) hmem⟩
  proper hsc name id := (h.sound.listed hsc name id).mp
  distinct hsc := (h.tidy hsc).distinct
  mem_ordered hsc := (h.tidy hsc).mem_ordered
  first hsc := (h.tidy hsc).first
  overloads {n sc} hsc name htwo x hx := by
    obtain ⟨y, hy, hne⟩ : ∃ y ∈ sc.symbolsOf name, x ≠ y := by
      by_contra hall
      push Not at hall
      have hsub : sc.symbolsOf name ⊆ [x] := fun y hy => mem_singleton.mpr (hall y hy).symm
      have hle := ((h.sound.nodup hsc name).subperm hsub).length_le
      rw [length_singleton] at hle
      omega
    obtain ⟨s, -, hs, -, hover, -⟩ := h.sound.overloadable_of_two hsc hx hy hne
    exact ⟨s, hs, hover⟩

theorem empty : Regular {} where
  sound := sound_empty
  nested := ⟨fun h => by simp at h⟩
  scopeIds h := by simp at h
  symbolIds h := by simp at h
  tidy h := by simp at h

theorem addScope (h : t.Regular) (label : String) (kind : ScopeKind) {parent : ScopeId} (module : String)
    (hparent : parent = noScope ∨ ∃ n : Nat, parent = n ∧ n < t.scopes.size) :
    (t.addScope label kind parent module).1.Regular where
  sound := h.sound.addScope label kind parent module
  nested.parent {n sc} hsc := by
    rcases Array.getElem?_push.symm.trans hsc |> ite_eq_iff.mp with ⟨rfl, hnew⟩ | ⟨-, hsc⟩
    · cases hnew
      exact hparent
    · exact h.nested.parent hsc
  scopeIds {n sc} hsc := by
    rcases Array.getElem?_push.symm.trans hsc |> ite_eq_iff.mp with ⟨rfl, hnew⟩ | ⟨-, hsc⟩
    · cases hnew
      rfl
    · exact h.scopeIds hsc
  symbolIds := h.symbolIds
  tidy {n sc} hsc := by
    rcases Array.getElem?_push.symm.trans hsc |> ite_eq_iff.mp with ⟨-, hnew⟩ | ⟨-, hsc⟩
    · cases hnew
      exact .empty _ label kind parent module _
    · exact h.tidy hsc

theorem declare (h : t.Regular) (hdeclare : t.declare i name type overloadable = .ok (t', id)) : t'.Regular := by
  have hsound := h.sound.declare hdeclare
  obtain ⟨-, n, sc, rfl, hsc, rfl⟩ := eq_declared hdeclare
  -- the scopes are those from before, up to the names of one of them
  have hscopes : ∀ {k : Nat} {sc' : Scope}, (t.declared n sc name type overloadable).scopes[k]? = some sc' →
      (n = k ∧ sc' = sc.add name t.symbols.size) ∨ t.scopes[k]? = some sc' := by
    intro k sc' hk
    rw [getElem?_scopes_declared hsc] at hk
    split at hk
    · next hnk => exact .inl ⟨hnk, (Option.some.inj hk).symm⟩
    · exact .inr hk
  refine ⟨hsound, ⟨fun {k sc'} hk => ?_⟩, fun {k sc'} hk => ?_, fun {k s} hk => ?_, fun {k sc'} hk => ?_⟩
  · rcases hscopes hk with ⟨rfl, rfl⟩ | hk
    · have hparent := h.nested.parent hsc
      exact hparent
    · exact h.nested.parent hk
  · rcases hscopes hk with ⟨rfl, rfl⟩ | hk
    · have hid := h.scopeIds hsc
      exact hid
    · exact h.scopeIds hk
  · rcases mem_symbols_declared hk with ⟨rfl, rfl⟩ | hk
    · rfl
    · exact h.symbolIds hk
  · have hsize : (t.declared n sc name type overloadable).symbols.size = t.symbols.size + 1 := Array.size_push _
    rw [hsize]
    rcases hscopes hk with ⟨rfl, rfl⟩ | hk
    · exact (h.tidy hsc).add name
    · exact (h.tidy hk).mono (Nat.le_succ _)

theorem setType (h : t.Regular) (hset : t.setType id type = .ok t') : t'.Regular := by
  obtain ⟨s0, hs0, hset⟩ := bind_eq_ok.mp hset
  obtain ⟨k, rfl, hk⟩ := symbol_eq_ok.mp hs0
  cases hset
  -- the symbols are those from before, up to the type of one of them
  have hsymbols : ∀ {n : Nat} {s : Symbol}, (t.symbols.setIfInBounds k { s0 with type := type })[n]? = some s →
      ∃ s', t.symbols[n]? = some s' ∧ s.id = s'.id ∧ s.name = s'.name ∧ s.scope = s'.scope ∧
      s.overloadable = s'.overloadable := by
    intro n s hn
    rw [Array.getElem?_setIfInBounds] at hn
    split at hn
    · next hkn =>
      subst hkn
      rw [if_pos (Array.getElem?_eq_some_iff.mp hk).1] at hn
      cases hn
      exact ⟨s0, hk, rfl, rfl, rfl, rfl⟩
    · exact ⟨s, hn, rfl, rfl, rfl, rfl⟩
  have hkept : ∀ {n : Nat} {s : Symbol}, t.symbols[n]? = some s →
      ∃ s', (t.symbols.setIfInBounds k { s0 with type := type })[n]? = some s' ∧ s'.name = s.name ∧
      s'.scope = s.scope := by
    intro n s hn
    rw [Array.getElem?_setIfInBounds]
    split
    · next hkn =>
      subst hkn
      obtain rfl := Option.some.inj (hk.symm.trans hn)
      exact ⟨_, if_pos (Array.getElem?_eq_some_iff.mp hk).1, rfl, rfl⟩
    · exact ⟨s, hn, rfl, rfl⟩
  refine ⟨⟨fun {n s} hn => ?_, fun {i sc} hsc other x => ?_, h.sound.nodup,
    fun {a b s s'} ha hb hne hscope hname => ?_⟩, ⟨h.nested.parent⟩, h.scopeIds, fun {n s} hn => ?_,
    fun {n sc} hsc => ?_⟩
  · obtain ⟨s', hs', -, -, hscope, -⟩ := hsymbols hn
    exact hscope ▸ h.sound.scope hs'
  · rw [h.sound.listed hsc other x]
    constructor
    · rintro ⟨n, s, rfl, hn, rfl, hscope⟩
      obtain ⟨s', hs', hname', hscope'⟩ := hkept hn
      exact ⟨n, s', rfl, hs', hname', hscope'.trans hscope⟩
    · rintro ⟨n, s, rfl, hn, rfl, hscope⟩
      obtain ⟨s', hs', -, hname', hscope', -⟩ := hsymbols hn
      exact ⟨n, s', rfl, hs', hname'.symm, hscope'.symm.trans hscope⟩
  · obtain ⟨r, hr, -, hname1, hscope1, hover1⟩ := hsymbols ha
    obtain ⟨r', hr', -, hname2, hscope2, hover2⟩ := hsymbols hb
    rw [hover1, hover2]
    exact h.sound.overloads hr hr' hne (by rw [← hscope1, ← hscope2, hscope]) (by rw [← hname1, ← hname2, hname])
  · obtain ⟨s', hs', hid, -, -, -⟩ := hsymbols hn
    exact hid.trans (h.symbolIds hs')
  · exact (h.tidy hsc).mono (Nat.le_of_eq (Array.size_setIfInBounds).symm)

end Regular

/-! ### Copies -/

/-- The numbers are those of symbols which can share a name. -/
def Overloads (t : SymbolTable) (ids : List SymbolId) (symbols : List Symbol) : Prop :=
  List.Forall₂ (fun id s => t.symbol id = .ok s) ids symbols ∧
    symbols.Pairwise fun s s' => s.overloadable = true ∧ s'.overloadable = true

theorem Sound.overloads_symbolsOf (h : t.Sound) (hsc : t.scopes[n]? = some sc) (name : String) :
    ∃ symbols, t.Overloads (sc.symbolsOf name) symbols := by
  suffices hsome : ∀ ids : List SymbolId, ids ⊆ sc.symbolsOf name → ids.Nodup →
      ∃ symbols, t.Overloads ids symbols ∧ ∀ s ∈ symbols, ∃ x ∈ ids, t.symbol x = .ok s from
    (hsome _ (List.Subset.refl _) (h.nodup hsc name)).imp fun _ => And.left
  intro ids
  induction ids with
  | nil => exact fun _ _ => ⟨[], ⟨.nil, .nil⟩, by simp⟩
  | cons x ids ih =>
    intro hsub hnodup
    obtain ⟨hx, hids⟩ := cons_subset.mp hsub
    obtain ⟨hnew, hnodup⟩ := nodup_cons.mp hnodup
    obtain ⟨symbols, ⟨hsymbols, hpairs⟩, hfrom⟩ := ih hids hnodup
    obtain ⟨a, s, rfl, ha, -, -⟩ := (h.listed hsc name x).mp hx
    have hs : t.symbol a = .ok s := symbol_eq_ok.mpr ⟨a, rfl, ha⟩
    refine ⟨s :: symbols, ⟨.cons hs hsymbols, pairwise_cons.mpr ⟨fun s' hs' => ?_, hpairs⟩⟩,
      forall_mem_cons.mpr ⟨?_, ?_⟩⟩
    · obtain ⟨y, hy, hys⟩ := hfrom s' hs'
      obtain ⟨r, r', hr, hr', hover⟩ := h.overloadable_of_two hsc hx (hids hy) fun heq => hnew (heq ▸ hy)
      rw [Except.ok.inj (hs.symm.trans hr), Except.ok.inj (hys.symm.trans hr')]
      exact hover
    · exact ⟨a, mem_cons_self, hs⟩
    · exact fun s' hs' => (hfrom s' hs').imp fun y => And.imp_left (mem_cons_of_mem _)

/-- Symbols were added to a scope, under some of the names. -/
structure Filled (t t' : SymbolTable) (dst : Nat) (names : List String) : Prop where
  regular : t'.Regular
  size : t'.scopes.size = t.scopes.size
  kept : ∀ {id : SymbolId} {s : Symbol}, t.symbol id = .ok s → t'.symbol id = .ok s
  added : ∀ {a : Nat} {s : Symbol}, t'.symbols[a]? = some s → t.symbols[a]? = some s ∨ (s.scope = dst ∧ s.name ∈ names)

namespace Filled

variable {dst : Nat} {names : List String}

theorem refl (h : t.Regular) : Filled t t dst names := ⟨h, rfl, id, .inl⟩

theorem trans (h : Filled t t1 dst names) (h' : Filled t1 t' dst names) : Filled t t' dst names where
  regular := h'.regular
  size := h'.size.trans h.size
  kept hs := h'.kept (h.kept hs)
  added hs := (h'.added hs).elim h.added .inr

theorem mono {names' : List String} (h : Filled t t' dst names) (hsub : names ⊆ names') : Filled t t' dst names' :=
  ⟨h.regular, h.size, h.kept, fun hs => (h.added hs).imp_right (And.imp_right fun hname => hsub hname)⟩

theorem overloads {ids : List SymbolId} {symbols : List Symbol} (h : Filled t t' dst names)
    (ho : t.Overloads ids symbols) : t'.Overloads ids symbols :=
  ⟨ho.1.imp fun _ _ => h.kept, ho.2⟩

theorem declared (h : t.Regular)
    (hdeclare : t.declare dst name type overloadable = .ok (t.declared dst sc name type overloadable, id)) :
    Filled t (t.declared dst sc name type overloadable) dst [name] where
  regular := h.declare hdeclare
  size := Array.size_setIfInBounds
  kept hs := by
    obtain ⟨a, rfl, ha⟩ := symbol_eq_ok.mp hs
    exact symbol_eq_ok.mpr ⟨a, rfl, symbols_declared_of_lt ha⟩
  added hs := by
    rcases mem_symbols_declared hs with ⟨-, rfl⟩ | hs
    · exact .inr ⟨rfl, mem_singleton_self name⟩
    · exact .inl hs

end Filled

/-- The overloads of a name are declared one after the other: each finds those before it overloadable. -/
theorem copySymbols_fills {dst : Nat} :
    ∀ {t : SymbolTable} (renumbering : Renumbering) {ids : List SymbolId} {symbols : List Symbol},
    t.Regular → t.Overloads ids symbols → (∀ s ∈ symbols, t.Free dst name s.overloadable) →
    ∃ t' renumbering', copySymbols dst name (t, renumbering) ids = .ok (t', renumbering') ∧ Filled t t' dst [name]
  | t, renumbering, [], _, h, _, _ => ⟨t, renumbering, rfl, .refl h⟩
  | t, renumbering, old :: rest, _, h, ⟨.cons hs hrest, hpairs⟩, hfree => by
    rename_i s symbols
    obtain ⟨hfirst, hpairs⟩ := pairwise_cons.mp hpairs
    obtain ⟨hfreeFirst, hfree⟩ := forall_mem_cons.mp hfree
    obtain ⟨n, sc, hn, hsc, hdeclare⟩ := declare_of_free h.sound hfreeFirst s.type
    obtain rfl : dst = n := Int.ofNat.inj hn
    have hfilled : Filled t (t.declared dst sc name s.type s.overloadable) dst [name] := .declared h hdeclare
    have hfree' : ∀ s' ∈ symbols, (t.declared dst sc name s.type s.overloadable).Free dst name s'.overloadable := by
      intro s' hs'
      refine ⟨hfilled.size.symm ▸ (hfree s' hs').scope, fun {a r} ha hscope hname => ?_⟩
      rcases mem_symbols_declared ha with ⟨-, rfl⟩ | ha
      · exact (hfirst s' hs').symm
      · exact (hfree s' hs').symbols ha hscope hname
    obtain ⟨t', renumbering', hcopy, hfilled'⟩ :=
      copySymbols_fills (renumbering ++ [(old, (t.symbols.size : Int))]) hfilled.regular
        (hfilled.overloads ⟨hrest, hpairs⟩) hfree'
    refine ⟨t', renumbering', ?_, hfilled.trans hfilled'⟩
    rw [copySymbols, hs, ok_bind, hdeclare]
    exact hcopy

theorem copyNames_fills {dst : Nat} : ∀ {t : SymbolTable} (renumbering : Renumbering) {names : List String},
    t.Regular → dst < t.scopes.size → names.Nodup → (∀ name, ∃ symbols, t.Overloads (src.symbolsOf name) symbols) →
    (∀ {a : Nat} {s : Symbol}, t.symbols[a]? = some s → s.scope = dst → s.name ∉ names) →
    ∃ t' renumbering', copyNames dst src (t, renumbering) names = .ok (t', renumbering') ∧ Filled t t' dst names
  | t, renumbering, [], h, _, _, _, _ => ⟨t, renumbering, rfl, .refl h⟩
  | t, renumbering, name :: rest, h, hdst, hnodup, hover, hnew => by
    obtain ⟨hname, hnodup⟩ := nodup_cons.mp hnodup
    obtain ⟨symbols, hsymbols⟩ := hover name
    have hfree : ∀ s ∈ symbols, t.Free dst name s.overloadable := fun s _ =>
      ⟨⟨dst, rfl, hdst⟩, fun ha hscope heq => absurd (heq ▸ mem_cons_self) (hnew ha hscope)⟩
    obtain ⟨t1, renumbering1, hcopy, hfilled⟩ := copySymbols_fills renumbering h hsymbols hfree
    have hnew1 : ∀ {a : Nat} {s : Symbol}, t1.symbols[a]? = some s → s.scope = dst → s.name ∉ rest := by
      intro a s ha hscope hmem
      rcases hfilled.added ha with ha | ⟨-, heq⟩
      · exact hnew ha hscope (mem_cons_of_mem name hmem)
      · exact hname (mem_singleton.mp heq ▸ hmem)
    obtain ⟨t', renumbering', hrest, hfilled'⟩ := copyNames_fills renumbering1 hfilled.regular
      (hfilled.size.symm ▸ hdst) hnodup (fun other => (hover other).imp fun _ => hfilled.overloads) hnew1
    refine ⟨t', renumbering', ?_, (hfilled.mono (by simp)).trans (hfilled'.mono (subset_cons_self name rest))⟩
    rw [copyNames, hcopy]
    exact hrest

/-- A scope can be copied into a scope: its names are different and their symbols can share them. -/
def Copyable (t : SymbolTable) (src : Scope) : Prop :=
  src.ordered.Nodup ∧ ∀ name, ∃ symbols, t.Overloads (src.symbolsOf name) symbols

theorem Regular.copyable (h : t.Regular) (hsc : t.scopes[n]? = some sc) : t.Copyable sc :=
  ⟨(h.tidy hsc).distinct, h.sound.overloads_symbolsOf hsc⟩

theorem copyChain_regular : ∀ {t : SymbolTable} (renumbering : Renumbering) {parent : ScopeId} {scopes : List Scope},
    t.Regular → (parent = noScope ∨ ∃ n : Nat, parent = n ∧ n < t.scopes.size) → (∀ src ∈ scopes, t.Copyable src) →
    ∃ t' renumbering' dst, copyChain (t, renumbering) parent scopes = .ok (t', renumbering', dst) ∧ t'.Regular
  | t, renumbering, parent, [], h, _, _ => ⟨t, renumbering, parent, rfl, h⟩
  | t, renumbering, parent, src :: rest, h, hparent, hcopyable => by
    obtain ⟨⟨hnodup, hover⟩, hrest⟩ := forall_mem_cons.mp hcopyable
    have hadded := h.addScope src.name src.kind src.module hparent
    have hsize : (t.addScope src.name src.kind parent src.module).1.scopes.size = t.scopes.size + 1 := Array.size_push _
    -- no symbol is in a scope that was not there
    have hnew : ∀ {a : Nat} {s : Symbol}, t.symbols[a]? = some s → s.scope = (t.scopes.size : Nat) →
        s.name ∉ src.ordered := by
      intro a s ha hscope
      obtain ⟨i, hi, hlt⟩ := h.sound.scope ha
      have hsame : t.scopes.size = i := Int.ofNat.inj (hscope.symm.trans hi)
      omega
    obtain ⟨t1, renumbering1, hcopy, hfilled⟩ :=
      copyNames_fills renumbering hadded (hsize ▸ Nat.lt_succ_self _) hnodup hover hnew
    have hdst : t.scopes.size < t1.scopes.size := by
      rw [hfilled.size, hsize]
      omega
    obtain ⟨t', renumbering', dst, hchain, hregular⟩ :=
      copyChain_regular renumbering1 hfilled.regular (.inr ⟨_, rfl, hdst⟩)
      fun src' hsrc' => ⟨(hrest src' hsrc').1, fun name => ((hrest src' hsrc').2 name).imp fun _ => hfilled.overloads⟩
    refine ⟨t', renumbering', dst, ?_, hregular⟩
    rw [copyChain, hchain.symm]
    exact congrArg (· >>= fun acc => copyChain acc (t.scopes.size : Int) rest) hcopy

theorem Regular.copyScope (h : t.Regular) (hi : i = noScope ∨ ∃ n : Nat, i = n ∧ n < t.scopes.size) :
    ∃ t' renumbering dst, t.copyScope i = .ok (t', renumbering, dst) ∧ t'.Regular := by
  obtain ⟨scopes, hchain, hscopes⟩ : Gives (fun scopes => ∀ s ∈ scopes, ∃ k : Nat, t.scopes[k]? = some s)
      (t.chain i) := by
    rcases hi with rfl | ⟨n, rfl, hn⟩
    · exact ⟨[], rfl, by simp⟩
    · exact h.nested.chain_gives hn
  have hcopyable : ∀ src ∈ scopes.reverse, t.Copyable src := fun src hsrc => by
    obtain ⟨k, hk⟩ := hscopes src (mem_reverse.mp hsrc)
    exact h.copyable hk
  rw [SymbolTable.copyScope, hchain, ok_bind]
  exact copyChain_regular [] h (.inl rfl) hcopyable

/-! ### Operations in place -/

theorem modify_eq_setIfInBounds {xs : Array α} {x : α} (h : xs[n]? = some x) (f : α → α) :
    xs.modify n f = xs.setIfInBounds n (f x) := by
  apply Array.ext_getElem?
  intro k
  rw [Array.getElem?_modify, Array.getElem?_setIfInBounds]
  split
  · next hk =>
    subst hk
    rw [h, if_pos (Array.getElem?_eq_some_iff.mp h).1]
    rfl
  · rfl

namespace UpdateM

variable {x : UpdateM α} {f : α → UpdateM β} {a : α} {e : Fault}

theorem run_bind : (x >>= f).run t = (ExceptT.bindCont f (x.run t).1 : StateM SymbolTable _) (x.run t).2 := rfl

theorem bind_of_ok (h : x.run t = (.ok a, t1)) : (x >>= f).run t = (f a).run t1 := by
  rw [run_bind, h]
  rfl

theorem bind_of_error (h : x.run t = (.error e, t1)) : (x >>= f).run t = (.error e, t1) := by
  rw [run_bind, h]
  rfl

theorem run_lift {x : Except Fault α} (h : x = .ok a) : (liftM x : UpdateM α).run t = (.ok a, t) := by
  rw [h]
  rfl

theorem run_changeScope (hs : t.scopes[n]? = some s) (f : Scope → Scope) :
    (changeScope n f).run t = (.ok (), { t with scopes := t.scopes.setIfInBounds n (f s) }) := by
  rw [← modify_eq_setIfInBounds hs]
  rfl

theorem run_enterSymbol (hs : t.scopes[n]? = some s) :
    (enterSymbol n name type overloadable).run t = (.ok (t.symbols.size : Int),
      { scopes := t.scopes.setIfInBounds n { s with names := Scope.addName name t.symbols.size s.names },
        symbols := t.symbols.push
          { id := t.symbols.size, name := name, type := type, overloadable := overloadable, scope := n } }) := by
  refine (bind_of_ok rfl).trans ((bind_of_ok rfl).trans ((bind_of_ok (run_changeScope ?_ _)).trans rfl))
  exact hs

theorem run_declare_new (hs : t.scopes[n]? = some s) (hnew : (s.symbolsOf name).isEmpty = true) :
    (claimName n name overloadable (s.symbolsOf name) >>= fun _ => enterSymbol n name type overloadable).run t =
      (.ok (t.symbols.size : Int), t.declared n s name type overloadable) := by
  have hclaim : (claimName n name overloadable (s.symbolsOf name)).run t =
      (.ok (), { t with scopes := t.scopes.setIfInBounds n { s with ordered := s.ordered ++ [name] } }) := by
    rw [claimName, if_pos hnew]
    exact run_changeScope hs _
  have hs' : (t.scopes.setIfInBounds n { s with ordered := s.ordered ++ [name] })[n]? =
      some { s with ordered := s.ordered ++ [name] } := by
    rw [Array.getElem?_setIfInBounds_self_of_lt (Array.getElem?_eq_some_iff.mp hs).1]
  rw [bind_of_ok hclaim, run_enterSymbol hs', declared, Scope.add, Scope.orderedWith, if_pos hnew,
    Array.setIfInBounds_setIfInBounds]

theorem run_declare_known (hs : t.scopes[n]? = some s) (hknown : (s.symbolsOf name).isEmpty = false) :
    (claimName n name overloadable (s.symbolsOf name) >>= fun _ => enterSymbol n name type overloadable).run t =
      if overloadable then
        match t.allOverloadable (s.symbolsOf name) with
        | .ok true => (.ok (t.symbols.size : Int), t.declared n s name type overloadable)
        | .ok false => (.error (.declaredOnce name n), t)
        | .error e => (.error e, t)
      else (.error (.redeclared name n), t) := by
  cases overloadable with
  | false =>
    refine bind_of_error ?_
    rw [claimName, hknown]
    rfl
  | true =>
    have hclaim : claimName n name true (s.symbolsOf name) = (do
        if ← (← get).allOverloadable (s.symbolsOf name) then return
        throw (.declaredOnce name n) : UpdateM Unit) := by
      rw [claimName, hknown]
      rfl
    have hadd : s.add name t.symbols.size = { s with names := Scope.addName name t.symbols.size s.names } := by
      rw [Scope.add, Scope.orderedWith, hknown]
      rfl
    rw [hclaim, if_pos rfl]
    cases hall : t.allOverloadable (s.symbolsOf name) with
    | error e =>
      refine bind_of_error ((bind_of_ok rfl).trans (bind_of_error ?_))
      rw [hall]
      rfl
    | ok all =>
      cases all with
      | true =>
        refine (bind_of_ok ((bind_of_ok rfl).trans ((bind_of_ok (run_lift hall)).trans rfl))).trans
          ((run_enterSymbol hs).trans ?_)
        rw [declared, hadd]
      | false => exact bind_of_error ((bind_of_ok rfl).trans ((bind_of_ok (run_lift hall)).trans rfl))

/-- A declaration in place makes the table that the declaration gives, and leaves the table alone if it stops. -/
theorem run_declare (t : SymbolTable) (i : ScopeId) (name : String) (type : Ty) (overloadable : Bool) :
    (UpdateM.declare i name type overloadable).run t =
    match t.declare i name type overloadable with
    | .ok (t', id) => (.ok id, t')
    | .error e => (.error e, t) := by
  unfold UpdateM.declare SymbolTable.declare
  cases hs : t.scope i with
  | error e =>
    refine (bind_of_ok rfl).trans ?_
    rw [hs]
    rfl
  | ok s =>
    obtain ⟨n, rfl, hn⟩ := scope_eq_ok.mp hs
    refine (bind_of_ok rfl).trans ((bind_of_ok (run_lift hs)).trans ?_)
    rw [ok_bind]
    cases hempty : (s.symbolsOf name).isEmpty with
    | true =>
      rw [run_declare_new hn hempty]
      dsimp only
      rw [hempty]
      rfl
    | false =>
      rw [run_declare_known hn hempty]
      dsimp only
      rw [hempty]
      cases overloadable with
      | false => rfl
      | true =>
        cases t.allOverloadable (s.symbolsOf name) with
        | error e => rfl
        | ok all => cases all <;> rfl

theorem run_declare_of_ok (h : t.declare i name type overloadable = .ok (t', id)) :
    (UpdateM.declare i name type overloadable).run t = (.ok id, t') := by
  rw [run_declare, h]

theorem run_setType (t : SymbolTable) (id : SymbolId) (type : Ty) : (UpdateM.setType id type).run t =
    match t.setType id type with
    | .ok t' => (.ok (), t')
    | .error e => (.error e, t) := by
  unfold UpdateM.setType SymbolTable.setType
  cases hs : t.symbol id with
  | error e =>
    refine (bind_of_ok rfl).trans ?_
    rw [hs]
    rfl
  | ok s =>
    obtain ⟨n, rfl, hn⟩ := symbol_eq_ok.mp hs
    refine (bind_of_ok rfl).trans ((bind_of_ok (run_lift hs)).trans ?_)
    rw [ok_bind]
    have hset : t.symbols.modify n (fun s => { s with type := type }) = t.symbols.setIfInBounds n
        { s with type := type } :=
      modify_eq_setIfInBounds hn _
    exact congrArg (fun symbols => ((.ok (), { t with symbols := symbols }) : Except Fault Unit × SymbolTable)) hset

theorem run_copySymbols : ∀ {t : SymbolTable} {renumbering renumbering' : Renumbering} {ids : List SymbolId},
    SymbolTable.copySymbols dst name (t, renumbering) ids = .ok (t', renumbering') →
    (UpdateM.copySymbols dst name renumbering ids).run t = (.ok renumbering', t')
  | t, renumbering, renumbering', [], h => by
    cases h
    rfl
  | t, renumbering, renumbering', old :: rest, h => by
    obtain ⟨s, hs, h⟩ := bind_eq_ok.mp h
    obtain ⟨⟨t1, new⟩, hdeclare, h⟩ := bind_eq_ok.mp h
    rw [UpdateM.copySymbols]
    exact (bind_of_ok rfl).trans ((bind_of_ok (run_lift hs)).trans
      ((bind_of_ok (run_declare_of_ok hdeclare)).trans (run_copySymbols h)))

theorem run_copyNames : ∀ {t : SymbolTable} {renumbering renumbering' : Renumbering} {names : List String},
    SymbolTable.copyNames dst src (t, renumbering) names = .ok (t', renumbering') →
    (UpdateM.copyNames dst src renumbering names).run t = (.ok renumbering', t')
  | t, renumbering, renumbering', [], h => by
    cases h
    rfl
  | t, renumbering, renumbering', name :: rest, h => by
    obtain ⟨⟨t1, renumbering1⟩, hcopy, h⟩ := bind_eq_ok.mp h
    rw [UpdateM.copyNames]
    exact (bind_of_ok (run_copySymbols hcopy)).trans (run_copyNames h)

theorem copyChain_concat (src : Scope) : ∀ (acc : SymbolTable × Renumbering) (parent : ScopeId) (scopes : List Scope),
    SymbolTable.copyChain acc parent (scopes ++ [src]) =
      SymbolTable.copyChain acc parent scopes >>= fun r => SymbolTable.copyChain (r.1, r.2.1) r.2.2 [src]
  | acc, parent, [] => rfl
  | acc, parent, s :: scopes => by
    rw [cons_append, SymbolTable.copyChain, SymbolTable.copyChain]
    dsimp only
    rw [bind_assoc]
    exact bind_congr fun acc => copyChain_concat src acc _ scopes

theorem run_copyChain :
    ∀ {fuel : Nat} {i : ScopeId} {scopes : List Scope} {t' : SymbolTable} {renumbering : Renumbering} {dst : ScopeId},
    t.chainAux fuel i = .ok scopes → SymbolTable.copyChain (t, []) noScope scopes.reverse = .ok (t', renumbering, dst) →
    (UpdateM.copyChain fuel i).run t = (.ok (renumbering, dst), t')
  | 0, i, scopes, t', renumbering, dst, hchain, _ => by cases hchain
  | fuel + 1, i, scopes, t', renumbering, dst, hchain, h => by
    rw [UpdateM.copyChain]
    rw [chainAux] at hchain
    split at hchain
    · next hroot =>
      cases hchain
      cases h
      rw [if_pos hroot]
      rfl
    · next hne =>
      obtain ⟨src, hsrc, hchain⟩ := bind_eq_ok.mp hchain
      obtain ⟨rest, hrest, hchain⟩ := bind_eq_ok.mp hchain
      cases hchain
      rw [reverse_cons, copyChain_concat] at h
      obtain ⟨⟨t1, renumbering1, parent⟩, houter, h⟩ := bind_eq_ok.mp h
      obtain ⟨⟨t2, renumbering2⟩, hcopy, h⟩ := bind_eq_ok.mp h
      cases h
      rw [if_neg hne]
      refine (bind_of_ok rfl).trans ((bind_of_ok (run_lift hsrc)).trans
        ((bind_of_ok (run_copyChain hrest houter)).trans ?_))
      exact (bind_of_ok rfl).trans ((bind_of_ok (run_copyNames hcopy)).trans rfl)

theorem run_copyScope {renumbering : Renumbering} (h : t.copyScope i = .ok (t', renumbering, dst)) :
    (UpdateM.copyScope i).run t = (.ok (renumbering, dst), t') := by
  obtain ⟨scopes, hchain, h⟩ := bind_eq_ok.mp h
  exact (bind_of_ok rfl).trans (run_copyChain hchain h)

theorem run_copyScope_missing (hne : i ≠ noScope) (hmissing : t.scope i = .error e) :
    (UpdateM.copyScope i).run t = (.error e, t) := by
  refine (bind_of_ok rfl).trans ?_
  rw [UpdateM.copyChain, if_neg hne]
  refine (bind_of_ok rfl).trans (bind_of_error ?_)
  rw [hmissing]
  rfl

end UpdateM

/-! ### Sequences of operations -/

namespace Operation

/-- A scope is opened at the root or in a scope that is there. -/
def Admissible (t : SymbolTable) : Operation → Prop
  | .addScope _ _ parent _ => parent = noScope ∨ ∃ s, t.scope parent = .ok s
  | _ => True

/-- Each of the operations is admissible where it is tried. -/
def AllAdmissible : SymbolTable → List Operation → Prop
  | _, [] => True
  | t, op :: ops => op.Admissible t ∧ AllAdmissible (op.after t) ops

theorem exists_lt_of_scope (h : t.scope i = .ok s) : ∃ n : Nat, i = n ∧ n < t.scopes.size := by
  obtain ⟨n, rfl, hn⟩ := scope_eq_ok.mp h
  exact ⟨n, rfl, (Array.getElem?_eq_some_iff.mp hn).1⟩

theorem after_eq {r : Except Fault Unit} (h : op.perform.run t = (r, t')) : op.after t = t' := congrArg Prod.snd h

theorem regular_after (h : t.Regular) (hop : op.Admissible t) : (op.after t).Regular := by
  cases op with
  | addScope label kind parent module =>
    refine h.addScope label kind module (hop.imp_right fun hscope => ?_)
    obtain ⟨s, hs⟩ := hscope
    exact exists_lt_of_scope hs
  | declare i name type overloadable =>
    have hrun := UpdateM.run_declare t i name type overloadable
    cases hdeclare : t.declare i name type overloadable with
    | error e =>
      rw [hdeclare] at hrun
      rw [after_eq (UpdateM.bind_of_error hrun)]
      exact h
    | ok r =>
      rw [hdeclare] at hrun
      rw [after_eq (UpdateM.bind_of_ok hrun)]
      exact h.declare hdeclare
  | setType id type =>
    have hrun := UpdateM.run_setType t id type
    cases hset : t.setType id type with
    | error e =>
      rw [hset] at hrun
      have hafter : (setType id type).after t = t := after_eq hrun
      exact hafter.symm ▸ h
    | ok t' =>
      rw [hset] at hrun
      have hafter : (setType id type).after t = t' := after_eq hrun
      exact hafter.symm ▸ h.setType hset
  | copyScope i =>
    by_cases hi : i = noScope ∨ ∃ s, t.scope i = .ok s
    · obtain ⟨t', renumbering, dst, hcopy, hregular⟩ :=
        h.copyScope (hi.imp_right fun hscope => hscope.elim fun _ => exists_lt_of_scope)
      rw [after_eq (UpdateM.bind_of_ok (UpdateM.run_copyScope hcopy))]
      exact hregular
    · obtain ⟨hne, hnone⟩ := not_or.mp hi
      cases hs : t.scope i with
      | ok s => exact absurd ⟨s, hs⟩ hnone
      | error e =>
        rw [after_eq (UpdateM.bind_of_error (UpdateM.run_copyScope_missing hne hs))]
        exact h

theorem regular_afterAll {ops : List Operation} (h : t.Regular) (hops : AllAdmissible t ops) :
    (afterAll ops t).Regular := by
  induction ops generalizing t with
  | nil => exact h
  | cons op ops ih => exact ih (regular_after h hops.1) hops.2

end Operation

theorem Regular.declares_iff (h : t.Regular) :
    (∃ id, ((UpdateM.declare i name type overloadable).run t).1 = .ok id) ↔
    t.canDeclare i name overloadable = .ok true := by
  have hrun := UpdateM.run_declare t i name type overloadable
  rw [canDeclare_eq_ok h.sound]
  constructor
  · rintro ⟨id, hid⟩
    cases hdeclare : t.declare i name type overloadable with
    | error e =>
      rw [hrun, hdeclare] at hid
      cases hid
    | ok r => exact free_of_declare h.sound hdeclare
  · intro hfree
    obtain ⟨n, sc, -, -, hdeclare⟩ := declare_of_free h.sound hfree type
    rw [UpdateM.run_declare_of_ok hdeclare]
    exact ⟨_, rfl⟩

/-- After all operations on an empty table, carried out or stopped, the table is consistent. A declaration is then made
exactly if it is allowed, and changes nothing otherwise; a scope that is there can be copied. -/
theorem operations_keep_consistency (ops : List Operation) (hops : Operation.AllAdmissible {} ops) :
    let t := Operation.afterAll ops {}
    t.Consistent ∧
      (∀ i name type overloadable,
        (∃ id, ((UpdateM.declare i name type overloadable).run t).1 = .ok id) ↔
        t.canDeclare i name overloadable = .ok true) ∧
      (∀ i name type overloadable e, ((UpdateM.declare i name type overloadable).run t).1 = .error e →
        ((UpdateM.declare i name type overloadable).run t).2 = t) ∧
      ∀ i s, t.scope i = .ok s → ∃ copy, ((UpdateM.copyScope i).run t).1 = .ok copy := by
  intro t
  have h : t.Regular := Operation.regular_afterAll .empty hops
  refine ⟨h.consistent, fun _ _ _ _ => h.declares_iff, fun i name type overloadable e he => ?_, fun i s hs => ?_⟩
  · have hrun := UpdateM.run_declare t i name type overloadable
    cases hdeclare : t.declare i name type overloadable with
    | error e' => rw [hrun, hdeclare]
    | ok r =>
      rw [hrun, hdeclare] at he
      cases he
  · obtain ⟨t', renumbering, dst, hcopy, -⟩ := h.copyScope (.inr (Operation.exists_lt_of_scope hs))
    rw [UpdateM.run_copyScope hcopy]
    exact ⟨_, rfl⟩

/-- Two overloads of `f` and a variable `x` in a scope, an `f` in a scope inside of it, and a copy of the two scopes.
The second `x`, the declaration in the scope `9` and the copy of the scope `9` are stopped. -/
def sampleOperations : List Operation :=
  [.addScope "m" .module noScope "m", .declare 0 "f" .absent true, .declare 0 "x" .absent false,
    .declare 0 "f" .absent true, .declare 0 "x" .absent true, .addScope "" .function 0 "m",
    .declare 1 "f" .absent false, .declare 9 "y" .absent true, .setType 1 .error, .copyScope 9, .copyScope 1]

theorem sampleOperations_consistent :
    Operation.AllAdmissible {} sampleOperations ∧ (Operation.afterAll sampleOperations {}).Consistent ∧
      (Operation.afterAll sampleOperations {}).scopes.toList.map Scope.ordered =
        [["f", "x"], ["f"], ["f", "x"], ["f"]] ∧
      (Operation.afterAll sampleOperations {}).symbols.toList.map Symbol.id = [0, 1, 2, 3, 4, 5, 6, 7] := by
  have hops : Operation.AllAdmissible {} sampleOperations :=
    ⟨.inl rfl, trivial, trivial, trivial, trivial, .inr ⟨_, rfl⟩, trivial, trivial, trivial, trivial, trivial, trivial⟩
  exact ⟨hops, (operations_keep_consistency sampleOperations hops).1, by decide +kernel, by decide +kernel⟩

end SymbolTable

end TypeInference
