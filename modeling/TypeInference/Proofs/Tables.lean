import Mathlib.Algebra.Order.Ring.Nat
import Mathlib.Data.List.Nodup
import TypeInference.Proofs.Computation
import TypeInference.Symbol.Table

/-! # The lists of a symbol table

In a sound table the lists of a scope agree with the scopes and names of the symbols, and two symbols of one scope and
name are both overloadable. Whether a declaration is accepted can be read off the symbols (`canDeclare_eq_ok`), and it
keeps the table sound (`Sound.declare`). -/

namespace TypeInference

variable {scopes : List Scope} {n a : Nat} {s sc : Scope}

namespace SymbolTable

variable {t t' : SymbolTable} {i : ScopeId} {name : String} {type : Ty} {overloadable : Bool} {id : SymbolId}

/-! ### Elements -/

theorem element_eq_ok {α : Type} {xs : Array α} {i : Int} {x : α} : element xs i = .ok x ↔ ∃ n : Nat, i = n ∧
    xs[n]? = some x := by
  unfold element
  split
  · next hi =>
    constructor
    · intro h
      cases h
    · rintro ⟨n, rfl, -⟩
      omega
  · next hi =>
    obtain ⟨n, rfl⟩ := Int.eq_ofNat_of_zero_le (Int.not_lt.mp hi)
    have hn : ((n : Int)).toNat = n := rfl
    rw [hn]
    constructor
    · intro h
      split at h
      · next hx =>
        cases h
        exact ⟨n, rfl, hx⟩
      · cases h
    · rintro ⟨m, hm, hx⟩
      obtain rfl : n = m := by exact_mod_cast hm
      rw [hx]

theorem scope_eq_ok : t.scope i = .ok s ↔ ∃ n : Nat, i = n ∧ t.scopes[n]? = some s := element_eq_ok

theorem symbol_eq_ok {s : Symbol} : t.symbol id = .ok s ↔ ∃ n : Nat, id = n ∧ t.symbols[n]? = some s := element_eq_ok

/-! ### Nested scopes -/

/-- A scope comes after the scope around it. -/
structure Nested (t : SymbolTable) : Prop where
  parent : ∀ {a : Nat} {s : Scope}, t.scopes[a]? = some s → s.parent = noScope ∨ ∃ n : Nat, s.parent = n ∧ n < a

theorem Nested.chainAux_gives (h : t.Nested) : ∀ {fuel n : Nat}, n + 1 < fuel → n < t.scopes.size →
    Gives (fun scopes => ∀ s ∈ scopes, ∃ k : Nat, t.scopes[k]? = some s) (t.chainAux fuel n)
  | 0, n, hfuel, _ => absurd hfuel (Nat.not_lt_zero _)
  | fuel + 1, n, hfuel, hn => by
    have hne : (n : Int) ≠ noScope := by
      unfold noScope
      omega
    obtain ⟨s, hs⟩ : ∃ s, t.scopes[n]? = some s := ⟨_, Array.getElem?_eq_getElem hn⟩
    have hrest : Gives (fun scopes => ∀ s ∈ scopes, ∃ k : Nat, t.scopes[k]? = some s) (t.chainAux fuel s.parent) := by
      rcases h.parent hs with hroot | ⟨k, hk, hlt⟩
      · obtain _ | fuel := fuel
        · omega
        · rw [hroot, chainAux, if_pos rfl]
          exact .ok (by simp)
      · rw [hk]
        exact h.chainAux_gives (by omega) (by omega)
    rw [chainAux, if_neg hne, scope_eq_ok.mpr ⟨n, rfl, hs⟩, ok_bind]
    exact hrest.bind fun scopes hscopes => .ok (List.forall_mem_cons.mpr ⟨⟨n, hs⟩, hscopes⟩)

theorem Nested.chain_gives (h : t.Nested) (hn : n < t.scopes.size) :
    Gives (fun scopes => ∀ s ∈ scopes, ∃ k : Nat, t.scopes[k]? = some s) (t.chain n) :=
  h.chainAux_gives (Nat.succ_lt_succ hn) hn

theorem ne_noScope (h : t.scope i = .ok s) : i ≠ noScope := by
  obtain ⟨n, rfl, -⟩ := scope_eq_ok.mp h
  unfold noScope
  exact Int.ne_of_gt (Int.lt_of_lt_of_le (by decide) (Int.natCast_nonneg n))

theorem chainAux_succ {fuel : Nat} (hs : t.scope i = .ok s) (hrest : t.chainAux fuel s.parent = .ok scopes) :
    t.chainAux (fuel + 1) i = .ok (s :: scopes) := by
  rw [chainAux, if_neg (ne_noScope hs), hs, ok_bind, hrest, ok_bind]
  rfl

/-- The symbols of the innermost of these scopes that has the name. -/
def innermostSymbols (name : String) : List Scope → List SymbolId
  | [] => []
  | s :: scopes => if (s.symbolsOf name).isEmpty then innermostSymbols name scopes else s.symbolsOf name

theorem mem_innermostSymbols : ∀ {scopes : List Scope}, id ∈ innermostSymbols name scopes →
    ∃ s ∈ scopes, id ∈ s.symbolsOf name
  | [], h => by cases h
  | s :: scopes, h => by
    rw [innermostSymbols] at h
    split at h
    · obtain ⟨s', hs', hid⟩ := mem_innermostSymbols h
      exact ⟨s', List.mem_cons_of_mem _ hs', hid⟩
    · exact ⟨s, List.mem_cons_self, h⟩

theorem lookupAux_of_chainAux : ∀ {fuel : Nat} {i : ScopeId} {scopes : List Scope}, t.chainAux fuel i = .ok scopes →
    t.lookupAux name fuel i = .ok (innermostSymbols name scopes)
  | 0, i, scopes, h => by cases h
  | fuel + 1, i, scopes, h => by
    rw [chainAux] at h
    rw [lookupAux]
    split at h
    · next hi =>
      cases h
      rw [if_pos hi]
      rfl
    · next hi =>
      obtain ⟨s, hs, h⟩ := bind_eq_ok.mp h
      obtain ⟨rest, hrest, h⟩ := bind_eq_ok.mp h
      cases h
      rw [if_neg hi, hs, ok_bind, innermostSymbols, lookupAux_of_chainAux hrest]
      dsimp only
      split <;> rfl

theorem lookup_of_chain (h : t.chain i = .ok scopes) : t.lookup i name = .ok (innermostSymbols name scopes) :=
  lookupAux_of_chainAux h

/-! ### Sound tables -/

/-- Every scope lists exactly its symbols, and a name is shared by overloadable symbols only. -/
structure Sound (t : SymbolTable) : Prop where
  scope : ∀ {n : Nat} {s : Symbol}, t.symbols[n]? = some s → ∃ i : Nat, s.scope = i ∧ i < t.scopes.size
  listed : ∀ {i : Nat} {sc : Scope}, t.scopes[i]? = some sc → ∀ (name : String) (id : SymbolId),
    id ∈ sc.symbolsOf name ↔ ∃ (n : Nat) (s : Symbol), id = n ∧ t.symbols[n]? = some s ∧ s.name = name ∧ s.scope = i
  nodup : ∀ {i : Nat} {sc : Scope}, t.scopes[i]? = some sc → ∀ name : String, (sc.symbolsOf name).Nodup
  overloads : ∀ {a b : Nat} {s s' : Symbol}, t.symbols[a]? = some s → t.symbols[b]? = some s' → a ≠ b →
    s.scope = s'.scope → s.name = s'.name → s.overloadable = true ∧ s'.overloadable = true

/-- The scope exists, and the name is new in it or shared by overloadable symbols. -/
structure Free (t : SymbolTable) (i : ScopeId) (name : String) (overloadable : Bool) : Prop where
  scope : ∃ n : Nat, i = n ∧ n < t.scopes.size
  symbols : ∀ {a : Nat} {s : Symbol}, t.symbols[a]? = some s → s.scope = i → s.name = name →
    overloadable = true ∧ s.overloadable = true

theorem sound_empty : Sound {} := by
  constructor <;> simp

theorem allOverloadable_eq_ok (h : t.Sound) (hsc : t.scopes[n]? = some sc) :
    t.allOverloadable (sc.symbolsOf name) = .ok true ↔
      ∀ {a : Nat} {s : Symbol}, t.symbols[a]? = some s → s.scope = n → s.name = name → s.overloadable = true := by
  have hsymbol : ∀ id ∈ sc.symbolsOf name, ∃ s, t.symbol id = .ok s := fun id hid => by
    obtain ⟨a, s, rfl, ha, -, -⟩ := (h.listed hsc name id).mp hid
    exact ⟨s, symbol_eq_ok.mpr ⟨a, rfl, ha⟩⟩
  have hall : ∀ ids : List SymbolId, (∀ id ∈ ids, ∃ s, t.symbol id = .ok s) →
      (t.allOverloadable ids = .ok true ↔ ∀ id ∈ ids, ∀ s, t.symbol id = .ok s → s.overloadable = true) := by
    intro ids hids
    unfold allOverloadable
    induction ids with
    | nil => simp
    | cons id ids ih =>
      obtain ⟨⟨s, hs⟩, hids⟩ := List.forall_mem_cons.mp hids
      rw [List.allM_cons, hs]
      cases hover : s.overloadable with
      | true => simpa [pure_bind, hover, hs, bind, Except.bind, pure, Except.pure] using ih hids
      | false => simp [hover, hs, bind, Except.bind, pure, Except.pure]
  rw [hall _ hsymbol]
  constructor
  · intro hover a s ha hscope hname
    exact hover a ((h.listed hsc name a).mpr ⟨a, s, rfl, ha, hname, hscope⟩) s (symbol_eq_ok.mpr ⟨a, rfl, ha⟩)
  · intro hover id hid s hs
    obtain ⟨a, s', rfl, ha, hname, hscope⟩ := (h.listed hsc name id).mp hid
    obtain ⟨b, hb, hs⟩ := symbol_eq_ok.mp hs
    obtain rfl : a = b := by exact_mod_cast hb
    exact hover hs (by rw [Option.some.inj (hs.symm.trans ha)]; exact hscope)
      (by rw [Option.some.inj (hs.symm.trans ha)]; exact hname)

theorem isEmpty_symbolsOf (h : t.Sound) (hsc : t.scopes[n]? = some sc) :
    (sc.symbolsOf name).isEmpty = true ↔ ∀ {a : Nat} {s : Symbol}, t.symbols[a]? = some s → s.scope = n →
    s.name ≠ name := by
  rw [List.isEmpty_iff, List.eq_nil_iff_forall_not_mem]
  constructor
  · intro hnone a s ha hscope hname
    exact hnone a ((h.listed hsc name a).mpr ⟨a, s, rfl, ha, hname, hscope⟩)
  · intro hnone id hid
    obtain ⟨a, s, rfl, ha, hname, hscope⟩ := (h.listed hsc name id).mp hid
    exact hnone ha hscope hname

theorem canDeclare_eq_ok (h : t.Sound) : t.canDeclare i name overloadable = .ok true ↔ t.Free i name overloadable := by
  unfold canDeclare lookupLocal
  constructor
  · intro haccept
    obtain ⟨existing, hlocal, hfree⟩ := bind_eq_ok.mp haccept
    obtain ⟨sc, hsc, heq⟩ := bind_eq_ok.mp hlocal
    cases heq
    obtain ⟨n, rfl, hat⟩ := scope_eq_ok.mp hsc
    refine ⟨⟨n, rfl, (Array.getElem?_eq_some_iff.mp hat).1⟩, fun {a s} ha hscope hname => ?_⟩
    split at hfree
    · next hnone => exact absurd hname ((isEmpty_symbolsOf h hat).mp hnone ha hscope)
    · split at hfree
      · cases hfree
      · next hover => exact ⟨by simpa using hover, (allOverloadable_eq_ok h hat).mp hfree ha hscope hname⟩
  · rintro ⟨⟨n, rfl, hn⟩, hsymbols⟩
    have hsc : t.scopes[n]? = some t.scopes[n] := Array.getElem?_eq_getElem hn
    refine bind_eq_ok.mpr ⟨_, bind_eq_ok.mpr ⟨_, scope_eq_ok.mpr ⟨n, rfl, hsc⟩, rfl⟩, ?_⟩
    split
    · rfl
    · next hsome =>
      have hover : overloadable = true := by
        by_contra hnot
        exact hsome ((isEmpty_symbolsOf h hsc).mpr fun ha hscope hname => hnot (hsymbols ha hscope hname).1)
      rw [hover]
      exact (allOverloadable_eq_ok h hsc).mpr fun ha hscope hname => (hsymbols ha hscope hname).2

/-! ### Declarations -/

theorem lookup_addName (names : List (String × List SymbolId)) (other : String) :
    (Scope.addName name id names).lookup other =
      if other = name then some ((names.lookup name).getD [] ++ [id]) else names.lookup other := by
  induction names with
  | nil =>
    by_cases h : other = name
    · simp [Scope.addName, h]
    · have hne : (other == name) = false := by simpa using h
      simp [Scope.addName, List.lookup_cons, h, hne]
  | cons entry names ih =>
    obtain ⟨first, ids⟩ := entry
    unfold Scope.addName
    by_cases hfirst : first = name
    · subst hfirst
      by_cases h : other = first
      · simp [h]
      · have hne : (other == first) = false := by simpa using h
        simp [List.lookup_cons, h, hne]
    · rw [if_neg hfirst, List.lookup_cons, List.lookup_cons]
      by_cases h : other = first
      · subst h
        simp [hfirst]
      · have hne : (other == first) = false := by simpa using h
        have hne' : (name == first) = false := by simpa using fun h => hfirst (Eq.symm h)
        simpa [hne, hne', List.lookup_cons] using ih

def declared (t : SymbolTable) (n : Nat) (sc : Scope) (name : String) (type : Ty) (overloadable : Bool) :
    SymbolTable where
  scopes := t.scopes.setIfInBounds n (sc.add name t.symbols.size)
  symbols :=
    t.symbols.push { id := t.symbols.size, name := name, type := type, overloadable := overloadable, scope := n }

theorem eq_declared (h : t.declare i name type overloadable = .ok (t', id)) : id = t.symbols.size ∧
    ∃ (n : Nat) (sc : Scope), i = n ∧ t.scopes[n]? = some sc ∧ t' = t.declared n sc name type overloadable := by
  obtain ⟨sc, hsc, h⟩ := bind_eq_ok.mp h
  obtain ⟨n, rfl, hat⟩ := scope_eq_ok.mp hsc
  dsimp only at h
  split at h
  · split at h
    · cases h
    · obtain ⟨all, -, h⟩ := bind_eq_ok.mp h
      split at h
      · cases h
      · cases h
        exact ⟨rfl, n, sc, rfl, hat, rfl⟩
  · cases h
    exact ⟨rfl, n, sc, rfl, hat, rfl⟩

theorem free_of_declare (h : t.Sound) (hdeclare : t.declare i name type overloadable = .ok (t', id)) :
    t.Free i name overloadable := by
  obtain ⟨sc, hsc, hdeclare⟩ := bind_eq_ok.mp hdeclare
  obtain ⟨n, rfl, hat⟩ := scope_eq_ok.mp hsc
  have hscope : ∃ m : Nat, (n : Int) = m ∧ m < t.scopes.size := ⟨n, rfl, (Array.getElem?_eq_some_iff.mp hat).1⟩
  dsimp only at hdeclare
  split at hdeclare
  · next hsome =>
    split at hdeclare
    · cases hdeclare
    · next hover =>
      obtain ⟨all, hall, hdeclare⟩ := bind_eq_ok.mp hdeclare
      split at hdeclare
      · cases hdeclare
      · next hshared =>
        obtain rfl : all = true := by simpa using hshared
        exact ⟨hscope, fun ha hs hname => ⟨by simpa using hover, (allOverloadable_eq_ok h hat).mp hall ha hs hname⟩⟩
  · next hnone =>
    exact ⟨hscope, fun ha hs hname => absurd hname ((isEmpty_symbolsOf h hat).mp (by simpa using hnone) ha hs)⟩

theorem declare_of_free (h : t.Sound) (hfree : t.Free i name overloadable) (type : Ty) :
    ∃ (n : Nat) (sc : Scope), i = n ∧ t.scopes[n]? = some sc ∧
      t.declare i name type overloadable = .ok (t.declared n sc name type overloadable, t.symbols.size) := by
  obtain ⟨⟨n, rfl, hn⟩, hsymbols⟩ := hfree
  have hsc : t.scopes[n]? = some t.scopes[n] := Array.getElem?_eq_getElem hn
  refine ⟨n, _, rfl, hsc, bind_eq_ok.mpr ⟨_, scope_eq_ok.mpr ⟨n, rfl, hsc⟩, ?_⟩⟩
  dsimp only
  split
  · next hsome =>
    have hover : overloadable = true := by
      by_contra hnot
      have hempty := (isEmpty_symbolsOf h hsc).mpr fun ha hscope hname => hnot (hsymbols ha hscope hname).1
      simp [hempty] at hsome
    subst hover
    have hall := (allOverloadable_eq_ok h hsc).mpr fun ha hscope hname => (hsymbols ha hscope hname).2
    exact bind_eq_ok.mpr ⟨true, hall, rfl⟩
  · rfl

section declared

variable {n : Nat} {sc : Scope}

theorem getElem?_symbols_declared : (t.declared n sc name type overloadable).symbols[a]? =
    if a = t.symbols.size then some { id := t.symbols.size, name := name, type := type, overloadable := overloadable,
                                      scope := n }
    else t.symbols[a]? :=
  Array.getElem?_push

theorem getElem?_scopes_declared (hsc : t.scopes[n]? = some sc) {i : Nat} :
    (t.declared n sc name type overloadable).scopes[i]? = if n = i then some (sc.add name t.symbols.size)
    else t.scopes[i]? := by
  refine Array.getElem?_setIfInBounds.trans ?_
  rw [if_pos (Array.getElem?_eq_some_iff.mp hsc).1]

theorem symbolsOf_add (sc : Scope) (other : String) :
    (sc.add name id).symbolsOf other = if other = name then sc.symbolsOf name ++ [id] else sc.symbolsOf other := by
  unfold Scope.symbolsOf Scope.add
  rw [lookup_addName]
  split <;> rfl

theorem mem_symbols_declared {s : Symbol} (h : (t.declared n sc name type overloadable).symbols[a]? = some s) :
    (a = t.symbols.size ∧
        s = { id := t.symbols.size, name := name, type := type, overloadable := overloadable, scope := n }) ∨
        t.symbols[a]? = some s := by
  rw [getElem?_symbols_declared] at h
  split at h
  · next hlast => exact .inl ⟨hlast, (Option.some.inj h).symm⟩
  · exact .inr h

theorem symbols_declared_of_lt {s : Symbol} (h : t.symbols[a]? = some s) :
    (t.declared n sc name type overloadable).symbols[a]? = some s := by
  rw [getElem?_symbols_declared, if_neg (Nat.ne_of_lt (Array.getElem?_eq_some_iff.mp h).1)]
  exact h

theorem Sound.declared (h : t.Sound) (hfree : t.Free n name overloadable) (hsc : t.scopes[n]? = some sc) :
    (t.declared n sc name type overloadable).Sound where
  scope ha := by
    have hsize : (t.declared n sc name type overloadable).scopes.size = t.scopes.size := Array.size_setIfInBounds
    rcases mem_symbols_declared ha with ⟨-, rfl⟩ | ha
    · exact ⟨n, rfl, hsize ▸ (Array.getElem?_eq_some_iff.mp hsc).1⟩
    · exact hsize ▸ h.scope ha
  listed {i sc'} hi other id := by
    have hnew : (t.declared n sc name type overloadable).symbols[t.symbols.size]? =
        some { id := t.symbols.size, name := name, type := type, overloadable := overloadable, scope := n } := by
      rw [getElem?_symbols_declared, if_pos rfl]
    -- the symbols of the old table are the old ones
    have hold : (∃ (a : Nat) (s : Symbol), id = a ∧ (t.declared n sc name type overloadable).symbols[a]? = some s ∧
        s.name = other ∧ s.scope = i) ↔
        (∃ (a : Nat) (s : Symbol), id = a ∧ t.symbols[a]? = some s ∧ s.name = other ∧ s.scope = i) ∨
          (id = t.symbols.size ∧ name = other ∧ n = i) := by
      constructor
      · rintro ⟨a, s, rfl, ha, hname, hscope⟩
        rcases mem_symbols_declared ha with ⟨rfl, rfl⟩ | ha
        · exact .inr ⟨rfl, hname, Int.ofNat.inj hscope⟩
        · exact .inl ⟨a, s, rfl, ha, hname, hscope⟩
      · rintro (⟨a, s, rfl, ha, hname, hscope⟩ | ⟨rfl, rfl, rfl⟩)
        · exact ⟨a, s, rfl, symbols_declared_of_lt ha, hname, hscope⟩
        · exact ⟨_, _, rfl, hnew, rfl, rfl⟩
    rw [hold]
    rw [getElem?_scopes_declared hsc] at hi
    split at hi
    · next hni =>
      subst hni
      cases hi
      rw [symbolsOf_add]
      split
      · next hother =>
        subst hother
        rw [List.mem_append, h.listed hsc]
        simp
      · next hother =>
        have hname : name ≠ other := fun h => hother h.symm
        rw [h.listed hsc]
        simp [hname]
    · next hni =>
      rw [h.listed hi]
      simp [hni]
  nodup {i sc'} hi other := by
    rw [getElem?_scopes_declared hsc] at hi
    split at hi
    · cases hi
      rw [symbolsOf_add]
      split
      · refine (h.nodup hsc name).append (List.nodup_singleton _) ?_
        rw [List.disjoint_singleton]
        intro hmem
        obtain ⟨a, s, ha, hs, -, -⟩ := (h.listed hsc name _).mp hmem
        have hlt := (Array.getElem?_eq_some_iff.mp hs).1
        have hsize : t.symbols.size = a := Int.ofNat.inj ha
        omega
      · exact h.nodup hsc other
    · exact h.nodup hi other
  overloads {a b s s'} ha hb hne hscope hname := by
    rcases mem_symbols_declared ha with ⟨rfl, rfl⟩ | ha
    · rcases mem_symbols_declared hb with ⟨rfl, rfl⟩ | hb
      · exact absurd rfl hne
      · exact hfree.symbols hb hscope.symm hname.symm
    · rcases mem_symbols_declared hb with ⟨rfl, rfl⟩ | hb
      · exact (hfree.symbols ha hscope hname).symm
      · exact h.overloads ha hb hne hscope hname

end declared

theorem Sound.declare (h : t.Sound) (hdeclare : t.declare i name type overloadable = .ok (t', id)) : t'.Sound := by
  obtain ⟨-, n, sc, rfl, hsc, rfl⟩ := eq_declared hdeclare
  exact h.declared (free_of_declare h hdeclare) hsc

/-! ### New scopes -/

theorem Sound.addScope (h : t.Sound) (label : String) (kind : ScopeKind) (parent : ScopeId) (module : String) :
    (t.addScope label kind parent module).1.Sound where
  scope ha := by
    obtain ⟨i, hi, hlt⟩ := h.scope ha
    exact ⟨i, hi, Nat.lt_of_lt_of_le hlt (by simp [SymbolTable.addScope])⟩
  listed {i sc} hi other id := by
    have hpush : (t.scopes.push
        { id := t.scopes.size, name := label, kind := kind, parent := parent, module := module })[i]? = some sc := hi
    rw [Array.getElem?_push] at hpush
    split at hpush
    · next hlast =>
      cases hpush
      -- no symbol is in a scope that was not there
      constructor
      · intro hmem
        cases hmem
      rintro ⟨a, s, rfl, ha, -, hscope⟩
      obtain ⟨j, hj, hlt⟩ := h.scope ha
      have hij : (j : Int) = i := hj.symm.trans hscope
      omega
    · exact h.listed hpush other id
  nodup {i sc} hi other := by
    have hpush : (t.scopes.push
        { id := t.scopes.size, name := label, kind := kind, parent := parent, module := module })[i]? = some sc := hi
    rw [Array.getElem?_push] at hpush
    split at hpush
    · cases hpush
      exact List.nodup_nil
    · exact h.nodup hpush other
  overloads := h.overloads

end SymbolTable

end TypeInference
