import TypeInference.Proofs.Bisimilarity
import TypeInference.Proofs.Consistency

/-! # Copies of scopes

A scope is copied with the scopes around it, and their symbols are made anew (`copyChain_recreates`). What was there
stays as it was, and the copy is the original up to numbers (`IsCopy`), so that names mean the same in both
(`copied_scope_isomorphic`). -/

namespace TypeInference

open SymbolTable
open List

variable {scopes copies : List Scope} {ids : List SymbolId} {n fuel : Nat} {src sc : Scope} {parent : ScopeId}
  {s : Symbol} {id : SymbolId}

/-! ### Scopes -/

namespace Scope

/-- The scope with more symbols under a name. -/
def addAll (sc : Scope) (name : String) (ids : List SymbolId) : Scope := ids.foldl (fun sc id => sc.add name id) sc

theorem symbolsOf_addAll (sc : Scope) (name other : String) (ids : List SymbolId) :
    (sc.addAll name ids).symbolsOf other = if other = name then sc.symbolsOf name ++ ids else sc.symbolsOf other := by
  induction ids generalizing sc with
  | nil =>
    split
    · next h => simp [addAll, h]
    · rfl
  | cons id ids ih =>
    rw [addAll, foldl_cons, ← addAll, ih, symbolsOf_add, symbolsOf_add]
    split <;> simp_all

/-- All of a scope but its names. -/
def frame (sc : Scope) : Scope := { sc with names := [], ordered := [] }

theorem frame_addAll (sc : Scope) (name : String) (ids : List SymbolId) : (sc.addAll name ids).frame = sc.frame := by
  induction ids generalizing sc with
  | nil => rfl
  | cons id ids ih => exact ih (sc.add name id)

theorem ordered_addAll_known (sc : Scope) (name : String) (ids : List SymbolId) (hknown : sc.symbolsOf name ≠ []) :
    (sc.addAll name ids).ordered = sc.ordered := by
  induction ids generalizing sc with
  | nil => rfl
  | cons id ids ih =>
    have hadd : (sc.add name id).ordered = sc.ordered := if_neg (by simpa using hknown)
    exact (ih (sc.add name id) (by simp [symbolsOf_add])).trans hadd

theorem ordered_addAll_new (sc : Scope) (name : String) (hids : ids ≠ []) (hnew : sc.symbolsOf name = []) :
    (sc.addAll name ids).ordered = sc.ordered ++ [name] := by
  obtain ⟨id, ids, rfl⟩ := exists_cons_of_ne_nil hids
  have hadd : (sc.add name id).ordered = sc.ordered ++ [name] := if_pos (by simp [hnew])
  exact (ordered_addAll_known (sc.add name id) name ids (by simp [symbolsOf_add])).trans hadd

/-- The symbols of a scope, name by name. -/
def listing (s : Scope) : List SymbolId := s.ordered.flatMap s.symbolsOf

/-- The scope is the other one up to numbers: it lists copies of the same symbols in the same order. -/
structure CopyOf (ρ : Renumbering) (src copy : Scope) : Prop where
  name : copy.name = src.name
  kind : copy.kind = src.kind
  module : copy.module = src.module
  ordered : copy.ordered = src.ordered
  symbols : ∀ name, List.Forall₂ (fun old new => (old, new) ∈ ρ) (src.symbolsOf name) (copy.symbolsOf name)

theorem CopyOf.mono {ρ ρ' : Renumbering} {copy : Scope} (h : src.CopyOf ρ copy) (hsub : ρ ⊆ ρ') : src.CopyOf ρ' copy :=
  ⟨h.name, h.kind, h.module, h.ordered, fun name => (h.symbols name).imp fun _ _ hp => hsub hp⟩

end Scope

namespace SymbolTable

variable {t t' t1 : SymbolTable} {i dst : ScopeId} {name : String} {ρ ρ' ρ1 new : Renumbering}

def Renumbering.copyOf (ρ : Renumbering) (id : SymbolId) : SymbolId := (ρ.lookup id).getD noSymbol

/-! ### New symbols -/

/-- One symbol was added for each pair, in this order: a copy of the first number under the second. -/
structure Recreated (t t' : SymbolTable) (new : Renumbering) : Prop where
  kept : ∀ {n : Nat} {s : Symbol}, t.symbols[n]? = some s → t'.symbols[n]? = some s
  size : t'.symbols.size = t.symbols.size + new.length
  numbers : new.map Prod.snd = (List.range' t.symbols.size new.length).map (Nat.cast : Nat → Int)
  copies : ∀ p ∈ new, ∃ s s', t'.symbol p.1 = .ok s ∧ t'.symbol p.2 = .ok s' ∧ s'.type = s.type ∧
    s'.overloadable = s.overloadable

namespace Recreated

theorem refl (t : SymbolTable) : t.Recreated t [] := ⟨id, rfl, rfl, by simp⟩

theorem symbol (h : t.Recreated t' new) (hs : t.symbol id = .ok s) : t'.symbol id = .ok s := by
  obtain ⟨n, rfl, hn⟩ := symbol_eq_ok.mp hs
  exact symbol_eq_ok.mpr ⟨n, rfl, h.kept hn⟩

theorem trans {new' : Renumbering} (h : t.Recreated t1 new) (h' : t1.Recreated t' new') :
    t.Recreated t' (new ++ new') where
  kept hs := h'.kept (h.kept hs)
  size := by rw [h'.size, h.size, length_append, Nat.add_assoc]
  numbers := by
    rw [map_append, h.numbers, h'.numbers, h.size, ← map_append, length_append, range'_append_1]
  copies := by
    refine forall_mem_append.mpr ⟨fun p hp => ?_, h'.copies⟩
    obtain ⟨s, s', hs, hs', heq⟩ := h.copies p hp
    exact ⟨s, s', h'.symbol hs, h'.symbol hs', heq⟩

theorem of_addScope {label : String} {kind : ScopeKind} {module : String}
    (h : (t.addScope label kind parent module).1.Recreated t' new) :
    t.Recreated t' new := ⟨h.kept, h.size, h.numbers, h.copies⟩

theorem declare {old : SymbolId} (hs : t.symbol old = .ok s) :
    t.Recreated (t.declared n sc name s.type s.overloadable) [(old, (t.symbols.size : Int))] where
  kept := symbols_declared_of_lt
  size := Array.size_push _
  numbers := rfl
  copies := by
    obtain ⟨k, rfl, hk⟩ := symbol_eq_ok.mp hs
    have hnew : (t.declared n sc name s.type s.overloadable).symbols[t.symbols.size]? =
        some { id := t.symbols.size, name := name, type := s.type, overloadable := s.overloadable, scope := n } :=
      getElem?_symbols_declared.trans (if_pos rfl)
    simp only [forall_mem_singleton]
    exact ⟨s, _, symbol_eq_ok.mpr ⟨k, rfl, symbols_declared_of_lt hk⟩, symbol_eq_ok.mpr ⟨_, rfl, hnew⟩, rfl, rfl⟩

end Recreated

/-! ### The symbols of a name, of a scope, of a chain -/

theorem setIfInBounds_self {xs : Array Scope} {x : Scope} (h : xs[n]? = some x) : xs.setIfInBounds n x = xs := by
  rw [← modify_eq_setIfInBounds h fun _ => x]
  apply Array.ext_getElem?
  intro k
  rw [Array.getElem?_modify]
  split
  · next hk => rw [← hk, h]; rfl
  · rfl

theorem copySymbols_recreates {dst : Nat} : ∀ {t : SymbolTable} {ρ : Renumbering} {ids : List SymbolId} {sc : Scope},
    copySymbols dst name (t, ρ) ids = .ok (t', ρ') → t.scopes[dst]? = some sc →
    ∃ new : Renumbering, ρ' = ρ ++ new ∧ new.map Prod.fst = ids ∧ t.Recreated t' new ∧
      t'.scopes = t.scopes.setIfInBounds dst (sc.addAll name (new.map Prod.snd))
  | t, ρ, [], sc, h, hsc => by
    cases h
    exact ⟨[], (List.append_nil ρ').symm, rfl, .refl t', (setIfInBounds_self hsc).symm⟩
  | t, ρ, old :: ids, sc, h, hsc => by
    obtain ⟨s, hs, h⟩ := bind_eq_ok.mp h
    obtain ⟨⟨t1, id⟩, hdeclare, h⟩ := bind_eq_ok.mp h
    obtain ⟨rfl, n, sc', hn, hsc', rfl⟩ := eq_declared hdeclare
    obtain rfl : dst = n := Int.ofNat.inj hn
    cases hsc.symm.trans hsc'
    have hadded : (t.declared dst sc name s.type s.overloadable).scopes[dst]? = some (sc.add name t.symbols.size) :=
      (getElem?_scopes_declared hsc).trans (if_pos rfl)
    obtain ⟨new, rfl, rfl, hnew, hscopes⟩ := copySymbols_recreates h hadded
    refine ⟨(old, (t.symbols.size : Int)) :: new, by simp, rfl, (Recreated.declare hs).trans hnew, ?_⟩
    rw [hscopes, declared, Array.setIfInBounds_setIfInBounds]
    rfl

/-- The scope received copies of the symbols that the other one has under these names, and nothing else. -/
structure Received (src : Scope) (names : List String) (new : Renumbering) (sc sc' : Scope) : Prop where
  same : sc'.frame = sc.frame
  ordered : sc'.ordered = sc.ordered ++ names
  symbols : ∀ name ∈ names, List.Forall₂ (fun old id => (old, id) ∈ new) (src.symbolsOf name) (sc'.symbolsOf name)
  others : ∀ name, name ∉ names → sc'.symbolsOf name = sc.symbolsOf name

theorem forall₂_pairs (new : Renumbering) :
    Forall₂ (fun old id => (old, id) ∈ new) (new.map Prod.fst) (new.map Prod.snd) := by
  rw [forall₂_map_left_iff, forall₂_map_right_iff, forall₂_same]
  exact fun p hp => hp

theorem copyNames_recreates {dst : Nat} : ∀ {t : SymbolTable} {ρ : Renumbering} {names : List String} {sc : Scope},
    copyNames dst src (t, ρ) names = .ok (t', ρ') → t.scopes[dst]? = some sc → names.Nodup →
    (∀ name ∈ names, sc.symbolsOf name = [] ∧ src.symbolsOf name ≠ []) →
    ∃ (new : Renumbering) (sc' : Scope), ρ' = ρ ++ new ∧ new.map Prod.fst = names.flatMap src.symbolsOf ∧
    t.Recreated t' new ∧ t'.scopes = t.scopes.setIfInBounds dst sc' ∧ Received src names new sc sc'
  | t, ρ, [], sc, h, hsc, _, _ => by
    cases h
    exact ⟨[], sc, (List.append_nil ρ').symm, rfl, .refl t', (setIfInBounds_self hsc).symm, rfl,
      (List.append_nil _).symm, by simp, by simp⟩
  | t, ρ, name :: names, sc, h, hsc, hnodup, hnames => by
    obtain ⟨⟨t1, ρ1⟩, hname, h⟩ := bind_eq_ok.mp h
    obtain ⟨hfresh, hnodup⟩ := nodup_cons.mp hnodup
    obtain ⟨⟨hnew, hsome⟩, hrest⟩ := forall_mem_cons.mp hnames
    obtain ⟨first, rfl, hfirst, hrecreated, hscopes⟩ := copySymbols_recreates hname hsc
    have hids : first.map Prod.snd ≠ [] := by
      intro hnil
      rw [map_eq_nil_iff.mp hnil] at hfirst
      exact hsome hfirst.symm
    have hsc1 : t1.scopes[dst]? = some (sc.addAll name (first.map Prod.snd)) := by
      rw [hscopes, Array.getElem?_setIfInBounds_self_of_lt (Array.getElem?_eq_some_iff.mp hsc).1]
    have hother : ∀ other, other ≠ name →
        (sc.addAll name (first.map Prod.snd)).symbolsOf other = sc.symbolsOf other := fun other hne => by
      rw [Scope.symbolsOf_addAll, if_neg hne]
    obtain ⟨new, sc', rfl, hnewIds, hrecreated', hscopes', hreceived⟩ :=
      copyNames_recreates h hsc1 hnodup fun other hmem => by
      rw [hother other fun heq => hfresh (heq ▸ hmem)]
      exact hrest other hmem
    refine ⟨first ++ new,
      sc', by simp, by rw [map_append, hfirst, hnewIds, flatMap_cons], hrecreated.trans hrecreated', ?_, ?_⟩
    · rw [hscopes', hscopes, Array.setIfInBounds_setIfInBounds]
    · refine ⟨hreceived.same.trans (Scope.frame_addAll ..), ?_, forall_mem_cons.mpr ⟨?_, fun other hmem => ?_⟩,
        fun other hmem => ?_⟩
      · rw [hreceived.ordered, Scope.ordered_addAll_new sc name hids hnew, append_assoc, singleton_append]
      · rw [hreceived.others name hfresh, Scope.symbolsOf_addAll, if_pos rfl, hnew, nil_append, ← hfirst]
        exact (forall₂_pairs first).imp fun _ _ hp => mem_append_left new hp
      · exact (hreceived.symbols other hmem).imp fun _ _ hp => mem_append_right first hp
      · obtain ⟨hne, hmem⟩ := not_or.mp (mt mem_cons.mpr hmem)
        rw [hreceived.others other hmem, hother other hne]

theorem chainAux_mono (hkept : ∀ {n : Nat} {sc : Scope}, t.scopes[n]? = some sc → t'.scopes[n]? = some sc)
    (h : t.chainAux fuel i = .ok scopes) : ∀ {fuel'}, fuel ≤ fuel' → t'.chainAux fuel' i = .ok scopes := by
  intro fuel' hle
  induction fuel generalizing i scopes fuel' with
  | zero => cases h
  | succ fuel ih =>
    obtain ⟨fuel', rfl⟩ : ∃ k, fuel' = k + 1 := ⟨fuel' - 1, by omega⟩
    rw [chainAux] at h
    split at h
    · next hroot =>
      cases h
      rw [chainAux, if_pos hroot]
    · obtain ⟨sc, hsc, h⟩ := bind_eq_ok.mp h
      obtain ⟨rest, hrest, h⟩ := bind_eq_ok.mp h
      cases h
      obtain ⟨n, rfl, hn⟩ := scope_eq_ok.mp hsc
      exact chainAux_succ (scope_eq_ok.mpr ⟨n, rfl, hkept hn⟩) (ih hrest (by omega))

theorem Received.copyOf {id : ScopeId}
    (h : Received src src.ordered new
      { id := id, name := src.name, kind := src.kind, parent := parent, module := src.module } sc)
    (hmem : ∀ name, name ∈ src.ordered ↔ src.symbolsOf name ≠ []) : src.CopyOf new sc := by
  refine ⟨(congrArg Scope.name h.same :), (congrArg Scope.kind h.same :), (congrArg Scope.module h.same :), h.ordered,
    fun name => ?_⟩
  by_cases hname : name ∈ src.ordered
  · exact h.symbols name hname
  · have hnone : src.symbolsOf name = [] := not_not.mp (mt (hmem name).mpr hname)
    rw [hnone, h.others name hname]
    exact .nil

theorem copyChain_recreates : ∀ {t : SymbolTable} {ρ : Renumbering} {parent : ScopeId} {scopes : List Scope},
    copyChain (t, ρ) parent scopes = .ok (t', ρ', dst) → (∀ src ∈ scopes, ∃ bound, src.Tidy bound) →
    ∃ (new : Renumbering) (copies : List Scope), ρ' = ρ ++ new ∧ new.map Prod.fst = scopes.flatMap Scope.listing ∧
    t.Recreated t' new ∧ (∀ {n : Nat} {sc : Scope}, t.scopes[n]? = some sc → t'.scopes[n]? = some sc) ∧
      Forall₂ (Scope.CopyOf new) scopes copies ∧ (∀ c ∈ copies, ∃ n : Nat, t.scopes.size ≤ n ∧ t'.scopes[n]? = some c) ∧
      t'.scopes.size = t.scopes.size + scopes.length ∧
      ∀ {fuel : Nat} {outer : List Scope}, t.chainAux fuel parent = .ok outer →
        t'.chainAux (fuel + scopes.length) dst = .ok (copies.reverse ++ outer)
  | t, ρ, parent, [], h, _ => by
    cases h
    exact ⟨[], [], (List.append_nil ρ').symm, rfl, .refl t', id, .nil, by simp, rfl, id⟩
  | t, ρ, parent, src :: scopes, h, htidy => by
    obtain ⟨⟨t1, ρ1⟩, hcopy, h⟩ := bind_eq_ok.mp h
    obtain ⟨⟨bound, hsrc⟩, htidy⟩ := forall_mem_cons.mp htidy
    have hopened :
        (t.scopes.push { id := t.scopes.size, name := src.name, kind := src.kind, parent := parent
                         module := src.module })[t.scopes.size]? =
        some { id := t.scopes.size, name := src.name, kind := src.kind, parent := parent, module := src.module } :=
        Array.getElem?_push_size
    obtain ⟨first, sc, rfl, hfirst, hrecreated, hscopes, hreceived⟩ := copyNames_recreates hcopy hopened hsrc.distinct
      fun name hname => ⟨rfl, (hsrc.mem_ordered name).mp hname⟩
    have hscope : t1.scopes[t.scopes.size]? = some sc := by
      rw [hscopes]
      exact Array.getElem?_setIfInBounds_self_of_lt (Array.getElem?_eq_some_iff.mp hopened).1
    have hkept : ∀ {n : Nat} {sc : Scope}, t.scopes[n]? = some sc → t1.scopes[n]? = some sc := fun {n sc} hn => by
      have hlt := (Array.getElem?_eq_some_iff.mp hn).1
      rw [hscopes, Array.getElem?_setIfInBounds_ne (Nat.ne_of_gt hlt)]
      exact (Array.getElem?_push_lt hlt).trans ((Array.getElem?_eq_getElem hlt).symm.trans hn)
    have hsize : t1.scopes.size = t.scopes.size + 1 := by
      rw [hscopes, Array.size_setIfInBounds]
      exact Array.size_push _
    obtain ⟨new, copies, rfl, hnew, hrecreated', hkept', hcopies, hplaces, hsize', hchain⟩ :=
      copyChain_recreates h htidy
    have hcopyOf := hreceived.copyOf hsrc.mem_ordered
    refine ⟨first ++ new,
      sc :: copies, by simp, ?_, hrecreated.of_addScope.trans hrecreated', fun hn => hkept' (hkept hn), ?_, ?_, ?_, ?_⟩
    · rw [map_append, hfirst, hnew, flatMap_cons, Scope.listing]
    · exact .cons (hcopyOf.mono (subset_append_left _ _)) (hcopies.imp fun _ _ hc => hc.mono (subset_append_right _ _))
    · refine forall_mem_cons.mpr ⟨⟨_, Nat.le_refl _, hkept' hscope⟩, fun c hc => ?_⟩
      obtain ⟨n, hn, hat⟩ := hplaces c hc
      exact ⟨n, by omega, hat⟩
    · rw [hsize', hsize, length_cons]
      omega
    · intro fuel outer houter
      have hparent : sc.parent = parent := congrArg Scope.parent hreceived.same
      have hfirst : t1.chainAux (fuel + 1) t.scopes.size = .ok (sc :: outer) :=
        chainAux_succ (scope_eq_ok.mpr ⟨_, rfl, hscope⟩)
          (by rw [hparent]; exact chainAux_mono hkept houter (Nat.le_refl _))
      have hrest := hchain hfirst
      rw [length_cons, reverse_cons, append_assoc, singleton_append]
      rwa [Nat.add_assoc, Nat.add_comm 1] at hrest

/-! ### The copy as a whole -/

/-- The second table has, besides all that the first has, a copy of the chain of scopes. -/
structure IsCopy (t t' : SymbolTable) (ρ : Renumbering) (scopes copies : List Scope) : Prop where
  scopes_kept : ∀ {n : Nat} {sc : Scope}, t.scopes[n]? = some sc → t'.scopes[n]? = some sc
  symbols_kept : ∀ {n : Nat} {s : Symbol}, t.symbols[n]? = some s → t'.symbols[n]? = some s
  /-- The scopes are copied one by one, and all copies are new. -/
  copied : List.Forall₂ (Scope.CopyOf ρ) scopes copies
  places : ∀ c ∈ copies, ∃ n : Nat, t.scopes.size ≤ n ∧ t'.scopes[n]? = some c ∧ c.id = n
  /-- The symbols of the scopes have one copy each. -/
  sources : (ρ.map Prod.fst).Nodup
  mem_sources : ∀ id, id ∈ ρ.map Prod.fst ↔ ∃ s, t.symbol id = .ok s ∧ ∃ sc ∈ scopes, s.scope = sc.id
  /-- The new symbols are a copy of one symbol each. -/
  targets : (ρ.map Prod.snd).Nodup
  mem_targets : ∀ id, id ∈ ρ.map Prod.snd ↔ ∃ n : Nat, id = n ∧ t.symbols.size ≤ n ∧ n < t'.symbols.size
  symbols : ∀ p ∈ ρ, ∃ s s', t.symbol p.1 = .ok s ∧ t'.symbol p.2 = .ok s' ∧ s'.name = s.name ∧ s'.type = s.type ∧
    s'.overloadable = s.overloadable

theorem Regular.mem_listing (h : t.Regular) {k : Nat} (hsc : t.scopes[k]? = some sc) :
    id ∈ sc.listing ↔ ∃ s, t.symbol id = .ok s ∧ s.scope = k := by
  rw [Scope.listing, mem_flatMap]
  constructor
  · rintro ⟨name, -, hid⟩
    obtain ⟨n, s, rfl, hn, -, hscope⟩ := (h.sound.listed hsc name id).mp hid
    exact ⟨s, symbol_eq_ok.mpr ⟨n, rfl, hn⟩, hscope⟩
  · rintro ⟨s, hs, hscope⟩
    obtain ⟨n, rfl, hn⟩ := symbol_eq_ok.mp hs
    have hid := (h.sound.listed hsc s.name n).mpr ⟨n, s, rfl, hn, rfl, hscope⟩
    exact ⟨s.name, ((h.tidy hsc).mem_ordered s.name).mpr (ne_nil_of_mem hid), hid⟩

theorem Regular.chainAux_descends (h : t.Regular) :
    ∀ {fuel : Nat} {i : ScopeId} {scopes : List Scope}, t.chainAux fuel i = .ok scopes →
    scopes.Pairwise (fun s s' => s'.id < s.id) ∧ ∀ s ∈ scopes, s.id ≤ i ∧ ∃ k : Nat, t.scopes[k]? = some s
  | 0, i, scopes, hchain => by cases hchain
  | fuel + 1, i, scopes, hchain => by
    rw [chainAux] at hchain
    split at hchain
    · cases hchain
      exact ⟨.nil, by simp⟩
    · obtain ⟨sc, hsc, hchain⟩ := bind_eq_ok.mp hchain
      obtain ⟨rest, hrest, hchain⟩ := bind_eq_ok.mp hchain
      cases hchain
      obtain ⟨n, rfl, hn⟩ := scope_eq_ok.mp hsc
      obtain ⟨hpairs, hall⟩ := h.chainAux_descends hrest
      have hid := h.scopeIds hn
      have hparent : sc.parent < sc.id := by
        rcases h.nested.parent hn with hroot | ⟨k, hk, hlt⟩
        · rw [hroot, hid]
          exact Int.lt_of_lt_of_le (by decide) (Int.natCast_nonneg n)
        · rw [hk, hid]
          exact Int.ofNat_lt.mpr hlt
      refine ⟨pairwise_cons.mpr ⟨fun s hs => Int.lt_of_le_of_lt (hall s hs).1 hparent, hpairs⟩,
        forall_mem_cons.mpr ⟨⟨Int.le_of_eq hid, n, hn⟩, fun s hs => ⟨?_, (hall s hs).2⟩⟩⟩
      exact Int.le_trans (hall s hs).1 (Int.le_of_lt (hid ▸ hparent))

theorem Regular.nodup_listing (h : t.Regular) (hscopes : ∀ s ∈ scopes, ∃ k : Nat, t.scopes[k]? = some s)
    (hids : scopes.Pairwise fun s s' => s.id ≠ s'.id) : (scopes.flatMap Scope.listing).Nodup := by
  refine nodup_flatMap.mpr ⟨fun sc hsc => ?_, ?_⟩
  · obtain ⟨k, hk⟩ := hscopes sc hsc
    refine nodup_flatMap.mpr ⟨fun name _ => h.sound.nodup hk name,
      (h.tidy hk).distinct.imp fun {a b} hne id ha hb => hne ?_⟩
    obtain ⟨n, s, rfl, hs, rfl, -⟩ := (h.sound.listed hk a id).mp ha
    obtain ⟨m, s', hm, hs', rfl, -⟩ := (h.sound.listed hk b n).mp hb
    obtain rfl : n = m := Int.ofNat.inj hm
    rw [Option.some.inj (hs.symm.trans hs')]
  · refine hids.imp_of_mem fun {a b} ha hb hne id hida hidb => hne ?_
    obtain ⟨k, hk⟩ := hscopes a ha
    obtain ⟨k', hk'⟩ := hscopes b hb
    obtain ⟨s, hs, hscope⟩ := (h.mem_listing hk).mp hida
    obtain ⟨s', hs', hscope'⟩ := (h.mem_listing hk').mp hidb
    rw [h.scopeIds hk, h.scopeIds hk', ← hscope, ← hscope', Except.ok.inj (hs.symm.trans hs')]

theorem eq_map_copyOf (hkeys : (ρ.map Prod.fst).Nodup) {ids' : List SymbolId}
    (h : Forall₂ (fun old new => (old, new) ∈ ρ) ids ids') : ids' = ids.map ρ.copyOf := by
  induction h with
  | nil => rfl
  | cons hp _ ih => rw [map_cons, ← ih, Renumbering.copyOf, lookup_of_mem hkeys hp, Option.getD_some]

/-- The innermost symbols of a name have their copies for the innermost symbols of the copy. -/
theorem innermostSymbols_copied (hkeys : (ρ.map Prod.fst).Nodup) (h : Forall₂ (Scope.CopyOf ρ) scopes copies) :
    innermostSymbols name copies = (innermostSymbols name scopes).map ρ.copyOf := by
  induction h with
  | nil => rfl
  | cons hc _ ih =>
    rw [innermostSymbols, innermostSymbols, eq_map_copyOf hkeys (hc.symbols name), isEmpty_map, ih]
    split <;> rfl

theorem Regular.isCopy (h : t.Regular) (h' : t'.Regular) (hchain : t.chainAux fuel i = .ok scopes)
    (hcopy : copyChain (t, []) noScope scopes.reverse = .ok (t', ρ, dst)) :
    ∃ copies, t'.chain dst = .ok copies ∧ t.IsCopy t' ρ scopes copies := by
  obtain ⟨hpairs, hall⟩ := h.chainAux_descends hchain
  obtain ⟨new, copies, heq, hnew, hrecreated, hkept, hcopies, hplaces, hsize, hout⟩ :=
    copyChain_recreates hcopy fun src hsrc => by
    obtain ⟨-, k, hk⟩ := hall src (mem_reverse.mp hsrc)
    exact ⟨_, h.tidy hk⟩
  rw [nil_append] at heq
  subst heq
  have hlinks := hout (show t.chainAux 1 noScope = .ok [] from rfl)
  have hsources : (ρ.map Prod.fst).Nodup := by
    rw [hnew]
    refine h.nodup_listing (fun s hs => (hall s (mem_reverse.mp hs)).2)
      (pairwise_reverse.mpr (hpairs.imp fun hlt => ?_))
    exact Int.ne_of_lt hlt
  have hmem : ∀ id, id ∈ ρ.map Prod.fst ↔ ∃ s, t.symbol id = .ok s ∧ ∃ sc ∈ scopes, s.scope = sc.id := fun id => by
    rw [hnew, mem_flatMap]
    constructor
    · rintro ⟨sc, hsc, hid⟩
      obtain ⟨-, k, hk⟩ := hall sc (mem_reverse.mp hsc)
      obtain ⟨s, hs, hscope⟩ := (h.mem_listing hk).mp hid
      exact ⟨s, hs, sc, mem_reverse.mp hsc, hscope.trans (h.scopeIds hk).symm⟩
    · rintro ⟨s, hs, sc, hsc, hscope⟩
      obtain ⟨-, k, hk⟩ := hall sc hsc
      exact ⟨sc, mem_reverse.mpr hsc, (h.mem_listing hk).mpr ⟨s, hs, hscope.trans (h.scopeIds hk)⟩⟩
  have hcopied : Forall₂ (Scope.CopyOf ρ) scopes copies.reverse := by
    rwa [← forall₂_reverse_iff, reverse_reverse]
  have hplaced : ∀ c ∈ copies.reverse, ∃ n : Nat, t.scopes.size ≤ n ∧ t'.scopes[n]? = some c ∧
      c.id = n := fun c hc => by
    obtain ⟨n, hn, hat⟩ := hplaces c (mem_reverse.mp hc)
    exact ⟨n, hn, hat, h'.scopeIds hat⟩
  refine ⟨copies.reverse, ?_, hkept, hrecreated.kept, hcopied, hplaced, hsources, hmem, ?_, ?_, ?_⟩
  · rw [List.append_nil] at hlinks
    exact chainAux_mono (fun h => h) hlinks (by rw [hsize]; omega)
  · rw [hrecreated.numbers]
    exact (nodup_range' (h := by decide)).map fun _ _ => Int.natCast_inj.mp
  · intro id
    rw [hrecreated.numbers, hrecreated.size]
    simp only [mem_map, mem_range'_1]
    exact exists_congr fun n => by rw [and_comm, eq_comm]
  · rintro ⟨old, id⟩ hp
    obtain ⟨s, hs, sc, hsc, hscope⟩ := (hmem old).mp (mem_map_of_mem hp)
    obtain ⟨r, s', hr, hs', htype, hover⟩ := hrecreated.copies _ hp
    cases (hrecreated.symbol hs).symm.trans hr
    refine ⟨s, s', hs, hs', ?_, htype, hover⟩
    -- the copy is listed under the name of the symbol
    obtain ⟨-, k, hk⟩ := hall sc hsc
    obtain ⟨c, hc, hcopyOf⟩ := exists_of_forall₂ hcopied.flip hsc
    obtain ⟨n, -, hat, -⟩ := hplaced c hc
    obtain ⟨m, rfl, hm⟩ := symbol_eq_ok.mp hs
    have hold := (h.sound.listed hk s.name m).mpr ⟨m, s, rfl, hm, rfl, hscope.trans (h.scopeIds hk)⟩
    have hid : id ∈ c.symbolsOf s.name := by
      rw [eq_map_copyOf hsources (hcopyOf.symbols s.name)]
      refine mem_map.mpr ⟨m, hold, ?_⟩
      rw [Renumbering.copyOf, lookup_of_mem hsources hp, Option.getD_some]
    obtain ⟨m', r', rfl, hm', hname, -⟩ := (h'.sound.listed hat s.name id).mp hid
    cases (symbol_eq_ok.mpr ⟨m', rfl, hm'⟩).symm.trans hs'
    exact hname

theorem chainAux_cases (h : t.chainAux fuel i = .ok scopes) :
    (i = noScope ∧ scopes = []) ∨ ∃ sc rest, t.scope i = .ok sc ∧ scopes = sc :: rest := by
  cases fuel with
  | zero => cases h
  | succ fuel =>
    rw [chainAux] at h
    split at h
    · next hroot =>
      cases h
      exact .inl ⟨hroot, rfl⟩
    · obtain ⟨sc, hsc, h⟩ := bind_eq_ok.mp h
      obtain ⟨rest, -, h⟩ := bind_eq_ok.mp h
      cases h
      exact .inr ⟨sc, rest, hsc, rfl⟩

theorem IsCopy.le_dst (h : t.IsCopy t' ρ scopes copies) (h' : t'.Regular) (hsc : t.scope i = .ok sc)
    (hchain : t.chain i = .ok scopes) (hchain' : t'.chain dst = .ok copies) : (t.scopes.size : Int) ≤ dst := by
  obtain ⟨hroot, -⟩ | ⟨src, rest, -, rfl⟩ := chainAux_cases hchain
  · exact absurd hroot (ne_noScope hsc)
  · obtain ⟨c, cs, -, -, rfl⟩ := forall₂_cons_left_iff.mp h.copied
    obtain ⟨-, hnil⟩ | ⟨c', cs', hc', hcons⟩ := chainAux_cases hchain'
    · cases hnil
    · cases hcons
      obtain ⟨n, rfl, hn⟩ := scope_eq_ok.mp hc'
      obtain ⟨m, hm, -, hid⟩ := h.places c mem_cons_self
      have hnm : (n : Int) = m := (h'.scopeIds hn).symm.trans hid
      omega

/-- **Copies of scopes.** After all operations on an empty table a scope can be copied. Nothing that was there changes,
the copy of the chain is new, its symbols are copies of those of the chain, one each, and every name has the copies of
its symbols for its symbols. -/
theorem copied_scope_isomorphic (ops : List Operation) (hops : Operation.AllAdmissible {} ops) (i : ScopeId)
    (sc : Scope) (hsc : (Operation.afterAll ops {}).scope i = .ok sc) :
    let t := Operation.afterAll ops {}
    ∃ t' ρ dst scopes copies, (UpdateM.copyScope i).run t = (.ok (ρ, dst), t') ∧ t.chain i = .ok scopes ∧
      t'.chain dst = .ok copies ∧ (t.scopes.size : Int) ≤ dst ∧ t.IsCopy t' ρ scopes copies ∧
      ∀ name, ∃ ids, t.lookup i name = .ok ids ∧ t'.lookup dst name = .ok (ids.map ρ.copyOf) := by
  intro t
  have h : t.Regular := Operation.regular_afterAll .empty hops
  obtain ⟨t', ρ, dst, hcopy, h'⟩ := h.copyScope (.inr (Operation.exists_lt_of_scope hsc))
  have hrun := UpdateM.run_copyScope hcopy
  obtain ⟨scopes, hchain, hcopy⟩ := bind_eq_ok.mp hcopy
  obtain ⟨copies, hchain', hisCopy⟩ := h.isCopy h' hchain hcopy
  refine ⟨t', ρ, dst, scopes, copies, hrun, hchain, hchain', hisCopy.le_dst h' hsc hchain hchain', hisCopy,
    fun name => ⟨_, lookup_of_chain hchain, ?_⟩⟩
  rw [lookup_of_chain hchain', innermostSymbols_copied hisCopy.sources hisCopy.copied]

/-- The copy of the scope `1` of the sample, in which `f` hides the overloads of `f` around it. -/
theorem sampleOperations_copied :
    let t := Operation.afterAll sampleOperations {}
    Operation.AllAdmissible {} sampleOperations ∧ (∃ sc, t.scope 1 = .ok sc) ∧
    ∃ t' ρ dst, (UpdateM.copyScope 1).run t = (.ok (ρ, dst), t') ∧ t.lookup 1 "f" = .ok [3] ∧
      t'.lookup dst "f" = .ok [ρ.copyOf 3] ∧ t'.lookup dst "x" = .ok [ρ.copyOf 1] := by
  have hops : Operation.AllAdmissible {} sampleOperations :=
    ⟨.inl rfl, trivial, trivial, trivial, trivial, .inr ⟨_, rfl⟩, trivial, trivial, trivial, trivial, trivial, trivial⟩
  have hf : (Operation.afterAll sampleOperations {}).lookup 1 "f" = .ok [3] := by decide +kernel
  have hx : (Operation.afterAll sampleOperations {}).lookup 1 "x" = .ok [1] := by decide +kernel
  have hscope : ((Operation.afterAll sampleOperations {}).scope 1).toOption.map (fun _ => ()) = some () := by
    decide +kernel
  obtain ⟨sc, hsc, -⟩ := exists_ok_of_toOption_map hscope
  obtain ⟨t', ρ, dst, -, -, hrun, -, -, -, -, hlookup⟩ := copied_scope_isomorphic sampleOperations hops 1 sc hsc
  refine ⟨hops, ⟨sc, hsc⟩, t', ρ, dst, hrun, hf, ?_, ?_⟩
  · obtain ⟨ids, hids, hcopy⟩ := hlookup "f"
    cases hf.symm.trans hids
    exact hcopy
  · obtain ⟨ids, hids, hcopy⟩ := hlookup "x"
    cases hx.symm.trans hids
    exact hcopy

end SymbolTable

end TypeInference
