import TypeInference.Proofs.Placement

/-! # Declarations in a scope

What a scope lists is told by the declarations that were made in it, one after the other (`SymbolTable.Holds`). From one
table to the next, a scope gains declarations and all other scopes stay as they are or are new (`SymbolTable.Gains`).
The rules for it put the declarations of a construct together in the order in which they are made. -/

namespace TypeInference

open AnalysisM

/-! ### Lists of declarations -/

/-- A name that is declared, with its symbol. It has none if the name was taken. -/
structure Declaration where
  name : String
  overloadable : Bool
  symbol : SymbolId
deriving DecidableEq, Repr

namespace Declaration

variable {name : String} {before ds ds' : List Declaration} {d : Declaration}

def symbolsOf (name : String) (ds : List Declaration) : List SymbolId :=
  (ds.filter fun d => d.name = name ∧ d.symbol ≠ noSymbol).map Declaration.symbol

/-- The name of the declaration has a symbol before that it cannot share the name with. -/
def Taken (before : List Declaration) (d : Declaration) : Prop :=
  ∃ b ∈ before, b.name = d.name ∧ b.symbol ≠ noSymbol ∧ ¬ (b.overloadable = true ∧ d.overloadable = true)

/-- A declaration has no symbol exactly if its name was taken. -/
def Answered (before : List Declaration) : List Declaration → Prop
  | [] => True
  | d :: ds => (d.symbol = noSymbol ↔ d.Taken before) ∧ Answered (before ++ [d]) ds

theorem symbolsOf_append : symbolsOf name (ds ++ ds') = symbolsOf name ds ++ symbolsOf name ds' := by
  simp [symbolsOf]

theorem mem_symbolsOf {id : SymbolId} : id ∈ symbolsOf name ds ↔ ∃ d ∈ ds, d.name = name ∧ d.symbol ≠ noSymbol ∧
    d.symbol = id := by
  simp [symbolsOf, and_assoc]

theorem answered_concat (h : Answered before ds) (hd : d.symbol = noSymbol ↔ d.Taken (before ++ ds)) :
    Answered before (ds ++ [d]) := by
  induction ds generalizing before with
  | nil => exact ⟨by simpa using hd, trivial⟩
  | cons d0 ds ih => exact ⟨h.1, ih h.2 (by simpa using hd)⟩

end Declaration

namespace SymbolTable

variable {t t1 t2 : SymbolTable} {i j : ScopeId} {ds ds' : List Declaration} {name : String}
  {overloadable : Bool} {type : Ty}

/-! ### What a scope holds -/

/-- The scope lists what was declared in it. -/
structure Holds (t : SymbolTable) (i : ScopeId) (ds : List Declaration) : Prop where
  names : ∃ s, t.scope i = .ok s ∧ ∀ name, s.symbolsOf name = Declaration.symbolsOf name ds
  flags : ∀ d ∈ ds, d.symbol ≠ noSymbol → ∃ s, t.symbol d.symbol = .ok s ∧ s.overloadable = d.overloadable
  answered : Declaration.Answered [] ds

/-- All scopes are still there, and none but `i` has other names. -/
structure GrowsAt (i : ScopeId) (t t1 : SymbolTable) : Prop where
  others : ∀ {j : ScopeId} {s : Scope}, t.scope j = .ok s → j ≠ i → t1.scope j = .ok s
  heads : ∀ {j : ScopeId} {s : Scope}, t.scope j = .ok s → ∃ s1, t1.scope j = .ok s1 ∧ s1.id = s.id ∧
    s1.parent = s.parent
  symbols : ∀ {id : SymbolId} {s : Symbol}, t.symbol id = .ok s → t1.symbol id = .ok s

/-- The scope `i` has gained declarations; the other scopes are as they were, or new. -/
structure Gains (i : ScopeId) (ds : List Declaration) (t t1 : SymbolTable) : Prop extends GrowsAt i t t1 where
  holds : ∀ {prior : List Declaration}, t.Holds i prior → t1.Holds i (prior ++ ds)

theorem Holds.mono (h : t.Holds i ds) (hg : GrowsAt j t t1) (hij : i ≠ j) : t1.Holds i ds where
  names := by
    obtain ⟨s, hs, hnames⟩ := h.names
    exact ⟨s, hg.others hs hij, hnames⟩
  flags d hd hne := by
    obtain ⟨s, hs, hover⟩ := h.flags d hd hne
    exact ⟨s, hg.symbols hs, hover⟩
  answered := h.answered

theorem Gains.refl (i : ScopeId) (t : SymbolTable) : Gains i [] t t where
  others hs _ := hs
  heads hs := ⟨_, hs, rfl, rfl⟩
  symbols hs := hs
  holds h := by simpa using h

theorem GrowsAt.trans (h : GrowsAt i t t1) (h' : GrowsAt i t1 t2) : GrowsAt i t t2 where
  others hs hne := h'.others (h.others hs hne) hne
  heads hs := by
    obtain ⟨s1, hs1, hid, hparent⟩ := h.heads hs
    obtain ⟨s2, hs2, hid', hparent'⟩ := h'.heads hs1
    exact ⟨s2, hs2, hid'.trans hid, hparent'.trans hparent⟩
  symbols hs := h'.symbols (h.symbols hs)

theorem Gains.trans (h : Gains i ds t t1) (h' : Gains i ds' t1 t2) : Gains i (ds ++ ds') t t2 where
  toGrowsAt := h.toGrowsAt.trans h'.toGrowsAt
  holds hprior := List.append_assoc .. ▸ h'.holds (h.holds hprior)

theorem Gains.inside (h : Gains i ds t t1) (h' : Gains j ds' t1 t2) (hnew : ∀ s, t.scope j ≠ .ok s) (hij : i ≠ j) :
    Gains i ds t t2 where
  others {k s} hs hne := h'.others (h.others hs hne) fun hkj => hnew s (hkj ▸ hs)
  heads hs := by
    obtain ⟨s1, hs1, hid, hparent⟩ := h.heads hs
    obtain ⟨s2, hs2, hid', hparent'⟩ := h'.heads hs1
    exact ⟨s2, hs2, hid'.trans hid, hparent'.trans hparent⟩
  symbols hs := h'.symbols (h.symbols hs)
  holds hprior := (h.holds hprior).mono h'.toGrowsAt hij

/-! ### One declaration -/

theorem Holds.mem_iff (h : t.Sound) (hi : t.Holds i ds) {a : Nat} : (a : Int) ∈ Declaration.symbolsOf name ds ↔
    ∃ s, t.symbols[a]? = some s ∧ s.name = name ∧ s.scope = i := by
  obtain ⟨sc, hsc, hnames⟩ := hi.names
  obtain ⟨m, hm, hat⟩ := scope_eq_ok.mp hsc
  rw [← hnames name, h.listed hat name a]
  constructor
  · rintro ⟨b, s, hb, hs, hname, hscope⟩
    obtain rfl : a = b := Int.ofNat.inj hb
    exact ⟨s, hs, hname, hscope.trans hm.symm⟩
  · rintro ⟨s, hs, hname, hscope⟩
    exact ⟨a, s, rfl, hs, hname, hscope.trans hm⟩

theorem Holds.taken_iff (h : t.Sound) (hi : t.Holds i ds) {id : SymbolId} :
    Declaration.Taken ds ⟨name, overloadable, id⟩ ↔ ¬ t.Free i name overloadable := by
  obtain ⟨sc, hsc, -⟩ := hi.names
  obtain ⟨n, rfl, hn⟩ := scope_eq_ok.mp hsc
  constructor
  · rintro ⟨b, hb, hname, hne, hshare⟩ hfree
    have hmem : b.symbol ∈ Declaration.symbolsOf name ds := Declaration.mem_symbolsOf.mpr ⟨b, hb, hname, hne, rfl⟩
    obtain ⟨s, hs, hover⟩ := hi.flags b hb hne
    obtain ⟨a, ha, hat⟩ := symbol_eq_ok.mp hs
    rw [ha] at hmem
    obtain ⟨s', hs', hsname, hsscope⟩ := (hi.mem_iff h).mp hmem
    obtain rfl := Option.some.inj (hat.symm.trans hs')
    obtain ⟨htrue, htrue'⟩ := hfree.symbols hat hsscope hsname
    exact hshare ⟨hover ▸ htrue', htrue⟩
  · intro hfree
    by_contra htaken
    refine hfree ⟨⟨n, rfl, (Array.getElem?_eq_some_iff.mp hn).1⟩, fun {a s} ha hscope hname => ?_⟩
    have hmem : (a : Int) ∈ Declaration.symbolsOf name ds := (hi.mem_iff h).mpr ⟨s, ha, hname, hscope⟩
    obtain ⟨b, hb, hbname, hne, hid⟩ := Declaration.mem_symbolsOf.mp hmem
    obtain ⟨s', hs', hover⟩ := hi.flags b hb hne
    rw [hid] at hs'
    obtain ⟨a', ha', hat⟩ := symbol_eq_ok.mp hs'
    obtain rfl : a = a' := Int.ofNat.inj ha'
    obtain rfl := Option.some.inj (ha.symm.trans hat)
    have hshare : b.overloadable = true ∧ overloadable = true := by
      by_contra hshare
      exact htaken ⟨b, hb, hbname, hne, hshare⟩
    exact ⟨hshare.2, hover.trans hshare.1⟩

theorem gains_declared (h : t.Sound) {n : Nat} {sc : Scope} (hsc : t.scopes[n]? = some sc)
    (hfree : t.Free n name overloadable) :
    Gains n [⟨name, overloadable, t.symbols.size⟩] t (t.declared n sc name type overloadable) := by
  have hat : (t.declared n sc name type overloadable).scope n = .ok (sc.add name t.symbols.size) :=
    scope_eq_ok.mpr ⟨n, rfl, by rw [getElem?_scopes_declared hsc, if_pos rfl]⟩
  have hothers : ∀ {j : ScopeId} {s : Scope}, t.scope j = .ok s → j ≠ n →
      (t.declared n sc name type overloadable).scope j = .ok s := by
    intro j s hs hne
    obtain ⟨k, rfl, hk⟩ := scope_eq_ok.mp hs
    have hnk : n ≠ k := fun heq => hne (congrArg Nat.cast heq.symm)
    exact scope_eq_ok.mpr ⟨k, rfl, by rwa [getElem?_scopes_declared hsc, if_neg hnk]⟩
  have hsymbols : ∀ {id : SymbolId} {s : Symbol}, t.symbol id = .ok s →
      (t.declared n sc name type overloadable).symbol id = .ok s := by
    intro id s hs
    obtain ⟨a, rfl, ha⟩ := symbol_eq_ok.mp hs
    exact symbol_eq_ok.mpr ⟨a, rfl, symbols_declared_of_lt ha⟩
  have hnoSymbol : (t.symbols.size : SymbolId) ≠ noSymbol := natCast_ne_noSymbol _
  refine ⟨⟨hothers, fun {j s} hs => ?_, hsymbols⟩, fun {prior} hprior => ⟨?_, fun d hd hne => ?_, ?_⟩⟩
  · by_cases hj : j = n
    · subst hj
      obtain ⟨k, hk, hkat⟩ := scope_eq_ok.mp hs
      obtain rfl : n = k := Int.ofNat.inj hk
      obtain rfl := Option.some.inj (hsc.symm.trans hkat)
      exact ⟨_, hat, rfl, rfl⟩
    · exact ⟨s, hothers hs hj, rfl, rfl⟩
  · obtain ⟨s, hs, hnames⟩ := hprior.names
    obtain ⟨k, hk, hkat⟩ := scope_eq_ok.mp hs
    obtain rfl : n = k := Int.ofNat.inj hk
    obtain rfl := Option.some.inj (hsc.symm.trans hkat)
    refine ⟨_, hat, fun other => ?_⟩
    rw [symbolsOf_add, Declaration.symbolsOf_append, hnames, hnames]
    by_cases hother : other = name
    · simp [hother, Declaration.symbolsOf, hnoSymbol]
    · have hne : name ≠ other := fun h => hother h.symm
      simp [hother, hne, Declaration.symbolsOf]
  · rcases List.mem_append.mp hd with hd | hd
    · obtain ⟨s, hs, hover⟩ := hprior.flags d hd hne
      exact ⟨s, hsymbols hs, hover⟩
    · obtain rfl := List.mem_singleton.mp hd
      exact ⟨_, symbol_eq_ok.mpr ⟨_, rfl, Array.getElem?_push_size⟩, rfl⟩
  · refine Declaration.answered_concat hprior.answered ?_
    rw [List.nil_append, hprior.taken_iff h]
    exact iff_of_false hnoSymbol (not_not.mpr hfree)

theorem gains_refused (h : t.Sound) (hfree : ¬ t.Free i name overloadable) :
    Gains i [⟨name, overloadable, noSymbol⟩] t t where
  toGrowsAt := (Gains.refl i t).toGrowsAt
  holds {prior} hprior := by
    obtain ⟨s, hs, hnames⟩ := hprior.names
    refine ⟨⟨s, hs, fun other => ?_⟩, fun d hd hne => ?_, Declaration.answered_concat hprior.answered ?_⟩
    · rw [Declaration.symbolsOf_append, hnames]
      simp [Declaration.symbolsOf]
    · rcases List.mem_append.mp hd with hd | hd
      · exact hprior.flags d hd hne
      · obtain rfl := List.mem_singleton.mp hd
        exact absurd rfl hne
    · rw [List.nil_append, hprior.taken_iff h]
      exact iff_of_true rfl hfree

/-! ### New scopes -/

/-- A construct has a scope of its own inside of another, and declares these names in it. -/
structure Opens (t : SymbolTable) (outer inner : ScopeId) (ds : List Declaration) : Prop where
  order : outer < inner
  scope : ∃ s, t.scope inner = .ok s ∧ s.id = inner ∧ s.parent = outer
  holds : t.Holds inner ds

namespace Opens

variable {outer inner : ScopeId}

theorem mono (h : t.Opens outer inner ds) (hg : GrowsAt i t t1) (hi : i ≤ outer) : t1.Opens outer inner ds where
  order := h.order
  scope := by
    obtain ⟨s, hs, hid, hparent⟩ := h.scope
    obtain ⟨s1, hs1, hid1, hparent1⟩ := hg.heads hs
    exact ⟨s1, hs1, hid1.trans hid, hparent1.trans hparent⟩
  holds := h.holds.mono hg (Int.ne_of_gt (Int.lt_of_le_of_lt hi h.order))

theorem gains (h : t.Opens outer inner ds) (hg : Gains inner ds' t t1) : t1.Opens outer inner (ds ++ ds') where
  order := h.order
  scope := by
    obtain ⟨s, hs, hid, hparent⟩ := h.scope
    obtain ⟨s1, hs1, hid1, hparent1⟩ := hg.heads hs
    exact ⟨s1, hs1, hid1.trans hid, hparent1.trans hparent⟩
  holds := hg.holds h.holds

/-- The scope that was opened is filled: what is declared in it does not count outside of it. -/
theorem own (h : t1.Opens outer inner []) (hnew : ∀ s, t.scope inner ≠ .ok s) (hgrows : Gains outer [] t t1)
    (hg : Gains inner ds t1 t2) : Gains outer [] t t2 ∧ t2.Opens outer inner ds :=
  ⟨hgrows.inside hg hnew (Int.ne_of_lt h.order), h.gains hg⟩

end Opens

theorem scope_addScope {label module : String} {kind : ScopeKind} {parent : ScopeId} {s : Scope}
    (hs : t.scope i = .ok s) : (t.addScope label kind parent module).1.scope i = .ok s := by
  obtain ⟨n, rfl, hn⟩ := scope_eq_ok.mp hs
  refine scope_eq_ok.mpr ⟨n, rfl, ?_⟩
  refine Array.getElem?_push.trans ?_
  rw [if_neg (Nat.ne_of_lt (Array.getElem?_eq_some_iff.mp hn).1)]
  exact hn

theorem gains_addScope (i : ScopeId) (label : String) (kind : ScopeKind) (parent : ScopeId) (module : String) :
    Gains i [] t (t.addScope label kind parent module).1 where
  others hs _ := scope_addScope hs
  heads hs := ⟨_, scope_addScope hs, rfl, rfl⟩
  symbols hs := hs
  holds h := by
    obtain ⟨s, hs, hnames⟩ := h.names
    rw [List.append_nil]
    exact ⟨⟨s, scope_addScope hs, hnames⟩, h.flags, h.answered⟩

end SymbolTable

/-! ### Parts of an analysis that declare -/

open SymbolTable

section

variable {c : Context} {i : ScopeId} {α : Type}

theorem Succeeds.also {P Q : α → Context → Prop} {x : AnalysisM α} (hx : Succeeds c P x)
    (h : ∀ {a c1}, x.run c = .ok (a, c1) → Q a c1) : Succeeds c (fun a c1 => P a c1 ∧ Q a c1) x := by
  intro hc
  obtain ⟨a, c1, hrun, hc1, hlater, ha⟩ := hx hc
  exact ⟨a, c1, hrun, hc1, hlater, ha, h hrun⟩

theorem canDeclare_decides (hi : c.HasScope i) (name : String) (overloadable : Bool) :
    Succeeds c (fun free c1 => c1 = c ∧ (free = true ↔ c.table.Free i name overloadable))
    (canDeclare i name overloadable) := by
  refine .get_bind (.lift fun hc => ?_)
  obtain ⟨free, hfree, -⟩ := hc.canDeclare_gives hi name overloadable
  refine ⟨free, hfree, rfl, ?_⟩
  rw [← canDeclare_eq_ok hc.sound, hfree]
  exact ⟨fun h => h ▸ rfl, fun h => Except.ok.inj h⟩

theorem declare_gains {name : String} {overloadable : Bool} {t : Ty} (hfree : c.table.Free i name overloadable)
    (ht : c.Has t) : Succeeds c (fun id c1 => id ≠ noSymbol ∧ Gains i [⟨name, overloadable, id⟩] c.table c1.table)
    (declare i name t overloadable) := by
  intro hc
  obtain ⟨id, c1, hrun, hc1, hlater, -⟩ := declare_succeeds hfree ht hc
  refine ⟨id, c1, hrun, hc1, hlater, ?_⟩
  obtain ⟨n, sc, rfl, hsc, hdeclare⟩ := declare_of_free hc.sound hfree t
  obtain ⟨a, c2, hget, hrun⟩ := run_bind_eq_ok.mp hrun
  cases hget
  obtain ⟨r, c3, hlift, hrun⟩ := run_bind_eq_ok.mp hrun
  obtain ⟨r', hr', heq⟩ := run_lift_eq_ok.mp hlift
  cases heq
  obtain rfl := Except.ok.inj (hdeclare.symm.trans hr')
  cases hrun
  exact ⟨natCast_ne_noSymbol _, gains_declared hc.sound hsc hfree⟩

theorem duplicate_table {token : Token} {name : String} {u : Unit} {c1 : Context}
    (h : (duplicate i token name).run c = .ok (u, c1)) : c1.table = c.table := by
  obtain ⟨a, c2, hget, h⟩ := run_bind_eq_ok.mp h
  cases hget
  obtain ⟨path, c3, hlift, h⟩ := run_bind_eq_ok.mp h
  obtain ⟨r, -, heq⟩ := run_lift_eq_ok.mp hlift
  cases heq
  cases h
  rfl

-- The type is made after the name was found to be free, so it must leave the table alone.
theorem declareOnce_decides (hi : c.HasScope i) (token : Token) (name : String) {type : AnalysisM Ty}
    (htype : Succeeds c (fun t c1 => c1.Has t ∧ c1.table = c.table) type) (overloadable : Bool) :
    Succeeds c (fun id c1 =>
        (∀ k ∈ id, c.table.Free i name overloadable ∧ k ≠ noSymbol ∧
          Gains i [⟨name, overloadable, k⟩] c.table c1.table) ∧
          (id = none → ¬ c.table.Free i name overloadable ∧ c1.table = c.table))
      (declareOnce i token name type overloadable) := by
  refine (canDeclare_decides hi name overloadable).bind fun free c1 _ h => ?_
  obtain ⟨rfl, hfree⟩ := h
  cases free with
  | true =>
    refine htype.bind fun t c2 _ h => ?_
    obtain ⟨ht, htable⟩ := h
    have hfree1 := hfree.mp rfl
    refine (declare_gains (htable ▸ hfree1) ht).bind fun id c3 _ hid =>
      .pure ⟨fun k hk => ?_, fun hnone => by cases hnone⟩
    cases hk
    rw [htable] at hid
    exact ⟨hfree1, hid⟩
  | false =>
    have hrefused : ¬ c1.table.Free i name overloadable := fun h => Bool.false_ne_true (hfree.mpr h)
    refine ((duplicate_succeeds hi token name).also duplicate_table).bind fun _ c2 _ h =>
      .pure ⟨fun k hk => ?_, fun _ => ⟨hrefused, h.2⟩⟩
    cases hk

theorem declareOnce_gains (hi : c.HasScope i) (token : Token) (name : String) {type : AnalysisM Ty}
    (htype : Succeeds c (fun t c1 => c1.Has t ∧ c1.table = c.table) type) (overloadable : Bool) :
    Succeeds c (fun id c1 => Gains i [⟨name, overloadable, id.getD noSymbol⟩] c.table c1.table)
      (declareOnce i token name type overloadable) := by
  intro hc
  obtain ⟨id, c1, hrun, hc1, hlater, hid⟩ := declareOnce_decides hi token name htype overloadable hc
  refine ⟨id, c1, hrun, hc1, hlater, ?_⟩
  cases id with
  | some k => exact (hid.1 k rfl).2.2
  | none =>
    rw [(hid.2 rfl).2]
    exact gains_refused hc.sound (hid.2 rfl).1

theorem newScope_opens {outer : ScopeId} (h : c.HasScope outer) (name : String) (kind : ScopeKind) (module : String) :
    Succeeds c (fun inner c1 => c1.HasScope inner ∧ c1.table.Opens outer inner [] ∧ (∀ s, c.table.scope inner ≠ .ok s) ∧
      ∀ i, Gains i [] c.table c1.table) (newScope name kind outer module) := by
  refine (newScope_succeeds h name kind module).also fun {inner c1} hrun => ?_
  cases hrun
  obtain ⟨n, rfl, hlt⟩ := h
  have hnew : (c.table.addScope name kind n module).1.scope c.table.scopes.size =
      .ok { id := c.table.scopes.size, name := name, kind := kind, parent := n, module := module } :=
    scope_eq_ok.mpr ⟨_, rfl, Array.getElem?_push_size⟩
  refine ⟨⟨?_, ⟨_, hnew, rfl, rfl⟩, ⟨_, hnew, fun _ => rfl⟩, by simp, trivial⟩, fun s hs => ?_,
    fun i => gains_addScope i ..⟩
  · exact_mod_cast hlt
  · obtain ⟨k, hk, hat⟩ := scope_eq_ok.mp hs
    obtain rfl : c.table.scopes.size = k := Int.ofNat.inj hk
    exact Nat.lt_irrefl _ (Array.getElem?_eq_some_iff.mp hat).1

theorem enter_opens {env : Enclosure} (h : c.HasScope env.scope) (name : String) (kind : ScopeKind) :
    Succeeds c (fun within c1 => c1.HasScope within.scope ∧ c1.table.Opens env.scope within.scope [] ∧
      (∀ s, c.table.scope within.scope ≠ .ok s) ∧ ∀ i, Gains i [] c.table c1.table) (env.enter name kind) :=
  (newScope_opens h name kind env.module).bind fun _ _ _ h => .pure h

end

/-! ### Parameters -/

def SignElem.parameterName (e : SignElem) : String := if e.name = "" then e.label else e.name

def SignElem.parameterNames (es : List (Option SignElem)) : List String :=
  ((es.filterMap id).map SignElem.parameterName).filter (· ≠ "")

theorem SignElem.parameterNames_cons (e : SignElem) (es : List (Option SignElem)) :
    SignElem.parameterNames (some e :: es) = if e.parameterName = "" then SignElem.parameterNames es
    else e.parameterName :: SignElem.parameterNames es := by
  by_cases hempty : e.parameterName = "" <;> simp [SignElem.parameterNames, hempty]

/-- The names of the parameters of a function with the signature. -/
def FuncSign.parameterNames : Option FuncSign → List String
  | some s => SignElem.parameterNames ((s.domain.map TupleSign.elems).getD [])
  | none => []

theorem Func.parameterNames_eq (f : Func) : SignElem.parameterNames f.parameters = FuncSign.parameterNames f.sign := by
  unfold Func.parameters
  cases f.sign <;> rfl

/-- What a function declares in its own scope before its body: its parameters, each name once. -/
def FuncSign.declares (sign : Option FuncSign) (params : List SymbolId) : List Declaration :=
  ((FuncSign.parameterNames sign).eraseDups.zip params).map fun p => ⟨p.1, false, p.2⟩

section

variable {c : Context} {i : ScopeId}

theorem SymbolTable.Holds.free_iff {t : SymbolTable} {ds : List Declaration} (h : t.Sound) (hi : t.Holds i ds)
    (name : String) : t.Free i name false ↔ Declaration.symbolsOf name ds = [] := by
  obtain ⟨s, hs, hnames⟩ := hi.names
  obtain ⟨n, rfl, hn⟩ := scope_eq_ok.mp hs
  rw [← hnames, ← List.isEmpty_iff, isEmpty_symbolsOf h hn]
  constructor
  · intro hfree a x ha hscope hname
    exact Bool.false_ne_true (hfree.symbols ha hscope hname).1
  · intro hnone
    exact ⟨⟨n, rfl, (Array.getElem?_eq_some_iff.mp hn).1⟩, fun ha hscope hname => absurd hname (hnone ha hscope)⟩

theorem eraseDups_filter_cons {name : String} {names seen : List String} (h : name ∉ seen) :
    ((name :: names).filter (· ∉ seen)).eraseDups = name :: (names.filter (· ∉ name :: seen)).eraseDups := by
  rw [List.filter_cons_of_pos (by simpa using h), List.eraseDups_cons, List.filter_filter]
  congr 3
  funext other
  by_cases hother : other = name <;> simp [hother]

/-- The names that were declared before are those of `seen`; the parameters are declared under the others, each name
once. -/
theorem declareParameters_gains :
    ∀ {ps : List (Option SignElem × Ty)} {c : Context} {prior : List Declaration} {seen : List String}, c.HasScope i →
    (∀ p ∈ ps, p.1 ≠ none ∧ c.Has p.2) → c.table.Holds i prior →
    (∀ name, Declaration.symbolsOf name prior = [] ↔ name ∉ seen) →
    Succeeds c (fun ids c1 =>
    ∃ names, names = ((SignElem.parameterNames (ps.map Prod.fst)).filter (· ∉ seen)).eraseDups ∧
      ids.length = names.length ∧ Gains i ((names.zip ids).map fun p => ⟨p.1, false, p.2⟩) c.table c1.table)
      (declareParameters i ps)
  | [], c, _, _, _, _, _, _ => .pure ⟨[], rfl, rfl, .refl i c.table⟩
  | (none, _) :: _, _, _, _, _, h, _, _ => absurd rfl (h _ List.mem_cons_self).1
  | (some e, t) :: ps, c, prior, seen, hi, h, hprior, hseen => by
    obtain ⟨⟨-, ht⟩, hps⟩ := List.forall_mem_cons.mp h
    have hname : (if e.name = "" then e.label else e.name) = e.parameterName := rfl
    unfold declareParameters
    dsimp only
    rw [List.map_cons, SignElem.parameterNames_cons, hname]
    by_cases hempty : e.parameterName = ""
    · rw [if_pos hempty, if_pos hempty]
      exact declareParameters_gains hi hps hprior hseen
    rw [if_neg hempty, if_neg hempty]
    intro hc
    have hfree := (hprior.free_iff hc.sound e.parameterName).trans (hseen e.parameterName)
    refine ((declareOnce_decides hi e.token e.parameterName (.pure ⟨ht, rfl⟩) false).bind fun id c1 hlater hid => ?_) hc
    have hps1 : ∀ p ∈ ps, p.1 ≠ none ∧ c1.Has p.2 := fun p hp => ⟨(hps p hp).1, hlater.has (hps p hp).2⟩
    cases id with
    | none =>
      obtain ⟨htaken, htable⟩ := hid.2 rfl
      have hmem : e.parameterName ∈ seen := by_contra fun hnot => htaken (hfree.mpr hnot)
      refine (declareParameters_gains (hlater.hasScope hi) hps1 (htable ▸ hprior) hseen).imp fun ids c2 _ hids => ?_
      obtain ⟨names, rfl, hlength, hgains⟩ := hids
      rw [htable] at hgains
      exact ⟨_, by simp [hmem], hlength, hgains⟩
    | some id =>
      obtain ⟨hfirst, hne, hgained⟩ := hid.1 id rfl
      have hseen1 : ∀ name, Declaration.symbolsOf name (prior ++ [⟨e.parameterName, false, id⟩]) = [] ↔
          name ∉ e.parameterName :: seen := by
        intro name
        rw [Declaration.symbolsOf_append, List.append_eq_nil_iff, hseen, List.mem_cons, not_or]
        by_cases hname : name = e.parameterName
        · simp [Declaration.symbolsOf, hname, hne]
        · simp [Declaration.symbolsOf, hname, Ne.symm hname]
      refine (declareParameters_gains (hlater.hasScope hi) hps1 (hgained.holds hprior) hseen1).bind fun ids c2 _ hids =>
        .pure ?_
      obtain ⟨names, rfl, hlength, hgains⟩ := hids
      exact ⟨_, (eraseDups_filter_cons (hfree.mp hfirst)).symm, congrArg Nat.succ hlength, hgained.trans hgains⟩

end

end TypeInference
