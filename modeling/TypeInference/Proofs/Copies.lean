import TypeInference.Proofs.Overloads
import TypeInference.Proofs.Slots

/-! # What stays the same in an analysis

A copy of a module is the module as it was read. Every stage of an analysis fills in slots and leaves the copy as it is
(`Reworked.copy`), and a copy is its own copy. -/

namespace TypeInference

open AnalysisM

variable {operators : Bool} {m : Module} {n n0 : Node}

/-! ### Copies of copies -/

theorem Sign.blank_blank (s : Sign) : Ensures (fun s0 => s0.blank = .ok s0) s.blank := fun s0 hs => by
  obtain ⟨rfl, -⟩ := s.blank_comes.ensures s0 hs
  rw [s.blank_mapNames (h := TypeName.blank) fun _ => rfl, hs]

theorem FuncSign.blank_blank (f : FuncSign) : Ensures (fun f0 => f0.blank = .ok f0) f.blank := fun f0 hf => by
  obtain ⟨rfl, -⟩ := f.blank_comes.ensures f0 hf
  rw [f.blank_mapNames (h := TypeName.blank) fun _ => rfl, hf]

theorem FuncSign.blankIfAny_blankIfAny (sign : Option FuncSign) :
    Ensures (fun sign0 => FuncSign.blankIfAny sign0 = .ok sign0) (FuncSign.blankIfAny sign) := by
  cases sign with
  | none => exact .ok rfl
  | some s => exact s.blank_blank.bind fun s0 hs => .ok (by rw [FuncSign.blankIfAny, hs]; rfl)

mutual
theorem Expr.blank_blank : ∀ e : Expr, Ensures (fun e0 => e0.blank = .ok e0) e.blank
  | .missing => .ok rfl
  | .func ⟨_, _, sign, body, _, _, _, _⟩ => by
    rw [Expr.blank_func]
    exact (FuncSign.blankIfAny_blankIfAny sign).bind fun s0 hs => body.blank_blank.bind fun b0 hb =>
      .ok (by rw [Expr.blank_func, hs, hb]; rfl)
  | .cond _ _ _ condition thenBranch elseBranch => condition.blank_blank.bind fun a ha =>
    thenBranch.blank_blank.bind fun b hb => elseBranch.blank_blank.bind fun d hd =>
    .ok (by rw [Expr.blank, ha, hb, hd]; rfl)
  | .matching _ subject cases => subject.blank_blank.bind fun a ha =>
    (MatchCase.blankAll_blankAll cases).bind fun cs hcs => .ok (by rw [Expr.blank, ha, hcs]; rfl)
  | .letBinding _ => .ok rfl
  | .binary _ _ left right => left.blank_blank.bind fun a ha => right.blank_blank.bind fun b hb =>
    .ok (by rw [Expr.blank, ha, hb]; rfl)
  | .unary _ _ operand => operand.blank_blank.bind fun a ha => .ok (by rw [Expr.blank, ha]; rfl)
  | .call _ callee args => callee.blank_blank.bind fun a ha => (Labelled.blankAll_blankAll args).bind fun as has =>
    .ok (by rw [Expr.blank, ha, has]; rfl)
  | .argument ⟨_, _, value⟩ => value.blank_blank.bind fun a ha => .ok (by rw [Expr.blank, ha]; rfl)
  | .tuple _ _ elems => (Labelled.blankAll_blankAll elems).bind fun es hes => .ok (by rw [Expr.blank, hes]; rfl)
  | .element ⟨_, _, value⟩ => value.blank_blank.bind fun a ha => .ok (by rw [Expr.blank, ha]; rfl)
  | .select _ owner _ => owner.blank_blank.bind fun a ha => .ok (by rw [Expr.blank, ha]; rfl)
  | .ident _ => .ok rfl
  | .literal .. => .ok rfl
theorem Labelled.blankAll_blankAll : ∀ xs : List (Option Labelled),
    Ensures (fun xs0 => Labelled.blankAll xs0 = .ok xs0) (Labelled.blankAll xs)
  | [] => .ok rfl
  | none :: _ => .error
  | some ⟨_, _, value⟩ :: rest => value.blank_blank.bind fun a ha =>
    (Labelled.blankAll_blankAll rest).bind fun as has => .ok (by rw [Labelled.blankAll, ha, has]; rfl)
theorem MatchCase.blank_blank : ∀ x : MatchCase, Ensures (fun x0 => x0.blank = .ok x0) x.blank
  | ⟨_, pattern, value, _⟩ => pattern.blank_blank.bind fun a ha => value.blank_blank.bind fun b hb =>
    .ok (by rw [MatchCase.blank, ha, hb]; rfl)
theorem MatchCase.blankAll_blankAll : ∀ xs : List (Option MatchCase),
    Ensures (fun xs0 => MatchCase.blankAll xs0 = .ok xs0) (MatchCase.blankAll xs)
  | [] => .ok rfl
  | none :: _ => .error
  | some x :: rest => x.blank_blank.bind fun a ha => (MatchCase.blankAll_blankAll rest).bind fun as has =>
    .ok (by rw [MatchCase.blankAll, ha, has]; rfl)
end

theorem Expr.blank_of_copy {e e0 : Expr} (h : e.copy = .ok e0) : e.blank = .ok e0 := by
  cases e with
  | missing => cases h
  | _ => exact h

theorem Node.copy_copy (hn : n.IsStatement) (h : n.copy = .ok n0) : n0.IsStatement ∧ n0.copy = .ok n0 := by
  cases hn with
  | typeAlias a =>
    obtain ⟨s0, hs, h⟩ := bind_eq_ok.mp h
    cases h
    rw [Node.copy, Sign.blank_blank _ s0 hs]
    exact ⟨.typeAlias _, rfl⟩
  | expr e =>
    obtain ⟨e0, he, h⟩ := bind_eq_ok.mp h
    cases h
    have hblank := Expr.blank_of_copy he
    have hcopy : e0.copy = .ok e0 := (Expr.copy_eq_of_blank ((e.blank_blank e0 hblank).trans hblank.symm)).trans he
    rw [Node.copy, hcopy]
    exact ⟨.expr _, rfl⟩

theorem Node.copyAll_copyAll : ∀ {ns ns0 : List Node}, (∀ n ∈ ns, n.IsStatement) → Node.copyAll ns = .ok ns0 →
    Node.copyAll ns0 = .ok ns0
  | [], _, _, h => by
    cases h
    rfl
  | n :: ns, _, hns, h => by
    obtain ⟨hn, hns⟩ := List.forall_mem_cons.mp hns
    obtain ⟨n0, hcopy, h⟩ := bind_eq_ok.mp h
    obtain ⟨ns0, hcopies, h⟩ := bind_eq_ok.mp h
    cases h
    rw [Node.copyAll, (Node.copy_copy hn hcopy).2, Node.copyAll_copyAll hns hcopies]
    rfl

theorem Node.isStatement_of_copy (hn0 : n0.IsStatement) (h : n.copy = .ok n0) : n.IsStatement := by
  cases n with
  | missing => cases h
  | «alias» a => exact .typeAlias a
  | expr e => exact .expr e
  | module | sign | signElem | matchCase =>
    obtain ⟨x, -, h⟩ := bind_eq_ok.mp h
    cases h
    cases hn0

theorem Node.isStatements_of_copies : ∀ {ns ns' ns0 : List Node}, (∀ n ∈ ns, n.IsStatement) →
    Node.copyAll ns = .ok ns0 → Node.copyAll ns' = .ok ns0 → ∀ n ∈ ns', n.IsStatement
  | _, [], _, _, _, _ => by simp
  | [], n' :: ns', _, _, h, h' => by
    cases h
    obtain ⟨_, -, h'⟩ := bind_eq_ok.mp h'
    obtain ⟨_, -, h'⟩ := bind_eq_ok.mp h'
    cases h'
  | n :: ns, n' :: ns', _, hns, h, h' => by
    obtain ⟨hn, hns⟩ := List.forall_mem_cons.mp hns
    obtain ⟨n0, hcopy, h⟩ := bind_eq_ok.mp h
    obtain ⟨ns0, hcopies, h⟩ := bind_eq_ok.mp h
    cases h
    obtain ⟨n1, hcopy', h'⟩ := bind_eq_ok.mp h'
    obtain ⟨ns1, hcopies', h'⟩ := bind_eq_ok.mp h'
    cases h'
    exact List.forall_mem_cons.mpr ⟨Node.isStatement_of_copy (Node.copy_copy hn hcopy).1 hcopy',
      Node.isStatements_of_copies hns hcopies hcopies'⟩

/-! ### Choosing overloads -/

theorem Ident.dispatch_fillsSlots (σ : Substitution) :
    FillsSlots overloads { ident := Ident.dispatch σ, mark := pure } where
  ident {i i' s s'} h := by
    change overloads.Sees (i.dispatch σ) s i' s' at h
    rw [Ident.dispatch] at h
    split at h
    · rw [(overloads.pure h).1]
    · obtain ⟨r, c1, -, h⟩ := overloads.bind h
      cases r with
      | some id =>
        rw [(overloads.pure h).1]
        rfl
      | none =>
        obtain ⟨_, _, -, h⟩ := overloads.bind h
        obtain ⟨_, _, -, h⟩ := overloads.bind h
        obtain ⟨_, _, -, h⟩ := overloads.bind h
        rw [(overloads.pure h).1]
  mark h := by rw [(overloads.pure h).1]

theorem Mark.resolve_blank (σ : Substitution) (mark : Mark) :
    Yields (fun mark' => mark'.blank = mark.blank) (mark.resolve σ) := by
  unfold Mark.resolve
  split
  · exact .pure rfl
  · exact .after fun _ => .pure rfl

theorem Mark.resolve_fillsSlots (σ : Substitution) : FillsSlots problems {
    ident := fun i => do return { i with mark := ← i.mark.resolve σ }
    mark := Mark.resolve σ } where
  ident {i i' s s'} := by
    rintro ⟨c, c', hrun, -⟩
    have hident : Yields (fun i' => i'.blank = i.blank)
        (do return { i with mark := ← i.mark.resolve σ } : AnalysisM Ident) :=
      (Mark.resolve_blank σ i.mark).bind fun mark h => .pure (by simp only [Ident.blank, h])
    exact hident hrun
  mark := by
    rintro k k' s s' ⟨c, c', hrun, -⟩
    exact Mark.resolve_blank σ k hrun

/-- **Choosing overloads fills in slots.** -/
theorem Module.dispatch_copy (σ : Substitution) (clock : Solver.Clock) :
    Yields (fun r => r.1.copy = m.copy) (m.dispatch σ clock) := fun c r c1 hrun => by
  obtain ⟨⟨x, clock'⟩, c2, hchange, hrun⟩ := run_bind_eq_ok.mp hrun
  obtain ⟨_, c3, -, hrun⟩ := run_bind_eq_ok.mp hrun
  obtain ⟨x', _, hresolve, hrun⟩ := run_bind_eq_ok.mp hrun
  cases hrun
  have hcopy := Module.change_copy (Ident.dispatch_fillsSlots σ) (s := c) ⟨clock, clock', hchange⟩
  have hcopy' := Module.change_copy (Mark.resolve_fillsSlots σ) (s := c3.diagnostics) ⟨c3, c1, hresolve, rfl, rfl⟩
  exact hcopy'.trans hcopy

/-! ### Modules -/

/-- The modules are the same up to slots: they have one copy. -/
def Module.SameText (m m' : Module) : Prop := ∃ m0, m.copy = .ok m0 ∧ m'.copy = .ok m0

namespace Module

variable {m m' m'' : Module}

theorem SameText.symm (h : m.SameText m') : m'.SameText m := by
  obtain ⟨m0, hm, hm'⟩ := h
  exact ⟨m0, hm', hm⟩

theorem SameText.of_eq (h : m.SameText m') (heq : m''.copy = m'.copy) : m.SameText m'' := by
  obtain ⟨m0, hm, hm'⟩ := h
  exact ⟨m0, hm, heq.trans hm'⟩

theorem Intact.isStatements (h : m.Intact operators) : ∀ n ∈ m.statements, n.IsStatement :=
  fun n hn => (h n hn).isStatement

theorem Intact.sameText (h : m.Intact operators) : m.SameText m := by
  obtain ⟨ns0, hns0, -⟩ := Node.copyAll_gives h
  obtain ⟨token, name, id, statements, scope⟩ := m
  have hcopy :
      Module.copy ⟨token, name, id, statements, scope⟩ = .ok
      { token := token, name := name, id := id, statements := ns0 } := by
    rw [Module.copy, show Node.copyAll statements = .ok ns0 from hns0]
    rfl
  exact ⟨_, hcopy, hcopy⟩

theorem SameText.isStatements (h : m.SameText m') (hm : ∀ n ∈ m.statements, n.IsStatement) :
    ∀ n ∈ m'.statements, n.IsStatement := by
  obtain ⟨m0, hcopy, hcopy'⟩ := h
  obtain ⟨token, name, id, statements, scope⟩ := m
  obtain ⟨token', name', id', statements', scope'⟩ := m'
  obtain ⟨ns0, hns, hcopy⟩ := bind_eq_ok.mp hcopy
  cases hcopy
  obtain ⟨ns1, hns', hcopy'⟩ := bind_eq_ok.mp hcopy'
  cases hcopy'
  exact Node.isStatements_of_copies hm hns hns'

theorem SameText.exists_copies (h : m.SameText m') : ∃ ns0, Node.copyAll m.statements = .ok ns0 := by
  obtain ⟨m0, hcopy, -⟩ := h
  obtain ⟨token, name, id, statements, scope⟩ := m
  obtain ⟨ns0, hns, -⟩ := bind_eq_ok.mp hcopy
  exact ⟨ns0, hns⟩

theorem SameText.id_eq (h : m.SameText m') : m'.id = m.id := by
  obtain ⟨m0, hcopy, hcopy'⟩ := h
  obtain ⟨token, name, id, statements, scope⟩ := m
  obtain ⟨token', name', id', statements', scope'⟩ := m'
  obtain ⟨ns0, -, hcopy⟩ := bind_eq_ok.mp hcopy
  cases hcopy
  obtain ⟨ns1, -, hcopy'⟩ := bind_eq_ok.mp hcopy'
  cases hcopy'
  rfl

theorem SameText.of_copy (h : m.SameText m') (hm : ∀ n ∈ m.statements, n.IsStatement) (hcopy : m'.copy = .ok m'') :
    m.SameText m'' := by
  have hm' := h.isStatements hm
  obtain ⟨token, name, id, statements, scope⟩ := m'
  obtain ⟨ns0, hns, hrest⟩ := bind_eq_ok.mp hcopy
  cases hrest
  refine h.of_eq ?_
  rw [hcopy, Module.copy, Node.copyAll_copyAll hm' hns]
  rfl

theorem bind_copy (hm : ∀ n ∈ m.statements, n.IsStatement) (hid : m.id ≠ "") :
    Yields (fun r => r.1.copy = m.copy) m.bind := by
  obtain ⟨token, name, id, statements, scope⟩ := m
  refine .after fun c => .after fun i => ?_
  refine (Yields.mapM (Node.declareAhead_announces i) statements).bind fun aheads haheads => ?_
  refine (Node.bindAll_fills _ hm haheads).bind fun r hr => .pure ?_
  simp only [Module.copy, hr.1, if_neg hid]

theorem oblige_copy (hm : ∀ n ∈ m.statements, n.IsStatement) : Yields (fun m' => m'.copy = m.copy) m.oblige := by
  obtain ⟨token, name, id, statements, scope⟩ := m
  exact (Node.obligeAll_copies hm).bind fun ns hns => .pure (by simp only [Module.copy, hns])

end Module

/-! ### Stages -/

/-- What is left of a module after stages of analyses, in whatever sessions, and after copies. -/
inductive Reworked (m : Module) : Module → Prop where
  | given : Reworked m m
  | copied {k k' : Module} (h : Reworked m k) (hcopy : k.copy = .ok k') : Reworked m k'
  | bound {s s' : Session} {k k' : Module} (h : Reworked m k) (hk : s.module = some k) (hbind : s.bind = .ok s')
      (hk' : s'.module = some k') : Reworked m k'
  | generated {s s' : Session} {k k' : Module} (h : Reworked m k) (hk : s.module = some k)
      (hgenerate : s.generate = .ok s') (hk' : s'.module = some k') : Reworked m k'
  | dispatched {s s' : Session} {k k' : Module} (h : Reworked m k) (hk : s.module = some k)
      (hdispatch : s.dispatch = .ok s') (hk' : s'.module = some k') : Reworked m k'

/-- **Analyses do not change the text of a module.** -/
theorem Reworked.sameText {k : Module} (h : Reworked m k) (hm : m.Intact false) (hid : m.id ≠ "") : m.SameText k := by
  induction h with
  | given => exact hm.sameText
  | copied _ hcopy ih => exact ih.of_copy hm.isStatements hcopy
  | bound _ hk hbind hk' ih =>
    obtain ⟨c, c', k1, env, -, hrun, hadopts⟩ := Session.bind_eq_ok hk hbind
    obtain rfl := Option.some.inj (hadopts.module.symm.trans hk')
    exact ih.of_eq (Module.bind_copy (ih.isStatements hm.isStatements) (ih.id_eq ▸ hid) hrun)
  | @generated s s' k k' _ hk hgenerate hk' ih =>
    cases hc : s.ready? with
    | none =>
      rw [Session.generate_of_not_ready hc] at hgenerate
      cases hgenerate
      obtain rfl := Option.some.inj (hk.symm.trans hk')
      exact ih
    | some c =>
      obtain ⟨k1, c', hrun, hadopts⟩ := Session.generate_eq_ok hc hk hgenerate
      obtain rfl := Option.some.inj (hadopts.module.symm.trans hk')
      exact ih.of_eq (Module.oblige_copy (ih.isStatements hm.isStatements) hrun)
  | @dispatched s s' k k' _ hk hdispatch hk' ih =>
    have hsame (hs : s' = s) : m.SameText k' := by
      subst hs
      obtain rfl := Option.some.inj (hk.symm.trans hk')
      exact ih
    cases hc : s.ready? with
    | none =>
      rw [Session.dispatch_of_not_ready hc] at hdispatch
      cases hdispatch
      exact hsame rfl
    | some c =>
      cases hσ : s.solution with
      | none =>
        unfold Session.dispatch at hdispatch
        rw [hc, hσ] at hdispatch
        cases hdispatch
        exact hsame rfl
      | some σ =>
        obtain ⟨k1, clock', c', hrun, hadopts⟩ := Session.dispatch_eq_ok hc hσ hk hdispatch
        obtain rfl := Option.some.inj (hadopts.module.symm.trans hk')
        exact ih.of_eq (Module.dispatch_copy σ s.clock hrun)

end TypeInference
