import Mathlib.Data.Fintype.Card
import TypeInference.Proofs.Generation
import TypeInference.Proofs.Rearrangement

/-! # Types and constraints in lockstep

Once the names of a module are declared, its statements are typed in lockstep (`Node.oblige_sim`): a name means the same
symbols in both runs, though maybe in another order. -/

namespace TypeInference

open AnalysisM
open List

/-! ### Names -/

theorem natCast_ne_noScope (n : Nat) : (n : Int) ≠ noScope := by
  unfold noScope
  omega

theorem natCast_ne_noSymbol (n : Nat) : (n : Int) ≠ noSymbol := by
  unfold noSymbol
  omega

/-- All scopes and symbols are paired, and if one run has found a problem then so has the other. -/
structure Named (ρ : Pairing) (c c' : Context) : Prop where
  sound : c.table.Sound
  sound' : c'.table.Sound
  left : ∀ {k : Numbered} {a : Nat}, k = .scope ∨ k = .symbol → a < c.next k → ∃ b, (k, a, b) ∈ ρ
  right : ∀ {k : Numbered} {b : Nat}, k = .scope ∨ k = .symbol → b < c'.next k → ∃ a, (k, a, b) ∈ ρ
  problems : c.diagnostics.entries = [] ↔ c'.diagnostics.entries = []

/-- Where types are made, no names are declared. -/
def typingWorld : World where
  Knows := Named
  Allows _ := True
  stable := by
    intro ρ ρ1 c c' c1 c1' h htable htable' hdiagnostics hdiagnostics' hρ
    have hnext {k : Numbered} (hk : k = .scope ∨ k = .symbol) : c1.next k = c.next k ∧ c1'.next k = c'.next k := by
      rcases hk with rfl | rfl <;> exact ⟨by simp only [Context.next, htable], by simp only [Context.next, htable']⟩
    refine ⟨htable ▸ h.sound, htable' ▸ h.sound', fun hk ha => ?_, fun hk hb => ?_, ?_⟩
    · rw [(hnext hk).1] at ha
      obtain ⟨b, hab⟩ := h.left hk ha
      exact ⟨b, (hρ hk).mpr hab⟩
    · rw [(hnext hk).2] at hb
      obtain ⟨a, hab⟩ := h.right hk hb
      exact ⟨a, (hρ hk).mpr hab⟩
    · rw [hdiagnostics, hdiagnostics']
      exact h.problems

instance {α : Type} {x : AnalysisM α} : typingWorld.Respects x := ⟨fun _ _ => trivial⟩

theorem Linked.next_le {ρ : Pairing} {c c' : Context} (h : Linked ρ c c') {k : Numbered}
    (hleft : ∀ {a}, a < c.next k → ∃ b, (k, a, b) ∈ ρ) :
    c.next k ≤ c'.next k := by
  choose f hf using fun a : Fin (c.next k) => hleft a.isLt
  have hinjective : Function.Injective fun a => (⟨f a, (h.bound (hf a)).2⟩ : Fin (c'.next k)) := fun a a' haa' =>
    Fin.ext ((h.bijective (hf a) (hf a')).mpr (congrArg Fin.val haa'))
  simpa using Fintype.card_le_of_injective _ hinjective

theorem Linked.le_next {ρ : Pairing} {c c' : Context} (h : Linked ρ c c') {k : Numbered}
    (hright : ∀ {b}, b < c'.next k → ∃ a, (k, a, b) ∈ ρ) : c'.next k ≤ c.next k := by
  choose f hf using fun b : Fin (c'.next k) => hright b.isLt
  have hinjective : Function.Injective fun b => (⟨f b, (h.bound (hf b)).1⟩ : Fin (c.next k)) := fun b b' hbb' =>
    Fin.ext ((h.bijective (hf b) (hf b')).mp (congrArg Fin.val hbb'))
  simpa using Fintype.card_le_of_injective _ hinjective

theorem aligned_of_nodup {α α' : Type} {Q : α → α' → Prop} {xs : List α} {ys : List α'} (hxs : xs.Nodup)
    (hys : ys.Nodup) (hQ : ∀ {x y x' y'}, Q x y → Q x' y' → (x = x' ↔ y = y')) (hleft : ∀ x ∈ xs, ∃ y ∈ ys, Q x y)
    (hright : ∀ y ∈ ys, ∃ x ∈ xs, Q x y) : Aligned Q xs ys := by
  induction ys generalizing xs with
  | nil =>
    obtain rfl : xs = [] := eq_nil_iff_forall_not_mem.mpr fun x hx => by
      obtain ⟨y, hy, -⟩ := hleft x hx
      cases hy
    exact ⟨[], .nil, .nil⟩
  | cons y ys ih =>
    classical
    obtain ⟨hy, hys⟩ := nodup_cons.mp hys
    obtain ⟨x, hx, hxy⟩ := hright y mem_cons_self
    have hleft' : ∀ x' ∈ xs.erase x, ∃ y' ∈ ys, Q x' y' := fun x' hx' => by
      obtain ⟨hne, hx'⟩ := (hxs.mem_erase_iff).mp hx'
      obtain ⟨y', hy', hxy'⟩ := hleft x' hx'
      refine ⟨y', (mem_cons.mp hy').resolve_left ?_, hxy'⟩
      rintro rfl
      exact hne ((hQ hxy' hxy).mpr rfl)
    have hright' : ∀ y' ∈ ys, ∃ x' ∈ xs.erase x, Q x' y' := fun y' hy' => by
      obtain ⟨x', hx', hxy'⟩ := hright y' (mem_cons_of_mem _ hy')
      refine ⟨x', (hxs.mem_erase_iff).mpr ⟨?_, hx'⟩, hxy'⟩
      rintro rfl
      obtain rfl := (hQ hxy hxy').mp rfl
      exact hy hy'
    obtain ⟨zs, hperm, hzs⟩ := ih (hxs.erase x) hys hleft' hright'
    exact ⟨x :: zs, (perm_cons_erase hx).trans (hperm.cons x), .cons hxy hzs⟩

theorem Pairing.Ids.eq_iff {ρ : Pairing} (hρ : ρ.Bijective) {k : Numbered} {i j i' j' : Int} (h : ρ.Ids k i j)
    (h' : ρ.Ids k i' j') : i = i' ↔ j = j' := by
  obtain ⟨a, b, rfl, rfl, hab⟩ := h
  obtain ⟨a', b', rfl, rfl, hab'⟩ := h'
  rw [Int.natCast_inj, Int.natCast_inj]
  exact hρ hab hab'

section

variable {ρ : Pairing} {c c' : Context}

theorem symbolsOf_aligned (hlinked : Linked ρ c c') (hnamed : Named ρ c c') {i j : Nat} (hij : (.scope, i, j) ∈ ρ)
    {sc sc' : Scope} (hsc : c.table.scopes[i]? = some sc) (hsc' : c'.table.scopes[j]? = some sc') (name : String) :
    Aligned (ρ.Ids .symbol) (sc.symbolsOf name) (sc'.symbolsOf name) := by
  refine aligned_of_nodup (hnamed.sound.nodup hsc name) (hnamed.sound'.nodup hsc' name)
    (fun h h' => h.eq_iff hlinked.bijective h') (fun id hid => ?_) (fun id hid => ?_)
  · obtain ⟨a, s, rfl, hs, hname, hscope⟩ := (hnamed.sound.listed hsc name id).mp hid
    obtain ⟨b, hab⟩ := hnamed.left (k := .symbol) (.inr rfl) (Array.getElem?_eq_some_iff.mp hs).1
    obtain ⟨t, t', ht, ht', hpaired⟩ := hlinked.alike hab
    obtain rfl : s = t := Option.some.inj (hs.symm.trans ht)
    refine ⟨b, (hnamed.sound'.listed hsc' name b).mpr ⟨b, t', rfl, ht', hpaired.name ▸ hname, ?_⟩, a, b, rfl, rfl, hab⟩
    exact (hpaired.scope.eq_iff hlinked.bijective ⟨i, j, rfl, rfl, hij⟩).mp hscope
  · obtain ⟨b, s', rfl, hs', hname, hscope⟩ := (hnamed.sound'.listed hsc' name id).mp hid
    obtain ⟨a, hab⟩ := hnamed.right (k := .symbol) (.inr rfl) (Array.getElem?_eq_some_iff.mp hs').1
    obtain ⟨t, t', ht, ht', hpaired⟩ := hlinked.alike hab
    obtain rfl : s' = t' := Option.some.inj (hs'.symm.trans ht')
    refine ⟨a, (hnamed.sound.listed hsc name a).mpr ⟨a, t, rfl, ht, hpaired.name ▸ hname, ?_⟩, a, b, rfl, rfl, hab⟩
    exact (hpaired.scope.eq_iff hlinked.bijective ⟨i, j, rfl, rfl, hij⟩).mpr hscope

theorem Aligned.isEmpty_eq {α α' : Type} {Q : α → α' → Prop} {xs : List α} {ys : List α'} (h : Aligned Q xs ys) :
    xs.isEmpty = ys.isEmpty := by
  obtain ⟨zs, hperm, hzs⟩ := h
  rw [Bool.eq_iff_iff, isEmpty_iff_length_eq_zero, isEmpty_iff_length_eq_zero, hperm.length_eq, hzs.length_eq]

theorem lookupAux_aligned (hlinked : Linked ρ c c') (hnamed : Named ρ c c') (name : String) :
    ∀ (fuel : Nat) {i j : ScopeId} {ids : List SymbolId}, (i = noScope ∧ j = noScope) ∨ ρ.Ids .scope i j →
    c.table.lookupAux name fuel i = .ok ids →
      ∃ ids', c'.table.lookupAux name fuel j = .ok ids' ∧ Aligned (ρ.Ids .symbol) ids ids'
  | 0, _, _, _, _, h => by cases h
  | fuel + 1, i, j, ids, hij, h => by
    unfold SymbolTable.lookupAux at h ⊢
    rcases hij with ⟨rfl, rfl⟩ | ⟨a, b, rfl, rfl, hab⟩
    · cases h
      exact ⟨[], rfl, [], .nil, .nil⟩
    · rw [if_neg (natCast_ne_noScope _)] at h ⊢
      obtain ⟨sc, hsc, h⟩ := bind_eq_ok.mp h
      obtain ⟨n, hn, hsc⟩ := SymbolTable.scope_eq_ok.mp hsc
      obtain rfl := Int.ofNat.inj hn
      obtain ⟨s, s', hs, hs', hnested⟩ := hlinked.alike hab
      obtain rfl : sc = s := Option.some.inj (hsc.symm.trans hs)
      have haligned := symbolsOf_aligned hlinked hnamed hab hs hs' name
      rw [SymbolTable.scope_eq_ok.mpr ⟨b, rfl, hs'⟩]
      dsimp only at h
      split at h
      · next hempty =>
        obtain ⟨ids', hids', hids⟩ := lookupAux_aligned hlinked hnamed name fuel hnested h
        refine ⟨ids', ?_, hids⟩
        rw [haligned.isEmpty_eq] at hempty
        exact (if_pos hempty).trans hids'
      · next hempty =>
        cases h
        refine ⟨_, ?_, haligned⟩
        rw [haligned.isEmpty_eq] at hempty
        exact if_neg hempty

/-- A name has no meaning, or one, or several ones. -/
inductive Meant (ρ : Pairing) : List SymbolId → List SymbolId → Prop where
  | none : Meant ρ [] []
  | one {x y : SymbolId} (h : ρ.Ids .symbol x y) : Meant ρ [x] [y]
  | many {x1 x2 y1 y2 : SymbolId} {xs ys : List SymbolId}
      (h : Aligned (ρ.Ids .symbol) (x1 :: x2 :: xs) (y1 :: y2 :: ys)) : Meant ρ (x1 :: x2 :: xs) (y1 :: y2 :: ys)

theorem Aligned.meant {ids ids' : List SymbolId} (h : Aligned (ρ.Ids .symbol) ids ids') : Meant ρ ids ids' := by
  obtain ⟨zs, hperm, hzs⟩ := id h
  rcases hzs with _ | ⟨hxy, _ | ⟨hxy', hrest⟩⟩
  · obtain rfl := hperm.eq_nil
    exact .none
  · obtain rfl := perm_singleton.mp hperm
    exact .one hxy
  · rcases ids with _ | ⟨x1, _ | ⟨x2, xs⟩⟩
    · cases hperm.length_eq
    · cases hperm.length_eq
    · exact .many h

theorem meanings_sim {i j : ScopeId} (hij : ρ.Ids .scope i j) (name : String) :
    Sim typingWorld ρ Meant (meanings i name) (meanings j name) := by
  intro c c' c1 ids hlinked hknows hrun _
  obtain ⟨c2, c3, hget, hrun⟩ := run_bind_eq_ok.mp hrun
  cases hget
  obtain ⟨ids, hids, heq⟩ := run_lift_eq_ok.mp hrun
  cases heq
  obtain ⟨ids', hids', haligned⟩ := lookupAux_aligned hlinked hknows name _ (.inr hij) hids
  have hsize : c.table.scopes.size = c'.table.scopes.size := Nat.le_antisymm
    (hlinked.next_le (k := .scope) (hknows.left (.inl rfl))) (hlinked.le_next (k := .scope) (hknows.right (.inl rfl)))
  rw [hsize] at hids'
  exact ⟨ρ, ids', c', run_bind_eq_ok.mpr ⟨c', c', rfl, run_lift_eq_ok.mpr ⟨ids', hids', rfl⟩⟩, .refl _ _ _,
    hlinked, hknows, haligned.meant⟩

end

/-! ### Parts -/

section

variable {ρ : Pairing}

theorem symbolType_sim {x y : SymbolId} (hxy : ρ.Ids .symbol x y) :
    Sim typingWorld ρ Ty.Paired (symbolType x) (symbolType y) := by
  obtain ⟨a, b, rfl, rfl, hab⟩ := hxy
  unfold symbolType
  rw [if_neg (natCast_ne_noSymbol a), if_neg (natCast_ne_noSymbol b)]
  refine .get fun hlinked _ => ?_
  obtain ⟨s, s', hs, hs', hpaired⟩ := hlinked.alike hab
  rw [SymbolTable.symbol_eq_ok.mpr ⟨a, rfl, hs⟩, SymbolTable.symbol_eq_ok.mpr ⟨b, rfl, hs'⟩]
  exact .pure hpaired.type

theorem diagnose_sim (code code' : Code) (token token' : Token) (message message' : String) :
    Sim typingWorld ρ (fun _ _ _ => True) (diagnose code token message) (diagnose code' token' message') := by
  intro c c' c1 u hlinked hknows hrun _
  have honward := (diagnose_forward _ _ _).related hrun
  cases hrun
  have hrun' : (diagnose code' token' message').run c' =
      .ok ((), { c' with diagnostics := c'.diagnostics.add (.of code' token' message') }) := rfl
  have honward' := (diagnose_forward _ _ _).related hrun'
  refine ⟨ρ, (), _, hrun', ?_, hlinked.onward honward honward', ?_, trivial⟩
  · refine ⟨subset_rfl, fun k => ⟨honward.next k, honward'.next k⟩, .inl, fun {k a} h h' => ?_, fun {k b} h h' => ?_,
      [], [], by simp⟩
    · cases k <;> exact absurd h' (Nat.not_lt.mpr h)
    · cases k <;> exact absurd h' (Nat.not_lt.mpr h)
  · refine ⟨hknows.sound, hknows.sound', fun hk ha => hknows.left hk ?_, fun hk hb => hknows.right hk ?_, ?_⟩
    · rcases hk with rfl | rfl <;> exact ha
    · rcases hk with rfl | rfl <;> exact hb
    · exact iff_of_false (Diagnostics.add_ne_empty _ _) (Diagnostics.add_ne_empty _ _)

theorem onward_require (c : Context) (d : Constraint) : Onward c { c with constraints := c.constraints ++ [d] } where
  next k := by cases k <;> exact Nat.le_refl _
  graph := TypeGraph.extends_refl _
  symbols h := h
  parents h := ⟨_, h, rfl⟩
  problems := id
  sound := id

theorem require_sim {d d' : Constraint} (hd : d.Paired ρ d') :
    Sim typingWorld ρ (fun _ _ _ => True) (require d) (require d') := by
  intro c c' c1 u hlinked hknows hrun _
  cases hrun
  refine ⟨ρ, (), { c' with constraints := c'.constraints ++ [d'] }, rfl, ?_,
    hlinked.onward (onward_require c d) (onward_require c' d'), typingWorld.stable hknows rfl rfl rfl rfl fun _ =>
    Iff.rfl, trivial⟩
  refine ⟨subset_rfl, fun k => ⟨(onward_require c d).next k, (onward_require c' d').next k⟩, .inl, fun {k a} h h' => ?_,
    fun {k b} h h' => ?_, [d], [d'], rfl, rfl, .cons hd .nil⟩
  · cases k <;> exact absurd h' (Nat.not_lt.mpr h)
  · cases k <;> exact absurd h' (Nat.not_lt.mpr h)

theorem newUnion_eq (ts : List Ty) : newUnion ts = (do
    let c ← get
    let cases ← (c.graph.distinctFrom [] (c.graph.openUnions ts) : Except Fault _)
    match cases with
    | [t] => pure t
    | cases => newType (.union cases)) := by
  refine StateT.ext fun c => ?_
  unfold newUnion TypeGraph.union
  simp only [StateT.run_bind, StateT.run_get, pure_bind, liftM_bind]
  cases c.graph.distinctFrom [] (c.graph.openUnions ts) with
  | error e => rfl
  | ok cases => rcases cases with _ | ⟨t, _ | ⟨u, us⟩⟩ <;> rfl

theorem newUnion_sim {ts ts' : List Ty} (hts : Forall₂ (Ty.Paired ρ) ts ts') :
    Sim typingWorld ρ Ty.Paired (newUnion ts) (newUnion ts') := by
  rw [newUnion_eq, newUnion_eq]
  refine .get fun {c c'} hlinked _ => ?_
  have hopen := openUnions_paired hlinked.graph hts
  refine .bind (R := fun ρ => Forall₂ (Ty.Paired ρ)) (.lift fun hcases => ?_) fun _ hcases => ?_
  · obtain ⟨cases', hcases', hpaired⟩ := distinctFrom_paired hlinked.bijective hlinked.graph hopen .nil hcases
    exact ⟨cases', hcases', hpaired⟩
  · rcases hcases with _ | ⟨ht, _ | ⟨hu, hus⟩⟩
    · exact newType_sim (.union .nil)
    · exact .pure ht
    · exact newType_sim (.union (.cons ht (.cons hu hus)))

theorem unitType_sim : Sim typingWorld ρ Ty.Paired unitType unitType := newType_sim (.tuple .nil)

theorem functionType_sim {d d' t t' : Ty} (hd : d.Paired ρ d') (ht : t.Paired ρ t') :
    Sim typingWorld ρ Ty.Paired (functionType d t) (functionType d' t') := by
  cases hd with
  | node h => exact newType_sim (.function h ht)
  | _ => exact .throw _

/-! ### Signatures -/

theorem TypeName.read_sim {token : Token} {name : String} {i j : ScopeId} {metatype : Ty} (hij : ρ.Ids .scope i j) :
    Sim typingWorld ρ (fun ρ p p' => p.2.Paired ρ p'.2) (TypeName.read ⟨token, name, i, metatype⟩)
      (TypeName.read ⟨token, name, j, metatype⟩) := by
  refine .bind (meanings_sim hij name) fun _ hmeant => ?_
  cases hmeant with
  | none => exact .bind (diagnose_sim _ _ _ _ _ _) fun _ _ => .pure .error
  | @one x y hxy =>
    refine .get fun {c c'} hlinked _ => ?_
    obtain ⟨a, b, rfl, rfl, hab⟩ := hxy
    obtain ⟨s, s', hs, hs', hpaired⟩ := hlinked.alike hab
    rw [SymbolTable.symbol_eq_ok.mpr ⟨a, rfl, hs⟩, SymbolTable.symbol_eq_ok.mpr ⟨b, rfl, hs'⟩]
    have hmetatype := metatype?_paired hlinked.graph hpaired.type
    refine .bind (R := fun _ x y => x = s ∧ y = s') (.pure ⟨rfl, rfl⟩) fun hρ h => ?_
    obtain ⟨rfl, rfl⟩ := h
    revert hmetatype
    generalize c.graph.metatype? _ = t, c'.graph.metatype? _ = t'
    rintro (@⟨_, _, ht⟩ | _)
    · exact .pure (ht.mono hρ)
    · exact .bind (diagnose_sim _ _ _ _ _ _) fun _ _ => .pure .error
  | many => exact .bind (diagnose_sim _ _ _ _ _ _) fun _ _ => .pure .error

mutual
theorem Sign.read_sim : ∀ {ρ : Pairing} {i j : ScopeId} (s : Sign), ρ.Ids .scope i j →
    Sim typingWorld ρ (fun ρ p p' => p.2.Paired ρ p'.2) (s.inside i).read (s.inside j).read
  | _, _, _, .missing, _ => .bind unitType_sim fun _ ht => .pure ht
  | _, _, _, .name _, hij => .bind (TypeName.read_sim hij) fun _ ht => .pure ht
  | _, _, _, .func f, hij => .bind (f.read_sim hij) fun _ ht => .pure ht
  | _, _, _, .tuple t, hij => .bind (t.read_sim hij) fun _ ht => .pure ht
  | _, _, _, .union _ cases, hij => .bind (Sign.readAll_sim cases hij) fun _ hts => .bind (newUnion_sim hts) fun _ ht =>
      .pure ht
theorem Sign.readAll_sim : ∀ {ρ : Pairing} {i j : ScopeId} (ss : List Sign), ρ.Ids .scope i j →
    Sim typingWorld ρ (fun ρ p p' => Forall₂ (Ty.Paired ρ) p.2 p'.2)
    (Sign.readAll (Sign.mapAllNames (TypeName.inside i) ss))
      (Sign.readAll (Sign.mapAllNames (TypeName.inside j) ss))
  | _, _, _, [], _ => .pure .nil
  | _, _, _, s :: ss, hij => .bind (s.read_sim hij) fun hρ ht =>
    .bind (Sign.readAll_sim ss (hij.mono hρ)) fun hρ' hts =>
      .pure (.cons (ht.mono hρ') hts)
theorem FuncSign.read_sim : ∀ {ρ : Pairing} {i j : ScopeId} (f : FuncSign), ρ.Ids .scope i j →
    Sim typingWorld ρ (fun ρ p p' => p.2.Paired ρ p'.2) (f.inside i).read (f.inside j).read
  | _, _, _, ⟨_, none, codomain⟩, hij => .bind unitType_sim fun hρ hd =>
    .bind (codomain.read_sim (hij.mono hρ)) fun hρ' ht =>
      .bind (functionType_sim (hd.mono hρ') ht) fun _ hf => .pure hf
  | _, _, _, ⟨_, some domain, codomain⟩, hij => .bind (domain.read_sim hij) fun hρ hd =>
      .bind (codomain.read_sim (hij.mono hρ)) fun hρ' ht =>
        .bind (functionType_sim (hd.mono hρ') ht) fun _ hf => .pure hf
theorem TupleSign.read_sim : ∀ {ρ : Pairing} {i j : ScopeId} (t : TupleSign), ρ.Ids .scope i j →
    Sim typingWorld ρ (fun ρ p p' => p.2.Paired ρ p'.2) (t.mapNames (TypeName.inside i)).read
    (t.mapNames (TypeName.inside j)).read
  | _, _, _, ⟨_, _, elems⟩, hij => .bind (SignElem.readAll_sim elems hij) fun _ hfs =>
    .bind (newType_sim (.tuple hfs)) fun _ ht =>
      .pure ht
theorem SignElem.readAll_sim : ∀ {ρ : Pairing} {i j : ScopeId} (es : List (Option SignElem)), ρ.Ids .scope i j →
    Sim typingWorld ρ (fun ρ p p' => Forall₂ (TupleField.Paired ρ) p.2 p'.2)
    (SignElem.readAll (SignElem.mapAllNames (TypeName.inside i) es))
      (SignElem.readAll (SignElem.mapAllNames (TypeName.inside j) es))
  | _, _, _, [], _ => .pure .nil
  | _, _, _, none :: _, _ => .throw _
  | _, _, _, some ⟨_, _, _, sign⟩ :: es, hij => .bind (sign.read_sim hij) fun hρ ht =>
      .bind (SignElem.readAll_sim es (hij.mono hρ)) fun hρ' hfs =>
        .pure (.cons ⟨rfl, ht.mono hρ'⟩ hfs)
end

/-! ### Identifiers -/

theorem symbolType_run {c : Context} {id : SymbolId} {t : Ty} (h : c.TypeOf id t) :
    (symbolType id).run c = .ok (t, c) := by
  unfold symbolType
  rcases h with ⟨rfl, rfl⟩ | ⟨s, hs, rfl⟩
  · rfl
  · obtain ⟨n, rfl, -⟩ := SymbolTable.symbol_eq_ok.mp hs
    rw [if_neg (natCast_ne_noSymbol n)]
    exact run_bind_eq_ok.mpr ⟨c, c, rfl, run_bind_eq_ok.mpr ⟨s, c, run_lift_eq_ok.mpr ⟨s, hs, rfl⟩, rfl⟩⟩

theorem choices_run {c : Context} {type : Ty} {location : Location} {ids : List SymbolId} {ts : List Ty}
    (h : Forall₂ c.TypeOf ids ts) :
    (ids.mapM fun id => do return Constraint.equality type (← symbolType id) location : AnalysisM _).run c =
      .ok (ts.map fun t => .equality type t location, c) := by
  induction h with
  | nil => rfl
  | cons ht _ ih =>
    rw [mapM_cons]
    exact run_bind_eq_ok.mpr ⟨_, c, run_bind_eq_ok.mpr ⟨_, c, symbolType_run ht, rfl⟩,
      run_bind_eq_ok.mpr ⟨_, c, ih, rfl⟩⟩

theorem choices_sim {ids ids' : List SymbolId} (hids : Aligned (ρ.Ids .symbol) ids ids') {t t' : Ty}
    (ht : t.Paired ρ t') (location : Location) :
    Sim typingWorld ρ (fun ρ ds ds' => (Constraint.oneOf ds location).Paired ρ (.oneOf ds' location))
      (ids.mapM fun id => do return Constraint.equality t (← symbolType id) location)
      (ids'.mapM fun id => do return Constraint.equality t' (← symbolType id) location) := by
  intro c c' c1 ds hlinked hknows hrun _
  obtain ⟨rfl, us, hus, rfl, -⟩ := choices_builds hrun
  obtain ⟨zs, hperm, hzs⟩ := hids
  obtain ⟨vs, hvs, hperm'⟩ := perm_comp_forall₂ hperm.symm hus
  -- partners have types that are paired
  have hpartners : ∃ us', Forall₂ c'.TypeOf ids' us' ∧ Forall₂ (Ty.Paired ρ) vs us' := by
    clear hperm hperm' hrun hus
    induction hzs generalizing vs with
    | nil =>
      cases hvs
      exact ⟨[], .nil, .nil⟩
    | @cons x y _ _ hxy _ ih =>
      obtain _ | ⟨hv, hvs⟩ := hvs
      obtain ⟨us', hus', hpaired⟩ := ih _ hvs
      obtain ⟨a, b, rfl, rfl, hab⟩ := hxy
      obtain ⟨s, hs, rfl⟩ := hv.resolve_left fun h => natCast_ne_noSymbol a h.1
      obtain ⟨n, hn, hs⟩ := SymbolTable.symbol_eq_ok.mp hs
      obtain rfl := Int.ofNat.inj hn
      obtain ⟨s1, s', hs1, hs', hsymbol⟩ := hlinked.alike hab
      obtain rfl : s = s1 := Option.some.inj (hs.symm.trans hs1)
      exact ⟨s'.type :: us', .cons (.inr ⟨s', SymbolTable.symbol_eq_ok.mpr ⟨b, rfl, hs'⟩, rfl⟩) hus',
        .cons hsymbol.type hpaired⟩
  obtain ⟨us', hus', hpaired⟩ := hpartners
  exact ⟨ρ, _, c', choices_run hus', .refl _ _ _, hlinked, hknows, .choice ht hperm'.symm hpaired⟩

theorem Ident.oblige_sim {mark : Mark} {name : String} {i j : ScopeId} (hij : ρ.Ids .scope i j) :
    Sim typingWorld ρ (fun ρ i i' => i.mark.type.Paired ρ i'.mark.type) (Ident.oblige ⟨mark, name, i, [], noSymbol⟩)
      (Ident.oblige ⟨mark, name, j, [], noSymbol⟩) := by
  refine .bind (meanings_sim hij name) fun _ hmeant => ?_
  cases hmeant with
  | none => exact .bind (diagnose_sim _ _ _ _ _ _) fun _ _ => .pure .error
  | one hxy =>
    exact .bind fresh_sim fun hρ ht => .bind (symbolType_sim (hxy.mono hρ)) fun hρ' hu =>
      .bind (require_sim (.relate (ht.mono hρ') hu)) fun hsub _ => .pure ((ht.mono hρ').mono hsub)
  | many hids =>
    refine .bind fresh_sim fun hρ ht => ?_
    obtain ⟨zs, hperm, hzs⟩ := hids
    refine .bind (choices_sim ⟨zs, hperm, hzs.imp fun _ _ h => h.mono hρ⟩ ht _) fun hρ' hchoice => ?_
    exact .bind (require_sim hchoice) fun hsub _ => .pure ((ht.mono hρ').mono hsub)

end

/-! ### Expressions -/

/-- The expressions have types that are paired; functions keep their symbols. -/
structure Expr.SameType (ρ : Pairing) (e e' : Expr) : Prop where
  type : ∀ {t}, e.type = .ok t → ∃ t', e'.type = .ok t' ∧ t.Paired ρ t'
  func : ∀ {f}, e = .func f → ∃ f', e' = .func f' ∧ f.name = f'.name ∧ (f.name ≠ "" → ρ.Ids .symbol f.symbol f'.symbol)

section

variable {ρ ρ1 : Pairing} {e e' : Expr}

theorem Expr.SameType.mono (h : e.SameType ρ e') (hρ : ρ ⊆ ρ1) : e.SameType ρ1 e' where
  type ht := by
    obtain ⟨t', ht', hpaired⟩ := h.type ht
    exact ⟨t', ht', hpaired.mono hρ⟩
  func hf := by
    obtain ⟨f', hf', hname, hsymbol⟩ := h.func hf
    exact ⟨f', hf', hname, fun hne => (hsymbol hne).mono hρ⟩

theorem Expr.type_sim (h : e.SameType ρ e') : Sim typingWorld ρ Ty.Paired (liftM e.type : AnalysisM Ty)
    (liftM e'.type : AnalysisM Ty) :=
  .lift fun ht => by
    obtain ⟨t', ht', hpaired⟩ := h.type ht
    exact ⟨t', ht', hpaired⟩

theorem Expr.sameType_of_mark {mark mark' : Mark} (hmark : e.mark? = some mark) (hmark' : e'.mark? = some mark')
    (h : mark.type.Paired ρ mark'.type) (hfunc : ∀ f, e ≠ .func f) : e.SameType ρ e' where
  type ht := by
    unfold Expr.type at ht ⊢
    rw [hmark] at ht
    cases ht
    rw [hmark']
    exact ⟨_, rfl, h⟩
  func hf := absurd hf (hfunc _)

theorem FuncSign.obligeIfAny_sim {token : Token} {t t' : Ty} (ht : t.Paired ρ t') {sign sign' : Option FuncSign}
    (hsign : FuncSign.Scoped ρ sign sign') :
    Sim typingWorld ρ (fun _ _ _ => True) (FuncSign.obligeIfAny ⟨token, t⟩ sign)
    (FuncSign.obligeIfAny ⟨token, t'⟩ sign') := by
  obtain ⟨sign0, i, j, rfl, rfl, hij⟩ := hsign
  cases sign0 with
  | none => exact .pure trivial
  | some f =>
    exact .bind (f.read_sim hij) fun hρ hu => .bind (require_sim (.relate (ht.mono hρ) hu)) fun _ _ => .pure trivial

theorem Expr.obligeBody_sim (h : e.Bound ρ e') (hsim : Sim typingWorld ρ Expr.SameType e.oblige e'.oblige)
    {token : Token} {t t' u u' : Ty} (hu : u.Paired ρ u') :
    Sim typingWorld ρ (fun _ _ _ => True) (e.obligeBody ⟨token, t⟩ u) (e'.obligeBody ⟨token, t'⟩ u') := by
  have hbody : Sim typingWorld ρ (fun _ _ _ => True) (do
      let body ← e.oblige
      require (.conformance (← (body.type : Except Fault _)) u (Mark.location ⟨token, t⟩ [.body]))
      pure body) (do
      let body ← e'.oblige
      require (.conformance (← (body.type : Except Fault _)) u' (Mark.location ⟨token, t'⟩ [.body]))
      pure body) :=
    .bind hsim fun hρ hbody => .bind (Expr.type_sim hbody) fun hρ' hv =>
      .bind (require_sim (.relate hv ((hu.mono hρ).mono hρ'))) fun _ _ => .pure trivial
  cases h with
  | missing => exact .pure trivial
  | _ => exact hbody

mutual
theorem Expr.oblige_sim : ∀ {ρ : Pairing} {e e' : Expr}, e.Bound ρ e' →
    Sim typingWorld ρ Expr.SameType e.oblige e'.oblige
  | _, _, _, .missing => .throw _
  | _, _, _, .func ht hsign hsymbol hbody => by
    rw [Expr.oblige_func, Expr.oblige_func]
    refine .get fun {c c'} hlinked _ => ?_
    have hfunction := function?_paired hlinked.graph ht
    revert hfunction
    generalize c.graph.function? _ = x, c'.graph.function? _ = x'
    rintro (@⟨⟨d, codomain⟩, ⟨d', codomain'⟩, -, hcodomain⟩ | _)
    · refine .bind (FuncSign.obligeIfAny_sim ht hsign) fun hρ _ => ?_
      have hbody' := hbody.mono hρ
      refine .bind (Expr.obligeBody_sim hbody' (Expr.oblige_sim hbody') (hcodomain.mono hρ)) fun hρ' _ =>
        .pure ⟨fun h => ?_, fun h => ?_⟩
      · cases h
        exact ⟨_, rfl, (ht.mono hρ).mono hρ'⟩
      · cases h
        exact ⟨_, rfl, rfl, fun hname => ((hsymbol hname).mono hρ).mono hρ'⟩
    · exact .throw _
  | _, _, _, .cond hcondition hthen helse => by
    refine .bind (Expr.oblige_sim hcondition) fun hρ1 hc => .bind (Expr.type_sim hc) fun hρ2 ht => ?_
    refine .bind (require_sim (.relate ht (.scalar _))) fun hρ3 _ => ?_
    have hsub := (hρ1.trans hρ2).trans hρ3
    refine .bind (Expr.oblige_sim (hthen.mono hsub)) fun hρ4 ha => ?_
    refine .bind (Expr.oblige_sim ((helse.mono hsub).mono hρ4)) fun hρ5 hb => ?_
    refine .bind (Expr.type_sim (ha.mono hρ5)) fun hρ6 hu => .bind (Expr.type_sim (hb.mono hρ6)) fun hρ7 hv => ?_
    refine .bind (newUnion_sim (.cons (hu.mono hρ7) (.cons hv .nil))) fun _ htype => ?_
    exact .pure (Expr.sameType_of_mark rfl rfl htype (by simp))
  | _, _, _, .matching hsubject hcases =>
    .bind (Expr.oblige_sim hsubject) fun hρ1 hs => .bind (Expr.type_sim hs) fun hρ2 ht =>
      .bind (MatchCase.obligeAll_sim 0 (hcases.mono (hρ1.trans hρ2)) ht) fun _ hts =>
        .bind (newUnion_sim hts) fun _ htype => .pure (Expr.sameType_of_mark rfl rfl htype (by simp))
  | _, _, _, .letBinding h =>
    .bind (symbolType_sim h) fun _ ht => .pure (Expr.sameType_of_mark rfl rfl ht (by simp))
  | _, _, _, .binary => .throw _
  | _, _, _, .unary => .throw _
  | _, _, _, .call hcallee hargs => by
    refine .bind (Labelled.obligeArgs_sim 0 hargs) fun hρ1 hfields => .bind fresh_sim fun hρ2 hresult => ?_
    refine .bind (Expr.oblige_sim ((hcallee.mono hρ1).mono hρ2)) fun hρ3 hc => ?_
    refine .bind (newFunction_sim (hfields.imp fun _ _ h => (h.mono hρ2).mono hρ3) (hresult.mono hρ3))
      fun hρ4 hfunction => ?_
    refine .bind (Expr.type_sim (hc.mono hρ4)) fun hρ5 ht => ?_
    refine .bind (require_sim (.relate ht (hfunction.mono hρ5))) fun hρ6 _ => ?_
    exact .pure (Expr.sameType_of_mark rfl rfl ((((hresult.mono hρ3).mono hρ4).mono hρ5).mono hρ6) (by simp))
  | _, _, _, .argument h =>
    .bind (Expr.oblige_sim h) fun _ hv => .bind (Expr.type_sim hv) fun _ ht =>
      .pure (Expr.sameType_of_mark rfl rfl ht (by simp))
  | _, _, _, .tuple h =>
    .bind (Labelled.obligeElems_sim h) fun _ hfields => .bind (newType_sim (.tuple hfields)) fun _ ht =>
      .pure (Expr.sameType_of_mark rfl rfl ht (by simp))
  | _, _, _, .element h =>
    .bind (Expr.oblige_sim h) fun _ hv => .bind (Expr.type_sim hv) fun _ ht =>
      .pure (Expr.sameType_of_mark rfl rfl ht (by simp))
  | _, _, _, .select h => by
    refine .bind (Expr.oblige_sim h) fun _ ho => .bind fresh_sim fun hρ2 hresult => ?_
    refine .bind (Expr.type_sim (ho.mono hρ2)) fun hρ3 ht => ?_
    refine .bind (require_sim (.member ht (hresult.mono hρ3))) fun hρ4 _ => ?_
    exact .pure (Expr.sameType_of_mark rfl rfl ((hresult.mono hρ3).mono hρ4) (by simp))
  | _, _, _, .ident h =>
    .bind (Ident.oblige_sim h) fun _ ht => .pure (Expr.sameType_of_mark rfl rfl ht (by simp))
  | _, _, _, @Expr.Bound.literal _ _ value =>
    .pure (Expr.sameType_of_mark rfl rfl (by cases value <;> exact .scalar _) (by simp))
termination_by _ e => sizeOf e
theorem Labelled.obligeArgs_sim {call : Mark} :
    ∀ (n : Nat) {ρ : Pairing} {xs xs' : List (Option Labelled)}, Labelled.AllBound ρ xs xs' →
    Sim typingWorld ρ (fun ρ p p' => Forall₂ (TupleField.Paired ρ) p.2 p'.2) (Labelled.obligeArgs call n xs)
      (Labelled.obligeArgs call n xs')
  | _, _, _, _, .nil => .pure .nil
  | n, _, _, _, .cons h hs => by
    refine .bind fresh_sim fun hρ1 hslot => .bind (Expr.oblige_sim (h.mono hρ1)) fun hρ2 hv => ?_
    refine .bind (Expr.type_sim hv) fun hρ3 ht => ?_
    refine .bind (require_sim (.relate ht ((hslot.mono hρ2).mono hρ3))) fun hρ4 _ => ?_
    have hsub := (hρ2.trans hρ3).trans hρ4
    refine .bind (Labelled.obligeArgs_sim (n + 1) (hs.mono (hρ1.trans hsub))) fun hρ5 hfields => ?_
    exact .pure (.cons ⟨rfl, (hslot.mono hsub).mono hρ5⟩ hfields)
termination_by _ _ xs => sizeOf xs
theorem Labelled.obligeElems_sim : ∀ {ρ : Pairing} {xs xs' : List (Option Labelled)}, Labelled.AllBound ρ xs xs' →
    Sim typingWorld ρ (fun ρ p p' => Forall₂ (TupleField.Paired ρ) p.2 p'.2) (Labelled.obligeElems xs)
    (Labelled.obligeElems xs')
  | _, _, _, .nil => .pure .nil
  | _, _, _, .cons h hs => by
    refine .bind (Expr.oblige_sim h) fun hρ1 hv => .bind (Expr.type_sim hv) fun hρ2 ht => ?_
    refine .bind (Labelled.obligeElems_sim (hs.mono (hρ1.trans hρ2))) fun hρ3 hfields => ?_
    exact .pure (.cons ⟨rfl, ht.mono hρ3⟩ hfields)
termination_by _ xs => sizeOf xs
theorem MatchCase.obligeAll_sim {mark : Mark} :
    ∀ (n : Nat) {ρ : Pairing} {xs xs' : List (Option MatchCase)} {t t' : Ty},
    MatchCase.AllBound ρ xs xs' → t.Paired ρ t' → Sim typingWorld ρ (fun ρ p p' => Forall₂ (Ty.Paired ρ) p.2 p'.2)
      (MatchCase.obligeAll mark t n xs) (MatchCase.obligeAll mark t' n xs')
  | _, _, _, _, _, _, .nil, _ => .pure .nil
  | n, _, _, _, _, _, .cons (.mk hpattern hvalue) hs, hsubject => by
    refine .bind (Expr.oblige_sim hpattern) fun hρ1 hp => .bind (Expr.oblige_sim (hvalue.mono hρ1)) fun hρ2 hv => ?_
    refine .bind (Expr.type_sim hv) fun hρ3 ht => .bind (Expr.type_sim ((hp.mono hρ2).mono hρ3)) fun hρ4 hu => ?_
    have hsub := ((hρ1.trans hρ2).trans hρ3).trans hρ4
    refine .bind (require_sim (.relate hu (hsubject.mono hsub))) fun hρ5 _ => ?_
    refine .bind (MatchCase.obligeAll_sim (n + 1) (hs.mono (hsub.trans hρ5)) (hsubject.mono (hsub.trans hρ5)))
      fun hρ6 hts => ?_
    exact .pure (.cons (((ht.mono hρ4).mono hρ5).mono hρ6) hts)
termination_by _ _ xs => sizeOf xs
end

end

/-! ### Statements -/

/-- The statements declare the same, with types that are paired. -/
inductive Node.SameTypes (ρ : Pairing) : Node → Node → Prop where
  | typeAlias {a a' : TypeAlias} (hname : a.name = a'.name) (hsymbol : ρ.Ids .symbol a.symbol a'.symbol) :
      SameTypes ρ (.alias a) (.alias a')
  | expr {e e' : Expr} (h : e.SameType ρ e') : SameTypes ρ (.expr e) (.expr e')

theorem Builds.onward {c c' : Context} {given made : List Ty} (h : Builds c c' given made) : Onward c c' where
  next k := by
    cases k with
    | var => exact h.keeps.vars
    | node => exact h.grows.graph.size_le
    | scope => simp only [Context.next, h.grows.table, Nat.le_refl]
    | symbol => simp only [Context.next, h.grows.table, Nat.le_refl]
  graph := h.grows.graph
  symbols ha := by rwa [h.grows.table]
  parents ha := ⟨_, by rwa [h.grows.table], rfl⟩
  problems := h.grows.problems
  sound ht := by rwa [h.grows.table]

theorem Node.oblige_forward (n : Node) : Forward n.oblige := ⟨fun h => (Node.oblige_typed h).builds.onward⟩

theorem Node.obligeAll_eq_mapM (ns : List Node) : Node.obligeAll ns = ns.mapM Node.oblige := by
  induction ns with
  | nil => rw [Node.obligeAll, mapM_nil]
  | cons n ns ih => rw [Node.obligeAll, mapM_cons, ih]

section

variable {ρ ρ1 : Pairing} {n n' : Node}

theorem Node.SameTypes.mono (hρ : ρ ⊆ ρ1) (h : n.SameTypes ρ n') : n.SameTypes ρ1 n' := by
  cases h with
  | typeAlias hname hsymbol => exact .typeAlias hname (hsymbol.mono hρ)
  | expr h => exact .expr (h.mono hρ)

theorem TypeAlias.oblige_sim {token : Token} {name : String} {sign sign' : Sign} {i j : ScopeId} {x y : SymbolId}
    (hsign : sign.Scoped ρ sign') (hsymbol : ρ.Ids .symbol x y) :
    Sim typingWorld ρ (fun ρ a a' => a.name = a'.name ∧ ρ.Ids .symbol a.symbol a'.symbol)
    (TypeAlias.oblige ⟨token, name, sign, i, x⟩)
      (TypeAlias.oblige ⟨token, name, sign', j, y⟩) := by
  have hread : Sim typingWorld ρ (fun ρ a a' => a.name = a'.name ∧ ρ.Ids .symbol a.symbol a'.symbol) (do
      let r ← sign.read
      let metatype ← newType (.metatype r.2)
      require (.equality (← symbolType x) metatype { node := some token, path := [.signature] })
      return (⟨token, name, r.1, i, x⟩ : TypeAlias)) (do
      let r ← sign'.read
      let metatype ← newType (.metatype r.2)
      require (.equality (← symbolType y) metatype { node := some token, path := [.signature] })
      return (⟨token, name, r.1, j, y⟩ : TypeAlias)) := by
    obtain ⟨s0, i, j, rfl, rfl, hij⟩ := hsign
    refine .bind (s0.read_sim hij) fun hρ1 ht => .bind (newType_sim (.metatype ht)) fun hρ2 hm => ?_
    refine .bind (symbolType_sim ((hsymbol.mono hρ1).mono hρ2)) fun hρ3 hu => ?_
    exact .bind (require_sim (.relate hu (hm.mono hρ3))) fun hρ4 _ =>
      .pure ⟨rfl, (((hsymbol.mono hρ1).mono hρ2).mono hρ3).mono hρ4⟩
  obtain ⟨a, b, rfl, rfl, hab⟩ := id hsymbol
  unfold TypeAlias.oblige
  obtain ⟨s0, i', j', rfl, rfl, -⟩ := hsign
  cases s0 with
  | missing => exact .pure ⟨rfl, hsymbol⟩
  | _ =>
    dsimp only [Sign.inside, Sign.mapNames]
    rw [if_neg (natCast_ne_noSymbol a), if_neg (natCast_ne_noSymbol b)]
    exact hread

theorem Node.oblige_sim (h : n.Bound ρ n') : Sim typingWorld ρ Node.SameTypes n.oblige n'.oblige := by
  cases h with
  | typeAlias hsign hsymbol =>
    rw [Node.oblige, Node.oblige]
    exact .bind (TypeAlias.oblige_sim hsign hsymbol) fun _ h => .pure (.typeAlias h.1 h.2)
  | expr h =>
    rw [Node.oblige, Node.oblige]
    exact .bind (Expr.oblige_sim h) fun _ h => .pure (.expr h)

theorem typing_stage {c0 c1 c0' : Context} (hlinked : Linked ρ c0 c0') (hnamed : Named ρ c0 c0')
    (htable : c1.table = c0.table) (hclean : c1.diagnostics.entries = []) :
    Stage ρ c0 c1 c0' (fun c' => c'.diagnostics.entries = [] ∧ c'.table = c0'.table)
      (Node.Bound ρ) (fun ρ _ => Node.SameTypes ρ) Node.oblige Node.oblige := by
  intro l done ρ' c' n hl _ hgathered hc' hbound
  have hrun := hl.run
  have hbefore : Onward l.before c1 := ((Node.oblige_forward _).related hl.run).trans hl.after
  have hknows : Named ρ l.before c' := by
    refine ⟨hl.before.sound hnamed.sound, hgathered.onward.sound hnamed.sound', fun {k a} hk ha => hnamed.left hk ?_,
      fun {k b} hk hb => hnamed.right hk ?_, iff_of_true (hbefore.problems hclean) hc'.1⟩
    · have hle := hbefore.next k
      rcases hk with rfl | rfl <;> simp only [Context.next, htable] at ha hle ⊢ <;> omega
    · rcases hk with rfl | rfl <;> simpa only [Context.next, hc'.2] using hb
  obtain ⟨ρ1, b, c1', hfollows⟩ :=
    Node.oblige_sim hbound (hlinked.onward hl.before hgathered.onward) hknows hrun trivial
  have hbuilds := (Node.oblige_typed hfollows.run).builds
  exact ⟨ρ1, b, c1', hfollows.run, hfollows.advances, hfollows.linked, hbuilds.onward,
    ⟨hfollows.knows.problems.mp (hl.after.problems hclean), hbuilds.grows.table.trans hc'.2⟩, hfollows.result⟩

end

end TypeInference
