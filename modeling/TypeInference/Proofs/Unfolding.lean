import Mathlib.Data.Set.Finite.Lattice
import Mathlib.Order.Interval.Finset.Nat
import TypeInference.Proofs.Growth
import TypeInference.Proofs.Precedence
import TypeInference.Proofs.Reification

/-! # What a comparison unfolds to

The solver trades a relation between two composite types for relations between their parts, leaf cases of unions
included. `Unfolds` lists these, and `Move.reduct` says that there is nothing else. All types that a run comes across
are among finitely many (`Universe`). -/

namespace TypeInference.Substitution

variable {σ assumed : Substitution} {v : Int} {cs : List Constraint} {i j : NodeId} {Q : Set Ty} {t u : Ty}

/-- The types of the table are in the set. -/
def Inside (Q : Set Ty) (σ : Substitution) : Prop := ∀ p ∈ σ.entries, p.2 ∈ Q

theorem Inside.get? (h : σ.Inside Q) (hv : σ.get? v = some t) : t ∈ Q :=
  h (v, t) (mem_of_lookup hv)

theorem Inside.lookup (h : σ.Inside Q) (hσ : σ.Grounded) (ht : t ∈ Q) : σ.lookup t ∈ Q := by
  obtain ⟨vs, u, hchain⟩ := hσ t
  rw [hchain.lookup_eq]
  induction hchain with
  | stop => exact ht
  | link hget _ ih => exact ih (h.get? hget)

theorem mem_insertEntry {p : Int × Ty} : ∀ {entries : List (Int × Ty)}, p ∈ insertEntry v t entries →
    p = (v, t) ∨ p ∈ entries
  | [], h => .inl (List.mem_singleton.mp h)
  | (w, u) :: rest, h => by
    unfold insertEntry at h
    split at h
    · exact List.mem_cons.mp h
    · split at h
      · exact (List.mem_cons.mp h).imp_right (List.mem_cons_of_mem _)
      · rcases List.mem_cons.mp h with rfl | h
        · exact .inr List.mem_cons_self
        · exact (mem_insertEntry h).imp_right (List.mem_cons_of_mem _)

theorem Inside.bind (h : σ.Inside Q) (ht : t ∈ Q) : (σ.bind v t).Inside Q := by
  intro p hp
  unfold Substitution.bind at hp
  split at hp
  · exact h p hp
  · rcases mem_insertEntry hp with rfl | hp
    · exact ht
    · exact h p hp

end TypeInference.Substitution

namespace TypeInference.Solver

open Substitution

variable {g : TypeGraph} {σ : Substitution} {rel rel' : Relation} {a b x y : Ty}

/-! ### Relations between parts -/

/-- A relation between the resolved types `a` and `b` is traded for one between `x` and `y`, among others. -/
inductive Unfolds (g : TypeGraph) (σ : Substitution) : Relation → Ty → Ty → Relation → Ty → Ty → Prop where
  | metatype {rel : Relation} {i j : NodeId} {x y : Ty} (hi : g.get? i = some (.metatype x))
      (hj : g.get? j = some (.metatype y)) : Unfolds g σ rel (.node i) (.node j) rel x y
  | domain {rel : Relation} {i j : NodeId} {d d' : Option NodeId} {c c' : Ty} (hi : g.get? i = some (.function d c))
      (hj : g.get? j = some (.function d' c')) : Unfolds g σ rel (.node i) (.node j) rel (domainType d) (domainType d')
  | codomain {rel : Relation} {i j : NodeId} {d d' : Option NodeId} {c c' : Ty} (hi : g.get? i = some (.function d c))
      (hj : g.get? j = some (.function d' c')) : Unfolds g σ rel (.node i) (.node j) rel c c'
  | element {rel : Relation} {i j : NodeId} {l l' : String} {fs fs' : List TupleField} {f f' : TupleField}
      (hi : g.get? i = some (.tuple l fs)) (hj : g.get? j = some (.tuple l' fs')) (hf : (f, f') ∈ fs.zip fs') :
      Unfolds g σ rel (.node i) (.node j) rel f.type f'.type
  /-- A leaf case of a union on the left, against a type that is no union. -/
  | leftCase {rel : Relation} {i : NodeId} {cases ls : List Ty} {b x : Ty} (hi : g.get? i = some (.union cases))
      (hls : leafCases g σ i cases = .ok ls) (hx : x ∈ ls) : Unfolds g σ rel (.node i) b rel x b
  /-- A leaf case of one of two unions, against the other. -/
  | unionCase {rel : Relation} {i j : NodeId} {cases cases' ls : List Ty} {x : Ty} (hi : g.get? i = some (.union cases))
      (hj : g.get? j = some (.union cases')) (hls : leafCases g σ i cases = .ok ls) (hx : x ∈ ls) :
      Unfolds g σ rel (.node i) (.node j) .conformance x (.node j)
  | converse {i j : NodeId} {cases cases' ls : List Ty} {y : Ty} (hi : g.get? i = some (.union cases))
      (hj : g.get? j = some (.union cases')) (hls : leafCases g σ j cases' = .ok ls) (hy : y ∈ ls) :
      Unfolds g σ .equality (.node i) (.node j) .conformance y (.node i)
  /-- A leaf case of a union on the right, none of which is the type on the left. -/
  | rightCase {rel : Relation} {j : NodeId} {cases ls : List Ty} {a y : Ty} (hj : g.get? j = some (.union cases))
      (hls : leafCases g σ j cases = .ok ls) (hnew : ls.anyM (g.equal a) = .ok false) (hy : y ∈ ls) :
      Unfolds g σ rel a (.node j) .conformance a y

/-- What becomes of the state `s` below a relation between types that resolve to `a` and `b`. -/
inductive Reduct (g : TypeGraph) (s : State) (rel : Relation) (a b : Ty) : State → Prop where
  | settled : Reduct g s rel a b s.progress
  | bound {v : Int} {c : Ty} (hv : a = .var v ∧ c = b ∨ b = .var v ∧ c = a) (hne : c ≠ .var v) :
      Reduct g s rel a b { s with subst := s.subst.bind v c, idle := 0 }
  | unfolded (cs : List Constraint) {s' : State} (differ : g.equal a b = .ok false)
      (hcs : ∀ d ∈ cs, ∃ rel' x y location, d = .relate rel' x y location ∧ Unfolds g s.subst rel a b rel' x y)
      (hsubst : s'.subst = s.subst) (hwork : s'.work.Perm (cs ++ s.work)) : Reduct g s rel a b s'
  | postponed {ys : List Ty} {path location : Location} (differ : g.equal a b = .ok false)
      (hys : ∀ y ∈ ys, Unfolds g s.subst rel a b .conformance a y) :
      Reduct g s rel a b (s.progress.enqueue (.oneOf (ys.map fun y => .conformance a y path) location))

variable {s s' : State} {location : Location} {events : List Event}

theorem perm_pushAll (s : State) (cs : List Constraint) : (s.pushAll cs).work.Perm (cs ++ s.work) := by
  rw [work_pushAll]
  exact (List.reverse_perm cs).append_right _

theorem matchLeftUnion_reduct {cases : List Ty} (hi : g.get? i = some (.union cases))
    (differ : g.equal (.node i) b = .ok false) (h : matchLeftUnion g s rel i cases b location = .ok (.next s' events)) :
    Reduct g s rel (.node i) b s' := by
  unfold matchLeftUnion at h
  obtain ⟨lefts, hlefts, h⟩ := bind_eq_ok.mp h
  split at h
  · next j cases' _ hunion =>
    obtain ⟨k, hk, hj⟩ := unionCases?_eq_some.mp hunion
    cases hk
    have hleft : ∀ d ∈ lefts.map fun t => Constraint.relate .conformance t (.node j) (location.append [.unionCase]),
        ∃ rel' x y location, d = .relate rel' x y location ∧ Unfolds g s.subst rel (.node i) (.node j) rel' x y := by
      intro d hd
      obtain ⟨x, hx, rfl⟩ := List.mem_map.mp hd
      exact ⟨_, _, _, _, rfl, .unionCase hi hj hlefts hx⟩
    split at h
    · cases h
      exact .unfolded _ differ hleft (subst_pushAll _ _) (perm_pushAll _ _)
    · obtain ⟨rights, hrights, h⟩ := bind_eq_ok.mp h
      cases h
      rw [State.pushLeft, subst_pushAll] at hrights
      rw [State.pushLeft, State.pushLeft, pushAll_pushAll]
      refine .unfolded _ differ (List.forall_mem_append.mpr ⟨hleft, fun d hd => ?_⟩) (subst_pushAll _ _)
        (perm_pushAll _ _)
      obtain ⟨y, hy, rfl⟩ := List.mem_map.mp hd
      exact ⟨_, _, _, _, rfl, .converse hi hj hrights hy⟩
  · cases h
    refine .unfolded _ differ (fun d hd => ?_) (subst_pushAll _ _) (perm_pushAll _ _)
    obtain ⟨x, hx, rfl⟩ := List.mem_map.mp hd
    exact ⟨_, _, _, _, rfl, .leftCase hi hlefts hx⟩

theorem matchRightUnion_reduct {cases : List Ty} (hj : g.get? j = some (.union cases))
    (differ : g.equal a (.node j) = .ok false) (h : matchRightUnion g s a j cases location = .ok (.next s' events)) :
    Reduct g s rel a (.node j) s' := by
  unfold matchRightUnion at h
  obtain ⟨rights, hrights, h⟩ := bind_eq_ok.mp h
  obtain ⟨known, hknown, h⟩ := bind_eq_ok.mp h
  cases known with
  | true =>
    cases h
    exact .settled
  | false =>
    cases h
    exact .postponed differ fun y hy => .rightCase hj hrights hknown hy

theorem matchParts_reduct {c c' : Composite} (hi : g.get? i = some c) (hj : g.get? j = some c')
    (differ : g.equal (.node i) (.node j) = .ok false) (h : matchParts s rel location c c' = .next s' events) :
    Reduct g s rel (.node i) (.node j) s' := by
  unfold matchParts at h
  split at h
  · next d a d' b =>
    cases h
    refine .unfolded [.relate rel a b (location.append [.codomain]),
      .relate rel (domainType d) (domainType d') (location.append [.domain])] differ ?_ rfl (.refl _)
    refine List.forall_mem_cons.mpr ⟨⟨_, _, _, _, rfl, .codomain hi hj⟩, List.forall_mem_singleton.mpr ?_⟩
    exact ⟨_, _, _, _, rfl, .domain hi hj⟩
  · split at h
    · cases h
      refine .unfolded _ differ (fun d hd => ?_) (subst_pushAll _ _) (perm_pushAll _ _)
      obtain ⟨⟨⟨f, f'⟩, k⟩, hf, rfl⟩ := List.mem_map.mp hd
      exact ⟨_, _, _, _, rfl, .element hi hj (List.fst_mem_of_mem_zipIdx hf)⟩
    · cases h
  · next a b =>
    cases h
    refine .unfolded [.relate rel a b location] differ (List.forall_mem_singleton.mpr ?_) rfl (.refl _)
    exact ⟨_, _, _, _, rfl, .metatype hi hj⟩
  · cases h

theorem matchComposite_reduct (differ : g.equal a b = .ok false)
    (h : matchComposite g s rel a b location = .ok (.next s' events)) : Reduct g s rel a b s' := by
  unfold matchComposite at h
  split at h
  · next hunion =>
    obtain ⟨i, hi, hget⟩ := unionCases?_eq_some.mp hunion
    cases hi
    exact matchLeftUnion_reduct hget differ h
  · next hunion =>
    obtain ⟨j, hj, hget⟩ := unionCases?_eq_some.mp hunion
    cases hj
    exact matchRightUnion_reduct hget differ h
  · obtain ⟨c, hc, h⟩ := bind_eq_ok.mp h
    obtain ⟨c', hc', h⟩ := bind_eq_ok.mp h
    exact matchParts_reduct (get?_of_get hc) (get?_of_get hc') differ (by simpa using h)
  · cases h

theorem matchTypes_reduct (h : matchTypes g s rel t u location = .ok (.next s' events)) :
    Reduct g s rel (s.subst.lookup t) (s.subst.lookup u) s' ∨
      s' = { s with work := s.work ++ [.relate rel t u location], idle := s.idle + 1 } := by
  unfold matchTypes at h
  obtain ⟨equal, hequal, h⟩ := bind_eq_ok.mp h
  have hne : equal = false → s.subst.lookup t ≠ s.subst.lookup u := by
    rintro rfl heq
    rw [heq, equal_self] at hequal
    cases hequal
  cases equal with
  | true =>
    cases h
    exact .inl .settled
  | false =>
    simp only [Bool.false_eq_true, if_false] at h
    split at h
    · cases h
      exact .inr rfl
    · next ht _ _ =>
      cases h
      exact .inl (.bound (.inl ⟨ht, rfl⟩) fun heq => hne rfl (ht.trans heq.symm))
    · next hu _ _ _ =>
      cases h
      exact .inl (.bound (.inr ⟨hu, rfl⟩) fun heq => hne rfl (heq.trans hu.symm))
    · exact .inl (matchComposite_reduct hequal h)

/-! ### The types of a run -/

/-- A finite set of types of the graph, with the parts of every composite type. -/
structure Universe (g : TypeGraph) (Q : Set Ty) : Prop where
  finite : Q.Finite
  below : ∀ t ∈ Q, t.Below g.size
  absent : .absent ∈ Q
  parts : ∀ i x, g.get? i = some x → ∀ t ∈ x.parts, t ∈ Q
  domains : ∀ i d c, g.get? i = some (.function (some d) c) → .node d ∈ Q

theorem Universe.leaf (hQ : Universe g Q) (hσ : σ.Grounded) (hin : σ.Inside Q) (ht : t ∈ Q)
    (hx : σ.Leaf g t x) : x ∈ Q := by
  induction hx with
  | self => exact hin.lookup hσ ht
  | case hcases hc _ ih =>
    obtain ⟨i, -, hi⟩ := unionCases?_eq_some.mp hcases
    exact ih (hQ.parts i _ hi _ hc)

theorem Universe.leafCases (hQ : Universe g Q) (hσ : σ.Grounded) (hin : σ.Inside Q) {cases ls : List Ty}
    (hi : g.get? i = some (.union cases)) (hls : leafCases g σ i cases = .ok ls) (hx : x ∈ ls) : x ∈ Q := by
  cases leafCases_sound hi hls x hx with
  | self hnot => exact absurd (isUnion_of_lookup (lookup_node i) hi) hnot
  | case hcases hc rest =>
    obtain ⟨j, -, hj⟩ := unionCases?_eq_some.mp hcases
    exact hQ.leaf hσ hin (hQ.parts j _ hj _ hc) rest

theorem Universe.domainType (hQ : Universe g Q) {d : Option NodeId} {c : Ty} (hi : g.get? i = some (.function d c)) :
    domainType d ∈ Q := by
  cases d with
  | none => exact hQ.absent
  | some d => exact hQ.domains i d c hi

theorem Unfolds.mem (hQ : Universe g Q) (hσ : σ.Grounded) (hin : σ.Inside Q) (h : Unfolds g σ rel a b rel' x y)
    (ha : a ∈ Q) (hb : b ∈ Q) : x ∈ Q ∧ y ∈ Q := by
  cases h with
  | metatype hi hj =>
    exact ⟨hQ.parts _ _ hi _ (by simp [Composite.parts]), hQ.parts _ _ hj _ (by simp [Composite.parts])⟩
  | domain hi hj => exact ⟨hQ.domainType hi, hQ.domainType hj⟩
  | codomain hi hj =>
    exact ⟨hQ.parts _ _ hi _ (by simp [Composite.parts]), hQ.parts _ _ hj _ (by simp [Composite.parts])⟩
  | element hi hj hf =>
    obtain ⟨hf, hf'⟩ := List.of_mem_zip hf
    exact ⟨hQ.parts _ _ hi _ (List.mem_map_of_mem hf), hQ.parts _ _ hj _ (List.mem_map_of_mem hf')⟩
  | leftCase hi hls hx => exact ⟨hQ.leafCases hσ hin hi hls hx, hb⟩
  | unionCase hi _ hls hx => exact ⟨hQ.leafCases hσ hin hi hls hx, hb⟩
  | converse _ hj hls hy => exact ⟨hQ.leafCases hσ hin hj hls hy, ha⟩
  | rightCase hj hls _ hy => exact ⟨ha, hQ.leafCases hσ hin hj hls hy⟩

/-! ### What a constraint is traded for -/

/-- The constraint may be traded for another one, among others, as long as the table stays as it is. -/
inductive Derives (g : TypeGraph) (σ : Substitution) : Constraint → Constraint → Prop where
  | relation {rel rel' : Relation} {t u x y : Ty} {location location' : Location}
      (differ : g.equal (σ.lookup t) (σ.lookup u) = .ok false)
      (h : Unfolds g σ rel (σ.lookup t) (σ.lookup u) rel' x y) :
      Derives g σ (.relate rel t u location) (.relate rel' x y location')
  | postponed {rel : Relation} {t u : Ty} {ys : List Ty} {location path location' : Location}
      (differ : g.equal (σ.lookup t) (σ.lookup u) = .ok false)
      (h : ∀ y ∈ ys, Unfolds g σ rel (σ.lookup t) (σ.lookup u) .conformance (σ.lookup t) y) :
      Derives g σ (.relate rel t u location) (.oneOf (ys.map fun y => .conformance (σ.lookup t) y path) location')
  | member {t u : Ty} {m : Member} {i : NodeId} {l : String} {fs : List TupleField} {f : TupleField}
      {location location' : Location} (hi : g.get? i = some (.tuple l fs)) (hf : f ∈ fs) :
      Derives g σ (.member t m u location) (.equality u f.type location')
  | choice {choices : List Constraint} {location : Location} {c : Constraint} (hc : c ∈ choices) :
      Derives g σ (.oneOf choices location) c

/-- What the search does to the work and the table, up to the order of the work. -/
inductive Descent (g : TypeGraph) (s s' : State) : Prop where
  | bound {t u : Ty} {v : Int} {c : Constraint} (hc : c ∈ s.work) (ht : c.Mentions t) (hu : c.Mentions u)
      (hv : s.subst.lookup t = .var v) (hne : s.subst.lookup u ≠ .var v)
      (hsubst : s'.subst = s.subst.bind v (s.subst.lookup u)) (hwork : s'.work ⊆ s.work)
  | dropped {c : Constraint} (hsubst : s'.subst = s.subst) (hwork : s.work.Perm (c :: s'.work))
  | traded (cs : List Constraint) {c : Constraint} {rest : List Constraint} (top : s.work = c :: rest)
      (going : ¬ s.Stalled) (hsubst : s'.subst = s.subst) (hcs : ∀ d ∈ cs, Derives g s.subst c d)
      (hwork : s'.work.Perm (cs ++ rest))
  | requeued {c : Constraint} {rest : List Constraint} (top : s.work = c :: rest) (going : ¬ s.Stalled)
      (hsubst : s'.subst = s.subst) (hwork : s'.work = rest ++ [c]) (hidle : s'.idle = s.idle + 1)

theorem descent_of_reduct {rest : List Constraint} (top : s.work = .relate rel t u location :: rest)
    (going : ¬ s.Stalled) (h : Reduct g (s.below rest) rel (s.subst.lookup t) (s.subst.lookup u) s') :
    Descent g s s' := by
  have hrest : rest ⊆ s.work := by
    rw [top]
    exact List.subset_cons_self _ _
  have htop : .relate rel t u location ∈ s.work := by
    rw [top]
    exact List.mem_cons_self
  cases h with
  | settled =>
    refine .dropped (c := .relate rel t u location) rfl ?_
    rw [top]
    exact .refl _
  | @bound v c hv hne =>
    rcases hv with ⟨hv, rfl⟩ | ⟨hv, rfl⟩
    · exact .bound htop .left .right hv hne rfl hrest
    · exact .bound htop .right .left hv hne rfl hrest
  | unfolded cs differ hcs hsubst hwork =>
    refine .traded _ top going hsubst (fun d hd => ?_) hwork
    obtain ⟨rel', x, y, location', rfl, hunfolds⟩ := hcs d hd
    exact .relation differ hunfolds
  | @postponed ys path location' differ hys =>
    exact .traded [.oneOf (ys.map fun y => .conformance (s.subst.lookup t) y path) location'] top going rfl
      (List.forall_mem_singleton.mpr (.postponed differ hys)) List.perm_append_comm

theorem Move.descent (h : Move g s s') : Descent g s s' := by
  cases h with
  | @branch choices rest location choice work going hc =>
    exact .traded _ work going rfl (List.forall_mem_singleton.mpr (.choice hc)) (.refl _)
  | advance h =>
    cases h with
    | relate work going h =>
      rcases matchTypes_reduct h with hreduct | rfl
      · exact descent_of_reduct work going hreduct
      · exact .requeued work going rfl rfl rfl
    | member work going h =>
      unfold matchMember at h
      dsimp only at h
      split at h
      · cases h
        exact .requeued work going rfl rfl rfl
      · next htuple _ =>
        split at h
        · next f hfield =>
          cases h
          obtain ⟨i, -, hi⟩ := tuple?_eq_some.mp htuple
          exact .traded _ work going rfl (List.forall_mem_singleton.mpr (.member hi (mem_of_field? hfield))) (.refl _)
        · cases h
      · cases h
    | unstall _ h =>
      unfold Solver.unstall at h
      obtain ⟨⟨⟨v, w⟩, rest⟩, htake, h⟩ := Option.map_eq_some_iff.mp h
      obtain ⟨t, u, location, ht, hu, hperm⟩ := takeUnknown_perm htake
      cases h
      have hmem : .conformance t u location ∈ s.work := hperm.mem_iff.mpr List.mem_cons_self
      by_cases hvw : w = v
      · exact .dropped (by rw [hvw]; exact if_pos rfl) hperm
      · refine .bound hmem .left .right ht (by rw [hu]; simpa using hvw) (by rw [hu]) fun d hd => ?_
        exact hperm.mem_iff.mpr (List.mem_cons_of_mem _ hd)

/-! ### States inside a universe -/

/-- The constraint is of a known kind and speaks of types of the set. -/
structure Posable (Q : Set Ty) (c : Constraint) : Prop where
  types : ∀ t, c.Mentions t → t ∈ Q
  known : ∀ kind location, ¬ Within (.unknown kind location) c

theorem posable_relate (ht : t ∈ Q) (hu : u ∈ Q) :
    Posable Q (.relate rel t u location) where
  types := fun x hx => by
    rcases Constraint.mentions_relate.mp hx with rfl | rfl
    · exact ht
    · exact hu
  known := fun kind location h => by cases h

theorem posable_oneOf {choices : List Constraint} (h : ∀ c ∈ choices, Posable Q c) :
    Posable Q (.oneOf choices location) where
  types := fun x hx => by
    obtain ⟨c, hc, hx⟩ := Constraint.mentions_oneOf.mp hx
    exact (h c hc).types x hx
  known := fun kind location hwithin => by
    cases hwithin with
    | choice hc hwithin => exact (h _ hc).known kind location hwithin

theorem Derives.posable (hQ : Universe g Q) (hσ : σ.Grounded) (hin : σ.Inside Q) {c d : Constraint}
    (h : Derives g σ c d) (hc : Posable Q c) : Posable Q d := by
  cases h with
  | relation _ h =>
    obtain ⟨hx, hy⟩ := h.mem hQ hσ hin (hin.lookup hσ (hc.types _ .left)) (hin.lookup hσ (hc.types _ .right))
    exact posable_relate hx hy
  | postponed _ h =>
    refine posable_oneOf fun d hd => ?_
    obtain ⟨y, hy, rfl⟩ := List.mem_map.mp hd
    obtain ⟨hx, hy⟩ := (h y hy).mem hQ hσ hin (hin.lookup hσ (hc.types _ .left)) (hin.lookup hσ (hc.types _ .right))
    exact posable_relate hx hy
  | member hi hf => exact posable_relate (hc.types _ .value) (hQ.parts _ _ hi _ (List.mem_map_of_mem hf))
  | choice hmem =>
    exact ⟨fun t ht => hc.types t (.choice hmem ht), fun kind location h => hc.known kind location (.choice hmem h)⟩

/-- All that a state is about is in the set. -/
structure State.Inside (Q : Set Ty) (s : State) : Prop where
  grounded : s.subst.Grounded
  table : s.subst.Inside Q
  work : ∀ c ∈ s.work, Posable Q c

theorem Move.inside (hQ : Universe g Q) (h : Move g s s') (hs : s.Inside Q) : s'.Inside Q := by
  refine ⟨h.grounded hs.grounded, ?_, ?_⟩
  · cases h.descent with
    | bound hc _ hu _ _ hsubst =>
      rw [hsubst]
      exact hs.table.bind (hs.table.lookup hs.grounded ((hs.work _ hc).types _ hu))
    | dropped hsubst => exact hsubst ▸ hs.table
    | traded _ _ _ hsubst => exact hsubst ▸ hs.table
    | requeued _ _ hsubst => exact hsubst ▸ hs.table
  · intro d hd
    cases h.descent with
    | bound _ _ _ _ _ _ hwork => exact hs.work d (hwork hd)
    | dropped _ hwork => exact hs.work d (hwork.mem_iff.mpr (List.mem_cons_of_mem _ hd))
    | traded cs top _ _ hcs hwork =>
      obtain ⟨htop, hrest⟩ := List.forall_mem_cons.mp (top ▸ hs.work)
      rcases List.mem_append.mp (hwork.mem_iff.mp hd) with hd | hd
      · exact (hcs d hd).posable hQ hs.grounded hs.table htop
      · exact hrest d hd
    | requeued top _ _ hwork =>
      have hperm : s'.work.Perm s.work := by
        rw [hwork, top]
        exact List.perm_append_comm
      exact hs.work d (hperm.mem_iff.mp hd)

theorem Visits.inside (hQ : Universe g Q) (h : Visits g s s') (hs : s.Inside Q) : s'.Inside Q := by
  induction h with
  | refl => exact hs
  | tail _ hmove ih => exact hmove.inside hQ ih

/-! ### Constraints over the types of a graph -/

/-- The constraints are of known kinds, over types of a graph without absent parts, and so are the assumptions, which
have no circle of variables. -/
structure WellPosed (g : TypeGraph) (cs : List Constraint) (assumed : Substitution) : Prop where
  closed : g.Closed
  complete : g.Complete
  types : ∀ c ∈ cs, ∀ t, c.Mentions t → t.Below g.size
  known : ∀ c ∈ cs, ∀ kind location, ¬ Within (.unknown kind location) c
  bindings : assumed.Below g.size
  acyclic : assumed.NoVariableCycle

theorem finite_mentions : ∀ c : Constraint, {t | c.Mentions t}.Finite
  | .relate rel t u location => ((Set.finite_singleton u).insert t).subset fun x hx => by simpa using hx
  | .member t m u location => ((Set.finite_singleton u).insert t).subset fun x hx => by simpa using hx
  | .oneOf choices location => by
    have hall : (⋃ c ∈ {c | c ∈ choices}, {t | c.Mentions t}).Finite :=
      (List.finite_toSet choices).biUnion fun c hc => finite_mentions c
    refine hall.subset fun x hx => ?_
    obtain ⟨c, hc, hx⟩ := Constraint.mentions_oneOf.mp hx
    exact Set.mem_biUnion hc hx
  | .unknown kind location => Set.finite_empty.subset fun x hx => by cases hx
termination_by c => sizeOf c
decreasing_by
  have := List.sizeOf_lt_of_mem hc
  simp only [Constraint.oneOf.sizeOf_spec]
  omega

/-- The types of the constraints, of the assumptions and of the graph. -/
def typesOf (g : TypeGraph) (cs : List Constraint) (assumed : Substitution) : Set Ty :=
  {t | t = .absent ∨ (∃ i < g.size, t = .node i) ∨ (∃ c ∈ cs, c.Mentions t) ∨ (∃ x ∈ g.nodes.toList, t ∈ x.parts) ∨
    ∃ p ∈ assumed.entries, p.2 = t}

theorem finite_typesOf (g : TypeGraph) (cs : List Constraint) (assumed : Substitution) :
    (typesOf g cs assumed).Finite := by
  have hnodes : (⋃ i ∈ Set.Iio g.size, {Ty.node i}).Finite :=
    (Set.finite_Iio g.size).biUnion fun i _ => Set.finite_singleton _
  have hcs : (⋃ c ∈ {c | c ∈ cs}, {t | c.Mentions t}).Finite :=
    (List.finite_toSet cs).biUnion fun c _ => finite_mentions c
  have hparts : (⋃ x ∈ {x | x ∈ g.nodes.toList}, {t | t ∈ x.parts}).Finite :=
    (List.finite_toSet _).biUnion fun x _ => List.finite_toSet x.parts
  have hbound : (⋃ p ∈ {p | p ∈ assumed.entries}, {p.2}).Finite :=
    (List.finite_toSet _).biUnion fun p _ => Set.finite_singleton _
  refine ((Set.finite_singleton Ty.absent).union (hnodes.union (hcs.union (hparts.union hbound)))).subset ?_
  rintro t (rfl | ⟨i, hi, rfl⟩ | ⟨c, hc, ht⟩ | ⟨x, hx, ht⟩ | ⟨p, hp, rfl⟩)
  · exact .inl rfl
  · exact .inr (.inl (Set.mem_biUnion hi rfl))
  · exact .inr (.inr (.inl (Set.mem_biUnion hc ht)))
  · exact .inr (.inr (.inr (.inl (Set.mem_biUnion hx ht))))
  · exact .inr (.inr (.inr (.inr (Set.mem_biUnion hp rfl))))

theorem WellPosed.universe (h : WellPosed g cs assumed) :
    Universe g (typesOf g cs assumed) where
  finite := finite_typesOf g cs assumed
  below := by
    rintro t (rfl | ⟨i, hi, rfl⟩ | ⟨c, hc, ht⟩ | ⟨x, hx, ht⟩ | ⟨p, hp, rfl⟩)
    · trivial
    · exact hi
    · exact h.types c hc t ht
    · obtain ⟨i, hi⟩ := List.getElem?_of_mem hx
      exact (h.closed i x (by rwa [Array.getElem?_toList] at hi)).parts t ht
    · exact h.bindings p hp
  absent := .inl rfl
  parts := fun i x hi _ ht => .inr (.inr (.inr (.inl ⟨x, Array.mem_toList_iff.mpr (Array.mem_of_getElem? hi), ht⟩)))
  domains := fun i d c hi => .inr (.inl ⟨d, (h.closed i _ hi).domain d c rfl, rfl⟩)

theorem WellPosed.inside (h : WellPosed g cs assumed) :
    (State.initial cs assumed).Inside (typesOf g cs assumed) where
  grounded := h.acyclic.grounded
  table := fun p hp => .inr (.inr (.inr (.inr ⟨p, hp, rfl⟩)))
  work := fun c hc => ⟨fun _ ht => .inr (.inr (.inl ⟨c, mem_initial.mp hc, ht⟩)), h.known c (mem_initial.mp hc)⟩

end TypeInference.Solver
