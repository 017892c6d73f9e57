import TypeInference.Proofs.FiniteTypes
import TypeInference.Proofs.Outcomes
import TypeInference.Proofs.Parts

/-! # Conformance of finite types is decided

A question whether one finite type conforms to another is answered, without a binding, and accepted exactly if the types
conform (`conformance_decided`). Each step trades a question for questions that come to the same (`matchTypes_answer`).
As there is nothing to bind, all choices that are accepted agree, so no disjunction is ambiguous (`combine_spec`). -/

namespace TypeInference.Solver

open Substitution TypeGraph
open List

variable {g : TypeGraph} {s s' : State} {t u : Ty} {c : Constraint} {choices cs rest : List Constraint}
  {location : Location} {r : StepResult}

/-! ### Questions -/

section Questions

variable {x y : Composite} {ls : List Ty} {i j : NodeId}

/-- Whether finite types conform, for one pair of them or for one of several. -/
inductive Question (g : TypeGraph) : Constraint → Prop where
  | conformance {t u : Ty} {location : Location} (ht : g.FiniteType t) (hu : g.FiniteType u) :
      Question g (.conformance t u location)
  | choice {choices : List Constraint} {location : Location} (hne : choices ≠ [])
      (h : Relates .conformance (fun t u => g.FiniteType t ∧ g.FiniteType u) choices) :
      Question g (.oneOf choices location)

abbrev Yes (g : TypeGraph) (c : Constraint) : Prop := empty.Satisfies g c

theorem yes_relate {rel : Relation} : Yes g (.relate rel t u location) ↔ empty.Related g rel t u := by
  refine ⟨fun h => ?_, .relate⟩
  cases h with
  | relate h => exact h

theorem yes_oneOf : Yes g (.oneOf choices location) ↔ ∃ c ∈ choices, Yes g c := by
  refine ⟨fun h => ?_, fun ⟨c, hc, h⟩ => .oneOf hc h⟩
  cases h with
  | oneOf hc h => exact ⟨_, hc, h⟩

theorem question_of_relates (h : Relates .conformance (fun t u => g.FiniteType t ∧ g.FiniteType u) cs) (hc : c ∈ cs) :
    Question g c := by
  obtain ⟨t, u, location, rfl, ht, hu⟩ := h c hc
  exact .conformance ht hu

/-- What a step makes of the question whether `t` conforms to `u`: questions that come to the same, or the answer no. -/
inductive Answer (g : TypeGraph) (s : State) (t u : Ty) : StepResult → Prop where
  | trade {cs : List Constraint} {s' : State} {events : List Event} (puts : Puts s cs s')
      (questions : ∀ c ∈ cs, Question g c) (meaning : (∀ c ∈ cs, Yes g c) ↔ empty.Related g .conformance t u) :
      Answer g s t u (.next s' events)
  | refuse (h : ¬ empty.Related g .conformance t u) : Answer g s t u .mismatch

theorem answer_settled (h : empty.Related g .conformance t u) : Answer g s t u (.quiet s.progress) :=
  .trade (puts_progress s) (forall_mem_nil _) (iff_of_true (forall_mem_nil _) h)

theorem related_of_equal (h : g.equal t u = .ok true) : empty.Related g .conformance t u :=
  .bisimilar (bisimilar_of_equal grounded_empty h)

theorem related_iff_leafCases {cases : List Ty} (hi : g.get? i = some (.union cases))
    (hls : leafCases g .empty i cases = .ok ls) : (∀ x ∈ ls, empty.Related g .conformance x u) ↔
    empty.Related g .conformance (.node i) u := by
  refine ⟨fun h => related_of_leaves (isUnion_of_lookup (lookup_node i) hi) fun x hx => ?_, fun h x hx => ?_⟩
  · obtain ⟨y, hy, hxy⟩ := leafCases_complete hi hls hx
    exact (h y hy).congr grounded_empty (bisimilar_of_equal grounded_empty hxy) (.refl _ _ u)
  · exact h.leaf grounded_empty (leafCases_sound hi hls x hx)

/-- A type that is no union conforms to a union if it does to a leaf case that is found. -/
theorem related_iff_choice {cases : List Ty} (ht : ¬ empty.IsUnion g t) (hj : g.get? j = some (.union cases))
    (hls : leafCases g .empty j cases = .ok ls) :
    (∃ y ∈ ls, empty.Related g .conformance t y) ↔ empty.Related g .conformance t (.node j) := by
  have hu : empty.IsUnion g (.node j) := isUnion_of_lookup (lookup_node j) hj
  constructor
  · rintro ⟨y, hy, h⟩
    exact .rightUnion ht hu (leafCases_sound hj hls y hy) h
  · intro h
    obtain ⟨x, hx, htx⟩ := h.leaf_right ht hu
    obtain ⟨y, hy, hyx⟩ := leafCases_complete hj hls hx
    exact ⟨y, hy, htx.congr grounded_empty (.refl _ _ t) (bisimilar_of_equal grounded_empty hyx).symm⟩

theorem matchLeftUnion_answer {cases : List Ty} (hs : s.subst = .empty) (hi : g.get? i = some (.union cases))
    (ht : g.FiniteType (.node i)) (hu : g.FiniteType u)
    (h : matchLeftUnion g s .conformance i cases u location = .ok r) : Answer g s (.node i) u r := by
  unfold matchLeftUnion at h
  obtain ⟨lefts, hlefts, h⟩ := bind_eq_ok.mp h
  rw [hs] at hlefts
  have hpush : ∀ within, Answer g s (.node i) u (.quiet (s.pushLeft .conformance lefts u within)) := by
    refine fun within => .trade (puts_pushAll s _) (fun c hc => ?_) ?_
    · obtain ⟨x, hx, rfl⟩ := mem_map.mp hc
      exact .conformance (ht.leaf (leafCases_sound hi hlefts x hx)) hu
    · rw [← related_iff_leafCases hi hlefts, forall_mem_map]
      exact forall₂_congr fun x _ => yes_relate
  split at h
  · cases h
    exact hpush _
  · cases h
    exact hpush _

theorem matchRightUnion_answer {cases : List Ty} (hs : s.subst = .empty) (hj : g.get? j = some (.union cases))
    (ht : g.FiniteType t) (hu : g.FiniteType (.node j)) (hnot : ¬ empty.IsUnion g t)
    (h : matchRightUnion g s t j cases location = .ok r) : Answer g s t (.node j) r := by
  unfold matchRightUnion at h
  obtain ⟨rights, hrights, h⟩ := bind_eq_ok.mp h
  rw [hs] at hrights
  obtain ⟨known, hknown, h⟩ := bind_eq_ok.mp h
  cases known with
  | true =>
    cases h
    obtain ⟨y, hy, hequal⟩ := mem_of_anyM hknown
    exact answer_settled ((related_iff_choice hnot hj hrights).mp ⟨y, hy, related_of_equal hequal⟩)
  | false =>
    cases h
    refine .trade (puts_enqueue s _) (forall_mem_singleton.mpr (.choice ?_ ?_)) ?_
    · obtain ⟨x, hx⟩ := hu.exists_leaf
      obtain ⟨y, hy, -⟩ := leafCases_complete hj hrights hx
      exact ne_nil_of_mem (mem_map_of_mem hy)
    · intro c hc
      obtain ⟨y, hy, rfl⟩ := mem_map.mp hc
      exact ⟨_, _, _, rfl, ht, hu.leaf (leafCases_sound hj hrights y hy)⟩
    · rw [forall_mem_singleton, yes_oneOf, ← related_iff_choice hnot hj hrights]
      simp only [mem_map, exists_exists_and_eq_and, yes_relate]

theorem related_node_iff (hi : g.get? i = some x) (hj : g.get? j = some y) (hx : ∀ cases, x ≠ .union cases)
    (hy : ∀ cases, y ≠ .union cases) : empty.Related g .conformance (.node i) (.node j) ↔
    x.Agree (empty.Related g .conformance) y := by
  rw [← congruent_node_iff (fun t => .bisimilar (.refl _ _ t)) hi hj hx]
  refine ⟨fun h => ?_, fun h => Congruent.related (by simpa only [lookup_node] using h)⟩
  have hcongruent := h.congruent (not_isUnion_of_lookup (lookup_node i) hi hx)
      (not_isUnion_of_lookup (lookup_node j) hj hy)
  simpa only [lookup_node] using hcongruent

theorem matchParts_answer (hi : g.get? i = some x) (hj : g.get? j = some y) (hx : ∀ cases, x ≠ .union cases)
    (hy : ∀ cases, y ≠ .union cases) (ht : g.FiniteType (.node i)) (hu : g.FiniteType (.node j)) :
    Answer g s (.node i) (.node j) (matchParts s .conformance location x y) := by
  cases hr : matchParts s .conformance location x y with
  | mismatch =>
    refine .refuse ?_
    rw [related_node_iff hi hj hx hy]
    exact not_agree_of_mismatch hr
  | next s' events =>
    obtain ⟨cs, hputs, hparts⟩ := matchParts_next hr
    have hfinite := (hparts _).mpr (agree_of_next (F := g.FiniteType) (fun _ => ht.part hi) (fun _ => hu.part hj)
      (fun _ _ hd => (ht.domainType (hd ▸ hi)).1) (fun _ _ hd => (hu.domainType (hd ▸ hj)).1) hr)
    refine .trade hputs (fun c => question_of_relates hfinite) ?_
    rw [related_node_iff hi hj hx hy, ← hparts]
    refine forall₂_congr fun c hc => ?_
    obtain ⟨a, b, location', rfl, -⟩ := hfinite c hc
    rw [yes_relate]
    refine ⟨fun h => ⟨a, b, location', rfl, h⟩, ?_⟩
    rintro ⟨_, _, _, heq, h⟩
    cases heq
    exact h

theorem matchComposite_answer (hs : s.subst = .empty) (ht : g.FiniteType t) (hu : g.FiniteType u) (hne : t ≠ u)
    (h : matchComposite g s .conformance t u location = .ok r) : Answer g s t u r := by
  have hnot : ∀ {x}, (∀ i cases, x = .node i → g.unionCases? x = some cases → False) → ¬ empty.IsUnion g x := by
    rintro x hx ⟨cases, hcases⟩
    rw [lookup_empty] at hcases
    obtain ⟨i, hi, -⟩ := unionCases?_eq_some.mp hcases
    exact hx i cases hi hcases
  have hwhole : ∀ {i x}, (∀ cases, g.unionCases? (.node i) = some cases → False) → g.get? i = some x →
      ∀ cases, x ≠ .union cases := by
    rintro i x hi hx cases rfl
    exact hi cases (unionCases?_eq_some.mpr ⟨i, rfl, hx⟩)
  unfold matchComposite at h
  split at h
  · next hunion =>
    obtain ⟨i, hi, hget⟩ := unionCases?_eq_some.mp hunion
    cases hi
    exact matchLeftUnion_answer hs hget ht hu h
  · next hleft hunion =>
    obtain ⟨j, hj, hget⟩ := unionCases?_eq_some.mp hunion
    cases hj
    exact matchRightUnion_answer hs hget ht hu (hnot hleft) h
  · next hleft hright =>
    obtain ⟨x, hx, h⟩ := bind_eq_ok.mp h
    obtain ⟨y, hy, h⟩ := bind_eq_ok.mp h
    cases h
    have hi := get?_of_get hx
    have hj := get?_of_get hy
    exact matchParts_answer hi hj (hwhole hleft hi) (hwhole hright hj) ht hu
  · next hnodes hleft hright =>
    cases h
    refine .refuse fun hrelated => ?_
    have hcongruent := hrelated.congruent (hnot hleft) (hnot hright)
    rw [lookup_empty, lookup_empty] at hcongruent
    cases hcongruent with
    | same => exact hne rfl
    | metatype | function | tuple => exact hnodes _ _ rfl rfl

theorem matchTypes_answer (hs : s.subst = .empty) (ht : g.FiniteType t) (hu : g.FiniteType u)
    (h : matchTypes g s .conformance t u location = .ok r) : Answer g s t u r := by
  unfold matchTypes at h
  rw [hs, lookup_empty, lookup_empty] at h
  obtain ⟨same, hsame, h⟩ := bind_eq_ok.mp h
  cases same with
  | true =>
    cases h
    exact answer_settled (related_of_equal hsame)
  | false =>
    have hne : t ≠ u := by
      rintro rfl
      rw [equal_self] at hsame
      cases hsame
    simp only [Bool.false_eq_true, if_false] at h
    split at h
    · exact absurd rfl (ht.ne_var _)
    · exact absurd rfl (ht.ne_var _)
    · exact absurd rfl (hu.ne_var _)
    · exact matchComposite_answer hs ht hu hne h

end Questions

/-! ### States -/

/-- All that is left to do are questions, and nothing was bound or put back. -/
structure State.Asking (g : TypeGraph) (s : State) : Prop where
  work : ∀ c ∈ s.work, Question g c
  table : s.subst = .empty
  idle : s.idle = 0

namespace State.Asking

theorem not_stalled (hs : s.Asking g) : ¬ s.Stalled := fun h => Nat.lt_irrefl 0 (hs.idle ▸ h.1)

theorem top (hs : s.Asking g) (hwork : s.work = c :: rest) : Question g c ∧ (s.below rest).Asking g := by
  have h := hs.work
  rw [hwork, forall_mem_cons] at h
  exact ⟨h.1, h.2, hs.table, hs.idle⟩

theorem choose {choice : Constraint} (hs : s.Asking g) (hwork : s.work = .oneOf choices location :: rest)
    (hc : choice ∈ choices) : (s.choose choice rest).Asking g := by
  obtain ⟨htop, hrest⟩ := hs.top hwork
  cases htop with
  | choice _ h => exact ⟨forall_mem_cons.mpr ⟨question_of_relates h hc, hrest.work⟩, hs.table, rfl⟩

theorem trade {events : List Event} (hs : s.Asking g) (hwork : s.work = .conformance t u location :: rest)
    (h : Answer g (s.below rest) t u (.next s' events)) : s'.Asking g ∧
    ((∀ c ∈ s'.work, Yes g c) ↔ ∀ c ∈ s.work, Yes g c) := by
  obtain ⟨-, hbelow⟩ := hs.top hwork
  cases h with
  | trade puts questions meaning =>
    refine ⟨⟨puts.forall_work.mpr ⟨questions, hbelow.work⟩, puts.subst.trans hs.table,
      Nat.le_zero.mp (puts.idle.trans hbelow.idle.le)⟩, ?_⟩
    rw [puts.forall_work, meaning, hwork, forall_mem_cons, yes_relate]
    rfl

theorem move (hs : s.Asking g) (h : Move g s s') : s'.Asking g := by
  cases h with
  | branch work _ hc => exact hs.choose work hc
  | advance h =>
    cases h with
    | unstall stalled _ => exact absurd stalled hs.not_stalled
    | member work _ _ => cases (hs.top work).1
    | relate work _ h =>
      obtain ⟨hquestion, hbelow⟩ := hs.top work
      cases hquestion with
      | conformance ht hu => exact (hs.trade work (matchTypes_answer hbelow.table ht hu h)).1

theorem visits (hs : s.Asking g) (h : Visits g s s') : s'.Asking g := by
  induction h with
  | refl => exact hs
  | tail _ hmove ih => exact ih.move hmove

end State.Asking

/-! ### Comparisons get smaller -/

section Comparisons

variable {p q : Comparison}

/-- The comparison is between finite types that conform. -/
structure Comparison.Finite (g : TypeGraph) (p : Comparison) : Prop where
  relation : p.relation = .conformance
  left : g.FiniteType p.left
  right : g.FiniteType p.right

/-- The second comparison is between types that can be reached from those of the first, one of them from inside. -/
structure Comparison.Descends (g : TypeGraph) (p q : Comparison) : Prop where
  relation : q.relation = p.relation
  left : g.Reaches p.left q.left
  right : g.Reaches p.right q.right
  inside : g.Inside q.left p.left ∨ g.Inside q.right p.right

theorem Comparison.Descends.trans {r : Comparison} (h : p.Descends g q) (h' : q.Descends g r) : p.Descends g r :=
  ⟨h'.relation.trans h.relation, h.left.trans h'.left, h.right.trans h'.right,
    h.inside.imp (fun hin => hin.trans_reaches h'.left) fun hin => hin.trans_reaches h'.right⟩

theorem Comparison.Finite.descends (hp : p.Finite g) (h : p.Descends g q) : q.Finite g :=
  ⟨h.relation.trans hp.relation, hp.left.reaches h.left, hp.right.reaches h.right⟩

theorem Comparison.Finite.descends_of_leads (hp : p.Finite g) (h : Leads g .empty p q) : p.Descends g q := by
  obtain ⟨rel, a, b⟩ := p
  obtain ⟨rel', a', b'⟩ := q
  obtain ⟨hrel, ha, hb⟩ := hp
  obtain ⟨-, x, y, hunfolds, hx, hy⟩ := h
  rw [lookup_empty] at hx hy
  cases hx
  cases hy
  dsimp only at *
  subst hrel
  have both : g.Inside a' a → g.Inside b' b →
      Comparison.Descends g ⟨.conformance, a, b⟩ ⟨.conformance, a', b'⟩ := fun hl hr =>
    ⟨rfl, hl.reaches, hr.reaches, .inl hl⟩
  cases hunfolds with
  | metatype hi hj =>
    exact both (inside_of_part hi (by simp [Composite.parts])) (inside_of_part hj (by simp [Composite.parts]))
  | domain hi hj => exact both (ha.domainType hi).2 (hb.domainType hj).2
  | codomain hi hj =>
    exact both (inside_of_part hi (by simp [Composite.parts])) (inside_of_part hj (by simp [Composite.parts]))
  | element hi hj hf =>
    obtain ⟨hfs, hfs'⟩ := of_mem_zip hf
    exact both (inside_of_part hi (mem_map_of_mem hfs)) (inside_of_part hj (mem_map_of_mem hfs'))
  | leftCase hi hls hx =>
    have hin := inside_of_leaf (isUnion_of_lookup (lookup_node _) hi) (leafCases_sound hi hls _ hx)
    exact ⟨rfl, hin.reaches, .refl _, .inl hin⟩
  | unionCase hi _ hls hx =>
    have hin := inside_of_leaf (isUnion_of_lookup (lookup_node _) hi) (leafCases_sound hi hls _ hx)
    exact ⟨rfl, hin.reaches, .refl _, .inl hin⟩
  | rightCase hj hls _ hy =>
    have hin := inside_of_leaf (isUnion_of_lookup (lookup_node _) hj) (leafCases_sound hj hls _ hy)
    exact ⟨rfl, .refl _, hin.reaches, .inr hin⟩

theorem Comparison.Finite.descends_of_transGen (hp : p.Finite g) (h : Relation.TransGen (Leads g .empty) p q) :
    p.Descends g q := by
  induction h with
  | single h => exact hp.descends_of_leads h
  | tail _ h ih => exact ih.trans ((hp.descends ih).descends_of_leads h)

theorem State.Asking.not_circular (hs : s.Asking g) : ¬ s.Circular g := by
  rintro ⟨p, ⟨rel, t, u, location, rest, hwork, -, rfl⟩, hcircle⟩
  obtain ⟨hquestion, -⟩ := hs.top hwork
  cases hquestion with
  | conformance ht hu =>
    rw [hs.table] at hcircle
    have hleft : g.FiniteType (empty.lookup t) := by rwa [lookup_empty]
    have hright : g.FiniteType (empty.lookup u) := by rwa [lookup_empty]
    have hfinite : Comparison.Finite g (.of .empty .conformance t u) := ⟨rfl, hleft, hright⟩
    rcases (hfinite.descends_of_transGen hcircle).inside with hin | hin
    · exact hfinite.left.not_inside_self hin
    · exact hfinite.right.not_inside_self hin

end Comparisons

/-! ### Runs -/

section Runs

variable {P : Fault → Prop} {x : Composite} {G : TypeGraph} {sh : Shared}

theorem reifyType_isOk (ht : g.FiniteType t) (hg : g.Closed) (hG : G.Closed) (hext : g.Extends G) :
    ∃ r, Constraint.reifyType .empty G t = .ok r ∧ g.Extends r.1 ∧ r.1.Closed := by
  obtain ⟨G', a, h, hext', hG'⟩ := ht.reify_isOk hg hG hext
  refine ⟨(G', a), ?_, hext', hG'⟩
  cases t with
  | absent => exact (ht.solid _ (.refl _)).elim
  | _ => exact h

theorem reify_conformance_isOk (ht : g.FiniteType t) (hu : g.FiniteType u) (hg : g.Closed) (hG : G.Closed)
    (hext : g.Extends G) (location : Location) : ∃ r, Constraint.reify .empty G (.conformance t u location) = .ok r ∧
    g.Extends r.1 ∧ r.1.Closed := by
  obtain ⟨⟨G1, a⟩, h1, hext1, hG1⟩ := reifyType_isOk ht hg hG hext
  obtain ⟨⟨G2, b⟩, h2, hext2, hG2⟩ := reifyType_isOk hu hg hG1 hext1
  refine ⟨(G2, .conformance a b location), ?_, hext2, hG2⟩
  simp only [Constraint.reify, h1, h2, ok_bind]
  rfl

theorem reifyAll_isOk (hcs : Relates .conformance (fun t u => g.FiniteType t ∧ g.FiniteType u) cs) (hg : g.Closed)
    (hG : G.Closed) (hext : g.Extends G) : ∃ r, Constraint.reifyAll .empty G cs = .ok r := by
  induction cs generalizing G with
  | nil => exact ⟨_, rfl⟩
  | cons c cs ih =>
    obtain ⟨⟨t, u, location, rfl, ht, hu⟩, hrest⟩ := forall_mem_cons.mp hcs
    obtain ⟨⟨G1, c1⟩, h1, hext1, hG1⟩ := reify_conformance_isOk ht hu hg hG hext location
    obtain ⟨⟨G2, cs2⟩, h2⟩ := ih hrest hG1 hext1
    refine ⟨(G2, c1 :: cs2), ?_⟩
    simp only [Constraint.reifyAll, h1, h2, ok_bind]
    rfl

theorem Question.reify_isOk (hc : Question g c) (hg : g.Closed) : ∃ r, c.reify .empty g = .ok r := by
  cases hc with
  | conformance ht hu =>
    obtain ⟨r, h, -⟩ := reify_conformance_isOk ht hu hg hg (TypeGraph.extends_refl g) _
    exact ⟨r, h⟩
  | @choice choices location _ h =>
    obtain ⟨⟨G, cs⟩, h⟩ := reifyAll_isOk h hg hg (TypeGraph.extends_refl g)
    refine ⟨(G, .oneOf cs location), ?_⟩
    simp only [Constraint.reify, h, ok_bind]
    rfl

/-- The outcome is that nothing is bound, if the answer to all questions is yes, and that something was given up
otherwise. -/
def State.Decided (g : TypeGraph) (s : State) (o : Outcome) : Prop :=
  (∀ c ∈ s.work, Yes g c) ∧ o = .solved .empty ∨ (¬ ∀ c ∈ s.work, Yes g c) ∧ o.isOk = false

theorem report_spec (events : List Event) (hsh : sh.clock = none) : Spec P (report events) sh fun _ sh' =>
    sh'.clock = none :=
  .of_run rfl hsh

theorem expired_spec (hsh : sh.clock = none) : Spec P expired sh fun late sh' => late = false ∧ sh'.clock = none := by
  obtain ⟨clock, events⟩ := sh
  cases hsh
  exact .of_run rfl ⟨rfl, rfl⟩

theorem fail_spec {kind : FailureKind} (hc : ∃ r, c.reify s.subst g = .ok r) (hsh : sh.clock = none) :
    Spec P (fail g s c kind) sh fun o sh' => o.isOk = false ∧ sh'.clock = none := by
  obtain ⟨r, hr⟩ := hc
  unfold fail
  refine .bind (report_spec _ hsh) fun _ sh' hsh' => .liftBind (hr ▸ .ok _) fun r' _ => .pure ⟨rfl, hsh'⟩

theorem distinctOutcomes_solved {past : List Event} {os : List Outcome} (hos : ∀ o ∈ os, o = .solved .empty)
    (hne : os ≠ []) : distinctOutcomes .inOrder past g [] os = .ok [.solved .empty] := by
  have hknown : ∀ {rest : List Outcome}, (∀ o ∈ rest, o = .solved .empty) →
      distinctOutcomes .inOrder past g [(.solved .empty, .empty)] rest = .ok [.solved .empty] := by
    intro rest hrest
    induction rest with
    | nil => rfl
    | cons o rest ih =>
      obtain ⟨rfl, hothers⟩ := forall_mem_cons.mp hrest
      exact ih hothers
  cases os with
  | nil => exact absurd rfl hne
  | cons o rest =>
    obtain ⟨rfl, hrest⟩ := forall_mem_cons.mp hos
    exact hknown hrest

/-- A disjunction is accepted if one of its choices is. As the accepted choices bind nothing, they do not differ. -/
theorem combine_spec {outcomes : List Outcome} (hs : s.Asking g) (hwork : s.work = .oneOf choices location :: rest)
    (hsh : sh.clock = none)
    (houtcomes : Forall₂ (fun choice o => (s.choose choice rest).Decided g o) choices outcomes) :
    Spec P (combine g (s.below rest) (.oneOf choices location) outcomes) sh fun o sh' => s.Decided g o ∧
    sh'.clock = none := by
  have hwhole : (∀ c ∈ s.work, Yes g c) ↔ ∃ choice ∈ choices, ∀ c ∈ (s.choose choice rest).work, Yes g c := by
    rw [hwork, forall_mem_cons, yes_oneOf]
    simp only [State.choose, forall_mem_cons]
    constructor
    · rintro ⟨⟨choice, hc, h⟩, hrest⟩
      exact ⟨choice, hc, h, hrest⟩
    · rintro ⟨choice, hc, h, hrest⟩
      exact ⟨⟨choice, hc, h⟩, hrest⟩
  have haccepted : ∀ o ∈ outcomes.filter Outcome.isOk, (∀ c ∈ s.work, Yes g c) ∧ o = .solved .empty := by
    intro o ho
    obtain ⟨ho, hok⟩ := mem_filter.mp ho
    obtain ⟨choice, hc, ⟨hyes, heq⟩ | ⟨-, hno⟩⟩ := exists_of_forall₂ houtcomes ho
    · exact ⟨hwhole.mpr ⟨choice, hc, hyes⟩, heq⟩
    · cases hok.symm.trans hno
  have hnone : outcomes.filter Outcome.isOk = [] → ¬ ∀ c ∈ s.work, Yes g c := by
    intro hempty hyes
    obtain ⟨choice, hc, hyes⟩ := hwhole.mp hyes
    obtain ⟨o, ho, ⟨-, rfl⟩ | ⟨hno, -⟩⟩ := exists_of_forall₂ houtcomes.flip hc
    · exact filter_eq_nil_iff.mp hempty _ ho rfl
    · exact hno hyes
  unfold combine combineWith
  refine .bind (report_spec _ hsh) fun _ sh' hsh' => ?_
  split
  · next hempty =>
    refine .pure ⟨.inr ⟨hnone hempty, Bool.eq_false_iff.mpr fun hok => ?_⟩, hsh'⟩
    -- each choice that is not accepted has failures, and there is a choice
    have hfailures : outcomes.flatMap Outcome.failures = [] := isEmpty_iff.mp hok
    cases (hs.top hwork).1 with
    | choice hne _ =>
      obtain ⟨choice, hc⟩ := exists_mem_of_ne_nil _ hne
      obtain ⟨o, ho, -⟩ := exists_of_forall₂ houtcomes.flip hc
      refine filter_eq_nil_iff.mp hempty o ho ?_
      rw [Outcome.isOk, flatMap_eq_nil_iff.mp hfailures o ho]
      rfl
  · next o hone =>
    obtain ⟨hyes, heq⟩ := haccepted o (hone ▸ mem_singleton_self o)
    exact .pure ⟨.inl ⟨hyes, heq⟩, hsh'⟩
  · next hempty _ =>
    obtain ⟨o, ho⟩ := exists_mem_of_ne_nil _ hempty
    refine .step rfl ?_
    rw [distinctOutcomes_solved (fun o ho => (haccepted o ho).2) hempty]
    exact .step rfl (.pure ⟨.inl ⟨(haccepted o ho).1, rfl⟩, hsh'⟩)

theorem wellPosed_conformance (ht : g.FiniteType t) (hu : g.FiniteType u) (hg : g.Closed) (hcomplete : g.Complete)
    (location : Location) : WellPosed g [.conformance t u location] .empty where
  closed := hg
  complete := hcomplete
  types c hc x hx := by
    cases mem_singleton.mp hc
    rcases Constraint.mentions_relate.mp hx with rfl | rfl
    · exact ht.below
    · exact hu.below
  known c hc kind location h := by
    cases mem_singleton.mp hc
    cases h
  bindings p hp := by cases hp
  acyclic := noVariableCycle_empty

theorem matchTypes_isOk (ht : g.FiniteType t) (hu : g.FiniteType u) (hg : g.Closed) (hcomplete : g.Complete)
    (hs : s.subst = .empty) (location : Location) : ∃ r, matchTypes g s .conformance t u location = .ok r := by
  have h := wellPosed_conformance ht hu hg hcomplete location
  have hmem : ∀ x, (Constraint.conformance t u location).Mentions x →
      x ∈ typesOf g [.conformance t u location] .empty := fun x hx =>
    .inr (.inr (.inl ⟨_, mem_singleton_self _, hx⟩))
  refine (matchTypes_sure ⟨h.universe, hg, hcomplete⟩ (hs ▸ grounded_empty) (fun p hp => ?_) (hmem t .left)
    (hmem u .right)).exists_ok
  rw [hs] at hp
  cases hp

theorem run_spec (hg : g.Closed) (hcomplete : g.Complete) (n : Nat) : ∀ (s : State) (sh : Shared), s.Asking g →
    sh.clock = none → Spec CutOff (run g n s) sh fun o sh' => s.Decided g o ∧ sh'.clock = none := by
  have done : ∀ {n : Nat} {s : State} {sh : Shared}, s.Asking g → sh.clock = none → s.work = [] →
      Spec CutOff (run g n s) sh fun o sh' => s.Decided g o ∧ sh'.clock = none := by
    intro n s sh hs hsh hwork
    rw [run, runWith_nil hwork]
    exact .pure ⟨.inl ⟨by simp [hwork], congrArg _ hs.table⟩, hsh⟩
  induction n with
  | zero =>
    intro s sh hs hsh
    cases hwork : s.work with
    | nil => exact done hs hsh hwork
    | cons c rest =>
      unfold run runWith
      rw [hwork]
      exact .throw rfl
  | succ n ih =>
    intro s sh hs hsh
    cases hwork : s.work with
    | nil => exact done hs hsh hwork
    | cons c rest =>
      obtain ⟨hquestion, hbelow⟩ := hs.top hwork
      have hgives : ∀ {kind sh}, sh.clock = none → (¬ ∀ c ∈ s.work, Yes g c) →
          Spec CutOff (fail g (s.below rest) c kind) sh fun o sh' => s.Decided g o ∧ sh'.clock = none := fun hsh hno =>
        (fail_spec (hs.table.symm ▸ hquestion.reify_isOk hg) hsh).imp fun o sh' h => ⟨.inr ⟨hno, h.1⟩, h.2⟩
      rw [run, runWith_going hwork hs.not_stalled]
      refine .bind (expired_spec hsh) fun late sh1 hlate => ?_
      obtain ⟨rfl, hsh1⟩ := hlate
      refine .bind (report_spec _ hsh1) fun _ sh2 hsh2 => ?_
      cases hquestion with
      | @conformance t u location ht hu =>
        obtain ⟨r, hr⟩ := matchTypes_isOk ht hu hg hcomplete hbelow.table location
        have hanswer := matchTypes_answer hbelow.table ht hu hr
        change Spec CutOff (liftM (matchTypes g (s.below rest) .conformance t u location) >>=
          follow .inOrder g n (s.below rest) (.conformance t u location)) sh2 _
        rw [hr]
        refine .step rfl ?_
        cases r with
        | mismatch =>
          cases hanswer with
          | refuse h =>
            refine hgives hsh2 fun hyes => h ?_
            rw [hwork] at hyes
            exact yes_relate.mp (hyes _ mem_cons_self)
        | next s' events =>
          obtain ⟨hs', hiff⟩ := hs.trade hwork hanswer
          refine .bind (report_spec _ hsh2) fun _ sh3 hsh3 => (ih s' sh3 hs' hsh3).imp fun o sh' h => ?_
          simpa only [State.Decided, hiff] using h
      | @choice choices location hne h =>
        have hruns : Spec CutOff (choices.mapM fun choice => run g n (s.choose choice rest)) sh2 fun outcomes sh' =>
            Forall₂ (fun choice o => (s.choose choice rest).Decided g o) choices outcomes ∧ sh'.clock = none :=
          .mapM (I := fun sh' => sh'.clock = none) (fun choice hchoice sh' hsh' =>
            ih _ sh' (hs.choose hwork hchoice) hsh') hsh2
        refine Spec.bind hruns fun outcomes sh3 houtcomes => ?_
        refine .bind (expired_spec houtcomes.2) fun late sh4 hlate => ?_
        obtain ⟨rfl, hsh4⟩ := hlate
        exact combine_spec hs hwork hsh4 houtcomes.1

/-- Questions are answered in the end: no comparison leads back to itself, and nothing is there that could not be
reified. -/
theorem run_ends (hg : g.Closed) (hcomplete : g.Complete) (ht : g.FiniteType t) (hu : g.FiniteType u)
    (hs : (State.initial [.conformance t u location] .empty).Asking g) :
    ∃ n r, ∀ m ≥ n, (run g m (.initial [.conformance t u location] .empty)).run { clock := none } = .ok r := by
  have h := wellPosed_conformance ht hu hg hcomplete location
  have hacc := acc_search h.universe h.inside (fun s hvisits => (hs.visits hvisits).not_circular) .refl
  obtain ⟨n, r, hr, hrun⟩ := run_settles ⟨h.universe, hg, hcomplete⟩ h.inside hacc .refl { clock := none } rfl
  cases r with
  | ok r => exact ⟨n, r, hrun⟩
  | error e =>
    obtain rfl := (run_spec hg hcomplete n _ _ hs rfl).1 e (hrun n le_rfl)
    cases hr.1

end Runs

/-- **Conformance of finite types is decided.** In a graph whose composite types have all their parts, the question
whether one finite type conforms to another is answered by a run that has the time: the run ends, and it ends with a
solution, which binds nothing, exactly if the types conform. Conformance of finite types is reflexive and transitive. -/
theorem conformance_decided (g : TypeGraph) (hg : g.Closed) (hcomplete : g.Complete) (t u : Ty) (ht : g.FiniteType t)
    (hu : g.FiniteType u) (location : Location) :
    (∃ n r, ∀ m ≥ n, (run g m (.initial [.conformance t u location] .empty)).run { clock := none } = .ok r) ∧
    (∀ o, Concludes g [.conformance t u location] .empty none o →
      g.Conforms t u ∧ o = .solved .empty ∨ ¬ g.Conforms t u ∧ o.isOk = false) ∧
    g.Conforms t t ∧ ∀ w, g.Conforms t u → g.Conforms u w → g.Conforms t w := by
  have hs : (State.initial [.conformance t u location] .empty).Asking g := by
    refine ⟨fun c hc => ?_, rfl, rfl⟩
    cases List.mem_singleton.mp (mem_initial.mp hc)
    exact .conformance ht hu
  refine ⟨run_ends hg hcomplete ht hu hs, ?_, .equal (equal_self g t), fun w => ht.conforms_trans⟩
  rintro o ⟨n, sh, hrun⟩
  have hdecided := ((run_spec hg hcomplete n _ _ hs rfl).2 o sh hrun).1
  simpa only [State.Decided, mem_initial, List.mem_singleton, forall_eq, yes_relate, ← ht.conforms_iff] using hdecided

/-- Two unions of a function type and a scalar type, one of them with another union among its cases. -/
def variantGraph : TypeGraph :=
  ⟨#[.union [.bool, .int], .union [.node 0, .string], .tuple "" [{ type := .int }, { type := .bool }],
    .tuple "" [{ type := .node 1 }, { type := .node 0 }], .function (some 2) .int, .function (some 3) (.node 0),
    .union [.node 4, .string], .union [.node 5, .node 1]]⟩

/-- The narrow variant conforms to the wide one, through choices among function types and nested unions, and not the
other way round. -/
theorem variantGraph_decided : variantGraph.Closed ∧ variantGraph.Complete ∧ variantGraph.FiniteType (.node 6) ∧
    variantGraph.FiniteType (.node 7) ∧ variantGraph.Conforms (.node 6) (.node 7) ∧
    ¬ variantGraph.Conforms (.node 7) (.node 6) := by
  have hclosed : variantGraph.Closed := by decide
  have hcomplete : variantGraph.Complete := by decide
  have hnarrow : variantGraph.FiniteType (.node 6) := finiteType_of_isSorted (by decide) (by decide)
  have hwide : variantGraph.FiniteType (.node 7) := finiteType_of_isSorted (by decide) (by decide)
  have hsolve : (solve variantGraph [.conformance (.node 6) (.node 7) {}] .empty none).toOption.map
      (fun r => r.outcome.isOk) = some true := by cbv
  have hsolve' : (solve variantGraph [.conformance (.node 7) (.node 6) {}] .empty none).toOption.map
      (fun r => r.outcome.isOk) = some false := by cbv
  obtain ⟨report, h, hok⟩ := exists_ok_of_toOption_map hsolve
  obtain ⟨report', h', hok'⟩ := exists_ok_of_toOption_map hsolve'
  refine ⟨hclosed, hcomplete, hnarrow, hwide, ?_, ?_⟩
  · rcases (conformance_decided _ hclosed hcomplete _ _ hnarrow hwide {}).2.1 _ (concludes_of_solve h) with
      ⟨hyes, -⟩ | ⟨-, hno⟩
    · exact hyes
    · cases hok.symm.trans hno
  · rcases (conformance_decided _ hclosed hcomplete _ _ hwide hnarrow {}).2.1 _ (concludes_of_solve h') with
      ⟨-, hsolved⟩ | ⟨hno, -⟩
    · rw [hsolved] at hok'
      cases hok'
    · exact hno

end TypeInference.Solver
