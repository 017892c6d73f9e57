import TypeInference.Proofs.Origins

/-! # Flat unions

No case of a new union is a union, unless a union under way was met again among the cases of another one
(`Substitution.Nested`), and no case is there twice (`Ledger.Apart`). A union that is left with one case makes room for
it, unless it was used while it was under way. -/

namespace TypeInference.Substitution

open List

/-- A union among the cases of another leads back to it. -/
def Nested (σ : Substitution) (g : TypeGraph) (D : NodeId → Prop) : Prop :=
  ∃ u v, D u ∧ Relation.TransGen (σ.HasCase g) u v ∧ v ≠ u ∧ σ.IsUnion g (.node v) ∧ σ.LeadsTo g v u

/-- The types are told apart by their heads, or they lead to complete copies only and are not alike. -/
def Ledger.Apart (L : Ledger) (G : TypeGraph) (a b : Ty) : Prop :=
  G.head? a ≠ G.head? b ∨ ∃ S : Ty → Prop, G.Supports S ∧ (∀ k, S (.node k) → L.Done k) ∧ S a ∧ S b ∧ ¬ G.Alike a b

/-- Types stay apart as long as complete copies stay as they are and heads do not change. -/
theorem Ledger.Apart.mono {L L' : Ledger} {G G' : TypeGraph} {a b : Ty} (h : L.Apart G a b)
    (hdone : ∀ k x, L.Done k → G.get? k = some x → L'.Done k ∧ G'.get? k = some x) (ha : G'.head? a = G.head? a)
    (hb : G'.head? b = G.head? b) : L'.Apart G' a b := by
  rcases h with h | ⟨S, hS, hSdone, hSa, hSb, halike⟩
  · rw [← ha, ← hb] at h
    exact .inl h
  · have hsame := fun k x hk hx => (hdone k x (hSdone k hk) hx).2
    refine .inr ⟨S, hS.congr hsame, fun k hk => ?_, hSa, hSb, fun halike' =>
      halike ((hS.congr hsame).alike (fun k x hk hx => ?_) hSa hSb halike')⟩
    · obtain ⟨x, hx⟩ := exists_get_of_lt (hS.node hk)
      exact (hdone k x (hSdone k hk) (get?_of_get hx)).1
    · obtain ⟨y, hy⟩ := exists_get_of_lt (hS.node hk)
      replace hy := get?_of_get hy
      cases (hsame k y hk hy).symm.trans hx
      exact hy

theorem head?_add {G : TypeGraph} {a : Ty} (ha : a.Below G.size) (c : Composite) : (G.add c).1.head? a = G.head? a := by
  cases a with
  | node k => simp [TypeGraph.head?, TypeGraph.get?_add, if_neg (Nat.ne_of_lt ha)]
  | _ => rfl

namespace ReifyState

/-- New unions are flat and have no case twice, and the result for a union is its node, or the only case of it. -/
structure Neat (σ : Substitution) (g : TypeGraph) (D : NodeId → Prop) (L : Ledger) (st : ReifyState) : Prop where
  seen : ∀ a ∈ st.referenced, a.Below st.graph.size
  flat : ¬ σ.Nested g D → ∀ {k cases}, L.base ≤ k → st.graph.get? k = some (.union cases) →
    ∀ c ∈ cases, st.graph.unionCases? c = none
  apart : ¬ σ.Tangled g D → ∀ {k cases}, L.base ≤ k → st.graph.get? k = some (.union cases) →
    cases.Pairwise (L.Apart st.graph)
  ended : ∀ {i a}, σ.IsUnion g (.node i) → st.results.lookup i = some a → ∃ k, L.base ≤ k ∧ k < st.graph.size ∧
    L.origin k = i ∧ (a = .node k ∨ i ∉ L.pending ∧ st.graph.get? k = some (.union [a]))
  /-- A node is a result only if it is the result for its origin. -/
  whole : ∀ {i k}, st.results.lookup i = some (.node k) → st.results.lookup (L.origin k) = some (.node k)
  /-- A union with one case is left in place only if it leads back to itself. -/
  kept : ∀ {k a}, L.Done k → st.results.lookup (L.origin k) = some (.node k) → st.graph.get? k = some (.union [a]) →
    σ.LeadsOn g (L.origin k) (L.origin k)
  noted : ∀ {k}, k ∈ st.unfinished → .node k ∈ st.referenced → σ.LeadsOn g (L.origin k) (L.origin k)

end ReifyState

namespace ReifyState.Neat

variable {σ : Substitution} {g : TypeGraph} {D : NodeId → Prop} {L : Ledger} {st : ReifyState} {a b : Ty} {i k : NodeId}
  {c : Composite} {domains pending unfinished : List NodeId}

theorem start (h : st.Neat σ g D L) (htraced : st.Traced σ g D L) (hst : st.Sound L.base)
    (hnew : st.results.lookup i = none) (hc : ∀ cases, c = .union cases → cases = [])
    (hunfinished : ∀ k ∈ unfinished, k ∈ st.unfinished ∨ k = st.graph.size) :
    Neat σ g D (L.enter st.graph.size i domains)
      { st with graph := (st.graph.add c).1, results := (i, .node st.graph.size) :: st.results,
                unfinished := unfinished } := by
  have hold : ∀ {k}, k < st.graph.size → (L.enter st.graph.size i domains).origin k = L.origin k := Ledger.enter_origin
  have hself : (L.enter st.graph.size i domains).origin st.graph.size = i := Ledger.enter_origin_self
  have hback : ∀ {k cases}, (st.graph.add c).1.get? k = some (.union cases) → cases = [] ∨
      st.graph.get? k = some (.union cases) := by
    intro k cases hx
    rw [TypeGraph.get?_add] at hx
    split at hx
    · exact .inl (hc cases (Option.some.inj hx))
    · exact .inr hx
  refine ⟨fun a ha => (h.seen a ha).mono (by simp), fun hnested {k cases} hk hx t ht => ?_,
    fun htangled {k cases} hk hx => ?_, fun {j a} hj ha => ?_, fun {j k} hj => ?_, fun {k a} hk hresult hx => ?_,
    fun {k} hk href => ?_⟩
  · rcases hback hx with rfl | hx
    · cases ht
    · have hflat := h.flat hnested hk hx t ht
      have hbelow := (hst.closed k _ hx).parts t ht
      cases t with
      | node j =>
        simp only [TypeGraph.unionCases?] at hflat ⊢
        rwa [TypeGraph.get?_add, if_neg (Nat.ne_of_lt hbelow)]
      | _ => rfl
  · rcases hback hx with rfl | hx
    · exact .nil
    · refine (h.apart htangled hk hx).imp_of_mem fun ha hb hab => hab.mono (htraced.done_of_start hnew) ?_ ?_
      · exact head?_add ((hst.closed k _ hx).parts _ ha) c
      · exact head?_add ((hst.closed k _ hx).parts _ hb) c
  · rcases lookup_cons_eq_some.mp ha with ⟨rfl, rfl⟩ | ⟨hne, ha⟩
    · exact ⟨st.graph.size, hst.size, by simp, hself, .inl rfl⟩
    · obtain ⟨k, hk, hlt, hj', hend⟩ := h.ended hj ha
      refine ⟨k, hk, by simpa using Nat.lt_succ_of_lt hlt, (hold hlt).trans hj', hend.imp_right fun hend => ⟨?_, ?_⟩⟩
      · exact fun hmem => (mem_cons.mp hmem).elim hne hend.1
      · exact TypeGraph.extends_add _ _ k _ hend.2
  · rcases lookup_cons_eq_some.mp hj with ⟨-, heq⟩ | ⟨-, hj⟩
    · cases heq
      simp [hself]
    · have hlt : k < st.graph.size := hst.results _ (mem_of_lookup hj)
      have hwhole := h.whole hj
      rw [hold hlt, lookup_cons_eq_some]
      refine .inr ⟨?_, hwhole⟩
      rintro rfl
      cases hnew.symm.trans hwhole
  · rcases hback hx with hx | hx
    · cases hx
    · have hlt := lt_size_of_get? hx
      have hk' : L.Done k := ⟨hk.1, fun hmem => hk.2 (by rw [hold hlt]; exact mem_cons_of_mem _ hmem)⟩
      rw [hold hlt] at hresult ⊢
      rcases lookup_cons_eq_some.mp hresult with ⟨-, heq⟩ | ⟨-, hresult⟩
      · cases heq
        exact absurd rfl (Nat.ne_of_lt hlt)
      · exact h.kept hk' hresult hx
  · have hlt : k < st.graph.size := h.seen _ href
    rw [hold hlt]
    exact h.noted ((hunfinished k hk).resolve_right (Nat.ne_of_lt hlt)) href

/-- A result is used once more. What is under way leads to the place where it is used. -/
theorem note (h : st.Neat σ g D L) (htraced : st.Traced σ g D L) (hst : st.Sound L.base)
    (hi : st.results.lookup i = some a) (hpending : ∀ p ∈ L.pending, σ.LeadsOn g p i) :
    Neat σ g D L { st with referenced := a :: st.referenced } where
  seen := forall_mem_cons.mpr ⟨hst.results _ (mem_of_lookup hi), h.seen⟩
  flat := h.flat
  apart := h.apart
  ended := h.ended
  whole := h.whole
  kept := h.kept
  noted {k} hk href := by
    rcases mem_cons.mp href with rfl | href
    · have hp := (htraced.unfinished.mp hk).2.2.1
      exact (hpending _ hp).trans_left (leadsTo_of_cases (htraced.result_node hi).2.2)
    · exact h.noted hk href

theorem fill (h : st.Neat σ g D L) (hlt : k < st.graph.size) (hpending : L.origin k ∈ L.pending) {x : Composite}
    (hget : st.graph.get? k = some x) (hhead : c.head = x.head)
    (hflat : ¬ σ.Nested g D → ∀ cases, c = .union cases → ∀ t ∈ cases, st.graph.unionCases? t = none)
    (hapart : ¬ σ.Tangled g D → ∀ cases, c = .union cases → cases.Pairwise (L.Apart st.graph)) :
    Neat σ g D { L with domains := domains } { st with graph := st.graph.set k c } := by
  have hback : ∀ {j y}, (st.graph.set k c).get? j = some y → k = j ∧ c = y ∨ k ≠ j ∧ st.graph.get? j = some y :=
    (TypeGraph.get?_set_eq_some hlt).mp
  have hunion : ∀ {t}, st.graph.unionCases? t = none → (st.graph.set k c).unionCases? t = none := by
    intro t ht
    rw [Option.eq_none_iff_forall_ne_some] at ht ⊢
    intro cases hcases
    obtain ⟨j, rfl, hj⟩ := unionCases?_eq_some.mp hcases
    rcases hback hj with ⟨rfl, rfl⟩ | ⟨-, hj⟩
    · cases x with
      | union cases' => exact ht cases' (unionCases?_eq_some.mpr ⟨k, rfl, hget⟩)
      | _ => cases hhead
    · exact ht cases (unionCases?_eq_some.mpr ⟨j, rfl, hj⟩)
  have hdone : ∀ j y, L.Done j → st.graph.get? j = some y →
      ({ L with domains := domains } : Ledger).Done j ∧ (st.graph.set k c).get? j = some y := fun j y hj hy =>
    ⟨hj, (TypeGraph.get?_set_eq_some hlt).mpr (.inr ⟨by rintro rfl; exact hj.2 hpending, hy⟩)⟩
  have hheads : ∀ t, (st.graph.set k c).head? t = st.graph.head? t := by
    intro t
    cases t with
    | node j =>
      simp only [TypeGraph.head?, TypeGraph.get?_set, if_pos hlt]
      split
      · next heq => simp [← heq, hget, hhead]
      · rfl
    | _ => rfl
  refine ⟨fun a ha => by simpa using h.seen a ha, fun hnested {j cases} hj hx t ht => hunion ?_,
    fun htangled {j cases} hj hx => List.Pairwise.imp (fun (hab : L.Apart st.graph _ _) =>
    hab.mono hdone (hheads _) (hheads _)) ?_, fun {j a} hj ha => ?_, h.whole, fun {j a} hj hresult hx => ?_, h.noted⟩
  · rcases hback hx with ⟨-, hx⟩ | ⟨-, hx⟩
    · exact hflat hnested cases hx t ht
    · exact h.flat hnested hj hx t ht
  · rcases hback hx with ⟨-, hx⟩ | ⟨-, hx⟩
    · exact hapart htangled cases hx
    · exact h.apart htangled hj hx
  · obtain ⟨j', hj', hlt', horigin, hend⟩ := h.ended hj ha
    refine ⟨j', hj', by simpa using hlt', horigin, hend.imp_right fun hend => ⟨hend.1, ?_⟩⟩
    have hne : k ≠ j' := by
      rintro rfl
      exact hend.1 (horigin ▸ hpending)
    rw [TypeGraph.get?_set, if_neg hne]
    exact hend.2
  · rcases hback hx with ⟨rfl, -⟩ | ⟨-, hx⟩
    · exact absurd hpending hj.2
    · exact h.kept hj hresult hx

theorem apart_of_subset (h : st.Neat σ g D L) (hsub : pending ⊆ L.pending) (htangled : ¬ σ.Tangled g D) {k : NodeId}
    {cases : List Ty} (hk : L.base ≤ k) (hx : st.graph.get? k = some (.union cases)) :
    cases.Pairwise (Ledger.Apart { L with pending := pending } st.graph) :=
  (h.apart htangled hk hx).imp fun hab => hab.mono (fun _ _ hj hy => ⟨⟨hj.1, fun hp => hj.2 (hsub hp)⟩, hy⟩) rfl rfl

theorem done (h : st.Neat σ g D L) (htraced : st.Traced σ g D L) (hL : L.pending = i :: pending) (hk : L.base ≤ k)
    (hi : L.origin k = i) (hget : st.graph.get? k = some c) (hc : c.head ≠ .union) :
    Neat σ g D { L with pending := pending } st where
  seen := h.seen
  flat := h.flat
  apart := h.apart_of_subset (hL ▸ subset_cons_self _ _)
  ended hj ha := by
    obtain ⟨k, hk, hlt, horigin, hend⟩ := h.ended hj ha
    exact ⟨k, hk, hlt, horigin, hend.imp_right fun hend => ⟨fun hp => hend.1 (hL ▸ mem_cons_of_mem _ hp), hend.2⟩⟩
  whole := h.whole
  kept {j a} hj hresult hx := by
    have hne : j ≠ k := by
      rintro rfl
      cases hget.symm.trans hx
      exact hc rfl
    exact h.kept ⟨hj.1, mt (htraced.mem_pending_iff hL hk (lt_size_of_get? hget) hi hj.1 (lt_size_of_get? hx) hne).mp hj.2⟩
      hresult hx
  noted := h.noted

theorem close (h : st.Neat σ g D L) (htraced : st.Traced σ g D L) (hL : L.pending = i :: pending)
    (hi : L.origin k = i) (hunfinished : st.unfinished = k :: unfinished)
    (hone : ∀ a, st.graph.get? k = some (.union [a]) → .node k ∈ st.referenced) :
    Neat σ g D { L with pending := pending } { st with unfinished := unfinished } where
  seen := h.seen
  flat := h.flat
  apart := h.apart_of_subset (hL ▸ subset_cons_self _ _)
  ended hj ha := by
    obtain ⟨k, hk, hlt, horigin, hend⟩ := h.ended hj ha
    exact ⟨k, hk, hlt, horigin, hend.imp_right fun hend => ⟨fun hp => hend.1 (hL ▸ mem_cons_of_mem _ hp), hend.2⟩⟩
  whole := h.whole
  kept {j a} hj hresult hx := by
    have hk : k ∈ st.unfinished := hunfinished ▸ mem_cons_self
    obtain ⟨hbase, hlt, -⟩ := htraced.unfinished.mp hk
    by_cases hne : j = k
    · subst hne
      exact h.noted hk (hone a hx)
    · exact h.kept ⟨hj.1, mt (htraced.mem_pending_iff hL hbase hlt hi hj.1 (lt_size_of_get? hx) hne).mp hj.2⟩ hresult hx
  noted hj := h.noted (hunfinished ▸ mem_cons_of_mem _ hj)

theorem collapse (h : st.Neat σ g D L) (htraced : st.Traced σ g D L) (hL : L.pending = i :: pending)
    (hnot : i ∉ pending) (hi : L.origin k = i) (hunfinished : st.unfinished = k :: unfinished)
    (hget : st.graph.get? k = some (.union [a])) (hfree : .node k ∉ st.referenced) (hne : a ≠ .node k) :
    Neat σ g D { L with pending := pending } { st with unfinished := unfinished, results := (i, a) :: st.results } := by
  have hk : k ∈ st.unfinished := hunfinished ▸ mem_cons_self
  obtain ⟨hbase, hlt, -⟩ := htraced.unfinished.mp hk
  refine ⟨h.seen, h.flat, h.apart_of_subset (hL ▸ subset_cons_self _ _), fun {j b} hj hb => ?_, fun {j k'} hj => ?_,
    fun {j b} hj hresult hx => ?_, fun hj => h.noted (hunfinished ▸ mem_cons_of_mem _ hj)⟩
  · rcases lookup_cons_eq_some.mp hb with ⟨rfl, rfl⟩ | ⟨-, hb⟩
    · exact ⟨k, hbase, hlt, hi, .inr ⟨hnot, hget⟩⟩
    · obtain ⟨k, hk, hlt, horigin, hend⟩ := h.ended hj hb
      exact ⟨k, hk, hlt, horigin, hend.imp_right fun hend => ⟨fun hp => hend.1 (hL ▸ mem_cons_of_mem _ hp), hend.2⟩⟩
  · -- the union itself is the result for nothing else, because nothing has used it
    have hkeep : ∀ {k'}, k' ≠ k → st.results.lookup (L.origin k') = some (.node k') →
        ((i, a) :: st.results : List (NodeId × Ty)).lookup (L.origin k') = some (.node k') := by
      intro k' hne' hk'
      refine lookup_cons_eq_some.mpr (.inr ⟨fun heq => hne' ?_, hk'⟩)
      obtain ⟨hbase', hlt', -⟩ := htraced.result_node hk'
      exact htraced.distinct hbase' hlt' hbase hlt (heq.trans hi.symm)
    rcases lookup_cons_eq_some.mp hj with ⟨-, rfl⟩ | ⟨hj', hj⟩
    · refine hkeep (fun heq => hne (by rw [heq])) ?_
      cases htraced.nodes hbase hget with
      | union _ hall =>
        obtain ⟨v, cases, t, hv, hgetv, ht, hb⟩ := hall _ (mem_singleton_self _)
        rcases image_iff.mp hb with hb | ⟨j, -, hb⟩
        · exact absurd rfl (hb.ne_node _)
        · exact h.whole hb
    · refine hkeep (fun heq => ?_) (h.whole hj)
      subst heq
      obtain ⟨-, -, hcases⟩ := htraced.result_node hj
      rcases hcases.cases_head with heq | ⟨_, ⟨cases, hgetj, -⟩, -⟩
      · exact hj' (heq.trans hi)
      · obtain ⟨k1, hk1, hlt1, horigin, heq | ⟨-, hone⟩⟩ := h.ended (isUnion_of_lookup (lookup_node j) hgetj) hj
        · cases heq
          exact hj' (horigin.symm.trans hi)
        · exact hfree (htraced.used hk1 hone (.inl (mem_singleton_self _)) hk)
  · rcases lookup_cons_eq_some.mp hresult with ⟨heq, hb⟩ | ⟨hj', hresult⟩
    · obtain rfl := htraced.distinct hj.1 (lt_size_of_get? hx) hbase hlt (heq.trans hi.symm)
      exact absurd hb.symm hne
    · refine h.kept ⟨hj.1, fun hp => ?_⟩ hresult hx
      rw [hL, mem_cons] at hp
      exact hp.elim hj' hj.2

end ReifyState.Neat

end TypeInference.Substitution
