import TypeInference.Diagnostic.Collection

/-! # Problems under their keys

Of several problems with one key the last is kept. A key gives away the class and the position of its problem
(`Diagnostics.key_inj`), so a class that was once reported at a position stays reported there
(`Diagnostics.Reports.add`). -/

namespace TypeInference

open List

/-! ### Numbers and colons in texts -/

theorem notMem_repr {c : Char} (hc : c.isDigit = false) (n : Nat) : c ∉ n.repr.toList := by
  rw [Nat.repr_eq_ofList_toDigits, String.toList_ofList]
  intro h
  have hdigit := Nat.isDigit_of_mem_toDigits (by decide) (by decide) h
  rw [hdigit] at hc
  cases hc

theorem toList_int_repr (n : Int) :
    n.repr.toList = if 0 ≤ n then n.toNat.repr.toList else '-' :: (-n).toNat.repr.toList := by
  rw [Int.repr_eq_if]
  split
  · rfl
  · rw [String.toList_append]
    rfl

theorem colon_notMem_repr (n : Int) : ':' ∉ n.repr.toList := by
  rw [toList_int_repr]
  split
  · exact notMem_repr (by decide) _
  · exact not_mem_cons_of_ne_of_not_mem (by decide) (notMem_repr (by decide) _)

theorem nat_repr_inj {m n : Nat} (h : m.repr.toList = n.repr.toList) : m = n := by
  rw [Nat.repr_eq_ofList_toDigits, Nat.repr_eq_ofList_toDigits, String.toList_ofList, String.toList_ofList] at h
  rw [← Nat.ofDigitChars_ten_toDigits (n := m), h, Nat.ofDigitChars_ten_toDigits]

theorem int_repr_inj {m n : Int} (h : m.repr.toList = n.repr.toList) : m = n := by
  have hminus (k : Nat) : '-' ∉ k.repr.toList := notMem_repr (by decide) k
  rw [toList_int_repr, toList_int_repr] at h
  split at h <;> split at h
  · have := nat_repr_inj h
    omega
  · exact absurd (h ▸ mem_cons_self) (hminus _)
  · exact absurd (h ▸ mem_cons_self) (hminus _)
  · have := nat_repr_inj (List.cons.inj h).2
    omega

theorem append_cons_inj {α : Type} {a : α} : ∀ {xs ys us vs : List α}, a ∉ xs → a ∉ ys → xs ++ a :: us = ys ++ a :: vs →
    xs = ys ∧ us = vs
  | [], [], us, vs, _, _, h => ⟨rfl, (List.cons.inj h).2⟩
  | [], y :: ys, us, vs, _, hy, h => absurd (mem_cons.mpr (.inl (List.cons.inj h).1)) hy
  | x :: xs, [], us, vs, hx, _, h => absurd (mem_cons.mpr (.inl (List.cons.inj h).1.symm)) hx
  | x :: xs, y :: ys, us, vs, hx, hy, h => by
    obtain ⟨hxy, htail⟩ := List.cons.inj h
    obtain ⟨hxs, hus⟩ := append_cons_inj (not_mem_of_not_mem_cons hx) (not_mem_of_not_mem_cons hy) htail
    exact ⟨by rw [hxy, hxs], hus⟩

/-! ### Keys -/

/-- The two anchors are at the same position of the same file. -/
structure Token.SamePlace (a b : Token) : Prop where
  file : a.file = b.file
  line : a.line = b.line
  column : a.column = b.column

theorem Token.SamePlace.trans {a b c : Token} (h : a.SamePlace b) (h' : b.SamePlace c) : a.SamePlace c :=
  ⟨h.file.trans h'.file, h.line.trans h'.line, h.column.trans h'.column⟩

namespace Diagnostics

variable {d d' : Diagnostic} {k : String} {ds : Diagnostics} {code : Code} {token : Token}

-- Read from its end, a key has a colon right after each of its parts but the file.
theorem reverse_of_key (h : key d = some k) : k.toList.reverse = d.code.text.toList.reverse ++
    ':' :: (d.token.column.repr.toList.reverse ++
    ':' :: (d.token.line.repr.toList.reverse ++ ':' :: d.token.file.toList.reverse)) := by
  unfold key at h
  split at h
  · cases h
  · obtain rfl := Option.some.inj h
    have htext (s : String) : toString s = s := rfl
    simp [htext]

/-- A key tells the class and the position of its problem, unless the class has a colon in its text. -/
theorem key_inj (hd : ':' ∉ d.code.text.toList) (hd' : ':' ∉ d'.code.text.toList) (h : key d = some k)
    (h' : key d' = some k) : d.code.text = d'.code.text ∧ d.token.SamePlace d'.token := by
  have hkeys := (reverse_of_key h).symm.trans (reverse_of_key h')
  have hreverse {s : List Char} (hs : ':' ∉ s) : ':' ∉ s.reverse := by simpa using hs
  have hnumber (n : Int) : ':' ∉ n.repr.toList.reverse := hreverse (colon_notMem_repr n)
  obtain ⟨hcode, hkeys⟩ := append_cons_inj (hreverse hd) (hreverse hd') hkeys
  obtain ⟨hcolumn, hkeys⟩ := append_cons_inj (hnumber _) (hnumber _) hkeys
  obtain ⟨hline, hfile⟩ := append_cons_inj (hnumber _) (hnumber _) hkeys
  refine ⟨String.toList_injective (reverse_inj.mp hcode), ?_, ?_, ?_⟩
  · exact String.toList_injective (reverse_inj.mp hfile)
  · exact int_repr_inj (reverse_inj.mp hline)
  · exact int_repr_inj (reverse_inj.mp hcolumn)

/-! ### Reports -/

/-- The problems are under their keys, and their classes have titles. -/
def Keyed (ds : Diagnostics) : Prop := ∀ e ∈ ds.entries, e.1 = key e.2 ∧ e.2.code ∈ Code.known

/-- A problem of the class is reported at the position. -/
def Reports (ds : Diagnostics) (code : Code) (token : Token) : Prop :=
  ∃ e ∈ ds.entries, e.2.code = code ∧ e.2.token.SamePlace token

theorem colon_notMem_known : ∀ code ∈ Code.known, ':' ∉ code.text.toList := by decide

theorem text_inj_known : ∀ code ∈ Code.known, ∀ code' ∈ Code.known, code.text = code'.text → code = code' := by decide

theorem mem_add (ds : Diagnostics) (d : Diagnostic) : (key d, d) ∈ (ds.add d).entries := by
  unfold add
  split <;> simp [*]

theorem Keyed.add (h : ds.Keyed) (hd : d.code ∈ Code.known) : (ds.add d).Keyed := by
  unfold Keyed Diagnostics.add
  split
  · next hkey =>
    exact forall_mem_append.mpr ⟨h, forall_mem_singleton.mpr ⟨hkey.symm, hd⟩⟩
  · next k hkey =>
    refine forall_mem_append.mpr ⟨fun e he => h e (mem_filter.mp he).1, ?_⟩
    exact forall_mem_singleton.mpr ⟨hkey.symm, hd⟩

theorem reports_add (ds : Diagnostics) (d : Diagnostic) : (ds.add d).Reports d.code d.token :=
  ⟨_, mem_add ds d, rfl, rfl, rfl, rfl⟩

/-- What is reported stays reported: a problem gives way only to another one of its class at its position. -/
theorem Reports.add (h : ds.Reports code token) (hds : ds.Keyed) (hd : d.code ∈ Code.known) :
    (ds.add d).Reports code token := by
  obtain ⟨e, he, rfl, hplace⟩ := h
  obtain ⟨hkey, hknown⟩ := hds e he
  cases hnew : key d with
  | none =>
    have hadd : ds.add d = ⟨ds.entries ++ [(none, d)]⟩ := by simp [Diagnostics.add, hnew]
    rw [hadd]
    exact ⟨e, mem_append_left _ he, rfl, hplace⟩
  | some k =>
    by_cases hsame : e.1 = some k
    · obtain ⟨htext, hat⟩ := key_inj (colon_notMem_known _ hd) (colon_notMem_known _ hknown) hnew (hkey ▸ hsame)
      exact ⟨_, mem_add ds d, text_inj_known _ hd _ hknown htext, hat.trans hplace⟩
    · have hadd :
          ds.add d = ⟨ds.entries.filter (fun e => e.1 != some k) ++ [(some k, d)]⟩ := by simp [Diagnostics.add, hnew]
      rw [hadd]
      exact ⟨e, mem_append_left _ (mem_filter.mpr ⟨he, by simpa using hsame⟩), rfl, hplace⟩

theorem mem_toList : d ∈ ds.toList ↔ ∃ e ∈ ds.entries, e.2 = d := by
  unfold toList
  rw [mem_mergeSort, mem_map]

end Diagnostics

end TypeInference
