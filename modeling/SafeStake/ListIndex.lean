import Mathlib.Data.List.Count

/-! # Indexed updates of lists

Lists used as tables indexed by position: what `set`, `modify` and an append at the end do
to a lookup, to a count, and to the first components of a list of pairs.
-/

namespace ListIndex

/-- `List.countP_set` without the truncated subtraction. -/
theorem countP_set_add {α : Type} {p : α → Bool} {l : List α} {i : Nat} {a b : α}
    (h : l[i]? = some b) : (l.set i a).countP p + (p b).toNat = l.countP p + (p a).toNat := by
  obtain ⟨hi, rfl⟩ := List.getElem?_eq_some_iff.mp h
  have hle := List.boole_getElem_le_countP (p := p) hi
  rw [List.countP_set hi]
  cases hb : p l[i] <;> cases p a <;>
    simp only [hb, Bool.false_eq_true, if_false, if_true, Bool.toNat_true, Bool.toNat_false] at hle ⊢ <;>
    omega

theorem map_fst_set {α β : Type} {l : List (α × β)} {n : Nat} {m : α} {x : β}
    (h : l[n]? = some (m, x)) (y : β) : (l.set n (m, y)).map Prod.fst = l.map Prod.fst := by
  have hfst : (l.map Prod.fst)[n]? = some m := by simp [h]
  obtain ⟨hn, hm⟩ := List.getElem?_eq_some_iff.mp hfst
  rw [List.map_set, ← hm, List.set_getElem_self]

theorem getElem?_append_of_some {α : Type} {l : List α} {i : Nat} {a : α} (h : l[i]? = some a)
    (l' : List α) : (l ++ l')[i]? = some a := by
  rw [List.getElem?_append_left (List.getElem?_eq_some_iff.mp h).1, h]

theorem modify_of_getElem? {α : Type} {l : List α} {i : Nat} {a : α} (h : l[i]? = some a)
    (f : α → α) : l.modify i f = l.set i (f a) := by
  obtain ⟨hi, rfl⟩ := List.getElem?_eq_some_iff.mp h
  apply List.ext_getElem?
  intro j
  rw [List.getElem?_modify, List.getElem?_set]
  by_cases hij : i = j
  · subst hij
    simp [hi]
  · simp [hij]

theorem mem_of_lookup {α β : Type} [BEq α] [LawfulBEq α] {l : List (α × β)} {k : α} {b : β}
    (h : l.lookup k = some b) : (k, b) ∈ l := by
  obtain ⟨l₁, l₂, rfl, -⟩ := List.lookup_eq_some_iff.mp h
  simp

theorem getElem?_concat_eq_some {α : Type} {l : List α} {x a : α} {k : Nat}
    (h : (l ++ [x])[k]? = some a) : l[k]? = some a ∨ (k = l.length ∧ a = x) := by
  rcases Nat.lt_or_ge k l.length with hlt | hge
  · rw [List.getElem?_append_left hlt] at h
    exact .inl h
  · rw [List.getElem?_append_right hge, List.getElem?_singleton] at h
    split at h
    · cases h
      exact .inr ⟨by omega, rfl⟩
    · cases h

/-- A lookup in a list with one entry replaced: the new entry, or an old one elsewhere. -/
theorem getElem?_set_eq_some {α : Type} {l : List α} {j k : Nat} {a b : α}
    (h : (l.set j a)[k]? = some b) : (k = j ∧ b = a) ∨ (k ≠ j ∧ l[k]? = some b) := by
  rw [List.getElem?_set] at h
  by_cases hjk : j = k
  · subst hjk
    rw [if_pos rfl] at h
    split at h
    · cases h
      exact .inl ⟨rfl, rfl⟩
    · cases h
  · rw [if_neg hjk] at h
    exact .inr ⟨Ne.symm hjk, h⟩

end ListIndex
