import Mathlib.Data.Nat.ModEq
import Mathlib.Data.Finset.Card

/-! # Round-robin selection

Rotation `k` over a list picks the element at `k % length`.  Over a list without duplicates:

* any `length` consecutive rotations pick each element exactly once (`existsUnique_pick`);
* once there are two elements, consecutive rotations pick different ones (`pick_succ_ne`);
* so any `length` consecutive rotations, each with the one after it, pick each element
  exactly twice (`card_pick_or_next`).
-/

namespace RoundRobin

/-! ## Residues -/

/-- Any `n` consecutive numbers meet each residue modulo `n` exactly once. -/
theorem existsUnique_add_mod {n r : Nat} (hr : r < n) (start : Nat) :
    ∃! k, k < n ∧ (start + k) % n = r := by
  have hn : 0 < n := Nat.lt_of_le_of_lt (Nat.zero_le r) hr
  -- `start ≡ start % n`, and the shift makes up the rest of a turn
  have hhit : (start + (r + (n - start % n)) % n) % n = r := by
    have hshift : start + (r + (n - start % n)) % n ≡ start % n + (r + (n - start % n)) [MOD n] :=
      Nat.ModEq.add (Nat.mod_modEq start n).symm (Nat.mod_modEq _ n)
    have hturn : start % n + (r + (n - start % n)) = r + n := by
      have := Nat.mod_lt start hn
      omega
    rw [hturn] at hshift
    calc (start + (r + (n - start % n)) % n) % n = (r + n) % n := hshift
      _ = r := by rw [Nat.add_mod_right, Nat.mod_eq_of_lt hr]
  refine ⟨(r + (n - start % n)) % n, ⟨Nat.mod_lt _ hn, hhit⟩, ?_⟩
  rintro k ⟨hk, hkr⟩
  have hmod : start + k ≡ start + (r + (n - start % n)) % n [MOD n] := hkr.trans hhit.symm
  have hcancel := Nat.ModEq.add_left_cancel' start hmod
  unfold Nat.ModEq at hcancel
  rwa [Nat.mod_eq_of_lt hk, Nat.mod_mod] at hcancel

/-- Consecutive numbers have different residues modulo `n ≥ 2`. -/
theorem succ_mod_ne {n : Nat} (hn : 2 ≤ n) (k : Nat) : (k + 1) % n ≠ k % n := by
  intro h
  have hcancel := Nat.ModEq.add_left_cancel' k (show k + 1 ≡ k + 0 [MOD n] from h)
  unfold Nat.ModEq at hcancel
  rw [Nat.mod_eq_of_lt (by omega : 1 < n), Nat.zero_mod] at hcancel
  exact Nat.one_ne_zero hcancel

/-! ## Picking -/

variable {α : Type}

/-- Rotation `k`: the element at `k % l.length`; nothing from an empty list. -/
def pick (l : List α) (k : Nat) : Option α := l[k % l.length]?

theorem pick_eq_get {l : List α} (hl : 0 < l.length) (k : Nat) :
    pick l k = some (l.get ⟨k % l.length, Nat.mod_lt k hl⟩) :=
  List.getElem?_eq_getElem _

/-- A nonempty list always has an element to pick. -/
theorem exists_pick {l : List α} (hl : l ≠ []) (k : Nat) : ∃ a ∈ l, pick l k = some a := by
  have hpos := List.length_pos_iff.mpr hl
  exact ⟨_, List.get_mem _ _, pick_eq_get hpos k⟩

/-- In a list without duplicates, rotation `k` picks the element at `i` exactly when `k`
has the residue `i`. -/
theorem pick_eq_some_iff {l : List α} (hnd : l.Nodup) {i : Nat} (hi : i < l.length) (k : Nat) :
    pick l k = some l[i] ↔ k % l.length = i := by
  have hpos : 0 < l.length := Nat.lt_of_le_of_lt (Nat.zero_le i) hi
  rw [pick_eq_get hpos, Option.some.injEq, List.get_eq_getElem]
  exact hnd.getElem_inj_iff

/-- **Each element once.**  Any `length` consecutive rotations pick each element of a list
without duplicates exactly once. -/
theorem existsUnique_pick {l : List α} (hnd : l.Nodup) {a : α} (ha : a ∈ l) (start : Nat) :
    ∃! k, k < l.length ∧ pick l (start + k) = some a := by
  obtain ⟨i, hi, rfl⟩ := List.mem_iff_getElem.mp ha
  obtain ⟨k, ⟨hk, hkr⟩, hunique⟩ := existsUnique_add_mod hi start
  refine ⟨k, ⟨hk, (pick_eq_some_iff hnd hi _).mpr hkr⟩, ?_⟩
  rintro k' ⟨hk', hpick⟩
  exact hunique k' ⟨hk', (pick_eq_some_iff hnd hi _).mp hpick⟩

/-- **Neighbours differ.**  Once a list without duplicates has two elements, consecutive
rotations pick different ones. -/
theorem pick_succ_ne {l : List α} (hnd : l.Nodup) (h2 : 2 ≤ l.length) (k : Nat) :
    pick l (k + 1) ≠ pick l k := by
  have hpos : 0 < l.length := by omega
  rw [pick_eq_get hpos, pick_eq_get hpos]
  intro h
  have hget := Option.some.inj h
  simp only [List.get_eq_getElem] at hget
  exact succ_mod_ne h2 k (hnd.getElem_inj_iff.mp hget)

/-- **Each element twice.**  Once a list without duplicates has two elements, any `length`
consecutive rotations, each taken with the rotation after it, pick each element exactly
twice: once as the first of the pair, once as the second. -/
theorem card_pick_or_next [DecidableEq α] {l : List α} (hnd : l.Nodup) (h2 : 2 ≤ l.length)
    {a : α} (ha : a ∈ l) (start : Nat) :
    ((Finset.range l.length).filter fun k =>
      pick l (start + k) = some a ∨ pick l (start + k + 1) = some a).card = 2 := by
  obtain ⟨k₀, ⟨hk₀, hpick₀⟩, hunique₀⟩ := existsUnique_pick hnd ha start
  obtain ⟨k₁, ⟨hk₁, hpick₁⟩, hunique₁⟩ := existsUnique_pick hnd ha (start + 1)
  -- the rotation of `k₀` picks `a` first, that of `k₁` second; they are different rotations
  have hne : k₀ ≠ k₁ := by
    rintro rfl
    apply pick_succ_ne hnd h2 (start + k₀)
    rw [hpick₀, show start + k₀ + 1 = start + 1 + k₀ by omega, hpick₁]
  have hfilter : ((Finset.range l.length).filter fun k =>
      pick l (start + k) = some a ∨ pick l (start + k + 1) = some a) = {k₀, k₁} := by
    ext k
    simp only [Finset.mem_filter, Finset.mem_range, Finset.mem_insert, Finset.mem_singleton]
    constructor
    · rintro ⟨hk, hfirst | hsecond⟩
      · exact .inl (hunique₀ k ⟨hk, hfirst⟩)
      · exact .inr (hunique₁ k ⟨hk, by rw [show start + 1 + k = start + k + 1 by omega]; exact hsecond⟩)
    · rintro (rfl | rfl)
      · exact ⟨hk₀, .inl hpick₀⟩
      · exact ⟨hk₁, .inr (by rw [show start + k + 1 = start + 1 + k by omega]; exact hpick₁)⟩
  rw [hfilter]
  exact Finset.card_pair hne

end RoundRobin
