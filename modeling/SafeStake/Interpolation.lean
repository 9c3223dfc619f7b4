import Mathlib

/-! # Coefficient lists, Horner's rule and interpolation at zero

A polynomial given by its list of coefficients, constant term first (`ofCoeffs`), has
degree below the list's length, and Horner's rule run from the leading coefficient down
computes its value (`foldl_horner`).  Over a field, the values of a polynomial of degree
below `n` at `n` distinct nodes give back its value at zero through the Lagrange
coefficients `∏ j ≠ i, v j / (v j - v i)` (`sum_coeffAtZero_mul_eval`): the
reconstruction step of Shamir's secret sharing.
-/

namespace Interpolation

open Polynomial Finset

section Coefficients

variable {R : Type} [CommRing R]

/-- The polynomial whose coefficients, constant term first, are `cs`. -/
noncomputable def ofCoeffs (cs : List R) : R[X] :=
  ∑ i ∈ range cs.length, C (cs.getD i 0) * X ^ i

theorem degree_ofCoeffs_lt (cs : List R) : (ofCoeffs cs).degree < cs.length := by
  rw [ofCoeffs, Finset.sum_range fun i => C (cs.getD i 0) * X ^ i]
  exact degree_sum_fin_lt fun i => cs.getD i 0

theorem eval_ofCoeffs_append (cs : List R) (c x : R) :
    (ofCoeffs (cs ++ [c])).eval x = (ofCoeffs cs).eval x + c * x ^ cs.length := by
  have hlow : ∀ i ∈ range cs.length, (cs ++ [c]).getD i 0 = cs.getD i 0 :=
    fun i hi => List.getD_append _ _ _ _ (mem_range.mp hi)
  have htop : (cs ++ [c]).getD cs.length 0 = c := by
    rw [List.getD_append_right _ _ _ _ le_rfl, Nat.sub_self]
    rfl
  rw [ofCoeffs, List.length_append, List.length_singleton, sum_range_succ, htop,
    sum_congr rfl fun i hi => by rw [hlow i hi], eval_add, ofCoeffs]
  simp

@[simp] theorem ofCoeffs_nil : ofCoeffs ([] : List R) = 0 := by simp [ofCoeffs]

/-- Horner's rule from the constant term up: the value is the constant term plus `x` times
the value of the rest. -/
theorem eval_ofCoeffs_cons (c : R) (cs : List R) (x : R) :
    (ofCoeffs (c :: cs)).eval x = c + x * (ofCoeffs cs).eval x := by
  rw [ofCoeffs, ofCoeffs, List.length_cons, sum_range_succ', eval_add, eval_finsetSum,
    eval_finsetSum, Finset.mul_sum, add_comm]
  congr 1
  · simp
  · refine sum_congr rfl fun i _ => ?_
    simp [pow_succ']
    ring

@[simp] theorem eval_zero_ofCoeffs_cons (c : R) (cs : List R) : (ofCoeffs (c :: cs)).eval 0 = c := by
  rw [ofCoeffs, eval_finsetSum, List.length_cons, sum_range_succ']
  simp

theorem map_ofCoeffs {S : Type} [CommRing S] (φ : R →+* S) (cs : List R) :
    (ofCoeffs cs).map φ = ofCoeffs (cs.map φ) := by
  simp only [ofCoeffs, Polynomial.map_sum, Polynomial.map_mul, map_C, Polynomial.map_pow, map_X,
    List.length_map]
  refine sum_congr rfl fun i _ => ?_
  rw [List.getD_eq_getElem?_getD, List.getD_eq_getElem?_getD, List.getElem?_map]
  cases cs[i]? <;> simp

/-- **Horner's rule** run from the leading coefficient `a` down through the lower
coefficients `rest`, highest first. -/
theorem foldl_horner (x : R) :
    ∀ (rest : List R) (a : R),
      rest.foldl (fun sum c => sum * x + c) a = a * x ^ rest.length + (ofCoeffs rest.reverse).eval x
  | [], a => by simp [ofCoeffs]
  | c :: rest, a => by
    rw [List.foldl_cons, foldl_horner x rest, List.reverse_cons, eval_ofCoeffs_append,
      List.length_reverse, List.length_cons, pow_succ]
    ring

/-- An **incomplete addition**: the group's sum of two distinct points, and zero on two
equal ones. -/
structure IncompleteAdd (M : Type) [AddCommGroup M] where
  add : M → M → M
  add_of_ne : ∀ {a b : M}, a ≠ b → add a b = a + b
  add_self : ∀ a, add a a = 0

variable {M : Type} [AddCommGroup M]

/-- The incomplete addition, computed. -/
def IncompleteAdd.ofDecidableEq [DecidableEq M] : IncompleteAdd M :=
  ⟨fun a b => if a = b then 0 else a + b, fun h => if_neg h, fun _ => if_pos rfl⟩

variable [Module R M]

/-- No step of the powers fold from `(y, p)` over the points `cs` adds a point other than
zero to itself. -/
def PowersAddDistinct (x : R) : List M → M → R → Prop
  | [], _, _ => True
  | c :: cs, y, p => (y = p • c → p • c = 0) ∧ PowersAddDistinct x cs (y + p • c) (p * x)

instance PowersAddDistinct.decidable [DecidableEq M] (x : R) :
    ∀ (cs : List M) (y : M) (p : R), Decidable (PowersAddDistinct x cs y p)
  | [], _, _ => isTrue trivial
  | c :: cs, y, p =>
    haveI := PowersAddDistinct.decidable x cs (y + p • c) (p * x)
    inferInstanceAs (Decidable ((y = p • c → p • c = 0) ∧ PowersAddDistinct x cs (y + p • c) (p * x)))

end Coefficients

section Lagrange

variable {F : Type} [Field F] {ι : Type} [DecidableEq ι]

/-- The Lagrange coefficient of node `i` among `s` for the value at zero. -/
def coeffAtZero (s : Finset ι) (v : ι → F) (i : ι) : F :=
  ∏ j ∈ s.erase i, v j * (v j - v i)⁻¹

/-- One factor of a Lagrange basis polynomial at zero, for any two nodes. -/
theorem eval_zero_basisDivisor (a b : F) : (Lagrange.basisDivisor a b).eval 0 = b * (b - a)⁻¹ := by
  rw [Lagrange.basisDivisor, eval_mul, eval_C, eval_sub, eval_X, eval_C, zero_sub, mul_neg,
    ← neg_mul, ← inv_neg, neg_sub, mul_comm]

/-- **Interpolation at zero**: the values of a polynomial of degree below the number of
distinct nodes, weighted by the Lagrange coefficients, sum to its value at zero. -/
theorem sum_coeffAtZero_mul_eval (s : Finset ι) (v : ι → F) (hv : Set.InjOn v s) (f : F[X])
    (hf : f.degree < s.card) : ∑ i ∈ s, coeffAtZero s v i * f.eval (v i) = f.eval 0 := by
  conv_rhs => rw [Lagrange.eq_interpolate hv hf]
  rw [Lagrange.interpolate_apply, eval_finsetSum]
  refine sum_congr rfl fun i _ => ?_
  rw [eval_mul, eval_C, Lagrange.basis, eval_prod, mul_comm, coeffAtZero]
  congr 1
  exact prod_congr rfl fun j _ => (eval_zero_basisDivisor (v i) (v j)).symm

end Lagrange

section IndexLoops

/-- A loop over indices that multiplies in a factor at every index but `i` computes the
product over the others. -/
theorem foldl_mul_ite_ne {M : Type} [CommMonoid M] (g : ℕ → M) (i : ℕ) (a : M) :
    ∀ (n : ℕ), (List.range n).foldl (fun p j => if i ≠ j then p * g j else p) a =
      a * ∏ j ∈ (range n).erase i, g j
  | 0 => by simp
  | n + 1 => by
    rw [List.range_succ, List.foldl_append, foldl_mul_ite_ne g i a n, List.foldl_cons,
      List.foldl_nil, ← Finset.filter_ne', ← Finset.filter_ne', Finset.prod_filter,
      Finset.prod_filter, prod_range_succ]
    by_cases hin : i = n
    · simp [hin]
    · have hni : n ≠ i := Ne.symm hin
      simp [hin, hni, mul_assoc]

/-- A loop over indices that adds a term at every index computes the sum. -/
theorem foldl_add_range {M : Type} [AddCommMonoid M] (g : ℕ → M) (a : M) :
    ∀ (n : ℕ), (List.range n).foldl (fun acc i => acc + g i) a = a + ∑ i ∈ range n, g i
  | 0 => by simp
  | n + 1 => by
    rw [List.range_succ, List.foldl_append, foldl_add_range g a n, List.foldl_cons,
      List.foldl_nil, sum_range_succ, add_assoc]

end IndexLoops

end Interpolation
