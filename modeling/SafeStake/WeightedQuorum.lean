import Mathlib

/-! # Weighted quorums

Members carry weights; a quorum is a set of members whose weight reaches
`2 * total / 3 + 1`, the threshold of a committee of total weight `total`.  Two
quorums share more than a third of the total weight (`total_lt_three_mul_inter`), so
they share a member outside any set of less than a third of the weight
(`exists_mem_inter_not_mem`).  This is the intersection argument of Byzantine
fault-tolerant consensus, for arbitrary weights.
-/

namespace WeightedQuorum

open Finset

variable {ι : Type} (w : ι → ℕ)

/-- The weight of a set of members. -/
def weight (s : Finset ι) : ℕ := ∑ i ∈ s, w i

/-- `s` is a quorum of the committee `U`: a set of its members whose weight reaches
`2 * weight U / 3 + 1`. -/
structure IsQuorum (U s : Finset ι) : Prop where
  subset : s ⊆ U
  reaches : 2 * weight w U / 3 + 1 ≤ weight w s

theorem weight_union_add_inter [DecidableEq ι] (s t : Finset ι) :
    weight w (s ∪ t) + weight w (s ∩ t) = weight w s + weight w t :=
  sum_union_inter

theorem weight_mono {s t : Finset ι} (h : s ⊆ t) : weight w s ≤ weight w t :=
  sum_le_sum_of_subset h

variable {w} [DecidableEq ι]

/-- **Two quorums share more than a third of the weight.** -/
theorem total_lt_three_mul_inter {U s t : Finset ι} (hs : IsQuorum w U s)
    (ht : IsQuorum w U t) : weight w U < 3 * weight w (s ∩ t) := by
  have hunion : weight w (s ∪ t) ≤ weight w U := weight_mono w (union_subset hs.subset ht.subset)
  have hsum := weight_union_add_inter w s t
  have hs' := hs.reaches
  have ht' := ht.reaches
  omega

/-- **Two quorums share a member outside any set of less than a third of the weight.** -/
theorem exists_mem_inter_not_mem {U s t f : Finset ι} (hs : IsQuorum w U s)
    (ht : IsQuorum w U t) (hf : 3 * weight w f < weight w U) :
    ∃ i ∈ s ∩ t, i ∉ f := by
  by_contra hall
  have hsub : s ∩ t ⊆ f := fun i hi => by
    by_contra hi'
    exact hall ⟨i, hi, hi'⟩
  have hinter := total_lt_three_mul_inter hs ht
  have hle := weight_mono w hsub
  omega

end WeightedQuorum
