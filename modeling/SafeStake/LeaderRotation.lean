import SafeStake.RoundRobin
import Mathlib.Data.List.Sort

/-! # Leaders and aggregators

`HotstuffOperatorCommittee::get_leader(nonce)` (and the fake committee's, which is the same
function) sorts the ids of the committee's operators and takes the one at `nonce % len`.
`DvfSigner::is_aggregator(nonce)` holds when the operator leads `nonce` or `nonce + 1`.
`signing_method.rs` asks it with the signing epoch, and for the duties marked
`only_aggregator` only the aggregators of the epoch run consensus and aggregate the
signatures.  The ids are the keys of the `operators` map, so they have no duplicates
(`OperatorIds`).

Over a committee of fewer than `2^64` operators, and away from the last `u64`:

* **each operator leads once per turn**: any `len` consecutive nonces have each operator
  as leader exactly once (`leader_once_per_turn`);
* **two aggregators**: once there are two operators, every epoch has exactly two
  aggregators, and `is_aggregator` is false for every other id (`two_aggregators`);
* **each operator aggregates twice per turn**: any `len` consecutive epochs have each
  operator as aggregator exactly twice (`aggregates_twice_per_turn`).

`RoundRobin` proves these for lists; this module reads `get_leader` as `RoundRobin.pick`
over the sorted ids (`getLeader_eq_pick`).
-/

namespace SafeStake.Validation

/-- The ids of a committee's `operators`, the keys of a `HashMap`: no id twice. -/
structure OperatorIds where
  ids : List UInt64
  nodup : ids.Nodup

namespace OperatorIds

/-- The committee of `TOperatorCommittee::new`, before any `add_operator`. -/
def empty : OperatorIds := ⟨[], List.nodup_nil⟩

/-- `add_operator(operator_id, operator)`: `HashMap::insert`, which keeps the keys when the
id is already there. -/
def addOperator (o : OperatorIds) (operatorId : UInt64) : OperatorIds :=
  if h : operatorId ∈ o.ids then o
  else ⟨o.ids ++ [operatorId], List.nodup_append.mpr ⟨o.nodup, List.pairwise_singleton _ _,
    fun a ha b hb hab => h (by rw [← List.mem_singleton.mp hb, ← hab]; exact ha)⟩⟩

/-- `ids.sort()` over the keys.  Distinct keys have one sorted order, whatever the sorting
algorithm. -/
def sortedIds (o : OperatorIds) : List UInt64 := o.ids.insertionSort (· ≤ ·)

/-- `get_leader(nonce)`: the sorted ids at `nonce % len`.  An empty committee panics at the
remainder by zero. -/
def getLeader (o : OperatorIds) (nonce : UInt64) : Option UInt64 :=
  if o.ids.length = 0 then none
  else
    let selectOrder := nonce % UInt64.ofNat o.ids.length
    o.sortedIds[selectOrder.toNat]?

/-- `DvfSigner::is_aggregator(nonce)`: the operator leads `nonce`, or else `nonce + 1`.  The
`||` asks for the second leader only when the first is another operator; `nonce + 1` wraps
at the last `u64`, as a release build does. -/
def isAggregator (o : OperatorIds) (operatorId nonce : UInt64) : Option Bool :=
  match o.getLeader nonce with
  | none => none
  | some leader =>
    if leader = operatorId then some true
    else (o.getLeader (nonce + 1)).map fun next => next == operatorId

/-! ## `get_leader` is a rotation -/

theorem sortedIds_perm (o : OperatorIds) : o.sortedIds.Perm o.ids :=
  List.perm_insertionSort _ _

theorem nodup_sortedIds (o : OperatorIds) : o.sortedIds.Nodup :=
  o.sortedIds_perm.nodup_iff.mpr o.nodup

theorem length_sortedIds (o : OperatorIds) : o.sortedIds.length = o.ids.length :=
  o.sortedIds_perm.length_eq

theorem mem_sortedIds {o : OperatorIds} {a : UInt64} : a ∈ o.sortedIds ↔ a ∈ o.ids :=
  o.sortedIds_perm.mem_iff

/-- `get_leader` is rotation `nonce` over the sorted ids. -/
theorem getLeader_eq_pick (o : OperatorIds) (hsize : o.ids.length < 2 ^ 64) (nonce : UInt64) :
    o.getLeader nonce = RoundRobin.pick o.sortedIds nonce.toNat := by
  unfold getLeader RoundRobin.pick
  rw [length_sortedIds]
  split
  · -- no operators: `get_leader` panics, and there is nothing to pick
    rename_i hlen
    rw [List.length_eq_zero_iff.mp (o.length_sortedIds.trans hlen)]
    rfl
  · have hmod : (nonce % UInt64.ofNat o.ids.length).toNat = nonce.toNat % o.ids.length := by
      rw [UInt64.toNat_mod, UInt64.toNat_ofNat_of_lt' hsize]
    simp only [hmod]

/-- The nonce `start + k`, as long as it does not wrap. -/
theorem toNat_add_ofNat {start : UInt64} {k : Nat} (h : start.toNat + k < 2 ^ 64) :
    (start + UInt64.ofNat k).toNat = start.toNat + k := by
  rw [UInt64.toNat_add, UInt64.toNat_ofNat', Nat.mod_eq_of_lt (by omega : k < 2 ^ 64),
    Nat.mod_eq_of_lt h]

/-- An operator aggregates for `nonce` exactly when it is rotation `nonce` or `nonce + 1`
over the sorted ids. -/
theorem isAggregator_eq (o : OperatorIds) (hsize : o.ids.length < 2 ^ 64) (hpos : 0 < o.ids.length)
    (operatorId : UInt64) {nonce : UInt64} (hnext : nonce.toNat + 1 < 2 ^ 64) :
    o.isAggregator operatorId nonce =
      some (decide (RoundRobin.pick o.sortedIds nonce.toNat = some operatorId ∨
        RoundRobin.pick o.sortedIds (nonce.toNat + 1) = some operatorId)) := by
  have hpos' : 0 < o.sortedIds.length := by rw [length_sortedIds]; exact hpos
  have hsucc : (nonce + 1).toNat = nonce.toNat + 1 := toNat_add_ofNat (k := 1) hnext
  unfold isAggregator
  rw [getLeader_eq_pick o hsize, getLeader_eq_pick o hsize, hsucc,
    RoundRobin.pick_eq_get hpos', RoundRobin.pick_eq_get hpos']
  have hlt : nonce.toNat % o.sortedIds.length < o.sortedIds.length := Nat.mod_lt _ hpos'
  simp only [List.get_eq_getElem]
  by_cases hlead : o.sortedIds[nonce.toNat % o.sortedIds.length] = operatorId
  · simp [hlead]
  · simp [hlead, Bool.beq_eq_decide_eq]

/-! ## Leaders and aggregators over a turn -/

/-- **Each operator leads once per turn.**  Any `len` consecutive nonces, short of the last
`u64`, have each operator of the committee as leader exactly once. -/
theorem leader_once_per_turn (o : OperatorIds) {operatorId : UInt64} (hmem : operatorId ∈ o.ids)
    {start : UInt64} (hturn : start.toNat + o.ids.length < 2 ^ 64) :
    ∃! k, k < o.ids.length ∧ o.getLeader (start + UInt64.ofNat k) = some operatorId := by
  have hsize : o.ids.length < 2 ^ 64 := by omega
  obtain ⟨k, ⟨hk, hpick⟩, hunique⟩ :=
    RoundRobin.existsUnique_pick o.nodup_sortedIds (mem_sortedIds.mpr hmem) start.toNat
  rw [length_sortedIds] at hk hunique
  -- the nonce `start + k` is rotation `start.toNat + k`
  have hnonce : ∀ {k}, k < o.ids.length →
      o.getLeader (start + UInt64.ofNat k) = RoundRobin.pick o.sortedIds (start.toNat + k) := by
    intro k hk
    rw [getLeader_eq_pick o hsize, toNat_add_ofNat (by omega)]
  refine ⟨k, ⟨hk, by rw [hnonce hk]; exact hpick⟩, ?_⟩
  rintro k' ⟨hk', hlead⟩
  exact hunique k' ⟨hk', by rw [← hnonce hk']; exact hlead⟩

/-- Three operators, added out of order. -/
def committeeOfThree : OperatorIds := ((empty.addOperator 3).addOperator 1).addOperator 2

theorem three_lead_once :
    (1 : UInt64) ∈ committeeOfThree.ids ∧ (0 : UInt64).toNat + committeeOfThree.ids.length < 2 ^ 64 ∧
      ∃! k, k < committeeOfThree.ids.length ∧
        committeeOfThree.getLeader (0 + UInt64.ofNat k) = some 1 := by
  have hmem : (1 : UInt64) ∈ committeeOfThree.ids := by decide
  have hturn : (0 : UInt64).toNat + committeeOfThree.ids.length < 2 ^ 64 := by decide
  exact ⟨hmem, hturn, leader_once_per_turn committeeOfThree hmem hturn⟩

/-- **Two aggregators.**  Once a committee has two operators, every epoch short of the last
`u64` has exactly two aggregators, two different operators of the committee, and
`is_aggregator` answers, without panicking, `false` for every other id. -/
theorem two_aggregators (o : OperatorIds) (htwo : 2 ≤ o.ids.length) (hsize : o.ids.length < 2 ^ 64)
    {nonce : UInt64} (hnext : nonce.toNat + 1 < 2 ^ 64) :
    ∃ a ∈ o.ids, ∃ b ∈ o.ids, a ≠ b ∧
      ∀ operatorId, o.isAggregator operatorId nonce = some (operatorId == a || operatorId == b) := by
  have hne : o.sortedIds ≠ [] := by
    intro h
    have := o.length_sortedIds
    rw [h] at this
    simp at this
    omega
  obtain ⟨a, ha, hpa⟩ := RoundRobin.exists_pick hne nonce.toNat
  obtain ⟨b, hb, hpb⟩ := RoundRobin.exists_pick hne (nonce.toNat + 1)
  -- the leaders of `nonce` and `nonce + 1` differ
  have hab : a ≠ b := by
    rintro rfl
    exact RoundRobin.pick_succ_ne o.nodup_sortedIds (by rw [length_sortedIds]; exact htwo)
      nonce.toNat (hpb.trans hpa.symm)
  refine ⟨a, mem_sortedIds.mp ha, b, mem_sortedIds.mp hb, hab, fun operatorId => ?_⟩
  rw [isAggregator_eq o hsize (by omega) operatorId hnext, hpa, hpb]
  by_cases hida : operatorId = a
  · subst hida
    simp
  · by_cases hidb : operatorId = b
    · subst hidb
      simp [hab]
    · simp [hida, hidb, Ne.symm hida, Ne.symm hidb]

theorem three_two_aggregators :
    2 ≤ committeeOfThree.ids.length ∧ committeeOfThree.ids.length < 2 ^ 64 ∧
      (7 : UInt64).toNat + 1 < 2 ^ 64 ∧
      ∃ a ∈ committeeOfThree.ids, ∃ b ∈ committeeOfThree.ids, a ≠ b ∧ ∀ operatorId,
        committeeOfThree.isAggregator operatorId 7 = some (operatorId == a || operatorId == b) := by
  have htwo : 2 ≤ committeeOfThree.ids.length := by decide
  have hsize : committeeOfThree.ids.length < 2 ^ 64 := by decide
  have hnext : (7 : UInt64).toNat + 1 < 2 ^ 64 := by decide
  exact ⟨htwo, hsize, hnext, two_aggregators committeeOfThree htwo hsize hnext⟩

-- epochs 7 and 8 are led by the second and third of the sorted ids
example : committeeOfThree.isAggregator 1 7 = some false ∧
    committeeOfThree.isAggregator 3 7 = some true := by decide

/-- **Each operator aggregates twice per turn.**  Once a committee has two operators, any
`len` consecutive epochs, short of the last `u64`, have each operator as aggregator
exactly twice: the epoch it leads, and the one before. -/
theorem aggregates_twice_per_turn (o : OperatorIds) (htwo : 2 ≤ o.ids.length)
    {operatorId : UInt64} (hmem : operatorId ∈ o.ids) {start : UInt64}
    (hturn : start.toNat + o.ids.length < 2 ^ 64) :
    ((Finset.range o.ids.length).filter fun k =>
      o.isAggregator operatorId (start + UInt64.ofNat k) = some true).card = 2 := by
  have hsize : o.ids.length < 2 ^ 64 := by omega
  have hcard := RoundRobin.card_pick_or_next o.nodup_sortedIds (by rw [length_sortedIds]; exact htwo)
    (mem_sortedIds.mpr hmem) start.toNat
  rw [length_sortedIds] at hcard
  rw [← hcard]
  congr 1
  apply Finset.filter_congr
  intro k hk
  have hk' : start.toNat + k + 1 < 2 ^ 64 := by
    have := Finset.mem_range.mp hk
    omega
  rw [isAggregator_eq o hsize (by omega) operatorId (by rw [toNat_add_ofNat (by omega)]; exact hk'),
    toNat_add_ofNat (by omega)]
  simp

theorem three_aggregate_twice :
    2 ≤ committeeOfThree.ids.length ∧ (1 : UInt64) ∈ committeeOfThree.ids ∧
      (5 : UInt64).toNat + committeeOfThree.ids.length < 2 ^ 64 ∧
      ((Finset.range committeeOfThree.ids.length).filter fun k =>
        committeeOfThree.isAggregator 1 (5 + UInt64.ofNat k) = some true).card = 2 := by
  have htwo : 2 ≤ committeeOfThree.ids.length := by decide
  have hmem : (1 : UInt64) ∈ committeeOfThree.ids := by decide
  have hturn : (5 : UInt64).toNat + committeeOfThree.ids.length < 2 ^ 64 := by decide
  exact ⟨htwo, hmem, hturn, aggregates_twice_per_turn committeeOfThree htwo hmem hturn⟩

end OperatorIds

end SafeStake.Validation
