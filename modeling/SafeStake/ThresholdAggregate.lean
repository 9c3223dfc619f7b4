import SafeStake.ThresholdKeys

/-! # What `threshold_aggregate` aggregates

`GenericThresholdSignature::threshold_aggregate` scans the signatures with their keys and
ids (`collectValid`): a zero id is an error, an id already accepted is skipped, a signature
that verifies is accepted, and the scan breaks once `threshold` are accepted.  Only then
does `unsafe_aggregate` see the accepted ones.

Whatever it is given, an `Ok` means the slices have one length, at least the threshold,
and `unsafe_aggregate` got exactly `threshold` accepted entries, with distinct nonzero ids
and verifying signatures: distinct ids are distinct scalars, so `lagrange_coeffs` never
inverts zero (`collectValid_sound`).  Conversely, at a positive threshold the result is
`Ok` as soon as the scan meets `threshold` distinct ids with a verifying signature before
any zero id (`collectValid_complete`).  At threshold 0 the scan still accepts the first
verifying signature before it compares the count, and the length `require` of
`lagrange_coeffs` then panics.
-/

namespace SafeStake.Threshold

section Scan

variable {G₁ G₂ : Type}

/-- The ids among `entries` with a signature that verifies under its key. -/
def verifiedIds (verify : G₂ → G₁ → Bool) (entries : List (G₂ × G₁ × UInt64)) : Finset UInt64 :=
  ((entries.filter fun e => verify e.1 e.2.1).map fun e => e.2.2).toFinset

/-- The scan meets `threshold` distinct ids with a verifying signature before any zero id:
some prefix of the entries has no zero id and that many verified ids. -/
def FindsValid (threshold : ℕ) (verify : G₂ → G₁ → Bool) (entries : List (G₂ × G₁ × UInt64)) :
    Prop :=
  ∃ k, (∀ e ∈ entries.take k, e.2.2 ≠ 0) ∧ threshold ≤ (verifiedIds verify (entries.take k)).card

@[simp] theorem verifiedIds_nil (verify : G₂ → G₁ → Bool) : verifiedIds verify [] = ∅ := rfl

theorem verifiedIds_cons (verify : G₂ → G₁ → Bool) (sig : G₂) (pk : G₁) (id : UInt64)
    (rest : List (G₂ × G₁ × UInt64)) :
    verifiedIds verify ((sig, pk, id) :: rest) =
      if verify sig pk then insert id (verifiedIds verify rest) else verifiedIds verify rest := by
  unfold verifiedIds
  by_cases hver : verify sig pk <;> simp [hver]

/-- The ids of accepted entries, with one more accepted. -/
theorem toFinset_snd_append (valid : List (G₂ × UInt64)) (sig : G₂) (id : UInt64) :
    ((valid ++ [(sig, id)]).map Prod.snd).toFinset = insert id (valid.map Prod.snd).toFinset := by
  rw [List.map_append, List.toFinset_append, Finset.union_comm]
  rfl

/-- Accepting an entry of a fresh id keeps the accepted ids distinct. -/
theorem nodup_snd_append {valid : List (G₂ × UInt64)} (hnd : (valid.map Prod.snd).Nodup)
    {id : UInt64} (hused : id ∉ valid.map Prod.snd) (sig : G₂) :
    ((valid ++ [(sig, id)]).map Prod.snd).Nodup := by
  rw [List.map_append, List.map_singleton, ← List.concat_eq_append]
  exact hnd.concat hused

/-- Each verified id is the id of one of the entries. -/
theorem card_verifiedIds_le (verify : G₂ → G₁ → Bool) (entries : List (G₂ × G₁ × UInt64)) :
    (verifiedIds verify entries).card ≤ entries.length :=
  calc (verifiedIds verify entries).card
      ≤ ((entries.filter fun e => verify e.1 e.2.1).map fun e => e.2.2).length :=
        List.toFinset_card_le _
    _ ≤ entries.length := by
        rw [List.length_map]
        exact List.length_filter_le _ _

variable (threshold : ℕ) (verify : G₂ → G₁ → Bool)

/-- **What the scan returns**: starting from accepted entries with distinct ids, it returns
entries with distinct ids, each accepted before or taken from the scanned entries with a
nonzero id and a verifying signature. -/
theorem collectValid_sound :
    ∀ (entries : List (G₂ × G₁ × UInt64)) (valid v : List (G₂ × UInt64)),
      collectValid threshold verify entries valid = .ok v → (valid.map Prod.snd).Nodup →
      (v.map Prod.snd).Nodup ∧
        ∀ e ∈ v, e ∈ valid ∨ (e.2 ≠ 0 ∧ ∃ pk, (e.1, pk, e.2) ∈ entries ∧ verify e.1 pk = true)
  | [], valid, v, h, hnd => by
    cases h
    exact ⟨hnd, fun e he => .inl he⟩
  | (sig, pk, id) :: rest, valid, v, h, hnd => by
    -- what the rest of the scan returns, with its entries among these
    have hrest : ∀ valid', collectValid threshold verify rest valid' = .ok v →
        (valid'.map Prod.snd).Nodup → (∀ e ∈ valid', e ∈ valid ∨
          (e.2 ≠ 0 ∧ ∃ pk', (e.1, pk', e.2) ∈ (sig, pk, id) :: rest ∧ verify e.1 pk' = true)) →
        (v.map Prod.snd).Nodup ∧ ∀ e ∈ v, e ∈ valid ∨
          (e.2 ≠ 0 ∧ ∃ pk', (e.1, pk', e.2) ∈ (sig, pk, id) :: rest ∧ verify e.1 pk' = true) := by
      intro valid' h' hnd' hvalid'
      obtain ⟨hnd'', hmem⟩ := collectValid_sound rest valid' v h' hnd'
      refine ⟨hnd'', fun e he => ?_⟩
      rcases hmem e he with hold | ⟨hid, pk', hin, hver⟩
      · exact hvalid' e hold
      · exact .inr ⟨hid, pk', List.mem_cons_of_mem _ hin, hver⟩
    have hkeep : ∀ e ∈ valid, e ∈ valid ∨
        (e.2 ≠ 0 ∧ ∃ pk', (e.1, pk', e.2) ∈ (sig, pk, id) :: rest ∧ verify e.1 pk' = true) :=
      fun e he => .inl he
    simp only [collectValid] at h
    split at h
    · cases h
    · rename_i hid
      split at h
      · exact hrest valid h hnd hkeep
      · rename_i hused
        -- the accepted entry: a fresh nonzero id with a verifying signature
        have hnd' := nodup_snd_append hnd hused sig
        split at h
        · rename_i hver
          have hvalid' : ∀ e ∈ valid ++ [(sig, id)], e ∈ valid ∨
              (e.2 ≠ 0 ∧ ∃ pk', (e.1, pk', e.2) ∈ (sig, pk, id) :: rest ∧ verify e.1 pk' = true) := by
            intro e he
            rcases List.mem_append.mp he with he | he
            · exact .inl he
            · rw [List.mem_singleton.mp he]
              exact .inr ⟨hid, pk, List.mem_cons_self .., hver⟩
          split at h
          · cases h
            exact ⟨hnd', hvalid'⟩
          · exact hrest _ h hnd' hvalid'
        · exact hrest valid h hnd hkeep

/-- **When the scan succeeds**: from fewer than `threshold` accepted entries with distinct
ids, a prefix without zero ids whose verified ids make `threshold` with the accepted ones
makes the scan return exactly `threshold` entries.  The induction follows the scan; the
prefix shrinks with it. -/
theorem collectValid_complete :
    ∀ (entries : List (G₂ × G₁ × UInt64)) (valid : List (G₂ × UInt64)) (k : ℕ),
      valid.length < threshold → (valid.map Prod.snd).Nodup →
      (∀ e ∈ entries.take k, e.2.2 ≠ 0) →
      threshold ≤ ((valid.map Prod.snd).toFinset ∪ verifiedIds verify (entries.take k)).card →
      ∃ v, collectValid threshold verify entries valid = .ok v ∧ v.length = threshold
  | entries, valid, 0, hlt, hnd, _, hcard => by
    -- an empty prefix counts only the accepted ids, fewer than the threshold
    have hcount := List.toFinset_card_of_nodup hnd
    rw [List.length_map] at hcount
    simp only [List.take_zero, verifiedIds_nil, Finset.union_empty, hcount] at hcard
    omega
  | [], valid, _ + 1, hlt, hnd, _, hcard => by
    have hcount := List.toFinset_card_of_nodup hnd
    rw [List.length_map] at hcount
    simp only [List.take_nil, verifiedIds_nil, Finset.union_empty, hcount] at hcard
    omega
  | (sig, pk, id) :: rest, valid, k + 1, hlt, hnd, hzero, hcard => by
    rw [List.take_succ_cons] at hzero hcard
    have hid : id ≠ 0 := hzero (sig, pk, id) (List.mem_cons_self ..)
    have hzero' : ∀ e ∈ rest.take k, e.2.2 ≠ 0 := fun e he => hzero e (List.mem_cons_of_mem _ he)
    rw [verifiedIds_cons] at hcard
    simp only [collectValid, if_neg hid]
    by_cases hused : id ∈ valid.map Prod.snd
    · -- a taken id counts once
      rw [if_pos hused]
      refine collectValid_complete rest valid k hlt hnd hzero' ?_
      have hin : id ∈ (valid.map Prod.snd).toFinset := List.mem_toFinset.mpr hused
      split at hcard
      · rwa [Finset.union_insert, Finset.insert_eq_of_mem (Finset.mem_union_left _ hin)] at hcard
      · exact hcard
    · rw [if_neg hused]
      by_cases hver : verify sig pk
      · rw [if_pos hver] at hcard ⊢
        by_cases hfull : threshold ≤ (valid ++ [(sig, id)]).length
        · rw [if_pos hfull]
          refine ⟨_, rfl, ?_⟩
          rw [List.length_append, List.length_singleton] at hfull ⊢
          omega
        · rw [if_neg hfull]
          have hnd' := nodup_snd_append hnd hused sig
          refine collectValid_complete rest _ k (by omega) hnd' hzero' ?_
          rwa [toFinset_snd_append, Finset.insert_union, ← Finset.union_insert]
      · rw [if_neg hver] at hcard ⊢
        exact collectValid_complete rest valid k hlt hnd hzero' hcard

end Scan

section Aggregate

variable {G₁ G₂ : Type} [AddCommGroup G₂] [Module (ZMod modulus) G₂]

theorem eq_of_orPanic_eq_ok {α : Type} {o : Option α} {a : α} (h : orPanic o = .ok a) :
    o = some a := by
  cases o with
  | none => cases h
  | some b => cases h; rfl

/-- `unsafe_aggregate` returns only for as many ids as the threshold: the `require` of
`lagrange_coeffs`. -/
theorem length_of_unsafeAggregate {threshold : ℕ} {sigs : List G₂} {ids : List UInt64} {σ : G₂}
    (h : unsafeAggregate threshold sigs ids = some σ) : ids.length = threshold := by
  unfold unsafeAggregate lagrangeCoeffs at h
  by_contra hne
  rw [if_neg (Ne.symm hne)] at h
  cases h

/-- With as many ids as the threshold and enough signatures, `unsafe_aggregate` returns. -/
theorem unsafeAggregate_isSome {threshold : ℕ} {sigs : List G₂} {ids : List UInt64}
    (hids : ids.length = threshold) (hsigs : threshold ≤ sigs.length) :
    ∃ σ, unsafeAggregate threshold sigs ids = some σ := by
  rw [unsafeAggregate, lagrangeCoeffs, if_pos hids.symm, Option.bind_eq_bind, Option.bind_some,
    if_pos hsigs]
  exact ⟨_, rfl⟩

/-- **`threshold_aggregate` only aggregates a well-formed set.**  Whatever the slices, the
threshold and the verification outcomes: an `Ok` means the slices have one length, at least
the threshold, and that `unsafe_aggregate` got exactly `threshold` entries of the scan, with
distinct nonzero ids (so distinct nodes for `lagrange_coeffs`) and verifying signatures.
Conversely, at a positive threshold, equal lengths and `threshold` distinct verified ids
met before any zero id give an `Ok`. -/
theorem threshold_aggregate_well_formed (threshold : ℕ) (verify : G₂ → G₁ → Bool)
    (sigs : List G₂) (pks : List G₁) (ids : List UInt64) :
    (∀ σ, thresholdAggregate threshold verify sigs pks ids = .ok σ →
      sigs.length = pks.length ∧ sigs.length = ids.length ∧ threshold ≤ sigs.length ∧
      ∃ valid, collectValid threshold verify (sigs.zip (pks.zip ids)) [] = .ok valid ∧
        valid.length = threshold ∧ (valid.map Prod.snd).Nodup ∧
        (∀ e ∈ valid, e.2 ≠ 0 ∧
          ∃ pk, (e.1, pk, e.2) ∈ sigs.zip (pks.zip ids) ∧ verify e.1 pk = true) ∧
        ((valid.map Prod.snd).map u64ToBlstScalar).Nodup ∧
        unsafeAggregate threshold (valid.map Prod.fst) (valid.map Prod.snd) = some σ) ∧
    (0 < threshold → sigs.length = pks.length → sigs.length = ids.length →
      FindsValid threshold verify (sigs.zip (pks.zip ids)) →
      ∃ σ, thresholdAggregate threshold verify sigs pks ids = .ok σ) := by
  refine ⟨fun σ h => ?_, fun hpos hpks hids hfinds => ?_⟩
  · -- every check before `unsafe_aggregate` passed
    unfold thresholdAggregate at h
    by_cases hpks : sigs.length ≠ pks.length
    · rw [if_pos hpks] at h
      cases h
    rw [if_neg hpks] at h
    by_cases hids : sigs.length ≠ ids.length
    · rw [if_pos hids] at h
      cases h
    rw [if_neg hids] at h
    by_cases hfew : sigs.length < threshold
    · rw [if_pos hfew] at h
      cases h
    rw [if_neg hfew] at h
    cases hscan : collectValid threshold verify (sigs.zip (pks.zip ids)) [] with
    | error err =>
      rw [hscan] at h
      cases h
    | ok valid =>
      simp only [hscan] at h
      by_cases hvalid : valid.length < threshold
      · rw [if_pos hvalid] at h
        cases h
      rw [if_neg hvalid] at h
      have hσ := eq_of_orPanic_eq_ok h
      have hlen := length_of_unsafeAggregate hσ
      rw [List.length_map] at hlen
      obtain ⟨hnd, hmem⟩ := collectValid_sound threshold verify _ [] valid hscan List.nodup_nil
      refine ⟨not_not.mp hpks, not_not.mp hids, Nat.le_of_not_lt hfew, valid, rfl, hlen, hnd,
        fun e he => ?_, hnd.map u64ToBlstScalar_injective, hσ⟩
      rcases hmem e he with hnil | hscanned
      · cases hnil
      · exact hscanned
  · -- the scan returns `threshold` entries, and `unsafe_aggregate` then returns
    obtain ⟨k, hzero, hcard⟩ := hfinds
    have hentries : (sigs.zip (pks.zip ids)).length = sigs.length := by
      rw [List.length_zip, List.length_zip]
      omega
    have henough : threshold ≤ sigs.length := by
      have hprefix := card_verifiedIds_le verify ((sigs.zip (pks.zip ids)).take k)
      have htake := List.length_take_le' k (sigs.zip (pks.zip ids))
      omega
    obtain ⟨valid, hscan, hlen⟩ := collectValid_complete threshold verify _ [] k hpos
      List.nodup_nil hzero (by simpa using hcard)
    obtain ⟨σ, hσ⟩ : ∃ σ, unsafeAggregate threshold (valid.map Prod.fst) (valid.map Prod.snd) = some σ :=
      unsafeAggregate_isSome (by rw [List.length_map, hlen]) (by rw [List.length_map, hlen])
    refine ⟨σ, ?_⟩
    rw [thresholdAggregate, if_neg (by omega), if_neg (by omega), if_neg (by omega)]
    simp only [hscan]
    rw [if_neg (by omega), hσ]
    rfl

end Aggregate

/-- At threshold 2, two signatures that verify, with the ids 1 and 2: the lengths agree, the
scan meets both ids before any zero id, and the aggregate is returned. -/
theorem threshold_aggregate_two_verified :
    0 < 2 ∧ [(1 : ZMod modulus), 1].length = [(1 : ZMod modulus), 1].length ∧
      [(1 : ZMod modulus), 1].length = [(1 : UInt64), 2].length ∧
      FindsValid 2 (fun (_ _ : ZMod modulus) => true)
        ([(1 : ZMod modulus), 1].zip ([(1 : ZMod modulus), 1].zip [1, 2])) ∧
      ∃ σ, thresholdAggregate 2 (fun (_ _ : ZMod modulus) => true) [1, 1] [1, 1] [1, 2] = .ok σ := by
  have hfinds : FindsValid 2 (fun (_ _ : ZMod modulus) => true)
      ([(1 : ZMod modulus), 1].zip ([(1 : ZMod modulus), 1].zip [1, 2])) :=
    ⟨2, by simp, by simp [verifiedIds]⟩
  exact ⟨by decide, rfl, rfl, hfinds,
    (threshold_aggregate_well_formed 2 _ [1, 1] [1, 1] [1, 2]).2 (by decide) rfl rfl hfinds⟩

/-- At threshold 0, one signature that verifies, with id 1: the lengths agree and the scan
meets 0 distinct ids before any zero id, yet the scan accepts the signature before it
compares the count, and `lagrange_coeffs` panics on one id for no coefficient. -/
theorem threshold_aggregate_zero_threshold_panics :
    [(1 : ZMod modulus)].length = [(1 : ZMod modulus)].length ∧
    [(1 : ZMod modulus)].length = [(1 : UInt64)].length ∧
    FindsValid 0 (fun (_ _ : ZMod modulus) => true)
      ([(1 : ZMod modulus)].zip ([(1 : ZMod modulus)].zip [1])) ∧
    thresholdAggregate 0 (fun (_ _ : ZMod modulus) => true) [1] [1] [1] = .error .panic :=
  ⟨rfl, rfl, ⟨0, by simp, by simp⟩, rfl⟩

end SafeStake.Threshold
