import SafeStake.WeightedQuorum
import SafeStake.CoreCommit

/-! # Quorums of verified certificates, and where they fail

Agreement of HotStuff rests on one fact: two certificates that pass verification were
signed by two quorums, and two quorums share a correct authority.  For the committee
of `config.rs` this holds as long as the stakes do not wrap around `u32`:
`QC::verify` and `TC::verify` count each signer once, each with stake, so a verified
certificate's signers form a weighted quorum (`QC.voters_isQuorum`), and two of them
share a signer outside any set of less than a third of the stake
(`QC.exists_common_voter`).

`Committee::quorum_threshold` computes `2 * total_votes / 3 + 1` in `u32`, so each result
asks that twice the total stake fit in `u32`; the committees `DvfCore` builds give every
operator stake 1.
-/

namespace SafeStake.Consensus

open WeightedQuorum

namespace Committee
variable (committee : Committee)

/-- The keys of the committee. -/
def members : Finset PublicKey := (committee.authorities.map Prod.fst).toFinset

/-- The stake of a key, as a number. -/
def weightOf (name : PublicKey) : ℕ := (committee.stake name).toNat

/-- The total stake, summed without wrapping. -/
def totalStake : ℕ := (committee.authorities.map fun a => a.2.stake.toNat).sum

theorem foldl_stake_toNat (l : List (PublicKey × Authority)) (acc : Stake) :
    (l.foldl (fun acc a => acc + a.2.stake) acc).toNat =
      (acc.toNat + (l.map fun a => a.2.stake.toNat).sum) % 2 ^ 32 := by
  induction l generalizing acc with
  | nil => simp [Nat.mod_eq_of_lt (UInt32.toNat_lt acc)]
  | cons a l ih =>
    simp only [List.foldl_cons, ih, UInt32.toNat_add, List.map_cons, List.sum_cons]
    omega

/-- `total_votes` is the total stake modulo `2^32`. -/
theorem totalVotes_toNat : committee.totalVotes.toNat = committee.totalStake % 2 ^ 32 := by
  simp [totalVotes, totalStake, foldl_stake_toNat]

/-- Without wrapping, `quorum_threshold` is `2 * total / 3 + 1`. -/
theorem quorumThreshold_toNat (h : 2 * committee.totalStake < 2 ^ 32) :
    committee.quorumThreshold.toNat = 2 * committee.totalStake / 3 + 1 := by
  have hfits : committee.totalStake % 2 ^ 32 = committee.totalStake := Nat.mod_eq_of_lt (by omega)
  have hdouble : 2 * committee.totalStake % 2 ^ 32 = 2 * committee.totalStake :=
    Nat.mod_eq_of_lt h
  have hsum : (2 * committee.totalStake / 3 + 1) % 2 ^ 32 = 2 * committee.totalStake / 3 + 1 :=
    Nat.mod_eq_of_lt (by omega)
  have h1 : (1 : UInt32).toNat = 1 := rfl
  have h2 : (2 : UInt32).toNat = 2 := rfl
  have h3 : (3 : UInt32).toNat = 3 := rfl
  simp only [quorumThreshold, UInt32.toNat_add, UInt32.toNat_div, UInt32.toNat_mul,
    totalVotes_toNat, hfits, h1, h2, h3, hdouble, hsum]

/-- With distinct keys, the stake of a listed key is its authority's. -/
theorem lookup_of_mem {l : List (PublicKey × Authority)} (hnd : (l.map Prod.fst).Nodup)
    {k : PublicKey} {a : Authority} (h : (k, a) ∈ l) : l.lookup k = some a := by
  induction l with
  | nil => cases h
  | cons e l ih =>
    obtain ⟨k', a'⟩ := e
    rw [List.map_cons, List.nodup_cons] at hnd
    rcases List.mem_cons.mp h with heq | hmem
    · cases heq
      simp [List.lookup]
    · have hk : k ∈ l.map Prod.fst := List.mem_map_of_mem hmem
      have hne : k ≠ k' := fun he => hnd.1 (he ▸ hk)
      simp [List.lookup, beq_eq_false_iff_ne.mpr hne, ih hnd.2 hmem]

theorem mem_members_of_stake_ne_zero {name : PublicKey} (h : committee.stake name ≠ 0) :
    name ∈ committee.members := by
  unfold stake at h
  cases hl : committee.authorities.lookup name with
  | none => simp [hl] at h
  | some a =>
    obtain ⟨l₁, l₂, hsplit, -⟩ := List.lookup_eq_some_iff.mp hl
    simp [members, hsplit]

/-- The members weigh the total stake. -/
theorem weight_members : weight committee.weightOf committee.members = committee.totalStake := by
  unfold weight members totalStake
  rw [List.sum_toFinset _ committee.keys_nodup, List.map_map]
  congr 1
  apply List.map_congr_left
  rintro ⟨k, a⟩ hmem
  simp [weightOf, stake, lookup_of_mem committee.keys_nodup hmem]

end Committee

/-- **What the quorum loop checks.**  When it returns, the names are distinct and fresh,
each has stake, and the weight is the starting weight plus their stakes, modulo `2^32`. -/
theorem quorumWeight_ok {committee : Committee} {digest : Digest} {round : Round} {t : String} :
    ∀ {names : List PublicKey} {weight : Stake} {used : List PublicKey} {total : Stake},
      quorumWeight committee digest round t names weight used = .ok total →
      (names.Nodup ∧ ∀ n ∈ names, n ∉ used) ∧ (∀ n ∈ names, committee.stake n ≠ 0) ∧
      total.toNat = (weight.toNat + (names.map committee.weightOf).sum) % 2 ^ 32
  | [], weight, used, total, h => by
    cases h
    simp [Nat.mod_eq_of_lt (UInt32.toNat_lt _)]
  | name :: names, weight, used, total, h => by
    simp only [quorumWeight] at h
    split at h
    · cases h
    · split at h
      · cases h
      · rename_i hfresh hstake
        obtain ⟨⟨hnd, hnew⟩, hstakes, hsum⟩ := quorumWeight_ok h
        refine ⟨⟨List.nodup_cons.mpr ⟨fun hn => hnew name hn (by simp), hnd⟩, ?_⟩, ?_, ?_⟩
        · intro n hn
          rcases List.mem_cons.mp hn with rfl | hn
          · simpa using hfresh
          · exact fun hu => hnew n hn (List.mem_cons_of_mem _ hu)
        · intro n hn
          rcases List.mem_cons.mp hn with rfl | hn
          · exact hstake
          · exact hstakes n hn
        · rw [hsum, UInt32.toNat_add, List.map_cons, List.sum_cons, Committee.weightOf]
          omega

/-- A weight the quorum loop returns from 0 reaches `quorum_threshold` only if its
distinct names form a quorum, when the total stake does not wrap. -/
theorem isQuorum_of_quorumWeight {committee : Committee} {digest : Digest} {round : Round}
    {t : String} {names : List PublicKey} {total : Stake}
    (h : quorumWeight committee digest round t names 0 [] = .ok total)
    (hreach : total ≥ committee.quorumThreshold) (hfit : 2 * committee.totalStake < 2 ^ 32) :
    IsQuorum committee.weightOf committee.members names.toFinset := by
  obtain ⟨⟨hnd, -⟩, hstakes, hsum⟩ := quorumWeight_ok h
  have hsubset : names.toFinset ⊆ committee.members := fun n hn =>
    committee.mem_members_of_stake_ne_zero (hstakes n (List.mem_toFinset.mp hn))
  have hweight : weight committee.weightOf names.toFinset = (names.map committee.weightOf).sum :=
    List.sum_toFinset _ hnd
  -- the signers' stake is at most the total, so the `u32` sum did not wrap
  have hbound : (names.map committee.weightOf).sum ≤ committee.totalStake := by
    rw [← hweight, ← committee.weight_members]
    exact weight_mono _ hsubset
  have htotal : total.toNat = (names.map committee.weightOf).sum := by
    rw [hsum, show (0 : Stake).toNat = 0 from rfl, Nat.zero_add]
    exact Nat.mod_eq_of_lt (by omega)
  have hthreshold := UInt32.le_iff_toNat_le.mp hreach
  rw [committee.quorumThreshold_toNat hfit, htotal, ← hweight, ← committee.weight_members] at hthreshold
  exact ⟨hsubset, hthreshold⟩

/-- The authors of a QC's votes. -/
def QC.voters (qc : QC) : Finset PublicKey := (qc.votes.map Prod.fst).toFinset

/-- The authors of a TC's votes. -/
def TC.voters (tc : TC) : Finset PublicKey := (tc.votes.map Prod.fst).toFinset

section Certificates
variable {c : Crypto} {committee : Committee}

/-- **The signers of a verified QC are a quorum**, when the total stake does not wrap. -/
theorem QC.voters_isQuorum {qc : QC} (h : qc.verify c committee = .ok ())
    (hfit : 2 * committee.totalStake < 2 ^ 32) :
    IsQuorum committee.weightOf committee.members qc.voters := by
  unfold QC.verify at h
  cases hq : quorumWeight committee qc.hash qc.round "QC-verify" (qc.votes.map Prod.fst) 0 [] with
  | error e => simp [hq, bind, Except.bind] at h
  | ok total =>
    by_cases hreach : total ≥ committee.quorumThreshold
    · exact isQuorum_of_quorumWeight hq hreach hfit
    · simp [hq, hreach, bind, Except.bind, throw, throwThe, MonadExceptOf.throw] at h

/-- **The signers of a verified TC are a quorum**, when the total stake does not wrap. -/
theorem TC.voters_isQuorum {tc : TC} (h : tc.verify c committee = .ok ())
    (hfit : 2 * committee.totalStake < 2 ^ 32) :
    IsQuorum committee.weightOf committee.members tc.voters := by
  unfold TC.verify at h
  cases hq : quorumWeight committee Digest.default tc.round "TC-verify" (tc.votes.map Prod.fst)
      0 [] with
  | error e => simp [hq, bind, Except.bind] at h
  | ok total =>
    by_cases hreach : total ≥ committee.quorumThreshold
    · exact isQuorum_of_quorumWeight hq hreach hfit
    · simp [hq, hreach, bind, Except.bind, throw, throwThe, MonadExceptOf.throw] at h

/-- **Two verified QCs share a correct signer**: one outside any set of authorities
holding less than a third of the stake, when the total stake does not wrap. -/
theorem QC.exists_common_voter {qc₁ qc₂ : QC} (h₁ : qc₁.verify c committee = .ok ())
    (h₂ : qc₂.verify c committee = .ok ()) (hfit : 2 * committee.totalStake < 2 ^ 32)
    {byzantine : Finset PublicKey}
    (hbyzantine : 3 * weight committee.weightOf byzantine < committee.totalStake) :
    ∃ k ∈ qc₁.voters ∩ qc₂.voters, k ∉ byzantine := by
  refine exists_mem_inter_not_mem (QC.voters_isQuorum h₁ hfit) (QC.voters_isQuorum h₂ hfit) ?_
  rwa [committee.weight_members]

end Certificates

/-- The block of round 1 by its leader, the key of byte 2, on the genesis QC. -/
def blockOfRoundOne : Block :=
  Block.new Crypto.sample QC.genesis none (PublicKey.ofByte 2) 1 []
    (Crypto.sampleSigner (PublicKey.ofByte 2))

/-- The vote of the key of byte `b` for `blockOfRoundOne`. -/
def voteOfRoundOne (b : UInt8) : Vote :=
  Vote.new Crypto.sample blockOfRoundOne (PublicKey.ofByte b)
    (Crypto.sampleSigner (PublicKey.ofByte b))

/-- The QC the votes of the keys of bytes 1, 2 and 4 make. -/
def qcOfRoundOne : QC :=
  ⟨blockOfRoundOne.digest Crypto.sample, 1, 0,
    [1, 2, 4].map fun b => (PublicKey.ofByte b, (voteOfRoundOne b).signature)⟩

/-- The QC the votes of the keys of bytes 2, 3 and 4 make. -/
def qcOfRoundOneLast : QC :=
  ⟨blockOfRoundOne.digest Crypto.sample, 1, 0,
    [2, 3, 4].map fun b => (PublicKey.ofByte b, (voteOfRoundOne b).signature)⟩

/-- Both QCs of round 1 verify in the committee of four; with the authority of byte 2
Byzantine, they share a correct voter. -/
theorem round_one_qcs_share_voter :
    qcOfRoundOne.verify Crypto.sample committeeOfFour = .ok () ∧
      qcOfRoundOneLast.verify Crypto.sample committeeOfFour = .ok () ∧
      2 * committeeOfFour.totalStake < 2 ^ 32 ∧
      3 * weight committeeOfFour.weightOf {PublicKey.ofByte 2} < committeeOfFour.totalStake ∧
      ∃ k ∈ qcOfRoundOne.voters ∩ qcOfRoundOneLast.voters,
        k ∉ ({PublicKey.ofByte 2} : Finset PublicKey) := by
  have h₁ : qcOfRoundOne.verify Crypto.sample committeeOfFour = .ok () := by decide +kernel
  have h₂ : qcOfRoundOneLast.verify Crypto.sample committeeOfFour = .ok () := by decide +kernel
  have hfit : 2 * committeeOfFour.totalStake < 2 ^ 32 := by decide
  have hbyzantine : 3 * weight committeeOfFour.weightOf {PublicKey.ofByte 2} <
      committeeOfFour.totalStake := by decide +kernel
  exact ⟨h₁, h₂, hfit, hbyzantine, QC.exists_common_voter h₁ h₂ hfit hbyzantine⟩

/-! ## Quorum intersection for every stake distribution -/

namespace Committee
variable (committee : Committee)

/-- A key outside the committee weighs nothing. -/
theorem weightOf_eq_zero_of_not_mem {name : PublicKey} (h : name ∉ committee.members) :
    committee.weightOf name = 0 := by
  by_contra hne
  exact h (committee.mem_members_of_stake_ne_zero fun h0 => hne (by simp [weightOf, h0]))

/-- A set of keys weighs what its members of the committee weigh. -/
theorem weight_inter_members (s : Finset PublicKey) :
    weight committee.weightOf (s ∩ committee.members) = weight committee.weightOf s :=
  Finset.sum_subset Finset.inter_subset_left fun _ hx hnot =>
    committee.weightOf_eq_zero_of_not_mem fun hm => hnot (Finset.mem_inter.mpr ⟨hx, hm⟩)

/-- Without wrapping, a set of keys whose stake reaches `quorum_threshold` is, among the
committee's members, a weighted quorum. -/
theorem isQuorum_inter_members (hfit : 2 * committee.totalStake < 2 ^ 32) {s : Finset PublicKey}
    (hs : committee.quorumThreshold.toNat ≤ weight committee.weightOf s) :
    IsQuorum committee.weightOf committee.members (s ∩ committee.members) where
  subset := Finset.inter_subset_right
  reaches := by
    rw [committee.weight_members, committee.weight_inter_members, ← committee.quorumThreshold_toNat hfit]
    exact hs

end Committee

/-- **Quorum intersection.**  For every committee whose doubled total stake fits in `u32`,
two sets of authorities whose stakes reach `quorum_threshold` share more than a third of
the total stake, hence an authority outside any set of at most a third of it; and the
threshold is more than half the total. -/
theorem quorum_threshold_intersection (committee : Committee)
    (hfit : 2 * committee.totalStake ≤ 2 ^ 32 - 1) {A B : Finset PublicKey}
    (hA : committee.quorumThreshold.toNat ≤ weight committee.weightOf A)
    (hB : committee.quorumThreshold.toNat ≤ weight committee.weightOf B) :
    committee.totalStake < 3 * weight committee.weightOf (A ∩ B) ∧
    (∀ byzantine : Finset PublicKey,
      3 * weight committee.weightOf byzantine ≤ committee.totalStake → ∃ k ∈ A ∩ B, k ∉ byzantine) ∧
    committee.totalStake < 2 * committee.quorumThreshold.toNat := by
  have hlt : 2 * committee.totalStake < 2 ^ 32 := by omega
  have hthreshold := committee.quorumThreshold_toNat hlt
  -- the two sets, cut down to the committee, are quorums of its members
  have hinter := total_lt_three_mul_inter (committee.isQuorum_inter_members hlt hA)
    (committee.isQuorum_inter_members hlt hB)
  rw [committee.weight_members] at hinter
  have hsub : A ∩ committee.members ∩ (B ∩ committee.members) ⊆ A ∩ B :=
    Finset.inter_subset_inter Finset.inter_subset_left Finset.inter_subset_left
  have hmono := weight_mono committee.weightOf hsub
  refine ⟨by omega, fun byzantine hbyzantine => ?_, by omega⟩
  by_contra hall
  have hcover : A ∩ B ⊆ byzantine := fun k hk => by
    by_contra hk'
    exact hall ⟨k, hk, hk'⟩
  have := weight_mono committee.weightOf hcover
  omega

/-- In the committee of four authorities of stake 1, the authorities of bytes 1 to 3 and
of bytes 2 to 4 are two quorums. -/
theorem quorum_threshold_intersection_four :
    2 * committeeOfFour.totalStake ≤ 2 ^ 32 - 1 ∧
    committeeOfFour.quorumThreshold.toNat ≤
      weight committeeOfFour.weightOf {PublicKey.ofByte 1, PublicKey.ofByte 2, PublicKey.ofByte 3} ∧
    committeeOfFour.quorumThreshold.toNat ≤
      weight committeeOfFour.weightOf {PublicKey.ofByte 2, PublicKey.ofByte 3, PublicKey.ofByte 4} ∧
    committeeOfFour.totalStake < 3 * weight committeeOfFour.weightOf
      ({PublicKey.ofByte 1, PublicKey.ofByte 2, PublicKey.ofByte 3} ∩
        {PublicKey.ofByte 2, PublicKey.ofByte 3, PublicKey.ofByte 4}) :=
  have h₁ : committeeOfFour.quorumThreshold.toNat ≤
      weight committeeOfFour.weightOf {PublicKey.ofByte 1, PublicKey.ofByte 2, PublicKey.ofByte 3} := by
    decide +kernel
  have h₂ : committeeOfFour.quorumThreshold.toNat ≤
      weight committeeOfFour.weightOf {PublicKey.ofByte 2, PublicKey.ofByte 3, PublicKey.ofByte 4} := by
    decide +kernel
  ⟨by decide +kernel, h₁, h₂,
    (quorum_threshold_intersection committeeOfFour (by decide +kernel) h₁ h₂).1⟩

end SafeStake.Consensus
