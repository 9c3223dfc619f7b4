import SafeStake.DkgMalicious

/-! # The dispute phase of the malicious DKG

After `share_verification`, every party broadcasts its results, issues a `DisputeClaim`
against each dealer whose share failed (`issude_dispute_claim`), and then, for each id that
another party's results mark invalid, receives that party's claim and checks it with
`verify_dispute_claim` (`DKGMalicious.disputePhase`, the start of `DKGMalicious.run`).
Where no check panics the loop collects exactly the claims `DKGMalicious.validClaims`
computes from the checks' answers (`disputeClaims_eq_validClaims`).

The check opens the channels to the claim's `issue_party` and to its `corrupted_party`,
and `SecureNetIOCommittee::channel` panics on a channel of the party with itself.  A claim
issued by an honest party is never refused and names the dealer it accuses as
`corrupted_party` (`issueDisputeClaim_eq_ok`, `issueDisputeClaim_accuses`), so the party a
claim accuses panics when it checks it: a single other party marking its share invalid
takes it down, whatever the share and the claim (`disputePhase_accused`).
-/

namespace SafeStake.Dkg

open Interpolation SafeStake.Threshold

/-- A `mapM` whose function fails only with `e` fails with `e` where it fails at all. -/
theorem mapM_eq_error {α β ε : Type} {f : α → Except ε β} {e : ε} :
    ∀ {l : List α}, (∀ a ∈ l, ∀ e', f a = .error e' → e' = e) →
      (∃ a ∈ l, ∃ e', f a = .error e') → l.mapM f = .error e
  | [], _, ⟨_, ha, _⟩ => nomatch ha
  | a :: l, hall, ⟨b, hb, e', hfb⟩ => by
    rw [List.mapM_cons]
    cases hfa : f a with
    | error e'' =>
      rw [hall a List.mem_cons_self e'' hfa]
      rfl
    | ok c =>
      -- the failing element is further on
      have hbl : b ∈ l := by
        rcases List.mem_cons.mp hb with rfl | hbl
        · rw [hfa] at hfb
          cases hfb
        · exact hbl
      have hl : l.mapM f = .error e :=
        mapM_eq_error (fun a ha => hall a (List.mem_cons_of_mem _ ha)) ⟨b, hbl, e', hfb⟩
      simp only [bind, Except.bind, hl]

/-- The errors of a `mapM` are those of its function. -/
theorem mapM_error {α β ε : Type} {f : α → Except ε β} {e : ε} :
    ∀ {l : List α}, (∀ a ∈ l, ∀ e', f a = .error e' → e' = e) →
      ∀ e', l.mapM f = .error e' → e' = e
  | [], _, _, h => nomatch h
  | a :: l, hall, e', h => by
    rw [List.mapM_cons] at h
    cases hfa : f a with
    | error e'' =>
      rw [hfa] at h
      cases h
      exact hall a List.mem_cons_self _ hfa
    | ok c =>
      rw [hfa] at h
      cases hl : l.mapM f with
      | error e'' =>
        rw [hl] at h
        cases h
        exact mapM_error (fun a ha => hall a (List.mem_cons_of_mem _ ha)) _ hl
      | ok cs =>
        rw [hl] at h
        cases h

namespace IOCommittee

variable {G₁ : Type}

/-- The channel of the party with itself panics. -/
theorem channel_self (io : IOCommittee G₁) (id : UInt64) : io.channel id id = .error .panic :=
  if_pos (.inl rfl)

/-- The channel between the party and another id of the committee, either way round, is the
one to that id. -/
theorem channel_eq_ok {io : IOCommittee G₁} {id : UInt64} (hid : id ∈ io.ids)
    (hne : id ≠ io.party) : io.channel io.party id = .ok id ∧ io.channel id io.party = .ok id := by
  have hto : io.channelTo id = some id := by
    rw [channelTo, if_pos (by simp [hid, hne])]
  -- neither way round is the channel invalid
  have hfrom : ¬(io.party = id ∨ (io.party ≠ io.party ∧ id ≠ io.party)) := by
    rintro (h | ⟨h, -⟩)
    · exact hne h.symm
    · exact h rfl
  have hto' : ¬(id = io.party ∨ (id ≠ io.party ∧ io.party ≠ io.party)) := by
    rintro (h | ⟨-, h⟩)
    · exact hne h
    · exact h rfl
  constructor
  · rw [channel, if_neg hfrom, if_pos rfl, hto]
    rfl
  · rw [channel, if_neg hto', if_neg hne, hto]
    rfl

/-- A channel only ever panics. -/
theorem channel_error (io : IOCommittee G₁) (fromId toId : UInt64) :
    ∀ e, io.channel fromId toId = .error e → e = .panic := by
  intro e h
  unfold channel at h
  split at h
  · cases h
    rfl
  · split at h
    · unfold channelTo at h
      split at h <;> cases h
      rfl
    · unfold channelTo at h
      split at h <;> cases h
      rfl

end IOCommittee

section Dispute

variable {G₁ : Type} [AddCommGroup G₁] [Module (ZMod modulus) G₁] [DecidableEq G₁]
  (s : Setup G₁)

namespace DKGMalicious

/-- The claims the party of `io` broadcasts in `DKGMalicious::run`: its share phases as `run`
has them, then a claim against each dealer whose share failed.  `w id` is the nonce of the
claim against `id`. -/
def issueClaims (io : IOCommittee G₁) (d : Draw) (w : UInt64 → ZMod modulus)
    (inbox : Inbox G₁) : Except Fault (List (DisputeClaim G₁)) := do
  let (_, _, _, payloads, vrfy) ← sharePhase s io d inbox
  issueDisputeClaims s io w payloads vrfy

end DKGMalicious

open DKGMalicious

/-! ## Claims -/

/-- **An honest party's claim against another party of the committee is issued**: the
channel exists and the proof of its key is never refused. -/
theorem issueDisputeClaim_eq_ok {io : IOCommittee G₁} {corrupted : UInt64}
    (hid : corrupted ∈ io.ids) (hne : corrupted ≠ io.party) (w : ZMod modulus)
    (share : VssSharePayload G₁) :
    ∃ claim, issueDisputeClaim s io w corrupted share = .ok claim := by
  -- the proof's statement is true: both points are `sk` times their bases
  obtain ⟨proof, hprove⟩ : ∃ proof, dleqProve s.hash w s.g (io.sk • s.g)
      (io.partnerPublicKey corrupted) (io.sk • io.partnerPublicKey corrupted) io.sk = .ok proof :=
    dleqProve_smul s.hash w io.sk s.g (io.partnerPublicKey corrupted)
  unfold issueDisputeClaim
  rw [(IOCommittee.channel_eq_ok hid hne).1]
  simp only [bind, Except.bind, Except.mapError, hprove, pure, Except.pure]
  exact ⟨_, rfl⟩

/-- A claim `issude_dispute_claim` returns names its issuer and the dealer it is issued
against. -/
theorem issueDisputeClaim_accuses {io : IOCommittee G₁} {w : ZMod modulus} {corrupted : UInt64}
    {share : VssSharePayload G₁} {claim : DisputeClaim G₁}
    (h : issueDisputeClaim s io w corrupted share = .ok claim) :
    claim.issueParty = io.party ∧ claim.corruptedParty = corrupted := by
  unfold issueDisputeClaim at h
  cases hc : io.channel io.party corrupted with
  | error e =>
    rw [hc] at h
    cases h
  | ok channel =>
    simp only [hc, bind, Except.bind, Except.mapError] at h
    split at h
    · cases h
    · cases h
      exact ⟨rfl, rfl⟩

/-- Every error of `verify_dispute_claim` is a panic. -/
theorem verifyDisputeClaim_error (io : IOCommittee G₁) (claim : DisputeClaim G₁) :
    ∀ e, verifyDisputeClaim s io claim = .error e → e = .panic := by
  intro e h
  unfold verifyDisputeClaim at h
  cases hj : io.channel io.party claim.issueParty with
  | error e' =>
    rw [hj] at h
    cases h
    exact IOCommittee.channel_error io _ _ e hj
  | ok channelJ =>
    cases hi : io.channel io.party claim.corruptedParty with
    | error e' =>
      simp only [hj, hi, bind, Except.bind] at h
      cases h
      exact IOCommittee.channel_error io _ _ e hi
    | ok channelI =>
      simp only [hj, hi, bind, Except.bind] at h
      -- past the two checks, only the two `unwrap`s can fail
      split at h
      · cases h
      · split at h
        · cases h
        · cases hd : io.decryptWithKey claim.encShare claim.key with
          | none =>
            rw [hd] at h
            cases h
            rfl
          | some share =>
            cases he : claim.committedPoly.eval s.blstP1Add (u64ToBlstScalar claim.issueParty) with
            | none =>
              simp only [hd, he, orPanic] at h
              cases h
              rfl
            | some y' =>
              simp only [hd, he, orPanic, pure, Except.pure] at h
              cases h

/-- The same for a check whose result is tagged, as the dispute loop tags it. -/
theorem verifyDisputeClaim_map_error (io : IOCommittee G₁) (claim : DisputeClaim G₁) {β : Type}
    (f : Bool → β) : ∀ e, (verifyDisputeClaim s io claim).map f = .error e → e = .panic := by
  intro e h
  cases hv : verifyDisputeClaim s io claim with
  | error e' =>
    rw [hv] at h
    cases h
    exact verifyDisputeClaim_error s io _ _ hv
  | ok v =>
    rw [hv] at h
    cases h

/-- **A claim naming the party itself panics**: `verify_dispute_claim` opens the channel of
the party with itself, whether the party is the claim's issuer or the accused. -/
theorem verifyDisputeClaim_of_party (io : IOCommittee G₁) {claim : DisputeClaim G₁}
    (h : claim.issueParty = io.party ∨ claim.corruptedParty = io.party) :
    verifyDisputeClaim s io claim = .error .panic := by
  unfold verifyDisputeClaim
  rcases h with h | h
  · rw [h, IOCommittee.channel_self]
    rfl
  · -- the channel to the issuer comes first, and fails or not
    cases hj : io.channel io.party claim.issueParty with
    | error e =>
      rw [IOCommittee.channel_error io _ _ e hj]
      rfl
    | ok channelJ =>
      simp only [bind, Except.bind, h, IOCommittee.channel_self]

/-! ## The dispute loop -/

/-- One other party's turn of the loop: its channel with the party opens, and what is left is
the checks of the claims against the shares it marked invalid. -/
theorem disputeTurn_eq (io : IOCommittee G₁) (claims : UInt64 → UInt64 → DisputeClaim G₁)
    {o : UInt64 × List (UInt64 × Bool)} (hid : o.1 ∈ io.ids) (hne : o.1 ≠ io.party) :
    (do
        let _ ← io.channel o.1 io.party
        (o.2.filter fun r => !r.2).mapM fun r =>
          (verifyDisputeClaim s io (claims o.1 r.1)).map fun valid => (o.1, r.1, valid)) =
      (o.2.filter fun r => !r.2).mapM fun r =>
        (verifyDisputeClaim s io (claims o.1 r.1)).map fun valid => (o.1, r.1, valid) := by
  rw [(IOCommittee.channel_eq_ok hid hne).2]
  rfl

/-- **The accused panics**: if another party of the committee marks the party's share invalid
and its claim accuses the party, the dispute loop panics, whatever the other results and
claims. -/
theorem disputeClaims_accused (io : IOCommittee G₁) (claims : UInt64 → UInt64 → DisputeClaim G₁)
    (others : List (UInt64 × List (UInt64 × Bool)))
    (hchannel : ∀ o ∈ others, o.1 ∈ io.ids ∧ o.1 ≠ io.party)
    {o : UInt64 × List (UInt64 × Bool)} (ho : o ∈ others) (hr : (io.party, false) ∈ o.2)
    (hclaim : (claims o.1 io.party).corruptedParty = io.party) :
    disputeClaims s io claims others = .error .panic := by
  -- the checks of every other party fail only by panicking ...
  have hall : ∀ o ∈ others, ∀ e,
      (do
        let _ ← io.channel o.1 io.party
        (o.2.filter fun r => !r.2).mapM fun r =>
          (verifyDisputeClaim s io (claims o.1 r.1)).map fun valid => (o.1, r.1, valid)) =
        (.error e : Except Fault _) → e = .panic := by
    intro o' ho' e he
    rw [disputeTurn_eq s io claims (hchannel o' ho').1 (hchannel o' ho').2] at he
    exact mapM_error (fun r _ => verifyDisputeClaim_map_error s io _ _) e he
  -- ... and those of the accuser do
  have hfail : (do
        let _ ← io.channel o.1 io.party
        (o.2.filter fun r => !r.2).mapM fun r =>
          (verifyDisputeClaim s io (claims o.1 r.1)).map fun valid => (o.1, r.1, valid)) =
      (.error .panic : Except Fault _) := by
    rw [disputeTurn_eq s io claims (hchannel o ho).1 (hchannel o ho).2]
    refine mapM_eq_error (fun r _ => verifyDisputeClaim_map_error s io _ _)
      ⟨(io.party, false), List.mem_filter.mpr ⟨hr, rfl⟩, .panic, ?_⟩
    rw [verifyDisputeClaim_of_party s io (.inr hclaim)]
    rfl
  unfold disputeClaims
  rw [mapM_eq_error hall ⟨o, ho, .panic, hfail⟩]
  rfl

/-- **The accused party never passes the dispute phase**: for every committee and every
message the party receives, if another party of the committee marks its share invalid and
sends a claim that accuses it, as an honest party's claim does (`issueDisputeClaim_accuses`),
`DKGMalicious::run` panics in its dispute loop, unless a phase before it has already failed:
it never returns `InvalidDkgShare` nor goes on. -/
theorem disputePhase_accused (io : IOCommittee G₁) (d : Draw) (w : UInt64 → ZMod modulus)
    (inbox : Inbox G₁) (claims : UInt64 → UInt64 → DisputeClaim G₁) {j : UInt64}
    (hj : j ∈ io.ids) (hjp : j ≠ io.party) (hresult : (io.party, false) ∈ inbox.results j)
    (hclaim : (claims j io.party).corruptedParty = io.party) :
    disputePhase s io d w inbox claims = (issueClaims s io d w inbox).bind fun _ => .error .panic := by
  -- every other party has a channel to the party
  have hchannel : ∀ o ∈ (io.ids.filter (· != io.party)).map (fun id => (id, inbox.results id)),
      o.1 ∈ io.ids ∧ o.1 ≠ io.party := by
    intro o ho
    obtain ⟨id, hid, rfl⟩ := List.mem_map.mp ho
    simpa using hid
  have hmem : (j, inbox.results j) ∈ (io.ids.filter (· != io.party)).map fun id => (id, inbox.results id) :=
    List.mem_map.mpr ⟨j, by simp [hj, hjp], rfl⟩
  unfold disputePhase issueClaims
  rw [disputeClaims_accused s io claims _ hchannel hmem hresult hclaim]
  -- whatever the share phases and the claims give, the loop then panics
  cases sharePhase s io d inbox with
  | error e => rfl
  | ok r =>
    obtain ⟨kp, kps, cp, payloads, vrfy⟩ := r
    cases issueDisputeClaims s io w payloads vrfy <;> rfl

end Dispute

/-! ## An accused party -/

/-- The scalars as G1, with `g = 1`, `h = 2`, a constant hash, channels that do not encrypt,
and the incomplete addition. -/
def scalarSetup : Setup (ZMod modulus) :=
  ⟨1, 2, fun _ => 0, ⟨fun _ _ m => m, fun _ _ m => m, fun _ _ _ => rfl⟩,
    IncompleteAdd.ofDecidableEq⟩

/-- Party `party` of the committee `[1, 2]`, with the scalars as G1: the private key 5 of its
channels, the partner keys 7, a `verify_partner` that accepts and a cipher that does not
encrypt. -/
def ioOfParty (party : UInt64) : IOCommittee (ZMod modulus) :=
  ⟨party, [1, 2], 5, fun _ => 7, fun _ _ => true, fun m _ => some m⟩

/-- What party 1 receives from party 2 when the parties deal `1 + x` and `2 + x`, but with
party 2's results marking party 1's share invalid. -/
def accusedInbox : Inbox (ZMod modulus) :=
  { deliverInbox scalarSetup ioOfParty [1, 2] lineDraws (fun _ => ⟨3, 4, fun _ => 3⟩) 1 with
    results := fun _ => [(1, false)] }

/-- The claims party 2 sends: the one `issude_dispute_claim` builds against each dealer, on
the dealer's payload to it. -/
def claimsOfTwo (j i : UInt64) : DisputeClaim (ZMod modulus) :=
  match DKGMalicious.issueDisputeClaim scalarSetup (ioOfParty j) 3 i
      (deliverPayload scalarSetup [1, 2] lineDraws j i) with
  | .ok claim => claim
  | .error _ => ⟨j, i, [], 0, ⟨[]⟩, ⟨0, 0⟩⟩

/-- Party 1 of `[1, 2]` finds party 2's share valid and issues no claim; party 2 marks party
1's share invalid and sends its claim against party 1, which party 1 checks by opening the
channel to itself: party 1 panics. -/
theorem accused_party_panics :
    (DKGMalicious.issueClaims scalarSetup (ioOfParty 1) (lineDraws 1) (fun _ => 3)
        accusedInbox).map List.length = .ok 0 ∧
    (claimsOfTwo 2 1).issueParty = 2 ∧ (claimsOfTwo 2 1).corruptedParty = 1 ∧
    DKGMalicious.disputePhase scalarSetup (ioOfParty 1) (lineDraws 1) (fun _ => 3) accusedInbox
      claimsOfTwo = .error .panic := by
  have hissue : (DKGMalicious.issueClaims scalarSetup (ioOfParty 1) (lineDraws 1) (fun _ => 3)
      accusedInbox).map List.length = .ok 0 := by
    decide +kernel
  -- party 2's claim against party 1 is issued, and names party 1 as the accused
  obtain ⟨claim, hclaim⟩ : ∃ claim, DKGMalicious.issueDisputeClaim scalarSetup (ioOfParty 2) 3 1
      (deliverPayload scalarSetup [1, 2] lineDraws 2 1) = .ok claim :=
    issueDisputeClaim_eq_ok scalarSetup (by decide) (by decide) 3 _
  have hnames : (claimsOfTwo 2 1).issueParty = 2 ∧ (claimsOfTwo 2 1).corruptedParty = 1 := by
    rw [claimsOfTwo, hclaim]
    exact issueDisputeClaim_accuses scalarSetup hclaim
  have hpanic := disputePhase_accused scalarSetup (ioOfParty 1) (lineDraws 1) (fun _ => 3)
    accusedInbox claimsOfTwo (j := 2) (by decide) (by decide) (by decide) hnames.2
  refine ⟨hissue, hnames.1, hnames.2, ?_⟩
  rw [hpanic]
  -- party 1's own claims are issued: there are none
  cases hclaims : DKGMalicious.issueClaims scalarSetup (ioOfParty 1) (lineDraws 1) (fun _ => 3)
      accusedInbox with
  | error e =>
    rw [hclaims] at hissue
    cases hissue
  | ok l => rfl

end SafeStake.Dkg
