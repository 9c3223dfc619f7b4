import SafeStake.DkgMalicious

/-! # The wire format of committed polynomials

`CommittedPoly::to_bytes` writes the number of commitments as a big-endian `u32` and then
each commitment as the 48 bytes of `blst_p1_compress`; `CommittedPoly::from_bytes` reads
the count and then that many 48-byte slices, each through `blst_p1_uncompress`, from a
running index.  Both serde impls route `VssSharePayload` and `DisputeClaim` through them.

The point codec is `blst`'s, outside the repository: `compress` and `uncompress` are
parameters, and the round trip assumes of them only `uncompress (compress p) = p`.
`from_bytes` ignores the error code of `blst_p1_uncompress`, so `uncompress` is total; a
slice out of range panics (`none`).  The count is a `u32`, so the format is faithful below
`2 ^ 32` commitments (`committedPoly_codec_roundtrip`).
-/

namespace SafeStake.Dkg

open ByteCodec

/-- `bls::PUBLIC_KEY_BYTES_LEN`: a compressed G1 point. -/
def publicKeyBytesLen : Nat := 48

variable {G₁ : Type}

/-- `CommittedPoly::bytes_len`. -/
def CommittedPoly.bytesLen (cp : CommittedPoly G₁) : Nat := 4 + publicKeyBytesLen * cp.commitments.length

/-- `CommittedPoly::to_bytes`: the count, `as u32`, big-endian, then every commitment
compressed. -/
def CommittedPoly.toBytes (compress : G₁ → Vector UInt8 publicKeyBytesLen) (cp : CommittedPoly G₁) :
    List UInt8 :=
  beBytes 4 cp.commitments.length ++ cp.commitments.flatMap fun p => (compress p).toList

/-- The loop of `CommittedPoly::from_bytes`: `n` slices of 48 bytes, one after the other;
a slice past the end panics. -/
def readPoints (uncompress : List UInt8 → G₁) : Nat → List UInt8 → Option (List G₁)
  | 0, _ => some []
  | n + 1, bytes =>
    if publicKeyBytesLen ≤ bytes.length then
      (readPoints uncompress n (bytes.drop publicKeyBytesLen)).map
        (uncompress (bytes.take publicKeyBytesLen) :: ·)
    else none

/-- `CommittedPoly::from_bytes`: the count from the first four bytes, big-endian, then the
points; fewer than four bytes panic. -/
def CommittedPoly.fromBytes (uncompress : List UInt8 → G₁) (bytes : List UInt8) :
    Option (CommittedPoly G₁) :=
  if bytes.length < 4 then none
  else (readPoints uncompress (beNat (bytes.take 4)) (bytes.drop 4)).map CommittedPoly.mk

section RoundTrip
variable {compress : G₁ → Vector UInt8 publicKeyBytesLen} {uncompress : List UInt8 → G₁}

/-- The points written one after the other read back, whatever follows them; the
induction is on the points, one slice a step. -/
theorem readPoints_flatMap (hround : ∀ p, uncompress (compress p).toList = p) :
    ∀ (ps : List G₁) (rest : List UInt8),
      readPoints uncompress ps.length ((ps.flatMap fun p => (compress p).toList) ++ rest) = some ps
  | [], _ => rfl
  | p :: ps, rest => by
    have hslice : ((compress p).toList).length = publicKeyBytesLen := Vector.length_toList
    rw [List.flatMap_cons, List.append_assoc, List.length_cons, readPoints,
      if_pos (by rw [List.length_append, hslice]; omega), List.drop_left' hslice,
      List.take_left' hslice, readPoints_flatMap hround ps rest, hround]
    rfl

theorem CommittedPoly.length_toBytes (cp : CommittedPoly G₁) :
    (cp.toBytes compress).length = cp.bytesLen := by
  -- every commitment takes 48 bytes
  have hpoints : ∀ ps : List G₁,
      (ps.flatMap fun p => (compress p).toList).length = publicKeyBytesLen * ps.length := by
    intro ps
    induction ps with
    | nil => rfl
    | cons p ps ih =>
      rw [List.flatMap_cons, List.length_append, ih, Vector.length_toList, List.length_cons]
      ring
  rw [CommittedPoly.toBytes, List.length_append, length_beBytes, hpoints, CommittedPoly.bytesLen]

/-- **The wire format round-trips**: with fewer than `2 ^ 32` commitments and a point codec
that reads back what it writes, `from_bytes` of `to_bytes` is the committed polynomial, and
`to_bytes` is `bytes_len = 4 + 48 n` bytes long. -/
theorem committedPoly_codec_roundtrip (hround : ∀ p, uncompress (compress p).toList = p)
    (cp : CommittedPoly G₁) (hlen : cp.commitments.length < 2 ^ 32) :
    CommittedPoly.fromBytes uncompress (cp.toBytes compress) = some cp ∧
    (cp.toBytes compress).length = cp.bytesLen ∧
    cp.bytesLen = 4 + 48 * cp.commitments.length := by
  have hcount : beNat (beBytes 4 cp.commitments.length) = cp.commitments.length := by
    rw [beNat_beBytes, Nat.mod_eq_of_lt (by norm_num; omega)]
  have hhead := length_beBytes 4 cp.commitments.length
  refine ⟨?_, cp.length_toBytes, rfl⟩
  -- the count is the first four bytes, and the points follow it
  rw [CommittedPoly.fromBytes, if_neg (by rw [cp.length_toBytes]; simp [CommittedPoly.bytesLen]),
    CommittedPoly.toBytes, List.take_left' hhead, List.drop_left' hhead, hcount,
    ← List.append_nil (cp.commitments.flatMap _), readPoints_flatMap hround]
  rfl

end RoundTrip

/-- Points that are their own 48 compressed bytes: reading a slice of another length gives
the zero bytes. -/
def bytesUncompress (bytes : List UInt8) : Vector UInt8 publicKeyBytesLen :=
  if h : bytes.length = publicKeyBytesLen then ⟨bytes.toArray, by simpa using h⟩
  else Vector.replicate publicKeyBytesLen 0

theorem bytesUncompress_toList (p : Vector UInt8 publicKeyBytesLen) :
    bytesUncompress (id p).toList = p := by
  rw [bytesUncompress, dif_pos (by simp)]
  cases p
  simp

/-- Two commitments, the bytes 1 and the bytes 2. -/
def twoPoints : CommittedPoly (Vector UInt8 publicKeyBytesLen) :=
  ⟨[Vector.replicate publicKeyBytesLen 1, Vector.replicate publicKeyBytesLen 2]⟩

theorem committedPoly_codec_two_points :
    (∀ p, bytesUncompress (id p).toList = p) ∧ twoPoints.commitments.length < 2 ^ 32 ∧
    CommittedPoly.fromBytes bytesUncompress (twoPoints.toBytes id) = some twoPoints ∧
    (twoPoints.toBytes id).length = twoPoints.bytesLen ∧
    twoPoints.bytesLen = 4 + 48 * twoPoints.commitments.length :=
  ⟨bytesUncompress_toList, by decide,
    committedPoly_codec_roundtrip bytesUncompress_toList twoPoints (by decide)⟩

end SafeStake.Dkg
