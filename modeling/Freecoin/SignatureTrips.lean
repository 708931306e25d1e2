import Freecoin.EcdsaVerification

/-!
# From keys to accepted signatures

Whatever the random numbers are, a key pair that `ecdsa_make_key` returns holds a private key and
its multiple of the base point, and a signature that `ecdsa_sign` returns satisfies the equations of
a signature.  `ecdsa_verify` then accepts it, but for the signatures that are out of its range and
for those at which its formulas fail.
-/

namespace Freecoin

open Foundation

/-! ## Keys -/

/-- A key pair that can sign: the public key holds the multiple by the private key. -/
structure KeyPair.Matches (keys : KeyPair) : Prop where
  publicLength : keys.publicKey.length = 64
  privateLength : keys.privateKey.length = 32
  usable : UsableKey (bytesValue keys.privateKey)
  isPoint : IsPoint (publicKeyPoint keys.publicKey curveSecp256r1)
    (bytesValue keys.privateKey • basePoint)

theorem IsScalar.bytesValue_eq {words : Vli 64} (isScalar : IsScalar words) :
    bytesValue (nativeBytes 32 words) = Limbs.value words := by
  have bound := Limbs.value_lt words
  rw [isScalar.length_eq] at bound
  rw [bytesValue_nativeBytes, Nat.mod_eq_of_lt bound]

/-- `ecdsa_make_key` returns matching keys, whatever the random numbers are. -/
theorem ecdsaMakeKey_spec (rng : Option Rng) (call : Nat) :
    Returns (ecdsaMakeKey rng call curveSecp256r1) fun made =>
      ∀ keys, made.1 = some keys → keys.Matches := by
  rw [ecdsaMakeKey]
  generalize ecdsaRngMaxTries = tries
  induction tries generalizing call with
  | zero => exact Returns.ok fun keys none => by simp at none
  | succ tries ih =>
      rw [makeKeyLoop]
      refine (ecdsaGenerateRandomInt_n rng call).bind fun drawn scalars => ?_
      obtain ⟨priv, next⟩ := drawn
      cases priv with
      | none => exact Returns.ok fun keys none => by simp at none
      | some priv =>
          have isScalar := scalars priv rfl
          refine (eccPointComputePublicKey_spec isScalar.length_eq isScalar.positive
            isScalar.small).bind fun computed ends => ?_
          rcases ends with ⟨one, keeps, isPoint⟩ | ⟨zero, _, _⟩
          · have size : bitsToBytes curveSecp256r1.numNBits = 32 := rfl
            rw [one, if_pos Nat.one_ne_zero, size,
              vliNativeToBytes_eq (by decide) (by rw [isScalar.length_eq]), Run.ok_bind,
              isPoint.writePublicKey, Run.ok_bind]
            refine Returns.ok fun keys made => ?_
            obtain rfl := Option.some.inj made
            have value_eq := isScalar.bytesValue_eq
            refine ⟨length_publicKeyBytes _, length_nativeBytes _ _, ?_, ?_⟩
            · rw [value_eq]
              exact ⟨isScalar.positive, isScalar.small, keeps⟩
            · rwa [value_eq, isPoint.publicKeyPoint_publicKeyBytes]
          · rw [zero, if_neg (not_not.mpr rfl)]
            exact ih next

/-- The public key of a private key that can sign is neither the base point nor its opposite. -/
theorem UsableKey.apart {k : Nat} (usable : UsableKey k) :
    k • basePoint ≠ basePoint ∧ k • basePoint ≠ -basePoint := by
  obtain ⟨positive, small, keeps⟩ := usable
  have divides : ∀ m, m • basePoint = 0 ↔ orderSecp256r1 ∣ m := by
    intro m
    rw [← addOrderOf_basePoint, addOrderOf_dvd_iff_nsmul_eq_zero]
  constructor
  · intro same
    have zero : (k - 1) • basePoint = 0 := by
      rw [sub_nsmul basePoint positive, one_nsmul, same, add_neg_cancel]
    have multiple := Nat.eq_zero_of_dvd_of_lt ((divides _).mp zero) (by omega)
    exact keeps (.inl (by omega))
  · intro opposite
    have zero : (k + 1) • basePoint = 0 := by
      rw [succ_nsmul, opposite, neg_add_cancel]
    have order := Nat.le_of_dvd (Nat.succ_pos k) ((divides _).mp zero)
    exact keeps (.inr (.inr (by omega)))

/-! ## Signatures -/

/-- `ecdsa_sign` returns signatures, whatever the random numbers are. -/
theorem ecdsaSign_spec {privateKey messageHash : List UInt8} {hashSize : Nat}
    (keyLength : privateKey.length = 32) (available : hashSize ≤ messageHash.length)
    (rng : Option Rng) (call : Nat) :
    Returns (ecdsaSign privateKey messageHash hashSize rng call curveSecp256r1) fun signed =>
      ∀ signature, signed.1 = some signature → signature.length = 64 ∧ ∃ k, UsableKey k ∧
        Signature (bytesValue privateKey) (hashValue messageHash hashSize) k
          (signatureR signature) (signatureS signature) := by
  rw [ecdsaSign]
  generalize ecdsaRngMaxTries = tries
  induction tries generalizing call with
  | zero => exact Returns.ok fun signature none => by simp at none
  | succ tries ih =>
      rw [ecdsaSignLoop]
      refine (ecdsaGenerateRandomInt_n rng call).bind fun drawn scalars => ?_
      obtain ⟨k, next⟩ := drawn
      cases k with
      | none => exact Returns.ok fun signature none => by simp at none
      | some k =>
          have isScalar := scalars k rfl
          refine (ecdsaSignWithK_spec keyLength available isScalar.length_eq).bind
            fun signed ends => ?_
          rcases ends with ⟨none, _⟩ | ⟨usable, signature, some_eq, length_eq, equations⟩
          · rw [none, Option.isSome_none, if_neg Bool.false_ne_true]
            exact ih signed.2
          · rw [some_eq, Option.isSome_some, if_pos rfl]
            refine Returns.ok fun other same => ?_
            rw [some_eq] at same
            obtain rfl := Option.some.inj same
            exact ⟨length_eq, _, usable, equations⟩

/-- The two multiples that verify a signature add up to the multiple by its nonce. -/
theorem Signature.sum_eq {d e k r s : Nat} (signature : Signature d e k r s) (usable : UsableKey k)
    (nonzero : s ≠ 0) :
    ((e : Scalar) / s).val • basePoint + ((r : Scalar) / s).val • d • basePoint =
      k • basePoint := by
  have s_ne : (s : Scalar) ≠ 0 := by
    rw [ne_eq, ZMod.natCast_eq_zero_iff]
    exact fun divides => nonzero (Nat.eq_zero_of_dvd_of_lt divides signature.s_small)
  have k_ne : (k : Scalar) ≠ 0 := by
    rw [ne_eq, ZMod.natCast_eq_zero_iff]
    exact fun divides => usable.1.ne' (Nat.eq_zero_of_dvd_of_lt divides usable.2.1)
  have scalars : ((((e : Scalar) / s).val + d * ((r : Scalar) / s).val : Nat) : Scalar) = k := by
    have product : (s : Scalar) * k = (e + d * r : Nat) := by
      rw [signature.s_eq, div_mul_cancel₀ _ k_ne]
    push_cast at product ⊢
    rw [ZMod.natCast_zmod_val, ZMod.natCast_zmod_val]
    field_simp
    linear_combination -product
  rw [ZMod.natCast_eq_natCast_iff] at scalars
  rw [← mul_nsmul, ← add_nsmul, nsmul_eq_nsmul_iff_modEq, addOrderOf_basePoint]
  exact scalars

/-- The signatures that verify are those that are in range. -/
theorem Signature.verifies_iff {d e k r s : Nat} (signature : Signature d e k r s)
    (usable : UsableKey k) :
    Verifies (d • basePoint) e r s ↔ r < orderSecp256r1 ∧ s ≠ 0 := by
  constructor
  · intro verifies
    exact ⟨verifies.r_small, verifies.s_pos.ne'⟩
  · rintro ⟨small, nonzero⟩
    obtain ⟨x, y, nonsingular, point_eq, abscissa⟩ := signature.nonce
    refine ⟨signature.r_pos, small, Nat.pos_of_ne_zero nonzero, signature.s_small, x, y,
      nonsingular, ?_, ?_⟩
    · rw [signature.sum_eq usable nonzero, point_eq]
    · rw [abscissa, Nat.mod_eq_of_lt small]

/-! ## The first draw -/

/-- `ecdsa_make_key` returns keys as soon as it draws a key that the ladder does not lose. -/
theorem ecdsaMakeKey_of_drawn {rng : Option Rng} {call next : Nat} {priv : Vli 64}
    (drawn : ecdsaGenerateRandomInt rng curveSecp256r1.n call = .ok (some priv, next))
    (keeps : ¬ LosesPoint (Limbs.value priv)) :
    ∃ keys, ecdsaMakeKey rng call curveSecp256r1 = .ok (some keys, next) := by
  have isScalar := (ecdsaGenerateRandomInt_n rng call).of_eq_ok drawn priv rfl
  have size : bitsToBytes curveSecp256r1.numNBits = 32 := rfl
  obtain ⟨computed, returned, ⟨one, _, isPoint⟩ | ⟨_, loses, _⟩⟩ :=
    eccPointComputePublicKey_spec isScalar.length_eq isScalar.positive isScalar.small
  · rw [ecdsaMakeKey, ecdsaRngMaxTries, makeKeyLoop, drawn, Run.ok_bind]
    dsimp only
    rw [returned, Run.ok_bind, one, if_pos Nat.one_ne_zero, size,
      vliNativeToBytes_eq (by decide) (by rw [isScalar.length_eq]), Run.ok_bind,
      isPoint.writePublicKey, Run.ok_bind]
    exact ⟨_, rfl⟩
  · exact absurd loses keeps

/-- `ecdsa_sign` returns a signature as soon as it draws a nonce whose point has an abscissa other
than zero, and then another number to hide it with. -/
theorem ecdsaSign_of_drawn {privateKey messageHash : List UInt8} {hashSize call next : Nat}
    {rng : Option Rng} {k : Vli 64} (keyLength : privateKey.length = 32)
    (available : hashSize ≤ messageHash.length)
    (drawn : ecdsaGenerateRandomInt rng curveSecp256r1.n call = .ok (some k, next))
    (keeps : ¬ LosesPoint (Limbs.value k))
    (abscissa : ∀ y, ∀ nonsingular : secp256r1.Nonsingular 0 y,
      Limbs.value k • basePoint ≠ .some 0 y nonsingular)
    (blinding : ∃ words last, signBlinding rng next curveSecp256r1 = .ok (some words, last)) :
    ∃ signature last, ecdsaSign privateKey messageHash hashSize rng call curveSecp256r1 =
      .ok (some signature, last) := by
  have isScalar := (ecdsaGenerateRandomInt_n rng call).of_eq_ok drawn k rfl
  obtain ⟨⟨signed, last⟩, returned, ⟨_, refused⟩ | ⟨_, signature, some_eq, _⟩⟩ :=
    @ecdsaSignWithK_spec privateKey messageHash hashSize next k rng keyLength available
      isScalar.length_eq
  · rcases refused with unusable | ⟨y, nonsingular, zero⟩ | ⟨last, none⟩
    · exact absurd ⟨isScalar.positive, isScalar.small, keeps⟩ unusable
    · exact absurd zero (abscissa y nonsingular)
    · simp [none] at blinding
  · obtain rfl : signed = some signature := some_eq
    rw [ecdsaSign, ecdsaRngMaxTries, ecdsaSignLoop, drawn, Run.ok_bind]
    dsimp only
    rw [returned, Run.ok_bind, Option.isSome_some, if_pos rfl]
    exact ⟨signature, last, rfl⟩

/-! ## Acceptance -/

/-- What keeps a signature of `ecdsa_sign` from being accepted: `r`, which is not reduced by the
order, or `s` is out of range, or the formulas of `ecdsa_verify` fail. -/
def Refused (d e r s : Nat) : Prop :=
  orderSecp256r1 ≤ r ∨ s = 0 ∨ LosesSignature (d • basePoint) e r s

/-- `ecdsa_verify` accepts the signatures of matching keys, but for the refused ones. -/
theorem KeyPair.Matches.ecdsaVerify {keys : KeyPair} (matching : keys.Matches)
    {messageHash signature : List UInt8} {hashSize k : Nat}
    (available : hashSize ≤ messageHash.length) (length_eq : signature.length = 64)
    (usable : UsableKey k)
    (equations : Signature (bytesValue keys.privateKey) (hashValue messageHash hashSize) k
      (signatureR signature) (signatureS signature)) :
    Returns (Freecoin.ecdsaVerify keys.publicKey messageHash hashSize signature curveSecp256r1)
      fun code =>
        (code = 1 ∧ ¬ Refused (bytesValue keys.privateKey) (hashValue messageHash hashSize)
            (signatureR signature) (signatureS signature)) ∨
          (code = 0 ∧ Refused (bytesValue keys.privateKey) (hashValue messageHash hashSize)
            (signatureR signature) (signatureS signature)) := by
  obtain ⟨apart, opposite⟩ := matching.usable.apart
  refine (ecdsaVerify_spec matching.isPoint apart opposite available length_eq.ge
    matching.publicLength.ge).mono fun code ends => ?_
  rw [equations.verifies_iff usable] at ends
  unfold Refused
  rcases ends with ⟨one, ⟨small, nonzero⟩, keeps⟩ | ⟨zero, refused⟩
  · refine .inl ⟨one, ?_⟩
    rintro (large | none | loses)
    · exact absurd small (Nat.not_lt_of_le large)
    · exact nonzero none
    · exact keeps loses
  · refine .inr ⟨zero, ?_⟩
    rcases refused with outside | loses
    · rw [not_and_or, not_lt, not_not] at outside
      exact or_assoc.mp (.inl outside)
    · exact .inr (.inr loses)

/-- How `crypt_test` ends: it returns, or one of its steps is fatal. -/
inductive CryptTestEnd
  | returned
  | makeKeyFailed
  | signFailed
  | verifyFailed
  deriving DecidableEq

/-- `crypt_test`. -/
def cryptTest (rng : Option Rng) (curve : EcdsaCurve) : Run CryptTestEnd := do
  let made ← ecdsaMakeKey rng 0 curve
  match made.1 with
  | none => .ok .makeKeyFailed
  | some keys => do
      let hash := keys.publicKey.take 32
      let signed ← ecdsaSign keys.privateKey hash 32 rng made.2 curve
      match signed.1 with
      | none => .ok .signFailed
      | some sig => do
          let verified ← ecdsaVerify keys.publicKey hash 32 sig curve
          .ok (if verified = 0 then .verifyFailed else .returned)

/-- A run of `crypt_test` makes these keys and signs with the nonce `k`. -/
structure CryptTestSigns (rng : Option Rng) (keys : KeyPair) (k : Nat) (sig : List UInt8) :
    Prop where
  runs : ∃ call last, ecdsaMakeKey rng 0 curveSecp256r1 = .ok (some keys, call) ∧
    ecdsaSign keys.privateKey (keys.publicKey.take 32) 32 rng call curveSecp256r1 =
      .ok (some sig, last)
  usable : UsableKey k
  signature : Signature (bytesValue keys.privateKey) (hashValue (keys.publicKey.take 32) 32) k
    (signatureR sig) (signatureS sig)

/-- What keeps the signature of a run from being accepted. -/
def CryptTestRefused (keys : KeyPair) (sig : List UInt8) : Prop :=
  Refused (bytesValue keys.privateKey) (hashValue (keys.publicKey.take 32) 32) (signatureR sig)
    (signatureS sig)

/-- A run signs once. -/
theorem CryptTestSigns.unique {rng : Option Rng} {keys other : KeyPair} {k k' : Nat}
    {sig sig' : List UInt8} (signs : CryptTestSigns rng keys k sig)
    (signsToo : CryptTestSigns rng other k' sig') : keys = other ∧ sig = sig' := by
  obtain ⟨call, last, makes, signed⟩ := signs.runs
  obtain ⟨_, _, makesToo, signedToo⟩ := signsToo.runs
  obtain ⟨rfl, rfl⟩ : keys = other ∧ call = _ := by simpa [makes] using makesToo
  rw [signed] at signedToo
  have same := congrArg Prod.fst (Except.ok.inj signedToo)
  exact ⟨rfl, Option.some.inj same⟩

/-- A run of `crypt_test` fails before it has signed, or its verification finds out whether the
signature is refused. -/
theorem cryptTest_cases (rng : Option Rng) :
    Returns (cryptTest rng curveSecp256r1) fun outcome =>
      (outcome ≠ .returned ∧ outcome ≠ .verifyFailed ∧
          ∀ keys k sig, ¬ CryptTestSigns rng keys k sig) ∨
        ∃ keys k sig, CryptTestSigns rng keys k sig ∧
          (outcome = .returned ∧ ¬ CryptTestRefused keys sig ∨
            outcome = .verifyFailed ∧ CryptTestRefused keys sig) := by
  obtain ⟨⟨made, call⟩, makes, matching⟩ := ecdsaMakeKey_spec rng 0
  rw [cryptTest, makes, Run.ok_bind]
  cases made with
  | none =>
      refine Returns.ok (.inl ⟨by decide, by decide, ?_⟩)
      rintro keys k sig ⟨⟨_, _, made, _⟩, _, _⟩
      simp [makes] at made
  | some keys =>
      have keys_eq := matching keys rfl
      have available : 32 ≤ (keys.publicKey.take 32).length := by
        rw [List.length_take, keys_eq.publicLength]
        decide
      obtain ⟨⟨signed, last⟩, signs, signatures⟩ :=
        ecdsaSign_spec keys_eq.privateLength available rng call
      dsimp only
      rw [signs, Run.ok_bind]
      cases signed with
      | none =>
          refine Returns.ok (.inl ⟨by decide, by decide, ?_⟩)
          rintro other k sig ⟨⟨_, _, made, signsToo⟩, _, _⟩
          obtain ⟨rfl, rfl⟩ : keys = other ∧ call = _ := by simpa [makes] using made
          simp [signs] at signsToo
      | some sig =>
          obtain ⟨length_eq, k, usable, equations⟩ := signatures sig rfl
          have run : CryptTestSigns rng keys k sig :=
            ⟨⟨call, last, makes, signs⟩, usable, equations⟩
          obtain ⟨code, verified, ends⟩ :=
            keys_eq.ecdsaVerify available length_eq usable equations
          dsimp only
          rw [verified, Run.ok_bind]
          refine Returns.ok (.inr ⟨keys, k, sig, run, ?_⟩)
          rcases ends with ⟨rfl, accepted⟩ | ⟨rfl, refused⟩
          · exact .inl ⟨if_neg Nat.one_ne_zero, accepted⟩
          · exact .inr ⟨if_pos rfl, refused⟩

/-- A run of `crypt_test` has no fault, whatever the random numbers are.  Once it has signed, it
returns or fails at its last step, the verification, and it fails exactly for a refused
signature. -/
theorem cryptTest_spec (rng : Option Rng) :
    Returns (cryptTest rng curveSecp256r1) fun outcome =>
      (outcome = .returned ↔
          ∃ keys k sig, CryptTestSigns rng keys k sig ∧ ¬ CryptTestRefused keys sig) ∧
        (outcome = .verifyFailed ↔
          ∃ keys k sig, CryptTestSigns rng keys k sig ∧ CryptTestRefused keys sig) := by
  refine (cryptTest_cases rng).mono fun outcome ends => ?_
  rcases ends with ⟨notReturned, notFailed, unsigned⟩ | ⟨keys, k, sig, signs, verdict⟩
  · refine ⟨iff_of_false notReturned ?_, iff_of_false notFailed ?_⟩
    · rintro ⟨keys, k, sig, signs, _⟩
      exact unsigned keys k sig signs
    · rintro ⟨keys, k, sig, signs, _⟩
      exact unsigned keys k sig signs
  · -- The keys and the signature of the run are the only ones.
    rcases verdict with ⟨rfl, accepted⟩ | ⟨rfl, refused⟩
    · refine ⟨iff_of_true rfl ⟨keys, k, sig, signs, accepted⟩, iff_of_false (by decide) ?_⟩
      rintro ⟨other, k', sig', signsToo, refused⟩
      obtain ⟨rfl, rfl⟩ := signs.unique signsToo
      exact accepted refused
    · refine ⟨iff_of_false (by decide) ?_, iff_of_true rfl ⟨keys, k, sig, signs, refused⟩⟩
      rintro ⟨other, k', sig', signsToo, accepted⟩
      obtain ⟨rfl, rfl⟩ := signs.unique signsToo
      exact accepted refused

/-- Keys that `ecdsa_make_key` makes and signatures that `ecdsa_sign` makes with them go through
`ecdsa_verify`, for every choice of the random numbers. -/
theorem ecdsaVerify_of_ecdsaSign {keyRng signRng : Option Rng}
    {keyCall signCall keyNext signNext : Nat} {keys : KeyPair}
    {messageHash signature : List UInt8} {hashSize : Nat}
    (available : hashSize ≤ messageHash.length)
    (made : ecdsaMakeKey keyRng keyCall curveSecp256r1 = .ok (some keys, keyNext))
    (signed : ecdsaSign keys.privateKey messageHash hashSize signRng signCall curveSecp256r1 =
      .ok (some signature, signNext)) :
    (ecdsaVerify keys.publicKey messageHash hashSize signature curveSecp256r1 = .ok 1 ↔
        ¬ Refused (bytesValue keys.privateKey) (hashValue messageHash hashSize)
          (signatureR signature) (signatureS signature)) ∧
      (ecdsaVerify keys.publicKey messageHash hashSize signature curveSecp256r1 = .ok 0 ↔
        Refused (bytesValue keys.privateKey) (hashValue messageHash hashSize)
          (signatureR signature) (signatureS signature)) := by
  have matching := (ecdsaMakeKey_spec keyRng keyCall).of_eq_ok made keys rfl
  obtain ⟨length_eq, k, usable, equations⟩ :=
    (ecdsaSign_spec matching.privateLength available signRng signCall).of_eq_ok signed signature rfl
  obtain ⟨code, returned, ⟨rfl, accepted⟩ | ⟨rfl, refused⟩⟩ :=
    matching.ecdsaVerify available length_eq usable equations
  · simp [returned, accepted]
  · simp [returned, refused]

theorem abscissa_two_nsmul_basePoint (y : curveSecp256r1.Base)
    (nonsingular : secp256r1.Nonsingular 0 y) : 2 • basePoint ≠ .some 0 y nonsingular := by
  intro same
  have start : CoZ.Scaled 1 baseCoordinates basePoint := CoZ.Scaled.of_some _
  have doubled := start.double (by decide +kernel) lawful_curveSecp256r1.two_ne_zero
  rw [← two_nsmul, same] at doubled
  obtain ⟨_, x, _, _, point_eq, coordinates⟩ := doubled
  obtain ⟨rfl, _⟩ := WeierstrassCurve.Affine.Point.some.inj point_eq
  have zero : (CoZ.double (-3) 1 baseCoordinates).1 = 0 := by
    rw [coordinates]
    exact zero_mul _
  exact absurd zero (by decide +kernel)

theorem ecdsaVerify_of_ecdsaSign_of_two :
    ∃ keys signature last, ecdsaMakeKey (some constantRng) 0 curveSecp256r1 = .ok (some keys, 1) ∧
      ecdsaSign keys.privateKey [0] 1 (some constantRng) 1 curveSecp256r1 =
        .ok (some signature, last) ∧
      (ecdsaVerify keys.publicKey [0] 1 signature curveSecp256r1 = .ok 1 ↔
        ¬ Refused (bytesValue keys.privateKey) (hashValue [0] 1) (signatureR signature)
          (signatureS signature)) := by
  have keeps : ¬ LosesPoint (Limbs.value [2#64, 0#64, 0#64, 0#64]) := by
    unfold LosesPoint
    decide
  have first : ecdsaGenerateRandomInt (some constantRng) curveSecp256r1.n 0 =
      .ok (some [2#64, 0#64, 0#64, 0#64], 1) := by
    rfl
  have second : ecdsaGenerateRandomInt (some constantRng) curveSecp256r1.n 1 =
      .ok (some [2#64, 0#64, 0#64, 0#64], 2) := by
    rfl
  obtain ⟨keys, made⟩ := ecdsaMakeKey_of_drawn first keeps
  have matching := (ecdsaMakeKey_spec (some constantRng) 0).of_eq_ok made keys rfl
  obtain ⟨signature, last, signed⟩ := @ecdsaSign_of_drawn keys.privateKey [0] 1 1 2
    (some constantRng) _ matching.privateLength le_rfl second keeps abscissa_two_nsmul_basePoint
    ⟨[2#64, 0#64, 0#64, 0#64], 3, rfl⟩
  exact ⟨keys, signature, last, made, signed,
    (ecdsaVerify_of_ecdsaSign le_rfl made signed).1⟩

end Freecoin
