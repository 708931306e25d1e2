import Freecoin.SignatureTrips

/-!
# Shared secrets

`ecdsa_shared_secret` multiplies the public key of the other party by one's own private key.  Both
parties come to the same abscissa.
-/

namespace Freecoin

open Foundation

/-- The initial denominator of `ecdsa_shared_secret`, or nothing when no random number is found. -/
def secretInitialZ (rng : Option Rng) (call : Nat) (curve : EcdsaCurve) :
    Run (Option (Option (Vli 64)) × Nat) :=
  match rng with
  | none => .ok (some none, call)
  | some rng => do
      let drawn ← ecdsaGenerateRandomInt (some rng) curve.p call
      .ok (drawn.1.map some, drawn.2)

/-- `ecdsa_shared_secret`: what it returns, and the secret if it writes one. -/
def ecdsaSharedSecret (publicKey privateKey : List UInt8) (rng : Option Rng) (call : Nat)
    (curve : EcdsaCurve) : Run ((Nat × Option (List UInt8)) × Nat) := do
  let priv ← vliBytesToNative privateKey (bitsToBytes curve.numNBits)
  let pub ← readPublicKey publicKey curve
  let regularized ← regularizeK priv curve
  let drawn ← secretInitialZ rng call curve
  match drawn with
  | (none, call) => .ok ((0, none), call)
  | (some initialZ, call) =>
      let product ← eccPointMult pub regularized.chosen initialZ (curve.numNBits + 1) curve
      let secret ← vliNativeToBytes curve.numBytes product.1
      .ok ((if eccPointIsZero product then 0 else 1, some secret), call)

/-- The initial denominator is one, or a reduced number other than zero. -/
theorem secretInitialZ_spec (rng : Option Rng) (call : Nat) :
    Returns (secretInitialZ rng call curveSecp256r1) fun drawn =>
      ∀ initialZ, drawn.1 = some initialZ →
        ∃ z : curveSecp256r1.Base, z ≠ 0 ∧ curveSecp256r1.Represents
          (initialZ.getD ((vliClear curveSecp256r1.numWords).set 0 1#64)) z := by
  cases rng with
  | none =>
      refine Returns.ok fun initialZ drawn => ?_
      obtain rfl := Option.some.inj drawn
      exact ⟨1, one_ne_zero, lawful_curveSecp256r1.one⟩
  | some rng =>
      refine (ecdsaGenerateRandomInt_spec (some rng) call (by decide)).bind fun random bounds => ?_
      refine Returns.ok fun initialZ drawn => ?_
      obtain ⟨words, found, rfl⟩ := Option.map_eq_some_iff.mp drawn
      obtain ⟨length_eq, positive, small⟩ := bounds words found
      have represents : curveSecp256r1.Represents words (Limbs.value words : Nat) :=
        ⟨length_eq, small, rfl⟩
      exact ⟨_, represents.value_eq_zero_iff.not.mp positive.ne', represents⟩

/-- The bytes of the abscissa of a point. -/
def IsSecret (secret : List UInt8) (P : secp256r1.Point) : Prop :=
  secret.length = 32 ∧ ∃ x y, ∃ nonsingular : secp256r1.Nonsingular x y,
    P = .some x y nonsingular ∧ bytesValue secret = x.val

theorem IsSecret.unique {left right : List UInt8} {P : secp256r1.Point} (first : IsSecret left P)
    (second : IsSecret right P) : left = right := by
  obtain ⟨leftLength, x, y, _, rfl, left_eq⟩ := first
  obtain ⟨rightLength, x', y', _, same, right_eq⟩ := second
  obtain ⟨rfl, _⟩ := WeierstrassCurve.Affine.Point.some.inj same
  exact eq_of_bytesValue_eq (leftLength.trans rightLength.symm) (left_eq.trans right_eq.symm)

/-- `ecdsa_shared_secret` writes the abscissa of the multiple of the public key. -/
theorem ecdsaSharedSecret_spec {publicKey privateKey : List UInt8} {rng : Option Rng} {call : Nat}
    {Q : secp256r1.Point} (isPoint : IsPoint (publicKeyPoint publicKey curveSecp256r1) Q)
    (order : addOrderOf Q = orderSecp256r1)
    (abscissa : ∀ y, ∀ nonsingular : secp256r1.Nonsingular 0 y, Q ≠ .some 0 y nonsingular)
    (publicLength : 64 ≤ publicKey.length) (keyLength : privateKey.length = 32)
    (usable : UsableKey (bytesValue privateKey)) :
    Returns (ecdsaSharedSecret publicKey privateKey rng call curveSecp256r1) fun secret =>
      (secret.1 = (0, none) ∧ ∃ next, secretInitialZ rng call curveSecp256r1 = .ok (none, next)) ∨
        ∃ bytes, secret.1 = (1, some bytes) ∧ IsSecret bytes (bytesValue privateKey • Q) := by
  obtain ⟨x, y, nonsingular, Q_eq, represents⟩ := isPoint
  have nonzero : x ≠ 0 := by
    rintro rfl
    exact abscissa y nonsingular Q_eq
  obtain ⟨words, value_eq⟩ := @bytesNative_spec privateKey 32 keyLength.ge
  rw [List.take_of_length_le keyLength.le] at value_eq
  have size : bitsToBytes curveSecp256r1.numNBits = 32 := rfl
  rw [ecdsaSharedSecret, size, vliBytesToNative_eq (by decide) keyLength.ge, Run.ok_bind,
    readPublicKey_eq publicLength, Run.ok_bind]
  generalize bytesNative privateKey 32 = priv at words value_eq ⊢
  rw [← value_eq] at usable ⊢
  obtain ⟨positive, small, keeps⟩ := usable
  refine (regularizeK_spec words small).bind fun regularized regular => ?_
  obtain ⟨⟨found, next⟩, drawn, denominators⟩ := secretInitialZ_spec rng call
  rw [drawn, Run.ok_bind]
  cases found with
  | none => exact Returns.ok (.inl ⟨rfl, next, rfl⟩)
  | some initialZ =>
      obtain ⟨z, z_ne, initial⟩ := denominators initialZ rfl
      refine (eccPointMult_of_regularizes Q_eq nonzero represents initial z_ne order regular
        positive small).bind fun product ends => ?_
      rcases ends with ⟨_, isPoint⟩ | ⟨loses, _⟩
      · obtain ⟨X, Y, affine, point_eq, product_eq⟩ := id isPoint
        have length_eq : product.1.length = 4 := product_eq.fst.length_eq
        rw [show curveSecp256r1.numBytes = 32 from rfl,
          vliNativeToBytes_eq (by decide) (by rw [length_eq]), Run.ok_bind,
          isPoint.eccPointIsZero, if_neg Bool.false_ne_true]
        refine Returns.ok
          (.inr ⟨_, rfl, length_nativeBytes _ _, X, Y, affine, point_eq, ?_⟩)
        have bound := Limbs.value_lt product.1
        rw [length_eq] at bound
        rw [bytesValue_nativeBytes, ← product_eq.fst.val_eq]
        exact Nat.mod_eq_of_lt bound
      · exact absurd loses keeps

/-- The public key of a private key that can sign has the order of the base point. -/
theorem UsableKey.addOrderOf_nsmul {k : Nat} (usable : UsableKey k) :
    addOrderOf (k • basePoint) = orderSecp256r1 := by
  apply addOrderOf_eq_prime
  · rw [← mul_nsmul, mul_nsmul', ← addOrderOf_basePoint, addOrderOf_nsmul_eq_zero, nsmul_zero]
  · intro zero
    rw [← addOrderOf_dvd_iff_nsmul_eq_zero, addOrderOf_basePoint] at zero
    exact usable.1.ne' (Nat.eq_zero_of_dvd_of_lt zero usable.2.1)

/-- Two parties that exchange their public keys come to the same secret, whatever random numbers
hide their computations. -/
theorem ecdsaSharedSecret_agrees {alice bob : KeyPair} (aliceKeys : alice.Matches)
    (bobKeys : bob.Matches)
    (aliceAbscissa : ∀ y, ∀ nonsingular : secp256r1.Nonsingular 0 y,
      bytesValue alice.privateKey • basePoint ≠ .some 0 y nonsingular)
    (bobAbscissa : ∀ y, ∀ nonsingular : secp256r1.Nonsingular 0 y,
      bytesValue bob.privateKey • basePoint ≠ .some 0 y nonsingular)
    {aliceRng bobRng : Option Rng} {aliceCall bobCall : Nat}
    (aliceDraws : ∃ initialZ next, secretInitialZ aliceRng aliceCall curveSecp256r1 =
      .ok (some initialZ, next))
    (bobDraws : ∃ initialZ next, secretInitialZ bobRng bobCall curveSecp256r1 =
      .ok (some initialZ, next)) :
    ∃ secret,
      (∃ next, ecdsaSharedSecret bob.publicKey alice.privateKey aliceRng aliceCall
        curveSecp256r1 = .ok ((1, some secret), next)) ∧
      (∃ next, ecdsaSharedSecret alice.publicKey bob.privateKey bobRng bobCall
        curveSecp256r1 = .ok ((1, some secret), next)) ∧
      IsSecret secret
        ((bytesValue alice.privateKey * bytesValue bob.privateKey) • basePoint) := by
  obtain ⟨⟨first, aliceNext⟩, aliceReturned, ⟨_, _, none⟩ | ⟨aliceSecret, rfl, alice_eq⟩⟩ :=
    @ecdsaSharedSecret_spec bob.publicKey alice.privateKey aliceRng aliceCall _ bobKeys.isPoint
      bobKeys.usable.addOrderOf_nsmul bobAbscissa bobKeys.publicLength.ge
      aliceKeys.privateLength aliceKeys.usable
  · simp [none] at aliceDraws
  obtain ⟨⟨second, bobNext⟩, bobReturned, ⟨_, _, none⟩ | ⟨bobSecret, rfl, bob_eq⟩⟩ :=
    @ecdsaSharedSecret_spec alice.publicKey bob.privateKey bobRng bobCall _ aliceKeys.isPoint
      aliceKeys.usable.addOrderOf_nsmul aliceAbscissa aliceKeys.publicLength.ge
      bobKeys.privateLength bobKeys.usable
  · simp [none] at bobDraws
  rw [← mul_nsmul'] at alice_eq
  rw [← mul_nsmul] at bob_eq
  obtain rfl := bob_eq.unique alice_eq
  exact ⟨bobSecret, ⟨aliceNext, aliceReturned⟩, ⟨bobNext, bobReturned⟩, alice_eq⟩

/-- The keys of the private key two. -/
def keysOfTwo : KeyPair where
  publicKey := publicKeyOfTwo
  privateKey := List.replicate 31 0 ++ [2]

theorem matches_keysOfTwo : keysOfTwo.Matches where
  publicLength := rfl
  privateLength := rfl
  usable := by
    unfold UsableKey LosesPoint
    decide
  isPoint := by
    have value_eq : bytesValue keysOfTwo.privateKey = 2 := by decide
    have valid : ecdsaValidPublicKey publicKeyOfTwo curveSecp256r1 = .ok 1 := by decide +kernel
    obtain ⟨P, x, y, nonsingular, _, represents⟩ :=
      exists_isPoint_of_ecdsaValidPublicKey rfl valid
    have x_eq := represents.fst.cast_eq
    have y_eq := represents.snd.cast_eq
    dsimp only at x_eq y_eq
    have start : CoZ.Scaled 1 baseCoordinates basePoint := CoZ.Scaled.of_some _
    obtain ⟨scale, X, Y, affine, point_eq, coordinates⟩ :=
      start.double (by decide +kernel) lawful_curveSecp256r1.two_ne_zero
    rw [← two_nsmul] at point_eq
    have abscissa : X = x := by
      apply mul_right_cancel₀ (pow_ne_zero 2 scale)
      refine (congrArg Prod.fst coordinates).symm.trans ?_
      rw [← x_eq]
      decide +kernel
    have ordinate : Y = y := by
      apply mul_right_cancel₀ (pow_ne_zero 3 scale)
      refine (congrArg Prod.snd coordinates).symm.trans ?_
      rw [← y_eq]
      decide +kernel
    subst abscissa ordinate
    rw [value_eq]
    exact ⟨X, Y, affine, point_eq, represents⟩

theorem ecdsaSharedSecret_agrees_of_two :
    ∃ secret,
      (∃ next, ecdsaSharedSecret keysOfTwo.publicKey keysOfTwo.privateKey none 0
        curveSecp256r1 = .ok ((1, some secret), next)) ∧
      ∃ next, ecdsaSharedSecret keysOfTwo.publicKey keysOfTwo.privateKey (some constantRng) 0
        curveSecp256r1 = .ok ((1, some secret), next) := by
  have value_eq : bytesValue keysOfTwo.privateKey = 2 := by decide
  have abscissa := abscissa_two_nsmul_basePoint
  rw [← value_eq] at abscissa
  obtain ⟨secret, first, second, _⟩ := @ecdsaSharedSecret_agrees keysOfTwo keysOfTwo
    matches_keysOfTwo matches_keysOfTwo abscissa abscissa none (some constantRng) 0 0
    ⟨none, 0, rfl⟩ ⟨some [2#64, 0#64, 0#64, 0#64], 1, rfl⟩
  exact ⟨secret, first, second⟩

end Freecoin
