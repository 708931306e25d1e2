import Freecoin.PublicKeys

/-!
# Signing

Random numbers below the order, key pairs, and the signature of a hash.  The random number function
is a parameter: what it fills in, or that it fails, at each of its calls.
-/

namespace Freecoin

open Foundation

/-! ## Random numbers and key pairs -/

/-- The random number function: the words that its calls fill in, in their order, or nothing when a
call fails. -/
abbrev Rng := Nat → Option (Nat → BitVec 64)

/-- `ecdsa_RNG_MAX_TRIES`. -/
def ecdsaRngMaxTries : Nat := 64

/-- Random words without the bits that are higher than those of `top`. -/
def maskedRandom (fill : Nat → BitVec 64) (top : Vli 64) : Vli 64 :=
  let random := (List.range top.length).map fill
  let mask := BitVec.allOnes 64 >>> (top.length * 64 - vliNumBits top)
  random.set (top.length - 1) (random.getD (top.length - 1) 0#64 &&& mask)

/-- The loop of `ecdsa_generate_random_int`: the number, if it returns one, and the number of calls
made so far. -/
def generateRandomIntLoop (rng : Rng) (top : Vli 64) :
    (tries call : Nat) → Run (Option (Vli 64) × Nat)
  | 0, call => .ok (none, call)
  | tries + 1, call =>
      match rng call with
      | none => .ok (none, call + 1)
      | some fill => do
          let random := maskedRandom fill top
          if vliIsZero random then generateRandomIntLoop rng top tries (call + 1)
          else
            let order ← vliCmp top random
            if order = 1 then .ok (some random, call + 1)
            else generateRandomIntLoop rng top tries (call + 1)

/-- `ecdsa_generate_random_int`. -/
def ecdsaGenerateRandomInt (rng : Option Rng) (top : Vli 64) (call : Nat) :
    Run (Option (Vli 64) × Nat) :=
  match rng with
  | none => .ok (none, call)
  | some rng => generateRandomIntLoop rng top ecdsaRngMaxTries call

/-- A public and a private key, as bytes. -/
structure KeyPair where
  publicKey : List UInt8
  privateKey : List UInt8

/-- The loop of `ecdsa_make_key`. -/
def makeKeyLoop (rng : Option Rng) (curve : EcdsaCurve) :
    (tries call : Nat) → Run (Option KeyPair × Nat)
  | 0, call => .ok (none, call)
  | tries + 1, call => do
      let drawn ← ecdsaGenerateRandomInt rng curve.n call
      match drawn with
      | (none, call) => .ok (none, call)
      | (some priv, call) =>
          let computed ← eccPointComputePublicKey priv curve
          if computed.1 ≠ 0 then
            let privateKey ← vliNativeToBytes (bitsToBytes curve.numNBits) priv
            let publicKey ← writePublicKey computed.2 curve
            .ok (some { publicKey, privateKey }, call)
          else makeKeyLoop rng curve tries call

/-- `ecdsa_make_key`: the keys, if it returns `1`. -/
def ecdsaMakeKey (rng : Option Rng) (call : Nat) (curve : EcdsaCurve) :
    Run (Option KeyPair × Nat) :=
  makeKeyLoop rng curve ecdsaRngMaxTries call

/-! ## Signatures -/

/-- The loop of `bits2int` that shifts the words down, from the highest one. -/
def bits2intShift (shift : Nat) : Vli 64 → Vli 64 × BitVec 64
  | [] => ([], 0#64)
  | word :: native =>
      let rest := bits2intShift shift native
      ((word >>> shift ||| rest.2) :: rest.1, word <<< (64 - shift))

/-- `bits2int`. -/
def bits2int (bits : List UInt8) (bitsSize : Nat) (curve : EcdsaCurve) : Run (Vli 64) := do
  let numNBytes := bitsToBytes curve.numNBits
  let numNWords := bitsToWords curve.numNBits
  let bitsSize := if bitsSize > numNBytes then numNBytes else bitsSize
  let read ← vliBytesToNative bits bitsSize
  let native := read ++ vliClear (numNWords - (bitsSize + 7) / 8)
  if bitsSize * 8 ≤ curve.numNBits then .ok native
  else
    let native := (bits2intShift (bitsSize * 8 - curve.numNBits) native).1
    .ok (if vliCmpUnsafe curve.n native ≠ 1 then (vliSub native curve.n).1 else native)

/-- The number by which `ecdsa_sign_with_k` multiplies before it inverts. -/
def signBlinding (rng : Option Rng) (call : Nat) (curve : EcdsaCurve) :
    Run (Option (Vli 64) × Nat) :=
  match rng with
  | none => .ok (some ((vliClear (bitsToWords curve.numNBits)).set 0 1#64), call)
  | some rng => ecdsaGenerateRandomInt (some rng) curve.n call

/-- `s` of `ecdsa_sign_with_k`. -/
def signatureScalar (privateKey messageHash : List UInt8) (hashSize : Nat) (k tmp r : Vli 64)
    (curve : EcdsaCurve) : Run (Vli 64) := do
  let k ← vliModMult k tmp curve.n
  let k ← vliModInv k curve.n
  let k ← vliModMult k tmp curve.n
  let tmp ← vliBytesToNative privateKey (bitsToBytes curve.numNBits)
  let s ← vliModMult tmp r curve.n
  let tmp ← bits2int messageHash hashSize curve
  let s := vliModAdd tmp s curve.n
  vliModMult s k curve.n

/-- `ecdsa_sign_with_k`: the signature, if it returns `1`. -/
def ecdsaSignWithK (privateKey messageHash : List UInt8) (hashSize : Nat) (k : Vli 64)
    (rng : Option Rng) (call : Nat) (curve : EcdsaCurve) : Run (Option (List UInt8) × Nat) :=
  if vliIsZero k then .ok (none, call)
  else do
    let order ← vliCmp curve.n k
    if order ≠ 1 then .ok (none, call)
    else
      let regularized ← regularizeK k curve
      let p ← eccPointMult curve.G regularized.chosen none (curve.numNBits + 1) curve
      if vliIsZero p.1 then .ok (none, call)
      else
        let drawn ← signBlinding rng call curve
        match drawn with
        | (none, call) => .ok (none, call)
        | (some tmp, call) =>
            let s ← signatureScalar privateKey messageHash hashSize k tmp p.1 curve
            if vliNumBits s > curve.numBytes * 8 then .ok (none, call)
            else
              let first ← vliNativeToBytes curve.numBytes p.1
              let second ← vliNativeToBytes curve.numBytes s
              .ok (some (first ++ second), call)

/-- The loop of `ecdsa_sign`. -/
def ecdsaSignLoop (privateKey messageHash : List UInt8) (hashSize : Nat) (rng : Option Rng)
    (curve : EcdsaCurve) : (tries call : Nat) → Run (Option (List UInt8) × Nat)
  | 0, call => .ok (none, call)
  | tries + 1, call => do
      let drawn ← ecdsaGenerateRandomInt rng curve.n call
      match drawn with
      | (none, call) => .ok (none, call)
      | (some k, call) =>
          let signed ← ecdsaSignWithK privateKey messageHash hashSize k rng call curve
          if signed.1.isSome then .ok signed
          else ecdsaSignLoop privateKey messageHash hashSize rng curve tries signed.2

/-- `ecdsa_sign`. -/
def ecdsaSign (privateKey messageHash : List UInt8) (hashSize : Nat) (rng : Option Rng)
    (call : Nat) (curve : EcdsaCurve) : Run (Option (List UInt8) × Nat) :=
  ecdsaSignLoop privateKey messageHash hashSize rng curve ecdsaRngMaxTries call

/-! ## Numbers below the order -/

/-- What the random numbers and the nonces are: words of a number between zero and the order. -/
structure IsScalar (words : Vli 64) : Prop where
  length_eq : words.length = 4
  positive : 0 < Limbs.value words
  small : Limbs.value words < orderSecp256r1

theorem length_maskedRandom (fill : Nat → BitVec 64) (top : Vli 64) :
    (maskedRandom fill top).length = top.length := by
  rw [maskedRandom, List.length_set, List.length_map, List.length_range]

/-- `ecdsa_generate_random_int` returns a number between zero and `top`, if it returns one. -/
theorem ecdsaGenerateRandomInt_spec (rng : Option Rng) {top : Vli 64} (call : Nat)
    (room : top.length ≤ ecdsaMaxWords 64) :
    Returns (ecdsaGenerateRandomInt rng top call) fun drawn =>
      ∀ words, drawn.1 = some words → words.length = top.length ∧ 0 < Limbs.value words ∧
        Limbs.value words < Limbs.value top := by
  cases rng with
  | none => exact Returns.ok fun words none => by simp at none
  | some rng =>
      rw [ecdsaGenerateRandomInt]
      generalize ecdsaRngMaxTries = tries
      induction tries generalizing call with
      | zero => exact Returns.ok fun words none => by simp at none
      | succ tries ih =>
          rw [generateRandomIntLoop]
          split
          · exact Returns.ok fun words none => by simp at none
          · rename_i fill _
            have length_eq := length_maskedRandom fill top
            dsimp only
            by_cases zero : vliIsZero (maskedRandom fill top) = true
            · rw [if_pos zero]
              exact ih (call + 1)
            · rw [if_neg zero, vliCmp_eq_vliCmpUnsafe length_eq.symm room, Run.ok_bind]
              by_cases below : vliCmpUnsafe top (maskedRandom fill top) = 1
              · rw [if_pos below]
                refine Returns.ok fun words drawn => ?_
                obtain rfl := Option.some.inj drawn
                rw [Bool.not_eq_true, vliIsZero_eq_false_iff] at zero
                rw [vliCmpUnsafe_eq_one_iff length_eq.symm] at below
                exact ⟨length_eq, zero, below⟩
              · rw [if_neg below]
                exact ih (call + 1)

theorem ecdsaGenerateRandomInt_n (rng : Option Rng) (call : Nat) :
    Returns (ecdsaGenerateRandomInt rng curveSecp256r1.n call) fun drawn =>
      ∀ words, drawn.1 = some words → IsScalar words := by
  refine (ecdsaGenerateRandomInt_spec rng call (by decide)).mono ?_
  intro drawn bounds words some_eq
  obtain ⟨length_eq, positive, small⟩ := bounds words some_eq
  exact ⟨length_eq, positive, value_curveSecp256r1_n ▸ small⟩

instance fact_prime_orderSecp256r1 : Fact (Nat.Prime orderSecp256r1) := ⟨prime_orderSecp256r1⟩

/-- The field of the scalars. -/
abbrev Scalar := ZMod orderSecp256r1

/-- Reduced words that stand for a scalar. -/
structure RepresentsScalar (words : Vli 64) (a : Scalar) : Prop where
  length_eq : words.length = 4
  small : Limbs.value words < orderSecp256r1
  cast_eq : (Limbs.value words : Scalar) = a

namespace RepresentsScalar

variable {words : Vli 64} {a : Scalar}

theorem val_eq (represents : RepresentsScalar words a) : Limbs.value words = a.val := by
  rw [← represents.cast_eq, ZMod.val_natCast, Nat.mod_eq_of_lt represents.small]

theorem value_eq_zero_iff (represents : RepresentsScalar words a) :
    Limbs.value words = 0 ↔ a = 0 := by
  rw [represents.val_eq, ZMod.val_eq_zero]

end RepresentsScalar

theorem IsScalar.represents {words : Vli 64} (isScalar : IsScalar words) :
    RepresentsScalar words (Limbs.value words : Nat) := ⟨isScalar.length_eq, isScalar.small, rfl⟩

theorem IsScalar.cast_ne_zero {words : Vli 64} (isScalar : IsScalar words) :
    (Limbs.value words : Scalar) ≠ 0 :=
  isScalar.represents.value_eq_zero_iff.not.mp isScalar.positive.ne'

theorem vliModMult_n {left right : Vli 64} (leftLength : left.length = 4)
    (rightLength : right.length = 4) :
    Returns (vliModMult left right curveSecp256r1.n) fun product =>
      RepresentsScalar product ((Limbs.value left : Scalar) * (Limbs.value right : Scalar)) := by
  refine (@vliModMult_spec 64 curveSecp256r1.n (by decide) (by decide) (by decide) left right
    (by decide) leftLength rightLength).mono fun product product_eq => ?_
  obtain ⟨length_eq, value_eq⟩ := product_eq
  rw [value_curveSecp256r1_n] at value_eq
  refine ⟨length_eq, ?_, ?_⟩
  · rw [value_eq]
    exact Nat.mod_lt _ prime_orderSecp256r1.pos
  · rw [value_eq, ZMod.natCast_mod, Nat.cast_mul]

theorem vliModInv_n {words : Vli 64} {a : Scalar} (represents : RepresentsScalar words a) :
    Returns (vliModInv words curveSecp256r1.n) fun inverse => RepresentsScalar inverse a⁻¹ := by
  have order := value_curveSecp256r1_n
  by_cases zero : a = 0
  · rw [vliModInv_zero _ (represents.value_eq_zero_iff.mpr zero), zero, inv_zero]
    exact Returns.ok ⟨rfl, by decide, by decide⟩
  · have nonzero := Nat.pos_of_ne_zero (represents.value_eq_zero_iff.not.mpr zero)
    obtain ⟨inverse, returned, length_eq, small, product⟩ :=
      @vliModInv_spec 64 (by decide) words curveSecp256r1.n (by decide) (by decide) (by decide)
        represents.length_eq nonzero
    have coprime : Nat.gcd (Limbs.value words) orderSecp256r1 = 1 :=
      (Nat.coprime_of_lt_prime nonzero.ne' represents.small prime_orderSecp256r1).symm
    rw [order] at small product
    refine ⟨inverse, returned, length_eq, small, ?_⟩
    rw [coprime, ← ZMod.natCast_eq_natCast_iff, Nat.cast_mul, represents.cast_eq,
      Nat.cast_one] at product
    exact eq_inv_of_mul_eq_one_left product

theorem vliModAdd_n {left right : Vli 64} {a : Scalar} (leftLength : left.length = 4)
    (represents : RepresentsScalar right a) :
    (vliModAdd left right curveSecp256r1.n).length = 4 ∧
      (Limbs.value (vliModAdd left right curveSecp256r1.n) : Scalar) = Limbs.value left + a := by
  have lengths : left.length = curveSecp256r1.n.length := leftLength
  have small : Limbs.value right < Limbs.value curveSecp256r1.n :=
    value_curveSecp256r1_n ▸ represents.small
  refine ⟨length_vliModAdd lengths represents.length_eq, ?_⟩
  have order := value_curveSecp256r1_n
  rcases vliModAdd_cases lengths represents.length_eq small with ⟨_, sum⟩ | ⟨above, sum⟩
  · rw [sum, Nat.cast_add, represents.cast_eq]
  · rw [sum, Nat.cast_sub above, Nat.cast_add, represents.cast_eq, order, ZMod.natCast_self,
      sub_zero]

/-! ## The signature -/

/-- The number that a hash stands for: its first bytes, as many as the order has. -/
def hashValue (messageHash : List UInt8) (hashSize : Nat) : Nat :=
  bytesValue (messageHash.take (min hashSize 32))

/-- For this curve `bits2int` reads the bytes and does nothing else. -/
theorem bits2int_spec {messageHash : List UInt8} {hashSize : Nat}
    (available : hashSize ≤ messageHash.length) :
    Returns (bits2int messageHash hashSize curveSecp256r1) fun native =>
      native.length = 4 ∧ Limbs.value native = hashValue messageHash hashSize := by
  have size : (if hashSize > 32 then 32 else hashSize) = min hashSize 32 := by
    split <;> omega
  have read := (min_le_left hashSize 32).trans available
  obtain ⟨length_eq, value_eq⟩ := bytesNative_spec read
  unfold bits2int
  rw [show bitsToBytes curveSecp256r1.numNBits = 32 from rfl,
    show bitsToWords curveSecp256r1.numNBits = 4 from rfl,
    show curveSecp256r1.numNBits = 256 from rfl]
  dsimp only
  rw [size, vliBytesToNative_eq (by omega) read, Run.ok_bind, if_pos (by omega)]
  refine Returns.ok ⟨?_, ?_⟩
  · rw [List.length_append, length_vliClear, length_eq]
    omega
  · rw [Limbs.value_append, value_vliClear, mul_zero, add_zero, value_eq]
    rfl

/-- The blinding cancels: what is multiplied by the nonce is the hash plus the private key times
`r`. -/
theorem signatureScalar_spec {privateKey messageHash : List UInt8} {hashSize : Nat}
    {k tmp r : Vli 64} (keyLength : privateKey.length = 32)
    (available : hashSize ≤ messageHash.length) (nonce : IsScalar k) (blinding : IsScalar tmp)
    (length_r : r.length = 4) :
    Returns (signatureScalar privateKey messageHash hashSize k tmp r curveSecp256r1) fun s =>
      RepresentsScalar s
        ((hashValue messageHash hashSize + bytesValue privateKey * Limbs.value r : Nat) /
          (Limbs.value k : Scalar)) := by
  obtain ⟨keyWords, key_eq⟩ := @bytesNative_spec privateKey 32 keyLength.ge
  rw [List.take_of_length_le keyLength.le] at key_eq
  have size : bitsToBytes curveSecp256r1.numNBits = 32 := rfl
  unfold signatureScalar
  refine (vliModMult_n nonce.length_eq blinding.length_eq).bind fun blinded blinded_eq => ?_
  refine (vliModInv_n blinded_eq).bind fun inverse inverse_eq => ?_
  refine (vliModMult_n inverse_eq.length_eq blinding.length_eq).bind ?_
  intro unblinded unblinded_eq
  rw [size, vliBytesToNative_eq (by decide) keyLength.ge, Run.ok_bind]
  refine (vliModMult_n keyWords length_r).bind fun product product_eq => ?_
  refine (bits2int_spec available).bind fun hash hash_spec => ?_
  obtain ⟨hashWords, hash_eq⟩ := hash_spec
  obtain ⟨sumLength, sum⟩ := vliModAdd_n hashWords product_eq
  refine (vliModMult_n sumLength unblinded_eq.length_eq).mono fun s s_eq => ?_
  refine ⟨s_eq.length_eq, s_eq.small, s_eq.cast_eq.trans ?_⟩
  have nonzero := blinding.cast_ne_zero
  have nonceNonzero := nonce.cast_ne_zero
  rw [sum, unblinded_eq.cast_eq, inverse_eq.cast_eq, key_eq, hash_eq, Nat.cast_add, Nat.cast_mul]
  field_simp

/-- The equations of a signature `r`, `s` of the number `e` by the key `d` with the nonce `k`. -/
structure Signature (d e k r s : Nat) : Prop where
  r_pos : 0 < r
  nonce : ∃ x y, ∃ nonsingular : secp256r1.Nonsingular x y,
    k • basePoint = .some x y nonsingular ∧ x.val = r
  s_small : s < orderSecp256r1
  s_eq : (s : Scalar) = (e + d * r : Nat) / (k : Scalar)

/-- `r` of the bytes of a signature. -/
def signatureR (signature : List UInt8) : Nat := bytesValue (signature.take 32)

/-- `s` of the bytes of a signature. -/
def signatureS (signature : List UInt8) : Nat := bytesValue ((signature.drop 32).take 32)

theorem signBlinding_n (rng : Option Rng) (call : Nat) :
    Returns (signBlinding rng call curveSecp256r1) fun drawn =>
      ∀ words, drawn.1 = some words → IsScalar words := by
  cases rng with
  | none =>
      refine Returns.ok fun words drawn => ?_
      obtain rfl := Option.some.inj drawn
      exact ⟨rfl, by decide, by decide⟩
  | some rng => exact ecdsaGenerateRandomInt_n (some rng) call

/-- The halves of a signature. -/
theorem signature_halves {r s : Vli 64} (length_r : r.length = 4) (length_s : s.length = 4) :
    (nativeBytes 32 r ++ nativeBytes 32 s).length = 64 ∧
      signatureR (nativeBytes 32 r ++ nativeBytes 32 s) = Limbs.value r ∧
      signatureS (nativeBytes 32 r ++ nativeBytes 32 s) = Limbs.value s := by
  have lengthR : (nativeBytes 32 r).length = 32 := length_nativeBytes _ _
  have lengthS : (nativeBytes 32 s).length = 32 := length_nativeBytes _ _
  have boundR := Limbs.value_lt r
  have boundS := Limbs.value_lt s
  rw [length_r] at boundR
  rw [length_s] at boundS
  refine ⟨by rw [List.length_append, lengthR, lengthS], ?_, ?_⟩
  · rw [signatureR, List.take_left' lengthR, bytesValue_nativeBytes, Nat.mod_eq_of_lt boundR]
  · rw [signatureS, List.drop_left' lengthR, List.take_of_length_le lengthS.le,
      bytesValue_nativeBytes, Nat.mod_eq_of_lt boundS]

/-- Every scalar fits the bytes it is written to. -/
theorem signature_written {r s : Vli 64} (length_r : r.length = 4) (length_s : s.length = 4)
    {call : Nat} :
    (if vliNumBits s > curveSecp256r1.numBytes * 8 then .ok (none, call)
      else do
        let first ← vliNativeToBytes curveSecp256r1.numBytes r
        let second ← vliNativeToBytes curveSecp256r1.numBytes s
        .ok (some (first ++ second), call) : Run (Option (List UInt8) × Nat)) =
      .ok (some (nativeBytes 32 r ++ nativeBytes 32 s), call) := by
  have size : curveSecp256r1.numBytes = 32 := rfl
  have fits : ¬ vliNumBits s > 32 * 8 := by
    have bound := Limbs.value_lt s
    rw [length_s] at bound
    rw [vliNumBits_eq, not_lt, Nat.size_le]
    exact bound
  rw [size, if_neg fits, vliNativeToBytes_eq (by decide) (by rw [length_r]),
    vliNativeToBytes_eq (by decide) (by rw [length_s]), Run.ok_bind, Run.ok_bind]

/-- What `ecdsa_sign_with_k` does with a nonce: it refuses the ones out of range, the ones that the
ladder loses and those whose point has the abscissa zero, and signs with all others. -/
theorem ecdsaSignWithK_spec {privateKey messageHash : List UInt8} {hashSize call : Nat}
    {k : Vli 64} {rng : Option Rng} (keyLength : privateKey.length = 32)
    (available : hashSize ≤ messageHash.length) (length_k : k.length = 4) :
    Returns (ecdsaSignWithK privateKey messageHash hashSize k rng call curveSecp256r1) fun signed =>
      (signed.1 = none ∧ (¬ UsableKey (Limbs.value k) ∨
          (∃ y, ∃ nonsingular : secp256r1.Nonsingular 0 y,
            Limbs.value k • basePoint = .some 0 y nonsingular) ∨
          ∃ next, signBlinding rng call curveSecp256r1 = .ok (none, next))) ∨
        (UsableKey (Limbs.value k) ∧ ∃ signature, signed.1 = some signature ∧
          signature.length = 64 ∧
          Signature (bytesValue privateKey) (hashValue messageHash hashSize) (Limbs.value k)
            (signatureR signature) (signatureS signature)) := by
  obtain ⟨compared, below⟩ := vliCmp_n length_k
  unfold ecdsaSignWithK
  by_cases none : vliIsZero k = true
  · rw [if_pos none]
    refine Returns.ok (.inl ⟨rfl, .inl ?_⟩)
    rintro ⟨positive, _⟩
    exact positive.ne' (vliIsZero_eq_true_iff.mp none)
  rw [if_neg none, compared, Run.ok_bind]
  by_cases large : vliCmpUnsafe curveSecp256r1.n k ≠ 1
  · rw [if_pos large]
    refine Returns.ok (.inl ⟨rfl, .inl ?_⟩)
    rintro ⟨_, small, _⟩
    exact large (below.mpr small)
  rw [if_neg large]
  have positive := Nat.pos_of_ne_zero (vliIsZero_eq_true_iff.not.mp none)
  have small := below.mp (not_not.mp large)
  refine (regularizeK_spec length_k small).bind fun regularized regular => ?_
  refine (eccPointMult_base regular positive small).bind fun p ends => ?_
  rcases ends with ⟨keeps, isPoint⟩ | ⟨loses, zeros⟩
  · obtain ⟨x, y, nonsingular, point_eq, represents⟩ := isPoint
    have abscissa : vliIsZero p.1 = true ↔ x = 0 := by
      rw [vliIsZero_eq_true_iff, represents.fst.value_eq_zero_iff]
    by_cases zero : vliIsZero p.1 = true
    · rw [if_pos zero]
      obtain rfl := abscissa.mp zero
      exact Returns.ok (.inl ⟨rfl, .inr (.inl ⟨y, nonsingular, point_eq⟩)⟩)
    rw [if_neg zero]
    obtain ⟨⟨blinding, next⟩, drawn, isScalar⟩ := signBlinding_n rng call
    rw [drawn, Run.ok_bind]
    cases blinding with
    | none => exact Returns.ok (.inl ⟨rfl, .inr (.inr ⟨next, rfl⟩)⟩)
    | some tmp =>
        refine (signatureScalar_spec keyLength available ⟨length_k, positive, small⟩
          (isScalar tmp rfl) represents.fst.length_eq).bind fun s s_eq => ?_
        have length_p : p.1.length = 4 := represents.fst.length_eq
        rw [signature_written length_p s_eq.length_eq]
        obtain ⟨length_eq, r_eq, scalar_eq⟩ := signature_halves length_p s_eq.length_eq
        refine Returns.ok (.inr ⟨⟨positive, small, keeps⟩, _, rfl, length_eq, ?_⟩)
        rw [r_eq, scalar_eq]
        refine ⟨Nat.pos_of_ne_zero (vliIsZero_eq_true_iff.not.mp zero), ?_, s_eq.small,
          s_eq.cast_eq⟩
        exact ⟨x, y, nonsingular, point_eq, represents.fst.val_eq.symm⟩
  · rw [if_pos (by rw [zeros]; rfl)]
    exact Returns.ok (.inl ⟨rfl, .inl fun usable => usable.2.2 loses⟩)

/-! ## Blinding -/

theorem Signature.unique {d e k r s r' s' : Nat} (first : Signature d e k r s)
    (second : Signature d e k r' s') : r = r' ∧ s = s' := by
  obtain ⟨x, y, nonsingular, point_eq, rfl⟩ := first.nonce
  obtain ⟨x', y', _, point_eq', rfl⟩ := second.nonce
  rw [point_eq] at point_eq'
  obtain ⟨rfl, _⟩ := WeierstrassCurve.Affine.Point.some.inj point_eq'
  refine ⟨rfl, ?_⟩
  have same := first.s_eq.trans second.s_eq.symm
  rw [ZMod.natCast_eq_natCast_iff] at same
  exact same.eq_of_lt_of_lt first.s_small second.s_small

theorem eq_of_signature_halves {left right : List UInt8} (leftLength : left.length = 64)
    (rightLength : right.length = 64) (first : signatureR left = signatureR right)
    (second : signatureS left = signatureS right) : left = right := by
  have front : left.take 32 = right.take 32 := by
    apply eq_of_bytesValue_eq _ first
    rw [List.length_take, List.length_take, leftLength, rightLength]
  have back : (left.drop 32).take 32 = (right.drop 32).take 32 := by
    apply eq_of_bytesValue_eq _ second
    rw [List.length_take, List.length_take, List.length_drop, List.length_drop, leftLength,
      rightLength]
  rw [List.take_of_length_le (by rw [List.length_drop, leftLength]),
    List.take_of_length_le (by rw [List.length_drop, rightLength])] at back
  rw [← List.take_append_drop 32 left, front, back, List.take_append_drop]

/-- A signature has a nonce whose point does not have the abscissa zero. -/
theorem Signature.abscissa_ne_zero {d e k r s : Nat} (signature : Signature d e k r s) :
    ¬ ∃ y, ∃ nonsingular : secp256r1.Nonsingular 0 y, k • basePoint = .some 0 y nonsingular := by
  rintro ⟨y, nonsingular, zero⟩
  obtain ⟨x, _, _, point_eq, abscissa⟩ := signature.nonce
  rw [zero] at point_eq
  obtain ⟨rfl, _⟩ := WeierstrassCurve.Affine.Point.some.inj point_eq
  rw [ZMod.val_zero] at abscissa
  exact signature.r_pos.ne abscissa

/-- What comes of signing the number `e` with the nonce `k`: nothing for the nonces that are
refused, else the bytes of a signature. -/
structure SignsWith (d e k : Nat) (signature : Option (List UInt8)) : Prop where
  refused : signature = none ↔ ¬ UsableKey k ∨
    ∃ y, ∃ nonsingular : secp256r1.Nonsingular 0 y, k • basePoint = .some 0 y nonsingular
  signed : ∀ bytes, signature = some bytes → bytes.length = 64 ∧
    Signature d e k (signatureR bytes) (signatureS bytes)

theorem SignsWith.unique {d e k : Nat} {left right : Option (List UInt8)}
    (signs : SignsWith d e k left) (signsToo : SignsWith d e k right) : left = right := by
  cases left with
  | none => exact (signsToo.refused.mpr (signs.refused.mp rfl)).symm
  | some bytes =>
      cases right with
      | none => exact signs.refused.mpr (signsToo.refused.mp rfl)
      | some other =>
          obtain ⟨length_eq, equations⟩ := signs.signed bytes rfl
          obtain ⟨otherLength, otherEquations⟩ := signsToo.signed other rfl
          obtain ⟨r_eq, s_eq⟩ := equations.unique otherEquations
          rw [eq_of_signature_halves length_eq otherLength r_eq s_eq]

/-- With a random number to hide the nonce, or without a random number function. -/
theorem exists_ecdsaSignWithK {privateKey messageHash : List UInt8} {hashSize call : Nat}
    {k : Vli 64} {rng : Option Rng} (keyLength : privateKey.length = 32)
    (available : hashSize ≤ messageHash.length) (length_k : k.length = 4)
    (drawn : ∃ words next, signBlinding rng call curveSecp256r1 = .ok (some words, next)) :
    ∃ signature next, ecdsaSignWithK privateKey messageHash hashSize k rng call curveSecp256r1 =
        .ok (signature, next) ∧
      SignsWith (bytesValue privateKey) (hashValue messageHash hashSize) (Limbs.value k)
        signature := by
  obtain ⟨⟨signature, next⟩, returned, ends⟩ :=
    @ecdsaSignWithK_spec privateKey messageHash hashSize call k rng keyLength available length_k
  have hides : ¬ ∃ next, signBlinding rng call curveSecp256r1 = .ok (none, next) := by
    obtain ⟨words, last, drawn⟩ := drawn
    simp [drawn]
  refine ⟨signature, next, returned, ?_⟩
  rcases ends with ⟨rfl, grounds⟩ | ⟨usable, bytes, rfl, length_eq, equations⟩
  · refine ⟨iff_of_true rfl (grounds.imp_right fun right => right.resolve_right hides), ?_⟩
    simp
  · refine ⟨iff_of_false (Option.some_ne_none bytes) ?_, ?_⟩
    · rintro (unusable | zero)
      · exact unusable usable
      · exact equations.abscissa_ne_zero zero
    · rintro other same
      obtain rfl := Option.some.inj same
      exact ⟨length_eq, equations⟩

/-- The random number by which `ecdsa_sign_with_k` hides the nonce leaves the signature as it is.
The nonces that it refuses are those out of range, those that the ladder loses and those whose point
has the abscissa zero. -/
theorem ecdsaSignWithK_blinding {privateKey messageHash : List UInt8} {hashSize call : Nat}
    {k : Vli 64} {rng : Option Rng} (keyLength : privateKey.length = 32)
    (available : hashSize ≤ messageHash.length) (length_k : k.length = 4)
    (drawn : ∃ words next, signBlinding rng call curveSecp256r1 = .ok (some words, next)) :
    ∃ signature, (∃ next, ecdsaSignWithK privateKey messageHash hashSize k rng call
          curveSecp256r1 = .ok (signature, next)) ∧
      (∃ next, ecdsaSignWithK privateKey messageHash hashSize k none call
          curveSecp256r1 = .ok (signature, next)) ∧
      (signature = none ↔ ¬ UsableKey (Limbs.value k) ∨
        ∃ y, ∃ nonsingular : secp256r1.Nonsingular 0 y,
          Limbs.value k • basePoint = .some 0 y nonsingular) ∧
      ∀ bytes, signature = some bytes → bytes.length = 64 ∧
        Signature (bytesValue privateKey) (hashValue messageHash hashSize) (Limbs.value k)
          (signatureR bytes) (signatureS bytes) := by
  obtain ⟨signature, next, returned, signs⟩ :=
    exists_ecdsaSignWithK keyLength available length_k drawn
  obtain ⟨plain, plainNext, plainReturned, plainSigns⟩ :=
    @exists_ecdsaSignWithK privateKey messageHash hashSize call k none keyLength available length_k
      ⟨_, _, rfl⟩
  obtain rfl := signs.unique plainSigns
  exact ⟨signature, ⟨next, returned⟩, ⟨plainNext, plainReturned⟩, signs.refused, signs.signed⟩

/-- A random number function that fills in the words of two each time. -/
def constantRng : Rng := fun _ => some fun i => if i = 0 then 2#64 else 0#64

theorem ecdsaSignWithK_blinding_of_two :
    ∃ signature, (∃ next, ecdsaSignWithK (List.replicate 32 0) [1] 1 [2#64, 0#64, 0#64, 0#64]
          (some constantRng) 0 curveSecp256r1 = .ok (signature, next)) ∧
      ∃ next, ecdsaSignWithK (List.replicate 32 0) [1] 1 [2#64, 0#64, 0#64, 0#64] none 0
          curveSecp256r1 = .ok (signature, next) := by
  have drawn : signBlinding (some constantRng) 0 curveSecp256r1 =
      .ok (some [2#64, 0#64, 0#64, 0#64], 1) := by
    rfl
  obtain ⟨signature, hidden, plain, _⟩ :=
    @ecdsaSignWithK_blinding (List.replicate 32 0) [1] 1 0 [2#64, 0#64, 0#64, 0#64]
      (some constantRng) rfl le_rfl rfl ⟨_, _, drawn⟩
  exact ⟨signature, hidden, plain⟩

end Freecoin
