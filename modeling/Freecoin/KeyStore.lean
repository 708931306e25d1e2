import Freecoin.BlockStore
import Freecoin.Sha256Blocks
import Freecoin.SharedSecrets
import Freecoin.SignedInputs

/-!
# Keys and addresses

`crypt_keygen` keeps a key pair in a directory named by the address of its public key.  An address
belongs to one key pair, up to a collision of the digests behind it, so keys are never lost however
their generation is mixed with saving blocks, and whoever signs for an input with an address has the
key of the address.
-/

namespace Freecoin

open Foundation

/-! ## Addresses -/

/-- `crypt_addr`, on the bytes behind a pointer. -/
def keyAddress (pub : List UInt8) : Digest := sha256 (sha256 (pub.take sizeEcdsaPublic)).toList

theorem cryptAddr_eq_keyAddress (pub : Bytes 128) :
    cryptAddr sha256 pub = keyAddress pub.toList := rfl

/-- One of the digests behind two addresses collides. -/
def AddressesCollide (left right : List UInt8) : Prop :=
  Sha256Collides (left.take 64) (right.take 64) ∨
    Sha256Collides (sha256 (left.take 64)).toList (sha256 (right.take 64)).toList

theorem eq_or_addressesCollide {left right : List UInt8}
    (same : keyAddress left = keyAddress right) :
    left.take 64 = right.take 64 ∨ AddressesCollide left right := by
  have short : ∀ bytes : List UInt8, (bytes.take 64).length < 2 ^ 61 := by
    intro bytes
    rw [List.length_take]
    omega
  have digestShort : ∀ digest : Digest, digest.toList.length < 2 ^ 61 := by
    intro digest
    rw [digest.toList_length]
    decide
  rcases eq_or_sha256Collides (digestShort _) (digestShort _) same with digests | collides
  · rcases eq_or_sha256Collides (short left) (short right) (List.Vector.eq _ _ digests) with
      bytes | collides
    · exact .inl bytes
    · exact .inr (.inl collides)
  · exact .inr (.inr collides)

/-! ## Keys -/

/-- Words hold one point. -/
theorem IsPoint.point_unique {words : EccPoint} {P Q : secp256r1.Point} (first : IsPoint words P)
    (second : IsPoint words Q) : P = Q := by
  obtain ⟨x, y, nonsingular, rfl, represents⟩ := first
  obtain ⟨x', y', nonsingular', rfl, represents'⟩ := second
  have abscissas : x = x' := represents.fst.cast_eq.symm.trans represents'.fst.cast_eq
  have ordinates : y = y' := represents.snd.cast_eq.symm.trans represents'.snd.cast_eq
  subst abscissas ordinates
  rfl

namespace KeyPair.Matches

variable {keys other : KeyPair} (matching : keys.Matches)

include matching

/-- A public key has one private key. -/
theorem eq_of_publicKey (otherMatching : other.Matches)
    (same : keys.publicKey = other.publicKey) : keys = other := by
  have points := matching.isPoint
  rw [same] at points
  have multiples := points.point_unique otherMatching.isPoint
  rw [nsmul_eq_nsmul_iff_modEq, addOrderOf_basePoint] at multiples
  have values := multiples.eq_of_lt_of_lt matching.usable.2.1 otherMatching.usable.2.1
  have privates := eq_of_bytesValue_eq
    (matching.privateLength.trans otherMatching.privateLength.symm) values
  obtain ⟨publicKey, privateKey⟩ := keys
  obtain ⟨otherPublic, otherPrivate⟩ := other
  obtain rfl := same
  obtain rfl := privates
  rfl

theorem take_publicKey : keys.publicKey.take 64 = keys.publicKey :=
  List.take_of_length_le matching.publicLength.le

/-- An address belongs to one key pair. -/
theorem eq_or_addressesCollide (otherMatching : other.Matches)
    (same : keyAddress keys.publicKey = keyAddress other.publicKey) :
    keys = other ∨ keys ≠ other ∧ AddressesCollide keys.publicKey other.publicKey := by
  by_cases equal : keys = other
  · exact .inl equal
  · refine .inr ⟨equal, ?_⟩
    rcases Freecoin.eq_or_addressesCollide same with bytes | collide
    · rw [matching.take_publicKey, otherMatching.take_publicKey] at bytes
      exact absurd (matching.eq_of_publicKey otherMatching bytes) equal
    · exact collide

end KeyPair.Matches

/-! ## Spending from an address -/

/-- An accepted transaction is signed, at every input whose key has the address of some keys, by
these keys, or the digests behind the address collide. -/
theorem addressedInput_signedBy {primitives : Primitives}
    (library : primitives.ecdsaVerify = inputVerdict) {tx : Tx} {first : TxInput}
    {rest : List TxInput} (counted : tx.Counted) (ins_eq : tx.ins = first :: rest)
    {signable : Nat → Nat → UInt8} (accepted : validateTxPseudo primitives signable tx = .ok 0)
    {keys : KeyPair} (matching : keys.Matches) {input : TxInput} (member : input ∈ tx.ins)
    (addressed : cryptAddr sha256 input.pubkey = keyAddress keys.publicKey) :
    input.SignedBy first.message (bytesValue keys.privateKey • basePoint) ∨
      AddressesCollide input.pubkey.toList keys.publicKey := by
  rw [cryptAddr_eq_keyAddress] at addressed
  rcases eq_or_addressesCollide addressed with bytes | collide
  · left
    rw [matching.take_publicKey] at bytes
    have long : 64 ≤ input.pubkey.toList.length := by
      rw [List.Vector.toList_length]
      decide
    have words : publicKeyPoint input.pubkey.toList curveSecp256r1 =
        publicKeyPoint keys.publicKey curveSecp256r1 := by
      rw [← publicKeyPoint_take long, bytes]
    obtain ⟨apart, opposite⟩ := matching.usable.apart
    have isPoint := matching.isPoint
    rw [← words] at isPoint
    have key : input.HasKey (bytesValue keys.privateKey • basePoint) := ⟨isPoint, apart, opposite⟩
    rw [validateTxPseudo_eq_zero_iff counted ins_eq, library] at accepted
    exact (inputVerdict_eq_true_iff key first.message).mp (accepted.2 input member)
  · exact .inr collide

theorem addressedInput_signedBy_tripleSpend :
    tripleInput.SignedBy tripleInput.message (bytesValue keysOfTwo.privateKey • basePoint) ∨
      AddressesCollide tripleInput.pubkey.toList keysOfTwo.publicKey := by
  obtain ⟨Q, key, signed⟩ := exists_signedBy_tripleInput
  have member : tripleInput ∈ tripleSpend.ins := by
    rw [tripleSpend_ins]
    exact List.mem_singleton_self _
  have accepted : validateTxPseudo libraryPrimitives (fun _ _ => 0) tripleSpend = .ok 0 := by
    rw [validateTxPseudo_eq_zero_iff tripleSpend_counted tripleSpend_ins,
      ecdsaVerify_libraryPrimitives]
    refine ⟨fun poor => tripleSpend_small poor.1, fun input within => ?_⟩
    rw [tripleSpend_ins] at within
    rw [List.mem_singleton.mp within]
    exact (inputVerdict_eq_true_iff key tripleInput.message).mpr signed
  have bytes : tripleInput.pubkey.toList.take sizeEcdsaPublic =
      keysOfTwo.publicKey.take sizeEcdsaPublic := rfl
  have addressed : cryptAddr sha256 tripleInput.pubkey = keyAddress keysOfTwo.publicKey := by
    rw [cryptAddr, bytes, keyAddress]
  exact addressedInput_signedBy ecdsaVerify_libraryPrimitives tripleSpend_counted tripleSpend_ins
    accepted matches_keysOfTwo member addressed

/-! ## Key files -/

/-- `DIR_KEYS`. -/
def dirKeys (home : Home) : List Char := rootFreecoin home ++ "/keys/".toList

/-- `addr_dir`: the address in hexadecimal, below the directory of the keys. -/
def addrDir (home : Home) (addr : Digest) : List Char :=
  dirKeys home ++ "/".toList ++ blockFileName addr ++ "/".toList

def privateFileName (home : Home) (addr : Digest) : List Char :=
  addrDir home addr ++ "/private".toList

def publicFileName (home : Home) (addr : Digest) : List Char :=
  addrDir home addr ++ "/public".toList

/-- The paths of a key fit the buffer of `m_strconcat`. -/
theorem mStrconcat_addrDir (home : Home) (addr : Digest) :
    mStrconcat [dirKeys home, "/".toList, blockFileName addr, "/".toList] =
        .ok (addrDir home addr) ∧
      mStrconcat [addrDir home addr, "/private".toList] = .ok (privateFileName home addr) ∧
      mStrconcat [addrDir home addr, "/public".toList] = .ok (publicFileName home addr) := by
  have short := home.short
  have name := length_blockFileName addr
  have dirLength : (addrDir home addr).length = home.path.length + 83 := by
    simp only [addrDir, dirKeys, rootFreecoin, List.length_append, name, String.length_toList]
    have lengths : "/.freecoin/".length = 11 ∧ "/keys/".length = 6 ∧ "/".length = 1 := by decide
    omega
  refine ⟨(if_pos ?_).trans ?_, (if_pos ?_).trans ?_, (if_pos ?_).trans ?_⟩
  · have parts : [dirKeys home, "/".toList, blockFileName addr, "/".toList].flatten =
        addrDir home addr := by
      simp [addrDir]
    rw [parts, dirLength]
    omega
  · simp [addrDir]
  · simp only [List.flatten_cons, List.flatten_nil, List.append_nil, List.length_append, dirLength,
      String.length_toList]
    have length_eq : "/private".length = 8 := by decide
    omega
  · simp [privateFileName]
  · simp only [List.flatten_cons, List.flatten_nil, List.append_nil, List.length_append, dirLength,
      String.length_toList]
    have length_eq : "/public".length = 7 := by decide
    omega
  · simp [publicFileName]

theorem addrDir_injective (home : Home) : Function.Injective (addrDir home) := by
  intro addr other same
  simp only [addrDir, List.append_assoc] at same
  have names := List.append_cancel_left (List.append_cancel_left same)
  exact blockFileName_injective (List.append_cancel_right names)

theorem privateFileName_injective (home : Home) :
    Function.Injective (privateFileName home) := by
  intro addr other same
  exact addrDir_injective home (List.append_cancel_right same)

theorem publicFileName_injective (home : Home) : Function.Injective (publicFileName home) := by
  intro addr other same
  exact addrDir_injective home (List.append_cancel_right same)

theorem privateFileName_ne (home : Home) (addr other : Digest) :
    privateFileName home addr ≠ publicFileName home other := by
  intro same
  have lasts := congrArg List.getLast? same
  simp [privateFileName, publicFileName] at lasts

/-- No key file is a block file or an index file. -/
theorem addrDir_append_ne (home : Home) (addr : Digest) (tail : List Char) (name : FileName) :
    addrDir home addr ++ tail ≠ pathIn (dirBlocks home) name ∧
      addrDir home addr ++ tail ≠ pathIn (dirTxindex home) name := by
  constructor
  · intro same
    simp only [addrDir, dirKeys, pathIn, dirBlocks, List.append_assoc] at same
    have tails := List.append_cancel_left same
    simp at tails
  · intro same
    simp only [addrDir, dirKeys, pathIn, dirTxindex, List.append_assoc] at same
    have tails := List.append_cancel_left same
    simp at tails

/-! ## Generating keys -/

/-- Length of a private key as `secrets.h` has it. -/
def sizeEcdsaPrivate : Nat := 32

/-- The calls of `fatal` behind `crypt_keygen`. -/
inductive KeygenFatal
  | makeKeyFailed
  | existingKey
  deriving DecidableEq

/-- `io_store_key`: the files, unless it ends fatally.  It looks for `/some/directory` to find out
whether the key exists. -/
def ioStoreKey (home : Home) (someDirectory : Bool) (pub priv : List UInt8) (files : Files) :
    Run (Except KeygenFatal Files) := do
  let addrHexascii := blockFileName (keyAddress pub)
  let addrDir ← mStrconcat [dirKeys home, "/".toList, addrHexascii, "/".toList]
  let privateFileName ← mStrconcat [addrDir, "/private".toList]
  let publicFileName ← mStrconcat [addrDir, "/public".toList]
  if someDirectory then return .error .existingKey
  else do
    let files := Function.update files privateFileName (some (priv.take sizeEcdsaPrivate))
    return .ok (Function.update files publicFileName (some (pub.take sizeEcdsaPublic)))

/-- `crypt_keygen`: the files, unless it ends fatally, and the next call of the random number
function. -/
def cryptKeygen (rng : Option Rng) (home : Home) (someDirectory : Bool) (files : Files)
    (call : Nat) : Run (Except KeygenFatal Files × Nat) := do
  let made ← ecdsaMakeKey rng call curveSecp256r1
  match made.1 with
  | none => .ok (.error .makeKeyFailed, made.2)
  | some keys => do
      let stored ← ioStoreKey home someDirectory keys.publicKey keys.privateKey files
      return (stored, made.2)

/-- The files with a key pair under its address. -/
def filesWith (home : Home) (keys : KeyPair) (files : Files) : Files :=
  Function.update
    (Function.update files (privateFileName home (keyAddress keys.publicKey))
      (some keys.privateKey))
    (publicFileName home (keyAddress keys.publicKey)) (some keys.publicKey)

/-- `io_store_key` puts matching keys under their address, unless it ends fatally. -/
theorem ioStoreKey_eq {keys : KeyPair} (matching : keys.Matches) (home : Home)
    (someDirectory : Bool) (files : Files) :
    ioStoreKey home someDirectory keys.publicKey keys.privateKey files =
      .ok (if someDirectory then .error .existingKey else .ok (filesWith home keys files)) := by
  have privates : keys.privateKey.take sizeEcdsaPrivate = keys.privateKey :=
    List.take_of_length_le matching.privateLength.le
  have publics : keys.publicKey.take sizeEcdsaPublic = keys.publicKey := matching.take_publicKey
  obtain ⟨dir_eq, private_eq, public_eq⟩ := mStrconcat_addrDir home (keyAddress keys.publicKey)
  simp only [ioStoreKey, dir_eq, private_eq, public_eq, Run.ok_bind, privates, publics]
  cases someDirectory <;> rfl

section FilesWith

variable {home : Home} {keys : KeyPair} {files : Files}

theorem filesWith_private (addr : Digest) :
    filesWith home keys files (privateFileName home addr) =
      if keyAddress keys.publicKey = addr then some keys.privateKey
      else files (privateFileName home addr) := by
  rw [filesWith, Function.update_of_ne (privateFileName_ne home _ _)]
  by_cases here : keyAddress keys.publicKey = addr
  · rw [if_pos here, here, Function.update_self]
  · have names := (privateFileName_injective home).ne (Ne.symm here)
    rw [if_neg here, Function.update_of_ne names]

theorem filesWith_public (addr : Digest) :
    filesWith home keys files (publicFileName home addr) =
      if keyAddress keys.publicKey = addr then some keys.publicKey
      else files (publicFileName home addr) := by
  rw [filesWith]
  by_cases here : keyAddress keys.publicKey = addr
  · rw [if_pos here, here, Function.update_self]
  · have names := (publicFileName_injective home).ne (Ne.symm here)
    rw [if_neg here, Function.update_of_ne names,
      Function.update_of_ne (privateFileName_ne home _ _).symm]

/-- Storing keys leaves the blocks and their index alone. -/
theorem ofFiles_filesWith (heads : List Head) :
    Disk.ofFiles home (filesWith home keys files, heads) = Disk.ofFiles home (files, heads) := by
  have apart := addrDir_append_ne home (keyAddress keys.publicKey)
  simp only [Disk.ofFiles, Disk.mk.injEq, and_true]
  constructor
  · funext name
    rw [filesWith, publicFileName, privateFileName, Function.update_of_ne (apart _ name).1.symm,
      Function.update_of_ne (apart _ name).1.symm]
  · funext name
    rw [filesWith, publicFileName, privateFileName, Function.update_of_ne (apart _ name).2.symm,
      Function.update_of_ne (apart _ name).2.symm]

/-- Saving a block leaves the keys alone. -/
theorem ioSaveBlockRawFiles_addrDir {fuel : Nat} {state after : Files × List Head}
    {src : List UInt8} (saved : ioSaveBlockRawFiles sha256 fuel home state src = .ok after)
    (addr : Digest) (tail : List Char) :
    after.1 (addrDir home addr ++ tail) = state.1 (addrDir home addr ++ tail) := by
  obtain ⟨files, heads⟩ := state
  simp only [ioSaveBlockRawFiles, Run.bind_eq_ok] at saved
  obtain ⟨hash, _, size, _, content, _, blockPath, block_eq, indexPath, index_eq, records, _,
    block, _, disk, _, written⟩ := saved
  obtain rfl := Except.ok.inj written
  obtain ⟨blockFits, indexFits⟩ := mStrconcat_pathIn home hash
  obtain rfl := Except.ok.inj (blockFits.symm.trans block_eq)
  obtain rfl := Except.ok.inj (indexFits.symm.trans index_eq)
  have apart := addrDir_append_ne home addr tail (blockFileName hash)
  dsimp only
  rw [Function.update_of_ne apart.2, Function.update_of_ne apart.1]

end FilesWith

/-! ## Runs of a machine -/

theorem saveAll_append_singleton {fuel : Nat} {saves : List (List UInt8)} {disk middle : Disk}
    (saved : saveAll sha256 fuel saves disk = .ok middle) (src : List UInt8) :
    saveAll sha256 fuel (saves ++ [src]) disk = ioSaveBlockRaw sha256 fuel middle src := by
  induction saves generalizing disk with
  | nil =>
      obtain rfl := Except.ok.inj saved
      rw [List.nil_append, saveAll]
      exact bind_pure _
  | cons first saves ih =>
      rw [saveAll, Run.bind_eq_ok] at saved
      obtain ⟨next, firstSaved, rest⟩ := saved
      rw [List.cons_append, saveAll, firstSaved, Run.ok_bind]
      exact ih rest

/-- The files of a machine on which keys are generated, each time with random numbers of its own,
and blocks are saved, in any order; with the keys and the blocks. -/
inductive NodeRun (home : Home) (fuel : Nat) (start : Files × List Head) :
    List KeyPair → List (List UInt8) → Files × List Head → Prop
  | start : NodeRun home fuel start [] [] start
  | keygen {log : List KeyPair} {saves : List (List UInt8)} {files after : Files}
      {heads : List Head} {rng : Option Rng} {someDirectory : Bool} {call next : Nat}
      {keys : KeyPair} : NodeRun home fuel start log saves (files, heads) →
      ecdsaMakeKey rng call curveSecp256r1 = .ok (some keys, next) →
      cryptKeygen rng home someDirectory files call = .ok (.ok after, next) →
        NodeRun home fuel start (log ++ [keys]) saves (after, heads)
  | save {log : List KeyPair} {saves : List (List UInt8)} {state after : Files × List Head}
      {src : List UInt8} : NodeRun home fuel start log saves state →
      ioSaveBlockRawFiles sha256 fuel home state src = .ok after →
        NodeRun home fuel start log (saves ++ [src]) after

/-- What generating given keys leaves. -/
theorem eq_filesWith_of_cryptKeygen {rng : Option Rng} {home : Home} {someDirectory : Bool}
    {files after : Files} {call next : Nat} {keys : KeyPair}
    (made : ecdsaMakeKey rng call curveSecp256r1 = .ok (some keys, next))
    (generated : cryptKeygen rng home someDirectory files call = .ok (.ok after, next)) :
    keys.Matches ∧ after = filesWith home keys files := by
  have matching := (ecdsaMakeKey_spec rng call).of_eq_ok made keys rfl
  refine ⟨matching, ?_⟩
  rw [cryptKeygen, made, Run.ok_bind] at generated
  simp only [ioStoreKey_eq matching, Run.ok_bind, Run.pure_eq_ok] at generated
  have stored := congrArg Prod.fst (Except.ok.inj generated)
  cases someDirectory with
  | true => cases stored
  | false => exact (Except.ok.inj stored).symm

/-- The key files hold, under each address, the latest keys with that address. -/
structure KeyFiles (home : Home) (log : List KeyPair) (files : Files) : Prop where
  matching : ∀ keys ∈ log, keys.Matches
  privates : ∀ addr, files (privateFileName home addr) =
    (latest (fun keys : KeyPair => keyAddress keys.publicKey) log addr).map KeyPair.privateKey
  publics : ∀ addr, files (publicFileName home addr) =
    (latest (fun keys : KeyPair => keyAddress keys.publicKey) log addr).map KeyPair.publicKey

section Runs

variable {home : Home} {fuel : Nat} {start state : Files × List Head} {log : List KeyPair}
  {saves : List (List UInt8)}

theorem NodeRun.keyFiles (fresh : ∀ addr, start.1 (privateFileName home addr) = none ∧
      start.1 (publicFileName home addr) = none)
    (run : NodeRun home fuel start log saves state) : KeyFiles home log state.1 := by
  induction run with
  | start => exact ⟨by simp, fun addr => (fresh addr).1, fun addr => (fresh addr).2⟩
  | @keygen log saves files after heads rng someDirectory call next keys _ made generated ih =>
      obtain ⟨keysMatch, rfl⟩ := eq_filesWith_of_cryptKeygen made generated
      refine ⟨?_, fun addr => ?_, fun addr => ?_⟩
      · intro other member
        rcases List.mem_append.mp member with before | last
        · exact ih.matching other before
        · rwa [List.mem_singleton.mp last]
      · have before := ih.privates addr
        dsimp only at before ⊢
        rw [filesWith_private, before, latest_append_singleton]
        split <;> rfl
      · have before := ih.publics addr
        dsimp only at before ⊢
        rw [filesWith_public, before, latest_append_singleton]
        split <;> rfl
  | save _ saved ih =>
      refine ⟨ih.matching, fun addr => ?_, fun addr => ?_⟩
      · rw [privateFileName, ioSaveBlockRawFiles_addrDir saved]
        exact ih.privates addr
      · rw [publicFileName, ioSaveBlockRawFiles_addrDir saved]
        exact ih.publics addr

/-- The blocks and the heads are as if no keys had been generated. -/
theorem NodeRun.saveAll_eq (run : NodeRun home fuel start log saves state) :
    saveAll sha256 fuel saves (Disk.ofFiles home start) = .ok (Disk.ofFiles home state) := by
  induction run with
  | start => rfl
  | keygen _ made generated ih =>
      obtain ⟨_, rfl⟩ := eq_filesWith_of_cryptKeygen made generated
      rw [ofFiles_filesWith]
      exact ih
  | save _ saved ih =>
      rw [saveAll_append_singleton ih, ioSaveBlockRaw_ofFiles, saved]
      rfl

end Runs

/-- A block is saved, and then keys are generated. -/
theorem exists_nodeRun :
    ∃ keys state, NodeRun rootHome 0 (fun _ => none, []) [keys] [rootBlock.bytes] state := by
  obtain ⟨state, saved, _⟩ := @exists_saveAllFiles sha256 0 rootHome (fun _ => none) [rootBlock] (by
    simp [rootBlock, RawBlock.offset, sizeBlockHeader, maxBlockSize])
  rw [List.map_cons, saveAllFiles, Run.bind_eq_ok] at saved
  obtain ⟨next, first, _⟩ := saved
  have drawn : ecdsaGenerateRandomInt (some constantRng) curveSecp256r1.n 0 =
      .ok (some [2#64, 0#64, 0#64, 0#64], 1) := by
    rfl
  obtain ⟨keys, made⟩ := ecdsaMakeKey_of_drawn drawn (by unfold LosesPoint; decide)
  have matching := (ecdsaMakeKey_spec (some constantRng) 0).of_eq_ok made keys rfl
  have generated : cryptKeygen (some constantRng) rootHome false next.1 0 =
      .ok (.ok (filesWith rootHome keys next.1), 1) := by
    rw [cryptKeygen, made, Run.ok_bind]
    simp only [ioStoreKey_eq matching, Run.ok_bind]
    rfl
  exact ⟨keys, _, .keygen (.save .start first) made generated⟩

end Freecoin
