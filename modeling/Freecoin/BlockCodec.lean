import Freecoin.Blocks

/-!
# The block format

The header codec is exact.  A raw block is a header followed by as many transactions as it counts,
each as long as its own header says; the offsets of the transactions are what the walkers of
`blocks.c` and `io.c` have to agree on.
-/

namespace Freecoin

open Foundation

/-! ## The header -/

theorem blockHeaderDeserialize_bytes (header : BlockHeader) (rest : List UInt8) :
    blockHeaderDeserialize (header.bytes ++ rest) = .ok header := by
  obtain ⟨version, time, height, prevHash, merkleRoot, ⟨mantissa, exponent⟩, nonce, txCount⟩ :=
    header
  let fromNonce := uitob nonce ++ (uitob txCount ++ rest)
  let fromTarget := mantissa :: exponent :: fromNonce
  let fromRoot := merkleRoot.toList ++ fromTarget
  let fromHash := prevHash.toList ++ fromRoot
  have whole : BlockHeader.bytes ⟨version, time, height, prevHash, merkleRoot,
      ⟨mantissa, exponent⟩, nonce, txCount⟩ ++ rest =
      ustob version ++ (uitob time ++ (uitob height ++ fromHash)) := by
    simp [BlockHeader.bytes, fromNonce, fromTarget, fromRoot, fromHash]
  rw [whole]
  have at₁₀ : (ustob version ++ (uitob time ++ (uitob height ++ fromHash))).drop 10 =
      fromHash := rfl
  have at₄₂ : (ustob version ++ (uitob time ++ (uitob height ++ fromHash))).drop 42 =
      fromRoot := by
    rw [show 42 = 10 + 32 from rfl, ← List.drop_drop, at₁₀]
    exact List.drop_left' prevHash.toList_length
  have at₇₄ : (ustob version ++ (uitob time ++ (uitob height ++ fromHash))).drop 74 =
      fromTarget := by
    rw [show 74 = 42 + 32 from rfl, ← List.drop_drop, at₄₂]
    exact List.drop_left' merkleRoot.toList_length
  have at₇₆ : (ustob version ++ (uitob time ++ (uitob height ++ fromHash))).drop 76 =
      fromNonce := by
    rw [show 76 = 74 + 2 from rfl, ← List.drop_drop, at₇₄]
    rfl
  have at₈₀ : (ustob version ++ (uitob time ++ (uitob height ++ fromHash))).drop 80 =
      uitob txCount ++ rest := by
    rw [show 80 = 76 + 4 from rfl, ← List.drop_drop, at₇₆]
    rfl
  have time_eq : btoui ((ustob version ++ (uitob time ++ (uitob height ++ fromHash))).drop 2) =
      .ok time := btoui_uitob time _
  have height_eq : btoui ((ustob version ++ (uitob time ++ (uitob height ++ fromHash))).drop 6) =
      .ok height := btoui_uitob height _
  have mantissa_eq : fetch fromTarget 0 = .ok mantissa := rfl
  have exponent_eq : fetch fromTarget 1 = .ok exponent := rfl
  simp only [blockHeaderDeserialize, posBlockHeaderVersion, posBlockHeaderTime,
    posBlockHeaderHeight, posBlockHeaderPrevHash, posBlockHeaderMerkleRoot, posBlockHeaderTarget,
    posBlockHeaderNonce, posBlockHeaderTxCount, List.drop_zero, btous_ustob, time_eq, height_eq,
    at₁₀, at₄₂, at₇₄, at₇₆, at₈₀, fromHash, fromRoot, copyOut_append, mantissa_eq, exponent_eq,
    fromNonce, btoui_uitob, Run.ok_bind, Run.pure_eq_ok]

theorem bytes_of_blockHeaderDeserialize {src : List UInt8} {header : BlockHeader}
    (loaded : blockHeaderDeserialize src = .ok header) : ∃ rest, src = header.bytes ++ rest := by
  simp only [blockHeaderDeserialize, Run.bind_eq_ok, Run.pure_eq_ok, Except.ok.injEq] at loaded
  obtain ⟨version, versionRead, time, timeRead, height, heightRead, prevHash, prevRead, merkleRoot,
    rootRead, mantissa, mantissaRead, exponent, exponentRead, nonce, nonceRead, txCount, countRead,
    rfl⟩ := loaded
  have split₀ : src = ustob version ++ src.drop 2 := ustob_of_btous versionRead
  have split₂ : src.drop 2 = uitob time ++ src.drop 6 := by
    simpa [posBlockHeaderTime] using uitob_of_btoui timeRead
  have split₆ : src.drop 6 = uitob height ++ src.drop 10 := by
    simpa [posBlockHeaderHeight] using uitob_of_btoui heightRead
  have split₁₀ : src.drop 10 = prevHash.toList ++ src.drop 42 := by
    simpa [posBlockHeaderPrevHash] using copyOut_split prevRead
  have split₄₂ : src.drop 42 = merkleRoot.toList ++ src.drop 74 := by
    simpa [posBlockHeaderMerkleRoot] using copyOut_split rootRead
  have split₇₄ : src.drop 74 = [mantissa, exponent] ++ src.drop 76 := by
    rw [fetch_eq_ok] at mantissaRead exponentRead
    have long : 1 < (src.drop 74).length := (List.getElem?_eq_some_iff.mp exponentRead).1
    rcases tail : src.drop 74 with _ | ⟨first, _ | ⟨second, others⟩⟩
    · simp [tail] at long
    · simp [tail] at long
    · simp only [posBlockHeaderTarget, tail, List.getElem?_cons_zero, List.getElem?_cons_succ,
        Option.some.injEq] at mantissaRead exponentRead
      rw [show 76 = 74 + 2 from rfl, ← List.drop_drop, tail, mantissaRead, exponentRead]
      rfl
  have split₇₆ : src.drop 76 = uitob nonce ++ src.drop 80 := by
    simpa [posBlockHeaderNonce] using uitob_of_btoui nonceRead
  have split₈₀ : src.drop 80 = uitob txCount ++ src.drop 84 := by
    simpa [posBlockHeaderTxCount] using uitob_of_btoui countRead
  refine ⟨src.drop 84, ?_⟩
  calc
    src = ustob version ++ (uitob time ++ (uitob height ++ (prevHash.toList ++ (merkleRoot.toList ++
        ([mantissa, exponent] ++ (uitob nonce ++ (uitob txCount ++ src.drop 84))))))) := by
      rw [← split₈₀, ← split₇₆, ← split₇₄, ← split₄₂, ← split₁₀, ← split₆, ← split₂, ← split₀]
    _ = _ := by simp only [BlockHeader.bytes, List.append_assoc]

theorem blockHeaderDeserialize_total (src : List UInt8) (long : sizeBlockHeader ≤ src.length) :
    ∃ header, blockHeaderDeserialize src = .ok header := by
  simp only [sizeBlockHeader] at long
  obtain ⟨version, versionRead⟩ := exists_btous (src.drop posBlockHeaderVersion) (by
    simp [posBlockHeaderVersion]; omega)
  obtain ⟨time, timeRead⟩ := exists_btoui (src.drop posBlockHeaderTime) (by
    simp [posBlockHeaderTime]; omega)
  obtain ⟨height, heightRead⟩ := exists_btoui (src.drop posBlockHeaderHeight) (by
    simp [posBlockHeaderHeight]; omega)
  obtain ⟨prevHash, prevRead⟩ := exists_copyOut 32
    (src.drop posBlockHeaderPrevHash) (by simp [posBlockHeaderPrevHash]; omega)
  obtain ⟨merkleRoot, rootRead⟩ := exists_copyOut 32
    (src.drop posBlockHeaderMerkleRoot) (by simp [posBlockHeaderMerkleRoot]; omega)
  have targetInside : 1 < (src.drop posBlockHeaderTarget).length := by
    simp [posBlockHeaderTarget]
    omega
  have mantissaRead := fetch_of_lt (Nat.zero_lt_of_lt targetInside)
  have exponentRead := fetch_of_lt targetInside
  obtain ⟨nonce, nonceRead⟩ := exists_btoui (src.drop posBlockHeaderNonce) (by
    simp [posBlockHeaderNonce]; omega)
  obtain ⟨txCount, countRead⟩ := exists_btoui (src.drop posBlockHeaderTxCount) (by
    simp [posBlockHeaderTxCount]; omega)
  exact ⟨⟨version, time, height, prevHash, merkleRoot, ⟨_, _⟩, nonce, txCount⟩, by
    simp only [blockHeaderDeserialize, versionRead, timeRead, heightRead, prevRead, rootRead,
      mantissaRead, exponentRead, nonceRead, countRead, Run.ok_bind, Run.pure_eq_ok]
    rfl⟩

/-- The exact codec of block headers. -/
def blockHeaderCodec : RecordCodec BlockHeader where
  size := sizeBlockHeader
  encode := BlockHeader.bytes
  decode := blockHeaderDeserialize
  length_encode := BlockHeader.length_bytes
  decode_encode := blockHeaderDeserialize_bytes
  encode_of_decode := bytes_of_blockHeaderDeserialize
  decode_total := blockHeaderDeserialize_total

/-- `block_header_serialize` and `block_header_deserialize` are inverse to each other, for every
header and every string of 84 bytes.  The eight writes tile the header, so each of its bytes is
written once and no byte around it; and the 84 bytes that are hashed determine every field. -/
theorem blockHeader_exact (header : BlockHeader) (bytes : Bytes sizeBlockHeader) (dst : Buffer)
    (pos : Nat) (room : pos + sizeBlockHeader ≤ dst.size) :
    (∃ after, blockHeaderSerialize header dst pos = .ok after ∧
      (∀ rest, blockHeaderDeserialize (after.window pos sizeBlockHeader ++ rest) = .ok header) ∧
      ∀ index, index < pos ∨ pos + sizeBlockHeader ≤ index →
        after.byte index = dst.byte index) ∧
    (∃ loaded after, blockHeaderDeserialize bytes.toList = .ok loaded ∧
      blockHeaderSerialize loaded dst pos = .ok after ∧
      after.window pos sizeBlockHeader = bytes.toList) ∧
    (blockHeaderSerialize header dst pos = storeFields pos header.fields dst ∧
      ∀ index, header.fields.countP (fun field => field.Covers index) =
        if index < sizeBlockHeader then 1 else 0) ∧
    ∀ other after otherAfter, blockHeaderSerialize header dst pos = .ok after →
      blockHeaderSerialize other dst pos = .ok otherAfter →
      after.window pos sizeBlockHeader = otherAfter.window pos sizeBlockHeader →
      header = other := by
  refine ⟨⟨_, blockHeaderSerialize_eq room, ?_, ?_⟩, ?_,
    ⟨blockHeaderSerialize_eq_storeFields header dst pos,
      header.tiles_fields.countP_covers_eq⟩, ?_⟩
  · intro rest
    have written := blockHeaderCodec.window_write_encode header dst pos
    exact written.symm ▸ blockHeaderDeserialize_bytes header rest
  · intro index outside
    rcases outside with before | behind
    · exact Buffer.byte_write_of_lt dst header.bytes before
    · exact Buffer.byte_write_of_ge dst header.bytes (by simpa using behind)
  · have size : bytes.toList.length = sizeBlockHeader := bytes.toList_length
    obtain ⟨loaded, read⟩ := blockHeaderDeserialize_total bytes.toList (Nat.le_of_eq size.symm)
    refine ⟨loaded, _, read, blockHeaderSerialize_eq room, ?_⟩
    calc
      (dst.write pos loaded.bytes).window pos sizeBlockHeader = loaded.bytes :=
        blockHeaderCodec.window_write_encode loaded dst pos
      _ = bytes.toList := blockHeaderCodec.encode_eq_of_decode size read
  · intro other after otherAfter written otherWritten same
    rw [blockHeaderSerialize_eq room] at written otherWritten
    obtain rfl := Except.ok.inj written
    obtain rfl := Except.ok.inj otherWritten
    apply blockHeaderCodec.encode_injective
    calc
      header.bytes = (dst.write pos header.bytes).window pos sizeBlockHeader :=
        (blockHeaderCodec.window_write_encode header dst pos).symm
      _ = (dst.write pos other.bytes).window pos sizeBlockHeader := same
      _ = other.bytes := blockHeaderCodec.window_write_encode other dst pos

/-- A header whose integers have their highest bits set, written behind one byte. -/
def topHeader : BlockHeader where
  version := 0x8001
  time := 0x80000002
  height := 0x80000003
  prevHash := List.Vector.replicate 32 0x80
  merkleRoot := List.Vector.replicate 32 0x81
  target := ⟨0xff, 0x20⟩
  nonce := 0x80000004
  txCount := 0x80000005

theorem blockHeader_exact_topHeader :
    ∃ after, blockHeaderSerialize topHeader ⟨86, fun _ => 0xff⟩ 1 = .ok after ∧
      blockHeaderDeserialize (after.window 1 sizeBlockHeader) = .ok topHeader ∧
      after.byte 0 = 0xff ∧ after.byte 85 = 0xff := by
  obtain ⟨⟨after, written, loaded, kept⟩, _⟩ := blockHeader_exact topHeader
    (List.Vector.replicate sizeBlockHeader 0) ⟨86, fun _ => 0xff⟩ 1 (by decide)
  have whole := loaded []
  rw [List.append_nil] at whole
  exact ⟨after, written, whole, kept 0 (Or.inl (by decide)), kept 85 (Or.inr (by decide))⟩

/-! ## Raw blocks -/

/-- The hash of a raw transaction is the digest of its bytes, whatever follows them. -/
theorem txRawComputeHash_bytes {tx : Tx} (counted : tx.Counted) (sha256 : List UInt8 → Digest)
    (rest : List UInt8) : txRawComputeHash sha256 (tx.bytes ++ rest) = .ok (sha256 tx.bytes) := by
  rw [txRawComputeHash, txRawComputeSize_bytes, Run.ok_bind,
    toNat_txComputeSize_of_counted counted, readOut_of_le (by simp), Run.ok_bind, List.take_left]
  rfl

/-- Where transaction `i` of a raw block starts: each transaction is as long as
`tx_raw_compute_size` says. -/
def txOffset (raw : List UInt8) : Nat → Run Nat
  | 0 => .ok sizeBlockHeader
  | i + 1 => do
      let offset ← txOffset raw i
      let size ← txRawComputeSize (raw.drop offset)
      return offset + size.toNat

/-- A raw block: a header, the transactions it counts, and whatever follows them in memory. -/
structure RawBlock where
  header : BlockHeader
  txs : List Tx
  trailing : List UInt8
  count : header.txCount.toNat = txs.length
  counted : ∀ tx ∈ txs, tx.Counted

namespace RawBlock

/-- The bytes of a raw block. -/
def bytes (raw : RawBlock) : List UInt8 :=
  raw.header.bytes ++ (raw.txs.flatMap Tx.bytes ++ raw.trailing)

/-- The offset of transaction `i`, as a number. -/
def offset (raw : RawBlock) (i : Nat) : Nat :=
  sizeBlockHeader + ((raw.txs.take i).flatMap Tx.bytes).length

@[simp] theorem offset_zero (raw : RawBlock) : raw.offset 0 = sizeBlockHeader := rfl

theorem offset_succ (raw : RawBlock) {i : Nat} (inside : i < raw.txs.length) :
    raw.offset (i + 1) = raw.offset i + raw.txs[i].bytes.length := by
  rw [offset, offset, List.take_succ_eq_append_getElem inside, List.flatMap_append,
    List.length_append]
  simp [Nat.add_assoc]

theorem offset_mono (raw : RawBlock) {i j : Nat} (before : i ≤ j) :
    raw.offset i ≤ raw.offset j := by
  obtain ⟨gap, rfl⟩ := Nat.exists_eq_add_of_le before
  rw [offset, offset, List.take_add, List.flatMap_append, List.length_append]
  omega

/-- What a pointer to transaction `i` addresses. -/
theorem drop_offset (raw : RawBlock) (i : Nat) :
    raw.bytes.drop (raw.offset i) = (raw.txs.drop i).flatMap Tx.bytes ++ raw.trailing := by
  have front : raw.bytes = (raw.header.bytes ++ (raw.txs.take i).flatMap Tx.bytes) ++
      ((raw.txs.drop i).flatMap Tx.bytes ++ raw.trailing) := by
    rw [bytes]
    conv_lhs => rw [← List.take_append_drop i raw.txs, List.flatMap_append]
    simp
  rw [front]
  exact List.drop_left' (by simp [offset])

theorem drop_offset_of_lt (raw : RawBlock) {i : Nat} (inside : i < raw.txs.length) :
    ∃ rest, raw.bytes.drop (raw.offset i) = raw.txs[i].bytes ++ rest := by
  rw [drop_offset, List.drop_eq_getElem_cons inside, List.flatMap_cons, List.append_assoc]
  exact ⟨_, rfl⟩

theorem blockHeaderDeserialize_bytes (raw : RawBlock) :
    blockHeaderDeserialize raw.bytes = .ok raw.header :=
  Freecoin.blockHeaderDeserialize_bytes _ _

theorem btoui_txCount (raw : RawBlock) :
    btoui (raw.bytes.drop posBlockHeaderTxCount) = .ok raw.header.txCount := by
  have loaded := raw.blockHeaderDeserialize_bytes
  simp only [blockHeaderDeserialize, Run.bind_eq_ok, Run.pure_eq_ok, Except.ok.injEq] at loaded
  obtain ⟨_, _, _, _, _, _, _, _, _, _, _, _, _, _, _, _, txCount, countRead, header_eq⟩ := loaded
  rw [countRead, ← header_eq]

theorem blockRawComputeHash_eq (raw : RawBlock) (sha256 : List UInt8 → Digest) :
    blockRawComputeHash sha256 raw.bytes = .ok (sha256 raw.header.bytes) := by
  have header : copyOut sizeBlockHeader (raw.bytes.drop posBlockHeader) =
      .ok ⟨raw.header.bytes, raw.header.length_bytes⟩ := copyOut_append ⟨raw.header.bytes, _⟩ _
  rw [blockRawComputeHash, header]
  rfl

theorem txRawComputeSize_at (raw : RawBlock) {i : Nat} (inside : i < raw.txs.length) :
    txRawComputeSize (raw.bytes.drop (raw.offset i)) = .ok (txComputeSize raw.txs[i]) := by
  obtain ⟨rest, tail⟩ := raw.drop_offset_of_lt inside
  rw [tail, txRawComputeSize_bytes]

theorem mTxDeserialize_at (raw : RawBlock) {i : Nat} (inside : i < raw.txs.length) :
    mTxDeserialize (raw.bytes.drop (raw.offset i)) = .ok raw.txs[i] := by
  obtain ⟨rest, tail⟩ := raw.drop_offset_of_lt inside
  rw [tail, mTxDeserialize_bytes (raw.counted _ (List.getElem_mem inside))]

theorem txRawComputeHash_at (raw : RawBlock) (sha256 : List UInt8 → Digest) {i : Nat}
    (inside : i < raw.txs.length) :
    txRawComputeHash sha256 (raw.bytes.drop (raw.offset i)) = .ok (sha256 raw.txs[i].bytes) := by
  obtain ⟨rest, tail⟩ := raw.drop_offset_of_lt inside
  rw [tail, txRawComputeHash_bytes (raw.counted _ (List.getElem_mem inside))]

theorem txOffset_eq (raw : RawBlock) {i : Nat} (inside : i ≤ raw.txs.length) :
    txOffset raw.bytes i = .ok (raw.offset i) := by
  induction i with
  | zero => rfl
  | succ i ih =>
      have size := toNat_txComputeSize_of_counted (raw.counted _ (List.getElem_mem inside))
      rw [txOffset, ih (by omega), Run.ok_bind, raw.txRawComputeSize_at inside, Run.ok_bind, size,
        raw.offset_succ inside]
      rfl

end RawBlock

/-- A raw size is the size of some transaction. -/
theorem exists_toNat_txRawComputeSize {src : List UInt8} {size : UInt32}
    (sized : txRawComputeSize src = .ok size) :
    ∃ inCount outCount : UInt16,
      size.toNat = 10 + inCount.toNat * 290 + outCount.toNat * 36 := by
  simp only [txRawComputeSize, Run.bind_eq_ok, Run.pure_eq_ok, Except.ok.injEq] at sized
  obtain ⟨inCount, _, outCount, _, size_eq⟩ := sized
  have same : txComputeSize ⟨⟨0, inCount, outCount, 0⟩, [], []⟩ = size := by
    rw [← size_eq, txComputeSize]
    ac_rfl
  exact ⟨inCount, outCount, by rw [← same, toNat_txComputeSize]⟩

theorem sizeTxHeader_le_txRawComputeSize {src : List UInt8} {size : UInt32}
    (sized : txRawComputeSize src = .ok size) : sizeTxHeader ≤ size.toNat := by
  obtain ⟨inCount, outCount, size_eq⟩ := exists_toNat_txRawComputeSize sized
  rw [size_eq, sizeTxHeader]
  omega

theorem toNat_lt_of_txRawComputeSize {src : List UInt8} {size : UInt32}
    (sized : txRawComputeSize src = .ok size) : size.toNat < 2 ^ 25 := by
  obtain ⟨inCount, outCount, size_eq⟩ := exists_toNat_txRawComputeSize sized
  have inBound := inCount.toNat_lt
  have outBound := outCount.toNat_lt
  omega

/-- A transaction that is hashed lies inside the bytes it is read from. -/
theorem toNat_le_of_txRawComputeHash {sha256 : List UInt8 → Digest} {src : List UInt8}
    {size : UInt32} {digest : Digest} (hashed : txRawComputeHash sha256 src = .ok digest)
    (sized : txRawComputeSize src = .ok size) : size.toNat ≤ src.length := by
  rw [txRawComputeHash, sized, Run.ok_bind, readOut] at hashed
  split at hashed
  · assumption
  · cases hashed

/-- Walking over `count` transactions cuts them off. -/
private theorem cut_of_txOffset {raw : List UInt8} {count stop : Nat}
    (walked : txOffset raw count = .ok stop) (inside : stop ≤ raw.length) :
    sizeBlockHeader ≤ stop ∧ ∃ txs : List Tx, txs.length = count ∧ (∀ tx ∈ txs, tx.Counted) ∧
      raw.take stop = raw.take sizeBlockHeader ++ txs.flatMap Tx.bytes := by
  induction count generalizing stop with
  | zero =>
      obtain rfl := Except.ok.inj walked
      exact ⟨le_rfl, [], rfl, by simp, by simp⟩
  | succ count ih =>
      simp only [txOffset, Run.bind_eq_ok, Run.pure_eq_ok, Except.ok.injEq] at walked
      obtain ⟨before, prior, size, sized, rfl⟩ := walked
      obtain ⟨header_le, txs, length_eq, allCounted, front⟩ := ih prior (by omega)
      have header_size := sizeTxHeader_le_txRawComputeSize sized
      obtain ⟨tx, loaded, tx_size⟩ := mTxDeserialize_total
        (by rw [List.length_drop]; omega) sized (by rw [List.length_drop]; omega)
      obtain ⟨txCounted, rest, tail⟩ := bytes_of_mTxDeserialize loaded
      have tx_length : size.toNat = tx.bytes.length := by
        rw [← tx_size, toNat_txComputeSize_of_counted txCounted]
      refine ⟨by omega, txs ++ [tx], by simp [length_eq], ?_, ?_⟩
      · intro other member
        rcases List.mem_append.mp member with old | new
        · exact allCounted other old
        · rw [List.mem_singleton.mp new]
          exact txCounted
      · rw [List.take_add, front, tail, tx_length, List.take_left]
        simp

/-- A byte string whose header and counted transactions lie inside it is a raw block. -/
theorem exists_rawBlock {raw : List UInt8} {txCount : UInt32} {stop : Nat}
    (counted : btoui (raw.drop posBlockHeaderTxCount) = .ok txCount)
    (walked : txOffset raw txCount.toNat = .ok stop) (inside : stop ≤ raw.length) :
    ∃ block : RawBlock, raw = block.bytes := by
  obtain ⟨header_le, txs, length_eq, allCounted, front⟩ := cut_of_txOffset walked inside
  obtain ⟨header, loaded⟩ := blockHeaderDeserialize_total raw (by omega)
  obtain ⟨rest, split⟩ := bytes_of_blockHeaderDeserialize loaded
  have header_bytes : raw.take sizeBlockHeader = header.bytes := by
    rw [split, ← header.length_bytes, List.take_left]
  have count_eq : header.txCount = txCount := by
    simp only [blockHeaderDeserialize, Run.bind_eq_ok, Run.pure_eq_ok, Except.ok.injEq] at loaded
    obtain ⟨_, _, _, _, _, _, _, _, _, _, _, _, _, _, _, _, read, countRead, rfl⟩ := loaded
    exact Except.ok.inj (countRead.symm.trans counted)
  refine ⟨⟨header, txs, raw.drop stop, by rw [count_eq, length_eq], allCounted⟩, ?_⟩
  rw [RawBlock.bytes]
  conv_lhs => rw [← List.take_append_drop stop raw, front, header_bytes]
  simp

end Freecoin
