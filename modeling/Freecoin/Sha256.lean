import Freecoin.Bytes

/-!
# SHA-256

The streaming digest of `sha256.c`.  A context keeps the bytes of the block that is being filled,
the number of bits already compressed in two words, and the eight state words.
-/

namespace Freecoin

open Foundation

/-! ## The compression function -/

def rotright (a b : UInt32) : UInt32 := (a >>> b) ||| (a <<< (32 - b))
def ch (x y z : UInt32) : UInt32 := (x &&& y) ^^^ (~~~x &&& z)
def maj (x y z : UInt32) : UInt32 := (x &&& y) ^^^ (x &&& z) ^^^ (y &&& z)
def ep0 (x : UInt32) : UInt32 := rotright x 2 ^^^ rotright x 13 ^^^ rotright x 22
def ep1 (x : UInt32) : UInt32 := rotright x 6 ^^^ rotright x 11 ^^^ rotright x 25
def sig0 (x : UInt32) : UInt32 := rotright x 7 ^^^ rotright x 18 ^^^ (x >>> 3)
def sig1 (x : UInt32) : UInt32 := rotright x 17 ^^^ rotright x 19 ^^^ (x >>> 10)

/-- The round constants `k`. -/
def sha256RoundConstants : List UInt32 := [
  0x428a2f98, 0x71374491, 0xb5c0fbcf, 0xe9b5dba5, 0x3956c25b, 0x59f111f1, 0x923f82a4, 0xab1c5ed5,
  0xd807aa98, 0x12835b01, 0x243185be, 0x550c7dc3, 0x72be5d74, 0x80deb1fe, 0x9bdc06a7, 0xc19bf174,
  0xe49b69c1, 0xefbe4786, 0x0fc19dc6, 0x240ca1cc, 0x2de92c6f, 0x4a7484aa, 0x5cb0a9dc, 0x76f988da,
  0x983e5152, 0xa831c66d, 0xb00327c8, 0xbf597fc7, 0xc6e00bf3, 0xd5a79147, 0x06ca6351, 0x14292967,
  0x27b70a85, 0x2e1b2138, 0x4d2c6dfc, 0x53380d13, 0x650a7354, 0x766a0abb, 0x81c2c92e, 0x92722c85,
  0xa2bfe8a1, 0xa81a664b, 0xc24b8b70, 0xc76c51a3, 0xd192e819, 0xd6990624, 0xf40e3585, 0x106aa070,
  0x19a4c116, 0x1e376c08, 0x2748774c, 0x34b0bcb5, 0x391c0cb3, 0x4ed8aa4a, 0x5b9cca4f, 0x682e6ff3,
  0x748f82ee, 0x78a5636f, 0x84c87814, 0x8cc70208, 0x90befffa, 0xa4506ceb, 0xbef9a3f7, 0xc67178f2]

/-- The eight words `a` to `h`. -/
structure Sha256State where
  a : UInt32
  b : UInt32
  c : UInt32
  d : UInt32
  e : UInt32
  f : UInt32
  g : UInt32
  h : UInt32
  deriving DecidableEq

/-- Word `m[i]` of the message block, for `i < 16`. -/
def sha256Word (data : List UInt8) (i : Nat) : UInt32 :=
  ((data.getD (4 * i) 0).toUInt32 <<< 24) ||| ((data.getD (4 * i + 1) 0).toUInt32 <<< 16) |||
    ((data.getD (4 * i + 2) 0).toUInt32 <<< 8) ||| (data.getD (4 * i + 3) 0).toUInt32

/-- Extend the message schedule by `count` words. -/
def sha256Schedule : (count : Nat) → (m : List UInt32) → List UInt32
  | 0, m => m
  | count + 1, m =>
      let i := m.length
      let word := sig1 (m.getD (i - 2) 0) + m.getD (i - 7) 0 + sig0 (m.getD (i - 15) 0) +
        m.getD (i - 16) 0
      sha256Schedule count (m ++ [word])

/-- One round. -/
def sha256Round (state : Sha256State) (k m : UInt32) : Sha256State :=
  let t1 := state.h + ep1 state.e + ch state.e state.f state.g + k + m
  let t2 := ep0 state.a + maj state.a state.b state.c
  { a := t1 + t2, b := state.a, c := state.b, d := state.c
    e := state.d + t1, f := state.e, g := state.f, h := state.g }

/-- `sha256_transform`. -/
def sha256Transform (state : Sha256State) (data : List UInt8) : Sha256State :=
  let m := sha256Schedule 48 ((List.range 16).map (sha256Word data))
  let last := (sha256RoundConstants.zip m).foldl (fun state (k, m) => sha256Round state k m) state
  { a := state.a + last.a, b := state.b + last.b, c := state.c + last.c, d := state.d + last.d
    e := state.e + last.e, f := state.f + last.f, g := state.g + last.g, h := state.h + last.h }

/-! ## The streaming interface -/

/-- `crypt_sha256_ctx`; `data` holds the `datalen` bytes filled so far. -/
structure CryptSha256Ctx where
  data : List UInt8
  bitlen : UInt32 × UInt32
  state : Sha256State

/-- `DBL_INT_ADD`: add to a 64-bit number kept in two words. -/
def dblIntAdd (bitlen : UInt32 × UInt32) (c : UInt32) : UInt32 × UInt32 :=
  (bitlen.1 + c, if bitlen.1 > 0xffffffff - c then bitlen.2 + 1 else bitlen.2)

/-- `sha256_init`. -/
def sha256Init : CryptSha256Ctx where
  data := []
  bitlen := (0, 0)
  state :=
    { a := 0x6a09e667, b := 0xbb67ae85, c := 0x3c6ef372, d := 0xa54ff53a
      e := 0x510e527f, f := 0x9b05688c, g := 0x1f83d9ab, h := 0x5be0cd19 }

/-- The body of the loop of `sha256_update`. -/
def sha256UpdateByte (ctx : CryptSha256Ctx) (byte : UInt8) : CryptSha256Ctx :=
  let data := ctx.data ++ [byte]
  if data.length = 64 then
    { data := [], bitlen := dblIntAdd ctx.bitlen 512, state := sha256Transform ctx.state data }
  else
    { ctx with data }

/-- `sha256_update`. -/
def sha256Update (ctx : CryptSha256Ctx) (data : List UInt8) : CryptSha256Ctx :=
  data.foldl sha256UpdateByte ctx

/-- `sha256_final`. -/
def sha256Final (ctx : CryptSha256Ctx) : Digest :=
  let bitlen := dblIntAdd ctx.bitlen (.ofNat (ctx.data.length * 8))
  let length := uitob bitlen.2 ++ uitob bitlen.1
  let state :=
    if ctx.data.length < 56 then
      sha256Transform ctx.state
        (ctx.data ++ 0x80 :: List.replicate (55 - ctx.data.length) 0 ++ length)
    else
      sha256Transform
        (sha256Transform ctx.state (ctx.data ++ 0x80 :: List.replicate (63 - ctx.data.length) 0))
        (List.replicate 56 0 ++ length)
  ⟨uitob state.a ++ uitob state.b ++ uitob state.c ++ uitob state.d ++
    uitob state.e ++ uitob state.f ++ uitob state.g ++ uitob state.h, rfl⟩

/-- The digest of a message. -/
def sha256 (message : List UInt8) : Digest := sha256Final (sha256Update sha256Init message)

/-- Successive updates hash the concatenation. -/
theorem sha256Update_append (ctx : CryptSha256Ctx) (front back : List UInt8) :
    sha256Update ctx (front ++ back) = sha256Update (sha256Update ctx front) back := by
  simp [sha256Update]

set_option maxRecDepth 100000 in
example : (sha256 [0x61, 0x62, 0x63]).toList.take 4 = [0xba, 0x78, 0x16, 0xbf] := by
  decide +kernel

end Freecoin
