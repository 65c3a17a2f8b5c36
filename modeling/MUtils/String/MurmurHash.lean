import MUtils.Theory.Outcome
import MUtils.Theory.Words

/-!
# Murmur hashes

`murmur_hash`, its inverse on keys of four bytes, and `murmur_hash_64`, on a little-endian machine.
A key is the memory that can be read behind the pointer. Its length is an `int` for `murmur_hash`
and a `uint32_t` for `murmur_hash_64`.
-/

namespace MUtils
variable {w : Nat}

/-- `*data`, for a pointer to words of `n` bytes. -/
def readWord (w n : Nat) (data : List UInt8) : Outcome (BitVec w) :=
  if n ≤ data.length then .ok (ofBytes w (data.take n)) else .error (.outOfRange "data")

/-- `k *= m; k ^= k >> r; k *= m`. -/
def mixWord (m : BitVec w) (r : Nat) (k : BitVec w) : BitVec w := xorShift (k * m) r * m

/-- The `switch` on the number of bytes left, from `case n` on. Every case takes one byte and falls
through, and the last one multiplies. -/
def mixTail (m : BitVec w) (data : List UInt8) : Nat → BitVec w → Outcome (BitVec w)
  | 0, h => .ok (h * m)
  | n + 1, h =>
    match data[n]? with
    | some b => mixTail m data n (h ^^^ (b.toBitVec.setWidth w <<< (8 * n)))
    | none => .error (.outOfRange "data")

namespace murmur_hash

def m : BitVec 32 := 0x5bd1e995

def r : Nat := 24

/-- The loop, with what is left of the data and of its length. -/
def loop (h : BitVec 32) (data : List UInt8) (len : Int) :
    Outcome (BitVec 32 × List UInt8 × Int) := do
  if len ≥ 4 then
    let k ← readWord 32 4 data
    loop (h * m ^^^ mixWord m r k) (data.drop 4) (len - 4)
  else
    return (h, data, len)
termination_by len.toNat

/-- The final mixes. -/
def final (h : BitVec 32) : BitVec 32 := xorShift (xorShift h 13 * m) 15

end murmur_hash

open murmur_hash in
def murmur_hash (key : List UInt8) (len seed : BitVec 32) : Outcome (BitVec 32) := do
  let (h, data, len) ← loop (seed ^^^ len) key len.toInt
  -- there is a case for each of 1, 2 and 3
  let h ← if 0 < len then mixTail m data len.toNat h else pure h
  return final h

/-- Inverts a `h ^= h >> s` operation with `8 <= s <= 16`. -/
def invert_shift_xor (hs : BitVec 32) (s : Nat) : Outcome (BitVec 32) := do
  Outcome.assert (s ≥ 8 ∧ s ≤ 16) "s >= 8 && s <= 16"
  let hs0 := hs >>> 24
  let hs1 := (hs >>> 16) &&& 0xff
  let hs2 := (hs >>> 8) &&& 0xff
  let hs3 := hs &&& 0xff
  let h0 := hs0
  let h1 := hs1 ^^^ (h0 >>> (s - 8))
  let h2 := (hs2 ^^^ (h0 <<< (16 - s)) ^^^ (h1 >>> (s - 8))) &&& 0xff
  let h3 := (hs3 ^^^ (h1 <<< (16 - s)) ^^^ (h2 >>> (s - 8))) &&& 0xff
  return (h0 <<< 24) + (h1 <<< 16) + (h2 <<< 8) + h3

/-- The multiplicative inverse of `m` under `% 2^32`. -/
def murmur_hash.minv : BitVec 32 := 0xe59b19bd

open murmur_hash in
def murmur_hash_inverse (h seed : BitVec 32) : Outcome (BitVec 32) := do
  let h ← invert_shift_xor h 15
  let h := h * minv
  let h ← invert_shift_xor h 13
  let hforward := seed ^^^ 4
  let hforward := hforward * m
  let k := hforward ^^^ h
  let k := k * minv
  let k := xorShift k r
  return k * minv

namespace murmur_hash_64

def m : BitVec 64 := 0xc6a4a7935bd1e995

def r : Nat := 47

/-- The loop over the words before `end`, with the data behind them. -/
def loop (h : BitVec 64) (data : List UInt8) : Nat → Outcome (BitVec 64 × List UInt8)
  | 0 => .ok (h, data)
  | n + 1 => do
    let k ← readWord 64 8 data
    loop ((h ^^^ mixWord m r k) * m) (data.drop 8) n

def final (h : BitVec 64) : BitVec 64 := xorShift (xorShift h r * m) r

end murmur_hash_64

open murmur_hash_64 in
def murmur_hash_64 (key : List UInt8) (len : BitVec 32) (seed : BitVec 64) :
    Outcome (BitVec 64) := do
  let (h, data) ← loop (seed ^^^ len.setWidth 64 * m) key (len.toNat / 8)
  let h ← if 0 < len.toNat % 8 then mixTail m data (len.toNat % 8) h else pure h
  return final h

end MUtils
