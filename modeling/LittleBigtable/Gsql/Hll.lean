import LittleBigtable.Bttest.Wire

/-!
# HyperLogLog++ sketches

The sketch that HLL aggregate families store, with its emulator-local byte
encoding.  A sketch is sparse (the set of the distinct 64-bit hashes) until it
holds more than `2 ^ p / 8` of them, and dense (`2 ^ p` registers) afterwards.
-/

namespace LittleBigtable
namespace Gsql

open Bttest

/-- A sketch; `sparse` is `some` while the representation is sparse. -/
structure HLL where
  p : Nat
  sparse : Option (Std.ExtTreeSet UInt64)
  regs : List UInt8

def hllVersion : UInt8 := 1

def hllDefaultPrecision : Nat := 14

def hllMaxPrecision : Nat := 24

def newHLLPrecision (p : Nat) : HLL :=
  ⟨p, some ∅, []⟩

/-- An empty sketch with precision 14. -/
def newHLL : HLL :=
  newHLLPrecision hllDefaultPrecision

/-- The number of hashes up to which a sketch of precision `p` stays sparse. -/
def sparseLimit (p : Nat) : Nat :=
  2 ^ p / 8

/-- 64-bit FNV-1a followed by the MurmurHash3 finalizer. -/
def hllHash (b : Bytes) : UInt64 :=
  let x := b.foldl (fun x c => (x ^^^ c.toUInt64) * 1099511628211) 14695981039346656037
  let x := (x ^^^ (x >>> 33)) * 0xff51afd7ed558ccd
  let x := (x ^^^ (x >>> 33)) * 0xc4ceb9fe1a85ec53
  x ^^^ (x >>> 33)

/-- `bits.Len64`. -/
def len64 (x : UInt64) : Nat :=
  if x = 0 then 0 else Nat.log2 x.toNat + 1

/-- `bits.LeadingZeros64`. -/
def leadingZeros64 (x : UInt64) : Nat :=
  64 - len64 x

/-- Raise register `i` to `rho` if it is lower. -/
def raiseRegister (regs : List UInt8) (i : Nat) (rho : UInt8) : List UInt8 :=
  regs.modify i (fun r => if rho > r then rho else r)

/-- Record the hash `x` in the registers of a sketch of precision `p`. -/
def setRegister (p : Nat) (regs : List UInt8) (x : UInt64) : List UInt8 :=
  let idx := x >>> UInt64.ofNat (64 - p)
  let w := (x <<< UInt64.ofNat p) ||| ((1 : UInt64) <<< UInt64.ofNat (p - 1))
  let rho := UInt8.ofNat (leadingZeros64 w + 1)
  raiseRegister regs idx.toNat rho

/-- The dense sketch of a set of hashes. -/
def densify (p : Nat) (hashes : Std.ExtTreeSet UInt64) : HLL :=
  ⟨p, none, hashes.toList.foldl (setRegister p) (List.replicate (2 ^ p) 0)⟩

/-- A sparse sketch, made dense once it holds more than `sparseLimit` hashes. -/
def ofSparse (p : Nat) (hashes : Std.ExtTreeSet UInt64) : HLL :=
  if hashes.size > sparseLimit p then
    densify p hashes
  else
    ⟨p, some hashes, []⟩

/-- Add one hash. -/
def addHash (h : HLL) (x : UInt64) : HLL :=
  match h.sparse with
  | some hashes => ofSparse h.p (hashes.insert x)
  | none => { h with regs := setRegister h.p h.regs x }

/-- Add an item to the sketch. -/
def HLL.add (h : HLL) (item : Bytes) : HLL :=
  addHash h (hllHash item)

/-- One step of the register loop of `downgrade`: register `j` holding `r` is
folded into register `j >> d`. -/
def downgradeRegister (d : Nat) (regs : List UInt8) (jr : Nat × UInt8) : List UInt8 :=
  let (j, r) := jr
  if r = 0 then
    regs
  else
    let dropped := j % 2 ^ d
    let rho :=
      if dropped ≠ 0 then
        UInt8.ofNat (d - (Nat.log2 dropped + 1)) + 1
      else
        UInt8.ofNat d + r
    raiseRegister regs (j / 2 ^ d) rho

/-- Reduce the precision of `h` to `p`. -/
def downgrade (h : HLL) (p : Nat) : HLL :=
  if p ≥ h.p then
    h
  else
    match h.sparse with
    | some hashes => ofSparse p hashes
    | none =>
      ⟨p, none,
        ((List.range h.regs.length).zip h.regs).foldl
          (downgradeRegister (h.p - p)) (List.replicate (2 ^ p) 0)⟩

/-- Merge `o` into `h`; the result uses the lower precision of the two. -/
def HLL.merge (h o : HLL) : HLL :=
  let o' := if o.p > h.p then downgrade o h.p else o
  let h' := if o.p < h.p then downgrade h o.p else h
  match o'.sparse with
  | some hashes => hashes.toList.foldl addHash h'
  | none =>
    let dense :=
      match h'.sparse with
      | some hashes => densify h'.p hashes
      | none => h'
    { dense with
      regs := dense.regs.zipWith (fun a r => if r > a then r else a) o'.regs }

/-- `binary.AppendUvarint`; ten groups of seven bits hold every `uint64`. -/
def appendUvarint : Nat → UInt64 → Bytes
  | 0, x => [x.toUInt8]
  | fuel + 1, x =>
    if x ≥ 0x80 then
      (x.toUInt8 ||| 0x80) :: appendUvarint fuel (x >>> 7)
    else
      [x.toUInt8]

/-- `binary.Uvarint` from byte `i` on, with the bits read so far in `x`.  The
result is `none` on a truncated or overflowing number. -/
def uvarintFrom (i : Nat) (x : UInt64) : Bytes → Option (UInt64 × Bytes)
  | [] => none
  | b :: rest =>
    if i = 10 then
      none
    else if b < 0x80 then
      if i = 9 ∧ b > 1 then
        none
      else
        some (x ||| (b.toUInt64 <<< UInt64.ofNat (7 * i)), rest)
    else
      uvarintFrom (i + 1) (x ||| ((b &&& 0x7f).toUInt64 <<< UInt64.ofNat (7 * i))) rest

def uvarint (b : Bytes) : Option (UInt64 × Bytes) :=
  uvarintFrom 0 0 b

/-- The sorted hashes as uvarint deltas. -/
def encodeDeltas : UInt64 → List UInt64 → Bytes
  | _, [] => []
  | prev, x :: rest => appendUvarint 9 (x - prev) ++ encodeDeltas x rest

/-- Serialize the sketch. -/
def HLL.encode (h : HLL) : Bytes :=
  match h.sparse with
  | some hashes =>
    [hllVersion, UInt8.ofNat h.p, 0] ++
      appendUvarint 9 (UInt64.ofNat hashes.size) ++
      encodeDeltas 0 hashes.toList
  | none => [hllVersion, UInt8.ofNat h.p, 1] ++ h.regs

/-- Read `n` uvarint deltas behind `prev` into a set of hashes. -/
def decodeDeltas :
    Nat → UInt64 → Std.ExtTreeSet UInt64 → Bytes → Option (Std.ExtTreeSet UInt64 × Bytes)
  | 0, _, hashes, rest => some (hashes, rest)
  | n + 1, prev, hashes, rest =>
    match uvarint rest with
    | none => none
    | some (d, rest') => decodeDeltas n (prev + d) (hashes.insert (prev + d)) rest'

/-- Parse a sketch produced by `encode`; the error is the text of the Go
error. -/
def decodeHLL (b : Bytes) : Except String HLL :=
  match b with
  | version :: p :: repr :: rest =>
    if version ≠ hllVersion then
      .error "unsupported HLL sketch version"
    else if p < 4 ∨ p.toNat > hllMaxPrecision then
      .error "invalid HLL sketch precision"
    else if repr = 0 then
      match uvarint rest with
      | none => .error "invalid sparse HLL sketch"
      | some (n, rest) =>
        if n.toNat > 2 ^ p.toNat then
          .error "invalid sparse HLL sketch"
        else
          match decodeDeltas n.toNat 0 ∅ rest with
          | none => .error "truncated sparse HLL sketch"
          | some (hashes, rest) =>
            if rest ≠ [] then
              .error "trailing bytes in sparse HLL sketch"
            else
              .ok (ofSparse p.toNat hashes)
    else if repr = 1 then
      if rest.length ≠ 2 ^ p.toNat then
        .error "invalid dense HLL sketch length"
      else if rest.any (fun r => r.toNat > 64 - p.toNat + 1) then
        .error "invalid dense HLL register value"
      else
        .ok ⟨p.toNat, none, rest⟩
    else
      .error "invalid HLL sketch representation"
  | _ => .error "HLL sketch is empty or truncated"

/-- The canonical bytes that are hashed for a wire value. -/
def hllInputBytes : Value → Option Bytes
  | .intValue i =>
    some ((List.range 8).reverse.map (fun k => UInt8.ofNat ((i % 2 ^ 64).toNat / 2 ^ (8 * k))))
  | .stringValue s => some s
  | .bytesValue b => some b
  | .rawValue b => some b
  | _ => none

end Gsql
end LittleBigtable
