import Mathlib.Tactic

/-! Numbers in blocks of bytes, big-endian and little-endian. A block gives a byte at every
offset; how long it is stands beside it. -/
namespace E2fs.BigEndian

abbrev Block := Nat → UInt8

def zeroBlock : Block := fun _ => 0

def be16 (b : Block) (off : Nat) : Nat := (b off).toNat * 2 ^ 8 + (b (off + 1)).toNat

def be32 (b : Block) (off : Nat) : Nat := be16 b off * 2 ^ 16 + be16 b (off + 2)

def be64 (b : Block) (off : Nat) : Nat := be32 b off * 2 ^ 32 + be32 b (off + 4)

def putByte (b : Block) (off : Nat) (v : UInt8) : Block := fun i => if i = off then v else b i

def putBe16 (b : Block) (off v : Nat) : Block :=
  putByte (putByte b off (UInt8.ofNat (v / 2 ^ 8))) (off + 1) (UInt8.ofNat v)

def putBe32 (b : Block) (off v : Nat) : Block :=
  putBe16 (putBe16 b off (v / 2 ^ 16)) (off + 2) v

end E2fs.BigEndian

namespace E2fs.LittleEndian
open BigEndian

def le16 (b : Block) (off : Nat) : Nat := (b (off + 1)).toNat * 2 ^ 8 + (b off).toNat

def le32 (b : Block) (off : Nat) : Nat := le16 b (off + 2) * 2 ^ 16 + le16 b off

end E2fs.LittleEndian
