import Enigma.Storage.Types

/-! The hash of the filters and of the cache's shards, similar to murmur hash. -/

namespace Enigma

def hashMultiplier : UInt32 := 0xc6a4a793

def hashRest (h : UInt32) : UInt32 :=
  let h := h * hashMultiplier
  h ^^^ (h >>> 24)

/-- Four bytes at a time, then the remaining bytes. -/
def hashFrom (h : UInt32) : Bytes → UInt32
  | a :: b :: c :: d :: rest =>
    let w := a.toUInt32 <<< 24 ||| b.toUInt32 <<< 16 ||| c.toUInt32 <<< 8 ||| d.toUInt32
    let h := (h + w) * hashMultiplier
    hashFrom (h ^^^ (h >>> 16)) rest
  | [a, b, c] => hashRest (h + (c.toUInt32 <<< 16) + (b.toUInt32 <<< 8) + a.toUInt32)
  | [a, b] => hashRest (h + (b.toUInt32 <<< 8) + a.toUInt32)
  | [a] => hashRest (h + a.toUInt32)
  | [] => h

def hash (data : Bytes) (seed : UInt32) : UInt32 := hashFrom (seed ^^^ (UInt32.ofNat data.length * hashMultiplier)) data

end Enigma
