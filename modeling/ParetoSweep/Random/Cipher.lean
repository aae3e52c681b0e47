/-!
# The ChaCha block with twelve rounds

A block is sixteen 32-bit words computed from a key of eight words and the number of the block. The rounds alternate
between the columns and the diagonals of the words read as a square, and the words that went in are added at the end.
-/

namespace ParetoSweep
namespace Cipher

/-- A key of eight words. -/
abbrev Key := Vector UInt32 8

/-- Sixteen words, read row by row as a square. -/
abbrev Block := Vector UInt32 16

/-- Turns `x` left by `r` bits. -/
def rotateLeft (x r : UInt32) : UInt32 := (x <<< r) ||| (x >>> (32 - r))

/-- Adds word `b` to word `a`, then mixes the sum into word `d` and turns it by `r` bits. -/
def mix (v : Block) (a b d : Fin 16) (r : UInt32) : Block :=
  let v := v.set a (v[a] + v[b])
  v.set d (rotateLeft (v[d] ^^^ v[a]) r)

/-- The quarter round on four words. -/
def quarterRound (v : Block) (a b c d : Fin 16) : Block :=
  mix (mix (mix (mix v a b d 16) c d b 12) a b d 8) c d b 7

/-- One round on the columns and one on the diagonals. -/
def doubleRound (v : Block) : Block :=
  let v := quarterRound (quarterRound (quarterRound (quarterRound v 0 4 8 12) 1 5 9 13) 2 6 10 14) 3 7 11 15
  quarterRound (quarterRound (quarterRound (quarterRound v 0 5 10 15) 1 6 11 12) 2 7 8 13) 3 4 9 14

/-- The words that go in: four constants, the key, and the number of the block in two words. -/
def input (key : Key) (number : UInt64) : Block :=
  #v[0x61707865, 0x3320646e, 0x79622d32, 0x6b206574,
    key[0], key[1], key[2], key[3], key[4], key[5], key[6], key[7],
    number.toUInt32, (number >>> 32).toUInt32, 0, 0]

/-- The words that come out after six double rounds. -/
def block (key : Key) (number : UInt64) : Block :=
  let start := input key number
  Vector.zipWith (· + ·) (Nat.repeat doubleRound 6 start) start

end Cipher
end ParetoSweep
