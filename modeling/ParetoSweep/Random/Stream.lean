import ParetoSweep.Number.Integral
import ParetoSweep.Random.Cipher

/-!
# Reproducible random numbers

A stream is given by a key and by how many numbers were drawn from it, so that number `k` is a function of the key and
of `k`, and a draw only moves the position on.
-/

namespace ParetoSweep

/-- A source of random numbers in `[0, 1)`. -/
structure Stream where
  key : Cipher.Key
  /-- How many numbers were drawn. -/
  position : Nat

namespace Stream

/-- The step of the generator that spreads a seed over a key. -/
def seedStep (s : UInt64) : UInt64 := s * 6364136223846793005 + 11634580027462260723

/-- The key word that a state of that generator gives. -/
def seedWord (s : UInt64) : UInt32 :=
  let x := (((s >>> 18) ^^^ s) >>> 27).toUInt32
  let r := (s >>> 59).toUInt32
  (x >>> r) ||| (x <<< (32 - r))

/-- The stream that belongs to a seed. -/
def ofSeed (seed : UInt64) : Stream where
  key := .ofFn fun i => seedWord (Nat.repeat seedStep (i + 1) seed)
  position := 0

/-- Number `k` of the stream: two words of the cipher, of which the upper 53 bits count. -/
def nth (key : Cipher.Key) (k : Nat) : Float :=
  let words := Cipher.block key (k / 8).toUInt64
  let low := words[(⟨2 * (k % 8), by omega⟩ : Fin 16)]
  let high := words[(⟨2 * (k % 8) + 1, by omega⟩ : Fin 16)]
  Number.scaled (((high.toUInt64 <<< 32) ||| low.toUInt64) >>> 11).toNat (-53) .positive

/-- Draws the next number. -/
def draw : StateM Stream Float := fun s => (nth s.key s.position, { s with position := s.position + 1 })

/-- A draw moves the position on by one. -/
@[simp] theorem position_draw (s : Stream) : (draw s).2.position = s.position + 1 := rfl

/-- A draw keeps the key. -/
@[simp] theorem key_draw (s : Stream) : (draw s).2.key = s.key := rfl

end Stream
end ParetoSweep
