import Rivid.Core.Convert
import Rivid.Core.Rng

/-!
# Blocks

The 16 bytes of a ULID, built from a timestamp and two random words, and the
ULID of the current time, whose random part comes from the entropy pool.
-/

namespace Rivid

open Id128

/-- Builds one 16-byte ULID block from a timestamp and two random words. -/
def ulidBlock (timestampMs rHi rLo : U64) : Bytes 16 :=
  let rand := (rHi.setWidth 128 <<< 64 ||| rLo.setWidth 128) &&& randomMask
  Convert.toBeBytes (fromParts timestampMs rand).asU128

/-- One ULID block stamped with an explicit timestamp, using secure randomness. -/
def ulidBlockSecure {ρ : Type} [Rng ρ] (timestampMs : U64) (rng : ρ) : Bytes 16 × ρ :=
  let hi := Rng.nextU64 rng
  let lo := Rng.nextU64 hi.2
  (ulidBlock timestampMs hi.1 lo.1, lo.2)

/-- Generates a ULID with the current time and 80 bits of secure randomness. -/
def Ulid.generate (pool : EntropyPool) (fills : Fills) (clock : Clock) :
    Option (Str × EntropyPool × Fills × Clock) := do
  let (now, clock) ← nowMs clock
  let (r, pool, fills) ← random80 pool fills
  return (Crockford.encodeString (fromParts now r).asU128, pool, fills, clock)

end Rivid
