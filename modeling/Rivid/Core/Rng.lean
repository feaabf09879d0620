import Rivid.Core.Monotonic

/-!
# Randomness sources

The seeded generator for tests is Xoshiro256**, its 256-bit state expanded from a
64-bit seed with SplitMix64.  The thread's entropy pool hands out the words of
32-word fills of the secure generator one after another.
-/

namespace Rivid

/-! ## The seeded generator -/

/-- The generator that expands a seed. -/
structure SplitMix64 where
  state : U64
deriving DecidableEq, Repr

def SplitMix64.next (sm : SplitMix64) : U64 × SplitMix64 :=
  let state := sm.state + 0x9E3779B97F4A7C15
  let z := (state ^^^ (state >>> 30)) * 0xBF58476D1CE4E5B9
  let z := (z ^^^ (z >>> 27)) * 0x94D049BB133111EB
  (z ^^^ (z >>> 31), ⟨state⟩)

/-- Deterministic Xoshiro256** generator; its state is `[s0, s1, s2, s3]`. -/
structure DeterministicRng where
  s0 : U64
  s1 : U64
  s2 : U64
  s3 : U64
deriving DecidableEq, Repr

namespace DeterministicRng

def build (seed : U64) : DeterministicRng :=
  let sm := SplitMix64.mk seed
  let w0 := sm.next
  let w1 := w0.2.next
  let w2 := w1.2.next
  let w3 := w2.2.next
  ⟨w0.1, w1.1, w2.1, w3.1⟩

/-- Creates a deterministic generator from a 64-bit seed. -/
def new (seed : U64) : DeterministicRng := build seed

def nextXoshiro (rng : DeterministicRng) : U64 × DeterministicRng :=
  let result := (rng.s1 * 5).rotateLeft 7 * 9
  let t := rng.s1 <<< 17
  let s2 := rng.s2 ^^^ rng.s0
  let s3 := rng.s3 ^^^ rng.s1
  let s1 := rng.s1 ^^^ s2
  let s0 := rng.s0 ^^^ s3
  let s2 := s2 ^^^ t
  let s3 := s3.rotateLeft 45
  (result, ⟨s0, s1, s2, s3⟩)

/-- Draws the next 64 pseudorandom bits. -/
def drawU64 (rng : DeterministicRng) : U64 × DeterministicRng := rng.nextXoshiro

end DeterministicRng

instance : Rng DeterministicRng where
  nextU64 rng := rng.nextXoshiro

/-! ## The entropy pool -/

/-- What the secure generator will fill the pool with, fill by fill. -/
abbrev Fills := ℕ → {words : List U128 // words.length = 32}

structure EntropyPool where
  idx : ℕ
  words : {words : List U128 // words.length = 32}

/-- A thread's pool before its first draw. -/
def EntropyPool.new : EntropyPool := ⟨32, ⟨List.replicate 32 0, List.length_replicate⟩⟩

/-- Draws the next pooled 128-bit random word; an index out of bounds panics. -/
def nextPooled (p : EntropyPool) (fills : Fills) : Option (U128 × EntropyPool × Fills) :=
  let (p, fills) :=
    if p.idx = p.words.val.length then (⟨0, fills 0⟩, fun n ↦ fills (n + 1)) else (p, fills)
  p.words.val[p.idx]?.map fun v ↦ (v, ⟨p.idx + 1, p.words⟩, fills)

/-- Draws 80 bits of randomness. -/
def random80 (p : EntropyPool) (fills : Fills) : Option (U128 × EntropyPool × Fills) :=
  (nextPooled p fills).map fun r ↦ (r.1 &&& Id128.randomMask, r.2)

end Rivid
