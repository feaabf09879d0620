import Rivid.Core.Basic
import Mathlib.Algebra.Order.Floor.Ring
import Mathlib.Data.Rat.Floor

/-!
# JavaScript values at the boundary

A JavaScript number is a double: a rational or one of the three values that are
not finite.  Casting it to `u64` saturates.

A JavaScript string is a sequence of UTF-16 code units.  On its way into a Rust
`String` it is converted to UTF-8, a lone surrogate becoming U+FFFD.  Strings
whose bytes are ASCII are the code units themselves (`toUtf8_ascii`), so for
them indexing and comparing units or bytes is the same.
-/

namespace Rivid

/-! ## Numbers -/

/-- The value of a double. -/
inductive JsNumber where
  | nan
  | infinity (negative : Bool)
  | finite (q : ℚ)
deriving DecidableEq, Repr

namespace JsNumber

/-- `is_finite`. -/
def isFinite : JsNumber → Bool
  | finite _ => true
  | _ => false

/-- `x < 0.0`; false for NaN. -/
def isNegative : JsNumber → Bool
  | nan => false
  | infinity negative => negative
  | finite q => decide (q < 0)

/-- `x > 0.0`; false for NaN. -/
def isPositive : JsNumber → Bool
  | nan => false
  | infinity negative => !negative
  | finite q => decide (0 < q)

/-- `x.fract() != 0.0`; true for NaN and the infinities, whose fraction is NaN. -/
def hasFraction : JsNumber → Bool
  | finite q => decide (q.den ≠ 1)
  | _ => true

/-- `x as u64`: truncates towards zero and saturates. -/
def asU64 : JsNumber → U64
  | nan => 0
  | infinity negative => if negative then 0 else BitVec.allOnes 64
  | finite q => BitVec.ofNat 64 (min ⌊q⌋.toNat (2 ^ 64 - 1))

/-- `x as f64`: to the nearest double, which has 53 bits. -/
def ofU64 (x : U64) : JsNumber :=
  let k := x.toNat.log2 + 1 - 53
  let m := x.toNat / 2 ^ k
  let r := x.toNat % 2 ^ k
  -- Halfway, to the even neighbour.
  let up := 2 ^ k < 2 * r ∨ 2 * r = 2 ^ k ∧ m % 2 = 1
  finite ((if up then m + 1 else m) * 2 ^ k : ℕ)

/-- Integers of 53 bits are doubles. -/
theorem ofU64_of_lt {x : U64} (h : x.toNat < 2 ^ 53) : ofU64 x = finite x.toNat := by
  have hlog : x.toNat.log2 + 1 - 53 = 0 := by
    rcases Nat.eq_zero_or_pos x.toNat with h0 | hpos
    · rw [h0]
      rfl
    · have := (Nat.log2_lt (by omega)).mpr h
      omega
  simp [ofU64, hlog, Nat.mod_one]

/-- A non-negative integral number is a natural number, and its cast is that number or
the largest `u64`. -/
theorem exists_nat_of_integral {q : ℚ} (hneg : 0 ≤ q) (hint : q.den = 1) :
    ∃ n : ℕ, q = n ∧ (finite q).asU64.toNat = min n (2 ^ 64 - 1) := by
  obtain ⟨n, hn⟩ := Int.eq_ofNat_of_zero_le (Rat.num_nonneg.mpr hneg)
  have hq : q = (n : ℚ) := by
    rw [← (Rat.den_eq_one_iff q).mp hint, hn]
    rfl
  refine ⟨n, hq, ?_⟩
  have hfloor : ⌊q⌋.toNat = n := by rw [hq, Int.floor_natCast, Int.toNat_natCast]
  rw [asU64, hfloor, BitVec.toNat_ofNat]
  omega

end JsNumber

/-! ## Strings -/

/-- A JavaScript string: its UTF-16 code units. -/
abbrev JsString := List U16

namespace JsString

/-- A string literal of ASCII characters. -/
def ofAscii (s : String) : JsString := s.toList.map fun c ↦ BitVec.ofNat 16 c.toNat

def isHighSurrogate (u : U16) : Bool := 0xd800 ≤ u && u ≤ 0xdbff

def isLowSurrogate (u : U16) : Bool := 0xdc00 ≤ u && u ≤ 0xdfff

/-- The UTF-8 bytes of a code unit that is not part of a surrogate pair. -/
def unitBytes (u : U16) : Str :=
  if u < 0x80 then [u.setWidth 8]
  else if u < 0x800 then
    [(0xc0 : U8) ||| (u >>> 6).setWidth 8, (0x80 : U8) ||| (u &&& 0x3f).setWidth 8]
  else if isHighSurrogate u || isLowSurrogate u then [0xef, 0xbf, 0xbd]
  else [(0xe0 : U8) ||| (u >>> 12).setWidth 8, (0x80 : U8) ||| ((u >>> 6) &&& 0x3f).setWidth 8,
    (0x80 : U8) ||| (u &&& 0x3f).setWidth 8]

/-- The UTF-8 bytes of a surrogate pair. -/
def pairBytes (hi lo : U16) : Str :=
  let c : U32 := 0x10000 + (((hi &&& 0x3ff).setWidth 32 <<< 10) ||| (lo &&& 0x3ff).setWidth 32)
  [(0xf0 : U8) ||| (c >>> 18).setWidth 8, (0x80 : U8) ||| ((c >>> 12) &&& 0x3f).setWidth 8,
    (0x80 : U8) ||| ((c >>> 6) &&& 0x3f).setWidth 8, (0x80 : U8) ||| (c &&& 0x3f).setWidth 8]

/-- The Rust `String` a JavaScript string is converted to. -/
def toUtf8 : JsString → Str
  | [] => []
  | [u] => unitBytes u
  | u :: v :: s =>
      if isHighSurrogate u && isLowSurrogate v then pairBytes u v ++ toUtf8 s
      else unitBytes u ++ toUtf8 (v :: s)

/-- A byte with its high bit set is not ASCII. -/
theorem not_ascii_or {lead : U8} (x : U8) (h : lead.msb = true) : ¬ (lead ||| x) < 0x80 := by
  have hmsb : (lead ||| x).msb = true := by rw [BitVec.msb_or, h, Bool.true_or]
  have hge := BitVec.toNat_ge_of_msb_true hmsb
  rw [BitVec.lt_def, show (0x80 : U8).toNat = 128 from rfl]
  omega

/-- A code unit whose bytes are all ASCII is an ASCII character. -/
theorem lt_of_unitBytes_ascii {u : U16} (h : ∀ c ∈ unitBytes u, c < 0x80) : u < 0x80 := by
  by_contra hu
  rw [unitBytes, if_neg hu] at h
  split at h
  · exact not_ascii_or _ rfl (h _ List.mem_cons_self)
  · split at h
    · exact absurd (h 0xef List.mem_cons_self) (by decide)
    · exact not_ascii_or _ rfl (h _ List.mem_cons_self)

theorem unitBytes_of_lt {u : U16} (h : u < 0x80) : unitBytes u = [u.setWidth 8] := if_pos h

/-- Text whose bytes are all ASCII is its code units. -/
theorem toUtf8_ascii {s : JsString} (h : ∀ c ∈ toUtf8 s, c < 0x80) :
    (∀ u ∈ s, u < 0x80) ∧ toUtf8 s = s.map (BitVec.setWidth 8) := by
  induction s using toUtf8.induct with
  | case1 => simp [toUtf8]
  | case2 u =>
      have hu := lt_of_unitBytes_ascii h
      exact ⟨by simpa using hu, unitBytes_of_lt hu⟩
  | case3 u v s hpair ih =>
      rw [toUtf8, if_pos hpair] at h
      exact absurd (h _ (List.mem_append_left _ List.mem_cons_self)) (not_ascii_or _ rfl)
  | case4 u v s hpair ih =>
      rw [toUtf8, if_neg hpair] at h ⊢
      have hu := lt_of_unitBytes_ascii fun c hc ↦ h c (List.mem_append_left _ hc)
      obtain ⟨hlt, heq⟩ := ih fun c hc ↦ h c (List.mem_append_right _ hc)
      refine ⟨List.forall_mem_cons.mpr ⟨hu, hlt⟩, ?_⟩
      rw [heq, unitBytes_of_lt hu]
      rfl

/-- ASCII text is converted unit by unit. -/
theorem toUtf8_of_ascii {s : JsString} (h : ∀ u ∈ s, u < 0x80) :
    toUtf8 s = s.map (BitVec.setWidth 8) := by
  induction s using toUtf8.induct with
  | case1 => rfl
  | case2 u => exact unitBytes_of_lt (h u (by simp))
  | case3 u v s hpair ih =>
      have hu : u < 0x80 := h u (by simp)
      simp only [isHighSurrogate, Bool.and_eq_true, decide_eq_true_eq] at hpair
      have hhigh := BitVec.le_def.mp hpair.1.1
      have hlow := BitVec.lt_def.mp hu
      rw [show (0xd800 : U16).toNat = 0xd800 from rfl] at hhigh
      rw [show (0x80 : U16).toNat = 0x80 from rfl] at hlow
      omega
  | case4 u v s hpair ih =>
      rw [toUtf8, if_neg hpair, ih fun x hx ↦ h x (List.mem_cons_of_mem _ hx),
        unitBytes_of_lt (h u (by simp))]
      rfl

end JsString

end Rivid
