import Rivid.Core.Ulid

/-!
# The shared 128-bit identifier

An identifier is a 48-bit timestamp above an 80-bit random part.  `fromParts`
keeps the low 48 bits of whatever timestamp it is given.
-/

namespace Rivid

/-- A 128-bit identifier. -/
structure Id128 where
  /-- The wrapped `u128`. -/
  asU128 : U128
deriving DecidableEq, Repr

namespace Id128

/-- Mask covering the 80-bit randomness component. -/
def randomMask : U128 := (1 <<< 80) - 1

/-- Construct from a millisecond timestamp and an 80-bit random part. -/
def fromParts (timestampMs : U64) (randomness : U128) : Id128 :=
  ⟨((timestampMs.setWidth 128 &&& ((1 <<< 48) - 1)) <<< 80) ||| (randomness &&& randomMask)⟩

/-- Timestamp component in milliseconds (top 48 bits). -/
def timestampMs (id : Id128) : U64 := (id.asU128 >>> 80).setWidth 64

/-- Randomness component (low 80 bits). -/
def randomness (id : Id128) : U128 := id.asU128 &&& randomMask

@[simp] theorem toNat_randomMask : randomMask.toNat = 2 ^ 80 - 1 := rfl

theorem le_randomMask_iff {r : U128} : r ≤ randomMask ↔ r.toNat < 2 ^ 80 := by
  rw [BitVec.le_def, toNat_randomMask]
  omega

theorem toNat_fromParts (t : U64) (r : U128) :
    (fromParts t r).asU128.toNat = t.toNat % 2 ^ 48 * 2 ^ 80 + r.toNat % 2 ^ 80 := by
  have htime : (t.setWidth 128 &&& ((1 <<< 48) - 1) : U128).toNat = t.toNat % 2 ^ 48 := by
    have ht := t.isLt
    rw [toNat_and_mask (k := 48) rfl, BitVec.toNat_setWidth]
    omega
  have hshift : ((t.setWidth 128 &&& ((1 <<< 48) - 1) : U128) <<< 80).toNat =
      t.toNat % 2 ^ 48 * 2 ^ 80 := by
    rw [toNat_shiftLeft_of_fits (by rw [htime]; omega), htime]
  have hrand : (r &&& randomMask).toNat = r.toNat % 2 ^ 80 := toNat_and_mask rfl
  rw [fromParts, toNat_or_of_clear (k := 80) (hshift ▸ Dvd.intro_left _ rfl)
    (hrand ▸ Nat.mod_lt _ (by decide)), hshift, hrand]

/-- Parts in their domains are kept as they are. -/
theorem toNat_fromParts_of_le {t : U64} {r : U128} (ht : t ≤ timeMax) (hr : r ≤ randomMask) :
    (fromParts t r).asU128.toNat = t.toNat * 2 ^ 80 + r.toNat := by
  rw [toNat_fromParts, Nat.mod_eq_of_lt (le_timeMax_iff.mp ht),
    Nat.mod_eq_of_lt (le_randomMask_iff.mp hr)]

theorem toNat_timestampMs (id : Id128) : id.timestampMs.toNat = id.asU128.toNat / 2 ^ 80 := by
  have h := id.asU128.isLt
  rw [timestampMs, BitVec.toNat_setWidth, toNat_ushiftRight_eq_div]
  omega

theorem timestampMs_fromParts {t : U64} {r : U128} (ht : t ≤ timeMax) (hr : r ≤ randomMask) :
    (fromParts t r).timestampMs = t := by
  have hr' := le_randomMask_iff.mp hr
  apply BitVec.eq_of_toNat_eq
  rw [toNat_timestampMs, toNat_fromParts_of_le ht hr]
  omega

theorem toNat_and_randomMask (r : U128) : (r &&& randomMask).toNat = r.toNat % 2 ^ 80 :=
  toNat_and_mask rfl

theorem toNat_randomness (id : Id128) : id.randomness.toNat = id.asU128.toNat % 2 ^ 80 :=
  toNat_and_randomMask id.asU128

theorem randomness_fromParts {t : U64} {r : U128} (ht : t ≤ timeMax) (hr : r ≤ randomMask) :
    (fromParts t r).randomness = r := by
  have hr' := le_randomMask_iff.mp hr
  apply BitVec.eq_of_toNat_eq
  rw [toNat_randomness, toNat_fromParts_of_le ht hr]
  omega

end Id128

/-! ## The timestamp in the text -/

namespace Crockford

/-- The time loop reads the base-32 number of its characters. -/
theorem foldlM_time_of_parse {chars : Str} {acc : U64} {w : ℕ} (hw : base32.parse chars = some w)
    (hfit : acc.toNat * 32 ^ chars.length + w < 2 ^ 64) :
    ∃ t : U64, chars.foldlM (fun (time : U64) c ↦ do
        let d ← digit c
        pure (time * 32 + d.setWidth 64)) acc = Except.ok t ∧
      t.toNat = acc.toNat * 32 ^ chars.length + w := by
  induction chars generalizing acc w with
  | nil =>
      obtain rfl : 0 = w := by simpa using hw
      exact ⟨acc, rfl, by simp⟩
  | cons c chars ih =>
      rw [Alphabet.parse_cons, Option.bind_eq_some_iff] at hw
      obtain ⟨d, hd, hw⟩ := hw
      obtain ⟨v, hv, rfl⟩ := Option.map_eq_some_iff.mp hw
      obtain ⟨x, hx, rfl⟩ := digit_of_some hd
      have hlt := base32.digit_lt c _ hd
      have hsplit : acc.toNat * 32 ^ (c :: chars).length + (x.toNat * 32 ^ chars.length + v) =
          (acc.toNat * 32 + x.toNat) * 32 ^ chars.length + v := by
        rw [List.length_cons]
        ring
      have hpos : 0 < 32 ^ chars.length := Nat.pow_pos (by decide)
      have hsmall : (acc.toNat * 32 + x.toNat) * 1 ≤
          (acc.toNat * 32 + x.toNat) * 32 ^ chars.length :=
        Nat.mul_le_mul_left _ hpos
      have hnext : (acc * 32 + x.setWidth 64).toNat = acc.toNat * 32 + x.toNat := by
        rw [BitVec.toNat_add, BitVec.toNat_mul, BitVec.toNat_setWidth,
          show BitVec.toNat (32 : U64) = 32 from rfl]
        omega
      rw [hsplit] at hfit ⊢
      rw [← hnext] at hfit ⊢
      obtain ⟨t, ht, hval⟩ := ih hv hfit
      exact ⟨t, by rw [List.foldlM_cons, hx]; exact ht, hval⟩

theorem decodeTimeBytes_of_parse {chars : Str} {w : ℕ} (hlen : chars.length = 10)
    (hw : base32.parse chars = some w) (hle : w < 2 ^ 48) :
    ∃ t, decodeTimeBytes chars = .ok t ∧ t.toNat = w := by
  have hfit : (0 : U64).toNat * 32 ^ chars.length + w < 2 ^ 64 := by
    rw [show (0 : U64).toNat = 0 from rfl]
    omega
  obtain ⟨t, ht, hval⟩ := foldlM_time_of_parse hw hfit
  rw [show (0 : U64).toNat = 0 from rfl, Nat.zero_mul, Nat.zero_add] at hval
  have htime : ¬ t > timeMax := by
    rw [gt_iff_lt, BitVec.not_lt, le_timeMax_iff, hval]
    exact hle
  refine ⟨t, ?_, hval⟩
  rw [decodeTimeBytes, if_neg (not_not.mpr hlen)]
  simp only [ht, ok_bind, if_neg htime]
  rfl

end Crockford

namespace Ulid

/-- The timestamp read from an accepted string is the top 48 bits of its value. -/
theorem decodeTime_of_decodeChars {s : Str} {v : U128} (h : Crockford.decodeChars s = .ok v) :
    decodeTime s = .ok (Id128.mk v).timestampMs := by
  obtain ⟨hlen, hparse⟩ := Crockford.decodeChars_eq_ok_iff.mp h
  have hv := v.isLt
  have hne : ¬ s.length ≠ ulidLen := not_not.mpr hlen
  have hdrop : (s.drop 10).length = 16 := by rw [List.length_drop, hlen]
  rw [← List.take_append_drop 10 s, Alphabet.parse_append, Option.bind_eq_some_iff] at hparse
  obtain ⟨time, htime, hparse⟩ := hparse
  obtain ⟨rand, hrand, hsum⟩ := Option.map_eq_some_iff.mp hparse
  have hlt := Crockford.base32.parse_lt hrand
  rw [hdrop] at hlt hsum
  have hdiv : time = v.toNat / 2 ^ 80 := by omega
  obtain ⟨t, ht, hval⟩ := Crockford.decodeTimeBytes_of_parse
    (List.length_take_of_le (by omega)) htime (by omega)
  have hread : decodeTime s = .ok t := by
    rw [decodeTime, if_neg hne]
    exact ht
  rw [hread]
  congr 1
  apply BitVec.eq_of_toNat_eq
  rw [hval, Id128.toNat_timestampMs, hdiv]

/-- A timestamp read from a string is in the 48-bit domain. -/
theorem decodeTime_le {s : Str} {t : U64} (h : decodeTime s = .ok t) : t ≤ timeMax := by
  rw [decodeTime] at h
  split at h
  · cases h
  · rw [Crockford.decodeTimeBytes] at h
    split at h
    · cases h
    · obtain ⟨time, -, h⟩ := bind_eq_ok_iff.mp h
      split at h
      · cases h
      · rename_i hle
        cases h
        exact BitVec.not_lt.mp hle

end Ulid

end Rivid
