import Rivid.Binding.Codec
import Rivid.Core.Base58
import Rivid.Core.Base64Url
import Rivid.Core.Sortable
import Rivid.Core.UuidText
import Rivid.Lib.Walk

/-!
# The Node binding: conversions between the forms of an identifier

The binding writes 16 bytes as a ULID, a UUID, Base58, Base64URL or sortable text, and reads
them back.  The readers take more than the writers give: letters of either case, padding.

A client may convert as often as it likes and along any way.  What it ends with is the
canonical text of the identifier it started from, whatever the way was.
-/

namespace Rivid.Napi

/-! ## The functions -/

/-- Base58 of arbitrary bytes. -/
def encodeBase58 (bytes : List U8) : Str := Base58.encode bytes

def decodeBase58 (value : Str) : Except NapiError (List U8) :=
  (Base58.decode value).mapError toNapi

/-- Unpadded Base64URL of arbitrary bytes. -/
def encodeBase64Url (bytes : List U8) : Str := Base64Url.encode bytes

def decodeBase64Url (value : Str) : Except NapiError (List U8) :=
  (Base64Url.decode value).mapError toNapi

/-- Crockford Base32 of exactly 16 bytes. -/
def encodeCrockford (bytes : List U8) : Except NapiError Str := encode bytes

def decodeCrockford (value : Str) : Except NapiError (List U8) := decode value

/-- Sortable text of exactly 16 bytes. -/
def encodeSortable (bytes : List U8) : Except NapiError Str :=
  if bytes.length ≠ 16 then .error (invalidLength bytes.length)
  else .ok (Sortable.encodeString (fromBeBytes 128 bytes))

def decodeSortable (value : Str) : Except NapiError (List U8) :=
  ((Sortable.decodeChars value).map (beBytes 16)).mapError toNapi

def ulidToUuid (id : Str) : Except NapiError Str := (Convert.ulidToUuid id).mapError toNapi

def uuidToUlid (uuid : Str) : Except NapiError Str := (Convert.uuidToUlid uuid).mapError toNapi

def ulidToBytes (id : Str) : Except NapiError (List U8) := decode id

def bytesToUlid (bytes : List U8) : Except NapiError Str := encode bytes

/-! ## The forms -/

/-- The forms of an identifier. -/
inductive Form where
  | bytes
  | ulid
  | uuid
  | base58
  | base64Url
  | sortable
deriving DecidableEq, Repr

namespace Form

/-- What the binding writes. -/
def text : Form → U128 → Str
  | bytes, v => beBytes 16 v
  | ulid, v => Crockford.encodeString v
  | uuid, v => Convert.toUppercase (Convert.formatHyphenatedLower (Convert.toBeBytes v))
  | base58, v => Base58.encode (beBytes 16 v)
  | base64Url, v => Base64Url.encode (beBytes 16 v)
  | sortable, v => Sortable.encodeString v

/-- What the binding reads as an identifier. -/
def Means : Form → Str → U128 → Prop
  | bytes, s, v => s = beBytes 16 v
  | ulid, s, v => Crockford.decodeChars s = .ok v
  | uuid, s, v => Convert.parseHyphenatedUuid s = .ok (Convert.toBeBytes v)
  | base58, s, v => Base58.decode s = .ok (beBytes 16 v)
  | base64Url, s, v => Base64Url.decode s = .ok (beBytes 16 v)
  | sortable, s, v => Sortable.decodeChars s = .ok v

/-- The forms of 16 bytes only; the others write any number of them. -/
def Exact (f : Form) : Prop := f = ulid ∨ f = uuid ∨ f = sortable

instance : DecidablePred Exact := fun f ↦ inferInstanceAs (Decidable (f = ulid ∨ _))

end Form

/-- The conversions of the binding, by the forms they read and write. -/
inductive Conversion : Form → Form → Type where
  | encode : Conversion .bytes .ulid
  | decode : Conversion .ulid .bytes
  | encodeBase58 : Conversion .bytes .base58
  | decodeBase58 : Conversion .base58 .bytes
  | encodeBase64Url : Conversion .bytes .base64Url
  | decodeBase64Url : Conversion .base64Url .bytes
  | encodeCrockford : Conversion .bytes .ulid
  | decodeCrockford : Conversion .ulid .bytes
  | encodeSortable : Conversion .bytes .sortable
  | decodeSortable : Conversion .sortable .bytes
  | ulidToUuid : Conversion .ulid .uuid
  | uuidToUlid : Conversion .uuid .ulid
  | ulidToBytes : Conversion .ulid .bytes
  | bytesToUlid : Conversion .bytes .ulid

def Conversion.call : ∀ f g, Conversion f g → Str → Except NapiError Str
  | _, _, encode, s => Napi.encode s
  | _, _, decode, s => Napi.decode s
  | _, _, encodeBase58, s => .ok (Napi.encodeBase58 s)
  | _, _, decodeBase58, s => Napi.decodeBase58 s
  | _, _, encodeBase64Url, s => .ok (Napi.encodeBase64Url s)
  | _, _, decodeBase64Url, s => Napi.decodeBase64Url s
  | _, _, encodeCrockford, s => Napi.encodeCrockford s
  | _, _, decodeCrockford, s => Napi.decodeCrockford s
  | _, _, encodeSortable, s => Napi.encodeSortable s
  | _, _, decodeSortable, s => Napi.decodeSortable s
  | _, _, ulidToUuid, s => Napi.ulidToUuid s
  | _, _, uuidToUlid, s => Napi.uuidToUlid s
  | _, _, ulidToBytes, s => Napi.ulidToBytes s
  | _, _, bytesToUlid, s => Napi.bytesToUlid s

namespace Forms

open Positional

/-! ## Sixteen bytes -/

section Bytes

variable {s t : Str} {v w : U128}

theorem beBytes_injective (h : beBytes 16 v = beBytes 16 w) : v = w := by
  rw [← Convert.fromBeBytes_toBeBytes v, ← Convert.fromBeBytes_toBeBytes w]
  exact congrArg (fromBeBytes 128) h

theorem exists_beBytes (h : s.length = 16) : s = beBytes 16 (fromBeBytes 128 s) :=
  (beBytes_fromBeBytes (n := 16) h).symm

/-- Base58 writes at most two characters for a byte. -/
theorem length_encodeBase58_le (b : List U8) : (Base58.encode b).length ≤ 2 * b.length := by
  obtain ⟨n, m, rfl, hm⟩ := Base58.exists_replicate_append (0 : U8) b
  have hlt : value 256 (m.map BitVec.toNat) < 58 ^ (2 * m.length) := by
    have hvalue := value_lt (byte_lt (l := m))
    rw [List.length_map] at hvalue
    refine lt_of_lt_of_le hvalue ?_
    rw [Nat.pow_mul]
    exact Nat.pow_le_pow_left (by decide) _
  have hdigits := (Nat.digits_length_le_iff (by decide) _).mpr hlt
  rw [Base58.encode_replicate_append n hm, Base58.numeral]
  simp only [List.length_append, List.length_replicate, List.length_map, List.length_reverse]
  omega

theorem decodeBase58_encode (v : U128) :
    Base58.decode (Base58.encode (beBytes 16 v)) = .ok (beBytes 16 v) := by
  have hlen := length_encodeBase58_le (beBytes 16 v)
  rw [length_beBytes] at hlen
  rw [Base58.decode_encode, if_pos (le_trans hlen (by decide))]

theorem decodeBase64Url_of_length {b : List U8}
    (h : (Base64Url.encode b).length ≤ Base64Url.maxInputLen) :
    Base64Url.decode (Base64Url.encode b) = .ok b := by
  have hbare : Base64Url.encode b = Base64Url.encode b ++ List.replicate 0 Base64Url.padChar :=
    (List.append_nil _).symm
  rw [hbare] at h ⊢
  exact Base64Url.decode_encode_append (Or.inl rfl) h

theorem decodeBase64Url_encode (v : U128) :
    Base64Url.decode (Base64Url.encode (beBytes 16 v)) = .ok (beBytes 16 v) := by
  refine decodeBase64Url_of_length ?_
  rw [Base64Url.length_encode, length_beBytes]
  decide

theorem ok_of_mapError {α ε ε' : Type} {r : Except ε α} {f : ε → ε'} {a : α}
    (h : r.mapError f = .ok a) : r = .ok a := by
  cases r with
  | error e => cases h
  | ok b =>
      obtain rfl : b = a := Except.ok.inj h
      rfl

theorem exists_of_map {α β ε : Type} {r : Except ε α} {f : α → β} {b : β}
    (h : r.map f = .ok b) : ∃ a, r = .ok a := by
  cases r with
  | error e => cases h
  | ok a => exact ⟨a, rfl⟩

end Bytes

/-! ## Conversions keep the identifier -/

section Conversions

variable {f g : Form} {s t : Str} {v w : U128}

theorem means_text (f : Form) (v : U128) : f.Means (f.text v) v := by
  cases f with
  | bytes => exact rfl
  | ulid => exact Crockford.decodeChars_encodeString v
  | uuid => exact Convert.parse_toUppercase (Convert.parse_formatHyphenatedLower _)
  | base58 => exact decodeBase58_encode v
  | base64Url => exact decodeBase64Url_encode v
  | sortable => exact Sortable.decodeChars_encodeString v

theorem means_unique (hv : f.Means s v) (hw : f.Means s w) : v = w := by
  cases f with
  | bytes => exact beBytes_injective (hv.symm.trans hw)
  | ulid => exact Except.ok.inj (hv.symm.trans hw)
  | uuid => exact beBytes_injective (congrArg Subtype.val (Except.ok.inj (hv.symm.trans hw)))
  | base58 => exact beBytes_injective (Except.ok.inj (hv.symm.trans hw))
  | base64Url => exact beBytes_injective (Except.ok.inj (hv.symm.trans hw))
  | sortable => exact Except.ok.inj (hv.symm.trans hw)

theorem encode_beBytes (v : U128) : encode (beBytes 16 v) = .ok (Crockford.encodeString v) := by
  rw [encode, if_neg (not_not_intro (length_beBytes 16 v)), Convert.fromBeBytes_beBytes]

theorem encodeSortable_beBytes (v : U128) :
    encodeSortable (beBytes 16 v) = .ok (Sortable.encodeString v) := by
  rw [encodeSortable, if_neg (not_not_intro (length_beBytes 16 v)), Convert.fromBeBytes_beBytes]

theorem decode_of_means (h : Crockford.decodeChars s = .ok v) : decode s = .ok (beBytes 16 v) := by
  rw [decode, h]
  rfl

/-- A conversion writes the canonical text of what it reads. -/
theorem call_of_means (c : Conversion f g) (h : f.Means s v) : c.call f g s = .ok (g.text v) := by
  cases c with
  | encode | encodeCrockford | bytesToUlid =>
      obtain rfl : s = beBytes 16 v := h
      exact encode_beBytes v
  | decode | decodeCrockford | ulidToBytes => exact decode_of_means h
  | encodeBase58 | encodeBase64Url =>
      obtain rfl : s = beBytes 16 v := h
      rfl
  | decodeBase58 =>
      have hread : Base58.decode s = .ok (beBytes 16 v) := h
      rw [Conversion.call, decodeBase58, hread]
      rfl
  | decodeBase64Url =>
      have hread : Base64Url.decode s = .ok (beBytes 16 v) := h
      rw [Conversion.call, decodeBase64Url, hread]
      rfl
  | encodeSortable =>
      obtain rfl : s = beBytes 16 v := h
      exact encodeSortable_beBytes v
  | decodeSortable =>
      have hread : Sortable.decodeChars s = .ok v := h
      rw [Conversion.call, decodeSortable, hread]
      rfl
  | ulidToUuid =>
      have hread : Crockford.decodeChars s = .ok v := h
      rw [Conversion.call, ulidToUuid, Convert.ulidToUuid, hread]
      rfl
  | uuidToUlid =>
      have hread : Convert.parseHyphenatedUuid s = .ok (Convert.toBeBytes v) := h
      rw [Conversion.call, uuidToUlid, Convert.uuidToUlid, hread, ok_bind,
        Convert.fromBeBytes_toBeBytes]
      rfl

theorem exists_of_encode (h : encode s = .ok t) : ∃ v : U128, s = beBytes 16 v := by
  by_cases hlen : s.length = 16
  · exact ⟨_, exists_beBytes hlen⟩
  · rw [encode, if_pos hlen] at h
    cases h

theorem exists_of_encodeSortable (h : encodeSortable s = .ok t) : ∃ v : U128, s = beBytes 16 v := by
  by_cases hlen : s.length = 16
  · exact ⟨_, exists_beBytes hlen⟩
  · rw [encodeSortable, if_pos hlen] at h
    cases h

theorem exists_of_decode (h : decode s = .ok t) : ∃ v, Crockford.decodeChars s = .ok v :=
  exists_of_map (ok_of_mapError h)

/-- A conversion from or to an exact form refuses what is not an identifier. -/
theorem exists_means (c : Conversion f g) (h : c.call f g s = .ok t) (he : f.Exact ∨ g.Exact) :
    ∃ v, f.Means s v := by
  cases c with
  | encode | encodeCrockford | bytesToUlid => exact exists_of_encode h
  | decode | decodeCrockford | ulidToBytes => exact exists_of_decode h
  | encodeBase58 | decodeBase58 | encodeBase64Url | decodeBase64Url =>
      exact absurd he (by decide)
  | encodeSortable => exact exists_of_encodeSortable h
  | decodeSortable => exact exists_of_map (ok_of_mapError h)
  | ulidToUuid =>
      have hread := ok_of_mapError h
      rw [Convert.ulidToUuid, bind_eq_ok_iff] at hread
      obtain ⟨v, hv, -⟩ := hread
      exact ⟨v, hv⟩
  | uuidToUlid =>
      have hread := ok_of_mapError h
      rw [Convert.uuidToUlid, bind_eq_ok_iff] at hread
      obtain ⟨b, hb, -⟩ := hread
      refine ⟨fromBeBytes 128 b.val, ?_⟩
      rw [Form.Means, Convert.toBeBytes_fromBeBytes]
      exact hb

/-- What is read as an identifier behind a conversion was one before it. -/
theorem means_of_call (c : Conversion f g) (h : c.call f g s = .ok t) (ht : g.Means t v) :
    f.Means s v := by
  by_cases he : f.Exact ∨ g.Exact
  · obtain ⟨w, hw⟩ := exists_means c h he
    rw [call_of_means c hw, Except.ok.injEq] at h
    rw [means_unique ht (h ▸ means_text g w)]
    exact hw
  cases c with
  | encodeBase58 =>
      obtain rfl : Base58.encode s = t := Except.ok.inj h
      have hread : Base58.decode (Base58.encode s) = .ok (beBytes 16 v) := ht
      rw [Base58.decode_encode] at hread
      split at hread
      · exact Except.ok.inj hread
      · cases hread
  | encodeBase64Url =>
      obtain rfl : Base64Url.encode s = t := Except.ok.inj h
      have hread : Base64Url.decode (Base64Url.encode s) = .ok (beBytes 16 v) := ht
      rw [decodeBase64Url_of_length (Base64Url.eq_of_decode hread).1] at hread
      exact Except.ok.inj hread
  | decodeBase58 =>
      obtain rfl : t = beBytes 16 v := ht
      exact ok_of_mapError h
  | decodeBase64Url =>
      obtain rfl : t = beBytes 16 v := ht
      exact ok_of_mapError h
  | _ => exact absurd (by decide) he

theorem keeps : Walk.Keeps Conversion.call Form.Means Form.text Form.Exact where
  means_text := means_text
  call_of_means := call_of_means
  means_of_call := means_of_call
  exists_means := exists_means

end Conversions

end Forms

open Forms in
/--
**All ways between the forms are one.**  Converted along any walk, what reads as an
identifier ends as the canonical text of the same identifier.  A walk that touches a ULID, a
UUID or sortable text answers only there: any other input makes one of its conversions throw,
and walks between the same two forms answer alike.
-/
theorem conversions_commute {f g : Form} (w : Walk Conversion f g) (s : Str) :
    (¬ w.IsEmpty → ∀ v, f.Means s v → w.run Conversion.call s = .ok (g.text v)) ∧
    (w.Touches Form.Exact → ∀ t,
      (w.run Conversion.call s = .ok t ↔ ∃ v, f.Means s v ∧ t = g.text v) ∧
      ∀ w' : Walk Conversion f g, w'.Touches Form.Exact →
        (w.run Conversion.call s = .ok t ↔ w'.run Conversion.call s = .ok t)) := by
  constructor
  · intro hw v hv
    exact keeps.run_of_means hw hv
  · intro hw t
    have hread : ∀ {w : Walk Conversion f g}, w.Touches Form.Exact →
        (w.run Conversion.call s = .ok t ↔ ∃ v, f.Means s v ∧ t = g.text v) := by
      intro w hw
      exact keeps.run_eq_ok_iff hw
    constructor
    · exact hread hw
    · intro w' hw'
      rw [hread hw, hread hw']

open Forms in
theorem conversions_commute_base58 : ∃ w : Walk Conversion .ulid .base58,
    w.run Conversion.call (Form.ulid.text 7) = .ok (Form.base58.text 7) :=
  ⟨.cons .ulidToUuid (.cons .uuidToUlid (.cons .decode (.cons .encodeBase58 (.nil _)))),
    (conversions_commute _ _).1 id 7 (means_text _ _)⟩

end Rivid.Napi
