import Rivid.Binding.Generator
import Rivid.Core.Fill
import Rivid.Core.Ulid
import Rivid.Lib.Packed

/-!
# The Node binding: identifiers in a byte buffer

A client that keeps its identifiers in one `Uint8Array` gives the binding views of it:
`decode_into` writes one, `encode` reads one, `generate_into` fills some of them and
`decode_many` makes a new array of any number.  A view may be too short or too long, or end
early because the buffer does.

Such a buffer is a list of identifiers: every call returns and leaves what it would on the
list.  A call that fails leaves all of them alone.
-/

namespace Rivid.Napi

open Chunks Packed Rng

/-! ## The functions -/

/-- The error of a buffer that has to be of 16 bytes. -/
def invalidLength (got : ℕ) : NapiError := toNapi (.invalidLength 16 got)

/-- Decodes a canonical ULID into its 16 bytes; `ulid_to_bytes` is the same. -/
def decode (id : Str) : Except NapiError (List U8) :=
  ((Crockford.decodeChars id).map (beBytes 16)).mapError toNapi

/-- Decodes a ULID string into a buffer of the caller. -/
def decodeInto (id : Str) (out : List U8) : Except NapiError Unit × List U8 :=
  if out.length ≠ 16 then (.error (invalidLength out.length), out)
  else
    match Crockford.decodeChars id with
    | .error e => (.error (toNapi e), out)
    | .ok v => (.ok (), beBytes 16 v)

/-- The loop of `decode_many`, from index `i` on. -/
def decodeManyLoop (out : List U8) (i : ℕ) : List Str → Except NapiError (List U8)
  | [] => .ok out
  | id :: ids => do
      let v ← (Crockford.decodeChars id).mapError toNapi
      decodeManyLoop (overwrite out (16 * i) (beBytes 16 v)) (i + 1) ids

/-- Decodes ULID strings into one contiguous array, index `i` at offset `16 * i`. -/
def decodeMany (ids : List Str) : Except NapiError (List U8) :=
  if maxBatch < (ids.length : ℤ) then .error (invalidCount ids.length)
  else decodeManyLoop (List.replicate (ids.length * 16) 0) 0 ids

/-- Encodes exactly 16 bytes as a ULID string; `bytes_to_ulid` is the same. -/
def encode (bytes : List U8) : Except NapiError Str :=
  if bytes.length ≠ 16 then .error (invalidLength bytes.length)
  else .ok (Crockford.encodeString (fromBeBytes 128 bytes))

/-- Fills a buffer of the caller with ULIDs when the wall clock shows `nowMs`; the count
goes back as a `u32`. -/
def generateInto {ρ : Type} [Rng ρ] (buffer : List U8) (nowMs : U64) (rng : ρ) :
    Except NapiError ℕ × List U8 × ρ :=
  let filled := fillUlidWithTs buffer nowMs rng
  ((filled.result.map (· % 2 ^ 32)).mapError toNapi, filled.buf, filled.rng)

/-! ## One buffer -/

/-- The buffer of a client, with the secure source the binding fills it from. -/
structure Store (ρ : Type) where
  buf : List U8
  rng : ρ

/-- The calls of a client; a view is `buffer.subarray(16 * slot, 16 * slot + length)`. -/
inductive StoreCall where
  | decodeInto (id : Str) (slot length : ℕ)
  | encode (slot length : ℕ)
  | generateInto (slot length : ℕ) (nowMs : U64)
  | decodeMany (ids : List Str)

/-- What a call returns. -/
inductive Reply where
  | undefined
  | string (s : Str)
  | number (n : ℕ)
  | array
deriving DecidableEq, Repr

/-- The bytes of a view, which ends where the buffer does. -/
def view (buf : List U8) (slot length : ℕ) : List U8 := (buf.drop (16 * slot)).take length

/-- One call.  The array of `decode_many` is what the client goes on with. -/
def Store.step {ρ : Type} [Rng ρ] (st : Store ρ) (c : StoreCall) :
    Except NapiError Reply × Store ρ :=
  match c with
  | .decodeInto id slot length =>
      let out := Napi.decodeInto id (view st.buf slot length)
      (out.1.map fun _ ↦ .undefined, { st with buf := overwrite st.buf (16 * slot) out.2 })
  | .encode slot length => ((Napi.encode (view st.buf slot length)).map .string, st)
  | .generateInto slot length nowMs =>
      let out := Napi.generateInto (view st.buf slot length) nowMs st.rng
      (out.1.map .number, ⟨overwrite st.buf (16 * slot) out.2.1, out.2.2⟩)
  | .decodeMany ids =>
      match Napi.decodeMany ids with
      | .error e => (.error e, st)
      | .ok bytes => (.ok .array, { st with buf := bytes })

/-! ## A list of identifiers -/

/-- What the buffer stands for. -/
structure Slots (ρ : Type) where
  ids : List U128
  rng : ρ

namespace Slots

/-- How long a view is. -/
def viewLength (count slot length : ℕ) : ℕ := min length (16 * (count - slot))

/-- The identifier that two words of the source make. -/
def fresh {ρ : Type} [Rng ρ] (nowMs : U64) (rng : ρ) : U128 × ρ :=
  let hi := nextU64 rng
  let lo := nextU64 hi.2
  ((Id128.fromParts nowMs
    ((hi.1.setWidth 128 <<< 64 ||| lo.1.setWidth 128) &&& Id128.randomMask)).asU128, lo.2)

/-- The identifiers that a list of strings decodes to. -/
def decodeAll (ids : List Str) : Except NapiError (List U128) :=
  ids.mapM fun id ↦ (Crockford.decodeChars id).mapError toNapi

/-- One call on the list. -/
def step {ρ : Type} [Rng ρ] (s : Slots ρ) (c : StoreCall) : Except NapiError Reply × Slots ρ :=
  match c with
  | .decodeInto id slot length =>
      let got := viewLength s.ids.length slot length
      if got ≠ 16 then (.error (invalidLength got), s)
      else
        match Crockford.decodeChars id with
        | .error e => (.error (toNapi e), s)
        | .ok v => (.ok .undefined, { s with ids := overwrite s.ids slot [v] })
  | .encode slot length =>
      let got := viewLength s.ids.length slot length
      if got ≠ 16 then (.error (invalidLength got), s)
      else (.ok (.string (Crockford.encodeString (s.ids.getD slot 0))), s)
  | .generateInto slot length nowMs =>
      let got := viewLength s.ids.length slot length
      if got % 16 ≠ 0 then (.error (toNapi (.invalidLength (nextMultipleOf got 16) got)), s)
      else
        let made := pushLoop (fresh nowMs) (got / 16) s.rng
        (.ok (.number (got / 16 % 2 ^ 32)), ⟨overwrite s.ids slot made.1, made.2⟩)
  | .decodeMany ids =>
      if maxBatch < (ids.length : ℤ) then (.error (invalidCount ids.length), s)
      else
        match decodeAll ids with
        | .error e => (.error e, s)
        | .ok vs => (.ok .array, { s with ids := vs })

/-- The buffer that holds the list. -/
def store {ρ : Type} (s : Slots ρ) : Store ρ := ⟨pack (beBytes 16) s.ids, s.rng⟩

end Slots

/-! ## The buffer refines the list -/

theorem beBytes_width (v : U128) : (beBytes 16 v).length = 16 := length_beBytes 16 v

section Views

variable {ids : List U128} {slot length : ℕ}

theorem length_view : (view (pack (beBytes 16) ids) slot length).length =
    Slots.viewLength ids.length slot length := by
  rw [view, List.length_take, List.length_drop, length_pack beBytes_width, Slots.viewLength]
  omega

/-- A view of 16 bytes is an identifier. -/
theorem view_of_length_eq (h : Slots.viewLength ids.length slot length = 16) :
    slot < ids.length ∧
      view (pack (beBytes 16) ids) slot length = beBytes 16 (ids.getD slot 0) := by
  have hslot : slot < ids.length := by
    rw [Slots.viewLength] at h
    omega
  have hview : (view (pack (beBytes 16) ids) slot length).length = 16 * 1 := length_view.trans h
  refine ⟨hslot, ?_⟩
  rw [view, window_pack beBytes_width hview, List.drop_eq_getElem_cons hslot, List.take_succ_cons,
    List.take_zero, pack_singleton, List.getD_eq_getElem?_getD, List.getElem?_eq_getElem hslot]
  rfl

/-- Writing the bytes of an identifier over those of another. -/
theorem overwrite_beBytes (v : U128) : overwrite (pack (beBytes 16) ids) (16 * slot)
    (beBytes 16 v) = pack (beBytes 16) (overwrite ids slot [v]) := by
  rw [← overwrite_pack beBytes_width, pack_singleton]

/-- What a call does not change in a view, it does not change in the buffer. -/
theorem overwrite_view (buf : List U8) :
    overwrite buf (16 * slot) (view buf slot length) = buf := overwrite_window buf _ _

end Views

theorem decodeAll_cons_of_ok {id : Str} {v : U128} (h : Crockford.decodeChars id = .ok v)
    (ids : List Str) :
    Slots.decodeAll (id :: ids) = (Slots.decodeAll ids).map (v :: ·) := by
  rw [Slots.decodeAll, List.mapM_cons, h, Slots.decodeAll]
  cases ids.mapM fun id ↦ (Crockford.decodeChars id).mapError toNapi <;> rfl

/-- The loop has written the identifiers it has decoded over the first zeros. -/
theorem decodeManyLoop_pack (done : List U128) (ids : List Str) :
    decodeManyLoop (pack (beBytes 16) (done ++ List.replicate ids.length 0)) done.length ids =
      (Slots.decodeAll ids).map fun vs ↦ pack (beBytes 16) (done ++ vs) := by
  induction ids generalizing done with
  | nil => rfl
  | cons id ids ih =>
      rw [decodeManyLoop]
      cases hid : Crockford.decodeChars id with
      | error e =>
          rw [Slots.decodeAll, List.mapM_cons, hid]
          rfl
      | ok v =>
          have hwrite : overwrite (done ++ List.replicate (id :: ids).length (0 : U128))
              done.length [v] = (done ++ [v]) ++ List.replicate ids.length 0 := by
            rw [overwrite, List.take_left' rfl, List.drop_append, List.length_singleton,
              List.drop_eq_nil_of_le (Nat.le_succ _), Nat.add_sub_cancel_left, List.length_cons,
              List.replicate_succ]
            exact (List.append_assoc ..).symm
          have hrest := ih (done ++ [v])
          rw [List.length_append, List.length_singleton] at hrest
          simp only [Except.mapError, ok_bind]
          rw [overwrite_beBytes, hwrite, hrest, decodeAll_cons_of_ok hid]
          cases Slots.decodeAll ids with
          | error e => rfl
          | ok vs => simp only [Except.map, List.append_assoc, List.singleton_append]

/-- Decoding in one call is decoding one by one, into an array of as many zeros. -/
theorem decodeMany_eq (ids : List Str) : decodeMany ids =
    if maxBatch < (ids.length : ℤ) then .error (invalidCount ids.length)
    else (Slots.decodeAll ids).map (pack (beBytes 16)) := by
  have hzeros : List.replicate (ids.length * 16) (0 : U8) =
      pack (beBytes 16) ([] ++ List.replicate ids.length (0 : U128)) := by
    have hzero : beBytes 16 (0 : U128) = List.replicate 16 0 := by decide
    rw [List.nil_append, pack, List.flatMap_replicate, hzero, List.flatten_replicate_replicate]
  rw [decodeMany, hzeros]
  exact congrArg _ (decodeManyLoop_pack [] ids)

/-- The array of `decode_many` is the arrays of `decode` put together. -/
theorem decodeMany_eq_decode (ids : List Str) : decodeMany ids =
    if maxBatch < (ids.length : ℤ) then .error (invalidCount ids.length)
    else (ids.mapM decode).map List.flatten := by
  have hone : ∀ id v, Crockford.decodeChars id = .ok v → decode id = .ok (beBytes 16 v) :=
    fun id v h ↦ by rw [decode, h]; rfl
  have hall : (Slots.decodeAll ids).map (pack (beBytes 16)) =
      (ids.mapM decode).map List.flatten := by
    induction ids with
    | nil => rfl
    | cons id ids ih =>
        cases hid : Crockford.decodeChars id with
        | error e =>
            rw [Slots.decodeAll, List.mapM_cons, List.mapM_cons, decode, hid]
            rfl
        | ok v =>
            have hids : (Slots.decodeAll (id :: ids)).map (pack (beBytes 16)) =
                ((Slots.decodeAll ids).map (pack (beBytes 16))).map (beBytes 16 v ++ ·) := by
              rw [decodeAll_cons_of_ok hid]
              cases Slots.decodeAll ids <;> rfl
            have hsingles : ((id :: ids).mapM decode).map List.flatten =
                ((ids.mapM decode).map List.flatten).map (beBytes 16 v ++ ·) := by
              rw [List.mapM_cons, hone id v hid]
              cases ids.mapM decode <;> rfl
            rw [hids, hsingles, ih]
  rw [decodeMany_eq, hall]

section Fill

variable {ρ : Type} [Rng ρ]

theorem generateInto_of_not_dvd {buf : List U8} {nowMs : U64} {rng : ρ}
    (h : buf.length % 16 ≠ 0) : generateInto buf nowMs rng =
      (.error (toNapi (.invalidLength (nextMultipleOf buf.length 16) buf.length)), buf, rng) := by
  rw [generateInto, fillUlidWithTs, fillBlocks_of_not_dvd h]
  rfl

/-- A fill of a view makes fresh identifiers one after the other. -/
theorem generateInto_view {ids : List U128} {slot length got : ℕ} {nowMs : U64} (rng : ρ)
    (hgot : Slots.viewLength ids.length slot length = got) (h : got % 16 = 0) :
    generateInto (view (pack (beBytes 16) ids) slot length) nowMs rng =
      (.ok (got / 16 % 2 ^ 32), pack (beBytes 16) (pushLoop (Slots.fresh nowMs) (got / 16) rng).1,
        (pushLoop (Slots.fresh nowMs) (got / 16) rng).2) := by
  have hlen : (view (pack (beBytes 16) ids) slot length).length = got := length_view.trans hgot
  have hlen' : (((pack (beBytes 16) ids).drop (16 * slot)).take length).length =
      16 * (got / 16) := hlen.trans (by omega)
  have hcount : ((ids.drop slot).take (got / 16)).length = got / 16 := by
    have hpack := hlen'
    rw [window_pack beBytes_width hlen', length_pack beBytes_width] at hpack
    omega
  have hfill : ∀ buf : List U8, buf.length = got → fillUlidWithTs buf nowMs rng =
      ⟨.ok (got / 16), (fillLoop 16 (fun rng ↦ (beBytes 16 (Slots.fresh nowMs rng).1,
        (Slots.fresh nowMs rng).2)) (got / 16) buf rng).1,
        sourceAfter (Slots.fresh nowMs) rng (got / 16)⟩ := by
    intro buf hbuf
    rw [fillUlidWithTs, fillBlocks, validateLen, hbuf, if_neg (not_not.mpr h)]
    exact congrArg (Filled.mk _ _) (snd_fillLoop buf rng)
  rw [generateInto, hfill _ hlen, view, window_pack beBytes_width hlen',
    fillLoop_pack beBytes_width hcount.ge, List.drop_eq_nil_of_le hcount.le, List.append_nil,
    pushLoop_eq]
  rfl

/-- A call on the buffer is the call on the list. -/
theorem step_store (s : Slots ρ) (c : StoreCall) :
    s.store.step c = ((s.step c).1, (s.step c).2.store) := by
  cases c with
  | decodeInto id slot length =>
      rw [Store.step, Slots.step, Napi.decodeInto, Slots.store, length_view]
      by_cases hgot : Slots.viewLength s.ids.length slot length = 16
      · simp only [hgot, ne_eq, not_true_eq_false, if_false]
        cases hid : Crockford.decodeChars id with
        | error e => simp only [overwrite_view]; rfl
        | ok v => simp only [overwrite_beBytes]; rfl
      · simp only [hgot, ne_eq, not_false_eq_true, if_true, overwrite_view]
        rfl
  | encode slot length =>
      rw [Store.step, Slots.step, Napi.encode, Slots.store, length_view]
      by_cases hgot : Slots.viewLength s.ids.length slot length = 16
      · simp only [hgot, ne_eq, not_true_eq_false, if_false, (view_of_length_eq hgot).2,
          Convert.fromBeBytes_beBytes]
        rfl
      · simp only [hgot, ne_eq, not_false_eq_true, if_true]
        rfl
  | generateInto slot length nowMs =>
      rw [Store.step, Slots.step, Slots.store]
      by_cases hgot : Slots.viewLength s.ids.length slot length % 16 = 0
      · simp only [generateInto_view s.rng rfl hgot, hgot, ne_eq, not_true_eq_false, if_false,
          overwrite_pack beBytes_width]
        rfl
      · have hlen : (view (pack (beBytes 16) s.ids) slot length).length % 16 ≠ 0 := by
          rw [length_view]
          exact hgot
        simp only [generateInto_of_not_dvd hlen, length_view, hgot, ne_eq, not_false_eq_true,
          if_true, overwrite_view]
        rfl
  | decodeMany ids =>
      rw [Store.step, Slots.step, decodeMany_eq]
      by_cases hmany : maxBatch < (ids.length : ℤ)
      · simp only [hmany, if_true]
      · simp only [hmany, if_false]
        cases Slots.decodeAll ids <;> rfl

/-- **A buffer is a list of identifiers.**  Whatever calls a client makes on views of its
buffer, they return what the same calls on the list return, and after each of them the
buffer holds the bytes of the list. -/
theorem run_store (s : Slots ρ) (calls : List StoreCall) :
    Machine.run (fun st c ↦ some (Store.step st c)) s.store calls =
      (Machine.run (fun s c ↦ some (Slots.step s c)) s calls).map
        (List.map (Event.mapState Slots.store)) :=
  Machine.run_map (fun s c ↦ congrArg some (step_store s c)) s calls

/-! ## Reading back -/

omit [Rng ρ] in
/-- The buffers that hold identifiers and nothing else. -/
theorem exists_store {buf : List U8} (h : 16 ∣ buf.length) (rng : ρ) :
    ∃ s : Slots ρ, s.store = ⟨buf, rng⟩ := by
  obtain ⟨n, hn⟩ := h
  induction n generalizing buf with
  | zero => exact ⟨⟨[], rng⟩, by rw [List.eq_nil_of_length_eq_zero hn]; rfl⟩
  | succ n ih =>
      have hlength : (buf.drop 16).length = 16 * n := by
        rw [List.length_drop]
        omega
      obtain ⟨s, hs⟩ := ih hlength
      have hfirst : (buf.take 16).length = 16 := by
        rw [List.length_take]
        omega
      have hrest : pack (beBytes 16) s.ids = buf.drop 16 := congrArg Store.buf hs
      refine ⟨⟨fromBeBytes 128 (buf.take 16) :: s.ids, rng⟩, ?_⟩
      rw [Slots.store, pack, List.flatMap_cons, beBytes_fromBeBytes hfirst, ← pack, hrest,
        List.take_append_drop]

/-- The call puts an identifier at `slot`: it succeeds, and the view it writes, or the array
it makes, has this slot. -/
def Puts (slot : ℕ) (e : Event (Store ρ) StoreCall (Except NapiError Reply)) : Prop :=
  match e.input, e.output with
  | _, .error _ => False
  | .decodeInto _ first _, .ok _ => first = slot
  | .encode _ _, .ok _ => False
  | .generateInto first length _, .ok _ => first ≤ slot ∧ slot < first + length / 16
  | .decodeMany _, .ok _ => True

/-- The buffer holds identifiers, and `v` at `slot`. -/
def Holds (slot : ℕ) (v : U128) (st : Store ρ) : Prop :=
  ∃ s : Slots ρ, s.store = st ∧ s.ids[slot]? = some v

theorem getElem?_overwrite_of_outside {α : Type*} {xs ys : List α} {i k : ℕ}
    (hfits : i + ys.length ≤ xs.length ∨ ys = []) (hk : ¬ (i ≤ k ∧ k < i + ys.length)) :
    (overwrite xs i ys)[k]? = xs[k]? := by
  rcases hfits with hfits | rfl
  · rw [getElem?_overwrite hfits, if_neg hk]
  · rw [overwrite, List.nil_append, List.length_nil, Nat.add_zero, List.take_append_drop]

/-- A call keeps what is in the slots it does not put anything at. -/
theorem holds_of_step {slot : ℕ} {v : U128} {st : Store ρ} {c : StoreCall}
    (hst : Holds slot v st) (hputs : ¬ Puts slot ⟨st, c, (st.step c).1, (st.step c).2⟩) :
    Holds slot v (st.step c).2 := by
  obtain ⟨s, rfl, hv⟩ := hst
  rw [step_store] at hputs ⊢
  refine ⟨_, rfl, ?_⟩
  cases c with
  | decodeInto id first length =>
      simp only [Slots.step] at hputs ⊢
      by_cases hgot : Slots.viewLength s.ids.length first length = 16
      · simp only [hgot, ne_eq, not_true_eq_false, if_false] at hputs ⊢
        cases hid : Crockford.decodeChars id with
        | error e => exact hv
        | ok w =>
            simp only [hid, Puts] at hputs
            have hin := (view_of_length_eq hgot).1
            rw [getElem?_overwrite_of_outside (.inl (Nat.succ_le_of_lt hin))
              (by rw [List.length_singleton]; omega)]
            exact hv
      · simp only [hgot, ne_eq, not_false_eq_true, if_true]
        exact hv
  | encode first length =>
      simp only [Slots.step]
      split <;> exact hv
  | generateInto first length nowMs =>
      simp only [Slots.step] at hputs ⊢
      by_cases hgot : Slots.viewLength s.ids.length first length % 16 = 0
      · simp only [hgot, ne_eq, not_true_eq_false, if_false, Puts] at hputs ⊢
        have hmade : (pushLoop (Slots.fresh nowMs)
            (Slots.viewLength s.ids.length first length / 16) s.rng).1.length =
              min (length / 16) (s.ids.length - first) := by
          rw [pushLoop_eq, List.length_map, List.length_range, Slots.viewLength]
          omega
        rw [getElem?_overwrite_of_outside ?_ (by omega)]
        · exact hv
        · by_cases hin : first ≤ s.ids.length
          · exact .inl (by omega)
          · exact .inr (List.eq_nil_of_length_eq_zero (by omega))
      · simp only [hgot, ne_eq, not_false_eq_true, if_true]
        exact hv
  | decodeMany ids =>
      simp only [Slots.step] at hputs ⊢
      split at hputs
      · rename_i hmany
        rw [if_pos hmany]
        exact hv
      · rename_i hmany
        rw [if_neg hmany]
        cases hids : Slots.decodeAll ids with
        | error e => exact hv
        | ok vs => exact absurd (by rw [hids]; trivial) hputs

theorem holds_of_decodeInto {s : Slots ρ} {id : Str} {slot length : ℕ}
    (h : (s.step (.decodeInto id slot length)).1 = .ok .undefined) :
    ∃ v, Crockford.decodeChars id = .ok v ∧
      Holds slot v (s.step (.decodeInto id slot length)).2.store := by
  simp only [Slots.step] at h ⊢
  by_cases hgot : Slots.viewLength s.ids.length slot length = 16
  · simp only [hgot, ne_eq, not_true_eq_false, if_false] at h ⊢
    cases hid : Crockford.decodeChars id with
    | error e =>
        rw [hid] at h
        cases h
    | ok v =>
        have hin : slot + [v].length ≤ s.ids.length := (view_of_length_eq hgot).1
        refine ⟨v, rfl, _, rfl, ?_⟩
        dsimp only
        rw [getElem?_overwrite hin, if_pos ⟨le_rfl, Nat.lt_succ_self slot⟩, Nat.sub_self]
        rfl
  · simp only [hgot, ne_eq, not_false_eq_true, if_true] at h
    cases h

theorem encode_of_holds {st : Store ρ} {slot length : ℕ} {v : U128} {s : Str}
    (hst : Holds slot v st) (h : (st.step (.encode slot length)).1 = .ok (.string s)) :
    s = Crockford.encodeString v := by
  obtain ⟨xs, rfl, hv⟩ := hst
  rw [step_store] at h
  simp only [Slots.step] at h
  split at h
  · cases h
  · rw [Except.ok.injEq, Reply.string.injEq, List.getD_eq_getElem?_getD, hv] at h
    exact h.symm

/-- What a view is given, it gives back in upper case, as long as no call puts anything
else there. -/
theorem encode_of_decodeInto {buf : List U8} {rng : ρ} {calls : List StoreCall}
    {es : List (Event (Store ρ) StoreCall (Except NapiError Reply))} (hbuf : 16 ∣ buf.length)
    (h : Machine.run (fun st c ↦ some (Store.step st c)) ⟨buf, rng⟩ calls = some es)
    {m n slot length length' : ℕ} {id s : Str} (hmn : m < n) (hn : n < es.length)
    (hput : es[m].input = .decodeInto id slot length ∧ es[m].output = .ok .undefined)
    (hkept : ∀ k (hk : k < n), m < k → ¬ Puts slot es[k])
    (hread : es[n].input = .encode slot length' ∧ es[n].output = .ok (.string s)) :
    s = id.map toAsciiUppercase := by
  have hstep : ∀ k (hk : k < es.length),
      es[k].output = (es[k].before.step es[k].input).1 ∧
        es[k].after = (es[k].before.step es[k].input).2 := by
    intro k hk
    have := Option.some.inj (Machine.step_getElem h hk)
    exact ⟨congrArg Prod.fst this.symm, congrArg Prod.snd this.symm⟩
  have hstore : ∃ s : Slots ρ, s.store = es[m].before := by
    have hall := Machine.run_invariant (I := fun st ↦ ∃ s : Slots ρ, s.store = st)
      (J := fun _ ↦ True) ?_ (exists_store hbuf rng) (fun _ _ ↦ trivial) h
    · exact (hall _ (List.getElem_mem _)).1
    · rintro _ c o st' ⟨s, rfl⟩ - hs
      rw [step_store] at hs
      exact ⟨_, congrArg Prod.snd (Option.some.inj hs)⟩
  obtain ⟨xs, hxs⟩ := hstore
  obtain ⟨hout, hafter⟩ := hstep m (by omega)
  rw [hput.1, ← hxs, step_store] at hout hafter
  obtain ⟨v, hid, hv⟩ := holds_of_decodeInto (hout.symm.trans hput.2)
  have hv' : Holds slot v es[m].after := by
    rw [hafter]
    exact hv
  have hbefore : Holds slot v es[n].before := by
    refine Machine.before_of_kept h hmn hn hv' fun k hk hmk hst ↦ ?_
    obtain ⟨hout, hafter⟩ := hstep k (by omega)
    rw [hafter]
    refine holds_of_step hst fun hputs ↦ hkept k hk hmk ?_
    rw [← hout, ← hafter] at hputs
    exact hputs
  obtain ⟨hout, -⟩ := hstep n hn
  rw [hread.1] at hout
  rw [encode_of_holds hbefore (hout.symm.trans hread.2),
    Crockford.encodeString_of_decodeChars hid]

end Fill

/-- Two zeros. -/
def twoZeros : Store DeterministicRng := ⟨List.replicate 32 0, DeterministicRng.new 0⟩

/-- Two identifiers are put into a buffer, and the first of them is read. -/
def putTwo : List StoreCall :=
  [.decodeInto (ascii "01arz3ndektsv4rrffq69g5fav") 0 16,
    .decodeInto (ascii "01BX5ZZKBKACTAV9WEVGEMMVS0") 1 99, .encode 0 16]

theorem encode_of_decodeInto_putTwo : ∃ es s,
    Machine.run (fun st c ↦ some (Store.step st c)) twoZeros putTwo = some es ∧
      (es.map fun e ↦ e.output) = [.ok .undefined, .ok .undefined, .ok (.string s)] ∧
      s = (ascii "01arz3ndektsv4rrffq69g5fav").map toAsciiUppercase := by
  let st₁ := (twoZeros.step (.decodeInto (ascii "01arz3ndektsv4rrffq69g5fav") 0 16)).2
  let st₂ := (st₁.step (.decodeInto (ascii "01BX5ZZKBKACTAV9WEVGEMMVS0") 1 99)).2
  have hout₁ : (twoZeros.step (.decodeInto (ascii "01arz3ndektsv4rrffq69g5fav") 0 16)).1 =
      .ok .undefined := by decide +kernel
  have hout₂ : (st₁.step (.decodeInto (ascii "01BX5ZZKBKACTAV9WEVGEMMVS0") 1 99)).1 =
      .ok .undefined := by decide +kernel
  have hout₃ : (st₂.step (.encode 0 16)).1 =
      .ok (.string (ascii "01ARZ3NDEKTSV4RRFFQ69G5FAV")) := by decide +kernel
  have hrun : Machine.run (fun st c ↦ some (Store.step st c)) twoZeros putTwo =
      some [⟨twoZeros, .decodeInto (ascii "01arz3ndektsv4rrffq69g5fav") 0 16, .ok .undefined, st₁⟩,
        ⟨st₁, .decodeInto (ascii "01BX5ZZKBKACTAV9WEVGEMMVS0") 1 99, .ok .undefined, st₂⟩,
        ⟨st₂, .encode 0 16, .ok (.string (ascii "01ARZ3NDEKTSV4RRFFQ69G5FAV")),
          (st₂.step (.encode 0 16)).2⟩] := by
    refine Machine.run_cons_eq_some_iff.mpr ⟨_, _, _, congrArg some (Prod.ext hout₁ rfl), ?_, rfl⟩
    refine Machine.run_cons_eq_some_iff.mpr ⟨_, _, _, congrArg some (Prod.ext hout₂ rfl), ?_, rfl⟩
    exact Machine.run_cons_eq_some_iff.mpr ⟨_, _, _, congrArg some (Prod.ext hout₃ rfl),
      Machine.run_nil _, rfl⟩
  refine ⟨_, ascii "01ARZ3NDEKTSV4RRFFQ69G5FAV", hrun, rfl, ?_⟩
  refine encode_of_decodeInto (m := 0) (n := 2) (by decide) hrun (by decide) (by decide)
    ⟨rfl, rfl⟩ (fun k hk hpos ↦ ?_) ⟨rfl, rfl⟩
  obtain rfl : k = 1 := by omega
  exact Nat.one_ne_zero

end Rivid.Napi
