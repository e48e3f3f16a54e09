import Percept.Core

/-! Opaque cursors of `get_window`: the anchor of the last returned row and a hash of the
filter set. BLAKE3, CBOR and base64 are other people's code and stay parameters. -/
namespace Percept

/-- `(ts_ms_utc, event_id)` of the last returned row. -/
structure Anchor where
  tsMsUtc : Int64
  eventId : Ulid
  deriving DecidableEq

/-- Anchors are compared as `(ts_ms_utc, event_id)`. -/
def Anchor.stamp (a : Anchor) : Int64 ×ₗ Ulid := toLex (a.tsMsUtc,a.eventId)

abbrev FilterHash := Vector UInt8 16

/-- `p` is reserved for partition pruning and always empty. -/
structure CursorPayload where
  p : String
  a : Anchor
  h : FilterHash
  deriving DecidableEq

structure Cursor where
  anchor : Anchor
  filterHash : FilterHash
  deriving DecidableEq

inductive CursorError
  | malformed | filterMismatch
  deriving DecidableEq

/-- `blake3` hashes a byte string; `toWire` is `base64url(CBOR(payload))` and `ofWire`
its decoder. -/
structure CursorCodec where
  blake3 : List UInt8 → Vector UInt8 32
  toWire : CursorPayload → String
  ofWire : String → Option CursorPayload

/-- base64 and CBOR decode what they encoded. -/
def CursorCodec.RoundTrips (codec : CursorCodec) : Prop :=
  ∀ p, codec.ofWire (codec.toWire p) = some p

namespace Cursor

def encode (codec : CursorCodec) (c : Cursor) : String :=
  codec.toWire { p := "", a := c.anchor, h := c.filterHash }

/-- Decode and compare the stored hash with that of the resuming request. -/
def decode (codec : CursorCodec) (s : String) (expectedHash : FilterHash) :
    Except CursorError Cursor :=
  match codec.ofWire s with
  | none => .error .malformed
  | some payload =>
    if payload.h ≠ expectedHash then .error .filterMismatch
    else .ok { anchor := payload.a, filterHash := payload.h }

theorem decode_encode {codec : CursorCodec} (hcodec : codec.RoundTrips) (c : Cursor) :
    decode codec (encode codec c) c.filterHash = .ok c := by
  simp [decode,encode,hcodec _]

theorem decode_encode_mismatch {codec : CursorCodec} (hcodec : codec.RoundTrips) (c : Cursor)
    {h : FilterHash} (hne : c.filterHash ≠ h) :
    decode codec (encode codec c) h = .error .filterMismatch := by
  simp [decode,encode,hcodec _,hne]

end Cursor

/-- `to_le_bytes` of an unsigned number in `n` bytes. -/
def leBytes : ℕ → ℕ → List UInt8
  | 0, _ => []
  | n+1, x => UInt8.ofNat (x%256)::leBytes n (x/256)

/-- `u32::try_from(n).unwrap_or(u32::MAX)`. -/
def lengthU32 (n : ℕ) : ℕ := min n (2^32-1)

/-- One filter list: sorted, each entry after its length, all after their number. -/
def filterBytes (filter : Option (List String)) : List UInt8 :=
  let sorted := (filter.getD []).insertionSort (· ≤ ·)
  leBytes 4 (lengthU32 sorted.length) ++ sorted.flatMap fun s =>
    leBytes 4 (lengthU32 s.toUTF8.size) ++ s.toUTF8.toList

/-- The bytes `filter_hash` feeds to the hasher. -/
def filterHashInput (startMs endMs : Int64) (sourceFilter kindFilter : Option (List String))
    (limit : UInt32) : List UInt8 :=
  "percept-cursor-v1".toUTF8.toList ++ leBytes 8 startMs.toUInt64.toNat ++
    leBytes 8 endMs.toUInt64.toNat ++ leBytes 4 limit.toNat ++
    filterBytes sourceFilter ++ filterBytes kindFilter

def filterHash (codec : CursorCodec) (startMs endMs : Int64)
    (sourceFilter kindFilter : Option (List String)) (limit : UInt32) : FilterHash :=
  (codec.blake3 (filterHashInput startMs endMs sourceFilter kindFilter limit)).take 16

/-- Value of little-endian bytes. -/
def ofLeBytes : List UInt8 → ℕ
  | [] => 0
  | b::bs => b.toNat+256*ofLeBytes bs

@[simp] theorem length_leBytes (n x : ℕ) : (leBytes n x).length = n := by
  induction n generalizing x with
  | zero => rfl
  | succ n ih => simp [leBytes,ih]

theorem ofLeBytes_leBytes {n x : ℕ} (h : x < 256^n) : ofLeBytes (leBytes n x) = x := by
  induction n generalizing x with
  | zero =>
    have : x = 0 := by simpa using h
    simp [leBytes,ofLeBytes,this]
  | succ n ih =>
    have hdiv : x/256 < 256^n := Nat.div_lt_of_lt_mul (by rwa [pow_succ'] at h)
    simp only [leBytes,ofLeBytes,ih hdiv,UInt8.toNat_ofNat']
    omega

/-- A codec for examples: every field in little-endian bytes of fixed width, one character
for each byte, and the hasher constant. -/
def fixedWidthCodec : CursorCodec where
  blake3 _ := Vector.replicate 32 0
  toWire p :=
    String.ofList (((leBytes 8 p.a.tsMsUtc.toUInt64.toNat ++ leBytes 16 p.a.eventId.val ++
      p.h.toList).map Char.ofUInt8) ++ p.p.toList)
  ofWire s :=
    let header := (s.toList.take 40).map Char.toUInt8
    let h := header.drop 24
    if hh : h.length = 16 then
      some {
        p := String.ofList (s.toList.drop 40)
        a := ⟨(UInt64.ofNat (ofLeBytes (header.take 8))).toInt64,
          Fin.ofNat (2^128) (ofLeBytes ((header.drop 8).take 16))⟩
        h := ⟨⟨h⟩,hh⟩ }
    else none

theorem toUInt8_ofUInt8 (b : UInt8) : (Char.ofUInt8 b).toUInt8 = b := by
  simp [Char.ofUInt8,Char.toUInt8]

theorem fixedWidthCodec_roundTrips : fixedWidthCodec.RoundTrips := by
  intro p
  have hts : ofLeBytes (leBytes 8 p.a.tsMsUtc.toUInt64.toNat) = p.a.tsMsUtc.toUInt64.toNat :=
    ofLeBytes_leBytes p.a.tsMsUtc.toUInt64.toNat_lt
  have hid : ofLeBytes (leBytes 16 p.a.eventId.val) = p.a.eventId.val :=
    ofLeBytes_leBytes p.a.eventId.isLt
  generalize hbytes : leBytes 8 p.a.tsMsUtc.toUInt64.toNat ++ leBytes 16 p.a.eventId.val ++
    p.h.toList = bytes
  have hlen : bytes.length = 40 := by simp [← hbytes]
  have htake : (bytes.map Char.ofUInt8 ++ p.p.toList).take 40 = bytes.map Char.ofUInt8 :=
    List.take_left' (by simpa using hlen)
  have hdrop : (bytes.map Char.ofUInt8 ++ p.p.toList).drop 40 = p.p.toList :=
    List.drop_left' (by simpa using hlen)
  have hback : (bytes.map Char.ofUInt8).map Char.toUInt8 = bytes := by
    simp [Function.comp_def,toUInt8_ofUInt8]
  have hh : bytes.drop 24 = p.h.toList := by
    rw [← hbytes]
    exact List.drop_left' (by simp)
  have hfst : bytes.take 8 = leBytes 8 p.a.tsMsUtc.toUInt64.toNat := by
    rw [← hbytes,List.append_assoc]
    exact List.take_left' (by simp)
  have hsnd : (bytes.drop 8).take 16 = leBytes 16 p.a.eventId.val := by
    rw [← hbytes,List.append_assoc,List.drop_left' (by simp)]
    exact List.take_left' (by simp)
  simp only [fixedWidthCodec,hbytes,String.toList_ofList,htake,hdrop,hback,hh,hfst,hsnd,hts,hid]
  obtain ⟨_,⟨_,_⟩,⟨⟨_⟩,hsize⟩⟩ := p
  simpa using hsize

end Percept
