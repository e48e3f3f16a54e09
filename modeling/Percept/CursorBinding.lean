import Percept.GetWindow
import Percept.Lib.SelfDelimiting

/-! What a cursor is bound to. The hashed bytes determine the range, the page limit and the two
filters as multisets, so a cursor resumes under an equivalent filter set and under no other. -/
namespace Percept

open SelfDelimiting (On)

section Encoders

theorem on_leBytes (n : ℕ) : On (· < 256^n) (leBytes n) :=
  On.of_length n (fun x _ => length_leBytes n x) fun x y hx hy h => by
    rw [← ofLeBytes_leBytes hx,h,ofLeBytes_leBytes hy]

theorem on_lengthU32 : On (· < 2^32) fun n => leBytes 4 (lengthU32 n) := by
  refine (on_leBytes 4).comp (fun n hn => ?_) fun n m hn hm h => ?_
  · exact (min_le_left n _).trans_lt hn
  · have hself : ∀ k < 2^32, lengthU32 k = k := fun k hk => min_eq_left (by omega)
    rwa [hself n hn,hself m hm] at h

theorem on_int64 : On (fun _ => True) fun x : Int64 => leBytes 8 x.toUInt64.toNat :=
  (on_leBytes 8).comp (fun x _ => x.toUInt64.toNat_lt) fun x y _ _ h => by
    rw [← x.toInt64_toUInt64,UInt64.toNat_inj.mp h,y.toInt64_toUInt64]

theorem on_uInt32 : On (fun _ => True) fun x : UInt32 => leBytes 4 x.toNat :=
  (on_leBytes 4).comp (fun x _ => x.toNat_lt) fun _ _ _ _ h => UInt32.toNat_inj.mp h

theorem on_text : On (fun s : String => s.toUTF8.size < 2^32) fun s =>
    leBytes 4 (lengthU32 s.toUTF8.size) ++ s.toUTF8.toList := by
  have hsized := On.sized (P := fun _ : String => True) (f := fun s => s.toUTF8.toList) on_lengthU32
    fun _ _ _ _ => utf8_inj
  simp only [length_utf8,true_and] at hsized
  exact hsized

end Encoders

/-- Fewer than `2^32` filters, each shorter than `2^32` bytes. -/
def ShortFilter (filter : Option (List String)) : Prop :=
  (filter.getD []).length < 2^32 ∧ ∀ s ∈ filter.getD [], s.toUTF8.size < 2^32

theorem on_filterBytes {a b : Option (List String)} (ha : ShortFilter a) (hb : ShortFilter b)
    {s t : List UInt8} (h : filterBytes a ++ s = filterBytes b ++ t) :
    (a.getD []).Perm (b.getD []) ∧ s = t := by
  have hshort : ∀ {f}, ShortFilter f →
      ((f.getD []).insertionSort (· ≤ ·)).length < 2^32 ∧
        ∀ s ∈ (f.getD []).insertionSort (· ≤ ·), s.toUTF8.size < 2^32 := fun hf =>
    ⟨by rw [List.length_insertionSort]; exact hf.1,
      fun s hs => hf.2 s ((List.perm_insertionSort _ _).mem_iff.mp hs)⟩
  obtain ⟨hsorted,hrest⟩ := On.counted on_lengthU32 on_text (hshort ha) (hshort hb) h
  refine ⟨(List.perm_insertionSort (· ≤ ·) _).symm.trans ?_,hrest⟩
  rw [hsorted]
  exact List.perm_insertionSort _ _

theorem filterBytes_perm {a b : Option (List String)} (h : (a.getD []).Perm (b.getD [])) :
    filterBytes a = filterBytes b := by
  have hsorted : (a.getD []).insertionSort (· ≤ ·) = (b.getD []).insertionSort (· ≤ ·) :=
    ((List.perm_insertionSort _ _).trans (h.trans (List.perm_insertionSort _ _).symm)).eq_of_pairwise'
      (List.pairwise_insertionSort _ _) (List.pairwise_insertionSort _ _)
  unfold filterBytes
  rw [hsorted]

namespace GetWindowArgs

/-- The same rows in pages of the same size; an absent filter is an empty one. -/
structure Equivalent (a b : GetWindowArgs) : Prop where
  start : a.startMs = b.startMs
  stop : a.endMs = b.endMs
  limit : a.pageLimit = b.pageLimit
  sources : (a.sourceFilter.getD []).Perm (b.sourceFilter.getD [])
  kinds : (a.kindFilter.getD []).Perm (b.kindFilter.getD [])

/-- What `filter_hash` feeds to the hasher for the request. -/
def hashInput (args : GetWindowArgs) : List UInt8 :=
  filterHashInput args.startMs args.endMs args.sourceFilter args.kindFilter args.pageLimit

structure Short (args : GetWindowArgs) : Prop where
  sources : ShortFilter args.sourceFilter
  kinds : ShortFilter args.kindFilter

variable {a b : GetWindowArgs}

theorem hashInput_eq_iff (ha : a.Short) (hb : b.Short) :
    a.hashInput = b.hashInput ↔ a.Equivalent b := by
  constructor
  · intro h
    simp only [hashInput,filterHashInput,List.append_assoc] at h
    have h := List.append_cancel_left h
    obtain ⟨hstart,h⟩ := on_int64 trivial trivial h
    obtain ⟨hend,h⟩ := on_int64 trivial trivial h
    obtain ⟨hlimit,h⟩ := on_uInt32 trivial trivial h
    obtain ⟨hsources,h⟩ := on_filterBytes ha.sources hb.sources h
    rw [← List.append_nil (filterBytes a.kindFilter),← List.append_nil (filterBytes b.kindFilter)] at h
    exact ⟨hstart,hend,hlimit,hsources,(on_filterBytes ha.kinds hb.kinds h).1⟩
  · rintro ⟨hstart,hend,hlimit,hsources,hkinds⟩
    unfold hashInput filterHashInput
    rw [hstart,hend,hlimit,filterBytes_perm hsources,filterBytes_perm hkinds]

end GetWindowArgs

/-- The first 16 bytes of the digests tell the two inputs apart. -/
def CursorCodec.Separates (codec : CursorCodec) (x y : List UInt8) : Prop :=
  (codec.blake3 x).take 16 = (codec.blake3 y).take 16 → x = y

theorem GetWindowArgs.hash_eq_iff {codec : CursorCodec} {a b : GetWindowArgs} (ha : a.Short)
    (hb : b.Short) (hcodec : codec.Separates a.hashInput b.hashInput) :
    a.hash codec = b.hash codec ↔ a.Equivalent b := by
  rw [← hashInput_eq_iff ha hb]
  refine ⟨hcodec,fun h => ?_⟩
  change (codec.blake3 a.hashInput).take 16 = (codec.blake3 b.hashInput).take 16
  rw [h]

/-- A cursor is bound to the filter set of its request, no more and no less. -/
theorem cursor_binds_filter_set {a b : GetWindowArgs} (ha : a.Short) (hb : b.Short) :
    (a.hashInput = b.hashInput ↔ a.Equivalent b) ∧
    ∀ codec : CursorCodec, codec.RoundTrips → codec.Separates a.hashInput b.hashInput →
      ∀ anchor : Anchor, let c := Cursor.encode codec ⟨anchor,a.hash codec⟩
        ((∃ cur, Cursor.decode codec c (b.hash codec) = .ok cur ∧ cur.anchor = anchor) ↔
          a.Equivalent b) ∧
        (¬a.Equivalent b → Cursor.decode codec c (b.hash codec) = .error .filterMismatch) ∧
        (GetWindowArgs.resume codec { b with cursor := some c } = .ok (some anchor) ↔
          a.Equivalent b) ∧
        (¬a.Equivalent b →
          GetWindowArgs.resume codec { b with cursor := some c } = .error .cursorFilterMismatch) := by
  refine ⟨GetWindowArgs.hashInput_eq_iff ha hb,fun codec hcodec hsep anchor => ?_⟩
  have hhash := GetWindowArgs.hash_eq_iff ha hb hsep
  by_cases heq : a.Equivalent b
  · have hdecode := Cursor.decode_encode hcodec ⟨anchor,a.hash codec⟩
    rw [hhash.mpr heq] at hdecode
    simp [GetWindowArgs.resume,hhash.mpr heq,hdecode,heq]
  · have hdecode := Cursor.decode_encode_mismatch hcodec ⟨anchor,a.hash codec⟩ (mt hhash.mp heq)
    simp [GetWindowArgs.resume,hdecode,heq]

/-- A codec for examples whose hasher adds up the bytes with weights. -/
def checksumCodec : CursorCodec :=
  { fixedWidthCodec with blake3 := fun x => Vector.replicate 32 (x.foldl (fun h b => 31*h+b) 7) }

theorem checksumCodec_roundTrips : checksumCodec.RoundTrips := by
  have hof : checksumCodec.ofWire = fixedWidthCodec.ofWire := rfl
  have hto : checksumCodec.toWire = fixedWidthCodec.toWire := rfl
  intro p
  rw [hof,hto]
  exact fixedWidthCodec_roundTrips p

/-- A request for these sources. -/
def sourcesArgs (sources : List String) : GetWindowArgs :=
  { startMs := 0, endMs := 9, sourceFilter := some sources }

/-- Two filters in either order, and one filter of the same letters. -/
theorem cursor_binds_filter_set_order : (sourcesArgs ["x","y"]).Equivalent (sourcesArgs ["y","x"]) ∧
    ¬(sourcesArgs ["x","y"]).Equivalent (sourcesArgs ["xy"]) ∧
    ∀ anchor, let c := Cursor.encode checksumCodec ⟨anchor,(sourcesArgs ["x","y"]).hash checksumCodec⟩
      GetWindowArgs.resume checksumCodec { sourcesArgs ["y","x"] with cursor := some c } =
        .ok (some anchor) ∧
      GetWindowArgs.resume checksumCodec { sourcesArgs ["xy"] with cursor := some c } =
        .error .cursorFilterMismatch := by
  have hshort : ∀ l : List String, l.length < 2^32 ∧ (∀ s ∈ l, s.toUTF8.size < 2^32) →
      (sourcesArgs l).Short := fun l hl => ⟨hl,⟨Nat.two_pow_pos 32,by simp [sourcesArgs]⟩⟩
  have hab : (sourcesArgs ["x","y"]).Equivalent (sourcesArgs ["y","x"]) := ⟨rfl,rfl,rfl,by decide,.refl _⟩
  have hac : ¬(sourcesArgs ["x","y"]).Equivalent (sourcesArgs ["xy"]) := fun h =>
    absurd h.sources.length_eq (by decide)
  have hsep : checksumCodec.Separates (sourcesArgs ["x","y"]).hashInput (sourcesArgs ["xy"]).hashInput := by
    unfold CursorCodec.Separates GetWindowArgs.hashInput filterHashInput filterBytes
    simp only [toList_bytes]
    decide +kernel
  have hbind := cursor_binds_filter_set (hshort ["x","y"] (by decide)) (hshort ["y","x"] (by decide))
  have hother := cursor_binds_filter_set (hshort ["x","y"] (by decide)) (hshort ["xy"] (by decide))
  refine ⟨hab,hac,fun anchor => ⟨?_,?_⟩⟩
  · exact (hbind.2 checksumCodec checksumCodec_roundTrips (fun _ => hbind.1.mpr hab) anchor).2.2.1.mpr hab
  · exact (hother.2 checksumCodec checksumCodec_roundTrips hsep anchor).2.2.2 hac

end Percept
