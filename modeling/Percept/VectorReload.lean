import Percept.Forwarder
import Percept.SearchEvents

/-! The vector index across restarts. The table is kept as texts, integers and bytes; opening the
index decodes every row and compares the first one with the embedder's model and dimension. -/
namespace Percept

/-- A row of the table `vectors` as SQLite has it. -/
structure StoredVector where
  eventId : String
  sourceId : String
  kind : String
  tsMsUtc : Int64
  truncated : Int64
  modelId : String
  vector : List UInt8

/-- What `open` can fail with on a table that SQLite reads; the text of a ULID error is the crate's. -/
inductive OpenError
  | ulid (text : String) | decode (message : String)
  | modelMismatch (expected actual : String) | dimMismatch (expected actual : ℕ)
  deriving DecidableEq

/-- `f32::to_le_bytes`, on the bits. -/
def toLeBytes (x : UInt32) : List UInt8 :=
  [.ofNat x.toNat,.ofNat (x.toNat/256),.ofNat (x.toNat/65536),.ofNat (x.toNat/16777216)]

/-- `f32::from_le_bytes`. -/
def fromLeBytes (a b c d : UInt8) : UInt32 :=
  .ofNat (a.toNat+256*b.toNat+65536*c.toNat+16777216*d.toNat)

def vectorToBytes (v : List UInt32) : List UInt8 := v.flatMap toLeBytes

/-- The loop over `chunks_exact(4)`. -/
def decodeChunks : List UInt8 → List UInt32
  | a::b::c::d::rest => fromLeBytes a b c d::decodeChunks rest
  | _ => []

def bytesToVector (b : List UInt8) : Except OpenError (List UInt32) :=
  if b.length % 4 ≠ 0 then
    .error (.decode ("vector blob length " ++ toString b.length ++ " is not a multiple of 4"))
  else .ok (decodeChunks b)

theorem fromLeBytes_toLeBytes (x : UInt32) :
    fromLeBytes (.ofNat x.toNat) (.ofNat (x.toNat/256)) (.ofNat (x.toNat/65536))
      (.ofNat (x.toNat/16777216)) = x := by
  have hlt := x.toNat_lt
  have hbyte : ∀ n : ℕ, (UInt8.ofNat n).toNat = n % 256 := fun n => UInt8.toNat_ofNat'
  rw [fromLeBytes,hbyte,hbyte,hbyte,hbyte]
  have hsum : x.toNat%256+256*(x.toNat/256%256)+65536*(x.toNat/65536%256)+
      16777216*(x.toNat/16777216%256) = x.toNat := by omega
  rw [hsum,UInt32.ofNat_toNat]

theorem decodeChunks_vectorToBytes (v : List UInt32) : decodeChunks (vectorToBytes v) = v := by
  induction v with
  | nil => rfl
  | cons x v ih =>
    rw [vectorToBytes,List.flatMap_cons,← vectorToBytes,toLeBytes]
    simp only [List.cons_append,List.nil_append,decodeChunks,fromLeBytes_toLeBytes,ih]

@[simp] theorem length_vectorToBytes (v : List UInt32) : (vectorToBytes v).length = 4*v.length := by
  induction v with
  | nil => rfl
  | cons x v ih =>
    rw [vectorToBytes,List.flatMap_cons,← vectorToBytes,List.length_append,ih,toLeBytes,
      List.length_cons]
    simp only [List.length_cons,List.length_nil]
    omega

/-- A vector comes back as it was stored, bit by bit. -/
theorem bytesToVector_vectorToBytes (v : List UInt32) : bytesToVector (vectorToBytes v) = .ok v := by
  rw [bytesToVector,if_neg (by simp),decodeChunks_vectorToBytes]

/-- The columns that `append` binds. -/
def VectorRecord.stored (ulid : UlidText) (r : VectorRecord) : StoredVector where
  eventId := ulid.toText r.eventId
  sourceId := r.sourceId
  kind := r.kind
  tsMsUtc := r.tsMsUtc
  truncated := if r.truncated then 1 else 0
  modelId := r.modelId
  vector := vectorToBytes r.vector

/-- `out`, `seen_model` and `seen_dim` of `load_rows`. -/
structure Loading where
  out : List InMemoryRow := []
  seenModel : Option String := none
  seenDim : Option ℕ := none

namespace Loading

/-- The body of the loop. -/
def next (ulid : UlidText) (s : Loading) (row : StoredVector) : Except OpenError Loading :=
  match ulid.ofText row.eventId with
  | none => .error (.ulid row.eventId)
  | some eventId => (bytesToVector row.vector).map fun vector =>
    { out := s.out ++ [⟨eventId,row.sourceId,row.kind,row.tsMsUtc,row.truncated != 0,vector⟩]
      seenModel := if s.seenModel.isNone then some row.modelId else s.seenModel
      seenDim := if s.seenModel.isNone then some vector.length else s.seenDim }

/-- The two comparisons after the loop. -/
def finish (s : Loading) (modelId : String) (dim : ℕ) : Except OpenError (List InMemoryRow) :=
  match s.seenModel.filter (· ≠ modelId) with
  | some m => .error (.modelMismatch m modelId)
  | none => match s.seenDim.filter (· ≠ dim) with
    | some d => .error (.dimMismatch d dim)
    | none => .ok s.out

end Loading

def loadRows (ulid : UlidText) (rows : List StoredVector) (modelId : String) (dim : ℕ) :
    Except OpenError (List InMemoryRow) :=
  (rows.foldlM (Loading.next ulid) {}).bind fun s => s.finish modelId dim

section Loading

variable {ulid : UlidText} (hulid : ulid.RoundTrips)

include hulid

theorem next_stored (s : Loading) (r : VectorRecord) : s.next ulid (r.stored ulid) =
    .ok ⟨s.out ++ [r.toInMemoryRow],some (s.seenModel.getD r.modelId),
      if s.seenModel.isNone then some r.vector.length else s.seenDim⟩ := by
  have htruncated : ((if r.truncated then (1 : Int64) else 0) != 0) = r.truncated := by
    cases r.truncated <;> rfl
  simp only [Loading.next,VectorRecord.stored,hulid r.eventId,bytesToVector_vectorToBytes,Except.map,
    htruncated]
  cases s.seenModel <;> rfl

/-- The rows in the order of the scan, and model and dimension of the first. -/
theorem foldlM_next (records : List VectorRecord) (s : Loading) (m : String) (hm : s.seenModel = some m) :
    (records.map (VectorRecord.stored ulid)).foldlM (Loading.next ulid) s =
      .ok { s with out := s.out ++ records.map VectorRecord.toInMemoryRow } := by
  induction records generalizing s with
  | nil => simp [pure,Except.pure]
  | cons r records ih =>
    rw [List.map_cons,List.foldlM_cons,next_stored hulid,hm]
    refine (ih _ (by simp)).trans ?_
    simp

/-- Only the first row of the scan is compared. -/
theorem loadRows_stored (records : List VectorRecord) (modelId : String) (dim : ℕ) :
    loadRows ulid (records.map (VectorRecord.stored ulid)) modelId dim = match records with
      | [] => .ok []
      | r::_ => if r.modelId ≠ modelId then .error (.modelMismatch r.modelId modelId)
        else if r.vector.length ≠ dim then .error (.dimMismatch r.vector.length dim)
        else .ok (records.map VectorRecord.toInMemoryRow) := by
  cases records with
  | nil => rfl
  | cons r records =>
    rw [loadRows,List.map_cons,List.foldlM_cons,next_stored hulid]
    have hrest := foldlM_next hulid records ⟨[r.toInMemoryRow],some r.modelId,some r.vector.length⟩ _ rfl
    refine (congrArg (Except.bind · _) hrest).trans ?_
    simp only [Except.bind,Loading.finish,Option.filter_some]
    by_cases hmodel : r.modelId = modelId <;> by_cases hdim : r.vector.length = dim <;>
      simp [hmodel,hdim]

end Loading

/-- `SELECT ... FROM vectors` without an order: the rows of the table, in some order. -/
structure Scan where
  order : List StoredVector → List StoredVector
  perm : ∀ rows, (order rows).Perm rows

abbrev VectorTable := KeyTable fun r : VectorRecord => r.eventId

namespace VectorIndex

variable {ulid : UlidText} (hulid : ulid.RoundTrips) (scan : Scan) {table : VectorTable}
  {modelId : String} {dim : ℕ} {s : VectorIndex}

/-- The scanned rows are those of the table. -/
theorem exists_scanned (ulid : UlidText) (scan : Scan) (table : VectorTable) :
    ∃ records : List VectorRecord, records.Perm table.rows ∧
      scan.order (table.rows.map (VectorRecord.stored ulid)) = records.map (VectorRecord.stored ulid) := by
  have hcomp : Relation.Comp (· = List.map (VectorRecord.stored ulid) ·) List.Perm
      (scan.order (table.rows.map (VectorRecord.stored ulid))) table.rows := by
    rw [List.eq_map_comp_perm]
    exact scan.perm _
  obtain ⟨records,heq,hperm⟩ := hcomp
  exact ⟨records,hperm,heq⟩

include hulid in
theorem perm_of_loadRows {rows : List InMemoryRow}
    (h : loadRows ulid (scan.order (table.rows.map (VectorRecord.stored ulid))) modelId dim = .ok rows) :
    rows.Perm (table.rows.map VectorRecord.toInMemoryRow) := by
  obtain ⟨records,hperm,hscan⟩ := exists_scanned ulid scan table
  rw [hscan,loadRows_stored hulid] at h
  refine List.Perm.trans (.of_eq ?_) (hperm.map _)
  cases records with
  | nil => exact (Except.ok.inj h).symm
  | cons r records =>
    dsimp only at h
    split at h
    · cases h
    · split at h
      · cases h
      · exact (Except.ok.inj h).symm

/-- `from_connection`. -/
def fromConnection (table : VectorTable) (modelId : String) (dim : ℕ) : Except OpenError VectorIndex :=
  match h : loadRows ulid (scan.order (table.rows.map (VectorRecord.stored ulid))) modelId dim with
  | .error e => .error e
  | .ok rows => .ok ⟨table,rows,perm_of_loadRows hulid scan h⟩

/-- `open` succeeds when one row, whichever comes first, has the model and the dimension. -/
theorem fromConnection_ok (h : fromConnection hulid scan table modelId dim = .ok s) : s.table = table ∧
    (table.rows ≠ [] → ∃ r ∈ table.rows, r.modelId = modelId ∧ r.vector.length = dim) := by
  obtain ⟨records,hperm,hscan⟩ := exists_scanned ulid scan table
  unfold fromConnection at h
  split at h
  · cases h
  next rows hload =>
    obtain rfl := Except.ok.inj h
    refine ⟨rfl,fun hne => ?_⟩
    rw [hscan,loadRows_stored hulid] at hload
    cases records with
    | nil => exact absurd hperm.symm.eq_nil hne
    | cons r records =>
      dsimp only at hload
      split at hload
      · cases hload
      next hmodel =>
        split at hload
        · cases hload
        next hdim => exact ⟨r,hperm.subset List.mem_cons_self,not_not.mp hmodel,not_not.mp hdim⟩

/-- It does succeed when all of them have. -/
theorem exists_fromConnection
    (h : ∀ r ∈ table.rows, r.modelId = modelId ∧ r.vector.length = dim) :
    ∃ s, fromConnection hulid scan table modelId dim = .ok s := by
  obtain ⟨records,hperm,hscan⟩ := exists_scanned ulid scan table
  have hload : loadRows ulid (scan.order (table.rows.map (VectorRecord.stored ulid))) modelId dim =
      .ok (records.map VectorRecord.toInMemoryRow) := by
    rw [hscan,loadRows_stored hulid]
    cases records with
    | nil => rfl
    | cons r records =>
      obtain ⟨hmodel,hdim⟩ := h r (hperm.subset List.mem_cons_self)
      simp [hmodel,hdim]
  unfold fromConnection
  split
  next e he => rw [hload] at he; cases he
  next rows _ => exact ⟨_,rfl⟩

/-- `len`. -/
def len (s : VectorIndex) : ℕ := s.rows.length

end VectorIndex

section Answers

variable {S : Type} [LinearOrder S]

/-- Two answers to one search: equal scores, and a hit that only one of them has is among its
lowest. -/
structure SameAnswer (out out' : List (SearchHit S)) : Prop where
  scores : out.map SearchHit.score = out'.map SearchHit.score
  left : ∀ hit ∈ out, hit ∉ out' → ∀ o ∈ out', hit.score ≤ o.score
  right : ∀ hit ∈ out', hit ∉ out → ∀ o ∈ out, hit.score ≤ o.score

theorem ranked_scores (k : ℕ) (hits : List (SearchHit S)) :
    (ranked k hits).map SearchHit.score =
      ((hits.map SearchHit.score).insertionSort (· ≥ ·)).take k := by
  rw [← TopK.select_scores,ranked]
  exact List.map_insertionSort _ _ _ _ fun _ _ _ _ => Iff.rfl

theorem le_of_notMem_ranked {k : ℕ} {hits : List (SearchHit S)} {hit : SearchHit S} (hhit : hit ∈ hits)
    (hleft : hit ∉ ranked k hits) {o : SearchHit S} (ho : o ∈ ranked k hits) : hit.score ≤ o.score := by
  have hperm := ranked_perm (k := k) hits
  rcases Nat.eq_zero_or_pos k with rfl | hk
  · rw [hperm.mem_iff,TopK.select_zero] at ho
    cases ho
  obtain ⟨out,hbest⟩ := TopK.select_best SearchHit.score hk hits
  rw [hperm.mem_iff] at hleft ho
  exact hbest.le o ho hit ((List.mem_append.mp (hbest.perm.symm.subset hhit)).resolve_left hleft)

theorem mem_of_mem_ranked {k : ℕ} {hits : List (SearchHit S)} {hit : SearchHit S}
    (h : hit ∈ ranked k hits) : hit ∈ hits := by
  rw [(ranked_perm hits).mem_iff] at h
  rcases Nat.eq_zero_or_pos k with rfl | hk
  · rw [TopK.select_zero] at h
    cases h
  obtain ⟨out,hbest⟩ := TopK.select_best SearchHit.score hk hits
  exact hbest.perm.subset (List.mem_append_left out h)

theorem sameAnswer_of_perm {k : ℕ} {hits hits' : List (SearchHit S)} (h : hits.Perm hits') :
    SameAnswer (ranked k hits) (ranked k hits') where
  scores := by
    have hsorted : (hits.map SearchHit.score).insertionSort (· ≥ ·) =
        (hits'.map SearchHit.score).insertionSort (· ≥ ·) :=
      List.Perm.eq_of_sortedGE List.sortedGE_insertionSort List.sortedGE_insertionSort
        ((List.perm_insertionSort _ _).trans ((h.map _).trans (List.perm_insertionSort _ _).symm))
    rw [ranked_scores,ranked_scores,hsorted]
  left hit hhit hnot _ ho := le_of_notMem_ranked (h.subset (mem_of_mem_ranked hhit)) hnot ho
  right hit hhit hnot _ ho := le_of_notMem_ranked (h.symm.subset (mem_of_mem_ranked hhit)) hnot ho

/-- A search depends on the rows only up to their order. -/
theorem searchKn_perm {s s' : VectorIndex} (h : s.rows.Perm s'.rows) (gs : Globset)
    (cosine : List UInt32 → List UInt32 → S) (query : List UInt32) (topK : ℕ) (filter : VectorFilter) :
    (∃ e, s.searchKn gs cosine query topK filter = .error e ∧
      s'.searchKn gs cosine query topK filter = .error e) ∨
    ∃ out out', s.searchKn gs cosine query topK filter = .ok out ∧
      s'.searchKn gs cosine query topK filter = .ok out' ∧ SameAnswer out out' := by
  cases hsource : gs.compile VectorError.decode filter.sourceFilter with
  | error e => exact Or.inl ⟨e,by simp only [VectorIndex.searchKn,hsource]; exact ⟨rfl,rfl⟩⟩
  | ok sourceGlobs =>
    cases hkind : gs.compile VectorError.decode filter.kindFilter with
    | error e => exact Or.inl ⟨e,by simp only [VectorIndex.searchKn,hsource,hkind]; exact ⟨rfl,rfl⟩⟩
    | ok kindGlobs =>
      have hhits := (h.filter (VectorIndex.selects filter sourceGlobs kindGlobs)).map
        (VectorIndex.hit cosine query)
      refine Or.inr ⟨_,_,?_,?_,sameAnswer_of_perm (k := topK) hhits⟩
      · simp only [VectorIndex.searchKn,hsource,hkind]
        rfl
      · simp only [VectorIndex.searchKn,hsource,hkind]
        rfl

end Answers

end Percept
