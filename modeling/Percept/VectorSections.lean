import Percept.Lib.Runs
import Percept.VectorIndex

/-! The vector index under concurrent calls. An append writes the table and the mirror under one
lock; a sweep deletes from the table under that lock, gives it back, and then takes the mirror's
lock to delete there too. Other calls may come in between. -/
namespace Percept

/-- Both copies, and the sweeps that are between their two sections. -/
structure VectorStore where
  table : KeyTable fun r : VectorRecord => r.eventId
  rows : List InMemoryRow
  pending : List (Pair × Int64)

/-- A lock-protected section, with SQLite's verdict on its transaction. -/
inductive VectorSection
  | append (records : List VectorRecord) (commit : Except String Unit)
  | delete (p : Pair) (cutoffMs : Int64) (commit : Except String Unit)
  | count (p : Pair) (cutoffMs : Int64)
  | retain (i : ℕ)

namespace VectorStore

def ofIndex (s : VectorIndex) : VectorStore := ⟨s.table,s.rows,[]⟩

def replaceAll (t : KeyTable fun r : VectorRecord => r.eventId) (records : List VectorRecord) :
    KeyTable fun r : VectorRecord => r.eventId := records.foldl KeyTable.insertOrReplace t

def mirrorAll (rows : List InMemoryRow) (records : List VectorRecord) : List InMemoryRow :=
  records.foldl (fun rows r => mirrorInsert rows r.toInMemoryRow) rows

/-- One section; one that fails changes nothing, and neither does the count of a dry run. -/
def step (s : VectorStore) : VectorSection → VectorStore
  | .append records (.ok ()) =>
    { s with table := replaceAll s.table records, rows := mirrorAll s.rows records }
  | .delete p cutoffMs (.ok ()) =>
    { s with
      table := s.table.delete fun r => VectorIndex.older p cutoffMs r.toInMemoryRow
      pending := s.pending ++ [(p,cutoffMs)] }
  | .retain i => match s.pending[i]? with
    | none => s
    | some x =>
      { s with
        rows := s.rows.filter fun r => !VectorIndex.older x.1 x.2 r
        pending := s.pending.eraseIdx i }
  | .append _ (.error _) | .delete _ _ (.error _) | .count _ _ => s

/-- The mirror holds one row for each row of the table and no other. -/
def Mirrors (s : VectorStore) : Prop := s.rows.Perm (s.table.rows.map VectorRecord.toInMemoryRow)

/-- All sweeps that are under way do their second section now. -/
def finish (s : VectorStore) : VectorStore :=
  (List.replicate s.pending.length (VectorSection.retain 0)).foldl step s

/-- A row that a sweep under way is about to delete from the mirror. -/
def doomed (s : VectorStore) (r : InMemoryRow) : Bool :=
  s.pending.any fun x => VectorIndex.older x.1 x.2 r

/-- The last record of an id in a batch; the others are replaced by it. -/
def lastOf (records : List VectorRecord) (id : Ulid) : Option VectorRecord :=
  records.reverse.find? fun r => r.eventId = id

/-- No sweep under way selects a vector that is appended now. -/
def Apart (s : VectorStore) : VectorSection → Prop
  | .append records (.ok ()) =>
    ∀ r, lastOf records r.eventId = some r → s.doomed r.toInMemoryRow = false
  | _ => True

theorem finish_eq (s : VectorStore) :
    s.finish = ⟨s.table,s.rows.filter fun r => !s.doomed r,[]⟩ := by
  obtain ⟨table,rows,pending⟩ := s
  induction pending generalizing rows with
  | nil => simp [finish,doomed]
  | cons x pending ih =>
    have hstep : (VectorStore.mk table rows (x::pending)).finish =
        (VectorStore.mk table (rows.filter fun r => !VectorIndex.older x.1 x.2 r) pending).finish := rfl
    rw [hstep,ih,List.filter_filter]
    simp [doomed,Bool.and_comm]

/-- Without other sections in between a sweep is the one of the index. -/
theorem sweep_sections (s : VectorIndex) (p : Pair) (cutoffMs : Int64) :
    ((ofIndex s).step (.delete p cutoffMs (.ok ()))).step (.retain 0) =
      ofIndex (s.sweepMaxAge p cutoffMs false).2 := rfl

/-- And an append is the one of the index. -/
theorem append_section (s : VectorIndex) (records : List VectorRecord) :
    (ofIndex s).step (.append records (.ok ())) = ofIndex (s.append records) := by
  induction records generalizing s with
  | nil => rfl
  | cons r records ih => exact ih (s.insert r)

theorem lastOf_concat (records : List VectorRecord) (r : VectorRecord) (id : Ulid) :
    lastOf (records ++ [r]) id = if r.eventId = id then some r else lastOf records id := by
  by_cases h : r.eventId = id <;> simp [lastOf,h]

theorem mem_replaceAll {t : KeyTable fun r : VectorRecord => r.eventId} {records : List VectorRecord}
    {x : VectorRecord} : x ∈ (replaceAll t records).rows ↔
      (x ∈ t.rows ∧ lastOf records x.eventId = none) ∨ lastOf records x.eventId = some x := by
  induction records using List.reverseRecOn with
  | nil => simp [replaceAll,lastOf]
  | append_singleton records r ih =>
    have hstep : replaceAll t (records ++ [r]) = (replaceAll t records).insertOrReplace r :=
      List.foldl_concat _ _ _ _
    rw [hstep,KeyTable.mem_insertOrReplace,ih,lastOf_concat]
    by_cases hid : r.eventId = x.eventId
    · simp [hid,eq_comm]
    · have hx : x ≠ r := fun h => hid (by rw [h])
      simp [hid,hx,Ne.symm hid]

theorem mirrorAll_spec {rows : List InMemoryRow} (hnd : (rows.map (·.eventId)).Nodup)
    (records : List VectorRecord) : ((mirrorAll rows records).map (·.eventId)).Nodup ∧
      ∀ x, x ∈ mirrorAll rows records ↔ (x ∈ rows ∧ lastOf records x.eventId = none) ∨
        (lastOf records x.eventId).map VectorRecord.toInMemoryRow = some x := by
  induction records using List.reverseRecOn with
  | nil => exact ⟨hnd,by simp [mirrorAll,lastOf]⟩
  | append_singleton records r ih =>
    obtain ⟨hids,hmem⟩ := ih
    have hstep : mirrorAll rows (records ++ [r]) =
        mirrorInsert (mirrorAll rows records) r.toInMemoryRow := List.foldl_concat _ _ _ _
    have hperm := mirrorInsert_perm hids r.toInMemoryRow
    refine ⟨?_,fun x => ?_⟩
    · rw [hstep,(hperm.map _).nodup_iff,List.map_append,List.nodup_append]
      refine ⟨hids.sublist (List.filter_sublist.map _),by simp,fun a ha b hb => ?_⟩
      obtain ⟨y,hy,rfl⟩ := List.mem_map.mp ha
      obtain rfl : b = r.eventId := by simpa using hb
      simpa using (List.mem_filter.mp hy).2
    · rw [hstep,hperm.mem_iff,List.mem_append,List.mem_filter,hmem,lastOf_concat]
      by_cases hid : r.eventId = x.eventId
      · simp [hid,eq_comm]
      · have hx : x ≠ r.toInMemoryRow := fun h => hid (by rw [h])
        simp [hid,hx,Ne.symm hid]

/-- Ids stay unique in the mirror. -/
theorem nodup_step {s : VectorStore} (h : (s.rows.map (·.eventId)).Nodup) (a : VectorSection) :
    ((s.step a).rows.map (·.eventId)).Nodup := by
  cases a with
  | append records commit => cases commit with
    | error e => exact h
    | ok u => exact (mirrorAll_spec h records).1
  | delete p cutoffMs commit => cases commit <;> exact h
  | count p cutoffMs => exact h
  | retain i =>
    simp only [step]
    split
    · exact h
    · exact h.sublist (List.filter_sublist.map _)

/-- With unique ids the copies agree when they have the same rows. -/
theorem mirrors_finish_iff {s : VectorStore} (h : (s.rows.map (·.eventId)).Nodup) :
    s.finish.Mirrors ↔ ∀ x, (x ∈ s.rows ∧ s.doomed x = false) ↔
      ∃ r ∈ s.table.rows, r.toInMemoryRow = x := by
  have htable : (s.table.rows.map VectorRecord.toInMemoryRow).Nodup := by
    refine List.Nodup.of_map InMemoryRow.eventId ?_
    simpa [Function.comp_def] using s.table.nodup
  rw [finish_eq,Mirrors,List.perm_ext_iff_of_nodup ((List.Nodup.of_map _ h).filter _) htable]
  simp

/-- A batch keeps the copies together, once the sweeps under way are through, exactly when
none of them selects a row that is stored now. -/
theorem mirrors_append_iff {s : VectorStore} (h : (s.rows.map (·.eventId)).Nodup)
    (hm : s.finish.Mirrors) (records : List VectorRecord) :
    (s.step (.append records (.ok ()))).finish.Mirrors ↔ s.Apart (.append records (.ok ())) := by
  rw [mirrors_finish_iff (nodup_step h _)]
  rw [mirrors_finish_iff h] at hm
  obtain ⟨_,hrows⟩ := mirrorAll_spec h records
  have hdoomed : ∀ x, (s.step (.append records (.ok ()))).doomed x = s.doomed x := fun _ => rfl
  simp only [hdoomed]
  simp only [step,hrows,mem_replaceAll]
  constructor
  · intro hall r hr
    obtain ⟨_,hnot⟩ := (hall r.toInMemoryRow).mpr ⟨r,Or.inr hr,rfl⟩
    exact hnot
  · intro hapart x
    constructor
    · rintro ⟨⟨hx,hnone⟩ | hsome,hnot⟩
      · obtain ⟨r,hr,rfl⟩ := (hm x).mp ⟨hx,hnot⟩
        exact ⟨r,Or.inl ⟨hr,hnone⟩,rfl⟩
      · obtain ⟨r,hr,rfl⟩ := Option.map_eq_some_iff.mp hsome
        exact ⟨r,Or.inr hr,rfl⟩
    · rintro ⟨r,⟨hr,hnone⟩ | hsome,rfl⟩
      · obtain ⟨hx,hnot⟩ := (hm r.toInMemoryRow).mpr ⟨r,hr,rfl⟩
        exact ⟨Or.inl ⟨hx,hnone⟩,hnot⟩
      · exact ⟨Or.inr (by rw [show r.toInMemoryRow.eventId = r.eventId from rfl,hsome]; rfl),
          hapart r hsome⟩

/-- The first section of a sweep dooms the rows that it deletes from the table. -/
theorem mirrors_delete {s : VectorStore} (h : (s.rows.map (·.eventId)).Nodup)
    (hm : s.finish.Mirrors) (p : Pair) (cutoffMs : Int64) :
    (s.step (.delete p cutoffMs (.ok ()))).finish.Mirrors := by
  rw [mirrors_finish_iff (nodup_step h _)]
  rw [mirrors_finish_iff h] at hm
  intro x
  have hdoomed : (s.step (.delete p cutoffMs (.ok ()))).doomed x =
      (s.doomed x || VectorIndex.older p cutoffMs x) := by
    simp [step,doomed,List.any_append]
  simp only [hdoomed,Bool.or_eq_false_iff]
  simp only [step,KeyTable.mem_delete]
  constructor
  · rintro ⟨hx,hnot,hold⟩
    obtain ⟨r,hr,rfl⟩ := (hm x).mp ⟨hx,hnot⟩
    exact ⟨r,⟨hr,hold⟩,rfl⟩
  · rintro ⟨r,⟨hr,hold⟩,rfl⟩
    obtain ⟨hx,hnot⟩ := (hm r.toInMemoryRow).mpr ⟨r,hr,rfl⟩
    exact ⟨hx,hnot,hold⟩

/-- The second section takes the doomed rows that are its own, now rather than later. -/
theorem finish_retain (s : VectorStore) (i : ℕ) : (s.step (.retain i)).finish = s.finish := by
  simp only [step]
  cases hi : s.pending[i]? with
  | none => rfl
  | some x =>
    obtain ⟨hlt,rfl⟩ := List.getElem?_eq_some_iff.mp hi
    rw [finish_eq,finish_eq,List.filter_filter]
    congr 2
    funext r
    have hperm := (List.getElem_cons_eraseIdx_perm hlt).any_eq
      (f := fun x => VectorIndex.older x.1 x.2 r)
    simp only [doomed,← hperm,List.any_cons,Bool.not_or,Bool.and_comm]

theorem mirrors_step_iff (s : VectorStore) (a : VectorSection) (h : (s.rows.map (·.eventId)).Nodup)
    (hm : s.finish.Mirrors) : (s.step a).finish.Mirrors ↔ s.Apart a := by
  cases a with
  | append records commit => cases commit with
    | error e => exact iff_of_true hm trivial
    | ok u => exact mirrors_append_iff h hm records
  | delete p cutoffMs commit => cases commit with
    | error e => exact iff_of_true hm trivial
    | ok u => exact iff_of_true (mirrors_delete h hm p cutoffMs) trivial
  | count p cutoffMs => exact iff_of_true hm trivial
  | retain i => exact iff_of_true (by rwa [finish_retain]) trivial

/-- Whenever the calls under way are through, the copies are the same: exactly in the runs whose
appends store nothing that a sweep under way selects. A call that fails changes neither. -/
theorem mirror_equals_table_iff (index : VectorIndex) (sections : List VectorSection) :
    (Runs.Always step (fun s => s.finish.Mirrors) (ofIndex index) sections ↔
      Runs.EachStep step Apart (ofIndex index) sections) ∧
    ∀ (s : VectorStore) (e : String), (∀ records, s.step (.append records (.error e)) = s) ∧
      ∀ p cutoffMs, s.step (.delete p cutoffMs (.error e)) = s := by
  refine ⟨?_,fun s e => ⟨fun _ => rfl,fun _ _ => rfl⟩⟩
  have hstart : (ofIndex index).finish.Mirrors := by
    rw [finish_eq,Mirrors]
    simpa [ofIndex,doomed] using index.mirror
  have hids : ((ofIndex index).rows.map (·.eventId)).Nodup := index.nodup_ids
  exact Runs.always_iff_eachStep (I := fun s : VectorStore => (s.rows.map (·.eventId)).Nodup)
    (P := fun s : VectorStore => s.finish.Mirrors) (fun s a h => nodup_step h a) mirrors_step_iff
    hids hstart sections

/-- A sweep that is overtaken by an append of a vector with an old timestamp. -/
def overtaken : VectorStore :=
  [VectorSection.delete ("s","k") 5 (.ok ()),.append [⟨⟨1,"s","k",3,false,[0]⟩,"m"⟩] (.ok ()),
    .retain 0].foldl step (ofIndex .openInMemory)

/-- All calls are through; the table has the vector and the mirror does not. -/
theorem mirror_equals_table_fails : overtaken.pending = [] ∧ ¬overtaken.Mirrors :=
  ⟨by decide,fun h => absurd h.length_eq (by decide)⟩

end VectorStore

end Percept
