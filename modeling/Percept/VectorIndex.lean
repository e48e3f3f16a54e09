import Percept.Globs
import Percept.Lib.KeyTable
import Percept.Lib.TopK

/-! The vector index: a table with `INSERT OR REPLACE`, and the mirror in memory that
searches read. A vector is kept by the bit patterns of its `f32` components; scores come
from a parameter into any linear order. -/
namespace Percept

/-- A row of the mirror. -/
structure InMemoryRow where
  eventId : Ulid
  sourceId : String
  kind : String
  tsMsUtc : Int64
  truncated : Bool
  vector : List UInt32
  deriving DecidableEq

structure VectorRecord extends InMemoryRow where
  modelId : String
  deriving DecidableEq

inductive VectorError
  | decode (message : String)
  deriving DecidableEq

structure VectorFilter where
  startMs : Option Int64 := none
  endMs : Option Int64 := none
  sourceFilter : Option (List String) := none
  kindFilter : Option (List String) := none

structure SearchHit (S : Type) where
  eventId : Ulid
  sourceId : String
  kind : String
  tsMsUtc : Int64
  truncated : Bool
  score : S

/-- `append` on the mirror: a row with the same id is replaced in place. -/
def mirrorInsert (rows : List InMemoryRow) (r : InMemoryRow) : List InMemoryRow :=
  match rows.findIdx? fun x => x.eventId = r.eventId with
  | some idx => rows.set idx r
  | none => rows ++ [r]

theorem mirrorInsert_perm {rows : List InMemoryRow} (hnd : (rows.map (·.eventId)).Nodup)
    (r : InMemoryRow) :
    (mirrorInsert rows r).Perm (rows.filter (fun x => x.eventId ≠ r.eventId) ++ [r]) := by
  induction rows with
  | nil => exact .refl _
  | cons a rows ih =>
    obtain ⟨ha,hrows⟩ := List.nodup_cons.mp hnd
    by_cases hid : a.eventId = r.eventId
    · have hkeep : rows.filter (fun x => x.eventId ≠ r.eventId) = rows := by
        rw [List.filter_eq_self]
        intro x hx
        have hne : x.eventId ≠ a.eventId := fun h => ha (List.mem_map.mpr ⟨x,hx,h⟩)
        simpa [← hid] using hne
      have hset : mirrorInsert (a::rows) r = r::rows := by
        simp [mirrorInsert,List.findIdx?_cons,hid]
      rw [hset,List.filter_cons_of_neg (by simp [hid]),hkeep]
      exact (List.perm_append_singleton r rows).symm
    · have hcons : mirrorInsert (a::rows) r = a::mirrorInsert rows r := by
        simp only [mirrorInsert,List.findIdx?_cons,hid,decide_false,Bool.false_eq_true,if_false]
        cases rows.findIdx? fun x => x.eventId = r.eventId <;> simp
      rw [hcons,List.filter_cons_of_pos (by simpa using hid)]
      exact (ih hrows).cons a

/-- The table `vectors` and its mirror hold the same rows. -/
structure VectorIndex where
  table : KeyTable fun r : VectorRecord => r.eventId
  rows : List InMemoryRow
  mirror : rows.Perm (table.rows.map VectorRecord.toInMemoryRow)

namespace VectorIndex

theorem nodup_ids (s : VectorIndex) : (s.rows.map (·.eventId)).Nodup := by
  refine (s.mirror.map InMemoryRow.eventId).nodup_iff.mpr ?_
  simpa [Function.comp_def] using s.table.nodup

def openInMemory : VectorIndex := ⟨KeyTable.empty,[],by simp⟩

/-- One record of `append`, on the table and on the mirror. -/
def insert (s : VectorIndex) (r : VectorRecord) : VectorIndex where
  table := s.table.insertOrReplace r
  rows := mirrorInsert s.rows r.toInMemoryRow
  mirror := by
    refine (mirrorInsert_perm s.nodup_ids r.toInMemoryRow).trans ?_
    have hkept := s.mirror.filter fun x => decide (x.eventId ≠ r.eventId)
    rw [List.filter_map] at hkept
    simpa [KeyTable.insertOrReplace,Function.comp_def] using
      hkept.append_right [r.toInMemoryRow]

def append (s : VectorIndex) (records : List VectorRecord) : VectorIndex :=
  records.foldl VectorIndex.insert s

theorem mem_insert {s : VectorIndex} {r : VectorRecord} {x : InMemoryRow} :
    x ∈ (s.insert r).rows ↔ (x ∈ s.rows ∧ x.eventId ≠ r.eventId) ∨ x = r.toInMemoryRow := by
  rw [show (s.insert r).rows = mirrorInsert s.rows r.toInMemoryRow from rfl,
    (mirrorInsert_perm s.nodup_ids r.toInMemoryRow).mem_iff]
  simp

/-- `source_id = ? AND kind = ? AND ts_ms_utc < ?`. -/
def older (p : Pair) (cutoffMs : Int64) (r : InMemoryRow) : Bool :=
  r.sourceId = p.1 && r.kind = p.2 && r.tsMsUtc < cutoffMs

/-- `DELETE` from the table, then `retain` on the mirror; a dry run only counts. -/
def sweepMaxAge (s : VectorIndex) (p : Pair) (cutoffMs : Int64) (dryRun : Bool) :
    ℕ × VectorIndex :=
  let n := s.table.rows.countP fun r => older p cutoffMs r.toInMemoryRow
  if dryRun then (n,s)
  else (n,{
    table := s.table.delete fun r => older p cutoffMs r.toInMemoryRow
    rows := s.rows.filter fun r => !older p cutoffMs r
    mirror := by simpa [List.filter_map,Function.comp_def] using
      s.mirror.filter fun r => !older p cutoffMs r })

/-- The four `continue` tests of `search_kn`. -/
def selects (filter : VectorFilter) (sourceGlobs kindGlobs : Option (String → Bool))
    (row : InMemoryRow) : Bool :=
  (filter.startMs.all fun s => s ≤ row.tsMsUtc) && (filter.endMs.all fun e => row.tsMsUtc < e) &&
    matchesOrEmpty sourceGlobs row.sourceId && matchesOrEmpty kindGlobs row.kind

variable {S : Type}

def hit (cosine : List UInt32 → List UInt32 → S) (query : List UInt32) (row : InMemoryRow) :
    SearchHit S where
  eventId := row.eventId
  sourceId := row.sourceId
  kind := row.kind
  tsMsUtc := row.tsMsUtc
  truncated := row.truncated
  score := cosine query row.vector

variable [LinearOrder S]

/-- The best `topK` of the selected rows by descending score; `sort_by` is stable. -/
def searchKn (gs : Globset) (cosine : List UInt32 → List UInt32 → S) (s : VectorIndex)
    (query : List UInt32) (topK : ℕ) (filter : VectorFilter) :
    Except VectorError (List (SearchHit S)) := do
  let sourceGlobs ← gs.compile .decode filter.sourceFilter
  let kindGlobs ← gs.compile .decode filter.kindFilter
  let hits := (s.rows.filter (selects filter sourceGlobs kindGlobs)).map (hit cosine query)
  return (TopK.select SearchHit.score topK hits).insertionSort fun a b => b.score ≤ a.score

end VectorIndex

end Percept
