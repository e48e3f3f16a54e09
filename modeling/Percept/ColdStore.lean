import Percept.Cursor
import Percept.Lib.KeyTable
import Percept.Lib.Keyset
import Percept.Lib.StarPattern

/-! The cold store: the `events` log with `event_id` as primary key, and the `latest`
table with one row for each source and kind. `serde_json` and SQLite give back the
values they were given, so a column holds the value and not its text. -/
namespace Percept

open OrderBy StarPattern

/-- The eleven columns that `events` and `latest` share. -/
structure StoredRow where
  eventId : Ulid
  sourceId : String
  kind : String
  tsMsUtc : Int64
  ingestTsMsUtc : Int64
  seq : Option Int64
  producerId : Option String
  traceId : Option String
  semantic : Json
  links : Option (List Link)
  schemaInvalid : Option Bool

def StoredRow.pair (r : StoredRow) : Pair := (r.sourceId,r.kind)

/-- `ORDER BY ts_ms_utc, event_id`. -/
def StoredRow.stamp (r : StoredRow) : Int64 ×ₗ Ulid := toLex (r.tsMsUtc,r.eventId)

/-- SQLite's `LENGTH(semantic)`: the number of characters of the text. -/
def StoredRow.length (r : StoredRow) : ℕ := r.semantic.toText.length

/-- A row of `events`; `day` is its partition key. -/
structure EventRow extends StoredRow where
  day : String

def EventRow.stamp (r : EventRow) : Int64 ×ₗ Ulid := r.toStoredRow.stamp

/-- `{n:0width}`: zero padding after the sign. -/
def zeroPad (width : ℕ) (n : Int) : String :=
  let sign := if n < 0 then "-" else ""
  let digits := toString n.natAbs
  sign ++ String.ofList (List.replicate (width-sign.length-digits.length) '0') ++ digits

/-- Days since 1970-01-01 as year, month and day; `i32::try_from(y).unwrap_or(0)`. -/
def civilDate (days : Int64) : Int × UInt32 × UInt32 :=
  let days := days + 719468
  let era := if 0 ≤ days then days/146097 else (days-146096)/146097
  let doe := (days-era*146097).toUInt64
  let yoe := (doe-doe/1460+doe/36524-doe/146096)/365
  let y := yoe.toInt64+era*400
  let doy := doe-(365*yoe+yoe/4-yoe/100)
  let mp := (5*doy+2)/153
  let d := doy-(153*mp+2)/5+1
  let m := if mp < 10 then mp+3 else mp-9
  let yFull := if m ≤ 2 then y+1 else y
  let year := if -2^31 ≤ yFull.toInt ∧ yFull.toInt < 2^31 then yFull.toInt else 0
  (year,m.toUInt32,d.toUInt32)

def dayOf (tsMsUtc : Int64) : String :=
  let secs := tsMsUtc/1000
  let daysSinceEpoch := secs/86400
  let (y,m,d) := civilDate daysSinceEpoch
  zeroPad 4 y ++ "-" ++ zeroPad 2 m.toNat ++ "-" ++ zeroPad 2 d.toNat

/-- The columns bound by both `INSERT` statements. -/
def Event.toStored (e : Event) : StoredRow where
  eventId := e.eventId
  sourceId := e.sourceId
  kind := e.kind
  tsMsUtc := e.tsMsUtc
  ingestTsMsUtc := e.ingestTsMsUtc.getD e.tsMsUtc
  seq := e.seq.map UInt64.toInt64
  producerId := e.producerId
  traceId := e.traceId
  semantic := e.semantic
  links := e.links
  schemaInvalid := e.schemaInvalid

def Event.toRow (e : Event) : EventRow := { e.toStored with day := dayOf e.tsMsUtc }

def rowToEvent (r : StoredRow) : Event where
  eventId := r.eventId
  sourceId := r.sourceId
  kind := r.kind
  tsMsUtc := r.tsMsUtc
  semantic := r.semantic
  links := r.links
  traceId := r.traceId
  ingestTsMsUtc := some r.ingestTsMsUtc
  seq := r.seq.map Int64.toUInt64
  producerId := r.producerId
  schemaInvalid := r.schemaInvalid

@[simp] theorem Event.toStored_pair (e : Event) : e.toStored.pair = e.pair := rfl
@[simp] theorem Event.toStored_eventId (e : Event) : e.toStored.eventId = e.eventId := rfl
@[simp] theorem Event.toStored_tsMsUtc (e : Event) : e.toStored.tsMsUtc = e.tsMsUtc := rfl
@[simp] theorem Event.toRow_toStoredRow (e : Event) : e.toRow.toStoredRow = e.toStored := rfl

/-- `events` and `latest`. The primary key of `latest` is `(source_id, kind)`. -/
structure ColdStore where
  events : KeyTable fun r : EventRow => r.eventId
  latest : Pair → Option StoredRow

/-- What SQLite may report instead of committing; the transaction is then undone. -/
inductive ColdError
  | sqlite (message : String)
  deriving DecidableEq

namespace ColdStore

/-- A fresh database, after the migrations. -/
def openInMemory : ColdStore := ⟨KeyTable.empty,fun _ => none⟩

/-- First statement of `append`: `INSERT OR IGNORE INTO events` for every event. -/
def insertEvents (t : KeyTable fun r : EventRow => r.eventId) (events : List Event) :
    KeyTable fun r : EventRow => r.eventId :=
  t.insertAll (events.map Event.toRow)

/-- One entry of the hash map of `append`: a later event of the pair has to be newer. -/
def newer (cur : Option Event) (e : Event) : Event :=
  match cur with
  | none => e
  | some cur => if cur.tsMsUtc < e.tsMsUtc then e else cur

/-- The batch collapsed to one event for each pair. -/
def latestInBatch (events : List Event) : Pair → Option Event :=
  events.foldl (fun m e => Function.update m e.pair (some (newer (m e.pair) e))) fun _ => none

/-- `INSERT INTO latest ... ON CONFLICT DO UPDATE ... WHERE excluded.ts_ms_utc > latest.ts_ms_utc`
for one pair. -/
def upsert (old : Option StoredRow) (e : Event) : StoredRow :=
  match old with
  | none => e.toStored
  | some old => if old.tsMsUtc < e.tsMsUtc then e.toStored else old

/-- Second statement of `append`. The upserts of a batch touch different pairs, so their
order does not matter. -/
def upsertLatest (latest : Pair → Option StoredRow) (events : List Event) :
    Pair → Option StoredRow := fun p =>
  match latestInBatch events p with
  | none => latest p
  | some e => some (upsert (latest p) e)

/-- The committed effect of `append`. -/
def append (s : ColdStore) (events : List Event) : ColdStore :=
  ⟨insertEvents s.events events,upsertLatest s.latest events⟩

/-- `append` with SQLite's verdict on the transaction. -/
def tryAppend (s : ColdStore) (commit : Except ColdError Unit) (events : List Event) :
    Except ColdError ColdStore :=
  if events.isEmpty then .ok s
  else match commit with
    | .error e => .error e
    | .ok () => .ok (s.append events)

theorem eq_append_of_tryAppend {s s' : ColdStore} {commit : Except ColdError Unit}
    {events : List Event} (h : s.tryAppend commit events = .ok s') : s' = s.append events := by
  unfold tryAppend at h
  split at h
  next hempty =>
    obtain rfl : events = [] := by simpa using hempty
    exact (Except.ok.inj h).symm
  next =>
    cases commit with
    | error e => cases h
    | ok u => exact (Except.ok.inj h).symm

/-- Cached row of `latest`, the cold fallback of `get_current_state`. -/
def latestEvent (s : ColdStore) (sourceId kind : String) : Option Event :=
  (s.latest (sourceId,kind)).map rowToEvent

def getById (s : ColdStore) (eventId : Ulid) : Option Event :=
  (s.events.lookup eventId).map fun r => rowToEvent r.toStoredRow

def eventCount (s : ColdStore) : ℕ := s.events.rows.length

/-- `SELECT DISTINCT source_id, kind FROM events ORDER BY 1, 2`. -/
def distinctSourceKindPairs (s : ColdStore) : List Pair :=
  (s.events.rows.map fun r => r.pair).dedup.insertionSort fun a b => toLex a ≤ toLex b

/-- `WHERE source_id = ? AND kind = ?`. -/
def ofPair (p : Pair) (r : EventRow) : Bool := r.pair = p

def countForPair (s : ColdStore) (p : Pair) : ℕ := s.events.rows.countP (ofPair p)

end ColdStore

/-- `MAX_WINDOW_LIMIT`: per-call hard limit. -/
def maxWindowLimit : UInt32 := 10000

structure WindowFilter where
  startMs : Int64
  endMs : Int64
  sourceFilter : Option (List String)
  kindFilter : Option (List String)
  limit : UInt32

/-- `str::replace` of one character. -/
def replaceChar (c : Char) (new : String) (s : List Char) : List Char :=
  s.flatMap fun x => if x = c then new.toList else [x]

/-- `g.replace('%', r"\%").replace('_', r"\_").replace('*', "%")`. -/
def globToLike (g : String) : String :=
  String.ofList (replaceChar '*' "%" (replaceChar '_' "\\_" (replaceChar '%' "\\%" g.toList)))

/-- A `LIKE` pattern without an `ESCAPE` clause: no escape character. -/
def likeTok (c : Char) : Tok Char :=
  if c = '%' then .star else if c = '_' then .one else .lit c

/-- `LIKE` folds the case of ASCII letters. -/
def sameFolded (a b : Char) : Bool := a.toLower = b.toLower

/-- `value LIKE pattern`. -/
def sqlLike (value pattern : String) : Bool :=
  Matches sameFolded (pattern.toList.map likeTok) value.toList

/-- `glob_clause`: the disjunction of one `LIKE` for each glob, nothing for no glob. -/
def globClause (globs : Option (List String)) (value : String) : Bool :=
  match globs with
  | none => true
  | some globs => globs.isEmpty || globs.any fun g => sqlLike value (globToLike g)

/-- The `WHERE` clause of `query_window` without the resumption. -/
def WindowFilter.selects (f : WindowFilter) (r : StoredRow) : Bool :=
  f.startMs ≤ r.tsMsUtc && r.tsMsUtc < f.endMs &&
    globClause f.sourceFilter r.sourceId && globClause f.kindFilter r.kind

theorem WindowFilter.selects_iff {f : WindowFilter} {r : StoredRow} : f.selects r = true ↔
    f.startMs ≤ r.tsMsUtc ∧ r.tsMsUtc < f.endMs ∧
      globClause f.sourceFilter r.sourceId = true ∧ globClause f.kindFilter r.kind = true := by
  simp [selects,and_assoc]

/-- `ts_ms_utc > ? OR (ts_ms_utc = ? AND event_id > ?)`. -/
def Anchor.before (anchor : Option Anchor) (r : StoredRow) : Bool :=
  match anchor with
  | none => true
  | some a => a.tsMsUtc < r.tsMsUtc || (r.tsMsUtc = a.tsMsUtc && a.eventId < r.eventId)

namespace ColdStore

/-- Time-range scan in `(ts_ms_utc, event_id)` order, after the anchor. -/
def queryWindow (s : ColdStore) (filter : WindowFilter) (anchor : Option Anchor) : List Event :=
  let limit := min filter.limit maxWindowLimit
  let rows := s.events.rows.filter fun r =>
    filter.selects r.toStoredRow && Anchor.before anchor r.toStoredRow
  ((orderBy EventRow.stamp rows).take limit.toNat).map fun r =>
    rowToEvent r.toStoredRow

end ColdStore

example : globToLike "cam.*" = "cam.%" ∧ globToLike "a*b*c" = "a%b%c" := by decide

example : dayOf 1704067200000 = "2024-01-01" := by decide

end Percept
