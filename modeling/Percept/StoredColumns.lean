import Percept.Forwarder
import Percept.Replay

/-! The cold store in columns: what the two `INSERT` statements of `append` bind, by position, and
what `row_to_event` reads back, by position, from the columns of a `SELECT`. -/
namespace Percept

inductive SqlValue
  | null
  | integer (n : Int64)
  | text (s : String)
  deriving DecidableEq

namespace SqlValue

/-- `ToSql` of an option. -/
def ofOption {α : Type} (f : α → SqlValue) : Option α → SqlValue
  | none => .null
  | some a => f a

/-- `ToSql` of a truth value. -/
def ofBool (b : Bool) : SqlValue := .integer (if b then 1 else 0)

def toText? : SqlValue → Option String
  | .text s => some s
  | _ => none

def toInteger? : SqlValue → Option Int64
  | .integer n => some n
  | _ => none

def toBool? (v : SqlValue) : Option Bool := v.toInteger?.map fun n => decide (n ≠ 0)

/-- `FromSql` of an option. -/
def toOption? {α : Type} (f : SqlValue → Option α) : SqlValue → Option (Option α)
  | .null => some none
  | v => (f v).map some

@[simp] theorem toText?_text (s : String) : (text s).toText? = some s := rfl

@[simp] theorem toInteger?_integer (n : Int64) : (integer n).toInteger? = some n := rfl

@[simp] theorem toOption?_null {α : Type} (f : SqlValue → Option α) : toOption? f .null = some none := rfl

@[simp] theorem toOption?_integer {α : Type} (f : SqlValue → Option α) (n : Int64) :
    toOption? f (.integer n) = (f (.integer n)).map some := rfl

@[simp] theorem toOption?_text {α : Type} (f : SqlValue → Option α) (s : String) :
    toOption? f (.text s) = (f (.text s)).map some := rfl

end SqlValue

/-- A row of a table, by the names of its columns. -/
abbrev Cells := String → SqlValue

/-- `INSERT INTO ... (columns) VALUES (?, ...)`: the parameters go to the columns by position. -/
def sqlRow (columns : List String) (params : List SqlValue) : Cells := fun name =>
  ((columns.zip params).lookup name).getD .null

/-- `SELECT columns`. -/
def sqlSelect (columns : List String) (row : Cells) : List SqlValue := columns.map row

/-- `row.get(i)` into a type. -/
def column {α : Type} (row : List SqlValue) (i : ℕ) (read : SqlValue → Option α) : Option α :=
  row[i]?.bind read

/-- `Ulid`'s text form and `serde_json::from_str`. -/
structure SqlCodec where
  ulid : UlidText
  fromText : String → Option Json

def linksText (links : List Link) : String := (Json.array (links.map Link.toJson)).toText

namespace SqlCodec

variable (c : SqlCodec)

/-- `from_str::<Vec<Link>>`. -/
def linksOfText (s : String) : Option (List Link) :=
  (c.fromText s).bind fun j => j.toArray?.bind fun a => a.mapM Link.ofJson

def eventsColumns : List String :=
  ["event_id","source_id","kind","ts_ms_utc","ingest_ts_ms_utc","seq","producer_id","trace_id",
    "semantic","links","schema_invalid","day"]

def eventsParams (e : Event) : List SqlValue :=
  [.text (c.ulid.toText e.eventId),
    .text e.sourceId,
    .text e.kind,
    .integer e.tsMsUtc,
    .integer (e.ingestTsMsUtc.getD e.tsMsUtc),
    .ofOption .integer (e.seq.map UInt64.toInt64),
    .ofOption .text e.producerId,
    .ofOption .text e.traceId,
    .text e.semantic.toText,
    .ofOption .text (e.links.map linksText),
    .ofOption .ofBool e.schemaInvalid,
    .text (dayOf e.tsMsUtc)]

def latestColumns : List String :=
  ["source_id","kind","event_id","ts_ms_utc","ingest_ts_ms_utc","seq","producer_id","trace_id",
    "semantic","links","schema_invalid"]

def latestParams (e : Event) : List SqlValue :=
  [.text e.sourceId,
    .text e.kind,
    .text (c.ulid.toText e.eventId),
    .integer e.tsMsUtc,
    .integer (e.ingestTsMsUtc.getD e.tsMsUtc),
    .ofOption .integer (e.seq.map UInt64.toInt64),
    .ofOption .text e.producerId,
    .ofOption .text e.traceId,
    .text e.semantic.toText,
    .ofOption .text (e.links.map linksText),
    .ofOption .ofBool e.schemaInvalid]

/-- The columns that `DO UPDATE SET` takes from `excluded`. -/
def latestSet : List String :=
  ["event_id","ts_ms_utc","ingest_ts_ms_utc","seq","producer_id","trace_id","semantic","links",
    "schema_invalid"]

/-- The columns of all three `SELECT` statements. -/
def selectColumns : List String :=
  ["event_id","source_id","kind","ts_ms_utc","ingest_ts_ms_utc","seq","producer_id","trace_id",
    "semantic","links","schema_invalid"]

def eventsRow (e : Event) : Cells := sqlRow eventsColumns (c.eventsParams e)

def latestRow (e : Event) : Cells := sqlRow latestColumns (c.latestParams e)

/-- `row_to_event`; nothing when a conversion fails. -/
def rowToEvent (row : List SqlValue) : Option Event := do
  let eventId ← column row 0 fun v => v.toText?.bind c.ulid.ofText
  let sourceId ← column row 1 SqlValue.toText?
  let kind ← column row 2 SqlValue.toText?
  let tsMsUtc ← column row 3 SqlValue.toInteger?
  let ingestTsMsUtc ← column row 4 (SqlValue.toOption? SqlValue.toInteger?)
  let seq ← column row 5 (SqlValue.toOption? SqlValue.toInteger?)
  let producerId ← column row 6 (SqlValue.toOption? SqlValue.toText?)
  let traceId ← column row 7 (SqlValue.toOption? SqlValue.toText?)
  let semantic ← column row 8 fun v => v.toText?.bind c.fromText
  let links ← column row 9 (SqlValue.toOption? fun v => v.toText?.bind c.linksOfText)
  let schemaInvalid ← column row 10 (SqlValue.toOption? SqlValue.toBool?)
  return { eventId, sourceId, kind, tsMsUtc, semantic, links, traceId, ingestTsMsUtc,
           seq := seq.map Int64.toUInt64, producerId, schemaInvalid }

/-- `serde_json` gives back what it wrote of an event. -/
structure Reads (e : Event) : Prop where
  semantic : c.fromText e.semantic.toText = some e.semantic
  links : ∀ links, e.links = some links →
    c.fromText (linksText links) = some (.array (links.map Link.toJson))

/-- Both statements put the same values under the names that are selected. -/
theorem select_eventsRow (e : Event) :
    sqlSelect selectColumns (c.eventsRow e) = (c.eventsParams e).take 11 := rfl

theorem select_latestRow (e : Event) :
    sqlSelect selectColumns (c.latestRow e) = (c.eventsParams e).take 11 := rfl

variable {c} {e : Event}

theorem linksOfText_linksText {links : List Link}
    (h : c.fromText (linksText links) = some (.array (links.map Link.toJson))) :
    c.linksOfText (linksText links) = some links := by
  rw [linksOfText,h]
  exact mapM_map_some Link.ofJson_toJson links

/-- What was bound by position is what the typed row reads back. -/
theorem rowToEvent_params (hulid : c.ulid.RoundTrips) (hreads : c.Reads e) :
    c.rowToEvent ((c.eventsParams e).take 11) = some (Percept.rowToEvent e.toStored) := by
  have hid : c.ulid.ofText (c.ulid.toText e.eventId) = some e.eventId := hulid e.eventId
  have hsemantic := hreads.semantic
  have hseq : (SqlValue.ofOption .integer (e.seq.map UInt64.toInt64)).toOption? SqlValue.toInteger? =
      some (e.seq.map UInt64.toInt64) := by
    cases e.seq <;> rfl
  have hproducer : (SqlValue.ofOption .text e.producerId).toOption? SqlValue.toText? =
      some e.producerId := by
    cases e.producerId <;> rfl
  have htrace : (SqlValue.ofOption .text e.traceId).toOption? SqlValue.toText? = some e.traceId := by
    cases e.traceId <;> rfl
  have hlinks : (SqlValue.ofOption .text (e.links.map linksText)).toOption?
      (fun v => v.toText?.bind c.linksOfText) = some e.links := by
    have hread := hreads.links
    cases he : e.links with
    | none => rfl
    | some links => exact congrArg (Option.map some) (linksOfText_linksText (hread links he))
  have hinvalid : (SqlValue.ofOption .ofBool e.schemaInvalid).toOption? SqlValue.toBool? =
      some e.schemaInvalid := by
    rcases e.schemaInvalid with _ | _ | _ <;> rfl
  simp [rowToEvent,column,eventsParams,hid,hsemantic,hseq,hproducer,
    htrace,hlinks,hinvalid,Percept.rowToEvent,Event.toStored]

theorem rowToEvent_eventsRow (hulid : c.ulid.RoundTrips) (hreads : c.Reads e) :
    c.rowToEvent (sqlSelect selectColumns (c.eventsRow e)) = some (Percept.rowToEvent e.toStored) := by
  rw [select_eventsRow]
  exact rowToEvent_params hulid hreads

theorem rowToEvent_latestRow (hulid : c.ulid.RoundTrips) (hreads : c.Reads e) :
    c.rowToEvent (sqlSelect selectColumns (c.latestRow e)) = some (Percept.rowToEvent e.toStored) := by
  rw [select_latestRow]
  exact rowToEvent_params hulid hreads

end SqlCodec

/-- The two tables. The primary key of `latest` is `(source_id, kind)`. -/
structure SqlTables where
  events : KeyTable fun r : Cells => r "event_id"
  latest : Pair → Option Cells

/-- `excluded.ts_ms_utc > latest.ts_ms_utc`. -/
def olderCells (old excluded : Cells) : Bool :=
  match old "ts_ms_utc",excluded "ts_ms_utc" with
  | .integer a,.integer b => a < b
  | _,_ => false

/-- `ON CONFLICT DO UPDATE SET ... WHERE` for one pair. -/
def upsertCells (old : Option Cells) (excluded : Cells) : Cells :=
  match old with
  | none => excluded
  | some old =>
    if olderCells old excluded then
      fun name => if name ∈ SqlCodec.latestSet then excluded name else old name
    else old

namespace SqlTables

variable (c : SqlCodec)

def empty : SqlTables := ⟨.empty,fun _ => none⟩

/-- The transaction of `append`. -/
def append (t : SqlTables) (events : List Event) : SqlTables where
  events := t.events.insertAll (events.map c.eventsRow)
  latest := fun p => match ColdStore.latestInBatch events p with
    | none => t.latest p
    | some e => some (upsertCells (t.latest p) (c.latestRow e))

def appendAll (t : SqlTables) (batches : List (List Event)) : SqlTables := batches.foldl (append c) t

/-- `query_row` of a `SELECT`; nothing when the conversion fails. -/
def readRow (row : Option Cells) : Option (Option Event) :=
  match row with
  | none => some none
  | some row => (c.rowToEvent (sqlSelect SqlCodec.selectColumns row)).map some

def latestEvent (t : SqlTables) (sourceId kind : String) : Option (Option Event) :=
  readRow c (t.latest (sourceId,kind))

def getById (t : SqlTables) (eventId : Ulid) : Option (Option Event) :=
  readRow c (t.events.lookup (.text (c.ulid.toText eventId)))

/-- The `WHERE` clause of `query_window` without the resumption. -/
def selects (f : WindowFilter) (row : Cells) : Bool :=
  (row "ts_ms_utc").toInteger?.any (fun ts => f.startMs ≤ ts && ts < f.endMs) &&
    (row "source_id").toText?.any (globClause f.sourceFilter) &&
    (row "kind").toText?.any (globClause f.kindFilter)

/-- `ts_ms_utc > ? OR (ts_ms_utc = ? AND event_id > ?)`, on the text of the id. -/
def resumes (anchor : Option Anchor) (row : Cells) : Bool :=
  match anchor with
  | none => true
  | some a => (row "ts_ms_utc").toInteger?.any fun ts =>
      a.tsMsUtc < ts || (ts = a.tsMsUtc &&
        (row "event_id").toText?.any fun id => c.ulid.toText a.eventId < id)

/-- `ORDER BY ts_ms_utc, event_id`. -/
def stamp (row : Cells) : Int64 ×ₗ String :=
  toLex ((row "ts_ms_utc").toInteger?.getD 0,(row "event_id").toText?.getD "")

/-- The rows that the statement of `query_window` gives. -/
def page (t : SqlTables) (filter : WindowFilter) (anchor : Option Anchor) : List Cells :=
  let limit := min filter.limit maxWindowLimit
  let rows := t.events.rows.filter fun row => selects filter row && resumes c anchor row
  (OrderBy.orderBy stamp rows).take limit.toNat

/-- The first conversion that fails fails the query. -/
def queryWindow (t : SqlTables) (filter : WindowFilter) (anchor : Option Anchor) :
    Option (List Event) :=
  (t.page c filter anchor).mapM fun row => c.rowToEvent (sqlSelect SqlCodec.selectColumns row)

/-- What happens to the tables: an append, or rows of `events` deleted by a sweep. -/
inductive Op
  | append (events : List Event)
  | delete (del : Cells → Bool)

def apply (t : SqlTables) : Op → SqlTables
  | .append events => t.append c events
  | .delete del => { t with events := t.events.delete del }

def run (t : SqlTables) (ops : List Op) : SqlTables := ops.foldl (apply c) t

/-- Every event that was handed to `append`. -/
def appended (ops : List Op) : List Event := ops.flatMap fun
  | .append events => events
  | .delete _ => []

end SqlTables

section Rows

variable {c : SqlCodec} {e : Event}

theorem sqlRow_of_notMem {columns : List String} {params : List SqlValue} {name : String}
    (h : name ∉ columns) : sqlRow columns params name = .null := by
  have hnone : (columns.zip params).lookup name = none := by
    rw [List.lookup_eq_none_iff]
    rintro ⟨column,v⟩ hmem
    have hcolumn := (List.of_mem_zip hmem).1
    simp only [bne_iff_ne,ne_eq]
    rintro rfl
    exact h hcolumn
  rw [sqlRow,hnone]
  rfl

theorem exists_mapM {α β : Type} {f : α → Option β} {l : List α} (h : ∀ a ∈ l, ∃ b, f a = some b) :
    ∃ bs, l.mapM f = some bs ∧ bs.length = l.length ∧ ∀ b, b ∈ bs ↔ ∃ a ∈ l, f a = some b := by
  induction l with
  | nil => exact ⟨[],rfl,rfl,by simp⟩
  | cons a l ih =>
    obtain ⟨b,hb⟩ := h a List.mem_cons_self
    obtain ⟨bs,hbs,hlength,hmem⟩ := ih fun x hx => h x (List.mem_cons_of_mem a hx)
    refine ⟨b::bs,by simp [hb,hbs],congrArg (· + 1) hlength,fun y => ?_⟩
    rw [List.mem_cons,hmem,List.exists_mem_cons_iff,hb,Option.some.injEq,eq_comm]

theorem toText_injective (hulid : c.ulid.RoundTrips) : Function.Injective c.ulid.toText := by
  intro u v huv
  exact Option.some.inj ((hulid u).symm.trans ((congrArg c.ulid.ofText huv).trans (hulid v)))

/-- The update sets every column but those of the primary key, which are the same. -/
theorem upsertCells_eq {cur : Option Event} (hpair : ∀ x, cur = some x → x.pair = e.pair) :
    upsertCells (cur.map c.latestRow) (c.latestRow e) = c.latestRow (ColdStore.newer cur e) := by
  cases cur with
  | none => rfl
  | some x =>
    have holder : olderCells (c.latestRow x) (c.latestRow e) = decide (x.tsMsUtc < e.tsMsUtc) := rfl
    have hsource : x.sourceId = e.sourceId := congrArg Prod.fst (hpair x rfl)
    have hkind : x.kind = e.kind := congrArg Prod.snd (hpair x rfl)
    simp only [Option.map_some,upsertCells,holder,decide_eq_true_eq,ColdStore.newer]
    split
    · funext name
      split_ifs with hset
      · rfl
      · by_cases hcolumn : name ∈ SqlCodec.latestColumns
        · have hcolumns : SqlCodec.latestColumns = "source_id"::"kind"::SqlCodec.latestSet := rfl
          rw [hcolumns,List.mem_cons,List.mem_cons] at hcolumn
          obtain rfl | rfl | hset' := hcolumn
          · exact congrArg SqlValue.text hsource
          · exact congrArg SqlValue.text hkind
          · exact absurd hset' hset
        · rw [SqlCodec.latestRow,SqlCodec.latestRow,sqlRow_of_notMem hcolumn,sqlRow_of_notMem hcolumn]
    · rfl

theorem pair_newer {cur : Option Event} (hpair : ∀ x, cur = some x → x.pair = e.pair) :
    (ColdStore.newer cur e).pair = e.pair := by
  cases cur with
  | none => rfl
  | some x =>
    rw [ColdStore.newer]
    split
    · rfl
    · exact hpair x rfl

theorem selects_eventsRow (f : WindowFilter) :
    SqlTables.selects f (c.eventsRow e) = f.selects e.toStored := by
  have hts : (c.eventsRow e) "ts_ms_utc" = .integer e.tsMsUtc := rfl
  have hsource : (c.eventsRow e) "source_id" = .text e.sourceId := rfl
  have hkind : (c.eventsRow e) "kind" = .text e.kind := rfl
  simp only [SqlTables.selects,hts,hsource,hkind,SqlValue.toInteger?_integer,SqlValue.toText?_text,
    Option.any_some]
  rfl

end Rows

namespace SqlTables

section Runs

variable {c : SqlCodec} {t : SqlTables} {xs : List Event}

/-- The tables hold what `append` makes of some events. -/
structure Written (c : SqlCodec) (t : SqlTables) (xs : List Event) : Prop where
  events : ∀ row ∈ t.events.rows, ∃ x ∈ xs, c.eventsRow x = row
  latest : ∀ p, t.latest p = (ColdStore.latestInBatch xs p).map c.latestRow

theorem Written.empty : Written c .empty [] :=
  ⟨fun _ hrow => absurd hrow List.not_mem_nil,fun _ => rfl⟩

theorem Written.append (h : Written c t xs) (batch : List Event) :
    Written c (t.append c batch) (xs ++ batch) := by
  refine ⟨fun row hrow => ?_,fun p => ?_⟩
  · rcases KeyTable.mem_insertAll.mp hrow with hold | ⟨_,hnew⟩
    · obtain ⟨x,hx,hrow⟩ := h.events row hold
      exact ⟨x,List.mem_append_left _ hx,hrow⟩
    · obtain ⟨x,hx,hrow⟩ := List.mem_map.mp (List.mem_of_find?_eq_some hnew)
      exact ⟨x,List.mem_append_right _ hx,hrow⟩
  · simp only [SqlTables.append]
    rw [ColdStore.latestInBatch_append]
    have hbatch := ColdStore.latestInBatch_spec batch p
    have hxs := ColdStore.latestInBatch_spec xs p
    cases hw : ColdStore.latestInBatch batch p with
    | none => exact h.latest p
    | some w =>
      rw [hw] at hbatch
      rw [h.latest]
      refine congrArg some (upsertCells_eq fun x hx => ?_)
      rw [hx] at hxs
      exact hxs.1.trans hbatch.1.symm

theorem Written.delete (h : Written c t xs) (del : Cells → Bool) :
    Written c { t with events := t.events.delete del } xs :=
  ⟨fun row hrow => h.events row (List.mem_of_mem_filter hrow),h.latest⟩

theorem Written.run (h : Written c t xs) (ops : List Op) :
    Written c (t.run c ops) (xs ++ appended ops) := by
  induction ops generalizing t xs with
  | nil =>
    rw [appended,List.flatMap_nil,List.append_nil]
    exact h
  | cons op ops ih =>
    cases op with
    | append events =>
      have hrest := ih (h.append events)
      rwa [List.append_assoc] at hrest
    | delete del => exact ih (h.delete del)

theorem Written.appendAll (h : Written c t xs) (batches : List (List Event)) :
    Written c (t.appendAll c batches) (xs ++ batches.flatten) := by
  induction batches generalizing t xs with
  | nil =>
    rw [List.flatten_nil,List.append_nil]
    exact h
  | cons batch batches ih =>
    rw [List.flatten_cons,← List.append_assoc]
    exact ih (h.append batch)

theorem Written.nodup_stamps (h : Written c t xs) : (t.events.rows.map stamp).Nodup := by
  refine List.Nodup.map_on (fun row hrow row' hrow' hstamp => ?_) t.events.nodup.of_map
  obtain ⟨x,-,rfl⟩ := h.events row hrow
  obtain ⟨y,-,rfl⟩ := h.events row' hrow'
  have hid : c.ulid.toText x.eventId = c.ulid.toText y.eventId :=
    congrArg (fun k => (ofLex k).2) hstamp
  exact t.events.eq_of_key hrow hrow' (congrArg SqlValue.text hid)

section Read

variable {e : Event} (hulid : c.ulid.RoundTrips)
include hulid

theorem toText_eq_iff {u v : Ulid} : SqlValue.text (c.ulid.toText u) = .text (c.ulid.toText v) ↔ u = v :=
  ⟨fun h => toText_injective hulid (SqlValue.text.inj h),fun h => h ▸ rfl⟩

/-- The first event under a fresh id is the one that is inserted. -/
theorem Written.mem_append (h : Written c t xs) (b₁ b₂ : List Event)
    (hfresh : ∀ x ∈ xs ++ b₁, x.eventId ≠ e.eventId) :
    c.eventsRow e ∈ (t.append c (b₁ ++ e::b₂)).events.rows := by
  refine KeyTable.mem_insertAll.mpr (Or.inr ⟨?_,?_⟩)
  · rintro hkey
    obtain ⟨row,hrow,hkey⟩ := List.mem_map.mp hkey
    obtain ⟨x,hx,rfl⟩ := h.events row hrow
    exact hfresh x (List.mem_append_left _ hx) ((toText_eq_iff hulid).mp hkey)
  · rw [List.map_append,List.map_cons]
    refine List.find?_eq_some_iff_append.mpr ⟨decide_eq_true rfl,_,_,rfl,fun row hrow => ?_⟩
    obtain ⟨x,hx,rfl⟩ := List.mem_map.mp hrow
    rw [Bool.not_eq_true',decide_eq_false_iff_not]
    exact fun hkey => hfresh x (List.mem_append_right _ hx) ((toText_eq_iff hulid).mp hkey)

theorem getById_of_mem (hreads : c.Reads e) (hingest : e.ingestTsMsUtc.isSome)
    (hmem : c.eventsRow e ∈ t.events.rows) : t.getById c e.eventId = some (some e) := by
  have hlookup : t.events.lookup (.text (c.ulid.toText e.eventId)) = some (c.eventsRow e) :=
    KeyTable.lookup_eq_some_iff.mpr ⟨hmem,rfl⟩
  rw [SqlTables.getById,hlookup,readRow,SqlCodec.rowToEvent_eventsRow hulid hreads,
    ColdStore.rowToEvent_toStored hingest]
  rfl

end Read

/-- A row that is selected and not on the page has a full page before it. -/
theorem mem_page_or (h : Written c t xs) {filter : WindowFilter} {anchor : Option Anchor} {row : Cells}
    (hrow : row ∈ t.events.rows) (hselects : selects filter row) (hresumes : resumes c anchor row) :
    row ∈ t.page c filter anchor ∨
      (t.page c filter anchor).length = (min filter.limit maxWindowLimit).toNat ∧
        ∀ row' ∈ t.page c filter anchor, stamp row' < stamp row := by
  rw [page]
  generalize hrows : t.events.rows.filter _ = rows
  generalize (min filter.limit maxWindowLimit).toNat = limit
  have hmem : row ∈ OrderBy.orderBy stamp rows := by
    rw [OrderBy.mem_orderBy,← hrows,List.mem_filter,hselects,hresumes]
    exact ⟨hrow,rfl⟩
  have hnodup : (rows.map stamp).Nodup :=
    h.nodup_stamps.sublist (hrows ▸ List.filter_sublist.map stamp)
  have hsorted := OrderBy.orderBy_ascending hnodup
  rw [← List.take_append_drop limit (OrderBy.orderBy stamp rows)] at hmem hsorted
  rcases List.mem_append.mp hmem with htake | hdrop
  · exact Or.inl htake
  · have hlong : limit < (OrderBy.orderBy stamp rows).length := by
      have hpos := List.length_pos_of_mem hdrop
      rw [List.length_drop] at hpos
      exact Nat.lt_of_sub_pos hpos
    exact Or.inr ⟨List.length_take_of_le hlong.le,fun row' hrow' =>
      (List.pairwise_append.mp hsorted).2.2 row' hrow' row hdrop⟩

/-- The page is read back event by event. -/
theorem exists_queryWindow (h : Written c t xs) (hulid : c.ulid.RoundTrips)
    (hreads : ∀ x ∈ xs, c.Reads x) (filter : WindowFilter) (anchor : Option Anchor) :
    ∃ events, t.queryWindow c filter anchor = some events ∧
      events.length = (t.page c filter anchor).length ∧
      ∀ y, y ∈ events ↔ ∃ x ∈ xs, c.eventsRow x ∈ t.page c filter anchor ∧
        y = Percept.rowToEvent x.toStored := by
  have hread : ∀ x ∈ xs, c.rowToEvent (sqlSelect SqlCodec.selectColumns (c.eventsRow x)) =
      some (Percept.rowToEvent x.toStored) := fun x hx =>
    SqlCodec.rowToEvent_eventsRow hulid (hreads x hx)
  have hpage : ∀ row ∈ t.page c filter anchor, ∃ x ∈ xs, c.eventsRow x = row := fun row hrow =>
    h.events row (List.mem_of_mem_filter (OrderBy.mem_orderBy.mp (List.mem_of_mem_take hrow)))
  have hsome : ∀ row ∈ t.page c filter anchor,
      ∃ y, c.rowToEvent (sqlSelect SqlCodec.selectColumns row) = some y := by
    intro row hrow
    obtain ⟨x,hx,rfl⟩ := hpage row hrow
    exact ⟨_,hread x hx⟩
  obtain ⟨events,hevents,hlength,hmem⟩ := exists_mapM hsome
  refine ⟨events,hevents,hlength,fun y => ?_⟩
  rw [hmem]
  constructor
  · rintro ⟨row,hrow,hy⟩
    obtain ⟨x,hx,rfl⟩ := hpage row hrow
    exact ⟨x,hx,hrow,Option.some.inj (hy.symm.trans (hread x hx))⟩
  · rintro ⟨x,hx,hrow,rfl⟩
    exact ⟨_,hrow,hread x hx⟩

theorem queryWindow_of_mem (h : Written c t xs) (hulid : c.ulid.RoundTrips)
    (hreads : ∀ x ∈ xs, c.Reads x) {e : Event} (hingest : e.ingestTsMsUtc.isSome) (he : e ∈ xs)
    (hmem : c.eventsRow e ∈ t.events.rows) {filter : WindowFilter} {anchor : Option Anchor}
    (hselects : filter.selects e.toStored) (hresumes : resumes c anchor (c.eventsRow e)) :
    ∃ events, t.queryWindow c filter anchor = some events ∧
      (∀ x ∈ events, x.eventId = e.eventId → x = e) ∧
      (e ∈ events ∨ events.length = (min filter.limit maxWindowLimit).toNat ∧
        ∀ x ∈ events, stamp (c.eventsRow x) < stamp (c.eventsRow e)) := by
  obtain ⟨events,hevents,hlength,hiff⟩ := exists_queryWindow h hulid hreads filter anchor
  have hback := ColdStore.rowToEvent_toStored hingest
  refine ⟨events,hevents,fun y hy hid => ?_,?_⟩
  · obtain ⟨x,hx,hpage,rfl⟩ := (hiff y).mp hy
    have hrow := List.mem_of_mem_filter (OrderBy.mem_orderBy.mp (List.mem_of_mem_take hpage))
    have hsame : c.eventsRow x = c.eventsRow e :=
      t.events.eq_of_key hrow hmem ((toText_eq_iff hulid).mpr hid)
    have hx' := SqlCodec.rowToEvent_eventsRow hulid (hreads x hx)
    have he' := SqlCodec.rowToEvent_eventsRow hulid (hreads e he)
    rw [hsame] at hx'
    exact (Option.some.inj (hx'.symm.trans he')).trans hback
  · have hselects' := (selects_eventsRow (c := c) filter).trans hselects
    rcases mem_page_or h hmem hselects' hresumes with hpage | ⟨hfull,hbefore⟩
    · exact Or.inl ((hiff e).mpr ⟨e,he,hpage,hback.symm⟩)
    · refine Or.inr ⟨hlength.trans hfull,fun y hy => ?_⟩
      obtain ⟨x,-,hrow,rfl⟩ := (hiff y).mp hy
      have hstamp : stamp (c.eventsRow (Percept.rowToEvent x.toStored)) = stamp (c.eventsRow x) := rfl
      rw [hstamp]
      exact hbefore _ hrow

theorem latestEvent_eq (h : Written c t xs) (hulid : c.ulid.RoundTrips) {e : Event}
    (hreads : c.Reads e) (hingest : e.ingestTsMsUtc.isSome)
    (hlatest : ColdStore.latestInBatch xs e.pair = some e) :
    t.latestEvent c e.sourceId e.kind = some (some e) := by
  have hrow : t.latest (e.sourceId,e.kind) = some (c.latestRow e) :=
    (h.latest e.pair).trans (congrArg (Option.map c.latestRow) hlatest)
  rw [SqlTables.latestEvent,hrow,readRow,SqlCodec.rowToEvent_latestRow hulid hreads,
    ColdStore.rowToEvent_toStored hingest]
  rfl

theorem appendAll_mem {row : Cells} (hrow : row ∈ t.events.rows) (batches : List (List Event)) :
    row ∈ (t.appendAll c batches).events.rows := by
  induction batches generalizing t with
  | nil => exact hrow
  | cons batch batches ih => exact ih (KeyTable.mem_insertAll.mpr (Or.inl hrow))

end Runs

section Typed

variable {c : SqlCodec} {t : SqlTables} {s : ColdStore}

/-- The two tables and the typed store hold the same events. -/
structure Represents (c : SqlCodec) (t : SqlTables) (s : ColdStore) : Prop where
  events : ∃ xs : List Event, t.events.rows = xs.map c.eventsRow ∧ s.events.rows = xs.map Event.toRow
  latest : ∀ p, ∃ cur : Option Event, (∀ x, cur = some x → x.pair = p) ∧
    t.latest p = cur.map c.latestRow ∧ s.latest p = cur.map Event.toStored

theorem Represents.empty : Represents c .empty .openInMemory :=
  ⟨⟨[],rfl,rfl⟩,fun _ => ⟨none,fun _ hx => absurd hx.symm (Option.some_ne_none _),rfl,rfl⟩⟩

/-- The text of an id is taken when the id is. -/
theorem insertAll_rows (hulid : c.ulid.RoundTrips) {events : KeyTable fun r : Cells => r "event_id"}
    {typed : KeyTable fun r : EventRow => r.eventId} {xs : List Event}
    (hevents : events.rows = xs.map c.eventsRow) (htyped : typed.rows = xs.map Event.toRow)
    (batch : List Event) : ∃ ys : List Event,
      (events.insertAll (batch.map c.eventsRow)).rows = ys.map c.eventsRow ∧
      (typed.insertAll (batch.map Event.toRow)).rows = ys.map Event.toRow := by
  induction batch generalizing events typed xs with
  | nil => exact ⟨xs,hevents,htyped⟩
  | cons e batch ih =>
    have htext : c.eventsRow e "event_id" ∈ events.rows.map (fun r => r "event_id") ↔
        ∃ x ∈ xs, x.eventId = e.eventId := by
      rw [hevents,List.map_map,List.mem_map]
      exact exists_congr fun x => and_congr_right fun _ => toText_eq_iff hulid
    have hid : e.toRow.eventId ∈ typed.rows.map (fun r => r.eventId) ↔
        ∃ x ∈ xs, x.eventId = e.eventId := by
      rw [htyped,List.map_map,List.mem_map]
      rfl
    by_cases hold : ∃ x ∈ xs, x.eventId = e.eventId
    · have hfirst := KeyTable.insertOrIgnore_of_mem (htext.mpr hold)
      have hfirst' := KeyTable.insertOrIgnore_of_mem (hid.mpr hold)
      rw [List.map_cons,List.map_cons,KeyTable.insertAll,KeyTable.insertAll,List.foldl_cons,List.foldl_cons,
        hfirst,hfirst']
      exact ih hevents htyped
    · have hfirst := KeyTable.rows_insertOrIgnore fun h => hold (htext.mp h)
      have hfirst' := KeyTable.rows_insertOrIgnore fun h => hold (hid.mp h)
      rw [hevents] at hfirst
      rw [htyped] at hfirst'
      have hxs : xs.map c.eventsRow ++ [c.eventsRow e] = (xs ++ [e]).map c.eventsRow := by simp
      have hxs' : xs.map Event.toRow ++ [e.toRow] = (xs ++ [e]).map Event.toRow := by simp
      exact ih (hfirst.trans hxs) (hfirst'.trans hxs')

theorem Represents.append (h : Represents c t s) (hulid : c.ulid.RoundTrips) (batch : List Event) :
    Represents c (t.append c batch) (s.append batch) := by
  refine ⟨?_,fun p => ?_⟩
  · obtain ⟨xs,hevents,htyped⟩ := h.events
    exact insertAll_rows hulid hevents htyped batch
  · obtain ⟨cur,hpair,hlatest,htyped⟩ := h.latest p
    have hbatch := ColdStore.latestInBatch_spec batch p
    simp only [SqlTables.append,ColdStore.append,ColdStore.upsertLatest]
    cases hw : ColdStore.latestInBatch batch p with
    | none => exact ⟨cur,hpair,hlatest,htyped⟩
    | some w =>
      rw [hw] at hbatch
      have hcur : ∀ x, cur = some x → x.pair = w.pair := fun x hx => (hpair x hx).trans hbatch.1.symm
      refine ⟨some (ColdStore.newer cur w),fun x hx => ?_,?_,?_⟩
      · rw [← Option.some.inj hx]
        exact (pair_newer hcur).trans hbatch.1
      · rw [hlatest]
        exact congrArg some (upsertCells_eq hcur)
      · rw [htyped]
        exact congrArg some (ColdStore.upsert_eq cur w)

/-- The columns are read as the typed rows are. -/
theorem Represents.getById (h : Represents c t s) (hulid : c.ulid.RoundTrips)
    (hreads : ∀ x : Event, x.toRow ∈ s.events.rows → c.Reads x) (eventId : Ulid) :
    t.getById c eventId = some (s.getById eventId) := by
  obtain ⟨xs,hevents,htyped⟩ := h.events
  have htext : t.events.lookup (.text (c.ulid.toText eventId)) =
      (xs.find? fun x => x.eventId = eventId).map c.eventsRow := by
    rw [KeyTable.lookup,hevents,List.find?_map]
    congr 2
    funext x
    exact decide_eq_decide.mpr (toText_eq_iff hulid)
  have hid : s.events.lookup eventId = (xs.find? fun x => x.eventId = eventId).map Event.toRow := by
    rw [KeyTable.lookup,htyped,List.find?_map]
    rfl
  rw [SqlTables.getById,ColdStore.getById,htext,hid]
  cases hx : xs.find? fun x => x.eventId = eventId with
  | none => rfl
  | some x =>
    have hmem : x.toRow ∈ s.events.rows := htyped ▸ List.mem_map_of_mem (List.mem_of_find?_eq_some hx)
    exact congrArg (Option.map some) (SqlCodec.rowToEvent_eventsRow hulid (hreads x hmem))

theorem Represents.latestEvent (h : Represents c t s) (hulid : c.ulid.RoundTrips)
    (hreads : ∀ x : Event, s.latest x.pair = some x.toStored → c.Reads x) (sourceId kind : String) :
    t.latestEvent c sourceId kind = some (s.latestEvent sourceId kind) := by
  obtain ⟨cur,hpair,hlatest,htyped⟩ := h.latest (sourceId,kind)
  rw [SqlTables.latestEvent,ColdStore.latestEvent,hlatest,htyped]
  cases cur with
  | none => rfl
  | some x =>
    have hread : c.Reads x := hreads x ((hpair x rfl).symm ▸ htyped)
    exact congrArg (Option.map some) (SqlCodec.rowToEvent_latestRow hulid hread)

end Typed

end SqlTables

/-- An event that is strictly newer than every other of its pair is the latest one. -/
theorem latestInBatch_of_newest {xs ys : List Event} {e : Event}
    (h : ∀ x ∈ xs ++ ys, x.pair = e.pair → x.tsMsUtc < e.tsMsUtc) :
    ColdStore.latestInBatch (xs ++ e::ys) e.pair = some e := by
  rw [← ColdStore.latestInBatch_ofKind]
  refine (latestInBatch_eq_some_iff fun x hx => of_decide_eq_true (List.mem_filter.mp hx).2).mpr ?_
  refine ⟨ofKind e.pair xs,ofKind e.pair ys,by simp [ofKind],fun x hx => ?_,fun x hx => ?_⟩
  · obtain ⟨hmem,hpair⟩ := List.mem_filter.mp hx
    exact h x (List.mem_append_left _ hmem) (of_decide_eq_true hpair)
  · obtain ⟨hmem,hpair⟩ := List.mem_filter.mp hx
    exact (h x (List.mem_append_right _ hmem) (of_decide_eq_true hpair)).le

/-- An event appended under a fresh id is read back as it was, whatever else is appended with it
and behind it. -/
theorem stored_events_read_back (c : SqlCodec) (hulid : c.ulid.RoundTrips) (ops : List SqlTables.Op)
    (b₁ b₂ : List Event) (e : Event) (later : List (List Event)) (hingest : e.ingestTsMsUtc.isSome)
    (hfresh : ∀ x ∈ SqlTables.appended ops ++ b₁, x.eventId ≠ e.eventId)
    (hreads : ∀ x ∈ SqlTables.appended ops ++ (b₁ ++ e::b₂) ++ later.flatten, c.Reads x) :
    let t := ((SqlTables.empty.run c ops).append c (b₁ ++ e::b₂)).appendAll c later
    t.getById c e.eventId = some (some e) ∧
    (∀ (filter : WindowFilter) (anchor : Option Anchor), filter.selects e.toStored →
      SqlTables.resumes c anchor (c.eventsRow e) →
      ∃ events, t.queryWindow c filter anchor = some events ∧
        (∀ x ∈ events, x.eventId = e.eventId → x = e) ∧
        (e ∈ events ∨ events.length = (min filter.limit maxWindowLimit).toNat ∧
          ∀ x ∈ events, SqlTables.stamp (c.eventsRow x) < SqlTables.stamp (c.eventsRow e))) ∧
    ((∀ x ∈ SqlTables.appended ops ++ b₁ ++ (b₂ ++ later.flatten), x.pair = e.pair →
      x.tsMsUtc < e.tsMsUtc) → t.latestEvent c e.sourceId e.kind = some (some e)) := by
  intro t
  have hrun : SqlTables.Written c (SqlTables.empty.run c ops) (SqlTables.appended ops) :=
    SqlTables.Written.empty.run ops
  have ht := (hrun.append (b₁ ++ e::b₂)).appendAll later
  have hrow : c.eventsRow e ∈ t.events.rows :=
    SqlTables.appendAll_mem (hrun.mem_append hulid b₁ b₂ hfresh) later
  have he : e ∈ SqlTables.appended ops ++ (b₁ ++ e::b₂) ++ later.flatten := by simp
  refine ⟨SqlTables.getById_of_mem hulid (hreads e he) hingest hrow,fun filter anchor hselects hresumes =>
    SqlTables.queryWindow_of_mem ht hulid hreads hingest he hrow hselects hresumes,fun hnewest => ?_⟩
  refine SqlTables.latestEvent_eq ht hulid (hreads e he) hingest ?_
  have hsplit : SqlTables.appended ops ++ (b₁ ++ e::b₂) ++ later.flatten =
      SqlTables.appended ops ++ b₁ ++ e::(b₂ ++ later.flatten) := by simp
  rw [hsplit]
  exact latestInBatch_of_newest hnewest

def frameLink : Link := ⟨"frame","file:1",none,none,none⟩

/-- Reads the three texts that `frameEvent` and its neighbours need. -/
def frameCodec : SqlCodec where
  ulid := crockfordText
  fromText s := [Json.null,.array [],.array [frameLink.toJson]].find? fun j => j.toText = s

def frameEvent (eventId : Ulid) (tsMsUtc : Int64) (links : Option (List Link)) : Event where
  eventId := eventId
  sourceId := "cam"
  kind := "frame"
  tsMsUtc := tsMsUtc
  semantic := .null
  links := links
  traceId := none
  ingestTsMsUtc := some 9
  seq := some 18446744073709551615
  producerId := some "edge"
  schemaInvalid := some false

theorem frameCodec_reads (eventId : Ulid) (tsMsUtc : Int64) {links : Option (List Link)}
    (h : links = none ∨ links = some [] ∨ links = some [frameLink]) :
    frameCodec.Reads (frameEvent eventId tsMsUtc links) := by
  refine ⟨rfl,fun read hread => ?_⟩
  rcases h with rfl | rfl | rfl
  · cases hread
  · cases hread
    rfl
  · cases hread
    rfl

theorem stored_events_read_back_frame : let e := frameEvent 2 5 (some [frameLink])
    let t := ((SqlTables.empty.run frameCodec [.append [frameEvent 1 4 none],.delete fun _ => true]).append
      frameCodec [frameEvent 3 4 (some []),e]).appendAll frameCodec [[frameEvent 2 3 none]]
    t.getById frameCodec 2 = some (some e) ∧ t.latestEvent frameCodec "cam" "frame" = some (some e) ∧
      ∃ events, t.queryWindow frameCodec ⟨5,6,some ["cam"],none,10⟩ none = some events ∧
        ∀ x ∈ events, x.eventId = 2 → x = e := by
  intro e t
  have h := stored_events_read_back frameCodec crockfordText_roundTrips
    [.append [frameEvent 1 4 none],.delete fun _ => true] [frameEvent 3 4 (some [])] [] e
    [[frameEvent 2 3 none]] rfl (by decide) (by
      intro x hx
      simp only [SqlTables.appended,List.flatMap_cons,List.flatMap_nil,List.append_nil,List.flatten_cons,
        List.flatten_nil,List.cons_append,List.nil_append,List.mem_cons,List.not_mem_nil,or_false] at hx
      rcases hx with rfl | rfl | rfl | rfl
      · exact frameCodec_reads 1 4 (Or.inl rfl)
      · exact frameCodec_reads 3 4 (Or.inr (Or.inl rfl))
      · exact frameCodec_reads 2 5 (Or.inr (Or.inr rfl))
      · exact frameCodec_reads 2 3 (Or.inl rfl))
  obtain ⟨events,hevents,hsame,-⟩ := h.2.1 ⟨5,6,some ["cam"],none,10⟩ none (by decide) rfl
  exact ⟨h.1,h.2.2 (by decide),events,hevents,hsame⟩

end Percept
