import Percept.Sweeper

/-! The tool `get_window`, and what a client sees that follows its cursors while the cold
writer and the sweeper keep changing the stores. -/
namespace Percept

open OrderBy

inductive ToolError
  | glob (error : String) | noColdStore | noVectorIndex
  | cold (error : ColdError) | vector (error : VectorError)
  | invalidRange (start stop : Int64) | emptyQuery
  | cursorFilterMismatch | cursorMalformed
  deriving DecidableEq

structure GetWindowArgs where
  startMs : Int64
  endMs : Int64
  sourceFilter : Option (List String) := none
  kindFilter : Option (List String) := none
  limit : Option UInt32 := none
  cursor : Option String := none

structure GetWindowOut where
  events : List Event
  cursor : Option String

/-- Anchor of a row of a page. -/
def Event.anchor (e : Event) : Anchor := ⟨e.tsMsUtc,e.eventId⟩

namespace GetWindowArgs

/-- An omitted limit is the hard limit, a larger one is cut to it. -/
def pageLimit (args : GetWindowArgs) : UInt32 := min (args.limit.getD maxWindowLimit) maxWindowLimit

def filter (args : GetWindowArgs) : WindowFilter :=
  ⟨args.startMs,args.endMs,args.sourceFilter,args.kindFilter,args.pageLimit⟩

def hash (codec : CursorCodec) (args : GetWindowArgs) : FilterHash :=
  filterHash codec args.startMs args.endMs args.sourceFilter args.kindFilter args.pageLimit

/-- The anchor of the request's cursor, if it has one. -/
def resume (codec : CursorCodec) (args : GetWindowArgs) : Except ToolError (Option Anchor) :=
  match args.cursor with
  | none => .ok none
  | some c => match Cursor.decode codec c (args.hash codec) with
    | .ok cur => .ok (some cur.anchor)
    | .error .filterMismatch => .error .cursorFilterMismatch
    | .error .malformed => .error .cursorMalformed

/-- A page shorter than the limit has no cursor. -/
def nextCursor (codec : CursorCodec) (args : GetWindowArgs) (events : List Event) :
    Option String :=
  if events.length < 2^32 ∧ args.pageLimit.toNat ≤ events.length then
    events.getLast?.map fun e => Cursor.encode codec ⟨e.anchor,args.hash codec⟩
  else none

variable (args : GetWindowArgs) (codec : CursorCodec) (c : Option String)

@[simp] theorem filter_cursor : filter { args with cursor := c } = args.filter := rfl
@[simp] theorem hash_cursor : hash codec { args with cursor := c } = args.hash codec := rfl
@[simp] theorem nextCursor_cursor (events : List Event) :
    nextCursor codec { args with cursor := c } events = args.nextCursor codec events := rfl

end GetWindowArgs

def getWindow (codec : CursorCodec) (coldStore : Option ColdStore) (args : GetWindowArgs) :
    Except ToolError GetWindowOut :=
  match coldStore with
  | none => .error .noColdStore
  | some store =>
    if args.endMs ≤ args.startMs then .error (.invalidRange args.startMs args.endMs)
    else match args.resume codec with
      | .error e => .error e
      | .ok anchor =>
        let events := store.queryWindow args.filter anchor
        .ok ⟨events,args.nextCursor codec events⟩

/-- What following the cursors yields: the contents read, the pages and the last cursor. -/
structure Followed where
  contents : List ColdStore
  pages : List (List Event)
  cursor : Option String

/-- Call `get_window` and pass its cursor back until it is null. The writes in the schedule
happen between the calls, one list of them before each further call; when the schedule is
used up the client stops. -/
def follow (codec : CursorCodec) (args : GetWindowArgs) :
    List (List StoreOp) → Option String → Stores → Except ToolError Followed
  | [], cursor, st =>
    match getWindow codec (some st.cold) { args with cursor } with
    | .error e => .error e
    | .ok out => .ok ⟨[st.cold],[out.events],out.cursor⟩
  | ops::schedule, cursor, st =>
    match getWindow codec (some st.cold) { args with cursor } with
    | .error e => .error e
    | .ok ⟨events,none⟩ => .ok ⟨[st.cold],[events],none⟩
    | .ok ⟨events,some c⟩ =>
      match follow codec args schedule (some c) (st.run ops) with
      | .error e => .error e
      | .ok rest => .ok ⟨st.cold::rest.contents,events::rest.pages,rest.cursor⟩

section Follow

variable {codec : CursorCodec} {args : GetWindowArgs} {cursor : Option String} {st : Stores}
  {events : List Event} {ops : List StoreOp} {schedule : List (List StoreOp)}

theorem follow_nil {next : Option String}
    (h : getWindow codec (some st.cold) { args with cursor } = .ok ⟨events,next⟩) :
    follow codec args [] cursor st = .ok ⟨[st.cold],[events],next⟩ := by
  simp [follow,h]

theorem follow_stop (h : getWindow codec (some st.cold) { args with cursor } = .ok ⟨events,none⟩) :
    follow codec args (ops::schedule) cursor st = .ok ⟨[st.cold],[events],none⟩ := by
  simp [follow,h]

theorem follow_next {c : String} {rest : Followed}
    (h : getWindow codec (some st.cold) { args with cursor } = .ok ⟨events,some c⟩)
    (hrest : follow codec args schedule (some c) (st.run ops) = .ok rest) :
    follow codec args (ops::schedule) cursor st =
      .ok ⟨st.cold::rest.contents,events::rest.pages,rest.cursor⟩ := by
  simp [follow,h,hrest]

end Follow

/-- The rows of `events` that satisfy the `WHERE` clause of the request. -/
def GetWindowArgs.matching (args : GetWindowArgs) (s : ColdStore) : List EventRow :=
  s.events.rows.filter fun r => args.filter.selects r.toStoredRow

def EventRow.toEvent (r : EventRow) : Event := rowToEvent r.toStoredRow

def Event.stamp (e : Event) : Int64 ×ₗ Ulid := e.anchor.stamp

@[simp] theorem EventRow.toEvent_stamp (r : EventRow) : r.toEvent.stamp = r.stamp := rfl

theorem before_eq_after (anchor : Option Anchor) (r : EventRow) :
    Anchor.before anchor r.toStoredRow = Keyset.after EventRow.stamp (anchor.map Anchor.stamp) r := by
  cases anchor with
  | none => rfl
  | some a =>
    simp only [Anchor.before,Keyset.after,Option.map_some,Anchor.stamp,EventRow.stamp,
      StoredRow.stamp,Prod.Lex.toLex_lt_toLex,Bool.decide_or,Bool.decide_and]
    congr 2
    simp [eq_comm]

/-- Stamps are distinct because they contain the primary key. -/
theorem nodup_stamps {rows : List EventRow} (h : (rows.map (·.eventId)).Nodup) :
    (rows.map EventRow.stamp).Nodup := by
  refine List.Nodup.of_map (fun k : Int64 ×ₗ Ulid => (ofLex k).2) ?_
  simpa [Function.comp_def,EventRow.stamp,StoredRow.stamp] using h

variable {codec : CursorCodec} {args : GetWindowArgs}

theorem GetWindowArgs.nodup_matching (args : GetWindowArgs) (s : ColdStore) :
    ((args.matching s).map EventRow.stamp).Nodup :=
  (nodup_stamps s.events.nodup).sublist (List.filter_sublist.map _)

theorem pageLimit_le (args : GetWindowArgs) : args.pageLimit.toNat ≤ 10000 := by
  rw [GetWindowArgs.pageLimit,UInt32.toNat_min]
  exact min_le_right _ _

theorem pageLimit_pos (h : ∀ n, args.limit = some n → 1 ≤ n) : 0 < args.pageLimit.toNat := by
  rw [GetWindowArgs.pageLimit,UInt32.toNat_min]
  cases hl : args.limit with
  | none => decide
  | some n =>
    have hn := UInt32.le_iff_toNat_le.mp (h n hl)
    exact lt_min hn (by decide)

/-- `query_window` reads one page of the matching rows. -/
theorem queryWindow_page (s : ColdStore) (anchor : Option Anchor) :
    s.queryWindow args.filter anchor =
      (Keyset.page EventRow.stamp args.pageLimit.toNat (anchor.map Anchor.stamp)
        (args.matching s)).map EventRow.toEvent := by
  have hlimit : (min args.filter.limit maxWindowLimit).toNat = args.pageLimit.toNat := by
    rw [UInt32.toNat_min]
    exact min_eq_left (pageLimit_le args)
  have hrows : (args.matching s).filter (Keyset.after EventRow.stamp (anchor.map Anchor.stamp)) =
      s.events.rows.filter fun r => args.filter.selects r.toStoredRow &&
        Anchor.before anchor r.toStoredRow := by
    rw [GetWindowArgs.matching,List.filter_filter]
    congr 1
    funext r
    rw [before_eq_after,Bool.and_comm]
  simp only [ColdStore.queryWindow,Keyset.page,hlimit,hrows]
  rfl

theorem length_page_le (limit : ℕ) (anchor : Option (Int64 ×ₗ Ulid)) (rows : List EventRow) :
    (Keyset.page EventRow.stamp limit anchor rows).length ≤ limit := List.length_take_le _ _

/-- A cursor string stands for the anchor that it resumes from. -/
def cursorOf (codec : CursorCodec) (args : GetWindowArgs) (anchor : Option Anchor) :
    Option String :=
  anchor.map fun a => Cursor.encode codec ⟨a,args.hash codec⟩

/-- Anchor of the next call: the last row of a full page. -/
def nextAnchor (args : GetWindowArgs) (page : List EventRow) : Option Anchor :=
  if args.pageLimit.toNat ≤ page.length then page.getLast?.map fun r => r.toEvent.anchor else none

theorem resume_cursorOf (hcodec : codec.RoundTrips) (anchor : Option Anchor) :
    GetWindowArgs.resume codec { args with cursor := cursorOf codec args anchor } = .ok anchor := by
  cases anchor with
  | none => rfl
  | some a =>
    have hdecode := Cursor.decode_encode hcodec ⟨a,args.hash codec⟩
    simp only [GetWindowArgs.resume,cursorOf,Option.map_some,GetWindowArgs.hash_cursor,hdecode]

theorem nextCursor_page {page : List EventRow} (hlen : page.length ≤ args.pageLimit.toNat) :
    args.nextCursor codec (page.map EventRow.toEvent) =
      cursorOf codec args (nextAnchor args page) := by
  have hlt : page.length < 2^32 := by
    have := pageLimit_le args
    omega
  simp only [GetWindowArgs.nextCursor,nextAnchor,cursorOf,List.length_map,hlt,true_and]
  split <;> simp [Function.comp_def]

/-- A call with a cursor of the walk succeeds and returns one page of the matching rows. -/
theorem getWindow_spec (hcodec : codec.RoundTrips) (hrange : args.startMs < args.endMs)
    (anchor : Option Anchor) (s : ColdStore) {page : List EventRow}
    (hpage : page = Keyset.page EventRow.stamp args.pageLimit.toNat (anchor.map Anchor.stamp)
      (args.matching s)) :
    getWindow codec (some s) { args with cursor := cursorOf codec args anchor } =
      .ok ⟨page.map EventRow.toEvent,cursorOf codec args (nextAnchor args page)⟩ := by
  have hlen : page.length ≤ args.pageLimit.toNat := hpage ▸ length_page_le _ _ _
  simp only [getWindow,not_le.mpr hrange,if_false,resume_cursorOf hcodec,
    GetWindowArgs.filter_cursor,GetWindowArgs.nextCursor_cursor,queryWindow_page,← hpage,
    nextCursor_page hlen]

theorem nextAnchor_isNone (page : List EventRow) (hlimit : 0 < args.pageLimit.toNat) :
    (nextAnchor args page).isNone = true ↔ page.length < args.pageLimit.toNat := by
  unfold nextAnchor
  split
  next hfull =>
    have hne : page ≠ [] := by
      rintro rfl
      simp at hfull
      omega
    simp [hne,hfull]
  next hshort => simpa using hshort

theorem nextAnchor_stamp {page : List EventRow} (hfull : page.length = args.pageLimit.toNat) :
    (nextAnchor args page).map Anchor.stamp = Keyset.lastKey EventRow.stamp page := by
  simp only [nextAnchor,hfull,le_refl,if_true,Keyset.lastKey,Option.map_map]
  rfl

/-- Following the cursors is a keyset walk over the matching rows, and no call fails. -/
theorem follow_walk (hcodec : codec.RoundTrips) (hrange : args.startMs < args.endMs)
    (hlimit : 0 < args.pageLimit.toNat) (schedule : List (List StoreOp)) (anchor : Option Anchor)
    (st : Stores) :
    ∃ contents pages cursor,
      follow codec args schedule (cursorOf codec args anchor) st =
        .ok ⟨contents,pages.map (List.map EventRow.toEvent),cursor⟩ ∧
      Keyset.Walk EventRow.stamp args.pageLimit.toNat (anchor.map Anchor.stamp)
        (contents.map args.matching) pages cursor.isNone ∧
      (cursor ≠ none → pages.length = schedule.length+1) ∧
      ((∀ ops ∈ schedule, ops = []) → ∀ c ∈ contents, c = st.cold) := by
  induction schedule generalizing anchor st with
  | nil =>
    have hcall := getWindow_spec hcodec hrange anchor st.cold rfl
    refine ⟨[st.cold],[_],cursorOf codec args (nextAnchor args _),follow_nil hcall,?_,by simp,by simp⟩
    exact .stop (by simpa [cursorOf] using nextAnchor_isNone _ hlimit)
  | cons ops schedule ih =>
    have hcall := getWindow_spec hcodec hrange anchor st.cold rfl
    have hshort := nextAnchor_isNone (Keyset.page EventRow.stamp args.pageLimit.toNat
      (anchor.map Anchor.stamp) (args.matching st.cold)) hlimit
    cases hnext : nextAnchor args (Keyset.page EventRow.stamp args.pageLimit.toNat
        (anchor.map Anchor.stamp) (args.matching st.cold)) with
    | none =>
      rw [hnext] at hcall hshort
      refine ⟨[st.cold],[_],none,follow_stop hcall,.stop (by simpa using hshort),by simp,by simp⟩
    | some a =>
      obtain ⟨contents,pages,cursor,hrest,hwalk,hlength,hquiet⟩ := ih (some a) (st.run ops)
      have hfull := (length_page_le args.pageLimit.toNat (anchor.map Anchor.stamp)
        (args.matching st.cold)).antisymm (by simpa [hnext] using hshort)
      have hlast := nextAnchor_stamp hfull
      rw [hnext] at hcall hlast
      refine ⟨st.cold::contents,_::pages,cursor,follow_next hcall hrest,?_,?_,?_⟩
      · exact .next hfull (hlast ▸ hwalk)
      · intro hopen
        simp [hlength hopen]
      · intro hnone c hc
        have hops : ops = [] := hnone ops (by simp)
        rcases List.mem_cons.mp hc with rfl | hc
        · rfl
        · have hcold := hquiet (fun o ho => hnone o (by simp [ho])) c hc
          simpa [hops] using hcold

/-- Pagination under any writes between the calls: the pages concatenate to one strictly
increasing list of matching rows, a matching row that every call finds is returned exactly
once, and with no writes a null cursor ends the walk within the stated number of calls. -/
theorem get_window_pagination (hcodec : codec.RoundTrips) (hrange : args.startMs < args.endMs)
    (hlimit : ∀ n, args.limit = some n → 1 ≤ n) (schedule : List (List StoreOp)) (st : Stores) :
    ∃ walk, follow codec args schedule none st = .ok walk ∧
      walk.pages.flatten.Pairwise (fun a b => a.stamp < b.stamp) ∧
      (∀ e ∈ walk.pages.flatten, (∃ s ∈ walk.contents, ∃ r ∈ s.events.rows, e = r.toEvent) ∧
        args.startMs ≤ e.tsMsUtc ∧ e.tsMsUtc < args.endMs ∧
        globClause args.sourceFilter e.sourceId = true ∧ globClause args.kindFilter e.kind = true) ∧
      (walk.cursor = none → ∀ r : EventRow, args.filter.selects r.toStoredRow = true →
        (∀ s ∈ walk.contents, r ∈ s.events.rows) → r.toEvent ∈ walk.pages.flatten ∧
          walk.pages.flatten.countP (fun e => e.stamp = r.stamp) = 1) ∧
      ((∀ ops ∈ schedule, ops = []) →
        (args.matching st.cold).length/args.pageLimit.toNat ≤ schedule.length →
        walk.cursor = none ∧
        walk.pages.length ≤ (args.matching st.cold).length/args.pageLimit.toNat+1 ∧
        walk.pages.flatten = (orderBy EventRow.stamp (args.matching st.cold)).map EventRow.toEvent) := by
  have hpos := pageLimit_pos hlimit
  obtain ⟨contents,pages,cursor,hfollow,hwalk,hlength,hquiet⟩ :=
    follow_walk hcodec hrange hpos schedule none st
  have hnd : ∀ rows ∈ contents.map args.matching, (rows.map EventRow.stamp).Nodup := by
    intro rows hrows
    obtain ⟨s,_,rfl⟩ := List.mem_map.mp hrows
    exact args.nodup_matching s
  have hasc := hwalk.ascending hpos hnd
  have hflat : (pages.map (List.map EventRow.toEvent)).flatten = pages.flatten.map EventRow.toEvent :=
    List.map_flatten.symm
  refine ⟨_,hfollow,?_,?_,?_,?_⟩ <;> simp only [hflat]
  · exact List.pairwise_map.mpr hasc
  · intro e he
    obtain ⟨r,hr,rfl⟩ := List.mem_map.mp he
    have hstored := hwalk.forall_mem (p := fun r => ∃ s ∈ contents, r ∈ args.matching s)
      (fun rows hrows r hr => by
        obtain ⟨s,hs,rfl⟩ := List.mem_map.mp hrows
        exact ⟨s,hs,hr⟩) r hr
    obtain ⟨s,hs,hmatch⟩ := hstored
    obtain ⟨hrow,hsel⟩ := List.mem_filter.mp hmatch
    have hselected := WindowFilter.selects_iff.mp hsel
    exact ⟨⟨s,hs,r,hrow,rfl⟩,hselected⟩
  · intro hdone r hsel hr
    have hmem : r ∈ pages.flatten := hwalk.complete hpos hnd (by simp [hdone])
      (fun rows hrows => by
        obtain ⟨s,hs,rfl⟩ := List.mem_map.mp hrows
        exact List.mem_filter.mpr ⟨hr s hs,hsel⟩) rfl
    refine ⟨List.mem_map_of_mem hmem,?_⟩
    rw [List.countP_map]
    exact hasc.countP_key hmem
  · intro hnone hlong
    have hsame : ∀ rows ∈ contents.map args.matching, rows = args.matching st.cold := by
      intro rows hrows
      obtain ⟨s,hs,rfl⟩ := List.mem_map.mp hrows
      rw [hquiet hnone s hs]
    have hnd₀ := args.nodup_matching st.cold
    have hdone : cursor = none := by
      by_contra hopen
      have hlast := hwalk.done_of_length hnd₀ hsame hpos (by have := hlength hopen; omega)
      exact hopen (Option.isNone_iff_eq_none.mp hlast)
    refine ⟨hdone,by simpa using hwalk.length_pages_le hnd₀ hsame hpos,?_⟩
    rw [hwalk.flatten_eq hnd₀ hsame hpos (by simp [hdone])]
    simp

/-- Three rows, two of them at the same time, in pages of two. -/
theorem get_window_pagination_three_rows :
    ∃ walk, follow fixedWidthCodec { startMs := 0, endMs := 100, limit := some 2 } [[],[]] none
        (Stores.openInMemory.apply (.append [.required 2 "s" "k" 10 .null,
          .required 3 "s" "k" 5 .null,.required 1 "s" "k" 10 .null])) = .ok walk ∧
      walk.cursor = none ∧ walk.pages.length ≤ 2 ∧
      walk.pages.flatten.map (fun e => e.eventId) = [3,1,2] := by
  obtain ⟨walk,hfollow,_,_,_,hquiet⟩ := get_window_pagination fixedWidthCodec_roundTrips
    (by decide : ({ startMs := 0, endMs := 100, limit := some 2 } : GetWindowArgs).startMs < _)
    (by simp) [[],[]]
    (Stores.openInMemory.apply (.append [.required 2 "s" "k" 10 .null,
      .required 3 "s" "k" 5 .null,.required 1 "s" "k" 10 .null]))
  obtain ⟨hdone,hpages,hflat⟩ := hquiet (by simp) (by decide)
  refine ⟨walk,hfollow,hdone,hpages.trans (by decide),?_⟩
  rw [hflat]
  decide

end Percept
