import Percept.VectorReload
import Percept.VectorSections

/-! The sessions of one data directory. Each opens the index with a model and a dimension, appends
vectors of that model, sweeps and closes; `append` itself compares nothing. -/
namespace Percept

def VectorRecord.Carries (modelId : String) (dim : ℕ) (r : VectorRecord) : Prop :=
  r.modelId = modelId ∧ r.vector.length = dim

instance (modelId : String) (dim : ℕ) : DecidablePred (VectorRecord.Carries modelId dim) :=
  fun r => inferInstanceAs (Decidable (r.modelId = modelId ∧ r.vector.length = dim))

def VectorSection.records : VectorSection → List VectorRecord
  | .append records _ => records
  | _ => []

/-- The calls between `open` and close, in any interleaving of their sections. -/
structure IndexSession where
  modelId : String
  dim : ℕ
  scan : Scan
  sections : List VectorSection
  carries : ∀ a ∈ sections, ∀ r ∈ a.records, r.Carries modelId dim

/-- What a session leaves in the table; one that cannot open the index leaves it alone. -/
def IndexSession.run {ulid : UlidText} (hulid : ulid.RoundTrips) (table : VectorTable) (session : IndexSession) :
    VectorTable :=
  match VectorIndex.fromConnection hulid session.scan table session.modelId session.dim with
  | .error _ => table
  | .ok s => (session.sections.foldl VectorStore.step (.ofIndex s)).table

/-- The table after a history of sessions. -/
def dataDir {ulid : UlidText} (hulid : ulid.RoundTrips) (history : List IndexSession) : VectorTable :=
  history.foldl (IndexSession.run hulid) KeyTable.empty

/-- All rows of the store are of one model and dimension. -/
structure VectorStore.Uniform (modelId : String) (dim : ℕ) (s : VectorStore) : Prop where
  table : ∀ r ∈ s.table.rows, r.Carries modelId dim
  rows : ∀ x ∈ s.rows, x.vector.length = dim

theorem mem_mirrorInsert {rows : List InMemoryRow} {r x : InMemoryRow} (h : x ∈ mirrorInsert rows r) :
    x ∈ rows ∨ x = r := by
  unfold mirrorInsert at h
  split at h
  · exact List.mem_or_eq_of_mem_set h
  · simpa using h

namespace VectorStore

variable {modelId : String} {dim : ℕ}

theorem mem_of_lastOf {records : List VectorRecord} {id : Ulid} {r : VectorRecord}
    (h : lastOf records id = some r) : r ∈ records :=
  List.mem_reverse.mp (List.mem_of_find?_eq_some h)

theorem mem_mirrorAll {rows : List InMemoryRow} {records : List VectorRecord} {x : InMemoryRow}
    (h : x ∈ mirrorAll rows records) : x ∈ rows ∨ ∃ r ∈ records, x = r.toInMemoryRow := by
  induction records generalizing rows with
  | nil => exact Or.inl h
  | cons r records ih =>
    rcases ih h with hx | ⟨q,hq,rfl⟩
    · rcases mem_mirrorInsert hx with hx | rfl
      · exact Or.inl hx
      · exact Or.inr ⟨r,List.mem_cons_self,rfl⟩
    · exact Or.inr ⟨q,List.mem_cons_of_mem r hq,rfl⟩

theorem Uniform.step {s : VectorStore} (h : s.Uniform modelId dim) {a : VectorSection}
    (ha : ∀ r ∈ a.records, r.Carries modelId dim) : (s.step a).Uniform modelId dim := by
  cases a with
  | append records commit => cases commit with
    | error e => exact h
    | ok u =>
      refine ⟨fun r hr => ?_,fun x hx => ?_⟩
      · rcases mem_replaceAll.mp hr with ⟨hold,_⟩ | hnew
        · exact h.table r hold
        · exact ha r (mem_of_lastOf hnew)
      · rcases mem_mirrorAll hx with hold | ⟨r,hr,rfl⟩
        · exact h.rows x hold
        · exact (ha r hr).2
  | delete p cutoffMs commit => cases commit with
    | error e => exact h
    | ok u => exact ⟨fun r hr => h.table r (KeyTable.mem_delete.mp hr).1,h.rows⟩
  | count p cutoffMs => exact h
  | retain i =>
    simp only [VectorStore.step]
    split
    · exact h
    · exact ⟨h.table,fun x hx => h.rows x (List.mem_filter.mp hx).1⟩

end VectorStore

section Sessions

variable {ulid : UlidText} (hulid : ulid.RoundTrips) {modelId : String} {dim : ℕ} {scan : Scan}
  {table : VectorTable} {s : VectorIndex}

/-- A table that sessions leave behind: its rows are of one model and one dimension. -/
def Homogeneous (table : VectorTable) : Prop :=
  ∃ modelId dim, ∀ r ∈ table.rows, r.Carries modelId dim

/-- Then the first row of the scan speaks for all of them. -/
theorem uniform_of_open (htable : Homogeneous table)
    (hopen : VectorIndex.fromConnection hulid scan table modelId dim = .ok s) :
    (VectorStore.ofIndex s).Uniform modelId dim := by
  obtain ⟨m,d,hall⟩ := htable
  obtain ⟨rfl,hfirst⟩ := VectorIndex.fromConnection_ok hulid scan hopen
  have hcarries : ∀ r ∈ s.table.rows, r.Carries modelId dim := by
    intro r hr
    obtain ⟨q,hq,hmodel,hdim⟩ := hfirst (List.ne_nil_of_mem hr)
    obtain ⟨rfl,rfl⟩ := hall q hq
    rw [← hmodel,← hdim]
    exact hall r hr
  refine ⟨hcarries,fun x hx => ?_⟩
  obtain ⟨r,hr,rfl⟩ := List.mem_map.mp (s.mirror.subset hx)
  exact (hcarries r hr).2

theorem always_uniform (session : IndexSession) (htable : Homogeneous table)
    (hopen : VectorIndex.fromConnection hulid session.scan table session.modelId session.dim = .ok s) :
    Runs.Always VectorStore.step (VectorStore.Uniform session.modelId session.dim) (.ofIndex s)
      session.sections :=
  Runs.always_of_step (fun a ha _ h => h.step (session.carries a ha)) (uniform_of_open hulid htable hopen)

theorem homogeneous_run (session : IndexSession) (htable : Homogeneous table) :
    Homogeneous (session.run hulid table) := by
  unfold IndexSession.run
  split
  · exact htable
  next s hopen => exact ⟨_,_,(always_uniform hulid session htable hopen).last.table⟩

theorem homogeneous_dataDir (history : List IndexSession) : Homogeneous (dataDir hulid history) := by
  induction history using List.reverseRecOn with
  | nil => exact ⟨"",0,by simp [dataDir]⟩
  | append_singleton history session ih =>
    rw [dataDir,List.foldl_concat]
    exact homogeneous_run hulid session ih

end Sessions

/-- One call, from its first section to its last. -/
inductive IndexOp
  | append (records : List VectorRecord)
  | sweepMaxAge (p : Pair) (cutoffMs : Int64) (dryRun : Bool)

namespace IndexOp

def sections : IndexOp → List VectorSection
  | .append records => [.append records (.ok ())]
  | .sweepMaxAge p cutoffMs true => [.count p cutoffMs]
  | .sweepMaxAge p cutoffMs false => [.delete p cutoffMs (.ok ()),.retain 0]

def records : IndexOp → List VectorRecord
  | .append records => records
  | .sweepMaxAge .. => []

theorem records_of_section {op : IndexOp} {a : VectorSection} (ha : a ∈ op.sections) {r : VectorRecord}
    (hr : r ∈ a.records) : r ∈ op.records := by
  cases op with
  | append records =>
    obtain rfl := List.mem_singleton.mp ha
    exact hr
  | sweepMaxAge p cutoffMs dryRun =>
    cases dryRun <;> simp only [sections,List.mem_cons,List.not_mem_nil,or_false] at ha
    · rcases ha with rfl | rfl <;> cases hr
    · subst ha
      cases hr

def apply (s : VectorIndex) : IndexOp → VectorIndex
  | .append records => s.append records
  | .sweepMaxAge p cutoffMs dryRun => (s.sweepMaxAge p cutoffMs dryRun).2

theorem foldl_sections (s : VectorIndex) (op : IndexOp) :
    op.sections.foldl VectorStore.step (.ofIndex s) = .ofIndex (apply s op) := by
  cases op with
  | append records => exact VectorStore.append_section s records
  | sweepMaxAge p cutoffMs dryRun => cases dryRun <;> rfl

theorem foldl_apply (s : VectorIndex) (ops : List IndexOp) :
    (ops.flatMap sections).foldl VectorStore.step (.ofIndex s) = .ofIndex (ops.foldl apply s) := by
  induction ops generalizing s with
  | nil => rfl
  | cons op ops ih => rw [List.flatMap_cons,List.foldl_append,foldl_sections,ih,List.foldl_cons]

end IndexOp

section Restart

variable {ulid : UlidText} (hulid : ulid.RoundTrips)

/-- The index that is opened again has the rows of the index that was closed. -/
theorem restart_keeps_search (history : List IndexSession) (scan : Scan) (modelId : String) (dim : ℕ)
    {s : VectorIndex}
    (hopen : VectorIndex.fromConnection hulid scan (dataDir hulid history) modelId dim = .ok s)
    (ops : List IndexOp)
    (hcarries : ∀ op ∈ ops, ∀ r ∈ op.records, r.Carries modelId dim) (scan' : Scan) :
    ∃ s', VectorIndex.fromConnection hulid scan' (ops.foldl IndexOp.apply s).table modelId dim = .ok s' ∧
      s'.rows.Perm (ops.foldl IndexOp.apply s).rows ∧ s'.len = (ops.foldl IndexOp.apply s).len ∧
      ∀ (S : Type) [LinearOrder S] (gs : Globset) (cosine : List UInt32 → List UInt32 → S)
        (query : List UInt32) (topK : ℕ) (filter : VectorFilter),
        (∃ e, s'.searchKn gs cosine query topK filter = .error e ∧
          (ops.foldl IndexOp.apply s).searchKn gs cosine query topK filter = .error e) ∨
        ∃ out out', s'.searchKn gs cosine query topK filter = .ok out ∧
          (ops.foldl IndexOp.apply s).searchKn gs cosine query topK filter = .ok out' ∧
          SameAnswer out out' := by
  have hstart := uniform_of_open hulid (homogeneous_dataDir hulid history) hopen
  have halways : Runs.Always VectorStore.step (VectorStore.Uniform modelId dim) (.ofIndex s)
      (ops.flatMap IndexOp.sections) := by
    refine Runs.always_of_step (fun a ha t ht => ht.step fun r hr => ?_) hstart
    obtain ⟨op,hop,hsection⟩ := List.mem_flatMap.mp ha
    exact hcarries op hop r (IndexOp.records_of_section hsection hr)
  have hend := halways.last
  rw [IndexOp.foldl_apply] at hend
  generalize ops.foldl IndexOp.apply s = t at hend ⊢
  obtain ⟨s',hs'⟩ := VectorIndex.exists_fromConnection hulid scan' hend.table
  obtain ⟨htable,_⟩ := VectorIndex.fromConnection_ok hulid scan' hs'
  have hperm : s'.rows.Perm t.rows := s'.mirror.trans (htable ▸ t.mirror.symm)
  exact ⟨s',hs',hperm,hperm.length_eq,fun S _ => searchKn_perm hperm⟩

end Restart

/-- The rows in the order of their ids in the table. -/
def Scan.inOrder : Scan := ⟨id,fun rows => .refl rows⟩

/-- An index that holds one vector. -/
def oneVector : VectorIndex :=
  [IndexOp.append [⟨⟨1,"cam","frame",3,false,[7]⟩,"m"⟩]].foldl IndexOp.apply .openInMemory

theorem restart_keeps_search_one_vector : ∃ s', VectorIndex.fromConnection crockfordText_roundTrips
    .inOrder oneVector.table "m" 1 = .ok s' ∧ s'.rows.Perm oneVector.rows := by
  have hopen : VectorIndex.fromConnection crockfordText_roundTrips .inOrder
      (dataDir crockfordText_roundTrips []) "m" 1 = .ok .openInMemory := rfl
  obtain ⟨s',hs',hperm,_⟩ := restart_keeps_search crockfordText_roundTrips [] .inOrder "m" 1 hopen
    [.append [⟨⟨1,"cam","frame",3,false,[7]⟩,"m"⟩]] (by decide) .inOrder
  exact ⟨s',hs',hperm⟩

/-- A session of the server: `EmbedderTask` builds every record that is appended. -/
structure EmbedderSession where
  embedder : Embedder
  embed_length : ∀ text, (embedder.embed text).length = embedder.dim
  scan : Scan
  sections : List VectorSection
  built : ∀ a ∈ sections, ∀ r ∈ a.records, ∃ e, buildRecord embedder e = r

def EmbedderSession.toIndexSession (session : EmbedderSession) : IndexSession where
  modelId := session.embedder.modelId
  dim := session.embedder.dim
  scan := session.scan
  sections := session.sections
  carries a ha r hr := by
    obtain ⟨e,rfl⟩ := session.built a ha r hr
    exact ⟨rfl,session.embed_length _⟩

/-- The table after a history of such sessions. -/
def serverDir {ulid : UlidText} (hulid : ulid.RoundTrips) (history : List EmbedderSession) : VectorTable :=
  dataDir hulid (history.map EmbedderSession.toIndexSession)

/-- The check of one row is enough, because sessions leave rows of one model behind. -/
theorem models_kept_apart {ulid : UlidText} (hulid : ulid.RoundTrips) (history : List EmbedderSession) :
    (∀ scan modelId dim s,
      VectorIndex.fromConnection hulid scan (serverDir hulid history) modelId dim = .ok s →
        (∀ r ∈ s.table.rows, r.modelId = modelId) ∧ ∀ x ∈ s.rows, x.vector.length = dim) ∧
    (∀ (session : EmbedderSession) s, VectorIndex.fromConnection hulid session.scan
        (serverDir hulid history) session.embedder.modelId session.embedder.dim = .ok s →
      Runs.Always VectorStore.step (fun t => ∀ x ∈ t.rows, ∀ query,
        (session.embedder.embed query).length = x.vector.length) (.ofIndex s) session.sections) ∧
    ∀ r ∈ (serverDir hulid history).rows, ∀ scan modelId dim, ¬r.Carries modelId dim →
      ∃ e, VectorIndex.fromConnection hulid scan (serverDir hulid history) modelId dim = .error e := by
  have htable : Homogeneous (serverDir hulid history) := homogeneous_dataDir hulid _
  refine ⟨fun scan modelId dim s hopen => ?_,fun session s hopen => ?_,
    fun r hr scan modelId dim hne => ?_⟩
  · have huniform := uniform_of_open hulid htable hopen
    exact ⟨fun r hr => (huniform.table r hr).1,huniform.rows⟩
  · refine (always_uniform hulid session.toIndexSession htable hopen).mono fun t ht x hx query => ?_
    rw [ht.rows x hx]
    exact session.embed_length query
  · cases hopen : VectorIndex.fromConnection hulid scan (serverDir hulid history) modelId dim with
    | error e => exact ⟨e,rfl⟩
    | ok s =>
      obtain ⟨hsame,_⟩ := VectorIndex.fromConnection_ok hulid scan hopen
      rw [← hsame] at hr
      exact absurd ((uniform_of_open hulid htable hopen).table r hr) hne

/-- One vector of model `m` is stored. -/
def storedOnce : EmbedderSession where
  embedder := ⟨fun _ => [7],1,"m"⟩
  embed_length _ := rfl
  scan := .inOrder
  sections := [.append [buildRecord ⟨fun _ => [7],1,"m"⟩ (.required 1 "cam" "frame" 3 .null)] (.ok ())]
  built a ha r hr := by
    obtain rfl := List.mem_singleton.mp ha
    obtain rfl := List.mem_singleton.mp hr
    exact ⟨_,rfl⟩

/-- It keeps the index closed to model `n`. -/
theorem models_kept_apart_stored_once : ∃ e, VectorIndex.fromConnection crockfordText_roundTrips .inOrder
    (serverDir crockfordText_roundTrips [storedOnce]) "n" 1 = .error e :=
  (models_kept_apart crockfordText_roundTrips [storedOnce]).2.2
    (buildRecord ⟨fun _ => [7],1,"m"⟩ (.required 1 "cam" "frame" 3 .null)) (List.mem_singleton.mpr rfl)
    .inOrder "n" 1 (by decide)

end Percept
