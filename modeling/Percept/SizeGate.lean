import Percept.IngestBus

/-! The estimate that the size caps are checked against, and the length of the text that it stands
for. They differ by what the estimate does not count and by what it counts at a flat rate. -/
namespace Percept

mutual
/-- The copy of `approx_semantic_size` in the WebSocket module. -/
def wsApproxSemanticSize : Json → ℕ
  | .null => 4
  | .bool _ => 5
  | .number _ => 16
  | .string s => s.utf8ByteSize+2
  | .array a => wsElementsSize a+2
  | .object o => wsFieldsSize o+2

def wsElementsSize : List Json → ℕ
  | [] => 0
  | v::a => wsApproxSemanticSize v+wsElementsSize a

def wsFieldsSize : List (String × Json) → ℕ
  | [] => 0
  | (k,v)::o => k.utf8ByteSize+4+wsApproxSemanticSize v+wsFieldsSize o
end

mutual
theorem wsApproxSemanticSize_eq : ∀ v, wsApproxSemanticSize v = approxSemanticSize v
  | .null => rfl
  | .bool _ => rfl
  | .number _ => rfl
  | .string _ => rfl
  | .array a => by rw [wsApproxSemanticSize,approxSemanticSize,wsElementsSize_eq a]
  | .object o => by rw [wsApproxSemanticSize,approxSemanticSize,wsFieldsSize_eq o]

theorem wsElementsSize_eq : ∀ a, wsElementsSize a = elementsSize a
  | [] => rfl
  | v::a => by rw [wsElementsSize,elementsSize,wsApproxSemanticSize_eq v,wsElementsSize_eq a]

theorem wsFieldsSize_eq : ∀ o, wsFieldsSize o = fieldsSize o
  | [] => rfl
  | (k,v)::o => by rw [wsFieldsSize,fieldsSize,wsApproxSemanticSize_eq v,wsFieldsSize_eq o]
end

/-- Bytes of the compact serialization. -/
def serializedSize (v : Json) : ℕ := v.toText.utf8ByteSize

/-- What an escape is longer than its character. -/
def escapeExcess (c : Char) : ℕ :=
  if c ∈ ['"', '\\', '\x08', '\x0c', '\n', '\r', '\t'] then 1
  else if c.toNat < 0x20 then 5
  else 0

def escapes (s : String) : ℕ := (s.toList.map escapeExcess).sum

mutual
/-- Bytes of the text that the estimate leaves out: escapes, the commas between elements, and the
digits of a number past the sixteenth. -/
def uncounted : Json → ℕ
  | .null => 0
  | .bool _ => 0
  | .number n => (Json.numberText n).utf8ByteSize-16
  | .string s => escapes s
  | .array a => elementsUncounted a+(a.length-1)
  | .object o => fieldsUncounted o

def elementsUncounted : List Json → ℕ
  | [] => 0
  | v::a => uncounted v+elementsUncounted a

def fieldsUncounted : List (String × Json) → ℕ
  | [] => 0
  | (k,v)::o => escapes k+uncounted v+fieldsUncounted o
end

mutual
/-- Bytes of the estimate that the text does not have: short numbers, `true` at the width of
`false`, and a comma after the last field of an object. -/
def overcounted : Json → ℕ
  | .null => 0
  | .bool b => if b then 1 else 0
  | .number n => 16-(Json.numberText n).utf8ByteSize
  | .string _ => 0
  | .array a => elementsOvercounted a
  | .object o => fieldsOvercounted o+(if o.isEmpty then 0 else 1)

def elementsOvercounted : List Json → ℕ
  | [] => 0
  | v::a => overcounted v+elementsOvercounted a

def fieldsOvercounted : List (String × Json) → ℕ
  | [] => 0
  | (_,v)::o => overcounted v+fieldsOvercounted o
end

section Text

theorem utf8ByteSize_ofList (l : List Char) :
    (String.ofList l).utf8ByteSize = (l.map Char.utf8Size).sum := by
  induction l with
  | nil => rfl
  | cons c l ih =>
    have hsplit : String.ofList (c::l) = String.singleton c ++ String.ofList l := by
      rw [String.singleton_eq_ofList,← String.ofList_append,List.singleton_append]
    rw [hsplit,String.utf8ByteSize_append,String.utf8ByteSize_singleton,ih,List.map_cons,List.sum_cons]

theorem utf8ByteSize_eq (s : String) : s.utf8ByteSize = (s.toList.map Char.utf8Size).sum := by
  rw [← utf8ByteSize_ofList,String.ofList_toList]

theorem utf8ByteSize_join (l : List String) :
    (String.join l).utf8ByteSize = (l.map String.utf8ByteSize).sum := by
  rw [utf8ByteSize_eq,String.toList_join,List.map_flatMap,List.flatMap_def,List.sum_flatten,
    List.map_map]
  exact congrArg List.sum (List.map_congr_left fun s _ => (utf8ByteSize_eq s).symm)

theorem utf8Size_of_lt {c : Char} (h : c.toNat < 128) : c.utf8Size = 1 :=
  Char.utf8Size_eq_one_iff.mpr (UInt32.le_iff_toNat_le.mpr (Nat.le_of_lt_succ h))

theorem utf8Size_digitChar {n : ℕ} (h : n < 16) : (Nat.digitChar n).utf8Size = 1 := by
  interval_cases n <;> rfl

theorem utf8ByteSize_escapeChar (c : Char) :
    (Json.escapeChar c).utf8ByteSize = c.utf8Size+escapeExcess c := by
  unfold Json.escapeChar
  split
  iterate 7 decide
  next hquote hslash hb hf hn hr ht =>
    have hplain : c ∉ ['"', '\\', '\x08', '\x0c', '\n', '\r', '\t'] := by
      simp only [List.mem_cons,List.not_mem_nil,or_false,not_or]
      exact ⟨hquote,hslash,hb,hf,hn,hr,ht⟩
    rw [escapeExcess,if_neg hplain]
    split
    next hcontrol =>
      have hhigh := utf8Size_digitChar (n := c.toNat/16) (by omega)
      have hlow := utf8Size_digitChar (n := c.toNat%16) (by omega)
      have hescape : "\\u00".utf8ByteSize = 4 := rfl
      have hdigits : (String.ofList [Nat.digitChar (c.toNat/16),Nat.digitChar (c.toNat%16)]).utf8ByteSize
          = 2 := by
        rw [utf8ByteSize_ofList,List.map_cons,List.map_cons,hhigh,hlow]
        rfl
      rw [String.utf8ByteSize_append,hescape,hdigits,utf8Size_of_lt (by omega)]
    next => exact utf8ByteSize_ofList [c]

theorem utf8ByteSize_stringText (s : String) :
    (Json.stringText s).utf8ByteSize = s.utf8ByteSize+2+escapes s := by
  have hbody : (String.join (s.toList.map Json.escapeChar)).utf8ByteSize =
      s.utf8ByteSize+escapes s := by
    rw [utf8ByteSize_join,utf8ByteSize_eq s,escapes,← List.sum_map_add,List.map_map]
    exact congrArg List.sum (List.map_congr_left fun c _ => utf8ByteSize_escapeChar c)
  rw [Json.stringText,String.utf8ByteSize_append,String.utf8ByteSize_append,hbody]
  have hquote : "\"".utf8ByteSize = 1 := rfl
  omega

mutual
theorem size_identity : ∀ v, approxSemanticSize v+uncounted v = serializedSize v+overcounted v
  | .null => rfl
  | .bool true => rfl
  | .bool false => rfl
  | .number n => by
    rw [approxSemanticSize,uncounted,serializedSize,Json.toText,overcounted]
    omega
  | .string s => by
    rw [approxSemanticSize,uncounted,serializedSize,Json.toText,overcounted,utf8ByteSize_stringText]
    rfl
  | .array a => by
    have helements := elements_identity a
    have hopen : "[".utf8ByteSize = 1 := rfl
    have hclose : "]".utf8ByteSize = 1 := rfl
    rw [approxSemanticSize,uncounted,serializedSize,Json.toText,overcounted,
      String.utf8ByteSize_append,String.utf8ByteSize_append]
    omega
  | .object o => by
    have hfields := fields_identity o
    have hopen : "\x7b".utf8ByteSize = 1 := rfl
    have hclose : "\x7d".utf8ByteSize = 1 := rfl
    rw [approxSemanticSize,uncounted,serializedSize,Json.toText,overcounted,
      String.utf8ByteSize_append,String.utf8ByteSize_append]
    omega

theorem elements_identity : ∀ a, elementsSize a+(elementsUncounted a+(a.length-1)) =
    (Json.elementsText a).utf8ByteSize+elementsOvercounted a
  | [] => rfl
  | [v] => by
    have hv := size_identity v
    rw [serializedSize] at hv
    simpa [elementsSize,elementsUncounted,Json.elementsText,elementsOvercounted] using hv
  | v::w::a => by
    have hv := size_identity v
    have hrest := elements_identity (w::a)
    have hcomma : ",".utf8ByteSize = 1 := rfl
    have htext : Json.elementsText (v::w::a) = v.toText ++ "," ++ Json.elementsText (w::a) := rfl
    rw [serializedSize] at hv
    rw [elementsSize,elementsUncounted,htext,elementsOvercounted,
      String.utf8ByteSize_append,String.utf8ByteSize_append]
    simp only [List.length_cons] at hrest ⊢
    omega

theorem fields_identity : ∀ o, fieldsSize o+fieldsUncounted o =
    (Json.fieldsText o).utf8ByteSize+(fieldsOvercounted o+(if o.isEmpty then 0 else 1))
  | [] => rfl
  | [(k,v)] => by
    have hv := size_identity v
    have hcolon : ":".utf8ByteSize = 1 := rfl
    rw [serializedSize] at hv
    simp only [fieldsSize,fieldsUncounted,Json.fieldsText,fieldsOvercounted,
      String.utf8ByteSize_append,utf8ByteSize_stringText,List.isEmpty_cons,Bool.false_eq_true,if_false]
    omega
  | (k,v)::(k',v')::o => by
    have hv := size_identity v
    have hrest := fields_identity ((k',v')::o)
    have hcolon : ":".utf8ByteSize = 1 := rfl
    have hcomma : ",".utf8ByteSize = 1 := rfl
    have htext : Json.fieldsText ((k,v)::(k',v')::o) =
        Json.stringText k ++ ":" ++ v.toText ++ "," ++ Json.fieldsText ((k',v')::o) := rfl
    rw [serializedSize] at hv
    rw [fieldsSize,fieldsUncounted,htext,fieldsOvercounted]
    simp only [String.utf8ByteSize_append,utf8ByteSize_stringText,List.isEmpty_cons,
      Bool.false_eq_true,if_false] at hrest ⊢
    omega
end

end Text

/-- Within the cap by the estimate, as the text shows it. -/
def Gated (cap : ℕ) (v : Json) : Prop := serializedSize v+overcounted v ≤ cap+uncounted v

theorem gated_iff (cap : ℕ) (v : Json) : Gated cap v ↔ approxSemanticSize v ≤ cap := by
  have h := size_identity v
  unfold Gated
  omega

/-- With nothing left out the cap bounds the text. -/
theorem Gated.serializedSize_le {cap : ℕ} {v : Json} (h : Gated cap v) (hall : uncounted v = 0) :
    serializedSize v ≤ cap := by
  unfold Gated at h
  omega

section Admission

variable {s : HttpState} {scope : TokenScope} {nowMs : Int64} {between : Interference}

/-- A loop over events within the cap enqueues nothing else. -/
theorem enqueue_within {events : List IngestEvent} (h : ∀ e ∈ events, Gated s.hardCapBytes e.semantic)
    (accepted : ℕ) (m : Metrics) (tx : Channel Posted) {x : IngestEnvelope}
    (hx : x ∈ ours (enqueue scope nowMs between events accepted m tx).2.2) :
    x ∈ ours tx ∨ Gated s.hardCapBytes x.event.semantic := by
  obtain ⟨k,_,hours,_⟩ := enqueue_spec scope nowMs between events accepted m tx
  rw [hours] at hx
  rcases List.mem_append.mp hx with hold | hnew
  · exact Or.inl hold
  · obtain ⟨e,he,rfl⟩ := List.mem_map.mp hnew
    exact Or.inr (h e (List.mem_of_mem_take he))

theorem ingest_within (req : HttpRequest) {x : IngestEnvelope}
    (hx : x ∈ ours (ingest s req nowMs between).2.tx) :
    x ∈ ours s.tx ∨ Gated s.hardCapBytes x.event.semantic := by
  by_cases hadm : ∃ scope events, Admitted s req scope events
  · obtain ⟨scope,events,h⟩ := hadm
    obtain ⟨m,_,htx⟩ := ingest_admitted nowMs between h
    rw [htx] at hx
    exact enqueue_within (fun e he => (gated_iff _ _).mpr (h.checked e he).2) 0 m s.tx hx
  · rw [(ingest_rejected nowMs between hadm).2] at hx
    exact Or.inl hx

theorem wsMessage_within (scope : TokenScope) (body : Except String Json) {x : IngestEnvelope}
    (hx : x ∈ ours (wsMessage s scope body nowMs between).2.tx) :
    x ∈ ours s.tx ∨ Gated s.hardCapBytes x.event.semantic := by
  unfold wsMessage at hx
  rcases haccept : wsAdmit s scope body nowMs with ⟨frame | events,m⟩
  · rw [haccept] at hx
    exact Or.inl hx
  · have hchecked := (wsAdmit_ok (congrArg Prod.fst haccept)).2
    have hsame := congrArg Prod.snd (enqueue_agrees scope nowMs between events 0 m 0 s.tx).1
    rw [haccept] at hx
    dsimp only at hx hsame
    rw [← hsame] at hx
    exact enqueue_within (fun e he => (gated_iff _ _).mpr (hchecked e he).2) 0 _ s.tx hx

end Admission

/-- Both copies of the estimate are over a cap exactly when the text is, with the two errors of the
estimate made good, and neither front end enqueues an event for which it is. -/
theorem size_gate_exact :
    (∀ v cap, (cap < approxSemanticSize v ↔ cap+uncounted v < serializedSize v+overcounted v) ∧
      (cap < wsApproxSemanticSize v ↔ cap+uncounted v < serializedSize v+overcounted v)) ∧
    ∀ (s : HttpState) (nowMs : Int64) (between : Interference),
      (∀ req, ∀ x ∈ ours (ingest s req nowMs between).2.tx,
        x ∈ ours s.tx ∨ Gated s.hardCapBytes x.event.semantic) ∧
      ∀ scope body, ∀ x ∈ ours (wsMessage s scope body nowMs between).2.tx,
        x ∈ ours s.tx ∨ Gated s.hardCapBytes x.event.semantic := by
  constructor
  · intro v cap
    have h := size_identity v
    rw [wsApproxSemanticSize_eq]
    constructor <;> omega
  · intro s nowMs between
    exact ⟨fun req x hx => ingest_within req hx,fun scope body x hx => wsMessage_within scope body hx⟩

/-- A server with a hard cap of four bytes. -/
def fourBytes : HttpState := { fullAfterOne with hardCapBytes := 4 }

/-- An event whose text is the escape of one control character. -/
def controlEvent : HttpRequest where
  authorization := some "Bearer t"
  body := .ok (.object [("source_id",.string "cam"),("kind",.string "frame"),
    ("ts_ms_utc",.ofInt64 5),("semantic",.string "\x01")])

/-- One digit counts as sixteen bytes, and eight bytes of text pass for three. -/
theorem size_gate_inexact :
    (8 < approxSemanticSize (.number (.posInt 0)) ∧ serializedSize (.number (.posInt 0)) = 1) ∧
      (¬4 < approxSemanticSize (.string "\x01") ∧ serializedSize (.string "\x01") = 8) ∧
      (ingest fourBytes controlEvent 0 fun _ => []).1 = ⟨200,.accepted 1,none,none⟩ := by
  decide

end Percept
