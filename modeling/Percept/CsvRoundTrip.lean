import Percept.Mqtt

/-! CSV payloads. The scan of a row reads back what the standard encoder writes: plain fields,
wrapped fields with their quotes doubled, and any mix of the two. -/
namespace Percept

/-- The content of a wrapped field: every quote is doubled. -/
def doubled (field : List Char) : List Char :=
  field.flatMap fun c => if c = '"' then [ '"', '"' ] else [c]

/-- A field of a standard encoder; `wrap` asks for quotes where the text does not need them. -/
def encodeField (field : List Char) (wrap : Bool) : List Char :=
  if wrap ∨ ',' ∈ field ∨ '"' ∈ field then '"'::doubled field ++ [ '"' ] else field

/-- The fields with their `wrap` flags, joined by commas. -/
def encodeRow : List (String × Bool) → List Char
  | [] => []
  | [(field,wrap)] => encodeField field.toList wrap
  | (field,wrap)::next::row => encodeField field.toList wrap ++ ','::encodeRow (next::row)

/-! ### What the scan does to each piece of a row -/

theorem csvFields_plain {field : List Char} (hcomma : ',' ∉ field) (hquote : '"' ∉ field)
    (rest cur : List Char) :
    csvFields (field ++ rest) cur false = csvFields rest (cur ++ field) false := by
  induction field generalizing cur with
  | nil => rw [List.nil_append,List.append_nil]
  | cons c field ih =>
    have hc : c ≠ ',' := fun h => hcomma (h ▸ List.mem_cons_self)
    have hq : c ≠ '"' := fun h => hquote (h ▸ List.mem_cons_self)
    have hstep : csvFields (c::(field ++ rest)) cur false = csvFields (field ++ rest) (cur ++ [c]) false := by
      rw [csvFields,if_neg (fun h => hq h.1),if_neg hc]
    rw [List.cons_append,hstep,ih (fun h => hcomma (List.mem_cons_of_mem _ h))
      (fun h => hquote (List.mem_cons_of_mem _ h)),List.append_assoc,List.singleton_append]

theorem csvFields_inside {c : Char} (hc : c ≠ '"') (rest cur : List Char) :
    csvFields (c::rest) cur true = csvFields rest (cur ++ [c]) true := by
  rw [csvFields]
  · intro tail h _
    exact hc h
  · exact hc

/-- Inside quotes a doubled quote is one character of the field, and so is everything else. -/
theorem csvFields_doubled (field rest cur : List Char) :
    csvFields (doubled field ++ rest) cur true = csvFields rest (cur ++ field) true := by
  induction field generalizing cur with
  | nil => rw [doubled,List.flatMap_nil,List.nil_append,List.append_nil]
  | cons c field ih =>
    have hstep : csvFields (doubled (c::field) ++ rest) cur true =
        csvFields (doubled field ++ rest) (cur ++ [c]) true := by
      rw [doubled,List.flatMap_cons]
      by_cases hc : c = '"'
      · subst hc
        rw [if_pos rfl]
        exact csvFields.eq_2 _ _
      · rw [if_neg hc]
        exact csvFields_inside hc _ _
    rw [hstep,ih,List.append_assoc,List.singleton_append]

/-- A quote that no quote follows ends the wrapped part. -/
theorem csvFields_close {rest : List Char} (hrest : ∀ tail, rest ≠ '"'::tail) (cur : List Char) :
    csvFields ('"'::rest) cur true = csvFields rest cur false := by
  rw [csvFields]
  exact hrest

theorem csvFields_field (field : List Char) (wrap : Bool) {rest : List Char}
    (hrest : ∀ tail, rest ≠ '"'::tail) :
    csvFields (encodeField field wrap ++ rest) [] false = csvFields rest field false := by
  rw [encodeField]
  split
  · have hopen : csvFields ('"'::(doubled field ++ '"'::rest)) [] false =
        csvFields (doubled field ++ '"'::rest) [] true := by
      rw [csvFields,if_pos ⟨rfl,rfl⟩]
    have hshape : '"'::doubled field ++ [ '"' ] ++ rest = '"'::(doubled field ++ '"'::rest) := by simp
    rw [hshape,hopen,csvFields_doubled,csvFields_close hrest,List.nil_append]
  · rename_i hplain
    exact csvFields_plain (fun h => hplain (.inr (.inl h))) (fun h => hplain (.inr (.inr h))) rest []

theorem parseCsvRow_encodeRow (row : List (String × Bool)) (hrow : row ≠ []) :
    parseCsvRow (encodeRow row) = row.map (·.1) := by
  rw [parseCsvRow]
  fun_induction encodeRow row with
  | case1 => exact absurd rfl hrow
  | case2 field wrap =>
    have h := csvFields_field field.toList wrap fun _ h => absurd h.symm (List.cons_ne_nil _ _)
    rw [List.append_nil] at h
    rw [h,csvFields,String.ofList_toList,List.map_singleton]
  | case3 field wrap next row ih =>
    have hcomma : csvFields (','::encodeRow (next::row)) field.toList false =
        .ofList field.toList::csvFields (encodeRow (next::row)) [] false := by
      rw [csvFields,if_neg (fun h => absurd h.1 (by decide)),if_pos rfl]
    rw [csvFields_field field.toList wrap (fun _ h => absurd (List.cons.inj h).1 (by decide)),hcomma,
      ih (List.cons_ne_nil _ _),String.ofList_toList,List.map_cons (a := (field,wrap))]

/-! ### The whole payload -/

theorem mem_encodeField {c : Char} (hc : c ≠ '"') {field : List Char} {wrap : Bool}
    (h : c ∈ encodeField field wrap) : c ∈ field := by
  rw [encodeField] at h
  split at h
  · rcases List.mem_append.mp h with h | h
    · obtain ⟨x,hx,hcx⟩ := List.mem_flatMap.mp ((List.mem_cons.mp h).resolve_left hc)
      split at hcx
      · exact absurd (by simpa using hcx) hc
      · rwa [List.mem_singleton.mp hcx]
    · exact absurd (List.mem_singleton.mp h) hc
  · exact h

theorem mem_encodeRow {c : Char} (hquote : c ≠ '"') (hcomma : c ≠ ',') {row : List (String × Bool)}
    (h : c ∈ encodeRow row) : ∃ f ∈ row, c ∈ f.1.toList := by
  fun_induction encodeRow row with
  | case1 => exact absurd h List.not_mem_nil
  | case2 field wrap => exact ⟨_,List.mem_cons_self,mem_encodeField hquote h⟩
  | case3 field wrap next row ih =>
    rcases List.mem_append.mp h with h | h
    · exact ⟨_,List.mem_cons_self,mem_encodeField hquote h⟩
    · obtain ⟨f,hf,hcf⟩ := ih ((List.mem_cons.mp h).resolve_left hcomma)
      exact ⟨f,List.mem_cons_of_mem _ hf,hcf⟩

theorem firstLine_eq_self {text : List Char} (h : '\n' ∉ text) : firstLine text = text := by
  have hline : text.takeWhile (· ≠ '\n') = text :=
    List.takeWhile_eq_self_iff.mpr fun c hc => decide_eq_true fun heq => h (heq ▸ hc)
  rw [firstLine,hline]
  exact if_neg fun hcut => lt_irrefl _ hcut.1

/-- A row written with the standard quoting is read back field by field, and a payload that holds
one row decodes to its fields. The parser needs no condition on line breaks, the payload does. -/
theorem csv_undoes_encoding (fromSlice : List UInt8 → Except String Json) (row : List (String × Bool))
    (hrow : row ≠ []) :
    parseCsvRow (encodeRow row) = row.map (·.1) ∧
    ((∀ f ∈ row, '\n' ∉ f.1.toList) →
      decode fromSlice .csv (String.ofList (encodeRow row)).toUTF8.toList =
        .ok (.object [("encoding",.string "csv"),("fields",.array (row.map (.string ·.1)))])) := by
  refine ⟨parseCsvRow_encodeRow row hrow,fun hbreaks => ?_⟩
  have hline : '\n' ∉ encodeRow row := fun h => by
    obtain ⟨f,hf,hc⟩ := mem_encodeRow (by decide) (by decide) h
    exact hbreaks f hf hc
  simp only [decode]
  rw [fromUTF8_toUTF8]
  simp only [String.toList_ofList]
  rw [firstLine_eq_self hline,parseCsvRow_encodeRow row hrow,List.map_map]
  rfl

theorem csv_undoes_encoding_quotes :
    encodeRow [("a,b",false),("",true),("\"c",false)] = "\"a,b\",\"\",\"\"\"c\"".toList ∧
    parseCsvRow (encodeRow [("a,b",false),("",true),("\"c",false)]) = ["a,b","","\"c"] ∧
    decode (fun _ => .error "") .csv
        (String.ofList (encodeRow [("a,b",false),("",true),("\"c",false)])).toUTF8.toList =
      .ok (.object [("encoding",.string "csv"),
        ("fields",.array [.string "a,b",.string "",.string "\"c"])]) := by
  have h := csv_undoes_encoding (fun _ => .error "") [("a,b",false),("",true),("\"c",false)] (by decide)
  exact ⟨by decide,h.1,h.2 (by decide)⟩

end Percept
