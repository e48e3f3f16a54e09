import Mathlib

/-! Canonical types of the event store: JSON values, links, events and their identifiers.
Timestamps are 64-bit signed milliseconds, sequence numbers are 64-bit unsigned. -/
namespace Percept

/-- A ULID is a 128-bit number; its text form sorts in the same order. -/
abbrev Ulid := Fin (2^128)

instance neZeroUlid : NeZero (2^128 : ℕ) := ⟨by decide⟩

instance linearOrderInt64 : LinearOrder Int64 where
  le_refl := Int64.le_refl
  le_trans _ _ _ := Int64.le_trans
  le_antisymm _ _ := Int64.le_antisymm
  le_total := Int64.le_total
  lt_iff_le_not_ge a b := by
    simp only [Int64.le_iff_toInt_le,Int64.lt_iff_toInt_lt]
    omega
  toDecidableLE := inferInstance
  toDecidableEq := inferInstance
  toDecidableLT := inferInstance

/-- `i64::saturating_sub`. -/
def saturatingSub (a b : Int64) : Int64 :=
  Int64.ofInt (max (-2^63) (min (2^63-1) (a.toInt-b.toInt)))

/-- `str::split_once`: the texts before and after the first occurrence. -/
def splitOnce (c : Char) (s : String) : Option (String × String) :=
  match s.toList.dropWhile (· ≠ c) with
  | [] => none
  | _::rest => some (String.ofList (s.toList.takeWhile (· ≠ c)),String.ofList rest)

theorem splitOnce_eq_none_iff {c : Char} {s : String} : splitOnce c s = none ↔ c ∉ s.toList := by
  have hall : s.toList.dropWhile (· ≠ c) = [] ↔ c ∉ s.toList := by
    rw [List.dropWhile_eq_nil_iff]
    exact ⟨fun h hc => of_decide_eq_true (h c hc) rfl,fun h a ha => decide_eq_true fun heq => h (heq ▸ ha)⟩
  rw [← hall,splitOnce]
  cases s.toList.dropWhile (· ≠ c) <;> simp

theorem splitOnce_append {c : Char} {a : String} (h : c ∉ a.toList) (b : String) :
    splitOnce c (a ++ String.singleton c ++ b) = some (a,b) := by
  have hne : ∀ x ∈ a.toList, decide (x ≠ c) = true := fun x hx => decide_eq_true fun heq => h (heq ▸ hx)
  unfold splitOnce
  simp only [String.toList_append,String.toList_singleton,List.append_assoc,
    List.dropWhile_append_of_pos hne,List.takeWhile_append_of_pos hne]
  simp

theorem splitOnce_eq_some_iff {c : Char} {s a b : String} :
    splitOnce c s = some (a,b) ↔ s = a ++ String.singleton c ++ b ∧ c ∉ a.toList := by
  constructor
  · intro h
    have hmem : c ∈ s.toList := by
      by_contra hc
      rw [splitOnce_eq_none_iff.mpr hc] at h
      cases h
    obtain ⟨l₁,l₂,hl,hl₁⟩ := List.eq_append_cons_of_mem hmem
    have hs : s = .ofList l₁ ++ String.singleton c ++ .ofList l₂ := String.toList_inj.mp (by simp [hl])
    have hc : c ∉ (String.ofList l₁).toList := by simpa using hl₁
    rw [hs,splitOnce_append hc] at h
    obtain ⟨rfl,rfl⟩ := Prod.mk.inj (Option.some.inj h)
    exact ⟨hs,hc⟩
  · rintro ⟨rfl,h⟩
    exact splitOnce_append h b

/-- Code points that `str::trim` removes (Unicode `White_Space`). -/
def isWhiteSpace (c : Char) : Bool :=
  (9 ≤ c.toNat && c.toNat ≤ 13) || c.toNat = 0x20 || c.toNat = 0x85 || c.toNat = 0xa0 ||
    c.toNat = 0x1680 || (0x2000 ≤ c.toNat && c.toNat ≤ 0x200a) || c.toNat = 0x2028 ||
    c.toNat = 0x2029 || c.toNat = 0x202f || c.toNat = 0x205f || c.toNat = 0x3000

/-- `str::trim`. -/
def trim (s : String) : List Char :=
  ((s.toList.dropWhile isWhiteSpace).reverse.dropWhile isWhiteSpace).reverse

theorem toList_loop (bs : ByteArray) (i : ℕ) (r : List UInt8) :
    ByteArray.toList.loop bs i r = r.reverse ++ bs.data.toList.drop i := by
  fun_induction ByteArray.toList.loop bs i r with
  | case1 i r h ih =>
    have hlt : i < bs.data.toList.length := by simpa using h
    have hget : bs.get! i = bs.data.toList[i] := by
      rw [ByteArray.get!,getElem!_pos bs.data i (by simpa using h),Array.getElem_toList]
    rw [ih,List.reverse_cons,List.append_assoc,List.drop_eq_getElem_cons hlt,hget,List.singleton_append]
  | case2 i r h =>
    have hle : bs.data.toList.length ≤ i := by simpa using h
    rw [List.drop_eq_nil_of_le hle,List.append_nil]

theorem toList_bytes (bs : ByteArray) : bs.toList = bs.data.toList := by
  rw [ByteArray.toList,toList_loop]
  simp

theorem utf8_inj {s t : String} (h : s.toUTF8.toList = t.toUTF8.toList) : s = t := by
  rw [toList_bytes,toList_bytes] at h
  exact String.toByteArray_inj.mp (ByteArray.ext (Array.toList_inj.mp h))

theorem length_utf8 (s : String) : s.toUTF8.toList.length = s.toUTF8.size := by
  rw [toList_bytes]
  rfl

theorem fromUTF8_toUTF8 (s : String) : String.fromUTF8? ⟨s.toUTF8.toList.toArray⟩ = some s := by
  rw [toList_bytes,Array.toArray_toList]
  exact dif_pos s.isValidUTF8

theorem exists_of_bind {ε α β : Type} {x : Except ε α} {f : α → Except ε β} {b : β}
    (h : (x >>= f) = .ok b) : ∃ a, x = .ok a ∧ f a = .ok b := by
  cases x with
  | error e => cases h
  | ok a => exact ⟨a,rfl,h⟩

/-- `serde_json::Number`. A float is kept as the decimal text it prints as. -/
inductive Number
  | posInt (n : UInt64) | negInt (n : Int64) | float (shown : String)
  deriving DecidableEq

/-- `serde_json::Value`; an object lists its fields in iteration order. -/
inductive Json
  | null | bool (b : Bool) | number (n : Number) | string (s : String)
  | array (a : List Json) | object (o : List (String × Json))

namespace Json

def numberText : Number → String
  | .posInt n => toString n.toNat
  | .negInt n => toString n.toInt
  | .float shown => shown

/-- Escapes of the compact formatter; every other character is copied. -/
def escapeChar (c : Char) : String :=
  match c with
  | '"' => "\\\""
  | '\\' => "\\\\"
  | '\x08' => "\\b"
  | '\x0c' => "\\f"
  | '\n' => "\\n"
  | '\r' => "\\r"
  | '\t' => "\\t"
  | c =>
    if c.toNat < 0x20 then
      "\\u00" ++ String.ofList [Nat.digitChar (c.toNat/16),Nat.digitChar (c.toNat%16)]
    else String.ofList [c]

def stringText (s : String) : String :=
  "\"" ++ String.join (s.toList.map escapeChar) ++ "\""

mutual
/-- `serde_json::to_string`: the compact form, no white space. -/
def toText : Json → String
  | .null => "null"
  | .bool b => if b then "true" else "false"
  | .number n => numberText n
  | .string s => stringText s
  | .array a => "[" ++ elementsText a ++ "]"
  | .object o => "\x7b" ++ fieldsText o ++ "\x7d"

def elementsText : List Json → String
  | [] => ""
  | [v] => v.toText
  | v::vs => v.toText ++ "," ++ elementsText vs

def fieldsText : List (String × Json) → String
  | [] => ""
  | [(k,v)] => stringText k ++ ":" ++ v.toText
  | (k,v)::rest => stringText k ++ ":" ++ v.toText ++ "," ++ fieldsText rest
end

/-- `Value::get` on an object: the field of that name. -/
def get? (o : List (String × Json)) (name : String) : Option Json :=
  (o.find? fun f => f.1 = name).map Prod.snd

end Json

structure Link where
  rel : String
  uri : String
  mime : Option String
  bytes : Option Int64
  sha256 : Option String
  deriving DecidableEq

structure Event where
  eventId : Ulid
  sourceId : String
  kind : String
  tsMsUtc : Int64
  semantic : Json
  links : Option (List Link)
  traceId : Option String
  ingestTsMsUtc : Option Int64
  seq : Option UInt64
  producerId : Option String
  schemaInvalid : Option Bool

/-- Rings, `latest` rows and retention are all kept per source and kind. -/
abbrev Pair := String × String

def Event.pair (e : Event) : Pair := (e.sourceId,e.kind)

/-- An event with its required fields only. -/
def Event.required (eventId : Ulid) (sourceId kind : String) (tsMsUtc : Int64) (semantic : Json) :
    Event :=
  ⟨eventId,sourceId,kind,tsMsUtc,semantic,none,none,none,none,none,none⟩

example : (Json.object [("v",.array [.number (.posInt 1),.string "a\"b"])]).toText =
    "\x7b\"v\":[1,\"a\\\"b\"]\x7d" := by decide

end Percept
