import Mathlib

/-! Texts as lists of characters that are addressed by byte offsets: slices that exist only at the
boundary of a character, the search for a character, and the characters with their offsets. -/
namespace ByteSlice

def byteLen (l : List Char) : ℕ := (l.map Char.utf8Size).sum

/-- The text from a byte offset on. -/
def dropBytes : List Char → ℕ → Option (List Char)
  | l, 0 => some l
  | [], _+1 => none
  | c::l, n+1 => if c.utf8Size ≤ n+1 then dropBytes l (n+1-c.utf8Size) else none

/-- The text up to a byte offset. -/
def takeBytes : List Char → ℕ → Option (List Char)
  | _, 0 => some []
  | [], _+1 => none
  | c::l, n+1 => if c.utf8Size ≤ n+1 then (takeBytes l (n+1-c.utf8Size)).map (c :: ·) else none

/-- The byte offset of the first occurrence. -/
def find (l : List Char) (c : Char) : Option ℕ :=
  match l with
  | [] => none
  | x::l => if x = c then some 0 else (find l c).map (x.utf8Size + ·)

/-- The characters with the offsets where they start. -/
def charIndices (start : ℕ) : List Char → List (ℕ × Char)
  | [] => []
  | c::l => (start,c)::charIndices (start+c.utf8Size) l

variable {a b : List Char} {c : Char}

@[simp] theorem byteLen_nil : byteLen [] = 0 := rfl
@[simp] theorem byteLen_cons (c : Char) (l : List Char) : byteLen (c::l) = c.utf8Size+byteLen l := rfl
@[simp] theorem byteLen_append (a b : List Char) : byteLen (a ++ b) = byteLen a+byteLen b := by
  simp [byteLen]

/-- Bytes and characters are the same in a text of ASCII characters. -/
theorem byteLen_eq_length (h : ∀ c ∈ a, c.utf8Size = 1) : byteLen a = a.length := by
  induction a with
  | nil => rfl
  | cons c a ih =>
    rw [byteLen_cons,h c List.mem_cons_self,ih fun x hx => h x (List.mem_cons_of_mem _ hx),
      List.length_cons,Nat.add_comm]

theorem exists_succ (c : Char) (n : ℕ) : ∃ m, c.utf8Size+n = m+1 :=
  ⟨c.utf8Size+n-1,by have := c.utf8Size_pos; omega⟩

theorem dropBytes_append (a b : List Char) : dropBytes (a ++ b) (byteLen a) = some b := by
  induction a with
  | nil => cases b <;> rfl
  | cons c a ih =>
    obtain ⟨m,hm⟩ := exists_succ c (byteLen a)
    rw [byteLen_cons,hm,List.cons_append,dropBytes,if_pos (by omega),
      show m+1-c.utf8Size = byteLen a by omega,ih]

theorem takeBytes_append (a b : List Char) : takeBytes (a ++ b) (byteLen a) = some a := by
  induction a with
  | nil => cases b <;> rfl
  | cons c a ih =>
    obtain ⟨m,hm⟩ := exists_succ c (byteLen a)
    rw [byteLen_cons,hm,List.cons_append,takeBytes,if_pos (by omega),
      show m+1-c.utf8Size = byteLen a by omega,ih]
    rfl

theorem find_eq_none (h : c ∉ a) : find a c = none := by
  induction a with
  | nil => rfl
  | cons x a ih =>
    have hx : x ≠ c := fun hx => h (List.mem_cons.mpr (.inl hx.symm))
    rw [find,if_neg hx,ih fun hc => h (List.mem_cons_of_mem _ hc)]
    rfl

theorem find_append (h : c ∉ a) (b : List Char) : find (a ++ c::b) c = some (byteLen a) := by
  induction a with
  | nil => simp [find]
  | cons x a ih =>
    have hx : x ≠ c := fun hx => h (List.mem_cons.mpr (.inl hx.symm))
    rw [List.cons_append,find,if_neg hx,ih fun hc => h (List.mem_cons_of_mem _ hc)]
    rfl

/-- A text has one split at its first occurrence. -/
theorem append_cons_inj {s t : List Char} (ha : c ∉ a) (hb : c ∉ b) (h : a ++ c::s = b ++ c::t) :
    a = b ∧ s = t := by
  have hlen : byteLen a = byteLen b :=
    Option.some.inj ((find_append ha s).symm.trans ((congrArg (find · c) h).trans (find_append hb t)))
  have htake := takeBytes_append a (c::s)
  rw [h,hlen,takeBytes_append] at htake
  obtain rfl := Option.some.inj htake
  exact ⟨rfl,(List.cons.inj (List.append_cancel_left h)).2⟩

theorem drop_charIndices (start : ℕ) (a b : List Char) :
    (charIndices start (a ++ b)).drop a.length = charIndices (start+byteLen a) b := by
  induction a generalizing start with
  | nil => rfl
  | cons c a ih =>
    rw [List.cons_append,charIndices,List.length_cons,List.drop_succ_cons,ih,byteLen_cons,Nat.add_assoc]

end ByteSlice
