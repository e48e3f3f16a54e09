import Percept.Mqtt
import Percept.Startup
import Percept.Lib.ByteSlice

/-! The templates that `render` accepts. The scanner slices the template at byte offsets and skips
a placeholder in an iterator of characters; it reads literals and placeholders, and the number of a
placeholder may have a sign. -/
namespace Percept

open ByteSlice

/-- The loop as the code has it, over the characters that are left with their byte offsets; `none`
is a slice off the boundary of a character. -/
def renderLoop (captures : TopicCaptures) (template : List Char) (iter : List (ℕ × Char))
    (out : String) : Option (Except TemplateError String) :=
  match iter with
  | [] => some (.ok out)
  | (i,c)::iter =>
    if c ≠ '\x7b' then renderLoop captures template iter (out ++ .ofList [c])
    else (dropBytes template (i+1)).bind fun rest =>
      match find rest '\x7d' with
      | none => some (.error (.unknownPlaceholder (.ofList rest)))
      | some endRel => (takeBytes rest endRel).bind fun body =>
        match placeholder captures body with
        | .error e => some (.error e)
        | .ok s => renderLoop captures template (iter.drop (endRel+1)) (out ++ s)
termination_by iter.length
decreasing_by all_goals (simp; try omega)

/-- A template is read from its front: a literal, or a brace that is closed or not. -/
theorem template_induction {motive : List Char → Prop} (nil : motive [])
    (literal : ∀ c t, c ≠ '\x7b' → motive t → motive (c::t))
    (unclosed : ∀ rest, '\x7d' ∉ rest → motive ('\x7b'::rest))
    (closed : ∀ body t, '\x7d' ∉ body → motive t → motive ('\x7b'::(body ++ '\x7d'::t)))
    (t : List Char) : motive t := by
  induction hn : t.length using Nat.strong_induction_on generalizing t with
  | _ n ih =>
    cases t with
    | nil => exact nil
    | cons c t =>
      by_cases hc : c = '\x7b'
      · subst hc
        by_cases hclosed : '\x7d' ∈ t
        · obtain ⟨body,rest,rfl,hbody⟩ := List.eq_append_cons_of_mem hclosed
          refine closed body rest hbody (ih rest.length ?_ rest rfl)
          simp only [List.length_cons,List.length_append] at hn
          omega
        · exact unclosed t hclosed
      · exact literal c t hc (ih t.length (by rw [← hn,List.length_cons]; omega) t rfl)

/-- What a placeholder stands for, and how many signs its number has. -/
inductive Placeholder (captures : TopicCaptures) : ℕ → List Char → String → Prop
  | hash {s : String} (h : captures.hash = some s) : Placeholder captures 0 ['#'] s
  | plus {digits : List Char} {n : ℕ} {s : String} (hne : digits ≠ [])
    (hdigit : ∀ c ∈ digits, c.isDigit = true) (hn : decimal digits = n+1)
    (h : captures.pluses[n]? = some s) : Placeholder captures 0 ('+'::digits) s
  | signed {digits : List Char} {n : ℕ} {s : String} (hne : digits ≠ [])
    (hdigit : ∀ c ∈ digits, c.isDigit = true) (hn : decimal digits = n+1)
    (h : captures.pluses[n]? = some s) : Placeholder captures 1 ('+' :: '+' :: digits) s

/-- A template of literals and placeholders with what it renders to, and the number of signs. -/
inductive Renders (captures : TopicCaptures) : ℕ → List Char → String → Prop
  | nil : Renders captures 0 [] ""
  | literal {k : ℕ} {t : List Char} {out : String} (c : Char) (hc : c ≠ '\x7b')
    (h : Renders captures k t out) : Renders captures k (c::t) (.ofList [c] ++ out)
  | placeholder {j k : ℕ} {body t : List Char} {s out : String} (hs : Placeholder captures j body s)
    (h : Renders captures k t out) : Renders captures (j+k) ('\x7b'::(body ++ '\x7d'::t)) (s ++ out)

section

variable {captures : TopicCaptures} {body t : List Char} {s out : String} {j k : ℕ}

theorem Placeholder.ascii (h : Placeholder captures j body s) : ∀ c ∈ body, c.toNat < 0x7b := by
  have hdigits : ∀ {digits : List Char}, (∀ c ∈ digits, c.isDigit = true) → ∀ c ∈ digits, c.toNat < 0x7b :=
    fun hdigit c hc => lt_of_le_of_lt (Char.isDigit_iff_toNat.mp (hdigit c hc)).2 (by decide)
  have hplus : '+'.toNat < 0x7b := by decide
  cases h with
  | hash => simp
  | plus _ hdigit => exact List.forall_mem_cons.mpr ⟨hplus,hdigits hdigit⟩
  | signed _ hdigit => exact List.forall_mem_cons.mpr ⟨hplus,List.forall_mem_cons.mpr ⟨hplus,hdigits hdigit⟩⟩

/-- A placeholder has no closing brace, and its bytes are its characters. -/
theorem Placeholder.not_mem (h : Placeholder captures j body s) : '\x7d' ∉ body := fun hmem =>
  absurd (h.ascii _ hmem) (by decide)

theorem Placeholder.byteLen (h : Placeholder captures j body s) : byteLen body = body.length :=
  byteLen_eq_length fun c hc => Char.utf8Size_eq_one_iff.mpr
    (UInt32.le_iff_toNat_le.mpr ((h.ascii c hc).le.trans (by decide)))

/-- What `placeholder` accepts. -/
theorem placeholder_eq_ok_iff : placeholder captures body = .ok s ↔
    body = ['#'] ∧ captures.hash = some s ∨ ∃ idx n, body = '+'::idx ∧
      IsUnsigned 64 (withoutPlus idx) (n+1) ∧ captures.pluses[n]? = some s := by
  by_cases hbody : body = ['#']
  · subst hbody
    have hno : ¬∃ idx n, ['#'] = '+'::idx ∧ IsUnsigned 64 (withoutPlus idx) (n+1) ∧
        captures.pluses[n]? = some s := by
      rintro ⟨idx,n,heq,-⟩
      exact absurd (List.cons.inj heq).1 (by decide)
    unfold placeholder
    rw [or_iff_left hno,if_pos rfl]
    cases captures.hash <;> simp
  · unfold placeholder
    rw [or_iff_right fun h => hbody h.1,if_neg hbody]
    split
    next _ idx =>
      cases hparse : parseUnsigned 64 idx with
      | none =>
        refine iff_of_false (fun h => by cases h) ?_
        rintro ⟨_,n,heq,hn,-⟩
        obtain ⟨-,rfl⟩ := List.cons.inj heq
        rw [parseUnsigned_eq_some_iff.mpr hn] at hparse
        cases hparse
      | some n =>
        have hvalue := parseUnsigned_eq_some_iff.mp hparse
        constructor
        · intro h
          cases n with
          | zero => cases h
          | succ m =>
            refine ⟨idx,m,rfl,hvalue,?_⟩
            cases hget : captures.pluses[m]? with
            | none => simp [hget] at h
            | some text => simpa [hget] using h
        · rintro ⟨_,m,heq,hm,hget⟩
          obtain ⟨-,rfl⟩ := List.cons.inj heq
          obtain rfl : n = m+1 := hvalue.value.symm.trans hm.value
          simp [hget]
    next hplus =>
      refine iff_of_false (fun h => by cases h) ?_
      rintro ⟨idx,n,heq,-⟩
      exact hplus idx heq

theorem exists_placeholder (h : placeholder captures body = .ok s) :
    ∃ j, Placeholder captures j body s := by
  rcases placeholder_eq_ok_iff.mp h with ⟨rfl,hhash⟩ | ⟨idx,n,rfl,⟨hne,hdigit,hvalue,-⟩,hplus⟩
  · exact ⟨0,.hash hhash⟩
  · by_cases hsign : idx.head? = some '+'
    · obtain ⟨digits,rfl⟩ := List.head?_eq_some_iff.mp hsign
      exact ⟨1,.signed hne hdigit hvalue hplus⟩
    · rw [withoutPlus,if_neg hsign] at hne hdigit hvalue
      exact ⟨0,.plus hne hdigit hvalue hplus⟩

/-- The placeholders that are accepted: the number may have a sign. -/
theorem placeholder_ok_iff (hcount : captures.pluses.length < 2^64) :
    placeholder captures body = .ok s ↔ ∃ j, Placeholder captures j body s := by
  refine ⟨exists_placeholder,?_⟩
  have hfits : ∀ {n}, captures.pluses[n]? = some s → n+1 < 2^64 := fun h =>
    lt_of_le_of_lt (List.getElem?_eq_some_iff.mp h).1 hcount
  rintro ⟨j,h⟩
  refine placeholder_eq_ok_iff.mpr ?_
  cases h with
  | hash h => exact .inl ⟨rfl,h⟩
  | plus hne hdigit hn h =>
    have hplus := (withoutPlus_digits hdigit).symm
    exact .inr ⟨_,_,rfl,hplus ▸ ⟨hne,hdigit,hn,hfits h⟩,h⟩
  | signed hne hdigit hn h => exact .inr ⟨_,_,rfl,⟨hne,hdigit,hn,hfits h⟩,h⟩

theorem renderFrom_closed (hbody : '\x7d' ∉ body) (read : List Char) :
    renderFrom captures (some read) (body ++ '\x7d'::t) = do
      let s ← placeholder captures (read ++ body)
      let out ← renderFrom captures none t
      return s ++ out := by
  induction body generalizing read with
  | nil => simp [renderFrom]
  | cons c body ih =>
    have hc : c ≠ '\x7d' := fun hc => hbody (List.mem_cons.mpr (.inl hc.symm))
    rw [List.cons_append,renderFrom,if_neg hc,ih fun hmem => hbody (List.mem_cons_of_mem _ hmem)]
    simp

theorem renderFrom_unclosed {rest : List Char} (hrest : '\x7d' ∉ rest) (read : List Char) :
    renderFrom captures (some read) rest = .error (.unknownPlaceholder (.ofList (read ++ rest))) := by
  induction rest generalizing read with
  | nil => simp [renderFrom]
  | cons c rest ih =>
    have hc : c ≠ '\x7d' := fun hc => hrest (List.mem_cons.mpr (.inl hc.symm))
    rw [renderFrom,if_neg hc,ih fun hmem => hrest (List.mem_cons_of_mem _ hmem)]
    simp

/-- The three ways a template starts, with what they render to. -/
theorem renderFrom_literal_iff {c : Char} (hc : c ≠ '\x7b') : renderFrom captures none (c::t) = .ok out ↔
    ∃ rest, renderFrom captures none t = .ok rest ∧ out = .ofList [c] ++ rest := by
  rw [renderFrom,if_neg hc]
  constructor
  · intro h
    obtain ⟨rest,hrest,h⟩ := exists_of_bind h
    exact ⟨rest,hrest,(Except.ok.inj h).symm⟩
  · rintro ⟨rest,hrest,rfl⟩
    rw [hrest]
    rfl

theorem renderFrom_closed_iff (hbody : '\x7d' ∉ body) :
    renderFrom captures none ('\x7b'::(body ++ '\x7d'::t)) = .ok out ↔ ∃ s rest,
      placeholder captures body = .ok s ∧ renderFrom captures none t = .ok rest ∧ out = s ++ rest := by
  rw [renderFrom,if_pos rfl,renderFrom_closed hbody,List.nil_append]
  constructor
  · intro h
    obtain ⟨s,hs,h⟩ := exists_of_bind h
    obtain ⟨rest,hrest,h⟩ := exists_of_bind h
    exact ⟨s,rest,hs,hrest,(Except.ok.inj h).symm⟩
  · rintro ⟨s,rest,hs,hrest,rfl⟩
    rw [hs,hrest]
    rfl

theorem renderFrom_unclosed_ne {rest : List Char} (hrest : '\x7d' ∉ rest) :
    renderFrom captures none ('\x7b'::rest) ≠ .ok out := by
  rw [renderFrom,if_pos rfl,renderFrom_unclosed hrest]
  intro h
  cases h

theorem Renders.of_literal {c : Char} (hc : c ≠ '\x7b') (h : Renders captures k (c::t) out) :
    ∃ rest, out = .ofList [c] ++ rest ∧ Renders captures k t rest := by
  cases h with
  | literal c hc h => exact ⟨_,rfl,h⟩
  | placeholder => exact absurd rfl hc

theorem Renders.of_open (h : Renders captures k ('\x7b'::t) out) : ∃ i j body rest s tail, k = i+j ∧
    t = body ++ '\x7d'::rest ∧ out = s ++ tail ∧ Placeholder captures i body s ∧
      Renders captures j rest tail := by
  generalize hu : '\x7b'::t = u at h
  cases h with
  | nil => cases hu
  | literal c hc h => exact absurd (List.cons.inj hu).1.symm hc
  | placeholder hs h => exact ⟨_,_,_,_,_,_,rfl,(List.cons.inj hu).2,rfl,hs,h⟩

/-- The first closing brace ends the placeholder. -/
theorem Renders.of_closed (hbody : '\x7d' ∉ body) (h : Renders captures k ('\x7b'::(body ++ '\x7d'::t)) out) :
    ∃ i j s tail, k = i+j ∧ out = s ++ tail ∧ Placeholder captures i body s ∧ Renders captures j t tail := by
  obtain ⟨i,j,body',t',s,tail,rfl,heq,rfl,hs,h⟩ := h.of_open
  obtain ⟨rfl,rfl⟩ := append_cons_inj hbody hs.not_mem heq
  exact ⟨i,j,s,tail,rfl,rfl,hs,h⟩

/-- The accepted templates, with what they render to. -/
theorem renderFrom_ok_iff (hcount : captures.pluses.length < 2^64) :
    renderFrom captures none t = .ok out ↔ ∃ k, Renders captures k t out := by
  induction t using template_induction generalizing out with
  | nil =>
    constructor
    · intro h
      obtain rfl := Except.ok.inj h
      exact ⟨0,.nil⟩
    · rintro ⟨k,h⟩
      cases h
      rfl
  | literal c t hc ih =>
    rw [renderFrom_literal_iff hc]
    constructor
    · rintro ⟨rest,hrest,rfl⟩
      obtain ⟨k,hk⟩ := ih.mp hrest
      exact ⟨k,.literal c hc hk⟩
    · rintro ⟨k,h⟩
      obtain ⟨rest,rfl,hrest⟩ := h.of_literal hc
      exact ⟨rest,ih.mpr ⟨k,hrest⟩,rfl⟩
  | unclosed rest hrest =>
    refine iff_of_false (renderFrom_unclosed_ne hrest) ?_
    rintro ⟨k,h⟩
    obtain ⟨i,j,body,t,s,tail,-,rfl,-⟩ := h.of_open
    simp at hrest
  | closed body t hbody ih =>
    rw [renderFrom_closed_iff hbody]
    constructor
    · rintro ⟨s,rest,hs,hrest,rfl⟩
      obtain ⟨i,hi⟩ := (placeholder_ok_iff hcount).mp hs
      obtain ⟨j,hj⟩ := ih.mp hrest
      exact ⟨i+j,.placeholder hi hj⟩
    · rintro ⟨k,h⟩
      obtain ⟨i,j,s,rest,rfl,rfl,hs,hrest⟩ := h.of_closed hbody
      exact ⟨s,rest,(placeholder_ok_iff hcount).mpr ⟨i,hs⟩,ih.mpr ⟨j,hrest⟩,rfl⟩

theorem Placeholder.unique {i : ℕ} {s' : String} (h : Placeholder captures i body s)
    (h' : Placeholder captures j body s') : i = j := by
  cases h with
  | hash => cases h'; rfl
  | plus _ hdigit =>
    cases h' with
    | plus => rfl
    | signed => exact absurd (hdigit '+' List.mem_cons_self) (by decide)
  | signed =>
    cases h' with
    | plus _ hdigit => exact absurd (hdigit '+' List.mem_cons_self) (by decide)
    | signed => rfl

/-- A template has one reading. -/
theorem Renders.unique {k' : ℕ} {out' : String} (h : Renders captures k t out)
    (h' : Renders captures k' t out') : k = k' := by
  induction h generalizing k' out' with
  | nil =>
    cases h'
    rfl
  | literal c hc _ ih =>
    obtain ⟨_,-,h'⟩ := h'.of_literal hc
    exact ih h'
  | placeholder hs _ ih =>
    obtain ⟨_,_,_,_,rfl,-,hs',h'⟩ := h'.of_closed hs.not_mem
    rw [hs.unique hs',ih h']

/-- The loop never slices off a boundary, and it is the scan. -/
theorem renderLoop_eq (read t : List Char) (out : String) :
    renderLoop captures (read ++ t) (charIndices (byteLen read) t) out =
      some ((renderFrom captures none t).map (out ++ ·)) := by
  induction t using template_induction generalizing read out with
  | nil => simp [renderLoop,charIndices,renderFrom,Except.map]
  | literal c t hc ih =>
    have hnext := ih (read ++ [c]) (out ++ .ofList [c])
    rw [byteLen_append,List.append_assoc] at hnext
    rw [charIndices,renderLoop,if_pos hc,renderFrom,if_neg hc]
    refine hnext.trans ?_
    cases renderFrom captures none t with
    | error e => rfl
    | ok rest =>
      simp only [Except.map]
      rw [String.append_assoc]
  | unclosed rest hrest =>
    have hslice : dropBytes (read ++ '\x7b'::rest) (byteLen read+1) = some rest := by
      have hdrop := dropBytes_append (read ++ ['\x7b']) rest
      rwa [byteLen_append,List.append_assoc] at hdrop
    rw [charIndices,renderLoop,if_neg (not_not.mpr rfl),hslice,Option.bind_some,find_eq_none hrest,
      renderFrom,if_pos rfl,renderFrom_unclosed hrest]
    rfl
  | closed body t hbody ih =>
    have hslice : dropBytes (read ++ '\x7b'::(body ++ '\x7d'::t)) (byteLen read+1) =
        some (body ++ '\x7d'::t) := by
      have hdrop := dropBytes_append (read ++ ['\x7b']) (body ++ '\x7d'::t)
      rwa [byteLen_append,List.append_assoc] at hdrop
    rw [charIndices,renderLoop,if_neg (not_not.mpr rfl),hslice,Option.bind_some,find_append hbody t,
      renderFrom,if_pos rfl,renderFrom_closed hbody,List.nil_append]
    simp only [takeBytes_append,Option.bind_some]
    cases hs : placeholder captures body with
    | error e => rfl
    | ok s =>
      -- an accepted placeholder is ASCII, so its bytes count its characters
      obtain ⟨_,hplaceholder⟩ := exists_placeholder hs
      have hlen : byteLen body+1 = (body ++ ['\x7d']).length := by
        rw [hplaceholder.byteLen,List.length_append]
        rfl
      have hiter : (charIndices (byteLen read + '\x7b'.utf8Size) (body ++ '\x7d'::t)).drop (byteLen body+1) =
          charIndices (byteLen (read ++ '\x7b'::(body ++ ['\x7d']))) t := by
        rw [List.append_cons body,hlen,drop_charIndices,byteLen_append read,byteLen_cons,Nat.add_assoc]
      have htext : read ++ '\x7b'::(body ++ ['\x7d']) ++ t = read ++ '\x7b'::(body ++ '\x7d'::t) := by simp
      have hnext := ih (read ++ '\x7b'::(body ++ ['\x7d'])) (out ++ s)
      rw [htext,← hiter] at hnext
      refine hnext.trans ?_
      cases renderFrom captures none t with
      | error e => rfl
      | ok rest =>
        simp only [Except.map]
        rw [String.append_assoc]
        rfl

end

/-- The loop comes back, and what it accepts are the templates without a sign. -/
structure RenderContract (captures : TopicCaptures) (template : String) : Prop where
  returns : ∃ r, renderLoop captures template.toList (charIndices 0 template.toList) "" = some r
  accepts : ∀ out, renderLoop captures template.toList (charIndices 0 template.toList) "" =
    some (.ok out) ↔ Renders captures 0 template.toList out

theorem renderLoop_render (captures : TopicCaptures) (template : String) :
    renderLoop captures template.toList (charIndices 0 template.toList) "" =
      some (render template captures) := by
  have hloop := @renderLoop_eq captures [] template.toList ""
  rw [List.nil_append,byteLen_nil] at hloop
  rw [hloop,render]
  cases renderFrom captures none template.toList <;> simp [Except.map]

/-- A template is rendered by its grammar exactly unless it reads as one with a sign before a
number, which is accepted too. No template makes the scanner fail. -/
theorem render_contract_iff (captures : TopicCaptures) (hcount : captures.pluses.length < 2^64)
    (template : String) :
    (∃ r, renderLoop captures template.toList (charIndices 0 template.toList) "" = some r) ∧
    (RenderContract captures template ↔
      ∀ k out, Renders captures k template.toList out → k = 0) := by
  have hloop := renderLoop_render captures template
  have hok : ∀ out, renderLoop captures template.toList (charIndices 0 template.toList) "" =
      some (.ok out) ↔ ∃ k, Renders captures k template.toList out := fun out => by
    rw [hloop,Option.some.injEq,render,renderFrom_ok_iff hcount]
  refine ⟨⟨_,hloop⟩,fun h k out hk => ?_,fun h => ⟨⟨_,hloop⟩,fun out => ?_⟩⟩
  · exact hk.unique ((h.accepts out).mp ((hok out).mpr ⟨k,hk⟩))
  · rw [hok]
    constructor
    · rintro ⟨k,hk⟩
      exact h k out hk ▸ hk
    · exact fun h => ⟨0,h⟩

/-- A template in the words of the grammar. -/
theorem render_contract_plain : RenderContract ⟨["kitchen"],none⟩ "t.\x7b+1\x7d" := by
  refine (render_contract_iff ⟨["kitchen"],none⟩ (by decide) "t.\x7b+1\x7d").2.mpr fun k out h => ?_
  have hplus : Placeholder ⟨["kitchen"],none⟩ 0 ['+','1'] "kitchen" :=
    .plus (n := 0) (List.cons_ne_nil _ _) (by simp) rfl rfl
  exact h.unique (.literal 't' (by decide) (.literal '.' (by decide) (.placeholder hplus .nil)))

/-- The number has a sign, and the template is rendered. -/
theorem render_contract_fails : render "\x7b++1\x7d" ⟨["kitchen"],none⟩ = .ok "kitchen" ∧
    ¬RenderContract ⟨["kitchen"],none⟩ "\x7b++1\x7d" := by
  have hrender : render "\x7b++1\x7d" ⟨["kitchen"],none⟩ = .ok "kitchen" := by decide
  refine ⟨hrender,fun h => ?_⟩
  have hplain := (h.accepts "kitchen").mp (by rw [renderLoop_render,hrender])
  have hsigned : Placeholder ⟨["kitchen"],none⟩ 1 ['+','+','1'] "kitchen" :=
    .signed (n := 0) (List.cons_ne_nil _ _) (by simp) rfl rfl
  exact absurd (hplain.unique (.placeholder hsigned .nil)) (by decide)

end Percept
