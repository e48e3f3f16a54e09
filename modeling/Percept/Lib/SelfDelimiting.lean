import Mathlib

/-! Codes that tell where they end: what follows such a code can be split off, so codes written
one after another are read back one after another. -/
namespace SelfDelimiting

variable {α γ σ : Type*} {P : α → Prop} {f : α → List σ}

/-- The values of `P` have self-delimiting codes. -/
def On (P : α → Prop) (f : α → List σ) : Prop :=
  ∀ ⦃a b⦄, P a → P b → ∀ ⦃s t⦄, f a ++ s = f b ++ t → a = b ∧ s = t

theorem On.of_length (w : ℕ) (hw : ∀ a, P a → (f a).length = w)
    (hinj : ∀ ⦃a b⦄, P a → P b → f a = f b → a = b) : On P f := by
  intro a b ha hb s t h
  obtain ⟨hcode,hrest⟩ := List.append_inj h ((hw a ha).trans (hw b hb).symm)
  exact ⟨hinj ha hb hcode,hrest⟩

theorem On.comp {Q : γ → Prop} {g : γ → α} (h : On P f) (hP : ∀ c, Q c → P (g c))
    (hinj : ∀ ⦃c d⦄, Q c → Q d → g c = g d → c = d) : On Q fun c => f (g c) := by
  intro c d hc hd s t heq
  obtain ⟨hg,hrest⟩ := h (hP c hc) (hP d hd) heq
  exact ⟨hinj hc hd hg,hrest⟩

/-- Codes of two lists of one length. -/
theorem On.flatMap (h : On P f) {l l' : List α} (hl : ∀ a ∈ l, P a) (hl' : ∀ a ∈ l', P a)
    (hlen : l.length = l'.length) {s t : List σ} (heq : l.flatMap f ++ s = l'.flatMap f ++ t) :
    l = l' ∧ s = t := by
  induction l generalizing l' with
  | nil =>
    obtain rfl := List.length_eq_zero_iff.mp hlen.symm
    exact ⟨rfl,heq⟩
  | cons a l ih =>
    obtain ⟨b,l',rfl⟩ := List.exists_cons_of_length_eq_add_one hlen.symm
    rw [List.flatMap_cons,List.flatMap_cons,List.append_assoc,List.append_assoc] at heq
    obtain ⟨rfl,htail⟩ := h (hl a (by simp)) (hl' b (by simp)) heq
    obtain ⟨rfl,hrest⟩ := ih (fun c hc => hl c (by simp [hc])) (fun c hc => hl' c (by simp [hc]))
      (Nat.succ.inj hlen) htail
    exact ⟨rfl,hrest⟩

section Counted

variable {bound : ℕ} {count : ℕ → List σ} (hcount : On (· < bound) count)
include hcount

/-- A text after its length. -/
theorem On.sized (hinj : ∀ ⦃a b⦄, P a → P b → f a = f b → a = b) :
    On (fun a => P a ∧ (f a).length < bound) fun a => count (f a).length ++ f a := by
  rintro a b ⟨ha,hlen⟩ ⟨hb,hlen'⟩ s t h
  rw [List.append_assoc,List.append_assoc] at h
  obtain ⟨hn,h⟩ := hcount hlen hlen' h
  obtain ⟨hcode,hrest⟩ := List.append_inj h hn
  exact ⟨hinj ha hb hcode,hrest⟩

/-- A list of codes after their number. -/
theorem On.counted (hf : On P f) :
    On (fun l : List α => l.length < bound ∧ ∀ a ∈ l, P a) fun l => count l.length ++ l.flatMap f := by
  rintro l l' ⟨hlen,hl⟩ ⟨hlen',hl'⟩ s t h
  rw [List.append_assoc,List.append_assoc] at h
  obtain ⟨hn,h⟩ := hcount hlen hlen' h
  exact hf.flatMap hl hl' hn h

end Counted

end SelfDelimiting
