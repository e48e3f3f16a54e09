import Percept.Normalizer

/-! A kind and its parts. The parser and the printer of `KindRef` undo each other, and the bare name
that retention and embedding cut off for themselves is the name that the parser finds. -/
namespace Percept

namespace KindRef

/-- `Display`. -/
def display (r : KindRef) : String :=
  match r.version with
  | none => r.name
  | some v => r.name ++ "@" ++ v

/-- A name that ends before its version, and no part that is empty. -/
structure WellFormed (r : KindRef) : Prop where
  name_ne : r.name ≠ ""
  name_at : '@' ∉ r.name.toList
  version_ne : r.version ≠ some ""

variable {r : KindRef} {s : String}

/-- The first `@` is the one that the printer puts after the name. -/
theorem splitOnce_display (h : '@' ∉ r.name.toList) :
    splitOnce '@' r.display = r.version.map fun v => (r.name,v) := by
  obtain ⟨name,version⟩ := r
  cases version with
  | none => exact splitOnce_eq_none_iff.mpr h
  | some v => exact splitOnce_append h v

theorem bareKind_display (h : '@' ∉ r.name.toList) : bareKind r.display = r.name := by
  rw [bareKind,splitOnce_display h]
  obtain ⟨name,version⟩ := r
  cases version <;> rfl

theorem display_ne (h : r.WellFormed) : r.display ≠ "" := by
  have hname := h.name_ne
  obtain ⟨name,version⟩ := r
  cases version with
  | none => exact hname
  | some v => simp [display]

/-- The parser accepts what the printer writes for well-formed references, and nothing else. -/
theorem fromStr_eq_ok_iff : fromStr s = .ok r ↔ r.WellFormed ∧ r.display = s := by
  constructor
  · intro h
    unfold fromStr at h
    split_ifs at h with hempty
    cases hsplit : splitOnce '@' s with
    | none =>
      rw [hsplit] at h
      obtain rfl := Except.ok.inj h
      exact ⟨⟨hempty,splitOnce_eq_none_iff.mp hsplit,(Option.some_ne_none "").symm⟩,rfl⟩
    | some x =>
      obtain ⟨name,version⟩ := x
      obtain ⟨rfl,hat⟩ := splitOnce_eq_some_iff.mp hsplit
      simp only [hsplit] at h
      split_ifs at h with hname hversion
      obtain rfl := Except.ok.inj h
      exact ⟨⟨hname,hat,fun heq => hversion (Option.some.inj heq)⟩,rfl⟩
  · rintro ⟨hr,rfl⟩
    rw [fromStr,if_neg (display_ne hr),splitOnce_display hr.name_at]
    obtain ⟨name,version⟩ := r
    cases version with
    | none => rfl
    | some v =>
      have hversion : v ≠ "" := fun heq => hr.version_ne (congrArg some heq)
      simp only [Option.map_some,if_neg hr.name_ne,if_neg hversion]

end KindRef

theorem bareKind_pinned {n : String} (hn : '@' ∉ n.toList) (v : String) :
    bareKind (n ++ "@" ++ v) = n :=
  KindRef.bareKind_display (r := ⟨n,some v⟩) hn

theorem bareKind_bare {n : String} (hn : '@' ∉ n.toList) : bareKind n = n :=
  KindRef.bareKind_display (r := ⟨n,none⟩) hn

namespace RetentionPolicy

/-- Unless it names the versioned form, an entry applies to a version as to the bare name. -/
theorem applies_version {p : RetentionPolicy} {n v : String} (hn : '@' ∉ n.toList)
    (hp : p.matchKind ≠ some (n ++ "@" ++ v)) (sourceId : String) :
    p.applies sourceId (n ++ "@" ++ v) = p.applies sourceId n := by
  unfold applies
  rw [bareKind_pinned hn,bareKind_bare hn]
  cases hkind : p.matchKind with
  | none => rfl
  | some k =>
    have hk : k ≠ n ++ "@" ++ v := fun heq => hp (hkind.trans (congrArg some heq))
    simp [hk]

end RetentionPolicy

theorem shouldEmbed_version (sel : EmbedSelector) {n : String} (hn : '@' ∉ n.toList) (sourceId v : String) :
    sel.shouldEmbed sourceId (n ++ "@" ++ v) = sel.shouldEmbed sourceId n := by
  unfold EmbedSelector.shouldEmbed
  rw [bareKind_pinned hn,bareKind_bare hn]

theorem resolveEffective_version {policies : List RetentionPolicy} {n v : String} (hn : '@' ∉ n.toList)
    (h : ∀ p ∈ policies, p.matchKind ≠ some (n ++ "@" ++ v)) (sourceId : String) :
    resolveEffective policies sourceId (n ++ "@" ++ v) = resolveEffective policies sourceId n := by
  have happlies : (policies.filter fun p => p.applies sourceId (n ++ "@" ++ v)) =
      policies.filter fun p => p.applies sourceId n :=
    List.filter_congr fun p hp => RetentionPolicy.applies_version hn (h p hp) sourceId
  unfold resolveEffective
  rw [happlies]

/-- The parser, the printer and the two splitters agree on every kind: printing undoes parsing and
parsing undoes printing, retention and embedding look at the parsed name, and they decide for a
version as for the bare name where no rule names the version. -/
theorem kind_splits_agree :
    (∀ s r, KindRef.fromStr s = .ok r → r.display = s) ∧
    (∀ r : KindRef, r.name ≠ "" → '@' ∉ r.name.toList → r.version ≠ some "" →
      KindRef.fromStr r.display = .ok r) ∧
    (∀ s r, KindRef.fromStr s = .ok r → bareKind s = r.name ∧
      (∀ (p : RetentionPolicy) sourceId, p.applies sourceId s =
        ((p.matchSourceId.all fun x => x = sourceId) &&
          p.matchKind.all fun k => k = r.name || k = s)) ∧
      ∀ (sel : EmbedSelector) sourceId, sel.shouldEmbed sourceId s =
        ((sel.bySource sourceId).or (sel.byKind r.name)).getD sel.embedDefault) ∧
    ∀ n v, '@' ∉ n.toList →
      (∀ p : RetentionPolicy, p.matchKind ≠ some (n ++ "@" ++ v) →
        ∀ sourceId, p.applies sourceId (n ++ "@" ++ v) = p.applies sourceId n) ∧
      (∀ policies : List RetentionPolicy, (∀ p ∈ policies, p.matchKind ≠ some (n ++ "@" ++ v)) →
        ∀ sourceId, resolveEffective policies sourceId (n ++ "@" ++ v) =
          resolveEffective policies sourceId n) ∧
      ∀ (sel : EmbedSelector) sourceId, sel.shouldEmbed sourceId (n ++ "@" ++ v) =
        sel.shouldEmbed sourceId n := by
  refine ⟨fun s r h => (KindRef.fromStr_eq_ok_iff.mp h).2,
    fun r hname hat hversion => KindRef.fromStr_eq_ok_iff.mpr ⟨⟨hname,hat,hversion⟩,rfl⟩,
    fun s r h => ?_,fun n v hn => ⟨fun p hp => RetentionPolicy.applies_version hn hp,
      fun policies hp => resolveEffective_version hn hp,
      fun sel sourceId => shouldEmbed_version sel hn sourceId v⟩⟩
  obtain ⟨hr,rfl⟩ := KindRef.fromStr_eq_ok_iff.mp h
  have hbare := KindRef.bareKind_display hr.name_at
  refine ⟨hbare,fun p sourceId => ?_,fun sel sourceId => ?_⟩
  · rw [RetentionPolicy.applies,hbare]
  · rw [EmbedSelector.shouldEmbed,hbare]
    cases sel.bySource sourceId with
    | some v => rfl
    | none => cases sel.byKind r.name <;> rfl

example : KindRef.fromStr "scene@v2@hub" = .ok ⟨"scene",some "v2@hub"⟩ ∧
    bareKind "scene@v2@hub" = "scene" := by decide

end Percept
