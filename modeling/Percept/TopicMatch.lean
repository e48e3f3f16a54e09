import Percept.Mqtt

/-! MQTT matching of topics: the loop over the levels of a filter, which indexes the levels of the
topic, against the relation between the two, and what is captured. -/
namespace Percept

/-- `parts[idx..]`, in range. -/
def sliceFrom {α : Type} (parts : List α) (idx : ℕ) : Option (List α) :=
  if idx ≤ parts.length then some (parts.drop idx) else none

namespace TopicMatcher

/-- The loop as the code has it, with an index into the topic; `none` is an index or a slice out of
range. -/
def capturesAt (parts : List String) : List TopicSegment → ℕ → List String →
    Option (Option TopicCaptures)
  | [], idx, pluses => some (if idx ≠ parts.length then none else some ⟨pluses,none⟩)
  | .hash::_, idx, pluses =>
    (sliceFrom parts idx).map fun tail => some ⟨pluses,some ("/".intercalate tail)⟩
  | .singlePlus::filter, idx, pluses =>
    if parts.length ≤ idx then some none
    else parts[idx]?.bind fun part => capturesAt parts filter (idx+1) (pluses ++ [part])
  | .literal s::filter, idx, pluses =>
    if parts.length ≤ idx then some none
    else parts[idx]?.bind fun part =>
      if part ≠ s then some none else capturesAt parts filter (idx+1) pluses

/-- The index never passes the end of the topic. -/
theorem capturesAt_eq (parts : List String) (filter : List TopicSegment) {idx : ℕ}
    (hidx : idx ≤ parts.length) (pluses : List String) :
    capturesAt parts filter idx pluses = some (capturesFrom filter (parts.drop idx) pluses) := by
  induction filter generalizing idx pluses with
  | nil =>
    rcases hidx.lt_or_eq with hlt | rfl
    · rw [capturesAt,if_pos hlt.ne,List.drop_eq_getElem_cons hlt]
      rfl
    · rw [capturesAt,if_neg (not_not.mpr rfl),List.drop_length]
      rfl
  | cons seg filter ih =>
    cases seg with
    | hash =>
      rw [capturesAt,sliceFrom,if_pos hidx]
      cases parts.drop idx <;> rfl
    | singlePlus =>
      rw [capturesAt]
      rcases hidx.lt_or_eq with hlt | rfl
      · rw [if_neg (not_le.mpr hlt),List.getElem?_eq_getElem hlt,List.drop_eq_getElem_cons hlt]
        exact ih hlt _
      · rw [if_pos le_rfl,List.drop_length]
        rfl
    | literal s =>
      rw [capturesAt]
      rcases hidx.lt_or_eq with hlt | rfl
      · rw [if_neg (not_le.mpr hlt),List.getElem?_eq_getElem hlt,List.drop_eq_getElem_cons hlt,
          Option.bind_some,capturesFrom]
        by_cases hs : parts[idx] = s
        · rw [if_neg (not_not.mpr hs),if_pos hs]
          exact ih hlt _
        · rw [if_pos hs,if_neg hs]
      · rw [if_pos le_rfl,List.drop_length]
        rfl

end TopicMatcher

/-- A topic matches a filter, level by level. -/
inductive TopicMatches : List String → List String → Prop
  | nil : TopicMatches [] []
  | plus {filter levels : List String} (level : String) (h : TopicMatches filter levels) :
    TopicMatches ("+"::filter) (level::levels)
  | literal {filter levels : List String} {s : String} (hplus : s ≠ "+") (hhash : s ≠ "#")
    (h : TopicMatches filter levels) : TopicMatches (s::filter) (s::levels)
  | hash (levels : List String) : TopicMatches ["#"] levels

/-- A `#` is the last level. -/
def HashLast (filter : List String) : Prop := ∀ s ∈ filter.dropLast, s ≠ "#"

/-- The levels of the topic at the `+` positions. -/
def plusLevels (filter levels : List String) : List String :=
  ((filter.zip levels).filter fun x => x.1 = "+").map Prod.snd

/-- The levels of the topic from the last position of the filter on. -/
def tailLevels (filter levels : List String) : List String := levels.drop (filter.length-1)

/-- The levels of the filter with the captures in their places. -/
def putBack : List String → List String → Option String → List String
  | [], _, _ => []
  | s::filter, pluses, hash =>
    if s = "+" then pluses.headD ""::putBack filter pluses.tail hash
    else if s = "#" then hash.getD ""::putBack filter pluses hash
    else s::putBack filter pluses hash

/-- How one part of a filter is read. -/
def TopicSegment.ofPart (part : String) : TopicSegment :=
  if part = "+" then .singlePlus else if part = "#" then .hash else .literal part

section

variable {s : String} {filter levels : List String}

theorem HashLast.cons (h : HashLast (s::filter)) : (s = "#" → filter = []) ∧ HashLast filter := by
  cases filter with
  | nil => exact ⟨fun _ => rfl,fun x hx => by cases hx⟩
  | cons x filter =>
    rw [HashLast,List.dropLast_cons_of_ne_nil (List.cons_ne_nil _ _)] at h
    exact ⟨fun hs => absurd hs (h s (List.mem_cons_self ..)),fun y hy => h y (List.mem_cons_of_mem _ hy)⟩

/-- The first part of the filter decides which rule applies. -/
theorem TopicMatches.cons_inv (h : TopicMatches (s::filter) levels) : s = "#" ∧ filter = [] ∨
    ∃ level rest, levels = level::rest ∧ TopicMatches filter rest ∧
      (s = "+" ∨ s ≠ "+" ∧ s ≠ "#" ∧ level = s) := by
  generalize hf : s::filter = f at h
  cases h with
  | nil => cases hf
  | plus level h =>
    obtain ⟨rfl,rfl⟩ := List.cons.inj hf
    exact .inr ⟨level,_,rfl,h,.inl rfl⟩
  | literal hplus hhash h =>
    obtain ⟨rfl,rfl⟩ := List.cons.inj hf
    exact .inr ⟨_,_,rfl,h,.inr ⟨hplus,hhash,rfl⟩⟩
  | hash levels =>
    obtain ⟨rfl,rfl⟩ := List.cons.inj hf
    exact .inl ⟨rfl,rfl⟩

theorem topicMatches_plus {level : String} :
    TopicMatches ("+"::filter) (level::levels) ↔ TopicMatches filter levels := by
  refine ⟨fun h => ?_,.plus level⟩
  rcases h.cons_inv with ⟨hs,-⟩ | ⟨_,_,heq,h,-⟩
  · exact absurd hs (by decide)
  · obtain ⟨rfl,rfl⟩ := List.cons.inj heq
    exact h

theorem topicMatches_literal (hplus : s ≠ "+") (hhash : s ≠ "#") {level : String} :
    TopicMatches (s::filter) (level::levels) ↔ level = s ∧ TopicMatches filter levels := by
  constructor
  · intro h
    rcases h.cons_inv with ⟨hs,-⟩ | ⟨_,_,heq,h,hs | ⟨-,-,hlevel⟩⟩
    · exact absurd hs hhash
    · exact absurd hs hplus
    · obtain ⟨rfl,rfl⟩ := List.cons.inj heq
      exact ⟨hlevel,h⟩
  · rintro ⟨rfl,h⟩
    exact .literal hplus hhash h

theorem not_topicMatches_nil (hhash : s ≠ "#") : ¬TopicMatches (s::filter) [] := by
  intro h
  rcases h.cons_inv with ⟨hs,-⟩ | ⟨_,_,heq,-,-⟩
  · exact hhash hs
  · cases heq

/-- What the filter captures of the topic. -/
def capturesOf (filter levels : List String) : TopicCaptures :=
  ⟨plusLevels filter levels,
    if "#" ∈ filter then some ("/".intercalate (tailLevels filter levels)) else none⟩

theorem plusLevels_cons (s level : String) (filter levels : List String) :
    plusLevels (s::filter) (level::levels) = (if s = "+" then [level] else []) ++ plusLevels filter levels := by
  unfold plusLevels
  rw [List.zip_cons_cons,List.filter_cons]
  by_cases hs : s = "+" <;> simp [hs]

theorem tailLevels_cons (hmem : "#" ∈ filter) (s level : String) :
    tailLevels (s::filter) (level::levels) = tailLevels filter levels := by
  obtain ⟨n,hn⟩ : ∃ n, filter.length = n+1 :=
    ⟨_,(Nat.succ_pred_eq_of_pos (List.length_pos_of_mem hmem)).symm⟩
  simp [tailLevels,hn]

theorem capturesOf_cons (hhash : s ≠ "#") (level : String) : capturesOf (s::filter) (level::levels) =
    ⟨(if s = "+" then [level] else []) ++ (capturesOf filter levels).pluses,
      (capturesOf filter levels).hash⟩ := by
  have hmem : "#" ∈ s::filter ↔ "#" ∈ filter := by simp [Ne.symm hhash]
  unfold capturesOf
  simp only [hmem,plusLevels_cons]
  congr 1
  split_ifs with h
  · rw [tailLevels_cons h]
  · rfl

/-- The loop succeeds exactly on the topics that match. -/
theorem capturesFrom_iff (hlast : HashLast filter) (pluses : List String) (c : TopicCaptures) :
    TopicMatcher.capturesFrom (filter.map .ofPart) levels pluses = some c ↔ TopicMatches filter levels ∧
      c = ⟨pluses ++ (capturesOf filter levels).pluses,(capturesOf filter levels).hash⟩ := by
  induction filter generalizing levels pluses with
  | nil =>
    cases levels with
    | nil =>
      simp only [List.map_nil,TopicMatcher.capturesFrom,Option.some.injEq]
      constructor
      · rintro rfl
        exact ⟨.nil,by simp [capturesOf,plusLevels]⟩
      · rintro ⟨-,rfl⟩
        simp [capturesOf,plusLevels]
    | cons level levels =>
      refine iff_of_false (by simp [TopicMatcher.capturesFrom]) fun h => ?_
      cases h.1
  | cons s filter ih =>
    obtain ⟨hnil,hrest⟩ := hlast.cons
    by_cases hhash : s = "#"
    · obtain rfl := hnil hhash
      subst hhash
      have hloop : TopicMatcher.capturesFrom (["#"].map .ofPart) levels pluses =
          some ⟨pluses,some ("/".intercalate levels)⟩ := by
        cases levels <;> rfl
      have hof : capturesOf ["#"] levels = ⟨[],some ("/".intercalate levels)⟩ := by
        cases levels <;> rfl
      rw [hloop,hof,List.append_nil,Option.some.injEq,eq_comm]
      exact ⟨fun heq => ⟨.hash levels,heq⟩,And.right⟩
    · cases levels with
      | nil =>
        refine iff_of_false ?_ fun h => not_topicMatches_nil hhash h.1
        rw [List.map_cons,TopicSegment.ofPart,if_neg hhash]
        split_ifs <;> simp [TopicMatcher.capturesFrom]
      | cons level levels =>
        rw [List.map_cons,TopicSegment.ofPart,if_neg hhash,capturesOf_cons hhash]
        by_cases hplus : s = "+"
        · subst hplus
          rw [if_pos rfl,if_pos rfl,TopicMatcher.capturesFrom,ih hrest,topicMatches_plus]
          simp
        · rw [if_neg hplus,if_neg hplus,TopicMatcher.capturesFrom,topicMatches_literal hplus hhash]
          by_cases hlevel : level = s
          · rw [if_pos hlevel,ih hrest]
            simp [hlevel]
          · simp [hlevel]

/-- Without a `#` the captures restore the levels of the topic; a `#` stands for the levels from its
position on. -/
theorem putBack_captures (h : TopicMatches filter levels) (hash : Option String) :
    "#" ∉ filter ∧ putBack filter (plusLevels filter levels) hash = levels ∨
    "#" ∈ filter ∧ ∃ front, levels = front ++ tailLevels filter levels ∧
      putBack filter (plusLevels filter levels) hash = front ++ [hash.getD ""] := by
  induction h with
  | nil => exact .inl ⟨List.not_mem_nil,rfl⟩
  | @plus filter levels level h ih =>
    have hput : putBack ("+"::filter) (plusLevels ("+"::filter) (level::levels)) hash =
        level::putBack filter (plusLevels filter levels) hash := by
      rw [plusLevels_cons,if_pos rfl]
      rfl
    rw [hput]
    rcases ih with ⟨hmem,hback⟩ | ⟨hmem,front,hlevels,hback⟩
    · exact .inl ⟨by simpa using hmem,by rw [hback]⟩
    · refine .inr ⟨List.mem_cons_of_mem _ hmem,level::front,?_,by rw [hback]; rfl⟩
      rw [tailLevels_cons hmem,List.cons_append,← hlevels]
  | @literal filter levels s hplus hhash h ih =>
    have hput : putBack (s::filter) (plusLevels (s::filter) (s::levels)) hash =
        s::putBack filter (plusLevels filter levels) hash := by
      rw [plusLevels_cons,if_neg hplus,putBack,if_neg hplus,if_neg hhash,List.nil_append]
    rw [hput]
    rcases ih with ⟨hmem,hback⟩ | ⟨hmem,front,hlevels,hback⟩
    · exact .inl ⟨by simpa [Ne.symm hhash] using hmem,by rw [hback]⟩
    · refine .inr ⟨List.mem_cons_of_mem _ hmem,s::front,?_,by rw [hback]; rfl⟩
      rw [tailLevels_cons hmem,List.cons_append,← hlevels]
  | hash levels => exact .inr ⟨List.mem_singleton_self _,[],rfl,rfl⟩

end

theorem join_splitOn (topic : String) : "/".intercalate (splitOn '/' topic) = topic := by
  refine String.toList_inj.mp ?_
  rw [String.toList_intercalate,splitOn,List.map_map]
  simp only [Function.comp_def,String.toList_ofList,List.map_id']
  exact List.intercalate_splitOn '/'

theorem splitOn_ne_nil (topic : String) : splitOn '/' topic ≠ [] := by
  simp [splitOn]

/-- A list of levels may be joined in two steps. -/
theorem intercalate_tail {front tail : List String} (htail : tail ≠ []) :
    "/".intercalate (front ++ ["/".intercalate tail]) = "/".intercalate (front ++ tail) := by
  by_cases hfront : front = []
  · simp [hfront]
  · rw [String.intercalate_append_of_ne_nil hfront htail,
      String.intercalate_append_of_ne_nil hfront (List.cons_ne_nil _ _),String.intercalate_singleton]

/-- Topic matching is the matching of MQTT for every filter whose `#`, if any, is last: the loop
succeeds on the topics that match, captures the levels at the `+` positions and the levels left for
the `#`, and the captures put back give the topic. Whatever the filter, no index is out of range. -/
theorem captures_spec (filter topic : String) : let parts := splitOn '/' filter
    let levels := splitOn '/' topic
    TopicMatcher.capturesAt levels (TopicMatcher.new filter).filter 0 [] =
        some ((TopicMatcher.new filter).captures topic) ∧
    (HashLast parts →
      (((TopicMatcher.new filter).captures topic).isSome ↔ TopicMatches parts levels) ∧
      ∀ c, (TopicMatcher.new filter).captures topic = some c →
        c.pluses = plusLevels parts levels ∧ (c.hash.isSome ↔ "#" ∈ parts) ∧
        (∀ tail, c.hash = some tail → tail = "/".intercalate (tailLevels parts levels)) ∧
        "/".intercalate (putBack parts c.pluses c.hash) =
          if "#" ∈ parts ∧ tailLevels parts levels = [] then topic ++ "/" else topic) := by
  intro parts levels
  refine ⟨TopicMatcher.capturesAt_eq levels _ (Nat.zero_le _) [],fun hlast => ⟨?_,fun c hc => ?_⟩⟩
  · rw [Option.isSome_iff_exists]
    constructor
    · rintro ⟨c,hc⟩
      exact ((capturesFrom_iff hlast [] c).mp hc).1
    · exact fun h => ⟨_,(capturesFrom_iff hlast [] _).mpr ⟨h,rfl⟩⟩
  · obtain ⟨hmatch,rfl⟩ := (capturesFrom_iff hlast [] c).mp hc
    rw [List.nil_append]
    refine ⟨rfl,?_,fun tail htail => ?_,?_⟩
    · unfold capturesOf
      split_ifs with h <;> simp [h]
    · unfold capturesOf at htail
      split_ifs at htail
      exact (Option.some.inj htail).symm
    · have hjoin : "/".intercalate levels = topic := join_splitOn topic
      have hne : levels ≠ [] := splitOn_ne_nil topic
      have hpluses : (capturesOf parts levels).pluses = plusLevels parts levels := rfl
      rw [hpluses]
      rcases putBack_captures hmatch (capturesOf parts levels).hash with
        ⟨hmem,hback⟩ | ⟨hmem,front,hlevels,hback⟩
      · rw [hback,if_neg fun h => hmem h.1,hjoin]
      · have hhash : (capturesOf parts levels).hash = some ("/".intercalate (tailLevels parts levels)) :=
          if_pos hmem
        rw [hback,hhash,Option.getD_some]
        by_cases htail : tailLevels parts levels = []
        · have hfront : levels = front :=
            (hlevels.trans (congrArg (front ++ ·) htail)).trans (List.append_nil front)
          rw [if_pos ⟨hmem,htail⟩,htail,String.intercalate_append_of_ne_nil (hfront ▸ hne)
            (List.cons_ne_nil _ _),← hfront,hjoin]
          simp
        · rw [if_neg fun h => htail h.2,intercalate_tail htail,← hlevels,hjoin]

end Percept
