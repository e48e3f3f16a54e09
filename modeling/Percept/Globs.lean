import Percept.Core

/-! Glob filters over `source_id` and `kind` as the descriptor registry and the vector
index apply them. The `globset` crate stays a parameter. -/
namespace Percept

/-- `Glob::new` may reject a pattern with an error text; a built set is its `is_match`. -/
structure Globset where
  glob : String → Except String Unit
  build : List String → Except String (String → Bool)

namespace Globset

/-- Both loops `b.add(Glob::new(p)?)`, then `b.build()`; `toError` wraps the error text. -/
def compile {ε : Type} (gs : Globset) (toError : String → ε) (patterns : Option (List String)) :
    Except ε (Option (String → Bool)) :=
  match patterns with
  | none => .ok none
  | some patterns =>
    if patterns.isEmpty then .ok none
    else match patterns.forM gs.glob with
      | .error e => .error (toError e)
      | .ok () => match gs.build patterns with
        | .error e => .error (toError e)
        | .ok set => .ok (some set)

end Globset

/-- Glob sets of patterns without wildcards. -/
def literalGlobs : Globset := ⟨fun _ => .ok (),fun patterns => .ok fun s => patterns.contains s⟩

/-- An absent set matches every string. -/
def matchesOrEmpty (set : Option (String → Bool)) (s : String) : Bool := set.all fun g => g s

@[simp] theorem matchesOrEmpty_none (s : String) : matchesOrEmpty none s = true := rfl

@[simp] theorem matchesOrEmpty_some (g : String → Bool) (s : String) :
    matchesOrEmpty (some g) s = g s := rfl

/-- The two columns of a resolved descriptor that the registry filters on. -/
structure ResolvedDescriptor where
  sourceId : String
  kind : String
  deriving DecidableEq

structure DescriptorRegistry where
  rows : List ResolvedDescriptor

/-- `DescriptorRegistry::filter`; a pattern that does not compile fails the call. -/
def DescriptorRegistry.filter (gs : Globset) (registry : DescriptorRegistry)
    (sourceFilter kindFilter : Option (List String)) : Except String (List ResolvedDescriptor) := do
  let src ← gs.compile id sourceFilter
  let kind ← gs.compile id kindFilter
  return (registry.rows.filter fun r => matchesOrEmpty src r.sourceId).filter fun r =>
    matchesOrEmpty kind r.kind

end Percept
