/-!
# WidgetStyle.Selector.Specificity — how closely a selector fits

Specificity is a triple compared tier by tier: ids, then classes with attributes and
pseudo-classes, then tags.  Each tier is a 16-bit count that stays at its highest value once it
is reached.
-/

namespace WidgetStyle

/-- The highest count of a tier. -/
def tierLimit : Nat := 65535

/-- A count kept within its tier. -/
def saturate (n : Nat) : Nat := min n tierLimit

/-- Counts of ids, of classes with attributes and pseudo-classes, and of tags. -/
structure Specificity where
  ids : Nat
  classes : Nat
  tags : Nat
  deriving DecidableEq, Repr, Inhabited

namespace Specificity

/-- The specificity of what names nothing. -/
def zero : Specificity := ⟨0, 0, 0⟩

/-- The specificity of inline declarations. -/
def inline : Specificity := ⟨1000, 0, 0⟩

/-- Tier by tier sum, saturating. -/
def add (a b : Specificity) : Specificity :=
  ⟨saturate (a.ids + b.ids), saturate (a.classes + b.classes), saturate (a.tags + b.tags)⟩

/-- A single number: a hundred for an id, ten for a class, one for a tag. -/
def weight (s : Specificity) : Nat := s.ids * 100 + s.classes * 10 + s.tags

/-- Lexicographic comparison. -/
def compare (a b : Specificity) : Ordering :=
  (Ord.compare a.ids b.ids).then
    ((Ord.compare a.classes b.classes).then (Ord.compare a.tags b.tags))

instance : Ord Specificity := ⟨compare⟩

end Specificity

end WidgetStyle
