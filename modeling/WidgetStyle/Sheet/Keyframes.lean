import WidgetStyle.Decimal
import WidgetStyle.Sheet.Block
import WidgetStyle.Source.Rule
import WidgetStyle.Timing.Bezier
import WidgetStyle.Timing.Duration
import WidgetStyle.Value.Split

/-!
# WidgetStyle.Sheet.Keyframes — keyframe sets

A keyframe set is a name and frames, each a block at an offset between 0 and 1, in ascending
order.  Writing to an offset at which a frame stands merges into that frame; two offsets closer
than the distance between 1 and the next double are the same.
-/

namespace WidgetStyle

open Text

/-- The block that holds at one point of an animation. -/
structure Keyframe where
  offset : Float
  block : Block

/-- A named set of frames. -/
structure KeyframeSet where
  name : String
  frames : List Keyframe := []
  marker : Nat := 0

namespace Keyframe

/-- Reads an offset: `from`, `to`, or a percentage from `0%` to `100%`. -/
def parseOffset? (text : String) : Option Float :=
  let text := trimmed text
  if sameLetters text "from" then some 0.0
  else if sameLetters text "to" then some 1.0
  else
    match dropEnding? ['%'] text.toList with
    | none => none
    | some number =>
      match Decimal.readFloat? (trim number) with
      | none => none
      | some percent =>
        if 0.0 ≤ percent && percent ≤ 100.0 then some (percent / 100.0) else none

/-- Whether the frame stands at an offset. -/
def standsAt (offset : Float) (frame : Keyframe) : Bool :=
  (frame.offset - offset).abs < Duration.epsilon

end Keyframe

/-! ## Finding the place of a frame -/

/-- Halving search for the last of `size` positions from `base` at which `test` holds; without
one the answer is `base`.  The positions are expected to pass the test up to some point and to
fail it from there on, but every test is followed. -/
def searchFrom (test : Nat → Bool) (base size : Nat) : Nat :=
  if size ≤ 1 then base
  else
    let half := size / 2
    searchFrom test (if test (base + half) then base + half else base) (size - half)
termination_by size
decreasing_by omega

/-- The number of leading elements that pass the test, by halving. -/
def partitionPoint {α : Type} (test : α → Bool) (xs : List α) : Nat :=
  let passes (i : Nat) : Bool := (xs[i]?).any test
  let last := searchFrom passes 0 xs.length
  if passes last then last + 1 else last

namespace KeyframeSet

/-- Replaces the first frame that stands at an offset; `none` when there is none. -/
def mergeAt? (offset : Float) (block : Block) : List Keyframe → Option (List Keyframe)
  | [] => none
  | frame :: frames =>
    if frame.standsAt offset then some ({ frame with block := frame.block.merge block } :: frames)
    else (mergeAt? offset block frames).map (frame :: ·)

/-- Adds declarations at an offset, which is kept between 0 and 1. -/
def writeAt (s : KeyframeSet) (offset : Float) (block : Block) : KeyframeSet :=
  let offset := clampUnit offset
  match mergeAt? offset block s.frames with
  | some frames => { s with frames }
  | none =>
    let place := partitionPoint (fun frame : Keyframe => frame.offset ≤ offset) s.frames
    { s with frames := s.frames.take place ++ ⟨offset, block⟩ :: s.frames.drop place }

/-- The block of a written frame. -/
def frameBlock (r : Registry) (frame : Source.Rule) : Block :=
  frame.declarations.foldl (fun b d => b.push r .zero d) {}

/-- The offsets that the heading of a written frame lists; what is no offset is left out. -/
def frameOffsets (frame : Source.Rule) : List Float :=
  (Value.splitList ',' frame.heading.toList).filterMap fun piece =>
    Keyframe.parseOffset? (String.ofList piece)

/-- A keyframe set from its written form. -/
def ofSource (r : Registry) (source : Source.Keyframes) : KeyframeSet :=
  source.frames.foldl (fun s frame =>
    (frameOffsets frame).foldl (fun s offset => s.writeAt offset (frameBlock r frame)) s)
    { name := source.name }

/-- The names of the animated properties, in the order in which they are first met. -/
def propertyNames (s : KeyframeSet) : List String :=
  ((s.frames.flatMap fun frame => frame.block.declarations).map Declaration.name).foldl
    (fun names name => if names.contains name then names else names ++ [name]) []

end KeyframeSet

end WidgetStyle
