import WidgetStyle.Property.Registry

/-!
# WidgetStyle.Property.BaseSet — the properties of the widget toolkit

The properties that every widget knows, with their aliases and shorthands, in the order in which
they are registered.
-/

namespace WidgetStyle

/-- Single-valued properties: name, default and whether nodes inherit it. -/
def baseSingles : List (String × String × Bool) :=
  [("id", "", false), ("class", "", false), ("x", "", false), ("y", "", false),
   ("width", "", false), ("height", "", false), ("min-width", "", false),
   ("min-height", "", false), ("max-width", "", false), ("max-height", "", false),
   ("visible", "true", false), ("enabled", "true", false), ("skin", "", false),
   ("skin-color", "", false), ("gravity", "", false), ("tooltip", "", false),
   ("opacity", "1", false), ("rotation", "0", false), ("scale", "1", false),
   ("rotation-origin-point-x", "50%", false), ("rotation-origin-point-y", "50%", false),
   ("scale-origin-point-x", "50%", false), ("scale-origin-point-y", "50%", false),
   ("clip", "", false), ("blend-mode", "", false), ("tint", "", false),
   ("cursor", "arrow", true), ("color", "#000000", true), ("font-family", "sans-serif", true),
   ("font-size", "12dp", true), ("font-style", "normal", true), ("line-spacing", "0", true),
   ("text-align", "left", true), ("text-transform", "none", true),
   ("text-stroke-width", "0", true), ("text-stroke-color", "transparent", true),
   ("text-shadow-color", "transparent", true), ("text-shadow-offset", "0 0", true),
   ("selection-color", "", true), ("selection-back-color", "", true), ("hint-color", "", true),
   ("background-color", "transparent", false), ("background-position-x", "center", false),
   ("background-position-y", "center", false), ("background-size", "auto", false),
   ("foreground-color", "transparent", false), ("foreground-position-x", "center", false),
   ("foreground-position-y", "center", false), ("foreground-size", "auto", false),
   ("foreground-radius", "0", false), ("margin-top", "0", false), ("margin-right", "0", false),
   ("margin-bottom", "0", false), ("margin-left", "0", false), ("padding-top", "0", false),
   ("padding-right", "0", false), ("padding-bottom", "0", false), ("padding-left", "0", false),
   ("border-type", "inside", false), ("border-top-color", "transparent", false),
   ("border-right-color", "transparent", false), ("border-bottom-color", "transparent", false),
   ("border-left-color", "transparent", false), ("border-top-width", "0", false),
   ("border-right-width", "0", false), ("border-bottom-width", "0", false),
   ("border-left-width", "0", false), ("border-top-left-radius", "0", false),
   ("border-top-right-radius", "0", false), ("border-bottom-right-radius", "0", false),
   ("border-bottom-left-radius", "0", false), ("border-smooth", "false", false),
   ("layout-weight", "", false), ("layout-gravity", "", false), ("layout-width", "", false),
   ("layout-height", "", false), ("column-margin", "0", false), ("row-margin", "0", false),
   ("transition-property", "", false), ("transition-duration", "0s", false),
   ("transition-delay", "0s", false), ("transition-timing-function", "linear", false),
   ("animation-name", "", false), ("animation-duration", "0s", false),
   ("animation-delay", "0s", false), ("animation-timing-function", "linear", false),
   ("animation-iteration-count", "1", false), ("animation-direction", "normal", false),
   ("animation-fill-mode", "none", false), ("animation-play-state", "running", false)]

/-- Properties that hold lists: name and default.  None of them is inherited. -/
def baseLists : List (String × String) :=
  [("background-image", "none"), ("background-tint", ""), ("background-repeat", "no-repeat"),
   ("foreground-image", "none"), ("foreground-tint", ""), ("foreground-repeat", "no-repeat"),
   ("transition", ""), ("animation", "")]

/-- A property and another name for it. -/
def baseAliases : List (String × String) :=
  [("font-family", "font-name"), ("font-style", "text-style"), ("font-style", "text-decoration"),
   ("rotation", "rotate"), ("layout-gravity", "layout_gravity"), ("layout-gravity", "lg"),
   ("layout-width", "layout_width"), ("layout-width", "lw"), ("layout-height", "layout_height"),
   ("layout-height", "lh"), ("layout-weight", "layout_weight")]

/-- Shorthands over the four sides or corners of a box. -/
def baseBoxes : List (String × List String) :=
  [("margin", ["margin-top", "margin-right", "margin-bottom", "margin-left"]),
    ("padding", ["padding-top", "padding-right", "padding-bottom", "padding-left"]),
    ("border-color",
      ["border-top-color", "border-right-color",
        "border-bottom-color", "border-left-color"]),
    ("border-width",
      ["border-top-width", "border-right-width",
        "border-bottom-width", "border-left-width"]),
    ("border-radius",
      ["border-top-left-radius", "border-top-right-radius",
        "border-bottom-right-radius", "border-bottom-left-radius"])]

/-- Shorthands over a pair of properties. -/
def basePairs : List (String × List String) :=
  [("min-size", ["min-width", "min-height"]),
    ("max-size", ["max-width", "max-height"]),
    ("box-margin", ["column-margin", "row-margin"]),
    ("background-position", ["background-position-x", "background-position-y"]),
    ("foreground-position", ["foreground-position-x", "foreground-position-y"]),
    ("rotation-origin-point", ["rotation-origin-point-x", "rotation-origin-point-y"]),
    ("scale-origin-point", ["scale-origin-point-x", "scale-origin-point-y"])]

/-- The registry of the base properties. -/
def Registry.base : Registry :=
  let r := baseSingles.foldl (fun r (name, default, inherited) =>
    r.register name default inherited) Registry.empty
  let r := baseLists.foldl (fun r (name, default) => r.registerList name default false) r
  let r := baseAliases.foldl (fun r (name, newName) => r.addAlias name newName) r
  let r := baseBoxes.foldl (fun r (name, longhands) => r.addShorthand name longhands .box) r
  basePairs.foldl (fun r (name, longhands) => r.addShorthand name longhands .pair) r

end WidgetStyle
