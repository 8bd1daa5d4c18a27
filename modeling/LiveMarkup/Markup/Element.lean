import LiveMarkup.Text.Blank

/-!
What the name of an element decides: whether it is void, whether its content is raw text, whether it
belongs to SVG and whether it stands for a component.
-/

namespace LiveMarkup.Markup.Element
open Text

def voidNames : List String :=
  ["area", "base", "br", "col", "embed", "hr", "img", "input", "link", "meta", "param", "source", "track", "wbr"]

def isVoid (tag : String) : Bool := voidNames.any (sameIgnoringCase · tag)

/-- The elements whose content is neither escaped nor parsed. -/
def isRawText (tag : String) : Bool := tag == "script" || tag == "style"

def svgNames : List String :=
  ["svg", "animate", "animateMotion", "animateTransform", "circle", "clipPath", "defs", "desc", "ellipse",
    "feBlend", "feColorMatrix", "feComposite", "feFlood", "feGaussianBlur", "feImage", "feMerge", "feMergeNode",
    "feOffset", "filter", "foreignObject", "g", "image", "line", "linearGradient", "marker", "mask", "metadata",
    "mpath", "path", "pattern", "polygon", "polyline", "radialGradient", "rect", "set", "stop", "switch", "symbol",
    "text", "textPath", "tspan", "use", "view"]

def isSvgName (tag : String) : Bool := svgNames.contains tag

/-- A name with anything but small letters, digits and hyphens names a component, SVG's own names apart. -/
def isComponent (tag : String) : Bool :=
  !(tag.toList.all fun c => c.isLower || c.isDigit || c == '-') && !isSvgName tag

end LiveMarkup.Markup.Element
