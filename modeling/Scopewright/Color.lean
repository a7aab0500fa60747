import Scopewright.Text.LowerCase

/-! # Colors

The forms in which a color is written: hexadecimal digits behind `#`, a name, a reference to a
variable, and a function with its arguments (`Color.isValue`).  `Color.reference?` is the
reference being typed at the end of a text. -/

namespace Scopewright
namespace Color

/-- The names of colors. -/
def names : List Text := Text.ofStrings [
  "aliceblue", "antiquewhite", "aqua", "aquamarine", "azure", "beige", "bisque", "black",
  "blanchedalmond", "blue", "blueviolet", "brown", "burlywood", "cadetblue", "chartreuse",
  "chocolate", "coral", "cornflowerblue", "cornsilk", "crimson", "cyan", "darkblue", "darkcyan",
  "darkgoldenrod", "darkgray", "darkgreen", "darkgrey", "darkkhaki", "darkmagenta",
  "darkolivegreen", "darkorange", "darkorchid", "darkred", "darksalmon", "darkseagreen",
  "darkslateblue", "darkslategray", "darkslategrey", "darkturquoise", "darkviolet", "deeppink",
  "deepskyblue", "dimgray", "dimgrey", "dodgerblue", "firebrick", "floralwhite", "forestgreen",
  "fuchsia", "gainsboro", "ghostwhite", "gold", "goldenrod", "gray", "green", "greenyellow",
  "grey", "honeydew", "hotpink", "indianred", "indigo", "ivory", "khaki", "lavender",
  "lavenderblush", "lawngreen", "lemonchiffon", "lightblue", "lightcoral", "lightcyan",
  "lightgoldenrodyellow", "lightgray", "lightgreen", "lightgrey", "lightpink", "lightsalmon",
  "lightseagreen", "lightskyblue", "lightslategray", "lightslategrey", "lightsteelblue",
  "lightyellow", "lime", "limegreen", "linen", "magenta", "maroon", "mediumaquamarine",
  "mediumblue", "mediumorchid", "mediumpurple", "mediumseagreen", "mediumslateblue",
  "mediumspringgreen", "mediumturquoise", "mediumvioletred", "midnightblue", "mintcream",
  "mistyrose", "moccasin", "navajowhite", "navy", "oldlace", "olive", "olivedrab", "orange",
  "orangered", "orchid", "palegoldenrod", "palegreen", "paleturquoise", "palevioletred",
  "papayawhip", "peachpuff", "peru", "pink", "plum", "powderblue", "purple", "rebeccapurple",
  "red", "rosybrown", "royalblue", "saddlebrown", "salmon", "sandybrown", "seagreen", "seashell",
  "sienna", "silver", "skyblue", "slateblue", "slategray", "slategrey", "snow", "springgreen",
  "steelblue", "tan", "teal", "thistle", "tomato", "turquoise", "violet", "wheat", "white",
  "whitesmoke", "yellow", "yellowgreen", "transparent"]

/-- The functions that give a color. -/
def functions : List Text := ["color", "rgb", "rgba", "hsl", "hsla", "hwb"]

/-- A unit of the name of a variable. -/
def isNameUnit (c : CodeUnit) : Bool := c.isWord || decide (c = '-')

/-- A color by its digits. -/
def isHex (t : Text) : Bool :=
  match t with
  | [] => false
  | c :: ds =>
    decide (c = '#') && ds.all CodeUnit.isHexDigit
      && (ds.length = 3 || ds.length = 4 || ds.length = 6 || ds.length = 8)

/-- A text between `name(` and a closing parenthesis at its end. -/
def argument? (name t : Text) : Option Text :=
  let open' := name ++ ("(" : Text)
  if open'.isPrefixOf t ∧ open'.length < t.length ∧ t.getLast? = some (CodeUnit.ofBasic ')') then
    some (t.drop open'.length).dropLast
  else none

/-- A reference to a variable. -/
def isReference (t : Text) : Bool :=
  match argument? "var" t with
  | some a =>
    let name := (a.trimStart).takeWhile isNameUnit
    !name.isEmpty && ((a.trimStart).drop name.length).all CodeUnit.isBlank
  | none => false

/-- A function with its arguments. -/
def isCall (t : Text) : Bool := functions.any fun f => (argument? f t).isSome

/-- A text is the value of a color, white space at its ends aside. -/
def isValue (t : Text) : Bool :=
  let t := t.trim
  isHex t || names.contains t.toLower || isReference t || isCall t

/-- The units of a reference to a variable being typed at the end of a text: the name so far. -/
def reference? (t : Text) : Option Text :=
  let name := (t.reverse.takeWhile isNameUnit).reverse
  let before := Text.trimEnd (t.take (t.length - name.length))
  let mark : Text := "var("
  if before.reverse.take mark.length = mark.reverse then some name else none

end Color
end Scopewright
