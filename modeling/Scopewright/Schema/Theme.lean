import Scopewright.Schema.Basic

/-! # Schemas of color schemes and themes -/

namespace Scopewright
namespace Schema

open Node

/-- The position of a selector. -/
def selector (name : Text) (description : Option Text) : Node :=
  scalar name .scopeSelector description

/-- The global keys of a color scheme that hold colors. -/
def globalColors : List Text := Text.ofStrings [
  "foreground", "background", "accent", "caret", "block_caret", "block_caret_border",
  "block_caret_underline", "invisibles", "line_highlight", "rulers", "misspelling",
  "fold_marker", "minimap_border", "gutter", "gutter_foreground", "gutter_foreground_highlight",
  "line_diff_added", "line_diff_modified", "line_diff_deleted", "selection",
  "selection_foreground", "selection_border", "inactive_selection", "inactive_selection_border",
  "inactive_selection_foreground", "highlight", "find_highlight", "find_highlight_foreground",
  "scroll_highlight", "scroll_selected_highlight", "guide", "active_guide", "stack_guide",
  "brackets_foreground", "bracket_contents_foreground", "tags_foreground", "shadow"]

/-- The global keys of a color scheme that hold strings. -/
def globalStrings : List Text := Text.ofStrings [
  "line_diff_width", "selection_border_width", "selection_corner_radius", "shadow_width",
  "brackets_options", "bracket_contents_options", "tags_options", "block_caret_corner_style",
  "block_caret_corner_radius"]

/-- The global keys of a color scheme that hold style sheets. -/
def globalSheets : List Text := Text.ofStrings [
  "popup_css", "phantom_css", "sheet_css"]

/-- The styles of fonts in a color scheme. -/
def fontStyles : List Text := [
  "normal", "bold", "italic", "underline", "stippled_underline", "squiggly_underline", "glow"]

/-- A rule of a color scheme. -/
def colorRule : Node :=
  mapping "rule" [
    str "name" "Description of the rule",
    selector "scope" "Selector of the text the rule applies to",
    color "foreground" "Text color",
    color "background" "Background color",
    str "foreground_adjust" "Color adjusters applied to the foreground",
    color "selection_foreground" "Text color when selected",
    oneOf "font_style" fontStyles "Space-separated font styles"] none

/-- A `.sublime-color-scheme` file. -/
def colorScheme : Node :=
  mapping "color-scheme" [
    str "name" "Name of the color scheme",
    str "author" "Author of the color scheme",
    dictionary "variables" (color "variable" none) "Colors referenced with var(name)",
    mapping "globals"
      (globalColors.map (color · none) ++ globalStrings.map (str · none)
        ++ globalSheets.map fun name => scalar name .cssVariable "CSS for minihtml content")
      "Colors of the editor interface",
    list "rules" colorRule "Styles assigned to scope selectors"]
    "Color scheme"

/-- The colors of a theme. -/
def themeColors : List Text := Text.ofStrings [
  "foreground", "background", "caret", "invisibles", "lineHighlight", "selection",
  "selectionForeground", "selectionBorder", "inactiveSelection", "findHighlight",
  "findHighlightForeground", "highlight", "guide", "activeGuide", "stackGuide", "gutter",
  "gutterForeground", "misspelling", "accent", "bracketsForeground", "tagsForeground", "shadow"]

/-- The attributes of a style of a theme. -/
def themeStyle : Node :=
  mapping "settings"
    (themeColors.map (color · none) ++ [
      oneOf "fontStyle"
        ["bold", "italic", "underline", "glow", "stippled_underline", "squiggly_underline"]
        "Space-separated font styles",
      scalar "popupCss" .cssVariable "CSS for popups",
      scalar "phantomCss" .cssVariable "CSS for phantoms",
      str "bracketsOptions" none,
      str "tagsOptions" none,
      str "shadowWidth" none])
    "Style attributes"

/-- A `.tmTheme` file. -/
def theme : Node :=
  mapping "tmtheme" [
    str "name" "Name of the theme",
    str "author" none,
    str "uuid" none,
    str "comment" none,
    str "semanticClass" none,
    oneOf "colorSpaceName" ["sRGB", "GenericRGB"] none,
    list "settings"
      (mapping "rule" [
        str "name" "Description of the rule",
        selector "scope" "Selector of the text the rule applies to",
        themeStyle] none)
      "Global settings followed by scope rules"]
    "TextMate theme"

end Schema
end Scopewright
