namespace Transclude

inductive Style where
  | boldRed
  | boldCyan
  | yellow
  | green
  | dim
  deriving DecidableEq

namespace Style

def code : Style → String
  | .boldRed => "1;31"
  | .boldCyan => "1;36"
  | .yellow => "33"
  | .green => "32"
  | .dim => "90"

def reset : String := "\x1b[0m"

def start (style : Style) : String := "\x1b[" ++ style.code ++ "m"

/-- The text in a style, or the text alone without colors. The style is turned on again after every
reset inside the text. -/
def paint (style : Style) (color : Bool) (text : String) : String :=
  if color then style.start ++ text.replace reset (reset ++ style.start) ++ reset else text

end Style

end Transclude
