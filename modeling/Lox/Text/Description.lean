import Lox.Text.Position
import Lox.Text.Quoted

namespace Lox.Text.Position

-- A description on one line, without the text.
def summary (p : Position) : String :=
  "Cursor \x7b line: Line(" ++ toString p.line ++ "), offset: " ++ toString p.offset ++ " \x7d"

-- A description with one field to a line, and with the whole text.
def description (p : Position) : String :=
  "\n".intercalate
    ["Cursor \x7b",
      "    line: Line(",
      "        " ++ toString p.line ++ ",",
      "    ),",
      "    offset: " ++ toString p.offset ++ ",",
      "    source: " ++ quoted p.source ++ ",",
      "\x7d"]

end Lox.Text.Position
