/-!
Log lines: what a run tells on its way, each line with its level.
-/

namespace NixTyping

inductive Level where
  | trace | debug | warn
  deriving DecidableEq

def Level.text : Level → String
  | .trace => "trace"
  | .debug => "debug"
  | .warn => "warn"

structure LogLine where
  level : Level
  text : String
  deriving DecidableEq

namespace LogLine

def render (l : LogLine) : String := l.level.text ++ ": " ++ l.text

/-- The texts of the warnings among log lines. -/
def warnings (ls : List LogLine) : List String := (ls.filter fun l => l.level = .warn).map (·.text)

end LogLine

end NixTyping
