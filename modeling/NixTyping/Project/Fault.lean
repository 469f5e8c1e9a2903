import NixTyping.Infer
/-!
Why a check of files stops.
-/

namespace NixTyping

inductive Fault where
  | unreadable (path : String)
  | badConfig (path : String)
  | badText (path : String)
  | untyped (declaration : DeclFailure)

namespace Fault

def message : Fault → String
  | .unreadable path => "failed to read " ++ path
  | .badConfig path => "invalid config " ++ path
  | .badText path => "failed to parse " ++ path
  | .untyped d => "cannot infer a type for `" ++ d.name ++ "`"

/-- The code under which a fault is reported. -/
def code : Fault → String
  | .unreadable _ => "nixty::io"
  | .badConfig _ => "nixty::config"
  | .badText _ => "nixty::parse"
  | .untyped _ => "nixty::infer"

end Fault

end NixTyping
