/-!
TOML values. Of numbers with a fraction and of dates only the text is kept.
-/

namespace NixTyping.Toml

inductive Value where
  | string (s : String)
  | integer (n : Int)
  | float (text : String)
  | boolean (b : Bool)
  | datetime (text : String)
  | array (items : List Value)
  | table (entries : List (String × Value))

end NixTyping.Toml
