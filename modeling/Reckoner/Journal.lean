/-!
Journal records. What the library does can be followed in a journal; the records are functions of
the same inputs as the results, so that keeping a journal changes no result.
-/
namespace Reckoner

/-- How much a record matters. -/
inductive Importance where
  | trace
  | debug
  | info
  | warn
deriving DecidableEq, Repr

/-- The name of an importance. -/
def Importance.text : Importance → String
  | trace => "TRACE"
  | debug => "DEBUG"
  | info => "INFO"
  | warn => "WARN"

/-- One line of the journal: what happened, and how much it matters. -/
structure Record where
  importance : Importance
  message : String
deriving DecidableEq, Repr

end Reckoner
