import ContentGraph.Log.Filling
import ContentGraph.Log.Registry

/-!
# Log records

A message is a value or a resource. Pretty printing shows a resource as its indented wire
object and a value on one line with sorted objects; otherwise both are shown as they are. The
arguments of a call fill the places of the text. A record below the threshold is dropped.
-/

namespace ContentGraph.Log

/-- What is logged. -/
inductive Message where
  /-- A value. -/
  | value (v : Json)
  /-- A resource. -/
  | resource (r : Resource)

/-- The methods of a logger. -/
inductive Method where
  | debug
  | info
  | warning
  | error
  /-- An error with the exception that is being handled. -/
  | exception
  /-- Passed on without pretty printing. -/
  | critical
  deriving DecidableEq

/-- The level of a method's records. -/
def Method.level : Method → Int
  | .debug => 10
  | .info => 20
  | .warning => 30
  | .error => 40
  | .exception => 40
  | .critical => 50

/-- The name of a method's level. -/
def Method.levelName : Method → String
  | .debug => "DEBUG"
  | .info => "INFO"
  | .warning => "WARNING"
  | .error => "ERROR"
  | .exception => "ERROR"
  | .critical => "CRITICAL"

/-- The text of a message. -/
def Message.text (pretty : Bool) : Message → String
  | .value v => if pretty then v.sorted.display else v.plain
  | .resource r => if pretty then r.toJson.indentedText else r.display

/-- One call of a logger's method. -/
structure Call where
  /-- The method. -/
  method : Method
  /-- What is logged. -/
  message : Message
  /-- The arguments. -/
  args : List Json
  /-- Whether the message is pretty printed. -/
  pretty : Bool

/-- A record that was not dropped. -/
structure Record where
  /-- The name of its level. -/
  levelName : String
  /-- Its text. -/
  text : String
  /-- Whether it carries the exception that is being handled. -/
  withException : Bool

/-- The record of a call, where its level reaches the threshold. -/
def Call.record? (c : Call) (threshold : Int) : Option Record :=
  if c.method.level < threshold then none
  else
    let text := c.message.text (c.pretty && c.method ≠ .critical)
    some ⟨c.method.levelName, formatted text c.args, c.method = .exception⟩

end ContentGraph.Log
