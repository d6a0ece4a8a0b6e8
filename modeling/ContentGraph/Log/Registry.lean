import ContentGraph.Table

/-!
# Levels and loggers

A level is a number, and some numbers have names. Loggers are told apart by name. Setting up
a logger sets its level; the first time, it also gets a handler of that level, which it then
keeps. A call that gives no level asks for information, and one that gives no name sets up the
logger of the function that it is made from.
-/

namespace ContentGraph.Log

/-- The names of levels. -/
def levelNames : List (String × Int) :=
  [("CRITICAL", 50), ("FATAL", 50), ("ERROR", 40), ("WARN", 30), ("WARNING", 30), ("INFO", 20),
   ("DEBUG", 10), ("NOTSET", 0)]

/-- The level that stands for an unknown one. -/
def info : Int := 20

/-- The capital of a character, as far as the names of levels ask: beside the ASCII letters
two others have an ASCII capital. -/
def capital (c : Char) : Char :=
  if c = '\u0131' then 'I' else if c = '\u017f' then 'S' else c.toUpper

/-- The level with a name, in capital or small letters. -/
def levelNamed (name : String) : Int :=
  (Table.find (String.ofList (name.toList.map capital)) levelNames).getD info

/-- A logger. -/
structure Logger where
  /-- Records below it are dropped. -/
  level : Int
  /-- The levels of its handlers, each of which drops records below its own. -/
  handlers : List Int
  deriving DecidableEq

/-- Loggers by name. -/
abbrev Registry := Table Logger

/-- The name under which a logger is kept; the outermost one has two. -/
def loggerName (name : String) : String := if name = "" then "root" else name

/-- The loggers after one is set up. -/
def Registry.setup (r : Registry) (level : Int) (name : String) : Registry :=
  let handlers := match Table.get? r name with
    | some logger => if logger.handlers = [] then [level] else logger.handlers
    | none => [level]
  Table.insert r name ⟨level, handlers⟩

/-- How a level is given. -/
inductive GivenLevel where
  /-- By its number. -/
  | number (n : Int)
  /-- By its name. -/
  | name (s : String)
  deriving DecidableEq

/-- The number of a level. -/
def GivenLevel.value : GivenLevel → Int
  | .number n => n
  | .name s => levelNamed s

/-- A call that sets up a logger. -/
structure Setup where
  /-- The level, if one is given. -/
  givenLevel : Option GivenLevel
  /-- The name of the logger, if one is given. -/
  givenName : Option String
  /-- The name of the function that the call is made from, which stands for an absent name. -/
  caller : String
  deriving DecidableEq

/-- The level of a call. -/
def Setup.level (c : Setup) : Int := (c.givenLevel.map GivenLevel.value).getD info

/-- The name under which the logger of a call is kept. -/
def Setup.name (c : Setup) : String := loggerName (c.givenName.getD c.caller)

/-- The loggers after calls. -/
def Registry.after (r : Registry) (calls : List Setup) : Registry :=
  calls.foldl (fun r c => r.setup c.level c.name) r

end ContentGraph.Log
