import ContentGraph.Settings.Basic
import ContentGraph.Toml.Reader

/-!
# Settings from files

Settings stand in one table of a TOML file. The first file that exists and is well formed
decides; where it has no such table, and where there is no file, the settings are the default
ones.
-/

namespace ContentGraph.Settings

/-- The name of the table of the settings. -/
def tableName : String := "omgraph"

/-- What the table of a file says. -/
def ofTable (members : List (String × Toml.Value)) : Settings :=
  match Table.find tableName members with
  | some (.table section_) => recover (Toml.membersToJson section_)
  | _ => default

/-- The settings of the first well-formed file; `none` stands for a file that does not exist. -/
def ofFiles : List (Option String) → Settings
  | [] => default
  | none :: rest => ofFiles rest
  | some text :: rest =>
    match Toml.parse? text with
    | some members => ofTable members
    | none => ofFiles rest

/-- The files that are looked at: an explicit one alone, or else the one that the environment
names and the one in the working directory. -/
def candidates (explicit : Option (Option String)) (environment : Option (Option String))
    (directory : Option String) : List (Option String) :=
  match explicit with
  | some file => [file]
  | none => environment.toList ++ [directory]

end ContentGraph.Settings
