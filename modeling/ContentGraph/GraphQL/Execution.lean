import ContentGraph.Creation
import ContentGraph.Document.FieldReading
import ContentGraph.Document.Writing
import ContentGraph.GraphQL.Answer
import ContentGraph.GraphQL.Asked
import ContentGraph.Resource.Wire

/-!
# Execution

What is asked is answered place by place. A field of a document is read by its type, and a
reference is followed to a document of which fields are asked in turn. The fields of a
mutation are carried out in order, each after the work of the one before it.
-/

namespace ContentGraph.GraphQL

/-- Where documents are read: what is stored, the types of a graph, and those that are
served, by their names. -/
structure Library where
  /-- What is stored. -/
  source : Source
  /-- The types by their identities. -/
  types : Catalogue
  /-- The types by the names under which they are served. -/
  objects : Table NodeType

/-- The served type that a node field leads to. -/
def Library.target? (l : Library) (f : Field) : Option NodeType :=
  ((f.target?.bind (Table.get? l.types)).map NodeType.name).bind l.objects.get?

/-! ### Values -/

/-- The answer for a field of an object whose fields all have texts. -/
def textField (typeName : String) (values : List (String × String)) : AskedField → String × Answer
  | .mk response name _ _ =>
    (response, .ofValue (if name = typenameField then .text typeName
      else ((Table.find name values).map .text).getD .null))

/-- The answer for an object whose fields all have texts. -/
def Asked.ofTexts (typeName : String) (values : List (String × String)) : Asked → Answer
  | .unclear => .failed .unanswerable
  | .fields fs => .ofFields (fs.map (textField typeName values))

/-- The answer for what a document holds itself. An answer has finite numbers only. -/
def contentAnswer (below : Asked) : Content → Answer
  | .string s => .ofValue (.text s)
  | .number x => if x.isFinite then .ofValue (.number x) else .failed .unanswerable
  | .file contentType uri => below.ofTexts "File" (fileFields.zip [contentType, uri])
  | .node uri => .ofValue (.text uri)

/-- The answer for an item, where documents are answered by `document`. -/
def itemAnswer (below : Asked) (document : Document → Answer) : Item → Answer
  | .value content => contentAnswer below content
  | .document d => document d

/-- The answer for what is read under a field. -/
def fieldAnswer (item : Item → Answer) : Except Failure FieldValue → Answer
  | .error f => .ofFailure f
  | .ok (.one i) => item i
  | .ok (.many is) => .ofItems (is.map item)

/-! ### Documents -/

mutual

/-- The answer for a document of a type. -/
def Asked.ofDocument (l : Library) : Asked → NodeType → Document → Answer
  | .unclear, _, _ => .failed .unanswerable
  | .fields fs, t, d => .ofFields (documentFields l fs t d)

/-- The answer for a field of a document of a type. -/
def AskedField.ofDocument (l : Library) : AskedField → NodeType → Document → Answer
  | .mk _ name _ below, t, d =>
    if name = typenameField then .ofValue (.text t.name)
    else
      match t.fields.get? name with
      | none => .ofValue .null
      | some f =>
        (fieldAnswer (itemAnswer (below ()) fun child =>
          match l.target? f with
          | some target => (below ()).ofDocument l target child
          | none => .ofValue .null) (l.source.readField d name f)).after (d.readRounds name f)

/-- The answers for fields of a document of a type. -/
def documentFields (l : Library) : List AskedField → NodeType → Document → List (String × Answer)
  | [], _, _ => []
  | f :: rest, t, d => (f.response, f.ofDocument l t d) :: documentFields l rest t d

end

/-! ### Operations -/

/-- What is given under a name, where it has a value of a type. -/
def given? (s : Surface) (values : Values) (arguments : List Argument) (name : String)
    (t : TypeRef) :
    Option Json :=
  (argument? arguments name).bind fun literal => literal.value? s values t

/-- The answer for the document at an address. -/
def documentAnswer (s : Surface) (source : Source) (below : Asked) (address : String) : Answer :=
  match source.fetchDocument address with
  | .error f => .ofFailure f
  | .ok d =>
    match s.graph with
    | none => .ofValue (Resource.document d).toJson
    | some g => below.ofDocument ⟨source, g.types, s.objects⟩ g.rootType d

/-- The answer for a field of a query. -/
def AskedField.ofQuery (s : Surface) (source : Source) (values : Values) : AskedField → Answer
  | .mk _ name arguments below =>
    if name = typenameField then .ofValue (.text "Query")
    else
      match given? s values arguments "key" (.nonNull textType) with
      | some (.text address) => (documentAnswer s source (below ()) address).after 0
      | _ => .failed .unanswerable

/-- How a field of a mutation creates something: what is given for it, and under which name. -/
structure Creator where
  /-- The name of the argument. -/
  argument : String
  /-- The type of what is given. -/
  input : String
  /-- The creation; gives an address. -/
  create : Json → Work → Except Fault String × Work

/-- What a field of a mutation creates. -/
def Surface.creator? (s : Surface) (settings : Settings) (addresses : List String) (name : String) :
    Option Creator :=
  match name with
  | "createSchema" =>
    some ⟨"schema", "SchemaInput", fun schema => Work.withGateway (createSchema settings schema)⟩
  | "createAlias" =>
    some ⟨"alias", "AliasInput", fun alias_ => Work.withGateway (createAlias settings alias_)⟩
  | "createDocument" =>
    some ⟨"doc", rootInputName, fun doc => createDocument settings doc addresses s.graph⟩
  | _ => none

/-- The answer for a field of a mutation, and the work after it. -/
def AskedField.ofMutation (s : Surface) (settings : Settings) (addresses : List String)
    (values : Values) (w : Work) : AskedField → Answer × Work
  | .mk _ name arguments below =>
    if name = typenameField then (.ofValue (.text "Mutation"), w)
    else
      match s.creator? settings addresses name with
      | none => (.ofValue .null, w)
      | some c =>
        match given? s values arguments c.argument (.nonNull (.named c.input)) with
        | none => (.failed .unanswerable, w)
        | some v =>
          match c.create v w with
          | (.ok address, w) => ((below ()).ofTexts "CreateResponse" [("key", address)], w)
          | (.error fault, w) => (.failed (.fault fault), w)

/-- The answers for fields of a mutation in order, and the work after them. -/
def mutationFields (s : Surface) (settings : Settings) (addresses : List String) (values : Values) :
    List AskedField → Work → List (String × Answer) × Work
  | [], w => ([], w)
  | f :: rest, w =>
    let (a, w) := f.ofMutation s settings addresses values w
    let (as, w) := mutationFields s settings addresses values rest w
    ((f.response, a) :: as, w)

/-- The answer for an operation, and the work after it. There is none where it is unclear
what is asked, or where operations of the kind are not served. -/
def answer? (s : Surface) (settings : Settings) (addresses : List String) (values : Values)
    (kind : OperationKind) (asked : Asked) (w : Work) : Option Answer × Work :=
  match asked, kind with
  | .fields fs, .query =>
    let a := .ofFields (fs.map fun f => (f.response, f.ofQuery s w.gateway.source values))
    (some a, w.elapse settings.version fun _ => a.rounds.getD 0)
  | .fields fs, .mutation =>
    let (as, w) := mutationFields s settings addresses values fs w
    (some (.ofFields as), w)
  | _, _ => (none, w)

end ContentGraph.GraphQL
