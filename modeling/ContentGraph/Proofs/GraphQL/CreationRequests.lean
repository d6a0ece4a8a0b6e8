import ContentGraph.Proofs.GraphQL.Agreement
import ContentGraph.Proofs.GraphQL.GivenPayloads
import ContentGraph.Proofs.GraphQL.Requests

/-!
# Requests to create documents

A request that asks to create a document from the value of a variable, and for its address, is refused
where the value stands for nothing at the input type of the root. Otherwise the document is created from
what the value stands for, and its address or the failure is told (`Inquiry.Creates.serve_eq`). Where what
takes values sets a bound on their nesting, a value beyond it is refused before it is looked at
(`Inquiry.Creates.serve_of_not_takes`). The request with nothing but that can be made on the surface of every
graph (`creates_createInquiry`).
-/

namespace ContentGraph.GraphQL

/-! ### Selections of one field -/

theorem askWithin_singleton (r : Request) (values : Values) (depth : ℕ) {selection : Selection} {f : FieldCall}
    (h : selection.SelectsKey) (hf : selection.call? = some f) :
    r.askWithin values (depth + 1) [selection] = .fields [.mk f.response f.name f.arguments fun _ =>
      r.askWithin values depth selection.inner] := by
  have hkeys : SelectKeys [selection] := ⟨h, True.intro⟩
  have hc := collectAll_eq values (r.collectFragment values r.fragments.length) hkeys .empty
  rw [Request.askWithin, Request.collect, hc]
  simp only [List.foldl_cons, List.foldl_nil, Collected.addSelection, hf]
  rfl

/-- An inquiry takes a value for a variable: where there is a bound on its nesting, it keeps to it. -/
def Inquiry.Takes (i : Inquiry) (v : Json) : Prop := ∀ bound ∈ i.nesting, v.depth ≤ bound

theorem isTaken_iff {i : Inquiry} {v : Json} : isTaken i.nesting v = true ↔ i.Takes v := by
  unfold isTaken Inquiry.Takes
  cases i.nesting <;> simp

/-- Where there is no bound, every value is taken. -/
theorem Inquiry.takes_of_eq_none {i : Inquiry} (h : i.nesting = none) (v : Json) : i.Takes v := by
  intro bound hb
  rw [h] at hb
  cases hb

/-- An inquiry asks on a surface to create a document from the value of a variable, and for its
address. -/
structure Inquiry.Creates (i : Inquiry) (s : Surface) (r : Request) (o : Operation) (call key : FieldCall)
    (name : String) (doc : Json) : Prop where
  /-- The request is read. -/
  parse : Request.parse? i.text = some r
  /-- It is valid on the surface. -/
  valid : r.isValid s = true
  /-- The operation is the one that is asked for. -/
  operation : r.operation? i.operation = some o
  /-- The operation is a mutation. -/
  kind : o.kind = .mutation
  /-- The variable is the only one. -/
  parameters : o.parameters = [⟨name, .nonNull (.named rootInputName), none, []⟩]
  /-- Its value is given. -/
  given : Table.find name i.given = some doc
  /-- One field is asked for. -/
  asked : o.selections = [.branch call [.leaf key]]
  /-- It creates a document. -/
  creates : call.name = "createDocument"
  /-- The variable is what is given for it. -/
  argument : call.arguments = [⟨"doc", .variable name⟩]
  /-- The address is asked for. -/
  tells : key.name = "key"
  /-- Neither is left out. -/
  directives : call.directives = [] ∧ key.directives = []

/-! ### What is answered -/

/-- What a request to create a document is answered with. -/
def createdAnswer (call key : FieldCall) : Except Fault String → Answer
  | .ok address => .ofFields [(call.response, .ofFields [(key.response, .ofValue (.text address))])]
  | .error fault => .ofFields [(call.response, .failed (.fault fault))]

section

variable {g : Gateway} {settings : Settings} {addresses : List String} {surface : Surface} {i : Inquiry}
  {r : Request} {o : Operation} {call key : FieldCall} {name : String} {doc u : Json}

/-- What is asked for is one field, and the address below it. -/
theorem Inquiry.Creates.ask (hi : i.Creates surface r o call key name doc) (values : Values) :
    r.ask values o.selections = .fields [.mk call.response "createDocument" call.arguments fun _ =>
      .fields [.mk key.response "key" key.arguments fun _ => .fields []]] := by
  have hcall : call.name ≠ typenameField := by
    rw [hi.creates]
    decide
  have hkey : key.name ≠ typenameField := by
    rw [hi.tells]
    decide
  have hleaf : (Selection.leaf key).SelectsKey := ⟨hi.directives.2, hkey⟩
  have hbranch : (Selection.branch call [.leaf key]).SelectsKey :=
    ⟨⟨hi.directives.1, hcall⟩, hleaf, True.intro⟩
  have hsize := Request.countSelections_le_size (Request.mem_selections (Request.mem_operations hi.operation))
  rw [hi.asked] at hsize
  obtain ⟨depth, hdepth⟩ : ∃ depth, r.size = depth + 2 := Nat.exists_eq_add_of_le' hsize
  rw [Request.ask, hi.asked, askWithin_singleton r values _ hbranch rfl, Selection.inner, hdepth,
    askWithin_singleton r values _ hleaf rfl, hi.creates, hi.tells]
  rfl

/-- The variable has the value that what is given stands for, where it is taken. -/
theorem Inquiry.Creates.variableValues_eq (hi : i.Creates surface r o call key name doc) :
    variableValues? surface i.nesting i.given o.parameters =
      if isTaken i.nesting doc then
        (coerce? surface doc (.nonNull (.named rootInputName))).map (Table.insert .empty name)
      else none := by
  rw [hi.parameters, variableValues?, List.foldlM_cons]
  simp only [addVariable, hi.given, List.foldlM_nil]
  split <;> simp

/-- The request is refused, or the variable has the value that what is given stands for. -/
theorem Inquiry.Creates.check_eq (hi : i.Creates surface r o call key name doc)
    (hr : surface.hasReservedName = false) (ht : i.Takes doc) : i.check surface =
      match coerce? surface doc (.nonNull (.named rootInputName)) with
      | none => .error .checking
      | some u => .ok (.mutation, .insert .empty name u, r.ask (.insert .empty name u) o.selections) := by
  have hvalues := hi.variableValues_eq
  rw [if_pos (isTaken_iff.2 ht)] at hvalues
  rw [Inquiry.check, hr, hi.parse]
  simp only [hi.valid, hi.operation, hvalues, Bool.false_eq_true, if_false, if_true, Option.bind_some]
  cases coerce? surface doc (.nonNull (.named rootInputName)) <;> simp [hi.kind]

/-- The document is created from the value of the variable. -/
theorem Inquiry.Creates.answer (hi : i.Creates surface r o call key name doc) (hu : u ≠ .null) (w : Work) :
    answer? surface settings addresses (.insert .empty name u) .mutation
        (r.ask (.insert .empty name u) o.selections) w
      = (some (createdAnswer call key (createDocument settings u addresses surface.graph w).1),
          (createDocument settings u addresses surface.graph w).2) := by
  have hgiven : given? surface (.insert .empty name u) call.arguments "doc" (.nonNull (.named rootInputName))
      = some u := by
    rw [hi.argument]
    simp only [given?, argument?, List.reverse_singleton, List.find?_cons, decide_true, Option.map_some,
      Option.bind_some, Literal.value?, Table.get?_insert_self]
    split
    · next h => exact absurd (Option.some.inj h) hu
    · rfl
  have hcreate : "createDocument" ≠ typenameField := by decide
  rw [hi.ask]
  simp only [answer?, mutationFields, AskedField.ofMutation, Surface.creator?, if_neg hcreate, hgiven]
  cases createDocument settings u addresses surface.graph w with
  | mk outcome w =>
    cases outcome <;> rfl

/-- What comes of a request to create a document: it is refused, or the document is created from what
the given value stands for. -/
theorem Inquiry.Creates.serve_eq (hi : i.Creates surface r o call key name doc)
    (hs : Surface.build g.source settings addresses = .ok surface) (hr : surface.hasReservedName = false)
    (ht : i.Takes doc) : i.serve settings addresses (.ofGateway g) =
      match coerce? surface doc (.nonNull (.named rootInputName)) with
      | none => (.refused .checking, .ofGateway g)
      | some u =>
        let created := createDocument settings u addresses surface.graph (.ofGateway g)
        (.answered (createdAnswer call key created.1), created.2) := by
  rw [Inquiry.serve_ofGateway hs, hi.check_eq hr ht]
  cases hc : coerce? surface doc (.nonNull (.named rootInputName)) with
  | none => rfl
  | some u =>
    dsimp only
    rw [hi.answer (coerce?_nonNull_ne_null hc)]

/-- A value beyond the bound is refused, whatever it is, and nothing is created. -/
theorem Inquiry.Creates.serve_of_not_takes (hi : i.Creates surface r o call key name doc)
    (hs : Surface.build g.source settings addresses = .ok surface) (hr : surface.hasReservedName = false)
    (ht : ¬ i.Takes doc) : i.serve settings addresses (.ofGateway g) = (.refused .checking, .ofGateway g) := by
  have hvalues := hi.variableValues_eq
  rw [if_neg (mt isTaken_iff.1 ht)] at hvalues
  have hcheck : i.check surface = .error .checking := by
    rw [Inquiry.check, hr, hi.parse]
    simp only [hi.valid, hi.operation, hvalues, Bool.false_eq_true, if_false, if_true, Option.bind_some,
      Option.map_none]
  rw [Inquiry.serve_ofGateway hs, hcheck]

end

/-! ### The plain request -/

/-- The field that creates a document from a variable. -/
def createCall : FieldCall := ⟨none, "createDocument", [⟨"doc", .variable "doc"⟩], []⟩

/-- The field for its address. -/
def keyCall : FieldCall := ⟨none, "key", [], []⟩

/-- The operation that creates a document. -/
def createOperation : Operation :=
  ⟨.mutation, some "Create", [⟨"doc", .nonNull (.named rootInputName), none, []⟩], [],
    [.branch createCall [.leaf keyCall]]⟩

/-- The operation as it is written. -/
def createText : String :=
  "mutation Create($doc: CreateDocumentInput!) \x7b createDocument(doc: $doc) \x7b key \x7d \x7d"

theorem parse_createText : Request.parse? createText = some ⟨[.operation createOperation]⟩ := by rfl

/-- The inquiry that creates a document from a value, however deep it is nested. -/
def createInquiry (doc : Json) : Inquiry := ⟨createText, [("doc", doc)], none, none⟩

section

variable {graph : TypeGraph} (ht : graph.types.Titled)
include ht

/-- The object of a mutation. -/
theorem object?_mutation : (Surface.ofGraph graph).object? "Mutation"
    = some [("createSchema", creates "schema" "SchemaInput"), ("createAlias", creates "alias" "AliasInput"),
      ("createDocument", creates "doc" rootInputName)] := by
  have htype : (Surface.ofGraph graph).type? "Mutation"
      = some (mutationObject [("createDocument", creates "doc" rootInputName)]) := by
    rw [type?_fixed ht (by decide) (by decide), find_fixedTypes_basic graph (by decide)]
    simp [basicTypes, commonTypes, Table.find]
  rw [Surface.object?, htype]
  rfl

/-- The object that tells an address. -/
theorem object?_createResponse :
    (Surface.ofGraph graph).object? "CreateResponse" = some [("key", ⟨textType, []⟩)] := by
  have htype : (Surface.ofGraph graph).type? "CreateResponse" = some (.object [("key", ⟨textType, []⟩)]) := by
    rw [type?_fixed ht (by decide) (by decide), find_fixedTypes_basic graph (by decide)]
    simp [basicTypes, commonTypes, Table.find]
  rw [Surface.object?, htype]

theorem called?_createCall :
    createCall.called? (Surface.ofGraph graph) "Mutation" = some (creates "doc" rootInputName) := by
  simp [FieldCall.called?, Surface.field?, object?_mutation ht, createCall, typenameField, Table.find, creates,
    directivesFit, areDistinct, argumentsFit, Literal.hasDistinctFields, Literal.fits, InputField.isRequired,
    Option.filter]

theorem called?_keyCall : keyCall.called? (Surface.ofGraph graph) "CreateResponse" = some ⟨textType, []⟩ := by
  simp [FieldCall.called?, Surface.field?, object?_createResponse ht, keyCall, typenameField, Table.find,
    directivesFit, areDistinct, argumentsFit, Option.filter]

/-- What the operation selects is there to be selected. -/
theorem selectionsFit_createOperation (r : Request) :
    selectionsFit (Surface.ofGraph graph) r createOperation.selections "Mutation" = true := by
  have htext : (Surface.ofGraph graph).object? "String" = none := by rw [Surface.object?, type?_text ht]
  simp [createOperation, selectionsFit, Selection.fits, called?_createCall ht, called?_keyCall ht, creates,
    OutputField.hasObjects, TypeRef.name, textType, object?_createResponse ht, htext]

/-- Its variable is used once, where a payload of the root is given. -/
theorem usages_createOperation : Request.usages ⟨[.operation createOperation]⟩ (Surface.ofGraph graph)
    createOperation "Mutation" = [("doc", some (.nonNull (.named rootInputName)))] := by
  have hcall : (Surface.ofGraph graph).field? "Mutation" "createDocument" = some (creates "doc" rootInputName) := by
    simp [Surface.field?, object?_mutation ht, typenameField, Table.find]
  have hreached : Request.reached ⟨[.operation createOperation]⟩ (spreadsOf createOperation.selections) = [] := by
    exact search_eq_nil rfl
  rw [Request.usages, hreached]
  simp [createOperation, usagesOf, Selection.usages, hcall, FieldCall.usages, usagesOfDirectives, createCall,
    keyCall, creates, Literal.usages, Table.find]

theorem fits_createOperation :
    Operation.fits (Surface.ofGraph graph) ⟨[.operation createOperation]⟩ createOperation = true := by
  have hvariable : createOperation.parameters.all (Variable.fits (Surface.ofGraph graph)) = true := by
    simp [createOperation, Variable.fits, TypeRef.name, type?_input get?_named_root, documentInput, NamedType.isInput]
  have huse : usagesFit createOperation.parameters [("doc", some (.nonNull (.named rootInputName)))] = true := by
    decide
  have hkind : createOperation.kind.rootName = some "Mutation" := rfl
  rw [Operation.fits, hvariable, hkind, Option.any_some, selectionsFit_createOperation ht,
    usages_createOperation ht, huse]
  rfl

/-- The inquiry is one to create a document, on the surface of every graph. -/
theorem creates_createInquiry (doc : Json) :
    (createInquiry doc).Creates (Surface.ofGraph graph) ⟨[.operation createOperation]⟩ createOperation
      createCall keyCall "doc" doc where
  parse := parse_createText
  valid := by
    have hagree : Request.fieldsAgree ⟨[.operation createOperation]⟩ = true :=
      Request.fieldsAgree_of_distinct (by decide)
    have hsound : Request.hasSoundParts ⟨[.operation createOperation]⟩ = true := by decide
    rw [Request.isValid, hagree, hsound]
    simpa [Request.operations, Request.fragments] using fits_createOperation ht
  operation := rfl
  kind := rfl
  parameters := rfl
  given := rfl
  asked := rfl
  creates := rfl
  argument := rfl
  tells := rfl
  directives := ⟨rfl, rfl⟩

end

end ContentGraph.GraphQL
