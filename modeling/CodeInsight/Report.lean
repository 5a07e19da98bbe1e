import CodeInsight.Completion
import CodeInsight.Edit
import CodeInsight.Json.Basic

/-!
# Answers in JSON

How models, resolutions, suggestions and edits are written for other programs.
-/

namespace CodeInsight.Report

def ofNat (n : Nat) : Json := .integer n

def ofOption {α : Type} (f : α → Json) : Option α → Json
  | some a => f a
  | none => .null

def ofString? (s : Option String) : Json := ofOption .string s

def ofList {α : Type} (f : α → Json) (xs : List α) : Json := .array (xs.map f)

def ofSpan (s : Span) : Json := .object [("start", ofNat s.start), ("end", ofNat s.stop)]

def ofClassName (c : ClassName) : Json := .string c.text

def ofClassName? (c : Option ClassName) : Json := ofOption ofClassName c

def ofImports (imports : Imports) : Json :=
  .object (imports.map fun (name, c) => (name, ofClassName c))

def ofType (t : InferredType) : Json := .string t.text

/-! ## Models -/

def ofParameter (p : ParameterModel) : Json :=
  .object [("name", .string p.name), ("declared_type", ofString? p.declaredType),
    ("default_value", ofString? p.defaultValue), ("is_variadic", .bool p.isVariadic),
    ("is_reference", .bool p.isReference)]

def methodFields (m : MethodModel) : List (String × Json) :=
  [("name", .string m.name), ("visibility", .string m.visibility.keyword),
   ("parameters", ofList ofParameter m.parameters), ("return_type", ofString? m.returnType),
   ("is_abstract", .bool m.isAbstract), ("is_static", .bool m.isStatic)]

def propertyFields (p : PropertyModel) : List (String × Json) :=
  [("name", .string p.name), ("visibility", .string p.visibility.keyword),
   ("declared_type", ofString? p.declaredType), ("is_static", .bool p.isStatic),
   ("is_abstract", .bool p.isAbstract)]

def ofMethod (m : MethodModel) : Json := .object (methodFields m)

def ofProperty (p : PropertyModel) : Json := .object (propertyFields p)

def classFields (c : ClassModel) : List (String × Json) :=
  [("name", ofClassName c.name), ("kind", .string c.kind.keyword),
   ("parent", ofClassName? c.parent), ("implemented", ofList ofClassName c.implemented),
   ("traits", ofList ofClassName c.traits), ("methods", ofList ofMethod c.methods),
   ("properties", ofList ofProperty c.properties),
   ("assigned_properties", ofList ofProperty c.assigned), ("imports", ofImports c.imports),
   ("is_abstract", .bool c.isAbstract), ("name_span", ofSpan c.nameSpan), ("body", ofSpan c.body)]

def ofClass (c : ClassModel) : Json := .object (classFields c)

def ofNamespace (n : NamespaceModel) : Json :=
  .object [("name", ofString? n.name), ("name_span", ofOption ofSpan n.nameSpan),
    ("keyword_end", ofNat n.keywordEnd), ("statement", ofSpan n.statement), ("span", ofSpan n.span),
    ("braced", .bool n.braced), ("imports", ofImports n.imports)]

def ofDeclared {α : Type} (fields : α → List (String × Json)) (d : Declared α) : Json :=
  .object (("declaring_class", ofClassName d.owner) :: fields d.member)

def ofMembers (t : MemberTable) : Json :=
  .object [("methods", ofList (ofDeclared methodFields) t.methods),
    ("properties", ofList (ofDeclared propertyFields) t.properties)]

def ofExplanation (path : String) (c : ClassModel) (members : MemberTable) : Json :=
  .object (("path", .string path) :: classFields c ++ [("members", ofMembers members)])

/-! ## Resolutions -/

def scopeKind : ScopeKind → String
  | .file => "file"
  | .function => "function"
  | .method => "method"
  | .closure => "closure"
  | .arrowFunction => "arrow_function"

def ofBinding (b : Binding) : Json :=
  .object [("name", .string b.name), ("offset", ofNat b.offset), ("type", ofType b.type)]

def ofScopeSummary (s : ScopeSummary) : Json :=
  .object [("id", ofNat s.id), ("kind", .string (scopeKind s.kind)), ("range", ofSpan s.range),
    ("class", ofClassName? s.enclosing), ("bindings", ofList ofBinding s.bindings)]

def ofFetch (f : FetchSummary) : Json :=
  .object [("receiver_type", ofType f.receiver), ("partial", .string f.typed),
    ("nullsafe", .bool f.nullsafe), ("members", ofOption ofMembers f.members)]

def ofResolution (r : Resolution) : Json :=
  .object ([("offset", ofNat r.offset), ("scope", ofScopeSummary r.scope),
      ("inferred_type", ofType r.inferred)] ++
    (r.fetch.map fun f => ("fetch", ofFetch f)).toList ++
    (r.typedVariable.map fun v => ("variable_prefix", Json.string v)).toList)

/-! ## Suggestions and edits -/

def suggestionKind : SuggestionKind → String
  | .variable => "variable"
  | .method => "method"
  | .property => "property"
  | .ofClass => "class"

def ofSuggestion (s : Suggestion) : Json :=
  .object [("label", .string s.label), ("kind", .string (suggestionKind s.kind)),
    ("insert_text", .string s.insertText), ("detail", .string s.detail)]

def ofEdit (e : Edit) : Json :=
  .object [("path", .string e.path), ("target_range", ofSpan e.range),
    ("replacement_text", .string e.replacement)]

end CodeInsight.Report
