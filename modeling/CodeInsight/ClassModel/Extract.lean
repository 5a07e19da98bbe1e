import CodeInsight.Text.Blank
import CodeInsight.Grammar.Parse
import CodeInsight.ClassModel

/-!
# Models of parsed files

`FileModel.ofProgram` reads the model of a file off its parse tree. Declarations are looked for at
the top level and directly within namespaces. Enumerations are not modelled. Of several declarations
of one name, be it of a class, a method or a property, the last one counts and keeps its place in
the order.
-/

namespace CodeInsight

open Grammar

namespace Extract

/-! ## Texts of declarations -/

/-- The source of a type with every run of blanks made one space. -/
def hintText (text : Text) (span : Span) : String :=
  String.ofList (Text.collapse (Text.slice text span.start span.stop))

/-- The source of a default value without its `=`. -/
def defaultText (text : Text) (span : Span) : String :=
  String.ofList
    (Text.trim ((Text.trim (Text.slice text span.start span.stop)).dropWhile (· == '=')))

def bareName (name : String) : String :=
  match name.toList with
  | '$' :: rest => String.ofList rest
  | _ => name

/-- The visibility that a modifier gives. Those that restrict writing only give none. -/
def visibilityOf? : Modifier → Option Visibility
  | .isPublic => some .isPublic
  | .isProtected => some .isProtected
  | .isPrivate => some .isPrivate
  | _ => none

/-- The first visibility among modifiers; members are public by default. -/
def visibility (modifiers : List Modifier) : Visibility :=
  (modifiers.findSome? visibilityOf?).getD .isPublic

def parameter (text : Text) (p : Param) : ParameterModel :=
  { name := bareName p.name
    declaredType := p.hint.map (hintText text)
    defaultValue := p.initial.map (defaultText text)
    isVariadic := p.variadic
    isReference := p.byReference }

/-! ## The last declaration counts -/

/-- Adds a declaration at the end and removes those that have its name. -/
def declare {α β : Type} [DecidableEq β] (name : α → β) (declared : List α) (a : α) : List α :=
  declared.filter (fun b => name b ≠ name a) ++ [a]

/-- The last declaration of every name, in the order of those declarations. -/
def lastDeclarations {α β : Type} [DecidableEq β] (name : α → β) (all : List α) : List α :=
  all.foldl (declare name) []

/-! ## Assignments to properties -/

/-- The property that a statement assigns through `$this`, with the assigned value. -/
def assignment? : Expr → Option (String × Expr)
  | .assign _ (.fetch _ false (.variable _ object) (.name _ property)) value =>
    if object = "$this" then some (property, value) else none
  | _ => none

mutual

/-- Assignments to properties in a statement, in source order. Nested blocks, branches, `foreach`
loops and exception handlers are searched. -/
def assignments : Stmt → List (String × Expr)
  | .expression _ e => (assignment? e).toList
  | .block _ body => assignmentsIn body
  | .branch _ _ yes no => assignmentsIn yes ++ assignmentsIn no
  | .foreach _ _ _ _ _ body => assignmentsIn body
  | .attempt _ body handlers cleanup =>
    assignmentsIn body ++ assignmentsIn handlers ++ assignmentsIn cleanup
  | .handler _ _ _ _ body => assignmentsIn body
  | _ => []

def assignmentsIn : List Stmt → List (String × Expr)
  | [] => []
  | s :: rest => assignments s ++ assignmentsIn rest

end

/-- The type that a property needs in order to hold a value: the type of the parameter assigned, or
the class created. -/
def assignedType (parameters : List ParameterModel) : Expr → Option String
  | .variable _ name =>
    (parameters.find? fun p => p.name = bareName name ∧ p.isVariadic = false).bind
      ParameterModel.declaredType
  | .new _ (.name _ created) _ => some created
  | .group _ inner => assignedType parameters inner
  | _ => none

/-- Records an assigned property unless one of that name is recorded. -/
def recordAssignment (parameters : List ParameterModel) (known : List PropertyModel)
    (found : String × Expr) : List PropertyModel :=
  if known.any fun p => p.name = found.1 then known
  else known ++ [{ name := found.1, visibility := .isPrivate,
                   declaredType := assignedType parameters found.2,
                   isStatic := false, isAbstract := false }]

/-! ## Members -/

structure Members where
  methods : List MethodModel := []
  properties : List PropertyModel := []
  assigned : List PropertyModel := []
  traits : List ClassName := []

def promoted (text : Text) (params : List Param) : List PropertyModel :=
  (params.filter fun p => !p.modifiers.isEmpty || p.hooked).map fun p =>
    { name := bareName p.name
      visibility := visibility p.modifiers
      declaredType := p.hint.map (hintText text)
      isStatic := false
      isAbstract := false }

def declaredProperties (text : Text) (kind : ClassKind) : Member → List PropertyModel
  | .method _ _ name params _ _ _ =>
    if name.text.toLower = "__construct" then promoted text params else []
  | .property _ modifiers hint names =>
    names.map fun n =>
      { name := bareName n.text
        visibility := visibility modifiers
        declaredType := hint.map (hintText text)
        isStatic := modifiers.contains .isStatic
        isAbstract := kind = .isInterface || modifiers.contains .isAbstract }
  | _ => []

def declaredMethod? (text : Text) (kind : ClassKind) : Member → Option MethodModel
  | .method _ modifiers name params returns _ _ =>
    some
      { name := name.text
        visibility := visibility modifiers
        parameters := params.map (parameter text)
        returnType := returns.map (hintText text)
        isAbstract := kind = .isInterface || modifiers.contains .isAbstract
        isStatic := modifiers.contains .isStatic }
  | _ => none

/-- The properties assigned after a member, given those assigned before it. -/
def assignedAfter (text : Text) (known : List PropertyModel) : Member → List PropertyModel
  | .method _ _ _ params _ _ body =>
    (assignmentsIn body).foldl (recordAssignment (params.map (parameter text))) known
  | _ => known

def usedTraits (ns : Option String) (imports : Imports) : Member → List ClassName
  | .traitUse _ names => names.map fun n => resolveName n.text imports ns
  | _ => []

/-- Methods, properties, assigned properties and traits of a list of members. -/
def members (text : Text) (kind : ClassKind) (ns : Option String) (imports : Imports)
    (all : List Member) : Members :=
  { methods := lastDeclarations MethodModel.name (all.filterMap (declaredMethod? text kind))
    properties := lastDeclarations PropertyModel.name (all.flatMap (declaredProperties text kind))
    assigned := all.foldl (assignedAfter text) []
    traits := all.flatMap (usedTraits ns imports) }

/-! ## Class-like declarations -/

/-- The model of a class-like declaration. Every interface that an interface extends is a contract
and none is a parent. -/
def classModel? (text : Text) (ns : Option String) (imports : Imports) (head : ClassHead)
    (all : List Member) : Option ClassModel :=
  let resolve (n : Name) := resolveName n.text imports ns
  let name : ClassName := ⟨ns.getD "", head.name.text⟩
  match head.form with
  | .isClass =>
    let found := members text .isClass ns imports all
    some
      { name, kind := .isClass, parent := head.bases.head?.map resolve
        implemented := head.implements.map resolve, traits := found.traits
        methods := found.methods, properties := found.properties, assigned := found.assigned
        imports, isAbstract := head.modifiers.contains .isAbstract
        nameSpan := head.name.span, body := head.braces }
  | .isInterface =>
    let found := members text .isInterface ns imports all
    some
      { name, kind := .isInterface, parent := none, implemented := head.bases.map resolve
        traits := [], methods := found.methods, properties := found.properties, assigned := []
        imports, isAbstract := true, nameSpan := head.name.span, body := head.braces }
  | .isTrait =>
    let found := members text .isTrait ns imports all
    some
      { name, kind := .isTrait, parent := none, implemented := [], traits := found.traits
        methods := found.methods, properties := found.properties, assigned := found.assigned
        imports, isAbstract := false, nameSpan := head.name.span, body := head.braces }
  | .isEnum => none

/-! ## Imports and namespaces -/

def importedName (item : Import) : String :=
  match item.group with
  | some group =>
    String.ofList ((group.toList.reverse.dropWhile (· == separator)).reverse) ++ "\\" ++ item.name
  | none => item.name

/-- Adds an imported class. Imports of functions and constants are of no interest. -/
def addImport (imports : Imports) (item : Import) : Imports :=
  match item.kind with
  | .ofClass =>
    let name := importedName item
    imports.insert (item.rename.getD (shortName name)) (.ofText name)
  | _ => imports

def importItems : Stmt → List Import
  | .imports _ items => items
  | _ => []

/-- The classes that the import statements among a list of statements bring in. -/
def importsOf (statements : List Stmt) : Imports :=
  (statements.flatMap importItems).foldl addImport []

def namespaceKeywordLength : Nat := 9

/-- The model of a namespace declaration. Whether it is braced, and where its statement ends, is
told by the first character after the name that is not blank. -/
def namespaceModel (text : Text) (span : Span) (name : Option Name) (body : List Stmt) :
    NamespaceModel :=
  let name := name.filter fun n => n.text ≠ ""
  let keywordEnd := span.start + namespaceKeywordLength
  let scanFrom := (name.map fun n => n.span.stop).getD keywordEnd
  let rest := Text.after text scanFrom
  let place := scanFrom + Text.size (rest.takeWhile Text.isBlank)
  let (braced, stop) := match rest.dropWhile Text.isBlank with
    | ';' :: _ => (false, place + 1)
    | _ :: _ => (true, place)
    | [] => (false, span.stop)
  { name := name.map Name.text, nameSpan := name.map Name.span, keywordEnd
    statement := ⟨span.start, stop⟩, span, braced, imports := importsOf body }

mutual

def namespaces (text : Text) : Stmt → List NamespaceModel
  | .namespaceDecl span name _ body => namespaceModel text span name body :: namespacesIn text body
  | _ => []

def namespacesIn (text : Text) : List Stmt → List NamespaceModel
  | [] => []
  | s :: rest => namespaces text s ++ namespacesIn text rest

end

mutual

/-- The class-like declarations of a statement, in source order. -/
def classes (text : Text) (ns : Option String) (imports : Imports) : Stmt → List ClassModel
  | .namespaceDecl span name _ body =>
    classesIn text (namespaceModel text span name body).name (importsOf body) body
  | .classLike _ head all => (classModel? text ns imports head all).toList
  | _ => []

def classesIn (text : Text) (ns : Option String) (imports : Imports) :
    List Stmt → List ClassModel
  | [] => []
  | s :: rest => classes text ns imports s ++ classesIn text ns imports rest

end

def isHeader : Stmt → Bool
  | .openTag _ | .declare _ _ _ => true
  | _ => false

end Extract

def FileModel.ofProgram (path : String) (text : Text) (program : List Stmt) : FileModel :=
  let imports := Extract.importsOf program
  { path
    namespaces := Extract.namespacesIn text program
    imports
    headerEnd := ((program.takeWhile Extract.isHeader).getLast?.map fun s => s.span.stop).getD 0
    classes :=
      Extract.lastDeclarations ClassModel.name (Extract.classesIn text none imports program) }

end CodeInsight
