import CodeInsight.ClassModel.Extract
import CodeInsight.Hierarchy
import CodeInsight.Scope.Forest

/-!
# The scopes of a program

`Forest.ofProgram` walks a parse tree in source order. Bodies of functions, methods, closures and
arrow functions are scopes. Variables are bound where they are introduced: parameters and `$this`
where their scope begins, assigned variables where the assignment ends, variables of a loop or an
exception handler where its body begins. The type of an assigned value is inferred from the bindings
made before it.
-/

namespace CodeInsight

open Grammar

namespace Scope

structure Setting where
  /-- Finds classes, those of the file first. -/
  lookup : Lookup
  file : FileModel
  text : Text

/-- The class whose code is walked through, if any. -/
abbrev Frame := Option ClassModel

namespace Setting

def context (s : Setting) (frame : Frame) (offset : Nat) : NameContext :=
  match frame with
  | some c => c.context
  | none => .outside (s.file.nameContext offset)

def classNamed? (s : Setting) (span : Span) : Frame :=
  s.file.classes.find? fun c => c.nameSpan = span

/-- The class that an expression names before `::` or after `new`. -/
def classReference (s : Setting) (frame : Frame) (offset : Nat) : Expr → InferredType
  | .name _ text => TypeHint.read text (s.context frame offset)
  | .classWord _ .self => TypeHint.read "self" (s.context frame offset)
  | .classWord _ .static => TypeHint.read "static" (s.context frame offset)
  | .classWord _ .parent => TypeHint.read "parent" (s.context frame offset)
  | _ => .unknown

def fetched (s : Setting) (receiver : InferredType) : Expr → InferredType
  | .name _ text => Hierarchy.fetched s.lookup receiver text
  | _ => .unknown

def called (s : Setting) (receiver : InferredType) : Expr → InferredType
  | .name _ text => Hierarchy.called s.lookup receiver text
  | _ => .unknown

/-- The type of an expression, as far as the bindings of a forest tell it. -/
def infer (s : Setting) (forest : Forest) (scope : Nat) (frame : Frame) : Expr → InferredType
  | .variable span name => forest.lookup scope name span.start
  | .new span of _ => s.classReference frame span.start of
  | .fetch _ _ object member => s.fetched (s.infer forest scope frame object) member
  | .methodCall _ object member _ => s.called (s.infer forest scope frame object) member
  | .staticCall span owner member _ => s.called (s.classReference frame span.start owner) member
  | .literal _ .string => .scalar "string"
  | .literal _ .integer => .scalar "int"
  | .literal _ .float => .scalar "float"
  | .array _ .brackets _ | .array _ .arrayWord _ => .scalar "array"
  | .group _ inner => s.infer forest scope frame inner
  | .clone _ object => s.infer forest scope frame object
  | _ => .unknown

def paramType (s : Setting) (context : NameContext) (p : Param) : InferredType :=
  if p.variadic then .scalar "array"
  else match p.hint with
    | some hint => TypeHint.read (Extract.hintText s.text hint) context
    | none => .unknown

def bindParams (s : Setting) (scope offset : Nat) (frame : Frame) (params : List Param)
    (forest : Forest) : Forest :=
  params.foldl (fun forest p =>
    forest.bind scope p.name offset (s.paramType (s.context frame offset) p)) forest

end Setting

mutual

/-- Binds every variable of an assignment target, with an unknown type. -/
def bindTarget (scope offset : Nat) : Expr → Forest → Forest
  | .variable _ name, forest => forest.bind scope name offset .unknown
  | .array _ .brackets elements, forest => bindElements scope offset elements forest
  | .array _ .listWord elements, forest => bindElements scope offset elements forest
  | _, forest => forest

def bindElements (scope offset : Nat) : List Element → Forest → Forest
  | [], forest => forest
  | e :: rest, forest => bindElements scope offset rest (bindElement scope offset e forest)

def bindElement (scope offset : Nat) : Element → Forest → Forest
  | .item value, forest => bindTarget scope offset value forest
  | .pair _ value, forest => bindTarget scope offset value forest
  | _, forest => forest

end

def bindNames (scope offset : Nat) (names : List Name) (forest : Forest) : Forest :=
  names.foldl (fun forest n => forest.bind scope n.text offset .unknown) forest

def directVariable? : Expr → Option Name
  | .variable span name => some ⟨name, span⟩
  | _ => none

/-- Binds the variables that a closure takes from the scope around it, with the types that they have
where the closure begins. -/
def bindCaptures (outer inner outside offset : Nat) (captures : List Name) (forest : Forest) :
    Forest :=
  captures.foldl (fun forest c =>
    forest.bind inner c.text offset (forest.lookup outer c.text outside)) forest

def bindThis (scope offset : Nat) (modifiers : List Modifier) (frame : Frame) (forest : Forest) :
    Forest :=
  match frame with
  | some c =>
    if modifiers.contains .isStatic then forest
    else forest.bind scope "$this" offset (.ofClass c.name)
  | none => forest

mutual

def walkExpr (s : Setting) (scope : Nat) (frame : Frame) : Expr → Forest → Forest
  | .assign span target value, forest =>
    let forest := walkExpr s scope frame value forest
    match target with
    | .variable _ name => forest.bind scope name span.stop (s.infer forest scope frame value)
    | _ => bindTarget scope span.stop target forest
  | .closure span params captures braces body, forest =>
    let inner := forest.next
    walkStmts s inner frame body
      (bindCaptures scope inner span.start braces.start captures
        (s.bindParams inner braces.start frame params (forest.nest scope .closure braces)))
  | .arrow span params body, forest =>
    let inner := forest.next
    walkExpr s inner frame body
      (s.bindParams inner span.start frame params (forest.nest scope .arrowFunction span))
  | .group _ inner, forest => walkExpr s scope frame inner forest
  | .call _ _ args, forest => walkExprs s scope frame args forest
  | .methodCall _ object _ args, forest =>
    walkExprs s scope frame args (walkExpr s scope frame object forest)
  | .staticCall _ _ _ args, forest => walkExprs s scope frame args forest
  | .new _ _ args, forest => walkExprs s scope frame args forest
  | .array _ style elements, forest =>
    match style with
    | .listWord => forest
    | _ => walkElements s scope frame elements forest
  | .fetch _ _ object _, forest => walkExpr s scope frame object forest
  | .clone _ object, forest => walkExpr s scope frame object forest
  | .operation _ _ operands, forest => walkExprs s scope frame operands forest
  | _, forest => forest

def walkExprs (s : Setting) (scope : Nat) (frame : Frame) : List Expr → Forest → Forest
  | [], forest => forest
  | e :: rest, forest => walkExprs s scope frame rest (walkExpr s scope frame e forest)

def walkElements (s : Setting) (scope : Nat) (frame : Frame) : List Element → Forest → Forest
  | [], forest => forest
  | e :: rest, forest => walkElements s scope frame rest (walkElement s scope frame e forest)

def walkElement (s : Setting) (scope : Nat) (frame : Frame) : Element → Forest → Forest
  | .item value, forest => walkExpr s scope frame value forest
  | .pair key value, forest => walkExpr s scope frame value (walkExpr s scope frame key forest)
  | .spread value, forest => walkExpr s scope frame value forest
  | .hole, forest => forest

def walkStmt (s : Setting) (scope : Nat) (frame : Frame) : Stmt → Forest → Forest
  | .namespaceDecl _ _ _ body, forest => walkStmts s scope none body forest
  | .classLike _ head members, forest =>
    let frame := match head.form with
      | .isEnum => none
      | _ => s.classNamed? head.name.span
    walkMembers s scope frame members forest
  | .function _ _ params braces body, forest =>
    let inner := forest.next
    walkStmts s inner frame body
      (s.bindParams inner braces.start frame params (forest.nest scope .function braces))
  | .expression _ value, forest => walkExpr s scope frame value forest
  | .block _ body, forest => walkStmts s scope frame body forest
  | .branch _ condition yes no, forest =>
    walkStmts s scope frame no
      (walkStmts s scope frame yes (walkExpr s scope frame condition forest))
  | .foreach _ subject key value bodyStart body, forest =>
    let forest := walkExpr s scope frame subject forest
    let forest := match key with
      | some key => bindTarget scope bodyStart key forest
      | none => forest
    walkStmts s scope frame body (bindTarget scope bodyStart value forest)
  | .loop _ _ header body footer, forest =>
    walkExprs s scope frame footer
      (walkStmts s scope frame body (walkExprs s scope frame header forest))
  | .evaluate _ _ values, forest => walkExprs s scope frame values forest
  | .attempt _ body handlers cleanup, forest =>
    walkStmts s scope frame cleanup
      (walkStmts s scope frame handlers (walkStmts s scope frame body forest))
  | .handler _ hint bound braces body, forest =>
    let forest := match bound with
      | some name =>
        forest.bind scope name.text braces.start
          (TypeHint.read (Extract.hintText s.text hint) (s.context frame braces.start))
      | none => forest
    walkStmts s scope frame body forest
  | .switch _ subject cases, forest =>
    walkStmts s scope frame cases (walkExpr s scope frame subject forest)
  | .switchCase _ _ body, forest => walkStmts s scope frame body forest
  | .globals span named, forest =>
    bindNames scope span.stop (named.filterMap directVariable?) forest
  | .statics span names _, forest => bindNames scope span.stop names forest
  | _, forest => forest

def walkStmts (s : Setting) (scope : Nat) (frame : Frame) : List Stmt → Forest → Forest
  | [], forest => forest
  | t :: rest, forest => walkStmts s scope frame rest (walkStmt s scope frame t forest)

/-- Opens the scope of a method that has a body. -/
def walkMember (s : Setting) (scope : Nat) (frame : Frame) : Member → Forest → Forest
  | .method _ modifiers _ params _ braces body, forest =>
    match braces with
    | some braces =>
      let inner := forest.next
      walkStmts s inner frame body
        (s.bindParams inner braces.start frame params
          (bindThis inner braces.start modifiers frame (forest.nest scope .method braces)))
    | none => forest
  | _, forest => forest

def walkMembers (s : Setting) (scope : Nat) (frame : Frame) : List Member → Forest → Forest
  | [], forest => forest
  | m :: rest, forest => walkMembers s scope frame rest (walkMember s scope frame m forest)

end

end Scope

def Forest.ofProgram (s : Scope.Setting) (program : List Stmt) : Forest :=
  Scope.walkStmts s Forest.fileScope none program (Forest.ofSize (Text.size s.text))

end CodeInsight
