import CodeInsight.Scope.Build

/-!
# Lookups made for bindings

The type of an assigned value may depend on the members of other values, whose classes are looked up
while the scopes of a program are built. `Scope.assignedIn` lists the values that are assigned to
variables wherever the walk through a program comes by, and `Scope.Setting.receiversIn` lists the
values whose members are looked up for them.
-/

namespace CodeInsight

open Grammar

namespace Scope

mutual

/-- The values that an expression assigns to variables, inner ones first. -/
def assignedByExpr : Expr → List Expr
  | .assign _ target value =>
    assignedByExpr value ++ match target with
      | .variable _ _ => [value]
      | _ => []
  | .closure _ _ _ _ body => assignedIn body
  | .arrow _ _ body => assignedByExpr body
  | .group _ inner => assignedByExpr inner
  | .call _ _ args => assignedByExprs args
  | .methodCall _ object _ args => assignedByExpr object ++ assignedByExprs args
  | .staticCall _ _ _ args => assignedByExprs args
  | .new _ _ args => assignedByExprs args
  | .array _ style elements =>
    match style with
    | .listWord => []
    | _ => assignedByElements elements
  | .fetch _ _ object _ => assignedByExpr object
  | .clone _ object => assignedByExpr object
  | .operation _ _ operands => assignedByExprs operands
  | _ => []

def assignedByExprs : List Expr → List Expr
  | [] => []
  | e :: rest => assignedByExpr e ++ assignedByExprs rest

def assignedByElements : List Element → List Expr
  | [] => []
  | e :: rest => assignedByElement e ++ assignedByElements rest

def assignedByElement : Element → List Expr
  | .item value => assignedByExpr value
  | .pair key value => assignedByExpr key ++ assignedByExpr value
  | .spread value => assignedByExpr value
  | .hole => []

def assignedByStmt : Stmt → List Expr
  | .namespaceDecl _ _ _ body => assignedIn body
  | .classLike _ _ members => assignedByMembers members
  | .function _ _ _ _ body => assignedIn body
  | .expression _ value => assignedByExpr value
  | .block _ body => assignedIn body
  | .branch _ condition yes no => assignedByExpr condition ++ assignedIn yes ++ assignedIn no
  | .foreach _ subject _ _ _ body => assignedByExpr subject ++ assignedIn body
  | .loop _ _ header body footer =>
    assignedByExprs header ++ assignedIn body ++ assignedByExprs footer
  | .evaluate _ _ values => assignedByExprs values
  | .attempt _ body handlers cleanup =>
    assignedIn body ++ assignedIn handlers ++ assignedIn cleanup
  | .handler _ _ _ _ body => assignedIn body
  | .switch _ subject cases => assignedByExpr subject ++ assignedIn cases
  | .switchCase _ _ body => assignedIn body
  | _ => []

def assignedIn : List Stmt → List Expr
  | [] => []
  | t :: rest => assignedByStmt t ++ assignedIn rest

def assignedByMember : Member → List Expr
  | .method _ _ _ _ _ braces body =>
    match braces with
    | some _ => assignedIn body
    | none => []
  | _ => []

def assignedByMembers : List Member → List Expr
  | [] => []
  | m :: rest => assignedByMember m ++ assignedByMembers rest

end

namespace Setting

def named (receiver : InferredType) : Expr → List InferredType
  | .name _ _ => [receiver]
  | _ => []

/-- The values whose members are looked up for the type of an expression. -/
def receivers (s : Setting) (forest : Forest) (scope : Nat) (frame : Frame) :
    Expr → List InferredType
  | .fetch _ _ object member =>
    s.receivers forest scope frame object ++ named (s.infer forest scope frame object) member
  | .methodCall _ object member _ =>
    s.receivers forest scope frame object ++ named (s.infer forest scope frame object) member
  | .staticCall span owner member _ => named (s.classReference frame span.start owner) member
  | .group _ inner => s.receivers forest scope frame inner
  | .clone _ object => s.receivers forest scope frame object
  | _ => []

/-- The values whose members are looked up for the bindings of a program. An assigned value sees the
bindings that precede it, and later ones do not change what it sees, so the finished forest tells
the types along the way. -/
def receiversIn (s : Setting) (forest : Forest) (program : List Stmt) : List InferredType :=
  (assignedIn program).flatMap fun value =>
    let start := value.span.start
    s.receivers forest (forest.scopeAt start) (s.file.classAt start) value

end Setting

end Scope

end CodeInsight
