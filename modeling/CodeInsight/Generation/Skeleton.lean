import CodeInsight.Failure
import CodeInsight.ClassModel
import CodeInsight.Json.Render

/-!
# Class skeletons

The source of a new class, interface or trait.
-/

namespace CodeInsight.Generation

abbrev Options := List (String × Json)

def kindNamed? : Json → Option ClassKind
  | .string "class" => some .isClass
  | .string "interface" => some .isInterface
  | .string "trait" => some .isTrait
  | _ => none

/-- The kind of class that options ask for; a class unless they say something else. -/
def kindOption (options : Options) : Except Failure ClassKind :=
  match options.lookup "type" with
  | none => .ok .isClass
  | some value =>
    match kindNamed? value with
    | some kind => .ok kind
    | none => .error (.invalidOption "class" "type" value.compact)

def skeleton (name : ClassName) (kind : ClassKind) : String :=
  "<?php\n\n" ++ (if name.isGlobal then "" else "namespace " ++ name.ns ++ ";\n\n") ++
    kind.keyword ++ " " ++ name.short ++ "\n\x7b\n\x7d\n"

end CodeInsight.Generation
