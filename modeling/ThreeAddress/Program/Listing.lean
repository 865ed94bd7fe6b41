import ThreeAddress.Program.Function

/-! The listing of a program: a text for people, which is written and never read.

```text
@main(n: int): int {
.entry:
  one: int = const 1;
  m: int = add n one;
  ret m;
}
```
-/

namespace ThreeAddress

/-- Writes each word after a separator. -/
def eachAfter (separator : String) (words : List String) : String :=
  String.join (words.map (separator ++ ·))

/-- A declared type as it follows a name. -/
def typeSuffix : Option Ty → String
  | some ty => ": " ++ ty.text
  | none => ""

/-- An operation in one line, without indentation or final semicolon. A type is written only
beside a destination.
-/
def Operation.listing (op : Operation) : String :=
  let target := match op.dest with
    | some dest => dest ++ typeSuffix op.ty ++ " = "
    | none => ""
  let value := match op.value with
    | some value => " " ++ value.text
    | none => ""
  target ++ op.opcode.name ++ value
    ++ eachAfter " @" op.funcs ++ eachAfter " " op.args ++ eachAfter " ." op.labels

/-- An instruction with its indentation and end of line. -/
def Instruction.listing : Instruction → String
  | label name => "." ++ name ++ ":\n"
  | operation op => "  " ++ op.listing ++ ";\n"

namespace Function

/-- The parameters in parentheses, or nothing when there are none. -/
def paramListing (params : List Param) : String :=
  if params.isEmpty then ""
  else "(" ++ ", ".intercalate (params.map fun p => p.name ++ typeSuffix (some p.ty)) ++ ")"

/-- A function with its signature and body. -/
def listing (f : Function) : String :=
  "@" ++ f.name ++ paramListing f.params ++ typeSuffix f.returnType ++ " \x7b\n"
    ++ String.join (f.body.map Instruction.listing) ++ "\x7d\n"

end Function

/-- The functions of a program with an empty line between any two. -/
def Program.listing (program : Program) : String :=
  "\n".intercalate (program.functions.map Function.listing)

end ThreeAddress
