import ImplicitCurves.Program

/-!
# Listings

The text of a program: for each chunk a heading, and a line for each instruction with its number.
-/

namespace ImplicitCurves

/-- A number with zeros in front, at least four digits wide. -/
def fourDigits (n : Nat) : String :=
  let ds := Nat.toDigits 10 n
  String.ofList (List.replicate (4 - ds.length) '0' ++ ds)

/-- The text of what is called. -/
def Callee.text : Callee → String
  | unary f => String.ofList f.command
  | logarithm => "\\log_"
  | chunk index => "chunk " ++ toString index

/-- The text of an instruction. -/
def Instruction.text : Instruction → String
  | pushConst value => "push_const " ++ String.ofList (Decimal.text value)
  | pushVar slot => "push_var " ++ toString slot
  | pushArg index => "push_arg " ++ toString index
  | add => "add"
  | sub => "sub"
  | mul => "mul"
  | div => "div"
  | pow => "pow"
  | call callee arity => "call " ++ callee.text ++ " (" ++ toString arity ++ ")"

/-- The name of the variable that an instruction pushes, as a remark. -/
def Instruction.remark (symbols : List Char) : Instruction → String
  | pushVar slot =>
    match symbols[slot]? with
    | some name => "  ; " ++ String.singleton name
    | none => ""
  | _ => ""

/-- The lines of a chunk. -/
def Chunk.lines (c : Chunk) (symbols : List Char) (index : Nat) : List String :=
  ("chunk " ++ toString index ++ " (arity " ++ toString c.arity ++ "):") ::
    c.instructions.toList.mapIdx fun pc i =>
      "  " ++ fourDigits pc ++ " " ++ i.text ++ i.remark symbols

/-- The lines of a program, with an empty line between chunks. -/
def Program.lines (p : Program) : List String :=
  (p.chunks.toList.mapIdx fun index c =>
    (if index = 0 then [] else [""]) ++ c.lines p.symbols index).flatten

/-- The text of a program, with a line feed at the end of each line. -/
def Program.text (p : Program) : String :=
  String.join (p.lines.map (· ++ "\n"))

end ImplicitCurves
