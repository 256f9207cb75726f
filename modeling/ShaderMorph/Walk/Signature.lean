-- Which arguments of a call the called function writes.
import ShaderMorph.Shader.Program

namespace ShaderMorph

/-- The built-in functions that write arguments, and which ones. -/
def builtinOutputs : List (String × List Nat) :=
  [("modf", [1]), ("frexp", [1]), ("uaddCarry", [2]), ("usubBorrow", [2]),
    ("umulExtended", [2, 3]), ("imulExtended", [2, 3])]

/-- Whether a head of a function, called with `arity` arguments, writes the
one numbered `i`. -/
def Prototype.writes (p : Prototype) (arity i : Nat) : Bool :=
  p.parameters.length == arity &&
    p.parameters[i]?.any (·.mode.writesArgument)

/-- Whether a call writes its argument numbered `i`. The heads that the
program declares decide, any of them with as many parameters as there are
arguments; the built-in functions count only for names it does not declare. -/
def writesArgument (heads : List Prototype) (callee : String) (arity i : Nat) : Bool :=
  if heads.any (·.name == callee) then
    heads.any fun p => p.name == callee && p.writes arity i
  else builtinOutputs.any fun (name, outputs) => name == callee && outputs.contains i

end ShaderMorph
