import ThreeAddress.Operator
import ThreeAddress.Target.Register
/-!
# Operands of the target machine

* `Address` : eight bytes of memory, relative to a register or to a symbol of the data section;
* `Operand` : a register, memory, or an immediate;
* `Operand.read`, `Operand.addressing` : the registers that an operand depends on.
-/

namespace ThreeAddress

namespace Target

/-- What an address is relative to. -/
inductive Base where
  /-- The value of a register. -/
  | register (r : Register)
  /-- The place of a symbol. -/
  | symbol (name : String)
deriving DecidableEq, Inhabited

namespace Base

/-- The register, if there is one. -/
def register? : Base → Option Register
  | register r => some r
  | symbol _ => none

/-- The written form; symbols are relative to the instruction pointer. -/
def text : Base → String
  | register r => r.text
  | symbol name => "rip+" ++ name

end Base

/-- The address of eight bytes of memory. -/
structure Address where
  base : Base
  offset : Int
deriving DecidableEq, Inhabited

namespace Address

/-- The written form. An offset of zero is left out. -/
def text (a : Address) : String :=
  let offset :=
    if a.offset = 0 then "" else (if 0 < a.offset then "+" else "") ++ integerText a.offset
  "qword ptr [" ++ a.base.text ++ offset ++ "]"

end Address

/-- An operand of an instruction. -/
inductive Operand where
  | register (r : Register)
  | memory (a : Address)
  | immediate (value : Word)
deriving DecidableEq, Inhabited

namespace Operand

/-- The place of a symbol in memory. -/
def symbol (name : String) : Operand := memory ⟨.symbol name, 0⟩

/-- Is the operand in memory? -/
def isMemory : Operand → Bool
  | memory _ => true
  | _ => false

/-- The register, if the operand is one. -/
def register? : Operand → Option Register
  | register r => some r
  | _ => none

/-- The registers that the place of the operand depends on. -/
def addressing : Operand → List Register
  | memory a => a.base.register?.toList
  | _ => []

/-- The registers that the value of the operand depends on. -/
def read : Operand → List Register
  | register r => [r]
  | o => o.addressing

/-- Does a value fit into an immediate of 32 bits? -/
def fits (value : Word) : Bool := -2147483648 ≤ value && value ≤ 2147483647

/-- The value of an immediate that needs more than 32 bits. -/
def wide? : Operand → Option Word
  | immediate value => if fits value then none else some value
  | _ => none

/-- The written form. -/
def text : Operand → String
  | register r => r.text
  | memory a => a.text
  | immediate value => wordText value

end Operand

end Target

end ThreeAddress
