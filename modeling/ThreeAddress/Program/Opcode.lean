/-! The operation codes and the classes they fall into. -/

namespace ThreeAddress

/-- What an operation does. -/
inductive Opcode where
  | add | sub | mul | div
  | eq | ne | lt | le | gt | ge
  | and | or | not
  | jmp | br | ret
  | const | id | phi
  | call | print | nop
deriving DecidableEq, Repr

namespace Opcode

def all : List Opcode :=
  [add, sub, mul, div, eq, ne, lt, le, gt, ge, and, or, not,
    jmp, br, ret, const, id, phi, call, print, nop]

/-- The name of an operation code, in listings and in programs. -/
def name : Opcode → String
  | add => "add"
  | sub => "sub"
  | mul => "mul"
  | div => "div"
  | eq => "eq"
  | ne => "ne"
  | lt => "lt"
  | le => "le"
  | gt => "gt"
  | ge => "ge"
  | and => "and"
  | or => "or"
  | not => "not"
  | jmp => "jmp"
  | br => "br"
  | ret => "ret"
  | const => "const"
  | id => "id"
  | phi => "phi"
  | call => "call"
  | print => "print"
  | nop => "nop"

def ofName? (name : String) : Option Opcode :=
  all.find? fun code => code.name == name

def isTerminator : Opcode → Bool
  | jmp | br | ret => true
  | _ => false

def isBranch : Opcode → Bool
  | jmp | br => true
  | _ => false

def isArithmetic : Opcode → Bool
  | add | sub | mul | div => true
  | _ => false

def isComparison : Opcode → Bool
  | eq | ne | lt | le | gt | ge => true
  | _ => false

def isLogic : Opcode → Bool
  | and | or | not => true
  | _ => false

/-- The operands may be given in either order. -/
def isCommutative : Opcode → Bool
  | add | mul | eq | ne | and | or => true
  | _ => false

/-- The operation only computes its destination, so it can go when the destination is dead. -/
def isPure : Opcode → Bool
  | const | id | phi => true
  | code => code.isArithmetic || code.isComparison || code.isLogic

end Opcode

end ThreeAddress
