import SsaFacts.Program.Basic

/-! How types, operations and values are written in a listing of a program. -/
namespace SsaFacts

def BinOp.mnemonic : BinOp → String
  | add => "Add"
  | sub => "Sub"
  | mul => "Mul"
  | udiv => "UDiv"
  | sdiv => "SDiv"
  | urem => "URem"
  | srem => "SRem"
  | shl => "Shl"
  | lshr => "LShr"
  | ashr => "AShr"
  | and => "And"
  | or => "Or"
  | xor => "Xor"

def UnaryOp.mnemonic : UnaryOp → String
  | trunc => "Trunc"
  | zext => "ZExt"
  | sext => "SExt"

def Predicate.mnemonic : Predicate → String
  | eq => "Eq"
  | ne => "Ne"
  | ugt => "Ugt"
  | uge => "Uge"
  | ult => "Ult"
  | ule => "Ule"
  | sgt => "Sgt"
  | sge => "Sge"
  | slt => "Slt"
  | sle => "Sle"

def CastOp.all : List CastOp := [trunc, zext, sext, ptrToInt, intToPtr, bitCast]

def CastOp.mnemonic : CastOp → String
  | trunc => "Trunc"
  | zext => "ZExt"
  | sext => "SExt"
  | ptrToInt => "PtrToInt"
  | intToPtr => "IntToPtr"
  | bitCast => "BitCast"

namespace Ty

def text : Ty → String
  | int bits => "i" ++ toString bits
  | ptr => "ptr"
  | void => "void"

/-- Reads a type. An integer type gives its number of bits in digits. -/
def ofText? (s : String) : Option Ty :=
  match s.toList with
  | 'i' :: digits =>
    if digits.isEmpty then none
    else do
      let n ← digits.foldlM (fun n c => if c.isDigit then some (n * 10 + (c.toNat - '0'.toNat)) else none) 0
      if n < twoPow 32 then some (int n) else none
  | _ => if s = "ptr" then some ptr else if s = "void" then some void else none

end Ty

/-- Element sizes after a star, field offsets after a plus sign. -/
def GepStep.text : GepStep → String
  | index size _ => "*" ++ toString size
  | field offset => "+" ++ toString offset

def Op.text : Op → String
  | binary op .. => op.mnemonic
  | icmp pred .. => "icmp " ++ pred.mnemonic
  | cast op _ => op.mnemonic
  | gep _ steps => "gep [" ++ " ".intercalate (steps.map GepStep.text) ++ "]"
  | select .. => "select"
  | phi _ => "phi"
  | alloca bytes => "alloca " ++ toString bytes
  | call .. => "call"
  | load _ => "load"
  | store .. => "store"

def valueText (v : ValueId) : String := "v" ++ toString v
def blockText (b : BlockId) : String := "bb" ++ toString b
def functionText (f : FuncId) : String := "fn" ++ toString f

def Kind.text : Kind → String
  | const c => "const " ++ toString c
  | null => "null"
  | global name _ => "global " ++ name
  | function f => "function " ++ functionText f
  | param f index => "param " ++ functionText f ++ " " ++ toString index
  | inst b op => "inst " ++ blockText b ++ " " ++ op.text

end SsaFacts
