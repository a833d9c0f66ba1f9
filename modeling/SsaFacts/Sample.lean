import SsaFacts.Engine.Query
import SsaFacts.Engine.Constants
import SsaFacts.Program.Build

/-! Small programs that exercise each part of the engine, with the questions asked of them. -/
namespace SsaFacts

inductive Sample
  | allocations
  | countedLoop
  | unguardedCountedLoop
  | guardedLoop
  | phiMerge
  | twoCallers
  | assertMarker
  | loopExit
  | threadSpawn
  | addressTaken
  deriving DecidableEq, Repr

inductive Question
  | provable (label : String) (c : Clause)
  | provableOf (label : String) (pred : Predicate) (l r : Operand)
  | satisfiableOf (label : String) (pred : Predicate) (l r : Operand)
  /-- Which values are constant. -/
  | constants

namespace Sample

def all : List Sample :=
  [allocations, countedLoop, unguardedCountedLoop, guardedLoop, phiMerge, twoCallers, assertMarker,
    loopExit, threadSpawn, addressTaken]

def name : Sample → String
  | allocations => "allocations"
  | countedLoop => "counted-loop"
  | unguardedCountedLoop => "unguarded-counted-loop"
  | guardedLoop => "guarded-loop"
  | phiMerge => "phi-merge"
  | twoCallers => "two-callers"
  | assertMarker => "assert-marker"
  | loopExit => "loop-exit"
  | threadSpawn => "thread-spawn"
  | addressTaken => "address-taken"

def ofName? (name : String) : Option Sample := all.find? (·.name = name)

def i32 : Ty := .int 32

def word (n : Int) : Operand := .literal (.word n)

open Build

def param (f : FuncId) (index : Nat) : Build ValueId := do
  match (← (← program).function f).params[index]? with
  | some v => return v
  | none => throw (.unknownFunction f)

/-- Allocates 4 and then 8 bytes on the straight path, and 16 bytes in every step of a loop. -/
def buildAllocations : Build (List Question) := do
  let main ← function "main" [] .void
  let entry ← block main "entry"
  let body ← block main "body"
  let exit ← block main "exit"
  let c0 ← const i32 0
  let c1 ← const i32 1
  let c10 ← const i32 10
  let first ← append entry .ptr (.alloca 4)
  let second ← append entry .ptr (.alloca 8)
  terminate entry (.br body)
  let i ← phi body i32 [(entry, c0)]
  let inLoop ← append body .ptr (.alloca 16)
  let next ← binary body .add i c1
  phiIncoming i body next
  let more ← icmp body .ne next c10
  terminate body (.condBr more body exit)
  terminate exit (.ret none)
  setName first "first"
  setName second "second"
  setName inLoop "in_loop"
  let a ← (← program).leaf first
  let b ← (← program).leaf second
  let aEnd ← Expr.combine .add a (.ofInt wordWidth 4)
  let bEnd ← Expr.combine .add b (.ofInt wordWidth 8)
  return [
    .provable "provable(first + 4 <= second)" (← Clause.compare .sle aEnd b),
    .provable "provable(second + 8 <= first)" (← Clause.compare .sle bEnd a)]

/-- Counts from 0 to `n`, with header and latch in blocks of their own. Guarded, `n` is tested before the
loop; otherwise the body runs even if `n` is not positive. -/
def buildCountedLoop (guarded : Bool) : Build (List Question) := do
  let main ← function "main" [i32] .void
  let n ← param main 0
  let entry ← block main "entry"
  let preheader ← block main "preheader"
  let header ← block main "header"
  let latch ← block main "latch"
  let exit ← block main "exit"
  let c0 ← const i32 0
  let c1 ← const i32 1
  if guarded then
    let positive ← icmp entry .sgt n c0
    terminate entry (.condBr positive preheader exit)
  else terminate entry (.br preheader)
  terminate preheader (.br header)
  let i ← phi header i32 [(preheader, c0)]
  terminate header (.br latch)
  let next ← binary latch .add i c1
  phiIncoming i latch next
  let more ← icmp latch .ne next n
  terminate latch (.condBr more header exit)
  terminate exit (.ret none)
  setName n "n"
  setName i "i"
  return [
    .provableOf "provable(0 <= i)" .sle (word 0) (.value i),
    .provableOf "provable(i < n)" .slt (.value i) (.value n)]

/-- A loop whose signed test at the bottom gives no trip count. -/
def buildGuardedLoop : Build (List Question) := do
  let main ← function "main" [i32] .void
  let n ← param main 0
  let entry ← block main "entry"
  let header ← block main "loop"
  let exit ← block main "exit"
  let c0 ← const i32 0
  let c1 ← const i32 1
  let guard ← icmp entry .sgt n c0
  let nMinusOne ← binary entry .sub n c1
  terminate entry (.condBr guard header exit)
  let i ← phi header i32 [(entry, c0)]
  let next ← binary header .add i c1
  phiIncoming i header next
  let more ← icmp header .slt next n
  terminate header (.condBr more header exit)
  terminate exit (.ret none)
  setName n "n"
  setName i "i"
  return [
    .provableOf "provable(0 <= i)" .sle (word 0) (.value i),
    .provableOf "provable(i < n)" .slt (.value i) (.value n),
    .provableOf "provable(i < n - 1)" .slt (.value i) (.value nMinusOne)]

def buildPhiMerge : Build (List Question) := do
  let main ← function "main" [i32] .void
  let input ← param main 0
  let entry ← block main "entry"
  let neg ← block main "neg"
  let pos ← block main "pos"
  let merge ← block main "merge"
  let c0 ← const i32 0
  let c1 ← const i32 1
  let c2 ← const i32 2
  let cond ← icmp entry .slt input c0
  terminate entry (.condBr cond neg pos)
  terminate neg (.br merge)
  terminate pos (.br merge)
  let merged ← phi merge i32 [(neg, c1), (pos, c2)]
  terminate merge (.ret none)
  setName input "input"
  setName merged "phi"
  return [
    .satisfiableOf "satisfiable(phi == 1)" .eq (.value merged) (word 1),
    .satisfiableOf "satisfiable(phi == 2)" .eq (.value merged) (word 2),
    .provableOf "provable(phi == 1)" .eq (.value merged) (word 1)]

def buildTwoCallers : Build (List Question) := do
  let main ← function "main" [] .void
  let f ← function "f" [i32] i32
  let formal ← param f 0
  let c5 ← const i32 5
  let c7 ← const i32 7
  let c1 ← const i32 1
  let body ← block f "entry"
  let sum ← binary body .add formal c1
  terminate body (.ret (some sum))
  let entry ← block main "entry"
  discard (call entry i32 f [c5])
  discard (call entry i32 f [c7])
  terminate entry (.ret none)
  setName formal "x"
  setName sum "sum"
  return [
    .satisfiableOf "satisfiable(x == 5)" .eq (.value formal) (word 5),
    .satisfiableOf "satisfiable(x == 7)" .eq (.value formal) (word 7),
    .provableOf "provable(x == 5)" .eq (.value formal) (word 5)]

/-- Reads a global, and states by a marker call that it is 42. -/
def buildAssertMarker : Build (List Question) := do
  let marker ← function Routine.equalityMarker [i32, i32] .void
  let main ← function "main" [] .void
  let g ← global "g"
  let c42 ← const i32 42
  let c1 ← const i32 1
  let entry ← block main "entry"
  let var ← append entry i32 (.load g)
  discard (call entry .void marker [var, c42])
  let plusOne ← binary entry .add var c1
  terminate entry (.ret none)
  setName var "var"
  setName plusOne "plus_one"
  return [
    .provableOf "provable(var == 42)" .eq (.value var) (.value c42),
    .constants]

/-- The guarded counting loop, left through a block whose φ is the last value of the counter. -/
def buildLoopExit : Build (List Question) := do
  let main ← function "main" [i32] .void
  let n ← param main 0
  let entry ← block main "entry"
  let preheader ← block main "preheader"
  let header ← block main "header"
  let latch ← block main "latch"
  let done ← block main "done"
  let exit ← block main "exit"
  let c0 ← const i32 0
  let c1 ← const i32 1
  let positive ← icmp entry .sgt n c0
  terminate entry (.condBr positive preheader exit)
  terminate preheader (.br header)
  let i ← phi header i32 [(preheader, c0)]
  terminate header (.br latch)
  let next ← binary latch .add i c1
  phiIncoming i latch next
  let more ← icmp latch .ne next n
  terminate latch (.condBr more header done)
  let result ← phi done i32 [(latch, next)]
  terminate done (.br exit)
  terminate exit (.ret none)
  setName n "n"
  setName i "i"
  setName result "result"
  return [
    .provableOf "provable(result >= n)" .sge (.value result) (.value n),
    .provableOf "provable(result == n)" .eq (.value result) (.value n)]

def buildThreadSpawn : Build (List Question) := do
  let main ← function "main" [] .void
  let spawn ← function Routine.threadSpawn [.ptr, .ptr, .ptr, i32] i32
  let worker ← function "worker" [i32] .void
  let arg ← param worker 0
  let body ← block worker "entry"
  let doubled ← binary body .add arg arg
  terminate body (.ret none)
  let entry ← block main "entry"
  let nil ← null
  let start ← functionAddress worker
  let c9 ← const i32 9
  discard (call entry i32 spawn [nil, nil, start, c9])
  terminate entry (.ret none)
  setName arg "arg"
  setName doubled "doubled"
  return [.provableOf "provable(doubled == 18)" .eq (.value doubled) (word 18)]

/-- Stores a parameter and reads it back after two calls of a helper that only reads a global. -/
def buildAddressTaken : Build (List Question) := do
  let main ← function "main" [i32] .void
  let helper ← function "helper" [] .void
  let n ← param main 0
  let limit ← global "limit" (some 3)
  let body ← block helper "entry"
  let seen ← append body i32 (.load limit)
  terminate body (.ret none)
  let entry ← block main "entry"
  let slot ← append entry .ptr (.alloca 4)
  discard (append entry .void (.store n slot))
  discard (call entry .void helper [])
  discard (call entry .void helper [])
  let loaded ← append entry i32 (.load slot)
  terminate entry (.ret none)
  setName n "n"
  setName slot "slot"
  setName loaded "loaded"
  setName seen "seen"
  return [
    .provableOf "provable(loaded == n)" .eq (.value loaded) (.value n),
    .provableOf "provable(seen == 3)" .eq (.value seen) (word 3)]

def build : Sample → Build (List Question)
  | allocations => buildAllocations
  | countedLoop => buildCountedLoop true
  | unguardedCountedLoop => buildCountedLoop false
  | guardedLoop => buildGuardedLoop
  | phiMerge => buildPhiMerge
  | twoCallers => buildTwoCallers
  | assertMarker => buildAssertMarker
  | loopExit => buildLoopExit
  | threadSpawn => buildThreadSpawn
  | addressTaken => buildAddressTaken

def load (s : Sample) : Checked (List Question × Program) := s.build.run

end Sample
end SsaFacts
