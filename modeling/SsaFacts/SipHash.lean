/-! The keyed hash SipHash-1-3: one round for each word of the message and three at the end. -/
namespace SsaFacts.SipHash

structure State where
  v0 : UInt64
  v1 : UInt64
  v2 : UInt64
  v3 : UInt64

def rotate (x : UInt64) (n : UInt64) : UInt64 := (x <<< n) ||| (x >>> (64 - n))

def State.ofKeys (k0 k1 : UInt64) : State where
  v0 := k0 ^^^ 0x736f6d6570736575
  v1 := k1 ^^^ 0x646f72616e646f6d
  v2 := k0 ^^^ 0x6c7967656e657261
  v3 := k1 ^^^ 0x7465646279746573

def State.round (s : State) : State :=
  let v0 := s.v0 + s.v1
  let v1 := rotate s.v1 13 ^^^ v0
  let v0 := rotate v0 32
  let v2 := s.v2 + s.v3
  let v3 := rotate s.v3 16 ^^^ v2
  let v0 := v0 + v3
  let v3 := rotate v3 21 ^^^ v0
  let v2 := v2 + v1
  let v1 := rotate v1 17 ^^^ v2
  let v2 := rotate v2 32
  { v0, v1, v2, v3 }

def State.absorb (s : State) (m : UInt64) : State :=
  let s := { s with v3 := s.v3 ^^^ m }.round
  { s with v0 := s.v0 ^^^ m }

def State.finish (s : State) : UInt64 :=
  let s := { s with v2 := s.v2 ^^^ 0xff }.round.round.round
  s.v0 ^^^ s.v1 ^^^ s.v2 ^^^ s.v3

def ofBytes (bytes : List UInt8) : UInt64 :=
  bytes.foldr (fun b n => n * 256 + b.toUInt64) 0

/-- Takes in the message word by word. The last word holds the bytes that are left and, on top, the
length of the message. -/
def absorbAll (length : Nat) (s : State) : List UInt8 → State
  | b0 :: b1 :: b2 :: b3 :: b4 :: b5 :: b6 :: b7 :: rest =>
    absorbAll length (s.absorb (ofBytes [b0, b1, b2, b3, b4, b5, b6, b7])) rest
  | rest => s.absorb (ofBytes rest ||| (length.toUInt64 <<< 56))

def hash (k0 k1 : UInt64) (bytes : List UInt8) : UInt64 :=
  (absorbAll bytes.length (.ofKeys k0 k1) bytes).finish

end SsaFacts.SipHash
