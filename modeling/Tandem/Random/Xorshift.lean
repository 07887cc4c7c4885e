import Tandem.Fault

/-!
# Random streams

A stream is a 64-bit word that three shifts mix and a multiplication scrambles on the way out. Streams
of equal words give equal draws for ever. Uniform draws lie in `[0, 1)`; normal and exponential draws
are made from uniform ones.
-/

namespace Tandem

structure RandomStream where
  word : UInt64
  deriving DecidableEq, Repr

namespace RandomStream

/-- The stream of a seed. The word 0 would stay 0 for ever, so the seed 0 stands for 1. -/
def ofSeed (seed : UInt64) : RandomStream := ⟨if seed = 0 then 1 else seed⟩

def mix (x : UInt64) : UInt64 :=
  let x := x ^^^ (x >>> 12)
  let x := x ^^^ (x <<< 25)
  x ^^^ (x >>> 27)

def factor : UInt64 := 0x2545F4914F6CDD1D

def next (stream : RandomStream) : UInt64 × RandomStream :=
  let word := mix stream.word
  (word * factor, ⟨word⟩)

def uniform (stream : RandomStream) : Float × RandomStream :=
  let (draw, stream) := stream.next
  ((draw >>> 11).toFloat * (1.0 / 9007199254740992.0), stream)

/-- One standard normal draw, made from two uniform ones. The first is turned into `(0, 1]`, where its
logarithm is finite. -/
def normal (stream : RandomStream) : Float × RandomStream :=
  let (first, stream) := stream.uniform
  let (second, stream) := stream.uniform
  let radius := Float.sqrt (-2.0 * Float.log (1.0 - first))
  (radius * Float.cos (2.0 * 3.141592653589793 * second), stream)

/-- One exponential draw of the given mean, which must be positive; nothing is drawn if it is not. -/
def exponential (mean : Float) (stream : RandomStream) : Except Crash (Float × RandomStream) :=
  if 0 < mean then
    let (draw, stream) := stream.uniform
    .ok (-mean * Float.log (1.0 - draw), stream)
  else .error .meanNotPositive

end RandomStream

end Tandem
