import ScopeStack.Number
import ScopeStack.Cell

/-!
# Content hashes

The first choice of handle for a payload. Interning works with any pair of functions; the standard
pair mixes bytes one by one: those of a text, of the remainder an integer leaves modulo a prime, or
of a double. Numbers hash by kind, and doubles by their bits, so zero and negative zero have
different hashes although they are equal.
-/

namespace ScopeStack

/-- A hash for each kind of payload. -/
structure ContentHash where
  text : String → Handle
  number : Number → Handle

namespace ContentHash

/-- Mix one byte into a hash. -/
def mix (h : UInt64) (b : UInt8) : UInt64 := (h ^^^ b.toUInt64) * 0x100000001b3

/-- The hash of some bytes. The last bit is dropped. -/
def ofBytes (bytes : ByteArray) : Handle :=
  (bytes.foldl mix 0xcbf29ce484222325 >>> 1).toNat

/-- The eight bytes of a word, the lowest first. -/
def wordBytes (w : UInt64) : List UInt8 :=
  (List.range 8).map fun i => (w >>> (8 * i).toUInt64).toUInt8

/-- A prime just below the number of words. -/
def wordPrime : Int := 0xffffffffffffffc5

/-- The hash of a number. -/
def ofNumber : Number → Handle
  | .big n => ofBytes (0 :: wordBytes (UInt64.ofNat (n % wordPrime).toNat)).toByteArray
  | .double x => ofBytes (1 :: wordBytes x.toBits).toByteArray

/-- The hashes an environment uses unless told otherwise. -/
def standard : ContentHash where
  text s := ofBytes s.toUTF8
  number := ofNumber

end ContentHash

instance : Inhabited ContentHash := ⟨.standard⟩

end ScopeStack
