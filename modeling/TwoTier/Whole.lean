/-! # Whole numbers

Whole numbers have 64 bits with a sign. Arithmetic that leaves the range has no result.
-/

namespace TwoTier.Whole

def limit : Int := 9223372036854775808

def inRange (v : Int) : Bool :=
  -limit ≤ v && v < limit

def checked (v : Int) : Option Int :=
  if inRange v then some v else none

def add? (a b : Int) : Option Int := checked (a + b)

def sub? (a b : Int) : Option Int := checked (a - b)

def mul? (a b : Int) : Option Int := checked (a * b)

end TwoTier.Whole
