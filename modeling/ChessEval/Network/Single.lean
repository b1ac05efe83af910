/-! Numbers of binary32 kept as their bits, which tell NaNs apart. -/
namespace ChessEval

structure Single where
  bits : UInt32
  deriving DecidableEq

namespace Single

def value (x : Single) : Float32 := Float32.ofBits x.bits

/-- The bits of a result, where `nan` stands for an invalid operation. -/
def ofResult (nan : UInt32) (x : Float32) : Single := if x.isNaN then ⟨nan⟩ else ⟨x.toBits⟩

/-- The NaN of an invalid operation. -/
def invalid : UInt32 := 0xFFC00000

def ofValue (x : Float32) : Single := ofResult invalid x

def zero : Single := ⟨0⟩

end Single

end ChessEval
