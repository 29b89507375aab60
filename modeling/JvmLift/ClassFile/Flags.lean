/-!
Access flags, kept as the bits of the class file. A few bits mean different things on classes,
fields and methods.
-/
namespace JvmLift

structure Flags where
  bits : UInt16
  deriving DecidableEq, Repr, Inhabited

namespace Flags

def has (flags : Flags) (mask : UInt16) : Bool := flags.bits &&& mask == mask

def isPublic (f : Flags) : Bool := f.has 0x0001
def isPrivate (f : Flags) : Bool := f.has 0x0002
def isProtected (f : Flags) : Bool := f.has 0x0004
def isStatic (f : Flags) : Bool := f.has 0x0008
def isFinal (f : Flags) : Bool := f.has 0x0010
def isSynchronized (f : Flags) : Bool := f.has 0x0020
def isVolatile (f : Flags) : Bool := f.has 0x0040
def isBridge (f : Flags) : Bool := f.has 0x0040
def isTransient (f : Flags) : Bool := f.has 0x0080
def isVarargs (f : Flags) : Bool := f.has 0x0080
def isNative (f : Flags) : Bool := f.has 0x0100
def isInterface (f : Flags) : Bool := f.has 0x0200
def isAbstract (f : Flags) : Bool := f.has 0x0400
def isSynthetic (f : Flags) : Bool := f.has 0x1000
def isAnnotationType (f : Flags) : Bool := f.has 0x2000
def isEnum (f : Flags) : Bool := f.has 0x4000
def isModule (f : Flags) : Bool := f.has 0x8000

def ofMemberClass (bits : UInt16) : Flags := ⟨bits &&& 0x761F⟩

end Flags

end JvmLift
