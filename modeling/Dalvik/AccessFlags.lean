/-!
# Access flags

The bits of the access flags that this library looks at.
-/
namespace Dalvik.AccessFlags

def isPublic : UInt32 := 0x1
def isPrivate : UInt32 := 0x2
def isProtected : UInt32 := 0x4
def isStatic : UInt32 := 0x8
def isNative : UInt32 := 0x100

/-- The bits of which a member has at most one. -/
def visibility : UInt32 := isPublic ||| isPrivate ||| isProtected

/-- True if one of the bits of `flag` is set. -/
def has (flags flag : UInt32) : Bool := flags &&& flag != 0

end Dalvik.AccessFlags
