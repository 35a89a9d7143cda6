/-!
# Addresses

The addresses of the protocols over IP: 16 bytes, also for v4.
-/

namespace NixMark.Ip

def IPaddrlen : Nat := 16

/-- An address. `ipcmp` compares all the bytes: it is equality here. -/
abbrev IPaddr := Vector UInt8 IPaddrlen

def IPnoaddr : IPaddr := Vector.replicate IPaddrlen 0

end NixMark.Ip
