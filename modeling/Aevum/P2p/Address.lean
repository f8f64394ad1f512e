import Aevum.Lib.Word

/-!
# P2p.Address — the addresses of `std::net`
-/

namespace Aevum
namespace P2p

open Lib

/-- `[u8; 32]`, the identity of a node. -/
abbrev NodeId := ByteArr 32

inductive IpAddr
  | v4 (octets : ByteArr 4)
  | v6 (octets : ByteArr 16)
  deriving DecidableEq

inductive SocketAddr
  | v4 (octets : ByteArr 4) (port : UInt16)
  | v6 (octets : ByteArr 16) (port : UInt16) (flowinfo scopeId : UInt32)
  deriving DecidableEq

def SocketAddr.ip : SocketAddr → IpAddr
  | .v4 octets _ => .v4 octets
  | .v6 octets _ _ _ => .v6 octets

end P2p
end Aevum
