import Mathlib.Data.Nat.Notation

/-!
# The status of a call

`grpc::Status`: a code, which is `0` if the call went well, and a message.
-/

set_option autoImplicit false

namespace Cppkg
namespace Egrpc

structure Status where
  errorCode : ℕ
  errorMessage : String
deriving DecidableEq

namespace Status

def ok (status : Status) : Bool := status.errorCode == 0

def OK : Status := ⟨0, ""⟩

def CANCELLED : Status := ⟨1, ""⟩

end Status
end Egrpc
end Cppkg
