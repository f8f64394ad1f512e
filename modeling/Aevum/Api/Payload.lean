import Aevum.Api.Auth
import Mathlib.Data.Set.Function

/-!
# Api.Payload — what a signature of `auth.rs` covers

The body of a request is fed to the hasher without its length, in front of five fields of fixed
lengths.  Read from the end, the preimage has one meaning only:

* `SameRequest` : agreement in all that is signed;
* `payload_binds` : requests with one payload agree in it.
-/

namespace Aevum
namespace Api
namespace AuthServiceV2

open Lib Crypto

/-- Agreement in everything but the key and the signature. -/
structure SameRequest (req req' : SignedRequestV2) : Prop where
  body : req.body = req'.body
  timestamp : req.timestamp = req'.timestamp
  nonce : req.nonce = req'.nonce
  chainId : req.chainId = req'.chainId
  endpoint : req.endpoint = req'.endpoint
  apiVersion : req.apiVersion = req'.apiVersion

/-- The fields are taken off the end, where they stand at fixed places. -/
theorem payloadInput_inj {req req' : SignedRequestV2} (h : payloadInput req = payloadInput req') :
    SameRequest req req' := by
  rw [payloadInput, payloadInput] at h
  rcases ByteArr.append_inj_right h with ⟨h, hversion⟩
  rcases ByteArr.append_inj_right h with ⟨h, hendpoint⟩
  rcases ByteArr.append_inj_right h with ⟨h, hchain⟩
  rcases ByteArr.append_inj_right h with ⟨h, hnonce⟩
  rcases ByteArr.append_inj_right h with ⟨h, htimestamp⟩
  exact
    { body := List.append_cancel_left h
      timestamp := u64Bytes_inj htimestamp
      nonce := u64Bytes_inj hnonce
      chainId := u64Bytes_inj hchain
      endpoint := u32Bytes_inj hendpoint
      apiVersion := u16Bytes_inj hversion }

/-- A payload is the payload of one request, up to the key and the signature. -/
theorem payload_binds [Blake3] (req req' : SignedRequestV2)
    (hdigest : Set.InjOn Blake3.digest {bs | bs = payloadInput req ∨ bs = payloadInput req'})
    (h : buildPayload req = buildPayload req') : SameRequest req req' :=
  payloadInput_inj (hdigest (Or.inl rfl) (Or.inr rfl) (ByteArr.ext h))

section Sample

attribute [local instance] polyBlake3

/-- A request whose body is not empty. -/
def signedBy (b : UInt8) : SignedRequestV2 :=
  { body := [1, 2, 3]
    publicKey := sampleKey b
    signature := ByteArr.fill 64 b
    timestamp := 1000
    nonce := 7
    chainId := 1
    endpoint := 4
    apiVersion := 2 }

/-- The key is not in the payload. -/
theorem payload_binds_sample : SameRequest (signedBy 1) (signedBy 2) := by
  refine payload_binds (signedBy 1) (signedBy 2) ?_ rfl
  rintro a (rfl | rfl) b (rfl | rfl) - <;> rfl

end Sample

end AuthServiceV2
end Api
end Aevum
