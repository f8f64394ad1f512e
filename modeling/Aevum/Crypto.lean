import Aevum.Lib.Word

/-!
# Crypto — hashes, keys and signatures as the rest of the code sees them

The `crypto` modules are not part of the repository.  What the modelled files use of them is:

* `Hash` and `PublicKey` : newtypes over 32 bytes;
* `Blake3.digest` : the digest of all bytes fed to one hasher (`Hasher::new`, `update`, `finalize`);
* `PublicKeys.fromBytes` : an arbitrary partial decoding of keys;
* `Signatures.verify` : an arbitrary relation between keys, messages and signatures;
* `Keypair` : a key with a private key whose signatures it verifies.
-/

namespace Aevum
namespace Crypto

open Lib

/-- `Hash([u8; 32])`. -/
abbrev Hash := ByteArr 32

/-- `Hash::zero()`. -/
def Hash.zero : Hash := ByteArr.fill 32 0

/-- A public key is known to the modelled files by its 32 bytes. -/
structure PublicKey where
  toBytes : ByteArr 32
  deriving DecidableEq

/-- A signature. -/
abbrev Signature := ByteArr 64

/-- BLAKE3, as a function of the bytes fed to a hasher. -/
class Blake3 where
  digest : List UInt8 → Hash

/-- `PublicKey::from_bytes`, which rejects byte strings that are no key. -/
class PublicKeys where
  fromBytes : ByteArr 32 → Option PublicKey

/-- `PublicKey::verify`. -/
class Signatures where
  verify : PublicKey → List UInt8 → Signature → Bool

/-- `PrivateKey::sign`. -/
class Signers where
  PrivateKey : Type
  sign : PrivateKey → List UInt8 → Signature

/-- `Keypair`; what the private key signs, the public key verifies. -/
structure Keypair [Signatures] [Signers] where
  publicKey : PublicKey
  privateKey : Signers.PrivateKey
  verify_sign : ∀ msg, Signatures.verify publicKey msg (Signers.sign privateKey msg) = true

/-! ## Instances to run the model with -/

/-- A digest for evaluation: the bytes are the digits of a number modulo `2 ^ 256`. -/
def polyDigest (bs : List UInt8) : Hash :=
  ⟨leBytes 32 (bs.foldl (fun acc b => (acc * 257 + b.toNat + 1) % 2 ^ 256) 1),
    length_leBytes 32 _⟩

@[reducible] def polyBlake3 : Blake3 := ⟨polyDigest⟩

/-- Every signature verifies. -/
@[reducible] def anySignature : Signatures := ⟨fun _ _ _ => true⟩

/-- A signature is the key with a digest of the message. -/
@[reducible] def stampSignature : Signatures :=
  ⟨fun key msg sig => sig.bytes = key.toBytes.bytes ++ (polyDigest msg).bytes⟩

/-- Whoever has the bytes of a key can sign for it. -/
@[reducible] def stampSigner : Signers :=
  ⟨ByteArr 32, fun key msg => ⟨key.bytes ++ (polyDigest msg).bytes, by
    rw [List.length_append, key.length_eq, (polyDigest msg).length_eq]⟩⟩

/-- Everybody signs with zeros. -/
@[reducible] def zeroSigner : Signers := ⟨Unit, fun _ _ => ByteArr.fill 64 0⟩

/-- Every 32 bytes are a key. -/
@[reducible] def anyKey : PublicKeys := ⟨fun bytes => some ⟨bytes⟩⟩

/-- The key of one repeated byte. -/
def sampleKey (b : UInt8) : PublicKey := ⟨ByteArr.fill 32 b⟩

end Crypto
end Aevum
