import Aevum.Crypto
import Aevum.Node.Config

/-!
# Node.ConfigFingerprint — `NodeConfig::fingerprint`

A hash over the consensus and network parameters of a configuration.  The text of the listen
address is hashed without its length, but everything behind it has a fixed length, so the
fingerprint stands for exactly the fields it is made of (`fingerprint_eq_iff`).
-/

namespace Aevum
namespace Node

open Lib Crypto P2p

/-- A configuration with the fields that only `fingerprint` reads, and `usize` values that fit into
eight bytes. -/
structure NetworkConfig extends NodeConfig where
  minDiverseSubnets : Nat
  maxPerSubnet : Nat
  minAsnDiversity : Nat
  bootstrapMode : Bool
  mempoolMinFee : UInt64
  testnet : Bool
  sized : ∀ n ∈ [maxBlockTx, maxBlockBytes, minPeers, minDiverseSubnets, maxPerSubnet,
    minAsnDiversity], n < 2 ^ 64

namespace NetworkConfig

/-- `default()`. -/
def default : NetworkConfig :=
  { NodeConfig.default with
    minDiverseSubnets := 2
    maxPerSubnet := 3
    minAsnDiversity := 2
    bootstrapMode := false
    mempoolMinFee := 1
    testnet := false
    sized := by decide }

/-- The `usize` values that are hashed. -/
def sizes (cfg : NetworkConfig) : List Nat :=
  [cfg.maxBlockTx, cfg.maxBlockBytes, cfg.minPeers, cfg.minDiverseSubnets, cfg.maxPerSubnet,
    cfg.minAsnDiversity]

/-- The updates of eight bytes, in the order of the code. -/
def words (cfg : NetworkConfig) : List (ByteArr 8) :=
  [u64Bytes cfg.ticksPerBlock, u64Bytes cfg.blockIntervalSecs, sizeBytes cfg.maxBlockTx,
    sizeBytes cfg.maxBlockBytes, u64Bytes cfg.genesisAmount, sizeBytes cfg.minPeers,
    u64Bytes cfg.maxReorgDepth, u64Bytes cfg.mempoolMinFee, sizeBytes cfg.minDiverseSubnets,
    sizeBytes cfg.maxPerSubnet, sizeBytes cfg.minAsnDiversity]

/-- `[self.bootstrap_mode as u8]` and `[self.testnet as u8]`. -/
def flags (cfg : NetworkConfig) : List UInt8 :=
  [cfg.bootstrapMode.toUInt8, cfg.testnet.toUInt8]

section Fingerprint

-- `to_string()` of an address
variable (display : SocketAddr → String)

def fingerprintInput (cfg : NetworkConfig) : List UInt8 :=
  ascii "AEVUM_CONFIG_FINGERPRINT_V7_2" ++ (display cfg.listenAddr).toUTF8.data.toList ++
    ((u16Bytes cfg.httpPort).bytes ++ (cfg.words.flatMap ByteArr.bytes ++ cfg.flags))

def fingerprint [Blake3] (cfg : NetworkConfig) : ByteArr 32 :=
  Blake3.digest (cfg.fingerprintInput display)

/-- The fields that are hashed agree; of the listen address it is the text. -/
structure SameNetwork (cfg cfg' : NetworkConfig) : Prop where
  listenAddr : display cfg.listenAddr = display cfg'.listenAddr
  httpPort : cfg.httpPort = cfg'.httpPort
  ticksPerBlock : cfg.ticksPerBlock = cfg'.ticksPerBlock
  blockIntervalSecs : cfg.blockIntervalSecs = cfg'.blockIntervalSecs
  maxBlockTx : cfg.maxBlockTx = cfg'.maxBlockTx
  maxBlockBytes : cfg.maxBlockBytes = cfg'.maxBlockBytes
  genesisAmount : cfg.genesisAmount = cfg'.genesisAmount
  minPeers : cfg.minPeers = cfg'.minPeers
  maxReorgDepth : cfg.maxReorgDepth = cfg'.maxReorgDepth
  mempoolMinFee : cfg.mempoolMinFee = cfg'.mempoolMinFee
  minDiverseSubnets : cfg.minDiverseSubnets = cfg'.minDiverseSubnets
  maxPerSubnet : cfg.maxPerSubnet = cfg'.maxPerSubnet
  minAsnDiversity : cfg.minAsnDiversity = cfg'.minAsnDiversity
  bootstrapMode : cfg.bootstrapMode = cfg'.bootstrapMode
  testnet : cfg.testnet = cfg'.testnet

variable {display} {cfg cfg' : NetworkConfig}

theorem toUInt8_inj {b b' : Bool} (h : b.toUInt8 = b'.toUInt8) : b = b' := by
  cases b <;> cases b' <;> first | rfl | exact absurd h (by decide)

theorem fingerprintInput_inj
    (h : cfg.fingerprintInput display = cfg'.fingerprintInput display) :
    SameNetwork display cfg cfg' := by
  have htail : ((u16Bytes cfg.httpPort).bytes ++
        (cfg.words.flatMap ByteArr.bytes ++ cfg.flags)).length =
      ((u16Bytes cfg'.httpPort).bytes ++
        (cfg'.words.flatMap ByteArr.bytes ++ cfg'.flags)).length := by
    simp [words, flags, ByteArr.length_eq]
  -- the text is what stands between the label and the last 92 bytes
  rcases List.append_inj' h htail with ⟨hfront, hback⟩
  have htext := List.append_cancel_left hfront
  rcases ByteArr.append_inj hback with ⟨hport, hrest⟩
  rcases List.append_inj' hrest rfl with ⟨hwords, hflags⟩
  have hwords := ByteArr.flatMap_bytes_inj (by decide) hwords
  simp only [words, List.cons.injEq, and_true] at hwords
  rcases hwords with ⟨hticks, hinterval, htx, hbytes, hgenesis, hpeers, hreorg, hfee, hdiverse,
    hper, hasn⟩
  simp only [flags, List.cons.injEq, and_true] at hflags
  have hsize : ∀ {n m : Nat}, n ∈ cfg.sizes → m ∈ cfg'.sizes → sizeBytes n = sizeBytes m → n = m :=
    fun hn hm => sizeBytes_inj (cfg.sized _ hn) (cfg'.sized _ hm)
  exact
    { listenAddr := String.toByteArray_inj.1 (ByteArray.ext (Array.toList_inj.1 htext))
      httpPort := u16Bytes_inj hport
      ticksPerBlock := u64Bytes_inj hticks
      blockIntervalSecs := u64Bytes_inj hinterval
      maxBlockTx := hsize (by simp [sizes]) (by simp [sizes]) htx
      maxBlockBytes := hsize (by simp [sizes]) (by simp [sizes]) hbytes
      genesisAmount := u64Bytes_inj hgenesis
      minPeers := hsize (by simp [sizes]) (by simp [sizes]) hpeers
      maxReorgDepth := u64Bytes_inj hreorg
      mempoolMinFee := u64Bytes_inj hfee
      minDiverseSubnets := hsize (by simp [sizes]) (by simp [sizes]) hdiverse
      maxPerSubnet := hsize (by simp [sizes]) (by simp [sizes]) hper
      minAsnDiversity := hsize (by simp [sizes]) (by simp [sizes]) hasn
      bootstrapMode := toUInt8_inj hflags.1
      testnet := toUInt8_inj hflags.2 }

theorem SameNetwork.fingerprintInput_eq (h : SameNetwork display cfg cfg') :
    cfg.fingerprintInput display = cfg'.fingerprintInput display := by
  simp only [fingerprintInput, words, flags, h.listenAddr, h.httpPort, h.ticksPerBlock,
    h.blockIntervalSecs, h.maxBlockTx, h.maxBlockBytes, h.genesisAmount, h.minPeers,
    h.maxReorgDepth, h.mempoolMinFee, h.minDiverseSubnets, h.maxPerSubnet, h.minAsnDiversity,
    h.bootstrapMode, h.testnet]

/-- Two configurations have one fingerprint exactly when all hashed fields agree, whatever the
others are; of the listen addresses it is the texts that agree. -/
theorem fingerprint_eq_iff [Blake3] {F : Set (List UInt8)} (hF : Set.InjOn Blake3.digest F)
    (hfed : cfg.fingerprintInput display ∈ F) (hfed' : cfg'.fingerprintInput display ∈ F) :
    cfg.fingerprint display = cfg'.fingerprint display ↔ SameNetwork display cfg cfg' := by
  constructor
  · intro h
    exact fingerprintInput_inj (hF hfed hfed' h)
  · intro h
    rw [fingerprint, fingerprint, h.fingerprintInput_eq]

end Fingerprint

section Sample

attribute [local instance] polyBlake3

/-- A configuration of a test network is told from the default. -/
theorem fingerprint_eq_iff_sample :
    default.fingerprint (fun _ => "0.0.0.0:9733") ≠
      { default with testnet := true }.fingerprint (fun _ => "0.0.0.0:9733") := by
  have hinj : Set.InjOn Blake3.digest {bs | bs ∈
      [default.fingerprintInput (fun _ => "0.0.0.0:9733"),
        { default with testnet := true }.fingerprintInput (fun _ => "0.0.0.0:9733")]} :=
    injOn_of_nodup (by decide +kernel)
  intro heq
  have hsame := (fingerprint_eq_iff hinj (by simp) (by simp)).1 heq
  exact absurd hsame.testnet (by decide)

end Sample

end NetworkConfig
end Node
end Aevum
