/-
TinyTcp.Net.LinkLayer — the constants and formats of
`src/net/link_layer.h`, `src/net/arp.h`, `src/net/protocol.h`,
`src/net/ipaddr.h` and `src/endiantool.h`.

Headers are packed structures, so each is the list of its bytes in the
order of the members. A `uint16_t` member lies in memory with its low byte
first (`toMem`), and `host_to_net` swaps the two bytes before it is
stored: on the wire the high byte comes first (`toMem_hostToNet`), and
`net_to_host` of what was stored is the value again
(`netToHost_ofMem`).

The build is the little-endian one of `endiantool.h`. Left out: the
`type` of an address, which has one value, and everything that is only
printed.
-/
import TinyTcp.Pkt.Buffer

namespace TinyTcp.Net

open TinyTcp.Lib TinyTcp.Pkt

/-! ## Byte order -/

def bswap16 (value : UInt16) : UInt16 :=
  ((value &&& 0xFF00) >>> 8) ||| ((value &&& 0x00FF) <<< 8)

def hostToNet (t : UInt16) : UInt16 := bswap16 t

def netToHost (t : UInt16) : UInt16 := bswap16 t

/-- The bytes of a `uint16_t` in memory. -/
def toMem (t : UInt16) : List UInt8 := [t.toUInt8, (t >>> 8).toUInt8]

/-- The `uint16_t` two bytes of memory are. -/
def ofMem (bytes : List UInt8) : UInt16 :=
  (bytes.getD 0 0).toUInt16 ||| ((bytes.getD 1 0).toUInt16 <<< 8)

/-- A value on the wire, the high byte first. -/
def wire (t : UInt16) : List UInt8 := [(t >>> 8).toUInt8, t.toUInt8]

theorem or_shiftLeft_byte {lo hi : Nat} (hlo : lo < 256) (hhi : hi < 256) :
    lo ||| hi <<< 8 % 65536 = hi * 256 + lo := by
  have hlt : hi <<< 8 < 65536 := by
    rw [Nat.shiftLeft_eq]
    omega
  rw [Nat.mod_eq_of_lt hlt, Nat.or_comm, ← Nat.shiftLeft_add_eq_or_of_lt hlo, Nat.shiftLeft_eq]

theorem bswap16_toNat (t : UInt16) : (bswap16 t).toNat = t.toNat % 256 * 256 + t.toNat / 256 := by
  have hlt : t.toNat < 65536 := t.toNat_lt
  have hhigh : (t.toNat &&& 65280) >>> 8 = t.toNat / 256 := by
    have hmask : 65280 >>> 8 = 2 ^ 8 - 1 := by decide
    rw [Nat.shiftRight_and_distrib, hmask, Nat.and_two_pow_sub_one_eq_mod, Nat.shiftRight_eq_div_pow]
    omega
  have hlow : t.toNat &&& 255 = t.toNat % 256 := Nat.and_two_pow_sub_one_eq_mod t.toNat 8
  have hor : t.toNat / 256 ||| (t.toNat % 256) <<< 8 % 65536 = t.toNat % 256 * 256 + t.toNat / 256 :=
    or_shiftLeft_byte (by omega) (by omega)
  simpa [bswap16, hlow, hhigh] using hor

theorem ofMem_toNat (lo hi : UInt8) : (ofMem [lo, hi]).toNat = hi.toNat * 256 + lo.toNat := by
  have hor := or_shiftLeft_byte lo.toNat_lt hi.toNat_lt
  simpa [ofMem] using hor

/-- `host_to_net` stores the high byte first. -/
theorem toMem_hostToNet (t : UInt16) : toMem (hostToNet t) = wire t := by
  have hswap : (hostToNet t).toNat = t.toNat % 256 * 256 + t.toNat / 256 := bswap16_toNat t
  have hlt : t.toNat < 65536 := t.toNat_lt
  have hdiv : (t.toNat % 256 * 256 + t.toNat / 256) / 256 = t.toNat % 256 := by
    rw [Nat.mul_comm, Nat.mul_add_div (by decide), Nat.div_eq_of_lt (by omega), Nat.add_zero]
  have hlow : (hostToNet t).toUInt8 = (t >>> 8).toUInt8 := by
    apply UInt8.toNat_inj.mp
    simp [hswap, Nat.shiftRight_eq_div_pow]
  have hhigh : (hostToNet t >>> 8).toUInt8 = t.toUInt8 := by
    apply UInt8.toNat_inj.mp
    simp [hswap, hdiv, Nat.shiftRight_eq_div_pow]
  rw [toMem, wire, hlow, hhigh]

/-- `net_to_host` of what lies there is the value again. -/
theorem netToHost_ofMem (t : UInt16) : netToHost (ofMem (wire t)) = t := by
  have hlt : t.toNat < 65536 := t.toNat_lt
  apply UInt16.toNat_inj.mp
  rw [netToHost, bswap16_toNat, wire, ofMem_toNat]
  simp [Nat.shiftRight_eq_div_pow]
  omega

/-! ## Addresses and constants -/

def etherMtu : Nat := 1500
def etherHwaSize : Nat := 6
def etherDataMin : Nat := 46
def ipv4AddrSize : Nat := 4

/-- A hardware address: the `ETHER_HWA_SIZE` bytes of it that are used. -/
abbrev HwAddr := { addr : List UInt8 // addr.length = etherHwaSize }

/-- An `ipaddr_t`: its `a_addr`. Two addresses are equal when their `q_addr` is. -/
abbrev IpAddr := { addr : List UInt8 // addr.length = ipv4AddrSize }

def etherBroadcastAddr : HwAddr := ⟨[0xFF, 0xFF, 0xFF, 0xFF, 0xFF, 0xFF], rfl⟩

def protocolArp : UInt16 := 0x0806
def protocolIPv4 : UInt16 := 0x0800

def arpHwEther : UInt16 := 1
def arpRequest : UInt16 := 1

/-! ## Headers -/

/-- `sizeof(ether_hdr_t)` -/
def etherHdrSize : Nat := 14

/-- The members `dest`, `src` and `protocol`. -/
def etherHdr (dest src : HwAddr) (protocol : UInt16) : List UInt8 :=
  dest.val ++ src.val ++ toMem (hostToNet protocol)

/-- Where `protocol` lies in the header. -/
def protocolOffset : Nat := 12

/-- `sizeof(arp_pkt_t)` -/
def arpPktSize : Nat := 28

/-- The ARP request for `target`, member by member. -/
def arpPkt (senderHw : HwAddr) (senderIp target : IpAddr) : List UInt8 :=
  toMem (hostToNet arpHwEther) ++ toMem (hostToNet protocolIPv4) ++
    [etherHwaSize.toUInt8, ipv4AddrSize.toUInt8] ++ toMem (hostToNet arpRequest) ++
    senderHw.val ++ senderIp.val ++ List.replicate etherHwaSize 0 ++ target.val

@[simp] theorem etherHdr_length (dest src : HwAddr) (protocol : UInt16) :
    (etherHdr dest src protocol).length = etherHdrSize := by
  simp [etherHdr, toMem, etherHdrSize, dest.property, src.property, etherHwaSize]

@[simp] theorem arpPkt_length (senderHw : HwAddr) (senderIp target : IpAddr) :
    (arpPkt senderHw senderIp target).length = arpPktSize := by
  simp [arpPkt, toMem, arpPktSize, senderHw.property, senderIp.property, target.property,
    etherHwaSize, ipv4AddrSize]

/-- On the wire: destination, source, and the protocol with its high byte first. -/
theorem etherHdr_eq (dest src : HwAddr) (protocol : UInt16) :
    etherHdr dest src protocol = dest.val ++ src.val ++ wire protocol := by
  rw [etherHdr, toMem_hostToNet]

/-- The protocol is read back from its place in the header. -/
theorem etherHdr_protocol (dest src : HwAddr) (protocol : UInt16) :
    netToHost (ofMem (slice (etherHdr dest src protocol) protocolOffset 2)) = protocol := by
  have hlen : (dest.val ++ src.val).length = protocolOffset := by
    rw [List.length_append, dest.property, src.property]
    rfl
  have hslice : slice (etherHdr dest src protocol) protocolOffset 2 = wire protocol := by
    rw [etherHdr_eq, slice, ← hlen, List.drop_left]
    rfl
  rw [hslice, netToHost_ofMem]

/-- `total_size` is an `int`, compared as a `size_t`: a capacity from
`2 ^ 31` on is too big, too. -/
def isPktOk (totalSize : Nat) : NetErr :=
  if totalSize > etherHdrSize + etherMtu then .size
  else if totalSize < etherHdrSize then .size
  else .ok

end TinyTcp.Net
