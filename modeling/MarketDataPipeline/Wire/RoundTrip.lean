import MarketDataPipeline.Wire.FilterAgreement

/-!
# The round trip of a message

A message packed by the market maker, in any frame with an IPv4 and a UDP header
to the market data port, passes the filter and comes out of the parser as it
was.  Packing what was parsed gives back the bytes.
-/

namespace MarketDataPipeline

open Endian XdpFilter

/-! ## The message -/

theorem ntohll_load {bytes : List UInt8} (hlength : bytes.length = 8) :
    ntohll (.ofNat (leValue bytes)) = .ofNat (beValue bytes) := by
  have hlt := leValue_lt bytes
  rw [hlength] at hlt
  rw [ntohll, UInt64.toNat_ofNat', Nat.mod_eq_of_lt (by omega),
    ← swapBytes_leValue, hlength]

theorem ntohl_load {bytes : List UInt8} (hlength : bytes.length = 4) :
    ntohl (.ofNat (leValue bytes)) = .ofNat (beValue bytes) := by
  have hlt := leValue_lt bytes
  rw [hlength] at hlt
  rw [ntohl, UInt32.toNat_ofNat', Nat.mod_eq_of_lt (by omega),
    ← swapBytes_leValue, hlength]

/-- The fields of bytes that are laid out as the message is. -/
theorem itchToHost_load (type : UInt8) (symbol : Symbol)
    {tsNs price qty : List UInt8} (htsNs : tsNs.length = 8)
    (hprice : price.length = 4) (hqty : qty.length = 4) :
    itchToHost (loadMessage (type :: symbol.toList ++ tsNs ++ price ++ qty)) =
      ⟨type, symbol, .ofNat (beValue tsNs), .ofNat (beValue price),
        .ofNat (beValue qty)⟩ := by
  have hsymbol : (Vector.ofFn fun i : Fin 8 =>
      (type :: symbol.toList ++ tsNs ++ price ++ qty).getD (1 + i) 0) =
        symbol := by
    ext i hi
    have hlength : i < symbol.toList.length := by rwa [Vector.length_toList]
    rw [Vector.getElem_ofFn, List.append_assoc, List.append_assoc,
      Nat.add_comm, List.getD, List.cons_append, List.getElem?_cons_succ,
      List.getElem?_append_left hlength,
      Vector.getElem?_toList, Vector.getElem?_eq_getElem hi, Option.getD_some]
  have hfront : (type :: symbol.toList).length = 9 := by simp
  have htsNs' := Frame.slice_append hfront htsNs (price ++ qty)
  have hprice' := @Frame.slice_append (type :: symbol.toList ++ tsNs) price 17 4
    (by simp [htsNs]) hprice qty
  have hqty' :=
    @Frame.slice_append (type :: symbol.toList ++ tsNs ++ price) qty 21 4
    (by simp [htsNs, hprice]) hqty []
  rw [← List.append_assoc] at htsNs'
  rw [List.append_nil] at hqty'
  rw [loadMessage, hsymbol, htsNs', hprice', hqty', itchToHost,
    ntohll_load htsNs, ntohl_load hprice, ntohl_load hqty]
  rfl

/-- Every payload is laid out as a message. -/
theorem payload_layout {payload : List UInt8} (hlength : payload.length = 25) :
    ∃ (type : UInt8) (symbol : Symbol) (tsNs price qty : List UInt8),
      payload = type :: symbol.toList ++ tsNs ++ price ++ qty ∧
      tsNs.length = 8 ∧ price.length = 4 ∧ qty.length = 4 := by
  obtain ⟨type, rest, rfl⟩ :=
    List.exists_cons_of_length_pos (l := payload) (by omega)
  rw [List.length_cons] at hlength
  refine ⟨type, ⟨(rest.take 8).toArray, by simp; omega⟩, (rest.drop 8).take 8,
    (rest.drop 16).take 4, rest.drop 20,
      ?_, by simp; omega, by simp; omega, by simp; omega⟩
  have hlast : (rest.drop 16).take 4 ++ rest.drop 20 = rest.drop 16 := by
    rw [← List.drop_drop (i := 4) (j := 16), List.take_append_drop]
  have hmiddle : (rest.drop 8).take 8 ++ rest.drop 16 = rest.drop 8 := by
    rw [← List.drop_drop (i := 8) (j := 8), List.take_append_drop]
  simp only [Vector.toList_mk, List.cons_append, List.append_assoc]
  rw [hlast, hmiddle, List.take_append_drop]

theorem unpack_pack (message : ItchMessage) :
    itchToHost (loadMessage (packMessage message)) = message := by
  have htsNs : message.tsNs.toNat < 256 ^ 8 := message.tsNs.toNat_lt
  have hprice : message.price.toNat < 256 ^ 4 := message.price.toNat_lt
  have hqty : message.qty.toNat < 256 ^ 4 := message.qty.toNat_lt
  rw [packMessage, itchToHost_load _ _ (beBytes_length ..) (beBytes_length ..)
    (beBytes_length ..), beValue_beBytes htsNs, beValue_beBytes hprice,
      beValue_beBytes hqty,
    UInt64.ofNat_toNat, UInt32.ofNat_toNat, UInt32.ofNat_toNat]

theorem pack_unpack {payload : List UInt8} (hlength : payload.length = 25) :
    packMessage (itchToHost (loadMessage payload)) = payload := by
  obtain ⟨type, symbol, tsNs, price, qty, rfl, htsNs, hprice, hqty⟩ :=
    payload_layout hlength
  have hbytes : ∀ {bytes : List UInt8} {width : ℕ}, bytes.length = width →
      beBytes width (beValue bytes) = bytes := by
    rintro bytes _ rfl
    exact beBytes_beValue bytes
  have htsNsLt := beValue_lt tsNs
  have hpriceLt := beValue_lt price
  have hqtyLt := beValue_lt qty
  rw [htsNs] at htsNsLt
  rw [hprice] at hpriceLt
  rw [hqty] at hqtyLt
  rw [itchToHost_load type symbol htsNs hprice hqty, packMessage]
  dsimp only
  rw [UInt64.toNat_ofNat', UInt32.toNat_ofNat', UInt32.toNat_ofNat',
    Nat.mod_eq_of_lt (by omega), Nat.mod_eq_of_lt (by omega),
    Nat.mod_eq_of_lt (by omega),
    hbytes htsNs, hbytes hprice, hbytes hqty]

/-! ## The frame -/

structure EthernetHeader where
  dst : Vector UInt8 6
  src : Vector UInt8 6

def EthernetHeader.bytes (header : EthernetHeader) : List UInt8 :=
  header.dst.toList ++ header.src.toList ++ beBytes 2 ethPIp.toNat

/-- An IPv4 header of a UDP packet: what is before and behind the protocol is
arbitrary, and so are the options. -/
structure Ipv4Header where
  ihl : ℕ
  five_le : 5 ≤ ihl
  le_fifteen : ihl ≤ 15
  beforeProtocol : Vector UInt8 8
  behindProtocol : Vector UInt8 10
  options : Vector UInt8 (4 * ihl - 20)

def Ipv4Header.first (header : Ipv4Header) : UInt8 :=
  .ofNat (4 * 16 + header.ihl)

def Ipv4Header.bytes (header : Ipv4Header) : List UInt8 :=
  header.first :: header.beforeProtocol.toList ++ ipprotoUdp ::
    header.behindProtocol.toList ++ header.options.toList

structure UdpHeader where
  source : Vector UInt8 2
  lengthAndChecksum : Vector UInt8 4

/-- A UDP header to the market data port. -/
def UdpHeader.bytes (header : UdpHeader) : List UInt8 :=
  header.source.toList ++ beBytes 2 marketDataPort.toNat ++
    header.lengthAndChecksum.toList

def frameOf (eth : EthernetHeader) (ip : Ipv4Header) (udp : UdpHeader)
    (payload trailing : List UInt8) : Frame :=
  eth.bytes ++ ip.bytes ++ udp.bytes ++ payload ++ trailing

section Frames

variable (eth : EthernetHeader) (ip : Ipv4Header) (udp : UdpHeader)

@[simp]
theorem EthernetHeader.bytes_length : eth.bytes.length = 14 := by
    simp [EthernetHeader.bytes]

@[simp]
theorem Ipv4Header.bytes_length : ip.bytes.length = 4 * ip.ihl := by
  have hfive := ip.five_le
  simp [Ipv4Header.bytes]
  omega

@[simp]
theorem UdpHeader.bytes_length : udp.bytes.length = 8 := by
    simp [UdpHeader.bytes]

theorem Ipv4Header.version_first : ipVersion ip.first = 4 := by
  have hge := ip.five_le
  have hle := ip.le_fifteen
  rw [Ipv4Header.first]
  generalize ip.ihl = ihl at hge hle
  interval_cases ihl <;> decide

theorem Ipv4Header.ihl_first : (ipIhl ip.first).toNat = ip.ihl := by
  have hge := ip.five_le
  have hle := ip.le_fifteen
  rw [Ipv4Header.first]
  generalize ip.ihl = ihl at hge hle
  interval_cases ihl <;> decide

theorem frameOf_length (payload trailing : List UInt8) :
    (frameOf eth ip udp payload trailing).length =
      14 + 4 * ip.ihl + 8 + payload.length + trailing.length := by
  simp only [frameOf, List.length_append, EthernetHeader.bytes_length,
    Ipv4Header.bytes_length, UdpHeader.bytes_length]

/-- The filter redirects such a frame when the payload has room for
a message. -/
theorem frameOf_redirected {payload : List UInt8}
    (hpayload : payload.length = 25) (trailing : List UInt8) :
    Redirected (frameOf eth ip udp payload trailing) ip.first
      (ethhdrSize + ip.ihl * 4 + udphdrSize) := by
  have heth : ethhdrSize = 14 := rfl
  have hudp : udphdrSize = 8 := rfl
  refine ⟨?_, ?_, ?_, ?_, ?_, ?_, ?_⟩
  · have hfront : (eth.dst.toList ++ eth.src.toList).length = 12 := by simp
    have hfield := Frame.load16_append hfront (beBytes_length 2 ethPIp.toNat)
      (ip.bytes ++ udp.bytes ++ payload ++ trailing)
    rw [Frame.hProto, frameOf, EthernetHeader.bytes]
    simp only [List.append_assoc] at hfield ⊢
    exact hfield
  · have hfield := Frame.load8_append eth.bytes_length ip.first
      (ip.beforeProtocol.toList ++ ipprotoUdp :: ip.behindProtocol.toList ++
        ip.options.toList ++ udp.bytes ++ payload ++ trailing)
    rw [Frame.versionIhl, frameOf, Ipv4Header.bytes]
    simp only [List.append_assoc, List.cons_append] at hfield ⊢
    exact hfield
  · rw [UInt8.le_iff_toNat_le, ip.ihl_first]
    exact ip.five_le
  · have hfront : (eth.bytes ++ ip.first :: ip.beforeProtocol.toList).length =
      ethhdrSize + 9 := by
      simp [heth]
    have hfield := Frame.load8_append hfront ipprotoUdp
      (ip.behindProtocol.toList ++ ip.options.toList ++ udp.bytes ++
        payload ++ trailing)
    rw [Frame.protocol, frameOf, Ipv4Header.bytes]
    simp only [List.append_assoc, List.cons_append] at hfield ⊢
    exact hfield
  · have hfront : (eth.bytes ++ ip.bytes ++ udp.source.toList).length =
        ethhdrSize + ip.ihl * 4 + 2 := by
      simp [heth]
      omega
    have hfield :=
      Frame.load16_append hfront (beBytes_length 2 marketDataPort.toNat)
      (udp.lengthAndChecksum.toList ++ payload ++ trailing)
    rw [Frame.udpDest, ip.ihl_first, frameOf, UdpHeader.bytes]
    simp only [List.append_assoc] at hfield ⊢
    exact ⟨_, hfield, by decide⟩
  · rw [ip.ihl_first]
  · rw [frameOf_length]
    omega

/-- The bytes at the payload are those of the payload. -/
theorem frameOf_read {payload : List UInt8} (hpayload : payload.length = 25)
    (trailing : List UInt8) :
    (frameOf eth ip udp payload trailing).read
      (ethhdrSize + ip.ihl * 4 + udphdrSize)
      itchMessageSize = some payload := by
  have hfront : (eth.bytes ++ ip.bytes ++ udp.bytes).length =
      ethhdrSize + ip.ihl * 4 + udphdrSize := by
    simp [ethhdrSize, udphdrSize]
    omega
  exact Frame.read_append hfront hpayload trailing

end Frames

/-- Every message in every frame with these headers passes the filter and is
received as it was packed, with all reads inside the frame; and every payload is
what its fields pack to. -/
theorem wire_round_trip (message : ItchMessage) (eth : EthernetHeader)
    (ip : Ipv4Header) (udp : UdpHeader) (trailing : List UInt8)
    {frameLen : UInt32}
    (hlen : (frameOf eth ip udp (packMessage message) trailing).length =
      frameLen.toNat) :
    inspect (frameOf eth ip udp (packMessage message) trailing) =
      some (.marketData (ethhdrSize + ip.ihl * 4 + udphdrSize)) ∧
    receiveMessage (frameOf eth ip udp (packMessage message) trailing)
      frameLen =
      some (some message) ∧
    ∀ payload : List UInt8, payload.length = 25 →
      packMessage (itchToHost (loadMessage payload)) = payload := by
  have hpacked : (packMessage message).length = 25 := by simp [packMessage]
  have hredirected := frameOf_redirected eth ip udp hpacked trailing
  refine ⟨(inspect_marketData_iff _ _).mpr ⟨_, hredirected⟩, ?_,
    fun _ => pack_unpack⟩
  rw [receiveMessage, hredirected.getItchMessage hlen, if_pos ip.version_first,
    Option.bind_eq_bind, Option.bind_some]
  dsimp only
  rw [frameOf_read eth ip udp hpacked, Option.bind_eq_bind,
    Option.bind_some, unpack_pack]
  rfl

/-- A message of the market maker behind an IP header with one word
of options. -/
theorem wire_round_trip_options :
    let message : ItchMessage :=
      ⟨addType, #v[66, 84, 67, 47, 85, 83, 68, 84], 1, 10002, 102⟩
    let eth : EthernetHeader := ⟨#v[1, 2, 3, 4, 5, 6], #v[7, 8, 9, 10, 11, 12]⟩
    let ip : Ipv4Header :=
      ⟨6, by decide, by decide, .replicate 8 0, .replicate 10 0, #v[1, 1, 1, 0]⟩
    let udp : UdpHeader := ⟨#v[4, 0], #v[0, 33, 0, 0]⟩
    receiveMessage (frameOf eth ip udp (packMessage message) [0]) 72 =
      some (some message) :=
  (wire_round_trip _ _ _ _ [0] (by decide)).2.1

end MarketDataPipeline
