/-
# The framing of peer messages

`CPeerMessageHeader` (`src/network/proto.h`) frames every message between peers: sixteen bytes
of header, holding the magic of the network, the type (a channel and a command), the size and
the checksum of the payload, and a CRC-24Q of the first thirteen bytes; then the payload.
`CBbPeer::SendMessage` (`src/network/peer.cpp`) writes a message; `ParseMessageHeader`, with
`HandleReadHeader` and `HandleReadCompleted`, reads one back and checks both checksums before
`HandlePeerRecvMessage` gets its channel, command and payload.

* The sixteen bytes written read back as the header written, when its CRC, of 24 bits, fits the
  three bytes of it that are written (`PeerMessageHeader.ofBuffer_save`), so a header that
  verifies is parsed back (`parseMessageHeader_save`).
* A message `SendMessage` writes is received as sent, channel, command and payload
  (`receiveMessage_sendMessage`), and a run of messages written one after another is read back
  message by message, whatever follows them: the stream never loses its framing
  (`receiveMessages_sendMessages`); and every message received is the bytes `SendMessage`
  writes for it (`receiveMessage_sound`).
* What the header check accepts is the sixteen bytes of a header as written
  (`parseMessageHeader_sound`), and it rejects every header with one byte changed, in the
  thirteen bytes under the CRC or in the three of the CRC
  (`parseMessageHeader_single_byte_error`).
-/
import MetabaseNet.Crc24q
import MetabaseNet.Lib.Codec
import Mathlib

open MetabaseNet.Stream (toLittleEndian ofLittleEndian Bytes)

namespace MetabaseNet.PeerNet

/-- `MESSAGE_HEADER_SIZE`. -/
def messageHeaderSize : ℕ := 16

/-- `MESSAGE_PAYLOAD_MAX_SIZE`. -/
def messagePayloadMaxSize : ℕ := 0x400000

/-- `CPeerMessageHeader`. -/
structure PeerMessageHeader where
  nMagic : UInt32
  nType : UInt8
  nPayloadSize : UInt32
  nPayloadChecksum : UInt32
  nHeaderChecksum : UInt32
  deriving DecidableEq, Repr

namespace PeerMessageHeader

/-- `GetChannel`. -/
def getChannel (h : PeerMessageHeader) : ℕ := h.nType.toNat >>> 4

/-- `GetCommand`. -/
def getCommand (h : PeerMessageHeader) : ℕ := h.nType.toNat &&& 0xF

/-- `GetMessageType`: the channel in the high four bits and the command in the low four, as a
`uint8`. -/
def getMessageType (nChannel nCommand : ℕ) : UInt8 :=
  UInt8.ofNat ((nChannel <<< 4) ||| (nCommand &&& 0xF))

/-- The first thirteen bytes of the buffer: `nMagic`, `nType`, `nPayloadSize` and
`nPayloadChecksum`, each written in place, little-endian. -/
def checkedBytes (h : PeerMessageHeader) : List ℕ :=
  toLittleEndian 4 h.nMagic.toNat ++ toLittleEndian 1 h.nType.toNat ++
    toLittleEndian 4 h.nPayloadSize.toNat ++ toLittleEndian 4 h.nPayloadChecksum.toNat

/-- `GetHeaderChecksum`: `crc24q` of the thirteen bytes. -/
def getHeaderChecksum (h : PeerMessageHeader) : UInt32 := UInt32.ofNat (Crc24q.crc24q h.checkedBytes)

/-- `Verify`. -/
def verify (h : PeerMessageHeader) : Bool :=
  decide (h.nPayloadSize.toNat ≤ messagePayloadMaxSize) && h.nHeaderChecksum == h.getHeaderChecksum

/-- `Serialize` on saving: the buffer holds the thirteen bytes and the four of
`nHeaderChecksum`, and its first sixteen are written. -/
def save (h : PeerMessageHeader) : List ℕ :=
  (h.checkedBytes ++ toLittleEndian 4 h.nHeaderChecksum.toNat).take messageHeaderSize

/-- The field of `len` bytes at `off` in a buffer, little-endian. -/
def field (buf : List ℕ) (off len : ℕ) : ℕ := ofLittleEndian ((buf.drop off).take len)

/-- The header sixteen bytes hold: `nHeaderChecksum` is the word at byte 13 with its top byte,
the seventeenth of the buffer, masked off, so three bytes. -/
def ofBuffer (buf : List ℕ) : PeerMessageHeader :=
  ⟨UInt32.ofNat (field buf 0 4), UInt8.ofNat (field buf 4 1), UInt32.ofNat (field buf 5 4),
    UInt32.ofNat (field buf 9 4), UInt32.ofNat (field buf 13 3)⟩

/-- `Serialize` on loading: sixteen bytes read with `CStream::Read`. -/
def load (bs : List ℕ) : Except String (PeerMessageHeader × List ℕ) := do
  let r ← Stream.read messageHeaderSize bs
  pure (ofBuffer r.1, r.2)

end PeerMessageHeader

open PeerMessageHeader

/-- `CBbPeer::SendMessage`: the bytes written, the header then the payload, or none when the
header fails `Verify`.  `hash32` is `CryptoHash(...).Get32()`. -/
def sendMessage (hash32 : List ℕ → UInt32) (nMsgMagic : UInt32) (nChannel nCommand : ℕ)
    (ssPayload : List ℕ) : Option (List ℕ) :=
  let hdr : PeerMessageHeader := ⟨nMsgMagic, getMessageType nChannel nCommand,
    UInt32.ofNat ssPayload.length, hash32 ssPayload, 0⟩
  let hdrSend := { hdr with nHeaderChecksum := hdr.getHeaderChecksum }
  if hdrSend.verify then some (hdrSend.save ++ ssPayload) else none

/-- `CBbPeer::ParseMessageHeader`: the header read, when its magic is the network's and it
verifies; a failed read is caught. -/
def parseMessageHeader (nMsgMagic : UInt32) (bs : List ℕ) : Option (PeerMessageHeader × List ℕ) :=
  match PeerMessageHeader.load bs with
  | .ok (hdr, rest) => if hdr.nMagic = nMsgMagic ∧ hdr.verify = true then some (hdr, rest) else none
  | .error _ => none

/-- `HandleReadHeader` then `HandleReadCompleted`: the header parsed, `nPayloadSize` bytes of
payload read, and the payload's checksum checked, before the channel, the command and the payload
go to `HandlePeerRecvMessage`.  Any failure ends the connection; a payload not all there yet is
not a message yet. -/
def receiveMessage (hash32 : List ℕ → UInt32) (nMsgMagic : UInt32) :
    Codec.Decoder ℕ Unit (ℕ × ℕ × List ℕ) := fun bs =>
  match parseMessageHeader nMsgMagic bs with
  | none => .error ()
  | some (hdr, rest) =>
    if hdr.nPayloadSize.toNat ≤ rest.length ∧
        hdr.nPayloadChecksum = hash32 (rest.take hdr.nPayloadSize.toNat) then
      .ok ((hdr.getChannel, hdr.getCommand, rest.take hdr.nPayloadSize.toNat),
        rest.drop hdr.nPayloadSize.toNat)
    else .error ()

/-! ## The buffer -/

namespace PeerMessageHeader

theorem length_checkedBytes (h : PeerMessageHeader) : h.checkedBytes.length = 13 := by
  simp [checkedBytes]

theorem checkedBytes_bytes (h : PeerMessageHeader) : Bytes h.checkedBytes := by
  intro b hb
  simp only [checkedBytes, List.mem_append] at hb
  rcases hb with ((hb | hb) | hb) | hb <;> exact Stream.toLittleEndian_bytes _ _ b hb

theorem save_eq (h : PeerMessageHeader) :
    h.save = h.checkedBytes ++ toLittleEndian 3 h.nHeaderChecksum.toNat := by
  rw [save, List.take_append, List.take_of_length_le (by rw [length_checkedBytes]; decide),
    length_checkedBytes, show messageHeaderSize - 13 = 3 from rfl,
    Stream.take_toLittleEndian 3 4 _ (by norm_num)]

theorem length_save (h : PeerMessageHeader) : h.save.length = messageHeaderSize := by
  rw [save_eq, List.length_append, length_checkedBytes, Stream.length_toLittleEndian]
  rfl

theorem save_bytes (h : PeerMessageHeader) : Bytes h.save := by
  rw [save_eq]
  intro b hb
  rcases List.mem_append.mp hb with hb | hb
  · exact h.checkedBytes_bytes b hb
  · exact Stream.toLittleEndian_bytes _ _ b hb

/-- A field past a prefix is read in what follows the prefix. -/
theorem field_append_left (pre rest : List ℕ) {off n : ℕ} (h : pre.length ≤ off) :
    field (pre ++ rest) off n = field rest (off - pre.length) n := by
  rw [field, field, List.drop_append, List.drop_eq_nil_of_le h, List.nil_append]

/-- A field written in front reads back. -/
theorem field_toLittleEndian_append {n x : ℕ} (hx : x < 256 ^ n) (post : List ℕ) :
    field (toLittleEndian n x ++ post) 0 n = x := by
  rw [field, List.drop_zero, List.take_left' (Stream.length_toLittleEndian n x),
    Stream.ofLittleEndian_toLittleEndian n hx]

theorem field_toLittleEndian {n x : ℕ} (hx : x < 256 ^ n) : field (toLittleEndian n x) 0 n = x := by
  simpa using field_toLittleEndian_append hx []

/-- **The sixteen bytes written read back as the header**, when its CRC fits the three bytes
that are written of it. -/
theorem ofBuffer_save (h : PeerMessageHeader) (hc : h.nHeaderChecksum.toNat < 2 ^ 24) :
    ofBuffer h.save = h := by
  obtain ⟨nMagic, nType, nPayloadSize, nPayloadChecksum, nHeaderChecksum⟩ := h
  have h32 : ∀ x : UInt32, x.toNat < 256 ^ 4 := fun x => x.toNat_lt
  have h8 : nType.toNat < 256 ^ 1 := nType.toNat_lt
  have h24 : nHeaderChecksum.toNat < 256 ^ 3 := by simpa using hc
  rw [save_eq, checkedBytes]
  -- the fields nested to the right, each read past those in front of it
  simp only [ofBuffer, List.append_assoc]
  simp only [field_append_left, Stream.length_toLittleEndian, field_toLittleEndian_append (h32 _),
    field_toLittleEndian_append h8, field_toLittleEndian h24, UInt32.ofNat_toNat,
    UInt8.ofNat_toNat, Nat.le_refl, Nat.sub_self, Nat.reduceSub, Nat.reduceLeDiff]

theorem load_save (h : PeerMessageHeader) (hc : h.nHeaderChecksum.toNat < 2 ^ 24)
    (rest : List ℕ) : load (h.save ++ rest) = .ok (h, rest) := by
  rw [load, Stream.read_append_of_length (length_save h) rest]
  simp only [bind, Except.bind, pure, Except.pure, ofBuffer_save h hc]

/-- `Verify`: the payload size within the bound, and the checksum that of the header. -/
theorem verify_iff (h : PeerMessageHeader) : h.verify = true ↔
    h.nPayloadSize.toNat ≤ messagePayloadMaxSize ∧ h.nHeaderChecksum = h.getHeaderChecksum := by
  simp only [verify, Bool.and_eq_true, decide_eq_true_eq, beq_iff_eq]

/-- The checksum does not read the field that holds it. -/
@[simp] theorem getHeaderChecksum_with (h : PeerMessageHeader) (c : UInt32) :
    { h with nHeaderChecksum := c }.getHeaderChecksum = h.getHeaderChecksum := rfl

theorem getHeaderChecksum_lt (h : PeerMessageHeader) : h.getHeaderChecksum.toNat < 2 ^ 24 := by
  have hcrc := Crc24q.crc24q_lt h.checkedBytes
  rw [getHeaderChecksum, UInt32.toNat_ofNat_of_lt' (lt_trans hcrc (by norm_num))]
  exact hcrc

/-- The type of a channel and a command below `16` holds both. -/
theorem getMessageType_toNat {nChannel : ℕ} (hch : nChannel < 16) (nCommand : ℕ) :
    (getMessageType nChannel nCommand).toNat = nChannel * 16 + nCommand % 16 := by
  have hcmd : nCommand &&& 0xF = nCommand % 2 ^ 4 := Nat.and_two_pow_sub_one_eq_mod nCommand 4
  have hor : (nChannel <<< 4) ||| (nCommand &&& 0xF) = nChannel * 16 + nCommand % 16 := by
    rw [hcmd, ← Nat.shiftLeft_add_eq_or_of_lt (Nat.mod_lt _ (by norm_num)), Nat.shiftLeft_eq]
  rw [getMessageType, hor, UInt8.toNat_ofNat_of_lt' (by rw [UInt8.size]; omega)]

theorem getChannel_getMessageType {h : PeerMessageHeader} {nChannel nCommand : ℕ}
    (hch : nChannel < 16) (htype : h.nType = getMessageType nChannel nCommand) :
    h.getChannel = nChannel := by
  rw [getChannel, htype, getMessageType_toNat hch, Nat.shiftRight_eq_div_pow]
  omega

theorem getCommand_getMessageType {h : PeerMessageHeader} {nChannel nCommand : ℕ}
    (hch : nChannel < 16) (hcmd : nCommand < 16) (htype : h.nType = getMessageType nChannel nCommand) :
    h.getCommand = nCommand := by
  rw [getCommand, htype, getMessageType_toNat hch,
    show (0xF : ℕ) = 2 ^ 4 - 1 from rfl, Nat.and_two_pow_sub_one_eq_mod]
  omega

end PeerMessageHeader

/-! ## Sending and receiving -/

/-- A header that verifies under the network's magic is parsed back from its sixteen bytes. -/
theorem parseMessageHeader_save {nMsgMagic : UInt32} {h : PeerMessageHeader}
    (hmagic : h.nMagic = nMsgMagic) (hv : h.verify = true) (hc : h.nHeaderChecksum.toNat < 2 ^ 24)
    (rest : List ℕ) : parseMessageHeader nMsgMagic (h.save ++ rest) = some (h, rest) := by
  simp only [parseMessageHeader, load_save h hc rest, hmagic, hv, and_self, if_true]

/-- What `SendMessage` does with a payload within `MESSAGE_PAYLOAD_MAX_SIZE`: it writes a header
that verifies, with the network's magic, the type, the size and the checksum of the payload, and
then the payload. -/
theorem sendMessage_eq_some (hash32 : List ℕ → UInt32) (nMsgMagic : UInt32) (nChannel nCommand : ℕ)
    {ssPayload : List ℕ} (hlen : ssPayload.length ≤ messagePayloadMaxSize) :
    ∃ hdr : PeerMessageHeader, hdr.nMagic = nMsgMagic ∧ hdr.verify = true ∧
      hdr.nHeaderChecksum.toNat < 2 ^ 24 ∧ hdr.nType = getMessageType nChannel nCommand ∧
      hdr.nPayloadSize.toNat = ssPayload.length ∧ hdr.nPayloadChecksum = hash32 ssPayload ∧
      sendMessage hash32 nMsgMagic nChannel nCommand ssPayload = some (hdr.save ++ ssPayload) := by
  have hsize : (UInt32.ofNat ssPayload.length).toNat = ssPayload.length :=
    UInt32.toNat_ofNat_of_lt' (lt_of_le_of_lt hlen (by decide))
  -- the header with a zero checksum, whose first thirteen bytes the checksum is taken of
  let hdr : PeerMessageHeader := ⟨nMsgMagic, getMessageType nChannel nCommand,
    UInt32.ofNat ssPayload.length, hash32 ssPayload, 0⟩
  have hv : ({ hdr with nHeaderChecksum := hdr.getHeaderChecksum }).verify = true :=
    (verify_iff _).mpr ⟨hsize.trans_le hlen, (getHeaderChecksum_with hdr _).symm⟩
  exact ⟨_, rfl, hv, getHeaderChecksum_lt hdr, rfl, hsize, rfl, if_pos hv⟩

/-- **A message sent is the message received.**  The bytes `SendMessage` writes for a channel and
a command below `16` and a payload within `MESSAGE_PAYLOAD_MAX_SIZE` are read back, whatever follows
them, as that channel, command and payload, and the rest of the stream. -/
theorem receiveMessage_sendMessage (hash32 : List ℕ → UInt32) (nMsgMagic : UInt32)
    {nChannel nCommand : ℕ} (hch : nChannel < 16) (hcmd : nCommand < 16) {ssPayload : List ℕ}
    (hlen : ssPayload.length ≤ messagePayloadMaxSize) (rest : List ℕ) :
    ∃ bs, sendMessage hash32 nMsgMagic nChannel nCommand ssPayload = some bs ∧
      receiveMessage hash32 nMsgMagic (bs ++ rest) = .ok ((nChannel, nCommand, ssPayload), rest) := by
  obtain ⟨hdr, hmagic, hv, hc, htype, hsize, hsum, hsend⟩ :=
    sendMessage_eq_some hash32 nMsgMagic nChannel nCommand hlen
  refine ⟨_, hsend, ?_⟩
  rw [receiveMessage, List.append_assoc, parseMessageHeader_save hmagic hv hc]
  dsimp only
  rw [hsize, List.take_left' rfl, List.drop_left' rfl, if_pos ⟨by simp, hsum⟩,
    getChannel_getMessageType hch htype, getCommand_getMessageType hch hcmd htype]

/-- The messages `SendMessage` accepts: a channel and a command below `16`, a payload within
`MESSAGE_PAYLOAD_MAX_SIZE`. -/
def Sendable (m : ℕ × ℕ × List ℕ) : Prop :=
  m.1 < 16 ∧ m.2.1 < 16 ∧ m.2.2.length ≤ messagePayloadMaxSize

/-- The bytes `SendMessage` writes for a message, none when it writes none. -/
def messageBytes (hash32 : List ℕ → UInt32) (nMsgMagic : UInt32) (m : ℕ × ℕ × List ℕ) : List ℕ :=
  (sendMessage hash32 nMsgMagic m.1 m.2.1 m.2.2).getD []

theorem receiveMessage_roundTrip (hash32 : List ℕ → UInt32) (nMsgMagic : UInt32) :
    Codec.RoundTrip (messageBytes hash32 nMsgMagic) (receiveMessage hash32 nMsgMagic) Sendable := by
  rintro ⟨nChannel, nCommand, ssPayload⟩ ⟨hch, hcmd, hlen⟩ rest
  obtain ⟨bs, hsend, hrecv⟩ := receiveMessage_sendMessage hash32 nMsgMagic hch hcmd hlen rest
  rw [messageBytes, hsend, Option.getD_some, hrecv]

/-- **The stream never loses its framing.**  A run of messages sent one after another on a
connection, each accepted by `SendMessage`, is read back message by message, in order, whatever
follows them. -/
theorem receiveMessages_sendMessages (hash32 : List ℕ → UInt32) (nMsgMagic : UInt32)
    (msgs : List (ℕ × ℕ × List ℕ)) (hmsgs : ∀ m ∈ msgs, Sendable m) (rest : List ℕ) :
    Codec.decodeFold (receiveMessage hash32 nMsgMagic) (fun l m => l ++ [m]) msgs.length []
        (msgs.flatMap (messageBytes hash32 nMsgMagic) ++ rest) = .ok (msgs, rest) := by
  rw [(receiveMessage_roundTrip hash32 nMsgMagic).decodeFold _ msgs [] rest hmsgs,
    Stream.foldl_push, List.nil_append]

/-- Two messages, the second with an empty payload, then a stray byte. -/
theorem receiveMessages_sendMessages_two :
    (∀ m ∈ [((1 : ℕ), (2 : ℕ), [7, 8]), (0, 5, [])], Sendable m) ∧
      Codec.decodeFold (receiveMessage (fun l => UInt32.ofNat l.sum) 0x3a) (fun l m => l ++ [m]) 2 []
          ([((1 : ℕ), (2 : ℕ), [7, 8]), (0, 5, [])].flatMap
            (messageBytes (fun l => UInt32.ofNat l.sum) 0x3a) ++ [9]) =
        .ok ([(1, 2, [7, 8]), (0, 5, [])], [9]) :=
  have hsend : ∀ m ∈ [((1 : ℕ), (2 : ℕ), [7, 8]), (0, 5, [])], Sendable m := by
    simp [Sendable, messagePayloadMaxSize]
  ⟨hsend, receiveMessages_sendMessages _ _ _ hsend [9]⟩

/-! ## A byte changed in a header -/

theorem ofLittleEndian_lt : ∀ {l : List ℕ}, Bytes l → ofLittleEndian l < 256 ^ l.length
  | [], _ => by simp [ofLittleEndian]
  | b :: l, h => by
    have hb : b < 256 := h b List.mem_cons_self
    have ih := ofLittleEndian_lt fun x hx => h x (List.mem_cons_of_mem b hx)
    rw [Stream.ofLittleEndian_cons, List.length_cons, pow_succ]
    omega

theorem ofLittleEndian_injective {l l' : List ℕ} (hl : Bytes l) (hl' : Bytes l')
    (hlen : l.length = l'.length) (h : ofLittleEndian l = ofLittleEndian l') : l = l' := by
  rw [← Stream.toLittleEndian_ofLittleEndian l hl, ← Stream.toLittleEndian_ofLittleEndian l' hl',
    hlen, h]

theorem bytes_take {l : List ℕ} (hl : Bytes l) (n : ℕ) : Bytes (l.take n) :=
  fun x hx => hl x (List.mem_of_mem_take hx)

theorem bytes_drop {l : List ℕ} (hl : Bytes l) (n : ℕ) : Bytes (l.drop n) :=
  fun x hx => hl x (List.mem_of_mem_drop hx)

theorem bytes_set {l : List ℕ} (hl : Bytes l) (k : ℕ) {b : ℕ} (hb : b < 256) : Bytes (l.set k b) := by
  intro x hx
  rcases List.mem_or_eq_of_mem_set hx with hx | rfl
  · exact hl x hx
  · exact hb

namespace PeerMessageHeader

theorem field_lt {buf : List ℕ} (hbuf : Bytes buf) (off n : ℕ) : field buf off n < 256 ^ n :=
  calc field buf off n < 256 ^ ((buf.drop off).take n).length :=
        ofLittleEndian_lt (bytes_take (bytes_drop hbuf off) n)
    _ ≤ 256 ^ n := Nat.pow_le_pow_right (by norm_num) (List.length_take_le _ _)

/-- A field of at most four bytes fits a `uint32`. -/
theorem toNat_ofNat_field {buf : List ℕ} (hbuf : Bytes buf) (off : ℕ) {n : ℕ} (hn : n ≤ 4) :
    (UInt32.ofNat (field buf off n)).toNat = field buf off n :=
  UInt32.toNat_ofNat_of_lt'
    (lt_of_lt_of_le (field_lt hbuf off n) (le_trans (Nat.pow_le_pow_right (by norm_num) hn) (by decide)))

/-- A field read from bytes is written back as those bytes. -/
theorem toLittleEndian_field {buf : List ℕ} (hbuf : Bytes buf) {off n : ℕ}
    (hlen : off + n ≤ buf.length) : toLittleEndian n (field buf off n) = (buf.drop off).take n := by
  have hn : ((buf.drop off).take n).length = n := by
    rw [List.length_take, List.length_drop]
    omega
  have h := Stream.toLittleEndian_ofLittleEndian _ (bytes_take (bytes_drop hbuf off) n)
  rw [hn] at h
  exact h

theorem checkedBytes_ofBuffer {buf : List ℕ} (hbuf : Bytes buf)
    (hlen : buf.length = messageHeaderSize) : (ofBuffer buf).checkedBytes = buf.take 13 := by
  have h32 : ∀ off, off + 4 ≤ buf.length →
      toLittleEndian 4 (UInt32.ofNat (field buf off 4)).toNat = (buf.drop off).take 4 := by
    intro off hoff
    rw [toNat_ofNat_field hbuf off le_rfl, toLittleEndian_field hbuf hoff]
  have h8 : toLittleEndian 1 (UInt8.ofNat (field buf 4 1)).toNat = (buf.drop 4).take 1 := by
    rw [UInt8.toNat_ofNat_of_lt' (lt_of_lt_of_le (field_lt hbuf 4 1) (by decide)),
      toLittleEndian_field hbuf (by rw [hlen]; decide)]
  rw [checkedBytes, ofBuffer]
  dsimp only
  rw [h32 0 (by rw [hlen]; decide), h8, h32 5 (by rw [hlen]; decide), h32 9 (by rw [hlen]; decide),
    List.drop_zero]
  -- the four fields in a row are the first thirteen bytes
  rw [← List.take_add, ← List.take_add, ← List.take_add]

theorem nHeaderChecksum_ofBuffer {buf : List ℕ} (hbuf : Bytes buf)
    (hlen : buf.length = messageHeaderSize) :
    (ofBuffer buf).nHeaderChecksum.toNat = ofLittleEndian (buf.drop 13) := by
  have hdrop : (buf.drop 13).take 3 = buf.drop 13 :=
    List.take_of_length_le (by rw [List.length_drop, hlen]; decide)
  rw [ofBuffer]
  dsimp only
  rw [toNat_ofNat_field hbuf 13 (by norm_num), field, hdrop]

theorem nHeaderChecksum_eq_of_verify {h : PeerMessageHeader} (hv : h.verify = true) :
    h.nHeaderChecksum = h.getHeaderChecksum :=
  ((verify_iff h).mp hv).2

/-- Sixteen bytes whose header verifies end with the CRC of their first thirteen. -/
theorem crc_ofBuffer {buf : List ℕ} (hbuf : Bytes buf) (hlen : buf.length = messageHeaderSize)
    (hv : (ofBuffer buf).verify = true) :
    ofLittleEndian (buf.drop 13) = Crc24q.crc24q (buf.take 13) := by
  rw [← nHeaderChecksum_ofBuffer hbuf hlen, nHeaderChecksum_eq_of_verify hv, getHeaderChecksum,
    checkedBytes_ofBuffer hbuf hlen,
    UInt32.toNat_ofNat_of_lt' (lt_trans (Crc24q.crc24q_lt _) (by decide))]

/-- Sixteen bytes that end with the CRC of their first thirteen no longer do once one of them is
changed: in the thirteen, the CRC changes and the last three do not; in the last three, the
reverse. -/
theorem crc_set_ne {buf : List ℕ} (hbuf : Bytes buf) (hlen : buf.length = messageHeaderSize)
    (hcrc : ofLittleEndian (buf.drop 13) = Crc24q.crc24q (buf.take 13)) {k b : ℕ}
    (hk : k < messageHeaderSize) (hb : b < 256) (hne : buf[k]? ≠ some b) :
    ofLittleEndian ((buf.set k b).drop 13) ≠ Crc24q.crc24q ((buf.set k b).take 13) := by
  have hk16 : k < 16 := hk
  by_cases hk13 : k < 13
  · -- a byte under the CRC: the thirteen differ in that byte alone
    rw [List.drop_set_of_lt hk13, hcrc, List.take_set]
    set cs := buf.take 13 with hcs
    have hclen : k < cs.length := by rw [hcs, List.length_take, hlen]; exact lt_min hk13 hk16
    have hcb : Bytes cs := bytes_take hbuf 13
    have hsplit : cs = cs.take k ++ cs[k] :: cs.drop (k + 1) := by
      rw [List.cons_getElem_drop_succ, List.take_append_drop]
    have hat : cs[k]? = buf[k]? := by rw [hcs, List.getElem?_take, if_pos hk13]
    have hne' : cs[k] ≠ b := fun h => hne (by rw [← hat, List.getElem?_eq_getElem hclen, h])
    rw [List.set_eq_take_append_cons_drop, if_pos hclen]
    conv_lhs => rw [hsplit]
    exact Crc24q.crc24q_ne_of_single_diff (bytes_take hcb k) (bytes_drop hcb (k + 1))
      (hcb _ (List.getElem_mem hclen)) hb hne'
  · -- a byte of the CRC: the thirteen are the same and the last three differ
    rw [List.take_set_of_le (by omega), ← hcrc, List.drop_set, if_neg hk13]
    intro heq
    have hd : Bytes (buf.drop 13) := bytes_drop hbuf 13
    have hsame := ofLittleEndian_injective (bytes_set hd (k - 13) hb) hd (List.length_set ..) heq
    have hat := congrArg (·[k - 13]?) hsame
    simp only [List.getElem?_drop] at hat
    rw [List.getElem?_set_self (by rw [List.length_drop, hlen]; show k - 13 < 16 - 13; omega),
      show 13 + (k - 13) = k by omega] at hat
    exact hne hat.symm

/-- Sixteen bytes are written back as they were read. -/
theorem save_ofBuffer {buf : List ℕ} (hbuf : Bytes buf) (hlen : buf.length = messageHeaderSize) :
    (ofBuffer buf).save = buf := by
  have hd : (buf.drop 13).length = 3 := by rw [List.length_drop, hlen]; rfl
  have hcrc := Stream.toLittleEndian_ofLittleEndian _ (bytes_drop hbuf 13)
  rw [hd] at hcrc
  rw [save_eq, checkedBytes_ofBuffer hbuf hlen, nHeaderChecksum_ofBuffer hbuf hlen, hcrc,
    List.take_append_drop]

theorem load_eq_ok {bs rest : List ℕ} {hdr : PeerMessageHeader} (h : load bs = .ok (hdr, rest)) :
    ∃ buf, bs = buf ++ rest ∧ buf.length = messageHeaderSize ∧ hdr = ofBuffer buf := by
  unfold load at h
  cases hr : Stream.read messageHeaderSize bs with
  | error e => simp only [hr, bind, Except.bind, reduceCtorEq] at h
  | ok q =>
    simp only [hr, bind, Except.bind, pure, Except.pure, Except.ok.injEq, Prod.mk.injEq] at h
    obtain ⟨rfl, rfl⟩ := h
    obtain ⟨hsplit, hqlen⟩ := Stream.read_eq_ok hr
    exact ⟨q.1, hsplit, hqlen, rfl⟩

/-- The type is its channel and command put back together. -/
theorem getMessageType_getChannel_getCommand (h : PeerMessageHeader) :
    getMessageType h.getChannel h.getCommand = h.nType := by
  have ht := h.nType.toNat_lt
  have hlow : h.nType.toNat &&& 0xF = h.nType.toNat % 2 ^ 4 :=
    Nat.and_two_pow_sub_one_eq_mod _ 4
  have hch : h.getChannel < 16 := by
    rw [getChannel, Nat.shiftRight_eq_div_pow]
    omega
  have hsplit : h.getChannel * 16 + h.getCommand % 16 = h.nType.toNat := by
    rw [getChannel, getCommand, hlow, Nat.shiftRight_eq_div_pow]
    omega
  apply UInt8.toNat_inj.mp
  rw [getMessageType_toNat hch, hsplit]

/-- Two headers that verify are equal when the four fields under the CRC are. -/
theorem eq_of_verify {h h' : PeerMessageHeader} (hv : h.verify = true) (hv' : h'.verify = true)
    (hmagic : h.nMagic = h'.nMagic) (htype : h.nType = h'.nType)
    (hsize : h.nPayloadSize = h'.nPayloadSize) (hsum : h.nPayloadChecksum = h'.nPayloadChecksum) :
    h = h' := by
  have hc := nHeaderChecksum_eq_of_verify hv
  have hc' := nHeaderChecksum_eq_of_verify hv'
  obtain ⟨m, t, sz, sum, c⟩ := h
  obtain ⟨m', t', sz', sum', c'⟩ := h'
  dsimp only at hmagic htype hsize hsum hc hc'
  subst hmagic htype hsize hsum
  rw [PeerMessageHeader.mk.injEq]
  exact ⟨rfl, rfl, rfl, rfl, hc.trans hc'.symm⟩

end PeerMessageHeader

theorem parseMessageHeader_eq_some {nMsgMagic : UInt32} {bs rest : List ℕ} {hdr : PeerMessageHeader}
    (h : parseMessageHeader nMsgMagic bs = some (hdr, rest)) :
    load bs = .ok (hdr, rest) ∧ hdr.nMagic = nMsgMagic ∧ hdr.verify = true := by
  unfold parseMessageHeader at h
  cases hl : load bs with
  | error e => simp only [hl, reduceCtorEq] at h
  | ok r =>
    simp only [hl] at h
    split_ifs at h with hok
    cases h
    exact ⟨rfl, hok⟩

/-- **What the header check accepts is a header as written.**  Whenever `ParseMessageHeader`
accepts a byte stream, the stream is the sixteen bytes of the header it returns, as `Serialize`
writes them, followed by the rest it returns, and the header has the network's magic and
verifies. -/
theorem parseMessageHeader_sound {nMsgMagic : UInt32} {bs rest : List ℕ} (hbs : Bytes bs)
    {hdr : PeerMessageHeader} (h : parseMessageHeader nMsgMagic bs = some (hdr, rest)) :
    bs = hdr.save ++ rest ∧ hdr.nMagic = nMsgMagic ∧ hdr.verify = true := by
  obtain ⟨hl, hmagic, hv⟩ := parseMessageHeader_eq_some h
  obtain ⟨buf, hsplit, hlen, rfl⟩ := load_eq_ok hl
  have hbuf : Bytes buf := fun x hx => hbs x (by rw [hsplit]; exact List.mem_append_left _ hx)
  exact ⟨by rw [save_ofBuffer hbuf hlen]; exact hsplit, hmagic, hv⟩

/-- The header of an empty message on channel `1` with command `2`, then a byte. -/
theorem parseMessageHeader_sound_emptyMessage :
    Bytes (PeerMessageHeader.save ⟨0x3a, 0x12, 0, 0, 9329481⟩ ++ [9]) ∧
      parseMessageHeader 0x3a (PeerMessageHeader.save ⟨0x3a, 0x12, 0, 0, 9329481⟩ ++ [9]) =
        some (⟨0x3a, 0x12, 0, 0, 9329481⟩, [9]) ∧
      (PeerMessageHeader.save ⟨0x3a, 0x12, 0, 0, 9329481⟩ ++ [9] =
          PeerMessageHeader.save ⟨0x3a, 0x12, 0, 0, 9329481⟩ ++ [9] ∧
        (⟨0x3a, 0x12, 0, 0, 9329481⟩ : PeerMessageHeader).nMagic = 0x3a ∧
        (⟨0x3a, 0x12, 0, 0, 9329481⟩ : PeerMessageHeader).verify = true) :=
  have hbs : Bytes (PeerMessageHeader.save ⟨0x3a, 0x12, 0, 0, 9329481⟩ ++ [9]) := by decide
  have hp : parseMessageHeader 0x3a (PeerMessageHeader.save ⟨0x3a, 0x12, 0, 0, 9329481⟩ ++ [9]) =
      some (⟨0x3a, 0x12, 0, 0, 9329481⟩, [9]) :=
    parseMessageHeader_save rfl (by decide +kernel) (by decide) [9]
  ⟨hbs, hp, parseMessageHeader_sound hbs hp⟩

/-- **Every message received is a message sent.**  Whenever a byte stream is accepted as a
message, with its channel, command and payload, the stream is the bytes `SendMessage` writes for
that message, followed by the rest: `ParseMessageHeader` and the payload check accept nothing
else. -/
theorem receiveMessage_sound (hash32 : List ℕ → UInt32) (nMsgMagic : UInt32) {bs rest : List ℕ}
    (hbs : Bytes bs) {nChannel nCommand : ℕ} {ssPayload : List ℕ}
    (h : receiveMessage hash32 nMsgMagic bs = .ok ((nChannel, nCommand, ssPayload), rest)) :
    ∃ sent, sendMessage hash32 nMsgMagic nChannel nCommand ssPayload = some sent ∧
      bs = sent ++ rest := by
  unfold receiveMessage at h
  cases hp : parseMessageHeader nMsgMagic bs with
  | none => simp only [hp, reduceCtorEq] at h
  | some r =>
    obtain ⟨hdr, rest₀⟩ := r
    simp only [hp] at h
    split_ifs at h with hok
    simp only [Except.ok.injEq, Prod.mk.injEq] at h
    obtain ⟨⟨rfl, rfl, rfl⟩, rfl⟩ := h
    obtain ⟨hbs', hmagic, hv⟩ := parseMessageHeader_sound hbs hp
    -- the payload is as long as the header says, within the bound `Verify` checks
    have hlen : (rest₀.take hdr.nPayloadSize.toNat).length = hdr.nPayloadSize.toNat :=
      List.length_take_of_le hok.1
    have hmax : hdr.nPayloadSize.toNat ≤ messagePayloadMaxSize := ((verify_iff hdr).mp hv).1
    obtain ⟨hdr', hmagic', hv', -, htype', hsize', hsum', hsend⟩ :=
      sendMessage_eq_some hash32 nMsgMagic hdr.getChannel hdr.getCommand (hlen.trans_le hmax)
    -- the header sent is the header read
    have hsame : hdr' = hdr := eq_of_verify hv' hv (hmagic'.trans hmagic.symm)
      (htype'.trans (getMessageType_getChannel_getCommand hdr))
      (UInt32.toNat_inj.mp (hsize'.trans hlen)) (hsum'.trans hok.2.symm)
    refine ⟨_, hsend, ?_⟩
    rw [hsame, List.append_assoc, List.take_append_drop]
    exact hbs'

/-- The empty message on channel `1` with command `2`, then a byte. -/
theorem receiveMessage_sound_emptyMessage :
    Bytes (PeerMessageHeader.save ⟨0x3a, 0x12, 0, 0, 9329481⟩ ++ [9]) ∧
      receiveMessage (fun l => UInt32.ofNat l.sum) 0x3a
          (PeerMessageHeader.save ⟨0x3a, 0x12, 0, 0, 9329481⟩ ++ [9]) = .ok ((1, 2, []), [9]) ∧
      ∃ sent, sendMessage (fun l => UInt32.ofNat l.sum) 0x3a 1 2 [] = some sent ∧
        PeerMessageHeader.save ⟨0x3a, 0x12, 0, 0, 9329481⟩ ++ [9] = sent ++ [9] :=
  have hbs : Bytes (PeerMessageHeader.save ⟨0x3a, 0x12, 0, 0, 9329481⟩ ++ [9]) := by decide
  have hr : receiveMessage (fun l => UInt32.ofNat l.sum) 0x3a
      (PeerMessageHeader.save ⟨0x3a, 0x12, 0, 0, 9329481⟩ ++ [9]) = .ok ((1, 2, []), [9]) := by
    rfl
  ⟨hbs, hr, receiveMessage_sound _ _ hbs hr⟩

/-- **One byte changed in a header is caught.**  Sixteen bytes that a header that verifies
writes, with any one of them changed to another byte, fail `ParseMessageHeader`, whatever
follows them: a change in the thirteen bytes under the CRC changes their CRC (every error in one
byte is detected), and a change in the three bytes of the CRC changes the CRC read. -/
theorem parseMessageHeader_single_byte_error (nMsgMagic : UInt32) {h : PeerMessageHeader}
    (hv : h.verify = true) {k b : ℕ} (hk : k < messageHeaderSize) (hb : b < 256)
    (hne : h.save[k]? ≠ some b) (rest : List ℕ) :
    parseMessageHeader nMsgMagic (h.save.set k b ++ rest) = none := by
  have hc : h.nHeaderChecksum.toNat < 2 ^ 24 := by
    rw [nHeaderChecksum_eq_of_verify hv]
    exact getHeaderChecksum_lt h
  have hbytes : Bytes (h.save.set k b) := bytes_set h.save_bytes k hb
  have hlen : (h.save.set k b).length = messageHeaderSize := by rw [List.length_set, length_save]
  -- the sixteen bytes sent end with the CRC of their first thirteen
  have hcrc := crc_ofBuffer h.save_bytes (length_save h) (by rw [ofBuffer_save h hc]; exact hv)
  simp only [parseMessageHeader, load, Stream.read_append_of_length hlen rest, bind, Except.bind,
    pure, Except.pure]
  rw [if_neg]
  rintro ⟨-, hv'⟩
  exact crc_set_ne h.save_bytes (length_save h) hcrc hk hb hne (crc_ofBuffer hbytes hlen hv')

/-- The header of an empty message on channel `1` with command `2`, a byte of its payload size
changed. -/
theorem parseMessageHeader_single_byte_error_sizeByte :
    (⟨0x3a, 0x12, 0, 0, 9329481⟩ : PeerMessageHeader).verify = true ∧ 5 < messageHeaderSize ∧
      1 < 256 ∧ (PeerMessageHeader.save ⟨0x3a, 0x12, 0, 0, 9329481⟩)[5]? ≠ some 1 ∧
      parseMessageHeader 0x3a ((PeerMessageHeader.save ⟨0x3a, 0x12, 0, 0, 9329481⟩).set 5 1 ++ []) =
        none :=
  have hv : (⟨0x3a, 0x12, 0, 0, 9329481⟩ : PeerMessageHeader).verify = true := by decide +kernel
  have hne : (PeerMessageHeader.save ⟨0x3a, 0x12, 0, 0, 9329481⟩)[5]? ≠ some 1 := by decide
  ⟨hv, by decide, by decide, hne,
    parseMessageHeader_single_byte_error 0x3a hv (by decide) (by decide) hne []⟩

end MetabaseNet.PeerNet
