import BitShares.Lib.ByteStream

/-!
# Messages on the wire

`message_oriented_connection` over `stcp_socket`: a message is sent as an eight byte header and its
data, padded to a multiple of sixteen bytes and enciphered; the other end deciphers whole blocks and
cuts messages out of them.

The cipher is a parameter, as are the sizes of the pieces in which the transport hands over the
bytes and the content of the memory that pads a message.
-/

namespace BitShares

def maxMessageSize : Nat := 512 * 1024

structure MessageHeader where
  size : UInt32
  msgType : UInt32
  deriving DecidableEq

structure Message extends MessageHeader where
  data : List Byte
  deriving DecidableEq

/-! ## Headers in memory -/

def bytesOfUInt32 (n : UInt32) : List Byte :=
  (List.range 4).map fun i => UInt8.ofNat (n.toNat / 256 ^ i % 256)

def uint32OfBytes (l : List Byte) : UInt32 :=
  UInt32.ofNat (l.foldr (fun x n => x.toNat + 256 * n) 0)

def MessageHeader.bytes (h : MessageHeader) : List Byte :=
  bytesOfUInt32 h.size ++ bytesOfUInt32 h.msgType

def MessageHeader.ofBytes (l : List Byte) : MessageHeader :=
  ⟨uint32OfBytes (l.take 4), uint32OfBytes ((l.drop 4).take 4)⟩

def sizeofMessageHeader : Nat := 8

/-! ## The cipher -/

/-- `fc::aes_encoder` and `fc::aes_decoder`: what is enciphered in blocks of sixteen bytes is
deciphered in blocks by a decoder that has seen the same before. -/
structure AesStream where
  Encoder : Type
  Decoder : Type
  encodeBlock : Encoder → List Byte → Encoder × List Byte
  decodeBlock : Decoder → List Byte → Decoder × List Byte
  Synced : Encoder → Decoder → Prop
  length_encodeBlock : ∀ e l, l.length = 16 → (encodeBlock e l).2.length = 16
  decode_encode : ∀ e d l, Synced e d → l.length = 16 →
    (decodeBlock d (encodeBlock e l).2).2 = l ∧
      Synced (encodeBlock e l).1 (decodeBlock d (encodeBlock e l).2).1

namespace AesStream

variable (aes : AesStream)

def encode : aes.Encoder → List Byte → aes.Encoder × List Byte := onBlocks 16 aes.encodeBlock

def decode : aes.Decoder → List Byte → aes.Decoder × List Byte := onBlocks 16 aes.decodeBlock

end AesStream

/-! ## Sending -/

/-- The sending end of a connection, with the bytes it has handed to the transport. -/
structure SendState (aes : AesStream) where
  sendAes : aes.Encoder
  outgoing : List Byte := []
  bytesSent : Nat := 0

section Send

variable {aes : AesStream}

/-- `stcp_socket::writesome`: how much is written, and the state after it. -/
def stcpWritesome (s : SendState aes) (buffer : List Byte) : Nat × SendState aes :=
  let len := min 4096 buffer.length
  let (sendAes, ciphertext) := aes.encode s.sendAes (buffer.take len)
  (len, { s with sendAes, outgoing := s.outgoing ++ ciphertext })

/-- `fc::ostream::write`: `writesome` until everything is written. -/
def stcpWrite : (rounds : Nat) → SendState aes → List Byte → SendState aes
  | 0, s, _ => s
  | _ + 1, s, [] => s
  | rounds + 1, s, buffer =>
    let (written, s) := stcpWritesome s buffer
    stcpWrite rounds s (buffer.drop written)

/-- `send_message`, with `heap` for what the new buffer holds. -/
def sendMessage (s : SendState aes) (heap : Nat → Byte) (messageToSend : Message) :
    SendState aes :=
  let sizeOfMessageAndHeader := sizeofMessageHeader + messageToSend.size.toNat
  let sizeWithPadding := 16 * ((sizeOfMessageAndHeader + 15) / 16)
  let paddedMessage := messageToSend.toMessageHeader.bytes ++
    messageToSend.data.take messageToSend.size.toNat ++
    (List.range (sizeWithPadding - sizeOfMessageAndHeader)).map heap
  let s := stcpWrite sizeWithPadding s paddedMessage
  { s with bytesSent := s.bytesSent + sizeWithPadding }

def sendMessages (s : SendState aes) (sends : List (Message × (Nat → Byte))) : SendState aes :=
  sends.foldl (fun s send => sendMessage s send.2 send.1) s

end Send

/-! ## Receiving -/

inductive ReadError where
  | eof
  | stalled
  | tooLarge
  deriving DecidableEq

/-- The bytes that have arrived, and how often they have been read. -/
structure TcpSocket where
  incoming : List Byte
  reads : Nat := 0

structure StcpSocket (aes : AesStream) where
  sock : TcpSocket
  recvAes : aes.Decoder

section Receive

variable {aes : AesStream} (pieces : Nat → Nat)

/-- `readsome` of the transport, where `pieces` says how much there is at each read: at least one
byte, unless the other end has closed. -/
def TcpSocket.readsome (len : Nat) (s : TcpSocket) : Except ReadError (List Byte × TcpSocket) :=
  if s.incoming = [] then .error .eof
  else
    let n := max 1 (min (pieces s.reads) len)
    .ok (s.incoming.take n, { incoming := s.incoming.drop n, reads := s.reads + 1 })

/-- `fc::istream::read` on the transport. -/
def TcpSocket.read (len : Nat) (s : TcpSocket) : Except ReadError (List Byte × TcpSocket) :=
  readExact (TcpSocket.readsome pieces) .stalled len len s

/-- Read what is missing of a block after `count` bytes. -/
def TcpSocket.readBlockEnd (count : Nat) (s : TcpSocket) :
    Except ReadError (List Byte × TcpSocket) :=
  if count % 16 = 0 then .ok ([], s) else s.read pieces (16 - count % 16)

/-- `stcp_socket::readsome`: the last block is read to its end. -/
def StcpSocket.readsome (len : Nat) (s : StcpSocket aes) :
    Except ReadError (List Byte × StcpSocket aes) := do
  let len := min 4096 len
  let (bytes, sock) ← s.sock.readsome pieces len
  let (rest, sock) ← sock.readBlockEnd pieces bytes.length
  let (recvAes, buffer) := aes.decode s.recvAes (bytes ++ rest)
  return (buffer, { sock, recvAes })

/-- `fc::istream::read` on the enciphered socket. -/
def StcpSocket.read (len : Nat) (s : StcpSocket aes) :
    Except ReadError (List Byte × StcpSocket aes) :=
  readExact (StcpSocket.readsome pieces) .stalled len len s

structure Connection (aes : AesStream) where
  sock : StcpSocket aes
  bytesReceived : Nat := 0
  delivered : List Message := []

/-- `remaining_bytes_with_padding`, in 32 bits. -/
def remainingBytesWithPadding (size : UInt32) : Nat := (16 * ((size - 8 + 15) / 16)).toNat

/-- One round of `read_loop` up to the call of the delegate. -/
def Connection.receive (c : Connection aes) : Except ReadError (Message × Connection aes) := do
  let (buffer, sock) ← c.sock.read pieces 16
  let header := MessageHeader.ofBytes (buffer.take sizeofMessageHeader)
  if header.size.toNat ≤ maxMessageSize then
    let remaining := remainingBytesWithPadding header.size
    let (rest, sock) ←
      if remaining ≠ 0 then sock.read pieces remaining else pure ([], sock)
    let data := (buffer.drop sizeofMessageHeader ++ rest).take header.size.toNat
    return (⟨header, data⟩, { c with
      sock, bytesReceived := c.bytesReceived + 16 + remaining })
  else .error .tooLarge

/-- How `read_loop` stands: still in the loop, or left by an exception of a read or of the
delegate. -/
inductive ReadLoopState where
  | running
  | disconnected (e : ReadError)
  | delegateThrew
  deriving DecidableEq

/-- `read_loop` for a number of rounds; `onMessage` tells whether the delegate returns. -/
def Connection.readLoop (onMessage : Message → Bool) :
    (rounds : Nat) → Connection aes → ReadLoopState × Connection aes
  | 0, c => (.running, c)
  | rounds + 1, c =>
    match c.receive pieces with
    | .error e => (.disconnected e, c)
    | .ok (m, c) =>
      let c := { c with delivered := c.delivered ++ [m] }
      if onMessage m then readLoop onMessage rounds c else (.delegateThrew, c)

end Receive

end BitShares
