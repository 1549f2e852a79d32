import Mathlib.Tactic.Ring
import BitShares.Net.Framing

/-!
# Messages arrive as they were sent

The wire is followed by `StcpSocket.Ahead`: what is still to be read is the text that was
enciphered, up to whole blocks.  The socket serves it in such blocks however the transport cuts the
bytes (`stcp_serves`), so every read of `read_loop` gets the next part of it (`readExact_ok`), and a
round of the loop takes exactly one frame (`receive_frame`).

* `message_framing`: the messages are delivered as they were sent.
-/

namespace BitShares

/-! ## Headers -/

theorem uint32OfBytes_bytesOfUInt32 (n : UInt32) : uint32OfBytes (bytesOfUInt32 n) = n := by
  have hn := n.toNat_lt
  refine UInt32.toNat_inj.1 ?_
  simp only [uint32OfBytes, bytesOfUInt32, List.range, List.range.loop, List.map_cons, List.map_nil,
    List.foldr_cons, List.foldr_nil, UInt8.toNat_ofNat', UInt32.toNat_ofNat']
  omega

theorem length_bytesOfUInt32 (n : UInt32) : (bytesOfUInt32 n).length = 4 := rfl

theorem MessageHeader.length_bytes (h : MessageHeader) : h.bytes.length = sizeofMessageHeader := rfl

theorem MessageHeader.ofBytes_bytes (h : MessageHeader) : ofBytes h.bytes = h := by
  have hsize : h.bytes.take 4 = bytesOfUInt32 h.size := List.take_left' (length_bytesOfUInt32 _)
  have htype : (h.bytes.drop 4).take 4 = bytesOfUInt32 h.msgType := by
    rw [bytes, List.drop_left' (length_bytesOfUInt32 _),
      List.take_of_length_le (length_bytesOfUInt32 _).le]
  rw [ofBytes, hsize, htype, uint32OfBytes_bytesOfUInt32, uint32OfBytes_bytesOfUInt32]

/-! ## The cipher -/

namespace AesStream

variable {aes : AesStream} {e : aes.Encoder} {d : aes.Decoder} {l : List Byte}

theorem encode_append (e : aes.Encoder) (hl : 16 ∣ l.length) (l' : List Byte) :
    aes.encode e (l ++ l') =
      ((aes.encode (aes.encode e l).1 l').1,
        (aes.encode e l).2 ++ (aes.encode (aes.encode e l).1 l').2) :=
  onBlocks_append (by decide) hl

theorem length_encode (e : aes.Encoder) (hl : 16 ∣ l.length) : (aes.encode e l).2.length = l.length :=
  length_onBlocks (by decide) aes.length_encodeBlock hl

theorem decode_encode_text (h : aes.Synced e d) (hl : 16 ∣ l.length) :
    (aes.decode d (aes.encode e l).2).2 = l ∧
      aes.Synced (aes.encode e l).1 (aes.decode d (aes.encode e l).2).1 :=
  onBlocks_cancel (by decide) aes.length_encodeBlock aes.decode_encode h hl

end AesStream

/-! ## Sending -/

section Send

variable {aes : AesStream}

theorem stcpWrite_eq {rounds : Nat} {s : SendState aes} {l : List Byte} (hl : 16 ∣ l.length)
    (hrounds : l.length ≤ rounds) :
    stcpWrite rounds s l = { s with
      sendAes := (aes.encode s.sendAes l).1
      outgoing := s.outgoing ++ (aes.encode s.sendAes l).2 } := by
  induction rounds generalizing s l with
  | zero =>
    obtain rfl : l = [] := List.length_eq_zero_iff.1 (by omega)
    simp [stcpWrite, AesStream.encode, onBlocks, mapBlocks]
  | succ rounds ih =>
    cases l with
    | nil => simp [stcpWrite, AesStream.encode, onBlocks, mapBlocks]
    | cons x l =>
      generalize hbuffer : x :: l = buffer at *
      have hpos : 0 < buffer.length := by simp [← hbuffer]
      have htake : 16 ∣ (buffer.take (min 4096 buffer.length)).length := by
        rw [List.length_take_of_le (min_le_right ..)]
        omega
      have hdrop : 16 ∣ (buffer.drop (min 4096 buffer.length)).length := by
        rw [List.length_drop]
        omega
      have hround : stcpWrite (rounds + 1) s buffer = stcpWrite rounds (stcpWritesome s buffer).2
          (buffer.drop (min 4096 buffer.length)) := by
        subst hbuffer
        rfl
      have hwhole := AesStream.encode_append s.sendAes htake
        (buffer.drop (min 4096 buffer.length))
      rw [List.take_append_drop] at hwhole
      rw [hwhole, hround, ih hdrop (by rw [List.length_drop]; omega)]
      simp [stcpWritesome]

def frame (send : Message × (Nat → Byte)) : List Byte :=
  let length := sizeofMessageHeader + send.1.size.toNat
  send.1.toMessageHeader.bytes ++ send.1.data.take send.1.size.toNat ++
    (List.range (16 * ((length + 15) / 16) - length)).map send.2

def Message.Fits (m : Message) : Prop :=
  m.data.length = m.size.toNat ∧ m.size.toNat ≤ maxMessageSize

theorem length_frame {send : Message × (Nat → Byte)} (h : send.1.Fits) :
    (frame send).length = 16 * ((sizeofMessageHeader + send.1.size.toNat + 15) / 16) := by
  simp only [frame, List.length_append, MessageHeader.length_bytes, List.length_take, h.1,
    min_self, List.length_map, List.length_range, sizeofMessageHeader]
  omega

theorem dvd_length_frame {send : Message × (Nat → Byte)} (h : send.1.Fits) :
    16 ∣ (frame send).length := ⟨_, length_frame h⟩

theorem sendMessage_eq (s : SendState aes) {send : Message × (Nat → Byte)} (h : send.1.Fits) :
    sendMessage s send.2 send.1 =
      { sendAes := (aes.encode s.sendAes (frame send)).1
        outgoing := s.outgoing ++ (aes.encode s.sendAes (frame send)).2
        bytesSent := s.bytesSent + (frame send).length } := by
  have hwrite := stcpWrite_eq (s := s) (dvd_length_frame h) (length_frame h).le
  rw [length_frame h]
  simp only [sendMessage]
  rw [← frame, hwrite]

theorem sendMessages_eq (s : SendState aes) {sends : List (Message × (Nat → Byte))}
    (h : ∀ send ∈ sends, send.1.Fits) :
    16 ∣ (sends.flatMap frame).length ∧ sendMessages s sends =
      { sendAes := (aes.encode s.sendAes (sends.flatMap frame)).1
        outgoing := s.outgoing ++ (aes.encode s.sendAes (sends.flatMap frame)).2
        bytesSent := s.bytesSent + (sends.flatMap frame).length } := by
  induction sends generalizing s with
  | nil => simp [sendMessages, AesStream.encode, onBlocks, mapBlocks]
  | cons send sends ih =>
    have hsend := h send List.mem_cons_self
    obtain ⟨hdvd, heq⟩ :=
      ih (sendMessage s send.2 send.1) fun x hx => h x (List.mem_cons_of_mem _ hx)
    rw [List.flatMap_cons, AesStream.encode_append _ (dvd_length_frame hsend), List.length_append]
    refine ⟨Nat.dvd_add (dvd_length_frame hsend) hdvd, ?_⟩
    rw [sendMessages, List.foldl_cons, ← sendMessages, heq, sendMessage_eq s hsend]
    simp only [List.append_assoc, Nat.add_assoc]

end Send

/-! ## Reading whole blocks -/

section Receive

variable {aes : AesStream} (pieces : Nat → Nat)

theorem tcp_serves : ServesBlocks (TcpSocket.readsome pieces) 1 fun s l => s.incoming = l := by
  rintro s l len rfl hpos - hlen
  have hne : s.incoming ≠ [] := List.ne_nil_of_length_pos (by omega)
  refine ⟨max 1 (min (pieces s.reads) len), ⟨s.incoming.drop _, s.reads + 1⟩, by omega, by omega,
    Nat.one_dvd _, ?_, rfl⟩
  rw [TcpSocket.readsome, if_neg hne]

/-- The bytes ahead begin with `plain` enciphered, which brings the encoder to `e'`. -/
def StcpSocket.Ahead (e' : aes.Encoder) (rest : List Byte) (s : StcpSocket aes)
    (plain : List Byte) : Prop :=
  ∃ e, aes.Synced e s.recvAes ∧ 16 ∣ plain.length ∧ (aes.encode e plain).1 = e' ∧
    s.sock.incoming = (aes.encode e plain).2 ++ rest

theorem readsome_blocks (s : TcpSocket) {len : Nat} (hpos : 0 < len) (hdvd : 16 ∣ len)
    (hlen : len ≤ s.incoming.length) :
    ∃ n sock bytes more sock', 0 < n ∧ n ≤ len ∧ 16 ∣ n ∧
      s.readsome pieces len = .ok (bytes, sock) ∧
      sock.readBlockEnd pieces bytes.length = .ok (more, sock') ∧
      bytes ++ more = s.incoming.take n ∧ sock'.incoming = s.incoming.drop n := by
  obtain ⟨n, sock, hn, hle, -, hread, hsock⟩ :=
    tcp_serves pieces s _ len rfl hpos (Nat.one_dvd _) hlen
  have hbytes : (s.incoming.take n).length = n := List.length_take_of_le (by omega)
  by_cases hmod : n % 16 = 0
  · refine ⟨n, sock, _, [], sock, hn, hle, Nat.dvd_of_mod_eq_zero hmod, hread, ?_, by simp, hsock⟩
    rw [TcpSocket.readBlockEnd, hbytes, if_pos hmod]
  · have hfull : n + (16 - n % 16) ≤ len := by omega
    obtain ⟨sock', hrest, hsock'⟩ : ∃ sock', sock.read pieces (16 - n % 16) =
        .ok ((s.incoming.drop n).take (16 - n % 16), sock') ∧
        sock'.incoming = (s.incoming.drop n).drop (16 - n % 16) :=
      readExact_ok (tcp_serves pieces) hsock (Nat.one_dvd _) (by rw [List.length_drop]; omega) le_rfl
    refine ⟨n + (16 - n % 16), sock, _, (s.incoming.drop n).take (16 - n % 16), sock', by omega,
      hfull, by omega, hread, ?_, ?_, ?_⟩
    · rw [TcpSocket.readBlockEnd, hbytes, if_neg hmod]
      exact hrest
    · rw [List.take_add]
    · rw [hsock', List.drop_drop]

theorem stcp_serves (e' : aes.Encoder) (rest : List Byte) :
    ServesBlocks (StcpSocket.readsome pieces) 16
      fun s : StcpSocket aes => StcpSocket.Ahead e' rest s := by
  rintro s plain len ⟨e, hsync, hplain, rfl, hincoming⟩ hpos hdvd hlen
  have hcipher := AesStream.length_encode e hplain
  obtain ⟨n, sock, bytes, more, sock', hn, hle, hblocks, hread, hmore, htake, hdrop⟩ :=
    readsome_blocks pieces s.sock (by omega : 0 < min 4096 len) (by omega)
      (by rw [hincoming, List.length_append]; omega)
  have hfirst : 16 ∣ (plain.take n).length := by rwa [List.length_take_of_le (by omega)]
  have hrest : 16 ∣ (plain.drop n).length := by
    rw [List.length_drop]
    exact Nat.dvd_sub hplain hblocks
  have hsplit := AesStream.encode_append e hfirst (plain.drop n)
  rw [List.take_append_drop] at hsplit
  have hlength : (aes.encode e (plain.take n)).2.length = n := by
    rw [AesStream.length_encode e hfirst, List.length_take_of_le (by omega)]
  obtain ⟨htext, hsync'⟩ := AesStream.decode_encode_text hsync hfirst
  rw [hincoming, hsplit, List.append_assoc, List.take_left' hlength] at htake
  rw [hincoming, hsplit, List.append_assoc, List.drop_left' hlength] at hdrop
  refine ⟨n, ⟨sock', (aes.decode s.recvAes (bytes ++ more)).1⟩, hn, by omega, hblocks, ?_, ?_⟩
  · simp only [StcpSocket.readsome, hread, bind, Except.bind, hmore, htake, htext]
    rfl
  · refine ⟨(aes.encode e (plain.take n)).1, ?_, hrest, by rw [hsplit], hdrop⟩
    rw [htake]
    exact hsync'

theorem read_ahead {e' : aes.Encoder} {rest plain : List Byte} {s : StcpSocket aes}
    (h : s.Ahead e' rest plain) {len : Nat} (hdvd : 16 ∣ len) (hlen : len ≤ plain.length) :
    ∃ s', s.read pieces len = .ok (plain.take len, s') ∧ s'.Ahead e' rest (plain.drop len) :=
  readExact_ok (stcp_serves pieces e' rest) h hdvd hlen le_rfl

/-! ## A round of the loop -/

theorem remainingBytesWithPadding_eq {size : UInt32} (h : size.toNat ≤ maxMessageSize) :
    remainingBytesWithPadding size = 16 * ((size.toNat + 7) / 16) := by
  simp only [remainingBytesWithPadding, UInt32.toNat_mul, UInt32.toNat_div, UInt32.toNat_add,
    UInt32.toNat_sub, UInt32.reduceToNat]
  unfold maxMessageSize at h
  omega

/-- **A round takes one frame** and makes the message of it. -/
theorem receive_frame {e' : aes.Encoder} {rest plain : List Byte} {c : Connection aes}
    {send : Message × (Nat → Byte)} (hfits : send.1.Fits)
    (h : c.sock.Ahead e' rest (frame send ++ plain)) :
    ∃ sock, c.receive pieces = .ok (send.1, { c with
        sock, bytesReceived := c.bytesReceived + (frame send).length }) ∧
      sock.Ahead e' rest plain := by
  have hremaining := remainingBytesWithPadding_eq hfits.2
  have hlength : (frame send).length = 16 + remainingBytesWithPadding send.1.size := by
    rw [length_frame hfits, hremaining, sizeofMessageHeader]
    omega
  -- the first block has the header and the first bytes of the data
  have hheader : MessageHeader.ofBytes (((frame send).take 16).take sizeofMessageHeader) =
      send.1.toMessageHeader := by
    rw [List.take_take, min_eq_left (by decide : sizeofMessageHeader ≤ 16), frame,
      List.append_assoc, List.take_left' (MessageHeader.length_bytes _), MessageHeader.ofBytes_bytes]
  have hdata : (((frame send).take 16).drop sizeofMessageHeader ++ (frame send).drop 16).take
      send.1.size.toNat = send.1.data := by
    rw [← List.drop_append_of_le_length (by rw [List.length_take, sizeofMessageHeader]; omega),
      List.take_append_drop, frame, List.append_assoc,
      List.drop_left' (MessageHeader.length_bytes _), ← hfits.1, List.take_length, List.take_left]
  obtain ⟨sock, hread, hsock⟩ : ∃ sock, c.sock.read pieces 16 = .ok ((frame send).take 16, sock) ∧
      sock.Ahead e' rest ((frame send).drop 16 ++ plain) := by
    have hread := read_ahead pieces h (by decide : 16 ∣ 16) (by rw [List.length_append]; omega)
    rwa [List.take_append_of_le_length (by omega), List.drop_append_of_le_length (by omega)] at hread
  obtain ⟨sock', hread', hsock'⟩ : ∃ sock',
      sock.read pieces (remainingBytesWithPadding send.1.size) = .ok ((frame send).drop 16, sock') ∧
      sock'.Ahead e' rest plain := by
    have hlen : ((frame send).drop 16).length = remainingBytesWithPadding send.1.size := by
      rw [List.length_drop, hlength, Nat.add_sub_cancel_left]
    have hread := read_ahead pieces hsock (hremaining ▸ Nat.dvd_mul_right 16 _)
      (by rw [List.length_append, hlen]; omega)
    rwa [List.take_left' hlen, List.drop_left' hlen] at hread
  refine ⟨sock', ?_, hsock'⟩
  simp only [Connection.receive, hread, bind, Except.bind, hheader, if_pos hfits.2, hlength]
  by_cases hzero : remainingBytesWithPadding send.1.size = 0
  · -- nothing is left to read, and reading nothing changes nothing
    obtain ⟨hnil, rfl⟩ : [] = (frame send).drop 16 ∧ sock = sock' := by
      simpa [hzero, StcpSocket.read, readExact] using hread'
    rw [← hnil] at hdata
    simp only [hzero, ne_eq, not_true_eq_false, if_false, pure, Except.pure, hdata]
  · simp only [hzero, ne_eq, not_false_eq_true, if_true, hread', pure, Except.pure, hdata,
      Nat.add_assoc]

/-! ## The loop -/

theorem readLoop_frames (onMessage : Message → Bool) {e' : aes.Encoder} {rest : List Byte}
    {sends : List (Message × (Nat → Byte))} {c : Connection aes}
    (hfits : ∀ send ∈ sends, send.1.Fits) (hon : ∀ send ∈ sends, onMessage send.1 = true)
    (h : c.sock.Ahead e' rest (sends.flatMap frame)) (rounds : Nat) :
    ∃ sock, c.readLoop pieces onMessage (sends.length + rounds) =
        Connection.readLoop pieces onMessage rounds
          { sock := sock
            bytesReceived := c.bytesReceived + (sends.flatMap frame).length
            delivered := c.delivered ++ sends.map (·.1) } ∧
      sock.Ahead e' rest [] := by
  induction sends generalizing c with
  | nil => exact ⟨c.sock, by simp, h⟩
  | cons send sends ih =>
    have hsend := hfits send List.mem_cons_self
    rw [List.flatMap_cons] at h
    obtain ⟨sock, hreceive, hsock⟩ := receive_frame pieces hsend h
    obtain ⟨sock', hloop, hsock'⟩ := ih
      (c := ⟨sock, c.bytesReceived + (frame send).length, c.delivered ++ [send.1]⟩)
      (fun x hx => hfits x (List.mem_cons_of_mem _ hx))
      (fun x hx => hon x (List.mem_cons_of_mem _ hx)) hsock
    refine ⟨sock', ?_, hsock'⟩
    rw [List.length_cons, Nat.add_right_comm]
    simp only [Connection.readLoop, hreceive, hon send List.mem_cons_self, if_true, hloop]
    simp [Nat.add_assoc]

theorem readLoop_eof (onMessage : Message → Bool) {e' : aes.Encoder} {c : Connection aes}
    (h : c.sock.Ahead e' [] []) (rounds : Nat) :
    c.readLoop pieces onMessage (rounds + 1) = (.disconnected .eof, c) := by
  obtain ⟨e, -, -, -, hincoming⟩ := h
  have hempty : c.sock.sock.incoming = [] := by
    simpa [AesStream.encode, onBlocks, mapBlocks] using hincoming
  have hreceive : c.receive pieces = .error .eof := by
    simp [Connection.receive, StcpSocket.read, readExact, StcpSocket.readsome,
      TcpSocket.readsome, hempty, bind, Except.bind]
  simp only [Connection.readLoop, hreceive]

theorem delivered_prefix (onMessage : Message → Bool) {e' : aes.Encoder}
    {sends : List (Message × (Nat → Byte))} {c : Connection aes}
    (hfits : ∀ send ∈ sends, send.1.Fits)
    (h : c.sock.Ahead e' [] (sends.flatMap frame)) (rounds : Nat) :
    ∃ n, (c.readLoop pieces onMessage rounds).2.delivered =
      c.delivered ++ (sends.map (·.1)).take n := by
  induction rounds generalizing sends c with
  | zero => exact ⟨0, by simp [Connection.readLoop]⟩
  | succ rounds ih =>
    cases sends with
    | nil => exact ⟨0, by simp [readLoop_eof pieces onMessage h]⟩
    | cons send sends =>
      have hsend := hfits send List.mem_cons_self
      rw [List.flatMap_cons] at h
      obtain ⟨sock, hreceive, hsock⟩ := receive_frame pieces hsend h
      simp only [Connection.readLoop, hreceive]
      split_ifs
      · obtain ⟨n, hn⟩ := ih
          (c := ⟨sock, c.bytesReceived + (frame send).length, c.delivered ++ [send.1]⟩)
          (fun x hx => hfits x (List.mem_cons_of_mem _ hx)) hsock
        exact ⟨n + 1, by rw [hn]; simp⟩
      · exact ⟨1, by simp⟩

end Receive

/-! ## Main result -/

/-- **Messages arrive as they were sent.**  Whatever the pieces in which the transport hands over
the bytes, the loop delivers the messages in their order, has then taken exactly the bytes that were
sent, and leaves what follows them; at the end of the bytes it is left.  A delegate that throws gets
a beginning of the messages. -/
theorem message_framing (aes : AesStream) {e : aes.Encoder} {d : aes.Decoder}
    (hsync : aes.Synced e d) (sends : List (Message × (Nat → Byte)))
    (hfits : ∀ send ∈ sends, send.1.data.length = send.1.size.toNat ∧
      send.1.size.toNat ≤ maxMessageSize) (pieces : Nat → Nat) :
    let sent := sendMessages { sendAes := e } sends
    let start (rest : List Byte) : Connection aes :=
      { sock := { sock := { incoming := sent.outgoing ++ rest }, recvAes := d } }
    sent.bytesSent = sent.outgoing.length ∧
    (∀ onMessage : Message → Bool, (∀ send ∈ sends, onMessage send.1 = true) →
      (∀ rest, ∃ c, (start rest).readLoop pieces onMessage sends.length = (.running, c) ∧
        c.delivered = sends.map (·.1) ∧ c.bytesReceived = sent.bytesSent ∧
        c.sock.sock.incoming = rest ∧ aes.Synced sent.sendAes c.sock.recvAes) ∧
      ∀ more, ∃ c, (start []).readLoop pieces onMessage (sends.length + 1 + more) =
          (.disconnected .eof, c) ∧
        c.delivered = sends.map (·.1) ∧ c.sock.sock.incoming = []) ∧
    ∀ (onMessage : Message → Bool) (rounds : Nat),
      ((start []).readLoop pieces onMessage rounds).2.delivered <+: sends.map (·.1) := by
  obtain ⟨hdvd, hsent⟩ := sendMessages_eq { sendAes := e } hfits
  intro sent start
  have hlength := AesStream.length_encode e hdvd
  have houtgoing : sent.outgoing = (aes.encode e (sends.flatMap frame)).2 := by
    simp only [sent, hsent, List.nil_append]
  have hbytes : sent.bytesSent = (sends.flatMap frame).length := by
    simp only [sent, hsent, Nat.zero_add]
  have hahead : ∀ rest, (start rest).sock.Ahead sent.sendAes rest (sends.flatMap frame) :=
    fun rest => ⟨e, hsync, hdvd, by simp only [sent, hsent], by simp only [start, houtgoing]⟩
  -- a socket with nothing of the frames ahead of it
  have hdone : ∀ {rest : List Byte} {sock : StcpSocket aes}, sock.Ahead sent.sendAes rest [] →
      sock.sock.incoming = rest ∧ aes.Synced sent.sendAes sock.recvAes := by
    rintro rest sock ⟨e', hsync', -, hencoder, hincoming⟩
    simp only [AesStream.encode, onBlocks, mapBlocks, List.length_nil, Nat.zero_div,
      List.nil_append] at hencoder hincoming
    exact ⟨hincoming, hencoder ▸ hsync'⟩
  refine ⟨by rw [hbytes, houtgoing, hlength], fun onMessage hon => ⟨fun rest => ?_, fun more => ?_⟩,
    fun onMessage rounds => ?_⟩
  · obtain ⟨sock, hloop, hsock⟩ := readLoop_frames pieces onMessage hfits hon (hahead rest) 0
    obtain ⟨hincoming, hsynced⟩ := hdone hsock
    refine ⟨_, hloop, by simp [start], by simp [start, hbytes], hincoming, hsynced⟩
  · obtain ⟨sock, hloop, hsock⟩ :=
      readLoop_frames pieces onMessage hfits hon (hahead []) (more + 1)
    obtain ⟨hincoming, -⟩ := hdone hsock
    rw [Nat.add_assoc, Nat.add_comm 1 more, hloop]
    exact ⟨_, readLoop_eof pieces onMessage hsock more, List.nil_append _, hincoming⟩
  · obtain ⟨n, hn⟩ := delivered_prefix pieces onMessage hfits (hahead []) rounds
    rw [hn]
    exact List.take_prefix ..

def AesStream.counting : AesStream where
  Encoder := Byte
  Decoder := Byte
  encodeBlock e l := (e + 1, l.map (· + e))
  decodeBlock d l := (d + 1, l.map (· - d))
  Synced e d := e = d
  length_encodeBlock e l hl := by simpa using hl
  decode_encode e d l h _ := by
    subst h
    simp [Function.comp_def]

def exampleMessages : List (Message × (Nat → Byte)) :=
  [(⟨⟨3, 5001⟩, [1, 2, 3]⟩, fun _ => 0), (⟨⟨0, 5004⟩, []⟩, fun _ => 9),
    (⟨⟨9, 5002⟩, List.replicate 9 4⟩, fun i => i.toUInt8)]

theorem message_framing_three :
    let key : Byte := 7
    let sent := sendMessages (⟨key, [], 0⟩ : SendState .counting) exampleMessages
    ∃ c, Connection.readLoop (fun _ => 5) (fun _ => true) 3
        (⟨⟨⟨sent.outgoing ++ [8], 0⟩, key⟩, 0, []⟩ : Connection .counting) = (.running, c) ∧
      c.delivered = exampleMessages.map (·.1) := by
  obtain ⟨-, h, -⟩ := message_framing AesStream.counting (e := (7 : Byte)) (d := (7 : Byte)) rfl
    exampleMessages (by decide) fun _ => 5
  obtain ⟨c, hloop, hdelivered, -⟩ := (h (fun _ => true) fun _ _ => rfl).1 [8]
  exact ⟨c, hloop, hdelivered⟩

end BitShares
