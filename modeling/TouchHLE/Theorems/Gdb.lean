import TouchHLE.Gdb

/-! Which streams of packets `readPacket` takes apart. The parser looks at the buffered bytes only, and these grow only
    when all of them are used up: a read that ends inside a packet is the last one. -/

namespace TouchHLE.Gdb
open Lib List GdbServer BufReader Numeral
variable {read : ReadResult} {rest : List UInt8}

/-- A packet, as it is transmitted: `$`, a body without `#`, `#` and the checksum in hexadecimal digits of either case. -/
structure Packet where
  body : List UInt8
  check1 : UInt8
  check2 : UInt8
  noEnd : packetEnd ∉ body
  length_le : body.length ≤ 4092
  digit1 : isDigit 16 check1 = true
  digit2 : isDigit 16 check2 = true
  sum : .ofNat (value 16 [check1, check2]) = checksum body

/-- A packet or an acknowledgement: `+`, or `-` to ask for the last packet again. -/
inductive Message where
  | packet (p : Packet)
  | ack
  | nak

def Message.encode : Message → List UInt8
  | .packet p => packetStart :: p.body ++ [packetEnd, p.check1, p.check2]
  | .ack => [Gdb.ack]
  | .nak => [45]

def encode (messages : List Message) : List UInt8 := messages.flatMap Message.encode

def Message.payload : Message → Option (List UInt8)
  | .packet p => some p.body
  | .ack => none
  | .nak => none

def payloads (messages : List Message) : List (List UInt8) := messages.filterMap Message.payload

def Unfinished (bytes : List UInt8) : Prop := ∃ message : Message, bytes <+: message.encode ∧ bytes ≠ message.encode

def ReadResult.bytes : ReadResult → List UInt8
  | .data bytes => bytes
  | .error => []
  | .lost => []

def arrived (reads : List ReadResult) : List UInt8 := reads.flatMap ReadResult.bytes

/-- The messages are sent, and then the beginning of another one; the connection is not lost. -/
structure Sent (messages : List Message) (unfinished : List UInt8) (reads : List ReadResult) : Prop where
  arrives : arrived reads = encode messages ++ unfinished
  unfinished : Unfinished unfinished
  kept : .lost ∉ reads

/-- Calls return these packets, in order and each once; all of them after finitely many calls. -/
structure Delivers (server : GdbServer) (packets : List (List UInt8)) : Prop where
  prefixes : ∀ n, ∃ returned after, server.readPackets n = .ok (returned, after) ∧ returned <+: packets
  all : ∃ n after, server.readPackets n = .ok (packets, after)

/-- No message asks for a packet again, and packets are text. -/
def Message.Readable : Message → Prop
  | .packet p => p.body.toByteArray.validateUTF8 = true
  | .ack => True
  | .nak => False

/-- With `buffer` read before, no read ends inside one of the messages. -/
def Whole (buffer : List UInt8) (messages : List Message) (reads : List ReadResult) : Prop :=
  ∀ before after, reads = before ++ after → (buffer ++ arrived before).length < (encode messages).length →
    ∃ done, done <+: messages ∧ buffer ++ arrived before = encode done

section Calls
variable {server after : GdbServer} {packets : List (List UInt8)} {packet : Option (List UInt8)}

section
variable (h : server.readPacket = .ok (packet, after))
include h

theorem readPackets_succ (n : Nat) : server.readPackets (n + 1) =
      after.readPackets n >>= fun packets => .ok (packet.toList ++ packets.1, packets.2) := by
  rw [readPackets, h, ok_bind]

theorem delivers_of_readPacket (hd : Delivers after packets) : Delivers server (packet.toList ++ packets) := by
  refine ⟨fun n => ?_, ?_⟩
  · cases n with
    | zero => exact ⟨[], server, rfl, nil_prefix⟩
    | succ n =>
      obtain ⟨returned, last, hok, hle⟩ := hd.prefixes n
      refine ⟨packet.toList ++ returned, last, ?_, (prefix_append_right_inj _).mpr hle⟩
      rw [readPackets_succ h, hok, ok_bind]
  · obtain ⟨n, last, hok⟩ := hd.all
    refine ⟨n + 1, last, ?_⟩
    rw [readPackets_succ h, hok, ok_bind]

theorem delivers_after (hd : Delivers server (packet.toList ++ packets)) : Delivers after packets := by
  have hscc : ∀ n, ∀ returned last, server.readPackets (n + 1) = .ok (returned, last) →
      ∃ rest, returned = packet.toList ++ rest ∧ after.readPackets n = .ok (rest, last) := by
    intro n returned last hok
    rw [readPackets_succ h] at hok
    obtain ⟨rest, hrs, heq⟩ := bind_eq_ok.mp hok
    cases heq
    exact ⟨rest.1, rfl, hrs⟩
  refine ⟨fun n => ?_, ?_⟩
  · obtain ⟨returned, last, hok, hle⟩ := hd.prefixes (n + 1)
    obtain ⟨rest, rfl, hrs⟩ := hscc n returned last hok
    exact ⟨rest, last, hrs, (prefix_append_right_inj _).mp hle⟩
  · obtain ⟨n, last, hok⟩ := hd.all
    cases n with
    | zero =>
      -- Nothing is returned, so there was nothing to return.
      obtain ⟨hnil, -⟩ := Prod.mk.inj (Except.ok.inj hok)
      exact ⟨0, after, by rw [(append_eq_nil_iff.mp hnil.symm).2]; rfl⟩
    | succ n =>
      obtain ⟨rest, heq, hrs⟩ := hscc n _ last hok
      exact ⟨n, last, by rw [hrs, append_cancel_left heq]⟩

theorem delivers_iff : Delivers server (packet.toList ++ packets) ↔ Delivers after packets :=
  ⟨delivers_after h, delivers_of_readPacket h⟩

end

theorem Delivers.congr {other} (h : server.readPacket = other.readPacket) (hd : Delivers server packets) :
    Delivers other packets := by
  have hscc : ∀ n, server.readPackets (n + 1) = other.readPackets (n + 1) := by
    intro n
    rw [readPackets, h, readPackets]
  refine ⟨fun n => ?_, ?_⟩
  · cases n with
    | zero => exact ⟨[], other, rfl, nil_prefix⟩
    | succ n => exact hscc n ▸ hd.prefixes (n + 1)
  · obtain ⟨n, last, hok⟩ := hd.all
    cases n with
    | zero =>
      obtain ⟨rfl, -⟩ := Prod.mk.inj (Except.ok.inj hok)
      exact ⟨0, other, rfl⟩
    | succ n => exact ⟨n + 1, last, hscc n ▸ hok⟩

theorem not_delivers_of_panic {panic} (h : server.readPacket = .error panic) : ¬Delivers server packets := by
  intro hd
  obtain ⟨returned, last, hok, -⟩ := hd.prefixes 1
  rw [readPackets, h] at hok
  cases hok

theorem readPackets_stuck (h : server.readPacket = .ok (none, server)) (n : Nat) : server.readPackets n = .ok ([], server) := by
  induction n with
  | zero => rfl
  | succ n ih =>
    rw [readPackets_succ h, ih]
    rfl

theorem delivers_iff_of_stuck (h : server.readPacket = .ok (none, server)) : Delivers server packets ↔ packets = [] := by
  constructor
  · intro hd
    obtain ⟨n, last, hok⟩ := hd.all
    rw [readPackets_stuck h] at hok
    exact (Prod.mk.inj (Except.ok.inj hok)).1.symm
  · rintro rfl
    exact ⟨fun n => ⟨[], server, readPackets_stuck h n, nil_prefix⟩, 0, server, rfl⟩

end Calls

/-! ### What one call does with the buffer -/

section Buffer
variable {server : GdbServer} {p : Packet} {missing : List UInt8}

theorem findIdx?_packetEnd {body} (h : packetEnd ∉ body) (rest : List UInt8) :
    (body ++ packetEnd :: rest).findIdx? (· == packetEnd) = some body.length := by
  induction body with
  | nil => rfl
  | cons b body ih =>
    rw [mem_cons, not_or] at h
    rw [cons_append, findIdx?_cons, ih h.2, if_neg (by simpa using Ne.symm h.1)]
    rfl

theorem readPacket_buffered (h : server.reader.buffer ≠ []) : server.readPacket = server.parseBuffer server.reader.buffer := by
  rw [readPacket, fillBuf, if_pos h]

theorem readPacket_ack (h : server.reader.buffer = ack :: rest) :
    server.readPacket = .ok (none, { server with reader := { server.reader with buffer := rest } }) := by
  rw [readPacket_buffered (by simp [h]), h]
  simp only [parseBuffer, head?_cons, if_true, consume, h, drop_succ_cons, drop_zero]

theorem readPacket_nak (h : server.reader.buffer = 45 :: rest) : server.readPacket = .error .packetStart := by
  rw [readPacket_buffered (by simp [h]), h]
  rfl

theorem readPacket_start (h : server.reader.buffer = packetStart :: rest) : server.readPacket =
      match (packetStart :: rest).findIdx? (· == packetEnd) with
      | none =>
        if server.reader.buffer.length = server.reader.capacity then .error .bufferFull else .ok (none, server)
      | some bodyEnd => server.finishPacket server.reader.buffer bodyEnd := by
  rw [readPacket_buffered (by simp [h]), h]
  rfl

theorem isDigit_utf8 {c} (h : isDigit 16 c = true) : [c].toByteArray.validateUTF8 = true := by
  have hall : ∀ b, isDigit 16 ⟨b⟩ = true → [(⟨b⟩ : UInt8)].toByteArray.validateUTF8 = true := by
    decide +kernel
  exact hall c.toBitVec h

theorem checksum_utf8 (p : Packet) : [p.check1, p.check2].toByteArray.validateUTF8 = true := by
  have h1 := ByteArray.validateUTF8_eq_true_iff.mp (isDigit_utf8 p.digit1)
  have h2 := ByteArray.validateUTF8_eq_true_iff.mp (isDigit_utf8 p.digit2)
  have happ := h1.append h2
  exact ByteArray.validateUTF8_eq_true_iff.mpr happ

theorem fromStrRadix16_check (p : Packet) : fromStrRadix16 [p.check1, p.check2] = some (checksum p.body) := by
  have hdg : [p.check1, p.check2].all (isDigit 16) = true := by
    simp [p.digit1, p.digit2]
  have hpls : [p.check1, p.check2].head? ≠ some 43 := by
    intro h
    have hdt := p.digit1
    rw [Option.some.inj h] at hdt
    exact absurd hdt (by decide)
  have hlt := value_lt hdg
  rw [fromStrRadix16, if_neg hpls, if_pos ⟨by simp, hdg, hlt⟩, p.sum]

theorem readPacket_packet (h : server.reader.buffer = (Message.packet p).encode ++ rest) : server.readPacket =
      if p.body.toByteArray.validateUTF8 = false then .error .bodyUtf8
      else .ok (some p.body, { reader := { server.reader with buffer := rest }, written := server.written ++ [ack] }) := by
  have hbf : server.reader.buffer = packetStart :: (p.body ++ packetEnd :: p.check1 :: p.check2 :: rest) := by
    rw [h, Message.encode]
    simp
  have hend : (packetStart :: (p.body ++ packetEnd :: p.check1 :: p.check2 :: rest)).findIdx? (· == packetEnd) =
      some (p.body.length + 1) := by
    rw [findIdx?_cons, findIdx?_packetEnd p.noEnd]
    rfl
  have hcc : (server.reader.buffer.drop (p.body.length + 1 + 1)).take 2 = [p.check1, p.check2] := by
    have hsp : server.reader.buffer = packetStart :: p.body ++ [packetEnd] ++ (p.check1 :: p.check2 :: rest) := by
      simp [hbf]
    rw [hsp, drop_left' (by simp)]
    rfl
  have hbo : (server.reader.buffer.take (p.body.length + 1)).drop 1 = p.body := by
    simp [hbf]
  have hrs : server.reader.buffer.drop (p.body.length + 1 + 3) = rest := by
    rw [h, drop_left' (by simp [Message.encode])]
  have hln : ¬server.reader.buffer.length < p.body.length + 1 + 3 := by
    rw [hbf]
    simp
  rw [readPacket_start hbf, hend]
  simp only [finishPacket, if_neg hln, hcc, checksum_utf8, fromStrRadix16_check, hbo, consume,
    hrs, ne_eq, not_true_eq_false, if_false, Bool.true_eq_false]

theorem readPacket_body (h : packetStart :: p.body = server.reader.buffer ++ missing)
    (hso : server.reader.buffer ≠ []) (hcpc : server.reader.capacity = 4096) :
    server.readPacket = .ok (none, server) := by
  obtain ⟨first, rest, hbf⟩ := exists_cons_of_ne_nil hso
  rw [hbf, cons_append, List.cons.injEq] at h
  obtain ⟨rfl, hrs⟩ := h
  have hno : (packetStart :: rest).findIdx? (· == packetEnd) = none := by
    refine findIdx?_eq_none_iff.mpr fun c hc => ?_
    rcases mem_cons.mp hc with rfl | hc
    · rfl
    · refine beq_eq_false_iff_ne.mpr fun heq => p.noEnd ?_
      rw [hrs, ← heq]
      exact mem_append_left missing hc
  have hln : server.reader.buffer.length ≠ server.reader.capacity := by
    have hle := p.length_le
    rw [hrs, length_append] at hle
    rw [hbf, hcpc, length_cons]
    omega
  rw [readPacket_start hbf, hno]
  exact if_neg hln

theorem readPacket_part (h : (Message.packet p).encode = server.reader.buffer ++ missing) (hms : missing ≠ [])
    (hso : server.reader.buffer ≠ []) (hcpc : server.reader.capacity = 4096) :
    server.readPacket = .ok (none, server) := by
  rcases append_eq_append_iff.mp h with ⟨part, hbf, htl⟩ | ⟨part, hbo, -⟩
  · cases part with
    | nil => exact readPacket_body (by rw [hbf, append_nil, append_nil]) hso hcpc
    | cons c part =>
      -- The `#` is there, and the checksum is not.
      rw [cons_append, List.cons.injEq] at htl
      obtain ⟨rfl, htl⟩ := htl
      have hsr : server.reader.buffer = packetStart :: (p.body ++ packetEnd :: part) := by
        rw [hbf, cons_append]
      have hend : (packetStart :: (p.body ++ packetEnd :: part)).findIdx? (· == packetEnd) = some (p.body.length + 1) := by
        rw [findIdx?_cons, findIdx?_packetEnd p.noEnd]
        rfl
      have hln : server.reader.buffer.length < p.body.length + 1 + 3 := by
        have htwo := congrArg List.length htl
        have hpos := length_pos_iff.mpr hms
        rw [length_append] at htwo
        rw [hsr, length_cons, length_append, length_cons]
        simp only [length_cons, length_nil] at htwo
        omega
      rw [readPacket_start hsr, hend]
      exact if_pos hln
  · exact readPacket_body hbo hso hcpc

end Buffer

section Reads
variable {server : GdbServer} {incoming : List ReadResult}

def GdbServer.afterRead (server : GdbServer) (read : ReadResult) (incoming : List ReadResult) : GdbServer :=
  { server with reader := { server.reader with buffer := read.bytes, incoming } }

section
variable (hbf : server.reader.buffer = [])
include hbf

theorem readPacket_nothing (hic : server.reader.incoming = []) : server.readPacket = .ok (none, server) := by
  rw [readPacket, fillBuf, if_neg (by simp [hbf]), hic]

theorem readPacket_empty (hic : server.reader.incoming = read :: incoming)
    (hlst : read ≠ .lost) (hrd : read.bytes = []) : server.readPacket = .ok (none, server.afterRead read incoming) := by
  rw [readPacket, fillBuf, if_neg (by simp [hbf]), hic]
  cases read with
  | data bytes =>
    cases hrd
    rfl
  | error =>
    rw [afterRead, ReadResult.bytes, ← hbf]
  | lost => exact (hlst rfl).elim

theorem readPacket_read (hic : server.reader.incoming = read :: incoming)
    (hrd : read.bytes ≠ []) : server.readPacket = (server.afterRead read incoming).readPacket := by
  have haf : (server.afterRead read incoming).reader.buffer ≠ [] := hrd
  rw [readPacket_buffered haf, readPacket, fillBuf, if_neg (by simp [hbf]), hic]
  cases read with
  | data bytes => rfl
  | error | lost => exact (hrd rfl).elim

theorem delivers_iff_afterRead {packets}
    (hic : server.reader.incoming = read :: incoming) (hlst : read ≠ .lost) :
    Delivers server packets ↔ Delivers (server.afterRead read incoming) packets := by
  by_cases hrd : read.bytes = []
  · exact delivers_iff (readPacket_empty hbf hic hlst hrd)
  · have hcl := readPacket_read hbf hic hrd
    exact ⟨.congr hcl, .congr hcl.symm⟩

end

end Reads

section Stream
variable {messages : List Message} {unfinished buffer : List UInt8} {reads : List ReadResult}
variable {message : Message} {missing : List UInt8}

theorem Message.encode_ne_nil (message : Message) : message.encode ≠ [] := by
  cases message <;> simp [Message.encode]

theorem encode_cons (message : Message) (messages : List Message) :
    encode (message :: messages) = message.encode ++ encode messages := flatMap_cons

theorem arrived_cons (read : ReadResult) (reads : List ReadResult) :
    arrived (read :: reads) = read.bytes ++ arrived reads := flatMap_cons

theorem whole_nil : Whole buffer [] reads := fun _ _ _ h => (Nat.not_lt_zero _ h).elim

theorem whole_read : Whole [] messages (read :: reads) ↔ Whole read.bytes messages reads := by
  constructor
  · intro h before after hre hlt
    have hcns := h (read :: before) after (by rw [hre, cons_append])
    exact hcns hlt
  · intro h before after hre hlt
    cases before with
    | nil => exact ⟨[], nil_prefix, rfl⟩
    | cons first before =>
      obtain ⟨rfl, hrs⟩ := List.cons.inj hre
      exact h before after hrs hlt

theorem whole_cons : Whole (message.encode ++ buffer) (message :: messages) reads ↔ Whole buffer messages reads := by
  have hln : ∀ before, (message.encode ++ buffer ++ arrived before).length < (encode (message :: messages)).length ↔
      (buffer ++ arrived before).length < (encode messages).length := by
    simp only [encode_cons, length_append]
    omega
  constructor
  · intro h before after hre hlt
    obtain ⟨done, hdn, heq⟩ := h before after hre ((hln before).mpr hlt)
    rw [append_assoc] at heq
    cases done with
    | nil => exact (message.encode_ne_nil (append_eq_nil_iff.mp heq).1).elim
    | cons first done =>
      obtain ⟨rfl, hrs⟩ := cons_prefix_cons.mp hdn
      exact ⟨done, hrs, append_cancel_left heq⟩
  · intro h before after hre hlt
    obtain ⟨done, hdn, heq⟩ := h before after hre ((hln before).mp hlt)
    exact ⟨message :: done, cons_prefix_cons.mpr ⟨rfl, hdn⟩, by rw [encode_cons, append_assoc, heq]⟩

theorem not_whole_of_part (h : message.encode = buffer ++ missing)
    (hbf : buffer ≠ []) (hms : missing ≠ []) : ¬Whole buffer (message :: messages) reads := by
  intro hwh
  have hlt : buffer.length < message.encode.length := by
    rw [h, length_append]
    exact Nat.lt_add_of_pos_right (length_pos_iff.mpr hms)
  have hno : buffer ++ arrived [] = buffer := append_nil buffer
  have hdn := hwh [] reads rfl
  rw [hno, encode_cons, length_append] at hdn
  obtain ⟨done, hdn, heq⟩ := hdn (Nat.lt_add_right _ hlt)
  cases done with
  | nil => exact hbf heq
  | cons first done =>
    obtain ⟨rfl, -⟩ := cons_prefix_cons.mp hdn
    rw [heq, encode_cons, length_append] at hlt
    exact Nat.not_lt.mpr (Nat.le_add_right _ _) hlt

/-- The bytes of the messages are partly in the buffer, and the rest is still to be read. -/
structure Pending (messages : List Message) (unfinished : List UInt8) (server : GdbServer) : Prop where
  capacity : server.reader.capacity = 4096
  arrives : server.reader.buffer ++ arrived server.reader.incoming = encode messages ++ unfinished
  unfinished : Unfinished unfinished
  kept : .lost ∉ server.reader.incoming

variable {server : GdbServer}

theorem Pending.afterRead {incoming} (h : Pending messages unfinished server)
    (hbf : server.reader.buffer = []) (hic : server.reader.incoming = read :: incoming) :
    Pending messages unfinished (server.afterRead read incoming) := by
  have hav := h.arrives
  rw [hbf, hic, arrived_cons, nil_append] at hav
  exact ⟨h.capacity, hav, h.unfinished, fun hlst => h.kept (hic ▸ mem_cons_of_mem read hlst)⟩

theorem Pending.read_ne_lost {incoming} (h : Pending messages unfinished server)
    (hic : server.reader.incoming = read :: incoming) : read ≠ .lost := by
  rintro rfl
  exact h.kept (hic ▸ mem_cons_self)

theorem readPacket_stuck (hcpc : server.reader.capacity = 4096)
    (h : message.encode = server.reader.buffer ++ missing) (hso : server.reader.buffer ≠ []) (hms : missing ≠ []) :
    message.payload.isSome ∧ server.readPacket = .ok (none, server) := by
  have hln : 2 ≤ message.encode.length := by
    rw [h, length_append]
    exact Nat.add_le_add (length_pos_iff.mpr hso) (length_pos_iff.mpr hms)
  cases message with
  | packet p => exact ⟨rfl, readPacket_part h hms hso hcpc⟩
  | ack | nak => exact absurd hln (by decide)

theorem Pending.readPacket_buffered (h : Pending [] unfinished server) (hso : server.reader.buffer ≠ []) :
    server.readPacket = .ok (none, server) := by
  obtain ⟨message, ⟨missing, hmss⟩, hne⟩ := h.unfinished
  have hav : server.reader.buffer ++ arrived server.reader.incoming = unfinished := h.arrives
  rw [← hav, append_assoc] at hmss
  refine (readPacket_stuck h.capacity hmss.symm hso fun hnil => hne ?_).2
  obtain ⟨hrd, hrs⟩ := append_eq_nil_iff.mp hnil
  rw [← hmss, ← hav, hrd, hrs]
  rfl

theorem Pending.readPacket_unfinished (h : Pending [] unfinished server) :
    ∃ after, server.readPacket = .ok (none, after) ∧ Pending [] unfinished after := by
  by_cases hbf : server.reader.buffer = []
  · cases hic : server.reader.incoming with
    | nil => exact ⟨server, readPacket_nothing hbf hic, h⟩
    | cons read incoming =>
      have haf := h.afterRead hbf hic
      refine ⟨server.afterRead read incoming, ?_, haf⟩
      by_cases hrd : read.bytes = []
      · exact readPacket_empty hbf hic (h.read_ne_lost hic) hrd
      · rw [readPacket_read hbf hic hrd]
        exact haf.readPacket_buffered hrd
  · exact ⟨server, h.readPacket_buffered hbf, h⟩

theorem Pending.delivers_nil (h : Pending [] unfinished server) : Delivers server [] := by
  have hno : ∀ n, ∃ after, server.readPackets n = .ok ([], after) := by
    intro n
    induction n generalizing server with
    | zero => exact ⟨server, rfl⟩
    | succ n ih =>
      obtain ⟨after, hcl, haf⟩ := h.readPacket_unfinished
      obtain ⟨last, hls⟩ := ih haf
      exact ⟨last, by rw [readPackets_succ hcl, hls]; rfl⟩
  refine ⟨fun n => ?_, 0, server, rfl⟩
  obtain ⟨after, haf⟩ := hno n
  exact ⟨[], after, haf, nil_prefix⟩

def GdbServer.afterMessage (server : GdbServer) (message : Message) (rest : List UInt8) : GdbServer where
  reader := { server.reader with buffer := rest }
  written := server.written ++ (message.payload.map fun _ => ack).toList

theorem readPacket_message (hrdb : message.Readable) (h : server.reader.buffer = message.encode ++ rest) :
    server.readPacket = .ok (message.payload, server.afterMessage message rest) := by
  cases message with
  | packet p =>
    have hutf8 : p.body.toByteArray.validateUTF8 = true := hrdb
    rw [readPacket_packet h, if_neg (by simp [hutf8])]
    rfl
  | ack =>
    rw [readPacket_ack h, afterMessage, Message.payload, Option.map_none, Option.toList_none, append_nil]
    rfl
  | nak => exact hrdb.elim

theorem readPacket_unreadable (hrdb : ¬message.Readable)
    (h : server.reader.buffer = message.encode ++ rest) : ∃ panic, server.readPacket = .error panic := by
  cases message with
  | packet p =>
    have hutf8 : p.body.toByteArray.validateUTF8 ≠ true := hrdb
    exact ⟨.bodyUtf8, by rw [readPacket_packet h, if_pos (by simpa using hutf8)]⟩
  | ack => exact (hrdb trivial).elim
  | nak => exact ⟨.packetStart, readPacket_nak h⟩

theorem Pending.afterMessage (h : Pending (message :: messages) unfinished server)
    (hbf : server.reader.buffer = message.encode ++ rest) :
    Pending messages unfinished (server.afterMessage message rest) := by
  have hav := h.arrives
  rw [hbf, encode_cons, append_assoc, append_assoc] at hav
  exact ⟨h.capacity, append_cancel_left hav, h.unfinished, h.kept⟩

theorem payloads_cons (message : Message) (messages : List Message) :
    payloads (message :: messages) = message.payload.toList ++ payloads messages := by
  rw [payloads, filterMap_cons]
  cases message.payload <;> rfl

/-- Each call reads or takes a message away, until none is left; the condition is the same before and after. -/
theorem Pending.delivers_iff (h : Pending messages unfinished server) : Delivers server (payloads messages) ↔
      (∀ message ∈ messages, message.Readable) ∧ Whole server.reader.buffer messages server.reader.incoming := by
  induction hk : messages.length + server.reader.incoming.length using Nat.strong_induction_on generalizing messages server with
  | _ k ih =>
    cases messages with
    | nil => exact ⟨fun _ => ⟨fun _ hm => (not_mem_nil hm).elim, whole_nil⟩, fun _ => h.delivers_nil⟩
    | cons message messages =>
      by_cases hbf : server.reader.buffer = []
      · cases hic : server.reader.incoming with
        | nil =>
          have hav := h.arrives
          rw [hbf, hic, encode_cons, append_assoc] at hav
          exact (message.encode_ne_nil (append_eq_nil_iff.mp hav.symm).1).elim
        | cons read incoming =>
          rw [delivers_iff_afterRead hbf hic (h.read_ne_lost hic), hbf, whole_read]
          refine ih _ ?_ (h.afterRead hbf hic) rfl
          rw [← hk, hic]
          exact Nat.add_lt_add_left (Nat.lt_succ_self _) _
      · have hav := h.arrives
        rw [encode_cons, append_assoc] at hav
        have hcss : (∃ rest, server.reader.buffer = message.encode ++ rest) ∨
            ∃ missing, message.encode = server.reader.buffer ++ missing ∧ missing ≠ [] := by
          rcases append_eq_append_iff.mp hav with ⟨missing, hms, -⟩ | ⟨rest, hrs, -⟩
          · by_cases hnil : missing = []
            · exact .inl ⟨[], by rw [hms, hnil, append_nil, append_nil]⟩
            · exact .inr ⟨missing, hms, hnil⟩
          · exact .inl ⟨rest, hrs⟩
        rcases hcss with ⟨rest, hrs⟩ | ⟨missing, hms, hne⟩
        · by_cases hrdb : message.Readable
          · rw [payloads_cons, Gdb.delivers_iff (readPacket_message hrdb hrs), hrs, whole_cons,
              forall_mem_cons, and_iff_right hrdb]
            refine ih _ ?_ (h.afterMessage hrs) rfl
            rw [← hk]
            exact Nat.add_lt_add_right (Nat.lt_succ_self _) _
          · obtain ⟨panic, hpn⟩ := readPacket_unreadable hrdb hrs
            exact ⟨fun hd => (not_delivers_of_panic hpn hd).elim, fun hcd => (hrdb (hcd.1 message mem_cons_self)).elim⟩
        · obtain ⟨hpyl, hcl⟩ := readPacket_stuck h.capacity hms hbf hne
          obtain ⟨payload, hpyl⟩ := Option.isSome_iff_exists.mp hpyl
          rw [delivers_iff_of_stuck hcl, payloads_cons, hpyl]
          exact ⟨fun hnil => (cons_ne_nil _ _ hnil).elim, fun hcd => (not_whole_of_part hms hbf hne hcd.2).elim⟩

end Stream

/-- Packets are returned as they were sent exactly if there are no `-` among them, the bodies are text and no read ends
    inside a message. -/
theorem delivers_iff_whole {messages : List Message} {unfinished : List UInt8} {reads : List ReadResult}
    (h : Sent messages unfinished reads) :
    Delivers (.new reads) (payloads messages) ↔ (∀ message ∈ messages, message.Readable) ∧ Whole [] messages reads :=
  Pending.delivers_iff ⟨rfl, h.arrives, h.unfinished, h.kept⟩

def haltReason : Packet where
  body := [63]
  check1 := 51
  check2 := 102
  noEnd := by decide
  length_le := by decide
  digit1 := by decide
  digit2 := by decide
  sum := by decide

theorem unfinished_nil : Unfinished [] := ⟨.ack, nil_prefix, by decide⟩

/-- An acknowledgement and a packet that arrive in one read, after a timeout. -/
theorem delivers_iff_whole_together : Sent [.ack, .packet haltReason] [] [.error, .data [43, 36, 63, 35, 51, 102]] ∧
      Delivers (new [.error, .data [43, 36, 63, 35, 51, 102]]) [[63]] := by
  have hsent : Sent [.ack, .packet haltReason] [] [.error, .data [43, 36, 63, 35, 51, 102]] :=
    ⟨rfl, unfinished_nil, by decide⟩
  refine ⟨hsent, (delivers_iff_whole hsent).mpr ⟨?_, ?_⟩⟩
  · intro message hmessage
    rcases mem_cons.mp hmessage with rfl | hmessage
    · trivial
    · cases mem_singleton.mp hmessage
      have hutf8 : ([63] : List UInt8).toByteArray.validateUTF8 = true := by decide +kernel
      exact hutf8
  · have hpacket : Whole ((Message.packet haltReason).encode ++ []) [.packet haltReason] [] := whole_cons.mpr whole_nil
    have hboth : Whole (Message.ack.encode ++ [36, 63, 35, 51, 102]) [.ack, .packet haltReason] [] := whole_cons.mpr hpacket
    exact whole_read.mpr (whole_read.mpr hboth)

/-- The same packet in two reads: the second one is never made. -/
theorem packet_in_two_reads : Sent [.packet haltReason] [] [.data [36, 63], .data [35, 51, 102]] ∧
      (∀ n, ∃ after, (new [.data [36, 63], .data [35, 51, 102]]).readPackets n = .ok ([], after)) ∧
      ¬Delivers (new [.data [36, 63], .data [35, 51, 102]]) [[63]] := by
  have hstuck : ((new [.data [36, 63], .data [35, 51, 102]]).afterRead (.data [36, 63])
      [.data [35, 51, 102]]).readPacket = .ok (none, (new [.data [36, 63], .data [35, 51, 102]]).afterRead
        (.data [36, 63]) [.data [35, 51, 102]]) := rfl
  have hnone : ∀ n, ∃ after, (new [.data [36, 63], .data [35, 51, 102]]).readPackets n = .ok ([], after) := by
    intro n
    cases n with
    | zero => exact ⟨_, rfl⟩
    | succ n =>
      have hfirst := (readPacket_read rfl rfl (by decide)).trans hstuck
      exact ⟨_, by rw [readPackets_succ hfirst, readPackets_stuck hstuck, ok_bind]; rfl⟩
  refine ⟨⟨rfl, unfinished_nil, by decide⟩, hnone, fun hd => ?_⟩
  obtain ⟨n, last, hall⟩ := hd.all
  obtain ⟨after, hafter⟩ := hnone n
  cases hafter.symm.trans hall

end TouchHLE.Gdb
