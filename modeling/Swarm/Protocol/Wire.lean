import Swarm.Protocol.Messages

/-!
# Writers and readers of the wire

A writer serialises a message and sends the bytes after their number; a reader
takes the number, then at most 1 MiB, and deserialises. `bincode` and libp2p's
framing are not part of the repository: `Bincode` and `Socket` are what the code
calls of them, and `Undoes` and `Frames` what their documentation promises.
`wire_round_trip`: requests and responses are read back as they were written, and
simple messages exactly when they are serialised within the readers' limit; a
longer one is refused.
-/

namespace Swarm.Protocol

open Swarm.Processor Swarm.Consensus
open Swarm.Behaviour (Request Response)

variable {B : Nat} {α ε ε' GraphSync : Type}

/-- An error of the serialisation: its message. -/
structure BincodeError where
  message : String

/-- Serialisation of values of `α`. -/
structure Bincode (α : Type) where
  serialize : α → Except BincodeError (List UInt8)
  deserialize : List UInt8 → Except BincodeError α

/-- Deserialising undoes serialising. -/
def Bincode.Undoes (b : Bincode α) : Prop :=
  ∀ a bytes, b.serialize a = .ok bytes → b.deserialize bytes = .ok a

inductive IoError where
  | io (message : String)
  | invalidData (e : BincodeError)

/-- A stream with libp2p's functions on it. The writer's result is what has gone over the wire. -/
structure Socket where
  writeLengthPrefixed : List UInt8 → Except IoError (List UInt8)
  close : Except IoError Unit
  readLengthPrefixed : List UInt8 → Nat → Except IoError (List UInt8)

/-- What was written is read, unless it is longer than the reader allows. -/
structure Socket.Frames (socket : Socket) : Prop where
  within : ∀ payload wire max, socket.writeLengthPrefixed payload = .ok wire →
    payload.length ≤ max → socket.readLengthPrefixed wire max = .ok payload
  beyond : ∀ payload wire max, socket.writeLengthPrefixed payload = .ok wire →
    max < payload.length → ∃ e, socket.readLengthPrefixed wire max = .error e

/-! ## The code -/

/-- Serialise, write with the length in front, close. `io` and `serialization` are the error
conversions of the caller. -/
def write (socket : Socket) (b : Bincode α) (io : IoError → ε) (serialization : BincodeError → ε)
    (data : α) : Except ε (List UInt8) :=
  match b.serialize data with
  | .error e => .error (serialization e)
  | .ok bytes =>
    match socket.writeLengthPrefixed bytes with
    | .error e => .error (io e)
    | .ok wire =>
      match socket.close with
      | .error e => .error (io e)
      | .ok () => .ok wire

def read (socket : Socket) (b : Bincode α) (io : IoError → ε) (serialization : BincodeError → ε)
    (wire : List UInt8) : Except ε α :=
  match socket.readLengthPrefixed wire (1024 * 1024) with
  | .error e => .error (io e)
  | .ok bytes =>
    match b.deserialize bytes with
    | .error e => .error (serialization e)
    | .ok data => .ok data

inductive SimpleMessageReceiverError where
  | io (e : IoError)
  | serialization (e : BincodeError)

inductive SimpleMessageSendError where
  | io (e : IoError)
  | serialization (e : BincodeError)

/-- `SimpleMessageReceiver::upgrade_inbound`. -/
def upgradeInbound (socket : Socket) (b : Bincode (SimpleMessage GraphSync)) (wire : List UInt8) :
    Except SimpleMessageReceiverError (SimpleMessage GraphSync) :=
  read socket b .io .serialization wire

/-- `SimpleMessage::upgrade_outbound`. -/
def upgradeOutbound (socket : Socket) (b : Bincode (SimpleMessage GraphSync))
    (message : SimpleMessage GraphSync) : Except SimpleMessageSendError (List UInt8) :=
  write socket b .io .serialization message

def readRequest (socket : Socket) (b : Bincode Request) (wire : List UInt8) :
    Except IoError Request :=
  read socket b id .invalidData wire

def readResponse (socket : Socket) (b : Bincode (Response B)) (wire : List UInt8) :
    Except IoError (Response B) :=
  read socket b id .invalidData wire

def writeRequest (socket : Socket) (b : Bincode Request) (data : Request) :
    Except IoError (List UInt8) :=
  write socket b id .invalidData data

def writeResponse (socket : Socket) (b : Bincode (Response B)) (data : Response B) :
    Except IoError (List UInt8) :=
  write socket b id .invalidData data

/-! ## Round trips -/

/-- The serialised message is not longer than the readers' limit. -/
def Fits (b : Bincode α) (a : α) : Prop :=
  ∀ bytes, b.serialize a = .ok bytes → bytes.length ≤ 1024 * 1024

variable {socket : Socket} {b : Bincode α} {io : IoError → ε} {serialization : BincodeError → ε}
  {io' : IoError → ε'} {serialization' : BincodeError → ε'}

theorem write_eq_ok {a : α} {wire : List UInt8}
    (h : write socket b io serialization a = .ok wire) :
    ∃ bytes, b.serialize a = .ok bytes ∧ socket.writeLengthPrefixed bytes = .ok wire := by
  unfold write at h
  split at h
  · cases h
  · rename_i bytes hb
    split at h
    · cases h
    · rename_i wire' hw
      split at h <;> cases h
      exact ⟨bytes, hb, hw⟩

/-- A message over the limit is refused. -/
theorem read_error (hf : socket.Frames) {a : α} {wire : List UInt8} (hlong : ¬ Fits b a)
    (h : write socket b io serialization a = .ok wire) :
    ∃ e, read socket b io' serialization' wire = .error (io' e) := by
  obtain ⟨bytes, hb, hw⟩ := write_eq_ok h
  have hlt : 1024 * 1024 < bytes.length := by
    by_contra hle
    refine hlong fun bytes' hb' => ?_
    rw [hb] at hb'
    cases hb'
    exact Nat.le_of_not_lt hle
  obtain ⟨e, he⟩ := hf.beyond bytes wire (1024 * 1024) hw hlt
  unfold read
  rw [he]
  exact ⟨e, rfl⟩

theorem read_write_iff (hf : socket.Frames) (hu : b.Undoes) {a : α} {wire : List UInt8}
    (h : write socket b io serialization a = .ok wire) :
    read socket b io' serialization' wire = .ok a ↔ Fits b a := by
  constructor
  · intro hread
    by_contra hlong
    have hrefused : ∃ e, read socket b io' serialization' wire = .error (io' e) :=
      read_error hf hlong h
    obtain ⟨e, he⟩ := hrefused
    rw [hread] at he
    cases he
  · intro hfits
    obtain ⟨bytes, hb, hw⟩ := write_eq_ok h
    unfold read
    rw [hf.within bytes wire (1024 * 1024) hw (hfits bytes hb)]
    simp only [hu a bytes hb]

/-- **The wire**: every request and every response that is sent without an error is received as
sent, with the sizes that the serialisation gives them; a simple message is, exactly when its
serialised form is at most 1 MiB long, and is refused with an error otherwise. -/
theorem wire_round_trip (frames : socket.Frames)
    {simple : Bincode (SimpleMessage GraphSync)} {request : Bincode Request}
    {response : Bincode (Response B)} (simpleUndoes : simple.Undoes)
    (requestUndoes : request.Undoes) (responseUndoes : response.Undoes)
    (requestSize : ∀ r bytes, request.serialize r = .ok bytes → bytes.length = 20)
    (responseSize : ∀ r bytes, response.serialize r = .ok bytes → bytes.length ≤ 5 + B)
    (shardSize : B ≤ 2 ^ 14) :
    (∀ m wire, upgradeOutbound socket simple m = .ok wire →
      (upgradeInbound socket simple wire = .ok m ↔ Fits simple m) ∧
        (¬ Fits simple m → ∃ e, upgradeInbound socket simple wire = .error (.io e))) ∧
    (∀ r wire, writeRequest socket request r = .ok wire →
      readRequest socket request wire = .ok r) ∧
    ∀ r wire, writeResponse socket response r = .ok wire →
      readResponse socket response wire = .ok r := by
  refine ⟨fun m wire h => ⟨read_write_iff frames simpleUndoes h, fun hlong => ?_⟩,
    fun r wire h => ?_, fun r wire h => ?_⟩
  · exact read_error frames hlong h
  · refine (read_write_iff frames requestUndoes h).2 fun bytes hb => ?_
    have hlen := requestSize r bytes hb
    omega
  · refine (read_write_iff frames responseUndoes h).2 fun bytes hb => ?_
    have hlen := responseSize r bytes hb
    omega

/-! ## A sync that is too long -/

/-- Serialisation with a format; bytes after the value are ignored. -/
def Bincode.ofFormat (f : WireFormat α) : Bincode α where
  serialize a :=
    match f.put a with
    | some bytes => .ok bytes
    | none => .error ⟨"the value is too large"⟩
  deserialize bytes :=
    match f.get bytes with
    | some (a, _) => .ok a
    | none => .error ⟨"the bytes are no value"⟩

theorem Bincode.put_of_serialize {f : WireFormat α} {a : α} {bytes : List UInt8}
    (h : (ofFormat f).serialize a = .ok bytes) : f.put a = some bytes := by
  simp only [ofFormat] at h
  split at h
  · rename_i hp
    cases h
    exact hp
  · cases h

theorem Bincode.undoes_ofFormat (f : WireFormat α) : (ofFormat f).Undoes := by
  intro a bytes h
  have hget := f.get_put [] (put_of_serialize h)
  rw [List.append_nil] at hget
  simp only [ofFormat, hget]

/-- A stream on which nothing fails; the length is an unsigned varint. -/
def openSocket : Socket where
  writeLengthPrefixed payload :=
    match (WireFormat.varint 9).put payload.length with
    | some length => .ok (length ++ payload)
    | none => .error (.io "the length is too large")
  close := .ok ()
  readLengthPrefixed wire max :=
    match (WireFormat.varint 9).get wire with
    | none => .error (.io "no length")
    | some (length, rest) =>
      if max < length then .error (.io "received data size exceeds maximum")
      else if rest.length < length then .error (.io "unexpected end of file")
      else .ok (rest.take length)

theorem openSocket_length {payload wire : List UInt8}
    (h : openSocket.writeLengthPrefixed payload = .ok wire) :
    (WireFormat.varint 9).get wire = some (payload.length, payload) := by
  simp only [openSocket] at h
  split at h
  · rename_i length hp
    cases h
    exact (WireFormat.varint 9).get_put payload hp
  · cases h

theorem openSocket_frames : openSocket.Frames where
  within payload wire max h hle := by
    simp only [openSocket, openSocket_length h]
    rw [if_neg (Nat.not_lt_of_le hle), if_neg (Nat.lt_irrefl _), List.take_length]
  beyond payload wire max h hlt := by
    simp only [openSocket, openSocket_length h, if_pos hlt]
    exact ⟨_, rfl⟩

/-- `v0 := v0 + v0`. -/
def doubling : Instruction Vid Vid := ⟨.plus ⟨⟨0⟩, ⟨0⟩⟩, ⟨0⟩⟩

/-- A sync with one event that carries a program of `n` instructions. -/
def programSync (n : Nat) : SimpleMessage (List Event) :=
  ⟨.gossipGraph [⟨⟨[]⟩, ⟨fun _ => 0⟩, ⟨[.execute (List.replicate n doubling)]⟩⟩]⟩

/-- Every instruction takes 28 bytes. -/
theorem put_programSync {n : Nat} (hn : n < 256 ^ 8) :
    ∃ bytes, (Format.simpleMessage Format.sync).put (programSync n) = some bytes ∧
      bytes.length = 28 * n + 104 := by
  obtain ⟨is, his, hlen⟩ := WireFormat.put_replicate (f := Format.instruction) (a := doubling) rfl hn
  have htx : Format.transaction.put (.execute (List.replicate n doubling)) =
      some (WireFormat.bytesOf 4 3 ++ is) := by
    show (Format.instruction.list.put _).map _ = _
    rw [his]
    rfl
  obtain ⟨txs, htxs, hlen'⟩ := WireFormat.put_replicate htx (n := 1) (by decide)
  have hhead : (Format.peerId.pair Format.hash).put (⟨[]⟩, ⟨fun _ => 0⟩) =
      some (WireFormat.bytesOf 8 0 ++ List.replicate 64 0) := rfl
  have hevent : Format.event.put
      ⟨⟨[]⟩, ⟨fun _ => 0⟩, ⟨[.execute (List.replicate n doubling)]⟩⟩ =
        some ((WireFormat.bytesOf 8 0 ++ List.replicate 64 0) ++ txs) :=
    WireFormat.put_pair hhead htxs
  obtain ⟨es, hes, hlen''⟩ := WireFormat.put_replicate hevent (n := 1) (by decide)
  refine ⟨WireFormat.bytesOf 4 0 ++ es, ?_, ?_⟩
  · show (Format.sync.put _).map _ = _
    rw [show Format.sync.put [_] = some es from hes]
    rfl
  · have hone : (Format.instruction.put doubling).map List.length = some 28 := rfl
    simp only [List.length_append, WireFormat.length_bytesOf, List.length_replicate] at *
    omega

theorem write_openSocket {f : WireFormat α} {a : α} {bytes : List UInt8}
    (h : f.put a = some bytes) (hlen : bytes.length < 128 ^ 10) :
    ∃ wire, write openSocket (.ofFormat f) io serialization a = .ok wire := by
  refine ⟨WireFormat.varintOf 10 bytes.length ++ bytes, ?_⟩
  have hput : (WireFormat.varint 9).put bytes.length =
      some (WireFormat.varintOf 10 bytes.length) := if_pos hlen
  unfold write
  simp only [Bincode.ofFormat, h, openSocket, hput]

/-- `bincode` on the messages with syncs that are lists of events. -/
def simpleBincode : Bincode (SimpleMessage (List Event)) :=
  .ofFormat (Format.simpleMessage Format.sync)

theorem wire_round_trip_short :
    ∃ wire, upgradeOutbound openSocket simpleBincode (programSync 1) = .ok wire ∧
      upgradeInbound openSocket simpleBincode wire = .ok (programSync 1) := by
  obtain ⟨bytes, hput, hlen⟩ := put_programSync (n := 1) (by decide)
  obtain ⟨wire, hwire⟩ : ∃ wire, upgradeOutbound openSocket simpleBincode (programSync 1) =
      .ok wire := write_openSocket hput (by omega)
  have h := wire_round_trip (B := 4) openSocket_frames
    (Bincode.undoes_ofFormat (Format.simpleMessage Format.sync))
    (Bincode.undoes_ofFormat Format.request) (Bincode.undoes_ofFormat Format.response)
    (fun r bytes hb => Format.length_request (Bincode.put_of_serialize hb))
    (fun r bytes hb => Format.length_response (Bincode.put_of_serialize hb)) (by decide)
  refine ⟨wire, hwire, (h.1 _ wire hwire).1.2 fun bytes' hb => ?_⟩
  have hput' := Bincode.put_of_serialize hb
  rw [hput] at hput'
  cases hput'
  omega

/-- A program of 37446 instructions is too long. -/
theorem programSync_refused {n : Nat} (hn : n < 256 ^ 8) (hlong : 37446 ≤ n) :
    ∃ wire, upgradeOutbound openSocket simpleBincode (programSync n) = .ok wire ∧
      ∃ e, upgradeInbound openSocket simpleBincode wire = .error (.io e) := by
  obtain ⟨bytes, hput, hlen⟩ := put_programSync hn
  obtain ⟨wire, hwire⟩ : ∃ wire, upgradeOutbound openSocket simpleBincode (programSync n) =
      .ok wire := write_openSocket hput (by omega)
  have hser : simpleBincode.serialize (programSync n) = .ok bytes := by
    simp only [simpleBincode, Bincode.ofFormat, hput]
  have hlongSync : ¬ Fits simpleBincode (programSync n) := by
    intro hfits
    have hle := hfits bytes hser
    omega
  exact ⟨wire, hwire, read_error openSocket_frames hlongSync hwire⟩

/-- A sync with one event that carries a program of 2^16 instructions is sent without an error,
and the receiver refuses it. -/
theorem long_sync_is_refused :
    openSocket.Frames ∧ simpleBincode.Undoes ∧
    ∃ wire, upgradeOutbound openSocket simpleBincode (programSync 65536) = .ok wire ∧
      ∃ e, upgradeInbound openSocket simpleBincode wire = .error (.io e) :=
  ⟨openSocket_frames, Bincode.undoes_ofFormat _, programSync_refused (by decide) (by decide)⟩

end Swarm.Protocol
