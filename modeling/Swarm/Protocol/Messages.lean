import Swarm.Behaviour.Handlers
import Swarm.Lib.WireFormat

/-!
# Messages on the wire

The messages of the protocol and the bytes `bincode` writes for them: fixed
little-endian numbers, the number of elements before a list, the number of the
variant before its fields. What a graph sync holds is the hashgraph crate's:
the message is generic in it, and `sync` is the format of a list of events.
-/

namespace Swarm.Protocol

open Swarm.Processor Swarm.Consensus
open Swarm.Behaviour (Request Response)

variable {B : Nat}

/-- Messages that are sent without waiting for a response. -/
inductive Simple (GraphSync : Type) where
  | gossipGraph (sync : GraphSync)

structure SimpleMessage (GraphSync : Type) where
  simple : Simple GraphSync

namespace Format

def vid : WireFormat Vid := (WireFormat.nat 8).map Vid.mk Vid.val Vid.mk_val

def sid : WireFormat Sid := (WireFormat.nat 8).map Sid.mk Sid.val Sid.mk_val

def byte : WireFormat UInt8 :=
  (WireFormat.array 1).map (fun a => a 0) (fun b _ => b) fun _ => rfl

def peerId : WireFormat PeerId := byte.list.map PeerId.mk PeerId.bytes fun _ => rfl

def hash : WireFormat Hash := (WireFormat.array 64).map Hash.mk Hash.inner fun _ => rfl

def shard : WireFormat (Shard B) := (WireFormat.array B).map Shard.mk Shard.bytes fun _ => rfl

def binaryOp : WireFormat (BinaryOp Vid) :=
  (vid.pair vid).map (fun p => ⟨p.1, p.2⟩) (fun o => (o.first, o.second)) fun _ => rfl

def unaryOp : WireFormat (UnaryOp Vid) := vid.map UnaryOp.mk UnaryOp.operand fun _ => rfl

/-- A variant whose fields are read off by `fields`. -/
def variant {α β : Type} (format : WireFormat β) (make : β → α) (fields : α → Option β)
    (h : ∀ a x, fields a = some x → make x = a) : WireFormat.Variant α :=
  ⟨β, format, make, fields, h⟩

def operation : WireFormat (Operation Vid) :=
  WireFormat.enum
    [variant binaryOp .sub (fun | .sub o => some o | _ => none) (by rintro ⟨⟩ _ ⟨⟩; rfl),
      variant binaryOp .plus (fun | .plus o => some o | _ => none) (by rintro ⟨⟩ _ ⟨⟩; rfl),
      variant unaryOp .inv (fun | .inv o => some o | _ => none) (by rintro ⟨⟩ _ ⟨⟩; rfl),
      variant binaryOp .nand (fun | .nand o => some o | _ => none) (by rintro ⟨⟩ _ ⟨⟩; rfl),
      variant binaryOp .nor (fun | .nor o => some o | _ => none) (by rintro ⟨⟩ _ ⟨⟩; rfl)]
    (by decide)

def instruction : WireFormat (Instruction Vid Vid) :=
  (operation.pair vid).map (fun p => ⟨p.1, p.2⟩) (fun i => (i.operation, i.result)) fun _ => rfl

def programIdentifier : WireFormat ProgramIdentifier :=
  (hash.pair hash).map (fun p => ⟨p.1, p.2⟩) (fun i => (i.hash, i.eventHash)) fun _ => rfl

def transaction : WireFormat Transaction :=
  WireFormat.enum
    [variant (peerId.pair sid).list .initializeStorage
        (fun | .initializeStorage d => some d | _ => none) (by rintro ⟨⟩ _ ⟨⟩; rfl),
      variant vid .storageRequest (fun | .storageRequest v => some v | _ => none)
        (by rintro ⟨⟩ _ ⟨⟩; rfl),
      variant (vid.pair sid) (fun p => .stored p.1 p.2)
        (fun | .stored v s => some (v, s) | _ => none) (by rintro ⟨⟩ _ ⟨⟩; rfl),
      variant instruction.list .execute (fun | .execute is => some is | _ => none)
        (by rintro ⟨⟩ _ ⟨⟩; rfl),
      variant programIdentifier .executed (fun | .executed i => some i | _ => none)
        (by rintro ⟨⟩ _ ⟨⟩; rfl)]
    (by decide)

def event : WireFormat Event :=
  ((peerId.pair hash).pair transaction.list).map (fun p => ⟨p.1.1, p.1.2, ⟨p.2⟩⟩)
    (fun e => ((e.author, e.hash), e.payload.transactions)) fun _ => rfl

/-- The events of a sync, in order. -/
def sync : WireFormat (List Event) := event.list

def request : WireFormat Request :=
  WireFormat.enum
    [variant (vid.pair sid) .getShard (fun | .getShard f => some f | _ => none)
        (by rintro ⟨⟩ _ ⟨⟩; rfl),
      variant (vid.pair sid) .serveShard (fun | .serveShard f => some f | _ => none)
        (by rintro ⟨⟩ _ ⟨⟩; rfl)]
    (by decide)

def response : WireFormat (Response B) :=
  WireFormat.enum
    [variant shard.option .getShard (fun | .getShard x => some x | _ => none)
        (by rintro ⟨⟩ _ ⟨⟩; rfl),
      variant shard.option .serveShard (fun | .serveShard x => some x | _ => none)
        (by rintro ⟨⟩ _ ⟨⟩; rfl)]
    (by simp)

theorem length_request {r : Request} {bytes : List UInt8} (h : request.put r = some bytes) :
    bytes.length = 20 := by
  have hpair : ∀ {f : FullShardId} {x : List UInt8}, (vid.pair sid).put f = some x →
      x.length = 16 := by
    intro f x hx
    obtain ⟨y, z, hy, hz, rfl⟩ := WireFormat.put_pair_eq_some hx
    rw [List.length_append, WireFormat.length_put_nat hy, WireFormat.length_put_nat hz]
  cases r with
  | getShard f | serveShard f =>
    obtain ⟨x, hx, rfl⟩ := Option.map_eq_some_iff.1 h
    rw [List.length_append, WireFormat.length_bytesOf, hpair hx]

theorem length_response {r : Response B} {bytes : List UInt8} (h : response.put r = some bytes) :
    bytes.length ≤ 5 + B := by
  cases r with
  | getShard x | serveShard x =>
    obtain ⟨y, hy, rfl⟩ := Option.map_eq_some_iff.1 h
    rw [List.length_append, WireFormat.length_bytesOf]
    cases x with
    | none =>
      cases hy
      simp
    | some x =>
      cases hy
      simp only [List.length_cons, List.length_ofFn]
      omega

def simpleMessage {GraphSync : Type} (f : WireFormat GraphSync) :
    WireFormat (SimpleMessage GraphSync) :=
  (WireFormat.enum [variant f .gossipGraph (fun | .gossipGraph s => some s)
    (by rintro ⟨⟩ _ ⟨⟩; rfl)] (by simp)).map SimpleMessage.mk SimpleMessage.simple fun _ => rfl

end Format

end Swarm.Protocol
