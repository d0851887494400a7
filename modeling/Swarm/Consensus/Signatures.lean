import Mathlib.Data.List.OfFn
import Swarm.Consensus.Graph
import Swarm.Lib.Ed25519

/-!
# Signatures of events

Every author publishes its key in a genesis payload, and `Ed25519Signer::verify` is
what the hashgraph crate asks before it takes an event. `verify` compares the key
with the author's identity and drops the result, and it turns bytes that are no key
into a panic. `signatures_bind_iff` says for which inputs an accepted event has the
author it names.

`libp2p` is not part of the repository: `Identities` has the functions that are used
of it, and `Identities.dalek` computes them.
-/

namespace Swarm.Consensus

structure EncodedEd25519Pubkey where
  bytes : Fin 32 → UInt8

structure GenesisPayload where
  pubkey : EncodedEd25519Pubkey

structure Signature where
  hash : Hash

/-- `as_ref`. -/
def hashBytes (hash : Hash) : List UInt8 := List.ofFn hash.inner

/-- `libp2p::identity` and `PeerId`, for Ed25519 keys. -/
structure Identities (Key : Type) where
  decode : (Fin 32 → UInt8) → Option Key
  isPublicKey : PeerId → Key → Option Bool
  verify : Key → List UInt8 → List UInt8 → Bool

variable {Key G Job : Type}

/-- `From<EncodedEd25519Pubkey>` for the keys of the library. -/
def EncodedEd25519Pubkey.toPublicKey (libp2p : Identities Key) (val : EncodedEd25519Pubkey) :
    Outcome Empty Key :=
  match libp2p.decode val.bytes with
  | some key => .ok key
  -- `expect("signature parse failure")`
  | none => .panic

/-- `Ed25519Signer::verify`. -/
def Ed25519Signer.verify (libp2p : Identities Key) (hash : Hash) (signature : Signature)
    (identity : PeerId) (genesisPayload : GenesisPayload) : Outcome Empty Bool :=
  match genesisPayload.pubkey.toPublicKey libp2p with
  | .ok publicKey =>
    -- the result is not used
    let _ := (libp2p.isPublicKey identity publicKey).getD false
    .ok (libp2p.verify publicKey (hashBytes hash) (hashBytes signature.hash))
  | .err e => .err e
  | .panic => .panic

/-! ## One check -/

/-- The payload has a key of the identity, and the signature is under it. -/
def Owned (libp2p : Identities Key) (hash : Hash) (signature : Signature) (identity : PeerId)
    (genesisPayload : GenesisPayload) : Prop :=
  ∃ key, libp2p.decode genesisPayload.pubkey.bytes = some key ∧
    libp2p.isPublicKey identity key = some true ∧
    libp2p.verify key (hashBytes hash) (hashBytes signature.hash) = true

/-- The check answers, and answers `true` for the owner only. -/
def Binds (libp2p : Identities Key) (hash : Hash) (signature : Signature) (identity : PeerId)
    (genesisPayload : GenesisPayload) : Prop :=
  ∃ answer, Ed25519Signer.verify libp2p hash signature identity genesisPayload = .ok answer ∧
    (answer = true → Owned libp2p hash signature identity genesisPayload)

/-- The payload has a key, of the identity unless it did not sign. -/
def KeyFits (libp2p : Identities Key) (hash : Hash) (signature : Signature) (identity : PeerId)
    (genesisPayload : GenesisPayload) : Prop :=
  ∃ key, libp2p.decode genesisPayload.pubkey.bytes = some key ∧
    (libp2p.verify key (hashBytes hash) (hashBytes signature.hash) = true →
      libp2p.isPublicKey identity key = some true)

section Check

variable {libp2p : Identities Key} {hash : Hash} {signature : Signature} {identity : PeerId}
  {genesisPayload : GenesisPayload}

theorem verify_of_key {key : Key} (h : libp2p.decode genesisPayload.pubkey.bytes = some key) :
    Ed25519Signer.verify libp2p hash signature identity genesisPayload =
      .ok (libp2p.verify key (hashBytes hash) (hashBytes signature.hash)) := by
  simp only [Ed25519Signer.verify, EncodedEd25519Pubkey.toPublicKey, h]

theorem verify_of_noKey (h : libp2p.decode genesisPayload.pubkey.bytes = none) :
    Ed25519Signer.verify libp2p hash signature identity genesisPayload = .panic := by
  simp only [Ed25519Signer.verify, EncodedEd25519Pubkey.toPublicKey, h]

theorem binds_iff_keyFits : Binds libp2p hash signature identity genesisPayload ↔
    KeyFits libp2p hash signature identity genesisPayload := by
  cases hkey : libp2p.decode genesisPayload.pubkey.bytes with
  | none => simp [Binds, KeyFits, verify_of_noKey hkey, hkey]
  | some key => simp [Binds, KeyFits, Owned, verify_of_key hkey, hkey]; tauto

/-- What the check lets through is owned exactly if the key fits. -/
theorem owned_iff_keyFits
    (h : Ed25519Signer.verify libp2p hash signature identity genesisPayload = .ok true) :
    Owned libp2p hash signature identity genesisPayload ↔
      KeyFits libp2p hash signature identity genesisPayload := by
  cases hkey : libp2p.decode genesisPayload.pubkey.bytes with
  | none =>
    rw [verify_of_noKey hkey] at h
    cases h
  | some key =>
    rw [verify_of_key hkey] at h
    have hsigned := Outcome.ok.inj h
    simp [Owned, KeyFits, hkey, hsigned]

end Check

/-! ## Accepted events -/

/-- What the graph of the crate gives to `verify` when a job is pushed. -/
structure Signed (G Job : Type) where
  hash : Job → Hash
  signature : Job → Signature
  author : Job → PeerId
  genesisPayload : Inner G → Job → GenesisPayload

/-- The crate takes an event only if the check answers `true`. -/
def Crate.Verifies (crate : Crate G Job) (signed : Signed G Job) (libp2p : Identities Key) : Prop :=
  ∀ inner job inner', crate.pushEvent inner job = (.ok (), inner') →
    Ed25519Signer.verify libp2p (signed.hash job) (signed.signature job) (signed.author job)
      (signed.genesisPayload inner job) = .ok true

/-- The jobs that `apply_sync` pushes with success, each with the graph before. -/
def Crate.accepted (crate : Crate G Job) (inner : Inner G) : List Job → List (Inner G × Job)
  | [] => []
  | job :: jobs =>
    match crate.pushEvent inner job with
    | (.ok (), inner') => (inner, job) :: crate.accepted inner' jobs
    | (.error (.eventAlreadyExists _), inner') => crate.accepted inner' jobs
    | (.error (.other _), _) => []

theorem mem_accepted {crate : Crate G Job} {inner : Inner G} {jobs : List Job}
    {p : Inner G × Job} (h : p ∈ crate.accepted inner jobs) :
    ∃ inner', crate.pushEvent p.1 p.2 = (.ok (), inner') := by
  induction jobs generalizing inner with
  | nil => cases h
  | cons job jobs ih =>
    rw [Crate.accepted] at h
    split at h
    · rename_i inner' hpush
      rcases List.mem_cons.1 h with rfl | h
      · exact ⟨inner', hpush⟩
      · exact ih h
    · exact ih h
    · cases h

/-- **Signatures bind their author** exactly where the payload's key fits: there the check
answers, and lets through only what the author has signed; and of the events that a sync gets
into the graph, exactly those are their author's. -/
theorem signatures_bind_iff {libp2p : Identities Key} {crate : Crate G Job} {signed : Signed G Job}
    (hcrate : crate.Verifies signed libp2p) :
    (∀ hash signature identity genesisPayload,
      Binds libp2p hash signature identity genesisPayload ↔
        KeyFits libp2p hash signature identity genesisPayload) ∧
    ∀ inner jobs, ∀ p ∈ crate.accepted inner jobs,
      Owned libp2p (signed.hash p.2) (signed.signature p.2) (signed.author p.2)
          (signed.genesisPayload p.1 p.2) ↔
        KeyFits libp2p (signed.hash p.2) (signed.signature p.2) (signed.author p.2)
          (signed.genesisPayload p.1 p.2) := by
  refine ⟨fun _ _ _ _ => binds_iff_keyFits, fun inner jobs p hp => ?_⟩
  obtain ⟨inner', hpush⟩ := mem_accepted hp
  exact owned_iff_keyFits (hcrate p.1 p.2 inner' hpush)

/-! ## The library -/

/-- The protobuf of an Ed25519 key. -/
def encodeProtobuf (key : List UInt8) : List UInt8 := [0x08, 0x01, 0x12, 0x20] ++ key

/-- The identity of a key: the identity multihash of its protobuf. -/
def peerOf (key : List UInt8) : PeerId := ⟨[0x00, 0x24] ++ encodeProtobuf key⟩

/-- `libp2p::identity` over `ed25519_dalek`: a key is the bytes of a point and the point. -/
def Identities.dalek (sha256 sha512 : List UInt8 → List UInt8) :
    Identities (List UInt8 × Ed25519.Point) where
  decode bytes := (Ed25519.decompress (List.ofFn bytes)).map (List.ofFn bytes, ·)
  isPublicKey identity key :=
    if identity.bytes.head? = some 0 then some (identity = peerOf key.1)
    else some (identity.bytes = [0x12, 0x20] ++ sha256 (encodeProtobuf key.1))
  verify key text signature := Ed25519.verify sha512 key.1 key.2 text signature

/-- The neutral point as a key. -/
def neutralPayload : GenesisPayload := ⟨⟨fun i => if i = 0 then 1 else 0⟩⟩

def neutralSignature : Signature :=
  ⟨Hash.fromArray fun i => Ed25519.neutralSignature.getD i 0⟩

theorem decode_neutral (sha256 sha512 : List UInt8 → List UInt8) :
    (Identities.dalek sha256 sha512).decode neutralPayload.pubkey.bytes =
      some (Ed25519.compress .neutral, .neutral) := by
  have hbytes : List.ofFn neutralPayload.pubkey.bytes = Ed25519.compress .neutral := by
    decide +kernel
  have hpoint : Ed25519.decompress (Ed25519.compress .neutral) = some .neutral := by
    decide +kernel
  simp only [Identities.dalek, hbytes, hpoint, Option.map_some]

/-- Under the neutral key one signature passes for every event of every author. -/
theorem verify_neutral (sha256 sha512 : List UInt8 → List UInt8) (hash : Hash)
    (identity : PeerId) :
    Ed25519Signer.verify (Identities.dalek sha256 sha512) hash neutralSignature identity
      neutralPayload = .ok true := by
  have hbytes : hashBytes neutralSignature.hash = Ed25519.neutralSignature := by decide +kernel
  rw [verify_of_key (decode_neutral sha256 sha512), hbytes]
  exact congrArg Outcome.ok (Ed25519.verify_neutral sha512 _ _)

/-- A crate that takes the events that pass the check. -/
def checkingCrate (libp2p : Identities Key) (signed : Signed Unit Unit) : Crate Unit Unit :=
  { sampleCrate with
    pushEvent := fun inner job =>
      if Ed25519Signer.verify libp2p (signed.hash job) (signed.signature job) (signed.author job)
          (signed.genesisPayload inner job) = .ok true then (.ok (), inner)
      else (.error (.other "invalid signature"), inner) }

theorem checkingCrate_verifies (libp2p : Identities Key) (signed : Signed Unit Unit) :
    (checkingCrate libp2p signed).Verifies signed libp2p := by
  intro inner job inner' h
  simp only [checkingCrate] at h
  split at h
  · assumption
  · cases h

/-- One event that names its author and is signed with the neutral key. -/
def neutralEvent (author : PeerId) : Signed Unit Unit where
  hash _ := ⟨fun _ => 7⟩
  signature _ := neutralSignature
  author _ := author
  genesisPayload _ _ := neutralPayload

theorem accepted_neutral (sha256 sha512 : List UInt8 → List UInt8) (author : PeerId) :
    (checkingCrate (Identities.dalek sha256 sha512) (neutralEvent author)).accepted ⟨(), [], []⟩ [()] =
      [(⟨(), [], []⟩, ())] := by
  have hpass := verify_neutral sha256 sha512 ⟨fun _ => 7⟩ author
  simp only [Crate.accepted, checkingCrate, neutralEvent, hpass, if_pos]

/-- The neutral key has an identity as well, whose events are its own. -/
theorem signatures_bind_iff_sample :
    Owned (Identities.dalek (fun _ => []) fun _ => []) ⟨fun _ => 7⟩ neutralSignature
      (peerOf (Ed25519.compress .neutral)) neutralPayload := by
  have h := (signatures_bind_iff (checkingCrate_verifies (Identities.dalek (fun _ => []) fun _ => [])
    (neutralEvent (peerOf (Ed25519.compress .neutral))))).2 ⟨(), [], []⟩ [()] (⟨(), [], []⟩, ())
      (by rw [accepted_neutral]; exact List.mem_singleton_self _)
  exact h.2 ⟨_, decode_neutral _ _, fun _ => by decide +kernel⟩

/-- The bytes of a genesis payload that encode no point. -/
def noPoint : GenesisPayload := ⟨⟨fun i => if i = 0 then 2 else 0⟩⟩

/-- Bytes that are no key stop the node. An event with the neutral key passes for one of the peer
whose key is the base point, to whom it does not belong, and a sync gets it into the graph. -/
theorem forged_event_accepted :
    Ed25519Signer.verify (Identities.dalek (fun _ => []) fun _ => []) ⟨fun _ => 7⟩ neutralSignature
        (peerOf (Ed25519.compress Ed25519.basePoint)) noPoint = .panic ∧
      Ed25519Signer.verify (Identities.dalek (fun _ => []) fun _ => []) ⟨fun _ => 7⟩
        neutralSignature (peerOf (Ed25519.compress Ed25519.basePoint)) neutralPayload = .ok true ∧
      ¬ Owned (Identities.dalek (fun _ => []) fun _ => []) ⟨fun _ => 7⟩ neutralSignature
        (peerOf (Ed25519.compress Ed25519.basePoint)) neutralPayload ∧
      (checkingCrate (Identities.dalek (fun _ => []) fun _ => [])
        (neutralEvent (peerOf (Ed25519.compress Ed25519.basePoint)))).accepted ⟨(), [], []⟩ [()] =
          [(⟨(), [], []⟩, ())] := by
  refine ⟨verify_of_noKey (by decide +kernel), verify_neutral _ _ _ _, ?_, accepted_neutral _ _ _⟩
  rintro ⟨key, hkey, hidentity, -⟩
  rw [decode_neutral] at hkey
  cases hkey
  revert hidentity
  decide +kernel

end Swarm.Consensus
