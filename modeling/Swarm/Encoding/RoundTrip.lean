import Swarm.Encoding.OneParity

/-!
# Encoding and decoding

`round_trip`: what `encode` gives can be decoded from any two of its shards,
any two shards decode to the data unit that encodes to them, and too few shards
or a shard id out of range are an error.
-/

namespace Swarm.Encoding

variable {B : Nat} {w : ReedSolomonWrapper}
  {C : MdsCode UInt8 dataShardsCount w.inner.totalShardCount}

theorem totalShardCount_eq (hw : w.inner.Implements C) :
    w.inner.totalShardCount = 2 + w.inner.parityShardCount := by
  rw [ReedSolomon.totalShardCount, hw.data]

/-- A shard id that is no position is an error. -/
theorem decode_wrongShardId {M : HashMap Sid (Shard B)} {s : Sid} (hs : s ∈ M)
    (hlt : w.inner.totalShardCount ≤ s.val) : w.decode M = .err .wrongShardId := by
  have hplace : w.place M = none := by
    unfold ReedSolomonWrapper.place
    rw [if_neg]
    intro h
    have hval := h s (Finmap.mem_keys.2 hs)
    omega
  unfold ReedSolomonWrapper.decode
  rw [hplace]

/-- **Round trip** of the wrapper, in both directions. -/
theorem round_trip (hw : w.inner.Implements C) (hB : 0 < B) :
    (∀ d : Data B, ∃ shards, w.encode d = .ok shards ∧
      (∀ s : Sid, s ∈ shards ↔ s.val < 2 + w.inner.parityShardCount) ∧
      ∀ S : HashMap Sid (Shard B), (∀ s x, S.lookup s = some x → shards.lookup s = some x) →
        2 ≤ S.len → w.decode S = .ok d) ∧
    (∀ M : HashMap Sid (Shard B), M.len = 2 → (∀ s ∈ M, s.val < 2 + w.inner.parityShardCount) →
      ∃ d shards, w.decode M = .ok d ∧ w.encode d = .ok shards ∧
        ∀ s x, M.lookup s = some x → shards.lookup s = some x) ∧
    (∀ M : HashMap Sid (Shard B), ((∃ s ∈ M, 2 + w.inner.parityShardCount ≤ s.val) ∨ M.len < 2) →
      ∃ e, w.decode M = .err e) := by
  have htotal := totalShardCount_eq hw
  refine ⟨fun d => ?_, fun M hlen hkeys => ?_, fun M hbad => ?_⟩
  · refine ⟨codeword C d, encode_eq hw hB d, fun s => ?_, fun S hsub hlen => ?_⟩
    · rw [codeword_keys, htotal]
    · exact decode_codeword hw hB hlen hsub
  · have hkeys' : ∀ s ∈ M.keys, s.val < w.inner.totalShardCount := by
      intro s hs
      rw [htotal]
      exact hkeys s (Finmap.mem_keys.1 hs)
    obtain ⟨d, hd, hword⟩ := decode_two hw hB hkeys' hlen
    exact ⟨d, codeword C d, hd, encode_eq hw hB d, hword⟩
  · by_cases hkeys : ∃ s ∈ M, 2 + w.inner.parityShardCount ≤ s.val
    · obtain ⟨s, hs, hlt⟩ := hkeys
      exact ⟨_, decode_wrongShardId hs (by omega)⟩
    · apply decode_tooFew hw
      · intro s hs
        by_contra hge
        apply hkeys
        refine ⟨s, Finmap.mem_keys.1 hs, ?_⟩
        omega
      · exact hbad.resolve_left hkeys

theorem round_trip_oneParity :
    (∃ shards, OneParity.wrapper.encode (⟨fun _ => 1⟩ : Data 4) = .ok shards ∧
      (⟨2⟩ : Sid) ∈ shards) ∧
    (∃ d, OneParity.wrapper.decode (((∅ : HashMap Sid (Shard 4)).insert ⟨0⟩ ⟨fun _ => 5⟩).insert
      ⟨2⟩ ⟨fun _ => 7⟩) = .ok d) ∧
    ∃ e, OneParity.wrapper.decode ((∅ : HashMap Sid (Shard 4)).insert ⟨3⟩ ⟨fun _ => 1⟩) = .err e := by
  have h := round_trip (w := OneParity.wrapper) (B := 4) OneParity.coder_implements (by decide)
  obtain ⟨shards, hencode, hkeys, -⟩ := h.1 ⟨fun _ => 1⟩
  obtain ⟨d, -, hdecode, -⟩ := h.2.1 (((∅ : HashMap Sid (Shard 4)).insert ⟨0⟩ ⟨fun _ => 5⟩).insert
      ⟨2⟩ ⟨fun _ => 7⟩) (by decide) (by decide)
  exact ⟨⟨shards, hencode, (hkeys _).2 (by decide)⟩, ⟨d, hdecode⟩, h.2.2 _ (.inr (by decide))⟩

end Swarm.Encoding
