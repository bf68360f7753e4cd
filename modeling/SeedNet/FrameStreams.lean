import SeedNet.Frames

/-! # Frames one after the other

Several calls of `write_frame` on one stream and several calls of `read_frame` at its other end
(`crates/transport/src/frame.rs`).  How much of each frame its `write_vectored` takes is free, and the stream may go
on behind the frames.  `stream_framing`: what is read is what was written.  At any time only a beginning of the
stream may have arrived; the frames that can be read then are the first ones (`readFrames_of_prefix`). -/

namespace SeedNet

/-- A call of `write_frame`: how many bytes its `write_vectored` takes, and the payload. -/
abbrev FrameWrite := ℕ × Bytes

/-- The bytes of the calls. -/
def writeFrames (writes : List FrameWrite) : Bytes := writes.flatMap fun w => writeFrame w.1 w.2

/-- As many calls of `read_frame`: the payloads and the bytes behind them, if all calls return. -/
def readFrames : ℕ → Bytes → Option (List Bytes × Bytes)
  | 0, stream => some ([], stream)
  | k + 1, stream =>
    match readFrame stream with
    | .frame payload rest => (readFrames k rest).map fun r => (payload :: r.1, r.2)
    | .tooLarge | .incomplete => none

/-- Four bytes of length, most significant first, and the payload. -/
def frameOf (payload : Bytes) : Bytes := toBeBytes payload.length.toUInt32 ++ payload

theorem writeFrames_eq (writes : List FrameWrite) :
    writeFrames writes = ((writes.map Prod.snd).map frameOf).flatten := by
  induction writes with
  | nil => rfl
  | cons w writes ih =>
      rw [writeFrames, List.flatMap_cons, writeFrame_eq, List.map_cons, List.map_cons, List.flatten_cons, ← ih]
      rfl

theorem payloads_le {writes : List FrameWrite} (hlen : ∀ w ∈ writes, w.2.length ≤ 65536) :
    ∀ p ∈ writes.map Prod.snd, p.length ≤ maxFrameLen := by
  intro p hp
  obtain ⟨w, hw, rfl⟩ := List.mem_map.mp hp
  exact hlen w hw

theorem readFrame_frameOf {payload : Bytes} (hlen : payload.length ≤ maxFrameLen) (rest : Bytes) :
    readFrame (frameOf payload ++ rest) = .frame payload rest := by
  have hsize : payload.length < UInt32.size := lt_of_le_of_lt hlen (by decide)
  exact (readFrame_append hsize rest).trans (if_neg (not_lt.mpr hlen))

theorem readFrames_flatten {payloads : List Bytes} (hlen : ∀ p ∈ payloads, p.length ≤ maxFrameLen) (suffix : Bytes) :
    readFrames payloads.length ((payloads.map frameOf).flatten ++ suffix) = some (payloads, suffix) := by
  induction payloads with
  | nil => rfl
  | cons p payloads ih =>
      rw [List.map_cons, List.flatten_cons, List.append_assoc, List.length_cons, readFrames,
        readFrame_frameOf (hlen p List.mem_cons_self)]
      dsimp only
      rw [ih fun q hq => hlen q (List.mem_cons_of_mem p hq), Option.map_some]

/-- **Framing delivers the messages sent**, however the writes are cut. -/
theorem stream_framing (writes : List FrameWrite) (hlen : ∀ w ∈ writes, w.2.length ≤ 65536) (suffix : Bytes) :
    writeFrames writes = ((writes.map Prod.snd).map frameOf).flatten ∧
      readFrames writes.length (writeFrames writes ++ suffix) = some (writes.map Prod.snd, suffix) := by
  refine ⟨writeFrames_eq writes, ?_⟩
  have hread := readFrames_flatten (payloads_le hlen) suffix
  rw [List.length_map] at hread
  rw [writeFrames_eq]
  exact hread

/-- Two frames, the first of them cut within its header. -/
theorem stream_framing_two :
    writeFrames [(2, [1, 2, 3]), (6, [4, 5])] = [[0, 0, 0, 3, 1, 2, 3], [0, 0, 0, 2, 4, 5]].flatten ∧
      readFrames 2 (writeFrames [(2, [1, 2, 3]), (6, [4, 5])] ++ [9]) = some ([[1, 2, 3], [4, 5]], [9]) :=
  stream_framing [(2, [1, 2, 3]), (6, [4, 5])] (by decide) [9]

/-! ### Streams that have arrived in part -/

/-- A frame that can be read is not changed by what arrives later. -/
theorem readFrame_more {stream payload rest : Bytes} (h : readFrame stream = .frame payload rest) (more : Bytes) :
    readFrame (stream ++ more) = .frame payload (rest ++ more) := by
  unfold readFrame at h ⊢
  split at h
  · cases h
  · next hlong =>
      have hheader : frameHeaderLen ≤ stream.length := not_lt.mp hlong
      have hlong' : ¬ (stream ++ more).length < frameHeaderLen := by
        rw [List.length_append]
        omega
      dsimp only at h ⊢
      rw [if_neg hlong', List.take_append_of_le_length hheader, List.drop_append_of_le_length hheader]
      split at h
      · cases h
      · next hfits =>
          rw [if_neg hfits]
          split at h
          · cases h
          · next hbody =>
              have hbody' : ¬ (stream.drop frameHeaderLen ++ more).length <
                  fromBeBytes (stream.take frameHeaderLen) := by
                rw [List.length_append]
                omega
              cases h
              rw [if_neg hbody', List.take_append_of_le_length (not_lt.mp hbody),
                List.drop_append_of_le_length (not_lt.mp hbody)]

theorem readFrames_more {k : ℕ} {stream rest : Bytes} {payloads : List Bytes}
    (h : readFrames k stream = some (payloads, rest)) (more : Bytes) :
    readFrames k (stream ++ more) = some (payloads, rest ++ more) := by
  induction k generalizing stream payloads with
  | zero =>
      cases h
      rfl
  | succ k ih =>
      rw [readFrames] at h ⊢
      cases hread : readFrame stream with
      | tooLarge | incomplete =>
          rw [hread] at h
          cases h
      | frame payload behind =>
          rw [hread] at h
          obtain ⟨⟨payloads', rest'⟩, hrest, heq⟩ := Option.map_eq_some_iff.mp h
          cases heq
          rw [readFrame_more hread]
          dsimp only
          rw [ih hrest, Option.map_some]

/-- From whole frames alone, no more can be read than there are. -/
theorem readFrames_flatten_take {payloads : List Bytes} (hlen : ∀ p ∈ payloads, p.length ≤ maxFrameLen) {k : ℕ}
    {read : List Bytes} {rest : Bytes} (h : readFrames k (payloads.map frameOf).flatten = some (read, rest)) :
    read = payloads.take k := by
  induction payloads generalizing k read with
  | nil =>
      cases k with
      | zero => cases h; rfl
      | succ k => cases h
  | cons p payloads ih =>
      cases k with
      | zero => cases h; rfl
      | succ k =>
          rw [List.map_cons, List.flatten_cons, readFrames, readFrame_frameOf (hlen p List.mem_cons_self)] at h
          obtain ⟨⟨read', rest'⟩, hrest, heq⟩ := Option.map_eq_some_iff.mp h
          cases heq
          rw [List.take_succ_cons, ih (fun q hq => hlen q (List.mem_cons_of_mem p hq)) hrest]

/-- While only a beginning of the stream has arrived, what can be read are the first payloads. -/
theorem readFrames_of_prefix {writes : List FrameWrite} (hlen : ∀ w ∈ writes, w.2.length ≤ 65536) {stream rest : Bytes}
    (hstream : stream <+: writeFrames writes) {k : ℕ} {read : List Bytes}
    (h : readFrames k stream = some (read, rest)) : read = (writes.map Prod.snd).take k := by
  obtain ⟨more, hmore⟩ := hstream
  have hwhole := readFrames_more h more
  rw [hmore, writeFrames_eq] at hwhole
  exact readFrames_flatten_take (payloads_le hlen) hwhole

end SeedNet
