import CellStore.Proofs.Snappy

namespace CellStore

namespace Frames

structure Chunk where
  packed : Bytes
  content : Bytes

def Chunk.bytes (chunk : Chunk) : Bytes := Bytes.ofNat 4 chunk.packed.length ++ chunk.packed

/-- Chunks expand one after another to `owed` bytes. Each of them may have what those before it
leave, and there is none after the last byte. -/
inductive Expands (decode : ChunkDecoder) : (owed : Nat) → List Chunk → Prop
  | nil : Expands decode 0 []
  | cons (chunk : Chunk) {chunks : List Chunk} {left : Nat} :
    0 < chunk.content.length + left → chunk.packed.length < 0x1_0000_0000 →
    decode (chunk.content.length + left) chunk.packed = .ok chunk.content →
    Expands decode left chunks → Expands decode (chunk.content.length + left) (chunk :: chunks)

structure Frame where
  length : Nat
  chunks : List Chunk

namespace Frame

variable (frame : Frame)

def bytes : Bytes := Bytes.ofNat 4 frame.length ++ frame.chunks.flatMap Chunk.bytes

def content : Bytes := frame.chunks.flatMap Chunk.content

structure Sound (decode : ChunkDecoder) : Prop where
  length_lt : frame.length < 0x1_0000_0000
  expands : Expands decode frame.length frame.chunks

end Frame

variable {decode : ChunkDecoder} {declared owed stop : Nat} {output full : Bytes}
  {input after : Input} {chunk expanded : Bytes} {chunks : List Chunk} {frames : List Frame}

theorem Expands.length_content (expands : Expands decode owed chunks) :
    (chunks.flatMap Chunk.content).length = owed := by
  induction expands with
  | nil => rfl
  | cons _ _ _ _ _ ih => rw [List.flatMap_cons, List.length_append, ih]

theorem Frame.Sound.length_content {frame : Frame} (sound : frame.Sound decode) :
    frame.content.length = frame.length := sound.expands.length_content

theorem reads_chunk {chunk : Chunk} (fits : chunk.packed.length < 0x1_0000_0000) :
    Reads readChunk chunk.bytes chunk.packed := by
  intro size offset rest
  have length := (Input.reads_number 4 chunk.packed.length "compressed chunk length" fits).eq
    size offset (chunk.packed ++ rest)
  have packed := (Input.reads_take chunk.packed "compressed chunk" rfl).eq size (offset + 4) rest
  rw [Bytes.length_ofNat] at length
  rw [readChunk, Chunk.bytes, List.append_assoc, length, ok_bind]
  dsimp only at packed ⊢
  rw [packed, List.length_append, Bytes.length_ofNat, Nat.add_assoc]

theorem exists_of_readChunk {packed : Bytes} (read : readChunk input = .ok (packed, after)) :
    packed.length < 0x1_0000_0000 ∧
      input.rest = Bytes.ofNat 4 packed.length ++ packed ++ after.rest := by
  obtain ⟨⟨length, inside⟩, number, taken⟩ := exists_of_bind read
  have small := Input.lt_of_number number
  obtain ⟨behind, whole, rfl⟩ := Input.exists_of_number number
  obtain ⟨rfl, split, -⟩ := Input.take_eq_ok_iff.1 taken
  rw [whole, List.append_assoc]
  exact ⟨small, congrArg _ split⟩

theorem fill_of_chunk {packed expanded : Bytes} (short : output.length < stop)
    (read : readChunk input = .ok (packed, after))
    (decoded : decode (stop - output.length) packed = .ok expanded) :
    fill decode stop output input = fill decode stop (output ++ expanded) after := by
  rw [fill, if_pos short]
  split
  · rename_i read'
    cases read.symm.trans read'
    rw [decoded]
  · rename_i read'
    cases read.symm.trans read'

theorem fill_of_full (full : stop ≤ output.length) :
    fill decode stop output input = .ok (output, input) := by
  rw [fill, if_neg (Nat.not_lt.2 full)]

theorem exists_of_fill (bounded : Bounded decode) (short : output.length ≤ stop)
    (filled : fill decode stop output input = .ok (full, after)) :
    ∃ chunks, Expands decode (stop - output.length) chunks
      ∧ input.rest = chunks.flatMap Chunk.bytes ++ after.rest
      ∧ full = output ++ chunks.flatMap Chunk.content := by
  fun_induction fill decode stop output input with
  | case1 output input fewer packed next read expanded decoded ih =>
    have inside := bounded _ _ _ decoded
    obtain ⟨small, whole⟩ := exists_of_readChunk read
    have short' : (output ++ expanded).length ≤ stop := by
      rw [List.length_append]
      omega
    obtain ⟨chunks, expands, rest, rfl⟩ := ih short' filled
    have owed : stop - output.length = expanded.length + (stop - (output ++ expanded).length) := by
      rw [List.length_append]
      omega
    have more : 0 < expanded.length + (stop - (output ++ expanded).length) := by omega
    rw [owed] at decoded
    refine ⟨⟨packed, expanded⟩ :: chunks, ?_, ?_, ?_⟩
    · rw [owed]
      exact .cons ⟨packed, expanded⟩ more small decoded expands
    · rw [whole, rest, List.flatMap_cons, List.append_assoc, List.append_assoc]
      rfl
    · rw [List.flatMap_cons, ← List.append_assoc]
  | case2 | case3 => cases filled
  | case4 output input enough =>
    cases filled
    rw [Nat.sub_eq_zero_of_le (Nat.le_of_not_lt enough)]
    exact ⟨[], .nil, rfl, (List.append_nil _).symm⟩

theorem reads_fill (expands : Expands decode owed chunks) (output : Bytes) :
    Reads (fill decode (output.length + owed) output) (chunks.flatMap Chunk.bytes)
      (output ++ chunks.flatMap Chunk.content) := by
  induction expands generalizing output with
  | nil =>
    intro size offset rest
    exact (fill_of_full (Nat.le_refl _)).trans (by simp)
  | @cons chunk chunks left more small decoded _ ih =>
    intro size offset rest
    have read := (reads_chunk small).eq size offset (chunks.flatMap Chunk.bytes ++ rest)
    have later := (ih (output ++ chunk.content)).eq size (offset + chunk.bytes.length) rest
    rw [List.length_append, Nat.add_assoc] at later
    rw [List.flatMap_cons, List.append_assoc,
      fill_of_chunk (by omega) read (by rw [Nat.add_sub_cancel_left]; exact decoded), later]
    simp [Nat.add_assoc]

theorem Frame.flatMap_bytes_cons (frame : Frame) (frames : List Frame) :
    (frame :: frames).flatMap Frame.bytes = Bytes.ofNat 4 frame.length ++
      (frame.chunks.flatMap Chunk.bytes ++ frames.flatMap Frame.bytes) := by
  rw [List.flatMap_cons, Frame.bytes, List.append_assoc]

theorem exists_of_expand (bounded : Bounded decode) (fits : output.length ≤ declared)
    (expanded : expand decode declared output input = some (.ok full)) :
    full.length ≤ declared ∧ ∃ frames : List Frame, (∀ frame ∈ frames, frame.Sound decode)
      ∧ input.rest = frames.flatMap Frame.bytes
      ∧ full = output ++ frames.flatMap Frame.content := by
  fun_induction expand decode declared output input with
  | case1 output input none =>
    cases expanded
    exact ⟨fits, [], List.forall_mem_nil _, List.isEmpty_iff.1 none, (List.append_nil _).symm⟩
  | case2 | case3 | case5 | case6 => cases expanded
  | case4 output input more length inside read room left allowed next after filled ih =>
    rw [room?, if_pos fits] at left
    cases left
    have small := Input.lt_of_number read
    obtain ⟨behind, whole, rfl⟩ := Input.exists_of_number read
    obtain ⟨chunks, expands, rest, rfl⟩ := exists_of_fill bounded (Nat.le_add_right _ _) filled
    rw [Nat.add_sub_cancel_left] at expands
    have fits' : (output ++ chunks.flatMap Chunk.content).length ≤ declared := by
      rw [List.length_append, expands.length_content]
      omega
    obtain ⟨short, frames, sound, atEnd, rfl⟩ := ih fits' expanded
    refine ⟨short, ⟨length, chunks⟩ :: frames, ?_, ?_, ?_⟩
    · exact List.forall_mem_cons.2 ⟨⟨small, expands⟩, sound⟩
    · dsimp only at rest
      rw [whole, rest, atEnd, Frame.flatMap_bytes_cons]
    · rw [List.flatMap_cons, Frame.content, List.append_assoc]

theorem expand_of_frame {length room : Nat} {inside : Input} (more : ¬ input.rest.isEmpty)
    (read : input.number "compressed block length" 4 = .ok (length, inside))
    (left : room? declared output = some room) (allowed : length ≤ room)
    (filled : fill decode (output.length + length) output inside = .ok (full, after)) :
    expand decode declared output input = expand decode declared full after := by
  rw [expand, if_neg more]
  split
  · rename_i read'
    cases read.symm.trans read'
    rw [left]
    dsimp only
    rw [if_neg (Nat.not_lt.2 allowed)]
    split
    · rename_i filled'
      cases filled.symm.trans filled'
      rfl
    · rename_i filled'
      cases filled.symm.trans filled'
  · rename_i read'
    cases read.symm.trans read'

theorem expand_frames (sound : ∀ frame ∈ frames, frame.Sound decode) (output : Bytes)
    (fits : (output ++ frames.flatMap Frame.content).length ≤ declared) (size offset : Nat) :
    expand decode declared output ⟨size, offset, frames.flatMap Frame.bytes⟩ =
      some (.ok (output ++ frames.flatMap Frame.content)) := by
  induction frames generalizing output offset with
  | nil =>
    rw [expand]
    simp
  | cons frame frames ih =>
    obtain ⟨here, later⟩ := List.forall_mem_cons.1 sound
    have content : output ++ (frame :: frames).flatMap Frame.content =
        output ++ frame.content ++ frames.flatMap Frame.content := by
      rw [List.flatMap_cons, List.append_assoc]
    rw [content] at fits
    have room : output.length + frame.length ≤ declared := by
      rw [List.length_append, List.length_append, here.length_content] at fits
      omega
    have read := (Input.reads_number 4 frame.length "compressed block length" here.length_lt).eq
      size offset (frame.chunks.flatMap Chunk.bytes ++ frames.flatMap Frame.bytes)
    have filled := (reads_fill here.expands output).eq size
      (offset + (Bytes.ofNat 4 frame.length).length) (frames.flatMap Frame.bytes)
    have more : ¬ (Bytes.ofNat 4 frame.length ++ (frame.chunks.flatMap Chunk.bytes ++
        frames.flatMap Frame.bytes)).isEmpty := by
      simp [Bytes.ofNat]
    rw [content, Frame.flatMap_bytes_cons,
      expand_of_frame more read (if_pos (by omega)) (by omega) filled]
    exact ih later _ fits _

/-- Bytes expand just when they are sound frames from end to end, and to the content of the frames.
It is never longer than declared. -/
theorem decode_eq_ok_iff (bounded : Bounded decode) {bytes out : Bytes} :
    Frames.decode decode declared bytes = .ok out ↔ out.length ≤ declared ∧
      ∃ frames : List Frame, (∀ frame ∈ frames, frame.Sound decode)
        ∧ bytes = frames.flatMap Frame.bytes ∧ out = frames.flatMap Frame.content := by
  have nested := decodeNested_eq bounded declared bytes
  constructor
  · intro expanded
    rw [expanded] at nested
    exact exists_of_expand bounded (Nat.zero_le declared) nested
  · rintro ⟨fits, frames, sound, rfl, rfl⟩
    exact Option.some.inj (nested.symm.trans (expand_frames sound [] fits _ 0))

/-- What fits in a frame is packed into a chunk that expands to it, under any limit that it meets.
Nothing is asked of longer contents: no compressor has chunks short enough for all of them. -/
def Inverts (decode : ChunkDecoder) (compress : Bytes → Bytes) : Prop :=
  ∀ content, content ≠ [] → content.length ≤ frameSize →
    (compress content).length < 0x1_0000_0000
      ∧ ∀ limit, content.length ≤ limit → decode limit (compress content) = .ok content

def Frame.pack (compress : Bytes → Bytes) (content : Bytes) : Frame :=
  ⟨content.length, [⟨compress content, content⟩]⟩

variable {compress : Bytes → Bytes} {data content : Bytes}

theorem Frame.sound_pack (inverts : Inverts decode compress) (nonempty : content ≠ [])
    (short : content.length ≤ frameSize) : (Frame.pack compress content).Sound decode := by
  obtain ⟨small, expands⟩ := inverts content nonempty short
  have filled : 0 < content.length + 0 := List.length_pos_iff.2 nonempty
  have length_lt : content.length < 0x1_0000_0000 := by
    rw [frameSize] at short
    omega
  exact ⟨length_lt, .cons ⟨compress content, content⟩ filled small (expands _ (Nat.le_refl _)) .nil⟩

theorem encode_eq (compress : Bytes → Bytes) (data : Bytes) :
    encode compress data =
      ((pieces frameSize data).map (Frame.pack compress)).flatMap Frame.bytes := by
  rw [encode, List.flatMap_map]
  congr 1
  funext content
  simp [Frame.pack, Frame.bytes, Chunk.bytes]

theorem flatMap_content_pack (compress : Bytes → Bytes) (contents : List Bytes) :
    (contents.map (Frame.pack compress)).flatMap Frame.content = contents.flatten := by
  induction contents with
  | nil => rfl
  | cons content contents ih => simp [Frame.content, Frame.pack, ih]

theorem frameSize_pos : 0 < frameSize := by decide

theorem decode_packed (bounded : Bounded decode) (inverts : Inverts decode compress)
    (data : Bytes) : Frames.decode decode data.length (encode compress data) = .ok data := by
  refine (decode_eq_ok_iff bounded).2 ⟨Nat.le_refl _, (pieces frameSize data).map (.pack compress),
    ?_, encode_eq compress data, ?_⟩
  · intro frame member
    obtain ⟨content, piece, rfl⟩ := List.mem_map.1 member
    exact Frame.sound_pack inverts (ne_nil_of_mem_pieces frameSize_pos piece)
      (length_le_of_mem_pieces frameSize_pos piece)
  · rw [flatMap_content_pack, flatten_pieces frameSize_pos]

/-- The length of a frame is too small to start like a zstd frame. -/
theorem isPrefixOf_encode (compress : Bytes → Bytes) (data : Bytes) :
    Zstd.frameMagic.isPrefixOf (encode compress data) = false := by
  cases data with
  | nil => rfl
  | cons b data =>
    have small := List.length_take_le frameSize (b :: data)
    have high : ((b :: data).take frameSize).length / 256 ^ 3 = 0 := by
      rw [frameSize] at small ⊢
      omega
    rw [encode, pieces_of_ne_nil frameSize_pos (List.cons_ne_nil b data), List.flatMap_cons]
    dsimp only
    rw [Bytes.ofNat, high]
    rfl

theorem expand_zstd_encode (compress : Bytes → Bytes) (data : Bytes) (declared : Nat) :
    Codec.zstd.expand declared (encode compress data) =
      Frames.decode Compression.zstdChunk declared (encode compress data) := by
  rw [Codec.expand, isPrefixOf_encode]
  rfl

theorem inverts_snappyLiteral : Inverts Compression.snappyChunk Packing.snappyLiteral := by
  intro content nonempty short
  rw [frameSize] at short
  have filled := List.length_pos_iff.2 nonempty
  refine ⟨?_, fun limit fits => ?_⟩
  · have length := Snappy.length_snappyLiteral content
    omega
  · exact Compression.snappyChunk_eq_ok_iff.2
      ⟨Snappy.decompress?_literal content filled short, fits⟩

/-- Where chunks keep to their limits, the output never gets longer than declared, and expanding
ends with the input. It succeeds on sound frames from end to end, and on nothing else. What was
packed into frames comes out of them again, and is never taken for one bare frame. -/
theorem frames_read_back (bounded : Bounded decode) :
    (∀ declared bytes,
      decodeNested decode declared bytes = some (Frames.decode decode declared bytes)
      ∧ ∀ s, run decode declared (bytes.length + 1) ⟨.ofBytes bytes, 0, declared, []⟩ = .ok s →
          s.Done)
    ∧ (∀ declared bytes out, Frames.decode decode declared bytes = .ok out ↔
        out.length ≤ declared ∧ ∃ frames : List Frame,
          (∀ frame ∈ frames, frame.Sound decode ∧ frame.content.length = frame.length)
          ∧ bytes = frames.flatMap Frame.bytes ∧ out = frames.flatMap Frame.content)
    ∧ (∀ compress, Inverts decode compress → ∀ data,
        Frames.decode decode data.length (encode compress data) = .ok data)
    ∧ ∀ compress data, Zstd.frameMagic.isPrefixOf (encode compress data) = false
        ∧ ∀ declared, Codec.zstd.expand declared (encode compress data) =
            Frames.decode Compression.zstdChunk declared (encode compress data) := by
  refine ⟨fun declared bytes => ⟨decodeNested_eq bounded declared bytes, fun s ran => ?_⟩,
    fun declared bytes out => ?_, fun compress inverts => decode_packed bounded inverts,
    fun compress data => ⟨isPrefixOf_encode compress data, expand_zstd_encode compress data⟩⟩
  · exact done_of_run (Nat.lt_succ_self _) ran
  · rw [decode_eq_ok_iff bounded]
    constructor
    · rintro ⟨fits, frames, sound, made, given⟩
      exact ⟨fits, frames, fun frame member =>
        ⟨sound frame member, (sound frame member).length_content⟩, made, given⟩
    · rintro ⟨fits, frames, sound, made, given⟩
      exact ⟨fits, frames, fun frame member => (sound frame member).1, made, given⟩

theorem frames_read_back_snappy :
    Bounded Compression.snappyChunk ∧ Inverts Compression.snappyChunk Packing.snappyLiteral
    ∧ decodeNested Compression.snappyChunk 3 [0, 0, 0, 2, 0, 0, 0, 3, 1, 0, 7] =
        some (.error (.truncated "compressed chunk length" 15 11))
    ∧ Frames.decode Compression.snappyChunk 65537
        (encode Packing.snappyLiteral (List.replicate 65537 7)) = .ok (List.replicate 65537 7) := by
  have bounded := Compression.bounded_snappyChunk
  obtain ⟨same, -, back, -⟩ := frames_read_back bounded
  refine ⟨bounded, inverts_snappyLiteral, ?_, ?_⟩
  · rw [(same 3 _).1]
    decide +kernel
  · have whole := back Packing.snappyLiteral inverts_snappyLiteral (List.replicate 65537 7)
    rwa [List.length_replicate] at whole

end Frames

namespace Codec

theorem decompress_of_expand {codec : Codec} {declared : Nat} {bytes out : Bytes}
    (expanded : codec.expand declared bytes = .ok out) (whole : out.length = declared) :
    codec.decompress declared bytes = .ok out := by
  rw [decompress, expanded, ok_bind, if_neg (not_not_intro whole)]
  rfl

theorem decompress_snappy (data : Bytes) :
    Codec.snappy.decompress data.length (Packing.snappy.compress data) = .ok data :=
  decompress_of_expand
    (Frames.decode_packed Compression.bounded_snappyChunk Frames.inverts_snappyLiteral data) rfl

theorem decompress_zstd {compress : Bytes → Bytes}
    (inverts : Frames.Inverts Compression.zstdChunk compress) (data : Bytes) :
    Codec.zstd.decompress data.length (Frames.encode compress data) = .ok data :=
  decompress_of_expand ((Frames.expand_zstd_encode compress data _).trans
    (Frames.decode_packed Compression.bounded_zstdChunk inverts data)) rfl

end Codec

end CellStore
