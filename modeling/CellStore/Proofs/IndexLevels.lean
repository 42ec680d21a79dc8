import CellStore.Proofs.Tree
import CellStore.Proofs.Writer

namespace CellStore

theorem forall₂_through {R : α → β → Prop} {S : β → γ → Prop} {T : α → γ → Prop} {as : List α}
    {bs : List β} {cs : List γ} (first : List.Forall₂ R as bs) (second : List.Forall₂ S bs cs)
    (both : ∀ a b c, b ∈ bs → R a b → S b c → T a c) : List.Forall₂ T as cs := by
  induction first generalizing cs with
  | nil =>
    cases second
    exact .nil
  | cons r _ ih =>
    cases second with
    | cons s later =>
      exact .cons (both _ _ _ List.mem_cons_self r s)
        (ih later fun a b c member => both a b c (List.mem_cons_of_mem _ member))

theorem forall₂_append_cons {R : α → β → Prop} {before after : List α} {a : α} {bs : List β}
    (each : List.Forall₂ R (before ++ a :: after) bs) :
    ∃ before' b after', bs = before' ++ b :: after' ∧ List.Forall₂ R before before' ∧ R a b
      ∧ List.Forall₂ R after after' := by
  induction before generalizing bs with
  | nil =>
    obtain ⟨b, after', here, later, rfl⟩ := List.forall₂_cons_left_iff.1 each
    exact ⟨[], b, after', rfl, .nil, here, later⟩
  | cons first before ih =>
    obtain ⟨b, bs, here, later, rfl⟩ := List.forall₂_cons_left_iff.1 each
    obtain ⟨before', b', after', rfl, earlier, there, rest⟩ := ih later
    exact ⟨b :: before', b', after', rfl, .cons here earlier, there, rest⟩

theorem exists_of_forall₂ {R : α → β → Prop} {as : List α} {bs : List β}
    (each : List.Forall₂ R as bs) {i : Nat} {b : β} (here : bs[i]? = some b) :
    ∃ a, as[i]? = some a ∧ R a b := by
  induction each generalizing i with
  | nil => simp at here
  | cons first _ ih =>
    cases i with
    | zero =>
      obtain rfl := Option.some.inj here
      exact ⟨_, rfl, first⟩
    | succ i => exact ih here

theorem forall_of_forall₂ {R : α → β → Prop} {P : α → Prop} {Q : β → Prop} {as : List α}
    {bs : List β} (each : List.Forall₂ R as bs) (told : ∀ a b, R a b → P a → Q b)
    (all : ∀ a ∈ as, P a) : ∀ b ∈ bs, Q b := by
  induction each with
  | nil => exact fun _ member => (List.not_mem_nil member).elim
  | cons first _ ih =>
    obtain ⟨here, later⟩ := List.forall_mem_cons.1 all
    exact List.forall_mem_cons.2 ⟨told _ _ first here, ih later⟩

namespace Index

variable {entry : IndexEntry} {entries : List IndexEntry}

theorem length_key_le_encodeRoot (member : entry ∈ entries) :
    entry.key.length ≤ (encodeRoot entries).length := by
  obtain ⟨before, after, rfl⟩ := List.append_of_mem member
  simp only [encodeRoot, List.flatMap_append, List.flatMap_cons, List.length_append,
    VarLong.writeBytes]
  omega

theorem length_le_encodeRoot (entries : List IndexEntry) :
    12 * entries.length ≤ (encodeRoot entries).length := by
  induction entries with
  | nil => exact Nat.le_refl _
  | cons entry entries ih =>
    simp only [encodeRoot, List.flatMap_cons, List.length_append, List.length_cons,
      length_encodePlace] at ih ⊢
    omega

end Index

namespace Source

/-- An entry leads to an index block of these entries, under the key of the first of them. -/
structure LeadsToIndex (source : Source) (form : BlockForm) (entry : IndexEntry)
    (entries : List IndexEntry) : Prop where
  key : entry.key = entries.head?.elim [] (·.key)
  holds : ∃ kind, (kind = .leafIndex ∨ kind = .intermediateIndex)
    ∧ source.Holds form entry.offset kind (Index.encode entries)
  fits : form.Fits (Index.encode entries)
  nonempty : entries ≠ []
  each : ∀ entry ∈ entries, entry.Fits

/-- An entry leads to these blocks, with `height` levels of index blocks above them. -/
def Spans {β : Type} (source : Source) (form : BlockForm) (leaf : IndexEntry → β → Prop) :
    (height : Nat) → IndexEntry → List β → Prop
  | 0, entry, blocks => ∃ block, leaf entry block ∧ blocks = [block]
  | height + 1, entry, blocks => ∃ entries parts, source.LeadsToIndex form entry entries
      ∧ List.Forall₂ (source.Spans form leaf height) entries parts ∧ parts.flatten = blocks

end Source

namespace StoreFile

variable {file : StoreFile} {form : BlockForm} {kind : BlockKind}

theorem readBlock_of_holds {offset : Nat} {payload : Bytes} (codec : file.trailer.codec = .stored)
    (holds : file.source.Holds form offset kind payload) (verifiable : form.Verifiable)
    (stored : form.packing = .stored) (fits : form.Fits payload) :
    ∃ header, file.readBlock offset = .ok ⟨header, kind, offset, payload⟩ := by
  obtain ⟨header, read, -⟩ := holds.read verifiable stored fits
  exact ⟨header, by rw [readBlock, codec, read]⟩

theorem readIndexBlock_of_leads {entry : IndexEntry} {entries : List IndexEntry}
    (codec : file.trailer.codec = .stored) (leads : file.source.LeadsToIndex form entry entries)
    (verifiable : form.Verifiable) (stored : form.packing = .stored) :
    file.readIndexBlock entry.offset = .ok entries := by
  obtain ⟨kind, index, holds⟩ := leads.holds
  obtain ⟨header, read⟩ := readBlock_of_holds codec holds verifiable stored leads.fits
  have expected : Block.expect ⟨header, kind, entry.offset, Index.encode entries⟩
      [.intermediateIndex, .leafIndex] = .ok () := by
    rcases index with rfl | rfl <;> rfl
  have bound := leads.fits.expanded
  have parsed := Index.parse_encode leads.each
    (show (Index.encode entries).length < 0x1_0000_0000 by omega) []
  rw [List.append_nil] at parsed
  have some : entries.isEmpty = false := by simpa using leads.nonempty
  simp only [readIndexBlock, read, ok_bind, expected, parsed, liftM_decoded_ok, some,
    Bool.false_eq_true, if_false, pure_eq_ok]

theorem covers_piece {height : Nat} {entry : IndexEntry} {piece : List IndexEntry}
    {parts : List (List StoredCell)} (read : file.readIndexBlock entry.offset = .ok piece)
    (key : entry.key = piece.head?.elim [] (·.key)) (nonempty : piece ≠ [])
    (each : List.Forall₂ (file.Covers height) piece parts) :
    file.Covers (height + 1) entry parts.flatten := by
  refine ⟨?_, piece, parts, read, each, rfl⟩
  cases each with
  | nil => exact (nonempty rfl).elim
  | cons first later =>
    obtain ⟨cell, more, rfl, same⟩ := first.exists_cons
    simp [key, same]

end StoreFile

namespace IndexLevels

def payloads (fanout : Nat) : (fuel : Nat) → IndexLevels → BlockWriter → List Bytes
  | 0, _, _ => []
  | fuel + 1, index, writer =>
    if index.top.length ≤ fanout then []
    else
      let raised := raise fanout index writer
      (pieces fanout index.top).map Index.encode ++ payloads fanout fuel raised.1 raised.2

/-- The top of an index leads to these blocks of a source. -/
structure Good {β : Type} (source : Source) (form : BlockForm) (leaf : IndexEntry → β → Prop)
    (blocks : List β) (index : IndexLevels) : Prop where
  positive : 0 < index.levels
  spans : ∃ parts, List.Forall₂ (source.Spans form leaf (index.levels - 1)) index.top parts
    ∧ parts.flatten = blocks
  entries : ∀ entry ∈ index.top, entry.Fits

variable {β : Type} {source : Source} {leaf : IndexEntry → β → Prop} {blocks : List β}
  {index : IndexLevels} {writer : BlockWriter} {fanout : Nat}

def blocksOf (fanout : Nat) (entries : List IndexEntry) : List (Bytes × Bytes) :=
  (pieces fanout entries).map fun piece => (piece.head?.elim [] (·.key), Index.encode piece)

def nextKind (index : IndexLevels) : BlockKind :=
  if index.levels = 1 then .leafIndex else .intermediateIndex

theorem top_raise (fanout : Nat) (index : IndexLevels) (writer : BlockWriter) :
    (raise fanout index writer).1.top =
      (writer.appendAll index.nextKind (blocksOf fanout index.top)).1 := rfl

theorem levels_raise (fanout : Nat) (index : IndexLevels) (writer : BlockWriter) :
    (raise fanout index writer).1.levels = index.levels + 1 := rfl

theorem extends_raise (fanout : Nat) (index : IndexLevels) (writer : BlockWriter) :
    writer.Extends (raise fanout index writer).2 :=
  BlockWriter.extends_appendAll ..

theorem build_done {fuel : Nat} (few : index.top.length ≤ fanout) :
    build fanout (fuel + 1) index writer = (index, writer) := if_pos few

theorem build_raise {fuel : Nat} (many : ¬ index.top.length ≤ fanout) :
    build fanout (fuel + 1) index writer =
      build fanout fuel (raise fanout index writer).1 (raise fanout index writer).2 := if_neg many

theorem extends_build (fanout fuel : Nat) (index : IndexLevels) (writer : BlockWriter) :
    writer.Extends (build fanout fuel index writer).2 := by
  induction fuel generalizing index writer with
  | zero => exact .refl writer
  | succ fuel ih =>
    by_cases few : index.top.length ≤ fanout
    · rw [build_done few]
      exact .refl writer
    · rw [build_raise few]
      exact (extends_raise fanout index writer).trans (ih _ _)

theorem leads_raise (consistent : writer.Consistent)
    (within : (raise fanout index writer).2.bytes <+: source.bytes)
    (small : source.bytes.length < 0x8000_0000_0000_0000) :
    List.Forall₂ (source.Leads writer.form index.nextKind) (raise fanout index writer).1.top
      (blocksOf fanout index.top) :=
  BlockWriter.leads_appendAll consistent within small

theorem fits_raise (consistent : writer.Consistent)
    (within : (raise fanout index writer).2.bytes <+: source.bytes)
    (small : source.bytes.length < 0x8000_0000_0000_0000)
    (fits : ∀ piece ∈ pieces fanout index.top, writer.form.Fits (Index.encode piece)) :
    ∀ entry ∈ (raise fanout index writer).1.top, entry.Fits := by
  apply Source.fits_of_leads (leads_raise consistent within small) small
  intro block member
  obtain ⟨piece, inside, rfl⟩ := List.mem_map.1 member
  exact fits piece inside

theorem fits_build {fuel : Nat} (entries : ∀ entry ∈ index.top, entry.Fits)
    (consistent : writer.Consistent)
    (within : (build fanout fuel index writer).2.bytes <+: source.bytes)
    (small : source.bytes.length < 0x8000_0000_0000_0000)
    (fits : ∀ payload ∈ payloads fanout fuel index writer, writer.form.Fits payload) :
    ∀ entry ∈ (build fanout fuel index writer).1.top, entry.Fits := by
  induction fuel generalizing index writer with
  | zero => exact entries
  | succ fuel ih =>
    by_cases few : index.top.length ≤ fanout
    · rwa [build_done few]
    · rw [build_raise few] at within ⊢
      rw [payloads, if_neg few] at fits
      have step := extends_raise fanout index writer
      have later := extends_build fanout fuel (raise fanout index writer).1
        (raise fanout index writer).2
      have raised := fits_raise consistent (later.bytes.trans within) small fun piece member =>
        fits _ (List.mem_append_left _ (List.mem_map_of_mem member))
      rw [← step.form] at fits
      exact ih raised (step.consistent consistent) within
        fun payload member => fits payload (List.mem_append_right _ member)

theorem good_raise (good : Good source writer.form leaf blocks index) (pos : 0 < fanout)
    (consistent : writer.Consistent)
    (within : (raise fanout index writer).2.bytes <+: source.bytes)
    (small : source.bytes.length < 0x8000_0000_0000_0000)
    (fits : ∀ piece ∈ pieces fanout index.top, writer.form.Fits (Index.encode piece)) :
    Good source writer.form leaf blocks (raise fanout index writer).1 := by
  obtain ⟨parts, spans, whole⟩ := good.spans
  have leads := leads_raise consistent within small
  have height : index.levels - 1 + 1 = index.levels := by
    have := good.positive
    omega
  have kinds : index.nextKind = .leafIndex ∨ index.nextKind = .intermediateIndex := by
    rw [nextKind]
    split
    · exact .inl rfl
    · exact .inr rfl
  have entries (piece : List IndexEntry) (member : piece ∈ pieces fanout index.top) :
      ∀ entry ∈ piece, entry.Fits := by
    intro entry inside
    apply good.entries
    rw [← flatten_pieces pos index.top]
    exact List.mem_flatten_of_mem member inside
  refine ⟨Nat.succ_pos _, ⟨(pieces fanout parts).map List.flatten, ?_, ?_⟩,
    fits_raise consistent within small fits⟩
  · rw [levels_raise, Nat.add_sub_cancel, ← height, List.forall₂_map_right_iff]
    rw [blocksOf, List.forall₂_map_right_iff] at leads
    -- An entry leads to a piece, and the entries of the piece to the blocks below them.
    refine forall₂_through leads (pieces_forall₂ fanout spans) ?_
    intro entry piece parts member leads spans
    refine ⟨piece, parts, ?_, spans, rfl⟩
    exact ⟨leads.key, ⟨_, kinds, leads.holds⟩, fits piece member,
      ne_nil_of_mem_pieces pos member, entries piece member⟩
  · rw [← List.flatten_flatten, flatten_pieces pos, whole]

theorem good_build {fuel : Nat} (good : Good source writer.form leaf blocks index)
    (pos : 0 < fanout) (consistent : writer.Consistent)
    (within : (build fanout fuel index writer).2.bytes <+: source.bytes)
    (small : source.bytes.length < 0x8000_0000_0000_0000)
    (fits : ∀ payload ∈ payloads fanout fuel index writer, writer.form.Fits payload) :
    Good source writer.form leaf blocks (build fanout fuel index writer).1 := by
  induction fuel generalizing index writer with
  | zero => exact good
  | succ fuel ih =>
    by_cases few : index.top.length ≤ fanout
    · rwa [build_done few]
    · rw [build_raise few] at within ⊢
      rw [payloads, if_neg few] at fits
      have step := extends_raise fanout index writer
      have later := extends_build fanout fuel (raise fanout index writer).1
        (raise fanout index writer).2
      have raised := good_raise good pos consistent (later.bytes.trans within) small
        fun piece member => fits _ (List.mem_append_left _ (List.mem_map_of_mem member))
      rw [← step.form] at raised fits ⊢
      exact ih raised (step.consistent consistent) within
        fun payload member => fits payload (List.mem_append_right _ member)

theorem length_raise_le {k : Nat} (split : 2 ≤ fanout) (few : index.top.length ≤ 2 ^ (k + 1)) :
    (raise fanout index writer).1.top.length ≤ 2 ^ k := by
  rw [top_raise, BlockWriter.length_entries_appendAll, blocksOf, List.length_map,
    length_pieces (by omega)]
  apply Nat.le_of_lt_succ
  rw [Nat.div_lt_iff_lt_mul (by omega)]
  have double : 2 * (2 ^ k) ≤ fanout * 2 ^ k := Nat.mul_le_mul_right _ split
  rw [Nat.pow_succ] at few
  rw [Nat.succ_mul, Nat.mul_comm (2 ^ k)]
  omega

theorem levels_build_le {fuel k : Nat} (split : 2 ≤ fanout) (few : index.top.length ≤ 2 ^ k) :
    (build fanout fuel index writer).1.levels ≤ index.levels + k := by
  induction fuel generalizing index writer k with
  | zero => exact Nat.le_add_right ..
  | succ fuel ih =>
    by_cases done : index.top.length ≤ fanout
    · rw [build_done done]
      exact Nat.le_add_right ..
    · rw [build_raise done]
      cases k with
      | zero => omega
      | succ k =>
        have fewer : (raise fanout index writer).1.top.length ≤ 2 ^ k := length_raise_le split few
        have later := @ih _ (raise fanout index writer).2 _ fewer
        rw [levels_raise] at later
        omega

theorem byteSize_build_le {fuel : Nat} (stored : writer.form.packing = .stored)
    (before : index.byteSize ≤ writer.bytes.length) :
    (build fanout fuel index writer).1.byteSize ≤
      (build fanout fuel index writer).2.bytes.length := by
  induction fuel generalizing index writer with
  | zero => exact before
  | succ fuel ih =>
    by_cases done : index.top.length ≤ fanout
    · rwa [build_done done]
    · rw [build_raise done]
      have step := extends_raise fanout index writer
      have room := BlockWriter.length_appendAll stored index.nextKind (blocksOf fanout index.top)
      exact ih (step.form ▸ stored) (Nat.le_trans (Nat.add_le_add_right before _) room)

end IndexLevels

end CellStore
