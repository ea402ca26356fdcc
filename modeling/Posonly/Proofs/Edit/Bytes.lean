import Posonly.Proofs.Edit.Assembly
import Posonly.Proofs.Text.Offsets

/-!
# Edits of a text and of its bytes

An edit of a text is an edit of the bytes that the text was decoded from: its range is a range of
bytes, and its text is put in as the encoding has it (`patch`). To edit the text and encode the
result comes to the same exactly if every chunk that no edit takes out is encoded as the bytes that
it was decoded from (`encode_splice`). Bytes that come back from their text always do, whatever is
edited (`patch_of_faithful`).
-/

open List

namespace Posonly.Encoding

/-! ## Pieces of equal length -/

/-- Lists put together from pieces of which none is longer than its partner are equal only piece by
piece. -/
theorem flatMap_eq_iff {α : Type} {f g : α → Bytes} {l : List α}
    (h : ∀ a ∈ l, (f a).length ≤ (g a).length) :
    (l.flatMap f).length ≤ (l.flatMap g).length ∧
      (l.flatMap f = l.flatMap g ↔ ∀ a ∈ l, f a = g a) := by
  induction l with
  | nil => exact ⟨Nat.le_refl _, by simp⟩
  | cons a l ih =>
    obtain ⟨hle, hiff⟩ := ih fun b hb => h b (.tail _ hb)
    have ha := h a (by simp)
    rw [flatMap_cons, flatMap_cons, length_append, length_append]
    refine ⟨by omega, ?_⟩
    constructor
    · intro heq
      have htotal := congrArg List.length heq
      rw [length_append, length_append] at htotal
      obtain ⟨hfirst, hrest⟩ := append_inj heq (by omega)
      intro b hb
      rcases mem_cons.mp hb with rfl | hb
      · exact hfirst
      · exact hiff.mp hrest b hb
    · intro hall
      rw [hall a (by simp), hiff.mpr fun b hb => hall b (.tail _ hb)]

/-! ## Patches -/

/-- Copies bytes from an offset of their text on and puts the text of each edit in place of its
range. -/
def patchFrom (e : Encoding) (bytes : Bytes) (pos : Nat) : List Edit → Bytes
  | [] => bytes.drop (e.byteOffset bytes pos)
  | edit :: rest =>
    (bytes.take (e.byteOffset bytes edit.start)).drop (e.byteOffset bytes pos) ++
      e.encode edit.text ++ patchFrom e bytes edit.stop rest

/-- Bytes with the bytes of the ranges of some edits taken out and those of their texts put in. -/
def patch (e : Encoding) (bytes : Bytes) (edits : List Edit) : Bytes := patchFrom e bytes 0 edits

/-- The chunks from an offset on that are copied between some edits. -/
def keptFrom (cs : List Chunk) (pos : Nat) : List Edit → List Chunk
  | [] => Chunk.behind cs pos
  | edit :: rest => Chunk.between cs pos edit.start ++ keptFrom cs edit.stop rest

/-- The chunks of bytes that no edit takes out. -/
def kept (e : Encoding) (bytes : Bytes) (edits : List Edit) : List Chunk :=
  keptFrom (e.chunks bytes) 0 edits

/-- What is copied and what is put in, in a row. -/
def piecesFrom (e : Encoding) (cs : List Chunk) (pos : Nat) : List Edit → List Chunk
  | [] => Chunk.behind cs pos
  | edit :: rest =>
    Chunk.between cs pos edit.start ++ ⟨edit.text, e.encode edit.text⟩ ::
      piecesFrom e cs edit.stop rest

variable {cs : List Chunk} {es : List Edit}

theorem mem_piecesFrom {e : Encoding} {c : Chunk} {pos : Nat} :
    c ∈ piecesFrom e cs pos es ↔
      c ∈ keptFrom cs pos es ∨ ∃ edit ∈ es, c = ⟨edit.text, e.encode edit.text⟩ := by
  induction es generalizing pos with
  | nil => simp [piecesFrom, keptFrom]
  | cons edit es ih =>
    rw [piecesFrom, keptFrom, mem_append, mem_append, mem_cons, ih]
    simp only [mem_cons, exists_eq_or_imp]
    tauto

theorem mem_of_mem_keptFrom {c : Chunk} {pos : Nat}
    (hc : c ∈ keptFrom cs pos es) : c ∈ cs := by
  induction es generalizing pos with
  | nil => exact mem_of_mem_drop hc
  | cons edit es ih =>
    rcases mem_append.mp hc with hc | hc
    · exact (Chunk.ahead_prefix cs edit.start).subset (mem_of_mem_drop hc)
    · exact ih hc

section

variable {e : Encoding} {bytes : Bytes} {pos : Nat} {es : List Edit}

/-- Every edit starts and stops where the text can be cut. -/
def CutBy (e : Encoding) (bytes : Bytes) (es : List Edit) : Prop :=
  ∀ edit ∈ es, (e.decode bytes).WholeAt edit.start ∧ (e.decode bytes).WholeAt edit.stop

theorem units_piecesFrom (hpos : e.CutAt bytes pos)
    (happlicable : Edit.Applicable (e.decode bytes) pos es) (hcut : e.CutBy bytes es) :
    (piecesFrom e (e.chunks bytes) pos es).flatMap Chunk.units =
      Edit.spliceFrom (e.decode bytes) pos es := by
  induction es generalizing pos with
  | nil => exact hpos.behind
  | cons edit es ih =>
    have hvalid : edit.start ≤ edit.stop := happlicable.valid edit (by simp)
    have hstop := happlicable.stop_le edit (by simp)
    obtain ⟨hwhole, hwhole'⟩ := hcut edit (by simp)
    rw [piecesFrom, Edit.spliceFrom, flatMap_append, flatMap_cons,
      hpos.between ⟨Nat.le_trans hvalid hstop, hwhole⟩ (happlicable.start_ge edit (by simp)),
      ih ⟨hstop, hwhole'⟩ happlicable.tail fun d hd => hcut d (.tail _ hd),
      append_assoc]

theorem bytes_piecesFrom (happlicable : Edit.Applicable (e.decode bytes) pos es) :
    (piecesFrom e (e.chunks bytes) pos es).flatMap Chunk.bytes = patchFrom e bytes pos es := by
  induction es generalizing pos with
  | nil => exact bytes_behind e bytes
  | cons edit es ih =>
    rw [piecesFrom, patchFrom, flatMap_append, flatMap_cons,
      bytes_between e bytes (happlicable.start_ge edit (by simp)), ih happlicable.tail,
      append_assoc]

/-- No piece gets shorter, or none gets longer: what is put in is encoded as it is. -/
theorem flatMap_piecesFrom_iff (e : Encoding) (bytes : Bytes) (pos : Nat) (es : List Edit) :
    ((piecesFrom e (e.chunks bytes) pos es).flatMap fun c => e.encode c.units) =
        (piecesFrom e (e.chunks bytes) pos es).flatMap Chunk.bytes ↔
      ∀ c ∈ keptFrom (e.chunks bytes) pos es, e.encode c.units = c.bytes := by
  have hpieces : (∀ c ∈ piecesFrom e (e.chunks bytes) pos es, e.encode c.units = c.bytes) ↔
      ∀ c ∈ keptFrom (e.chunks bytes) pos es, e.encode c.units = c.bytes := by
    constructor
    · intro h c hc
      exact h c (mem_piecesFrom.mpr (.inl hc))
    · intro h c hc
      rcases mem_piecesFrom.mp hc with hc | ⟨edit, _, rfl⟩
      · exact h c hc
      · rfl
  rw [← hpieces]
  -- all chunks err on one side in their lengths, so the sums agree only if each does
  rcases length_encode_units e bytes with hle | hle
  · have hle : ∀ c ∈ piecesFrom e (e.chunks bytes) pos es,
        c.bytes.length ≤ (e.encode c.units).length := by
      intro c hc
      rcases mem_piecesFrom.mp hc with hc | ⟨edit, _, rfl⟩
      · exact hle c (mem_of_mem_keptFrom hc)
      · exact Nat.le_refl _
    rw [eq_comm, (flatMap_eq_iff hle).2]
    exact forall₂_congr fun _ _ => eq_comm
  · have hle : ∀ c ∈ piecesFrom e (e.chunks bytes) pos es,
        (e.encode c.units).length ≤ c.bytes.length := by
      intro c hc
      rcases mem_piecesFrom.mp hc with hc | ⟨edit, _, rfl⟩
      · exact hle c (mem_of_mem_keptFrom hc)
      · exact Nat.le_refl _
    exact (flatMap_eq_iff hle).2

theorem cutAt_zero (e : Encoding) (bytes : Bytes) : e.CutAt bytes 0 := ⟨Nat.zero_le _, trivial⟩

/-- **Editing a text and editing its bytes** come to the same exactly if each chunk that stays is
encoded as it was. -/
theorem encode_splice (happlicable : Edit.Applicable (e.decode bytes) 0 es)
    (hcut : e.CutBy bytes es) (htexts : ∀ edit ∈ es, e.Separate edit.text) :
    e.encode (Edit.splice (e.decode bytes) es) = e.patch bytes es ↔
      ∀ c ∈ e.kept bytes es, e.encode c.units = c.bytes := by
  have hseparate : ∀ c ∈ piecesFrom e (e.chunks bytes) 0 es, e.Separate c.units := by
    intro c hc
    rcases mem_piecesFrom.mp hc with hc | ⟨edit, hedit, rfl⟩
    · exact separate_of_mem (mem_of_mem_keptFrom hc)
    · exact htexts edit hedit
  rw [Edit.splice, ← units_piecesFrom (cutAt_zero e bytes) happlicable hcut,
    encode_flatMap hseparate, patch, ← bytes_piecesFrom happlicable]
  exact flatMap_piecesFrom_iff e bytes 0 es

theorem encode_decode_iff (e : Encoding) (bytes : Bytes) :
    e.encode (e.decode bytes) = bytes ↔ ∀ c ∈ e.chunks bytes, e.encode c.units = c.bytes := by
  have hnone := flatMap_piecesFrom_iff e bytes 0 []
  have hall : Chunk.behind (e.chunks bytes) 0 = e.chunks bytes := by
    rw [Chunk.behind, Chunk.ahead_zero]
    rfl
  rwa [piecesFrom, keptFrom, hall, bytes_chunks, ← encode_flatMap fun c hc => separate_of_mem hc,
    units_chunks] at hnone

theorem encode_decode_eightBit (hscheme : e.scheme = .eightBit) (bytes : Bytes) :
    e.encode (e.decode bytes) = bytes := by
  rw [encode, decode, hscheme]
  dsimp only
  rw [map_map]
  exact map_id'' (fun b => UInt8.toUInt8_toUInt16 b) bytes

/-- **Bytes that come back from their text** stay as they are outside the ranges of edits. -/
theorem patch_of_faithful (happlicable : Edit.Applicable (e.decode bytes) 0 es)
    (hcut : e.CutBy bytes es) (htexts : ∀ edit ∈ es, e.Separate edit.text)
    (hfaithful : e.encode (e.decode bytes) = bytes) :
    e.encode (Edit.splice (e.decode bytes) es) = e.patch bytes es := by
  refine (encode_splice happlicable hcut htexts).mpr fun c hc => ?_
  exact (encode_decode_iff e bytes).mp hfaithful c (mem_of_mem_keptFrom hc)

end

end Posonly.Encoding
