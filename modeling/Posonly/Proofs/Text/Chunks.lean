import Posonly.Proofs.Text.Encoding

/-!
# Bytes and the units they stand for

Decoding takes bytes in chunks: the bytes of a character, or bytes that are no character and stand
for a replacement character together (`chunks`). Whatever the chunks are, their bytes are the bytes
that are decoded and their units are the text (`bytes_chunks`, `units_chunks`). A chunk need not
come back from its units: a replacement character is encoded as itself. But no chunk of an encoding
gets shorter by that, or none gets longer (`length_encode_units`).
-/

open List

namespace Posonly.Text

/-- A text that does not end with half of a pair that might go on. -/
def Closed (t : Text) : Prop := (t.getLast?).any isHighSurrogate = false

instance (t : Text) : Decidable t.Closed :=
  inferInstanceAs (Decidable ((t.getLast?).any isHighSurrogate = false))

theorem closed_nil : Closed [] := rfl

theorem closed_append {a b : Text} (ha : Closed a) (hb : Closed b) : Closed (a ++ b) := by
  unfold Closed at ha hb ⊢
  rw [getLast?_append]
  cases hlast : b.getLast? with
  | none => exact ha
  | some v =>
    rwa [hlast] at hb

theorem closed_append_right {b : Text} (hne : b ≠ []) (hb : Closed b) (a : Text) :
    Closed (a ++ b) := by
  rwa [Closed, getLast?_append_of_ne_nil a hne]

end Posonly.Text

namespace Posonly.Encoding

/-! ## Chunks -/

/-- Bytes that are decoded together, and the units that they stand for. -/
structure Chunk where
  units : Text
  bytes : Bytes

/-- The chunks that a byte between two code points completes, and what has been started with it. -/
def chunkFresh (b : UInt8) : List Chunk × Option Partial × Bytes :=
  match startCode b with
  | none => ([⟨unitsOfCode replacement, [b]⟩], none, [])
  | some (.inl code) => ([⟨unitsOfCode code, [b]⟩], none, [])
  | some (.inr p) => ([], some p, [b])

/-- The chunks that a byte completes, given the bytes since the last chunk. -/
def chunkStep : Option Partial → Bytes → UInt8 → List Chunk × Option Partial × Bytes
  | none, _, b => chunkFresh b
  | some p, pending, b =>
    if p.low ≤ b && b ≤ p.high then
      let code := 0x40 * p.code + (b.toNat - 0x80)
      if p.missing ≤ 1 then ([⟨unitsOfCode code, pending ++ [b]⟩], none, [])
      else ([], some ⟨code, p.missing - 1, 0x80, 0xBF⟩, pending ++ [b])
    else
      let (chunks, started, rest) := chunkFresh b
      (⟨unitsOfCode replacement, pending⟩ :: chunks, started, rest)

def chunksUtf8 : Option Partial → Bytes → Bytes → List Chunk
  | none, _, [] => []
  | some _, pending, [] => [⟨unitsOfCode replacement, pending⟩]
  | s, pending, b :: rest =>
    let (chunks, started, pending) := chunkStep s pending b
    chunks ++ chunksUtf8 started pending rest

/-- An odd byte at the end stands for nothing. -/
def chunksUtf16 : Bytes → List Chunk
  | low :: high :: rest =>
    ⟨[(0x100 * high.toNat + low.toNat).toUInt16], [low, high]⟩ :: chunksUtf16 rest
  | [low] => [⟨[], [low]⟩]
  | [] => []

/-- The chunks of bytes. -/
def chunks (e : Encoding) (bytes : Bytes) : List Chunk :=
  match e.scheme with
  | .sevenBit => bytes.map fun b => ⟨[(b.toNat % 0x80).toUInt16], [b]⟩
  | .eightBit => bytes.map fun b => ⟨[b.toUInt16], [b]⟩
  | .utf8 => chunksUtf8 none [] bytes
  | .utf16 => chunksUtf16 bytes

variable {p : Partial} {s : Option Partial} {pending bytes : Bytes} {cs : List Chunk} {e : Encoding}
  {n code count : Nat} {b : UInt8} {c : Chunk}

theorem chunkStep_inside (h : (p.low ≤ b && b ≤ p.high) = true) (pending : Bytes) :
    chunkStep (some p) pending b = if p.missing ≤ 1 then
        ([⟨unitsOfCode (0x40 * p.code + (b.toNat - 0x80)), pending ++ [b]⟩], none, [])
      else ([],
        some ⟨0x40 * p.code + (b.toNat - 0x80), p.missing - 1, 0x80, 0xBF⟩, pending ++ [b]) :=
  if_pos h

theorem chunkStep_outside (h : ¬ (p.low ≤ b && b ≤ p.high) = true) (pending : Bytes) :
    chunkStep (some p) pending b =
      (⟨unitsOfCode replacement, pending⟩ :: (chunkFresh b).1, (chunkFresh b).2) :=
  if_neg h

theorem chunksUtf8_cons (s : Option Partial) (pending : Bytes) (b : UInt8) (rest : Bytes) :
    chunksUtf8 s pending (b :: rest) = (chunkStep s pending b).1 ++
      chunksUtf8 (chunkStep s pending b).2.1 (chunkStep s pending b).2.2 rest := by
  cases s <;> rfl

theorem chunkFresh_spec (b : UInt8) :
    (chunkFresh b).1.flatMap Chunk.units = (stepFresh b).1 ∧ (chunkFresh b).2.1 = (stepFresh b).2 ∧
      (chunkFresh b).1.flatMap Chunk.bytes ++ (chunkFresh b).2.2 = [b] ∧
      ((chunkFresh b).2.1 = none → (chunkFresh b).2.2 = []) := by
  unfold chunkFresh stepFresh
  cases startCode b with
  | none => exact ⟨flatMap_singleton .., rfl, rfl, fun _ => rfl⟩
  | some found =>
    cases found with
    | inl code => exact ⟨flatMap_singleton .., rfl, rfl, fun _ => rfl⟩
    | inr p => exact ⟨rfl, rfl, rfl, fun hnone => by cases hnone⟩

/-- **One more byte**: what it completes has the units that decoding gives for it, and no byte is
lost. -/
theorem chunkStep_spec (h : s = none → pending = []) (b : UInt8) :
    (chunkStep s pending b).1.flatMap Chunk.units = (step s b).1 ∧
      (chunkStep s pending b).2.1 = (step s b).2 ∧
      (chunkStep s pending b).1.flatMap Chunk.bytes ++ (chunkStep s pending b).2.2 =
        pending ++ [b] ∧
      ((chunkStep s pending b).2.1 = none → (chunkStep s pending b).2.2 = []) := by
  obtain ⟨hunits, hstarted, hbytes, hnone⟩ := chunkFresh_spec b
  cases s with
  | none =>
    rw [h rfl]
    exact ⟨hunits, hstarted, hbytes, hnone⟩
  | some p =>
    by_cases hin : (p.low ≤ b && b ≤ p.high) = true
    · rw [chunkStep_inside hin, step, if_pos hin]
      by_cases hlast : p.missing ≤ 1
      · rw [if_pos hlast, if_pos hlast, flatMap_singleton, flatMap_singleton, append_nil]
        exact ⟨rfl, rfl, rfl, fun _ => rfl⟩
      · rw [if_neg hlast, if_neg hlast]
        exact ⟨rfl, rfl, rfl, fun hnone => by cases hnone⟩
    · rw [chunkStep_outside hin, step, if_neg hin, flatMap_cons, flatMap_cons, hunits,
        append_assoc, hbytes]
      exact ⟨rfl, hstarted, rfl, hnone⟩

theorem units_chunksUtf8 (h : s = none → pending = []) (bytes : Bytes) :
    (chunksUtf8 s pending bytes).flatMap Chunk.units = decodeUtf8 s bytes := by
  induction bytes generalizing s pending with
  | nil =>
    cases s with
    | none => rfl
    | some p => exact flatMap_singleton ..
  | cons b rest ih =>
    obtain ⟨hunits, hstarted, _, hnone⟩ := chunkStep_spec h b
    rw [chunksUtf8_cons, flatMap_append, hunits, ih hnone, hstarted, decodeUtf8_cons]

theorem units_chunksUtf16 (bytes : Bytes) :
    (chunksUtf16 bytes).flatMap Chunk.units = decodeUtf16 bytes := by
  fun_induction chunksUtf16 bytes with
  | case1 low high rest ih => rw [flatMap_cons, ih]; rfl
  | case2 low | case3 => rfl

theorem units_chunks (e : Encoding) (bytes : Bytes) :
    (e.chunks bytes).flatMap Chunk.units = e.decode bytes := by
  have hone : ∀ f : UInt8 → UInt16,
      (bytes.map fun b => (⟨[f b], [b]⟩ : Chunk)).flatMap Chunk.units = bytes.map f := by
    intro f
    rw [flatMap_map]
    exact flatMap_pure_eq_map f bytes
  rw [chunks, decode]
  cases e.scheme with
  | sevenBit | eightBit => exact hone _
  | utf8 => exact units_chunksUtf8 (fun _ => rfl) bytes
  | utf16 => exact units_chunksUtf16 bytes

theorem bytes_chunksUtf8 (h : s = none → pending = []) (bytes : Bytes) :
    (chunksUtf8 s pending bytes).flatMap Chunk.bytes = pending ++ bytes := by
  induction bytes generalizing s pending with
  | nil =>
    cases s with
    | none => rw [h rfl]; rfl
    | some p => rw [chunksUtf8, flatMap_singleton, append_nil]
  | cons b rest ih =>
    obtain ⟨_, _, hbytes, hnone⟩ := chunkStep_spec h b
    rw [chunksUtf8_cons, flatMap_append, ih hnone, ← append_assoc, hbytes,
      append_assoc, singleton_append]

theorem bytes_chunksUtf16 (bytes : Bytes) : (chunksUtf16 bytes).flatMap Chunk.bytes = bytes := by
  fun_induction chunksUtf16 bytes with
  | case1 low high rest ih => rw [flatMap_cons, ih]; rfl
  | case2 low | case3 => rfl

theorem bytes_map_single (f : UInt8 → Text) (bytes : Bytes) :
    (bytes.map fun b => (⟨f b, [b]⟩ : Chunk)).flatMap Chunk.bytes = bytes := by
  rw [flatMap_map]
  exact flatMap_singleton' bytes

theorem bytes_chunks (e : Encoding) (bytes : Bytes) :
    (e.chunks bytes).flatMap Chunk.bytes = bytes := by
  rw [chunks]
  cases e.scheme with
  | sevenBit | eightBit => exact bytes_map_single _ bytes
  | utf8 => exact bytes_chunksUtf8 (fun _ => rfl) bytes
  | utf16 => exact bytes_chunksUtf16 bytes

/-! ## Cuts -/

/-- **What a byte may complete**: nothing, one chunk that it ends, or one that it is not part of and
perhaps another. -/
theorem chunkStep_cases (s : Option Partial) (pending : Bytes) (b : UInt8) :
    (chunkStep s pending b).1 = [] ∨ (∃ d, chunkStep s pending b = ([d], none, [])) ∨
      ∃ p, s = some p ∧ chunkStep s pending b =
        (⟨unitsOfCode replacement, pending⟩ :: (chunkFresh b).1, (chunkFresh b).2) := by
  cases s with
  | none =>
    change (chunkFresh b).1 = [] ∨ (∃ d, chunkFresh b = ([d], none, [])) ∨ _
    unfold chunkFresh
    cases startCode b with
    | none => exact .inr (.inl ⟨_, rfl⟩)
    | some found =>
      cases found with
      | inl code => exact .inr (.inl ⟨_, rfl⟩)
      | inr p => exact .inl rfl
  | some p =>
    by_cases hin : (p.low ≤ b && b ≤ p.high) = true
    · rw [chunkStep_inside hin]
      by_cases hlast : p.missing ≤ 1
      · rw [if_pos hlast]
        exact .inr (.inl ⟨_, rfl⟩)
      · rw [if_neg hlast]
        exact .inl rfl
    · exact .inr (.inr ⟨p, rfl, chunkStep_outside hin pending⟩)

/-- **The first chunk ends where it is complete**, and the others start afresh behind it. A byte
that breaks it off is not its own, so what follows may end early but not start with another byte. -/
theorem chunksUtf8_head (h : s = none → pending = [])
    (hchunks : chunksUtf8 s pending bytes = c :: cs) :
    ∃ front back, bytes = front ++ back ∧ pending ++ front = c.bytes ∧
      chunksUtf8 none [] back = cs ∧
      ∀ more, more <+: back → chunksUtf8 s pending (front ++ more) =
        c :: chunksUtf8 none [] more := by
  induction bytes generalizing s pending with
  | nil =>
    cases s with
    | none => cases hchunks
    | some p =>
      obtain ⟨rfl, rfl⟩ := List.cons.inj hchunks
      refine ⟨[], [], rfl, append_nil _, rfl, fun more hmore => ?_⟩
      rw [prefix_nil.mp hmore]
      rfl
  | cons b rest ih =>
    obtain ⟨_, _, hbytes, hnone⟩ := chunkStep_spec h b
    rw [chunksUtf8_cons] at hchunks
    -- the byte goes on with the chunk, completes it or breaks it off
    rcases chunkStep_cases s pending b with hdone | ⟨d, hdone⟩ | ⟨p, rfl, hdone⟩
    · rw [hdone] at hchunks hbytes
      obtain ⟨front, back, rfl, hc, hback, hmore⟩ := ih hnone hchunks
      refine ⟨b :: front, back, rfl, ?_, hback, fun more hm => ?_⟩
      · rw [← hc, show (chunkStep s pending b).2.2 = pending ++ [b] from hbytes, append_assoc]
        rfl
      · rw [cons_append, chunksUtf8_cons, hdone]
        exact hmore more hm
    · rw [hdone] at hchunks hbytes
      obtain ⟨rfl, rfl⟩ := List.cons.inj hchunks
      refine ⟨[b], rest, rfl, ?_, rfl, fun more _ => ?_⟩
      · simpa using hbytes.symm
      · rw [singleton_append, chunksUtf8_cons, hdone]
        rfl
    · rw [hdone] at hchunks
      obtain ⟨rfl, rfl⟩ := List.cons.inj hchunks
      refine ⟨[], b :: rest, rfl, append_nil _, chunksUtf8_cons none [] b rest, fun more hm => ?_⟩
      cases more with
      | nil => rfl
      | cons b' more =>
        obtain ⟨rfl, _⟩ := cons_prefix_cons.mp hm
        rw [nil_append, chunksUtf8_cons, chunksUtf8_cons, hdone]
        rfl

theorem chunksUtf8_of_append {a b : List Chunk} (h : chunksUtf8 none [] bytes = a ++ b) :
    chunksUtf8 none [] (a.flatMap Chunk.bytes) = a ∧
      chunksUtf8 none [] (b.flatMap Chunk.bytes) = b := by
  induction a generalizing bytes with
  | nil =>
    have hbytes := bytes_chunksUtf8 (s := none) (fun _ => rfl) bytes
    rw [h] at hbytes
    exact ⟨rfl, by rw [show b.flatMap Chunk.bytes = bytes from hbytes]; exact h⟩
  | cons c a ih =>
    rw [cons_append] at h
    obtain ⟨front, back, rfl, hc, hback, hmore⟩ := chunksUtf8_head (fun _ => rfl) h
    obtain ⟨hfirst, hrest⟩ := ih hback
    have hbytes := bytes_chunksUtf8 (s := none) (fun _ => rfl) back
    rw [hback, flatMap_append] at hbytes
    refine ⟨?_, hrest⟩
    rw [flatMap_cons, ← hc, nil_append, hmore _ ⟨_, hbytes⟩, hfirst]

theorem chunksUtf16_of_append {a b : List Chunk} (h : chunksUtf16 bytes = a ++ b) :
    chunksUtf16 (a.flatMap Chunk.bytes) = a ∧ chunksUtf16 (b.flatMap Chunk.bytes) = b := by
  induction a generalizing bytes with
  | nil =>
    have hbytes := bytes_chunksUtf16 bytes
    rw [h, nil_append] at hbytes
    exact ⟨rfl, by rw [hbytes]; exact h⟩
  | cons c a ih =>
    cases bytes with
    | nil => cases h
    | cons low rest =>
      cases rest with
      | nil =>
        obtain ⟨rfl, hnil⟩ := List.cons.inj h
        obtain ⟨rfl, rfl⟩ := append_eq_nil_iff.mp hnil.symm
        exact ⟨rfl, rfl⟩
      | cons high rest =>
        obtain ⟨rfl, hmore⟩ := List.cons.inj h
        obtain ⟨hfirst, hrest⟩ := ih hmore
        exact ⟨congrArg _ hfirst, hrest⟩

/-- **Chunks can be cut between two of them**: the bytes of either part have the chunks of that
part. -/
theorem chunks_of_append {a b : List Chunk} (h : e.chunks bytes = a ++ b) :
    e.chunks (a.flatMap Chunk.bytes) = a ∧ e.chunks (b.flatMap Chunk.bytes) = b := by
  rw [chunks] at h
  rw [chunks, chunks]
  cases hscheme : e.scheme with
  | sevenBit | eightBit =>
    rw [hscheme] at h
    obtain ⟨l, m, rfl, rfl, rfl⟩ := map_eq_append_iff.mp h
    dsimp only
    rw [bytes_map_single, bytes_map_single]
    exact ⟨rfl, rfl⟩
  | utf8 =>
    rw [hscheme] at h
    exact chunksUtf8_of_append h
  | utf16 =>
    rw [hscheme] at h
    exact chunksUtf16_of_append h

/-! ## Characters -/

/-- A code point that is not half of a pair. -/
structure Scalar (n : Nat) : Prop where
  lt : n < 0x110000
  whole : Text.isSurrogateCode n = false

theorem scalar_iff : Scalar n ↔ n < 0xD800 ∨ 0xE000 ≤ n ∧ n < 0x110000 := by
  have hwhole : Text.isSurrogateCode n = false ↔ n < 0xD800 ∨ 0xE000 ≤ n := by
    rw [Text.isSurrogateCode, Bool.and_eq_false_iff,
      decide_eq_false_iff_not, decide_eq_false_iff_not]
    omega
  constructor
  · intro h
    have := h.lt
    have := hwhole.mp h.whole
    omega
  · intro h
    exact ⟨by omega, hwhole.mpr (by omega)⟩

theorem scalar_replacement : Scalar replacement := by
  rw [scalar_iff, replacement]
  omega

theorem length_encodeCode (h : Scalar n) : (encodeCode n).length =
    if n < 0x80 then 1 else if n < 0x800 then 2 else if n < 0x10000 then 3 else 4 := by
  unfold encodeCode
  dsimp only
  rw [h.whole, if_neg Bool.false_ne_true]
  split_ifs <;> rfl

theorem toNat_toUInt16 {k : Nat} (hk : k < 0x10000) : k.toUInt16.toNat = k := by simpa using hk

theorem pair_of_code {m : Nat} (h : m < 0x100000) :
    Text.isHighSurrogate (0xD800 + m / 0x400).toUInt16 = true ∧
      Text.isLowSurrogate (0xDC00 + m % 0x400).toUInt16 = true ∧
      Text.isHighSurrogate (0xDC00 + m % 0x400).toUInt16 = false ∧
      Text.pairCode (0xD800 + m / 0x400).toUInt16 (0xDC00 + m % 0x400).toUInt16 = 0x10000 + m := by
  have hhigh : (0xD800 + m / 0x400).toUInt16.toNat = 0xD800 + m / 0x400 := toNat_toUInt16 (by omega)
  have hlow : (0xDC00 + m % 0x400).toUInt16.toNat = 0xDC00 + m % 0x400 := toNat_toUInt16 (by omega)
  generalize (0xD800 + m / 0x400).toUInt16 = u at *
  generalize (0xDC00 + m % 0x400).toUInt16 = v at *
  refine ⟨?_, ?_, ?_, ?_⟩
  · simp only [Text.isHighSurrogate, Bool.and_eq_true, decide_eq_true_eq, UInt16.le_iff_toNat_le,
      UInt16.reduceToNat]
    omega
  · simp only [Text.isLowSurrogate, Bool.and_eq_true, decide_eq_true_eq, UInt16.le_iff_toNat_le,
      UInt16.reduceToNat]
    omega
  · simp only [Text.isHighSurrogate, Bool.and_eq_false_iff, decide_eq_false_iff_not,
      UInt16.le_iff_toNat_le, UInt16.reduceToNat]
    omega
  · unfold Text.pairCode
    omega

theorem unitsOfCode_cases (h : Scalar n) :
    (∃ u, unitsOfCode n = [u] ∧ u.toNat = n ∧ Text.isSurrogate u = false) ∨
      ∃ u v, unitsOfCode n = [u, v] ∧ Text.isHighSurrogate u = true ∧ Text.isLowSurrogate v = true ∧
        Text.isHighSurrogate v = false ∧ Text.pairCode u v = n := by
  have hlt := h.lt
  rw [unitsOfCode]
  by_cases hsmall : n < 0x10000
  · rw [if_pos hsmall]
    have hunit := toNat_toUInt16 hsmall
    refine .inl ⟨_, rfl, hunit, ?_⟩
    rw [← Text.isSurrogateCode_toNat, hunit]
    exact h.whole
  · rw [if_neg hsmall]
    obtain ⟨m, rfl⟩ : ∃ m, n = 0x10000 + m := ⟨n - 0x10000, by omega⟩
    rw [Nat.add_sub_cancel_left]
    obtain ⟨hhigh, hlow, hnot, hcode⟩ := pair_of_code (m := m) (by omega)
    exact .inr ⟨_, _, rfl, hhigh, hlow, hnot, hcode⟩

theorem codePoints_unitsOfCode (h : Scalar n) : (unitsOfCode n).codePoints = [n] := by
  rcases unitsOfCode_cases h with ⟨u, hunits, hcode, _⟩ | ⟨u, v, hunits, hhigh, hlow, _, hcode⟩
  · rw [hunits, Text.codePoints, hcode]
  · rw [hunits, Text.codePoints, hhigh, hlow, if_pos (by simp), hcode]
    rfl

theorem closed_unitsOfCode (h : Scalar n) : (unitsOfCode n).Closed := by
  rcases unitsOfCode_cases h with ⟨v, hunits, _, hwhole⟩ | ⟨_, v, hunits, _, _, hnot, _⟩
  · rw [Text.isSurrogate, Bool.or_eq_false_iff] at hwhole
    rw [hunits]
    exact hwhole.1
  · rw [hunits]
    exact hnot

/-- The least code point that some first bytes can lead to. -/
def Partial.least (p : Partial) : Nat :=
  (0x40 * p.code + (p.low.toNat - 0x80)) * Nat.pow 0x40 (p.missing - 1)

/-- The greatest code point that some first bytes can lead to. -/
def Partial.greatest (p : Partial) : Nat :=
  (0x40 * p.code + (p.high.toNat - 0x80)) * Nat.pow 0x40 (p.missing - 1) +
    (Nat.pow 0x40 (p.missing - 1) - 1)

/-- Whatever some first bytes lead to is a code point with as many bytes. -/
structure Partial.Sound (p : Partial) (count : Nat) : Prop where
  pos : 1 ≤ p.missing
  le : p.missing ≤ 3
  short : count + p.missing ≤ 4
  low : 0x80 ≤ p.low.toNat
  high : p.high.toNat ≤ 0xBF
  fits : ∀ code, p.least ≤ code → code ≤ p.greatest →
    Scalar code ∧ (encodeCode code).length = count + p.missing

/-- A chunk that stands for one code point, and is not longer than its bytes. -/
def Chunk.IsCharacter (c : Chunk) : Prop :=
  ∃ code, Scalar code ∧ c.units = unitsOfCode code ∧ c.bytes.length ≤ (encodeCode code).length

theorem isCharacter_of_code (h : Scalar code) (hlength : bytes.length ≤ (encodeCode code).length) :
    Chunk.IsCharacter ⟨unitsOfCode code, bytes⟩ :=
  ⟨code, h, rfl, hlength⟩

theorem isCharacter_replacement (h : bytes.length ≤ 3) :
    Chunk.IsCharacter ⟨unitsOfCode replacement, bytes⟩ :=
  isCharacter_of_code scalar_replacement h

/-- What is to be shown of first bytes: the code points that they lead to lie where those with as
many bytes do. -/
theorem sound_of_range {p : Partial} {count : Nat} (hpos : 1 ≤ p.missing) (hle : p.missing ≤ 3)
    (hshort : count + p.missing ≤ 4) (hlow : 0x80 ≤ p.low.toNat) (hhigh : p.high.toNat ≤ 0xBF)
    (h : ∀ code, p.least ≤ code → code ≤ p.greatest →
      count + p.missing = 2 ∧ 0x80 ≤ code ∧ code < 0x800 ∨
      count + p.missing = 3 ∧ 0x800 ≤ code ∧ code < 0x10000 ∧ (code < 0xD800 ∨ 0xE000 ≤ code) ∨
      count + p.missing = 4 ∧ 0x10000 ≤ code ∧ code < 0x110000) : p.Sound count := by
  refine ⟨hpos, hle, hshort, hlow, hhigh, fun code hleast hgreatest => ?_⟩
  have hrange := h code hleast hgreatest
  have hscalar : Scalar code := scalar_iff.mpr (by omega)
  refine ⟨hscalar, ?_⟩
  rw [length_encodeCode hscalar]
  rcases hrange with ⟨hcount, _, _⟩ | ⟨hcount, _, _, _⟩ | ⟨hcount, _, _⟩
  · rw [if_neg (by omega), if_pos (by omega), hcount]
  · rw [if_neg (by omega), if_neg (by omega), if_pos (by omega), hcount]
  · rw [if_neg (by omega), if_neg (by omega), if_neg (by omega), hcount]

theorem toNat_ite (c : Prop) [Decidable c] (a b : UInt8) :
    c ∧ (if c then a else b).toNat = a.toNat ∨ ¬ c ∧ (if c then a else b).toNat = b.toNat := by
  by_cases h : c
  · exact .inl ⟨h, by rw [if_pos h]⟩
  · exact .inr ⟨h, by rw [if_neg h]⟩

/-- **How a code point starts**, whatever the bytes after its first one are. -/
theorem startCode_sound (h : startCode b = some (.inr p)) : p.Sound 1 := by
  unfold startCode at h
  dsimp only at h
  generalize b.toNat = n at h
  split at h
  · simp at h
  · split at h
    · simp at h
    · split at h
      · rw [Option.some.injEq, Sum.inr.injEq] at h
        subst h
        refine sound_of_range (Nat.le_refl 1) (Nat.le_add_left 1 2) (Nat.le_add_left 2 2)
          (Nat.le_refl _) (Nat.le_refl _) fun code hleast hgreatest => .inl ⟨rfl, ?_⟩
        simp only [Partial.least, Partial.greatest, Nat.pow_eq,
          UInt8.reduceToNat] at hleast hgreatest
        omega
      · split at h
        · rw [Option.some.injEq, Sum.inr.injEq] at h
          subst h
          -- 0xE0 bars overlong forms and 0xED surrogates
          have hlow := toNat_ite (n = 0xE0) 0xA0 0x80
          have hhigh := toNat_ite (n = 0xED) 0x9F 0xBF
          simp only [UInt8.reduceToNat] at hlow hhigh
          refine sound_of_range (Nat.le_add_left 1 1) (Nat.le_add_left 2 1) (Nat.le_add_left 3 1)
            (by dsimp only; omega) (by dsimp only; omega) fun code hleast hgreatest =>
              .inr (.inl ⟨rfl, ?_⟩)
          simp only [Partial.least, Partial.greatest, Nat.pow_eq] at hleast hgreatest
          omega
        · split at h
          · rw [Option.some.injEq, Sum.inr.injEq] at h
            subst h
            -- 0xF0 bars overlong forms and 0xF4 what is beyond the last code point
            have hlow := toNat_ite (n = 0xF0) 0x90 0x80
            have hhigh := toNat_ite (n = 0xF4) 0x8F 0xBF
            simp only [UInt8.reduceToNat] at hlow hhigh
            refine sound_of_range (Nat.le_add_left 1 2) (Nat.le_refl 3) (Nat.le_refl 4)
              (by dsimp only; omega) (by dsimp only; omega) fun code hleast hgreatest =>
                .inr (.inr ⟨rfl, ?_⟩)
            simp only [Partial.least, Partial.greatest, Nat.pow_eq] at hleast hgreatest
            omega
          · simp at h

theorem startCode_complete (h : startCode b = some (.inl code)) : code < 0x80 := by
  unfold startCode at h
  dsimp only at h
  split_ifs at h with hsmall
  · rw [Option.some.injEq, Sum.inl.injEq] at h
    exact h ▸ hsmall
  all_goals simp at h

/-- A byte that goes on with a code point leaves fewer to which the bytes can lead. -/
theorem Partial.Sound.next (h : p.Sound count) (hlow : p.low.toNat ≤ b.toNat)
    (hhigh : b.toNat ≤ p.high.toNat) (hmore : ¬ p.missing ≤ 1) :
    Partial.Sound ⟨0x40 * p.code + (b.toNat - 0x80), p.missing - 1, 0x80, 0xBF⟩ (count + 1) := by
  have hle := h.le
  have hshort := h.short
  have hleast := h.low
  have hgreatest := h.high
  refine ⟨by dsimp only; omega, by dsimp only; omega, by dsimp only; omega,
    Nat.le_refl _, Nat.le_refl _, fun code hfrom hto => ?_⟩
  obtain ⟨hscalar, hlength⟩ : Scalar code ∧ (encodeCode code).length = count + p.missing := by
    refine h.fits code ?_ ?_
    -- two bytes are missing or three
    · rcases (by omega : p.missing = 2 ∨ p.missing = 3) with hmissing | hmissing
      · simp only [Partial.least, Nat.pow_eq, hmissing, UInt8.reduceToNat] at hfrom ⊢
        omega
      · simp only [Partial.least, Nat.pow_eq, hmissing, UInt8.reduceToNat] at hfrom ⊢
        omega
    · rcases (by omega : p.missing = 2 ∨ p.missing = 3) with hmissing | hmissing
      · simp only [Partial.greatest, Nat.pow_eq, hmissing, UInt8.reduceToNat] at hto ⊢
        omega
      · simp only [Partial.greatest, Nat.pow_eq, hmissing, UInt8.reduceToNat] at hto ⊢
        omega
  refine ⟨hscalar, ?_⟩
  rw [hlength]
  dsimp only
  omega

theorem Partial.Sound.last (h : p.Sound count) (hlow : p.low.toNat ≤ b.toNat)
    (hhigh : b.toNat ≤ p.high.toNat) (hlast : p.missing ≤ 1) :
    Scalar (0x40 * p.code + (b.toNat - 0x80)) ∧
      (encodeCode (0x40 * p.code + (b.toNat - 0x80))).length = count + 1 := by
  have hpos := h.pos
  have hone : p.missing = 1 := by omega
  have hfits := h.fits (0x40 * p.code + (b.toNat - 0x80))
  rw [Partial.least, Partial.greatest, hone, Nat.sub_self, Nat.pow_eq, Nat.pow_zero, Nat.mul_one,
    Nat.mul_one] at hfits
  exact hfits (by omega) (by omega)

/-- **A byte** completes only characters, and leaves the start of one that can be completed. -/
theorem chunkStep_sound (hs : ∀ p, s = some p → p.Sound pending.length) (b : UInt8) :
    (∀ c ∈ (chunkStep s pending b).1, c.IsCharacter) ∧
      ∀ p, (chunkStep s pending b).2.1 = some p → p.Sound (chunkStep s pending b).2.2.length := by
  -- a byte that goes on with no character starts one, is one or stands for none
  have hfresh : (∀ c ∈ (chunkFresh b).1, c.IsCharacter) ∧
      ∀ p, (chunkFresh b).2.1 = some p → p.Sound (chunkFresh b).2.2.length := by
    unfold chunkFresh
    cases hstart : startCode b with
    | none =>
      refine ⟨fun c hc => ?_, fun p hp => by cases hp⟩
      rw [mem_singleton.mp hc]
      exact isCharacter_replacement (Nat.le_add_left 1 2)
    | some found =>
      cases found with
      | inl code =>
        refine ⟨fun c hc => ?_, fun p hp => by cases hp⟩
        rw [mem_singleton.mp hc]
        have hsmall := startCode_complete hstart
        have hscalar : Scalar code := scalar_iff.mpr (by omega)
        refine isCharacter_of_code hscalar ?_
        rw [length_encodeCode hscalar, if_pos hsmall]
        exact Nat.le_refl 1
      | inr p =>
        refine ⟨fun c hc => absurd hc not_mem_nil, fun q hq => ?_⟩
        cases hq
        exact startCode_sound hstart
  cases s with
  | none => exact hfresh
  | some p =>
    have hp := hs p rfl
    have hshort := hp.short
    have hpos := hp.pos
    by_cases hin : (p.low ≤ b && b ≤ p.high) = true
    · rw [chunkStep_inside hin]
      simp only [Bool.and_eq_true, decide_eq_true_eq, UInt8.le_iff_toNat_le] at hin
      by_cases hlast : p.missing ≤ 1
      · rw [if_pos hlast]
        refine ⟨fun c hc => ?_, fun p hp => by cases hp⟩
        rw [mem_singleton.mp hc]
        obtain ⟨hscalar, hlength⟩ := hp.last hin.1 hin.2 hlast
        refine isCharacter_of_code hscalar (Nat.le_of_eq ?_)
        rw [hlength, length_append]
        rfl
      · rw [if_neg hlast]
        refine ⟨fun c hc => absurd hc not_mem_nil, fun q hq => ?_⟩
        obtain rfl := Option.some.inj hq
        rw [length_append]
        exact hp.next hin.1 hin.2 hlast
    · -- the byte breaks the character off, and is taken afresh
      rw [chunkStep_outside hin]
      refine ⟨fun c hc => ?_, hfresh.2⟩
      rcases mem_cons.mp hc with rfl | hc
      · exact isCharacter_replacement (by omega)
      · exact hfresh.1 c hc

theorem isCharacter_of_mem (hs : ∀ p, s = some p → p.Sound pending.length) :
    ∀ c ∈ chunksUtf8 s pending bytes, c.IsCharacter := by
  induction bytes generalizing s pending with
  | nil =>
    intro c hc
    cases s with
    | none => cases hc
    | some p =>
      have hp := hs p rfl
      have hshort := hp.short
      have hpos := hp.pos
      rw [mem_singleton.mp hc]
      exact isCharacter_replacement (by omega)
  | cons b rest ih =>
    intro c hc
    obtain ⟨hchunks, hstarted⟩ := chunkStep_sound hs b
    rw [chunksUtf8_cons] at hc
    rcases mem_append.mp hc with hc | hc
    · exact hchunks c hc
    · exact ih hstarted c hc

/-! ## Back to bytes -/

/-- A text that is encoded by itself, whatever follows. -/
def Separate (e : Encoding) (t : Text) : Prop := e.scheme = .utf8 → t.Closed

theorem encode_append {a : Text} (ha : e.Separate a) (b : Text) :
    e.encode (a ++ b) = e.encode a ++ e.encode b := by
  unfold Separate at ha
  rw [encode, encode, encode]
  cases hscheme : e.scheme with
  | sevenBit | eightBit => exact map_append
  | utf8 =>
    dsimp only
    have hclosed : Text.Closed _ := ha hscheme
    rw [Text.codePoints_append (by rw [hclosed, Bool.false_and]), flatMap_append]
  | utf16 => exact flatMap_append

theorem encode_flatMap (h : ∀ c ∈ cs, e.Separate c.units) :
    e.encode (cs.flatMap Chunk.units) = cs.flatMap fun c => e.encode c.units := by
  induction cs with
  | nil =>
    rw [encode]
    cases e.scheme <;> rfl
  | cons c cs ih =>
    rw [flatMap_cons, encode_append (h c (by simp)), ih fun d hd => h d (.tail _ hd), flatMap_cons]

theorem separate_of_mem (hc : c ∈ e.chunks bytes) : e.Separate c.units := by
  intro hscheme
  rw [chunks, hscheme] at hc
  obtain ⟨code, hscalar, hunits, _⟩ := isCharacter_of_mem (by simp) c hc
  rw [hunits]
  exact closed_unitsOfCode hscalar

theorem mem_chunksUtf16 (hc : c ∈ chunksUtf16 bytes) :
    (∃ u low high, c = ⟨[u], [low, high]⟩) ∨ ∃ low, c = ⟨[], [low]⟩ := by
  fun_induction chunksUtf16 bytes with
  | case1 low high rest ih =>
    rcases mem_cons.mp hc with rfl | hc
    · exact .inl ⟨_, low, high, rfl⟩
    · exact ih hc
  | case2 low => exact .inr ⟨low, mem_singleton.mp hc⟩
  | case3 => cases hc

theorem units_of_mem (hc : c ∈ e.chunks bytes) : c.units.length ≤ 1 ∨
      ∃ u v, c.units = [u, v] ∧ Text.isHighSurrogate u = true ∧ Text.isLowSurrogate v = true := by
  rw [chunks] at hc
  cases hscheme : e.scheme with
  | sevenBit | eightBit =>
    rw [hscheme] at hc
    obtain ⟨b, _, rfl⟩ := mem_map.mp hc
    exact .inl (Nat.le_refl 1)
  | utf8 =>
    rw [hscheme] at hc
    obtain ⟨code, hscalar, hunits, _⟩ := isCharacter_of_mem (by simp) c hc
    rcases unitsOfCode_cases hscalar with ⟨u, hu, _, _⟩ | ⟨u, v, hu, hhigh, hlow, _, _⟩
    · exact .inl (by rw [hunits, hu]; exact Nat.le_refl 1)
    · exact .inr ⟨u, v, hunits.trans hu, hhigh, hlow⟩
  | utf16 =>
    rw [hscheme] at hc
    rcases mem_chunksUtf16 hc with ⟨_, _, _, rfl⟩ | ⟨_, rfl⟩
    · exact .inl (Nat.le_refl 1)
    · exact .inl (Nat.zero_le 1)

/-- **The bytes of a chunk and those of its units**: none gets shorter, or none gets longer. -/
theorem length_encode_units (e : Encoding) (bytes : Bytes) :
    (∀ c ∈ e.chunks bytes, c.bytes.length ≤ (e.encode c.units).length) ∨
      ∀ c ∈ e.chunks bytes, (e.encode c.units).length ≤ c.bytes.length := by
  cases hscheme : e.scheme with
  | sevenBit | eightBit =>
    refine .inl fun c hc => ?_
    rw [chunks, hscheme] at hc
    obtain ⟨b, _, rfl⟩ := mem_map.mp hc
    rw [encode, hscheme]
    exact Nat.le_refl 1
  | utf8 =>
    refine .inl fun c hc => ?_
    rw [chunks, hscheme] at hc
    obtain ⟨code, hscalar, hunits, hlength⟩ := isCharacter_of_mem (by simp) c hc
    rw [encode, hscheme, hunits]
    dsimp only
    rwa [codePoints_unitsOfCode hscalar, flatMap_singleton]
  | utf16 =>
    -- only an odd byte at the end is lost
    refine .inr fun c hc => ?_
    rw [chunks, hscheme] at hc
    rw [encode, hscheme]
    rcases mem_chunksUtf16 hc with ⟨_, _, _, rfl⟩ | ⟨_, rfl⟩
    · exact Nat.le_refl 2
    · exact Nat.zero_le 1

end Posonly.Encoding
